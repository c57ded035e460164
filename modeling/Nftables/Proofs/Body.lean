import Nftables.Command.Reader
import Nftables.Object.Command
import Nftables.Proofs.BareWord
import Nftables.Proofs.Quoted

/-!
# Braced bodies

A body in braces is read back clause by clause: the braces and the padding come off, the comment is
found among the clauses, the clauses are cut at their semicolons, and the lists in them at their
commas.

The readers do not take a body apart along its grammar. They look for a comment anywhere in it, for
a hook anywhere, and cut the rest at every semicolon and every comma, so what has to be shown is
mostly that nothing reads as something else: a text without a quote holds no comment
(`not_infix_of_quote`), a device in quotes does not either (`not_infix_comment_device`), and a list
of devices does not read as the hook of its flowtable (`not_infix_devices`). The condition under
which clauses do not get into each other's way is `Clean`; bare words satisfy it, and so does
whatever is put together from them.

How the clauses of one kind of object are put together is the business of the modules under
`Proofs/Reading`, which use these lemmas clause by clause.
-/

namespace Nftables.Clause

open Text

/-! ## Braces -/

/-- Clauses behind one another, with a space in front of each. -/
def padded (clauses : List String) : List Char :=
  clauses.flatMap fun c => ' ' :: (c.toList ++ " ;".toList)

/-- What stands between the braces, without the spaces at the ends. -/
def inside : List String → List Char
  | [] => []
  | c :: cs => c.toList ++ (" ;".toList ++ padded cs)

theorem padded_cons (c : String) (cs : List String) :
    padded (c :: cs) = ' ' :: inside (c :: cs) := by
  simp [padded, inside]

theorem padded_append (l₁ l₂ : List String) : padded (l₁ ++ l₂) = padded l₁ ++ padded l₂ :=
  List.flatMap_append

theorem toList_braced (clauses : List String) :
    (braced clauses).toList = " \x7b".toList ++ (padded clauses ++ " \x7d".toList) := by
  simp [braced, padded, List.flatMap_map]

theorem unpad_padded (clauses : List String) :
    unpad (padded clauses ++ [' ']) = inside clauses := by
  cases clauses with
  | nil => rfl
  | cons c cs =>
    -- one space comes off in front, one behind
    have hfront : expect " " (' ' :: (inside (c :: cs) ++ [' ']))
        = some (inside (c :: cs) ++ [' ']) :=
      expect_append " " _
    rw [padded_cons, unpad, List.cons_append, hfront, Option.getD_some, dropSuffix?_append,
      Option.getD_some]

theorem readBody_braced (clauses : List String) :
    readBody (braced clauses).toList = some (inside clauses) := by
  have hopen := expect_append " \x7b" (padded clauses ++ " \x7d".toList)
  -- the space before the closing brace stays with the clauses
  have hclose : dropSuffix? ['\x7d'] (padded clauses ++ " \x7d".toList)
      = some (padded clauses ++ [' ']) := by
    rw [show padded clauses ++ " \x7d".toList = padded clauses ++ [' '] ++ ['\x7d'] by simp]
    exact dropSuffix?_append _ _
  rw [toList_braced, readBody]
  · rw [hopen, Option.bind_eq_bind, Option.bind_some, hclose, Option.bind_some, unpad_padded]
    rfl
  · simp

/-- What reads as a body is nothing, or starts with a blank. -/
theorem head_of_readBody {rest body : List Char} (h : readBody rest = some body) :
    ∀ c ∈ rest.head?, isBlank c = true := by
  intro c hc
  unfold readBody at h
  split at h
  · cases hc
  · obtain ⟨inside, hinside, -⟩ := Option.bind_eq_some_iff.mp h
    obtain ⟨r, hr⟩ := prefix_of_expect hinside
    rw [← hr] at hc
    cases hc
    decide

theorem readNameAndBody_append {name rest body : List Char} (hname : Word name)
    (h : readBody rest = some body) : readNameAndBody (name ++ rest) = some (name, body) := by
  rw [readNameAndBody, readWord_append hname (head_of_readBody h), Option.bind_eq_bind,
    Option.bind_some]
  dsimp only
  rw [h]
  rfl

/-! ## The comment among the clauses -/

theorem inside_append {l₁ l₂ : List String} (h₁ : l₁ ≠ []) (h₂ : l₂ ≠ []) :
    inside (l₁ ++ l₂) = inside l₁ ++ ' ' :: inside l₂ := by
  obtain ⟨c, cs, rfl⟩ := List.exists_cons_of_ne_nil h₁
  obtain ⟨d, ds, rfl⟩ := List.exists_cons_of_ne_nil h₂
  rw [List.cons_append, inside, padded_append, padded_cons]
  simp [inside]

theorem getLast?_inside (c : String) (cs : List String) :
    (inside (c :: cs)).getLast? = some ';' := by
  induction cs generalizing c with
  | nil => simp [inside, padded]
  | cons d ds ih =>
    rw [← List.singleton_append, inside_append (by simp) (by simp), List.getLast?_append,
      List.getLast?_cons, ih]
    rfl

/-- A clause that stands for itself: it has a front and an end that are not blank. -/
def Solid (c : String) : Prop := c.toList ≠ [] ∧ Trimmed c.toList

theorem trimmed_inside {clauses : List String} (h : ∀ c ∈ clauses, Solid c) :
    Trimmed (inside clauses) := by
  cases clauses with
  | nil => exact ⟨by simp [inside], by simp [inside]⟩
  | cons c cs =>
    constructor
    · intro d hd
      have hc := h c List.mem_cons_self
      rw [inside, List.head?_append_of_ne_nil _ hc.1] at hd
      exact hc.2.1 d hd
    · rw [getLast?_inside]
      intro d hd
      cases hd
      decide

theorem toList_commentClause (s : String) : ∃ clause, commentClause (some s) = [clause] ∧
    clause.toList = "comment \"".toList ++ (quoteBody s.toList ++ ['"']) :=
  ⟨_, rfl, by simp [quote]⟩

theorem solid_commentClause (comment : Option String) : ∀ c ∈ commentClause comment, Solid c := by
  cases comment with
  | none => simp [commentClause, clause?]
  | some s =>
    obtain ⟨clause, hclause, htext⟩ := toList_commentClause s
    -- the clause begins with a letter and ends with its quote
    have hcut : clause.toList
        = "comment".toList ++ (" \"".toList ++ quoteBody s.toList) ++ ['"'] := by
      simp [htext]
    rw [hclause, List.forall_mem_singleton]
    refine ⟨by simp [htext], ?_⟩
    rw [hcut]
    exact Trimmed.between (by decide) (by decide) (by decide) (by simp) _

/-- **The comment of a body is found behind its other clauses.** -/
theorem takeComment_inside {clauses : List String} {comment : Option String}
    (hquote : ¬ "comment \"".toList <:+: inside clauses)
    (hclauses : ∀ c ∈ clauses, Solid c)
    (hcomment : ∀ s ∈ comment, ∀ c ∈ s.toList, Escapable c) :
    takeComment (inside (clauses ++ commentClause comment))
      = (inside clauses, comment.map String.toList) := by
  cases comment with
  | none =>
    rw [show commentClause none = [] from rfl, List.append_nil, takeComment_eq_self hquote]
    rfl
  | some s =>
    have hclause : inside (commentClause (some s))
        = "comment \"".toList ++ (quoteBody s.toList ++ "\" ;".toList) := by
      simp [commentClause, clause?, inside, padded, quote]
    by_cases hnil : clauses = []
    · rw [hnil, List.nil_append, hclause]
      exact takeComment_append (show ¬ "comment \"".toList <:+: [] by decide) (hcomment s rfl)
    · -- the space in front of the comment does not complete another one
      have hbefore : ¬ "comment \"".toList <:+: inside clauses ++ [' '] := by
        rw [List.infix_concat_iff]
        rintro (⟨t, ht⟩ | hin)
        · have hlast := congrArg List.getLast? ht
          rw [List.getLast?_append, List.getLast?_append] at hlast
          cases hlast
        · exact hquote hin
      rw [inside_append hnil (by simp [commentClause, clause?]), hclause,
        ← List.singleton_append, ← List.append_assoc,
        takeComment_append hbefore (hcomment s rfl)]
      have hpad := trim_pad [] [' '] (trimmed_inside hclauses) (by simp)
        (by decide)
      rw [List.nil_append] at hpad
      rw [hpad]
      rfl

/-- A text without a quote has no comment clause in it. -/
theorem not_infix_of_quote {s : List Char} (h : '"' ∉ s) : ¬ "comment \"".toList <:+: s :=
  fun hin => h (hin.subset (by decide))

theorem not_mem_inside {d : Char} {clauses : List String} (hd : d ∉ [' ', ';'])
    (h : ∀ c ∈ clauses, d ∉ c.toList) : d ∉ inside clauses := by
  have hpadded : ∀ cs : List String, (∀ c ∈ cs, d ∉ c.toList) → d ∉ padded cs := by
    intro cs hcs hmem
    obtain ⟨c, hc, hmem⟩ := List.mem_flatMap.mp hmem
    have hdc := hcs c hc
    simp_all
  cases clauses with
  | nil => simp [inside]
  | cons c cs =>
    have hmem := hpadded (c :: cs) h
    rw [padded_cons, List.mem_cons, not_or] at hmem
    exact hmem.2

/-! ## Clauses of sets and maps -/

theorem bodyClauses_append (s t : List Char) :
    Command.bodyClauses (s ++ ';' :: t) = Command.bodyClauses s ++ Command.bodyClauses t := by
  rw [Command.bodyClauses, List.splitOn_append_cons_self, List.map_append, List.filter_append]
  rfl

theorem bodyClauses_single (before after : List Char) {s : List Char} (hne : s ≠ []) (h : Trimmed s)
    (hsemi : ';' ∉ s) (hbefore : ∀ c ∈ before, c = ' ') (hafter : ∀ c ∈ after, c = ' ') :
    Command.bodyClauses (before ++ s ++ after) = [s] := by
  have hnot : ';' ∉ before ++ s ++ after := by
    simp only [List.mem_append, not_or]
    exact ⟨⟨fun hc => absurd (hbefore _ hc) (by decide), hsemi⟩,
      fun hc => absurd (hafter _ hc) (by decide)⟩
  -- spaces are blanks, so trimming takes them off
  have hblank : ∀ c, c = ' ' → isBlank c = true := by
    rintro c rfl
    decide
  rw [Command.bodyClauses, List.splitOn_eq_singleton hnot, List.map_singleton,
    trim_pad before after h (fun c hc => hblank c (hbefore c hc))
      fun c hc => hblank c (hafter c hc)]
  simp [hne]

/-- **The clauses of a body come back.** -/
theorem bodyClauses_inside {clauses : List String}
    (h : ∀ c ∈ clauses, Solid c ∧ ';' ∉ c.toList) :
    Command.bodyClauses (inside clauses) = clauses.map String.toList := by
  -- first with a space in front of every clause, for the first one of a body has none
  have hpadded : ∀ cs : List String, (∀ c ∈ cs, Solid c ∧ ';' ∉ c.toList) →
      Command.bodyClauses (padded cs) = cs.map String.toList := by
    intro cs hcs
    induction cs with
    | nil => rfl
    | cons c cs ih =>
      obtain ⟨hsolid, hsemi⟩ := hcs c List.mem_cons_self
      have hc := bodyClauses_single [' '] [' '] hsolid.1 hsolid.2 hsemi
        (by simp) (by simp)
      have hcut : padded (c :: cs) = [' '] ++ c.toList ++ [' '] ++ ';' :: padded cs := by
        simp [padded]
      rw [hcut, bodyClauses_append, hc, ih fun d hd => hcs d (.tail _ hd)]
      rfl
  cases clauses with
  | nil => rfl
  | cons c cs =>
    obtain ⟨hsolid, hsemi⟩ := h c List.mem_cons_self
    have hc := bodyClauses_single [] [' '] hsolid.1 hsolid.2 hsemi
      (by simp) (by simp)
    have hcut : inside (c :: cs) = [] ++ c.toList ++ [' '] ++ ';' :: padded cs := by
      simp [inside]
    rw [hcut, bodyClauses_append, hc, hpadded cs fun d hd => h d (.tail _ hd)]
    rfl

/-- A text on one line, solid, that no other clause and no comment starts in. -/
def Clean (s : String) : Prop := Solid s ∧ ∀ c ∈ s.toList, c ∉ ['\n', ';', '"']

instance (s : String) : Decidable (Solid s) := inferInstanceAs (Decidable (_ ∧ _))

instance (s : String) : Decidable (Clean s) := inferInstanceAs (Decidable (_ ∧ _))

theorem Clean.not_mem {s : String} (h : Clean s) {c : Char} (hc : c ∈ ['\n', ';', '"']) :
    c ∉ s.toList :=
  fun hmem => h.2 c hmem hc

theorem clean_of_bareWord {s : String} (h : BareWord s.toList) : Clean s :=
  ⟨⟨h.1, h.word.trimmed⟩, fun c hc hmem => by
    have hbare := h.2 c hc
    simp only [List.mem_cons, List.not_mem_nil, or_false] at hmem
    rcases hmem with rfl | rfl | rfl <;> exact absurd hbare (by decide)⟩

theorem Clean.keyword {k s : String} (hk : BareWord k.toList) (hs : Clean s) :
    Clean (k ++ " " ++ s) := by
  have htext : (k ++ " " ++ s).toList = k.toList ++ " ".toList ++ s.toList := by
    simp
  refine ⟨⟨by simp [htext, hk.1], ?_⟩, fun c hc => ?_⟩
  · rw [htext]
    exact Trimmed.between hk.word.trimmed hs.1.2 hk.1 hs.1.1 _
  · rw [htext, List.mem_append, List.mem_append] at hc
    rcases hc with (hc | hc) | hc
    · exact (clean_of_bareWord hk).2 c hc
    · cases List.mem_singleton.mp hc
      decide
    · exact hs.2 c hc

/-! ## Lists with commas -/

/-- A list of bare words has the characters of the words and the separator. -/
theorem not_mem_bareList {sep : List Char} {words : List String} {c : Char} (hsep : c ∉ sep)
    (hc : ¬ Bare c) (h : ∀ w ∈ words, BareWord w.toList) :
    c ∉ sep.intercalate (words.map String.toList) := by
  refine not_mem_intercalate hsep fun t ht => ?_
  obtain ⟨w, hw, rfl⟩ := List.mem_map.mp ht
  exact (h w hw).not_mem hc

theorem commaList_append (s t : List Char) :
    commaList (s ++ ',' :: t) = commaList s ++ commaList t := by
  rw [commaList, List.splitOn_append_cons_self, List.map_append]
  rfl

theorem commaList_single {front : List Char} {w : String} (hfront : ∀ c ∈ front, c = ' ')
    (hw : BareWord w.toList) : commaList (front ++ w.toList) = [w] := by
  -- neither the padding nor the word has a comma, so there is one piece
  have hcomma : ',' ∉ front ++ w.toList := by
    rw [List.mem_append, not_or]
    exact ⟨fun hc => absurd (hfront _ hc) (by decide), hw.not_mem (by decide)⟩
  have htrim := trim_pad front [] hw.word.trimmed
    (fun c hc => by rw [hfront c hc]; decide) (by simp)
  rw [List.append_nil] at htrim
  rw [commaList, List.splitOn_eq_singleton hcomma, List.map_singleton, htrim,
    String.ofList_toList]

/-- **Words with commas between them come back**, also with spaces behind the commas. -/
theorem commaList_intercalate {pad : List Char} (hpad : ∀ c ∈ pad, c = ' ') {words : List String}
    (hne : words ≠ []) (h : ∀ w ∈ words, BareWord w.toList) :
    commaList ((',' :: pad).intercalate (words.map String.toList)) = words := by
  -- the first word may have the padding of the comma before it in front
  have key : ∀ (front : List Char) (words : List String), (∀ c ∈ front, c = ' ') → words ≠ [] →
      (∀ w ∈ words, BareWord w.toList) →
      commaList (front ++ (',' :: pad).intercalate (words.map String.toList)) = words := by
    intro front words hfront hne h
    induction words generalizing front with
    | nil => exact absurd rfl hne
    | cons w ws ih =>
      have hw := commaList_single hfront (h w List.mem_cons_self)
      cases ws with
      | nil =>
        rw [List.map_singleton, List.intercalate_singleton]
        exact hw
      | cons v ws =>
        have hrest := ih pad hpad (by simp) fun u hu => h u (.tail _ hu)
        rw [List.map_cons, List.map_cons, List.intercalate_cons_cons]
        rw [List.map_cons] at hrest
        have hcut : ∀ t : List Char, front ++ (w.toList ++ (',' :: pad) ++ t)
            = front ++ w.toList ++ ',' :: (pad ++ t) := by simp
        rw [hcut, commaList_append, hw, hrest]
        rfl
  exact key [] words (by simp) hne h

theorem clean_intercalate {words : List String} (hne : words ≠ [])
    (h : ∀ w ∈ words, BareWord w.toList) : Clean (",".intercalate words) := by
  -- commas are not blank, and do not end a clause
  have hchars : ∀ c ∈ (",".intercalate words).toList, c = ',' ∨ Bare c := by
    intro c hc
    by_contra hno
    rw [not_or] at hno
    refine absurd hc ?_
    rw [String.toList_intercalate]
    exact not_mem_bareList (by simpa using hno.1) hno.2 h
  have hne' : (",".intercalate words).toList ≠ [] := by
    obtain ⟨w, ws, rfl⟩ := List.exists_cons_of_ne_nil hne
    have hw := (h w List.mem_cons_self).1
    cases ws with
    | nil => rwa [String.intercalate_singleton]
    | cons v ws =>
      rw [String.intercalate_cons_cons]
      simp [hw]
  -- with commas between them, bare words are one word
  have hword : Word (",".intercalate words).toList := by
    refine ⟨hne', fun c hc => ?_⟩
    rcases hchars c hc with rfl | hbare
    · decide
    · exact hbare.not_blank
  refine ⟨⟨hne', hword.trimmed⟩, fun c hc hmem => ?_⟩
  simp only [List.mem_cons, List.not_mem_nil, or_false] at hmem
  rcases hchars c hc with rfl | hbare
  · revert hmem
    decide
  · rcases hmem with rfl | rfl | rfl <;> exact absurd hbare (by decide)

/-! ## The clauses of chains, flowtables and counters -/

theorem quoteBody_bare {s : List Char} (h : BareWord s) : quoteBody s = s := by
  have hs : ∀ t : List Char, (∀ c ∈ t, Bare c) → t.flatMap escape = t := by
    intro t ht
    induction t with
    | nil => rfl
    | cons c t ih =>
      rw [List.flatMap_cons, (ht c List.mem_cons_self).escape_eq,
        ih fun d hd => ht d (.tail _ hd)]
      rfl
  exact hs s h.2

/-- A text that ends in `c` alone ends at the first `c` of another, or behind it. -/
theorem infix_before {a u v : List Char} {c : Char} (hu : c ∉ u) (ha : c ∉ a)
    (h : a ++ [c] <:+: u ++ c :: v) : a <:+ u ∨ a ++ [c] <:+: v := by
  obtain ⟨x, y, hxy⟩ := h
  have hcut : (x ++ a) ++ c :: y = u ++ c :: v := by
    simpa using hxy
  -- the `c` of the occurrence is the first of the text, or stands behind it
  rcases List.append_eq_append_iff.mp hcut with ⟨w, hw, hrest⟩ | ⟨w, hw, hrest⟩
  · cases w with
    | nil => exact .inl ⟨x, by rw [hw, List.append_nil]⟩
    | cons d w =>
      obtain ⟨rfl, -⟩ := List.cons.inj hrest
      exact absurd (hw ▸ by simp) hu
  · cases w with
    | nil => exact .inl ⟨x, by rw [hw, List.append_nil]⟩
    | cons d w =>
      obtain ⟨rfl, rfl⟩ := List.cons.inj hrest
      -- `a` has no `c` in it, so all of it stands behind the first one
      rw [← List.singleton_append, ← List.append_assoc] at hw
      rcases List.append_eq_append_iff.mp hw with ⟨z, hz, rfl⟩ | ⟨z, -, rfl⟩
      · rcases List.eq_nil_or_concat z with rfl | ⟨z, e, rfl⟩
        · exact .inr ⟨[], y, by simp⟩
        · have he : c = e := by
            have hlast := congrArg List.getLast? hz
            simpa [List.getLast?_append] using hlast
          exact absurd (by simp [he]) ha
      · exact .inr ⟨z, y, by simp⟩

/-- The device of a hook, as it is written. -/
def deviceText (device : Option String) : List Char :=
  ((device.map fun d => " device " ++ quote d).getD "").toList

theorem not_mem_deviceText {device : Option String} (h : ∀ d ∈ device, BareWord d.toList) :
    '\n' ∉ deviceText device := by
  cases device with
  | none => decide
  | some d =>
    have hd : '\n' ∉ d.toList := (h d rfl).not_mem (by decide)
    simp [deviceText, quote, quoteBody_bare (h d rfl), hd]

theorem readDevice_append {device : Option String} (h : ∀ d ∈ device, BareWord d.toList)
    (rest : List Char) :
    readDevice (deviceText device ++ (" priority ".toList ++ rest))
      = (device.map String.toList, " priority ".toList ++ rest) := by
  cases device with
  | none =>
    -- what follows the hook is not a device
    have hnone : expect " device \"" (" priority ".toList ++ rest) = none :=
      expect_eq_none (by simp [List.cons_prefix_cons])
    have htext : deviceText none ++ (" priority ".toList ++ rest) = " priority ".toList ++ rest :=
      rfl
    rw [htext, readDevice, hnone]
    rfl
  | some d =>
    have hd := h d rfl
    have htext : deviceText (some d) ++ (" priority ".toList ++ rest)
        = " device \"".toList ++ (d.toList ++ '"' :: (" priority ".toList ++ rest)) := by
      simp [deviceText, quote, quoteBody_bare hd]
    rw [htext, readDevice, expect_append, Option.bind_some,
      splitOnce?_append (hd.not_mem (by decide))]
    rfl

/-- **The hook clause at the front of a body comes back.** -/
theorem readHookClause_append {chainType hook priority : List Char} {device : Option String}
    (htype : Word chainType) (hhook : Word hook) (hdevice : ∀ d ∈ device, BareWord d.toList)
    (hpriority : Word priority) (rest : List Char) :
    readHookClause ("type ".toList ++ (chainType ++ (" hook ".toList ++ (hook ++
      (deviceText device ++ (" priority ".toList ++ (priority ++ (" ;".toList ++ rest))))))))
      = some ⟨chainType, hook, device.map String.toList, priority⟩ := by
  -- behind the hook stands a space, with a device or without
  have hhead : ∀ c ∈ (deviceText device ++ (" priority ".toList ++ (priority ++
      (" ;".toList ++ rest)))).head?, isBlank c = true := by
    cases device with
    | none => exact blank_head " priority " (by decide) _
    | some d =>
      rw [deviceText, Option.map_some, Option.getD_some, String.toList_append, List.append_assoc]
      exact blank_head " device " (by decide) _
  unfold readHookClause
  -- in turn: the type, the hook, the device if there is one, the priority
  simp only [expect_append, Option.bind_eq_bind, Option.bind_some]
  rw [readWord_append htype (blank_head " hook " (by decide) _)]
  simp only [expect_append, Option.bind_some]
  rw [readWord_append hhook hhead]
  simp only [Option.bind_some]
  rw [readDevice_append hdevice]
  simp only [expect_append, Option.bind_some]
  rw [readWord_append hpriority (blank_head " ;" (by decide) _)]
  simp only [expect_append, Option.bind_some]
  rfl

theorem readIngressClause_append {priority : List Char} (h : Word priority) (rest : List Char) :
    readIngressClause ("hook ingress priority ".toList ++ (priority ++ (" ;".toList ++ rest)))
      = some priority := by
  unfold readIngressClause
  simp only [expect_append, Option.bind_eq_bind, Option.bind_some]
  rw [readWord_append h (blank_head " ;" (by decide) _)]
  simp only [expect_append, Option.bind_some]
  rfl

theorem readCountClause_append {packets bytes : List Char} (hpackets : Digits packets)
    (hbytes : Digits bytes) (rest : List Char) :
    readCountClause ("packets ".toList ++ (packets ++ (" bytes ".toList ++
      (bytes ++ (" ;".toList ++ rest))))) = some (packets, bytes) := by
  -- a count ends at the space behind it
  have hrun : ∀ {s : List Char}, Digits s → ∀ p : String, p.toList.head? = some ' ' →
      ∀ t : List Char, readRun isDecimalDigit (s ++ (p.toList ++ t)) = some (s, p.toList ++ t) := by
    intro s hs p hp t
    refine readRun_append hs.1 (fun c hc => ?_) fun c hc => ?_
    · rw [isDecimalDigit, hs.2 c hc]
      rfl
    · rw [List.head?_append, hp] at hc
      cases hc
      decide
  unfold readCountClause
  simp only [expect_append, Option.bind_eq_bind, Option.bind_some]
  rw [hrun hpackets " bytes " (by decide)]
  simp only [expect_append, Option.bind_some]
  rw [hrun hbytes " ;" (by decide)]
  simp only [expect_append, Option.bind_some]
  rfl

theorem readDevicesClause_append {devices : List String}
    (h : ∀ d ∈ devices, BareWord d.toList) (rest : List Char) :
    readDevicesClause ("devices = \x7b ".toList ++ ((", ".intercalate devices).toList ++
      (" \x7d".toList ++ rest))) = some (", ".intercalate devices).toList := by
  -- the first closing brace is the one behind the devices
  have hbrace : '\x7d' ∉ (", ".intercalate devices).toList ++ [' '] := by
    rw [List.mem_append, not_or, String.toList_intercalate]
    exact ⟨not_mem_bareList (by decide) (by decide) h, by decide⟩
  have hcut : (", ".intercalate devices).toList ++ (" \x7d".toList ++ rest)
      = (", ".intercalate devices).toList ++ [' '] ++ '\x7d' :: rest := by
    simp
  rw [readDevicesClause, expect_append, Option.bind_eq_bind, Option.bind_some, hcut,
    splitOnce?_append hbrace]
  exact dropSuffix?_append _ _

/-- Before the quotes of a device stands no comment, and none behind them. -/
theorem not_infix_comment_device {before after : List Char} {device : Option String}
    (h : ∀ d ∈ device, BareWord d.toList) (hbefore : '"' ∉ before) (hafter : '"' ∉ after) :
    ¬ "comment \"".toList <:+: before ++ (deviceText device ++ after) := by
  cases device with
  | none =>
    refine not_infix_of_quote ?_
    simp [deviceText, hbefore, hafter]
  | some d =>
    have hd := h d rfl
    have hcut : before ++ (deviceText (some d) ++ after)
        = (before ++ " device ".toList) ++ '"' :: (d.toList ++ '"' :: after) := by
      simp [deviceText, quote, quoteBody_bare hd]
    have hquote : '"' ∉ before ++ " device ".toList := by
      rw [List.mem_append, not_or]
      exact ⟨hbefore, by decide⟩
    intro hin
    rw [hcut] at hin
    -- the quote of a comment would be one of the device's two, or a later one
    rcases infix_before (a := "comment ".toList) (c := '"') hquote (by decide) hin with
      hsuffix | hin
    · have hdevice := List.suffix_of_suffix_length_le (List.suffix_append before _) hsuffix
        (by decide)
      exact absurd hdevice (by decide)
    rcases infix_before (a := "comment ".toList) (c := '"') (hd.not_mem (by decide)) (by decide)
      hin with hsuffix | hin
    · exact hd.not_mem (by decide) (hsuffix.subset (show ' ' ∈ "comment ".toList by decide))
    · exact not_infix_of_quote hafter hin

/-! ## Searching for a clause -/

theorem find?_head {α : Type} {read : List Char → Option α} {s : List Char} {a : α}
    (h : read s = some a) : find? read s = some a := by
  rw [find?, findFirst?_head h]
  rfl

theorem find?_append {α : Type} {read : List Char → Option α} {c : Char}
    {p before rest : List Char} {a : α} (hc : c ∉ p)
    (hread : ∀ s a, read s = some a → c :: p <+: s) (hrest : read rest = some a)
    (h : ¬ c :: p <:+: before) : find? read (before ++ rest) = some a := by
  rw [find?, findFirst?_append hc hread hrest h]
  rfl

theorem find?_eq_none {α : Type} {read : List Char → Option α} {p s : List Char}
    (hread : ∀ s a, read s = some a → p <+: s) (h : ¬ p <:+: s) : find? read s = none := by
  rw [find?, findFirst?_eq_none hread h]
  rfl

theorem prefix_of_readIngressClause {s a : List Char} (h : readIngressClause s = some a) :
    "hook ingress priority ".toList <+: s := by
  obtain ⟨r, hr, -⟩ := Option.bind_eq_some_iff.mp h
  exact prefix_of_expect hr

theorem prefix_of_readDevicesClause {s a : List Char} (h : readDevicesClause s = some a) :
    "devices = \x7b ".toList <+: s := by
  obtain ⟨r, hr, -⟩ := Option.bind_eq_some_iff.mp h
  exact prefix_of_expect hr

/-- A separator between two given characters is the first one of the text, or a later one. -/
theorem infix_around {a b c : Char} {u v : List Char} (hu : c ∉ u) (ha : a ≠ c)
    (h : [a, c, b] <:+: u ++ c :: v) :
    (u.getLast? = some a ∧ v.head? = some b) ∨ [a, c, b] <:+: v := by
  obtain ⟨x, y, hxy⟩ := h
  have hcut : (x ++ [a]) ++ c :: (b :: y) = u ++ c :: v := by
    simpa using hxy
  rcases List.append_eq_append_iff.mp hcut with ⟨w, hw, hrest⟩ | ⟨w, hw, hrest⟩
  · cases w with
    | nil =>
      rw [List.append_nil] at hw
      cases hrest
      exact .inl ⟨by simp [hw], rfl⟩
    | cons d w =>
      obtain ⟨rfl, -⟩ := List.cons.inj hrest
      exact absurd (hw ▸ by simp) hu
  · cases w with
    | nil =>
      rw [List.append_nil] at hw
      cases hrest
      exact .inl ⟨by simp [← hw], rfl⟩
    | cons d w =>
      obtain ⟨rfl, rfl⟩ := List.cons.inj hrest
      rcases List.eq_nil_or_concat w with rfl | ⟨w, e, rfl⟩
      · exact absurd (List.append_inj_right' hw rfl) (by simpa using ha)
      · have he : a = e := by
          have hlast := congrArg List.getLast? hw
          simpa [List.getLast?_append, List.getLast?_cons] using hlast
        subst he
        exact .inr ⟨w, y, by simp⟩

/-- Every space in a list of devices stands behind a comma or at its end. -/
theorem not_infix_deviceList {devices : List String} (h : ∀ d ∈ devices, BareWord d.toList) :
    ¬ ['k', ' ', 'i'] <:+: (", ".intercalate devices).toList ++ ' ' :: "\x7d ;".toList := by
  induction devices with
  | nil => decide
  | cons d ds ih =>
    have hspace : ' ' ∉ d.toList := (h d List.mem_cons_self).not_mem (by decide)
    cases ds with
    | nil =>
      intro hin
      rw [String.intercalate_singleton] at hin
      rcases infix_around hspace (by decide) hin with ⟨-, hhead⟩ | hin
      · exact absurd hhead (by decide)
      · exact absurd hin (by decide)
    | cons e ds =>
      intro hin
      have hcut : (", ".intercalate (d :: e :: ds)).toList ++ ' ' :: "\x7d ;".toList
          = (d.toList ++ [',']) ++ ' ' :: ((", ".intercalate (e :: ds)).toList ++
            ' ' :: "\x7d ;".toList) := by
        rw [String.intercalate_cons_cons]
        simp
      rw [hcut] at hin
      rcases infix_around (by simpa using hspace) (by decide) hin with ⟨hlast, -⟩ | hin
      · simp at hlast
      · exact ih (fun x hx => h x (.tail _ hx)) hin

/-- The devices of a flowtable do not read as its hook. -/
theorem not_infix_devices {devices : List String} (h : ∀ d ∈ devices, BareWord d.toList)
    {s : List Char} (hs : s = "devices = \x7b ".toList ++ ((", ".intercalate devices).toList ++
      " \x7d ;".toList)) : ¬ "hook ingress priority ".toList <:+: s := by
  intro hin
  -- a space between `k` and `i` is enough to tell them apart
  have hin' : ['k', ' ', 'i'] <:+: "devices".toList ++ ' ' :: ("=".toList ++ ' ' ::
      ("\x7b".toList ++ ' ' :: ((", ".intercalate devices).toList ++ ' ' :: "\x7d ;".toList))) := by
    have hspace : ['k', ' ', 'i'] <:+: "hook ingress priority ".toList := by decide
    rw [hs] at hin
    simpa using hspace.trans hin
  rcases infix_around (by decide) (by decide) hin' with ⟨hlast, -⟩ | hin'
  · exact absurd hlast (by decide)
  rcases infix_around (by decide) (by decide) hin' with ⟨hlast, -⟩ | hin'
  · exact absurd hlast (by decide)
  rcases infix_around (by decide) (by decide) hin' with ⟨hlast, -⟩ | hin'
  · exact absurd hlast (by decide)
  exact not_infix_deviceList h hin'

end Nftables.Clause
