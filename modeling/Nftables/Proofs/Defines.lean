import Mathlib.Data.List.Infix
import Mathlib.Data.List.Nodup
import Mathlib.Tactic.MkIffOfInductiveProp
import Nftables.Proofs.Substitution

/-!
# Every reference and its define

A reference is a dollar sign and the whole word behind it. Replacing the defines one after the other
gives each reference the value of its own define, unless a name gets in the way of another: one that
begins a later name is found in the references to that, and one that begins an earlier name can be
lengthened to it by a value that was put in behind (`Unmistaken` shuts out both).

The two sides do not go through a text alike. One reads it once, from the left, and takes whole
words; the other cuts the whole text at one reference after the other. What they have in common are
the *pieces* of the text: characters that begin no reference, and references to whole words. Between
two defines the text is that of its pieces with the references to the defines so far replaced, and
one more define changes exactly the pieces that refer to it (`Pieces.substitute`). That is where the
conditions are used: a piece that refers to a later define has to stand as it is.
-/

namespace Nftables

/-! ## Replacing all references at once -/

/-- The characters of the name of a define. -/
def isNameChar (c : Char) : Bool := c.isAlphanum || c = '_'

/-- The value of the define of this name. -/
def valueOf? (defines : List Define) (name : List Char) : Option (List Char) :=
  (defines.find? (·.name.toList = name)).map (·.value.toList)

/--
The text with each dollar sign and the word behind it replaced by the value of the define that the
word names; if it names none, both stay. The first argument counts the characters of a word that
are still to be dropped.
-/
def replaceReferences.go (defines : List Define) : Nat → List Char → List Char
  | _, [] => []
  | n + 1, _ :: r => go defines n r
  | 0, c :: r =>
    let word := r.takeWhile isNameChar
    if c = '$' then (valueOf? defines word).getD ('$' :: word) ++ go defines word.length r
    else c :: go defines 0 r

/-- The text with all references replaced at once. -/
def replaceReferences (defines : List Define) (s : List Char) : List Char :=
  replaceReferences.go defines 0 s

/-- The defines have names of their own, and their values make no reference. -/
@[mk_iff]
structure Named (defines : List Define) : Prop where
  distinct : (defines.map Define.name).Nodup
  names : ∀ d ∈ defines, d.name.toList ≠ [] ∧ ∀ c ∈ d.name.toList, isNameChar c = true
  values : ∀ d ∈ defines, '$' ∉ d.value.toList

/-- Every dollar sign of the text begins a reference to one of the defines. -/
def Refers (defines : List Define) (s : List Char) : Prop :=
  ∀ after, '$' :: after <:+ s → ∃ d ∈ defines, d.name.toList = after.takeWhile isNameChar

/-- A word that stands before the text ends there. -/
def WordEnds (s : List Char) : Prop := ∀ c ∈ s.head?, isNameChar c = false

/-- No name gets in the way of a reference in the text. -/
structure Unmistaken (defines : List Define) (s : List Char) : Prop where
  /-- What the text refers to has no name that an earlier one begins. -/
  begun : ∀ d e after, [d, e].Sublist defines → e.reference ++ after <:+ s → WordEnds after →
    ¬ d.name.toList <+: e.name.toList
  /--
  No reference is lengthened to an earlier name. When the turn of `d` comes, the references to the
  defines before it have been replaced, also one right behind a reference to a later define `e`.
  -/
  lengthened : ∀ done d rest, defines = done ++ d :: rest → ∀ f ∈ done, ∀ e ∈ rest, ∀ after,
    e.reference ++ (f.reference ++ after) <:+ s → WordEnds after →
    ¬ d.name.toList <+: e.name.toList ++ replaceReferences done (f.reference ++ after)

-- by the characters of the name, not by all characters there are
instance (d : Define) : Decidable (∀ c ∈ d.name.toList, isNameChar c = true) :=
  List.decidableBAll _ _

instance (defines : List Define) : Decidable (Named defines) :=
  decidable_of_iff _ (named_iff defines).symm

instance (s : List Char) : Decidable (WordEnds s) :=
  inferInstanceAs (Decidable (∀ c ∈ s.head?, isNameChar c = false))

/-- Only the ends of the text that begin with a dollar sign matter. -/
theorem refers_iff_tails {defines : List Define} {s : List Char} : Refers defines s ↔
    ∀ t ∈ s.tails, t.head? = some '$' →
      ∃ d ∈ defines, d.name.toList = t.tail.takeWhile isNameChar := by
  simp only [List.mem_tails, List.head?_eq_some_iff]
  constructor
  · rintro h t ht ⟨after, rfl⟩
    exact h after ht
  · exact fun h after hafter => h _ hafter ⟨after, rfl⟩

instance (defines : List Define) (s : List Char) : Decidable (Refers defines s) :=
  decidable_of_iff _ refers_iff_tails.symm

/-- Only the places in the list of defines and the ends of the text matter. -/
theorem unmistaken_iff_tails {defines : List Define} {s : List Char} : Unmistaken defines s ↔
    (∀ t ∈ s.tails, ∀ d ∈ defines, ∀ e ∈ defines, [d, e].Sublist defines →
      e.reference <+: t → WordEnds (t.drop e.reference.length) →
      ¬ d.name.toList <+: e.name.toList) ∧
    ∀ i, ∀ _ : i < defines.length, ∀ f ∈ defines.take i, ∀ e ∈ defines.drop (i + 1),
      ∀ t ∈ s.tails, e.reference ++ f.reference <+: t →
      WordEnds (t.drop (e.reference ++ f.reference).length) →
      ¬ defines[i].name.toList <+: e.name.toList ++
        replaceReferences (defines.take i) (t.drop e.reference.length) := by
  simp only [List.mem_tails]
  constructor
  · intro h
    constructor
    · rintro t ht d - e - hsub ⟨after, rfl⟩ hend
      rw [List.drop_left] at hend
      exact h.begun d e after hsub ht hend
    · rintro i hi f hf e he t ht ⟨after, rfl⟩ hend
      rw [List.drop_left] at hend
      rw [List.append_assoc] at ht ⊢
      rw [List.drop_left]
      refine h.lengthened _ defines[i] _ ?_ f hf e he after ht hend
      rw [List.getElem_cons_drop, List.take_append_drop]
  · rintro ⟨hbegun, hlengthened⟩
    constructor
    · intro d e after hsub hafter hend
      exact hbegun _ hafter d (hsub.subset (by simp)) e (hsub.subset (by simp)) hsub
        (List.prefix_append _ _) (by rwa [List.drop_left])
    · rintro done d rest rfl f hf e he after hafter hend
      have hf' : f ∈ (done ++ d :: rest).take done.length := by simpa using hf
      have he' : e ∈ (done ++ d :: rest).drop (done.length + 1) := by simpa using he
      have h := hlengthened done.length (by simp) f hf' e he' _ hafter
        (List.append_assoc .. ▸ List.prefix_append _ after)
        (by rwa [← List.append_assoc, List.drop_left])
      simpa using h

instance (defines : List Define) (s : List Char) : Decidable (Unmistaken defines s) :=
  decidable_of_iff _ unmistaken_iff_tails.symm

/-! ## The pieces of a text -/

/-- A piece of a text: a character that begins no reference, or a reference. -/
inductive Piece
  | char (c : Char)
  | reference (d : Define)

/-- The text consists of the pieces; each reference ends where its word ends. -/
inductive Pieces (defines : List Define) : List Piece → List Char → Prop
  | nil : Pieces defines [] []
  | char {ps : List Piece} {s : List Char} (c : Char) (hc : c ≠ '$') (h : Pieces defines ps s) :
    Pieces defines (.char c :: ps) (c :: s)
  | reference {ps : List Piece} {s : List Char} (d : Define) (hd : d ∈ defines)
    (hend : WordEnds s) (h : Pieces defines ps s) :
    Pieces defines (.reference d :: ps) (d.reference ++ s)

/-- The piece when the references to some of the defines have been replaced. -/
def Piece.text (done : List Define) : Piece → List Char
  | .char c => [c]
  | .reference d => if d ∈ done then d.value.toList else d.reference

variable {defines done rest : List Define} {ps : List Piece} {s : List Char} {d e : Define}

theorem Refers.suffix {t : List Char} (h : Refers defines s) (ht : t <:+ s) : Refers defines t :=
  fun after hafter => h after (hafter.trans ht)

theorem Unmistaken.suffix {t : List Char} (h : Unmistaken defines s) (ht : t <:+ s) :
    Unmistaken defines t where
  begun d e after hsub hafter := h.begun d e after hsub (hafter.trans ht)
  lengthened done d rest hdefs f hf e he after hafter :=
    h.lengthened done d rest hdefs f hf e he after (hafter.trans ht)

theorem wordEnds_dropWhile (s : List Char) : WordEnds (s.dropWhile isNameChar) := by
  intro c hc
  have hnot := List.head?_dropWhile_not isNameChar s
  rw [Option.mem_def.mp hc] at hnot
  simpa using hnot

/-- **A text whose references are to the defines has pieces.** -/
theorem Refers.exists_pieces : (s : List Char) → Refers defines s → ∃ ps, Pieces defines ps s
  | [], _ => ⟨[], .nil⟩
  | c :: r, h => by
    by_cases hc : c = '$'
    · subst hc
      obtain ⟨d, hd, hname⟩ := h r (List.suffix_refl _)
      have hsplit : r.takeWhile isNameChar ++ r.dropWhile isNameChar = r :=
        List.takeWhile_append_dropWhile
      have hsuffix : r.dropWhile isNameChar <:+ '$' :: r :=
        (List.dropWhile_suffix _).trans (List.suffix_cons _ _)
      obtain ⟨ps, hps⟩ := exists_pieces (r.dropWhile isNameChar) (h.suffix hsuffix)
      refine ⟨.reference d :: ps, ?_⟩
      have hpieces := Pieces.reference d hd (wordEnds_dropWhile r) hps
      rwa [Define.reference, hname, List.cons_append, hsplit] at hpieces
    · obtain ⟨ps, hps⟩ := exists_pieces r (h.suffix (List.suffix_cons c r))
      exact ⟨.char c :: ps, .char c hc hps⟩
termination_by s => s.length
decreasing_by
  · exact Nat.lt_succ_of_le (List.dropWhile_suffix isNameChar).length_le
  · exact Nat.lt_succ_self _

/-- Before any define has been replaced, the pieces make the text. -/
theorem Pieces.text_nil (h : Pieces defines ps s) : ps.flatMap (Piece.text []) = s := by
  induction h with
  | nil => rfl
  | char c hc h ih => rw [List.flatMap_cons, ih]; rfl
  | reference d hd hend h ih => rw [List.flatMap_cons, ih]; rfl

/-! ## All references at once -/

/-- Some of the defines give a name its value exactly if the define of this name is among them. -/
theorem valueOf?_of_mem (hn : Named defines) (hdone : done ⊆ defines) (hd : d ∈ defines) :
    valueOf? done d.name.toList = if d ∈ done then some d.value.toList else none := by
  have heq : ∀ e ∈ done, e.name.toList = d.name.toList → e = d := fun e he hname =>
    List.inj_on_of_nodup_map hn.distinct (hdone he) hd (String.toList_inj.mp hname)
  unfold valueOf?
  cases hfind : done.find? (·.name.toList = d.name.toList) with
  | none =>
    have hnot : d ∉ done := fun h => List.find?_eq_none.mp hfind d h (decide_eq_true rfl)
    rw [if_neg hnot]
    rfl
  | some e =>
    have he := List.mem_of_find?_eq_some hfind
    -- the define that was found has this name, so it is `d`
    have hed := heq e he (by simpa using List.find?_some hfind)
    rw [if_pos (hed ▸ he), hed]
    rfl

theorem replaceReferences.go_drop (defines : List Define) (l r : List Char) :
    go defines l.length (l ++ r) = go defines 0 r := by
  induction l with
  | nil => rfl
  | cons c l ih => exact ih

/-- Replacing the references to some of the defines at once replaces them among the pieces. -/
theorem Pieces.replaceReferences (hn : Named defines) (hdone : done ⊆ defines)
    (h : Pieces defines ps s) : replaceReferences done s = ps.flatMap (Piece.text done) := by
  unfold Nftables.replaceReferences
  induction h with
  | nil => rfl
  | char c hc h ih =>
    rw [replaceReferences.go, if_neg hc, ih]
    rfl
  | @reference ps s d hd hend h ih =>
    have hword : (d.name.toList ++ s).takeWhile isNameChar = d.name.toList := by
      rw [List.takeWhile_append_of_pos (hn.names d hd).2]
      cases s with
      | nil => simp
      | cons c r => simp [hend c rfl]
    have hvalue : (valueOf? done d.name.toList).getD ('$' :: d.name.toList)
        = Piece.text done (.reference d) := by
      rw [valueOf?_of_mem hn hdone hd, Piece.text]
      split <;> rfl
    rw [Define.reference, List.cons_append, replaceReferences.go, if_pos rfl, hword, hvalue,
      replaceReferences.go_drop, ih, List.flatMap_cons]

/-! ## One define after the other -/

namespace Text

variable {old new l r p t : List Char} {c : Char}

/-- What cannot begin an occurrence is kept. -/
theorem replaceText_append_right (new r : List Char) (h : c ∉ l) :
    replaceText (c :: old) new (l ++ r) = l ++ replaceText (c :: old) new r := by
  induction l with
  | nil => rfl
  | cons a l ih =>
    have hne : ¬ c :: old <+: a :: (l ++ r) := by
      rintro hpre
      exact h (by simp [(List.cons_prefix_cons.mp hpre).1])
    rw [List.cons_append, replaceText_cons new hne, ih fun hl => h (List.mem_cons_of_mem a hl)]
    rfl

/-- A front without the next character ends before it. -/
theorem prefix_of_prefix_append_cons (h : p <+: l ++ c :: t) (hc : c ∉ p) : p <+: l := by
  rcases List.prefix_or_prefix_of_prefix h (List.prefix_append l (c :: t)) with h' | ⟨q, rfl⟩
  · exact h'
  · cases q with
    | nil => exact ⟨[], by simp⟩
    | cons a q =>
      have hq := (List.prefix_append_right_inj l).mp h
      cases (List.cons_prefix_cons.mp hq).1
      exact absurd (by simp) hc

end Text

/-- The define that is replaced next is not found in a reference to a later one. -/
theorem not_prefix_of_later (hn : Named (done ++ d :: rest))
    (hu : Unmistaken (done ++ d :: rest) (e.reference ++ s)) (he : e ∈ rest) (hend : WordEnds s)
    (hp : Pieces (done ++ d :: rest) ps s) :
    ¬ d.name.toList <+: e.name.toList ++ ps.flatMap (Piece.text done) := by
  have hsub : [d, e].Sublist (done ++ d :: rest) :=
    .trans (.cons_cons d (List.singleton_sublist.mpr he)) (List.sublist_append_right done _)
  have hword : ∀ c ∈ d.name.toList, isNameChar c = true := (hn.names d (by simp)).2
  have hbegun := hu.begun d e s hsub (List.suffix_refl _) hend
  have hstop : ∀ {c t}, isNameChar c = false → ¬ d.name.toList <+: e.name.toList ++ c :: t :=
    fun hc h => hbegun (Text.prefix_of_prefix_append_cons h fun hmem => by
      rw [hword _ hmem] at hc
      cases hc)
  cases hp with
  | nil => simpa using hbegun
  | @char ps s c hc hp => exact hstop (hend c rfl)
  | @reference ps s f hf hend' hp =>
    by_cases hdone : f ∈ done
    · -- a value stands behind the name, and whatever was put in behind that
      have hpieces := (Pieces.reference f hf hend' hp).replaceReferences hn
        (List.subset_append_left done (d :: rest))
      rw [← hpieces]
      exact hu.lengthened done d rest rfl f hdone e he s (List.suffix_refl _) hend'
    · -- a reference that still stands begins with a dollar sign, and no name reaches over that
      rw [List.flatMap_cons, Piece.text, if_neg hdone]
      exact hstop (c := '$') (by decide)

/-- **Replacing one more define replaces the references to it**, and nothing else. -/
theorem Pieces.substitute (hn : Named (done ++ d :: rest))
    (hu : Unmistaken (done ++ d :: rest) s) (hp : Pieces (done ++ d :: rest) ps s) :
    d.substitute (ps.flatMap (Piece.text done)) = ps.flatMap (Piece.text (done ++ [d])) := by
  unfold Define.substitute
  induction hp with
  | nil => rfl
  | @char ps s c hc hp ih =>
    -- no reference begins with another character
    have hne : ¬ '$' :: d.name.toList <+: c :: ps.flatMap (Piece.text done) :=
      fun h => hc (List.cons_prefix_cons.mp h).1.symm
    rw [List.flatMap_cons, List.flatMap_cons, ← ih (hu.suffix (List.suffix_cons c s))]
    exact Text.replaceText_cons _ hne
  | @reference ps s e he hend hp ih =>
    rw [List.flatMap_cons, List.flatMap_cons, ← ih (hu.suffix (List.suffix_append _ _))]
    by_cases hdone : e ∈ done
    · -- replaced already: a value, in which no reference begins
      rw [Piece.text, Piece.text, if_pos hdone, if_pos (by simp [hdone])]
      exact Text.replaceText_append_right _ _ (hn.values e he)
    by_cases hed : e = d
    · subst hed
      rw [Piece.text, Piece.text, if_neg hdone, if_pos (by simp)]
      exact Text.replaceText_append_left (by simp) _ _
    · -- its turn is still to come, so it has to stay as it is
      have hlater : e ∈ rest := by simpa [hdone, hed] using he
      have hnot := not_prefix_of_later hn hu hlater hend hp
      have hdollar : '$' ∉ e.name.toList := fun hmem => by
        cases (hn.names e he).2 '$' hmem
      have hne : ¬ '$' :: d.name.toList <+:
          '$' :: (e.name.toList ++ ps.flatMap (Piece.text done)) :=
        fun h => hnot (List.cons_prefix_cons.mp h).2
      rw [Piece.text, Piece.text, if_neg hdone, if_neg (by simp [hdone, hed]), Define.reference,
        List.cons_append, Text.replaceText_cons _ hne, Text.replaceText_append_right _ _ hdollar]
      rfl

/-- **Replacing all defines in order replaces the references to all of them.** -/
theorem Pieces.substituteDefines (done rest : List Define) (hn : Named (done ++ rest))
    (hu : Unmistaken (done ++ rest) s) (hp : Pieces (done ++ rest) ps s) :
    substituteDefines rest (ps.flatMap (Piece.text done))
      = ps.flatMap (Piece.text (done ++ rest)) := by
  induction rest generalizing done with
  | nil => rw [List.append_nil]; rfl
  | cons d rest ih =>
    have hdefs : done ++ d :: rest = done ++ [d] ++ rest := by simp
    rw [Nftables.substituteDefines, List.foldl_cons, hp.substitute hn hu]
    rw [hdefs] at hn hu hp ⊢
    exact ih (done ++ [d]) hn hu hp

theorem substituteDefines_eq (hn : Named defines) (hr : Refers defines s)
    (hu : Unmistaken defines s) :
    substituteDefines defines s = replaceReferences defines s := by
  obtain ⟨ps, hp⟩ := hr.exists_pieces
  have hall := Pieces.substituteDefines [] defines hn hu hp
  rw [hp.text_nil] at hall
  exact hall.trans (hp.replaceReferences hn (List.Subset.refl _)).symm

/--
**Every reference gets the value of its own define.** The defines are those of a configuration, with
names of their own and values without a dollar sign; the text refers only to them, and no name gets
in the way of a reference in it. Replacing one define after the other then replaces each dollar sign
and the whole word behind it by the value of the define of this name, and changes nothing else.
-/
theorem Config.substituteIn_effectiveDefines (c : Config) {text : String}
    (hn : Named c.effectiveDefines) (hr : Refers c.effectiveDefines text.toList)
    (hu : Unmistaken c.effectiveDefines text.toList) :
    substituteIn c.effectiveDefines text
      = String.ofList (replaceReferences c.effectiveDefines text.toList) := by
  exact congrArg String.ofList (substituteDefines_eq hn hr hu)

/-- `IPS` is begun by `IP` but not referred to, and nothing lengthens `I` to it. -/
theorem Config.substituteIn_effectiveDefines_interfaces :
    let c : Config :=
      { family := some .ip, defines := [⟨"PORT", "80"⟩, ⟨"IPS", "@s"⟩, ⟨"I", "lo"⟩] }
    let text := "$IP daddr @a iifname $I$PORT tcp dport $PORT"
    (Named c.effectiveDefines ∧ Refers c.effectiveDefines text.toList ∧
      Unmistaken c.effectiveDefines text.toList) ∧
      substituteIn c.effectiveDefines text
        = String.ofList (replaceReferences c.effectiveDefines text.toList) ∧
      substituteIn c.effectiveDefines text = "ip daddr @a iifname lo80 tcp dport 80" := by
  intro c text
  have hn : Named c.effectiveDefines := by decide +kernel
  have hr : Refers c.effectiveDefines text.toList := by decide +kernel
  have hu : Unmistaken c.effectiveDefines text.toList := by decide +kernel
  exact ⟨⟨hn, hr, hu⟩, c.substituteIn_effectiveDefines hn hr hu, by decide +kernel⟩

-- the value behind `$A` makes it `$A1`, which is still not the reference `$A12`
example : Unmistaken [⟨"F", "1"⟩, ⟨"A12", "x"⟩, ⟨"A", "y"⟩] "$A$F".toList := by decide +kernel

/--
A name that begins a later one takes the references to that, and a value that is put in behind a
reference makes one to another define of it.
-/
theorem Config.substituteIn_mistaken :
    let c : Config := { defines := [⟨"PORT", "80"⟩, ⟨"PORTS", "443"⟩] }
    let c' : Config := { defines := [⟨"NUM", "0"⟩, ⟨"ETH0", "lan"⟩, ⟨"ETH", "eth"⟩] }
    (Named c.effectiveDefines ∧ Refers c.effectiveDefines "$PORTS".toList ∧
      substituteIn c.effectiveDefines "$PORTS" = "80S" ∧
      String.ofList (replaceReferences c.effectiveDefines "$PORTS".toList) = "443") ∧
    Named c'.effectiveDefines ∧ Refers c'.effectiveDefines "$ETH$NUM".toList ∧
      substituteIn c'.effectiveDefines "$ETH$NUM" = "lan" ∧
      String.ofList (replaceReferences c'.effectiveDefines "$ETH$NUM".toList) = "eth0" := by
  decide +kernel

end Nftables
