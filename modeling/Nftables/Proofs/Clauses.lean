import Nftables.Proofs.Reading

/-!
# What a body says, and what is read of it

The body of a set or map is read clause by clause, and a clause with an unknown keyword is refused.
In the bodies of chains, flowtables and counters the clauses of the kind are looked for, each at the
first place where it reads as a whole, and what is not found is passed over. So such a body is read
whole only if it is spelled out: no other clauses, none twice, and each ended as a command is
written.

For sets and maps the argument runs along the fold over the clauses. Each clause writes one field
and leaves the others (`KeyClauses.Frame`), so what the last clause of a keyword says survives
everything behind it (`holds_foldlM`).

For the other kinds there is no such fold: each reader is tried at every place of the body, and
takes the first at which it succeeds. That the place is the right one has to be shown against all
the text in front of it: padding has no character that a clause begins with (`find?_padding`), and
another clause of the kind does not contain the reader's first words (`Spelled.find?_eq`). It is
here that the space in front of each semicolon is needed, since the readers ask for it and the
cutting of bodies does not; `readCommand_clauses_unspaced` shows what is lost without it.
-/

namespace Nftables

open Text Clause

/-! ## What objects say -/

/-- The word that a clause begins with. -/
def Clause.keyword (clause : List Char) : String := String.ofList (splitOnce ' ' clause).1

/-- The keywords of the clauses that sets and maps have. -/
def Clause.keysOf : Kind → List String
  | .set =>
    ["type", "typeof", "flags", "timeout", "gc-interval", "size", "policy", "auto-merge"]
  | .map => ["type", "typeof", "flags", "timeout", "gc-interval", "size", "policy"]
  | _ => []

/-- What the clause declares is declared. -/
def KeySpec.Holds (spec : KeySpec) (clause : List Char) : Prop :=
  let value := (splitOnce ' ' clause).2
  match keyword clause with
  | "type" => spec.keyType = some (String.ofList value)
  | "typeof" => spec.typeOf = some (String.ofList value)
  | "flags" => spec.flags = commaList value
  | "timeout" => ∃ d, Command.readSeconds value = .ok d ∧ spec.timeout = some d
  | "gc-interval" => ∃ d, Command.readSeconds value = .ok d ∧ spec.gcInterval = some d
  | "size" => ∃ n, readWord? value = some n ∧ spec.size = some n
  | "policy" => ∃ p : Policy, value = p.name.toList ∧ spec.policy = some p
  | _ => False

namespace Command

/-- A word of an enumeration is the name of what is read. -/
theorem name_of_word {α : Type} {all : List α} {name : α → String} {v : String → Violation}
    {s : List Char} {a : α}
    (h : word (fun s => orRefuse (v s) (all.find? (name · = s))) s = .ok a) :
    s = (name a).toList := by
  have hname := List.find?_some (of_orRefuse (of_word h))
  rw [of_decide_eq_true hname, String.toList_ofList]

end Command

namespace Command.KeyClauses

def Holds (k : KeyClauses) (clause : List Char) : Prop :=
  clause = "auto-merge".toList ∧ k.autoMerge = some true ∨ k.spec.Holds clause

/-- Only what belongs to the keyword has changed. -/
structure Frame (keyword : String) (k k' : KeyClauses) : Prop where
  keyType : keyword ≠ "type" → k'.spec.keyType = k.spec.keyType
  typeOf : keyword ≠ "typeof" → k'.spec.typeOf = k.spec.typeOf
  flags : keyword ≠ "flags" → k'.spec.flags = k.spec.flags
  timeout : keyword ≠ "timeout" → k'.spec.timeout = k.spec.timeout
  gcInterval : keyword ≠ "gc-interval" → k'.spec.gcInterval = k.spec.gcInterval
  size : keyword ≠ "size" → k'.spec.size = k.spec.size
  policy : keyword ≠ "policy" → k'.spec.policy = k.spec.policy
  autoMerge : keyword ≠ "auto-merge" → k'.autoMerge = k.autoMerge

variable {k k' : KeyClauses} {clause other : List Char}

/-- **A clause of a set or map has a known keyword**, and is read into what belongs to it. -/
theorem read_frame (h : k.read clause = .ok k') :
    keyword clause ∈ keysOf .set ∧ Frame (keyword clause) k k' := by
  unfold read at h
  dsimp only at h
  split at h
  -- clauses whose value is taken as it stands
  case h_1 heq | h_2 heq | h_3 heq | h_8 heq =>
    rw [keyword, heq]
    cases h
    exact ⟨by decide, by constructor <;> first | exact fun _ => rfl | exact absurd rfl⟩
  -- clauses whose value is read, which may fail
  case h_4 heq | h_5 heq | h_6 heq | h_7 heq =>
    rw [keyword, heq]
    obtain ⟨value, -, h⟩ := bind_ok h
    cases h
    exact ⟨by decide, by constructor <;> first | exact fun _ => rfl | exact absurd rfl⟩
  case h_9 => cases h

/-- What a clause says stays, until a clause with the same keyword is read. -/
theorem Frame.holds (h : Frame (keyword clause) k k') (hne : keyword other ≠ keyword clause)
    (hs : k.Holds other) : k'.Holds other := by
  rcases hs with ⟨rfl, hmerge⟩ | hs
  · exact .inl ⟨rfl, (h.autoMerge hne.symm).trans hmerge⟩
  · refine .inr ?_
    -- of the eight fields, the one that the other clause speaks of is not the one that was written
    have hne' : ∀ {s : String}, keyword other = s → keyword clause ≠ s :=
      fun hs hc => hne (hs.trans hc.symm)
    unfold KeySpec.Holds at hs ⊢
    dsimp only at hs ⊢
    split at hs <;> rename_i heq
    · exact (h.keyType (hne' heq)).trans hs
    · exact (h.typeOf (hne' heq)).trans hs
    · exact (h.flags (hne' heq)).trans hs
    · obtain ⟨d, hd, hs⟩ := hs
      exact ⟨d, hd, (h.timeout (hne' heq)).trans hs⟩
    · obtain ⟨d, hd, hs⟩ := hs
      exact ⟨d, hd, (h.gcInterval (hne' heq)).trans hs⟩
    · obtain ⟨n, hn, hs⟩ := hs
      exact ⟨n, hn, (h.size (hne' heq)).trans hs⟩
    · obtain ⟨p, hp, hs⟩ := hs
      exact ⟨p, hp, (h.policy (hne' heq)).trans hs⟩
    · exact hs

/-- A clause that is read is said, if it is not `auto-merge` with a value behind it. -/
theorem holds_of_read (h : k.read clause = .ok k')
    (hmerge : keyword clause = "auto-merge" → clause = "auto-merge".toList) : k'.Holds clause := by
  unfold read at h
  dsimp only at h
  split at h <;> rename_i heq
  case h_1 | h_2 | h_3 =>
    cases h
    refine .inr ?_
    simp only [KeySpec.Holds, keyword, heq]
  case h_4 | h_5 =>
    obtain ⟨d, hd, h⟩ := bind_ok h
    cases h
    refine .inr ?_
    simp only [KeySpec.Holds, keyword, heq]
    exact ⟨d, hd, rfl⟩
  case h_6 =>
    obtain ⟨n, hn, h⟩ := bind_ok h
    cases h
    refine .inr ?_
    simp only [KeySpec.Holds, keyword, heq]
    exact ⟨n, orFault_eq_ok.mp hn, rfl⟩
  case h_7 =>
    obtain ⟨p, hp, h⟩ := bind_ok h
    cases h
    refine .inr ?_
    simp only [KeySpec.Holds, keyword, heq]
    exact ⟨p, name_of_word hp, rfl⟩
  case h_8 =>
    cases h
    exact .inl ⟨hmerge heq, rfl⟩
  case h_9 => cases h

theorem autoMerge_of_read (h : k.read clause = .ok k') (hkey : keyword clause = "auto-merge") :
    k'.autoMerge = some true := by
  unfold read at h
  dsimp only at h
  rw [show String.ofList (splitOnce ' ' clause).1 = "auto-merge" from hkey] at h
  cases h
  rfl

/-- What a clause says stays while clauses with other keywords are read. -/
theorem holds_foldlM {l : List (List Char)} (h : l.foldlM read k = .ok k')
    (hnot : keyword clause ∉ l.map keyword) (hs : k.Holds clause) : k'.Holds clause := by
  induction l generalizing k with
  | nil =>
    cases h
    exact hs
  | cons next rest ih =>
    obtain ⟨k₁, h₁, h⟩ := bind_ok h
    -- the next clause has another keyword, so it leaves this one alone
    rw [List.map_cons, List.mem_cons, not_or] at hnot
    exact ih h hnot.2 ((read_frame h₁).2.holds hnot.1 hs)

/-- Once `auto-merge` is set, it stays so. -/
theorem autoMerge_foldlM {l : List (List Char)} (h : l.foldlM read k = .ok k')
    (hmerge : k.autoMerge = some true ∨ "auto-merge" ∈ l.map keyword) :
    k'.autoMerge = some true := by
  induction l generalizing k with
  | nil =>
    cases h
    exact hmerge.resolve_right (by simp)
  | cons next rest ih =>
    obtain ⟨k₁, h₁, h⟩ := bind_ok h
    refine ih h ?_
    by_cases hkey : keyword next = "auto-merge"
    · exact .inl (autoMerge_of_read h₁ hkey)
    · refine hmerge.imp ((read_frame h₁).2.autoMerge hkey).trans fun hmem => ?_
      rw [List.map_cons, List.mem_cons] at hmem
      exact hmem.resolve_left fun heq => hkey heq.symm

/-- **The clauses of a set or map are all known, and the last one of each keyword is said.** -/
theorem holds_of_foldlM {clauses : List (List Char)} (h : clauses.foldlM read k = .ok k')
    {l₁ l₂ : List (List Char)} (hsplit : clauses = l₁ ++ clause :: l₂) :
    keyword clause ∈ keysOf .set ∧ (keyword clause ∉ l₂.map keyword →
      (keyword clause = "auto-merge" → clause = "auto-merge".toList) → k'.Holds clause) := by
  -- the clauses in front, the clause itself, and those behind it
  rw [hsplit, List.foldlM_append] at h
  obtain ⟨k₁, -, h⟩ := bind_ok h
  obtain ⟨k₂, h₂, h⟩ := bind_ok h
  exact ⟨(read_frame h₂).1, fun hlast hmerge => holds_foldlM h hlast (holds_of_read h₂ hmerge)⟩

end Command.KeyClauses

/-! ### Sets and maps -/

namespace Command

variable {scope : Scope} {rest : List Char} {target : Target}

theorem foldlM_of_readKeyClauses {body : List Char} {k : KeyClauses}
    (h : readKeyClauses body = .ok k) : ∃ start : KeyClauses,
      (bodyClauses (takeComment body).1).foldlM KeyClauses.read start = .ok k :=
  ⟨{ spec := { comment := comment (takeComment body).2 } }, h⟩

theorem readSet_holds {s : NamedSet} (ht : readTarget rest = .ok target)
    (h : readSet scope rest = .ok s) {l₁ l₂ : List (List Char)} {clause : List Char}
    (hsplit : bodyClauses (takeComment target.body).1 = l₁ ++ clause :: l₂) :
    keyword clause ∈ keysOf .set ∧ (keyword clause ∉ l₂.map keyword →
      (keyword clause = "auto-merge" → clause = "auto-merge".toList) →
      (KeyClauses.mk s.spec s.autoMerge).Holds clause) := by
  obtain ⟨target', ht', h⟩ := bind_ok h
  obtain rfl : target = target' := Except.ok.inj (ht.symm.trans ht')
  obtain ⟨k, hk, h⟩ := bind_ok h
  cases h
  obtain ⟨start, hfold⟩ := foldlM_of_readKeyClauses hk
  exact KeyClauses.holds_of_foldlM hfold hsplit

theorem readMap_holds {m : NamedMap} (ht : readTarget rest = .ok target)
    (h : readMap scope rest = .ok m) {l₁ l₂ : List (List Char)} {clause : List Char}
    (hsplit : bodyClauses (takeComment target.body).1 = l₁ ++ clause :: l₂) :
    keyword clause ∈ keysOf .map ∧ (keyword clause ∉ l₂.map keyword → m.spec.Holds clause) := by
  obtain ⟨target', k, ht', hk, hnone, rfl⟩ := eq_of_readMap h
  obtain rfl : target = target' := Except.ok.inj (ht.symm.trans ht')
  obtain ⟨start, hfold⟩ := foldlM_of_readKeyClauses hk
  obtain ⟨hkey, hholds⟩ := KeyClauses.holds_of_foldlM hfold hsplit
  -- a map would have been refused for it
  have hmerge : keyword clause ≠ "auto-merge" := by
    intro heq
    have hset := KeyClauses.autoMerge_foldlM hfold (.inr (heq ▸ List.mem_map_of_mem (by
      rw [hsplit]
      simp)))
    rw [hnone] at hset
    cases hset
  refine ⟨?_, fun hlast => (hholds hlast (absurd · hmerge)).resolve_left ?_⟩
  · simp only [keysOf, List.mem_cons, List.not_mem_nil, or_false] at hkey ⊢
    simpa [hmerge] using hkey
  · rintro ⟨rfl, -⟩
    exact hmerge (by decide)

end Command

/-! ## Bodies that are spelled out -/

namespace Clause

/-- Blanks and semicolons. -/
def Padding (s : List Char) : Prop := ∀ c ∈ s, c = ';' ∨ isBlank c = true

instance (s : List Char) : Decidable (Padding s) := inferInstanceAs (Decidable (∀ _ ∈ _, _))

/-- A clause that the kind has, with plain words and a number in digits. Tables have none. -/
inductive IsClause : Kind → List Char → Prop
  | hook {chainType hook priority : List Char} {device : Option String}
    (htype : BareWord chainType) (hhook : BareWord hook)
    (hdevice : ∀ d ∈ device, BareWord d.toList) (hpriority : BareWord priority) :
    IsClause .chain ("type ".toList ++ (chainType ++ (" hook ".toList ++ (hook ++
      (deviceText device ++ (" priority ".toList ++ priority))))))
  | ingress {priority : List Char} (hpriority : BareWord priority) :
    IsClause .flowtable ("hook ingress priority ".toList ++ priority)
  | devices {devices : List String} (hne : devices ≠ [])
    (hdevices : ∀ d ∈ devices, BareWord d.toList) :
    IsClause .flowtable
      ("devices = \x7b ".toList ++ ((", ".intercalate devices).toList ++ " \x7d".toList))
  | counts {packets bytes : List Char} (hpackets : Digits packets) (hbytes : Digits bytes) :
    IsClause .counter ("packets ".toList ++ (packets ++ (" bytes ".toList ++ bytes)))

/-- The body has these clauses, each ended by a semicolon behind a space. -/
inductive Spelled (kind : Kind) : List (List Char) → List Char → Prop
  | nil {pad : List Char} (hpad : Padding pad) : Spelled kind [] pad
  | cons {pad clause rest : List Char} {clauses : List (List Char)} (hpad : Padding pad)
    (hclause : IsClause kind clause) (t : Spelled kind clauses rest) :
    Spelled kind (clause :: clauses) (pad ++ (clause ++ (" ;".toList ++ rest)))

theorem bodyClauses_blank {c : Char} (hc : isBlank c = true) (s : List Char) :
    Command.bodyClauses (c :: s) = Command.bodyClauses s := by
  have hsemi : c ≠ ';' := by
    rintro rfl
    cases hc
  obtain ⟨piece, pieces, hs⟩ := List.exists_cons_of_ne_nil (List.splitOn_ne_nil ';' s)
  have htrim : trim (c :: piece) = trim piece := by
    rw [trim, trimStart, List.dropWhile_cons_of_pos hc]
    rfl
  have hcons : (c :: s).splitOn ';' = (c :: piece) :: pieces := by
    rw [List.splitOn_cons_eq_if_modifyHead, if_neg (by simpa using hsemi), hs]
    rfl
  rw [Command.bodyClauses, Command.bodyClauses, hcons, hs, List.map_cons, List.map_cons, htrim]

theorem bodyClauses_padding {pad : List Char} (h : Padding pad) (s : List Char) :
    Command.bodyClauses (pad ++ s) = Command.bodyClauses s := by
  induction pad with
  | nil => rfl
  | cons c pad ih =>
    obtain ⟨hc, hpad⟩ := List.forall_mem_cons.mp h
    -- a semicolon ends an empty clause, and a blank is trimmed off
    rcases hc with rfl | hc
    · exact (bodyClauses_append [] (pad ++ s)).trans (ih hpad)
    · exact (bodyClauses_blank hc (pad ++ s)).trans (ih hpad)

/-- A clause stands for itself. -/
theorem IsClause.solid {kind : Kind} {clause : List Char} (h : IsClause kind clause) :
    clause ≠ [] ∧ Trimmed clause ∧ ';' ∉ clause := by
  -- it begins with a letter and ends with a word or a brace; no part of it has a semicolon
  have hnot : ∀ {w : List Char}, BareWord w → ';' ∉ w := fun hw => hw.not_mem (by decide)
  cases h with
  | @hook chainType hook priority device htype hhook hdevice hpriority =>
    have hcut : "type ".toList ++ (chainType ++ (" hook ".toList ++ (hook ++ (deviceText device ++
        (" priority ".toList ++ priority))))) = ['t'] ++ ("ype ".toList ++ (chainType ++
          (" hook ".toList ++ (hook ++ (deviceText device ++ " priority ".toList))))) ++
            priority := by
      simp
    have hdeviceText : ';' ∉ deviceText device := by
      cases device with
      | none => decide
      | some d => simp [deviceText, quote, quoteBody_bare (hdevice d rfl), hnot (hdevice d rfl)]
    refine ⟨by simp, ?_, by simp [hnot htype, hnot hhook, hnot hpriority, hdeviceText]⟩
    rw [hcut]
    exact Trimmed.between (by decide) hpriority.word.trimmed (by decide) hpriority.1 _
  | @ingress priority hpriority =>
    have hcut : "hook ingress priority ".toList ++ priority
        = ['h'] ++ "ook ingress priority ".toList ++ priority := by
      simp
    refine ⟨by simp, ?_, by simp [hnot hpriority]⟩
    rw [hcut]
    exact Trimmed.between (by decide) hpriority.word.trimmed (by decide) hpriority.1 _
  | @devices devices hne hdevices =>
    have hlist : ';' ∉ [',', ' '].intercalate (devices.map String.toList) :=
      not_mem_bareList (by decide) (by decide) hdevices
    have hcut : "devices = \x7b ".toList ++ ((", ".intercalate devices).toList ++ " \x7d".toList)
        = ['d'] ++ ("evices = \x7b ".toList ++ ((", ".intercalate devices).toList ++ [' '])) ++
          ['\x7d'] := by
      simp
    refine ⟨by simp, ?_, by simp [hlist]⟩
    rw [hcut]
    exact Trimmed.between (by decide) (by decide) (by decide) (by decide) _
  | @counts packets bytes hpackets hbytes =>
    have hcut : "packets ".toList ++ (packets ++ (" bytes ".toList ++ bytes))
        = ['p'] ++ ("ackets ".toList ++ (packets ++ " bytes ".toList)) ++ bytes := by
      simp
    refine ⟨by simp, ?_, by simp [hnot hpackets.bareWord, hnot hbytes.bareWord]⟩
    rw [hcut]
    exact Trimmed.between (by decide) hbytes.bareWord.word.trimmed (by decide) hbytes.1 _

/-- **The clauses of a body that is spelled out are its clauses.** -/
theorem Spelled.bodyClauses_eq {kind : Kind} {clauses : List (List Char)} {body : List Char}
    (h : Spelled kind clauses body) : Command.bodyClauses body = clauses := by
  induction h with
  | nil hpad =>
    have hnil := bodyClauses_padding hpad []
    rw [List.append_nil] at hnil
    exact hnil
  | @cons pad clause rest clauses hpad hclause t ih =>
    obtain ⟨hne, htrimmed, hsemi⟩ := hclause.solid
    have hsingle := bodyClauses_single [] [' '] hne htrimmed hsemi (by simp) (by simp)
    rw [bodyClauses_padding hpad, show clause ++ (" ;".toList ++ rest)
      = [] ++ clause ++ [' '] ++ ';' :: rest by simp, bodyClauses_append, hsingle, ih]
    rfl

/-! ### The place at which a clause is found -/

section Search

variable {α : Type} {read : List Char → Option α} {c : Char} {p : List Char}
  (hread : ∀ s a, read s = some a → c :: p <+: s)

include hread

/-- Nothing is found before a character that no clause of the kind begins with. -/
theorem find?_cons {d : Char} (hd : d ≠ c) (s : List Char) :
    find? read (d :: s) = find? read s := by
  have hnone : read (d :: s) = none := by
    cases hr : read (d :: s) with
    | none => rfl
    | some a => exact absurd (List.cons_prefix_cons.mp (hread _ a hr)).1.symm hd
  rw [find?, findFirst?, hnone, find?]
  cases findFirst? read s <;> rfl

theorem find?_padding (hc : ¬ (c = ';' ∨ isBlank c = true)) {pad : List Char} (h : Padding pad)
    (s : List Char) : find? read (pad ++ s) = find? read s := by
  induction pad with
  | nil => rfl
  | cons d pad ih =>
    obtain ⟨hd, hpad⟩ := List.forall_mem_cons.mp h
    exact (find?_cons hread (fun heq => hc (heq ▸ hd)) _).trans (ih hpad)

/-- A text without the reader's first characters is passed over, up to a character behind it. -/
theorem find?_pass {d : Char} (hd : d ∉ c :: p) {before : List Char} (h : ¬ c :: p <:+: before)
    (rest : List Char) : find? read (before ++ d :: rest) = find? read rest := by
  induction before with
  | nil => exact find?_cons hread (fun heq => hd (heq ▸ List.mem_cons_self)) rest
  | cons e before ih =>
    have hnone : read (e :: before ++ d :: rest) = none := by
      cases hr : read (e :: before ++ d :: rest) with
      | none => rfl
      | some a =>
        -- the first characters end before `d`
        exfalso
        have hp := hread _ a hr
        rcases List.prefix_or_prefix_of_prefix hp (List.prefix_append (e :: before) (d :: rest))
          with hin | ⟨q, hq⟩
        · exact h hin.isInfix
        · rw [← hq, List.prefix_append_right_inj] at hp
          cases q with
          | nil => exact h ⟨[], [], by rw [← hq]; simp⟩
          | cons f q =>
            obtain rfl : f = d := (List.cons_prefix_cons.mp hp).1
            exact hd (hq ▸ by simp)
    have hrest := ih fun hin => h (hin.trans (List.suffix_cons e before).isInfix)
    rw [List.cons_append] at hnone ⊢
    rw [find?, findFirst?, hnone, ← hrest, find?]
    cases findFirst? read (before ++ d :: rest) <;> rfl

/-- **A clause is found behind clauses that do not read like it.** -/
theorem Spelled.find?_eq (hc : ¬ (c = ';' ∨ isBlank c = true)) (hsemi : ';' ∉ c :: p) {kind : Kind}
    {clauses l₁ l₂ : List (List Char)} {clause body : List Char} {a : α}
    (h : Spelled kind clauses body) (hsplit : clauses = l₁ ++ clause :: l₂)
    (hbefore : ∀ k ∈ l₁, ¬ c :: p <:+: k ++ [' '])
    (hclause : ∀ rest, read (clause ++ (" ;".toList ++ rest)) = some a) :
    find? read body = some a := by
  induction h generalizing l₁ with
  | nil => simp at hsplit
  | @cons pad k rest clauses hpad hk t ih =>
    rw [find?_padding hread hc hpad]
    cases l₁ with
    | nil =>
      obtain ⟨rfl, -⟩ := List.cons.inj hsplit
      exact find?_head (hclause rest)
    | cons j l₁ =>
      obtain ⟨rfl, htail⟩ := List.cons.inj hsplit
      obtain ⟨hj, hl₁⟩ := List.forall_mem_cons.mp hbefore
      rw [show k ++ (" ;".toList ++ rest) = (k ++ [' ']) ++ ';' :: rest by simp,
        find?_pass hread hsemi hj]
      exact ih htail hl₁

end Search

end Clause

/-! ## What the other kinds say -/

/-- The clause is the one that attaches the chain. -/
def Chain.Holds (c : Chain) (clause : List Char) : Prop :=
  ∃ chainType hook priority, c.chainType = some chainType ∧ c.hook = some hook ∧
    c.priority = some priority ∧
    clause = "type ".toList ++ (chainType.name.toList ++ (" hook ".toList ++ (hook.name.toList ++
      (deviceText c.device ++ (" priority ".toList ++ priority.toList)))))

def Flowtable.Holds (f : Flowtable) (clause : List Char) : Prop :=
  (∃ priority, f.priority = some priority ∧
    clause = "hook ingress priority ".toList ++ priority.toList) ∨
  ∃ list, f.devices = commaList list ∧
    clause = "devices = \x7b ".toList ++ (list ++ " \x7d".toList)

def Counter.Holds (c : Counter) (clause : List Char) : Prop :=
  ∃ packets bytes, clause = "packets ".toList ++ (packets ++ (" bytes ".toList ++ bytes)) ∧
    (∃ n, readWord? packets = some n ∧ c.packets = some n) ∧
    ∃ n, readWord? bytes = some n ∧ c.bytes = some n

namespace Clause

theorem Spelled.isClause {kind : Kind} {clauses : List (List Char)} {body : List Char}
    (h : Spelled kind clauses body) : ∀ clause ∈ clauses, IsClause kind clause := by
  induction h with
  | nil => exact fun _ h => absurd h List.not_mem_nil
  | cons _ hclause _ ih => exact List.forall_mem_cons.mpr ⟨hclause, ih⟩

theorem keyword_append (k : String) (h : ' ' ∉ k.toList) (s : List Char) :
    keyword (k.toList ++ ' ' :: s) = k := by
  rw [keyword, splitOnce_append h, String.ofList_toList]

theorem IsClause.keyword_chain {clause : List Char} (h : IsClause .chain clause) :
    keyword clause = "type" := by
  cases h
  exact keyword_append "type" (by decide) _

theorem IsClause.keyword_counter {clause : List Char} (h : IsClause .counter clause) :
    keyword clause = "packets" := by
  cases h
  exact keyword_append "packets" (by decide) _

/-- Where no two clauses have one keyword, those in front of a clause have others. -/
theorem keyword_ne {clauses l₁ l₂ : List (List Char)} {clause : List Char}
    (hdistinct : (clauses.map keyword).Nodup) (hsplit : clauses = l₁ ++ clause :: l₂) :
    ∀ k ∈ l₁, keyword k ≠ keyword clause := by
  intro k hk heq
  rw [hsplit, List.map_append, List.nodup_append] at hdistinct
  exact hdistinct.2.2 _ (List.mem_map_of_mem hk) _ (List.mem_map_of_mem List.mem_cons_self) heq

theorem prefix_of_readHookClause {s : List Char} {a : HookClause} (h : readHookClause s = some a) :
    "type ".toList <+: s := by
  obtain ⟨r, hr, -⟩ := Option.bind_eq_some_iff.mp h
  exact prefix_of_expect hr

theorem prefix_of_readCountClause {s : List Char} {a : List Char × List Char}
    (h : readCountClause s = some a) : "packets ".toList <+: s := by
  obtain ⟨r, hr, -⟩ := Option.bind_eq_some_iff.mp h
  exact prefix_of_expect hr

end Clause

namespace Command

variable {scope : Scope} {rest : List Char} {target : Target} {clauses : List (List Char)}

theorem readChain_holds {c : Chain} (ht : readTarget rest = .ok target)
    (h : readChain scope rest = .ok c)
    (hs : Spelled .chain clauses (takeComment target.body).1)
    (hdistinct : (clauses.map keyword).Nodup) : ∀ clause ∈ clauses, c.Holds clause := by
  intro clause hmem
  obtain ⟨l₁, l₂, hsplit⟩ := List.append_of_mem hmem
  have hne := keyword_ne hdistinct hsplit
  have hclause := hs.isClause clause hmem
  have hkey := hclause.keyword_chain
  cases hclause with
  | @hook chainType hook priority device htype hhook hdevice hpriority =>
    have hfound : find? readHookClause (takeComment target.body).1
        = some ⟨chainType, hook, device.map String.toList, priority⟩ := by
      refine hs.find?_eq (c := 't') (p := "ype ".toList) (fun s a => prefix_of_readHookClause)
        (by decide) (by decide) hsplit (fun k hk => ?_) fun rest => ?_
      · -- all clauses of a chain have one keyword
        have hk' := (hs.isClause k (hsplit ▸ by simp [hk])).keyword_chain
        exact absurd (hk'.trans hkey.symm) (hne k hk)
      · have hread := readHookClause_append htype.word hhook.word hdevice hpriority.word rest
        simpa using hread
    obtain ⟨target', ht', h⟩ := bind_ok h
    obtain rfl : target = target' := Except.ok.inj (ht.symm.trans ht')
    dsimp only at h
    rw [hfound] at h
    obtain ⟨t, htype, h⟩ := bind_ok h
    obtain ⟨k, hhook, h⟩ := bind_ok h
    cases h
    have hdevice : (device.map String.toList).map String.ofList = device := by
      cases device <;> simp
    have hpriority : (String.ofList priority).toList = priority := String.toList_ofList
    refine ⟨t, k, String.ofList priority, rfl, rfl, rfl, ?_⟩
    show _ = "type ".toList ++ (t.name.toList ++ (" hook ".toList ++ (k.name.toList ++
      (deviceText ((device.map String.toList).map String.ofList) ++
        (" priority ".toList ++ (String.ofList priority).toList)))))
    rw [hdevice, hpriority, ← name_of_word htype, ← name_of_word hhook]

theorem readFlowtable_holds {f : Flowtable} (ht : readTarget rest = .ok target)
    (h : readFlowtable scope rest = .ok f) (hs : Spelled .flowtable clauses target.body)
    (hdistinct : (clauses.map keyword).Nodup) : ∀ clause ∈ clauses, f.Holds clause := by
  intro clause hmem
  obtain ⟨l₁, l₂, hsplit⟩ := List.append_of_mem hmem
  have hne := keyword_ne hdistinct hsplit
  have hclause := hs.isClause clause hmem
  obtain ⟨target', ht', h⟩ := bind_ok h
  obtain rfl : target = target' := Except.ok.inj (ht.symm.trans ht')
  cases h
  have hhook : ∀ p, keyword ("hook ingress priority ".toList ++ p) = "hook" := fun p =>
    keyword_append "hook" (by decide) _
  have hdevices : ∀ l, keyword ("devices = \x7b ".toList ++ l) = "devices" := fun l =>
    keyword_append "devices" (by decide) _
  cases hclause with
  | @ingress priority hpriority =>
    have hfound : find? readIngressClause target.body = some priority := by
      refine hs.find?_eq (c := 'h') (p := "ook ingress priority ".toList)
        (fun s a => prefix_of_readIngressClause) (by decide) (by decide) hsplit (fun k hk => ?_)
        fun rest => ?_
      · -- in front stand the devices at most
        have hk' := hne k hk
        cases hs.isClause k (hsplit ▸ by simp [hk]) with
        | ingress => exact absurd ((hhook _).trans (hhook _).symm) hk'
        | @devices devices _ hplain =>
          exact fun hin => not_infix_devices hplain rfl (hin.trans ⟨[], [';'], by simp⟩)
      · have hread := readIngressClause_append hpriority.word rest
        simpa using hread
    have htext : (String.ofList priority).toList = priority := String.toList_ofList
    refine .inl ⟨String.ofList priority, congrArg (Option.map String.ofList) hfound, ?_⟩
    rw [htext]
  | @devices devices hnil hplain =>
    have hfound : find? readDevicesClause target.body = some (", ".intercalate devices).toList := by
      refine hs.find?_eq (c := 'd') (p := "evices = \x7b ".toList)
        (fun s a => prefix_of_readDevicesClause) (by decide) (by decide) hsplit (fun k hk => ?_)
        fun rest => ?_
      · have hk' := hne k hk
        cases hs.isClause k (hsplit ▸ by simp [hk]) with
        | @ingress priority hpriority =>
          -- a plain word has no brace in it
          have hbrace : '\x7b' ∉ priority := hpriority.not_mem (by decide)
          intro hin
          have hmem := hin.subset (show '\x7b' ∈ _ by decide)
          simp [hbrace] at hmem
        | devices => exact absurd ((hdevices _).trans (hdevices _).symm) hk'
      · have hread := readDevicesClause_append hplain (" ;".toList ++ rest)
        simpa using hread
    refine .inr ⟨(", ".intercalate devices).toList, ?_, rfl⟩
    show ((find? readDevicesClause target.body).map commaList).getD [] = _
    rw [hfound]
    rfl

theorem readCounter_holds {c : Counter} (ht : readTarget rest = .ok target)
    (h : readCounter scope rest = .ok c)
    (hs : Spelled .counter clauses (takeComment target.body).1)
    (hdistinct : (clauses.map keyword).Nodup) : ∀ clause ∈ clauses, c.Holds clause := by
  intro clause hmem
  obtain ⟨l₁, l₂, hsplit⟩ := List.append_of_mem hmem
  have hne := keyword_ne hdistinct hsplit
  have hclause := hs.isClause clause hmem
  have hkey := hclause.keyword_counter
  cases hclause with
  | @counts packets bytes hpackets hbytes =>
    have hfound : find? readCountClause (takeComment target.body).1 = some (packets, bytes) := by
      refine hs.find?_eq (c := 'p') (p := "ackets ".toList) (fun s a => prefix_of_readCountClause)
        (by decide) (by decide) hsplit (fun k hk => ?_) fun rest => ?_
      · have hk' := (hs.isClause k (hsplit ▸ by simp [hk])).keyword_counter
        exact absurd (hk'.trans hkey.symm) (hne k hk)
      · have hread := readCountClause_append hpackets hbytes rest
        simpa using hread
    obtain ⟨target', ht', h⟩ := bind_ok h
    obtain rfl : target = target' := Except.ok.inj (ht.symm.trans ht')
    dsimp only at h
    rw [hfound] at h
    obtain ⟨n, hn, h⟩ := bind_ok h
    obtain ⟨m, hm, h⟩ := bind_ok h
    cases h
    exact ⟨packets, bytes, rfl, ⟨n, orFault_eq_ok.mp hn, rfl⟩, ⟨m, orFault_eq_ok.mp hm, rfl⟩⟩

/-! ## The body of a line -/

/-- The body in a line on an object of the kind, without its braces. -/
def Line.body (kind : Kind) (l : Line) : List Char :=
  match kind with
  | .table => trim (stripBraces (trim l.rest))
  | _ =>
    match readTarget l.rest with
    | .ok target => target.body
    | .error _ => []

theorem Line.body_eq (l : Line) (kind : Kind) (hkind : kind ≠ .table)
    (h : readTarget l.rest = .ok target) : l.body kind = target.body := by
  cases kind with
  | table => exact absurd rfl hkind
  | _ =>
    simp only [Line.body, h]

end Command

/-- The object holds what the clause says. -/
def Object.Holds : Object → List Char → Prop
  | .chain c => c.Holds
  | .set s => (Command.KeyClauses.mk s.spec s.autoMerge).Holds
  | .map m => m.spec.Holds
  | .flowtable f => f.Holds
  | .counter c => c.Holds
  | _ => fun _ => False

namespace Clause

theorem takeComment_of_none {s : List Char} (h : (takeComment s).2 = none) :
    (takeComment s).1 = s := by
  unfold takeComment at h ⊢
  split at h
  · cases h
  · rfl

end Clause

namespace Command

variable {known : List MapName} {line : List Char} {l : Line} {c : Parsed} {o : Object}

/-- What a line is read as, and where the clauses of the object come from. -/
inductive Line.ReadAs (l : Line) : Object → Prop
  | chain {scope : Scope} {target : Target} {c : Chain} (ht : readTarget l.rest = .ok target)
    (h : readChain scope l.rest = .ok c) : ReadAs l (.chain c)
  | set {scope : Scope} {target : Target} {s : NamedSet} (ht : readTarget l.rest = .ok target)
    (h : readSet scope l.rest = .ok s) : ReadAs l (.set s)
  | map {scope : Scope} {target : Target} {m : NamedMap} (ht : readTarget l.rest = .ok target)
    (h : readMap scope l.rest = .ok m) : ReadAs l (.map m)
  | flowtable {scope : Scope} {target : Target} {f : Flowtable}
    (ht : readTarget l.rest = .ok target) (h : readFlowtable scope l.rest = .ok f) :
    ReadAs l (.flowtable f)
  | counter {scope : Scope} {target : Target} {c : Counter} (ht : readTarget l.rest = .ok target)
    (h : readCounter scope l.rest = .ok c) : ReadAs l (.counter c)
  | other {o : Object} (h : o.kind ∈ [.table, .rule, .element]) : ReadAs l o

theorem Line.readAs (hl : Line.read? line = some l) (h : readCommand known line = .ok c) :
    l.ReadAs c.operation.object := by
  obtain ⟨l', verb, kind, family, hl', -, -, h⟩ := readObject_of_readCommand h
  obtain rfl : l = l' := Option.some.inj (hl.symm.trans hl')
  unfold readObject at h
  cases kind with
  | table | rule | element =>
    obtain ⟨o, -, h⟩ := bind_ok h
    cases h
    exact .other (by simp [Object.kind])
  | chain =>
    obtain ⟨o, ho, h⟩ := bind_ok h
    obtain ⟨target, ht, -⟩ := bind_ok ho
    cases h
    exact .chain ht ho
  | set =>
    obtain ⟨o, ho, h⟩ := bind_ok h
    obtain ⟨target, ht, -⟩ := bind_ok ho
    cases h
    exact .set ht ho
  | map =>
    obtain ⟨o, ho, h⟩ := bind_ok h
    obtain ⟨target, ht, -⟩ := bind_ok ho
    cases h
    exact .map ht ho
  | flowtable =>
    obtain ⟨o, ho, h⟩ := bind_ok h
    obtain ⟨target, ht, -⟩ := bind_ok ho
    cases h
    exact .flowtable ht ho
  | counter =>
    obtain ⟨o, ho, h⟩ := bind_ok h
    obtain ⟨target, ht, -⟩ := bind_ok ho
    cases h
    exact .counter ht ho

/-- Sets and maps refuse a clause that they do not know, and hold the last one of each keyword. -/
theorem Line.ReadAs.keyed (h : l.ReadAs o) (hkind : o.kind = .set ∨ o.kind = .map)
    {l₁ l₂ : List (List Char)} {clause : List Char}
    (hsplit : bodyClauses (takeComment (l.body o.kind)).1 = l₁ ++ clause :: l₂) :
    keyword clause ∈ keysOf o.kind ∧ (keyword clause ∉ l₂.map keyword →
      (keyword clause = "auto-merge" → clause = "auto-merge".toList) → o.Holds clause) := by
  cases h with
  | set ht h =>
    have hbody := l.body_eq .set (by decide) ht
    exact readSet_holds ht h (hbody ▸ hsplit)
  | map ht h =>
    have hbody := l.body_eq .map (by decide) ht
    obtain ⟨hkey, hholds⟩ := readMap_holds ht h (hbody ▸ hsplit)
    exact ⟨hkey, fun hlast _ => hholds hlast⟩
  | other h => rcases hkind with hkind | hkind <;> simp [hkind] at h
  | _ => simp [Object.kind] at hkind

/-- The clauses of a body that is spelled out are in the object. -/
theorem Line.ReadAs.spelled (h : l.ReadAs o) {clauses : List (List Char)}
    (hs : Spelled o.kind clauses (takeComment (l.body o.kind)).1)
    (hdistinct : (clauses.map keyword).Nodup)
    (hnone : o.kind = .flowtable → (takeComment (l.body o.kind)).2 = none) :
    ∀ clause ∈ clauses, o.Holds clause := by
  cases h with
  | chain ht h =>
    have hbody := l.body_eq .chain (by decide) ht
    exact readChain_holds ht h (hbody ▸ hs) hdistinct
  | flowtable ht h =>
    -- a flowtable is read without its comment being taken out, so it must have none
    have hcut := (takeComment_of_none (hnone rfl)).trans (l.body_eq .flowtable (by decide) ht)
    exact readFlowtable_holds ht h (hcut ▸ hs) hdistinct
  | counter ht h =>
    have hbody := l.body_eq .counter (by decide) ht
    exact readCounter_holds ht h (hbody ▸ hs) hdistinct
  | set | map =>
    exact fun clause hmem => nomatch hs.isClause clause hmem
  | other h =>
    intro clause hmem
    have hclause := hs.isClause clause hmem
    generalize o.kind = kind at h hclause
    cases hclause <;> simp at h

/--
**What a body says is in the object, if it is spelled out.** Of a set or map every clause has a
known keyword, however it is spelled, and the last clause of each keyword is said by the object that
is read, but for what stands behind `auto-merge`. Of the other kinds a body is read whole if it has
the clauses of the kind, at most one of each, and ends each by a semicolon behind a space.
-/
theorem readCommand_clauses (hl : Line.read? line = some l) (h : readCommand known line = .ok c) :
    let o := c.operation.object
    let cut := takeComment (l.body o.kind)
    (∀ l₁ clause l₂, o.kind = .set ∨ o.kind = .map →
      bodyClauses cut.1 = l₁ ++ clause :: l₂ → keyword clause ∈ keysOf o.kind ∧
        (keyword clause ∉ l₂.map keyword →
          (keyword clause = "auto-merge" → clause = "auto-merge".toList) → o.Holds clause)) ∧
    ∀ clauses, Spelled o.kind clauses cut.1 → (clauses.map keyword).Nodup →
      (o.kind = .flowtable → cut.2 = none) →
      bodyClauses cut.1 = clauses ∧ ∀ clause ∈ clauses, o.Holds clause := by
  intro o cut
  have hread : l.ReadAs o := Line.readAs hl h
  exact ⟨fun _ _ _ hkind hsplit => hread.keyed hkind hsplit, fun _ hs hdistinct hnone =>
    ⟨hs.bodyClauses_eq, hread.spelled hs hdistinct hnone⟩⟩

/-- The hook clause of a base chain, and a set whose clauses are not spelled out. -/
theorem readCommand_clauses_baseChain :
    let chainLine :=
      "add chain ip t c \x7b type filter hook input priority 0 ; comment \"in\" ; \x7d".toList
    let setLine := "add set ip t s \x7b type ipv4_addr; size 16 \x7d".toList
    (∃ l c, Line.read? chainLine = some l ∧ readCommand [] chainLine = .ok c ∧
      bodyClauses (takeComment (l.body .chain)).1 = ["type filter hook input priority 0".toList] ∧
      c.operation.object.Holds "type filter hook input priority 0".toList) ∧
    ∃ l c, Line.read? setLine = some l ∧ readCommand [] setLine = .ok c ∧
      bodyClauses (takeComment (l.body .set)).1 = ["type ipv4_addr".toList, "size 16".toList] ∧
      c.operation.object.Holds "size 16".toList := by
  intro chainLine setLine
  constructor
  · let l : Line := ⟨"add".toList, "chain".toList, "ip".toList, "t".toList,
      "c \x7b type filter hook input priority 0 ; comment \"in\" ; \x7d".toList⟩
    let c : Parsed := ⟨⟨.add, .chain
      { scope := ⟨some .ip, some "t"⟩, name := "c", chainType := some .filter, hook := some .input
        priority := some "0", comment := some "in" }⟩, []⟩
    have hl : Line.read? chainLine = some l := by decide +kernel
    have hc : readCommand [] chainLine = .ok c := by decide +kernel
    have hclause : IsClause .chain "type filter hook input priority 0".toList :=
      @IsClause.hook "filter".toList "input".toList "0".toList none (by decide) (by decide)
        (by simp) (by decide)
    have hcut : (takeComment (l.body .chain)).1
        = [] ++ ("type filter hook input priority 0".toList ++ (" ;".toList ++ [])) := by
      decide +kernel
    have hs : Spelled .chain ["type filter hook input priority 0".toList]
        (takeComment (l.body .chain)).1 := by
      rw [hcut]
      exact .cons (by decide) hclause (.nil (by decide))
    obtain ⟨hclauses, hholds⟩ := (readCommand_clauses hl hc).2 _ hs
      (List.pairwise_singleton _ _) nofun
    exact ⟨l, c, hl, hc, hclauses, hholds _ List.mem_cons_self⟩
  · let l : Line := ⟨"add".toList, "set".toList, "ip".toList, "t".toList,
      "s \x7b type ipv4_addr; size 16 \x7d".toList⟩
    let c : Parsed := ⟨⟨.add, .set
      { scope := ⟨some .ip, some "t"⟩, name := "s"
        spec := { keyType := some "ipv4_addr", size := some 16 } }⟩, []⟩
    have hl : Line.read? setLine = some l := by decide +kernel
    have hc : readCommand [] setLine = .ok c := by decide +kernel
    have hclauses : bodyClauses (takeComment (l.body .set)).1
        = ["type ipv4_addr".toList] ++ "size 16".toList :: [] := by
      decide +kernel
    obtain ⟨-, hholds⟩ := (readCommand_clauses hl hc).1 _ _ _ (.inl rfl) hclauses
    exact ⟨l, c, hl, hc, hclauses, hholds (by simp) (by decide)⟩

/--
Without the space in front of its semicolon a hook clause is not found, and a clause that chains do
not have is not refused: both lines are read as one for a regular chain that says nothing.
-/
theorem readCommand_clauses_unspaced :
    let hookLine := "add chain ip t c \x7b type filter hook input priority 0; \x7d".toList
    let policyLine := "add chain ip t c \x7b policy drop ; \x7d".toList
    let chain : Object := .chain { scope := ⟨some .ip, some "t"⟩, name := "c" }
    (Line.read? hookLine).map (fun l => bodyClauses (takeComment (l.body .chain)).1)
        = some ["type filter hook input priority 0".toList] ∧
      (Line.read? policyLine).map (fun l => bodyClauses (takeComment (l.body .chain)).1)
        = some ["policy drop".toList] ∧
      readCommand [] hookLine = .ok ⟨⟨.add, chain⟩, []⟩ ∧
      readCommand [] policyLine = .ok ⟨⟨.add, chain⟩, []⟩ ∧ ∀ clause, ¬ chain.Holds clause := by
  intro hookLine policyLine chain
  refine ⟨by decide +kernel, by decide +kernel, by decide +kernel, by decide +kernel, ?_⟩
  rintro clause ⟨_, _, _, htype, -⟩
  cases htype

end Command

end Nftables
