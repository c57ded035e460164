import Nftables.Proofs.Reading

/-!
# Sets and maps are read back

The body of a set or map is read clause by clause, each over what the ones before it gave. The
clauses that are written lead from the comment alone to all that is declared.

The clauses are read by a fold over `KeyClauses.read`, which sets one field and leaves the others.
Only the clauses that are present are written, in the order of the fields; `ClausesLead` says where
a piece of the list leads from and to, so a clause that is absent is an empty piece, and the whole
is put together by `ClausesLead.append`. The comment is taken out of the body before it is cut at
the semicolons, since it may have some in it: it is there from the start.

Of the two ways to give the type of the keys just one is set, which is what validation has checked
(`KeySpec.OneType`). `auto-merge` is a clause of sets alone, and one that is written only if it is
`true`.
-/

namespace Nftables

open Text Clause

section Clauses

open Command (KeyClauses)

/-- A clause is read by its keyword. -/
theorem splitOnce_keyword {k : String} (hk : BareWord k.toList) (s : String) :
    splitOnce ' ' (k ++ " " ++ s).toList = (k.toList, s.toList) := by
  have hcut : (k ++ " " ++ s).toList = k.toList ++ ' ' :: s.toList := by
    simp
  rw [hcut, splitOnce_append (hk.not_mem (by decide))]

/-- Reading the clauses one after the other leads from `k` to `k'`. -/
def ClausesLead (clauses : List String) (k k' : KeyClauses) : Prop :=
  (clauses.map String.toList).foldlM KeyClauses.read k = .ok k'

variable {k k' k'' : KeyClauses}

theorem ClausesLead.append {l₁ l₂ : List String} (h₁ : ClausesLead l₁ k k')
    (h₂ : ClausesLead l₂ k' k'') : ClausesLead (l₁ ++ l₂) k k'' := by
  unfold ClausesLead
  rw [List.map_append, List.foldlM_append]
  exact (bind_of_ok h₁).trans h₂

theorem clausesLead_single {clause : String} (h : KeyClauses.read k clause.toList = .ok k') :
    ClausesLead [clause] k k' :=
  bind_of_ok h

theorem readSeconds_duration {d : Duration} (h : PlainDuration d) :
    Command.readSeconds (toString d.secs ++ "s").toList = .ok d := by
  obtain ⟨secs, nanos⟩ := d
  obtain ⟨rfl, hsecs⟩ := h
  have htext : (toString secs ++ "s").toList = numeral secs ++ ['s'] := by
    simp [numeral]
  have hlast : (numeral secs ++ ['s']).getLast? = some 's' := by
    simp
  have hdigits : (numeral secs ++ ['s']).dropLast = numeral secs := by
    simp
  dsimp only at hsecs
  rw [Command.readSeconds, htext, hlast]
  -- the unit is the last character, and a second is a second
  simp only [hdigits, readWord?_numeral hsecs, Nat.mul_one, hsecs, if_true]
  rfl

/-! ## Each clause -/

theorem read_type (t : String) : KeyClauses.read k ("type" ++ " " ++ t).toList
    = .ok { k with spec := { k.spec with keyType := some t } } := by
  rw [KeyClauses.read, splitOnce_keyword (by decide)]
  dsimp only
  rw [String.ofList_toList, String.ofList_toList]
  rfl

theorem read_typeOf (t : String) : KeyClauses.read k ("typeof" ++ " " ++ t).toList
    = .ok { k with spec := { k.spec with typeOf := some t } } := by
  rw [KeyClauses.read, splitOnce_keyword (by decide)]
  dsimp only
  rw [String.ofList_toList, String.ofList_toList]
  rfl

theorem read_flags {flags : List String} (hne : flags ≠ [])
    (h : ∀ f ∈ flags, BareWord f.toList) :
    KeyClauses.read k ("flags" ++ " " ++ ",".intercalate flags).toList
      = .ok { k with spec := { k.spec with flags } } := by
  have hlist : commaList (",".intercalate flags).toList = flags := by
    rw [String.toList_intercalate]
    exact commaList_intercalate (show ∀ c ∈ [], c = ' ' by simp) hne h
  rw [KeyClauses.read, splitOnce_keyword (by decide)]
  dsimp only
  rw [String.ofList_toList, hlist]
  rfl

theorem read_timeout {d : Duration} (h : PlainDuration d) :
    KeyClauses.read k ("timeout" ++ " " ++ (toString d.secs ++ "s")).toList
      = .ok { k with spec := { k.spec with timeout := some d } } := by
  rw [KeyClauses.read, splitOnce_keyword (by decide)]
  dsimp only
  rw [String.ofList_toList, readSeconds_duration h]
  rfl

theorem read_interval {d : Duration} (h : PlainDuration d) :
    KeyClauses.read k ("gc-interval" ++ " " ++ (toString d.secs ++ "s")).toList
      = .ok { k with spec := { k.spec with gcInterval := some d } } := by
  rw [KeyClauses.read, splitOnce_keyword (by decide)]
  dsimp only
  rw [String.ofList_toList, readSeconds_duration h]
  rfl

theorem read_size {n : Nat} (h : n ≤ maxWord) :
    KeyClauses.read k ("size" ++ " " ++ toString n).toList
      = .ok { k with spec := { k.spec with size := some n } } := by
  rw [KeyClauses.read, splitOnce_keyword (by decide)]
  dsimp only
  rw [String.ofList_toList]
  exact bind_of_ok (number_numeral h)

theorem read_policy (p : Policy) : KeyClauses.read k ("policy" ++ " " ++ p.name).toList
    = .ok { k with spec := { k.spec with policy := some p } } := by
  have hword : Command.word Policy.read p.name.toList = .ok p :=
    Command.word_of_read (by rw [Policy.read, Policy.ofName?_name]; rfl)
  rw [KeyClauses.read, splitOnce_keyword (by decide)]
  dsimp only
  rw [String.ofList_toList]
  exact bind_of_ok hword

theorem read_autoMerge : KeyClauses.read k "auto-merge".toList
    = .ok { k with autoMerge := some true } := by
  rw [KeyClauses.read, splitOnce_of_not_mem (by decide)]
  dsimp only
  rw [String.ofList_toList]
  rfl

/-! ## All clauses -/

theorem clausesLead_keys {keyType typeOf comment : Option String} :
    (keyType.isSome ∧ typeOf = none) ∨ (keyType = none ∧ typeOf.isSome) →
    ClausesLead (match keyType with
      | some t => [s!"type {t}"]
      | none => clause? "typeof" typeOf) { spec := { comment } }
      { spec := { keyType, typeOf, comment } } := by
  intro h
  rcases h with ⟨hkey, rfl⟩ | ⟨rfl, htypeOf⟩
  · obtain ⟨t, rfl⟩ := Option.isSome_iff_exists.mp hkey
    exact clausesLead_single (read_type t)
  · obtain ⟨t, rfl⟩ := Option.isSome_iff_exists.mp htypeOf
    exact clausesLead_single (read_typeOf t)

/-- **The clauses of a set or map are read back**, in the order in which they are written. -/
theorem clausesLead_spec {spec : KeySpec} (htype : spec.OneType) (hp : spec.Plain) :
    ClausesLead spec.clauses { spec := { comment := spec.comment } } { spec } := by
  -- clause by clause: one that is not written stands for what is absent
  have hkeys := @clausesLead_keys _ _ spec.comment htype
  obtain ⟨keyType, typeOf, flags, timeout, gcInterval, size, policy, comment⟩ := spec
  have hflags : ClausesLead (if flags = [] then [] else ["flags " ++ ",".intercalate flags])
      { spec := { keyType, typeOf, comment } } { spec := { keyType, typeOf, flags, comment } } := by
    split
    · rename_i hnil
      cases hnil
      rfl
    · rename_i hne
      exact clausesLead_single (read_flags hne hp.flags)
  have htimeout : ClausesLead (clause? "timeout" (timeout.map fun d => s!"{d.secs}s"))
      { spec := { keyType, typeOf, flags, comment } }
      { spec := { keyType, typeOf, flags, timeout, comment } } := by
    cases timeout with
    | none => rfl
    | some d => exact clausesLead_single (read_timeout (hp.timeout d rfl))
  have hinterval : ClausesLead (clause? "gc-interval" (gcInterval.map fun d => s!"{d.secs}s"))
      { spec := { keyType, typeOf, flags, timeout, comment } }
      { spec := { keyType, typeOf, flags, timeout, gcInterval, comment } } := by
    cases gcInterval with
    | none => rfl
    | some d => exact clausesLead_single (read_interval (hp.gcInterval d rfl))
  have hsize : ClausesLead (clause? "size" (size.map toString))
      { spec := { keyType, typeOf, flags, timeout, gcInterval, comment } }
      { spec := { keyType, typeOf, flags, timeout, gcInterval, size, comment } } := by
    cases size with
    | none => rfl
    | some n => exact clausesLead_single (read_size (hp.size n rfl))
  have hpolicy : ClausesLead (clause? "policy" (policy.map Policy.name))
      { spec := { keyType, typeOf, flags, timeout, gcInterval, size, comment } }
      { spec := { keyType, typeOf, flags, timeout, gcInterval, size, policy, comment } } := by
    cases policy with
    | none => rfl
    | some p => exact clausesLead_single (read_policy p)
  exact ((((hkeys.append hflags).append htimeout).append hinterval).append hsize).append hpolicy

/-! ## In a body -/

theorem clean_clause? {keyword : String} {value : Option String} (hk : BareWord keyword.toList)
    (h : ∀ v ∈ value, Clean v) : ∀ c ∈ clause? keyword value, Clean c := by
  intro c hc
  cases value with
  | none => cases hc
  | some v =>
    cases List.mem_singleton.mp hc
    exact (h v rfl).keyword hk

theorem clean_option {α : Type} {keyword : String} {value : Option α} {text : α → String}
    (hk : BareWord keyword.toList) (h : ∀ a, Clean (text a)) :
    ∀ c ∈ clause? keyword (value.map text), Clean c := by
  refine clean_clause? hk fun v hv => ?_
  obtain ⟨a, -, rfl⟩ := Option.map_eq_some_iff.mp hv
  exact h a

theorem clean_seconds (n : Nat) : Clean s!"{n}s" := by
  refine clean_of_bareWord ⟨by simp [toString_string], fun c hc => ?_⟩
  rw [toString_string, String.toList_append, List.mem_append] at hc
  rcases hc with hc | hc
  · exact (bareWord_toString n).2 c hc
  · cases List.mem_singleton.mp hc
    decide

theorem KeySpec.Plain.clean {spec : KeySpec} (hp : spec.Plain) : ∀ c ∈ spec.clauses, Clean c := by
  have hkeys : ∀ c ∈ (match spec.keyType with
      | some t => [s!"type {t}"]
      | none => clause? "typeof" spec.typeOf), Clean c := by
    intro c hc
    split at hc
    · rename_i t ht
      cases List.mem_singleton.mp hc
      exact (hp.keyType t ht).keyword (k := "type") (by decide)
    · exact clean_clause? (by decide) hp.typeOf c hc
  have hflags : ∀ c ∈ (if spec.flags = [] then [] else ["flags " ++ ",".intercalate spec.flags]),
      Clean c := by
    intro c hc
    split at hc
    · cases hc
    · rename_i hne
      cases List.mem_singleton.mp hc
      exact (clean_intercalate hne hp.flags).keyword (k := "flags") (by decide)
  have htimeout : ∀ c ∈ clause? "timeout" (spec.timeout.map fun d => s!"{d.secs}s"), Clean c :=
    clean_option (by decide) fun d => clean_seconds d.secs
  have hinterval : ∀ c ∈ clause? "gc-interval" (spec.gcInterval.map fun d => s!"{d.secs}s"),
      Clean c :=
    clean_option (by decide) fun d => clean_seconds d.secs
  have hsize : ∀ c ∈ clause? "size" (spec.size.map toString), Clean c :=
    clean_option (by decide) fun n => clean_of_bareWord (bareWord_toString n)
  have hpolicy : ∀ c ∈ clause? "policy" (spec.policy.map Policy.name), Clean c :=
    clean_option (by decide) fun p => by cases p <;> decide +kernel
  intro c hc
  simp only [KeySpec.clauses, List.mem_append] at hc
  rcases hc with ((((hc | hc) | hc) | hc) | hc) | hc
  · exact hkeys c hc
  · exact hflags c hc
  · exact htimeout c hc
  · exact hinterval c hc
  · exact hsize c hc
  · exact hpolicy c hc

variable {clauses : List String} {comment : Option String}

/-- The clauses of a body are read back, and the comment among them. -/
theorem readKeyClauses_inside (hclean : ∀ c ∈ clauses, Clean c) (hcomment : PlainComment comment)
    (hlead : ClausesLead clauses { spec := { comment } } k) :
    Command.readKeyClauses (inside (clauses ++ commentClause comment)) = .ok k := by
  -- the comment is found first and taken out
  have hquote : '"' ∉ inside clauses :=
    not_mem_inside (by decide) fun c hc => (hclean c hc).not_mem (by decide)
  have htake := takeComment_inside (not_infix_of_quote hquote) (fun c hc => (hclean c hc).1)
    hcomment
  -- of what is left, no clause has a semicolon in it
  have hcut := bodyClauses_inside fun c hc =>
    ⟨(hclean c hc).1, (hclean c hc).not_mem (by decide)⟩
  rw [Command.readKeyClauses, htake]
  dsimp only
  rw [hcut, comment_toList]
  exact hlead

end Clauses

/-! ## Sets and maps -/

section Containers

variable {key : TableKey} {verb : Verb}

/-- The clauses of a set, without its comment. -/
def NamedSet.clauses (s : NamedSet) : List String :=
  s.spec.clauses ++ if s.autoMerge = some true then ["auto-merge"] else []

theorem NamedSet.Plain.clean {s : NamedSet} (hp : s.Plain) : ∀ c ∈ s.clauses, Clean c := by
  intro c hc
  rcases List.mem_append.mp hc with hc | hc
  · exact hp.spec.clean c hc
  · split at hc
    · cases List.mem_singleton.mp hc
      decide
    · cases hc

theorem readSet_text {s : NamedSet} (hscope : s.scope = key.scope) (hhandle : s.handle = none)
    (htype : s.spec.OneType) (hp : s.Plain) :
    Command.readSet key.scope (s.name.toList ++ s.body.toList) = .ok s := by
  have hbody : BodyOf s.body (s.clauses ++ commentClause s.spec.comment) :=
    bodyOf_clauses hp.clean s.spec.comment
  -- `auto-merge` is the clause that maps do not have
  have hmerge : ClausesLead (if s.autoMerge = some true then ["auto-merge"] else [])
      { spec := s.spec } { spec := s.spec, autoMerge := s.autoMerge } := by
    cases hmerge : s.autoMerge with
    | none => rfl
    | some b =>
      cases b with
      | false => exact absurd hmerge hp.autoMerge
      | true => exact clausesLead_single read_autoMerge
  have hclauses := readKeyClauses_inside hp.clean hp.spec.comment
    ((clausesLead_spec htype hp.spec).append hmerge)
  refine (bind_of_ok (readTarget_append hp.name hbody)).trans ((bind_of_ok hclauses).trans ?_)
  obtain ⟨scope, sname, spec, autoMerge, handle⟩ := s
  obtain rfl : scope = key.scope := hscope
  obtain rfl : handle = none := hhandle
  rfl

theorem readsBack_set (known : List Command.MapName) {s : NamedSet} (hscope : s.scope = key.scope)
    (hhandle : s.handle = none) (hverb : verb.Puts) (hv : s.validate verb = .ok ())
    (hp : s.Plain) : ∃ tail rest, ReadsBack known key verb (.set s) (.set s) tail rest := by
  have hbody := bodyOf_clauses hp.clean s.spec.comment
  refine readsBack_whole hverb hp.name hbody ?_ ?_
  · show NamedSet.command verb s = _
    rw [NamedSet.command, hscope, hhandle]
    rfl
  · show Command.readObject _ _ .set _ _ _ = _
    unfold Command.readObject
    dsimp only
    rw [String.ofList_toList]
    exact bind_of_ok (readSet_text hscope hhandle (KeySpec.facts_of_validate hverb hv).2 hp)

theorem readMap_text {m : NamedMap} (hscope : m.scope = key.scope) (hhandle : m.handle = none)
    (htype : m.spec.OneType) (hp : m.Plain) :
    Command.readMap key.scope (m.name.toList ++ m.body.toList) = .ok m := by
  have hbody : BodyOf m.body (m.spec.clauses ++ commentClause m.spec.comment) :=
    bodyOf_clauses hp.spec.clean m.spec.comment
  have hclauses := readKeyClauses_inside hp.spec.clean hp.spec.comment
    (clausesLead_spec htype hp.spec)
  refine (bind_of_ok (readTarget_append hp.name hbody)).trans ((bind_of_ok hclauses).trans ?_)
  obtain ⟨scope, mname, spec, handle⟩ := m
  obtain rfl : scope = key.scope := hscope
  obtain rfl : handle = none := hhandle
  rfl

theorem readsBack_map (known : List Command.MapName) {m : NamedMap} (hscope : m.scope = key.scope)
    (hhandle : m.handle = none) (hverb : verb.Puts) (hv : m.validate verb = .ok ())
    (hp : m.Plain) : ∃ tail rest, ReadsBack known key verb (.map m) (.map m) tail rest := by
  have hbody := bodyOf_clauses hp.spec.clean m.spec.comment
  refine readsBack_whole hverb hp.name hbody ?_ ?_
  · show NamedMap.command verb m = _
    rw [NamedMap.command, hscope, hhandle]
    rfl
  · show Command.readObject _ _ .map _ _ _ = _
    unfold Command.readObject
    dsimp only
    rw [String.ofList_toList]
    exact bind_of_ok (readMap_text hscope hhandle (KeySpec.facts_of_validate hverb hv).2 hp)

end Containers

end Nftables
