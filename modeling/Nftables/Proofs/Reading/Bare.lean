import Nftables.Proofs.Reading

/-!
# Commands that only name their object

Verbs other than `add` and `create` write of a named object no more than its name, and a `delete` of
one with a handle writes the handle in its place. What is read from such a line has a name or a
handle, and nothing else of its own.

`Object.bare` is that object: `o.bare` has the scope, the kind and the handle of `o`, and its name
unless the handle was written. The two have the same line (`Object.command_bare`), so it is enough
that the line is read as `o.bare`, and that `o.bare` is fit for the verb if `o` is. The one
exception is a `destroy` of a set or a map. It asks for the type of the keys, which stands in the
body, and the body is not written; `validateKind_bare` leaves it out, and what becomes of it is told
where destroys are read back.
-/

namespace Nftables

open Text Clause

/-! ## How a command names its object -/

/-- A command names its object; a `delete` may give its handle in place of the name. -/
inductive Addressed (verb : Verb) (name : String) : Option Nat → Prop
  | byName (h : name ≠ "") : Addressed verb name none
  | byHandle (n : Nat) (h : verb = .delete) : Addressed verb name (some n)

section Checks

variable {verb : Verb} {kind : Kind} {name : String} {handle : Option Nat}

theorem addressed_of_onlyName {verb' : Verb} (h : requireOnlyName verb kind name handle = .ok ()) :
    Addressed verb' name handle := by
  obtain ⟨hname, rfl⟩ := requireOnlyName_eq_ok.mp h
  exact .byName hname

theorem addressed_of_nameOrHandle (h : requireNameOrHandle kind name handle = .ok ()) :
    Addressed .delete name handle := by
  cases handle with
  | none => exact .byName (refuseIf_eq_ok.mp h)
  | some n => exact .byHandle n rfl

theorem KeySpec.addressed_of_validate {spec : KeySpec}
    (h : spec.validate verb kind name handle = .ok ()) : Addressed verb name handle := by
  -- the three verbs that ask for the type of the keys
  have hwhole : ∀ verb', (do
      requireName kind name
      refuseIf (spec.keyType.isSome = spec.typeOf.isSome) (.keyType kind)
      forbidHandle verb' kind handle) = .ok () → Addressed verb' name handle := by
    intro verb' h
    rw [andThen_eq_ok, andThen_eq_ok, requireName, forbidHandle, refuseIf_eq_ok, refuseIf_eq_ok,
      refuseIf_eq_ok, Decidable.not_not] at h
    obtain ⟨hname, -, rfl⟩ := h
    exact .byName hname
  cases verb with
  | add => exact hwhole _ h
  | create => exact hwhole _ h
  | destroy => exact hwhole _ h
  | flush => exact addressed_of_onlyName h
  | delete => exact addressed_of_nameOrHandle h
  | insert => cases h
  | replace => cases h
  | reset => cases h

/-- The checks of a verb that writes no body do not look at what would be in it. -/
theorem KeySpec.validate_bodiless (hb : verb.writesBody = false) (hd : verb ≠ .destroy)
    (spec spec' : KeySpec) :
    spec.validate verb kind name handle = spec'.validate verb kind name handle := by
  cases verb with
  | add => cases hb
  | create => cases hb
  | destroy => exact absurd rfl hd
  | _ => rfl

theorem requirePriority_none {fault : PriorityFault → Violation} (family : Option Family) :
    requirePriority fault family none = .ok () := by
  cases family <;> rfl

end Checks

namespace Object

/-- The name of an object that has one beside its scope. -/
def name? : Object → Option String
  | .chain c => some c.name
  | .set s => some s.name
  | .map m => some m.name
  | .flowtable f => some f.name
  | .counter c => some c.name
  | _ => none

variable {verb : Verb} {o : Object} {name : String}

theorem addressed_of_validate (hname : o.name? = some name) (h : o.validateKind verb = .ok ()) :
    Addressed verb name o.handle := by
  cases o with
  | chain c =>
    cases hname
    simp only [validateKind, Chain.validate, andThen_eq_ok] at h
    have h := h.2.2.2.2
    cases verb with
    | delete => exact addressed_of_nameOrHandle h
    | add | create | flush | destroy => exact addressed_of_onlyName h
    | insert | replace | reset => cases h
  | set s =>
    cases hname
    exact KeySpec.addressed_of_validate h
  | map m =>
    cases hname
    exact KeySpec.addressed_of_validate h
  | flowtable f =>
    cases hname
    simp only [validateKind, Flowtable.validate, andThen_eq_ok] at h
    have h := h.2
    cases verb with
    | delete => exact addressed_of_nameOrHandle h
    | add | create | destroy => exact addressed_of_onlyName h
    | insert | replace | reset | flush => cases h
  | counter c =>
    cases hname
    simp only [validateKind, Counter.validate] at h
    cases verb with
    | delete => exact addressed_of_nameOrHandle h
    | add | create | destroy | reset => exact addressed_of_onlyName h
    | insert | replace | flush => cases h
  | _ => cases hname

theorem command_named (hname : o.name? = some name) :
    ∃ body, ∀ verb, o.command verb = namedLine verb o.kind o.scope.text name o.handle body := by
  cases o <;> cases hname <;> exact ⟨_, fun _ => rfl⟩

/-! ## The object that is read -/

/-- The name that is written, if none is beside a handle. -/
def nameBeside (name : String) (handle : Option Nat) : String :=
  if handle.isSome then "" else name

/-- The named object with what its line says without a body. -/
def bare : Object → Object
  | .chain c =>
    .chain { scope := c.scope, name := nameBeside c.name c.handle, handle := c.handle }
  | .set s => .set { scope := s.scope, name := nameBeside s.name s.handle, handle := s.handle }
  | .map m => .map { scope := m.scope, name := nameBeside m.name m.handle, handle := m.handle }
  | .flowtable f =>
    .flowtable { scope := f.scope, name := nameBeside f.name f.handle, handle := f.handle }
  | .counter c =>
    .counter { scope := c.scope, name := nameBeside c.name c.handle, handle := c.handle }
  | o => o

@[simp] theorem kind_bare (o : Object) : o.bare.kind = o.kind := by
  cases o <;> rfl

@[simp] theorem scope_bare (o : Object) : o.bare.scope = o.scope := by
  cases o <;> rfl

@[simp] theorem handle_bare (o : Object) : o.bare.handle = o.handle := by
  cases o <;> rfl

theorem name?_bare (o : Object) : o.bare.name? = o.name?.map (nameBeside · o.handle) := by
  cases o <;> rfl

/-- The name that is written is none, or the object's. -/
theorem name?_bare_cases (o : Object) : o.bare.name? = some "" ∨ o.bare.name? = o.name? := by
  rw [name?_bare]
  cases hname : o.name? with
  | none => exact .inr rfl
  | some name =>
    cases o.handle with
    | none => exact .inr rfl
    | some n => exact .inl rfl

/-- Without its body an object is as fit, but for a set or map that is destroyed. -/
theorem validateKind_bare (hname : o.name? = some name) (hb : verb.writesBody = false)
    (hd : verb = .destroy → o.kind ≠ .set ∧ o.kind ≠ .map) (h : o.validateKind verb = .ok ()) :
    o.bare.validateKind verb = .ok () := by
  have haddressed := addressed_of_validate hname h
  cases o with
  | chain c =>
    cases hname
    obtain ⟨scope, _, _, _, _, _, _, handle⟩ := c
    simp only [validateKind, bare, Chain.validate, andThen_eq_ok, refuseIf_eq_ok] at h ⊢
    refine ⟨by simp, by simp, by simp, requirePriority_none _, ?_⟩
    cases haddressed with
    | byName => exact h.2.2.2.2
    | byHandle n hv => subst hv; rfl
  | set s =>
    cases hname
    obtain ⟨scope, _, spec, _, handle⟩ := s
    have hverb : verb ≠ .destroy := fun hdestroy => (hd hdestroy).1 rfl
    cases haddressed with
    | byName => exact (KeySpec.validate_bodiless hb hverb {} spec).trans h
    | byHandle n hv => subst hv; rfl
  | map m =>
    cases hname
    obtain ⟨scope, _, spec, handle⟩ := m
    have hverb : verb ≠ .destroy := fun hdestroy => (hd hdestroy).2 rfl
    cases haddressed with
    | byName => exact (KeySpec.validate_bodiless hb hverb {} spec).trans h
    | byHandle n hv => subst hv; rfl
  | flowtable f =>
    cases hname
    obtain ⟨scope, _, _, _, handle⟩ := f
    simp only [validateKind, bare, Flowtable.validate, andThen_eq_ok] at h ⊢
    refine ⟨requirePriority_none _, ?_⟩
    cases haddressed with
    | byName => exact h.2
    | byHandle n hv => subst hv; rfl
  | counter c =>
    cases hname
    obtain ⟨scope, _, _, _, _, handle⟩ := c
    cases haddressed with
    | byName => exact h
    | byHandle n hv => subst hv; rfl
  | _ => cases hname

end Object

/-! ## Its line -/

theorem namedLine_bodiless {verb : Verb} (hb : verb.writesBody = false) (kind : Kind)
    (scope name : String) (handle : Option Nat) (body body' : String) :
    namedLine verb kind scope name handle body = namedLine verb kind scope name handle body' := by
  unfold namedLine
  split
  · rfl
  · rw [hb]
    rfl

theorem readTarget_handle {n : Nat} (h : n ≤ maxWord) :
    Command.readTarget ("handle ".toList ++ numeral n) = .ok ⟨"", some n, []⟩ := by
  rw [Command.readTarget, expect_append]
  dsimp only
  rw [trim_eq_self (bareWord_numeral n).word.trimmed]
  exact bind_of_ok (number_numeral h)

section Lines

variable {known : List Command.MapName} {key : TableKey} {verb : Verb} {o : Object} {name : String}

theorem Object.command_bare (hname : o.name? = some name) (hb : verb.writesBody = false)
    (h : Addressed verb name o.handle) : o.bare.command verb = o.command verb := by
  obtain ⟨body, hbody⟩ := command_named hname
  have hname' : o.bare.name? = some (nameBeside name o.handle) := by
    rw [name?_bare, hname]
    rfl
  -- two lines that differ at most in a body that is not written
  obtain ⟨body', hbody'⟩ := command_named hname'
  rw [hbody, hbody', kind_bare, scope_bare, handle_bare, namedLine_bodiless hb _ _ _ _ body body']
  generalize o.handle = handle at h ⊢
  cases h with
  | byName => rfl
  | byHandle n hv => subst hv; rfl

theorem readObject_bare {rest : List Char} (hname : o.name? = some name)
    (hscope : o.scope = key.scope)
    (h : Command.readTarget rest = .ok ⟨Object.nameBeside name o.handle, o.handle, []⟩) :
    Command.readObject known verb o.kind key.family key.name.toList rest
      = .ok ⟨⟨verb, o.bare⟩, key.declares o.bare⟩ := by
  unfold Command.readObject
  rw [String.ofList_toList]
  cases o with
  | chain c =>
    cases hname
    obtain ⟨scope, _, _, _, _, _, _, _⟩ := c
    obtain rfl : scope = key.scope := hscope
    exact bind_of_ok ((bind_of_ok h).trans rfl)
  | set s =>
    cases hname
    obtain ⟨scope, _, _, _, _⟩ := s
    obtain rfl : scope = key.scope := hscope
    exact bind_of_ok ((bind_of_ok h).trans rfl)
  | map m =>
    cases hname
    obtain ⟨scope, _, _, _⟩ := m
    obtain rfl : scope = key.scope := hscope
    exact bind_of_ok ((bind_of_ok h).trans rfl)
  | flowtable f =>
    cases hname
    obtain ⟨scope, _, _, _, _⟩ := f
    obtain rfl : scope = key.scope := hscope
    exact bind_of_ok ((bind_of_ok h).trans rfl)
  | counter c =>
    cases hname
    obtain ⟨scope, _, _, _, _, _⟩ := c
    obtain rfl : scope = key.scope := hscope
    exact bind_of_ok ((bind_of_ok h).trans rfl)
  | _ => cases hname

/-- **A named object is read back without its body** where none is written. -/
theorem readsBack_bare (known : List Command.MapName) (hname : o.name? = some name)
    (hscope : o.scope = key.scope) (hb : verb.writesBody = false)
    (haddressed : Addressed verb name o.handle) (hplain : o.handle = none → PlainName name)
    (hhandle : ∀ n ∈ o.handle, n ≤ maxWord) :
    ∃ tail rest, ReadsBack known key verb o o.bare tail rest := by
  obtain ⟨body, hbody⟩ := Object.command_named hname
  have htext : o.command verb = namedLine verb o.kind key.scope.text name o.handle body :=
    hscope ▸ hbody verb
  -- the line ends with the name, or with the handle
  cases hcase : o.handle with
  | none =>
    have hempty : verb.bodyOf body = "" := by
      rw [Verb.bodyOf, hb]
      rfl
    have hbody : BodyOf (verb.bodyOf body) [] := hempty ▸ bodyOf_empty
    rw [hcase] at htext
    refine readsBack_named (hplain hcase) hbody htext (readObject_bare hname hscope ?_)
    rw [hcase]
    exact readTarget_append (hplain hcase) hbody
  | some n =>
    have hn := hhandle n hcase
    rw [hcase] at htext haddressed
    cases haddressed with
    | byHandle _ hv =>
      subst hv
      -- the keyword cannot be taken for a name, as the target is looked for by it first
      refine ⟨' ' :: ("handle ".toList ++ numeral n), "handle ".toList ++ numeral n,
        ⟨?_, blank_head " " (by decide) _, ?_⟩, expect_append " " _, ?_,
        readObject_bare hname hscope ?_⟩
      · have hline : '\n' ∉ numeral n := (bareWord_numeral n).not_mem (by decide)
        simp [hline]
      · rw [← List.cons_append, List.getLast?_append_of_ne_nil _ (numeral_ne_nil n)]
        exact (bareWord_numeral n).word.trimmed.2
      · rw [htext]
        simp [namedLine, commandLine, Scope.text, TableKey.scope, familyText, toString_string,
          numeral, Verb.name]
      · rw [hcase]
        exact readTarget_handle hn

end Lines

end Nftables
