import Nftables.Transaction

/-!
# What an accepted object promises

A check that accepts an object is a list of conditions. They are read off here once for each kind,
in the form in which the objects that a ruleset holds keep them.

The checks are written in the order in which they report: each `refuseIf` stops at the first
violation. Whether an object is accepted does not depend on that order, so `andThen_eq_ok` makes a
check a conjunction, and a lemma about a kind takes the parts that it needs. What `add` and `create`
ask (`Verb.Puts`) is what the ruleset will hold of a new object; the invariants use the lemmas for
these two verbs most.

`destroy` has a lemma of its own. Where the engine is told to emulate it, an `add` and a `delete`
are queued in its place, and the object has only been checked as one that is destroyed. That is
enough for both (`validate_of_destroy`), so what is queued has always passed the check of its verb.
-/

namespace Nftables

variable {verb : Verb}

/-! ## Checks as conditions -/

theorem refuseIf_eq_ok {p : Prop} [Decidable p] {v : Violation} : refuseIf p v = .ok () ↔ ¬ p := by
  unfold refuseIf
  by_cases hp : p
  · rw [if_pos hp]
    simp [hp]
  · rw [if_neg hp]
    simp [hp]

theorem andThen_eq_ok {x y : Except Violation Unit} :
    (x >>= fun _ => y) = .ok () ↔ x = .ok () ∧ y = .ok () := by
  cases x with
  | error v =>
    constructor
    · intro h
      cases h
    · rintro ⟨h, -⟩
      cases h
  | ok u => exact ⟨fun h => ⟨rfl, h⟩, fun h => h.2⟩

theorem requireScope_eq_ok {kind : Kind} {s : Scope} :
    requireScope kind s = .ok () ↔
      ∃ family name, s = ⟨some family, some name⟩ ∧ name ≠ "" := by
  rw [requireScope, andThen_eq_ok, refuseIf_eq_ok, refuseIf_eq_ok]
  constructor
  · rintro ⟨hf, hn⟩
    obtain ⟨family, name⟩ := s
    cases family with
    | none => exact absurd rfl hf
    | some family =>
      cases name with
      | none => exact absurd rfl hn
      | some name => exact ⟨family, name, rfl, hn⟩
  · rintro ⟨family, name, rfl, hn⟩
    exact ⟨by simp, hn⟩

theorem requireOnlyName_eq_ok {kind : Kind} {name : String} {handle : Option Nat} :
    requireOnlyName verb kind name handle = .ok () ↔ name ≠ "" ∧ handle = none := by
  rw [requireOnlyName, requireName, forbidHandle, andThen_eq_ok, refuseIf_eq_ok, refuseIf_eq_ok,
    Decidable.not_not]

theorem requirePriority_eq_ok {fault : PriorityFault → Violation} {family : Family}
    {priority : Option String} :
    requirePriority fault (some family) priority = .ok () ↔
      ∀ p, priority = some p → ∃ v, Priority.read family p.toList = .ok v := by
  cases priority with
  | none => simp [requirePriority]
  | some p =>
    -- the number that is read is thrown away, but not whether there is one
    have hmap : ∀ x : Except PriorityFault Int,
        ((x.mapError fault).map fun _ => ()) = .ok () ↔ ∃ v, x = .ok v := by
      intro x
      cases x with
      | error e =>
        constructor
        · intro h
          cases h
        · rintro ⟨v, h⟩
          cases h
      | ok v => exact ⟨fun _ => ⟨v, rfl⟩, fun _ => rfl⟩
    rw [requirePriority, hmap]
    simp

/-! ## The verbs that put an object into the ruleset -/

/-- The verbs that put a named object or an element where there was none. -/
def Verb.Puts (verb : Verb) : Prop := verb = .add ∨ verb = .create

/-- A base chain has a type, a hook and a priority, and a regular chain has none of them. -/
def Chain.AllOrNone (c : Chain) : Prop :=
  (c.hook.isSome ∧ c.chainType.isSome ∧ c.priority.isSome) ∨
    (c.hook = none ∧ c.chainType = none ∧ c.priority = none)

/-- A device belongs to the ingress or the egress hook. -/
def Chain.DeviceFits (c : Chain) : Prop :=
  c.device ≠ none → c.hook = some .ingress ∨ c.hook = some .egress

/-- A priority is one of the family's. -/
def PriorityFits (family : Family) (priority : Option String) : Prop :=
  ∀ p, priority = some p → ∃ v, Priority.read family p.toList = .ok v

/-- Exactly one of the two key types is given. -/
def KeySpec.OneType (spec : KeySpec) : Prop :=
  (spec.keyType.isSome ∧ spec.typeOf = none) ∨ (spec.keyType = none ∧ spec.typeOf.isSome)

theorem Chain.shape_of_validate {c : Chain} (h : c.validate verb = .ok ()) :
    c.AllOrNone ∧ c.DeviceFits := by
  unfold validate at h
  rw [andThen_eq_ok, andThen_eq_ok, andThen_eq_ok, refuseIf_eq_ok, refuseIf_eq_ok,
    refuseIf_eq_ok] at h
  -- without a hook there is neither type nor priority, and with one there are both
  obtain ⟨hregular, hbase, hdevice, -⟩ := h
  obtain ⟨scope, name, chainType, hook, priority, device, comment, handle⟩ := c
  constructor
  · cases hook with
    | none =>
      right
      cases chainType <;> cases priority <;> simp_all
    | some hook =>
      left
      cases chainType <;> cases priority <;> simp_all
  · intro hd
    cases hook with
    | none => simp_all
    | some hook => cases hook <;> simp_all [Hook.takesDevice]

theorem Chain.priority_of_validate {c : Chain} {family : Family} (hf : c.scope.family = some family)
    (h : c.validate verb = .ok ()) : PriorityFits family c.priority := by
  unfold validate at h
  rw [andThen_eq_ok, andThen_eq_ok, andThen_eq_ok, andThen_eq_ok, hf,
    requirePriority_eq_ok] at h
  exact h.2.2.2.1

theorem Chain.name_of_validate {c : Chain} (hv : verb.Puts) (h : c.validate verb = .ok ()) :
    c.name ≠ "" := by
  unfold validate at h
  rw [andThen_eq_ok, andThen_eq_ok, andThen_eq_ok, andThen_eq_ok] at h
  have h := h.2.2.2.2
  rcases hv with rfl | rfl <;> exact (requireOnlyName_eq_ok.mp h).1

theorem KeySpec.facts_of_validate {spec : KeySpec} {kind : Kind} {name : String}
    {handle : Option Nat} (hv : verb.Puts) (h : spec.validate verb kind name handle = .ok ()) :
    name ≠ "" ∧ spec.OneType := by
  -- not both given and not both missing, which the check says as one inequality
  have key : name ≠ "" ∧ ¬ spec.keyType.isSome = spec.typeOf.isSome := by
    rcases hv with rfl | rfl <;>
      · unfold validate at h
        rw [andThen_eq_ok, andThen_eq_ok, requireName, refuseIf_eq_ok, refuseIf_eq_ok] at h
        exact ⟨h.1, h.2.1⟩
  obtain ⟨hname, hne⟩ := key
  refine ⟨hname, ?_⟩
  unfold OneType
  cases hk : spec.keyType <;> cases ht : spec.typeOf <;> simp_all

theorem Element.shape_of_validate {e : Element} (h : e.validate verb = .ok ()) :
    ¬ (e.set ≠ none ∧ e.map ≠ none) ∧ e.key ≠ [] := by
  unfold validate at h
  rw [andThen_eq_ok, andThen_eq_ok, andThen_eq_ok, refuseIf_eq_ok, refuseIf_eq_ok,
    refuseIf_eq_ok] at h
  exact ⟨h.1, h.2.2.1⟩

theorem Element.container_of_validate {e : Element} (h : e.validate verb = .ok ()) :
    e.container ≠ "" := by
  unfold validate at h
  rw [andThen_eq_ok, andThen_eq_ok, refuseIf_eq_ok, refuseIf_eq_ok] at h
  exact h.2.1

theorem Element.validate_delete {e : Element} : e.validate .delete = .ok () ↔
    ¬ (e.set ≠ none ∧ e.map ≠ none) ∧ e.container ≠ "" ∧ e.key ≠ [] := by
  unfold validate
  rw [andThen_eq_ok, andThen_eq_ok, andThen_eq_ok, refuseIf_eq_ok, refuseIf_eq_ok, refuseIf_eq_ok]
  simp

theorem Element.value_of_validate {e : Element} (hv : verb.Puts) (h : e.validate verb = .ok ()) :
    (e.map ≠ none → e.value ≠ []) ∧ (e.set ≠ none → e.value = []) := by
  unfold validate at h
  rw [andThen_eq_ok, andThen_eq_ok, andThen_eq_ok] at h
  have h := h.2.2.2
  rcases hv with rfl | rfl <;>
    · rw [andThen_eq_ok, refuseIf_eq_ok, refuseIf_eq_ok] at h
      exact ⟨fun hm hn => h.1 ⟨hm, hn⟩, fun hs => Decidable.not_not.mp fun hn => h.2 ⟨hs, hn⟩⟩

theorem Flowtable.priority_of_validate {f : Flowtable} {family : Family}
    (hf : f.scope.family = some family) (h : f.validate verb = .ok ()) :
    PriorityFits family f.priority := by
  unfold validate at h
  rw [andThen_eq_ok, hf, requirePriority_eq_ok] at h
  exact h.1

theorem Flowtable.name_of_validate {f : Flowtable} (hv : verb.Puts)
    (h : f.validate verb = .ok ()) : f.name ≠ "" := by
  unfold validate at h
  rw [andThen_eq_ok] at h
  have h := h.2
  rcases hv with rfl | rfl <;> exact (requireOnlyName_eq_ok.mp h).1

theorem Counter.name_of_validate {c : Counter} (hv : verb.Puts) (h : c.validate verb = .ok ()) :
    c.name ≠ "" := by
  rcases hv with rfl | rfl <;> exact (requireOnlyName_eq_ok.mp h).1

/-! ## Objects -/

namespace Object

theorem validateKind_of_validate {o : Object} (h : o.validate verb = .ok ()) :
    o.validateKind verb = .ok () := by
  unfold validate at h
  rw [andThen_eq_ok] at h
  exact h.2

/-- Only a table that is deleted can leave its scope open. -/
theorem scope_of_validate {o : Object} (hv : verb ≠ .delete) (h : o.validate verb = .ok ()) :
    ∃ family name, o.scope = ⟨some family, some name⟩ ∧ name ≠ "" := by
  unfold validate at h
  rw [andThen_eq_ok] at h
  have hs : Nftables.requireScope o.kind o.scope = .ok () := by
    have hs := h.1
    unfold requireScope at hs
    split at hs
    · exact absurd rfl hv
    · exact hs
  exact requireScope_eq_ok.mp hs

/-- For an object with a complete scope, the rules of its kind are what is left to check. -/
theorem validate_of_scope {o : Object} {family : Family} {name : String}
    (hscope : o.scope = ⟨some family, some name⟩) (hname : name ≠ "")
    (hkind : o.validateKind verb = .ok ()) : o.validate verb = .ok () := by
  rw [validate, andThen_eq_ok]
  refine ⟨?_, hkind⟩
  unfold requireScope
  split
  · rename_i s _ _
    rw [refuseIf_eq_ok, show s = ⟨some family, some name⟩ from hscope]
    exact Option.some_ne_none family
  · exact requireScope_eq_ok.mpr ⟨family, name, hscope, hname⟩

theorem validateKind_of_destroy {o : Object} (h : o.validateKind .destroy = .ok ()) :
    o.handle = none ∧ o.validateKind .add = .ok () ∧ o.validateKind .delete = .ok () := by
  cases o with
  | table t =>
    simp only [validateKind, Table.validate, forbidHandle, refuseIf_eq_ok] at h ⊢
    exact ⟨Decidable.not_not.mp h, h, trivial⟩
  | chain c =>
    simp only [validateKind, Chain.validate, andThen_eq_ok, requireOnlyName_eq_ok] at h ⊢
    obtain ⟨hregular, hbase, hdevice, hpriority, hname, hhandle⟩ := h
    refine ⟨hhandle, ⟨hregular, hbase, hdevice, hpriority, hname, hhandle⟩,
      hregular, hbase, hdevice, hpriority, ?_⟩
    rw [requireNameOrHandle, if_pos hhandle, requireName, refuseIf_eq_ok]
    exact hname
  | rule r =>
    simp only [validateKind, Rule.validate, andThen_eq_ok] at h
    -- a rule cannot be destroyed
    exact absurd h.2.2 (by simp)
  | set s =>
    simp only [validateKind, NamedSet.validate, KeySpec.validate, andThen_eq_ok, forbidHandle,
      refuseIf_eq_ok] at h ⊢
    have hnone : s.handle = none := Decidable.not_not.mp h.2.2
    refine ⟨hnone, h, ?_⟩
    rw [requireNameOrHandle, if_pos hnone]
    exact h.1
  | map m =>
    simp only [validateKind, NamedMap.validate, KeySpec.validate, andThen_eq_ok, forbidHandle,
      refuseIf_eq_ok] at h ⊢
    have hnone : m.handle = none := Decidable.not_not.mp h.2.2
    refine ⟨hnone, h, ?_⟩
    rw [requireNameOrHandle, if_pos hnone]
    exact h.1
  | element e =>
    simp only [validateKind, Element.validate, andThen_eq_ok] at h ⊢
    -- a `delete` asks nothing about the value
    exact ⟨rfl, h, h.1, h.2.1, h.2.2.1, trivial⟩
  | flowtable f =>
    simp only [validateKind, Flowtable.validate, andThen_eq_ok, requireOnlyName_eq_ok] at h ⊢
    obtain ⟨hpriority, hname, hhandle⟩ := h
    refine ⟨hhandle, ⟨hpriority, hname, hhandle⟩, hpriority, ?_⟩
    rw [requireNameOrHandle, if_pos hhandle, requireName, refuseIf_eq_ok]
    exact hname
  | counter c =>
    simp only [validateKind, Counter.validate, requireOnlyName_eq_ok] at h ⊢
    obtain ⟨hname, hhandle⟩ := h
    refine ⟨hhandle, ⟨hname, hhandle⟩, ?_⟩
    rw [requireNameOrHandle, if_pos hhandle, requireName, refuseIf_eq_ok]
    exact hname

/-- **What is fit to be destroyed is fit to be added and to be deleted.** -/
theorem validate_of_destroy {o : Object} (h : o.validate .destroy = .ok ()) :
    o.validate .add = .ok () ∧ o.validate .delete = .ok () := by
  have hscope := scope_of_validate (by decide) h
  obtain ⟨hnone, hadd, hdelete⟩ := validateKind_of_destroy (validateKind_of_validate h)
  have hs : Nftables.requireScope o.kind o.scope = .ok () := requireScope_eq_ok.mpr hscope
  constructor
  · unfold validate
    rw [andThen_eq_ok]
    refine ⟨?_, hadd⟩
    cases o <;> exact hs
  · unfold validate
    rw [andThen_eq_ok]
    refine ⟨?_, hdelete⟩
    cases o with
    | table t =>
      -- a deletion asks for a name where there is no handle, and there is none
      obtain ⟨scope, comment, handle⟩ := t
      cases hnone
      exact hs
    | _ => exact hs

end Object

end Nftables
