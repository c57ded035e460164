import Nftables.Proofs.Container
import Nftables.Proofs.Reload

/-!
# How the verbs agree about one object

`create` is `add` of an object that is absent, `delete` takes back what `create` has done, and
`destroy` is `delete` of an object that is present. The law is stated once for any state, proved of
one shelf and of the elements of one container, and carried from a part of a state to the whole.

`VerbsAgree` is about any state and any way that verbs act on it, so it can be stated of a shelf, of
a list of elements, of a table and of a ruleset in the same words. `of_store` proves it from what a
store does: putting and taking out. `lift` carries it from a part to the whole, as long as the whole
is the part put into its place, and `guarded` says that a check that is made in front does no harm.

The check is why the laws are stated as they are. A map element whose value jumps to a chain that is
missing is refused by `add`, `create` and `destroy` alike, but not by `delete`, which looks at no
value. So `create_iff` compares with `add` and does not say that `create` succeeds where the object
is absent; and `destroy_present` is about a `destroy` that succeeds.
-/

namespace Nftables

/-! ## What is there -/

namespace TableState

/-- The table has what the object names; for an element, its key in its container. -/
def Present (t : TableState) (defines : List Define) : Object → Prop
  | .table _ => True
  | .element e => ∃ c l, e.container? = some c ∧ t.elements? c = some l ∧
      (e.substitute defines).key ∈ l.map Element.key
  | o => t.Has o

end TableState

/-- The ruleset has what the object names, in the table of its scope. -/
def Ruleset.Present (r : Ruleset) (defines : List Define) (o : Object) : Prop :=
  ∃ key t, o.scope = TableKey.scope key ∧ r.tables.get? key = some t ∧ t.Present defines o

/-! ## The law -/

/--
How the verbs on one object agree on a state. `op` is what a verb does to a state when `n` is the
handle that is drawn for it, and `present` says whether the object is there.
-/
structure VerbsAgree {σ : Type} (op : Verb → Nat → σ → Except Error σ) (present : Prop) (s : σ) :
    Prop where
  /-- `create` succeeds exactly where `add` does and the object is absent, with the same state. -/
  create_iff : ∀ n s', op .create n s = .ok s' ↔ op .add n s = .ok s' ∧ ¬ present
  clash : present → ∀ n s', op .add n s = .ok s' → ∃ c, op .create n s = .error (.alreadyExists c)
  undo : ∀ n n' s', op .create n s = .ok s' → op .delete n' s' = .ok s
  destroy_present : present → ∀ n n' s', op .destroy n s = .ok s' → op .delete n' s = .ok s'
  destroy_absent : ¬ present → ∀ n s', op .destroy n s = .ok s' → s' = s

namespace VerbsAgree

variable {σ τ : Type} {op : Verb → Nat → σ → Except Error σ} {present : Prop} {s : σ}

/-- Verbs that all fail agree. -/
theorem of_error {e : Error} (h : ∀ verb n, verb.checksValue = true → op verb n s = .error e) :
    VerbsAgree op present s := by
  have hnot : ∀ {verb n s'}, verb.checksValue = true → op verb n s ≠ .ok s' := by
    intro verb n s' hv hs
    cases (h verb n hv).symm.trans hs
  exact
    { create_iff := fun n s' =>
        iff_of_false (hnot rfl) fun hadd => hnot rfl hadd.1
      clash := fun _ n s' hs => absurd hs (hnot rfl)
      undo := fun n n' s' hs => absurd hs (hnot rfl)
      destroy_present := fun _ n n' s' hs => absurd hs (hnot rfl)
      destroy_absent := fun _ n s' hs => absurd hs (hnot rfl) }

/-- Verbs that work on a part of the state agree on the whole as they do on the part. -/
theorem lift {op' : Verb → Nat → τ → Except Error τ} (h : VerbsAgree op present s) (put : σ → τ)
    (hop : ∀ verb n a, op' verb n (put a) = op verb n a >>= fun a' => pure (put a')) :
    VerbsAgree op' present (put s) := by
  -- a success on the whole is one on the part, and the other way round
  have part : ∀ {verb n a t'}, op' verb n (put a) = .ok t' →
      ∃ a', op verb n a = .ok a' ∧ t' = put a' := by
    intro verb n a t' ht
    obtain ⟨a', ha, ht'⟩ := bind_ok ((hop verb n a).symm.trans ht)
    cases ht'
    exact ⟨a', ha, rfl⟩
  have whole : ∀ {verb n a a'}, op verb n a = .ok a' → op' verb n (put a) = .ok (put a') :=
    fun ha => (hop _ _ _).trans (bind_of_ok ha)
  constructor
  · intro n t'
    constructor
    · intro ht
      obtain ⟨a', ha, rfl⟩ := part ht
      exact ((h.create_iff n a').mp ha).imp whole id
    · rintro ⟨ht, habsent⟩
      obtain ⟨a', ha, rfl⟩ := part ht
      exact whole ((h.create_iff n a').mpr ⟨ha, habsent⟩)
  · intro hp n t' ht
    obtain ⟨a', ha, -⟩ := part ht
    obtain ⟨c, hc⟩ := h.clash hp n a' ha
    exact ⟨c, (hop _ _ _).trans (bind_of_error hc)⟩
  · intro n n' t' ht
    obtain ⟨a', ha, rfl⟩ := part ht
    exact whole (h.undo n n' a' ha)
  · intro hp n n' t' ht
    obtain ⟨a', ha, rfl⟩ := part ht
    exact whole (h.destroy_present hp n n' a' ha)
  · intro hp n t' ht
    obtain ⟨a', ha, rfl⟩ := part ht
    exact congrArg put (h.destroy_absent hp n a' ha)

/-- A check that all verbs but `delete` make first changes nothing about their agreement. -/
theorem guarded {op' : Verb → Nat → σ → Except Error σ} (h : VerbsAgree op present s)
    (check : Except Error Unit)
    (hop : ∀ verb n, verb.checksValue = true → op' verb n s = check >>= fun _ => op verb n s)
    (hdelete : ∀ n a, op' .delete n a = op .delete n a) : VerbsAgree op' present s := by
  cases check with
  -- the check fails, and so does each verb that makes it
  | error e => exact of_error hop
  | ok u =>
    have hadd : ∀ n, op' .add n s = op .add n s := fun n => hop .add n rfl
    have hcreate : ∀ n, op' .create n s = op .create n s := fun n => hop .create n rfl
    have hdestroy : ∀ n, op' .destroy n s = op .destroy n s := fun n => hop .destroy n rfl
    constructor
    · intro n s'
      rw [hcreate, hadd]
      exact h.create_iff n s'
    · intro hp n s'
      rw [hcreate, hadd]
      exact h.clash hp n s'
    · intro n n' s'
      rw [hcreate, hdelete]
      exact h.undo n n' s'
    · intro hp n n' s'
      rw [hdestroy, hdelete]
      exact h.destroy_present hp n n' s'
    · intro hp n s'
      rw [hdestroy]
      exact h.destroy_absent hp n s'

/--
Verbs agree that put something where there is nothing, and take out what is there. `add` may also
meet what is there, with `put` for what it then does.
-/
theorem of_store (present : σ → Prop) (clash : Clash) (put : Nat → σ → σ) (drop : σ → σ)
    (hadd : ∀ n, op .add n s = .ok (put n s)) (hdestroy : ∀ n, op .destroy n s = .ok (drop s))
    (hclash : present s → ∀ n, op .create n s = .error (.alreadyExists clash))
    (hcreate : ¬ present s → ∀ n, op .create n s = .ok (put n s))
    (hdelete : ∀ n a, present a → op .delete n a = .ok (drop a)) (hput : ∀ n, present (put n s))
    (hback : ¬ present s → ∀ n, drop (put n s) = s) (hdrop : ¬ present s → drop s = s) :
    VerbsAgree op (present s) s := by
  -- present: `create` fails and `destroy` is `delete`; absent: `create` is `add` and `destroy` is
  -- nothing
  by_cases hp : present s
  · constructor
    · intro n s'
      rw [hclash hp]
      simp [hp]
    · exact fun _ n _ _ => ⟨clash, hclash hp n⟩
    · intro n n' s' hs
      cases (hclash hp n).symm.trans hs
    · intro _ n n' s' hs
      exact (hdelete n' s hp).trans ((hdestroy n).symm.trans hs)
    · exact fun habsent => absurd hp habsent
  · constructor
    · intro n s'
      rw [hcreate hp, hadd]
      simp [hp]
    · exact fun hpresent => absurd hpresent hp
    · intro n n' s' hs
      cases (hcreate hp n).symm.trans hs
      rw [hdelete n' _ (hput n), hback hp]
    · exact fun hpresent => absurd hpresent hp
    · intro _ n s' hs
      cases (hdestroy n).symm.trans hs
      exact hdrop hp

end VerbsAgree

/-! ## Named objects -/

/-- **The verbs agree about a name of a shelf.** -/
theorem Shelf.verbsAgree {κ σ : Type} [Ord κ] [Std.TransOrd κ] [Std.LawfulEqOrd κ] [DecidableEq κ]
    (s : Shelf κ σ) (m : SortedMap κ σ) (among : κ → Bool) (key : κ) (new : Nat → σ) :
    VerbsAgree (fun verb n m => s.apply m among verb key none (new n))
      (m.contains key = true) m := by
  refine VerbsAgree.of_store (fun m : SortedMap κ σ => m.contains key = true)
    (.object s.kind (s.text key)) (fun n m => m.insertIfNew key (new n)) (fun m => m.erase key)
    ?_ ?_ ?_ ?_ ?_ ?_ ?_ ?_
  · exact fun n => apply_none s m among .add key (new n)
  · exact fun n => apply_none s m among .destroy key (new n)
  · intro hp n
    rw [apply_none, hp]
    rfl
  · intro hp n
    rw [apply_none, Bool.eq_false_iff.mpr hp]
    rfl
  · intro n m hp
    rw [apply_none, hp]
    rfl
  · exact fun n => SortedMap.contains_insertIfNew m key (new n)
  · intro hp n
    exact (SortedMap.erase_insertIfNew m key (new n)).trans
      (SortedMap.erase_of_not_contains (Bool.eq_false_iff.mpr hp))
  · exact fun hp => SortedMap.erase_of_not_contains (Bool.eq_false_iff.mpr hp)

/-! ## Elements -/

namespace Elements

theorem find?_isSome_iff {key : List String} {elements : List Element} :
    (find? key elements).isSome = true ↔ key ∈ elements.map Element.key := by
  simp [find?, List.find?_isSome]

/-- There is nothing to take out under a key that is not there. -/
theorem erase_of_not_mem {key : List String} {elements : List Element}
    (h : key ∉ elements.map Element.key) : erase key elements = elements := by
  refine List.eraseP_of_forall_not fun d hd hkey => h ?_
  exact List.mem_map.mpr ⟨d, hd, of_decide_eq_true hkey⟩

/-- **The verbs agree about a key of a container.** -/
theorem verbsAgree (elements : List Element) (e : Element) :
    VerbsAgree (fun verb _ l => apply l verb e) (e.key ∈ elements.map Element.key) elements := by
  have hfind : ∀ {l : List Element}, e.key ∉ l.map Element.key → (find? e.key l).isSome = false :=
    fun h => Bool.eq_false_iff.mpr (mt find?_isSome_iff.mp h)
  refine VerbsAgree.of_store (fun l => e.key ∈ l.map Element.key)
    (.object .element (joinParts e.key)) (fun _ l => write e l) (erase e.key)
    ?_ ?_ ?_ ?_ ?_ ?_ ?_ erase_of_not_mem
  · exact fun _ => rfl
  · exact fun _ => rfl
  · intro hp n
    rw [apply, find?_isSome_iff.mpr hp]
    rfl
  · intro hp n
    rw [apply, hfind hp]
    rfl
  · intro n l hp
    rw [apply, find?_isSome_iff.mpr hp]
    rfl
  · exact fun _ => find?_isSome_iff.mp (find?_write e elements)
  · intro hp n
    exact (erase_write e elements).trans (erase_of_not_mem hp)

end Elements

/-! ## Objects of a table -/

namespace TableState

variable {t : TableState} {defines : List Define}

/-- The verbs agree about an element as it stands. -/
theorem verbsAgree_edit (t : TableState) (e : Element) :
    VerbsAgree (fun verb _ t => t.editElement verb e)
      (∃ c l, e.container? = some c ∧ t.elements? c = some l ∧ e.key ∈ l.map Element.key) t := by
  cases hc : e.container? with
  | none =>
    refine .of_error (e := .invalid .containerMissing) fun verb n _ => ?_
    rw [editElement_eq, hc]
  | some c =>
    cases hl : t.elements? c with
    | none =>
      refine .of_error (e := .notFound c.missing) fun verb n _ => ?_
      rw [editElement_eq, hc]
      dsimp only
      rw [hl]
    | some l =>
      -- the table is its container put back into its place
      have h : VerbsAgree (fun verb _ t => t.editElement verb e) (e.key ∈ l.map Element.key)
          (t.withElements c l) := by
        refine (Elements.verbsAgree l e).lift (t.withElements c) fun verb n l' => ?_
        rw [editElement_of_container verb hc (elements?_withElements l' hl)]
        simp only [withElements_withElements]
      rw [withElements_self hl] at h
      simpa [hl] using h

/-- **The verbs agree about an object of the table.** -/
theorem verbsAgree (t : TableState) {o : Object} (hkind : o.kind ≠ .table ∧ o.kind ≠ .rule)
    (ho : o.handle = none) :
    VerbsAgree (fun verb n t => t.step defines verb n o) (t.Present defines o) t := by
  cases o with
  | table x => exact absurd rfl hkind.1
  | rule x => exact absurd rfl hkind.2
  | chain c =>
    have hc : c.handle = none := ho
    refine (chainShelf.verbsAgree t.chains (fun _ => true) c.name fun n =>
      { chain := { c with handle := some n } }).lift (fun chains => { t with chains }) ?_
    intro verb n chains
    simp only [step, applyChain, hc]
  | set s =>
    have hs : s.handle = none := ho
    refine (setShelf.verbsAgree t.sets (fun _ => true) s.name fun n =>
      { set := { s with spec := s.spec.substitute defines, handle := some n } }).lift
        (fun sets => { t with sets }) ?_
    intro verb n sets
    simp only [step, applySet, hs]
  | map m =>
    have hm : m.handle = none := ho
    refine (mapShelf.verbsAgree t.maps (fun _ => true) m.name fun n =>
      { map := { m with spec := m.spec.substitute defines, handle := some n } }).lift
        (fun maps => { t with maps }) ?_
    intro verb n maps
    simp only [step, applyMap, hm]
  | flowtable f =>
    have hf : f.handle = none := ho
    refine (flowtableShelf.verbsAgree t.flowtables (fun _ => true) f.name fun n =>
      { f with handle := some n }).lift (fun flowtables => { t with flowtables }) ?_
    intro verb n flowtables
    simp only [step, applyFlowtable, hf]
  | counter c =>
    have hc : c.handle = none := ho
    refine (counterShelf.verbsAgree t.counters (fun _ => true) c.name fun n =>
      { c with
        packets := some (c.packets.getD 0)
        bytes := some (c.bytes.getD 0)
        handle := some n }).lift (fun counters => { t with counters }) ?_
    intro verb n counters
    simp only [step, applyCounter, hc]
  | element e =>
    -- what is deleted is not checked as an addition
    refine (t.verbsAgree_edit (e.substitute defines)).guarded
      (if (e.substitute defines).value ≠ [] then
        t.checkReferences (joinParts (e.substitute defines).value) else pure ()) ?_ ?_
    · intro verb n hv
      exact (applyElement_eq verb e).trans (by simp only [hv, Bool.true_and, decide_eq_true_eq])
    · exact fun n t => applyElement_eq .delete e

end TableState

/-! ## The ruleset -/

/-- What is put names no handle, unless it is a rule. -/
theorem Object.handle_of_puts {verb : Verb} {o : Object} (hverb : verb.Puts)
    (hrule : o.kind ≠ .rule) (h : o.validateKind verb = .ok ()) : o.handle = none := by
  have hnamed : ∀ name, o.name? = some name → o.handle = none := by
    intro name hname
    cases hhandle : o.handle with
    | none => rfl
    | some n =>
      -- only a deletion may name a handle
      have haddressed := addressed_of_validate hname h
      rw [hhandle] at haddressed
      cases haddressed
      rcases hverb with rfl | rfl <;> contradiction
  cases o with
  | table t =>
    have h : forbidHandle verb .table t.handle = .ok () := by
      rcases hverb with rfl | rfl <;> exact h
    exact Decidable.not_not.mp (refuseIf_eq_ok.mp h)
  | rule x => exact absurd rfl hrule
  | element e => rfl
  | _ => exact hnamed _ rfl

theorem Object.kind_of_create {o : Object} (h : o.validateKind .create = .ok ()) :
    o.kind ≠ .rule := by
  rintro hkind
  cases o with
  | rule r =>
    simp only [validateKind, Rule.validate, andThen_eq_ok] at h
    -- a rule is added, never created
    cases h.2.2
  | _ => cases hkind

namespace Ruleset

theorem verbsAgree_table (r : Ruleset) (defines : List Define) {t : Table} {key : TableKey}
    (hscope : t.scope = key.scope) (ht : t.handle = none) :
    VerbsAgree (fun verb n r => r.step defines n ⟨verb, .table t⟩)
      (r.tables.contains key = true) r := by
  refine (tableShelf.verbsAgree r.tables (·.family = key.family) key fun n =>
    { table := { t with handle := some n } }).lift Ruleset.mk ?_
  intro verb n tables
  simp only [step, applyTable, hscope, TableKey.scope, ht]
  rfl

/-- The verbs agree about an object of a table as they do inside the table. -/
theorem verbsAgree_inside (r : Ruleset) (defines : List Define) {o : Object} {key : TableKey}
    (hkind : o.kind ≠ .table ∧ o.kind ≠ .rule) (hscope : o.scope = key.scope)
    (ho : o.handle = none) : VerbsAgree (fun verb n r => r.step defines n ⟨verb, o⟩)
      (∃ t, r.tables.get? key = some t ∧ t.Present defines o) r := by
  cases ht : r.tables.get? key with
  | none =>
    refine .of_error (e := .notFound (.tableOf key.family key.name)) fun verb n _ => ?_
    rw [step_inside hkind.1 hscope, ht]
  | some t =>
    -- the ruleset is the table put back under its key
    have h : VerbsAgree (fun verb n r => r.step defines n ⟨verb, o⟩) (t.Present defines o)
        { r with tables := r.tables.modify key fun _ => t } := by
      refine (t.verbsAgree hkind ho).lift
        (fun t => { r with tables := r.tables.modify key fun _ => t }) fun verb n t' => ?_
      rw [step_inside hkind.1 hscope, SortedMap.get?_modify, if_pos rfl, ht]
      simp only [Option.map_some, SortedMap.modify_modify_const]
    rw [SortedMap.modify_const_self ht] at h
    simpa using h

/--
**Create, add, delete and destroy agree.** For an object that is fit to be created, `create`
succeeds exactly where `add` succeeds and the object is absent, with the same ruleset; where it is
present and `add` succeeds, `create` says so. A `delete` after a `create` restores the ruleset, and
a `destroy` that succeeds is a `delete` where the object is present, and nothing where it is not.
-/
theorem verbsAgree_of_creatable (r : Ruleset) (defines : List Define) {o : Object}
    (hv : o.validate .create = .ok ()) :
    VerbsAgree (fun verb n r => r.step defines n ⟨verb, o⟩) (r.Present defines o) r := by
  obtain ⟨family, name, hscope, -⟩ := Object.scope_of_validate (by decide) hv
  have hfit := Object.validateKind_of_validate hv
  have hrule := Object.kind_of_create hfit
  have ho := Object.handle_of_puts (.inr rfl) hrule hfit
  have hscope : o.scope = TableKey.scope ⟨family, name⟩ := hscope
  have hpresent : r.Present defines o ↔
      ∃ t, r.tables.get? ⟨family, name⟩ = some t ∧ t.Present defines o := by
    constructor
    · rintro ⟨key, t, hkey, ht⟩
      cases TableKey.scope_injective (hscope.symm.trans hkey)
      exact ⟨t, ht⟩
    · rintro ⟨t, ht⟩
      exact ⟨_, t, hscope, ht⟩
  rw [hpresent]
  by_cases htable : o.kind = .table
  · cases o with
    | table x => simpa [TableState.Present, SortedMap.contains_iff]
        using r.verbsAgree_table defines hscope ho
    | _ => cases htable
  · exact r.verbsAgree_inside defines ⟨htable, hrule⟩ hscope ho

/-- A second element of a map, with a define in its key and a chain in its value. -/
theorem verbsAgree_of_creatable_mapElement :
    let scope : Scope := { family := some .ip, table := some "t" }
    let defines : List Define := [⟨"PORT", "80"⟩]
    let r := (Ruleset.apply defines {} 0
      [⟨.add, .table { scope }⟩, ⟨.add, .chain { scope, name := "c" }⟩,
        ⟨.add, .map { scope, name := "m", spec := { keyType := some "port : verdict" } }⟩,
        ⟨.add, .element { scope, map := some "m", key := ["22"], value := ["drop"] }⟩]).ruleset
    let o := Object.element { scope, map := some "m", key := ["$PORT"], value := ["jump c"] }
    o.validate .create = .ok () ∧
      VerbsAgree (fun verb n r => r.step defines n ⟨verb, o⟩) (r.Present defines o) r ∧
      ∃ r', r.step defines 5 ⟨.create, o⟩ = .ok r' ∧ r'.step defines 5 ⟨.delete, o⟩ = .ok r := by
  intro scope defines r o
  have hv : o.validate .create = .ok () := by decide +kernel
  have hagree := r.verbsAgree_of_creatable defines hv
  have hok : (r.step defines 5 ⟨.create, o⟩).isOk = true := by decide +kernel
  refine ⟨hv, hagree, ?_⟩
  cases hr : r.step defines 5 ⟨.create, o⟩ with
  | error e =>
    rw [hr] at hok
    cases hok
  | ok r' =>
    exact ⟨r', rfl, hagree.undo 5 5 r' hr⟩

end Ruleset

end Nftables
