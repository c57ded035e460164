import Nftables.Proofs.Destroy

/-!
# Containers of elements

Sets and maps hold their elements alike. A container is either of them, by its name in a table: its
elements can be read and put back, and a command on an element is one on the list of its container.

The command names its container by one of two fields, and sets and maps are of different types, so
whatever is said about elements would have to be proved twice. With `elements?` and `withElements`
it is said once: `editElement_eq` is the only place that looks at both fields, and the modules on
the verbs and on the history of elements go through it.
-/

namespace Nftables

/-- A set or a map of a table. -/
inductive Container
  | set (name : String)
  | map (name : String)
deriving DecidableEq, Repr

/-- The kind and the name of what is missing where the container is not there. -/
def Container.missing : Container → Missing
  | .set name => .object .set name
  | .map name => .object .map name

/-- The container that an element names. -/
def Element.container? (e : Element) : Option Container :=
  match e.set, e.map with
  | some name, _ => some (.set name)
  | none, some name => some (.map name)
  | none, none => none

namespace TableState

variable {t : TableState} {c : Container} {l : List Element}

/-- The elements of a container, if it is there. -/
def elements? (t : TableState) : Container → Option (List Element)
  | .set name => (t.sets.get? name).map SetState.elements
  | .map name => (t.maps.get? name).map MapState.elements

/-- The table with other elements in one container. -/
def withElements (t : TableState) (c : Container) (l : List Element) : TableState :=
  match c with
  | .set name => { t with sets := t.sets.modify name fun s => { s with elements := l } }
  | .map name => { t with maps := t.maps.modify name fun m => { m with elements := l } }

theorem elements?_withElements (l' : List Element) (h : t.elements? c = some l) :
    (t.withElements c l').elements? c = some l' := by
  cases c with
  | set name =>
    obtain ⟨s, hs, -⟩ := Option.map_eq_some_iff.mp h
    simp [elements?, withElements, hs]
  | map name =>
    obtain ⟨m, hm, -⟩ := Option.map_eq_some_iff.mp h
    simp [elements?, withElements, hm]

theorem withElements_withElements (t : TableState) (c : Container) (l l' : List Element) :
    (t.withElements c l).withElements c l' = t.withElements c l' := by
  cases c <;> simp only [withElements, SortedMap.modify_modify]

/-- To put back what is there changes nothing. -/
theorem withElements_self (h : t.elements? c = some l) : t.withElements c l = t := by
  cases c with
  | set name =>
    obtain ⟨s, hs, rfl⟩ := Option.map_eq_some_iff.mp h
    rw [withElements, SortedMap.modify_eq_self fun s' hs' => by cases hs.symm.trans hs'; rfl]
  | map name =>
    obtain ⟨m, hm, rfl⟩ := Option.map_eq_some_iff.mp h
    rw [withElements, SortedMap.modify_eq_self fun m' hm' => by cases hm.symm.trans hm'; rfl]

/-- **A command on an element is one on the list of its container.** -/
theorem editElement_eq (t : TableState) (verb : Verb) (e : Element) :
    t.editElement verb e = match e.container? with
      | none => .error (.invalid .containerMissing)
      | some c => match t.elements? c with
        | none => .error (.notFound c.missing)
        | some l => Elements.apply l verb e >>= fun l' => pure (t.withElements c l') := by
  unfold editElement Element.container?
  cases e.set with
  | some name =>
    -- the set is there or not; both sides are the same command then
    dsimp only [elements?, withElements, Container.missing]
    cases t.sets.get? name <;> rfl
  | none =>
    cases e.map with
    | none => rfl
    | some name =>
      dsimp only [elements?, withElements, Container.missing]
      cases t.maps.get? name <;> rfl

theorem editElement_of_container (verb : Verb) {e : Element} (hc : e.container? = some c)
    (hl : t.elements? c = some l) : t.editElement verb e
      = Elements.apply l verb e >>= fun l' => pure (t.withElements c l') := by
  rw [editElement_eq, hc]
  dsimp only
  rw [hl]

end TableState

end Nftables
