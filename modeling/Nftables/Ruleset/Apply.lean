import Nftables.Ruleset.Reference
import Nftables.Ruleset.Shelf
import Nftables.Transaction

/-!
# Applying operations

One operation either changes the ruleset or fails and leaves it alone (`Ruleset.step`). A list of
operations is applied up to the first failure (`Ruleset.apply`); what was done before it stays
done, and the handles that were taken stay taken.
-/

namespace Nftables

/-! ## Rules -/

namespace ChainState

/-- The position in the chain that a rule of a command refers to, by handle or by index. -/
def position? (c : ChainState) (r : Rule) : Except Error (Option Nat) :=
  match r.handle, r.index with
  | some h, _ =>
    match c.rules.findIdx? (·.handle = some h) with
    | some i => .ok (some i)
    | none => .error (.notFound (.ruleHandle h c.chain.name))
  | none, some i =>
    if i < c.rules.length then .ok (some i)
    else .error (.notFound (.ruleIndex i c.chain.name))
  | none, none => .ok none

/-- The position that a verb cannot do without. -/
def requirePosition (verb : Verb) : Option Nat → Except Error Nat
  | some i => .ok i
  | none => .error (.invalid (.ruleHandleMissing verb))

/--
The rules after a command. `add` puts the new rule behind the one that is referred to, or at the
end; `insert` puts it in front of that one, or at the front; `replace` keeps the handle.
-/
def editRules (rules : List Rule) (verb : Verb) (r : Rule) (position : Option Nat) (handle : Nat) :
    Except Error (List Rule) :=
  match verb with
  | .add =>
    let place := (position.map (· + 1)).getD rules.length
    .ok (rules.insertIdx place { r with index := none, handle := some handle })
  | .insert =>
    .ok (rules.insertIdx (position.getD 0) { r with index := none, handle := some handle })
  | .replace => do
    let i ← requirePosition verb position
    .ok (rules.modify i fun old => { r with index := none, handle := old.handle })
  | .delete => do
    let i ← requirePosition verb position
    .ok (rules.eraseIdx i)
  | _ => .error (unhandled verb .rule)

end ChainState

/-- The verbs that write a rule's body. -/
def Verb.writesRule : Verb → Bool
  | .add | .insert | .replace => true
  | _ => false

/-! ## Elements -/

/-- The elements of a container after a command on one of them. -/
def Elements.apply (elements : List Element) (verb : Verb) (e : Element) :
    Except Error (List Element) := do
  let present := (Elements.find? e.key elements).isSome
  checkExistence verb present .element (joinParts e.key)
  match verb with
  | .add | .create => .ok (Elements.write e elements)
  | .delete | .destroy => .ok (Elements.erase e.key elements)
  | _ => .error (unhandled verb .element)

/-- The element with the references to defines in its key and value replaced. -/
def Element.substitute (defines : List Define) (e : Element) : Element :=
  { e with key := e.key.map (substituteIn defines), value := e.value.map (substituteIn defines) }

/-- The verbs for which an element is checked as an addition. -/
def Verb.checksValue : Verb → Bool
  | .add | .create | .destroy => true
  | _ => false

/-! ## The shelves of a table -/

def chainShelf : Shelf String ChainState where
  kind := .chain
  text := id
  handle c := c.chain.handle
  flush := some ChainState.flush

def setShelf : Shelf String SetState where
  kind := .set
  text := id
  handle s := s.set.handle
  flush := some SetState.flush

def mapShelf : Shelf String MapState where
  kind := .map
  text := id
  handle m := m.map.handle
  flush := some MapState.flush

def flowtableShelf : Shelf String Flowtable where
  kind := .flowtable
  text := id
  handle f := f.handle

def counterShelf : Shelf String Counter where
  kind := .counter
  text := id
  handle c := c.handle
  reset := some fun c => { c with packets := some 0, bytes := some 0 }

/-- The declaration of a set or map with the references to defines in its key type replaced. -/
def KeySpec.substitute (defines : List Define) (spec : KeySpec) : KeySpec :=
  { spec with
    keyType := spec.keyType.map (substituteIn defines)
    typeOf := spec.typeOf.map (substituteIn defines) }

namespace TableState

variable (t : TableState) (defines : List Define) (verb : Verb) (handle : Nat)

def applyChain (c : Chain) : Except Error TableState := do
  let new : ChainState := { chain := { c with handle := some handle } }
  let chains ← chainShelf.apply t.chains (fun _ => true) verb c.name c.handle new
  pure { t with chains }

def applySet (s : NamedSet) : Except Error TableState := do
  let new : SetState :=
    { set := { s with spec := s.spec.substitute defines, handle := some handle } }
  let sets ← setShelf.apply t.sets (fun _ => true) verb s.name s.handle new
  pure { t with sets }

def applyMap (m : NamedMap) : Except Error TableState := do
  let new : MapState :=
    { map := { m with spec := m.spec.substitute defines, handle := some handle } }
  let maps ← mapShelf.apply t.maps (fun _ => true) verb m.name m.handle new
  pure { t with maps }

def applyFlowtable (f : Flowtable) : Except Error TableState := do
  let new := { f with handle := some handle }
  let flowtables ← flowtableShelf.apply t.flowtables (fun _ => true) verb f.name f.handle new
  pure { t with flowtables }

def applyCounter (c : Counter) : Except Error TableState := do
  let new :=
    { c with
      packets := some (c.packets.getD 0)
      bytes := some (c.bytes.getD 0)
      handle := some handle }
  let counters ← counterShelf.apply t.counters (fun _ => true) verb c.name c.handle new
  pure { t with counters }

/-- A rule's references are checked when its body is written. -/
def applyRule (r : Rule) : Except Error TableState := do
  match t.chains.get? r.chain with
  | none => .error (.notFound (.object .chain r.chain))
  | some c => do
    let r := { r with body := substituteIn defines r.body }
    if verb.writesRule then t.checkReferences r.body
    -- what the body refers to is looked up before the place of the rule
    let position ← c.position? r
    let rules ← ChainState.editRules c.rules verb r position handle
    pure { t with chains := t.chains.modify r.chain fun c => { c with rules } }

/-- An element's references are those of its value. They are checked before its container is. -/
def applyElement (e : Element) : Except Error TableState := do
  let e := e.substitute defines
  if verb.checksValue && e.value ≠ [] then t.checkReferences (joinParts e.value)
  match e.set, e.map with
  | some name, _ =>
    match t.sets.get? name with
    | none => .error (.notFound (.object .set name))
    | some s => do
      let elements ← Elements.apply s.elements verb e
      pure { t with sets := t.sets.modify name fun s => { s with elements } }
  | none, some name =>
    match t.maps.get? name with
    | none => .error (.notFound (.object .map name))
    | some m => do
      let elements ← Elements.apply m.elements verb e
      pure { t with maps := t.maps.modify name fun m => { m with elements } }
  | none, none => .error (.invalid .containerMissing)

/-- Applies an operation on an object of the table. -/
def step (o : Object) : Except Error TableState :=
  match o with
  | .table _ => .error (unhandled verb .table)
  | .chain c => t.applyChain verb handle c
  | .rule r => t.applyRule defines verb handle r
  | .set s => t.applySet defines verb handle s
  | .map m => t.applyMap defines verb handle m
  | .element e => t.applyElement defines verb e
  | .flowtable f => t.applyFlowtable verb handle f
  | .counter c => t.applyCounter verb handle c

end TableState

/-! ## The ruleset -/

def tableShelf : Shelf TableKey TableState where
  kind := .table
  text := TableKey.text
  handle t := t.table.handle
  flush := some TableState.flush

namespace Ruleset

/-- Applies an operation on a table. A handle means a table of the family that is given. -/
def applyTable (r : Ruleset) (verb : Verb) (handle : Nat) (t : Table) : Except Error Ruleset :=
  match t.scope.family with
  | none => .error (.invalid (.familyMissing .table))
  | some family => do
    -- a deletion by handle does not look at the key, so a name may be missing
    let new : TableState := { table := { t with handle := some handle } }
    let key : TableKey := ⟨family, t.scope.table.getD ""⟩
    let tables ← tableShelf.apply r.tables (·.family = family) verb key t.handle new
    pure { r with tables }

/-- Applies one operation, with `handle` for an object that it commits. -/
def step (r : Ruleset) (defines : List Define) (handle : Nat) (op : Operation) :
    Except Error Ruleset :=
  match op.object, op.object.scope with
  | .table t, _ => r.applyTable op.verb handle t
  | o, ⟨some family, some name⟩ =>
    match r.tables.get? ⟨family, name⟩ with
    | none => .error (.notFound (.tableOf family name))
    | some t => do
      let t ← t.step defines op.verb handle o
      pure { r with tables := r.tables.modify ⟨family, name⟩ fun _ => t }
  | o, _ => .error (.invalid (.scopeMissing o.kind))

/--
The handle counter after an operation was attempted. Verbs that may commit an object take a number
whether or not they succeed. The counter does not wrap (see `Engine.lastHandle`).
-/
def nextHandle (last : Nat) (op : Operation) : Nat :=
  if op.verb.allocates then last + 1 else last

/-- What applying operations leaves behind. -/
structure Outcome where
  ruleset : Ruleset
  /-- The handle that was given out last. -/
  lastHandle : Nat
  result : Except Error Unit

/-- Applies operations in order, up to the first that fails. -/
def apply (defines : List Define) (r : Ruleset) (last : Nat) : List Operation → Outcome
  | [] => ⟨r, last, .ok ()⟩
  | op :: rest =>
    let last := nextHandle last op
    match r.step defines last op with
    | .error e => ⟨r, last, .error e⟩
    | .ok r => apply defines r last rest

end Ruleset

end Nftables
