import Nftables.Error
import Nftables.SortedMap

/-!
# Named objects and the verbs

Tables, chains, sets, maps, flowtables and counters are all kept by name, and the verbs act on
them alike: `add` and `destroy` accept that the object is there or not, `create` wants it absent,
and every other verb wants it present. A shelf says what one kind of object needs to know for that.
-/

namespace Nftables

/-- How one kind of named object is kept under keys of type `κ`. -/
structure Shelf (κ σ : Type) where
  kind : Kind
  /-- A key as it is shown in messages. -/
  text : κ → String
  handle : σ → Option Nat
  /-- What `flush` does to an object, where the kind has it. -/
  flush : Option (σ → σ) := none
  /-- What `reset` does to an object, where the kind has it. -/
  reset : Option (σ → σ) := none

/-- The rule of the verbs on presence. -/
def checkExistence (verb : Verb) (present : Bool) (kind : Kind) (name : String) :
    Except Error Unit :=
  match verb with
  | .add | .destroy => .ok ()
  | .create => if present then .error (.alreadyExists (.object kind name)) else .ok ()
  | _ => if present then .ok () else .error (.notFound (.object kind name))

/-- A verb that the kind has no meaning for. -/
def unhandled (verb : Verb) (kind : Kind) : Error := .unhandled verb.name kind.name

namespace Shelf

variable {κ σ : Type} [Ord κ] [Std.TransOrd κ]

/--
The key of the object that a command means. A `delete` with a handle means the first object with
that handle among the keys that `among` allows; otherwise the command's own key counts.
-/
def resolve (s : Shelf κ σ) (m : SortedMap κ σ) (among : κ → Bool) (verb : Verb) (key : κ)
    (handle : Option Nat) : Except Error κ :=
  match verb, handle with
  | .delete, some h =>
    match m.findKey? fun k a => among k && s.handle a = some h with
    | some k => .ok k
    | none => .error (.notFound (.handle s.kind h))
  | _, _ => .ok key

/-- What the verb does to the object under a key, once presence has been checked. -/
def act (s : Shelf κ σ) (m : SortedMap κ σ) (verb : Verb) (key : κ) (new : σ) :
    Except Error (SortedMap κ σ) :=
  match verb, s.flush, s.reset with
  | .add, _, _ | .create, _, _ => .ok (m.insertIfNew key new)
  | .delete, _, _ | .destroy, _, _ => .ok (m.erase key)
  | .flush, some flush, _ => .ok (m.modify key flush)
  | .reset, _, some reset => .ok (m.modify key reset)
  | _, _, _ => .error (unhandled verb s.kind)

/-- Applies a verb. `new` is the object that `add` and `create` put under an absent key. -/
def apply (s : Shelf κ σ) (m : SortedMap κ σ) (among : κ → Bool) (verb : Verb) (key : κ)
    (handle : Option Nat) (new : σ) : Except Error (SortedMap κ σ) := do
  let key ← s.resolve m among verb key handle
  checkExistence verb (m.contains key) s.kind (s.text key)
  s.act m verb key new

end Shelf

end Nftables
