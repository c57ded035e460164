import Nftables.Clause.Comment
import Nftables.Config
import Nftables.Object.Command
import Nftables.Object.Validate

/-!
# Transactions

An ordered batch of operations. Objects are completed and checked when they are queued; the first
refusal is kept, and everything after it is ignored.
-/

namespace Nftables

/-- A verb and the object it is about. -/
structure Operation where
  verb : Verb
  object : Object
deriving DecidableEq, Repr

/-- The operation as one line of a command file. -/
def Operation.command (op : Operation) : String := op.object.command op.verb

structure Transaction where
  /-- What fills the open scopes of queued objects. -/
  defaults : Scope := {}
  emulateDestroy : Bool := false
  operations : List Operation := []
  /-- Why the transaction is spoilt, if it is. -/
  refusal : Option Violation := none
deriving DecidableEq, Repr

namespace Transaction

/-- An empty transaction with the defaults of the settings. -/
def ofConfig (c : Config) : Transaction :=
  { defaults := c.scope, emulateDestroy := c.emulateDestroy }

/-- What is queued for a verb: an emulated `destroy` is an `add` and a `delete`. -/
def expand (emulateDestroy : Bool) (verb : Verb) (o : Object) : List Operation :=
  if verb = .destroy ∧ emulateDestroy then [⟨.add, o⟩, ⟨.delete, o⟩] else [⟨verb, o⟩]

/-- Queues an operation on the completed object, if it is fit for the verb. -/
def push (tx : Transaction) (verb : Verb) (object : Object) : Transaction :=
  match tx.refusal with
  | some _ => tx
  | none =>
    let object := object.applyDefaults tx.defaults
    match object.validate verb with
    | .error v => { tx with refusal := some v }
    | .ok () => { tx with operations := tx.operations ++ expand tx.emulateDestroy verb object }

/-- Adds a rule to a chain; a trailing comment in the text becomes the rule's. -/
def addRule (tx : Transaction) (chain text : String) : Transaction :=
  let (body, comment) := Clause.splitComment text.toList
  tx.push .add (.rule
    { chain, body := String.ofList body, comment := comment.map String.ofList })

/-- The number of queued operations. -/
def size (tx : Transaction) : Nat := tx.operations.length

/-- The queued operations as a command file. -/
def text (tx : Transaction) : String := String.join (tx.operations.map Operation.command)

end Transaction

end Nftables
