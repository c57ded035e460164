import Nftables.Command.File
import Nftables.Ruleset.Apply
import Nftables.Ruleset.Dump
import Nftables.Ruleset.Status

/-!
# The engine

An engine holds the committed ruleset. Running a transaction commits all of it or nothing; checking
one reports what running it would, and commits nothing. Handles that were given out on the way are
not given out again.
-/

namespace Nftables

structure Engine where
  config : Config := {}
  ruleset : Ruleset := {}
  /--
  The handle that was given out last, 0 before the first. A counter of 64 bits, as a natural number:
  it has no bound, and the two would part only after 2 ^ 64 - 1 handles.
  -/
  lastHandle : Nat := 0
  /-- The last transaction that was run without a refusal, whether or not it succeeded. -/
  lastTransaction : Option Transaction := none
deriving DecidableEq

namespace Engine

def ofConfig (config : Config) : Engine := { config }

/-- An empty transaction with the engine's defaults. -/
def newTransaction (e : Engine) : Transaction := .ofConfig e.config

/-- What the operations of a transaction would leave behind. -/
def attempt (e : Engine) (tx : Transaction) : Ruleset.Outcome :=
  Ruleset.apply e.config.effectiveDefines e.ruleset e.lastHandle tx.operations

/-- Runs a transaction: all of it is committed, or none. -/
def run (e : Engine) (tx : Transaction) : Engine × Except Error Unit :=
  match tx.refusal with
  | some v => (e, .error (.invalid v))
  | none =>
    let outcome := e.attempt tx
    let e := { e with lastHandle := outcome.lastHandle, lastTransaction := some tx }
    match outcome.result with
    | .ok () => ({ e with ruleset := outcome.ruleset }, .ok ())
    | .error err => (e, .error err)

/-- Reports what running the transaction would. Of the engine, only the handle counter moves. -/
def check (e : Engine) (tx : Transaction) : Engine × Except Error Unit :=
  match tx.refusal with
  | some v => (e, .error (.invalid v))
  | none =>
    let outcome := e.attempt tx
    ({ e with lastHandle := outcome.lastHandle }, outcome.result)

/-! ## Command files -/

/-- The maps of the committed ruleset. -/
def knownMaps (e : Engine) : List Command.MapName :=
  e.ruleset.tables.entries.flatMap fun (key, t) => t.maps.keys.map fun name =>
    ⟨key.family, key.name, name⟩

/-- Reads a command file without running it. -/
def readTransaction (e : Engine) (text : String) : Except Error Transaction :=
  Command.readCommands e.config e.knownMaps text

/-- Reads a command file and runs it as one transaction. -/
def replay (e : Engine) (text : String) : Engine × Except Error Unit :=
  match e.readTransaction text with
  | .error err => (e, .error err)
  | .ok tx => e.run tx

def dump (e : Engine) : String := e.ruleset.dump

/-! ## Queries on the bound table -/

/-- The table that the engine is bound to. -/
def boundTable (e : Engine) : Except Error TableState :=
  match e.config.family, e.config.table with
  | some family, some name =>
    match e.ruleset.table? family name with
    | some t => .ok t
    | none => .error (.notFound (.tableOf family name))
  | _, _ => .error (.invalid .unbound)

/-- A kind that a query names. -/
def queriedKind (kind : String) : Except Error Kind := (Kind.read kind).mapError .invalid

/-- The names of the objects of one kind, which is given in the singular or the plural. -/
def list (e : Engine) (kind : String) : Except Error (List String) := do
  let kind ← queriedKind kind
  let t ← e.boundTable
  match kind with
  | .chain => pure t.chains.keys
  | .set => pure t.sets.keys
  | .map => pure t.maps.keys
  | .flowtable => pure t.flowtables.keys
  | .counter => pure t.counters.keys
  | other => .error (.invalid (.unknownKind other.name))

/-- The rules of a chain in order, with their handles. -/
def listRules (e : Engine) (chain : String) : Except Error (List Rule) := do
  let t ← e.boundTable
  match t.chains.get? chain with
  | some c => pure c.rules
  | none => .error (.notFound (.object .chain chain))

/-- The elements of a set or map. -/
def listElements (e : Engine) (kind name : String) : Except Error (List Element) := do
  let kind ← queriedKind kind
  let t ← e.boundTable
  let elements? ← match kind with
    | .set => pure ((t.sets.get? name).map SetState.elements)
    | .map => pure ((t.maps.get? name).map MapState.elements)
    | other => .error (.invalid (.noElements other))
  match elements? with
  | some elements => pure elements
  | none => .error (.notFound (.object kind name))

def listCounters (e : Engine) : Except Error (List Counter) := do
  let t ← e.boundTable
  pure t.counters.values

/-- All tables, in the order of the dump. -/
def listTables (e : Engine) : List Table := e.ruleset.listing.map TableState.table

end Engine

end Nftables
