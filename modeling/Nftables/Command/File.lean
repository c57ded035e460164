import Nftables.Command.Reader
import Nftables.Transaction

/-!
# Command files

A command file is read line by line into a transaction. Blank lines and lines that start with `#`
count but say nothing. The reader keeps the names of the maps it has met, so that an element line
without a value finds its container.
-/

namespace Nftables.Command

/-- Where a map lives, and its name. -/
structure MapName where
  family : Family
  table : String
  name : String
deriving DecidableEq, Repr

/-- A command as it was read, and the map that its line declares, if any. -/
structure Parsed where
  operation : Operation
  declares : List MapName := []
deriving DecidableEq, Repr

/-- Reads the object of a line whose words are known. -/
def readObject (known : List MapName) (verb : Verb) (kind : Kind) (family : Family)
    (table rest : List Char) : Reading Parsed :=
  let name := String.ofList table
  let scope : Scope := { family, table := name }
  match kind with
  | .table => do
    let t ← readTable family table rest
    pure ⟨⟨verb, .table t⟩, []⟩
  | .chain => do
    let c ← readChain scope rest
    pure ⟨⟨verb, .chain c⟩, []⟩
  | .rule => do
    let r ← readRule scope rest
    pure ⟨⟨verb, .rule r⟩, []⟩
  | .set => do
    let s ← readSet scope rest
    pure ⟨⟨verb, .set s⟩, []⟩
  | .map => do
    let m ← readMap scope rest
    pure ⟨⟨verb, .map m⟩, [⟨family, name, m.name⟩]⟩
  | .element => do
    let e ← readElement (fun map => decide (⟨family, name, map⟩ ∈ known)) scope rest
    pure ⟨⟨verb, .element e⟩, []⟩
  | .flowtable => do
    let f ← readFlowtable scope rest
    pure ⟨⟨verb, .flowtable f⟩, []⟩
  | .counter => do
    let c ← readCounter scope rest
    pure ⟨⟨verb, .counter c⟩, []⟩

/-- Reads one command. Its words are read from the left, before its object. -/
def readCommand (known : List MapName) (line : List Char) : Reading Parsed := do
  let l ← orFault (.command (String.ofList line)) (Line.read? line)
  let verb ← word Verb.read l.verb
  let kind ← word Kind.read l.kind
  let family ← word Family.read l.family
  readObject known verb kind family l.table l.rest

/-- A line that holds a command, once trimmed. -/
def Significant (line : List Char) : Prop :=
  line ≠ [] ∧ line.head? ≠ some '#'

instance (line : List Char) : Decidable (Significant line) := inferInstanceAs (Decidable (_ ∧ _))

/-- What the reader holds between two lines. -/
structure State where
  known : List MapName
  transaction : Transaction

/-- Queues the command of one trimmed line. -/
def State.line (s : State) (line : List Char) : Reading State :=
  if Significant line then do
    let command ← readCommand s.known line
    let tx := s.transaction.push command.operation.verb command.operation.object
    match tx.refusal with
    | some v => .error (.violation v)
    | none => pure ⟨command.declares ++ s.known, tx⟩
  else pure s

/-- Reads lines, the first of which has the number `n`. -/
def State.lines (s : State) (n : Nat) : List (List Char) → Except Error State
  | [] => .ok s
  | line :: rest =>
    match s.line (Text.trim line) with
    | .error fault => .error (.parse n fault)
    | .ok s => s.lines (n + 1) rest

/-- Reads a command file into a transaction with the defaults of the settings. -/
def readCommands (config : Config) (known : List MapName) (text : String) :
    Except Error Transaction :=
  ((State.mk known (.ofConfig config)).lines 1 (Text.lines text.toList)).map State.transaction

end Nftables.Command
