import Nftables.Clause.Body
import Nftables.Clause.MapValue
import Nftables.Error
import Nftables.Object
import Nftables.Text.CharClass

/-!
# Reading the objects of commands

The line of a command is `VERB KIND FAMILY TABLE REST`: two bare words, two words without blanks,
single spaces between them, and whatever follows the last space. How the rest is read depends on the
kind of object. Only sets and maps refuse a clause that they do not know; the other kinds look for
the clauses they have, and pass over all else.
-/

namespace Nftables.Command

open Clause Text

/-! ## The line -/

/-- A line cut at its spaces. -/
structure Line where
  verb : List Char
  kind : List Char
  family : List Char
  table : List Char
  rest : List Char
deriving DecidableEq, Repr

/-- What follows the table: nothing, or a space and the rest. -/
def readRest : List Char → Option (List Char)
  | [] => some []
  | s => Clause.expect " " s

def Line.read? (s : List Char) : Option Line := do
  let (verb, s) ← Clause.readRun Text.isWordChar s
  let (kind, s) ← Clause.readRun Text.isWordChar (← Clause.expect " " s)
  let (family, s) ← Clause.readWord (← Clause.expect " " s)
  let (table, s) ← Clause.readWord (← Clause.expect " " s)
  let rest ← readRest s
  pure { verb, kind, family, table, rest }

/-! ## Values and faults -/

/-- What reading a line gives, or why it cannot be read. -/
abbrev Reading := Except LineFault

/-- The value that was read, or the fault. -/
def orFault {α : Type} (fault : LineFault) : Option α → Reading α
  | some a => .ok a
  | none => .error fault

/-- A word of the vocabulary. -/
def word {α : Type} (read : String → Except Violation α) (s : List Char) : Reading α :=
  (read (String.ofList s)).mapError .violation

/-- A number, or the fault that its text gives. -/
def number (fault : String → LineFault) (s : List Char) : Reading Nat :=
  orFault (fault (String.ofList s)) (readWord? s)

def handle : List Char → Reading Nat := number .handle

def comment (c : Option (List Char)) : Option String := c.map String.ofList

/-! ## Tables -/

/-- The text without the opening braces at its front and the closing braces at its end. -/
def stripBraces (s : List Char) : List Char :=
  ((s.dropWhile (· = '\x7b')).reverse.dropWhile (· = '\x7d')).reverse

/--
A table. In the line of a `delete` by handle the word `handle` stands in its place. Of a body,
only the comment is read.
-/
def readTable (family : Family) (table rest : List Char) : Reading Table :=
  if table = "handle".toList then do
    let number ← handle (trim rest)
    pure { scope := { family := family }, handle := number }
  else
    let (_, found) := takeComment (trim (stripBraces (trim rest)))
    pure
      { scope := { family := family, table := String.ofList table }
        comment := comment found }

/-! ## Named objects -/

/-- What follows the scope of a named object: a name and its body, or `handle N`. -/
structure Target where
  name : String
  handle : Option Nat
  body : List Char

def readTarget (rest : List Char) : Reading Target :=
  match expect "handle " rest with
  | some text => do
    let number ← handle (trim text)
    pure ⟨"", some number, []⟩
  | none => do
    let (name, body) ← orFault (.object (String.ofList rest)) (readNameAndBody rest)
    pure ⟨String.ofList name, none, body⟩

def readChain (scope : Scope) (rest : List Char) : Reading Chain := do
  let target ← readTarget rest
  let (body, found) := takeComment target.body
  let chain : Chain :=
    { scope, name := target.name, comment := comment found, handle := target.handle }
  match find? readHookClause body with
  | none => pure chain
  | some clause => do
    let chainType ← word ChainType.read clause.chainType
    let hook ← word Hook.read clause.hook
    pure
      { chain with
        chainType := some chainType
        hook := some hook
        device := clause.device.map String.ofList
        priority := some (String.ofList clause.priority) }

/-- A span of whole seconds; a last letter `s`, `m`, `h` or `d` gives the unit. -/
def readSeconds (s : List Char) : Reading Duration :=
  let (digits, scale) := match s.getLast? with
    | some 's' => (s.dropLast, 1)
    | some 'm' => (s.dropLast, 60)
    | some 'h' => (s.dropLast, 3600)
    | some 'd' => (s.dropLast, 86400)
    | _ => (s, 1)
  match readWord? digits with
  | some n =>
    if n * scale ≤ maxWord then pure { secs := n * scale }
    else .error (.duration (String.ofList s))
  | none => .error (.duration (String.ofList s))

/-- The clauses of a set or map, with the one that maps do not have. -/
structure KeyClauses where
  spec : KeySpec := {}
  autoMerge : Option Bool := none

/-- Reads one clause. A clause that is given again replaces what it said before. -/
def KeyClauses.read (clauses : KeyClauses) (clause : List Char) : Reading KeyClauses :=
  let (keyword, value) := splitOnce ' ' clause
  let spec := clauses.spec
  match String.ofList keyword with
  | "type" => pure { clauses with spec := { spec with keyType := String.ofList value } }
  | "typeof" => pure { clauses with spec := { spec with typeOf := String.ofList value } }
  | "flags" => pure { clauses with spec := { spec with flags := commaList value } }
  | "timeout" => do
    let timeout ← readSeconds value
    pure { clauses with spec := { spec with timeout := some timeout } }
  | "gc-interval" => do
    let interval ← readSeconds value
    pure { clauses with spec := { spec with gcInterval := some interval } }
  | "size" => do
    let size ← number .size value
    pure { clauses with spec := { spec with size := some size } }
  | "policy" => do
    let policy ← word Policy.read value
    pure { clauses with spec := { spec with policy := some policy } }
  | "auto-merge" => pure { clauses with autoMerge := some true }
  | other => .error (.clause other)

/-- The clauses between the semicolons of a body. -/
def bodyClauses (body : List Char) : List (List Char) :=
  ((body.splitOn ';').map trim).filter (· ≠ [])

def readKeyClauses (body : List Char) : Reading KeyClauses := do
  let (body, found) := takeComment body
  let start : KeyClauses := { spec := { comment := comment found } }
  (bodyClauses body).foldlM KeyClauses.read start

def readSet (scope : Scope) (rest : List Char) : Reading NamedSet := do
  let target ← readTarget rest
  let clauses ← readKeyClauses target.body
  pure
    { scope, name := target.name, spec := clauses.spec, autoMerge := clauses.autoMerge
      handle := target.handle }

def readMap (scope : Scope) (rest : List Char) : Reading NamedMap := do
  let target ← readTarget rest
  let clauses ← readKeyClauses target.body
  if clauses.autoMerge = none then
    pure { scope, name := target.name, spec := clauses.spec, handle := target.handle }
  else .error .autoMerge

def readFlowtable (scope : Scope) (rest : List Char) : Reading Flowtable := do
  let target ← readTarget rest
  pure
    { scope, name := target.name
      priority := (find? readIngressClause target.body).map String.ofList
      devices := ((find? readDevicesClause target.body).map commaList).getD []
      handle := target.handle }

def readCounter (scope : Scope) (rest : List Char) : Reading Counter := do
  let target ← readTarget rest
  let (body, found) := takeComment target.body
  let counter : Counter :=
    { scope, name := target.name, comment := comment found, handle := target.handle }
  match find? readCountClause body with
  | none => pure counter
  | some (packets, bytes) => do
    let packets ← number .packets packets
    let bytes ← number .bytes bytes
    pure { counter with packets := some packets, bytes := some bytes }

/-! ## Rules -/

/-- The value of a keyword at the front of a rule, and what follows it. -/
def readPosition? (keyword : String) (s : List Char) : Option (List Char × List Char) := do
  let (value, rest) := splitOnce ' ' (← expect " " (← expect keyword s))
  pure (value, trim rest)

/-- The rule that a command places its own at, by index or by handle, and the text behind. -/
def readReference (s : List Char) : Reading (Option Nat × Option Nat × List Char) :=
  match readPosition? "index" s with
  | some (value, rest) => do
    let index ← number .index value
    pure (some index, none, rest)
  | none =>
    match readPosition? "handle" s with
    | some (value, rest) => do
      let number ← handle value
      pure (none, some number, rest)
    | none => pure (none, none, s)

def readRule (scope : Scope) (rest : List Char) : Reading Rule := do
  let (chain, text) := splitOnce ' ' rest
  if chain = [] then .error .chainMissing else do
    let (index, handle, text) ← readReference (trim text)
    let (body, found) := splitComment text
    pure
      { scope, chain := String.ofList chain, body := String.ofList body, comment := comment found
        index, handle }

/-! ## Elements -/

/-- A name in front of ` { … }`, and what stands between the spaces inside the braces. -/
def readElementBody? (rest : List Char) : Option (List Char × List Char) := do
  let (name, s) ← readWord rest
  let body ← dropSuffix? " \x7d".toList (← expect " \x7b " s)
  pure (name, body)

/-- The parts of a concatenated key or value. -/
def splitParts (s : List Char) : List String :=
  (splitText " . ".toList s).map String.ofList

/--
An element. With a value it belongs to a map; without one, as in a `delete`, it belongs to a map
if `isMap` knows the name as one, and else to a set.
-/
def readElement (isMap : String → Bool) (scope : Scope) (rest : List Char) : Reading Element := do
  let (name, body) ← orFault (.element (String.ofList rest)) (readElementBody? rest)
  let name := String.ofList name
  match splitMapValue? body with
  | some (key, found, value) =>
    pure
      { scope, map := some name, key := splitParts key, value := splitParts value
        comment := comment found }
  | none =>
    let (key, found) := splitComment body
    -- without a value, nothing in the line tells a map from a set
    let element : Element := { scope, key := splitParts key, comment := comment found }
    pure
      (if isMap name then { element with map := some name }
        else { element with set := some name })

end Nftables.Command
