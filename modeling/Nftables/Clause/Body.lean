import Nftables.Clause.Comment
import Nftables.Text.CharClass

/-!
# Braced bodies and their clauses

The parts that the lines of chains, sets, maps, flowtables and counters are made of: a name with a
body in braces, and the clauses that are looked for inside a body. Such a clause is found at the
first place where it reads as a whole.
-/

namespace Nftables.Clause

/-- What follows the fixed text `p`. -/
def expect (p : String) (s : List Char) : Option (List Char) :=
  p.toList.isPrefixOf? s

/-- A longest run of characters of one class, which is not empty, and what follows. -/
def readRun (p : Char → Bool) (s : List Char) : Option (List Char × List Char) :=
  match s.takeWhile p with
  | [] => none
  | run => some (run, s.dropWhile p)

/-- A word: a longest run without blanks. -/
def readWord : List Char → Option (List Char × List Char) :=
  readRun (!Text.isBlank ·)

/-- The text without one space at its front and one at its end. -/
def unpad (s : List Char) : List Char :=
  let s := (expect " " s).getD s
  (Text.dropSuffix? [' '] s).getD s

/-- The body in `rest`, which is all that stands behind a name: nothing, or ` { … }`. -/
def readBody (rest : List Char) : Option (List Char) :=
  match rest with
  | [] => some []
  | _ => do
    let inside ← expect " \x7b" rest
    let body ← Text.dropSuffix? ['\x7d'] inside
    pure (unpad body)

/-- A name and its braced body, which is empty where there is none. -/
def readNameAndBody (s : List Char) : Option (List Char × List Char) := do
  let (name, rest) ← readWord s
  let body ← readBody rest
  pure (name, body)

/-- What attaches a base chain to its hook, as words. -/
structure HookClause where
  chainType : List Char
  hook : List Char
  device : Option (List Char)
  priority : List Char

/-- A device in quotes, if one stands here. It runs to the next quote, escaped or not. -/
def readDevice (s : List Char) : Option (List Char) × List Char :=
  match (expect " device \"" s).bind (Text.splitOnce? '"') with
  | some (device, rest) => (some device, rest)
  | none => (none, s)

/-- `type T hook H [device "D"] priority P ;` -/
def readHookClause (s : List Char) : Option HookClause := do
  let (chainType, s) ← readWord (← expect "type " s)
  let (hook, s) ← readWord (← expect " hook " s)
  let (device, s) := readDevice s
  let (priority, s) ← readWord (← expect " priority " s)
  let _ ← expect " ;" s
  pure { chainType, hook, device, priority }

/-- `hook ingress priority P ;` -/
def readIngressClause (s : List Char) : Option (List Char) := do
  let (priority, s) ← readWord (← expect "hook ingress priority " s)
  let _ ← expect " ;" s
  pure priority

/-- `devices = { … }`, where the list runs to the first closing brace. -/
def readDevicesClause (s : List Char) : Option (List Char) := do
  let (list, _) ← Text.splitOnce? '\x7d' (← expect "devices = \x7b " s)
  Text.dropSuffix? [' '] list

/-- `packets N bytes M ;` -/
def readCountClause (s : List Char) : Option (List Char × List Char) := do
  let (packets, s) ← readRun Text.isDecimalDigit (← expect "packets " s)
  let (bytes, s) ← readRun Text.isDecimalDigit (← expect " bytes " s)
  let _ ← expect " ;" s
  pure (packets, bytes)

/-- What `read` finds at the first place in the body where it reads. -/
def find? {α : Type} (read : List Char → Option α) (body : List Char) : Option α :=
  (Text.findFirst? read body).map (·.2)

/-- The parts of a list with commas, without the blanks around them. -/
def commaList (s : List Char) : List String :=
  (s.splitOn ',').map fun part => String.ofList (Text.trim part)

end Nftables.Clause
