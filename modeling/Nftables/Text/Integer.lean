/-!
# Reading integers

A decimal integer of a fixed range: an optional sign and at least one ASCII digit. Digits are
read from the left, so the first one that is out of place or leads out of the range decides the
fault.
-/

namespace Nftables.Text

/-- Why a text is no integer of the range. -/
inductive IntegerFault
  | empty
  | invalidDigit
  | tooLarge
  | tooSmall
deriving DecidableEq, Repr

def IntegerFault.message : IntegerFault → String
  | .empty => "cannot parse integer from empty string"
  | .invalidDigit => "invalid digit found in string"
  | .tooLarge => "number too large to fit in target type"
  | .tooSmall => "number too small to fit in target type"

/-- The value of an ASCII digit. -/
def digitValue? (c : Char) : Option Nat :=
  if c.isDigit then some (c.toNat - '0'.toNat) else none

/-- Reads digits after the value `acc`; `beyond` is the fault of a value above `limit`. -/
def readDigits (limit : Nat) (beyond : IntegerFault) (acc : Nat) :
    List Char → Except IntegerFault Nat
  | [] => .ok acc
  | c :: r =>
    match digitValue? c with
    | none => .error .invalidDigit
    | some d =>
      if limit < 10 * acc + d then .error beyond else readDigits limit beyond (10 * acc + d) r

/-- At least one digit, of a value up to `limit`. -/
def readMagnitude (limit : Nat) (beyond : IntegerFault) : List Char → Except IntegerFault Nat
  | [] => .error .invalidDigit
  | s => readDigits limit beyond 0 s

/-- A natural number up to `limit`, with an optional plus sign. -/
def readNat (limit : Nat) : List Char → Except IntegerFault Nat
  | [] => .error .empty
  | '+' :: r => readMagnitude limit .tooLarge r
  | s => readMagnitude limit .tooLarge s

/-- An integer between `-(limit + 1)` and `limit`, with an optional sign. -/
def readInt (limit : Nat) : List Char → Except IntegerFault Int
  | [] => .error .empty
  | '+' :: r => (readMagnitude limit .tooLarge r).map Int.ofNat
  | '-' :: r => (readMagnitude (limit + 1) .tooSmall r).map fun n => -Int.ofNat n
  | s => (readMagnitude limit .tooLarge s).map Int.ofNat

/-- The largest number of 64 bits. -/
def maxWord : Nat := 0xffffffffffffffff

/-- The largest signed number of 32 bits. -/
def maxInt32 : Nat := 0x7fffffff

/-- A number of 64 bits: handles, sizes, positions, counts and seconds. -/
def readWord? (s : List Char) : Option Nat :=
  (readNat maxWord s).toOption

/-- A signed number of 32 bits: priorities. -/
def readInt32 (s : List Char) : Except IntegerFault Int :=
  readInt maxInt32 s

end Nftables.Text
