import Nftables.Text.Integer
import Nftables.Text.Split

/-!
# Addresses and networks

Internet addresses as rules contain them. An IPv6 address is written in lower case with its longest
run of at least two zero groups, the first of equals, shortened to `::`; the form with a dotted
tail is kept for mapped IPv4 addresses. An address on its own is read more strictly than the address
of a network.
-/

namespace Nftables

inductive Address
  /-- Four octets. -/
  | v4 (octets : List Nat)
  /-- Eight groups of sixteen bits. -/
  | v6 (groups : List Nat)
deriving DecidableEq, Repr

namespace Address

open Text

/-! ## Reading -/

/-- How an address may be spelled. -/
inductive Spelling
  /-- No octet has a leading zero, and `::` stands for a zero group at least. -/
  | strict
  /-- Octets may be padded with zeros, and `::` may stand for no group at all. -/
  | loose
deriving DecidableEq, Repr

/-- The most groups that may be given around a `::`. -/
def Spelling.mostAround : Spelling → Nat
  | .strict => 7
  | .loose => 8

/-- One to three decimal digits that make a number up to 255. -/
def readDigits? (s : List Char) : Option Nat :=
  if s.all Char.isDigit ∧ s.length ≤ 3 then (readNat 255 s).toOption else none

def readOctet? (spelling : Spelling) (s : List Char) : Option Nat :=
  if spelling = .strict ∧ s.head? = some '0' ∧ s.length ≠ 1 then none else readDigits? s

def readOctets? (spelling : Spelling) (s : List Char) : Option (List Nat) := do
  let octets ← (s.splitOn '.').mapM (readOctet? spelling)
  if octets.length = 4 then some octets else none

/-- The value of a hexadecimal digit of either case. -/
def hexValue? (c : Char) : Option Nat :=
  if c.isDigit then some (c.toNat - '0'.toNat)
  else if 'a' ≤ c ∧ c ≤ 'f' then some (c.toNat - 'a'.toNat + 10)
  else if 'A' ≤ c ∧ c ≤ 'F' then some (c.toNat - 'A'.toNat + 10)
  else none

/-- A group: one to four hexadecimal digits. -/
def readGroup? (s : List Char) : Option Nat :=
  if s = [] ∨ 4 < s.length then none
  else (s.mapM hexValue?).map (·.foldl (fun n d => 16 * n + d) 0)

/-- The two groups that four octets make. -/
def groupsOfOctets : List Nat → List Nat
  | [a, b, c, d] => [256 * a + b, 256 * c + d]
  | _ => []

/-- Groups between colons. The last piece may be dotted if a spelling for it is given. -/
def readGroups? (dotted : Option Spelling) : List (List Char) → Option (List Nat)
  | [] => some []
  | [last] =>
    match dotted.bind (readOctets? · last) with
    | some octets => some (groupsOfOctets octets)
    | none => (readGroup? last).map ([·])
  | piece :: rest => do
    let group ← readGroup? piece
    let groups ← readGroups? dotted rest
    some (group :: groups)

/-- The pieces between colons, of which an empty text has none. -/
def pieces (s : List Char) : List (List Char) := if s = [] then [] else s.splitOn ':'

/-- Eight groups, or groups around one `::` that stands for the zero groups left out. -/
def readGroupsOfEight? (spelling : Spelling) (s : List Char) : Option (List Nat) :=
  match splitText "::".toList s with
  | [whole] => do
    let groups ← readGroups? (some spelling) (pieces whole)
    if groups.length = 8 then some groups else none
  | [front, back] => do
    let front ← readGroups? none (pieces front)
    let back ← readGroups? (some spelling) (pieces back)
    let given := front.length + back.length
    if front.length < 8 ∧ given ≤ spelling.mostAround then
      some (front ++ List.replicate (8 - given) 0 ++ back)
    else none
  | _ => none

def readAs? (spelling : Spelling) (s : List Char) : Option Address :=
  match readOctets? spelling s with
  | some octets => some (.v4 octets)
  | none => (readGroupsOfEight? spelling s).map .v6

/-- An address that stands on its own. -/
def read? (s : List Char) : Option Address := readAs? .strict s

/-! ## Writing -/

def octetsText (octets : List Nat) : String := ".".intercalate (octets.map toString)

def groupText (group : Nat) : String := String.ofList (Nat.toDigits 16 group)

def groupsText (groups : List Nat) : String := ":".intercalate (groups.map groupText)

/-- The number of zero groups at the front. -/
def zeroRun (groups : List Nat) : Nat := (groups.takeWhile (· = 0)).length

/-- The longest run of zero groups, by its start and its length; the first of equals. -/
def longestZeroRun (groups : List Nat) : Nat × Nat :=
  (List.range groups.length).foldl
    (fun best i =>
      let run := zeroRun (groups.drop i)
      if best.2 < run then (i, run) else best)
    (0, 0)

def text : Address → String
  | .v4 octets => octetsText octets
  | .v6 [0, 0, 0, 0, 0, 65535, g, h] =>
    "::ffff:" ++ octetsText [g / 256, g % 256, h / 256, h % 256]
  | .v6 groups =>
    let (start, run) := longestZeroRun groups
    if run ≤ 1 then groupsText groups
    else groupsText (groups.take start) ++ "::" ++ groupsText (groups.drop (start + run))

/-- The number of bits of an address of this form. -/
def width : Address → Nat
  | .v4 _ => 32
  | .v6 _ => 128

end Address

/-- An address and the number of its leading bits that matter. The others are kept. -/
structure Network where
  address : Address
  bits : Nat
deriving DecidableEq, Repr

namespace Network

def read? (s : List Char) : Option Network := do
  let (address, bits) ← Text.splitOnce? '/' s
  let address ← Address.readAs? .loose address
  let bits ← Address.readDigits? bits
  if bits ≤ address.width then some ⟨address, bits⟩ else none

def text (n : Network) : String := s!"{n.address.text}/{n.bits}"

end Network

end Nftables
