import Nftables.Text.Integer
import Nftables.Text.Quoted
import Nftables.Vocabulary

/-!
# Priorities

The order of base chains and flowtables at one hook. A priority is written as a number, as one of
the family's named priorities, or as a named one with a signed offset, such as `srcnat+1`.
-/

namespace Nftables

/-- Why a text is no priority of a family. -/
inductive PriorityFault
  | offset (text : String) (fault : Text.IntegerFault)
  | unknownName (text : String)
  | outOfRange (text : String)
deriving DecidableEq, Repr

def PriorityFault.message : PriorityFault → String
  | .offset text fault => s!"could not parse modifier {Text.quote text}: {fault.message}"
  | .unknownName text => s!"unknown priority {Text.quote text}"
  | .outOfRange text => s!"priority {Text.quote text} is out of range"

namespace Priority

/-- The named priorities of a family. -/
def named : Family → List (String × Int)
  | .bridge => [("dstnat", -300), ("filter", -200), ("out", 100), ("srcnat", 300)]
  | _ =>
    [("raw", -300), ("mangle", -150), ("dstnat", -100), ("filter", 0), ("security", 50),
     ("srcnat", 100)]

def isSign (c : Char) : Bool := c = '+' || c = '-'

/-- A priority is a signed number of 32 bits. -/
def InRange (v : Int) : Prop := -(Text.maxInt32 + 1 : Int) ≤ v ∧ v ≤ Text.maxInt32

instance (v : Int) : Decidable (InRange v) := inferInstanceAs (Decidable (_ ∧ _))

/-- The offset after a name: nothing, or a signed number. -/
def readOffset : List Char → Except PriorityFault Int
  | [] => .ok 0
  | s => (Text.readInt32 s).mapError (.offset (String.ofList s))

/-- A name of the family, up to the first sign, and the offset from there. -/
def readNamed (family : Family) (s : List Char) : Except PriorityFault Int := do
  -- the offset comes first: its fault is reported even where the name is unknown
  let offset ← readOffset (s.dropWhile (!isSign ·))
  let name := String.ofList (s.takeWhile (!isSign ·))
  match (named family).lookup name with
  | none => .error (.unknownName name)
  | some base =>
    if InRange (base + offset) then .ok (base + offset) else .error (.outOfRange (String.ofList s))

/-- The number that a priority stands for. A text that is a number as a whole is that number. -/
def read (family : Family) (s : List Char) : Except PriorityFault Int :=
  match Text.readInt32 s with
  | .ok value => .ok value
  | .error _ => readNamed family s

end Priority

end Nftables
