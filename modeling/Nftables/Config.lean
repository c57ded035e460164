import Nftables.Object
import Nftables.Text.Split

/-!
# The settings of an engine

The table that the engine is bound to, how it destroys, and its defines. A define gives a value to
a name, and `$name` in the text of an object stands for that value.
-/

namespace Nftables

/-! ## Defines -/

structure Define where
  name : String
  value : String
deriving DecidableEq, Repr, Inhabited

/-- The text with each occurrence of the define's reference replaced. -/
def Define.substitute (d : Define) (s : List Char) : List Char :=
  Text.replaceText ('$' :: d.name.toList) d.value.toList s

/--
The text with the references to all defines replaced, one define after the other, so that a
reference inside a value is replaced by a later define.
-/
def substituteDefines (defines : List Define) (s : List Char) : List Char :=
  defines.foldl (fun text d => d.substitute text) s

/-- Substitution in a stored text. -/
def substituteIn (defines : List Define) (s : String) : String :=
  String.ofList (substituteDefines defines s.toList)

/-! ## Settings -/

structure Config where
  family : Option Family := none
  table : Option String := none
  /-- A `destroy` is run as an `add` and a `delete`. -/
  emulateDestroy : Bool := false
  defines : List Define := []
deriving DecidableEq, Repr, Inhabited

/-- The scope of objects that leave theirs open. -/
def Config.scope (c : Config) : Scope := { family := c.family, table := c.table }

/-- The defines that every engine of the family has. -/
def Family.defines : Family → List Define
  | .ip => [⟨"IP", "ip"⟩, ⟨"INET_ADDR", "ipv4_addr"⟩]
  | .ip6 => [⟨"IP", "ip6"⟩, ⟨"INET_ADDR", "ipv6_addr"⟩]
  | _ => []

/-- The defines of the family, followed by those of the settings. -/
def Config.effectiveDefines (c : Config) : List Define :=
  (c.family.map Family.defines).getD [] ++ c.defines

end Nftables
