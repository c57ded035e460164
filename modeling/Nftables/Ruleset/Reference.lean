import Nftables.Error
import Nftables.Ruleset.State
import Nftables.Text.Blank

/-!
# References

Which other objects a rule's body or a map's value refers to. The text is looked at word by word:
`@name` refers to a set or map, after `map` or `vmap` to a map and after `offload` to a flowtable;
the word behind `jump` or `goto` is a chain. The words of quoted texts count like all others.
-/

namespace Nftables

/-- An object of the same table that a text names. -/
inductive Reference
  | map (name : String)
  | flowtable (name : String)
  | setOrMap (name : String)
  | chain (name : String)
deriving DecidableEq, Repr

namespace Reference

/-- The reference that a name after `@` makes, given the word before it. -/
def ofSigil (before : Option (List Char)) (name : String) : Reference :=
  if before = some "map".toList ∨ before = some "vmap".toList then .map name
  else if before = some "offload".toList then .flowtable name
  else .setOrMap name

/-- A name after `@` refers to an object unless it is empty or ends in a comma. -/
def sigil? (before : Option (List Char)) (name : List Char) : Option Reference :=
  if name = [] ∨ name.getLast? = some ',' then none
  else some (ofSigil before (String.ofList name))

/-- A chain's name in a list of targets, without the commas behind it. -/
def chainName (word : List Char) : String :=
  String.ofList (word.reverse.dropWhile (· = ',')).reverse

/-- The reference that one word makes, given its neighbours. -/
def ofWord? (before : Option (List Char)) (word : List Char) (after : Option (List Char)) :
    Option Reference :=
  match word with
  | '@' :: name => sigil? before name
  | _ =>
    if word = "jump".toList ∨ word = "goto".toList then after.map fun w => .chain (chainName w)
    else none

/-- The references of a list of words, the first of which follows `before`. -/
def ofWords (before : Option (List Char)) : List (List Char) → List Reference
  | [] => []
  | w :: rest => (ofWord? before w rest.head?).toList ++ ofWords (some w) rest

/-- The references that a text makes, in order. -/
def ofText (text : String) : List Reference := ofWords none (Text.words text.toList)

/-- The table holds what is referred to. -/
def resolvesIn (t : TableState) : Reference → Bool
  | .map name => t.maps.contains name
  | .flowtable name => t.flowtables.contains name
  | .setOrMap name => t.sets.contains name || t.maps.contains name
  | .chain name => t.chains.contains name

/-- What is missing if the reference does not resolve. -/
def missing : Reference → Missing
  | .map name => .object .map name
  | .flowtable name => .object .flowtable name
  | .setOrMap name => .setOrMap name
  | .chain name => .object .chain name

end Reference

/-- All references of the text resolve in the table; else the first that does not is missing. -/
def TableState.checkReferences (t : TableState) (text : String) : Except Error Unit :=
  match (Reference.ofText text).find? fun r => !r.resolvesIn t with
  | some r => .error (.notFound r.missing)
  | none => .ok ()

end Nftables
