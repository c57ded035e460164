import Nftables.Object
import Nftables.SortedMap

/-!
# The committed state

The ruleset holds tables in the order in which they are listed, and each table holds its chains,
sets, maps, flowtables and counters by name. Rules stand in a chain and elements in a set or map
in the order that commands gave them.
-/

namespace Nftables

/-! ## Tables are ordered by the name of their family, then by their own -/

/-- What a table is stored under. -/
structure TableKey where
  family : Family
  name : String
deriving DecidableEq, Repr

/--
Tables are ordered as they are listed, so that the ruleset can be read off in its own order. Which
order a store keeps does not matter beyond that: sorting any enumeration of the tables by this one
gives the listing (`Ruleset.mergeSort_eq_listing`).
-/
instance : Ord TableKey where
  compare := compareLex (compareOn fun k => k.family.name) (compareOn fun k => k.name)

instance : Std.TransOrd TableKey :=
  inferInstanceAs (Std.TransCmp (compareLex (compareOn _) (compareOn _)))

/-- A key as it is shown in messages. -/
def TableKey.text (k : TableKey) : String := s!"{k.family.name} {k.name}"

/-! ## What a table owns -/

/-- A chain with its rules. -/
structure ChainState where
  chain : Chain
  rules : List Rule := []
deriving DecidableEq

/-- A set with its elements. -/
structure SetState where
  set : NamedSet
  elements : List Element := []
deriving DecidableEq

/-- A map with its elements. -/
structure MapState where
  map : NamedMap
  elements : List Element := []
deriving DecidableEq

/-- A table and all that it owns. -/
structure TableState where
  table : Table
  flowtables : SortedMap String Flowtable := ∅
  chains : SortedMap String ChainState := ∅
  sets : SortedMap String SetState := ∅
  maps : SortedMap String MapState := ∅
  counters : SortedMap String Counter := ∅
deriving DecidableEq

namespace ChainState

/-- The chain without its rules. -/
def flush (c : ChainState) : ChainState := { c with rules := [] }

end ChainState

/-- The set without its elements. -/
def SetState.flush (s : SetState) : SetState := { s with elements := [] }

/-- The map without its elements. -/
def MapState.flush (m : MapState) : MapState := { m with elements := [] }

namespace TableState

/-- The table without any rules and elements. The objects themselves stay. -/
def flush (t : TableState) : TableState :=
  { t with
    chains := t.chains.map ChainState.flush
    sets := t.sets.map SetState.flush
    maps := t.maps.map MapState.flush }

/-- The number of rules in all chains. -/
def ruleCount (t : TableState) : Nat := (t.chains.values.flatMap ChainState.rules).length

/-- The number of elements in all sets and maps. -/
def elementCount (t : TableState) : Nat :=
  (t.sets.values.flatMap SetState.elements).length +
    (t.maps.values.flatMap MapState.elements).length

end TableState

/-! ## The ruleset -/

structure Ruleset where
  tables : SortedMap TableKey TableState := ∅
deriving DecidableEq

namespace Ruleset

instance : Inhabited Ruleset := ⟨{}⟩

def table? (r : Ruleset) (family : Family) (name : String) : Option TableState :=
  r.tables.get? ⟨family, name⟩

/-- The tables in the order in which dumps, counts and queries go through them. -/
def listing (r : Ruleset) : List TableState := r.tables.values

end Ruleset

/-! ## Elements by key -/

namespace Elements

/-- The element of a list with exactly this key. -/
def find? (key : List String) (elements : List Element) : Option Element :=
  elements.find? (·.key = key)

/-- Puts an element in the place of the one with its key, or at the end. -/
def write (e : Element) : List Element → List Element
  | [] => [e]
  | d :: rest => if d.key = e.key then e :: rest else d :: write e rest

/-- Takes the element with this key out. -/
def erase (key : List String) (elements : List Element) : List Element :=
  elements.eraseP (·.key = key)

end Elements

end Nftables
