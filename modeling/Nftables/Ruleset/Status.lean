import Nftables.Object.Command
import Nftables.Ruleset.State

/-!
# Object counts

How many objects of each kind a table holds, and the report of these counts.
-/

namespace Nftables

structure TableStatus where
  name : String
  family : String
  chains : Nat
  rules : Nat
  sets : Nat
  maps : Nat
  elements : Nat
  flowtables : Nat
  counters : Nat
deriving DecidableEq, Repr

def TableState.status (t : TableState) : TableStatus where
  name := t.table.scope.table.getD ""
  family := familyText t.table.scope.family
  chains := t.chains.size
  rules := t.ruleCount
  sets := t.sets.size
  maps := t.maps.size
  elements := t.elementCount
  flowtables := t.flowtables.size
  counters := t.counters.size

/-- The counts of all tables, in the order of the dump. -/
def Ruleset.status (r : Ruleset) : List TableStatus := r.listing.map TableState.status

namespace TableStatus

/-- The lines on one table. Flowtables and counters are left out where there are none. -/
def report (s : TableStatus) : String :=
  s!"  • {s.name} ({s.family})\n    Chains: {s.chains}, Rules: {s.rules}\n" ++
  s!"    Sets: {s.sets}, Maps: {s.maps}, Elements: {s.elements}\n" ++
  if s.flowtables > 0 ∨ s.counters > 0 then
    s!"    Flowtables: {s.flowtables}, Counters: {s.counters}\n"
  else ""

/-- The report on all tables. -/
def reportAll (tables : List TableStatus) : String :=
  s!"🔥 nftables ({tables.length}):\n" ++ (if tables = [] then "  (none)\n" else "") ++
    String.join (tables.map report)

end TableStatus

end Nftables
