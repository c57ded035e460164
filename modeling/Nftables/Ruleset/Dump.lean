import Nftables.Object.Command
import Nftables.Ruleset.State

/-!
# The dump

A ruleset as a command file: for each table the table itself, then its flowtables, chains, sets,
maps and counters by name, then the rules of each chain and the elements of each set and map. What
is referred to thus comes before what refers to it. Handles are not written.
-/

namespace Nftables

namespace TableState

/-- The objects of a table that are known by name, the table first. -/
def declarations (t : TableState) : List Object :=
  .table t.table ::
  (t.flowtables.values.map .flowtable ++
    t.chains.values.map (fun c => .chain c.chain) ++
    t.sets.values.map (fun s => .set s.set) ++
    t.maps.values.map (fun m => .map m.map) ++
    t.counters.values.map .counter)

/-- The rules and elements of a table. -/
def contents (t : TableState) : List Object :=
  t.chains.values.flatMap (fun c => c.rules.map .rule) ++
    t.sets.values.flatMap (fun s => s.elements.map .element) ++
    t.maps.values.flatMap (fun m => m.elements.map .element)

/-- All objects of a table in the order of the dump, as they are stored. -/
def objects (t : TableState) : List Object := t.declarations ++ t.contents

end TableState

namespace Ruleset

/-- All objects of the ruleset in the order of the dump, as they are stored. -/
def objects (r : Ruleset) : List Object := r.listing.flatMap TableState.objects

/-- The command file that builds the ruleset. -/
def dump (r : Ruleset) : String :=
  String.join (r.objects.map fun o => o.eraseHandle.command .add)

end Ruleset

end Nftables
