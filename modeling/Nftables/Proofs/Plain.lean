import Mathlib.Tactic.MkIffOfInductiveProp
import Nftables.Proofs.Parts

/-!
# Plain rulesets

The dump is a text, and a few texts do not survive it: a name with a blank in it ends at the blank,
a semicolon in a key type ends the clause, a rule that ends like a comment loses its end. A ruleset
is plain if none of its texts is of that kind. Numbers that are written are numbers of 64 bits.

Every field is here for a reason that can be tried out, and the conditions are as weak as the reader
allows: a comment may be anything that is written without escapes by number, a rule may hold quotes
and semicolons as long as it does not begin or end like something else, and the elements of a set
may have parts with spaces in them. Flags and devices go between commas or braces, hence `BareWord`;
the key types go up to a semicolon, hence `Clean`.

All of it can be decided, so a ruleset is tested for it by evaluation. `Unmixed` is not about texts:
an element of a container says by its line only the name of it, so no set may share its name with a
map. Both are the hypotheses under which a dump is read back.
-/

namespace Nftables

open Text Clause

/-! ## Texts and numbers -/

/-- A name that stands in a line as one word, and not in the place of a keyword. -/
def PlainName (name : String) : Prop := Word name.toList ∧ name ≠ "handle"

instance (name : String) : Decidable (PlainName name) := inferInstanceAs (Decidable (_ ∧ _))

def PlainComment (comment : Option String) : Prop :=
  ∀ c ∈ comment, ∀ d ∈ c.toList, Escapable d

instance (comment : Option String) : Decidable (PlainComment comment) :=
  inferInstanceAs (Decidable (∀ _ ∈ _, _))

/-- A span of whole seconds. -/
def PlainDuration (d : Duration) : Prop := d.nanos = 0 ∧ d.secs ≤ maxWord

instance (d : Duration) : Decidable (PlainDuration d) := inferInstanceAs (Decidable (_ ∧ _))

/-! ## Objects -/

@[mk_iff]
structure Chain.Plain (c : Chain) : Prop where
  name : PlainName c.name
  device : ∀ d ∈ c.device, BareWord d.toList
  comment : PlainComment c.comment

instance (c : Chain) : Decidable c.Plain := decidable_of_iff _ (Chain.plain_iff c).symm

@[mk_iff]
structure Rule.Plain (r : Rule) : Prop where
  nonempty : r.body.toList ≠ []
  trimmed : Trimmed r.body.toList
  line : '\n' ∉ r.body.toList
  /-- The rule does not begin with a keyword for its place. -/
  front : r.body.toList.takeWhile (· ≠ ' ') ∉ ["index".toList, "handle".toList]
  comment : PlainComment r.comment
  bare : r.comment = none → ¬ EndsInComment r.body.toList

instance (r : Rule) : Decidable r.Plain := decidable_of_iff _ (Rule.plain_iff r).symm

@[mk_iff]
structure KeySpec.Plain (spec : KeySpec) : Prop where
  keyType : ∀ t ∈ spec.keyType, Clean t
  typeOf : ∀ t ∈ spec.typeOf, Clean t
  flags : ∀ f ∈ spec.flags, BareWord f.toList
  timeout : ∀ d ∈ spec.timeout, PlainDuration d
  gcInterval : ∀ d ∈ spec.gcInterval, PlainDuration d
  size : ∀ n ∈ spec.size, n ≤ maxWord
  comment : PlainComment spec.comment

instance (spec : KeySpec) : Decidable spec.Plain := decidable_of_iff _ (KeySpec.plain_iff spec).symm

@[mk_iff]
structure NamedSet.Plain (s : NamedSet) : Prop where
  name : PlainName s.name
  spec : s.spec.Plain
  /-- That elements are not merged cannot be said in a command. -/
  autoMerge : s.autoMerge ≠ some false

instance (s : NamedSet) : Decidable s.Plain := decidable_of_iff _ (NamedSet.plain_iff s).symm

@[mk_iff]
structure NamedMap.Plain (m : NamedMap) : Prop where
  name : PlainName m.name
  spec : m.spec.Plain

instance (m : NamedMap) : Decidable m.Plain := decidable_of_iff _ (NamedMap.plain_iff m).symm

/-- The key and the value are plain, whatever the comment says. -/
@[mk_iff]
structure Element.PlainParts (e : Element) : Prop where
  key : ∀ p ∈ e.key, PlainPart p
  value : ∀ p ∈ e.value, PlainPart p

instance (e : Element) : Decidable e.PlainParts :=
  decidable_of_iff _ (Element.plainParts_iff e).symm

@[mk_iff]
structure Element.Plain (e : Element) : Prop where
  key : ∀ p ∈ e.key, PlainPart p
  value : ∀ p ∈ e.value, PlainPart p
  comment : PlainComment e.comment

instance (e : Element) : Decidable e.Plain := decidable_of_iff _ (Element.plain_iff e).symm

theorem Element.Plain.parts {e : Element} (hp : e.Plain) : e.PlainParts := ⟨hp.key, hp.value⟩

@[mk_iff]
structure Flowtable.Plain (f : Flowtable) : Prop where
  name : PlainName f.name
  devices : ∀ d ∈ f.devices, BareWord d.toList

instance (f : Flowtable) : Decidable f.Plain := decidable_of_iff _ (Flowtable.plain_iff f).symm

@[mk_iff]
structure Counter.Plain (c : Counter) : Prop where
  name : PlainName c.name
  packets : ∀ n ∈ c.packets, n ≤ maxWord
  bytes : ∀ n ∈ c.bytes, n ≤ maxWord
  comment : PlainComment c.comment

instance (c : Counter) : Decidable c.Plain := decidable_of_iff _ (Counter.plain_iff c).symm

/-! ## Tables -/

@[mk_iff]
structure TableState.Plain (key : TableKey) (t : TableState) : Prop where
  name : PlainName key.name
  comment : PlainComment t.table.comment
  flowtables : t.flowtables.All fun _ f => f.Plain
  chains : t.chains.All fun _ c => c.chain.Plain ∧ ∀ r ∈ c.rules, r.Plain
  sets : t.sets.All fun _ s => s.set.Plain ∧ ∀ e ∈ s.elements, e.Plain
  maps : t.maps.All fun _ m => m.map.Plain ∧ ∀ e ∈ m.elements, e.Plain
  counters : t.counters.All fun _ c => c.Plain

instance (key : TableKey) (t : TableState) : Decidable (t.Plain key) :=
  decidable_of_iff _ (TableState.plain_iff key t).symm

/-- No text of the ruleset is lost or changed in its dump. -/
def Ruleset.Plain (r : Ruleset) : Prop := r.tables.All fun key t => t.Plain key

instance (r : Ruleset) : Decidable r.Plain := inferInstanceAs (Decidable (r.tables.All _))

/-- No name is that of a set and of a map. -/
def TableState.Unmixed (t : TableState) : Prop :=
  t.maps.All fun name _ => t.sets.contains name = false

instance (t : TableState) : Decidable t.Unmixed := inferInstanceAs (Decidable (t.maps.All _))

def Ruleset.Unmixed (r : Ruleset) : Prop := r.tables.All fun _ t => t.Unmixed

instance (r : Ruleset) : Decidable r.Unmixed := inferInstanceAs (Decidable (r.tables.All _))

end Nftables
