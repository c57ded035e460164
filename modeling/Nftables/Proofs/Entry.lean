import Nftables.Proofs.Handles
import Nftables.Proofs.Reading.Bare

/-!
# The entries of a table

A table keeps five kinds of objects by name, each kind for itself. Here they are looked at as one:
an entry is what is kept under a kind and a name, an object with what it contains. An operation
inside a table is about one entry, which it names, or finds by its handle.

`TableState.get?` is the one place where the five shelves are told apart. `Shows` says that a shelf
holds the entries of its kind, and `ChangesKind` that a table differs from another on that shelf
alone; each is shown once for every shelf, and what follows is said of an entry, whatever its kind.

`Targets` needs a case for handles, since a `delete` with a handle may name one object and hit
another. That there is never more than one target comes from the handles: no two objects of a
ruleset that is `Numbered` have the same. Which entry is hit is the subject of the frame conditions;
that a deletion takes away just that entry, of the module on deletions.
-/

namespace Nftables

/-- What a table keeps under a kind and a name. -/
inductive Entry
  | flowtable (f : Flowtable)
  | chain (c : ChainState)
  | set (s : SetState)
  | map (m : MapState)
  | counter (c : Counter)

namespace Entry

/-- The entry without what it contains. -/
def object : Entry → Object
  | .flowtable f => .flowtable f
  | .chain c => .chain c.chain
  | .set s => .set s.set
  | .map m => .map m.map
  | .counter c => .counter c

/-- The rules of a chain, the elements of a set or map. -/
def contents : Entry → List Object
  | .chain c => c.rules.map .rule
  | .set s => s.elements.map .element
  | .map m => m.elements.map .element
  | .flowtable _ | .counter _ => []

end Entry

/-- The kind and the name of the entry that the object is, or that it belongs to. -/
def Object.entryName? : Object → Option (Kind × String)
  | .table _ => none
  | .chain c => some (.chain, c.name)
  | .rule x => some (.chain, x.chain)
  | .set s => some (.set, s.name)
  | .map m => some (.map, m.name)
  | .element e => (e.set.map fun name => (.set, name)).or (e.map.map fun name => (.map, name))
  | .flowtable f => some (.flowtable, f.name)
  | .counter c => some (.counter, c.name)

namespace TableState

/-- The entry of this kind and name. Rules and elements are no entries of their own. -/
def get? (t : TableState) (kind : Kind) (name : String) : Option Entry :=
  match kind with
  | .flowtable => (t.flowtables.get? name).map .flowtable
  | .chain => (t.chains.get? name).map .chain
  | .set => (t.sets.get? name).map .set
  | .map => (t.maps.get? name).map .map
  | .counter => (t.counters.get? name).map .counter
  | .table | .rule | .element => none

/-- The objects of a shelf are the entries of their kind. -/
structure Shows {σ : Type} (t : TableState) (kind : Kind) (m : SortedMap String σ)
    (entry : σ → Entry) : Prop where
  get? : ∀ name, t.get? kind name = (m.get? name).map entry

theorem Shows.entry {σ : Type} {t : TableState} {kind : Kind} {m : SortedMap String σ}
    {entry : σ → Entry} (h : t.Shows kind m entry) {name : String} {a : σ}
    (ha : m.get? name = some a) : t.get? kind name = some (entry a) := by
  rw [h.get?, ha]
  rfl

section Shelves

variable (t : TableState)

theorem shows_flowtables : t.Shows .flowtable t.flowtables .flowtable := ⟨fun _ => rfl⟩

theorem shows_chains : t.Shows .chain t.chains .chain := ⟨fun _ => rfl⟩

theorem shows_sets : t.Shows .set t.sets .set := ⟨fun _ => rfl⟩

theorem shows_maps : t.Shows .map t.maps .map := ⟨fun _ => rfl⟩

theorem shows_counters : t.Shows .counter t.counters .counter := ⟨fun _ => rfl⟩

end Shelves

/-- The tables differ in nothing but what they keep of one kind: `m`, and `m'` afterwards. -/
structure ChangesKind {σ : Type} (t t' : TableState) (kind : Kind) (m m' : SortedMap String σ)
    (entry : σ → Entry) : Prop where
  before : t.Shows kind m entry
  after : t'.Shows kind m' entry
  table : t'.table = t.table
  others : ∀ k ≠ kind, ∀ name, t'.get? k name = t.get? k name

section Fields

variable (t : TableState)

theorem changes_flowtables (flowtables : SortedMap String Flowtable) :
    t.ChangesKind { t with flowtables } .flowtable t.flowtables flowtables .flowtable :=
  ⟨t.shows_flowtables, shows_flowtables _, rfl, fun k hk _ => by cases k <;> trivial⟩

theorem changes_chains (chains : SortedMap String ChainState) :
    t.ChangesKind { t with chains } .chain t.chains chains .chain :=
  ⟨t.shows_chains, shows_chains _, rfl, fun k hk _ => by cases k <;> trivial⟩

theorem changes_sets (sets : SortedMap String SetState) :
    t.ChangesKind { t with sets } .set t.sets sets .set :=
  ⟨t.shows_sets, shows_sets _, rfl, fun k hk _ => by cases k <;> trivial⟩

theorem changes_maps (maps : SortedMap String MapState) :
    t.ChangesKind { t with maps } .map t.maps maps .map :=
  ⟨t.shows_maps, shows_maps _, rfl, fun k hk _ => by cases k <;> trivial⟩

theorem changes_counters (counters : SortedMap String Counter) :
    t.ChangesKind { t with counters } .counter t.counters counters .counter :=
  ⟨t.shows_counters, shows_counters _, rfl, fun k hk _ => by cases k <;> trivial⟩

end Fields

/--
The entry that an operation inside the table is about: the one that its object names, or for a
`delete` with a handle the one that has the handle, whatever name is given. The handle of a rule is
not that of an entry.
-/
inductive Targets (t : TableState) (verb : Verb) (o : Object) : Kind → String → Prop
  | named (kind : Kind) (name : String) (ho : o.entryName? = some (kind, name))
    (hv : verb = .delete → o.name? = none ∨ o.handle = none) : Targets t verb o kind name
  | handled (name : String) (n : Nat) (e : Entry) (hv : verb = .delete) (hn : o.handle = some n)
    (he : t.get? o.kind name = some e) (hen : e.object.handle = some n) :
    Targets t verb o o.kind name

end TableState

/-! ## Entries and handles -/

/-- The key that is found is that of an entry that passes the test. -/
theorem SortedMap.get?_of_findKey? {κ α : Type} [Ord κ] [Std.LawfulEqOrd κ] {m : SortedMap κ α}
    {p : κ → α → Bool} {k : κ} (h : m.findKey? p = some k) :
    ∃ v, m.get? k = some v ∧ p k v = true := by
  obtain ⟨e, hfind, rfl⟩ := Option.map_eq_some_iff.mp h
  have htest : p e.1 e.2 = true := List.find?_some (p := fun e : κ × α => p e.1 e.2) hfind
  exact ⟨e.2, mem_entries_iff.mp (List.mem_of_find?_eq_some hfind), htest⟩

/-- Where no key is found, no entry passes the test. -/
theorem SortedMap.not_of_findKey? {κ α : Type} [Ord κ] [Std.LawfulEqOrd κ] {m : SortedMap κ α}
    {p : κ → α → Bool} (h : m.findKey? p = none) {k : κ} {v : α} (hv : m.get? k = some v) :
    p k v = false := by
  have hnone := List.find?_eq_none.mp (Option.map_eq_none_iff.mp h) (k, v) (mem_entries_iff.mpr hv)
  exact Bool.eq_false_iff.mpr hnone

/-- A key that is resolved is the command's own, or it leads to the handle that is given. -/
theorem Shelf.resolve_eq_ok {κ σ : Type} [Ord κ] [Std.LawfulEqOrd κ] {s : Shelf κ σ}
    {m : SortedMap κ σ} {among : κ → Bool} {verb : Verb} {key k : κ} {given : Option Nat}
    (h : s.resolve m among verb key given = .ok k) :
    ((verb = .delete → given = none) ∧ k = key) ∨
      ∃ n a, verb = .delete ∧ given = some n ∧ m.get? k = some a ∧ among k = true ∧
        s.handle a = some n := by
  unfold resolve at h
  split at h
  · rename_i n
    split at h
    · rename_i k' hfind
      cases h
      obtain ⟨a, ha, hp⟩ := SortedMap.get?_of_findKey? hfind
      rw [Bool.and_eq_true, decide_eq_true_iff] at hp
      exact .inr ⟨n, a, rfl, rfl, ha, hp.1, hp.2⟩
    · cases h
  · rename_i hother
    cases h
    -- nothing but a `delete` with a handle looks for a key
    refine .inl ⟨?_, rfl⟩
    rintro rfl
    cases hg : given with
    | none => rfl
    | some n => exact absurd hg (hother n rfl)

namespace TableState

variable {t : TableState} {kind : Kind} {name : String} {e : Entry}

theorem name?_of_get? {o : Object} (h : t.get? o.kind name = some e) : o.name? ≠ none := by
  cases o with
  | table | rule | element => cases h
  | _ => exact Option.some_ne_none _

/-- An entry has its handle in the list, with its place. -/
theorem mem_handles_of_get? (key : TableKey) (h : t.get? kind name = some e) :
    (⟨kind, key, name⟩, e.object.handle) ∈ t.handles key := by
  -- what a shelf holds stands in the list of that shelf; the kind says which of the lists it is
  have hheld : ∀ {σ : Type} {s : Shelf String σ} {m : SortedMap String σ} {a : σ},
      m.get? name = some a → (⟨s.kind, key, name⟩, s.handle a) ∈ m.collect (s.held key) :=
    fun ha => SortedMap.mem_collect.mpr ⟨name, _, ha, List.mem_singleton_self _⟩
  simp only [handles, List.mem_cons, List.mem_append]
  cases kind with
  | table | rule | element => cases h
  | flowtable =>
    obtain ⟨f, hf, rfl⟩ := Option.map_eq_some_iff.mp h
    exact .inr (.inl (.inl (.inl (.inl (.inl (hheld (s := flowtableShelf) hf))))))
  | chain =>
    obtain ⟨c, hc, rfl⟩ := Option.map_eq_some_iff.mp h
    exact .inr (.inl (.inl (.inl (.inl (.inr (hheld (s := chainShelf) hc))))))
  | set =>
    obtain ⟨s, hs, rfl⟩ := Option.map_eq_some_iff.mp h
    exact .inr (.inl (.inl (.inl (.inr (hheld (s := setShelf) hs)))))
  | map =>
    obtain ⟨m, hm, rfl⟩ := Option.map_eq_some_iff.mp h
    exact .inr (.inl (.inl (.inr (hheld (s := mapShelf) hm))))
  | counter =>
    obtain ⟨c, hc, rfl⟩ := Option.map_eq_some_iff.mp h
    exact .inr (.inl (.inr (hheld (s := counterShelf) hc)))

end TableState

namespace Ruleset

variable {r : Ruleset} {last : Nat}

theorem mem_handles {key : TableKey} {t : TableState} (ht : r.tables.get? key = some t)
    {x : Place × Option Nat} (hx : x ∈ t.handles key) : x ∈ r.handles :=
  SortedMap.mem_collect.mpr ⟨key, t, ht, hx⟩

/-- A handle is that of one object only. -/
theorem Numbered.place_unique (h : r.Numbered last) {p q : Place} {n : Nat}
    (hp : (p, some n) ∈ r.handles) (hq : (q, some n) ∈ r.handles) : p = q :=
  congrArg Prod.fst (List.inj_on_of_nodup_map h.distinct hp hq rfl)

/-- A handle is that of one entry only. -/
theorem Numbered.entry_unique (h : r.Numbered last) {key : TableKey} {t : TableState}
    (ht : r.tables.get? key = some t) {kind : Kind} {n₁ n₂ : String} {e₁ e₂ : Entry} {n : Nat}
    (h₁ : t.get? kind n₁ = some e₁) (h₂ : t.get? kind n₂ = some e₂)
    (hn₁ : e₁.object.handle = some n) (hn₂ : e₂.object.handle = some n) : n₁ = n₂ := by
  have hp := mem_handles ht (TableState.mem_handles_of_get? key h₁)
  have hq := mem_handles ht (TableState.mem_handles_of_get? key h₂)
  rw [hn₁] at hp
  rw [hn₂] at hq
  exact congrArg Place.name (h.place_unique hp hq)

/-- A handle is that of one table only. -/
theorem Numbered.table_unique (h : r.Numbered last) {k₁ k₂ : TableKey} {t₁ t₂ : TableState}
    {n : Nat} (h₁ : r.tables.get? k₁ = some t₁) (h₂ : r.tables.get? k₂ = some t₂)
    (hn₁ : t₁.table.handle = some n) (hn₂ : t₂.table.handle = some n) : k₁ = k₂ := by
  have hp : (⟨.table, k₁, k₁.name⟩, some n) ∈ r.handles :=
    mem_handles h₁ (hn₁ ▸ List.mem_cons_self)
  have hq : (⟨.table, k₂, k₂.name⟩, some n) ∈ r.handles :=
    mem_handles h₂ (hn₂ ▸ List.mem_cons_self)
  exact congrArg Place.table (h.place_unique hp hq)

/-- An operation inside a table is about one entry. -/
theorem Numbered.targets_unique (h : r.Numbered last) {key : TableKey} {t : TableState}
    (ht : r.tables.get? key = some t) {verb : Verb} {o : Object} {k₁ k₂ : Kind} {n₁ n₂ : String}
    (h₁ : t.Targets verb o k₁ n₁) (h₂ : t.Targets verb o k₂ n₂) : k₁ = k₂ ∧ n₁ = n₂ := by
  -- what has a handle and is looked up by it has a name of its own
  have hclash : ∀ {n : Nat} {e : Entry} {name : String}, verb = .delete → o.handle = some n →
      t.get? o.kind name = some e → ¬ (verb = .delete → o.name? = none ∨ o.handle = none) := by
    intro n e name hv hn he h
    rcases h hv with hnone | hnone
    · exact TableState.name?_of_get? he hnone
    · cases hn.symm.trans hnone
  cases h₁ with
  | named _ _ ho₁ hv₁ =>
    cases h₂ with
    | named _ _ ho₂ hv₂ => exact Prod.mk.inj (Option.some.inj (ho₁.symm.trans ho₂))
    | handled _ n e hv hn he hen => exact absurd hv₁ (hclash hv hn he)
  | handled _ n e hv hn he hen =>
    cases h₂ with
    | named _ _ ho₂ hv₂ => exact absurd hv₂ (hclash hv hn he)
    | handled _ n' e' hv' hn' he' hen' =>
      cases hn.symm.trans hn'
      -- both are found by the same handle, which only one entry has
      exact ⟨rfl, h.entry_unique ht he he' hen hen'⟩

end Ruleset

end Nftables
