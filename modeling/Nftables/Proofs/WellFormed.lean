import Nftables.Proofs.History

/-!
# The shape of the committed ruleset

What the checks promise when an object is queued, the ruleset keeps: every object stands under its
own name in its own table, and is as the checks of its kind want it. `WellFormed` says so layer by
layer; it holds of the empty ruleset and every accepted operation preserves it.

The checks are made on an object by itself, and the ruleset stores it under a key. So the conditions
have two parts: what the checks say, as in `OneType` or `PriorityFits`, and that the object agrees
with the place it is found at, in its name and in its scope. The second part is what the dump relies
on. A line is written from the object alone, without a look at the keys, and still it leads back to
the same place.

Some of it no check promises. A stored object has a handle, a counter has its numbers and a rule has
no index because the commands see to it when they store the object. They also put the values of
defines into texts that have been checked, so a condition is kept only if it does not depend on what
these say: a value with parts still has parts, even if all of them are empty now.
-/

namespace Nftables

/-- The scope of what stands in the table. -/
def TableKey.scope (key : TableKey) : Scope := { family := key.family, table := key.name }

theorem TableKey.scope_injective : Function.Injective TableKey.scope := by
  rintro ⟨family, name⟩ ⟨family', name'⟩ h
  cases h
  rfl

/-! ## Well-formed objects -/

structure Flowtable.WellFormed (key : TableKey) (name : String) (f : Flowtable) : Prop where
  scope : f.scope = key.scope
  named : f.name = name ∧ name ≠ ""
  priority : PriorityFits key.family f.priority
  handle : f.handle.isSome

structure Chain.WellFormed (key : TableKey) (name : String) (c : Chain) : Prop where
  scope : c.scope = key.scope
  named : c.name = name ∧ name ≠ ""
  /-- The type, the hook and the priority. -/
  attached : c.AllOrNone
  device : c.DeviceFits
  priority : PriorityFits key.family c.priority
  handle : c.handle.isSome

/-- The rule stands in the chain that it names. -/
structure Rule.WellFormed (key : TableKey) (chain : String) (r : Rule) : Prop where
  scope : r.scope = key.scope
  chain : r.chain = chain
  index : r.index = none
  handle : r.handle.isSome

structure ChainState.WellFormed (key : TableKey) (name : String) (c : ChainState) : Prop where
  chain : c.chain.WellFormed key name
  rules : ∀ r ∈ c.rules, r.WellFormed key name

structure NamedSet.WellFormed (key : TableKey) (name : String) (s : NamedSet) : Prop where
  scope : s.scope = key.scope
  named : s.name = name ∧ name ≠ ""
  type : s.spec.OneType
  handle : s.handle.isSome

structure NamedMap.WellFormed (key : TableKey) (name : String) (m : NamedMap) : Prop where
  scope : m.scope = key.scope
  named : m.name = name ∧ name ≠ ""
  type : m.spec.OneType
  handle : m.handle.isSome

/-- An element of the set `name`. -/
structure Element.InSet (key : TableKey) (name : String) (e : Element) : Prop where
  scope : e.scope = key.scope
  set : e.set = some name
  map : e.map = none
  value : e.value = []

/-- An element of the map `name`. -/
structure Element.InMap (key : TableKey) (name : String) (e : Element) : Prop where
  scope : e.scope = key.scope
  set : e.set = none
  map : e.map = some name
  value : e.value ≠ []

/-- Every element has a key of its own. -/
structure Elements.Keyed (elements : List Element) : Prop where
  keys : ∀ e ∈ elements, e.key ≠ []
  distinct : (elements.map Element.key).Nodup

structure SetState.WellFormed (key : TableKey) (name : String) (s : SetState) : Prop where
  set : s.set.WellFormed key name
  elements : ∀ e ∈ s.elements, e.InSet key name
  keyed : Elements.Keyed s.elements

structure MapState.WellFormed (key : TableKey) (name : String) (m : MapState) : Prop where
  map : m.map.WellFormed key name
  elements : ∀ e ∈ m.elements, e.InMap key name
  keyed : Elements.Keyed m.elements

structure Counter.WellFormed (key : TableKey) (name : String) (c : Counter) : Prop where
  scope : c.scope = key.scope
  named : c.name = name ∧ name ≠ ""
  counts : c.packets.isSome ∧ c.bytes.isSome
  handle : c.handle.isSome

structure Table.WellFormed (key : TableKey) (t : Table) : Prop where
  scope : t.scope = key.scope
  named : key.name ≠ ""
  handle : t.handle.isSome

structure TableState.WellFormed (key : TableKey) (t : TableState) : Prop where
  table : t.table.WellFormed key
  flowtables : t.flowtables.All fun name f => f.WellFormed key name
  chains : t.chains.All fun name c => c.WellFormed key name
  sets : t.sets.All fun name s => s.WellFormed key name
  maps : t.maps.All fun name m => m.WellFormed key name
  counters : t.counters.All fun name c => c.WellFormed key name

/-- Every object of the ruleset stands where it says, and is as the checks of its kind want it. -/
def Ruleset.WellFormed (r : Ruleset) : Prop := r.tables.All fun key t => t.WellFormed key

/-! ## Elements -/

namespace Elements

theorem mem_write {d e : Element} {elements : List Element} (h : d ∈ write e elements) :
    d = e ∨ d ∈ elements := by
  induction elements with
  | nil => exact .inl (List.mem_singleton.mp h)
  | cons f rest ih =>
    rw [write] at h
    split at h
    · exact (List.mem_cons.mp h).imp id (List.mem_cons_of_mem f)
    · rcases List.mem_cons.mp h with rfl | h
      · exact .inr List.mem_cons_self
      · exact (ih h).imp id (List.mem_cons_of_mem f)

/-- Writing an element adds its key at the end, unless it is there. -/
theorem map_key_write (e : Element) (elements : List Element) :
    (write e elements).map Element.key = if e.key ∈ elements.map Element.key
      then elements.map Element.key else elements.map Element.key ++ [e.key] := by
  induction elements with
  | nil => rfl
  | cons d rest ih =>
    rw [write]
    by_cases hk : d.key = e.key
    · rw [if_pos hk, List.map_cons, List.map_cons, hk, if_pos List.mem_cons_self]
    · rw [if_neg hk, List.map_cons, List.map_cons, ih]
      -- the head has another key
      have hiff : e.key ∈ d.key :: rest.map Element.key ↔ e.key ∈ rest.map Element.key :=
        List.mem_cons.trans (or_iff_right fun h => hk h.symm)
      by_cases hmem : e.key ∈ rest.map Element.key
      · rw [if_pos hmem, if_pos (hiff.mpr hmem)]
      · rw [if_neg hmem, if_neg (mt hiff.mp hmem)]
        rfl

theorem nodup_key_write {e : Element} {elements : List Element}
    (h : (elements.map Element.key).Nodup) : ((write e elements).map Element.key).Nodup := by
  rw [map_key_write]
  split
  · exact h
  · rename_i hmem
    refine List.nodup_append.mpr ⟨h, List.pairwise_singleton _ _, ?_⟩
    intro a ha b hb hab
    cases List.mem_singleton.mp hb
    exact hmem (hab ▸ ha)

namespace Keyed

theorem nil : Keyed [] := ⟨by simp, .nil⟩

theorem write {e : Element} {elements : List Element} (h : Keyed elements) (he : e.key ≠ []) :
    Keyed (Elements.write e elements) := by
  constructor
  · intro d hd
    rcases mem_write hd with rfl | hd
    · exact he
    · exact h.keys d hd
  · exact nodup_key_write h.distinct

theorem erase {key : List String} {elements : List Element} (h : Keyed elements) :
    Keyed (Elements.erase key elements) := by
  have hsub : (Elements.erase key elements).Sublist elements := List.eraseP_sublist
  exact ⟨fun e he => h.keys e (hsub.subset he), h.distinct.sublist (hsub.map _)⟩

end Keyed

variable {verb : Verb} {e : Element} {elements elements' : List Element}

theorem Effect.keyed (he : Effect elements verb e elements') (hk : e.key ≠ [])
    (h : Keyed elements) : Keyed elements' := by
  cases he with
  | write hv hp => exact h.write hk
  | erase hv => exact h.erase

/-- Every element of the result was there or has been written. -/
theorem Effect.all {P : Element → Prop} (he : Effect elements verb e elements')
    (h : ∀ d ∈ elements, P d) (hnew : verb.Puts → P e) : ∀ d ∈ elements', P d := by
  cases he with
  | write hv hp =>
    intro d hd
    rcases mem_write hd with rfl | hd
    · exact hnew hv
    · exact h d hd
  | erase hv => exact fun d hd => h d (List.eraseP_sublist.subset hd)

end Elements

/-! ## Rules -/

/-- Every rule of the result was there, or has been written with a number of its own. -/
theorem ChainState.RulesEffect.all {rules rules' : List Rule} {verb : Verb} {r : Rule}
    {handle : Nat} {P : Rule → Prop} (he : RulesEffect rules verb r handle rules')
    (h : ∀ d ∈ rules, P d)
    (hnew : ∀ n : Option Nat, (n = some handle ∨ ∃ d ∈ rules, n = d.handle) →
      P { r with index := none, handle := n }) : ∀ d ∈ rules', P d := by
  cases he with
  | place i hv hi =>
    intro d hd
    rcases (List.mem_insertIdx hi).mp hd with rfl | hd
    · exact hnew _ (.inl rfl)
    · exact h d hd
  | replace i hv hi =>
    intro d hd
    -- the rules in front of it and behind it are the old ones
    rw [List.modify_eq_take_cons_drop hi] at hd
    rcases List.mem_append.mp hd with hd | hd
    · exact h d (List.mem_of_mem_take hd)
    · rcases List.mem_cons.mp hd with rfl | hd
      · exact hnew _ (.inr ⟨_, List.getElem_mem hi, rfl⟩)
      · exact h d (List.mem_of_mem_drop hd)
  | remove i hv hi => exact fun d hd => h d (List.mem_of_mem_eraseIdx hd)

/-! ## Tables -/

/-- Substitution leaves alone how many types are given. -/
theorem KeySpec.OneType.substitute {spec : KeySpec} {defines : List Define} (h : spec.OneType) :
    (spec.substitute defines).OneType := by
  unfold KeySpec.OneType KeySpec.substitute at *
  simpa using h

namespace TableState

variable {defines : List Define} {verb : Verb} {handle : Nat} {key : TableKey}

theorem WellFormed.flush {t : TableState} (h : t.WellFormed key) : t.flush.WellFormed key where
  table := h.table
  flowtables := h.flowtables
  chains := SortedMap.all_map h.chains fun _ _ hc => ⟨hc.chain, by simp [ChainState.flush]⟩
  sets := SortedMap.all_map h.sets fun _ _ hs => ⟨hs.set, by simp [SetState.flush], .nil⟩
  maps := SortedMap.all_map h.maps fun _ _ hm => ⟨hm.map, by simp [MapState.flush], .nil⟩
  counters := h.counters

variable {t t' : TableState} {o : Object}

/-- **What a command does inside a table keeps the table well-formed.** -/
theorem Effect.wellFormed (he : t.Effect defines verb handle o t') (h : t.WellFormed key)
    (hs : o.scope = key.scope) (hv : o.validateKind verb = .ok ()) : t'.WellFormed key := by
  have hfamily : o.scope.family = some key.family := by
    rw [hs]
    rfl
  cases he with
  | chain c chains he =>
    refine ⟨h.table, h.flowtables, ?_, h.sets, h.maps, h.counters⟩
    -- a chain that is put has no rules yet, one that is flushed has none left
    refine he.all h.chains (fun hp => ⟨?_, by simp⟩) ?_
    · obtain ⟨hattached, hdevice⟩ := Chain.shape_of_validate hv
      have hpriority := Chain.priority_of_validate hfamily hv
      exact ⟨hs, ⟨rfl, Chain.name_of_validate hp hv⟩, hattached, hdevice, hpriority, rfl⟩
    · rintro f (hf | hf) name c hc <;> cases hf
      exact ⟨hc.chain, by simp [ChainState.flush]⟩
  | rule r c rules hc href he =>
    refine ⟨h.table, h.flowtables, ?_, h.sets, h.maps, h.counters⟩
    refine SortedMap.all_modify h.chains fun d hd => ?_
    have hrules := (h.chains _ c hc).rules
    refine ⟨(h.chains _ d hd).chain, he.all hrules fun n hn => ⟨hs, rfl, rfl, ?_⟩⟩
    -- the rule's number is the one drawn, or that of the rule it stands for
    rcases hn with rfl | ⟨d, hd, rfl⟩
    · rfl
    · exact (hrules d hd).handle
  | set s sets he =>
    refine ⟨h.table, h.flowtables, h.chains, ?_, h.maps, h.counters⟩
    refine he.all h.sets (fun hp => ⟨?_, by simp, .nil⟩) ?_
    · obtain ⟨hname, htype⟩ := KeySpec.facts_of_validate hp hv
      exact ⟨hs, ⟨rfl, hname⟩, htype.substitute, rfl⟩
    · rintro f (hf | hf) name s hs <;> cases hf
      exact ⟨hs.set, by simp [SetState.flush], .nil⟩
  | map m maps he =>
    refine ⟨h.table, h.flowtables, h.chains, h.sets, ?_, h.counters⟩
    refine he.all h.maps (fun hp => ⟨?_, by simp, .nil⟩) ?_
    · obtain ⟨hname, htype⟩ := KeySpec.facts_of_validate hp hv
      exact ⟨hs, ⟨rfl, hname⟩, htype.substitute, rfl⟩
    · rintro f (hf | hf) name m hm <;> cases hf
      exact ⟨hm.map, by simp [MapState.flush], .nil⟩
  | setElement e name s elements hn hc href he =>
    refine ⟨h.table, h.flowtables, h.chains, ?_, h.maps, h.counters⟩
    refine SortedMap.all_modify h.sets fun d hd => ?_
    have hold := h.sets _ s hc
    obtain ⟨hone, hkey⟩ := Element.shape_of_validate hv
    refine ⟨(h.sets _ d hd).set, he.all hold.elements fun hp => ?_, he.keyed ?_ hold.keyed⟩
    · -- the check that refuses two containers leaves no map beside the set
      have hmap : e.map = none := by
        cases hm : e.map with
        | none => rfl
        | some m => exact absurd ⟨by simp [hn], by simp [hm]⟩ hone
      have hvalue := (Element.value_of_validate hp hv).2 (by simp [hn])
      exact ⟨hs, hn, hmap, by rw [Element.substitute, hvalue]; rfl⟩
    · exact fun hnil => hkey (List.map_eq_nil_iff.mp hnil)
  | mapElement e name m elements hset hn hc href he =>
    refine ⟨h.table, h.flowtables, h.chains, h.sets, ?_, h.counters⟩
    refine SortedMap.all_modify h.maps fun d hd => ?_
    have hold := h.maps _ m hc
    obtain ⟨-, hkey⟩ := Element.shape_of_validate hv
    refine ⟨(h.maps _ d hd).map, he.all hold.elements fun hp => ?_, he.keyed ?_ hold.keyed⟩
    · -- substitution changes the parts of a value, and not how many there are
      have hvalue := (Element.value_of_validate hp hv).1 (by simp [hn])
      exact ⟨hs, hset, hn, fun hnil => hvalue (List.map_eq_nil_iff.mp hnil)⟩
    · exact fun hnil => hkey (List.map_eq_nil_iff.mp hnil)
  | flowtable f flowtables he =>
    refine ⟨h.table, ?_, h.chains, h.sets, h.maps, h.counters⟩
    refine he.all h.flowtables (fun hp => ?_) fun f hf => by rcases hf with hf | hf <;> cases hf
    have hpriority := Flowtable.priority_of_validate hfamily hv
    exact ⟨hs, ⟨rfl, Flowtable.name_of_validate hp hv⟩, hpriority, rfl⟩
  | counter c counters he =>
    refine ⟨h.table, h.flowtables, h.chains, h.sets, h.maps, ?_⟩
    refine he.all h.counters (fun hp => ?_) ?_
    · exact ⟨hs, ⟨rfl, Counter.name_of_validate hp hv⟩, ⟨rfl, rfl⟩, rfl⟩
    · rintro f (hf | hf) name c hc <;> cases hf
      exact ⟨hc.scope, hc.named, ⟨rfl, rfl⟩, hc.handle⟩

end TableState

/-! ## The ruleset -/

namespace Ruleset

theorem wellFormed_empty : ({} : Ruleset).WellFormed := SortedMap.all_empty

/-- **Every accepted operation keeps the ruleset well-formed.** -/
theorem wellFormed_preserved (defines : List Define) :
    Preserved defines fun r _ => r.WellFormed where
  rise h := h
  step := by
    intro r r' last op h hv hs
    cases step_effect hs with
    | table t family tables ho hf he =>
      rw [ho] at hv
      refine he.all h (fun hp => ?_) ?_
      · have hne : op.verb ≠ .delete := by rcases hp with hp | hp <;> simp [hp]
        obtain ⟨family', name, hscope, hname⟩ := Object.scope_of_validate hne hv
        -- a table stands under its own scope, and it begins empty
        obtain ⟨scope, comment, handle⟩ := t
        cases hscope
        cases hf
        exact ⟨⟨rfl, hname, rfl⟩, SortedMap.all_empty, SortedMap.all_empty, SortedMap.all_empty,
          SortedMap.all_empty, SortedMap.all_empty⟩
      · rintro f (hf | hf) key t ht <;> cases hf
        exact ht.flush
    | inside key t t' hscope ht he =>
      refine SortedMap.all_modify h fun _ _ => ?_
      exact he.wellFormed (h key t ht) hscope (Object.validateKind_of_validate hv)

end Ruleset

namespace Engine

/-- **The committed ruleset is well-formed after every history.** -/
theorem ruleset_wellFormed (config : Config) (calls : List Call) :
    ((ofConfig config).after calls).ruleset.WellFormed :=
  preserved_after (Ruleset.wellFormed_preserved _) calls Ruleset.wellFormed_empty

end Engine

end Nftables
