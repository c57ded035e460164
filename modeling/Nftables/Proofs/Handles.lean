import Mathlib.Data.List.Nodup
import Nftables.Proofs.History
import Nftables.Ruleset.Dump

/-!
# Handles

Every object but an element has a handle, and one counter gives them all out. The handles of a
ruleset are listed with the places of their objects; a step adds at most one pair to this list, with
the number that was drawn for it, so no number is ever held twice and none comes back.

A list of pairs and not a map from numbers to places: that a number has one place is what is to be
shown, so it cannot be built in. The list of a later ruleset is not one of the earlier list with a
pair at its end either, since objects come in between others and go. What can be said is how often
each pair occurs, and that is compared shelf by shelf (`count_held_le`, `count_handles_le`) until
`handles_subperm` says it of the whole list.

From there it is arithmetic of the counter. `Numbered`, that the numbers are distinct and at most
the last one given out, is preserved because a new number lies above it; and `KeepsTo`, that up to
some bound nothing has come back since, for the same reason. Deleting by handle, renaming handles
and the frame of an operation all rest on `Numbered`.
-/

namespace Nftables

/-- Where an object stands: its kind, its table, and its name or, for a rule, its chain's. -/
structure Place where
  kind : Kind
  table : TableKey
  name : String
deriving DecidableEq, Repr

/-- A named object of a table contributes its handle. -/
def Shelf.held {σ : Type} (s : Shelf String σ) (key : TableKey) (name : String) (a : σ) :
    List (Place × Option Nat) :=
  [(⟨s.kind, key, name⟩, s.handle a)]

namespace TableState

/-- The handles of the rules of a chain. -/
def ruleHandles (key : TableKey) (name : String) (c : ChainState) : List (Place × Option Nat) :=
  c.rules.map fun r => (⟨.rule, key, name⟩, r.handle)

/-- The handles of a table and of all that it owns. -/
def handles (key : TableKey) (t : TableState) : List (Place × Option Nat) :=
  (⟨.table, key, key.name⟩, t.table.handle) ::
  (t.flowtables.collect (flowtableShelf.held key) ++
    t.chains.collect (chainShelf.held key) ++
    t.sets.collect (setShelf.held key) ++
    t.maps.collect (mapShelf.held key) ++
    t.counters.collect (counterShelf.held key) ++
    t.chains.collect (ruleHandles key))

end TableState

namespace Ruleset

/-- The handles of the ruleset, each with the place of its object. -/
def handles (r : Ruleset) : List (Place × Option Nat) := r.tables.collect TableState.handles

end Ruleset

/-! ## The list leaves out no object -/

namespace SortedMap

variable {κ α β γ : Type} [Ord κ]

theorem collect_map (m : SortedMap κ α) (f : α → γ) (view : κ → γ → List β) :
    (m.map f).collect view = m.collect fun k v => view k (f v) := by
  rw [collect, map, List.flatMap_map]
  rfl

/-- A change that the view does not see. -/
theorem collect_modify_eq {m : SortedMap κ α} {k : κ} {f : α → α} (view : κ → α → List β)
    (h : ∀ k v, view k (f v) = view k v) : (m.modify k f).collect view = m.collect view := by
  simp only [collect, modify, Entries.modify, List.flatMap_map]
  refine List.flatMap_congr fun e _ => ?_
  split
  · exact h e.1 e.2
  · rfl

end SortedMap

theorem Shelf.map_snd_held {σ : Type} (s : Shelf String σ) (key : TableKey)
    (m : SortedMap String σ) : (m.collect (s.held key)).map Prod.snd = m.values.map s.handle := by
  rw [SortedMap.collect, SortedMap.values, List.map_flatMap, List.map_map]
  exact List.map_eq_flatMap.symm

theorem TableState.map_snd_handles (key : TableKey) (t : TableState) :
    (t.handles key).map Prod.snd
      = (t.objects.filter fun o => o.kind ≠ .element).map Object.handle := by
  have hrules : (t.chains.collect (ruleHandles key)).map Prod.snd
      = t.chains.values.flatMap fun c => c.rules.map Rule.handle := by
    rw [SortedMap.collect, SortedMap.values, List.map_flatMap, List.flatMap_map]
    simp only [ruleHandles, List.map_map, Function.comp_def]
  -- the rules of the chains come last in both lists; the elements are the ones filtered out
  simp only [handles, objects, declarations, contents, List.map_cons, List.map_append,
    Shelf.map_snd_held, hrules]
  simp [List.filter_flatMap, List.filter_map, List.map_flatMap, Object.kind, Function.comp_def,
    Object.handle, flowtableShelf, chainShelf, setShelf, mapShelf, counterShelf]

/-- Every object but the elements has its handle in the list. -/
theorem Ruleset.map_snd_handles (r : Ruleset) :
    r.handles.map Prod.snd = (r.objects.filter fun o => o.kind ≠ .element).map Object.handle := by
  rw [handles, objects, listing, SortedMap.collect, SortedMap.values, List.map_flatMap,
    List.flatMap_map, List.filter_flatMap, List.map_flatMap]
  exact List.flatMap_congr fun e _ => TableState.map_snd_handles e.1 e.2

/-! ## What a step adds -/

/-- What was drawn for a step: the number under its place, if its verb takes one. -/
def drawn (verb : Verb) (place : Place) (handle : Nat) : List (Place × Option Nat) :=
  if verb.allocates then [(place, some handle)] else []

theorem count_drawn (verb : Verb) (place : Place) (handle : Nat) (x : Place × Option Nat) :
    (drawn verb place handle).count x
      = if verb.allocates then [(place, some handle)].count x else 0 := by
  unfold drawn
  split <;> rfl

/-- Of the named objects, only one that is put holds the number. -/
theorem Shelf.Effect.count_held_le {σ : Type} {s : Shelf String σ} {m m' : SortedMap String σ}
    {among : String → Bool} {verb : Verb} {name : String} {given : Option Nat} {new : σ}
    {handle : Nat} (he : s.Effect m among verb name given new m')
    (hnew : s.handle new = some handle)
    (hchange : ∀ f, s.Changes f → ∀ a, s.handle (f a) = s.handle a) (key : TableKey)
    (x : Place × Option Nat) :
    (m'.collect (s.held key)).count x
      ≤ (m.collect (s.held key)).count x + (drawn verb ⟨s.kind, key, name⟩ handle).count x := by
  have hle := he.count_le (s.held key) x fun f hf k a =>
    Nat.le_of_eq (by rw [held, held, hchange f hf a])
  have hheld : s.held key name new = [(⟨s.kind, key, name⟩, some handle)] := by
    unfold held
    rw [hnew]
  rw [count_drawn, ← hheld]
  exact hle

/-- A placed rule holds the number that was drawn; one that stands for another keeps its number. -/
theorem ChainState.RulesEffect.count_le {rules rules' : List Rule} {verb : Verb} {r : Rule}
    {handle : Nat} (he : RulesEffect rules verb r handle rules') (place : Place)
    (x : Place × Option Nat) :
    (rules'.map fun r => (place, r.handle)).count x
      ≤ (rules.map fun r => (place, r.handle)).count x + (drawn verb place handle).count x := by
  cases he with
  | place i hv hi =>
    have halloc : verb.allocates = true := by rcases hv with rfl | rfl <;> rfl
    have hperm := (List.perm_insertIdx { r with index := none, handle := some handle } rules hi).map
      fun r => (place, r.handle)
    -- where the rule is placed does not matter for what is counted
    refine Nat.le_of_eq ?_
    rw [hperm.count_eq, count_drawn, if_pos halloc, List.map_cons, List.count_cons,
      List.count_singleton]
  | replace i hv hi =>
    -- the rule that is replaced hands its number on
    have heq : (rules.modify i fun old => { r with index := none, handle := old.handle }).map
        (fun r => (place, r.handle)) = rules.map fun r => (place, r.handle) := by
      conv => rhs; rw [← List.take_append_drop i rules, List.drop_eq_getElem_cons hi]
      rw [List.modify_eq_take_cons_drop hi, List.map_append, List.map_append]
      rfl
    rw [heq]
    exact Nat.le_add_right _ _
  | remove i hv hi =>
    have hsub := (List.eraseIdx_sublist rules i).map fun r => (place, r.handle)
    exact Nat.le_trans (hsub.count_le x) (Nat.le_add_right _ _)

namespace TableState

variable {defines : List Define} {verb : Verb} {handle : Nat} {t t' : TableState} {o : Object}

/-- Flushing takes rules out, and gives no object another handle. -/
theorem handles_flush (key : TableKey) (t : TableState) :
    t.handles key = t.flush.handles key ++ t.chains.collect (ruleHandles key) := by
  have hrules : (t.chains.map ChainState.flush).collect (ruleHandles key) = [] := by
    rw [SortedMap.collect_map, SortedMap.collect, List.flatMap_eq_nil_iff]
    exact fun e _ => rfl
  rw [handles, handles, flush, hrules, List.append_nil, SortedMap.collect_map,
    SortedMap.collect_map, SortedMap.collect_map]
  rfl

/-- **A step inside a table adds at most the pair of its number.** -/
theorem Effect.count_handles_le (he : t.Effect defines verb handle o t') (key : TableKey) :
    ∃ place, ∀ x, (t'.handles key).count x
      ≤ (t.handles key).count x + (drawn verb place handle).count x := by
  simp only [handles, List.count_cons, List.count_append]
  cases he with
  | chain c chains he =>
    refine ⟨⟨chainShelf.kind, key, c.name⟩, fun x => ?_⟩
    have hnamed := he.count_held_le rfl (by rintro f (hf | hf) c <;> cases hf; rfl) key x
    -- a new chain has no rules, and a flushed one loses its own
    have hrules := he.count_le (ruleHandles key) x <| by
      rintro f (hf | hf) name c <;> cases hf
      exact Nat.zero_le _
    dsimp only
    simp only [ruleHandles, List.map_nil, List.count_nil, ite_self] at hrules ⊢
    omega
  | rule r c rules hc href he =>
    refine ⟨⟨.rule, key, r.chain⟩, fun x => ?_⟩
    have hrules := SortedMap.count_collect_modify (f := fun c => { c with rules })
      (ruleHandles key) x hc
    have hle := he.count_le ⟨.rule, key, r.chain⟩ x
    dsimp only
    -- the chains keep their own numbers
    rw [SortedMap.collect_modify_eq (chainShelf.held key)]
    · simp only [ruleHandles] at hrules ⊢
      omega
    · exact fun _ _ => rfl
  | set s sets he =>
    refine ⟨⟨setShelf.kind, key, s.name⟩, fun x => ?_⟩
    have hnamed := he.count_held_le rfl (by rintro f (hf | hf) s <;> cases hf; rfl) key x
    dsimp only
    omega
  | map m maps he =>
    refine ⟨⟨mapShelf.kind, key, m.name⟩, fun x => ?_⟩
    have hnamed := he.count_held_le rfl (by rintro f (hf | hf) m <;> cases hf; rfl) key x
    dsimp only
    omega
  | setElement e name s elements hn hs href he =>
    -- elements have no numbers: what was drawn is given to nobody
    refine ⟨⟨.element, key, name⟩, fun x => ?_⟩
    dsimp only
    rw [SortedMap.collect_modify_eq (setShelf.held key)]
    · exact Nat.le_add_right _ _
    · exact fun _ _ => rfl
  | mapElement e name m elements hset hn hm href he =>
    refine ⟨⟨.element, key, name⟩, fun x => ?_⟩
    dsimp only
    rw [SortedMap.collect_modify_eq (mapShelf.held key)]
    · exact Nat.le_add_right _ _
    · exact fun _ _ => rfl
  | flowtable f flowtables he =>
    refine ⟨⟨flowtableShelf.kind, key, f.name⟩, fun x => ?_⟩
    have hnamed := he.count_held_le rfl (by rintro f (hf | hf) <;> cases hf) key x
    dsimp only
    omega
  | counter c counters he =>
    refine ⟨⟨counterShelf.kind, key, c.name⟩, fun x => ?_⟩
    have hnamed := he.count_held_le rfl (by rintro f (hf | hf) c <;> cases hf; rfl) key x
    dsimp only
    omega

end TableState

namespace Ruleset

variable {defines : List Define} {handle : Nat} {op : Operation} {r r' : Ruleset}

/-- **A step adds at most the pair of its number.** -/
theorem handles_subperm (hs : r.step defines handle op = .ok r') :
    ∃ place, List.Subperm r'.handles (r.handles ++ drawn op.verb place handle) := by
  -- how often a pair is held can be compared table by table
  suffices h : ∃ place, ∀ x, r'.handles.count x
      ≤ r.handles.count x + (drawn op.verb place handle).count x by
    obtain ⟨place, h⟩ := h
    refine ⟨place, List.subperm_ext_iff.mpr fun x _ => ?_⟩
    rw [List.count_append]
    exact h x
  cases step_effect hs with
  | table t family tables ho hf he =>
    refine ⟨⟨.table, ⟨family, t.scope.table.getD ""⟩, t.scope.table.getD ""⟩, fun x => ?_⟩
    have hle := he.count_le TableState.handles x <| by
      rintro f (hf | hf) key t <;> cases hf
      rw [TableState.handles_flush key t, List.count_append]
      exact Nat.le_add_right _ _
    rw [count_drawn]
    exact hle
  | inside key t t' hscope ht he =>
    obtain ⟨place, hle⟩ := he.count_handles_le key
    refine ⟨place, fun x => ?_⟩
    -- the other tables count as before
    have heq := SortedMap.count_collect_modify (f := fun _ => t') TableState.handles x ht
    have hle := hle x
    unfold handles
    dsimp only
    omega

/-- A pair of the list was there before, or has the number that was drawn. -/
theorem mem_handles_of_step (hs : r.step defines handle op = .ok r') {x : Place × Option Nat}
    (hx : x ∈ r'.handles) :
    x ∈ r.handles ∨ (op.verb.allocates = true ∧ x.2 = some handle) := by
  obtain ⟨place, hsub⟩ := handles_subperm hs
  rcases List.mem_append.mp (hsub.subset hx) with hx | hx
  · exact .inl hx
  · unfold drawn at hx
    split at hx
    · rename_i halloc
      cases List.mem_singleton.mp hx
      exact .inr ⟨halloc, rfl⟩
    · cases hx

/-! ## Numbers are held once -/

/-- Every number of the list has been given out, and no two are the same. -/
structure Numbered (r : Ruleset) (last : Nat) : Prop where
  given : ∀ x ∈ r.handles, ∃ h, x.2 = some h ∧ 1 ≤ h ∧ h ≤ last
  distinct : (r.handles.map Prod.snd).Nodup

theorem numbered_empty : ({} : Ruleset).Numbered 0 :=
  ⟨fun _ hx => absurd hx List.not_mem_nil, .nil⟩

/-- **Every operation keeps the numbers apart.** -/
theorem numbered_preserved (defines : List Define) : Preserved defines Numbered where
  rise := by
    intro r last h
    refine ⟨fun x hx => ?_, h.distinct⟩
    obtain ⟨n, hn, hone, hle⟩ := h.given x hx
    exact ⟨n, hn, hone, Nat.le_succ_of_le hle⟩
  step := by
    intro r r' last op h _ hs
    constructor
    · intro x hx
      rcases mem_handles_of_step hs hx with hx | ⟨halloc, hx⟩
      · obtain ⟨n, hn, hone, hle⟩ := h.given x hx
        exact ⟨n, hn, hone, Nat.le_trans hle (le_nextHandle last op)⟩
      · refine ⟨_, hx, ?_, Nat.le_refl _⟩
        rw [nextHandle, if_pos halloc]
        exact Nat.le_add_left 1 last
    · -- distinct: it is enough for the list before with the new pair behind it
      obtain ⟨place, l, hperm, hsub⟩ := handles_subperm hs
      refine ((hperm.map Prod.snd).nodup_iff).mp (List.Nodup.sublist (hsub.map Prod.snd) ?_)
      rw [List.map_append]
      refine List.nodup_append.mpr ⟨h.distinct, ?_, ?_⟩
      · unfold drawn
        split
        · exact List.pairwise_singleton _ _
        · exact .nil
      · -- what was drawn lies above all numbers that were given out before
        intro a ha b hb hab
        obtain ⟨x, hx, rfl⟩ := List.mem_map.mp ha
        obtain ⟨n, hn, -, hle⟩ := h.given x hx
        unfold drawn at hb
        split at hb
        · rename_i halloc
          rw [nextHandle, if_pos halloc] at hb
          rw [List.map_singleton, List.mem_singleton, ← hab, hn] at hb
          cases hb
          omega
        · cases hb

/-- Numbers up to `bound` are held where `old` holds them. -/
structure KeepsTo (old : Ruleset) (bound : Nat) (r : Ruleset) (last : Nat) : Prop where
  reached : bound ≤ last
  held : ∀ p h, (p, some h) ∈ r.handles → h ≤ bound → (p, some h) ∈ old.handles

/-- A number that is not held is not given out again. -/
theorem keepsTo_preserved (old : Ruleset) (bound : Nat) (defines : List Define) :
    Preserved defines (KeepsTo old bound) where
  rise h := ⟨Nat.le_succ_of_le h.reached, h.held⟩
  step := by
    intro r r' last op h _ hs
    refine ⟨Nat.le_trans h.reached (le_nextHandle last op), fun p n hp hn => ?_⟩
    rcases mem_handles_of_step hs hp with hp | ⟨halloc, hp⟩
    · exact h.held p n hp hn
    · -- a number that was drawn now lies above the bound
      cases hp
      rw [nextHandle, if_pos halloc] at hn
      exact absurd (Nat.le_trans hn h.reached) (Nat.not_succ_le_self last)

end Ruleset

namespace Engine

theorem after_take_add (e : Engine) (calls : List Call) (i n : Nat) :
    e.after (calls.take (i + n)) = (e.after (calls.take i)).after ((calls.drop i).take n) := by
  rw [List.take_add, after_append]

/-- Later on, a number that has been given out is held only where it is held now. -/
theorem keepsTo_after (e : Engine) (calls : List Call) :
    Ruleset.KeepsTo e.ruleset e.lastHandle (e.after calls).ruleset (e.after calls).lastHandle :=
  preserved_after (Ruleset.keepsTo_preserved _ _ _) calls ⟨Nat.le_refl _, fun _ _ hp _ => hp⟩

theorem numbered_after (config : Config) (calls : List Call) :
    ((ofConfig config).after calls).ruleset.Numbered ((ofConfig config).after calls).lastHandle :=
  preserved_after (Ruleset.numbered_preserved _) calls Ruleset.numbered_empty

/--
**Handles are unique and never reused.** After every prefix of a history each object but the
elements holds a number that has been given out, and no two hold the same. When a number is held
after `i` calls and again after `j`, it is held at the same place then and at all times between.
-/
theorem handles_unique (config : Config) (calls : List Call) :
    let e := fun i => (ofConfig config).after (calls.take i)
    (∀ i, (e i).ruleset.Numbered (e i).lastHandle) ∧
      ∀ i j, i ≤ j → ∀ p q h, (p, some h) ∈ (e i).ruleset.handles →
        (q, some h) ∈ (e j).ruleset.handles →
        p = q ∧ ∀ k, i ≤ k → k ≤ j → (p, some h) ∈ (e k).ruleset.handles := by
  intro e
  have numbered : ∀ i, (e i).ruleset.Numbered (e i).lastHandle :=
    fun i => numbered_after config (calls.take i)
  have keeps : ∀ i k, i ≤ k →
      Ruleset.KeepsTo (e i).ruleset (e i).lastHandle (e k).ruleset (e k).lastHandle := by
    intro i k hik
    obtain ⟨n, rfl⟩ := Nat.exists_eq_add_of_le hik
    have hafter : e (i + n) = (e i).after ((calls.drop i).take n) := after_take_add _ calls i n
    rw [hafter]
    exact keepsTo_after _ _
  -- after `i` calls the number lies below the counter, so what holds it later held it then
  refine ⟨numbered, fun i j hij p q h hp hq => ?_⟩
  obtain ⟨n, hn, -, hle⟩ := (numbered i).given _ hp
  cases hn
  have held : ∀ k, i ≤ k → k ≤ j → (q, some h) ∈ (e k).ruleset.handles := by
    intro k hik hkj
    exact (keeps k j hkj).held q h hq (Nat.le_trans hle (keeps i k hik).reached)
  have hpq : (p, some h) = (q, some h) :=
    List.inj_on_of_nodup_map (numbered i).distinct hp (held i (Nat.le_refl i) hij) rfl
  cases hpq
  exact ⟨rfl, held⟩

end Engine

end Nftables
