import Mathlib.Tactic.MkIffOfInductiveProp
import Nftables.Proofs.Renaming
import Nftables.Proofs.Substitution
import Nftables.Proofs.WellFormed

/-!
# The objects of a ruleset rebuild it

Adding the objects of a ruleset one after the other, in the order of the dump, leads from the empty
ruleset back to it, up to the handles. Between two objects stands a part of the ruleset: some of its
tables whole, and of one more table first the declarations, then also rules and elements.

A step from one part to the next is a step up to the handles: `Grows` asks for a ruleset that the
`add` leads to, and that it be the next part when the handles are left out. Up to them is enough,
since no step looks at a handle that its object does not name (`apply_of_steps`). The steps are
chained by `Steps`, once for the entries that are put into a map (`Steps.load`) and once for those
that are changed in it (`Steps.refill`), and `steps_fill` is the second of these for rules and
elements.

Where a rule stands in the dump, what it refers to must have been declared. It has, as all
declarations of a table come first; that they are there without their contents does not matter
(`SameNames`). What may be missing is something that was deleted after the rule was added. Hence
`Resolved`, which a ruleset need not be.
-/

namespace Nftables

/-! ## Chains of steps -/

/-- The steps of a list, one after the other. -/
inductive Steps {σ α : Type} (R : σ → α → σ → Prop) : σ → List α → σ → Prop
  | nil (s : σ) : Steps R s [] s
  | cons {s s₁ s' : σ} {a : α} {l : List α} (h : R s a s₁) (t : Steps R s₁ l s') :
    Steps R s (a :: l) s'

namespace Steps

variable {σ α : Type} {R : σ → α → σ → Prop}

theorem append {s s₁ s' : σ} {l₁ l₂ : List α} (h₁ : Steps R s l₁ s₁) (h₂ : Steps R s₁ l₂ s') :
    Steps R s (l₁ ++ l₂) s' := by
  induction h₁ with
  | nil s => exact h₂
  | cons h t ih => exact .cons h (ih h₂)

theorem single {s s' : σ} {a : α} (h : R s a s') : Steps R s [a] s' := .cons h (.nil s')

/-- The states are those of the fronts of a list. -/
theorem along {β : Type} {l : List β} (front : List β → σ) {o : β → α}
    (h : ∀ l₁ b l₂, l = l₁ ++ b :: l₂ → R (front l₁) (o b) (front (l₁ ++ [b]))) :
    Steps R (front []) (l.map o) (front l) := by
  -- by induction on what is left of the list
  have key : ∀ l₂ l₁, l = l₁ ++ l₂ → Steps R (front l₁) (l₂.map o) (front l) := by
    intro l₂
    induction l₂ with
    | nil =>
      intro l₁ hl
      rw [hl, List.append_nil]
      exact .nil _
    | cons b l₂ ih =>
      intro l₁ hl
      exact .cons (h l₁ b l₂ hl) (ih (l₁ ++ [b]) (by rw [hl, List.append_assoc]; rfl))
  exact key l [] rfl

section Maps

variable {κ β γ : Type} [Ord κ] [Std.TransOrd κ] [Std.LawfulEqOrd κ] [DecidableEq κ]
  (full : SortedMap κ β) (put : SortedMap κ γ → σ)

/-- The entries of a map are put in one after the other. -/
theorem load {f : β → γ} {o : β → List α}
    (h : ∀ m k v, full.get? k = some v → m.get? k = none →
      Steps R (put m) (o v) (put (m.insert k (f v)))) :
    Steps R (put ∅) (full.values.flatMap o) (put (full.map f)) := by
  refine SortedMap.load (M := fun l m => Steps R (put ∅) (l.flatMap o) (put m)) (.nil _) ?_
  intro l m k v hv hm hl
  rw [List.flatMap_append, List.flatMap_singleton]
  exact hl.append (h m k v hv hm)

/-- The entries of a map are changed one after the other. -/
theorem refill {f g : β → γ} {o : β → List α}
    (h : ∀ m k v, full.get? k = some v → m.get? k = some (f v) →
      (∀ k', m.contains k' = full.contains k') →
      Steps R (put m) (o v) (put (m.modify k fun _ => g v))) :
    Steps R (put (full.map f)) (full.values.flatMap o) (put (full.map g)) := by
  refine SortedMap.refill (M := fun l m => Steps R (put (full.map f)) (l.flatMap o) (put m))
    (.nil _) ?_
  intro l m k v hv hm hcontains hl
  rw [List.flatMap_append, List.flatMap_singleton]
  exact hl.append (h m k v hv hm hcontains)

end Maps

end Steps

/-! ## Without the handles -/

def TableState.eraseHandles (t : TableState) : TableState := t.mapHandles fun _ => none

/-- The ruleset without its handles. -/
def Ruleset.eraseHandles (r : Ruleset) : Ruleset := r.mapHandles fun _ => none

/-- Rulesets that differ in their handles only have the same dump. -/
theorem Ruleset.dump_of_eraseHandles_eq {r₁ r₂ : Ruleset} (h : r₁.eraseHandles = r₂.eraseHandles) :
    r₁.dump = r₂.dump := calc
  r₁.dump = r₁.eraseHandles.dump := (r₁.dump_mapHandles _).symm
  _ = r₂.eraseHandles.dump := by rw [h]
  _ = r₂.dump := r₂.dump_mapHandles _

namespace Shelf

variable {κ σ : Type} [Ord κ] [Std.TransOrd κ]

/-- `add` puts the object where there is none. -/
theorem apply_add {s : Shelf κ σ} {m : SortedMap κ σ} {among : κ → Bool} {key : κ} {new : σ}
    (h : m.get? key = none) : s.apply m among .add key none new = .ok (m.insert key new) := by
  have hcontains : m.contains key = false := by
    rw [SortedMap.contains, h]
    rfl
  rw [apply_none, ← SortedMap.insertIfNew_of_not_contains new hcontains]
  rfl

end Shelf

theorem Elements.write_new {e : Element} {elements : List Element}
    (h : e.key ∉ elements.map Element.key) : Elements.write e elements = elements ++ [e] := by
  induction elements with
  | nil => rfl
  | cons d rest ih =>
    rw [List.map_cons, List.mem_cons, not_or] at h
    rw [Elements.write, if_neg (Ne.symm h.1), ih h.2]
    rfl

/-- The key of an element is not that of one before it. -/
theorem Elements.Keyed.not_mem_front {e : Element} {elements l₁ l₂ : List Element}
    (h : Keyed elements) (hl : elements = l₁ ++ e :: l₂) : e.key ∉ l₁.map Element.key := by
  have hdistinct := h.distinct
  rw [hl, List.map_append, List.nodup_append] at hdistinct
  exact fun hmem => hdistinct.2.2 _ hmem _ (by simp) rfl

/-! ## One object of a table -/

namespace TableState

variable {defines : List Define} {t : TableState} {name : String}

/-- Adding the object leads from one table to another, up to the handles. -/
def Grows (defines : List Define) (t : TableState) (o : Object) (t' : TableState) : Prop :=
  ∃ t₁, t.step defines .add 0 o.eraseHandle = .ok t₁ ∧ t₁.eraseHandles = t'.eraseHandles

theorem grows_flowtable {f : Flowtable} (hname : f.name = name)
    (hnew : t.flowtables.get? name = none) :
    t.Grows defines (.flowtable f) { t with flowtables := t.flowtables.insert name f } := by
  subst hname
  refine ⟨_, bind_of_ok (Shelf.apply_add hnew), ?_⟩
  refine mapHandles_eq_iff.mpr ⟨rfl, ?_, rfl, rfl, rfl, rfl⟩
  rw [SortedMap.map_insert, SortedMap.map_insert]
  rfl

theorem grows_chain {c : Chain} (hname : c.name = name) (hnew : t.chains.get? name = none) :
    t.Grows defines (.chain c) { t with chains := t.chains.insert name { chain := c } } := by
  subst hname
  refine ⟨_, bind_of_ok (Shelf.apply_add hnew), ?_⟩
  refine mapHandles_eq_iff.mpr ⟨rfl, rfl, ?_, rfl, rfl, rfl⟩
  rw [SortedMap.map_insert, SortedMap.map_insert]
  rfl

theorem grows_set {s : NamedSet} (hname : s.name = name) (hnew : t.sets.get? name = none)
    (hsettled : s.spec.substitute defines = s.spec) :
    t.Grows defines (.set s) { t with sets := t.sets.insert name { set := s } } := by
  subst hname
  refine ⟨_, bind_of_ok (Shelf.apply_add hnew), ?_⟩
  refine mapHandles_eq_iff.mpr ⟨rfl, rfl, rfl, ?_, rfl, rfl⟩
  rw [SortedMap.map_insert, SortedMap.map_insert, hsettled]
  rfl

theorem grows_map {m : NamedMap} (hname : m.name = name) (hnew : t.maps.get? name = none)
    (hsettled : m.spec.substitute defines = m.spec) :
    t.Grows defines (.map m) { t with maps := t.maps.insert name { map := m } } := by
  subst hname
  refine ⟨_, bind_of_ok (Shelf.apply_add hnew), ?_⟩
  refine mapHandles_eq_iff.mpr ⟨rfl, rfl, rfl, rfl, ?_, rfl⟩
  rw [SortedMap.map_insert, SortedMap.map_insert, hsettled]
  rfl

theorem grows_counter {c : Counter} (hname : c.name = name) (hnew : t.counters.get? name = none)
    (hcounts : c.packets.isSome ∧ c.bytes.isSome) :
    t.Grows defines (.counter c) { t with counters := t.counters.insert name c } := by
  subst hname
  refine ⟨_, bind_of_ok (Shelf.apply_add hnew), ?_⟩
  refine mapHandles_eq_iff.mpr ⟨rfl, rfl, rfl, rfl, rfl, ?_⟩
  rw [SortedMap.map_insert, SortedMap.map_insert]
  obtain ⟨packets, hp⟩ := Option.isSome_iff_exists.mp hcounts.1
  obtain ⟨bytes, hb⟩ := Option.isSome_iff_exists.mp hcounts.2
  refine congrArg (SortedMap.insert _ _) ?_
  -- a counter that is stored has both counts, so the defaults fill in nothing
  simp [Counter.mapHandle, hp, hb]

/-- A rule goes to the end of its chain. -/
theorem grows_rule {r : Rule} {c : ChainState} (hchain : r.chain = name) (hindex : r.index = none)
    (hc : t.chains.get? name = some c) (hsettled : substituteIn defines r.body = r.body)
    (href : t.checkReferences r.body = .ok ()) :
    t.Grows defines (.rule r)
      { t with chains := t.chains.modify name fun _ => { c with rules := c.rules ++ [r] } } := by
  subst hchain
  obtain ⟨scope, chain, body, comment, index, handle⟩ := r
  cases hindex
  -- the number is the one that the step was given, and does not count in the end
  refine ⟨{ t with chains := t.chains.modify chain fun d =>
    { d with rules := c.rules ++ [⟨scope, chain, body, comment, none, some 0⟩] } }, ?_, ?_⟩
  · have hplace : c.rules.insertIdx c.rules.length
        ⟨scope, chain, body, comment, none, some 0⟩
        = c.rules ++ [⟨scope, chain, body, comment, none, some 0⟩] := List.insertIdx_length_self
    simp only [step, Object.eraseHandle, applyRule, hc, hsettled, href]
    rw [← hplace]
    rfl
  · refine mapHandles_eq_iff.mpr ⟨rfl, rfl, ?_, rfl, rfl, rfl⟩
    refine SortedMap.map_modify_congr _ _ fun d hd => ?_
    rw [hc] at hd
    cases hd
    simp [ChainState.mapHandles, Rule.mapHandle]

/-- An element of a set goes to the end. -/
theorem grows_setElement {e : Element} {s : SetState} (hset : e.set = some name)
    (hvalue : e.value = []) (hs : t.sets.get? name = some s)
    (hsettled : e.substitute defines = e) (hnew : e.key ∉ s.elements.map Element.key) :
    t.Grows defines (.element e)
      { t with sets := t.sets.modify name fun _ =>
          { s with elements := s.elements ++ [e] } } := by
  refine ⟨{ t with sets := t.sets.modify name fun d =>
    { d with elements := s.elements ++ [e] } }, ?_, ?_⟩
  · simp only [step, Object.eraseHandle, applyElement, hsettled, hset, hs, hvalue]
    rw [← Elements.write_new hnew]
    rfl
  · refine mapHandles_eq_iff.mpr ⟨rfl, rfl, rfl, ?_, rfl, rfl⟩
    refine SortedMap.map_modify_congr _ _ fun d hd => ?_
    rw [hs] at hd
    cases hd
    rfl

/-- An element of a map goes to the end. -/
theorem grows_mapElement {e : Element} {m : MapState} (hset : e.set = none)
    (hmap : e.map = some name) (hm : t.maps.get? name = some m)
    (hsettled : e.substitute defines = e) (href : t.checkReferences (joinParts e.value) = .ok ())
    (hnew : e.key ∉ m.elements.map Element.key) :
    t.Grows defines (.element e)
      { t with maps := t.maps.modify name fun _ =>
          { m with elements := m.elements ++ [e] } } := by
  refine ⟨{ t with maps := t.maps.modify name fun d =>
    { d with elements := m.elements ++ [e] } }, ?_, ?_⟩
  · simp only [step, Object.eraseHandle, applyElement, hsettled, hset, hmap, hm, href]
    rw [← Elements.write_new hnew]
    split <;> rfl
  · refine mapHandles_eq_iff.mpr ⟨rfl, rfl, rfl, rfl, ?_, rfl⟩
    refine SortedMap.map_modify_congr _ _ fun d hd => ?_
    rw [hm] at hd
    cases hd
    rfl

/-! ## All objects of a table -/

/-- Everything that the table's rules and map values refer to is there. -/
@[mk_iff]
structure Resolved (t : TableState) : Prop where
  rules : t.chains.All fun _ c => ∀ r ∈ c.rules, t.checkReferences r.body = .ok ()
  maps : t.maps.All fun _ m => ∀ e ∈ m.elements, t.checkReferences (joinParts e.value) = .ok ()

instance (t : TableState) : Decidable t.Resolved := decidable_of_iff _ (resolved_iff t).symm

variable {key : TableKey}

theorem steps_load {α β : Type} (defines : List Define) (full : SortedMap String α) {f : α → β}
    {o : α → Object} (put : SortedMap String β → TableState)
    (h : ∀ m k v, full.get? k = some v → m.get? k = none →
      (put m).Grows defines (o v) (put (m.insert k (f v)))) :
    Steps (Grows defines) (put ∅) (full.values.map o) (put (full.map f)) := by
  rw [List.map_eq_flatMap]
  exact Steps.load full put fun m k v hv hm => .single (h m k v hv hm)

/-- The declarations behind the table itself lead to the table without rules and elements. -/
theorem steps_declarations (hw : t.WellFormed key) (hsettled : t.Settled defines) :
    Steps (Grows defines) { table := t.table } t.declarations.tail t.flush := by
  -- kind by kind, in the order of the dump; the kinds that follow are still empty
  have hflowtables := steps_load defines t.flowtables (f := id) (o := .flowtable)
    (fun m => { table := t.table, flowtables := m })
    fun _ k f hf hnew => grows_flowtable (hw.flowtables k f hf).named.1 hnew
  have hchains := steps_load defines t.chains (f := ChainState.flush)
    (fun m => { table := t.table, flowtables := t.flowtables, chains := m })
    fun _ k c hc hnew => grows_chain (hw.chains k c hc).chain.named.1 hnew
  have hsets := steps_load defines t.sets (f := SetState.flush)
    (fun m => { t.flush with sets := m, maps := ∅, counters := ∅ })
    fun _ k s hs hnew => grows_set (hw.sets k s hs).set.named.1 hnew (hsettled.sets k s hs).1
  have hmaps := steps_load defines t.maps (f := MapState.flush)
    (fun m => { t.flush with maps := m, counters := ∅ })
    fun _ k m hm hnew => grows_map (hw.maps k m hm).map.named.1 hnew (hsettled.maps k m hm).1
  have hcounters := steps_load defines t.counters (f := id) (o := .counter)
    (fun m => { t.flush with counters := m })
    fun _ k c hc hnew =>
      grows_counter (hw.counters k c hc).named.1 hnew (hw.counters k c hc).counts
  rw [SortedMap.map_id] at hflowtables hcounters
  exact (((hflowtables.append hchains).append hsets).append hmaps).append hcounters

/-- The parts of each object are put in one after the other, where `fill v` is `v` with some. -/
theorem steps_fill {α β : Type} {full : SortedMap String α} {parts : α → List β} {o : β → Object}
    (fill : α → List β → α) (put : SortedMap String α → TableState)
    (hfill : ∀ v, fill v (parts v) = v)
    (h : ∀ m k v l₁ b l₂, full.get? k = some v → parts v = l₁ ++ b :: l₂ →
      m.get? k = some (fill v l₁) → (∀ k', m.contains k' = full.contains k') →
      (put m).Grows defines (o b) (put (m.modify k fun _ => fill v (l₁ ++ [b])))) :
    Steps (Grows defines) (put (full.map fun v => fill v []))
      (full.values.flatMap fun v => (parts v).map o) (put full) := by
  have hsteps := Steps.refill full put (R := Grows defines) (f := fun v => fill v []) (g := id)
    (o := fun v => (parts v).map o) fun m k v hv hm hcontains => ?_
  · rwa [SortedMap.map_id] at hsteps
  · -- between two parts of `v`, the map holds `v` with a front of them
    have halong := Steps.along (fun l => put (m.modify k fun _ => fill v l))
      (R := Grows defines) (l := parts v) (o := o) fun l₁ b l₂ hl => ?_
    · rw [SortedMap.modify_const_self hm, hfill] at halong
      exact halong
    · have hget : (m.modify k fun _ => fill v l₁).get? k = some (fill v l₁) := by
        rw [SortedMap.get?_modify, if_pos rfl, hm]
        rfl
      have hcontains' : ∀ k', (m.modify k fun _ => fill v l₁).contains k' = full.contains k' :=
        fun k' => (SortedMap.contains_modify _ _ _ _).trans (hcontains k')
      have hgrows := h _ k v l₁ b l₂ hv hl hget hcontains'
      rwa [SortedMap.modify_modify_const] at hgrows

/-- The rules of all chains lead on from the table without rules and elements. -/
theorem steps_rules (hw : t.WellFormed key) (hsettled : t.Settled defines) (hres : t.Resolved) :
    Steps (Grows defines) t.flush (t.chains.values.flatMap fun c => c.rules.map .rule)
      { t with sets := t.sets.map SetState.flush, maps := t.maps.map MapState.flush } := by
  refine steps_fill (fun c l => { c with rules := l })
    (fun m => { t.flush with chains := m }) (fun _ => rfl) ?_
  intro m k c l₁ r l₂ hc hl hm hcontains
  have hr : r ∈ c.rules := hl ▸ by simp
  have hrule := (hw.chains k c hc).rules r hr
  -- what a rule refers to is declared, though not yet filled
  have hsame : SameNames { t.flush with chains := m } t :=
    ⟨fun _ => rfl, hcontains, SortedMap.contains_map _ _, SortedMap.contains_map _ _⟩
  exact grows_rule (t := { t.flush with chains := m }) (c := { c with rules := l₁ })
    hrule.chain hrule.index hm (hsettled.rules k c hc r hr)
    ((hsame.checkReferences _).trans (hres.rules k c hc r hr))

theorem steps_setElements (hw : t.WellFormed key) (hsettled : t.Settled defines) :
    Steps (Grows defines)
      { t with sets := t.sets.map SetState.flush, maps := t.maps.map MapState.flush }
      (t.sets.values.flatMap fun s => s.elements.map .element)
      { t with maps := t.maps.map MapState.flush } := by
  refine steps_fill (fun s l => { s with elements := l })
    (fun m => { t with sets := m, maps := t.maps.map MapState.flush }) (fun _ => rfl) ?_
  intro m k s l₁ e l₂ hs hl hm hcontains
  have he : e ∈ s.elements := hl ▸ by simp
  have helement := (hw.sets k s hs).elements e he
  exact grows_setElement (t := { t with sets := m, maps := t.maps.map MapState.flush })
    (s := { s with elements := l₁ }) helement.set helement.value hm
    ((hsettled.sets k s hs).2 e he) ((hw.sets k s hs).keyed.not_mem_front hl)

theorem steps_mapElements (hw : t.WellFormed key) (hsettled : t.Settled defines)
    (hres : t.Resolved) :
    Steps (Grows defines) { t with maps := t.maps.map MapState.flush }
      (t.maps.values.flatMap fun m => m.elements.map .element) t := by
  refine steps_fill (fun m l => { m with elements := l })
    (fun n => { t with maps := n }) (fun _ => rfl) ?_
  intro n k m l₁ e l₂ hm hl hn hcontains
  have he : e ∈ m.elements := hl ▸ by simp
  have helement := (hw.maps k m hm).elements e he
  have hsame : SameNames { t with maps := n } t :=
    ⟨fun _ => rfl, fun _ => rfl, fun _ => rfl, hcontains⟩
  exact grows_mapElement (t := { t with maps := n }) (m := { m with elements := l₁ })
    helement.set helement.map hn ((hsettled.maps k m hm).2 e he)
    ((hsame.checkReferences _).trans (hres.maps k m hm e he))
    ((hw.maps k m hm).keyed.not_mem_front hl)

/-- The rules and elements lead on to the whole table. -/
theorem steps_contents (hw : t.WellFormed key) (hsettled : t.Settled defines)
    (hres : t.Resolved) : Steps (Grows defines) t.flush t.contents t :=
  ((steps_rules hw hsettled hres).append (steps_setElements hw hsettled)).append
    (steps_mapElements hw hsettled hres)

/-- The objects of one kind, in the order of the dump. -/
def ofKind (t : TableState) : Kind → List Object
  | .table => [.table t.table]
  | .flowtable => t.flowtables.values.map .flowtable
  | .chain => (t.chains.values.map ChainState.chain).map .chain
  | .rule => (t.chains.values.flatMap ChainState.rules).map .rule
  | .set => (t.sets.values.map SetState.set).map .set
  | .map => (t.maps.values.map MapState.map).map .map
  | .element => (t.sets.values.flatMap SetState.elements ++
      t.maps.values.flatMap MapState.elements).map .element
  | .counter => t.counters.values.map .counter

theorem filter_objects (t : TableState) (kind : Kind) :
    t.objects.filter (·.kind = kind) = t.ofKind kind := by
  cases kind <;>
    simp [objects, declarations, contents, ofKind, Object.kind, List.filter_flatMap,
      List.filter_map, Function.comp_def, List.map_flatMap]

theorem mem_objects_iff {o : Object} : o ∈ t.objects ↔ o ∈ t.ofKind o.kind := by
  rw [← filter_objects, List.mem_filter, decide_eq_true rfl]
  exact (and_iff_left rfl).symm

theorem forall_objects {P : Object → Prop} (htable : P (.table t.table))
    (hflowtables : t.flowtables.All fun _ f => P (.flowtable f))
    (hchains : t.chains.All fun _ c => P (.chain c.chain) ∧ ∀ r ∈ c.rules, P (.rule r))
    (hsets : t.sets.All fun _ s => P (.set s.set) ∧ ∀ e ∈ s.elements, P (.element e))
    (hmaps : t.maps.All fun _ m => P (.map m.map) ∧ ∀ e ∈ m.elements, P (.element e))
    (hcounters : t.counters.All fun _ c => P (.counter c)) : ∀ o ∈ t.objects, P o := by
  -- the dump goes by the values alone
  have hall : ∀ {α : Type} {m : SortedMap String α} {Q : α → Prop}, (m.All fun _ v => Q v) →
      ∀ v ∈ m.values, Q v := by
    intro α m Q h v hv
    obtain ⟨k, hk⟩ := SortedMap.mem_values_iff.mp hv
    exact h k v hk
  intro o ho
  simp only [objects, declarations, contents, List.mem_append, List.mem_cons, List.mem_map,
    List.mem_flatMap] at ho
  rcases ho with (rfl | ((((⟨f, hf, rfl⟩ | ⟨c, hc, rfl⟩) | ⟨s, hs, rfl⟩) | ⟨m, hm, rfl⟩) |
    ⟨c, hc, rfl⟩)) | (⟨c, hc, r, hr, rfl⟩ | ⟨s, hs, e, he, rfl⟩) | ⟨m, hm, e, he, rfl⟩
  · exact htable
  · exact hall hflowtables f hf
  · exact (hall hchains c hc).1
  · exact (hall hsets s hs).1
  · exact (hall hmaps m hm).1
  · exact hall hcounters c hc
  · exact (hall hchains c hc).2 r hr
  · exact (hall hsets s hs).2 e he
  · exact (hall hmaps m hm).2 e he

/-- Every object of a well-formed table says that it is of that table. -/
theorem WellFormed.scope_of_mem_objects (hw : t.WellFormed key) :
    ∀ o ∈ t.objects, o.scope = key.scope :=
  forall_objects hw.table.scope (fun k f hf => (hw.flowtables k f hf).scope)
    (fun k c hc =>
      ⟨(hw.chains k c hc).chain.scope, fun r hr => ((hw.chains k c hc).rules r hr).scope⟩)
    (fun k s hs => ⟨(hw.sets k s hs).set.scope, fun e he => ((hw.sets k s hs).elements e he).scope⟩)
    (fun k m hm => ⟨(hw.maps k m hm).map.scope, fun e he => ((hw.maps k m hm).elements e he).scope⟩)
    (fun k c hc => (hw.counters k c hc).scope)

end TableState

/-! ## All objects of a ruleset -/

namespace Ruleset

variable {defines : List Define} {r : Ruleset} {key : TableKey}

/-- Adding the object leads from one ruleset to another, up to the handles. -/
def Grows (defines : List Define) (r : Ruleset) (o : Object) (r' : Ruleset) : Prop :=
  ∃ r₁, r.step defines 0 ⟨.add, o.eraseHandle⟩ = .ok r₁ ∧ r₁.eraseHandles = r'.eraseHandles

theorem grows_table {t : Table} (hscope : t.scope = key.scope)
    (hnew : r.tables.get? key = none) :
    r.Grows defines (.table t) { tables := r.tables.insert key { table := t } } := by
  obtain ⟨scope, comment, handle⟩ := t
  subst hscope
  refine ⟨_, bind_of_ok (Shelf.apply_add hnew), ?_⟩
  refine congrArg Ruleset.mk ?_
  rw [SortedMap.map_insert, SortedMap.map_insert]
  rfl

/-- What grows one table grows the ruleset that holds it. -/
theorem grows_inside {m : SortedMap TableKey TableState} {t t' : TableState} {o : Object}
    (hscope : o.scope = key.scope) (h : t.Grows defines o t') :
    Ruleset.Grows defines { tables := m.insert key t } o { tables := m.insert key t' } := by
  obtain ⟨t₁, hstep, herase⟩ := h
  have hget : (m.insert key t).get? key = some t := by
    rw [SortedMap.get?_insert, if_pos rfl]
  have hscope' : o.eraseHandle.scope = key.scope := by
    rw [← hscope]
    cases o <;> rfl
  refine ⟨{ tables := (m.insert key t).modify key fun _ => t₁ }, ?_, ?_⟩
  · unfold Ruleset.step
    split
    · -- no table is added inside a table
      rename_i x hobject
      dsimp only at hobject
      rw [hobject] at hstep
      cases hstep
    · rename_i family name hscope'' _
      dsimp only at hscope''
      rw [hscope'] at hscope''
      cases hscope''
      dsimp only
      rw [show (⟨key.family, key.name⟩ : TableKey) = key from rfl, hget]
      exact bind_of_ok hstep
    · rename_i hnone
      exact absurd hscope' (hnone _ _)
  · rw [SortedMap.modify_insert_const]
    refine congrArg Ruleset.mk ?_
    rw [SortedMap.map_insert, SortedMap.map_insert]
    exact congrArg (SortedMap.insert _ _) herase

theorem steps_inside {m : SortedMap TableKey TableState} {t t' : TableState} {l : List Object}
    (hscope : ∀ o ∈ l, o.scope = key.scope) (h : Steps (TableState.Grows defines) t l t') :
    Steps (Grows defines) { tables := m.insert key t } l { tables := m.insert key t' } := by
  induction h with
  | nil t => exact .nil _
  | cons h _ ih =>
    exact .cons (grows_inside (hscope _ List.mem_cons_self) h)
      (ih fun o ho => hscope o (.tail _ ho))

/-- Everything that a text of the ruleset refers to is in the table of the text. -/
def Resolved (r : Ruleset) : Prop := r.tables.All fun _ t => t.Resolved

instance (r : Ruleset) : Decidable r.Resolved := inferInstanceAs (Decidable (r.tables.All _))

/-- **The objects of a well-formed ruleset lead from the empty ruleset to it.** -/
theorem steps_objects (hw : r.WellFormed) (hsettled : r.Settled defines) (hres : r.Resolved) :
    Steps (Grows defines) {} r.objects r := by
  have h := Steps.load r.tables Ruleset.mk (R := Grows defines) (f := id) (o := TableState.objects)
    fun m key t ht hnew => ?_
  · rwa [SortedMap.map_id] at h
  · -- the table itself first, then what it holds
    have hscope := (hw key t ht).scope_of_mem_objects
    have htable : Ruleset.Grows defines { tables := m } (.table t.table)
        { tables := m.insert key { table := t.table } } :=
      grows_table (hw key t ht).table.scope hnew
    have hinside := (TableState.steps_declarations (hw key t ht) (hsettled key t ht)).append
      (TableState.steps_contents (hw key t ht) (hsettled key t ht) (hres key t ht))
    exact .cons htable (steps_inside (fun o ho => hscope o (.tail _ ho)) hinside)

/-- **Adding the objects of a chain of steps leads where the steps lead, up to the handles.** -/
theorem apply_of_steps {r r' r₀ : Ruleset} {l : List Object} (h : Steps (Grows defines) r l r')
    (herase : r₀.eraseHandles = r.eraseHandles) (last : Nat) :
    (apply defines r₀ last (l.map fun o => ⟨.add, o.eraseHandle⟩)).result = .ok () ∧
      (apply defines r₀ last (l.map fun o => ⟨.add, o.eraseHandle⟩)).ruleset.eraseHandles
        = r'.eraseHandles := by
  induction h generalizing r₀ last with
  | nil r => exact ⟨rfl, herase⟩
  | @cons r r₁ r' o l hgrows _ ih =>
    obtain ⟨r₂, hstep, herase₂⟩ := hgrows
    -- the ruleset at hand differs from the one of the chain in its handles only
    have halike : Alike (fun r₁ r₂ => r₁.eraseHandles = r₂.eraseHandles)
        (r₀.step defines (last + 1) ⟨.add, o.eraseHandle⟩)
        (r.step defines 0 ⟨.add, o.eraseHandle⟩) :=
      step_alike herase (Object.seenAlike_of_none (by cases o <;> rfl) _ _) fun _ => rfl
    rw [hstep] at halike
    obtain ⟨r₃, hr₃, herase₃⟩ := halike.of_ok
    have hnext : nextHandle last ⟨.add, o.eraseHandle⟩ = last + 1 := rfl
    rw [List.map_cons, apply, hnext, hr₃]
    exact ih (herase₃.trans herase₂) (last + 1)

end Ruleset

end Nftables
