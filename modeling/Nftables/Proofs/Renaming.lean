import Mathlib.Data.List.InsertIdx
import Nftables.Proofs.Handles

/-!
# The same ruleset under other numbers

What an operation does to a ruleset does not depend on the numbers in it, as long as the numbers
that the operation itself names are the same under every reading: two rulesets that agree under some
reading of their numbers still agree after it, and it fails on one as it fails on the other.

A reading is a function on the handles, one for each of the two rulesets: the identity and a
renaming, or on both sides the function that forgets every handle. The rulesets agree if they are
equal once read. For an object that names a handle the readings must not be confused about that one
(`SeenAlike`): forgetting all handles confuses every number with every other, so it does for objects
that name none, while an injective renaming does for all objects whose handles it leaves alone.

`Alike` relates two computations: the same error, or results that agree. It goes through binds, so
`step_alike` follows the text of a step: the same key is resolved, the same check fails, and what is
put on the one side is what is put on the other but for its number. Three developments are instances
of it: dumps that rebuild a ruleset up to handles, checks in front of a run, and runs that fail.
-/

namespace Nftables

/-! ## Reading the numbers in another way -/

section MapHandles

variable (f : Option Nat → Option Nat)

def Table.mapHandle (t : Table) : Table := { t with handle := f t.handle }

def Flowtable.mapHandle (x : Flowtable) : Flowtable := { x with handle := f x.handle }

def Rule.mapHandle (r : Rule) : Rule := { r with handle := f r.handle }

def ChainState.mapHandles (c : ChainState) : ChainState where
  chain := { c.chain with handle := f c.chain.handle }
  rules := c.rules.map (Rule.mapHandle f)

def SetState.mapHandle (s : SetState) : SetState :=
  { s with set := { s.set with handle := f s.set.handle } }

def MapState.mapHandle (m : MapState) : MapState :=
  { m with map := { m.map with handle := f m.map.handle } }

def Counter.mapHandle (c : Counter) : Counter := { c with handle := f c.handle }

def TableState.mapHandles (t : TableState) : TableState where
  table := t.table.mapHandle f
  flowtables := t.flowtables.map (Flowtable.mapHandle f)
  chains := t.chains.map (ChainState.mapHandles f)
  sets := t.sets.map (SetState.mapHandle f)
  maps := t.maps.map (MapState.mapHandle f)
  counters := t.counters.map (Counter.mapHandle f)

/-- The ruleset with `f` applied to every handle. -/
def Ruleset.mapHandles (r : Ruleset) : Ruleset where
  tables := r.tables.map (TableState.mapHandles f)

end MapHandles

/-- The ruleset with other numbers for its handles. -/
def Ruleset.rename (ρ : Nat → Nat) (r : Ruleset) : Ruleset := r.mapHandles (Option.map ρ)

/-- Handles that are read alike, one by `f` and one by `g`, are both this number or neither is. -/
def SeenAlike (f g : Option Nat → Option Nat) (n : Nat) : Prop :=
  ∀ x y, f x = g y → (x = some n ↔ y = some n)

/-- The numbers that the object names are seen alike by `f` and `g`. -/
def Object.SeenAlike (f g : Option Nat → Option Nat) (o : Object) : Prop :=
  ∀ n, o.handle = some n → Nftables.SeenAlike f g n

/-- An object that names no handle looks the same to all readings. -/
theorem Object.seenAlike_of_none {o : Object} (h : o.handle = none)
    (f g : Option Nat → Option Nat) : o.SeenAlike f g :=
  fun _ hn => nomatch h.symm.trans hn

/-- A renaming that gives no number twice is not confused about one that it leaves alone. -/
theorem seenAlike_rename {ρ : Nat → Nat} (hρ : Function.Injective ρ) {n : Nat} (hn : ρ n = n) :
    SeenAlike id (Option.map ρ) n := by
  intro x y hxy
  rw [id] at hxy
  subst hxy
  cases y with
  | none => exact iff_of_false nofun nofun
  | some m =>
    rw [Option.map_some, Option.some_inj, Option.some_inj]
    exact ⟨fun hm => hρ (hm.trans hn.symm), fun hm => hm ▸ hn⟩

/-! ### The dump does not show them -/

section Dump

variable (f : Option Nat → Option Nat)

theorem TableState.map_eraseHandle_objects (t : TableState) :
    (t.mapHandles f).objects.map Object.eraseHandle = t.objects.map Object.eraseHandle := by
  simp [objects, declarations, contents, mapHandles, SortedMap.values_map, List.map_flatMap,
    List.flatMap_map, Object.eraseHandle, Function.comp_def, Table.mapHandle, Flowtable.mapHandle,
    ChainState.mapHandles, Rule.mapHandle, SetState.mapHandle, MapState.mapHandle,
    Counter.mapHandle]

theorem Ruleset.listing_mapHandles (r : Ruleset) :
    (r.mapHandles f).listing = r.listing.map (TableState.mapHandles f) :=
  SortedMap.values_map r.tables _

theorem Ruleset.map_eraseHandle_objects (r : Ruleset) :
    (r.mapHandles f).objects.map Object.eraseHandle = r.objects.map Object.eraseHandle := by
  rw [objects, objects, listing_mapHandles, List.flatMap_map, List.map_flatMap, List.map_flatMap]
  exact List.flatMap_congr fun t _ => t.map_eraseHandle_objects f

/-- **The dump is the same under all numbers.** -/
theorem Ruleset.dump_mapHandles (r : Ruleset) : (r.mapHandles f).dump = r.dump := by
  -- a dump is written from objects without handles
  have hcommand : ∀ l : List Object, l.map (fun o => o.eraseHandle.command .add)
      = (l.map Object.eraseHandle).map (Object.command .add) := fun l => by
    rw [List.map_map]
    rfl
  rw [dump, dump, hcommand, hcommand, map_eraseHandle_objects]

end Dump

/-! ### Only the numbers that are held count -/

section Congr

variable {f g : Option Nat → Option Nat}

theorem TableState.mapHandles_eq_iff {t₁ t₂ : TableState} :
    t₁.mapHandles f = t₂.mapHandles g ↔
    t₁.table.mapHandle f = t₂.table.mapHandle g ∧
    t₁.flowtables.map (Flowtable.mapHandle f) = t₂.flowtables.map (Flowtable.mapHandle g) ∧
    t₁.chains.map (ChainState.mapHandles f) = t₂.chains.map (ChainState.mapHandles g) ∧
    t₁.sets.map (SetState.mapHandle f) = t₂.sets.map (SetState.mapHandle g) ∧
    t₁.maps.map (MapState.mapHandle f) = t₂.maps.map (MapState.mapHandle g) ∧
    t₁.counters.map (Counter.mapHandle f) = t₂.counters.map (Counter.mapHandle g) := by
  rw [mapHandles, mapHandles, TableState.mk.injEq]

theorem TableState.mapHandles_congr {key : TableKey} {t : TableState}
    (h : ∀ x ∈ t.handles key, f x.2 = g x.2) : t.mapHandles f = t.mapHandles g := by
  simp only [handles, List.forall_mem_cons, List.forall_mem_append] at h
  -- the list of handles has a part for each shelf, and one for the rules
  obtain ⟨htable, ⟨⟨⟨⟨hflowtables, hchains⟩, hsets⟩, hmaps⟩, hcounters⟩, hrules⟩ := h
  have held : ∀ {σ : Type} {s : Shelf String σ} {m : SortedMap String σ},
      (∀ x ∈ m.collect (s.held key), f x.2 = g x.2) →
        ∀ name a, m.get? name = some a → f (s.handle a) = g (s.handle a) := by
    intro σ s m hm name a ha
    exact hm (⟨s.kind, key, name⟩, s.handle a)
      (SortedMap.mem_collect.mpr ⟨name, a, ha, List.mem_cons_self⟩)
  have htable' : t.table.mapHandle f = t.table.mapHandle g := by
    rw [Table.mapHandle, Table.mapHandle, htable]
  have hflowtables' := SortedMap.map_congr fun name x hx =>
    congrArg (fun n => { x with handle := n : Flowtable }) (held hflowtables name x hx)
  have hchains' :
      t.chains.map (ChainState.mapHandles f) = t.chains.map (ChainState.mapHandles g) := by
    refine SortedMap.map_congr fun name c hc => ?_
    have hchain : f c.chain.handle = g c.chain.handle := held hchains name c hc
    rw [ChainState.mapHandles, ChainState.mapHandles, hchain]
    refine congrArg (ChainState.mk _) (List.map_congr_left fun r hr => ?_)
    have hrule := hrules (⟨.rule, key, name⟩, r.handle)
      (SortedMap.mem_collect.mpr ⟨name, c, hc, List.mem_map_of_mem hr⟩)
    rw [Rule.mapHandle, Rule.mapHandle, hrule]
  have hsets' := SortedMap.map_congr fun name x hx =>
    congrArg (fun n => { x with set := { x.set with handle := n } : SetState })
      (held hsets name x hx)
  have hmaps' := SortedMap.map_congr fun name x hx =>
    congrArg (fun n => { x with map := { x.map with handle := n } : MapState })
      (held hmaps name x hx)
  have hcounters' := SortedMap.map_congr fun name x hx =>
    congrArg (fun n => { x with handle := n : Counter }) (held hcounters name x hx)
  exact mapHandles_eq_iff.mpr ⟨htable', hflowtables', hchains', hsets', hmaps', hcounters'⟩

theorem Ruleset.mapHandles_congr {r : Ruleset} (h : ∀ x ∈ r.handles, f x.2 = g x.2) :
    r.mapHandles f = r.mapHandles g := by
  refine congrArg Ruleset.mk (SortedMap.map_congr fun key t ht => ?_)
  exact TableState.mapHandles_congr fun x hx => h x (SortedMap.mem_collect.mpr ⟨key, t, ht, hx⟩)

theorem TableState.mapHandles_id (t : TableState) : t.mapHandles id = t := by
  have hflowtables : t.flowtables.map (Flowtable.mapHandle id) = t.flowtables :=
    SortedMap.map_eq_self fun _ => rfl
  have hchains : t.chains.map (ChainState.mapHandles id) = t.chains :=
    SortedMap.map_eq_self fun c => congrArg (ChainState.mk c.chain) (List.map_id c.rules)
  have hsets : t.sets.map (SetState.mapHandle id) = t.sets := SortedMap.map_eq_self fun _ => rfl
  have hmaps : t.maps.map (MapState.mapHandle id) = t.maps := SortedMap.map_eq_self fun _ => rfl
  have hcounters : t.counters.map (Counter.mapHandle id) = t.counters :=
    SortedMap.map_eq_self fun _ => rfl
  rw [mapHandles, hflowtables, hchains, hsets, hmaps, hcounters]
  rfl

theorem Ruleset.mapHandles_id (r : Ruleset) : r.mapHandles id = r :=
  congrArg Ruleset.mk (SortedMap.map_eq_self TableState.mapHandles_id)

end Congr

/-! ## Results that are alike -/

/-- Two computations fail with the same error or give values that belong together. -/
inductive Alike {ε α β : Type} (R : α → β → Prop) : Except ε α → Except ε β → Prop
  | error (e : ε) : Alike R (.error e) (.error e)
  | ok {a : α} {b : β} (h : R a b) : Alike R (.ok a) (.ok b)

namespace Alike

variable {ε α β α' β' : Type} {R : α → β → Prop} {S : α' → β' → Prop}

theorem bind {x : Except ε α} {y : Except ε β} {f : α → Except ε α'} {g : β → Except ε β'}
    (h : Alike R x y) (hf : ∀ a b, R a b → Alike S (f a) (g b)) :
    Alike S (x >>= f) (y >>= g) := by
  cases h with
  | error e => exact .error e
  | ok h => exact hf _ _ h

theorem refl (x : Except ε α) : Alike Eq x x := by
  cases x with
  | error e => exact .error e
  | ok a => exact .ok rfl

theorem of_ok {x : Except ε α} {b : β} (h : Alike R x (.ok b)) : ∃ a, x = .ok a ∧ R a b := by
  cases h with
  | ok h => exact ⟨_, rfl, h⟩

/-- A part that comes out the same, before computations that are alike. -/
theorem bind_same {γ : Type} {x y : Except ε γ} {f : γ → Except ε α} {g : γ → Except ε β}
    (hxy : x = y) (hf : ∀ c, Alike R (f c) (g c)) : Alike R (x >>= f) (y >>= g) := by
  subst hxy
  refine (Alike.refl x).bind fun a b hab => ?_
  subst hab
  exact hf a

theorem check_if {p : Prop} [Decidable p] {x y : Except ε Unit} {f : Unit → Except ε α}
    {g : Unit → Except ε β} (hxy : x = y) (hf : Alike R (f ()) (g ())) :
    Alike R (if p then x >>= f else f ()) (if p then y >>= g else g ()) := by
  by_cases hp : p
  · rw [if_pos hp, if_pos hp]
    exact bind_same hxy fun _ => hf
  · rw [if_neg hp, if_neg hp]
    exact hf

end Alike

/-! ## Named objects -/

namespace Shelf

variable {κ σ : Type} [Ord κ] [Std.TransOrd κ] [Std.LawfulEqOrd κ] [DecidableEq κ]

omit [Std.LawfulEqOrd κ] [DecidableEq κ] in
/-- A command that names no handle means the object under its own key. -/
theorem apply_none (s : Shelf κ σ) (m : SortedMap κ σ) (among : κ → Bool) (verb : Verb) (key : κ)
    (new : σ) : s.apply m among verb key none new
      = checkExistence verb (m.contains key) s.kind (s.text key) >>= fun _ =>
        s.act m verb key new := by
  cases verb <;> rfl

omit [Std.TransOrd κ] [Std.LawfulEqOrd κ] [DecidableEq κ] in
/-- A handle that both readings see alike leads to the same key. -/
theorem resolve_eq {s : Shelf κ σ} {F G : σ → σ} {m₁ m₂ : SortedMap κ σ} {among : κ → Bool}
    {verb : Verb} {key : κ} {given : Option Nat} (hm : m₁.map F = m₂.map G)
    (hgiven : ∀ n, given = some n →
      ∀ a b, F a = G b → (s.handle a = some n ↔ s.handle b = some n)) :
    s.resolve m₁ among verb key given = s.resolve m₂ among verb key given := by
  unfold resolve
  split
  · rename_i n
    -- the handle is looked for in both maps, which have the same keys in the same order
    have hfind := SortedMap.findKey?_of_map_eq hm
      (p := fun k a => among k && decide (s.handle a = some n))
      (q := fun k a => among k && decide (s.handle a = some n)) fun k a b hab => by
        rw [decide_eq_decide.mpr (hgiven n rfl a b hab)]
    rw [hfind]
  · rfl

/--
What a command does, it does to the maps under any reading, as long as the number that it names is
seen alike.
-/
theorem apply_alike {s : Shelf κ σ} {F G : σ → σ} {m₁ m₂ : SortedMap κ σ} {among : κ → Bool}
    {verb : Verb} {key : κ} {given : Option Nat} {new₁ new₂ : σ} (hm : m₁.map F = m₂.map G)
    (hgiven : ∀ n, given = some n →
      ∀ a b, F a = G b → (s.handle a = some n ↔ s.handle b = some n))
    (hnew : verb.allocates = true → F new₁ = G new₂)
    (hchange : ∀ c, s.Changes c → ∀ a, F (c a) = c (F a) ∧ G (c a) = c (G a)) :
    Alike (fun n₁ n₂ => n₁.map F = n₂.map G) (s.apply m₁ among verb key given new₁)
      (s.apply m₂ among verb key given new₂) := by
  -- the same key is meant, and only what is there under it decides
  refine Alike.bind_same (resolve_eq hm hgiven) fun key => ?_
  have hcontains : m₁.contains key = m₂.contains key := by
    rw [← SortedMap.contains_map m₁ F, hm, SortedMap.contains_map]
  have hmodify : ∀ c, s.Changes c → (m₁.modify key c).map F = (m₂.modify key c).map G := by
    intro c hc
    rw [SortedMap.map_modify m₁ F fun a _ => (hchange c hc a).1,
      SortedMap.map_modify m₂ G fun a _ => (hchange c hc a).2, hm]
  refine Alike.bind_same (by rw [hcontains]) fun _ => ?_
  cases verb with
  | add =>
    refine .ok ?_
    rw [SortedMap.map_insertIfNew, SortedMap.map_insertIfNew, hm, hnew rfl]
  | create =>
    refine .ok ?_
    rw [SortedMap.map_insertIfNew, SortedMap.map_insertIfNew, hm, hnew rfl]
  | delete =>
    refine .ok ?_
    rw [SortedMap.map_erase, SortedMap.map_erase, hm]
  | destroy =>
    refine .ok ?_
    rw [SortedMap.map_erase, SortedMap.map_erase, hm]
  | flush =>
    cases hf : s.flush with
    | none =>
      simp only [act, hf]
      exact .error _
    | some c =>
      simp only [act, hf]
      exact .ok (hmodify c (.inl hf))
  | reset =>
    cases hf : s.reset with
    | none =>
      simp only [act, hf]
      exact .error _
    | some c =>
      simp only [act, hf]
      exact .ok (hmodify c (.inr hf))
  | insert => exact .error _
  | replace => exact .error _

end Shelf

/-! ## Rules -/

variable {f g : Option Nat → Option Nat}

/-- What is looked for in two lists that agree under two views stands at the same place. -/
theorem findIdx?_of_map_eq {α β γ : Type} {F : α → γ} {G : β → γ} {l₁ : List α} {l₂ : List β}
    (h : l₁.map F = l₂.map G) {p : α → Bool} {q : β → Bool}
    (hpq : ∀ a b, F a = G b → p a = q b) : l₁.findIdx? p = l₂.findIdx? q := by
  induction l₁ generalizing l₂ with
  | nil =>
    cases l₂ with
    | nil => rfl
    | cons b l₂ => cases h
  | cons a l₁ ih =>
    cases l₂ with
    | nil => cases h
    | cons b l₂ =>
      obtain ⟨hab, hrest⟩ := List.cons.inj h
      rw [List.findIdx?_cons, List.findIdx?_cons, hpq a b hab, ih hrest]

namespace ChainState

theorem position?_eq {c₁ c₂ : ChainState} {r : Rule} (h : c₁.mapHandles f = c₂.mapHandles g)
    (hr : (Object.rule r).SeenAlike f g) : c₁.position? r = c₂.position? r := by
  have hname : c₁.chain.name = c₂.chain.name := congrArg (fun c => c.chain.name) h
  have hrules : c₁.rules.map (Rule.mapHandle f) = c₂.rules.map (Rule.mapHandle g) :=
    congrArg ChainState.rules h
  have hlength : c₁.rules.length = c₂.rules.length := by
    simpa only [List.length_map] using congrArg List.length hrules
  cases hhandle : r.handle with
  | none =>
    -- an index is compared with the number of rules only
    simp only [position?, hhandle, hname, hlength]
    cases r.index <;> rfl
  | some n =>
    have hfind := findIdx?_of_map_eq hrules (p := (·.handle = some n)) (q := (·.handle = some n))
      fun a b hab => decide_eq_decide.mpr (hr n hhandle _ _ (congrArg Rule.handle hab))
    simp only [position?, hhandle, hname, hfind]

theorem editRules_alike {l₁ l₂ : List Rule} {verb : Verb} {r : Rule} {position : Option Nat}
    {h₁ h₂ : Nat} (hl : l₁.map (Rule.mapHandle f) = l₂.map (Rule.mapHandle g))
    (hnew : verb.allocates = true → f (some h₁) = g (some h₂)) :
    Alike (fun l₁ l₂ => l₁.map (Rule.mapHandle f) = l₂.map (Rule.mapHandle g))
      (editRules l₁ verb r position h₁) (editRules l₂ verb r position h₂) := by
  have hlength : l₁.length = l₂.length := by
    simpa only [List.length_map] using congrArg List.length hl
  have hinsert : verb.allocates = true → ∀ i,
      (l₁.insertIdx i { r with index := none, handle := some h₁ }).map (Rule.mapHandle f)
        = (l₂.insertIdx i { r with index := none, handle := some h₂ }).map (Rule.mapHandle g) := by
    intro halloc i
    rw [List.map_insertIdx, List.map_insertIdx, hl, Rule.mapHandle, Rule.mapHandle]
    simp only [hnew halloc]
  cases verb with
  | add =>
    refine .ok ?_
    rw [hlength]
    exact hinsert rfl _
  | insert => exact .ok (hinsert rfl _)
  | replace =>
    refine Alike.bind_same rfl fun i => ?_
    -- the new rule takes over the number that stands in its place
    have hmodify : ∀ (F : Option Nat → Option Nat) (l : List Rule),
        (l.modify i fun old => { r with index := none, handle := old.handle }).map
            (Rule.mapHandle F)
          = (l.map (Rule.mapHandle F)).modify i fun old =>
            { r with index := none, handle := old.handle } := by
      intro F l
      refine List.ext_getElem? fun j => ?_
      rw [List.getElem?_map, List.getElem?_modify, List.getElem?_modify, List.getElem?_map]
      cases l[j]? with
      | none => simp
      | some old =>
        by_cases hij : i = j <;> simp [hij, Rule.mapHandle]
    refine .ok ?_
    rw [hmodify, hmodify, hl]
  | delete =>
    refine Alike.bind_same rfl fun i => ?_
    refine .ok ?_
    rw [← List.eraseIdx_map, ← List.eraseIdx_map, hl]
  | create => exact .error _
  | destroy => exact .error _
  | flush => exact .error _
  | reset => exact .error _

end ChainState

/-! ## Tables -/

namespace TableState

/-- What can be referred to in the one table can be referred to in the other. -/
structure SameNames (t₁ t₂ : TableState) : Prop where
  flowtables : ∀ name, t₁.flowtables.contains name = t₂.flowtables.contains name
  chains : ∀ name, t₁.chains.contains name = t₂.chains.contains name
  sets : ∀ name, t₁.sets.contains name = t₂.sets.contains name
  maps : ∀ name, t₁.maps.contains name = t₂.maps.contains name

theorem SameNames.checkReferences {t₁ t₂ : TableState} (h : SameNames t₁ t₂) (text : String) :
    t₁.checkReferences text = t₂.checkReferences text := by
  have hresolves : ∀ r : Reference, r.resolvesIn t₁ = r.resolvesIn t₂ := by
    intro r
    cases r with
    | map name => exact h.maps name
    | flowtable name => exact h.flowtables name
    | setOrMap name =>
      rw [Reference.resolvesIn, Reference.resolvesIn, h.sets, h.maps]
    | chain name => exact h.chains name
  unfold TableState.checkReferences
  simp only [hresolves]

/-- References look at names alone. -/
theorem checkReferences_mapHandles (t : TableState) (f : Option Nat → Option Nat) (text : String) :
    (t.mapHandles f).checkReferences text = t.checkReferences text :=
  SameNames.checkReferences
    ⟨fun _ => SortedMap.contains_map _ _ _, fun _ => SortedMap.contains_map _ _ _,
      fun _ => SortedMap.contains_map _ _ _, fun _ => SortedMap.contains_map _ _ _⟩ text

variable {t₁ t₂ : TableState} {defines : List Define} {verb : Verb} {h₁ h₂ : Nat}

theorem checkReferences_eq (h : t₁.mapHandles f = t₂.mapHandles g) (text : String) :
    t₁.checkReferences text = t₂.checkReferences text := by
  rw [← checkReferences_mapHandles t₁ f, h, checkReferences_mapHandles]

theorem mapHandles_flush (t : TableState) (f : Option Nat → Option Nat) :
    t.flush.mapHandles f = (t.mapHandles f).flush := by
  have hmap : ∀ {σ : Type} (m : SortedMap String σ) (F c : σ → σ), (∀ a, F (c a) = c (F a)) →
      (m.map c).map F = (m.map F).map c := by
    intro σ m F c hc
    refine SortedMap.ext fun k => ?_
    simp [Function.comp_def, hc]
  rw [flush, mapHandles, mapHandles, flush]
  dsimp only
  rw [hmap t.chains (ChainState.mapHandles f) ChainState.flush fun _ => rfl,
    hmap t.sets (SetState.mapHandle f) SetState.flush fun _ => rfl,
    hmap t.maps (MapState.mapHandle f) MapState.flush fun _ => rfl]

theorem applyRule_alike (h : t₁.mapHandles f = t₂.mapHandles g) {r : Rule}
    (hr : (Object.rule r).SeenAlike f g)
    (hnew : verb.allocates = true → f (some h₁) = g (some h₂)) :
    Alike (fun t₁ t₂ => t₁.mapHandles f = t₂.mapHandles g) (t₁.applyRule defines verb h₁ r)
      (t₂.applyRule defines verb h₂ r) := by
  obtain ⟨htable, hflowtables, hchains, hsets, hmaps, hcounters⟩ := mapHandles_eq_iff.mp h
  unfold applyRule
  -- the chain is there in both tables or in neither
  rcases SortedMap.get?_of_map_eq hchains r.chain with ⟨hc₁, hc₂⟩ | ⟨c₁, c₂, hc₁, hc₂, hc⟩
  · rw [hc₁, hc₂]
    exact .error _
  · rw [hc₁, hc₂]
    -- references are checked on names, the place on the number that is seen alike
    refine Alike.check_if (checkReferences_eq h _) ?_
    refine Alike.bind_same (ChainState.position?_eq hc hr) fun position => ?_
    have hrules : c₁.rules.map (Rule.mapHandle f) = c₂.rules.map (Rule.mapHandle g) :=
      congrArg ChainState.rules hc
    refine (ChainState.editRules_alike hrules hnew).bind fun l₁ l₂ hl => .ok ?_
    refine mapHandles_eq_iff.mpr ⟨htable, hflowtables, ?_, hsets, hmaps, hcounters⟩
    -- changing the rules of one chain and renaming all numbers commute
    have hmodify : ∀ (F : Option Nat → Option Nat) (t : TableState) (l : List Rule),
        (t.chains.modify r.chain fun c => { c with rules := l }).map (ChainState.mapHandles F)
          = (t.chains.map (ChainState.mapHandles F)).modify r.chain fun c =>
            { c with rules := l.map (Rule.mapHandle F) } :=
      fun F t l => SortedMap.map_modify _ _ fun _ _ => rfl
    exact (hmodify f t₁ l₁).trans (by rw [hchains, hl, hmodify])

theorem applyElement_alike (h : t₁.mapHandles f = t₂.mapHandles g) (e : Element) :
    Alike (fun t₁ t₂ => t₁.mapHandles f = t₂.mapHandles g) (t₁.applyElement defines verb e)
      (t₂.applyElement defines verb e) := by
  obtain ⟨htable, hflowtables, hchains, hsets, hmaps, hcounters⟩ := mapHandles_eq_iff.mp h
  unfold applyElement
  refine Alike.check_if (checkReferences_eq h _) ?_
  dsimp only
  split
  · rename_i name hn
    rcases SortedMap.get?_of_map_eq hsets name with ⟨hs₁, hs₂⟩ | ⟨s₁, s₂, hs₁, hs₂, hs⟩
    · rw [hs₁, hs₂]
      exact .error _
    · rw [hs₁, hs₂]
      -- elements have no numbers, so both sets have the same ones
      obtain ⟨-, helements⟩ := SetState.mk.inj hs
      dsimp only
      rw [helements]
      refine Alike.bind_same rfl fun elements => .ok ?_
      refine mapHandles_eq_iff.mpr ⟨htable, hflowtables, hchains, ?_, hmaps, hcounters⟩
      have hmodify : ∀ (F : Option Nat → Option Nat) (t : TableState),
          (t.sets.modify name fun s => { s with elements }).map (SetState.mapHandle F)
            = (t.sets.map (SetState.mapHandle F)).modify name fun s => { s with elements } :=
        fun F t => SortedMap.map_modify _ _ fun _ _ => rfl
      exact (hmodify f t₁).trans (by rw [hsets, hmodify])
  · rename_i name hn hs
    rcases SortedMap.get?_of_map_eq hmaps name with ⟨hm₁, hm₂⟩ | ⟨m₁, m₂, hm₁, hm₂, hm⟩
    · rw [hm₁, hm₂]
      exact .error _
    · rw [hm₁, hm₂]
      obtain ⟨-, helements⟩ := MapState.mk.inj hm
      dsimp only
      rw [helements]
      refine Alike.bind_same rfl fun elements => .ok ?_
      refine mapHandles_eq_iff.mpr ⟨htable, hflowtables, hchains, hsets, ?_, hcounters⟩
      have hmodify : ∀ (F : Option Nat → Option Nat) (t : TableState),
          (t.maps.modify name fun m => { m with elements }).map (MapState.mapHandle F)
            = (t.maps.map (MapState.mapHandle F)).modify name fun m => { m with elements } :=
        fun F t => SortedMap.map_modify _ _ fun _ _ => rfl
      exact (hmodify f t₁).trans (by rw [hmaps, hmodify])
  · exact .error _

/--
**Inside tables that agree, a command does the same**, if the number that it names is seen alike.
-/
theorem step_alike (h : t₁.mapHandles f = t₂.mapHandles g) {o : Object} (ho : o.SeenAlike f g)
    (hnew : verb.allocates = true → f (some h₁) = g (some h₂)) :
    Alike (fun t₁ t₂ => t₁.mapHandles f = t₂.mapHandles g) (t₁.step defines verb h₁ o)
      (t₂.step defines verb h₂ o) := by
  obtain ⟨htable, hflowtables, hchains, hsets, hmaps, hcounters⟩ := mapHandles_eq_iff.mp h
  cases o with
  | table t => exact .error _
  | chain c =>
    refine (Shelf.apply_alike hchains ?_ (fun halloc => ?_) ?_).bind fun n₁ n₂ hn => .ok ?_
    · exact fun n hn a b hab => ho n hn _ _ (congrArg (fun c : ChainState => c.chain.handle) hab)
    · simp [ChainState.mapHandles, hnew halloc]
    · rintro d (hd | hd) a <;> cases hd
      exact ⟨rfl, rfl⟩
    · exact mapHandles_eq_iff.mpr ⟨htable, hflowtables, hn, hsets, hmaps, hcounters⟩
  | rule r => exact applyRule_alike h ho hnew
  | set s =>
    refine (Shelf.apply_alike hsets ?_ (fun halloc => ?_) ?_).bind fun n₁ n₂ hn => .ok ?_
    · exact fun n hn a b hab => ho n hn _ _ (congrArg (fun s : SetState => s.set.handle) hab)
    · simp [SetState.mapHandle, hnew halloc]
    · rintro d (hd | hd) a <;> cases hd
      exact ⟨rfl, rfl⟩
    · exact mapHandles_eq_iff.mpr ⟨htable, hflowtables, hchains, hn, hmaps, hcounters⟩
  | map m =>
    refine (Shelf.apply_alike hmaps ?_ (fun halloc => ?_) ?_).bind fun n₁ n₂ hn => .ok ?_
    · exact fun n hn a b hab => ho n hn _ _ (congrArg (fun m : MapState => m.map.handle) hab)
    · simp [MapState.mapHandle, hnew halloc]
    · rintro d (hd | hd) a <;> cases hd
      exact ⟨rfl, rfl⟩
    · exact mapHandles_eq_iff.mpr ⟨htable, hflowtables, hchains, hsets, hn, hcounters⟩
  | element e => exact applyElement_alike h e
  | flowtable x =>
    refine (Shelf.apply_alike hflowtables ?_ (fun halloc => ?_) ?_).bind fun n₁ n₂ hn => .ok ?_
    · exact fun n hn a b hab => ho n hn _ _ (congrArg Flowtable.handle hab)
    · simp [Flowtable.mapHandle, hnew halloc]
    · rintro d (hd | hd) a <;> cases hd
    · exact mapHandles_eq_iff.mpr ⟨htable, hn, hchains, hsets, hmaps, hcounters⟩
  | counter c =>
    refine (Shelf.apply_alike hcounters ?_ (fun halloc => ?_) ?_).bind fun n₁ n₂ hn => .ok ?_
    · exact fun n hn a b hab => ho n hn _ _ (congrArg Counter.handle hab)
    · simp [Counter.mapHandle, hnew halloc]
    · rintro d (hd | hd) a <;> cases hd
      exact ⟨rfl, rfl⟩
    · exact mapHandles_eq_iff.mpr ⟨htable, hflowtables, hchains, hsets, hmaps, hn⟩

end TableState

/-! ## The ruleset -/

namespace Ruleset

variable {r₁ r₂ : Ruleset} {defines : List Define} {op : Operation} {h₁ h₂ : Nat}

/--
**On rulesets that agree, an operation does the same**, if the number that it names is seen alike.
-/
theorem step_alike (h : r₁.mapHandles f = r₂.mapHandles g) (ho : op.object.SeenAlike f g)
    (hnew : op.verb.allocates = true → f (some h₁) = g (some h₂)) :
    Alike (fun r₁ r₂ => r₁.mapHandles f = r₂.mapHandles g) (r₁.step defines h₁ op)
      (r₂.step defines h₂ op) := by
  have htables :
      r₁.tables.map (TableState.mapHandles f) = r₂.tables.map (TableState.mapHandles g) :=
    congrArg tables h
  unfold step
  split
  · rename_i t hobject
    rw [hobject] at ho
    unfold applyTable
    split
    · exact .error _
    · refine (Shelf.apply_alike htables ?_ (fun halloc => ?_) ?_).bind fun n₁ n₂ hn => .ok ?_
      · exact fun n hn a b hab => ho n hn _ _ (congrArg (fun t : TableState => t.table.handle) hab)
      · rw [TableState.mapHandles_eq_iff]
        exact ⟨by simp [Table.mapHandle, hnew halloc], rfl, rfl, rfl, rfl, rfl⟩
      · -- `flush` is the one change that tables have
        rintro d (hd | hd) t <;> cases hd
        exact ⟨t.mapHandles_flush f, t.mapHandles_flush g⟩
      · exact congrArg Ruleset.mk hn
  · rename_i family name hscope _
    rcases SortedMap.get?_of_map_eq htables ⟨family, name⟩ with ⟨ht₁, ht₂⟩ | ⟨t₁, t₂, ht₁, ht₂, ht⟩
    · rw [ht₁, ht₂]
      exact .error _
    · rw [ht₁, ht₂]
      refine (TableState.step_alike ht ho hnew).bind fun t₁' t₂' ht' => .ok ?_
      have hmodify : ∀ (F : Option Nat → Option Nat) (r : Ruleset) (t' : TableState),
          (r.tables.modify ⟨family, name⟩ fun _ => t').map (TableState.mapHandles F)
            = (r.tables.map (TableState.mapHandles F)).modify ⟨family, name⟩ fun _ =>
              t'.mapHandles F :=
        fun F r t' => SortedMap.map_modify _ _ fun _ _ => rfl
      refine congrArg Ruleset.mk ((hmodify f r₁ t₁').trans ?_)
      rw [htables, ht', hmodify]
  · exact .error _

end Ruleset

end Nftables
