import Nftables.Proofs.ByteOrder
import Nftables.Proofs.Entry
import Nftables.Proofs.Presence

/-!
# Objects can be added in any order

What is declared in a ruleset is found again by its table, its kind and its name. Adding declares an
object and leaves all others as they are, so what objects leave behind, handles apart, does not
depend on the order in which they are added; only a table has to come before what is put into it.

Swapping two neighbouring additions would be the obvious induction, but it needs a ruleset between
them in which either may come first, and a lemma for every pair of kinds. Instead the ruleset is
described by the objects alone: `Ruleset.Declares` says which tables and which entries it has, in
terms of membership in a list and not of its order. One addition preserves the description
(`Declares.add`), so a whole run ends in it (`Declares.apply`), and two rulesets with the same
description are equal up to their handles (`Declares.eraseHandles_eq`). Permuted lists have the same
members, and nothing about swapping is left to prove.

Handles are the one thing that does depend on the order: they are drawn in it. So all descriptions
are of the ruleset without them, and an object must not bring one along.
-/

namespace Nftables

/-! ## Entries tell their table -/

/-- The entry with `f` applied to its handle, and to those of the rules in it. -/
def Entry.mapHandles (f : Option Nat → Option Nat) : Entry → Entry
  | .flowtable x => .flowtable (x.mapHandle f)
  | .chain c => .chain (c.mapHandles f)
  | .set s => .set (s.mapHandle f)
  | .map m => .map (m.mapHandle f)
  | .counter c => .counter (c.mapHandle f)

namespace TableState

variable {t t₁ t₂ t' : TableState} {defines : List Define}

theorem get?_mapHandles (f : Option Nat → Option Nat) (t : TableState) (kind : Kind)
    (name : String) : (t.mapHandles f).get? kind name
      = (t.get? kind name).map (Entry.mapHandles f) := by
  cases kind <;> simp [get?, mapHandles, Function.comp_def, Entry.mapHandles]

/-- A table is told by its head and its entries. -/
theorem ext_get? (htable : t₁.table = t₂.table)
    (hget : ∀ kind name, t₁.get? kind name = t₂.get? kind name) : t₁ = t₂ := by
  -- one shelf at a time: the entries of its kind are its values under a constructor
  have hshelf : ∀ {σ : Type} {kind : Kind} {m₁ m₂ : SortedMap String σ} {entry : σ → Entry},
      Function.Injective entry → t₁.Shows kind m₁ entry → t₂.Shows kind m₂ entry → m₁ = m₂ := by
    intro σ kind m₁ m₂ entry hinj h₁ h₂
    refine SortedMap.ext fun name => Option.map_injective hinj ?_
    rw [← h₁.get?, ← h₂.get?, hget]
  have hflowtables :=
    hshelf (fun _ _ => Entry.flowtable.inj) t₁.shows_flowtables t₂.shows_flowtables
  have hchains := hshelf (fun _ _ => Entry.chain.inj) t₁.shows_chains t₂.shows_chains
  have hsets := hshelf (fun _ _ => Entry.set.inj) t₁.shows_sets t₂.shows_sets
  have hmaps := hshelf (fun _ _ => Entry.map.inj) t₁.shows_maps t₂.shows_maps
  have hcounters := hshelf (fun _ _ => Entry.counter.inj) t₁.shows_counters t₂.shows_counters
  cases t₁
  cases t₂
  simp_all

theorem ChangesKind.get?_insert {σ : Type} {kind : Kind} {m : SortedMap String σ}
    {entry : σ → Entry} {name : String} {a : σ}
    (h : t.ChangesKind t' kind m (m.insert name a) entry) (k : Kind) (n : String) :
    t'.get? k n = if (k, n) = (kind, name) then some (entry a) else t.get? k n := by
  by_cases hk : k = kind
  · subst hk
    rw [h.after.get?, h.before.get?, SortedMap.get?_insert]
    by_cases hn : n = name <;> simp [hn]
  · rw [h.others k hk n, if_neg (by simp [hk])]

end TableState

/-! ## What an object leaves behind -/

/-- What is stored for an object of a table that is added, before it has a handle. -/
def Object.entry? (defines : List Define) : Object → Option Entry
  | .flowtable f => some (.flowtable f)
  | .chain c => some (.chain { chain := c })
  | .set s => some (.set { set := { s with spec := s.spec.substitute defines } })
  | .map m => some (.map { map := { m with spec := m.spec.substitute defines } })
  | .counter c =>
    some (.counter { c with packets := some (c.packets.getD 0), bytes := some (c.bytes.getD 0) })
  | .table _ | .rule _ | .element _ => none

/-- What an object is about: its scope, and in a table a kind and a name. -/
def Object.target (o : Object) : Scope × Option (Kind × String) := (o.scope, o.entryName?)

/-- The object is a table or one that a table keeps by name. -/
def Object.Declarable (o : Object) : Prop := o.kind ≠ .rule ∧ o.kind ≠ .element

instance (o : Object) : Decidable o.Declarable :=
  inferInstanceAs (Decidable (o.kind ≠ .rule ∧ o.kind ≠ .element))

theorem Object.eq_table_of_kind {o : Object} (h : o.kind = .table) : ∃ x, o = .table x := by
  cases o with
  | table x => exact ⟨x, rfl⟩
  | _ => cases h

theorem Object.exists_entryName? {o : Object} (hdecl : o.Declarable) (hkind : o.kind ≠ .table) :
    ∃ kind name, o.entryName? = some (kind, name) := by
  cases o with
  | table x => exact absurd rfl hkind
  | rule x => exact absurd rfl hdecl.1
  | element e => exact absurd rfl hdecl.2
  | _ => exact ⟨_, _, rfl⟩

/-- **To add an object makes it an entry of its table**, and changes no other. -/
theorem TableState.step_add_new {t : TableState} {o : Object} {kind : Kind} {name : String}
    (defines : List Define) (n : Nat) (hdecl : o.Declarable) (ho : o.handle = none)
    (hname : o.entryName? = some (kind, name)) (hnew : t.get? kind name = none) :
    ∃ t' e, t.step defines .add n o = .ok t' ∧ o.entry? defines = some e ∧
      t'.eraseHandles.table = t.eraseHandles.table ∧
      ∀ k m, t'.eraseHandles.get? k m =
        if (k, m) = (kind, name) then some e else t.eraseHandles.get? k m := by
  -- what an insertion does to one shelf, in view of all entries and without handles
  have herased : ∀ {σ : Type} {t' : TableState} {m : SortedMap String σ} {entry : σ → Entry}
      {a : σ} {e : Entry}, t.ChangesKind t' kind m (m.insert name a) entry →
      (entry a).mapHandles (fun _ => none) = e → ∀ k m, t'.eraseHandles.get? k m =
        if (k, m) = (kind, name) then some e else t.eraseHandles.get? k m := by
    intro σ t' m entry a e hchange he k m
    rw [eraseHandles, eraseHandles, get?_mapHandles, get?_mapHandles, hchange.get?_insert]
    split
    · rw [Option.map_some, he]
    · rfl
  cases o with
  | table x => cases hname
  | rule x => exact absurd rfl hdecl.1
  | element e => exact absurd rfl hdecl.2
  | flowtable f =>
    cases hname
    obtain ⟨_, _, _, _, _⟩ := f
    cases ho
    exact ⟨_, _, bind_of_ok (Shelf.apply_add (Option.map_eq_none_iff.mp hnew)), rfl, rfl,
      herased (t.changes_flowtables _) rfl⟩
  | chain c =>
    cases hname
    obtain ⟨_, _, _, _, _, _, _, _⟩ := c
    cases ho
    exact ⟨_, _, bind_of_ok (Shelf.apply_add (Option.map_eq_none_iff.mp hnew)), rfl, rfl,
      herased (t.changes_chains _) rfl⟩
  | set s =>
    cases hname
    obtain ⟨_, _, _, _, _⟩ := s
    cases ho
    exact ⟨_, _, bind_of_ok (Shelf.apply_add (Option.map_eq_none_iff.mp hnew)), rfl, rfl,
      herased (t.changes_sets _) rfl⟩
  | map m =>
    cases hname
    obtain ⟨_, _, _, _⟩ := m
    cases ho
    exact ⟨_, _, bind_of_ok (Shelf.apply_add (Option.map_eq_none_iff.mp hnew)), rfl, rfl,
      herased (t.changes_maps _) rfl⟩
  | counter c =>
    cases hname
    obtain ⟨_, _, _, _, _, _⟩ := c
    cases ho
    exact ⟨_, _, bind_of_ok (Shelf.apply_add (Option.map_eq_none_iff.mp hnew)), rfl, rfl,
      herased (t.changes_counters _) rfl⟩

/-! ## The ruleset -/

namespace Ruleset

variable {r r₁ r₂ : Ruleset} {defines : List Define} {objs objs₁ objs₂ : List Object}

/-- Handles apart, the ruleset is what the objects make when they are added. -/
structure Declares (defines : List Define) (r : Ruleset) (objs : List Object) : Prop where
  table_iff : ∀ key x, (r.eraseHandles.tables.get? key).map TableState.table = some x ↔
    .table x ∈ objs ∧ x.scope = key.scope
  entry_iff : ∀ key kind name e,
    ((r.eraseHandles.tables.get? key).bind fun t => t.get? kind name) = some e ↔
      ∃ o ∈ objs, o.scope = key.scope ∧ o.entryName? = some (kind, name) ∧ o.entry? defines = some e

theorem declares_nil (defines : List Define) : Declares defines {} [] where
  table_iff key x := by simp [eraseHandles, mapHandles]
  entry_iff key kind name e := by simp [eraseHandles, mapHandles]

/-- **Objects tell what they make**, whatever their order. -/
theorem Declares.eraseHandles_eq (h₁ : r₁.Declares defines objs₁) (h₂ : r₂.Declares defines objs₂)
    (hmem : ∀ o, o ∈ objs₁ ↔ o ∈ objs₂) : r₁.eraseHandles = r₂.eraseHandles := by
  refine congrArg Ruleset.mk (SortedMap.ext fun key => ?_)
  -- the same tables have the same heads, and in them the same entries
  have htable : (r₁.eraseHandles.tables.get? key).map TableState.table
      = (r₂.eraseHandles.tables.get? key).map TableState.table := by
    refine Option.ext fun x => ?_
    rw [h₁.table_iff, h₂.table_iff, hmem]
  have hentry : ∀ kind name,
      ((r₁.eraseHandles.tables.get? key).bind fun t => t.get? kind name)
        = (r₂.eraseHandles.tables.get? key).bind fun t => t.get? kind name := by
    intro kind name
    refine Option.ext fun e => ?_
    rw [h₁.entry_iff, h₂.entry_iff]
    simp only [hmem]
  change r₁.eraseHandles.tables.get? key = r₂.eraseHandles.tables.get? key
  -- a table that one of them lacks would have a head in the other
  cases ht₁ : r₁.eraseHandles.tables.get? key with
  | none =>
    rw [ht₁] at htable
    exact (Option.map_eq_none_iff.mp htable.symm).symm
  | some t₁ =>
    cases ht₂ : r₂.eraseHandles.tables.get? key with
    | none =>
      rw [ht₁, ht₂] at htable
      cases htable
    | some t₂ =>
      rw [ht₁, ht₂] at htable hentry
      exact congrArg some (TableState.ext_get? (Option.some.inj htable) hentry)

/-- Where no object names the table, there is none. -/
theorem Declares.get?_of_new (h : r.Declares defines objs) {key : TableKey}
    (hnew : ∀ x, .table x ∈ objs → x.scope ≠ key.scope) : r.tables.get? key = none := by
  cases ht : r.tables.get? key with
  | none => rfl
  | some t =>
    have hx := (h.table_iff key t.eraseHandles.table).mp
      (by simp [eraseHandles, mapHandles, ht]; rfl)
    exact absurd hx.2 (hnew _ hx.1)

/-- Where no object names the entry, its table has none of this kind and name. -/
theorem Declares.get?_entry_of_new (h : r.Declares defines objs) {key : TableKey} {t : TableState}
    (ht : r.tables.get? key = some t) {kind : Kind} {name : String}
    (hnew : ∀ o ∈ objs, o.scope = key.scope → o.entryName? ≠ some (kind, name)) :
    t.get? kind name = none := by
  have hsome : r.eraseHandles.tables.get? key = some t.eraseHandles := by
    rw [eraseHandles, mapHandles, SortedMap.get?_map, ht]
    rfl
  cases he : t.get? kind name with
  | none => rfl
  | some e =>
    -- an entry stands for an object of the list, and none of those has its name
    have herased : t.eraseHandles.get? kind name = some (e.mapHandles fun _ => none) := by
      rw [TableState.eraseHandles, TableState.get?_mapHandles, he, Option.map_some]
    have hentry := h.entry_iff key kind name (e.mapHandles fun _ => none)
    rw [hsome, Option.bind_some] at hentry
    obtain ⟨o, ho, hscope, hname, -⟩ := hentry.mp herased
    exact absurd hname (hnew o ho hscope)

/-- Where one table is put, it is the one that is there without its handles. -/
theorem get?_eraseHandles_of_put {tables : SortedMap TableKey TableState} {key : TableKey}
    {t : TableState} (h : ∀ k, tables.get? k = if k = key then some t else r.tables.get? k)
    (k : TableKey) : (eraseHandles ⟨tables⟩).tables.get? k =
      if k = key then some t.eraseHandles else r.eraseHandles.tables.get? k := by
  rw [eraseHandles, eraseHandles, mapHandles, mapHandles, SortedMap.get?_map, SortedMap.get?_map, h]
  split <;> rfl

/-- A table that is added is there, and it is empty. -/
theorem Declares.addTable (h : r.Declares defines objs) {x : Table} {key : TableKey}
    (hscope : x.scope = key.scope) (hhandle : x.handle = none)
    (hnew : (Object.table x).target ∉ objs.map Object.target) (n : Nat) :
    ∃ r', r.step defines n ⟨.add, .table x⟩ = .ok r' ∧
      r'.Declares defines (objs ++ [.table x]) := by
  -- the target of a table is its scope, so no table of this scope was added before
  have hother : ∀ x', .table x' ∈ objs → x'.scope ≠ key.scope := by
    intro x' hx' hscope'
    refine hnew (List.mem_map.mpr ⟨_, hx', ?_⟩)
    exact congrArg (fun s : Scope => (s, none)) (hscope'.trans hscope.symm)
  have hnone := h.get?_of_new hother
  refine ⟨⟨r.tables.insert key { table := { x with handle := some n } }⟩, ?_, ?_⟩
  · simp only [step, applyTable, hscope, TableKey.scope, hhandle]
    exact bind_of_ok (Shelf.apply_add hnone)
  have herased :
      TableState.eraseHandles { table := { x with handle := some n } } = { table := x } := by
    cases x
    cases hhandle
    rfl
  have hget := get?_eraseHandles_of_put fun k =>
    r.tables.get?_insert key k { table := { x with handle := some n } }
  rw [herased] at hget
  constructor
  · intro k y
    rw [hget]
    by_cases hk : k = key
    · subst hk
      simp only [if_true, Option.map_some, Option.some.injEq, List.mem_append,
        List.mem_singleton, Object.table.injEq]
      constructor
      · rintro rfl
        exact ⟨.inr rfl, hscope⟩
      · rintro ⟨hy | rfl, hscope'⟩
        · exact absurd hscope' (hother y hy)
        · rfl
    · rw [if_neg hk, h.table_iff]
      simp only [List.mem_append, List.mem_singleton, Object.table.injEq]
      refine and_congr_left fun hscope' => (or_iff_left ?_).symm
      rintro rfl
      exact hk (TableKey.scope_injective (hscope.symm.trans hscope')).symm
  · intro k kind name e
    -- a table is no entry, and there is none yet in a table that is new
    rw [hget]
    simp only [List.mem_append, List.mem_singleton, or_and_right, exists_or, exists_eq_left]
    have hno : (Object.table x).entryName? ≠ some (kind, name) := by
      rintro ⟨⟩
    rw [or_iff_left (fun hx => hno hx.2.1), ← h.entry_iff]
    by_cases hk : k = key
    · subst hk
      rw [if_pos rfl, eraseHandles, mapHandles, SortedMap.get?_map, hnone]
      cases kind <;> rfl
    · rw [if_neg hk]

/-- An object that is added to its table is one of its entries. -/
theorem Declares.addEntry (h : r.Declares defines objs) {o : Object} {key : TableKey}
    (hscope : o.scope = key.scope) (hdecl : o.Declarable) (hkind : o.kind ≠ .table)
    (hhandle : o.handle = none) (htable : ∃ x ∈ objs, x.kind = .table ∧ x.scope = key.scope)
    (hnew : o.target ∉ objs.map Object.target) (n : Nat) :
    ∃ r', r.step defines n ⟨.add, o⟩ = .ok r' ∧ r'.Declares defines (objs ++ [o]) := by
  obtain ⟨x, hx, hkindx, hscopex⟩ := htable
  obtain ⟨x, rfl⟩ := Object.eq_table_of_kind hkindx
  obtain ⟨t₀, ht₀, -⟩ := Option.map_eq_some_iff.mp ((h.table_iff key x).mpr ⟨hx, hscopex⟩)
  obtain ⟨t, ht, rfl⟩ := Option.map_eq_some_iff.mp ((SortedMap.get?_map ..).symm.trans ht₀)
  obtain ⟨kind, name, hname⟩ := Object.exists_entryName? hdecl hkind
  -- the name is free, for an object under it would have the same target
  have hfree : t.get? kind name = none := by
    refine h.get?_entry_of_new ht fun o' ho' hscope' hname' => hnew ?_
    exact List.mem_map.mpr ⟨o', ho', Prod.ext (hscope'.trans hscope.symm) (hname'.trans hname.symm)⟩
  obtain ⟨t', e, hstep, he, htable', hget'⟩ :=
    t.step_add_new defines n hdecl hhandle hname hfree
  refine ⟨⟨r.tables.modify key fun _ => t'⟩, ?_, ?_⟩
  · rw [step_inside hkind hscope, ht]
    exact bind_of_ok hstep
  have hget := get?_eraseHandles_of_put (SortedMap.get?_modify_const ht t')
  constructor
  · intro k x
    -- what was added is no table, so the tables are those from before
    have hself : ¬ (Object.table x = o) := by
      rintro rfl
      exact hkind rfl
    rw [hget]
    split
    · rename_i hk
      subst hk
      have hsame := h.table_iff k x
      rw [ht₀] at hsame
      simp only [List.mem_append, List.mem_singleton, hself, or_false, ← hsame, Option.map_some,
        htable']
      rfl
    · rw [h.table_iff]
      simp [hself]
  · intro k kind' name' e'
    rw [hget]
    simp only [List.mem_append, List.mem_singleton, or_and_right, exists_or, exists_eq_left]
    by_cases hk : k = key
    · subst hk
      rw [if_pos rfl, Option.bind_some, hget', ← h.entry_iff, ht₀, Option.bind_some]
      -- of this table, one entry is new and the others are as they were
      by_cases hn : (kind', name') = (kind, name)
      · cases hn
        have hgone : t.eraseHandles.get? kind name = none :=
          (TableState.get?_mapHandles _ t kind name).trans (by rw [hfree]; rfl)
        rw [if_pos rfl, hname, he]
        change _ ↔ t.eraseHandles.get? kind name = some e' ∨ _
        rw [hgone]
        simp [hscope]
      · rw [if_neg hn, or_iff_left]
        · rfl
        · rintro ⟨-, hname', -⟩
          exact hn (Option.some.inj (hname'.symm.trans hname))
    · rw [if_neg hk, ← h.entry_iff, or_iff_left]
      rintro ⟨hscope', -⟩
      exact hk (TableKey.scope_injective (hscope.symm.trans hscope')).symm

/-! ## Lists of objects -/

/-- Objects that are fit to be added, each about something else. -/
structure Addable (objs : List Object) : Prop where
  valid : ∀ o ∈ objs, o.validate .add = .ok ()
  declarable : ∀ o ∈ objs, o.Declarable
  distinct : (objs.map Object.target).Nodup

/-- The table of each object comes before the object. -/
def TablesFirst (objs : List Object) : Prop :=
  ∀ i (hi : i < objs.length), objs[i].kind ≠ .table →
    ∃ x ∈ objs.take i, x.kind = .table ∧ x.scope = objs[i].scope

instance (objs : List Object) : Decidable (TablesFirst objs) :=
  inferInstanceAs (Decidable (∀ i (hi : i < objs.length), objs[i].kind ≠ .table →
    ∃ x ∈ objs.take i, x.kind = .table ∧ x.scope = objs[i].scope))

theorem Addable.perm (h : Addable objs₁) (hperm : objs₁.Perm objs₂) : Addable objs₂ where
  valid o ho := h.valid o (hperm.mem_iff.mpr ho)
  declarable o ho := h.declarable o (hperm.mem_iff.mpr ho)
  distinct := (hperm.map _).nodup_iff.mp h.distinct

/-- **One more object.** -/
theorem Declares.add (h : r.Declares defines objs) {o : Object} {rest : List Object}
    (hadd : Addable (objs ++ o :: rest)) (hfirst : TablesFirst (objs ++ o :: rest)) (n : Nat) :
    ∃ r', r.step defines n ⟨.add, o⟩ = .ok r' ∧ r'.Declares defines (objs ++ [o]) := by
  have hmem : o ∈ objs ++ o :: rest := by simp
  have hvalid := hadd.valid o hmem
  have hdecl := hadd.declarable o hmem
  have hnew : o.target ∉ objs.map Object.target := by
    have hdistinct := hadd.distinct
    rw [List.map_append, List.map_cons, List.nodup_append] at hdistinct
    exact fun ho => hdistinct.2.2 _ ho _ List.mem_cons_self rfl
  obtain ⟨family, name, hscope, -⟩ := Object.scope_of_validate (by decide) hvalid
  have hscope : o.scope = TableKey.scope ⟨family, name⟩ := hscope
  have hhandle := Object.handle_of_puts (.inl rfl) hdecl.1 (Object.validateKind_of_validate hvalid)
  by_cases hkind : o.kind = .table
  · obtain ⟨x, rfl⟩ := Object.eq_table_of_kind hkind
    exact h.addTable hscope hhandle hnew n
  · have htable : ∃ x ∈ objs, x.kind = .table ∧ x.scope = o.scope := by
      simpa using hfirst objs.length (by simp) (by simpa using hkind)
    exact h.addEntry hscope hdecl hkind hhandle (hscope ▸ htable) hnew n

/-- **Objects that are added one after the other are all there**, and nothing else is. -/
theorem Declares.apply {objs rest : List Object} (h : r.Declares defines objs)
    (hadd : Addable (objs ++ rest)) (hfirst : TablesFirst (objs ++ rest)) (last : Nat) :
    (Ruleset.apply defines r last (rest.map (Operation.mk .add))).result = .ok () ∧
      (Ruleset.apply defines r last (rest.map (Operation.mk .add))).ruleset.Declares defines
        (objs ++ rest) := by
  induction rest generalizing r objs last with
  | nil => exact ⟨rfl, by rwa [List.append_nil]⟩
  | cons o rest ih =>
    obtain ⟨r', hstep, h'⟩ := h.add hadd hfirst (nextHandle last ⟨.add, o⟩)
    -- the object that was added moves to the front part of the list
    rw [List.append_cons] at hadd hfirst ⊢
    rw [List.map_cons, Ruleset.apply, hstep]
    exact ih h' hadd hfirst _

/-- Two orders of the same additions, with each table before its objects, make the same ruleset. -/
theorem apply_perm (defines : List Define) (hadd : Addable objs₁) (hperm : objs₁.Perm objs₂)
    (hfirst₁ : TablesFirst objs₁) (hfirst₂ : TablesFirst objs₂) (last₁ last₂ : Nat) :
    let out₁ := Ruleset.apply defines {} last₁ (objs₁.map (Operation.mk .add))
    let out₂ := Ruleset.apply defines {} last₂ (objs₂.map (Operation.mk .add))
    out₁.result = .ok () ∧ out₂.result = .ok () ∧
      out₁.ruleset.eraseHandles = out₂.ruleset.eraseHandles := by
  obtain ⟨hok₁, h₁⟩ := (declares_nil defines).apply hadd hfirst₁ last₁
  obtain ⟨hok₂, h₂⟩ := (declares_nil defines).apply (hadd.perm hperm) hfirst₂ last₂
  exact ⟨hok₁, hok₂, h₁.eraseHandles_eq h₂ fun _ => hperm.mem_iff⟩

/--
**The dump does not depend on the order of additions.** Objects of distinct targets, each fit to be
added, are added to the empty ruleset in two orders, in both of which the table of each object comes
before it. Both runs succeed, with rulesets that are equal once their handles are erased, and with
the same dump. In every ruleset that is reached, the tables are listed in the order of their bytes.
-/
theorem dump_orderless (defines : List Define) :
    (∀ (objs₁ objs₂ : List Object) (last₁ last₂ : Nat), Addable objs₁ → objs₁.Perm objs₂ →
      TablesFirst objs₁ → TablesFirst objs₂ →
      let out₁ := Ruleset.apply defines {} last₁ (objs₁.map (Operation.mk .add))
      let out₂ := Ruleset.apply defines {} last₂ (objs₂.map (Operation.mk .add))
      (out₁.result = .ok () ∧ out₂.result = .ok ()) ∧
        out₁.ruleset.eraseHandles = out₂.ruleset.eraseHandles ∧
        out₁.ruleset.dump = out₂.ruleset.dump) ∧
    ∀ (config : Config) (r : Ruleset) (last : Nat), Engine.Reached config r last →
      r.Lists r.tables.values := by
  constructor
  · intro objs₁ objs₂ last₁ last₂ hadd hperm hfirst₁ hfirst₂ out₁ out₂
    obtain ⟨hok₁, hok₂, heq⟩ := apply_perm defines hadd hperm hfirst₁ hfirst₂ last₁ last₂
    exact ⟨⟨hok₁, hok₂⟩, heq, dump_of_eraseHandles_eq heq⟩
  · intro config r last hr
    exact (hr.preserved (wellFormed_preserved _) wellFormed_empty).lists

/-- Two tables with the names of their objects in common, once by table and once by kind. -/
theorem dump_orderless_twoTables :
    let a : Scope := { family := some .ip6, table := some "t" }
    let b : Scope := { family := some .inet, table := some "t" }
    let defines : List Define := [⟨"ADDR", "ipv6_addr"⟩]
    let objs₁ : List Object :=
      [.table { scope := a }, .set { scope := a, name := "x", spec := { keyType := some "$ADDR" } },
        .chain { scope := a, name := "x" }, .table { scope := b, comment := some "last" },
        .map { scope := b, name := "x", spec := { keyType := some "$ADDR : verdict" } },
        .flowtable { scope := b, name := "x", priority := some "0", devices := ["eth0"] },
        .counter { scope := b, name := "x" }]
    let objs₂ : List Object :=
      [.table { scope := b, comment := some "last" }, .table { scope := a },
        .counter { scope := b, name := "x" },
        .flowtable { scope := b, name := "x", priority := some "0", devices := ["eth0"] },
        .chain { scope := a, name := "x" },
        .map { scope := b, name := "x", spec := { keyType := some "$ADDR : verdict" } },
        .set { scope := a, name := "x", spec := { keyType := some "$ADDR" } }]
    let out₁ := Ruleset.apply defines {} 0 (objs₁.map (Operation.mk .add))
    let out₂ := Ruleset.apply defines {} 5 (objs₂.map (Operation.mk .add))
    let calls : List Call := [.run {} (objs₁.map (Operation.mk .add))]
    let r := ((Engine.ofConfig { defines }).after calls).ruleset
    (Addable objs₁ ∧ objs₁.Perm objs₂ ∧ TablesFirst objs₁ ∧ TablesFirst objs₂) ∧
      out₁.ruleset.dump = out₂.ruleset.dump ∧ out₁.ruleset ≠ out₂.ruleset ∧
      r.Lists r.tables.values ∧ r.tables.values.map (fun t => t.table.scope) = [b, a] := by
  intro a b defines objs₁ objs₂ out₁ out₂ calls r
  have hadd : Addable objs₁ := ⟨by decide +kernel, by decide +kernel, by decide +kernel⟩
  have hperm : objs₁.Perm objs₂ := by decide +kernel
  have hfirst₁ : TablesFirst objs₁ := by decide +kernel
  have hfirst₂ : TablesFirst objs₂ := by decide +kernel
  obtain ⟨horder, hlists⟩ := dump_orderless defines
  have hreached : Engine.Reached { defines } r _ := .committed calls
  exact ⟨⟨hadd, hperm, hfirst₁, hfirst₂⟩, (horder _ _ 0 5 hadd hperm hfirst₁ hfirst₂).2.2,
    by decide +kernel, hlists _ r _ hreached, by decide +kernel⟩

end Ruleset

end Nftables
