import Nftables.Proofs.Entry
import Nftables.Proofs.Reload

/-!
# What an operation leaves alone

An operation is about one table, and inside a table about one entry of it. Nothing else changes;
a command on a rule or an element only changes what its entry contains, a table that is flushed
loses all contents and nothing more, and to add what is there changes nothing at all.

The frame is followed from the inside out. A command on a shelf changes the object of one key
(`Shelf.Effect.frame`), so a command in a table changes one entry of it (`Effect.framedBy`), and a
command on a ruleset one table (`framed_of_step`). At each level the key comes out of `resolve`: it
is the one that is named, except that a `delete` with a handle goes where the handle leads.
`Addresses` and `Targets` are those two cases, spelled out for tables and for entries.

"Changes nothing but" is worth little if the exception can be chosen. So `touches_only_target` also
says that the table and the entry are the only ones that the operation is about, on every ruleset
that can be reached.
-/

namespace Nftables

/-! ## What an operation is about -/

/--
The table that an operation is about: the one of its object's scope, or for a `delete` of a table
with a handle the one of the family that has it.
-/
inductive Ruleset.Addresses (r : Ruleset) (op : Operation) (key : TableKey) : Prop
  | named (hs : op.object.scope = key.scope)
    (hv : op.verb = .delete → op.object.kind = .table → op.object.handle = none)
  | handled (n : Nat) (t : TableState) (hk : op.object.kind = .table) (hv : op.verb = .delete)
    (hf : op.object.scope.family = some key.family) (hn : op.object.handle = some n)
    (ht : r.tables.get? key = some t) (htn : t.table.handle = some n)

namespace TableState

/-- The tables differ in nothing but the entry of this kind and name. -/
structure OnlyChanges (t t' : TableState) (kind : Kind) (name : String) : Prop where
  table : t'.table = t.table
  others : ∀ k n, (k, n) ≠ (kind, name) → t'.get? k n = t.get? k n

/-- The entry of this kind and name is there before and after, as the same object. -/
def KeepsObject (t t' : TableState) (kind : Kind) (name : String) : Prop :=
  ∃ e e', t.get? kind name = some e ∧ t'.get? kind name = some e' ∧ e'.object = e.object

/-- The table has the same objects afterwards, and none of them contains anything. -/
structure Emptied (t t' : TableState) : Prop where
  table : t'.table = t.table
  objects : ∀ kind name,
    (t'.get? kind name).map Entry.object = (t.get? kind name).map Entry.object
  contents : ∀ kind name e, t'.get? kind name = some e → e.contents = []

end TableState

/-! ## Shelves -/

/-- Only the object under the key that is resolved changes. -/
theorem Shelf.Effect.frame {κ σ : Type} [Ord κ] [Std.TransOrd κ] [Std.LawfulEqOrd κ]
    [DecidableEq κ] {s : Shelf κ σ} {m m' : SortedMap κ σ} {among : κ → Bool} {verb : Verb}
    {key : κ} {given : Option Nat} {new : σ} (he : s.Effect m among verb key given new m') :
    ∃ k, s.resolve m among verb key given = .ok k ∧ ∀ k' ≠ k, m'.get? k' = m.get? k' := by
  cases he with
  | keep hv hp => exact ⟨key, resolve_of_ne_delete (by simp [hv]), fun _ _ => rfl⟩
  | put hv ha =>
    have hne : verb ≠ .delete := by rcases hv with rfl | rfl <;> decide
    exact ⟨key, resolve_of_ne_delete hne, fun k' hk => by rw [SortedMap.get?_insert, if_neg hk]⟩
  | drop k hv hr hp => exact ⟨k, hr, fun k' hk => by rw [SortedMap.get?_erase, if_neg hk]⟩
  | change f hv hp =>
    have hne : verb ≠ .delete := by rcases hv with ⟨rfl, -⟩ | ⟨rfl, -⟩ <;> decide
    exact ⟨key, resolve_of_ne_delete hne, fun k' hk => by rw [SortedMap.get?_modify, if_neg hk]⟩

/-! ## Inside a table -/

namespace TableState

variable {defines : List Define} {verb : Verb} {handle : Nat} {t t' : TableState} {o : Object}

/-- One kind changes, and of it one name: so does one entry. -/
theorem ChangesKind.onlyChanges {σ : Type} {kind : Kind} {name : String} {m m' : SortedMap String σ}
    {entry : σ → Entry} (h : t.ChangesKind t' kind m m' entry)
    (hm : ∀ n ≠ name, m'.get? n = m.get? n) : t.OnlyChanges t' kind name where
  table := h.table
  others k n hne := by
    by_cases hk : k = kind
    · subst hk
      -- of the kind that changes, another name
      have hn : n ≠ name := fun hn => hne (by rw [hn])
      rw [h.before.get?, h.after.get?, hm n hn]
    · exact h.others k hk n

/-- What an operation inside a table does: it changes the entry that it is about. -/
def FramedBy (t t' : TableState) (verb : Verb) (o : Object) : Prop :=
  ∃ kind name, t.Targets verb o kind name ∧ t.OnlyChanges t' kind name ∧
    (o.name? = none → t.KeepsObject t' kind name)

/-- A command on a shelf of the table is about one entry. -/
theorem framedBy_of_shelf {σ : Type} {s : Shelf String σ} {name : String} {new : σ}
    {m m' : SortedMap String σ} {entry : σ → Entry}
    (he : s.Effect m (fun _ => true) verb name o.handle new m')
    (h : t.ChangesKind t' o.kind m m' entry)
    (hhandle : ∀ a, (entry a).object.handle = s.handle a)
    (ho : o.entryName? = some (o.kind, name)) (hname : o.name? ≠ none) : t.FramedBy t' verb o := by
  obtain ⟨k, hr, hm⟩ := he.frame
  refine ⟨o.kind, k, ?_, h.onlyChanges hm, fun hnone => absurd hnone hname⟩
  rcases Shelf.resolve_eq_ok hr with ⟨hv, rfl⟩ | ⟨n, a, hv, hn, ha, -, han⟩
  -- the key is the named one, or the one that the handle leads to
  · exact .named _ _ ho fun hd => .inr (hv hd)
  · exact .handled k n (entry a) hv hn (h.before.entry ha) ((hhandle a).trans han)

/-- A command on what an entry contains leaves the entry's object as it is. -/
theorem framedBy_of_modify {σ : Type} {kind : Kind} {name : String} {m : SortedMap String σ}
    {entry : σ → Entry} {f : σ → σ} {a : σ} (ha : m.get? name = some a)
    (h : t.ChangesKind t' kind m (m.modify name f) entry)
    (hobject : (entry (f a)).object = (entry a).object) (ho : o.entryName? = some (kind, name))
    (hname : o.name? = none) : t.FramedBy t' verb o := by
  have hother : ∀ n ≠ name, (m.modify name f).get? n = m.get? n := fun n hn => by
    rw [SortedMap.get?_modify, if_neg hn]
  have hfa : (m.modify name f).get? name = some (f a) := by
    rw [SortedMap.get?_modify, if_pos rfl, ha]
    rfl
  refine ⟨kind, name, .named _ _ ho fun _ => .inl hname, h.onlyChanges hother, fun _ => ?_⟩
  exact ⟨entry a, entry (f a), h.before.entry ha, h.after.entry hfa, hobject⟩

/-- **A command inside a table changes the entry that it is about, and nothing else.** -/
theorem Effect.framedBy (he : t.Effect defines verb handle o t') : t.FramedBy t' verb o := by
  cases he with
  | chain c chains he =>
    exact framedBy_of_shelf he (t.changes_chains chains) (fun _ => rfl) rfl (Option.some_ne_none _)
  | set s sets he =>
    exact framedBy_of_shelf he (t.changes_sets sets) (fun _ => rfl) rfl (Option.some_ne_none _)
  | map m maps he =>
    exact framedBy_of_shelf he (t.changes_maps maps) (fun _ => rfl) rfl (Option.some_ne_none _)
  | flowtable f flowtables he =>
    exact framedBy_of_shelf he (t.changes_flowtables flowtables) (fun _ => rfl) rfl
      (Option.some_ne_none _)
  | counter c counters he =>
    exact framedBy_of_shelf he (t.changes_counters counters) (fun _ => rfl) rfl
      (Option.some_ne_none _)
  | rule x c rules hc href he => exact framedBy_of_modify hc (t.changes_chains _) rfl rfl rfl
  | setElement e name s elements hn hs href he =>
    have hentry : (Object.element e).entryName? = some (.set, name) := by
      simp [Object.entryName?, hn]
    exact framedBy_of_modify hs (t.changes_sets _) rfl hentry rfl
  | mapElement e name m elements hset hn hm href he =>
    have hentry : (Object.element e).entryName? = some (.map, name) := by
      simp [Object.entryName?, hset, hn]
    exact framedBy_of_modify hm (t.changes_maps _) rfl hentry rfl

/-- Flushing takes out what the entries contain, and nothing else. -/
theorem emptied_flush (t : TableState) : t.Emptied t.flush where
  table := rfl
  objects kind name := by
    cases kind with
    | chain | set | map =>
      simp only [get?, flush, SortedMap.get?_map, Option.map_map]
      rfl
    | _ => rfl
  contents kind name e he := by
    cases kind with
    | table | rule | element => cases he
    | flowtable | counter =>
      obtain ⟨a, -, rfl⟩ := Option.map_eq_some_iff.mp he
      rfl
    | chain | set | map =>
      simp only [get?, flush, SortedMap.get?_map, Option.map_map] at he
      obtain ⟨a, -, rfl⟩ := Option.map_eq_some_iff.mp he
      rfl

/-- To add what is there changes nothing. -/
theorem Effect.eq_of_get? (he : t.Effect defines .add handle o t') {name : String}
    (hname : o.name? = some name) (h : t.get? o.kind name ≠ none) : t' = t := by
  -- on whatever shelf it stands, an entry that is found is one that `add` keeps
  have hcontains : ∀ {σ : Type} {m : SortedMap String σ} {f : σ → Entry},
      (m.get? name).map f ≠ none → m.contains name = true := by
    intro σ m f h
    obtain ⟨a, ha⟩ := Option.ne_none_iff_exists'.mp (fun hn => h (Option.map_eq_none_iff.mpr hn))
    exact SortedMap.contains_iff.mpr ⟨a, ha⟩
  cases he with
  | chain c chains he =>
    cases hname
    rw [he.eq_of_contains (hcontains h)]
  | set s sets he =>
    cases hname
    rw [he.eq_of_contains (hcontains h)]
  | map m maps he =>
    cases hname
    rw [he.eq_of_contains (hcontains h)]
  | flowtable f flowtables he =>
    cases hname
    rw [he.eq_of_contains (hcontains h)]
  | counter c counters he =>
    cases hname
    rw [he.eq_of_contains (hcontains h)]
  -- rules and elements have no name to be found by
  | rule | setElement | mapElement => cases hname

end TableState

/-! ## The ruleset -/

/-- Only a table that is deleted by its handle can leave its scope open. -/
theorem Object.scope_of_unhandled {verb : Verb} {o : Object} (h : o.validate verb = .ok ())
    (hn : verb = .delete → o.kind = .table → o.handle = none) :
    ∃ key : TableKey, o.scope = key.scope := by
  unfold validate at h
  rw [andThen_eq_ok] at h
  have hs := h.1
  -- the scope is required of all objects but a table that is deleted by its handle
  unfold requireScope at hs
  split at hs
  · cases hn rfl rfl
  · obtain ⟨family, name, hscope, -⟩ := requireScope_eq_ok.mp hs
    exact ⟨⟨family, name⟩, hscope⟩

namespace Ruleset

variable {defines : List Define} {last handle : Nat} {op : Operation} {r r' : Ruleset}

/-- An operation is about one table. -/
theorem Numbered.addresses_unique (h : r.Numbered last) {key key' : TableKey}
    (h₁ : r.Addresses op key) (h₂ : r.Addresses op key') : key = key' := by
  cases h₁ with
  | named hs hv =>
    cases h₂ with
    | named hs' hv' => exact TableKey.scope_injective (hs.symm.trans hs')
    | handled n t hk hd hf hn ht htn => cases (hv hd hk).symm.trans hn
  | handled n t hk hd hf hn ht htn =>
    cases h₂ with
    | named hs' hv' => cases (hv' hd hk).symm.trans hn
    | handled n' t' hk' hd' hf' hn' ht' htn' =>
      cases hn.symm.trans hn'
      exact h.table_unique ht ht' htn htn'

/-- What a successful operation has left alone. -/
structure Framed (r r' : Ruleset) (op : Operation) (key : TableKey) : Prop where
  addressed : r.Addresses op key
  others : ∀ k ≠ key, r'.tables.get? k = r.tables.get? k
  /-- Inside the table, one entry changes; for a rule or an element, only what it contains. -/
  inside : op.object.kind ≠ .table → ∃ t t' kind name,
    r.tables.get? key = some t ∧ r'.tables.get? key = some t' ∧
      t.Targets op.verb op.object kind name ∧ t.OnlyChanges t' kind name ∧
      (op.object.name? = none → t.KeepsObject t' kind name)
  flushed : op.object.kind = .table → op.verb = .flush → ∃ t t',
    r.tables.get? key = some t ∧ r'.tables.get? key = some t' ∧ t.Emptied t'
  /-- To add a table or an entry that is there changes nothing. -/
  present : op.verb = .add →
    (op.object.kind = .table ∧ r.tables.get? key ≠ none) ∨
      (∃ t name, r.tables.get? key = some t ∧ op.object.name? = some name ∧
        t.get? op.object.kind name ≠ none) → r' = r

/-- The key that a command on a table resolves to is that of the table that it is about. -/
theorem addresses_of_resolve {verb : Verb} {t : Table} {family : Family} {key : TableKey}
    (hv : (Object.table t).validate verb = .ok ()) (hf : t.scope.family = some family)
    (hr : tableShelf.resolve r.tables (·.family = family) verb ⟨family, t.scope.table.getD ""⟩
      t.handle = .ok key) : r.Addresses ⟨verb, .table t⟩ key := by
  rcases Shelf.resolve_eq_ok hr with ⟨hn, rfl⟩ | ⟨n, t', hd, hn, ht', hfamily, hn'⟩
  · obtain ⟨key, hscope⟩ := Object.scope_of_unhandled hv fun hd _ => hn hd
    have hscope : t.scope = key.scope := hscope
    have hkey : key = ⟨family, t.scope.table.getD ""⟩ := by
      rw [hscope] at hf ⊢
      cases hf
      rfl
    exact .named (hscope.trans (congrArg TableKey.scope hkey)) fun hd _ => hn hd
  · have hsame : key.family = family := of_decide_eq_true hfamily
    exact .handled n t' rfl hd (hf.trans (congrArg some hsame.symm)) hn ht' hn'

theorem emptied_of_flush {among : TableKey → Bool} {key : TableKey} {given : Option Nat}
    {new : TableState} {tables : SortedMap TableKey TableState}
    (he : tableShelf.Effect r.tables among .flush key given new tables) :
    ∃ t t', r.tables.get? key = some t ∧ tables.get? key = some t' ∧ t.Emptied t' := by
  cases he with
  | keep hv => cases hv
  | put hv => rcases hv with hv | hv <;> cases hv
  | drop k hv => rcases hv with hv | hv <;> cases hv
  | change f hchange hp =>
    rcases hchange with ⟨-, hf⟩ | ⟨hv, -⟩
    · cases hf
      obtain ⟨t, ht⟩ := SortedMap.contains_iff.mp hp
      refine ⟨t, t.flush, ht, ?_, t.emptied_flush⟩
      rw [SortedMap.get?_modify, if_pos rfl, ht]
      rfl
    · cases hv

theorem framed_of_step (hv : op.object.validate op.verb = .ok ())
    (hs : r.step defines handle op = .ok r') : ∃ key, r.Framed r' op key := by
  obtain ⟨verb, o⟩ := op
  cases step_effect hs with
  | table t family tables ho hf he =>
    have ho : o = .table t := ho
    subst ho
    obtain ⟨key, hr, hothers⟩ := he.frame
    -- only a deletion can be of another table than the one that is named
    have hown : verb ≠ .delete → (⟨family, t.scope.table.getD ""⟩ : TableKey) = key :=
      fun hne => Except.ok.inj ((Shelf.resolve_of_ne_delete hne).symm.trans hr)
    refine ⟨key, addresses_of_resolve hv hf hr, hothers, fun h => absurd rfl h, ?_, ?_⟩
    · -- a flush
      rintro - rfl
      cases hown (by decide)
      exact emptied_of_flush he
    · -- an `add` of a table that is there; a table is no entry of its own
      rintro rfl (⟨-, hne⟩ | ⟨t₁, name, -, hname, -⟩)
      · cases hown (by decide)
        have hp := SortedMap.contains_iff.mpr (Option.ne_none_iff_exists'.mp hne)
        rw [he.eq_of_contains hp]
      · cases hname
  | inside key t t' hscope ht he =>
    obtain ⟨kind, name, htarget, honly, hkeeps⟩ := he.framedBy
    have ht' : (r.tables.modify key fun _ => t').get? key = some t' := by
      rw [SortedMap.get?_modify, if_pos rfl, ht]
      rfl
    -- what happens inside a table is not on a table
    have htable : o.kind ≠ .table := by
      have he : t.Effect defines verb handle o t' := he
      cases he <;> exact Kind.noConfusion
    refine ⟨key, .named hscope fun _ hk => absurd hk htable, ?_, ?_, fun hk => absurd hk htable, ?_⟩
    · intro k hk
      exact (SortedMap.get?_modify ..).trans (if_neg hk)
    · exact fun _ => ⟨t, t', kind, name, ht, ht', htarget, honly, hkeeps⟩
    · -- an `add` of an entry that is there
      rintro rfl (⟨hk, -⟩ | ⟨t₁, name, ht₁, hname, hentry⟩)
      · exact absurd hk htable
      · cases ht.symm.trans ht₁
        rw [he.eq_of_get? hname hentry, SortedMap.modify_const_self ht]

end Ruleset

namespace Engine

/--
**Operations touch only what they are about.** On every ruleset that is reached, an operation that
succeeds is about exactly one table and leaves all others alone. Inside the table it is about
exactly one entry; the table itself and all other entries stay as they are, and so does the entry's
own object if the operation is on a rule or an element. A table that is flushed keeps all objects
and loses what they contain, and to add what is there changes nothing.
-/
theorem touches_only_target {config : Config} {r r' : Ruleset} {last : Nat} {op : Operation}
    (hr : Reached config r last) (hv : op.object.validate op.verb = .ok ())
    (hs : r.step config.effectiveDefines (Ruleset.nextHandle last op) op = .ok r') :
    ∃ key, r.Framed r' op key ∧ (∀ k, r.Addresses op k → k = key) ∧
      ∀ t, r.tables.get? key = some t → ∀ k₁ n₁ k₂ n₂,
        t.Targets op.verb op.object k₁ n₁ → t.Targets op.verb op.object k₂ n₂ →
        k₁ = k₂ ∧ n₁ = n₂ := by
  have hnumbered : r.Numbered last :=
    hr.preserved (Ruleset.numbered_preserved _) Ruleset.numbered_empty
  obtain ⟨key, hframed⟩ := Ruleset.framed_of_step hv hs
  exact ⟨key, hframed, fun k hk => hnumbered.addresses_unique hk hframed.addressed,
    fun t ht k₁ n₁ k₂ n₂ h₁ h₂ => hnumbered.targets_unique ht h₁ h₂⟩

/-- A set is deleted by its handle, under the name of another object. -/
theorem touches_only_target_layeredHistory :
    let settings : Config := { family := some .ip, table := some "t" }
    let e := (ofConfig settings).after (layeredHistory settings)
    let key : TableKey := ⟨.ip, "t"⟩
    let op : Operation := ⟨.delete, .set { scope := key.scope, name := "ports", handle := some 3 }⟩
    ∃ r' key', e.ruleset.step settings.effectiveDefines e.lastHandle op = .ok r' ∧
      e.ruleset.Framed r' op key' ∧ ∀ k, e.ruleset.Addresses op k → k = key' := by
  intro settings e key op
  have hv : op.object.validate op.verb = .ok () := by decide +kernel
  have hok : (e.ruleset.step settings.effectiveDefines e.lastHandle op).isOk = true := by
    decide +kernel
  cases hs : e.ruleset.step settings.effectiveDefines e.lastHandle op with
  | error err =>
    rw [hs] at hok
    cases hok
  | ok r' =>
    have hr : Reached settings e.ruleset e.lastHandle := .committed (layeredHistory settings)
    obtain ⟨key', hframed, honly, -⟩ := touches_only_target hr hv hs
    exact ⟨r', key', rfl, hframed, honly⟩

end Engine

end Nftables
