import Nftables.Proofs.DryRun
import Nftables.Proofs.Entry
import Nftables.Proofs.Placement
import Nftables.Proofs.RoundTrip

/-!
# Deleting what is there

Every object that the ruleset holds can be deleted as it is stored. A handle leads to it whatever
other name is given, since no other object has the handle; and what goes is the object with all
that it contains, and nothing else.

Deleting asks three questions, and each has its section. Is the object accepted? It has stood in the
ruleset, so it is well-formed, and what could be added again can be deleted (`validateKind_delete`).
Is it found? Under its own name it is where it is stored; by its handle the search takes the first
match, which is the only one since handles are unique (`Shelf.resolve_handle`). What goes? The
ruleset that is left is defined outright as `Ruleset.without`, and what that means is said in terms
of the objects: those that are not *within* the deleted one (`WellFormed.mem_objects_without`).

Elements have no handle and are deleted by their key alone; for them the law is part of the module
on element histories. The converse, that a handle nobody has leads to nothing, needs no uniqueness:
a search that finds something would have found a handle that is there.
-/

namespace Nftables

/-! ## What is left -/

/-- The table without one of its objects, and without what that contains. -/
def TableState.without (t : TableState) : Object → TableState
  | .chain c => { t with chains := t.chains.erase c.name }
  | .rule x => { t with
      chains := t.chains.modify x.chain fun c => { c with rules := c.rules.filter (· ≠ x) } }
  | .set s => { t with sets := t.sets.erase s.name }
  | .map m => { t with maps := t.maps.erase m.name }
  | .flowtable f => { t with flowtables := t.flowtables.erase f.name }
  | .counter c => { t with counters := t.counters.erase c.name }
  | .table _ | .element _ => t

/-- The ruleset without a table, or without an object of the table. -/
def Ruleset.without (r : Ruleset) (key : TableKey) : Object → Ruleset
  | .table _ => { tables := r.tables.erase key }
  | o => { tables := r.tables.modify key fun t => t.without o }

theorem Ruleset.without_inside {r : Ruleset} {key : TableKey} {o : Object}
    (htable : o.kind ≠ .table) :
    r.without key o = { tables := r.tables.modify key fun t => t.without o } := by
  cases o with
  | table => exact absurd rfl htable
  | _ => rfl

/-! ## Stored objects are fit to be deleted -/

section Fit

theorem requireNameOrHandle_of_name {kind : Kind} {name : String} (h : name ≠ "")
    (handle : Option Nat) : requireNameOrHandle kind name handle = .ok () := by
  unfold requireNameOrHandle
  split
  · exact refuseIf_eq_ok.mpr h
  · rfl

/-- What could be added again can be deleted, by its handle or by its name. -/
theorem Object.validateKind_delete {o : Object} (hkind : o.kind ≠ .rule)
    (h : o.eraseHandle.validateKind .add = .ok ()) : o.validateKind .delete = .ok () := by
  cases o with
  | table t => rfl
  | rule x => exact absurd rfl hkind
  | chain c =>
    simp only [eraseHandle, validateKind, Chain.validate, andThen_eq_ok,
      requireOnlyName_eq_ok] at h ⊢
    obtain ⟨hregular, hbase, hdevice, hpriority, hname, -⟩ := h
    exact ⟨hregular, hbase, hdevice, hpriority, requireNameOrHandle_of_name hname _⟩
  | set s =>
    simp only [eraseHandle, validateKind, NamedSet.validate, KeySpec.validate, andThen_eq_ok,
      requireName, refuseIf_eq_ok] at h ⊢
    exact requireNameOrHandle_of_name h.1 _
  | map m =>
    simp only [eraseHandle, validateKind, NamedMap.validate, KeySpec.validate, andThen_eq_ok,
      requireName, refuseIf_eq_ok] at h ⊢
    exact requireNameOrHandle_of_name h.1 _
  | element e =>
    simp only [eraseHandle, validateKind, Element.validate, andThen_eq_ok] at h ⊢
    exact ⟨h.1, h.2.1, h.2.2.1, trivial⟩
  | flowtable f =>
    simp only [eraseHandle, validateKind, Flowtable.validate, andThen_eq_ok,
      requireOnlyName_eq_ok] at h ⊢
    exact ⟨h.1, requireNameOrHandle_of_name h.2.1 _⟩
  | counter c =>
    simp only [eraseHandle, validateKind, Counter.validate, requireOnlyName_eq_ok] at h ⊢
    exact requireNameOrHandle_of_name h.1 _

theorem Object.eraseHandle_eraseHandle (o : Object) :
    o.eraseHandle.eraseHandle = o.eraseHandle := by
  cases o <;> rfl

theorem Rule.WellFormed.fit_delete {key : TableKey} {chain : String} {x : Rule}
    (hw : x.WellFormed key chain) (hchain : chain ≠ "") : x.validate .delete = .ok () := by
  unfold Rule.validate
  rw [andThen_eq_ok, andThen_eq_ok, refuseIf_eq_ok, refuseIf_eq_ok]
  refine ⟨hw.chain ▸ hchain, fun h => h.1 hw.index, refuseIf_eq_ok.mpr fun hnone => ?_⟩
  have hsome := hw.handle
  rw [hnone] at hsome
  cases hsome

/-- **What is stored passes the checks of a command that deletes it.** -/
theorem TableState.WellFormed.fit_delete {t : TableState} {key : TableKey}
    (hw : t.WellFormed key) : ∀ o ∈ t.objects, o.kind ≠ .element →
      o.validate .delete = .ok () ∧ (o.kind ≠ .rule → o.eraseHandle.validate .delete = .ok ()) := by
  have hfit : ∀ o ∈ t.objects, o.kind ≠ .element →
      o.validateKind .delete = .ok () ∧
        (o.kind ≠ .rule → o.eraseHandle.validateKind .delete = .ok ()) := by
    -- erasing the handle twice is erasing it once, so this serves with the handle and without
    have hadd : ∀ {o : Object}, o.kind ≠ .rule → o.eraseHandle.validateKind .add = .ok () →
        o.kind ≠ .element → o.validateKind .delete = .ok () ∧
          (o.kind ≠ .rule → o.eraseHandle.validateKind .delete = .ok ()) := by
      intro o hkind h _
      refine ⟨o.validateKind_delete hkind h, fun _ => ?_⟩
      refine Object.validateKind_delete (o.kind_eraseHandle ▸ hkind) ?_
      rwa [o.eraseHandle_eraseHandle]
    -- table, flowtables, chains with their rules, sets, maps and counters
    refine forall_objects ?_ ?_ ?_ ?_ ?_ ?_
    · exact fun _ => ⟨rfl, fun _ => rfl⟩
    · exact fun k f hf => hadd Kind.noConfusion (hw.flowtables k f hf).fit
    · intro k c hc
      have hchain := hw.chains k c hc
      refine ⟨hadd Kind.noConfusion hchain.chain.fit, fun x hx _ => ⟨?_, fun h => absurd rfl h⟩⟩
      exact (hchain.rules x hx).fit_delete hchain.chain.named.2
    · intro k s hs
      have hset := (hw.sets k s hs).set
      have hname : s.set.name ≠ "" := hset.named.1 ▸ hset.named.2
      exact ⟨hadd Kind.noConfusion (hset.type.fit hname), fun e _ h => absurd rfl h⟩
    · intro k m hm
      have hmap := (hw.maps k m hm).map
      have hname : m.map.name ≠ "" := hmap.named.1 ▸ hmap.named.2
      exact ⟨hadd Kind.noConfusion (hmap.type.fit hname), fun e _ h => absurd rfl h⟩
    · exact fun k c hc => hadd Kind.noConfusion (hw.counters k c hc).fit
  intro o ho hkind
  have hscope := hw.scope_of_mem_objects o ho
  obtain ⟨hdelete, herased⟩ := hfit o ho hkind
  refine ⟨Object.validate_of_scope hscope hw.table.named hdelete, fun hrule => ?_⟩
  exact Object.validate_of_scope (o.scope_eraseHandle.trans hscope) hw.table.named (herased hrule)

end Fit

/-! ## Deleting from a shelf -/

namespace Shelf

variable {κ σ : Type} [Ord κ] [Std.TransOrd κ] [Std.LawfulEqOrd κ] {s : Shelf κ σ}
  {m : SortedMap κ σ} {among : κ → Bool}

omit [Std.TransOrd κ] in
/-- A handle that only one object has leads to that object, whatever name is given. -/
theorem resolve_handle {k : κ} {a : σ} {n : Nat} (ha : m.get? k = some a) (hk : among k = true)
    (hn : s.handle a = some n)
    (hunique : ∀ k' a', m.get? k' = some a' → s.handle a' = some n → k' = k) (key : κ) :
    s.resolve m among .delete key (some n) = .ok k := by
  unfold resolve
  dsimp only
  split
  · rename_i k' hfind
    -- whatever the search finds has the handle, and only one object has it
    obtain ⟨a', ha', hp⟩ := SortedMap.get?_of_findKey? hfind
    rw [Bool.and_eq_true, decide_eq_true_iff] at hp
    exact congrArg Except.ok (hunique k' a' ha' hp.2)
  · rename_i hfind
    have hnot := SortedMap.not_of_findKey? hfind ha
    simp [hk, hn] at hnot

/-- A stored object is deleted by its own key, and by its handle under any key. -/
theorem apply_delete {k : κ} {a : σ} {n : Nat} (ha : m.get? k = some a) (hk : among k = true)
    (hn : s.handle a = some n)
    (hunique : ∀ k' a', m.get? k' = some a' → s.handle a' = some n → k' = k) {given : Option Nat}
    (hgiven : given = none ∨ given = some n) (new : σ) :
    s.apply m among .delete k given new = .ok (m.erase k) := by
  have hresolve : s.resolve m among .delete k given = .ok k := by
    rcases hgiven with rfl | rfl
    · rfl
    · exact resolve_handle ha hk hn hunique k
  have hcheck : checkExistence .delete (m.contains k) s.kind (s.text k) = .ok () := by
    rw [SortedMap.contains_iff.mpr ⟨a, ha⟩]
    rfl
  exact (bind_of_ok hresolve).trans (bind_of_ok hcheck)

/-- A handle that no object has is not found. -/
theorem apply_delete_missing {n : Nat}
    (h : ∀ k a, m.get? k = some a → among k = true → s.handle a ≠ some n) (key : κ) (new : σ) :
    s.apply m among .delete key (some n) new = .error (.notFound (.handle s.kind n)) := by
  refine bind_of_error ?_
  unfold resolve
  dsimp only
  split
  · rename_i k hfind
    obtain ⟨a, ha, hp⟩ := SortedMap.get?_of_findKey? hfind
    rw [Bool.and_eq_true, decide_eq_true_iff] at hp
    -- the search would have found an object with the handle
    exact absurd hp.2 (h k a ha hp.1)
  · rfl

end Shelf

/-! ## Deleting inside a table -/

/-- The object of a command cites a stored one: in full, or, but for a rule, without its handle. -/
def Object.Cites (x o : Object) : Prop := x = o ∨ o.kind ≠ .rule ∧ x = o.eraseHandle

/-- Where all members differ, only one is taken out. -/
theorem filter_ne_middle {α : Type} [DecidableEq α] {before after : List α} {a : α}
    (h : (before ++ a :: after).Nodup) :
    (before ++ a :: after).filter (· ≠ a) = before ++ after := by
  -- the member stands nowhere else, so all others stay
  have hnot := (List.nodup_cons.mp (List.nodup_middle.mp h)).1
  have hother : (before ++ after).filter (· ≠ a) = before ++ after := by
    refine List.filter_eq_self.mpr fun b hb => decide_eq_true ?_
    rintro rfl
    exact hnot hb
  rw [List.filter_append] at hother
  rw [List.filter_append, List.filter_cons_of_neg (by simp), hother]

namespace TableState

variable {r : Ruleset} {last : Nat} {t : TableState} {key : TableKey} {defines : List Define}
  {handle : Nat}

/-- What is in a table is the table itself, or an entry, or what an entry contains. -/
theorem entry_of_mem_objects : ∀ o ∈ t.objects, o = .table t.table ∨
    ∃ kind name e, t.get? kind name = some e ∧ (o = e.object ∨ o ∈ e.contents) := by
  have hentry : ∀ kind {name : String} {e : Entry}, t.get? kind name = some e →
      ∀ o, o = e.object ∨ o ∈ e.contents → o = .table t.table ∨
        ∃ kind name e, t.get? kind name = some e ∧ (o = e.object ∨ o ∈ e.contents) :=
    fun kind _ _ he _ ho => .inr ⟨kind, _, _, he, ho⟩
  refine forall_objects (.inl rfl) (fun k f hf => ?_) (fun k c hc => ?_) (fun k s hs => ?_)
    (fun k m hm => ?_) (fun k c hc => ?_)
  · exact hentry .flowtable (t.shows_flowtables.entry hf) _ (.inl rfl)
  · have he := hentry .chain (t.shows_chains.entry hc)
    exact ⟨he _ (.inl rfl), fun x hx => he _ (.inr (List.mem_map_of_mem hx))⟩
  · have he := hentry .set (t.shows_sets.entry hs)
    exact ⟨he _ (.inl rfl), fun x hx => he _ (.inr (List.mem_map_of_mem hx))⟩
  · have he := hentry .map (t.shows_maps.entry hm)
    exact ⟨he _ (.inl rfl), fun x hx => he _ (.inr (List.mem_map_of_mem hx))⟩
  · exact hentry .counter (t.shows_counters.entry hc) _ (.inl rfl)

theorem table_mem_objects (t : TableState) : .table t.table ∈ t.objects :=
  mem_objects_iff.mpr (List.mem_singleton_self _)

theorem mem_objects_of_get? {kind : Kind} {name : String} {e : Entry}
    (he : t.get? kind name = some e) {o : Object} (ho : o = e.object ∨ o ∈ e.contents) :
    o ∈ t.objects := by
  cases kind with
  | table | rule | element => cases he
  | flowtable =>
    obtain ⟨f, hf, rfl⟩ := Option.map_eq_some_iff.mp he
    have hf := SortedMap.mem_values_iff.mpr ⟨name, hf⟩
    obtain rfl : o = .flowtable f := ho.resolve_right List.not_mem_nil
    exact mem_objects_iff.mpr (List.mem_map_of_mem hf)
  | chain =>
    obtain ⟨c, hc, rfl⟩ := Option.map_eq_some_iff.mp he
    have hc := SortedMap.mem_values_iff.mpr ⟨name, hc⟩
    rcases ho with rfl | ho
    · exact mem_objects_iff.mpr (List.mem_map_of_mem (List.mem_map_of_mem hc))
    · obtain ⟨x, hx, rfl⟩ := List.mem_map.mp ho
      exact mem_objects_iff.mpr (List.mem_map_of_mem (List.mem_flatMap_of_mem hc hx))
  | set =>
    obtain ⟨s, hs, rfl⟩ := Option.map_eq_some_iff.mp he
    have hs := SortedMap.mem_values_iff.mpr ⟨name, hs⟩
    rcases ho with rfl | ho
    · exact mem_objects_iff.mpr (List.mem_map_of_mem (List.mem_map_of_mem hs))
    · obtain ⟨x, hx, rfl⟩ := List.mem_map.mp ho
      exact mem_objects_iff.mpr (List.mem_map_of_mem
        (List.mem_append_left _ (List.mem_flatMap_of_mem hs hx)))
  | map =>
    obtain ⟨m, hm, rfl⟩ := Option.map_eq_some_iff.mp he
    have hm := SortedMap.mem_values_iff.mpr ⟨name, hm⟩
    rcases ho with rfl | ho
    · exact mem_objects_iff.mpr (List.mem_map_of_mem (List.mem_map_of_mem hm))
    · obtain ⟨x, hx, rfl⟩ := List.mem_map.mp ho
      exact mem_objects_iff.mpr (List.mem_map_of_mem
        (List.mem_append_right _ (List.mem_flatMap_of_mem hm hx)))
  | counter =>
    obtain ⟨c, hc, rfl⟩ := Option.map_eq_some_iff.mp he
    have hc := SortedMap.mem_values_iff.mpr ⟨name, hc⟩
    obtain rfl : o = .counter c := ho.resolve_right List.not_mem_nil
    exact mem_objects_iff.mpr (List.mem_map_of_mem hc)

/-- A shelf gives up a stored object by its name, with the object's handle or without. -/
theorem delete_shelf {σ : Type} {s : Shelf String σ} {m : SortedMap String σ} {entry : σ → Entry}
    (hn : r.Numbered last) (ht : r.tables.get? key = some t) (h : t.Shows s.kind m entry)
    (hhandle : ∀ a, (entry a).object.handle = s.handle a) {name : String} {a : σ}
    (ha : m.get? name = some a) (hsome : (s.handle a).isSome) (given : Option Nat)
    (hgiven : given = none ∨ given = s.handle a) (new : σ) :
    s.apply m (fun _ => true) .delete name given new = .ok (m.erase name) := by
  obtain ⟨n, han⟩ := Option.isSome_iff_exists.mp hsome
  rw [han] at hgiven
  refine Shelf.apply_delete ha rfl han (fun k b hb hbn => ?_) hgiven new
  exact hn.entry_unique ht (h.entry hb) (h.entry ha) ((hhandle b).trans hbn) ((hhandle a).trans han)

/-- A rule is taken out of its chain by its handle. -/
theorem delete_rule (hw : t.WellFormed key) (hrules : t.chains.All fun _ c =>
    (c.rules.map Rule.handle).Nodup) {name : String} {c : ChainState}
    (hc : t.chains.get? name = some c) {x : Rule} (hx : x ∈ c.rules) :
    t.applyRule defines .delete handle x = .ok (t.without (.rule x)) := by
  have hrule := (hw.chains name c hc).rules x hx
  obtain rfl := hrule.chain
  obtain ⟨n, hn⟩ := Option.isSome_iff_exists.mp hrule.handle
  have hnodup : (c.rules.map Rule.handle).Nodup := hrules _ c hc
  obtain ⟨before, after, hcut⟩ := List.append_of_mem hx
  have hedit : x.Edits defines handle .delete c.rules (before ++ after) :=
    hcut ▸ .delete before x after (.byHandle n hn hn)
  have hres : x.Resolves defines t .delete := fun h => Bool.noConfusion h
  rw [applyRule_of_edits hc hnodup hres hedit]
  refine congrArg (fun chains => Except.ok { t with chains }) (SortedMap.modify_congr ?_)
  intro d hd
  cases hc.symm.trans hd
  -- the rule stands once in its chain, since its handle does
  have hfilter : c.rules.filter (· ≠ x) = before ++ after := by
    rw [hcut] at hnodup ⊢
    exact filter_ne_middle hnodup.of_map
  rw [hfilter]

/-- **Inside a table, what is stored is deleted as it is stored.** -/
theorem step_delete (hw : t.WellFormed key) (hn : r.Numbered last)
    (ht : r.tables.get? key = some t) : ∀ o ∈ t.objects, o.kind ≠ .table → o.kind ≠ .element →
      ∀ x, x.Cites o → t.step defines .delete handle x = .ok (t.without o) := by
  refine forall_objects (fun h => absurd rfl h) (fun k f hf _ _ x hx => ?_) (fun k c hc => ?_)
    (fun k s hs => ⟨fun _ _ x hx => ?_, fun e he _ h => absurd rfl h⟩)
    (fun k m hm => ⟨fun _ _ x hx => ?_, fun e he _ h => absurd rfl h⟩) (fun k c hc _ _ x hx => ?_)
  -- a stored object has the name that it is stored under, so both citations lead to it
  · have hflowtable := hw.flowtables k f hf
    obtain ⟨rfl, -⟩ := hflowtable.named
    have hdelete := delete_shelf (s := flowtableShelf) hn ht t.shows_flowtables (fun _ => rfl) hf
      hflowtable.handle
    rcases hx with rfl | ⟨-, rfl⟩
    · exact bind_of_ok (hdelete _ (.inr rfl) _)
    · exact bind_of_ok (hdelete _ (.inl rfl) _)
  · have hchain := (hw.chains k c hc).chain
    refine ⟨fun _ _ x hx => ?_, fun y hy _ _ x hx => ?_⟩
    · obtain ⟨rfl, -⟩ := hchain.named
      have hdelete := delete_shelf (s := chainShelf) hn ht t.shows_chains (fun _ => rfl) hc
        hchain.handle
      rcases hx with rfl | ⟨-, rfl⟩
      · exact bind_of_ok (hdelete _ (.inr rfl) _)
      · exact bind_of_ok (hdelete _ (.inl rfl) _)
    · obtain rfl := hx.resolve_right fun h => h.1 rfl
      exact delete_rule hw (hn.rules ht) hc hy
  · have hset := (hw.sets k s hs).set
    obtain ⟨rfl, -⟩ := hset.named
    have hdelete := delete_shelf (s := setShelf) hn ht t.shows_sets (fun _ => rfl) hs
      hset.handle
    rcases hx with rfl | ⟨-, rfl⟩
    · exact bind_of_ok (hdelete _ (.inr rfl) _)
    · exact bind_of_ok (hdelete _ (.inl rfl) _)
  · have hmap := (hw.maps k m hm).map
    obtain ⟨rfl, -⟩ := hmap.named
    have hdelete := delete_shelf (s := mapShelf) hn ht t.shows_maps (fun _ => rfl) hm
      hmap.handle
    rcases hx with rfl | ⟨-, rfl⟩
    · exact bind_of_ok (hdelete _ (.inr rfl) _)
    · exact bind_of_ok (hdelete _ (.inl rfl) _)
  · have hcounter := hw.counters k c hc
    obtain ⟨rfl, -⟩ := hcounter.named
    have hdelete := delete_shelf (s := counterShelf) hn ht t.shows_counters (fun _ => rfl) hc
      hcounter.handle
    rcases hx with rfl | ⟨-, rfl⟩
    · exact bind_of_ok (hdelete _ (.inr rfl) _)
    · exact bind_of_ok (hdelete _ (.inl rfl) _)

/-- A rule that is not in its chain is not found, and neither is a chain that is not there. -/
theorem delete_rule_missing (t : TableState) (defines : List Define) (handle : Nat) {x : Rule}
    {n : Nat} (hx : x.handle = some n)
    (h : ∀ c, t.chains.get? x.chain = some c → ∀ old ∈ c.rules, old.handle ≠ some n) :
    ∃ missing, t.applyRule defines .delete handle x = .error (.notFound missing) := by
  cases hc : t.chains.get? x.chain with
  | none =>
    unfold applyRule
    rw [hc]
    exact ⟨_, rfl⟩
  | some c =>
    -- the rule refers to none of the chain, neither by its handle nor by its index
    have hdangles : x.Dangles c.rules := by
      refine ⟨fun hnone => ?_, fun before old after hcut href => ?_⟩
      · cases hnone.handle.symm.trans hx
      · cases href with
        | byHandle n' hx' hold =>
          cases hx.symm.trans hx'
          exact h c hc old (hcut ▸ List.mem_append_right _ List.mem_cons_self) hold
        | byIndex hx' _ => cases hx.symm.trans hx'
    exact applyRule_of_dangles hc (fun h => Bool.noConfusion h) hdangles

/-- **Inside a table, a handle that no object of its kind has is not found.** -/
theorem step_delete_missing (t : TableState) (defines : List Define) (handle : Nat) {y : Object}
    {n : Nat} (htable : y.kind ≠ .table) (hy : y.handle = some n)
    (h : ∀ z ∈ t.objects, z.kind = y.kind → z.handle ≠ some n) :
    ∃ missing, t.step defines .delete handle y = .error (.notFound missing) := by
  -- a shelf is searched before anything else, so what would be done afterwards does not matter
  have hshelf : ∀ {σ : Type} {s : Shelf String σ} {m : SortedMap String σ} {entry : σ → Entry}
      (name : String) (new : σ) (rest : SortedMap String σ → Except Error TableState),
      t.Shows s.kind m entry → (∀ a, (entry a).object.handle = s.handle a) →
      (∀ a, (entry a).object.kind = y.kind) → ∃ missing,
        (s.apply m (fun _ => true) .delete name y.handle new >>= rest)
          = .error (.notFound missing) := by
    intro σ s m entry name new rest hshows hhandle hkind
    rw [hy]
    refine ⟨_, bind_of_error (Shelf.apply_delete_missing (fun k a ha _ han => ?_) name new)⟩
    exact h _ (mem_objects_of_get? (hshows.entry ha) (.inl rfl)) (hkind a) ((hhandle a).trans han)
  cases y with
  | table => exact absurd rfl htable
  | element => cases hy
  | flowtable f =>
    exact hshelf (s := flowtableShelf) f.name _ _ t.shows_flowtables (fun _ => rfl) fun _ => rfl
  | chain c => exact hshelf (s := chainShelf) c.name _ _ t.shows_chains (fun _ => rfl) fun _ => rfl
  | set s => exact hshelf (s := setShelf) s.name _ _ t.shows_sets (fun _ => rfl) fun _ => rfl
  | map m => exact hshelf (s := mapShelf) m.name _ _ t.shows_maps (fun _ => rfl) fun _ => rfl
  | counter c =>
    exact hshelf (s := counterShelf) c.name _ _ t.shows_counters (fun _ => rfl) fun _ => rfl
  | rule x =>
    refine t.delete_rule_missing defines handle hy fun c hc old hold => ?_
    have hmem : Object.rule old ∈ (Entry.chain c).contents := List.mem_map_of_mem hold
    exact h _ (mem_objects_of_get? (t.shows_chains.entry hc) (.inr hmem)) rfl

end TableState

/-! ## Deleting from the ruleset -/

namespace Ruleset

variable {r : Ruleset} {last : Nat} {t : TableState} {key : TableKey}

theorem mem_objects_iff {z : Object} :
    z ∈ r.objects ↔ ∃ k t, r.tables.get? k = some t ∧ z ∈ t.objects := by
  simp only [objects, listing, List.mem_flatMap, SortedMap.mem_values_iff]
  constructor
  · rintro ⟨t, ⟨k, ht⟩, hz⟩
    exact ⟨k, t, ht, hz⟩
  · rintro ⟨k, t, ht, hz⟩
    exact ⟨t, ⟨k, ht⟩, hz⟩

/-- A table is deleted by its own key, and by its handle within its family. -/
theorem applyTable_delete (hw : t.WellFormed key) (hn : r.Numbered last)
    (ht : r.tables.get? key = some t) {y : Table} (hscope : y.scope = key.scope)
    (hgiven : y.handle = none ∨ y.handle = t.table.handle) (handle : Nat) :
    r.applyTable .delete handle y = .ok (r.without key (.table t.table)) := by
  obtain ⟨n, htn⟩ := Option.isSome_iff_exists.mp hw.table.handle
  rw [htn] at hgiven
  obtain ⟨scope, comment, given⟩ := y
  cases hscope
  refine bind_of_ok (Shelf.apply_delete ht (decide_eq_true rfl) htn ?_ hgiven _)
  -- tables are searched for in their family only, and there their handles are unique
  exact fun k t' ht' hk => hn.table_unique ht' ht hk htn

/-- **What is stored is deleted as it is stored, and nothing else is.** -/
theorem step_delete (hw : r.WellFormed) (hn : r.Numbered last) (ht : r.tables.get? key = some t)
    {o : Object} (ho : o ∈ t.objects) (hkind : o.kind ≠ .element) {x : Object} (hx : x.Cites o)
    (defines : List Define) (handle : Nat) :
    r.step defines handle ⟨.delete, x⟩ = .ok (r.without key o) := by
  have hwt := hw key t ht
  have hscope := hwt.scope_of_mem_objects o ho
  by_cases htable : o.kind = .table
  · have ho := TableState.mem_objects_iff.mp ho
    rw [htable] at ho
    obtain rfl := List.mem_singleton.mp ho
    rcases hx with rfl | ⟨-, rfl⟩
    · exact applyTable_delete hwt hn ht hscope (.inr rfl) handle
    · exact applyTable_delete (y := { t.table with handle := none }) hwt hn ht hscope (.inl rfl)
        handle
  · have hxkind : x.kind ≠ .table := by
      rcases hx with rfl | ⟨-, rfl⟩
      · exact htable
      · rwa [Object.kind_eraseHandle]
    have hxscope : x.scope = key.scope := by
      rcases hx with rfl | ⟨-, rfl⟩
      · exact hscope
      · exact (Object.scope_eraseHandle o).trans hscope
    rw [step_inside hxkind hxscope, ht]
    refine (bind_of_ok (TableState.step_delete hwt hn ht o ho htable hkind x hx)).trans ?_
    rw [without_inside htable]
    refine congrArg (fun tables => Except.ok (Ruleset.mk tables)) (SortedMap.modify_congr ?_)
    intro t' ht'
    cases ht.symm.trans ht'
    rfl

/-- The objects of the kind of `y` in its table, or, for a table, in its family. -/
def Alike (r : Ruleset) (y : Object) (z : Object) : Prop :=
  z ∈ r.objects ∧ z.kind = y.kind ∧ z.scope.family = y.scope.family ∧
    (y.kind ≠ .table → z.scope = y.scope)

/-- **A handle that no object of its kind has there is not found.** -/
theorem step_delete_missing (hw : r.WellFormed) {y : Object} {n : Nat}
    (hv : y.validate .delete = .ok ()) (hy : y.handle = some n)
    (h : ∀ z, r.Alike y z → z.handle ≠ some n) (defines : List Define) (handle : Nat) :
    ∃ missing, r.step defines handle ⟨.delete, y⟩ = .error (.notFound missing) := by
  obtain ⟨family, hfamily, hscope⟩ := Object.scope_of_accepted hv
  by_cases htable : y.kind = .table
  · cases y with
    | table u =>
      have hfamily : u.scope.family = some family := hfamily
      have hu : u.handle = some n := hy
      show ∃ missing, r.applyTable .delete handle u = .error (.notFound missing)
      unfold applyTable
      rw [hfamily, hu]
      refine ⟨_, bind_of_error (Shelf.apply_delete_missing (fun k a ha hk han => ?_) _ _)⟩
      have hsame : k.family = family := of_decide_eq_true hk
      refine h (.table a.table) ⟨mem_objects_iff.mpr ⟨k, a, ha, a.table_mem_objects⟩, rfl, ?_,
        fun h => absurd rfl h⟩ han
      show a.table.scope.family = u.scope.family
      rw [(hw k a ha).table.scope, hfamily, ← hsame]
      rfl
    | _ => cases htable
  · obtain ⟨name, hscope⟩ := hscope htable
    have hscope : y.scope = TableKey.scope ⟨family, name⟩ := hscope
    rw [step_inside htable hscope]
    split
    · exact ⟨_, rfl⟩
    · rename_i t ht
      have hinside : ∀ z ∈ t.objects, z.kind = y.kind → z.handle ≠ some n := by
        intro z hz hkind
        have hzscope : z.scope = y.scope :=
          ((hw _ t ht).scope_of_mem_objects z hz).trans hscope.symm
        exact h z ⟨mem_objects_iff.mpr ⟨_, t, ht, hz⟩, hkind, congrArg Scope.family hzscope,
          fun _ => hzscope⟩
      obtain ⟨missing, hmissing⟩ := t.step_delete_missing defines handle htable hy hinside
      exact ⟨missing, bind_of_error hmissing⟩

end Ruleset

/-! ## What a deletion takes along -/

/-- The object is the other, or is contained in it: in a table, or in an object with a name. -/
def Object.Within (z o : Object) : Prop :=
  z = o ∨ z.scope = o.scope ∧ (o.kind = .table ∨ o.name? ≠ none ∧ z.entryName? = o.entryName?)

instance (z o : Object) : Decidable (z.Within o) :=
  inferInstanceAs (Decidable (_ ∨ _ ∧ (_ ∨ _ ∧ _)))

namespace TableState

variable {t : TableState} {key : TableKey} {kind : Kind} {name : String} {e : Entry} {z o : Object}

/-- An entry and what it contains say where they are. -/
theorem WellFormed.entryName?_of_get? (hw : t.WellFormed key)
    (he : t.get? kind name = some e) (hz : z = e.object ∨ z ∈ e.contents) :
    z.entryName? = some (kind, name) := by
  cases kind with
  | table | rule | element => cases he
  | flowtable =>
    obtain ⟨f, hf, rfl⟩ := Option.map_eq_some_iff.mp he
    obtain rfl := hz.resolve_right List.not_mem_nil
    exact congrArg (fun n => some (Kind.flowtable, n)) (hw.flowtables name f hf).named.1
  | chain =>
    obtain ⟨c, hc, rfl⟩ := Option.map_eq_some_iff.mp he
    rcases hz with rfl | hz
    · exact congrArg (fun n => some (Kind.chain, n)) (hw.chains name c hc).chain.named.1
    · obtain ⟨x, hx, rfl⟩ := List.mem_map.mp hz
      exact congrArg (fun n => some (Kind.chain, n)) ((hw.chains name c hc).rules x hx).chain
  | set =>
    obtain ⟨s, hs, rfl⟩ := Option.map_eq_some_iff.mp he
    rcases hz with rfl | hz
    · exact congrArg (fun n => some (Kind.set, n)) (hw.sets name s hs).set.named.1
    · obtain ⟨x, hx, rfl⟩ := List.mem_map.mp hz
      simp [Object.entryName?, ((hw.sets name s hs).elements x hx).set]
  | map =>
    obtain ⟨m, hm, rfl⟩ := Option.map_eq_some_iff.mp he
    rcases hz with rfl | hz
    · exact congrArg (fun n => some (Kind.map, n)) (hw.maps name m hm).map.named.1
    · obtain ⟨x, hx, rfl⟩ := List.mem_map.mp hz
      have hx := (hw.maps name m hm).elements x hx
      simp [Object.entryName?, hx.set, hx.map]
  | counter =>
    obtain ⟨c, hc, rfl⟩ := Option.map_eq_some_iff.mp he
    obtain rfl := hz.resolve_right List.not_mem_nil
    exact congrArg (fun n => some (Kind.counter, n)) (hw.counters name c hc).named.1

theorem ChangesKind.get?_erase {σ : Type} {t' : TableState} {m : SortedMap String σ}
    {entry : σ → Entry} (h : t.ChangesKind t' kind m (m.erase name) entry) (k : Kind) (n : String) :
    t'.get? k n = if some (k, n) = some (kind, name) then none else t.get? k n := by
  by_cases hk : k = kind
  · subst hk
    rw [h.after.get?, h.before.get?, SortedMap.get?_erase]
    by_cases hn : n = name <;> simp [hn]
  · rw [h.others k hk n, if_neg (by simp [hk])]

/-- Without an object that has a name, the table lacks the entry of this name, and only that. -/
theorem get?_without (t : TableState) (ho : o.name? ≠ none) (kind : Kind) (name : String) :
    (t.without o).get? kind name
      = if some (kind, name) = o.entryName? then none else t.get? kind name := by
  cases o with
  | table | rule | element => exact absurd rfl ho
  | flowtable f => exact (t.changes_flowtables _).get?_erase kind name
  | chain c => exact (t.changes_chains _).get?_erase kind name
  | set s => exact (t.changes_sets _).get?_erase kind name
  | map m => exact (t.changes_maps _).get?_erase kind name
  | counter c => exact (t.changes_counters _).get?_erase kind name

/-- Without a rule, its chain has all other rules, and all else is as it was. -/
theorem WellFormed.mem_objects_without_rule (hw : t.WellFormed key) (x : Rule) :
    z ∈ (t.without (.rule x)).objects ↔ z ∈ t.objects ∧ z ≠ .rule x := by
  rw [mem_objects_iff, mem_objects_iff]
  cases z with
  | rule y =>
    simp only [ofKind, without, Object.kind, List.mem_map, Object.rule.injEq, exists_eq_right,
      List.mem_flatMap, SortedMap.mem_values_iff, SortedMap.get?_modify, ne_eq]
    constructor
    · rintro ⟨c, ⟨k, hc⟩, hy⟩
      split at hc
      · obtain ⟨d, hd, rfl⟩ := Option.map_eq_some_iff.mp hc
        obtain ⟨hy, hne⟩ := List.mem_filter.mp hy
        exact ⟨⟨d, ⟨k, hd⟩, hy⟩, of_decide_eq_true hne⟩
      · rename_i hk
        refine ⟨⟨c, ⟨k, hc⟩, hy⟩, ?_⟩
        rintro rfl
        exact hk ((hw.chains k c hc).rules y hy).chain.symm
    · rintro ⟨⟨c, ⟨k, hc⟩, hy⟩, hne⟩
      by_cases hk : k = x.chain
      · refine ⟨{ c with rules := c.rules.filter (· ≠ x) }, ⟨k, ?_⟩, ?_⟩
        · rw [if_pos hk, hc]
          rfl
        · exact List.mem_filter.mpr ⟨hy, decide_eq_true hne⟩
      · exact ⟨c, ⟨k, by rw [if_neg hk, hc]⟩, hy⟩
  | chain y =>
    have hmap : (t.without (.rule x)).chains.map ChainState.chain
        = t.chains.map ChainState.chain := SortedMap.map_modify_eq _ _ fun _ _ => rfl
    have hchains : (t.without (.rule x)).ofKind .chain = t.ofKind .chain := by
      rw [ofKind, ofKind, ← SortedMap.values_map, hmap, SortedMap.values_map]
    exact (iff_of_eq (congrArg _ hchains)).trans (and_iff_left Object.noConfusion).symm
  | _ => exact (and_iff_left Object.noConfusion).symm

/-- **What is left of a table is all that is not within what was deleted.** -/
theorem WellFormed.mem_objects_without (hw : t.WellFormed key) (ho : o ∈ t.objects)
    (htable : o.kind ≠ .table) (helement : o.kind ≠ .element) :
    z ∈ (t.without o).objects ↔ z ∈ t.objects ∧ ¬ z.Within o := by
  by_cases hname : o.name? = none
  · obtain ⟨x, rfl⟩ : ∃ x, o = .rule x := by
      cases o with
      | table => exact absurd rfl htable
      | element => exact absurd rfl helement
      | rule x => exact ⟨x, rfl⟩
      | _ => cases hname
    have hwithin : z.Within (.rule x) ↔ z = .rule x := or_iff_left fun h =>
      h.2.elim htable fun h => h.1 rfl
    rw [hw.mem_objects_without_rule, hwithin]
  · have hsame : (t.without o).table = t.table := by cases o <;> rfl
    have hsome : o.entryName? ≠ none := by
      cases o with
      | table | rule | element => exact absurd rfl hname
      | _ => exact Option.some_ne_none _
    -- what belongs to another entry is not within the object
    have hnot : z.entryName? ≠ o.entryName? → ¬ z.Within o := by
      rintro hne (rfl | ⟨-, h | ⟨-, h⟩⟩)
      · exact hne rfl
      · exact htable h
      · exact hne h
    constructor
    · intro hz
      -- the table itself stays, and so does every entry but the one
      rcases entry_of_mem_objects z hz with rfl | ⟨kind, name, e, he, hze⟩
      · rw [hsame] at hnot ⊢
        exact ⟨t.table_mem_objects, hnot (Ne.symm hsome)⟩
      · rw [t.get?_without hname] at he
        split at he
        · cases he
        · rename_i hne
          exact ⟨mem_objects_of_get? he hze, hnot (hw.entryName?_of_get? he hze ▸ hne)⟩
    · rintro ⟨hz, hzo⟩
      rcases entry_of_mem_objects z hz with rfl | ⟨kind, name, e, he, hze⟩
      · exact hsame ▸ (t.without o).table_mem_objects
      · have hstays : (t.without o).get? kind name = some e := by
          rw [t.get?_without hname, if_neg, he]
          intro hsame
          have hscope := (hw.scope_of_mem_objects z hz).trans (hw.scope_of_mem_objects o ho).symm
          exact hzo (.inr ⟨hscope, .inr ⟨hname, (hw.entryName?_of_get? he hze).trans hsame⟩⟩)
        exact mem_objects_of_get? hstays hze

end TableState

namespace Ruleset

variable {r : Ruleset} {t : TableState} {key : TableKey} {z o : Object}

/-- **What is left is all that is not within what was deleted.** -/
theorem WellFormed.mem_objects_without (hw : r.WellFormed) (ht : r.tables.get? key = some t)
    (ho : o ∈ t.objects) (helement : o.kind ≠ .element) :
    z ∈ (r.without key o).objects ↔ z ∈ r.objects ∧ ¬ z.Within o := by
  have hwt := hw key t ht
  have hoscope := hwt.scope_of_mem_objects o ho
  -- nothing of another table is within the object
  have hother : ∀ {k t'}, r.tables.get? k = some t' → z ∈ t'.objects → k ≠ key → ¬ z.Within o := by
    intro k t' ht' hz hk hwithin
    have hscope : z.scope = o.scope := hwithin.elim (congrArg Object.scope) And.left
    exact hk (TableKey.scope_injective
      (((hw k t' ht').scope_of_mem_objects z hz).symm.trans (hscope.trans hoscope)))
  rw [mem_objects_iff, mem_objects_iff]
  by_cases htable : o.kind = .table
  · obtain ⟨u, rfl⟩ : ∃ u, o = .table u := by
      cases o with
      | table u => exact ⟨u, rfl⟩
      | _ => cases htable
    simp only [without, SortedMap.get?_erase]
    constructor
    · rintro ⟨k, t', ht', hz⟩
      split at ht'
      · cases ht'
      · rename_i hk
        exact ⟨⟨k, t', ht', hz⟩, hother ht' hz hk⟩
    · rintro ⟨⟨k, t', ht', hz⟩, hzo⟩
      refine ⟨k, t', ?_, hz⟩
      rw [if_neg, ht']
      rintro rfl
      exact hzo (.inr ⟨((hw k t' ht').scope_of_mem_objects z hz).trans hoscope.symm, .inl rfl⟩)
  · have hinside := hwt.mem_objects_without (z := z) ho htable helement
    simp only [without_inside htable, SortedMap.get?_modify]
    constructor
    · rintro ⟨k, t', ht', hz⟩
      split at ht'
      · rename_i hk
        subst hk
        rw [ht] at ht'
        cases ht'
        obtain ⟨hz, hzo⟩ := hinside.mp hz
        exact ⟨⟨k, t, ht, hz⟩, hzo⟩
      · rename_i hk
        exact ⟨⟨k, t', ht', hz⟩, hother ht' hz hk⟩
    · rintro ⟨⟨k, t', ht', hz⟩, hzo⟩
      by_cases hk : k = key
      · subst hk
        cases ht.symm.trans ht'
        exact ⟨k, t.without o, by rw [if_pos rfl, ht]; rfl, hinside.mpr ⟨hz, hzo⟩⟩
      · exact ⟨k, t', by rw [if_neg hk, ht'], hz⟩

end Ruleset

/-! ## Transactions that delete one object -/

namespace Transaction

variable {settings : Config} {x : Object}

theorem build_delete (hv : (x.applyDefaults settings.scope).validate .delete = .ok ()) :
    build settings [⟨.delete, x⟩] = { ofConfig settings with
      operations := [⟨.delete, x.applyDefaults settings.scope⟩] } := by
  have hrefusal : Operation.refusal? settings.scope ⟨.delete, x⟩ = none := by
    rw [Operation.refusal?, hv]
  rw [build_eq]
  simp [accepted, hrefusal, Operation.queued, expand, ofConfig]

theorem validate_of_build (h : (build settings [⟨.delete, x⟩]).refusal = none) :
    (x.applyDefaults settings.scope).validate .delete = .ok () := by
  rw [build_eq, List.findSome?_cons] at h
  cases hv : (x.applyDefaults settings.scope).validate .delete with
  | ok u => rfl
  | error v =>
    rw [Operation.refusal?, hv] at h
    cases h

end Transaction

namespace Engine

/-- What the queries return of an engine: all that is stored, or what they list of it. -/
inductive Returns (e : Engine) : Object → Prop
  | snapshot (o : Object) (ho : o ∈ e.ruleset.objects) : Returns e o
  | table (t : Table) (ht : t ∈ e.listTables) : Returns e (.table t)
  | rule (chain : String) (rules : List Rule) (x : Rule) (h : e.listRules chain = .ok rules)
    (hx : x ∈ rules) : Returns e (.rule x)
  | counter (counters : List Counter) (c : Counter) (h : e.listCounters = .ok counters)
    (hc : c ∈ counters) : Returns e (.counter c)

theorem get?_of_boundTable {e : Engine} {t : TableState} (h : e.boundTable = .ok t) :
    ∃ key, e.ruleset.tables.get? key = some t := by
  unfold boundTable at h
  split at h
  · split at h
    · rename_i ht
      cases h
      exact ⟨_, ht⟩
    · cases h
  · cases h

theorem Returns.mem_objects {e : Engine} {o : Object} (h : e.Returns o) :
    o ∈ e.ruleset.objects := by
  cases h with
  | snapshot _ ho => exact ho
  | table t ht =>
    obtain ⟨t', ht', rfl⟩ := List.mem_map.mp ht
    exact List.mem_flatMap_of_mem ht' t'.table_mem_objects
  | rule chain rules x h hx =>
    obtain ⟨t, ht, h⟩ := bind_ok h
    obtain ⟨key, ht⟩ := get?_of_boundTable ht
    split at h
    · rename_i c hc
      cases h
      exact Ruleset.mem_objects_iff.mpr ⟨key, t, ht,
        TableState.mem_objects_of_get? (t.shows_chains.entry hc) (.inr (List.mem_map_of_mem hx))⟩
    · cases h
  | counter counters c h hc =>
    obtain ⟨t, ht, h⟩ := bind_ok h
    obtain ⟨key, ht⟩ := get?_of_boundTable ht
    cases h
    obtain ⟨name, hc⟩ := SortedMap.mem_values_iff.mp hc
    exact Ruleset.mem_objects_iff.mpr ⟨key, t, ht,
      TableState.mem_objects_of_get? (t.shows_counters.entry hc) (.inl rfl)⟩

/-- A transaction that deletes the object is accepted and succeeds, and commits this ruleset. -/
structure Deletes (e : Engine) (settings : Config) (x : Object) (r : Ruleset) : Prop where
  accepted : (Transaction.build settings [⟨.delete, x⟩]).refusal = none
  run : e.run (.build settings [⟨.delete, x⟩]) = ({ e with
    ruleset := r
    lastTransaction := some (.build settings [⟨.delete, x⟩]) }, .ok ())

theorem attempt_delete {e : Engine} {settings : Config} {x : Object}
    (hv : (x.applyDefaults settings.scope).validate .delete = .ok ()) :
    e.attempt (.build settings [⟨.delete, x⟩]) = (match e.ruleset.step e.config.effectiveDefines
        e.lastHandle ⟨.delete, x.applyDefaults settings.scope⟩ with
      | .ok r => ⟨r, e.lastHandle, .ok ()⟩
      | .error err => ⟨e.ruleset, e.lastHandle, .error err⟩) := by
  rw [attempt, Transaction.build_delete hv]
  exact Ruleset.apply_singleton ..

theorem deletes_of_step {e : Engine} {x : Object} {key : TableKey} {r : Ruleset}
    (hscope : x.scope = key.scope) (hv : x.validate .delete = .ok ())
    (hs : e.ruleset.step e.config.effectiveDefines e.lastHandle ⟨.delete, x⟩ = .ok r)
    (settings : Config) : e.Deletes settings x r := by
  have hcomplete := Object.applyDefaults_eq hscope settings.scope
  have hvalid : (x.applyDefaults settings.scope).validate .delete = .ok () := by rwa [hcomplete]
  have hattempt := attempt_delete (e := e) hvalid
  rw [hcomplete, hs] at hattempt
  have hrefusal : (Transaction.build settings [⟨.delete, x⟩]).refusal = none := by
    rw [Transaction.build_delete hvalid]
    rfl
  refine ⟨hrefusal, ?_⟩
  rw [run_of_ok hrefusal (by rw [hattempt]), hattempt]

/--
**What a query returns can be deleted.** After every history, a transaction that deletes a stored
object as it is returned is accepted and succeeds. It takes out what is within the object and
nothing else; without its handle, which only a rule needs, the object is deleted just the same. A
handle that no object of the kind has, in the table that is named or the family, is not found.
-/
theorem returned_deletable (config : Config) (calls : List Call) (settings : Config) :
    let e := (ofConfig config).after calls
    (∀ o, e.Returns o → o.kind ≠ .element → ∃ key, o.scope = key.scope ∧
      e.Deletes settings o (e.ruleset.without key o) ∧
      (o.kind ≠ .rule → e.Deletes settings o.eraseHandle (e.ruleset.without key o)) ∧
      ∀ z, z ∈ (e.ruleset.without key o).objects ↔ z ∈ e.ruleset.objects ∧ ¬ z.Within o) ∧
    ∀ x n, let tx := Transaction.build settings [⟨.delete, x⟩]
      let y := x.applyDefaults settings.scope
      tx.refusal = none → y.handle = some n → (∀ z, e.ruleset.Alike y z → z.handle ≠ some n) →
      ∃ missing,
        e.run tx = ({ e with lastTransaction := some tx }, .error (.notFound missing)) := by
  intro e
  have hw : e.ruleset.WellFormed := ruleset_wellFormed config calls
  have hn : e.ruleset.Numbered e.lastHandle := numbered_after config calls
  constructor
  · intro o ho helement
    obtain ⟨key, t, ht, hot⟩ := Ruleset.mem_objects_iff.mp ho.mem_objects
    have hscope := (hw key t ht).scope_of_mem_objects o hot
    obtain ⟨hv, hverased⟩ := (hw key t ht).fit_delete o hot helement
    have hstep : ∀ x : Object, x.Cites o → e.ruleset.step e.config.effectiveDefines e.lastHandle
        ⟨.delete, x⟩ = .ok (e.ruleset.without key o) :=
      fun x hx => Ruleset.step_delete hw hn ht hot helement hx _ _
    refine ⟨key, hscope, ?_, fun hrule => ?_, fun z => hw.mem_objects_without ht hot helement⟩
    · exact deletes_of_step hscope hv (hstep o (.inl rfl)) settings
    · exact deletes_of_step ((Object.scope_eraseHandle o).trans hscope) (hverased hrule)
        (hstep _ (.inr ⟨hrule, rfl⟩)) settings
  · intro x n tx y haccepted hy hnone
    have hv : y.validate .delete = .ok () := Transaction.validate_of_build haccepted
    -- no object of the kind has the handle, so the one operation fails
    obtain ⟨missing, hmissing⟩ := Ruleset.step_delete_missing hw hv hy hnone
      e.config.effectiveDefines e.lastHandle
    have hattempt := attempt_delete (e := e) hv
    rw [hmissing] at hattempt
    exact ⟨missing, by simp only [run, haccepted, tx, hattempt]⟩

/-- A chain goes with its two rules. The handle of a set is not that of a rule. -/
theorem returned_deletable_mixedHistory :
    let settings : Config := { family := some .ip, table := some "t" }
    let e := (ofConfig settings).after (mixedHistory settings)
    let key : TableKey := ⟨.ip, "t"⟩
    let o : Object := .chain
      { scope := key.scope, name := "in", chainType := some .filter, hook := some .input
        priority := some "filter", handle := some 2 }
    let tx := Transaction.build settings [⟨.delete, .rule { chain := "in", handle := some 4 }⟩]
    (e.Returns o ∧ e.Deletes settings o (e.ruleset.without key o)) ∧
      ((e.ruleset.objects.filter fun z => z.Within o).length = 3 ∧
        (e.ruleset.without key o).objects.length = 8) ∧
      ∃ missing,
        e.run tx = ({ e with lastTransaction := some tx }, .error (.notFound missing)) := by
  intro settings e key o tx
  have ho : e.Returns o := .snapshot o (by decide +kernel)
  have hnone : ∀ z ∈ e.ruleset.objects, z.kind = .rule → z.handle ≠ some 4 := by decide +kernel
  obtain ⟨hdelete, hmissing⟩ := returned_deletable settings (mixedHistory settings) settings
  obtain ⟨key', hscope, hdeletes, -⟩ := hdelete o ho Kind.noConfusion
  obtain rfl : key = key' := TableKey.scope_injective hscope
  refine ⟨⟨ho, hdeletes⟩, by decide +kernel, ?_⟩
  exact hmissing (.rule { chain := "in", handle := some 4 }) 4 (by decide +kernel) rfl
    fun z hz => hnone z hz.1 hz.2.1

end Engine

end Nftables
