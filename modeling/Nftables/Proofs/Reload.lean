import Nftables.Proofs.CommandText
import Nftables.Proofs.Splitting

/-!
# A dump is loaded over the ruleset that it was written from

A file that flushes every table and goes on with the dump loads the ruleset anew in one transaction.
The declarations of the dump find their objects in place and change nothing; the rules and elements
come back in their order. So two things are proved of such a run: it comes to the ruleset as far as
no handles count, and all that it changes on the way are rules and elements. What is left to differ
are the handles of the rules.

The first of these is the chain of steps by which a ruleset is rebuilt, started from the flushed
tables instead of the empty ruleset (`steps_written`): a declaration is a step that stays where it
is. The second cannot come from that chain, which knows of no handles. It is proved of the run
itself: a step that adds a rule, an element, or what is there leaves the flushed ruleset as it was
(`flush_of_step`). From both together `eraseRuleHandles_eq` puts the ruleset together, every handle
but those of the rules.

The dump does not say all of an object. A set that is declared not to merge has no clause for it,
and spans of time lose their fractions. The condition is therefore on what is written (`Writable`),
and what is read is the object as written: it is in place already and is not overwritten, so nothing
is lost.
-/

namespace Nftables

/-! ## Without the handles of the rules -/

def ChainState.eraseRuleHandles (c : ChainState) : ChainState :=
  { c with rules := c.rules.map (Rule.mapHandle fun _ => none) }

def TableState.eraseRuleHandles (t : TableState) : TableState :=
  { t with chains := t.chains.map ChainState.eraseRuleHandles }

namespace Ruleset

/-- The ruleset without the handles of its rules; all others stay. -/
def eraseRuleHandles (r : Ruleset) : Ruleset :=
  { tables := r.tables.map TableState.eraseRuleHandles }

/-- The ruleset without any rules and elements. -/
def flush (r : Ruleset) : Ruleset := { tables := r.tables.map TableState.flush }

end Ruleset

/-- All handles but those of the rules can be seen without the rules and elements. -/
theorem TableState.eraseRuleHandles_eq {t₁ t₂ : TableState}
    (herase : t₁.eraseHandles = t₂.eraseHandles) (hflush : t₁.flush = t₂.flush) :
    t₁.eraseRuleHandles = t₂.eraseRuleHandles := by
  obtain ⟨-, -, hchains, hsets, hmaps, -⟩ := mapHandles_eq_iff.mp herase
  obtain ⟨htable, hflowtables, hchains', hsets', hmaps', hcounters⟩ := TableState.mk.inj hflush
  -- each kind keeps on the one side what the other leaves out
  have hchain : ∀ a b : ChainState, a.mapHandles (fun _ => none) = b.mapHandles (fun _ => none) →
      a.flush = b.flush → a.eraseRuleHandles = b.eraseRuleHandles := fun a b hab hab' =>
    congrArg₂ ChainState.mk (ChainState.mk.inj hab').1 (ChainState.mk.inj hab).2
  have hset : ∀ a b : SetState, a.mapHandle (fun _ => none) = b.mapHandle (fun _ => none) →
      a.flush = b.flush → id a = id b := fun a b hab hab' =>
    congrArg₂ SetState.mk (SetState.mk.inj hab').1 (SetState.mk.inj hab).2
  have hmap : ∀ a b : MapState, a.mapHandle (fun _ => none) = b.mapHandle (fun _ => none) →
      a.flush = b.flush → id a = id b := fun a b hab hab' =>
    congrArg₂ MapState.mk (MapState.mk.inj hab').1 (MapState.mk.inj hab).2
  have hsame := SortedMap.map_eq_map hsets hsets' hset
  have hsame' := SortedMap.map_eq_map hmaps hmaps' hmap
  rw [SortedMap.map_id, SortedMap.map_id] at hsame hsame'
  rw [eraseRuleHandles, eraseRuleHandles, TableState.mk.injEq]
  exact ⟨htable, hflowtables, SortedMap.map_eq_map hchains hchains' hchain, hsame, hsame',
    hcounters⟩

theorem Ruleset.eraseRuleHandles_eq {r₁ r₂ : Ruleset} (herase : r₁.eraseHandles = r₂.eraseHandles)
    (hflush : r₁.flush = r₂.flush) : r₁.eraseRuleHandles = r₂.eraseRuleHandles :=
  congrArg Ruleset.mk (SortedMap.map_eq_map (congrArg tables herase) (congrArg tables hflush)
    fun _ _ => TableState.eraseRuleHandles_eq)

theorem TableState.flush_flush (t : TableState) : t.flush.flush = t.flush := by
  simp only [flush, SortedMap.map_map]
  rfl

theorem Ruleset.flush_flush (r : Ruleset) : r.flush.flush = r.flush := by
  simp only [flush, SortedMap.map_map, TableState.flush_flush]

theorem Object.eraseHandle_written (o : Object) :
    o.written.eraseHandle = o.eraseHandle.written := by
  cases o with
  | counter c =>
    simp only [written, eraseHandle, Counter.written]
    split <;> rfl
  | _ => rfl

/-! ## Objects that are in place -/

/-- `add` leaves alone what is there. -/
theorem Shelf.apply_present {κ σ : Type} [Ord κ] [Std.TransOrd κ] {s : Shelf κ σ}
    {m : SortedMap κ σ} {among : κ → Bool} {key : κ} {new : σ} (h : m.contains key = true) :
    s.apply m among .add key none new = .ok m :=
  (apply_none s m among .add key new).trans
    (congrArg Except.ok (SortedMap.insertIfNew_of_contains new h))

/-- All that `add` can do to a shelf with the object is to leave it alone. -/
theorem Shelf.Effect.eq_of_contains {κ σ : Type} [Ord κ] [Std.TransOrd κ] {s : Shelf κ σ}
    {m m' : SortedMap κ σ} {among : κ → Bool} {key : κ} {given : Option Nat} {new : σ}
    (he : s.Effect m among .add key given new m') (h : m.contains key = true) : m' = m := by
  cases he with
  | keep => rfl
  | put hv hnone =>
    rw [SortedMap.contains, hnone] at h
    cases h
  | drop k hv => rcases hv with hv | hv <;> cases hv
  | change f hv => rcases hv with ⟨hv, -⟩ | ⟨hv, -⟩ <;> cases hv

namespace TableState

variable {defines : List Define} {t t' : TableState} {o : Object} {key : TableKey}

/-- The table has an object of this kind and name, of the kinds that are known by name. -/
def Has (t : TableState) : Object → Prop
  | .chain c => t.chains.contains c.name = true
  | .set s => t.sets.contains s.name = true
  | .map m => t.maps.contains m.name = true
  | .flowtable f => t.flowtables.contains f.name = true
  | .counter c => t.counters.contains c.name = true
  | .table _ | .rule _ | .element _ => False

theorem has_flush : t.flush.Has o ↔ t.Has o := by
  cases o <;> simp [Has, flush]

theorem has_written : t.Has o.written ↔ t.Has o := by
  cases o with
  | counter c =>
    have hname := Object.name?_written (.counter c)
    simp only [Object.written, Object.name?, Option.some.injEq] at hname
    simp only [Object.written, Has, hname]
  | _ => rfl

theorem has_eraseHandle : t.Has o.eraseHandle ↔ t.Has o := by
  cases o <;> rfl

/-- Rules and elements have no names of their own. -/
theorem name?_of_mem_contents : ∀ o ∈ t.contents, o.eraseHandle.name? = none := by
  intro o ho
  simp only [contents, List.mem_append, List.mem_flatMap, List.mem_map] at ho
  rcases ho with (⟨-, -, r, -, rfl⟩ | ⟨-, -, e, -, rfl⟩) | ⟨-, -, e, -, rfl⟩ <;> rfl

/-- What a well-formed table declares, it has. -/
theorem WellFormed.has (hw : t.WellFormed key) : ∀ o ∈ t.declarations.tail, t.Has o := by
  have hcontains : ∀ {α : Type} {m : SortedMap String α} {name : α → String},
      (m.All fun k v => name v = k) → ∀ v ∈ m.values, m.contains (name v) = true := by
    intro α m name h v hv
    obtain ⟨k, hk⟩ := SortedMap.mem_values_iff.mp hv
    rw [h k v hk]
    exact SortedMap.contains_iff.mpr ⟨v, hk⟩
  intro o ho
  simp only [declarations, List.tail_cons, List.mem_append, List.mem_map] at ho
  rcases ho with (((⟨f, hf, rfl⟩ | ⟨c, hc, rfl⟩) | ⟨s, hs, rfl⟩) | ⟨m, hm, rfl⟩) | ⟨c, hc, rfl⟩
  · exact hcontains (fun k f hf => (hw.flowtables k f hf).named.1) f hf
  · exact hcontains (fun k c hc => (hw.chains k c hc).chain.named.1) c hc
  · exact hcontains (fun k s hs => (hw.sets k s hs).set.named.1) s hs
  · exact hcontains (fun k m hm => (hw.maps k m hm).map.named.1) m hm
  · exact hcontains (fun k c hc => (hw.counters k c hc).named.1) c hc

/-- To declare what the table has is a step that changes nothing. -/
theorem grows_present (h : t.Has o) : t.Grows defines o t := by
  cases o with
  | table | rule | element => exact h.elim
  | _ => exact ⟨t, bind_of_ok (Shelf.apply_present h), rfl⟩

theorem steps_present {l : List Object} (h : ∀ o ∈ l, t.Has o) : Steps (Grows defines) t l t := by
  induction l with
  | nil => exact .nil t
  | cons o l ih =>
    exact .cons (grows_present (h o List.mem_cons_self)) (ih fun o ho => h o (.tail _ ho))

/-- Behind the table itself, its objects as the dump says them lead from it flushed to the whole. -/
theorem steps_written (hw : t.WellFormed key) (hsettled : t.Settled defines) (hres : t.Resolved) :
    Steps (Grows defines) t.flush (t.objects.tail.map Object.written) t := by
  -- rules and elements are written whole
  have hcontents : t.contents.map Object.written = t.contents := by
    simp [contents, List.map_flatMap, Function.comp_def, Object.written]
  have hcut : t.objects.tail.map Object.written
      = t.declarations.tail.map Object.written ++ t.contents := by
    rw [show t.objects.tail = t.declarations.tail ++ t.contents from rfl, List.map_append,
      hcontents]
  rw [hcut]
  refine Steps.append (steps_present fun o ho => ?_) (steps_contents hw hsettled hres)
  obtain ⟨o', ho', rfl⟩ := List.mem_map.mp ho
  exact has_written.mpr (has_flush.mpr (hw.has o' ho'))

/-- **Adding rules, elements, or what the table has, changes at most its rules and elements.** -/
theorem Effect.flush_eq {handle : Nat} (he : t.Effect defines .add handle o t')
    (ho : o.name? = none ∨ t.Has o) : t'.flush = t.flush := by
  cases he with
  | chain c chains he => rw [he.eq_of_contains (ho.resolve_left nofun)]
  | set s sets he => rw [he.eq_of_contains (ho.resolve_left nofun)]
  | map m maps he => rw [he.eq_of_contains (ho.resolve_left nofun)]
  | flowtable f flowtables he => rw [he.eq_of_contains (ho.resolve_left nofun)]
  | counter c counters he => rw [he.eq_of_contains (ho.resolve_left nofun)]
  | rule r c rules =>
    have hsame := SortedMap.map_modify_eq t.chains ChainState.flush (k := r.chain)
      (g := fun c => { c with rules }) fun _ _ => rfl
    rw [flush, hsame]
    rfl
  | setElement e name s elements =>
    have hsame := SortedMap.map_modify_eq t.sets SetState.flush (k := name)
      (g := fun s => { s with elements }) fun _ _ => rfl
    rw [flush, hsame]
    rfl
  | mapElement e name m elements =>
    have hsame := SortedMap.map_modify_eq t.maps MapState.flush (k := name)
      (g := fun m => { m with elements }) fun _ _ => rfl
    rw [flush, hsame]
    rfl

end TableState

/-! ## The flushed tables are filled again -/

namespace Ruleset

variable {defines : List Define} {r r' : Ruleset} {o : Object}

/-- The object goes into a table that is there, and is declared there if it has an own name. -/
def Takes (r : Ruleset) (o : Object) : Prop :=
  ∃ key t, o.scope = TableKey.scope key ∧ r.tables.get? key = some t ∧
    (o.name? = none ∨ t.Has o)

theorem Takes.of_flush_eq (h : r.Takes o) (hflush : r'.flush = r.flush) : r'.Takes o := by
  obtain ⟨key, t, hscope, ht, ho⟩ := h
  rcases SortedMap.get?_of_map_eq (congrArg tables hflush) key with
    ⟨-, hnone⟩ | ⟨t', t₀, ht', ht₀, hsame⟩
  · cases ht.symm.trans hnone
  · cases ht.symm.trans ht₀
    refine ⟨key, t', hscope, ht', ho.imp id fun hhas => ?_⟩
    exact TableState.has_flush.mp (hsame ▸ TableState.has_flush.mpr hhas)

theorem flush_of_step {handle : Nat} (h : r.Takes o)
    (hs : r.step defines handle ⟨.add, o⟩ = .ok r') : r'.flush = r.flush := by
  obtain ⟨key, t, hscope, ht, ho⟩ := h
  cases step_effect hs with
  | table x family tables hobject hfamily he =>
    -- the table is there
    dsimp only at hobject
    subst hobject
    have hscope' : x.scope = key.scope := hscope
    have hcontains : r.tables.contains ⟨family, x.scope.table.getD ""⟩ = true := by
      rw [hscope'] at hfamily ⊢
      cases hfamily
      exact SortedMap.contains_iff.mpr ⟨t, ht⟩
    rw [he.eq_of_contains hcontains]
  | inside key' t₁ t' hscope' ht' he =>
    have hkey : key' = key := by
      have hboth := hscope.symm.trans hscope'
      cases key
      cases key'
      cases hboth
      rfl
    subst hkey
    cases ht.symm.trans ht'
    refine congrArg Ruleset.mk (SortedMap.map_modify_eq _ _ fun v hv => ?_)
    cases ht.symm.trans hv
    -- only the one table has changed, and in it no more than rules and elements
    exact he.flush_eq ho

/-- **Adding what the ruleset takes changes at most its rules and elements.** -/
theorem flush_apply (defines : List Define) {l : List Object} (h : ∀ o ∈ l, r.Takes o)
    (last : Nat) :
    (r.apply defines last (l.map fun o => ⟨.add, o⟩)).ruleset.flush = r.flush := by
  induction l generalizing r last with
  | nil => rfl
  | cons o l ih =>
    rw [List.map_cons, apply]
    cases hs : r.step defines (nextHandle last ⟨.add, o⟩) ⟨.add, o⟩ with
    | error e => rfl
    | ok r' =>
      have hflush := flush_of_step (h o List.mem_cons_self) hs
      have hrest := ih (fun o ho => (h o (.tail _ ho)).of_flush_eq hflush)
        (nextHandle last ⟨.add, o⟩)
      exact hrest.trans hflush

/-- A ruleset without its rules and elements takes all objects of the whole one. -/
theorem WellFormed.takes (hw : r.WellFormed) :
    ∀ o ∈ r.objects, r.flush.Takes o.eraseHandle.written := by
  intro o ho
  obtain ⟨t, ht, ho⟩ := List.mem_flatMap.mp ho
  obtain ⟨key, hkey⟩ := SortedMap.mem_values_iff.mp ht
  have hwt := hw key t hkey
  have hscope : o.eraseHandle.written.scope = key.scope := by
    rw [Object.scope_written, Object.scope_eraseHandle, hwt.scope_of_mem_objects o ho]
  have hflush : r.flush.tables.get? key = some t.flush := by
    rw [flush, SortedMap.get?_map, hkey]
    rfl
  refine ⟨key, t.flush, hscope, hflush, ?_⟩
  rw [Object.name?_written, TableState.has_written, TableState.has_flush]
  -- the table, its declarations, or its contents
  rcases List.mem_append.mp ho with ho | ho
  · rcases List.mem_cons.mp ho with rfl | ho
    · exact .inl rfl
    · exact .inr (TableState.has_eraseHandle.mpr (hwt.has o ho))
  · exact .inl (TableState.name?_of_mem_contents o ho)

theorem grows_presentTable {key : TableKey} {t : Table} (hscope : t.scope = key.scope)
    (h : r.tables.contains key = true) : r.Grows defines (.table t) r := by
  obtain ⟨scope, comment, handle⟩ := t
  subst hscope
  exact ⟨r, bind_of_ok (Shelf.apply_present h), rfl⟩

/-- The objects of the ruleset, as the dump says them, lead from the flushed tables to the whole. -/
theorem steps_written (hw : r.WellFormed) (hsettled : r.Settled defines) (hres : r.Resolved) :
    Steps (Grows defines) r.flush (r.objects.map Object.written) r := by
  have h := Steps.refill r.tables Ruleset.mk (R := Grows defines) (f := TableState.flush) (g := id)
    (o := fun t => t.objects.map Object.written) fun m key t ht hm hcontains => ?_
  · rw [SortedMap.map_id] at h
    rwa [objects, List.map_flatMap]
  · have hwt := hw key t ht
    have htable : Ruleset.Grows defines ⟨m⟩ (.table t.table) ⟨m⟩ :=
      grows_presentTable hwt.table.scope (SortedMap.contains_iff.mpr ⟨_, hm⟩)
    have hscope : ∀ o ∈ t.objects.tail.map Object.written, o.scope = key.scope := by
      intro o ho
      obtain ⟨o', ho', rfl⟩ := List.mem_map.mp ho
      exact (Object.scope_written o').trans (hwt.scope_of_mem_objects o' (List.mem_of_mem_tail ho'))
    have hinside := steps_inside (m := m) hscope
      (TableState.steps_written hwt (hsettled key t ht) (hres key t ht))
    rw [SortedMap.insert_self hm, ← SortedMap.modify_insert_const m key t.flush t,
      SortedMap.insert_self hm] at hinside
    exact .cons htable hinside

end Ruleset

/-! ## The operations of a reload -/

/-- The operation that takes all rules and elements out of the table. -/
def TableKey.flushing (key : TableKey) : Operation := ⟨.flush, .table { scope := key.scope }⟩

/-- The operation as its line says it. -/
def Operation.written (op : Operation) : Operation := ⟨op.verb, op.object.written⟩

namespace Ruleset

variable {defines : List Define} {r : Ruleset} {keys : List TableKey}

/-- What is written for a reload: the tables are flushed, and then all objects are added. -/
def reloading (r : Ruleset) (keys : List TableKey) : List Operation :=
  keys.map TableKey.flushing ++ r.objects.map fun o => ⟨.add, o.eraseHandle⟩

/-- Tables that are there are flushed one after the other, and no numbers are drawn. -/
theorem apply_flushing (defines : List Define) (h : ∀ key ∈ keys, r.tables.contains key = true)
    (last : Nat) :
    ∃ r', r.apply defines last (keys.map TableKey.flushing) = ⟨r', last, .ok ()⟩ ∧
      ∀ key, r'.tables.get? key = if key ∈ keys then (r.tables.get? key).map TableState.flush
        else r.tables.get? key := by
  induction keys generalizing r with
  | nil => exact ⟨r, rfl, fun key => (if_neg List.not_mem_nil).symm⟩
  | cons key keys ih =>
    have hstep : r.step defines (nextHandle last key.flushing) key.flushing
        = .ok { tables := r.tables.modify key TableState.flush } := by
      have hshelf : tableShelf.apply r.tables (·.family = key.family) .flush key none
          { table := { scope := key.scope, handle := some (nextHandle last key.flushing) } }
          = .ok (r.tables.modify key TableState.flush) := by
        rw [Shelf.apply_none, h key List.mem_cons_self]
        rfl
      exact bind_of_ok hshelf
    obtain ⟨r', happly, hget⟩ := ih (r := { tables := r.tables.modify key TableState.flush })
      fun k hk => (SortedMap.contains_modify _ _ _ _).trans (h k (.tail _ hk))
    refine ⟨r', by rw [List.map_cons, apply, hstep]; exact happly, fun k => ?_⟩
    rw [hget, SortedMap.get?_modify]
    by_cases hk : k = key
    · -- a table that is flushed twice is as if it were once
      subst hk
      rw [if_pos rfl, if_pos List.mem_cons_self, Option.map_map]
      split
      · exact congrArg (fun f => (r.tables.get? k).map f) (funext TableState.flush_flush)
      · rfl
    · rw [if_neg hk]
      simp only [List.mem_cons, hk, false_or]

/-- Flushing all tables flushes the ruleset. -/
theorem apply_flushing_keys (defines : List Define) (hkeys : keys.Perm r.tables.keys)
    (last : Nat) :
    r.apply defines last (keys.map TableKey.flushing) = ⟨r.flush, last, .ok ()⟩ := by
  have hmem : ∀ key, key ∈ keys ↔ r.tables.contains key = true := fun key =>
    hkeys.mem_iff.trans SortedMap.mem_keys_iff
  obtain ⟨r', happly, hget⟩ :=
    apply_flushing defines (fun key hkey => (hmem key).mp hkey) last
  -- a table that is not flushed is none of the ruleset
  have hflush : r' = r.flush := by
    refine congrArg Ruleset.mk (SortedMap.ext fun key => ?_)
    rw [hget, SortedMap.get?_map]
    split
    · rfl
    · rename_i hnot
      rw [SortedMap.get?_of_not_contains (by simpa using mt (hmem key).mpr hnot)]
      rfl
  rw [happly, hflush]

/--
**A reload comes back to the ruleset up to the handles**, and keeps all but rules and elements.
-/
theorem apply_reloading (hw : r.WellFormed) (hsettled : r.Settled defines) (hres : r.Resolved)
    (hkeys : keys.Perm r.tables.keys) (last : Nat) :
    (r.apply defines last ((r.reloading keys).map Operation.written)).result = .ok () ∧
      (r.apply defines last ((r.reloading keys).map Operation.written)).ruleset.eraseHandles
        = r.eraseHandles ∧
      (r.apply defines last ((r.reloading keys).map Operation.written)).ruleset.flush
        = r.flush := by
  have hflushing := apply_flushing_keys defines hkeys last
  have hops : (r.reloading keys).map Operation.written = keys.map TableKey.flushing
      ++ (r.objects.map fun o => o.eraseHandle.written).map fun o => ⟨.add, o⟩ := by
    simp [reloading, Operation.written, Function.comp_def, TableKey.flushing, Object.written]
  rw [hops, apply_append _ _ _ (by rw [hflushing]), hflushing]
  obtain ⟨hok, herase⟩ := apply_of_steps (steps_written hw hsettled hres) rfl last
  have hadds : ((r.objects.map Object.written).map fun o => (⟨.add, o.eraseHandle⟩ : Operation))
      = (r.objects.map fun o => o.eraseHandle.written).map fun o => ⟨.add, o⟩ := by
    simp [Function.comp_def, Object.eraseHandle_written]
  rw [hadds] at hok herase
  have hflush := flush_apply defines (List.forall_mem_map.mpr hw.takes) last
  exact ⟨hok, herase, hflush.trans r.flush_flush⟩

end Ruleset

/-! ## The text of a reload -/

/-- A stored object can be written as it is: the operation that adds it is plain. -/
def Object.Writable (o : Object) : Prop := Operation.Plain ⟨.add, o.eraseHandle⟩

instance (o : Object) : Decidable o.Writable := inferInstanceAs (Decidable (Operation.Plain _))

/-- The texts of the ruleset are plain as far as they are written. -/
def Ruleset.Writable (r : Ruleset) : Prop := ∀ o ∈ r.objects, o.Writable

instance (r : Ruleset) : Decidable r.Writable := inferInstanceAs (Decidable (∀ _ ∈ _, _))

section Tables

variable {key : TableKey} {t : TableState}

theorem Object.Writable.table {o : Object} (h : o.Writable) (hscope : o.scope = key.scope) :
    PlainName key.name := by
  refine Operation.Plain.table h |>.resolve_left (fun hhandle => ?_) key.name ?_
  · cases hhandle.1.1
  · rw [Object.scope_eraseHandle, hscope]
    rfl

/-- The set that an element names is in the table. -/
theorem TableState.WellFormed.set_of_mem_objects (hw : t.WellFormed key) {e : Element}
    (he : .element e ∈ t.objects) {name : String} (hset : e.set = some name) :
    t.sets.contains name = true := by
  rw [mem_objects_iff] at he
  rcases List.mem_append.mp ((List.mem_map_of_injective fun _ _ => Object.element.inj).mp he) with
    hmem | hmem
  · obtain ⟨s, hs, he⟩ := List.mem_flatMap.mp hmem
    obtain ⟨k, hs⟩ := SortedMap.mem_values_iff.mp hs
    obtain rfl : k = name := Option.some.inj (((hw.sets k s hs).elements e he).set.symm.trans hset)
    exact SortedMap.contains_iff.mpr ⟨s, hs⟩
  · obtain ⟨m, hm, he⟩ := List.mem_flatMap.mp hmem
    obtain ⟨k, hm⟩ := SortedMap.mem_values_iff.mp hm
    cases ((hw.maps k m hm).elements e he).set.symm.trans hset

/-- What holds of all rules among the objects of the table holds of the rules of its chains. -/
theorem TableState.forall_rules {P : Rule → Prop} (h : ∀ r, .rule r ∈ t.objects → P r) :
    t.chains.All fun _ c => ∀ r ∈ c.rules, P r := by
  intro k c hc r hr
  refine h r (mem_objects_iff.mpr (List.mem_map_of_mem (List.mem_flatMap.mpr ?_)))
  exact ⟨c, SortedMap.mem_values_iff.mpr ⟨k, hc⟩, hr⟩

/--
**The line of a stored object is read as what is written of it**, unless it is an element of a set
and a known map has the name of that.
-/
theorem Object.readsBack_written (known : List Command.MapName) {o : Object}
    (hscope : o.scope = key.scope) (hfit : o.eraseHandle.validateKind .add = .ok ())
    (hp : o.Writable) (hknown : ∀ e name, o = .element e → e.set = some name →
      ⟨key.family, key.name, name⟩ ∉ known) :
    ∃ tail rest, ReadsBack known key .add o.eraseHandle o.eraseHandle.written tail rest := by
  have htext := hp.text
  have hnamed : ∀ name, o.eraseHandle.name? = some name → o.eraseHandle.handle = none →
      ∃ tail rest, ReadsBack known key .add o.eraseHandle o.eraseHandle.written tail rest :=
    fun name hname hhandle => Nftables.readsBack_written known hname
      ((Object.scope_eraseHandle o).trans hscope) hhandle (.inl rfl) hfit htext
  cases o with
  | table x =>
    exact readsBack_table known hscope rfl hscope rfl (Verb.Puts.bodyOf (.inl rfl) _)
      (hp.table hscope) (htext rfl)
  | rule r =>
    obtain ⟨hchain, -, htext⟩ := htext
    exact readsBack_rule known hscope (.inl rfl) hchain (by simp) (by simp) (.inl rfl)
      (htext nofun)
  | element e =>
    obtain ⟨hcontainer, -, htext⟩ := htext
    have hplain := htext rfl
    have hfit : e.validate .add = .ok () := hfit
    obtain ⟨-, hkey⟩ := Element.shape_of_validate hfit
    rcases Element.inSet_or_inMap hscope (.inl rfl) hfit with hset | hmap
    · have hread := readsBack_setElement hcontainer hset (.inl rfl) hkey hplain.parts
        (hknown e _ rfl hset.set)
      rwa [hplain.reread_eq] at hread
    · have hread := readsBack_mapElement known hcontainer hmap (.inl rfl) hkey hplain.parts
      rwa [hplain.reread_eq] at hread
  | chain c => exact hnamed c.name rfl rfl
  | set s => exact hnamed s.name rfl rfl
  | map m => exact hnamed m.name rfl rfl
  | flowtable f => exact hnamed f.name rfl rfl
  | counter c => exact hnamed c.name rfl rfl

end Tables

theorem TableKey.declares_written (key : TableKey) (o : Object) :
    key.declares o.written = key.declares o := by
  cases o <;> rfl

namespace Ruleset

variable {r : Ruleset} {keys : List TableKey}

/-- The line of the operation queues it as written, where only maps of the ruleset are known. -/
def QueuesWritten (r : Ruleset) (op : Operation) : Prop :=
  Command.LineOf op.command op.line ∧ Command.Queues r.HasMap (· = op.written) op.line

theorem WellFormed.queuesWritten_add (hw : r.WellFormed) (hplain : r.Writable)
    (hunmixed : r.Unmixed) : ∀ o ∈ r.objects, r.QueuesWritten ⟨.add, o.eraseHandle⟩ := by
  intro o ho
  have hp := hplain o ho
  obtain ⟨t, ht, hot⟩ := List.mem_flatMap.mp ho
  obtain ⟨key, hkey⟩ := SortedMap.mem_values_iff.mp ht
  have hwt := hw key t hkey
  have hbodies := TableState.forall_rules (t := t) fun r hr =>
    ((hplain _ (List.mem_flatMap.mpr ⟨t, ht, hr⟩)).text.2.2 nofun).nonempty
  have hscope := hwt.scope_of_mem_objects o hot
  have hscope' : o.eraseHandle.written.scope = key.scope := by
    rw [Object.scope_written, Object.scope_eraseHandle, hscope]
  have hfit := Object.validateKind_of_validate (hwt.fit hbodies o hot)
  have hfit' : o.eraseHandle.written.validate .add = .ok () :=
    Object.validate_of_scope hscope' hwt.table.named ((Object.validateKind_written _ _).trans hfit)
  refine Command.queues_of_readsBack (hp.table hscope).1 nofun hscope' hfit' (fun n hn => ?_)
    fun known hknown => Object.readsBack_written known hscope hfit hp fun e name he hset hmem => ?_
  · rw [TableKey.declares_written] at hn
    obtain ⟨hfamily, htable, hmap⟩ := hwt.declares o hot n hn
    exact ⟨t, by rw [hfamily, htable]; exact hkey, hmap⟩
  · -- a known map of this table is one that the table has, and no set has its name
    obtain ⟨t', ht', hmap⟩ := hknown _ hmem
    obtain rfl : t = t' := Option.some.inj (hkey.symm.trans ht')
    obtain ⟨m, hm⟩ := SortedMap.contains_iff.mp hmap
    have hcontains := hwt.set_of_mem_objects (he ▸ hot) hset
    exact Bool.false_ne_true ((hunmixed key t hkey name m hm).symm.trans hcontains)

theorem WellFormed.queuesWritten_flushing (hw : r.WellFormed) (hplain : r.Writable) {key : TableKey}
    (hkey : r.tables.contains key = true) : r.QueuesWritten key.flushing := by
  obtain ⟨t, ht⟩ := SortedMap.contains_iff.mp hkey
  have hwt := hw key t ht
  have hmem : Object.table t.table ∈ r.objects :=
    List.mem_flatMap.mpr ⟨t, SortedMap.mem_values_iff.mpr ⟨key, ht⟩, List.mem_cons_self⟩
  have hname : PlainName key.name := (hplain _ hmem).table hwt.table.scope
  have hfit : (Object.table { scope := key.scope }).validate .flush = .ok () :=
    Object.validate_of_scope rfl hwt.table.named rfl
  exact Command.queues_of_readsBack hname.1 nofun rfl hfit (fun n hn => nomatch hn)
    fun known _ => readsBack_table known rfl rfl rfl rfl rfl hname nofun

theorem WellFormed.queuesWritten (hw : r.WellFormed) (hplain : r.Writable) (hunmixed : r.Unmixed)
    (hkeys : ∀ key ∈ keys, r.tables.contains key = true) :
    ∀ op ∈ r.reloading keys, r.QueuesWritten op := by
  intro op hop
  rcases List.mem_append.mp hop with hop | hop
  · obtain ⟨key, hkey, rfl⟩ := List.mem_map.mp hop
    exact hw.queuesWritten_flushing hplain (hkeys key hkey)
  · obtain ⟨o, ho, rfl⟩ := List.mem_map.mp hop
    exact hw.queuesWritten_add hplain hunmixed o ho

/-- The text of a reload: a line for each table to flush, and the dump. -/
theorem text_reloading (r : Ruleset) (keys : List TableKey) :
    String.join (keys.map fun key => s!"flush table {key.text}\n") ++ r.dump
      = String.join ((r.reloading keys).map Operation.command) := by
  have hflush : ∀ key : TableKey, s!"flush table {key.text}\n" = key.flushing.command := by
    intro key
    refine String.toList_injective ?_
    simp [TableKey.flushing, Operation.command, Object.command, Table.command, namedLine,
      TableKey.text, TableKey.scope, familyText, toString_string, Verb.name, Kind.name,
      Verb.writesBody]
  rw [reloading, List.map_append, String.join_append, List.map_map, List.map_map]
  exact congrArg (fun l => String.join l ++ r.dump) (List.map_congr_left fun key _ => hflush key)

end Ruleset

/-! ## The reload -/

namespace Engine

/-- The text of a reload is read as its operations, by the engine that it is loaded into. -/
theorem readTransaction_reloading {e : Engine} {keys : List TableKey} (hw : e.ruleset.WellFormed)
    (hplain : e.ruleset.Writable) (hunmixed : e.ruleset.Unmixed)
    (hkeys : ∀ key ∈ keys, e.ruleset.tables.contains key = true) :
    e.readTransaction (String.join ((e.ruleset.reloading keys).map Operation.command))
      = .ok (e.newTransaction.queue ((e.ruleset.reloading keys).map Operation.written)) := by
  have hqueues := hw.queuesWritten hplain hunmixed hkeys
  obtain ⟨known, ops, hops, hlines⟩ := Command.State.lines_queue id
    (fun op hop => ⟨(hqueues op hop).1.trimmed, (hqueues op hop).2⟩)
    ⟨e.knownMaps, e.newTransaction⟩ 1 (fun n hn => mem_knownMaps.mp hn) rfl
  rw [List.map_id] at hops
  rw [readTransaction_eq, Command.LineOf.lines_join fun op hop => (hqueues op hop).1, hlines, hops]
  rfl

/--
**A dump is loaded over the ruleset that it was written from.** After any history of an engine
without defines of its own, that engine accepts a text that flushes its tables, in any order, and
goes on with its dump. The ruleset is the same then but for the handles of the rules, and so is the
dump, as long as all references resolve, no name is that of a set and of a map of one table, and all
texts that are written are plain.
-/
theorem replay_flushed_dump (config : Config) (hdefines : config.defines = []) (calls : List Call)
    (hres : ((ofConfig config).after calls).ruleset.Resolved)
    (hunmixed : ((ofConfig config).after calls).ruleset.Unmixed)
    (hplain : ((ofConfig config).after calls).ruleset.Writable) (keys : List TableKey)
    (hkeys : keys.Perm ((ofConfig config).after calls).ruleset.tables.keys) :
    ∃ e, ((ofConfig config).after calls).replay
        (String.join (keys.map fun key => s!"flush table {key.text}\n")
          ++ ((ofConfig config).after calls).dump) = (e, .ok ()) ∧
      e.ruleset.eraseRuleHandles = ((ofConfig config).after calls).ruleset.eraseRuleHandles ∧
      e.dump = ((ofConfig config).after calls).dump := by
  have hw : ((ofConfig config).after calls).ruleset.WellFormed := ruleset_wellFormed config calls
  -- what was stored has no define left that would be replaced again
  have hsettled : ((ofConfig config).after calls).ruleset.Settled config.effectiveDefines :=
    preserved_after (e := ofConfig config)
      (Ruleset.settled_preserved (inert_effectiveDefines hdefines)) calls SortedMap.all_empty
  have hconfig : ((ofConfig config).after calls).config = config := config_after _ _
  generalize (ofConfig config).after calls = e at *
  have hmem : ∀ key ∈ keys, e.ruleset.tables.contains key = true := fun key hkey =>
    SortedMap.mem_keys_iff.mp (hkeys.mem_iff.mp hkey)
  obtain ⟨hok, herase, hflush⟩ := Ruleset.apply_reloading hw hsettled hres hkeys e.lastHandle
  have hattempt : e.attempt
      (e.newTransaction.queue ((e.ruleset.reloading keys).map Operation.written))
      = e.ruleset.apply config.effectiveDefines e.lastHandle
        ((e.ruleset.reloading keys).map Operation.written) := by
    rw [attempt, hconfig]
    rfl
  rw [← hattempt] at hok herase hflush
  rw [replay, dump, Ruleset.text_reloading, readTransaction_reloading hw hplain hunmixed hmem]
  exact ⟨_, run_of_ok rfl hok, Ruleset.eraseRuleHandles_eq herase hflush,
    Ruleset.dump_of_eraseHandles_eq herase⟩

/-- Two tables, one of them with objects of all kinds, some of which no command can say wholly. -/
def layeredHistory (settings : Config) : List Call :=
  [.run settings
      [⟨.add, .table {}⟩,
        ⟨.add, .chain { name := "in", comment := some "the \"edge\"" }⟩,
        ⟨.add, .set
          { name := "seen", autoMerge := some false
            spec := { keyType := some "$INET_ADDR", timeout := some { secs := 60, nanos := 5 } } }⟩,
        ⟨.add, .map { name := "ports", spec := { typeOf := some "tcp dport : verdict" } }⟩,
        ⟨.add, .table { scope := { family := some .arp, table := some "a" } }⟩],
    .run settings
      [⟨.add, .flowtable { name := "fast", devices := ["eth0"] }⟩,
        ⟨.add, .counter { name := "hits", packets := some 3 }⟩,
        ⟨.add, .rule { chain := "in", body := "ip saddr @seen drop", comment := some "no; way" }⟩,
        ⟨.insert, .rule { chain := "in", body := "tcp dport vmap @ports" }⟩,
        ⟨.add, .element { set := some "seen", key := ["10.0.0.1"] }⟩,
        ⟨.add, .element { map := some "ports", key := ["22"], value := ["jump in"] }⟩]]

theorem replay_flushed_dump_layeredHistory :
    let settings : Config := { family := some .ip, table := some "t" }
    let e := (ofConfig settings).after (layeredHistory settings)
    e.ruleset.objects.length = 11 ∧
      ∃ e', e.replay (String.join ([⟨.ip, "t"⟩, ⟨.arp, "a"⟩].map fun key : TableKey =>
          s!"flush table {key.text}\n") ++ e.dump) = (e', .ok ()) ∧
        e'.ruleset.eraseRuleHandles = e.ruleset.eraseRuleHandles ∧ e'.dump = e.dump := by
  intro settings e
  have hlength : e.ruleset.objects.length = 11 := by decide +kernel
  exact ⟨hlength, replay_flushed_dump settings rfl (layeredHistory settings) (by decide +kernel)
    (by decide +kernel) (by decide +kernel) _ (by decide +kernel)⟩

end Engine

end Nftables
