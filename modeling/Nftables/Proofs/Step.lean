import Nftables.Proofs.SortedMap
import Nftables.Ruleset.Apply

/-!
# What a step can do

Everything a successful command can have done, said once for each layer: to a shelf of named
objects, to the rules of a chain, to the elements of a container, to a table and to the ruleset.
Invariants are proved by cases on these effects, so none of them opens the commands themselves.

A named object, whatever its kind, is put, taken out, changed or left where it is. That is
`Shelf.Effect`, and the kinds that have a shelf, as well as the tables of the ruleset, differ in its
parameters alone. An invariant on such objects asks what holds of a new one and what `flush` and
`reset` keep, and no more (`Shelf.Effect.all`). With a count in place of a property, the same serves
for the handles (`Shelf.Effect.count_le`).

An effect also says which checks were passed on the way. A rule was only placed after its body had
been looked at for references, and where a rule names a handle, the one it replaces has it.
Histories need these facts later, and they could not be had from the ruleset that comes out. That a
command fails is not an effect: what is then to be shown about it starts from the definitions.
-/

namespace Nftables

/-- A chain of computations that succeeds succeeds at each link. -/
theorem bind_ok {ε α β : Type} {x : Except ε α} {f : α → Except ε β} {b : β}
    (h : x >>= f = .ok b) : ∃ a, x = .ok a ∧ f a = .ok b := by
  cases x with
  | error e => cases h
  | ok a => exact ⟨a, rfl, h⟩

/-- A chain of computations goes on from what its first link gives. -/
theorem bind_of_ok {ε α β : Type} {x : Except ε α} {f : α → Except ε β} {a : α} (h : x = .ok a) :
    x >>= f = f a := by
  rw [h]
  rfl

/-- A chain of computations ends at the first that fails. -/
theorem bind_of_error {ε α β : Type} {x : Except ε α} {f : α → Except ε β} {e : ε}
    (h : x = .error e) : x >>= f = .error e := by
  rw [h]
  rfl

/-- A check that is made under a condition, before the rest of a computation that succeeds. -/
theorem check_ok {ε β : Type} {p : Prop} [Decidable p] {x : Except ε Unit}
    {rest : Unit → Except ε β} {b : β} (h : (if p then x >>= rest else rest ()) = .ok b) :
    (p → x = .ok ()) ∧ rest () = .ok b := by
  by_cases hp : p
  · rw [if_pos hp] at h
    obtain ⟨⟨⟩, hx, h⟩ := bind_ok h
    exact ⟨fun _ => hx, h⟩
  · rw [if_neg hp] at h
    exact ⟨fun hp' => absurd hp' hp, h⟩

/-- A check that is made under a condition and that does not fail. -/
theorem check_of_ok {ε β : Type} {p : Prop} [Decidable p] {x : Except ε Unit}
    {rest : Unit → Except ε β} (h : p → x = .ok ()) :
    (if p then x >>= rest else rest ()) = rest () := by
  by_cases hp : p
  · rw [if_pos hp, bind_of_ok (h hp)]
  · rw [if_neg hp]

instance : Std.LawfulEqOrd TableKey where
  eq_of_compare := by
    intro a b h
    obtain ⟨hf, hn⟩ := compareLex_eq_eq.mp h
    have hfamily : a.family = b.family := Family.name_injective (Std.compare_eq_iff_eq.mp hf)
    have hname : a.name = b.name := Std.compare_eq_iff_eq.mp hn
    cases a
    cases b
    simp_all

/-! ## Named objects -/

namespace Shelf

variable {κ σ : Type} [Ord κ] [Std.TransOrd κ]

/-- What a successful command can have done to the objects of a shelf. -/
inductive Effect (s : Shelf κ σ) (m : SortedMap κ σ) (among : κ → Bool) (verb : Verb) (key : κ)
    (handle : Option Nat) (new : σ) : SortedMap κ σ → Prop
  /-- `add` found the object in its place. -/
  | keep (hv : verb = .add) (hp : m.contains key = true) : Effect s m among verb key handle new m
  | put (hv : verb = .add ∨ verb = .create) (ha : m.get? key = none) :
    Effect s m among verb key handle new (m.insert key new)
  /-- `destroy` accepts that there is nothing to take out. -/
  | drop (k : κ) (hv : verb = .delete ∨ verb = .destroy)
    (hr : s.resolve m among verb key handle = .ok k)
    (hp : verb = .delete → m.contains k = true) : Effect s m among verb key handle new (m.erase k)
  | change (f : σ → σ)
      (hv : (verb = .flush ∧ s.flush = some f) ∨ (verb = .reset ∧ s.reset = some f))
    (hp : m.contains key = true) : Effect s m among verb key handle new (m.modify key f)

omit [Std.TransOrd κ] in
theorem resolve_of_ne_delete {s : Shelf κ σ} {m : SortedMap κ σ} {among : κ → Bool} {verb : Verb}
    {key : κ} {handle : Option Nat} (h : verb ≠ .delete) :
    s.resolve m among verb key handle = .ok key := by
  unfold resolve
  split
  · exact absurd rfl h
  · rfl

/-- `add` and `create` put the object under a new key, and `add` leaves one that is there. -/
theorem put_effect {s : Shelf κ σ} {m : SortedMap κ σ} {among : κ → Bool} {verb : Verb} {key : κ}
    {handle : Option Nat} {new : σ} (hv : verb = .add ∨ verb = .create)
    (hc : checkExistence verb (m.contains key) s.kind (s.text key) = .ok ()) :
    s.Effect m among verb key handle new (m.insertIfNew key new) := by
  cases hp : m.contains key with
  | false =>
    rw [SortedMap.insertIfNew_of_not_contains new hp]
    exact .put hv (SortedMap.get?_of_not_contains hp)
  | true =>
    rw [SortedMap.insertIfNew_of_contains new hp]
    rcases hv with rfl | rfl
    · exact .keep rfl hp
    · rw [hp] at hc
      cases hc

/-- The verbs that want the object present go no further without it. -/
theorem present_of_check {verb : Verb} {present : Bool} {kind : Kind} {name : String}
    (h : checkExistence verb present kind name = .ok ())
    (hv : verb = .delete ∨ verb = .flush ∨ verb = .reset) : present = true := by
  cases present with
  | true => rfl
  | false => rcases hv with rfl | rfl | rfl <;> cases h

/-- **Every success of a command on a shelf is one of the effects.** -/
theorem apply_effect {s : Shelf κ σ} {m m' : SortedMap κ σ} {among : κ → Bool} {verb : Verb}
    {key : κ} {handle : Option Nat} {new : σ}
    (h : s.apply m among verb key handle new = .ok m') :
    s.Effect m among verb key handle new m' := by
  obtain ⟨k, hr, h⟩ := bind_ok h
  obtain ⟨⟨⟩, hc, h⟩ := bind_ok h
  -- only `delete` can be about another key than its own
  by_cases hd : verb = .delete
  · subst hd
    cases h
    exact .drop k (.inl rfl) hr fun _ => present_of_check hc (.inl rfl)
  · have hk : Except.ok key = Except.ok k := (resolve_of_ne_delete hd).symm.trans hr
    cases hk
    cases verb with
    | add =>
      cases h
      exact put_effect (.inl rfl) hc
    | create =>
      cases h
      exact put_effect (.inr rfl) hc
    | delete => exact absurd rfl hd
    | destroy =>
      cases h
      exact .drop key (.inr rfl) hr fun hv => absurd hv hd
    | flush =>
      cases hf : s.flush with
      | none =>
        simp only [act, hf] at h
        cases h
      | some f =>
        simp only [act, hf] at h
        cases h
        exact .change f (.inl ⟨rfl, hf⟩) (present_of_check hc (.inr (.inl rfl)))
    | reset =>
      cases hf : s.reset with
      | none =>
        simp only [act, hf] at h
        cases h
      | some f =>
        simp only [act, hf] at h
        cases h
        exact .change f (.inr ⟨rfl, hf⟩) (present_of_check hc (.inr (.inr rfl)))
    | insert => cases h
    | replace => cases h

/-- What `flush` or `reset` does to an object of the shelf, where the kind has them. -/
def Changes (s : Shelf κ σ) (f : σ → σ) : Prop := s.flush = some f ∨ s.reset = some f

/-- A property of stored objects survives if it holds of the new one and every change keeps it. -/
theorem Effect.all [Std.LawfulEqOrd κ] [DecidableEq κ] {s : Shelf κ σ} {m m' : SortedMap κ σ}
    {among : κ → Bool} {verb : Verb} {key : κ} {handle : Option Nat} {new : σ} {P : κ → σ → Prop}
    (he : s.Effect m among verb key handle new m') (hm : m.All P)
    (hnew : verb = .add ∨ verb = .create → P key new)
    (hchange : ∀ f, s.Changes f → ∀ k a, P k a → P k (f a)) : m'.All P := by
  cases he with
  | keep hv hp => exact hm
  | put hv ha => exact SortedMap.all_insert hm (hnew hv)
  | drop k hv hr hp => exact SortedMap.all_erase hm
  | change f hv hp =>
    exact SortedMap.all_modify hm fun a ha => hchange f (hv.imp And.right And.right) _ a (hm _ a ha)

/-- What stored objects contribute to a list grows by what a new one does. -/
theorem Effect.count_le {β : Type} [BEq β] [Std.LawfulEqOrd κ] {s : Shelf κ σ}
    {m m' : SortedMap κ σ} {among : κ → Bool} {verb : Verb} {key : κ} {handle : Option Nat}
    {new : σ}
    (he : s.Effect m among verb key handle new m') (view : κ → σ → List β) (x : β)
    (hchange : ∀ f, s.Changes f → ∀ k a, (view k (f a)).count x ≤ (view k a).count x) :
    (m'.collect view).count x
      ≤ (m.collect view).count x + if verb.allocates then (view key new).count x else 0 := by
  cases he with
  | keep hv hp => exact Nat.le_add_right _ _
  | put hv ha =>
    have halloc : verb.allocates = true := by rcases hv with rfl | rfl <;> rfl
    exact Nat.le_of_eq (by rw [SortedMap.count_collect_insert view x ha, if_pos halloc])
  | drop k hv hr hp =>
    exact Nat.le_trans (SortedMap.count_collect_erase view x) (Nat.le_add_right _ _)
  | change f hv hp =>
    obtain ⟨a, ha⟩ := SortedMap.contains_iff.mp hp
    -- what the others contribute is the same before and after
    have heq := SortedMap.count_collect_modify (f := f) view x ha
    have hle := hchange f (hv.imp And.right And.right) key a
    omega

end Shelf

/-! ## Rules and elements -/

namespace ChainState

theorem position?_lt {c : ChainState} {r : Rule} {i : Nat} (h : c.position? r = .ok (some i)) :
    i < c.rules.length := by
  unfold position? at h
  split at h
  · split at h
    · rename_i hi
      cases h
      exact (List.findIdx?_eq_some_iff_findIdx_eq.mp hi).1
    · cases h
  · split at h
    · cases h
      assumption
    · cases h
  · cases h

theorem eq_some_of_requirePosition {verb : Verb} {position : Option Nat} {i : Nat}
    (h : requirePosition verb position = .ok i) : position = some i := by
  cases position with
  | none => cases h
  | some j =>
    cases h
    rfl

/-- A rule that is named by its handle is meant to be the one with that handle. -/
theorem handle_of_position? {c : ChainState} {r : Rule} {i n : Nat}
    (h : c.position? r = .ok (some i)) (hr : r.handle = some n) (hi : i < c.rules.length) :
    c.rules[i].handle = some n := by
  simp only [position?, hr] at h
  split at h
  · rename_i j hj
    cases h
    exact of_decide_eq_true (List.findIdx?_eq_some_iff_getElem.mp hj).2.1
  · cases h

/-- What a successful command can have done to the rules of a chain. -/
inductive RulesEffect (rules : List Rule) (verb : Verb) (r : Rule) (handle : Nat) :
    List Rule → Prop
  -- what the rule named as its neighbour is not kept, and the handle is the one that was drawn
  | place (i : Nat) (hv : verb = .add ∨ verb = .insert) (hi : i ≤ rules.length) :
    RulesEffect rules verb r handle
      (rules.insertIdx i { r with index := none, handle := some handle })
  /-- The new rule keeps the handle of the one it stands for. -/
  | replace (i : Nat) (hv : verb = .replace) (hi : i < rules.length)
    (hold : ∀ n, r.handle = some n → rules[i].handle = some n) :
    RulesEffect rules verb r handle
      (rules.modify i fun old => { r with index := none, handle := old.handle })
  | remove (i : Nat) (hv : verb = .delete) (hi : i < rules.length) :
    RulesEffect rules verb r handle (rules.eraseIdx i)

/-- **Every success of a rule command is one of the effects.** -/
theorem editRules_effect {c : ChainState} {rules : List Rule} {verb : Verb} {r : Rule}
    {position : Option Nat} {handle : Nat} (hp : c.position? r = .ok position)
    (h : editRules c.rules verb r position handle = .ok rules) :
    RulesEffect c.rules verb r handle rules := by
  -- `replace` and `delete` go on only where the rule says which one it is about
  have required : ∀ {i : Nat}, requirePosition verb position = .ok i →
      c.position? r = .ok (some i) := fun hi => eq_some_of_requirePosition hi ▸ hp
  cases verb with
  | add =>
    cases h
    refine .place _ (.inl rfl) ?_
    -- without a position, the rule goes behind the last
    cases position with
    | none => exact Nat.le_refl _
    | some i => exact position?_lt hp
  | insert =>
    cases h
    refine .place _ (.inr rfl) ?_
    -- without a position, it goes in front of the first
    cases position with
    | none => exact Nat.zero_le _
    | some i => exact Nat.le_of_lt (position?_lt hp)
  | replace =>
    obtain ⟨i, hi, h⟩ := bind_ok h
    cases h
    have hi := required hi
    exact .replace i rfl (position?_lt hi) fun n hn => handle_of_position? hi hn (position?_lt hi)
  | delete =>
    obtain ⟨i, hi, h⟩ := bind_ok h
    cases h
    exact .remove i rfl (position?_lt (required hi))
  | create => cases h
  | destroy => cases h
  | flush => cases h
  | reset => cases h

end ChainState

namespace Elements

/-- What a successful command can have done to the elements of a container. -/
inductive Effect (elements : List Element) (verb : Verb) (e : Element) : List Element → Prop
  | write (hv : verb = .add ∨ verb = .create)
    (hp : verb = .create → find? e.key elements = none) : Effect elements verb e (write e elements)
  | erase (hv : verb = .delete ∨ verb = .destroy) : Effect elements verb e (erase e.key elements)

/-- **Every success of an element command is one of the effects.** -/
theorem apply_effect {elements elements' : List Element} {verb : Verb} {e : Element}
    (h : apply elements verb e = .ok elements') : Effect elements verb e elements' := by
  obtain ⟨⟨⟩, hc, h⟩ := bind_ok h
  cases verb with
  | add =>
    cases h
    exact .write (.inl rfl) (by simp)
  | create =>
    cases h
    refine .write (.inr rfl) fun _ => ?_
    cases hf : find? e.key elements with
    | none => rfl
    | some d =>
      rw [hf] at hc
      cases hc
  | delete =>
    cases h
    exact .erase (.inl rfl)
  | destroy =>
    cases h
    exact .erase (.inr rfl)
  | insert => cases h
  | replace => cases h
  | flush => cases h
  | reset => cases h

end Elements

/-! ## Tables and the ruleset -/

namespace TableState

/-- What a successful command can have done inside a table. -/
inductive Effect (t : TableState) (defines : List Define) (verb : Verb) (handle : Nat) :
    Object → TableState → Prop
  | chain (c : Chain) (chains : SortedMap String ChainState)
    (h : chainShelf.Effect t.chains (fun _ => true) verb c.name c.handle
      { chain := { c with handle := some handle } } chains) :
    Effect t defines verb handle (.chain c) { t with chains }
  | rule (r : Rule) (c : ChainState) (rules : List Rule) (hc : t.chains.get? r.chain = some c)
    (href : verb.writesRule = true → t.checkReferences (substituteIn defines r.body) = .ok ())
    (h : ChainState.RulesEffect c.rules verb { r with body := substituteIn defines r.body } handle
      rules) :
    Effect t defines verb handle (.rule r)
      { t with chains := t.chains.modify r.chain fun c => { c with rules } }
  | set (s : NamedSet) (sets : SortedMap String SetState)
    (h : setShelf.Effect t.sets (fun _ => true) verb s.name s.handle
      { set := { s with spec := s.spec.substitute defines, handle := some handle } } sets) :
    Effect t defines verb handle (.set s) { t with sets }
  | map (m : NamedMap) (maps : SortedMap String MapState)
    (h : mapShelf.Effect t.maps (fun _ => true) verb m.name m.handle
      { map := { m with spec := m.spec.substitute defines, handle := some handle } } maps) :
    Effect t defines verb handle (.map m) { t with maps }
  | setElement (e : Element) (name : String) (s : SetState) (elements : List Element)
    (hn : e.set = some name) (hs : t.sets.get? name = some s)
    (href : verb.checksValue = true → (e.substitute defines).value ≠ [] →
      t.checkReferences (joinParts (e.substitute defines).value) = .ok ())
    (h : Elements.Effect s.elements verb (e.substitute defines) elements) :
    Effect t defines verb handle (.element e)
      { t with sets := t.sets.modify name fun s => { s with elements } }
  | mapElement (e : Element) (name : String) (m : MapState) (elements : List Element)
    (hs : e.set = none) (hn : e.map = some name) (hm : t.maps.get? name = some m)
    (href : verb.checksValue = true → (e.substitute defines).value ≠ [] →
      t.checkReferences (joinParts (e.substitute defines).value) = .ok ())
    (h : Elements.Effect m.elements verb (e.substitute defines) elements) :
    Effect t defines verb handle (.element e)
      { t with maps := t.maps.modify name fun m => { m with elements } }
  | flowtable (f : Flowtable) (flowtables : SortedMap String Flowtable)
    (h : flowtableShelf.Effect t.flowtables (fun _ => true) verb f.name f.handle
      { f with handle := some handle } flowtables) :
    Effect t defines verb handle (.flowtable f) { t with flowtables }
  | counter (c : Counter) (counters : SortedMap String Counter)
    (h : counterShelf.Effect t.counters (fun _ => true) verb c.name c.handle
      { c with
        packets := some (c.packets.getD 0)
        bytes := some (c.bytes.getD 0)
        handle := some handle } counters) :
    Effect t defines verb handle (.counter c) { t with counters }

theorem applyRule_effect {t t' : TableState} {defines : List Define} {verb : Verb} {handle : Nat}
    {r : Rule} (h : t.applyRule defines verb handle r = .ok t') :
    t.Effect defines verb handle (.rule r) t' := by
  unfold applyRule at h
  split at h
  · cases h
  · rename_i c hc
    obtain ⟨href, h⟩ := check_ok h
    obtain ⟨position, hp, h⟩ := bind_ok h
    obtain ⟨rules, he, h⟩ := bind_ok h
    cases h
    exact .rule r c rules hc href (ChainState.editRules_effect hp he)

theorem applyElement_effect {t t' : TableState} {defines : List Define} {verb : Verb}
    {handle : Nat} {e : Element} (h : t.applyElement defines verb e = .ok t') :
    t.Effect defines verb handle (.element e) t' := by
  unfold applyElement at h
  -- references are looked for only where a value is written, and where there is one
  obtain ⟨hc, h⟩ := check_ok h
  have href : verb.checksValue = true → (e.substitute defines).value ≠ [] →
      t.checkReferences (joinParts (e.substitute defines).value) = .ok () := by
    intro hv hne
    exact hc (by simp [hv, hne])
  -- substitution leaves alone which container is named
  have hset : (e.substitute defines).set = e.set := rfl
  have hmap : (e.substitute defines).map = e.map := rfl
  rw [hset, hmap] at h
  split at h
  · rename_i name hn
    split at h
    · cases h
    · rename_i s hs
      obtain ⟨elements, he, h⟩ := bind_ok h
      cases h
      exact .setElement e name s elements hn hs href (Elements.apply_effect he)
  · rename_i name hn hm
    split at h
    · cases h
    · rename_i m hs
      obtain ⟨elements, he, h⟩ := bind_ok h
      cases h
      exact .mapElement e name m elements hn hm hs href (Elements.apply_effect he)
  · cases h

/-- **Every success of a command inside a table is one of the effects.** -/
theorem step_effect {t t' : TableState} {defines : List Define} {verb : Verb} {handle : Nat}
    {o : Object} (h : t.step defines verb handle o = .ok t') :
    t.Effect defines verb handle o t' := by
  cases o with
  | table t => cases h
  | chain c =>
    obtain ⟨chains, hc, h⟩ := bind_ok h
    cases h
    exact .chain c chains (Shelf.apply_effect hc)
  | rule r => exact applyRule_effect h
  | set s =>
    obtain ⟨sets, hs, h⟩ := bind_ok h
    cases h
    exact .set s sets (Shelf.apply_effect hs)
  | map m =>
    obtain ⟨maps, hm, h⟩ := bind_ok h
    cases h
    exact .map m maps (Shelf.apply_effect hm)
  | element e => exact applyElement_effect h
  | flowtable f =>
    obtain ⟨flowtables, hf, h⟩ := bind_ok h
    cases h
    exact .flowtable f flowtables (Shelf.apply_effect hf)
  | counter c =>
    obtain ⟨counters, hc, h⟩ := bind_ok h
    cases h
    exact .counter c counters (Shelf.apply_effect hc)

end TableState

namespace Ruleset

/-- An operation on an object that lives in a table is one inside that table. -/
theorem step_inside {r : Ruleset} {defines : List Define} {h : Nat} {verb : Verb} {o : Object}
    {family : Family} {name : String} (htable : o.kind ≠ .table)
    (hscope : o.scope = ⟨some family, some name⟩) :
    r.step defines h ⟨verb, o⟩ = (match r.tables.get? ⟨family, name⟩ with
      | none => .error (.notFound (.tableOf family name))
      | some t => do
        let t ← t.step defines verb h o
        pure { r with tables := r.tables.modify ⟨family, name⟩ fun _ => t }) := by
  unfold step
  dsimp only
  rw [hscope]
  cases o with
  | table t => exact absurd rfl htable
  | _ => rfl

/-- What a successful operation can have done to the ruleset. -/
inductive Effect (r : Ruleset) (defines : List Define) (handle : Nat) (op : Operation) :
    Ruleset → Prop
  | table (t : Table) (family : Family) (tables : SortedMap TableKey TableState)
    (ho : op.object = .table t) (hf : t.scope.family = some family)
    (h : tableShelf.Effect r.tables (·.family = family) op.verb ⟨family, t.scope.table.getD ""⟩
      t.handle { table := { t with handle := some handle } } tables) :
    Effect r defines handle op { r with tables }
  | inside (key : TableKey) (t t' : TableState)
    (hs : op.object.scope = ⟨some key.family, some key.name⟩) (ht : r.tables.get? key = some t)
    (h : t.Effect defines op.verb handle op.object t') :
    Effect r defines handle op { r with tables := r.tables.modify key fun _ => t' }

/-- **Every success of an operation is one of the effects.** -/
theorem step_effect {r r' : Ruleset} {defines : List Define} {handle : Nat} {op : Operation}
    (h : r.step defines handle op = .ok r') : r.Effect defines handle op r' := by
  unfold step at h
  split at h
  · -- a table, on the shelf of the ruleset itself
    rename_i t ho
    unfold applyTable at h
    split at h
    · cases h
    · rename_i family hf
      obtain ⟨tables, ht, h⟩ := bind_ok h
      cases h
      exact .table t family tables ho hf (Shelf.apply_effect ht)
  · -- any other object, in the table that its scope names
    rename_i family name hs _
    split at h
    · cases h
    · rename_i t ht
      obtain ⟨t', hstep, h⟩ := bind_ok h
      cases h
      exact .inside ⟨family, name⟩ t t' hs ht (TableState.step_effect hstep)
  · cases h

/-- Operations that do the same one by one do the same in a row. -/
theorem apply_map {defines : List Define} {f : Operation → Operation} {ops : List Operation}
    (hverb : ∀ op ∈ ops, (f op).verb = op.verb)
    (hstep : ∀ op ∈ ops, ∀ (r : Ruleset) h, r.step defines h (f op) = r.step defines h op)
    (r : Ruleset) (last : Nat) :
    r.apply defines last (ops.map f) = r.apply defines last ops := by
  induction ops generalizing r last with
  | nil => rfl
  | cons op rest ih =>
    obtain ⟨hop, hrest⟩ := List.forall_mem_cons.mp hverb
    obtain ⟨hopStep, hrestStep⟩ := List.forall_mem_cons.mp hstep
    have hnext : nextHandle last (f op) = nextHandle last op := by rw [nextHandle, hop, nextHandle]
    rw [List.map_cons, apply, apply, hnext, hopStep]
    cases r.step defines (nextHandle last op) op with
    | error e => rfl
    | ok r' => exact ih hrest hrestStep r' _

end Ruleset

end Nftables
