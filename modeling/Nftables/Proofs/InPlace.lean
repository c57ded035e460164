import Nftables.Proofs.DryRun

/-!
# Working in place

`Ruleset.step` answers with a new ruleset, so nothing is ever seen of what an operation has done
before it failed. Here the operations are programs that work on the ruleset itself, check by check
and write by write, and what they have written when they fail stays written. Each of them makes all
its checks before its first write: it does what `step` says, or it leaves everything as it was.

The programs follow the definitions of the commands, with `get` where those take the old value and a
write where they give the new one; `within` and `entry` let a program work on a part of the state,
or on one value of a map. `Yields` relates the two forms: where the definition gives a result the
program leaves it behind, and where it gives an error the program has the same error and the state
is untouched. There is a rule for each way to compose programs (`yields_check`, `yields_within`,
`yields_entry_some`), and a command is covered by following its text.

There is no rule for a write that is followed by a check. That no command needs one is the point of
the development. At the level of a transaction such a sequence does occur, an operation that fails
after others that did not: so `apply_atomic` says how much of it stays in the working copy, and that
the copy is what the engine throws away is the business of `Engine.run`.
-/

namespace Nftables

/-! ## Programs -/

/-- A program that works on a state. When it fails, the state is left as it is at that point. -/
abbrev InPlace (σ α : Type) := ExceptT Error (StateM σ) α

/-- What the program answers on a state, and the state that it leaves. -/
def InPlace.perform {σ α : Type} (p : InPlace σ α) (s : σ) : Except Error α × σ :=
  StateT.run p.run s

/-- A part of a state, which can be read and put back. -/
structure Part (τ σ : Type) where
  get : τ → σ
  put : σ → τ → τ
  put_get : ∀ t, put (get t) t = t := by intro t; rfl

namespace InPlace

variable {κ σ τ α : Type} [Ord κ]

/-- Works on a part of the state, whatever becomes of it. -/
def within (part : Part τ σ) (p : InPlace σ α) : InPlace τ α :=
  ExceptT.mk fun t =>
    let (answer, s) := p.perform (part.get t)
    pure (answer, part.put s t)

/-- Works on the value under a key. -/
def entry (key : κ) (missing : Error) (p : InPlace σ α) : InPlace (SortedMap κ σ) α :=
  ExceptT.mk fun m =>
    match m.get? key with
    | none => pure (.error missing, m)
    | some s =>
      let (answer, s) := p.perform s
      pure (answer, m.modify key fun _ => s)

end InPlace

open MonadExcept (ofExcept)

/-! ## The parts of the state -/

def ChainState.rulesPart : Part ChainState (List Rule) where
  get := ChainState.rules
  put rules c := { c with rules }

def SetState.elementsPart : Part SetState (List Element) where
  get := SetState.elements
  put elements s := { s with elements }

def MapState.elementsPart : Part MapState (List Element) where
  get := MapState.elements
  put elements m := { m with elements }

namespace TableState

def flowtablesPart : Part TableState (SortedMap String Flowtable) where
  get := flowtables
  put flowtables t := { t with flowtables }

def chainsPart : Part TableState (SortedMap String ChainState) where
  get := chains
  put chains t := { t with chains }

def setsPart : Part TableState (SortedMap String SetState) where
  get := sets
  put sets t := { t with sets }

def mapsPart : Part TableState (SortedMap String MapState) where
  get := maps
  put maps t := { t with maps }

def countersPart : Part TableState (SortedMap String Counter) where
  get := counters
  put counters t := { t with counters }

end TableState

def Ruleset.tablesPart : Part Ruleset (SortedMap TableKey TableState) where
  get := tables
  put tables r := { r with tables }

/-! ## The commands as programs -/

namespace Shelf

variable {κ σ : Type} [Ord κ] [Std.TransOrd κ]

/-- Applies a verb to the objects of a shelf in place. -/
def applyInPlace (s : Shelf κ σ) (among : κ → Bool) (verb : Verb) (key : κ) (handle : Option Nat)
    (new : σ) : InPlace (SortedMap κ σ) Unit := do
  let m ← get
  let key ← ofExcept (s.resolve m among verb key handle)
  ofExcept (checkExistence verb (m.contains key) s.kind (s.text key))
  match verb, s.flush, s.reset with
  | .add, _, _ | .create, _, _ => modify (·.insertIfNew key new)
  | .delete, _, _ | .destroy, _, _ => modify (·.erase key)
  | .flush, some flush, _ => modify (·.modify key flush)
  | .reset, _, some reset => modify (·.modify key reset)
  | _, _, _ => throw (unhandled verb s.kind)

end Shelf

/-- Changes the rules of a chain in place. -/
def ChainState.editInPlace (verb : Verb) (x : Rule) (handle : Nat) : InPlace ChainState Unit := do
  let c ← get
  let position ← ofExcept (c.position? x)
  match verb with
  | .add => InPlace.within rulesPart (modify fun rules =>
      rules.insertIdx ((position.map (· + 1)).getD rules.length)
        { x with index := none, handle := some handle })
  | .insert => InPlace.within rulesPart (modify fun rules =>
      rules.insertIdx (position.getD 0) { x with index := none, handle := some handle })
  | .replace => do
    let i ← ofExcept (requirePosition verb position)
    InPlace.within rulesPart (modify fun rules =>
      rules.modify i fun old => { x with index := none, handle := old.handle })
  | .delete => do
    let i ← ofExcept (requirePosition verb position)
    InPlace.within rulesPart (modify fun rules => rules.eraseIdx i)
  | _ => throw (unhandled verb .rule)

/-- Changes the elements of a container in place. -/
def Elements.applyInPlace (verb : Verb) (e : Element) : InPlace (List Element) Unit := do
  let elements ← get
  ofExcept (checkExistence verb (find? e.key elements).isSome .element (joinParts e.key))
  match verb with
  | .add | .create => modify (write e)
  | .delete | .destroy => modify (erase e.key)
  | _ => throw (unhandled verb .element)

namespace TableState

variable (defines : List Define) (verb : Verb) (handle : Nat)

def ruleInPlace (x : Rule) : InPlace TableState Unit := do
  let t ← get
  match t.chains.get? x.chain with
  | none => throw (.notFound (.object .chain x.chain))
  | some _ => do
    let x := { x with body := substituteIn defines x.body }
    if verb.writesRule then ofExcept (t.checkReferences x.body)
    InPlace.within chainsPart
      (.entry x.chain (.notFound (.object .chain x.chain)) (ChainState.editInPlace verb x handle))

def elementInPlace (e : Element) : InPlace TableState Unit := do
  let t ← get
  let e := e.substitute defines
  if verb.checksValue && e.value ≠ [] then ofExcept (t.checkReferences (joinParts e.value))
  match e.set, e.map with
  | some name, _ => InPlace.within setsPart (.entry name (.notFound (.object .set name))
      (.within SetState.elementsPart (Elements.applyInPlace verb e)))
  | none, some name => InPlace.within mapsPart (.entry name (.notFound (.object .map name))
      (.within MapState.elementsPart (Elements.applyInPlace verb e)))
  | none, none => throw (.invalid .containerMissing)

/-- Applies an operation on an object of the table in place. -/
def stepInPlace (o : Object) : InPlace TableState Unit :=
  match o with
  | .table _ => throw (unhandled verb .table)
  | .chain c => .within chainsPart (chainShelf.applyInPlace (fun _ => true) verb c.name c.handle
      { chain := { c with handle := some handle } })
  | .rule x => ruleInPlace defines verb handle x
  | .set s => .within setsPart (setShelf.applyInPlace (fun _ => true) verb s.name s.handle
      { set := { s with spec := s.spec.substitute defines, handle := some handle } })
  | .map m => .within mapsPart (mapShelf.applyInPlace (fun _ => true) verb m.name m.handle
      { map := { m with spec := m.spec.substitute defines, handle := some handle } })
  | .element e => elementInPlace defines verb e
  | .flowtable f => .within flowtablesPart (flowtableShelf.applyInPlace (fun _ => true) verb f.name
      f.handle { f with handle := some handle })
  | .counter c => .within countersPart (counterShelf.applyInPlace (fun _ => true) verb c.name
      c.handle
      { c with
        packets := some (c.packets.getD 0)
        bytes := some (c.bytes.getD 0)
        handle := some handle })

end TableState

namespace Ruleset

def applyTableInPlace (verb : Verb) (handle : Nat) (t : Table) : InPlace Ruleset Unit :=
  match t.scope.family with
  | none => throw (.invalid (.familyMissing .table))
  | some family => .within tablesPart (tableShelf.applyInPlace (·.family = family) verb
      ⟨family, t.scope.table.getD ""⟩ t.handle { table := { t with handle := some handle } })

/-- Applies an operation on an object that lives in a table. -/
def insideInPlace (defines : List Define) (verb : Verb) (handle : Nat) (o : Object) :
    InPlace Ruleset Unit :=
  match o.scope with
  | ⟨some family, some name⟩ =>
    .within tablesPart (.entry ⟨family, name⟩ (.notFound (.tableOf family name))
      (TableState.stepInPlace defines verb handle o))
  | _ => throw (.invalid (.scopeMissing o.kind))

/-- Applies one operation in place, with `handle` for an object that it commits. -/
def stepInPlace (defines : List Define) (handle : Nat) (op : Operation) : InPlace Ruleset Unit :=
  match op.object with
  | .table t => applyTableInPlace op.verb handle t
  | o => insideInPlace defines op.verb handle o

/-- The ruleset that operations work on, and the handle that was given out last. -/
structure Working where
  ruleset : Ruleset
  lastHandle : Nat

def Working.rulesetPart : Part Working Ruleset where
  get := ruleset
  put ruleset w := { w with ruleset }

/-- Draws the operation's handle and applies it. -/
def operate (defines : List Define) (op : Operation) : InPlace Working Unit := do
  modify fun w => { w with lastHandle := nextHandle w.lastHandle op }
  let w ← get
  InPlace.within Working.rulesetPart (stepInPlace defines w.lastHandle op)

/-- Applies operations in place, in order, up to the first that fails. -/
def applyInPlace (defines : List Define) : List Operation → InPlace Working Unit
  | [] => pure ()
  | op :: rest => do
    operate defines op
    applyInPlace defines rest

end Ruleset

/-! ## Programs that check before they write -/

namespace InPlace

variable {κ σ τ α β : Type}

/--
The program leaves the state that belongs to the result; where the result is an error, it fails
with that and leaves the state as it was.
-/
def Yields (p : InPlace σ Unit) (s : σ) (result : Except Error α) (state : α → σ) : Prop :=
  p.perform s = match result with
    | .ok a => (.ok (), state a)
    | .error e => (.error e, s)

theorem perform_bind (p : InPlace σ α) (f : α → InPlace σ β) (s : σ) :
    (p >>= f).perform s = match p.perform s with
      | (.ok a, s') => (f a).perform s'
      | (.error e, s') => (.error e, s') := by
  unfold perform ExceptT.run StateT.run
  simp only [bind, ExceptT.bind, ExceptT.mk, StateT.bind, ExceptT.bindCont]
  cases p s with
  | mk answer s' => cases answer <;> rfl

variable {p : InPlace σ Unit} {s : σ} {result : Except Error α} {state : α → σ}

theorem Yields.bind_ok (h : p.Yields s result state) :
    p.Yields s (result >>= fun a => .ok (state a)) id := by
  unfold Yields at h ⊢
  rw [h]
  cases result <;> rfl

theorem yields_get {p : σ → InPlace σ Unit} (h : (p s).Yields s result state) :
    (get >>= p).Yields s result state := h

/-- A check that fails leaves the state alone. -/
theorem yields_check {x : Except Error β} {p : β → InPlace σ Unit} {f : β → Except Error α}
    (h : ∀ b, (p b).Yields s (f b) state) : (ofExcept x >>= p).Yields s (x >>= f) state := by
  cases x with
  | error e => rfl
  | ok b => exact h b

/-- A check that is made under a condition. -/
theorem yields_check_if {c : Prop} [Decidable c] {x : Except Error Unit}
    {p : Unit → InPlace σ Unit} {f : Unit → Except Error α} (h : (p ()).Yields s (f ()) state) :
    (if c then ofExcept x >>= p else p ()).Yields s (if c then x >>= f else f ()) state := by
  by_cases hc : c
  · rw [if_pos hc, if_pos hc]
    exact yields_check fun _ => h
  · rw [if_neg hc, if_neg hc]
    exact h

theorem yields_within (part : Part τ σ) {t : τ} (h : p.Yields (part.get t) result state) :
    (within part p).Yields t result fun a => part.put (state a) t := by
  have hwithin : (within part p).perform t
      = ((p.perform (part.get t)).1, part.put (p.perform (part.get t)).2 t) := rfl
  unfold Yields at h ⊢
  rw [hwithin, h]
  cases result with
  | ok a => rfl
  | error e => exact congrArg (Prod.mk _) (part.put_get t)

section Entry

variable [Ord κ] {m : SortedMap κ σ} {key : κ} {missing : Error}

theorem yields_entry_none (h : m.get? key = none) (state : α → SortedMap κ σ) :
    (entry key missing p).Yields m (.error missing) state := by
  have hentry : (entry key missing p).perform m = (.error missing, m) := by
    -- the key decides before the program is started
    show (match m.get? key with | none => _ | some s => _) = _
    rw [h]
    rfl
  exact hentry

theorem yields_entry_some [Std.TransOrd κ] [Std.LawfulEqOrd κ] [DecidableEq κ] {f : α → σ → σ}
    (h : m.get? key = some s) (hp : p.Yields s result fun a => f a s) :
    (entry key missing p).Yields m result fun a => m.modify key (f a) := by
  have hentry : (entry key missing p).perform m
      = ((p.perform s).1, m.modify key fun _ => (p.perform s).2) := by
    show (match m.get? key with | none => _ | some s => _) = _
    rw [h]
    rfl
  unfold Yields at hp ⊢
  rw [hentry, hp]
  cases result with
  | error e => exact congrArg (Prod.mk _) (SortedMap.modify_const_self h)
  | ok a =>
    -- what is put back is the value that was found, changed
    have hsame : (m.modify key fun _ => f a s) = m.modify key (f a) := by
      refine SortedMap.modify_congr fun d hd => ?_
      cases h.symm.trans hd
      rfl
    exact congrArg (Prod.mk _) hsame

end Entry

end InPlace

open InPlace

/-! ## The commands check before they write -/

theorem Shelf.yields_apply {κ σ : Type} [Ord κ] [Std.TransOrd κ] (s : Shelf κ σ)
    (m : SortedMap κ σ) (among : κ → Bool) (verb : Verb) (key : κ) (handle : Option Nat) (new : σ) :
    (s.applyInPlace among verb key handle new).Yields m (s.apply m among verb key handle new)
      id := by
  refine yields_get (yields_check fun key => yields_check fun _ => ?_)
  unfold act
  -- past the checks, each verb is one write or none
  generalize s.flush = flush
  generalize s.reset = reset
  cases verb <;> cases flush <;> cases reset <;> rfl

theorem ChainState.yields_edit (c : ChainState) (verb : Verb) (x : Rule) (handle : Nat) :
    (editInPlace verb x handle).Yields c
      (c.position? x >>= fun position => editRules c.rules verb x position handle)
      fun rules => { c with rules } := by
  refine yields_get (yields_check fun position => ?_)
  cases verb <;> cases position <;> rfl

theorem Elements.yields_apply (elements : List Element) (verb : Verb) (e : Element) :
    (applyInPlace verb e).Yields elements (apply elements verb e) id := by
  refine yields_get (yields_check fun _ => ?_)
  cases verb <;> rfl

namespace TableState

variable (t : TableState) (defines : List Define) (verb : Verb) (handle : Nat)

theorem yields_rule (x : Rule) :
    (ruleInPlace defines verb handle x).Yields t (t.applyRule defines verb handle x) id := by
  refine yields_get ?_
  unfold applyRule
  cases hc : t.chains.get? x.chain with
  | none => rfl
  | some c =>
    refine yields_check_if ?_
    -- the edit of the chain, then putting it back
    rw [← bind_assoc]
    exact (yields_within chainsPart (yields_entry_some hc (c.yields_edit verb _ handle))).bind_ok

/-- What is done to the elements of a container is done to the entry that it is stored under. -/
theorem yields_element (e : Element) :
    (elementInPlace defines verb e).Yields t (t.applyElement defines verb e) id := by
  refine yields_get ?_
  unfold applyElement
  refine yields_check_if ?_
  cases (e.substitute defines).set with
  | some name =>
    dsimp only
    cases hs : t.sets.get? name with
    | none => exact (yields_within setsPart (yields_entry_none hs id)).bind_ok
    | some s =>
      have hedit := yields_within SetState.elementsPart
        (Elements.yields_apply s.elements verb (e.substitute defines))
      exact (yields_within setsPart (yields_entry_some hs hedit)).bind_ok
  | none =>
    cases (e.substitute defines).map with
    | some name =>
      dsimp only
      cases hm : t.maps.get? name with
      | none => exact (yields_within mapsPart (yields_entry_none hm id)).bind_ok
      | some m =>
        have hedit := yields_within MapState.elementsPart
          (Elements.yields_apply m.elements verb (e.substitute defines))
        exact (yields_within mapsPart (yields_entry_some hm hedit)).bind_ok
    | none => rfl

/-- **An operation inside a table makes its checks before its first write.** -/
theorem yields_step (o : Object) :
    (stepInPlace defines verb handle o).Yields t (t.step defines verb handle o) id := by
  cases o with
  | table x => rfl
  | chain c => exact (yields_within chainsPart (Shelf.yields_apply ..)).bind_ok
  | rule x => exact t.yields_rule defines verb handle x
  | set s => exact (yields_within setsPart (Shelf.yields_apply ..)).bind_ok
  | map m => exact (yields_within mapsPart (Shelf.yields_apply ..)).bind_ok
  | element e => exact t.yields_element defines verb e
  | flowtable f => exact (yields_within flowtablesPart (Shelf.yields_apply ..)).bind_ok
  | counter c => exact (yields_within countersPart (Shelf.yields_apply ..)).bind_ok

end TableState

/-- The verbs that take a number are `add`, `create` and `insert`. -/
theorem Verb.allocates_iff {verb : Verb} :
    verb.allocates = true ↔ verb = .add ∨ verb = .create ∨ verb = .insert := by
  cases verb <;> decide

namespace Ruleset

variable (r : Ruleset) (defines : List Define) (handle : Nat)

theorem yields_applyTable (verb : Verb) (t : Table) :
    (applyTableInPlace verb handle t).Yields r (r.applyTable verb handle t) id := by
  unfold applyTableInPlace applyTable
  cases t.scope.family with
  | none => rfl
  | some family => exact (yields_within tablesPart (Shelf.yields_apply ..)).bind_ok

theorem yields_inside (verb : Verb) {o : Object} (htable : o.kind ≠ .table) :
    (insideInPlace defines verb handle o).Yields r (r.step defines handle ⟨verb, o⟩) id := by
  unfold insideInPlace
  split
  · rename_i family name hscope
    rw [step_inside htable hscope]
    cases ht : r.tables.get? ⟨family, name⟩ with
    | none => exact (yields_within tablesPart (yields_entry_none ht id)).bind_ok
    | some t =>
      refine (yields_within tablesPart (yields_entry_some (f := fun t _ => t) ht ?_)).bind_ok
      exact t.yields_step defines verb handle o
  · -- the scope is not complete, and both refuse it
    rename_i hscope
    unfold step
    split
    · rename_i t ho
      exact absurd (congrArg Object.kind ho) htable
    · rename_i family name hfull _
      exact absurd hfull (hscope family name)
    · rfl

/-- **An operation makes all its checks before its first write.** -/
theorem yields_step (op : Operation) :
    (stepInPlace defines handle op).Yields r (r.step defines handle op) id := by
  obtain ⟨verb, o⟩ := op
  cases o with
  | table t => exact r.yields_applyTable handle verb t
  | chain | rule | set | map | element | flowtable | counter =>
    exact r.yields_inside defines handle verb Kind.noConfusion

/-- The number that was drawn for an operation that fails stays drawn. -/
theorem perform_operate (w : Working) (op : Operation) :
    (operate defines op).perform w
      = match w.ruleset.step defines (nextHandle w.lastHandle op) op with
        | .ok r => (.ok (), ⟨r, nextHandle w.lastHandle op⟩)
        | .error e => (.error e, ⟨w.ruleset, nextHandle w.lastHandle op⟩) := by
  have hdrawn := yields_within Working.rulesetPart (t := ⟨w.ruleset, nextHandle w.lastHandle op⟩)
    (w.ruleset.yields_step defines (nextHandle w.lastHandle op) op)
  refine Eq.trans ?_ (hdrawn.trans ?_)
  · rfl
  -- the counter is moved first, and the program works on what is left
  · cases w.ruleset.step defines (nextHandle w.lastHandle op) op <;> rfl

/-- **Operations that work in place leave behind what `apply` says.** -/
theorem perform_applyInPlace (last : Nat) (ops : List Operation) :
    (applyInPlace defines ops).perform ⟨r, last⟩ =
      ((r.apply defines last ops).result,
        ⟨(r.apply defines last ops).ruleset, (r.apply defines last ops).lastHandle⟩) := by
  induction ops generalizing r last with
  | nil => rfl
  | cons op rest ih =>
    rw [applyInPlace, perform_bind, perform_operate, apply]
    dsimp only
    cases r.step defines (nextHandle last op) op with
    | error e => rfl
    | ok r' => exact ih r' (nextHandle last op)

/-- **A failure is that of one operation, and what is left is the result of those before it.** -/
theorem apply_of_error {r : Ruleset} {last : Nat} {ops : List Operation} {e : Error}
    (h : (r.apply defines last ops).result = .error e) :
    ∃ k, ∃ hk : k < ops.length, attempted defines r last ops = ops.take (k + 1) ∧
      ∃ r' last', r.apply defines last (ops.take k) = ⟨r', last', .ok ()⟩ ∧
        r'.step defines (nextHandle last' ops[k]) ops[k] = .error e ∧
        r.apply defines last ops = ⟨r', nextHandle last' ops[k], .error e⟩ := by
  induction ops generalizing r last with
  | nil => cases h
  | cons op rest ih =>
    rw [apply] at h
    cases hs : r.step defines (nextHandle last op) op with
    | error e' =>
      rw [hs] at h
      cases h
      -- the first operation fails
      refine ⟨0, Nat.zero_lt_succ _, ?_, r, last, rfl, hs, ?_⟩
      · rw [attempted, hs]
        rfl
      · rw [apply, hs]
        rfl
    | ok r₁ =>
      rw [hs] at h
      -- the first is done, and one of the others fails
      obtain ⟨k, hk, htried, r', last', hbefore, hfails, hafter⟩ := ih h
      refine ⟨k + 1, Nat.succ_lt_succ hk, ?_, r', last', ?_, hfails, ?_⟩
      · rw [attempted, hs]
        exact congrArg (op :: ·) htried
      · rw [List.take_succ_cons, apply, hs]
        exact hbefore
      · rw [apply, hs]
        exact hafter

/--
**Every operation is atomic.** An operation that works in place and fails leaves the ruleset as it
was. So when a list of operations fails, those before the first that fails are done, that one and
all behind it are not, and the numbers are drawn for all that were tried.
-/
theorem apply_atomic (ops : List Operation) (last : Nat) :
    (∀ op handle e r', (stepInPlace defines handle op).perform r = (.error e, r') → r' = r) ∧
    (applyInPlace defines ops).perform ⟨r, last⟩ =
      ((r.apply defines last ops).result,
        ⟨(r.apply defines last ops).ruleset, (r.apply defines last ops).lastHandle⟩) ∧
    ∀ e w, (applyInPlace defines ops).perform ⟨r, last⟩ = (.error e, w) →
      ∃ k, ∃ hk : k < ops.length, ∃ kept,
        (applyInPlace defines (ops.take k)).perform ⟨r, last⟩ = (.ok (), kept) ∧
        (operate defines ops[k]).perform kept = (.error e, w) ∧
        w.ruleset = kept.ruleset ∧
        w.lastHandle = last + (ops.take (k + 1)).countP fun op =>
          op.verb = .add ∨ op.verb = .create ∨ op.verb = .insert := by
  refine ⟨fun op handle e r' h => ?_, r.perform_applyInPlace defines last ops, fun e w h => ?_⟩
  · rw [r.yields_step defines handle op] at h
    cases hs : r.step defines handle op with
    | error e' =>
      rw [hs] at h
      exact (congrArg Prod.snd h).symm
    | ok r₁ =>
      rw [hs] at h
      cases congrArg Prod.fst h
  · rw [perform_applyInPlace] at h
    obtain ⟨hresult, hw⟩ := Prod.mk.inj h
    obtain ⟨k, hk, htried, r', last', hbefore, hfails, hafter⟩ := apply_of_error defines hresult
    have hcount : (ops.take (k + 1)).countP (fun op => op.verb.allocates)
        = (ops.take (k + 1)).countP fun op =>
          op.verb = .add ∨ op.verb = .create ∨ op.verb = .insert := by
      refine List.countP_congr fun op _ => ?_
      rw [Verb.allocates_iff, decide_eq_true_iff]
    -- the numbers are drawn for what was tried, which is the first `k + 1`
    have hlast : w.lastHandle = last + draws defines r last ops := by
      rw [← hw, lastHandle_apply]
    refine ⟨k, hk, ⟨r', last'⟩, ?_, ?_, ?_, ?_⟩
    · rw [perform_applyInPlace, hbefore]
    · rw [perform_operate, hfails, ← hw, hafter]
    · rw [← hw, hafter]
    · rw [hlast, draws, htried, hcount]

/-- The third operation wants a chain to be absent that the second has put. -/
def clashing : List Operation :=
  let scope : Scope := { family := some .ip, table := some "t" }
  [⟨.add, .table { scope }⟩, ⟨.add, .chain { scope, name := "in" }⟩,
    ⟨.create, .chain { scope, name := "in" }⟩, ⟨.add, .chain { scope, name := "out" }⟩]

theorem apply_atomic_clashing :
    let left := (applyInPlace [] clashing).perform ⟨{}, 7⟩
    left.1 = .error (.alreadyExists (.object .chain "in")) ∧
      ∃ k, ∃ hk : k < clashing.length, ∃ kept,
        (applyInPlace [] (clashing.take k)).perform ⟨{}, 7⟩ = (.ok (), kept) ∧
        (operate [] clashing[k]).perform kept = left ∧
        left.2.ruleset = kept.ruleset ∧
        left.2.lastHandle = 7 + (clashing.take (k + 1)).countP fun op =>
          op.verb = .add ∨ op.verb = .create ∨ op.verb = .insert := by
  intro left
  have hanswer : left.1 = .error (.alreadyExists (.object .chain "in")) := by decide +kernel
  have hleft : left = (.error (.alreadyExists (.object .chain "in")), left.2) :=
    Prod.ext hanswer rfl
  refine ⟨hanswer, ?_⟩
  obtain ⟨k, hk, kept, hbefore, hfails, hruleset, hlast⟩ :=
    (apply_atomic {} [] clashing 7).2.2 _ _ hleft
  exact ⟨k, hk, kept, hbefore, hfails.trans hleft.symm, hruleset, hlast⟩

end Ruleset

end Nftables
