import Nftables.Proofs.Rebuild
import Nftables.Proofs.Turns

/-!
# Destroying by adding and deleting

An engine without a `destroy` of its own queues an `add` and a `delete` in its place. The `add`
makes sure that there is something to take out, so the two lead where the `destroy` leads. What the
`add` draws a handle for is gone again at once, and only the numbers of later objects differ.

The law of one object is `step_add_delete`: an `add` followed by a `delete` is, as a computation,
the `destroy`, errors included. It holds for any three numbers, because the object that would carry
them is gone. Everything behind that compares two runs that have drifted apart in their counters:
they hold the same ruleset up to its handles, and one queues two operations where the other queues
one. `Ruleset.apply_emulate` carries this through a list of operations, `Emulated.perform` through a
call, and `Emulated.turns` through a history. The requests must not name handles, since those are
what the two engines number differently.
-/

namespace Nftables

/-! ## One object -/

namespace Shelf

variable {κ σ : Type} [Ord κ] [Std.TransOrd κ] [Std.LawfulEqOrd κ] [DecidableEq κ]

/-- On a shelf, `add` and `delete` of a name are its `destroy`, whatever is put there between. -/
theorem apply_add_delete (s : Shelf κ σ) (m : SortedMap κ σ) (among : κ → Bool) (key : κ)
    (new₁ new₂ new : σ) : (s.apply m among .add key none new₁ >>= fun m' =>
      s.apply m' among .delete key none new₂) = s.apply m among .destroy key none new := by
  -- the `add` always succeeds, and then the key is there
  show s.apply (m.insertIfNew key new₁) among .delete key none new₂ = .ok (m.erase key)
  rw [apply_none, SortedMap.contains_insertIfNew]
  exact congrArg Except.ok (SortedMap.erase_insertIfNew m key new₁)

end Shelf

namespace Elements

theorem find?_write (e : Element) (elements : List Element) :
    (find? e.key (write e elements)).isSome = true := by
  have hmem : e.key ∈ (write e elements).map Element.key := by
    rw [map_key_write]
    split
    · assumption
    · simp
  obtain ⟨d, hd, hkey⟩ := List.mem_map.mp hmem
  exact List.find?_isSome.mpr ⟨d, hd, by simpa using hkey⟩

/-- What was written under a key is gone with the key. -/
theorem erase_write (e : Element) (elements : List Element) :
    erase e.key (write e elements) = erase e.key elements := by
  unfold erase
  induction elements with
  | nil => simp [write]
  | cons d rest ih =>
    rw [write]
    by_cases hkey : d.key = e.key
    · rw [if_pos hkey, List.eraseP_cons_of_pos (by simp), List.eraseP_cons_of_pos (by simpa)]
    · rw [if_neg hkey, List.eraseP_cons_of_neg (by simpa), List.eraseP_cons_of_neg (by simpa), ih]

theorem apply_add_delete (elements : List Element) (e : Element) :
    (apply elements .add e >>= fun l => apply l .delete e) = apply elements .destroy e := by
  show apply (write e elements) .delete e = .ok (erase e.key elements)
  rw [apply, find?_write]
  exact congrArg Except.ok (erase_write e elements)

end Elements

/-! ## One operation -/

namespace TableState

variable {t : TableState} {defines : List Define} {h₁ h₂ h : Nat}

/-- A command on an element as it stands, after its references have been checked. -/
def editElement (t : TableState) (verb : Verb) (e : Element) : Except Error TableState :=
  match e.set, e.map with
  | some name, _ =>
    match t.sets.get? name with
    | none => .error (.notFound (.object .set name))
    | some s => do
      let elements ← Elements.apply s.elements verb e
      pure { t with sets := t.sets.modify name fun s => { s with elements } }
  | none, some name =>
    match t.maps.get? name with
    | none => .error (.notFound (.object .map name))
    | some m => do
      let elements ← Elements.apply m.elements verb e
      pure { t with maps := t.maps.modify name fun m => { m with elements } }
  | none, none => .error (.invalid .containerMissing)

theorem applyElement_eq (verb : Verb) (e : Element) : t.applyElement defines verb e =
    (if verb.checksValue && (e.substitute defines).value ≠ [] then
      t.checkReferences (joinParts (e.substitute defines).value) else pure ()) >>= fun _ =>
    t.editElement verb (e.substitute defines) := by
  unfold applyElement
  dsimp only
  split <;> rfl

theorem editElement_add_delete (e : Element) : (t.editElement .add e >>= fun t' =>
    t'.editElement .delete e) = t.editElement .destroy e := by
  unfold editElement
  -- the container is looked up twice, before the `add` and before the `delete`
  cases e.set with
  | some name =>
    dsimp only
    cases hs : t.sets.get? name with
    | none => rfl
    | some s =>
      -- the container is found again, with what was written to it
      simp only [bind_assoc, pure_bind, SortedMap.get?_modify, hs, if_true, Option.map_some,
        SortedMap.modify_modify]
      rw [← bind_assoc, Elements.apply_add_delete]
  | none =>
    cases e.map with
    | none => rfl
    | some name =>
      dsimp only
      cases hm : t.maps.get? name with
      | none => rfl
      | some m =>
        simp only [bind_assoc, pure_bind, SortedMap.get?_modify, hm, if_true, Option.map_some,
          SortedMap.modify_modify]
        rw [← bind_assoc, Elements.apply_add_delete]

/-- The `delete` makes no check of its own, and the `add` and the `destroy` make the same. -/
theorem applyElement_add_delete (e : Element) : (t.applyElement defines .add e >>= fun t' =>
    t'.applyElement defines .delete e) = t.applyElement defines .destroy e := by
  simp only [applyElement_eq, bind_assoc]
  refine congrArg _ (funext fun _ => ?_)
  exact editElement_add_delete (e.substitute defines)

/-- **Inside a table, adding an object and deleting it again is destroying it.** -/
theorem step_add_delete {o : Object} (ho : o.handle = none) (htable : o.kind ≠ .table)
    (hrule : o.kind ≠ .rule) : (t.step defines .add h₁ o >>= fun t' => t'.step defines .delete h₂ o)
      = t.step defines .destroy h o := by
  cases o with
  | table x => exact absurd rfl htable
  | rule r => exact absurd rfl hrule
  | element e => exact applyElement_add_delete e
  | chain c =>
    have hc : c.handle = none := ho
    simp only [step, applyChain, hc, bind_assoc, pure_bind]
    rw [← bind_assoc, Shelf.apply_add_delete]
  | set s =>
    have hs : s.handle = none := ho
    simp only [step, applySet, hs, bind_assoc, pure_bind]
    rw [← bind_assoc, Shelf.apply_add_delete]
  | map m =>
    have hm : m.handle = none := ho
    simp only [step, applyMap, hm, bind_assoc, pure_bind]
    rw [← bind_assoc, Shelf.apply_add_delete]
  | flowtable f =>
    have hf : f.handle = none := ho
    simp only [step, applyFlowtable, hf, bind_assoc, pure_bind]
    rw [← bind_assoc, Shelf.apply_add_delete]
  | counter c =>
    have hc : c.handle = none := ho
    simp only [step, applyCounter, hc, bind_assoc, pure_bind]
    rw [← bind_assoc, Shelf.apply_add_delete]

end TableState

namespace Ruleset

variable {r : Ruleset} {defines : List Define} {h₁ h₂ h : Nat}

theorem applyTable_add_delete {t : Table} (ht : t.handle = none) :
    (r.applyTable .add h₁ t >>= fun r' => r'.applyTable .delete h₂ t)
      = r.applyTable .destroy h t := by
  unfold applyTable
  cases t.scope.family with
  | none => rfl
  | some family =>
    simp only [ht, bind_assoc, pure_bind]
    rw [← bind_assoc, Shelf.apply_add_delete]

/-- **Adding an object and deleting it again is destroying it.** -/
theorem step_add_delete (h₁ h₂ h : Nat) {o : Object} (ho : o.handle = none)
    (hv : o.validate .destroy = .ok ()) :
    (r.step defines h₁ ⟨.add, o⟩ >>= fun r' => r'.step defines h₂ ⟨.delete, o⟩)
      = r.step defines h ⟨.destroy, o⟩ := by
  obtain ⟨family, name, hscope, -⟩ := Object.scope_of_validate (by decide) hv
  -- no rule is accepted for a `destroy`
  have hrule : o.kind ≠ .rule := by
    intro hkind
    have hfit := Object.validateKind_of_validate hv
    cases o with
    | rule r =>
      unfold Object.validateKind Rule.validate at hfit
      rw [andThen_eq_ok, andThen_eq_ok] at hfit
      cases hfit.2.2
    | _ => cases hkind
  by_cases htable : o.kind = .table
  · cases o with
    | table t => exact applyTable_add_delete ho
    | _ => cases htable
  · simp only [step_inside htable hscope]
    cases ht : r.tables.get? ⟨family, name⟩ with
    | none => rfl
    | some t =>
      -- the table is found again as the `add` has left it
      simp only [bind_assoc, pure_bind, SortedMap.get?_modify, ht, if_true, Option.map_some,
        SortedMap.modify_modify_const]
      rw [← bind_assoc, TableState.step_add_delete ho htable hrule]

/-! ## A list of operations -/

/-- The results are the same and, after a success, the rulesets up to their handles. -/
structure Outcome.Agrees (o₁ o₂ : Outcome) : Prop where
  result : o₁.result = o₂.result
  ruleset : o₁.result = .ok () → o₁.ruleset.eraseHandles = o₂.ruleset.eraseHandles

theorem Outcome.Agrees.of_error {o₁ o₂ : Outcome} {e : Error} (h₁ : o₁.result = .error e)
    (h₂ : o₂.result = .error e) : o₁.Agrees o₂ where
  result := h₁.trans h₂.symm
  ruleset hok := by
    rw [h₁] at hok
    cases hok

/-- An `add` and a `delete` before a list fail as the `destroy` does, or lead where it leads. -/
theorem apply_add_delete (r : Ruleset) (defines : List Define) (h : Nat) {o : Object}
    (ho : o.handle = none) (hv : o.validate .destroy = .ok ()) (last : Nat)
    (rest : List Operation) :
    (∃ e, r.step defines h ⟨.destroy, o⟩ = .error e ∧
      (r.apply defines last (⟨.add, o⟩ :: ⟨.delete, o⟩ :: rest)).result = .error e) ∨
    ∃ r' last', r.step defines h ⟨.destroy, o⟩ = .ok r' ∧
      r.apply defines last (⟨.add, o⟩ :: ⟨.delete, o⟩ :: rest) = r'.apply defines last' rest := by
  rw [← step_add_delete (nextHandle last ⟨.add, o⟩)
    (nextHandle (nextHandle last ⟨.add, o⟩) ⟨.delete, o⟩) h ho hv, apply]
  cases r.step defines (nextHandle last ⟨.add, o⟩) ⟨.add, o⟩ with
  | error e => exact .inl ⟨e, rfl, rfl⟩
  | ok r₁ =>
    show (∃ e, r₁.step defines _ _ = .error e ∧ _) ∨ ∃ r' last', r₁.step defines _ _ = .ok r' ∧ _
    dsimp only
    rw [apply]
    -- the `add` has succeeded, so the two fail or succeed with the `delete`
    cases r₁.step defines (nextHandle (nextHandle last ⟨.add, o⟩) ⟨.delete, o⟩) ⟨.delete, o⟩ with
    | error e => exact .inl ⟨e, rfl, rfl⟩
    | ok r₂ => exact .inr ⟨r₂, _, rfl, rfl⟩

end Ruleset

/-- What is queued in the place of some operations where `destroy` is emulated. -/
def emulate (ops : List Operation) : List Operation :=
  ops.flatMap fun op => Transaction.expand true op.verb op.object

namespace Ruleset

variable {defines : List Define}

/-- **Operations with every `destroy` emulated do what the operations do, up to handles.** -/
theorem apply_emulate {ops : List Operation}
    (hfree : ∀ op ∈ ops, op.object.handle = none)
    (hchecked : ∀ op ∈ ops, op.object.validate op.verb = .ok ()) {r₁ r₂ : Ruleset}
    (hr : r₁.eraseHandles = r₂.eraseHandles) (last₁ last₂ : Nat) :
    (r₁.apply defines last₁ ops).Agrees (r₂.apply defines last₂ (emulate ops)) := by
  induction ops generalizing r₁ r₂ last₁ last₂ with
  | nil => exact ⟨rfl, fun _ => hr⟩
  | cons op rest ih =>
    obtain ⟨ho, hfree'⟩ := List.forall_mem_cons.mp hfree
    obtain ⟨hv, hchecked'⟩ := List.forall_mem_cons.mp hchecked
    -- whatever numbers are drawn, the operation does the same to both rulesets
    have halike : ∀ h₁ h₂, Alike (fun r₁ r₂ => r₁.eraseHandles = r₂.eraseHandles)
        (r₁.step defines h₁ op) (r₂.step defines h₂ op) :=
      fun h₁ h₂ => step_alike hr (Object.seenAlike_of_none ho _ _) fun _ => rfl
    obtain ⟨verb, o⟩ := op
    by_cases hd : verb = .destroy
    · subst hd
      have hcut : emulate (⟨.destroy, o⟩ :: rest) = ⟨.add, o⟩ :: ⟨.delete, o⟩ :: emulate rest := rfl
      have halike := halike (nextHandle last₁ ⟨.destroy, o⟩) last₂
      rw [hcut, apply]
      rcases apply_add_delete r₂ defines last₂ (o := o) ho hv last₂ (emulate rest) with
        ⟨e, hstep, he⟩ | ⟨r', last', hstep, he⟩
      · rw [hstep] at halike
        generalize r₁.step defines _ _ = x at halike ⊢
        cases halike
        exact .of_error rfl he
      · rw [hstep] at halike
        rw [he]
        generalize r₁.step defines _ _ = x at halike ⊢
        cases halike with
        | ok hr' => exact ih hfree' hchecked' hr' _ _
    · have hcut : emulate (⟨verb, o⟩ :: rest) = ⟨verb, o⟩ :: emulate rest := by
        rw [emulate, List.flatMap_cons, Transaction.expand, if_neg fun h => hd h.1]
        rfl
      have halike := halike (nextHandle last₁ ⟨verb, o⟩) (nextHandle last₂ ⟨verb, o⟩)
      rw [hcut, apply, apply]
      generalize r₁.step defines _ _ = x at halike ⊢
      generalize r₂.step defines _ _ = y at halike ⊢
      cases halike with
      | error e => exact .of_error rfl rfl
      | ok hr' => exact ih hfree' hchecked' hr' _ _

end Ruleset

/-! ## Transactions and engines with either setting -/

/-- The settings, with `destroy` emulated or not. -/
def Config.emulating (c : Config) (emulateDestroy : Bool) : Config := { c with emulateDestroy }

/-- The call, on a transaction that is built with `destroy` emulated or not. -/
def Call.emulating (emulateDestroy : Bool) : Call → Call
  | .run settings requests => .run (settings.emulating emulateDestroy) requests
  | .check settings requests => .check (settings.emulating emulateDestroy) requests
  | .replay text => .replay text

namespace Transaction

/-- The transaction as it would have been built with `destroy` emulated. -/
def emulating (tx : Transaction) : Transaction :=
  { tx with emulateDestroy := true, operations := emulate tx.operations }

theorem emulateDestroy_push (tx : Transaction) (verb : Verb) (o : Object) :
    (tx.push verb o).emulateDestroy = tx.emulateDestroy := by
  unfold push
  split
  · rfl
  · dsimp only
    split <;> rfl

theorem push_emulating {tx : Transaction} (h : tx.emulateDestroy = false) (verb : Verb)
    (o : Object) : tx.emulating.push verb o = (tx.push verb o).emulating := by
  have hnative : ∀ o, expand false verb o = [⟨verb, o⟩] := fun _ => if_neg fun h => nomatch h.2
  obtain ⟨defaults, emulateDestroy, operations, refusal⟩ := tx
  cases h
  cases refusal with
  | some v => rfl
  | none =>
    unfold push emulating
    dsimp only
    cases (o.applyDefaults defaults).validate verb with
    | error v => rfl
    | ok u => simp [emulate, hnative]

/-- **Emulation changes what a `destroy` queues, and nothing else.** -/
theorem build_emulating (settings : Config) (requests : List Operation) :
    build (settings.emulating true) requests
      = (build (settings.emulating false) requests).emulating := by
  have h := List.foldl_rel (l := requests)
    (f := fun tx request => tx.push request.verb request.object)
    (g := fun tx request => tx.push request.verb request.object)
    (r := fun tx₁ tx₂ => tx₁.emulateDestroy = false ∧ tx₂ = tx₁.emulating)
    (a := ofConfig (settings.emulating false)) (b := ofConfig (settings.emulating true)) ⟨rfl, rfl⟩
    fun request _ tx₁ tx₂ ⟨hnative, heq⟩ =>
      ⟨(emulateDestroy_push tx₁ _ _).trans hnative, by rw [heq, push_emulating hnative]⟩
  exact h.2

end Transaction

/-- The answers are the same and, up to handles, what the calls leave behind. -/
structure Turn.Agrees (t₁ t₂ : Turn) : Prop where
  answer : t₁.answer = t₂.answer
  ruleset : t₁.engine.ruleset.eraseHandles = t₂.engine.ruleset.eraseHandles
  dump : t₁.engine.dump = t₂.engine.dump

namespace Engine

/-- `d` holds what `e` holds, up to handles, and emulates `destroy`. -/
structure Emulated (e d : Engine) : Prop where
  config : d.config = e.config.emulating true
  ruleset : e.ruleset.eraseHandles = d.ruleset.eraseHandles

namespace Emulated

variable {e d : Engine} {tx : Transaction}

theorem dump (h : Emulated e d) : e.dump = d.dump := by
  have hdump := congrArg Ruleset.dump h.ruleset
  rwa [Ruleset.eraseHandles, Ruleset.eraseHandles, Ruleset.dump_mapHandles,
    Ruleset.dump_mapHandles] at hdump

theorem attempt (h : Emulated e d) (hfree : tx.HandleFree) (hchecked : tx.Checked) :
    (e.attempt tx).Agrees (d.attempt tx.emulating) := by
  unfold Engine.attempt
  rw [h.config]
  exact Ruleset.apply_emulate hfree hchecked h.ruleset e.lastHandle d.lastHandle

theorem check (h : Emulated e d) (hfree : tx.HandleFree) (hchecked : tx.Checked) :
    (e.check tx).2 = (d.check tx.emulating).2 ∧
      Emulated (e.check tx).1 (d.check tx.emulating).1 := by
  have hattempt := h.attempt hfree hchecked
  have hrefusal : tx.emulating.refusal = tx.refusal := rfl
  unfold Engine.check
  rw [hrefusal]
  cases tx.refusal with
  | some v => exact ⟨rfl, h⟩
  | none => exact ⟨hattempt.result, h.config, h.ruleset⟩

/-- **A transaction does the same on both engines, if one of them emulates its `destroy`s.** -/
theorem run (h : Emulated e d) (hfree : tx.HandleFree) (hchecked : tx.Checked) :
    (e.run tx).2 = (d.run tx.emulating).2 ∧ Emulated (e.run tx).1 (d.run tx.emulating).1 := by
  have hattempt := h.attempt hfree hchecked
  have hrefusal : tx.emulating.refusal = tx.refusal := rfl
  unfold Engine.run
  rw [hrefusal]
  cases tx.refusal with
  | some v => exact ⟨rfl, h⟩
  | none =>
    dsimp only
    rw [← hattempt.result]
    cases hresult : (e.attempt tx).result with
    -- a failure leaves both rulesets as they were
    | error err => exact ⟨rfl, h.config, h.ruleset⟩
    | ok u => exact ⟨rfl, h.config, hattempt.ruleset hresult⟩

theorem perform (h : Emulated e d) {call : Call} (hcall : call.HandleFree) :
    (e.perform (call.emulating false)).2 = (d.perform (call.emulating true)).2 ∧
      Emulated (e.perform (call.emulating false)).1 (d.perform (call.emulating true)).1 := by
  cases call with
  | run settings requests =>
    simp only [Call.emulating, Engine.perform, Transaction.build_emulating]
    exact h.run (Transaction.handleFree_build _ hcall) (Transaction.checked_build _ _)
  | check settings requests =>
    simp only [Call.emulating, Engine.perform, Transaction.build_emulating]
    exact h.check (Transaction.handleFree_build _ hcall) (Transaction.checked_build _ _)
  | replay text => exact hcall.elim

theorem turns {calls : List Call} (hcalls : ∀ call ∈ calls, call.HandleFree) {e d : Engine}
    (h : Emulated e d) : List.Forall₂ Turn.Agrees (e.turns (calls.map (Call.emulating false)))
      (d.turns (calls.map (Call.emulating true))) := by
  induction calls generalizing e d with
  | nil => exact .nil
  | cons call rest ih =>
    obtain ⟨hcall, hrest⟩ := List.forall_mem_cons.mp hcalls
    obtain ⟨hanswer, hafter⟩ := h.perform hcall
    exact .cons ⟨hanswer, hafter.ruleset, hafter.dump⟩ (ih hrest hafter)

end Emulated

/--
**An emulated `destroy` is a `destroy`.** The same calls, made once with `destroy` and once with its
emulation, get the same answers, and after each of them the committed rulesets are the same up to
their handles.
-/
theorem turns_emulating (config : Config) (calls : List Call)
    (h : ∀ call ∈ calls, call.HandleFree) :
    List.Forall₂ Turn.Agrees
      ((ofConfig (config.emulating false)).turns (calls.map (Call.emulating false)))
      ((ofConfig (config.emulating true)).turns (calls.map (Call.emulating true))) :=
  Emulated.turns h ⟨rfl, rfl⟩

/-- A chain that is there and one that is not are destroyed, then one of a table that is missing. -/
def destroyHistory : List Call :=
  let settings : Config := { family := some .ip, table := some "t" }
  let elsewhere : Config := { family := some .ip, table := some "u" }
  [.run settings [⟨.add, .table {}⟩, ⟨.add, .chain { name := "a" }⟩],
    .run settings [⟨.destroy, .chain { name := "a" }⟩, ⟨.destroy, .chain { name := "b" }⟩],
    .run elsewhere [⟨.destroy, .chain { name := "a" }⟩],
    .run settings [⟨.add, .chain { name := "c" }⟩]]

theorem turns_emulating_destroyHistory :
    ((ofConfig {}).turns (destroyHistory.map (Call.emulating false))).map
        (fun t => t.engine.lastHandle) = [2, 2, 2, 3] ∧
      ((ofConfig { emulateDestroy := true }).turns
        (destroyHistory.map (Call.emulating true))).map
          (fun t => t.engine.lastHandle) = [2, 4, 5, 6] ∧
      List.Forall₂ Turn.Agrees
        ((ofConfig {}).turns (destroyHistory.map (Call.emulating false)))
        ((ofConfig { emulateDestroy := true }).turns
          (destroyHistory.map (Call.emulating true))) :=
  ⟨by decide +kernel, by decide +kernel, turns_emulating {} destroyHistory (by decide)⟩

end Engine

end Nftables
