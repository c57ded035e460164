import Nftables.Engine
import Nftables.Proofs.Step
import Nftables.Proofs.Validate

/-!
# Histories of an engine

Callers build transactions and run or check them, and they replay command files. A property of the
committed ruleset and of the last handle that survives every accepted operation survives every
such history; the induction is packaged once, in `Engine.preserved_after`.

A history is a list of `Call`s, and a call is given by what the caller writes down: settings and
requests, or a text. The transactions are built from these, so all that is queued has passed the
validation of its verb (`checked_build`, `checked_readCommands`), and an invariant may rely on it.
Without this many would not hold: a rule without a body could be queued, say, and then be committed.

`Preserved` has two parts, as a call that fails or only checks still moves the counter. `Reached`
adds the rulesets in the middle of a transaction, for statements about a single operation: what
holds of those that are committed holds there as well (`Reached.preserved`).
-/

namespace Nftables

/-! ## Transactions as callers build them -/

namespace Transaction

/-- A transaction as it is built from settings, by one request after the other. -/
def build (settings : Config) (requests : List Operation) : Transaction :=
  requests.foldl (fun tx request => tx.push request.verb request.object) (ofConfig settings)

/-- Every queued object is fit for its verb. -/
def Checked (tx : Transaction) : Prop :=
  ∀ op ∈ tx.operations, op.object.validate op.verb = .ok ()

theorem checked_ofConfig (settings : Config) : (ofConfig settings).Checked := by
  intro op hop
  cases hop

/-- Both halves of an emulated `destroy` pass the check that the `destroy` has passed. -/
theorem checked_expand {emulateDestroy : Bool} {verb : Verb} {o : Object}
    (h : o.validate verb = .ok ()) :
    ∀ op ∈ expand emulateDestroy verb o, op.object.validate op.verb = .ok () := by
  intro op hop
  unfold expand at hop
  split at hop
  · rename_i hd
    obtain ⟨rfl, -⟩ := hd
    -- a `destroy` becomes an `add` and a `delete`
    obtain ⟨hadd, hdelete⟩ := Object.validate_of_destroy h
    rcases List.mem_cons.mp hop with rfl | hop
    · exact hadd
    · cases List.mem_singleton.mp hop
      exact hdelete
  · cases List.mem_singleton.mp hop
    exact h

theorem checked_push {tx : Transaction} (h : tx.Checked) (verb : Verb) (o : Object) :
    (tx.push verb o).Checked := by
  unfold push
  split
  · exact h
  · dsimp only
    split
    · exact h
    · rename_i hv
      intro op hop
      rcases List.mem_append.mp hop with hop | hop
      · exact h op hop
      · exact checked_expand hv op hop

theorem checked_build (settings : Config) (requests : List Operation) :
    (build settings requests).Checked :=
  List.foldlRecOn requests _ (checked_ofConfig settings) fun _ htx _ _ => checked_push htx _ _

end Transaction

namespace Command

/-- What the reader queues, it queues as callers do. -/
theorem State.checked_line {s s' : State} {line : List Char} (h : s.line line = .ok s')
    (hs : s.transaction.Checked) : s'.transaction.Checked := by
  unfold State.line at h
  split at h
  · obtain ⟨command, -, h⟩ := bind_ok h
    dsimp only at h
    split at h
    · cases h
    · cases h
      -- a line is queued by the same `push` as a request
      exact Transaction.checked_push hs _ _
  · cases h
    exact hs

theorem State.checked_lines {s s' : State} {n : Nat} {lines : List (List Char)}
    (h : s.lines n lines = .ok s') (hs : s.transaction.Checked) : s'.transaction.Checked := by
  induction lines generalizing s n with
  | nil =>
    cases h
    exact hs
  | cons line rest ih =>
    rw [State.lines] at h
    split at h
    · cases h
    · rename_i t ht
      exact ih h (State.checked_line ht hs)

theorem checked_readCommands {config : Config} {known : List MapName} {text : String}
    {tx : Transaction} (h : readCommands config known text = .ok tx) : tx.Checked := by
  unfold readCommands at h
  cases hl : (State.mk known (.ofConfig config)).lines 1 (Text.lines text.toList) with
  | error e =>
    rw [hl] at h
    cases h
  | ok s =>
    rw [hl] at h
    cases h
    exact State.checked_lines hl (Transaction.checked_ofConfig config)

end Command

/-! ## Calls -/

/-- What a caller can do to the state of an engine. -/
inductive Call
  | run (settings : Config) (requests : List Operation)
  | check (settings : Config) (requests : List Operation)
  | replay (text : String)
deriving DecidableEq, Repr

/-! ## What every accepted operation preserves -/

/-- A property of a ruleset and the last handle that every accepted operation preserves. -/
structure Preserved (defines : List Define) (I : Ruleset → Nat → Prop) : Prop where
  /-- Handles may be given out to nobody. -/
  rise : ∀ {r : Ruleset} {last : Nat}, I r last → I r (last + 1)
  step : ∀ {r r' : Ruleset} {last : Nat} {op : Operation}, I r last →
    op.object.validate op.verb = .ok () →
    r.step defines (Ruleset.nextHandle last op) op = .ok r' → I r' (Ruleset.nextHandle last op)

namespace Preserved

variable {defines : List Define} {I : Ruleset → Nat → Prop}

theorem nextHandle (hI : Preserved defines I) {r : Ruleset} {last : Nat} (h : I r last)
    (op : Operation) : I r (Ruleset.nextHandle last op) := by
  unfold Ruleset.nextHandle
  split
  · exact hI.rise h
  · exact h

theorem le (hI : Preserved defines I) {r : Ruleset} {last last' : Nat} (h : I r last)
    (hle : last ≤ last') : I r last' := by
  induction hle with
  | refl => exact h
  | step _ ih => exact hI.rise ih

theorem apply (hI : Preserved defines I) {ops : List Operation}
    (hops : ∀ op ∈ ops, op.object.validate op.verb = .ok ()) {r : Ruleset} {last : Nat}
    (h : I r last) :
    I (r.apply defines last ops).ruleset (r.apply defines last ops).lastHandle := by
  induction ops generalizing r last with
  | nil => exact h
  | cons op rest ih =>
    obtain ⟨hop, hrest⟩ := List.forall_mem_cons.mp hops
    rw [Ruleset.apply]
    split
    · -- the operation fails; its number is gone all the same
      exact hI.nextHandle h op
    · rename_i r' hs
      exact ih hrest (hI.step h hop hs)

end Preserved

namespace Ruleset

theorem le_nextHandle (last : Nat) (op : Operation) : last ≤ nextHandle last op := by
  unfold nextHandle
  split
  · exact Nat.le_succ last
  · exact Nat.le_refl last

theorem le_lastHandle_apply (defines : List Define) (r : Ruleset) (last : Nat)
    (ops : List Operation) : last ≤ (r.apply defines last ops).lastHandle := by
  induction ops generalizing r last with
  | nil => exact Nat.le_refl last
  | cons op rest ih =>
    rw [apply]
    split
    · exact le_nextHandle last op
    · exact Nat.le_trans (le_nextHandle last op) (ih _ _)

end Ruleset

namespace Engine

/-- What a call does to the engine, and what it answers. -/
def perform (e : Engine) : Call → Engine × Except Error Unit
  | .run settings requests => e.run (.build settings requests)
  | .check settings requests => e.check (.build settings requests)
  | .replay text => e.replay text

/-- The engine after some calls. -/
def after (e : Engine) (calls : List Call) : Engine :=
  calls.foldl (fun e call => (e.perform call).1) e

@[simp] theorem after_nil (e : Engine) : e.after [] = e := rfl

@[simp] theorem after_cons (e : Engine) (call : Call) (rest : List Call) :
    e.after (call :: rest) = (e.perform call).1.after rest := rfl

theorem after_append (e : Engine) (l₁ l₂ : List Call) :
    e.after (l₁ ++ l₂) = (e.after l₁).after l₂ := by
  rw [after, List.foldl_append]
  rfl

/-! ### Runs that succeed -/

theorem run_of_ok {e : Engine} {tx : Transaction} (hr : tx.refusal = none)
    (ha : (e.attempt tx).result = .ok ()) :
    e.run tx = ({ e with
      ruleset := (e.attempt tx).ruleset
      lastHandle := (e.attempt tx).lastHandle
      lastTransaction := some tx }, .ok ()) := by
  simp only [run, hr, ha]

theorem ok_of_run {e : Engine} {tx : Transaction} (h : (e.run tx).2 = .ok ()) :
    tx.refusal = none ∧ (e.attempt tx).result = .ok () := by
  unfold run at h
  split at h
  · cases h
  · rename_i hr
    dsimp only at h
    split at h
    · rename_i ha
      exact ⟨hr, ha⟩
    · cases h

/-! ### The settings stay -/

theorem config_run (e : Engine) (tx : Transaction) : (e.run tx).1.config = e.config := by
  unfold run
  split
  · rfl
  · dsimp only
    split <;> rfl

theorem config_check (e : Engine) (tx : Transaction) : (e.check tx).1.config = e.config := by
  unfold check
  split <;> rfl

theorem config_replay (e : Engine) (text : String) : (e.replay text).1.config = e.config := by
  unfold replay
  split
  · rfl
  · exact config_run e _

theorem config_perform (e : Engine) (call : Call) : (e.perform call).1.config = e.config := by
  cases call with
  | run settings requests => exact config_run e _
  | check settings requests => exact config_check e _
  | replay text => exact config_replay e text

theorem config_after (e : Engine) (calls : List Call) : (e.after calls).config = e.config := by
  induction calls generalizing e with
  | nil => rfl
  | cons call rest ih => rw [after_cons, ih, config_perform]

/-! ### Invariants -/

variable {I : Ruleset → Nat → Prop}

theorem preserved_run {e : Engine} (hI : Preserved e.config.effectiveDefines I) {tx : Transaction}
    (htx : tx.Checked) (h : I e.ruleset e.lastHandle) :
    I (e.run tx).1.ruleset (e.run tx).1.lastHandle := by
  unfold run
  split
  · exact h
  · dsimp only
    split
    · exact hI.apply htx h
    · -- a run that fails leaves the ruleset, and a higher counter
      exact hI.le h (Ruleset.le_lastHandle_apply _ _ _ _)

/-- A check may give out handles, but commits nothing. -/
theorem preserved_check {e : Engine} (hI : Preserved e.config.effectiveDefines I)
    {tx : Transaction} (h : I e.ruleset e.lastHandle) :
    I (e.check tx).1.ruleset (e.check tx).1.lastHandle := by
  unfold check
  split
  · exact h
  · exact hI.le h (Ruleset.le_lastHandle_apply _ _ _ _)

theorem preserved_replay {e : Engine} (hI : Preserved e.config.effectiveDefines I) (text : String)
    (h : I e.ruleset e.lastHandle) :
    I (e.replay text).1.ruleset (e.replay text).1.lastHandle := by
  unfold replay
  split
  · exact h
  · rename_i tx htx
    exact preserved_run hI (Command.checked_readCommands htx) h

theorem preserved_perform {e : Engine} (hI : Preserved e.config.effectiveDefines I) (call : Call)
    (h : I e.ruleset e.lastHandle) :
    I (e.perform call).1.ruleset (e.perform call).1.lastHandle := by
  cases call with
  | run settings requests => exact preserved_run hI (Transaction.checked_build _ _) h
  | check settings requests => exact preserved_check hI h
  | replay text => exact preserved_replay hI text h

/-- **What every accepted operation preserves, every history preserves.** -/
theorem preserved_after {e : Engine} (hI : Preserved e.config.effectiveDefines I)
    (calls : List Call) (h : I e.ruleset e.lastHandle) :
    I (e.after calls).ruleset (e.after calls).lastHandle := by
  induction calls generalizing e with
  | nil => exact h
  | cons call rest ih =>
    -- the operations of the rest substitute the defines of the same settings
    refine ih ?_ (preserved_perform hI call h)
    rw [config_perform]
    exact hI

/--
The rulesets that an engine gets to, each with the handle that was given out last: those that it
has committed, and those that a transaction passes through while it is applied.
-/
inductive Reached (config : Config) : Ruleset → Nat → Prop
  | committed (calls : List Call) : Reached config ((ofConfig config).after calls).ruleset
    ((ofConfig config).after calls).lastHandle
  | passed {r r' : Ruleset} {last : Nat} {op : Operation} (h : Reached config r last)
    (hv : op.object.validate op.verb = .ok ())
    (hs : r.step config.effectiveDefines (Ruleset.nextHandle last op) op = .ok r') :
    Reached config r' (Ruleset.nextHandle last op)

/-- **What every accepted operation preserves holds of all that is reached.** -/
theorem Reached.preserved {config : Config} {r : Ruleset} {last : Nat}
    (h : Reached config r last) (hI : Preserved config.effectiveDefines I) (hempty : I {} 0) :
    I r last := by
  induction h with
  | committed calls => exact preserved_after hI calls hempty
  | passed h hv hs ih => exact hI.step ih hv hs

end Engine

end Nftables
