import Nftables.Proofs.Rebuild
import Nftables.Proofs.Turns

/-!
# The log of an engine

Every operation that an engine commits is recorded, with the handle that it was given and with the
rulesets before and after it. Nothing reads the log; it is what properties refer to that say how the
committed ruleset has come about. `Engine.recorded_after` is the induction over histories for them.

A `Committed` step keeps both rulesets, although one follows from the other: a property may then
look at any moment of the history without replaying it. The log takes only what was committed. A run
that fails, a check and a text that is not read leave no steps, even where operations were tried, so
`Recorded` needs nothing but a way to go on after an accepted operation, and after numbers that were
drawn in vain. It is `Preserved` with the log as a third argument.

`log_leads` is the first use of it: the steps lead from the empty ruleset to the committed one. The
module on dangling references reads from the log which removal has left a reference without its
target.
-/

namespace Nftables

/-- An operation that was committed, between the rulesets that it led from and to. -/
structure Committed where
  before : Ruleset
  /-- The handle for an object that the operation puts. -/
  handle : Nat
  op : Operation
  after : Ruleset

/-- The step is the one that its operation takes. -/
structure Committed.Leads (defines : List Define) (r : Ruleset) (s : Committed) (r' : Ruleset) :
    Prop where
  before : s.before = r
  after : s.after = r'
  step : r.step defines s.handle s.op = .ok r'
  checked : s.op.object.validate s.op.verb = .ok ()

/-- The steps that are taken when operations are applied, up to the first that fails. -/
def Ruleset.steps (defines : List Define) (r : Ruleset) (last : Nat) :
    List Operation → List Committed
  | [] => []
  | op :: rest =>
    let last := nextHandle last op
    match r.step defines last op with
    | .error _ => []
    | .ok r' => ⟨r, last, op, r'⟩ :: steps defines r' last rest

namespace Engine

/-- What running a transaction commits: all its steps if it succeeds, and nothing else. -/
def stepsOf (e : Engine) (tx : Transaction) : List Committed :=
  match (e.run tx).2 with
  | .ok () => Ruleset.steps e.config.effectiveDefines e.ruleset e.lastHandle tx.operations
  | .error _ => []

/-- What a call commits. -/
def committed (e : Engine) : Call → List Committed
  | .run settings requests => e.stepsOf (.build settings requests)
  | .check _ _ => []
  | .replay text =>
    match e.readTransaction text with
    | .error _ => []
    | .ok tx => e.stepsOf tx

/-- All that a history commits, in order. -/
def log (e : Engine) : List Call → List Committed
  | [] => []
  | call :: rest => e.committed call ++ (e.perform call).1.log rest

end Engine

/-! ## What every committed operation preserves, in view of the log -/

/-- A property of the log, the ruleset and the last handle that committed operations preserve. -/
structure Recorded (defines : List Define) (J : List Committed → Ruleset → Nat → Prop) :
    Prop where
  /-- Handles may be given out to nobody. -/
  rise : ∀ {l : List Committed} {r : Ruleset} {last : Nat}, J l r last → J l r (last + 1)
  step : ∀ {l : List Committed} {r r' : Ruleset} {last : Nat} {op : Operation}, J l r last →
    op.object.validate op.verb = .ok () →
    r.step defines (Ruleset.nextHandle last op) op = .ok r' →
    J (l ++ [⟨r, Ruleset.nextHandle last op, op, r'⟩]) r' (Ruleset.nextHandle last op)

namespace Recorded

variable {defines : List Define} {J : List Committed → Ruleset → Nat → Prop}

theorem le (hJ : Recorded defines J) {l : List Committed} {r : Ruleset} {last last' : Nat}
    (h : J l r last) (hle : last ≤ last') : J l r last' := by
  induction hle with
  | refl => exact h
  | step _ ih => exact hJ.rise ih

theorem apply (hJ : Recorded defines J) {ops : List Operation}
    (hops : ∀ op ∈ ops, op.object.validate op.verb = .ok ()) {l : List Committed} {r : Ruleset}
    {last : Nat} (h : J l r last) (hok : (r.apply defines last ops).result = .ok ()) :
    J (l ++ r.steps defines last ops) (r.apply defines last ops).ruleset
      (r.apply defines last ops).lastHandle := by
  induction ops generalizing l r last with
  | nil =>
    rw [Ruleset.steps, List.append_nil]
    exact h
  | cons op rest ih =>
    obtain ⟨hop, hrest⟩ := List.forall_mem_cons.mp hops
    rw [Ruleset.apply] at hok ⊢
    rw [Ruleset.steps]
    cases hs : r.step defines (Ruleset.nextHandle last op) op with
    | error e =>
      rw [hs] at hok
      cases hok
    | ok r' =>
      rw [hs] at hok
      -- the first step stands at the end of the log, and the others behind it
      have hafter := ih hrest (hJ.step h hop hs) hok
      rwa [List.append_assoc] at hafter

end Recorded

namespace Engine

variable {J : List Committed → Ruleset → Nat → Prop} {l : List Committed}

theorem le_lastHandle_run (e : Engine) (tx : Transaction) :
    e.lastHandle ≤ (e.run tx).1.lastHandle := by
  unfold run
  split
  · exact Nat.le_refl _
  · dsimp only
    split <;> exact Ruleset.le_lastHandle_apply _ _ _ _

theorem recorded_run {e : Engine} (hJ : Recorded e.config.effectiveDefines J) {tx : Transaction}
    (htx : tx.Checked) (h : J l e.ruleset e.lastHandle) :
    J (l ++ e.stepsOf tx) (e.run tx).1.ruleset (e.run tx).1.lastHandle := by
  cases hresult : (e.run tx).2 with
  | ok u =>
    obtain ⟨hrefusal, hattempt⟩ := ok_of_run hresult
    rw [stepsOf, hresult, run_of_ok hrefusal hattempt]
    exact hJ.apply htx h hattempt
  | error err =>
    -- what a failed run has done is undone, but for the handles
    have hne : (e.run tx).2 ≠ .ok () := by simp [hresult]
    rw [stepsOf, hresult, List.append_nil, ruleset_run_of_error hne]
    exact hJ.le h (le_lastHandle_run e tx)

theorem recorded_perform {e : Engine} (hJ : Recorded e.config.effectiveDefines J) (call : Call)
    (h : J l e.ruleset e.lastHandle) :
    J (l ++ e.committed call) (e.perform call).1.ruleset (e.perform call).1.lastHandle := by
  cases call with
  | run settings requests => exact recorded_run hJ (Transaction.checked_build _ _) h
  | check settings requests =>
    -- a check commits nothing, but moves the counter
    have hlast := (keepsTo_after e [.check settings requests]).reached
    rw [committed, List.append_nil]
    show J l (e.check _).1.ruleset (e.check _).1.lastHandle
    rw [ruleset_check]
    exact hJ.le h hlast
  | replay text =>
    rw [committed, perform, replay]
    cases htx : e.readTransaction text with
    | error err =>
      rw [List.append_nil]
      exact h
    | ok tx => exact recorded_run hJ (Command.checked_readCommands htx) h

/-- **What every committed operation preserves, every history preserves along its log.** -/
theorem recorded_after {e : Engine} (hJ : Recorded e.config.effectiveDefines J)
    (calls : List Call) (h : J l e.ruleset e.lastHandle) :
    J (l ++ e.log calls) (e.after calls).ruleset (e.after calls).lastHandle := by
  induction calls generalizing e l with
  | nil =>
    rw [log, List.append_nil]
    exact h
  | cons call rest ih =>
    rw [log, ← List.append_assoc]
    refine ih ?_ (recorded_perform hJ call h)
    rw [config_perform]
    exact hJ

/-- **The log leads from the empty ruleset to the committed one**, by accepted operations. -/
theorem log_leads (config : Config) (calls : List Call) :
    Steps (Committed.Leads config.effectiveDefines) {} ((ofConfig config).log calls)
      ((ofConfig config).after calls).ruleset := by
  -- each step begins where the log has come to
  have hJ : Recorded config.effectiveDefines fun l r _ =>
      Steps (Committed.Leads config.effectiveDefines) {} l r :=
    ⟨fun h => h, fun h hv hs => h.append (.single ⟨rfl, rfl, hs, hv⟩)⟩
  exact recorded_after (e := ofConfig config) hJ calls (.nil _)

end Engine

end Nftables
