import Mathlib.Order.Monotone.Basic
import Mathlib.Order.Nat
import Nftables.Proofs.Renaming

/-!
# Failed runs and checks leave no trace

A history with failed runs and checks is set beside the history without them. Both go through the
same rulesets up to the numbers of the objects: the engine that also made the other calls has drawn
more numbers, so its own lie further apart, in the same order.

The rulesets are not equal. A run that fails gives back its ruleset but not the numbers it has
drawn, so the two engines give the same object different handles. What relates them is a strictly
increasing renaming (`Linked`). Above the last number that the smaller engine has drawn, no object
of it holds one, so there the renaming may be chosen afresh before each run: from then on both count
in step (`inStepFrom`). A run that succeeds extends the renaming, and a call that commits nothing
leaves it.

That no object names a handle is what makes the answers equal. A handle that a caller saw on one
engine is that of another object on the other engine, or of none. A replayed text is left out for
the same reason, as a line of it may name any handle.
-/

namespace Nftables

/-! ## Calls that name no handle -/

namespace Transaction

def HandleFree (tx : Transaction) : Prop := ∀ op ∈ tx.operations, op.object.handle = none

/-- A request queues objects that name what its own names. -/
theorem handle_of_mem_push {tx : Transaction} {verb : Verb} {o : Object} {op : Operation}
    (hop : op ∈ (tx.push verb o).operations) :
    op ∈ tx.operations ∨ op.object.handle = o.handle := by
  have hdefaults : (o.applyDefaults tx.defaults).handle = o.handle := by
    cases o <;> rfl
  unfold push at hop
  split at hop
  · exact .inl hop
  · dsimp only at hop
    split at hop
    · exact .inl hop
    · refine (List.mem_append.mp hop).imp id fun hop => ?_
      unfold expand at hop
      split at hop
      · rcases List.mem_cons.mp hop with rfl | hop
        · exact hdefaults
        · cases List.mem_singleton.mp hop
          exact hdefaults
      · cases List.mem_singleton.mp hop
        exact hdefaults

theorem handle_of_mem_build {settings : Config} {requests : List Operation} {op : Operation}
    (hop : op ∈ (build settings requests).operations) :
    ∃ request ∈ requests, op.object.handle = request.object.handle := by
  refine List.foldlRecOn (motive := fun tx : Transaction => ∀ op ∈ tx.operations,
    ∃ request ∈ requests, op.object.handle = request.object.handle) requests _
    (fun _ hop => absurd hop List.not_mem_nil) (fun tx htx request hr op hop => ?_) op hop
  exact (handle_of_mem_push hop).elim (htx op) fun hhandle => ⟨request, hr, hhandle⟩

theorem handleFree_build (settings : Config) {requests : List Operation}
    (h : ∀ request ∈ requests, request.object.handle = none) :
    (build settings requests).HandleFree := by
  intro op hop
  obtain ⟨request, hr, hhandle⟩ := handle_of_mem_build hop
  exact hhandle.trans (h request hr)

end Transaction

/-- A call on a transaction that callers build of objects without handles. -/
def Call.HandleFree : Call → Prop
  | .run _ requests | .check _ requests => ∀ request ∈ requests, request.object.handle = none
  | .replay _ => False

instance (call : Call) : Decidable call.HandleFree := by
  cases call <;> unfold Call.HandleFree <;> infer_instance

/-! ## Numbers that run in step -/

/-- Above `last₂`, the renaming leads to the numbers above `last₁` one by one. -/
def InStep (ρ : Nat → Nat) (last₁ last₂ : Nat) : Prop := ∀ n, ρ (last₂ + n + 1) = last₁ + n + 1

/-- The renaming `ρ` up to `last₂`, and in step from there. -/
def inStepFrom (ρ : Nat → Nat) (last₁ last₂ n : Nat) : Nat :=
  if n ≤ last₂ then ρ n else last₁ + (n - last₂)

theorem inStep_inStepFrom (ρ : Nat → Nat) (last₁ last₂ : Nat) :
    InStep (inStepFrom ρ last₁ last₂) last₁ last₂ := by
  intro n
  rw [inStepFrom, if_neg (by omega)]
  omega

theorem strictMono_inStepFrom {ρ : Nat → Nat} {last₁ last₂ : Nat} (hρ : StrictMono ρ)
    (hle : ρ last₂ ≤ last₁) : StrictMono (inStepFrom ρ last₁ last₂) := by
  intro a b hab
  unfold inStepFrom
  by_cases hb : b ≤ last₂
  · rw [if_pos (by omega), if_pos hb]
    exact hρ hab
  · rw [if_neg hb]
    by_cases ha : a ≤ last₂
    -- `a` is still renamed as before, and `b` is not
    · have hlast : ρ a ≤ ρ last₂ := hρ.monotone ha
      rw [if_pos ha]
      omega
    · rw [if_neg ha]
      omega

/-- Once the numbers run in step, they lie as far apart. -/
theorem InStep.le {ρ : Nat → Nat} {last₁ last₂ : Nat} (h : InStep ρ last₁ last₂)
    (hρ : StrictMono ρ) : ρ last₂ ≤ last₁ := by
  have hlt : ρ last₂ < ρ (last₂ + 0 + 1) := hρ (by omega)
  rw [h 0] at hlt
  omega

namespace Ruleset

theorem inStep_nextHandle {ρ : Nat → Nat} {last₁ last₂ : Nat} (h : InStep ρ last₁ last₂)
    (op : Operation) : InStep ρ (nextHandle last₁ op) (nextHandle last₂ op) := by
  unfold Ruleset.nextHandle
  split
  · intro n
    have hn := h (n + 1)
    rw [show last₂ + 1 + n + 1 = last₂ + (n + 1) + 1 by omega, hn]
    omega
  · exact h

/-- Numbers that are not held may be renamed in another way. -/
theorem rename_inStepFrom {r : Ruleset} {last₁ last₂ : Nat} (h : r.Numbered last₂)
    (ρ : Nat → Nat) : r.rename (inStepFrom ρ last₁ last₂) = r.rename ρ := by
  -- only handles that are held matter, and none of them is above the last
  refine mapHandles_congr fun x hx => ?_
  obtain ⟨n, hn, -, hle⟩ := h.given x hx
  rw [hn, Option.map_some, Option.map_some, inStepFrom, if_pos hle]

/--
**Applying operations to a renamed ruleset renames what comes out**, if the renaming is not confused
about the numbers that the operations name.
-/
theorem apply_rename (defines : List Define) {ρ : Nat → Nat} {ops : List Operation}
    (hops : ∀ op ∈ ops, op.object.SeenAlike id (Option.map ρ)) {r₁ r₂ : Ruleset} {last₁ last₂ : Nat}
    (hr : r₁ = r₂.rename ρ) (hρ : InStep ρ last₁ last₂) :
    (r₁.apply defines last₁ ops).result = (r₂.apply defines last₂ ops).result ∧
      (r₁.apply defines last₁ ops).ruleset = (r₂.apply defines last₂ ops).ruleset.rename ρ ∧
      InStep ρ (r₁.apply defines last₁ ops).lastHandle (r₂.apply defines last₂ ops).lastHandle := by
  induction ops generalizing r₁ r₂ last₁ last₂ with
  | nil => exact ⟨rfl, hr, hρ⟩
  | cons op rest ih =>
    obtain ⟨hop, hrest⟩ := List.forall_mem_cons.mp hops
    have hagree : r₁.mapHandles id = r₂.mapHandles (Option.map ρ) := by
      rw [mapHandles_id]
      exact hr
    have hnew : op.verb.allocates = true →
        id (some (nextHandle last₁ op)) = Option.map ρ (some (nextHandle last₂ op)) := by
      intro halloc
      rw [nextHandle, nextHandle, if_pos halloc, if_pos halloc]
      exact congrArg some (hρ 0).symm
    have halike : Alike _ (r₁.step defines _ op) (r₂.step defines _ op) :=
      step_alike hagree hop hnew
    -- the steps fail alike, or lead to rulesets that are renamed again
    rw [apply, apply]
    generalize r₁.step defines (nextHandle last₁ op) op = x at halike ⊢
    generalize r₂.step defines (nextHandle last₂ op) op = y at halike ⊢
    cases halike with
    | error e => exact ⟨rfl, hr, inStep_nextHandle hρ op⟩
    | ok hr' =>
      rw [mapHandles_id] at hr'
      exact ih hrest hr' (inStep_nextHandle hρ op)

end Ruleset

/-! ## The turns of a history -/

/-- A call, the answer to it, and the engine after it. -/
structure Turn where
  call : Call
  answer : Except Error Unit
  engine : Engine

/-- The call was a run, and it succeeded. -/
def Turn.commits (t : Turn) : Bool :=
  match t.call, t.answer with
  | .run _ _, .ok () => true
  | _, _ => false

/-- The turn is the same as that of an engine whose numbers lie closer together. -/
structure Turn.Matches (full reduced : Turn) : Prop where
  call : full.call = reduced.call
  answer : reduced.answer = .ok ()
  ruleset : ∃ ρ : Nat → Nat, StrictMono ρ ∧
    full.engine.ruleset = reduced.engine.ruleset.rename ρ
  dump : full.engine.dump = reduced.engine.dump
  lastTransaction : full.engine.lastTransaction = reduced.engine.lastTransaction

namespace Engine

def turns (e : Engine) : List Call → List Turn
  | [] => []
  | call :: rest => ⟨call, (e.perform call).2, (e.perform call).1⟩ :: (e.perform call).1.turns rest

/-! ### One call -/

theorem ruleset_run_of_error {e : Engine} {tx : Transaction} (h : (e.run tx).2 ≠ .ok ()) :
    (e.run tx).1.ruleset = e.ruleset := by
  unfold run at h ⊢
  split
  · rfl
  · rename_i hr
    simp only [hr] at h
    dsimp only
    split
    · rename_i ha
      simp only [ha] at h
      exact absurd rfl h
    · rfl

theorem ruleset_check (e : Engine) (tx : Transaction) : (e.check tx).1.ruleset = e.ruleset := by
  unfold check
  split <;> rfl

/-! ### Two engines, call by call -/

/-- `d` is where `e` would be without some of its failed runs and checks. -/
structure Linked (e d : Engine) : Prop where
  config : e.config = d.config
  numbered : d.ruleset.Numbered d.lastHandle
  renamed : ∃ ρ : Nat → Nat, StrictMono ρ ∧ ρ d.lastHandle ≤ e.lastHandle ∧
    e.ruleset = d.ruleset.rename ρ

namespace Linked

theorem ofConfig (config : Config) : Linked (.ofConfig config) (.ofConfig config) where
  config := rfl
  numbered := Ruleset.numbered_empty
  renamed := ⟨id, strictMono_id, Nat.le_refl _, rfl⟩

variable {e d : Engine}

/-- A call that commits nothing moves only the handle counter. -/
theorem skip (h : Linked e d) {call : Call} (hr : (e.perform call).1.ruleset = e.ruleset) :
    Linked (e.perform call).1 d where
  config := (config_perform e call).trans h.config
  numbered := h.numbered
  renamed := by
    obtain ⟨ρ, hmono, hle, heq⟩ := h.renamed
    -- the counter may have run on, the renaming stays
    have hlast : e.lastHandle ≤ (e.perform call).1.lastHandle := (keepsTo_after e [call]).reached
    exact ⟨ρ, hmono, Nat.le_trans hle hlast, hr.trans heq⟩

/-- **A run that succeeds on one engine does the same on the other.** -/
theorem run (h : Linked e d) {tx : Transaction} (hfree : tx.HandleFree) (hchecked : tx.Checked)
    (hok : (e.run tx).2 = .ok ()) :
    (d.run tx).2 = .ok () ∧ Linked (e.run tx).1 (d.run tx).1 ∧
      (e.run tx).1.lastTransaction = (d.run tx).1.lastTransaction := by
  obtain ⟨ρ, hmono, hle, heq⟩ := h.renamed
  obtain ⟨hrefusal, hresult⟩ := ok_of_run hok
  -- from here on both engines draw their numbers in step
  have hstep := inStep_inStepFrom ρ e.lastHandle d.lastHandle
  have hmono' := strictMono_inStepFrom hmono hle
  have heq' : e.ruleset = d.ruleset.rename (inStepFrom ρ e.lastHandle d.lastHandle) := by
    rw [Ruleset.rename_inStepFrom h.numbered]
    exact heq
  obtain ⟨hsame, hrenamed, hafter⟩ := Ruleset.apply_rename e.config.effectiveDefines
    (fun op hop => Object.seenAlike_of_none (hfree op hop) _ _) heq' hstep
  have hresult' : (d.attempt tx).result = .ok () := by
    rw [attempt, ← h.config, ← hsame]
    exact hresult
  -- the smaller engine is a history of its own, so its numbers stay within its counter
  have hnumbered : ((d.run tx).1.ruleset).Numbered (d.run tx).1.lastHandle :=
    preserved_run (Ruleset.numbered_preserved _) hchecked h.numbered
  rw [run_of_ok hrefusal hresult'] at hnumbered ⊢
  rw [run_of_ok hrefusal hresult]
  refine ⟨rfl, ⟨h.config, hnumbered, _, hmono', ?_, ?_⟩, rfl⟩
  · dsimp only
    rw [attempt, attempt, ← h.config]
    exact hafter.le hmono'
  · dsimp only
    rw [attempt, attempt, ← h.config]
    exact hrenamed

end Linked

/-- The turns of two linked engines match, one for one. -/
theorem turns_matches {calls : List Call} (hcalls : ∀ call ∈ calls, call.HandleFree)
    {e d : Engine} (h : Linked e d) :
    List.Forall₂ Turn.Matches ((e.turns calls).filter Turn.commits)
      (d.turns (((e.turns calls).filter Turn.commits).map Turn.call)) := by
  induction calls generalizing e d with
  | nil => exact .nil
  | cons call rest ih =>
    obtain ⟨hcall, hrest⟩ := List.forall_mem_cons.mp hcalls
    rw [turns]
    cases call with
    | replay text => exact hcall.elim
    | check settings requests =>
      rw [List.filter_cons_of_neg (by simp [Turn.commits])]
      exact ih hrest (h.skip (ruleset_check e _))
    | run settings requests =>
      by_cases hok : (e.run (.build settings requests)).2 = .ok ()
      · obtain ⟨hanswer, hlinked, htx⟩ := h.run (Transaction.handleFree_build settings hcall)
          (Transaction.checked_build settings requests) hok
        rw [List.filter_cons_of_pos (by simp [Turn.commits, perform, hok])]
        obtain ⟨ρ, hmono, -, heq⟩ := hlinked.renamed
        refine .cons ⟨rfl, hanswer, ⟨ρ, hmono, heq⟩, ?_, htx⟩ (ih hrest hlinked)
        exact (congrArg Ruleset.dump heq).trans (Ruleset.dump_mapHandles _ _)
      · -- the other engine does not make this call
        have hcommits : ¬ (Turn.mk (.run settings requests) (e.perform (.run settings requests)).2
            (e.perform (.run settings requests)).1).commits = true := by
          unfold Turn.commits
          split
          · rename_i hanswer
            exact absurd hanswer hok
          · exact Bool.false_ne_true
        rw [List.filter_cons_of_neg hcommits]
        exact ih hrest (h.skip (ruleset_run_of_error hok))

/--
**Failed runs and checks are invisible.** The runs of a history that succeed, made alone on a fresh
engine, all succeed there too, and each leaves the ruleset that it left among the other calls, up to
a strictly increasing renaming of the handles.
-/
theorem committed_turns (config : Config) (calls : List Call)
    (h : ∀ call ∈ calls, call.HandleFree) :
    let committed := ((ofConfig config).turns calls).filter Turn.commits
    List.Forall₂ Turn.Matches committed ((ofConfig config).turns (committed.map Turn.call)) :=
  turns_matches h (.ofConfig config)

/-- A run that fails after a number was drawn, and a check, between two runs that succeed. -/
def gapHistory : List Call :=
  let settings : Config := { family := some .ip, table := some "t" }
  [.run settings [⟨.add, .table {}⟩],
    .run settings [⟨.add, .chain { name := "a" }⟩, ⟨.flush, .chain { name := "b" }⟩],
    .check settings [⟨.add, .chain { name := "a" }⟩],
    .run settings [⟨.add, .chain { name := "b" }⟩]]

theorem committed_turns_gapHistory :
    let committed := ((ofConfig {}).turns gapHistory).filter Turn.commits
    committed.map (fun t => t.engine.lastHandle) = [1, 4] ∧
      List.Forall₂ Turn.Matches committed ((ofConfig {}).turns (committed.map Turn.call)) :=
  ⟨by decide +kernel, committed_turns {} gapHistory (by decide)⟩

end Engine

end Nftables
