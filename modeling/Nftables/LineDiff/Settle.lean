import Nftables.LineDiff.Script

/-!
# Settling a script

A script that was found by searching is put into one settled form. Each deletion in turn, and then
each insertion, rises as far as it can and then sinks as far as it can. On its way it trades places
with changes of the other side and merges with those of its own. An insertion also moves across
kept items that it repeats at its near end; a deletion never moves across kept items.
-/

namespace Nftables.LineDiff

variable {α : Type}

/-- The two kinds of change. -/
inductive Side
  | deletion
  | insertion
deriving DecidableEq, Repr

/-- A change as a run of a script. -/
def Side.edit (side : Side) (run : List α) : Edit α :=
  match side with
  | .deletion => .delete run
  | .insertion => .insert run

/-- The items of a change of this side. -/
def Side.run? (side : Side) : Edit α → Option (List α)
  | .keep _ => none
  | .delete run => if side = .deletion then some run else none
  | .insert run => if side = .insertion then some run else none

/-- Puts kept items in front of a script. -/
def keepBefore (run : List α) : Script α → Script α
  | .keep next :: rest => .keep (run ++ next) :: rest
  | rest => .keep run :: rest

/-- Puts kept items behind a script that is written backwards. -/
def keepBehind (run : List α) : Script α → Script α
  | .keep last :: rest => .keep (last ++ run) :: rest
  | rest => .keep run :: rest

/-- A non-empty run of kept items in front of a script. -/
def keepRest (run : List α) (rest : Script α) : Script α :=
  if run = [] then rest else .keep run :: rest

theorem weight_cons (e : Edit α) (s : Script α) :
    Script.weight (e :: s) = e.weight + Script.weight s := rfl

theorem weight_keepRest_le (run : List α) (rest : Script α) :
    Script.weight (keepRest run rest) ≤ run.length + 1 + Script.weight rest := by
  unfold keepRest
  split
  · omega
  · simp [weight_cons, Edit.weight]

/-- A change in its place: what is before it, last run first, its items, and what is after it. -/
structure Placed (α : Type) where
  before : Script α
  run : List α
  after : Script α

namespace Placed

/-- The script with the change as one of its runs. -/
def script (side : Side) (p : Placed α) : Script α :=
  p.before.reverse ++ side.edit p.run :: p.after

variable [DecidableEq α]

/-- Moves a change up as far as it goes. -/
def rise (side : Side) (before : Script α) (run : List α) (after : Script α) : Placed α :=
  match before with
  | [] => ⟨[], run, after⟩
  | .keep kept :: rest =>
    match side with
    | .deletion => ⟨.keep kept :: rest, run, after⟩
    | .insertion =>
      match _h : splitCommonEnd kept run with
      | (_, _, []) => ⟨.keep kept :: rest, run, after⟩
      -- the insertion begins with what it used to end with, and those kept items follow it now
      | (left, front, x :: xs) =>
        rise .insertion (keepRest left rest) (x :: xs ++ front) (keepBefore (x :: xs) after)
  | .delete other :: rest =>
    match side with
    | .deletion => rise .deletion rest (other ++ run) after
    | .insertion => rise .insertion rest run (.delete other :: after)
  | .insert other :: rest =>
    match side with
    | .deletion => rise .deletion rest run (.insert other :: after)
    | .insertion => rise .insertion rest (other ++ run) after
termination_by Script.weight before
decreasing_by
  · have hlen := (length_splitCommonEnd kept run).1
    have hle := weight_keepRest_le left rest
    simp only [_h, List.length_cons] at hlen
    simp only [weight_cons, Edit.weight]
    omega
  all_goals simp only [weight_cons, Edit.weight]; omega

/-- Moves a change down as far as it goes. -/
def sink (side : Side) (before : Script α) (run : List α) (after : Script α) : Placed α :=
  match after with
  | [] => ⟨before, run, []⟩
  | .keep kept :: rest =>
    match side with
    | .deletion => ⟨before, run, .keep kept :: rest⟩
    | .insertion =>
      match _h : splitCommon kept run with
      | ([], _, _) => ⟨before, run, .keep kept :: rest⟩
      -- the same downwards: it ends with what it used to begin with
      | (x :: xs, left, back) =>
        sink .insertion (keepBehind (x :: xs) before) (back ++ x :: xs) (keepRest left rest)
  | .delete other :: rest =>
    match side with
    | .deletion => sink .deletion before (run ++ other) rest
    | .insertion => sink .insertion (.delete other :: before) run rest
  | .insert other :: rest =>
    match side with
    | .deletion => sink .deletion (.insert other :: before) run rest
    | .insertion => sink .insertion before (run ++ other) rest
termination_by Script.weight after
decreasing_by
  · have hlen := (length_splitCommon kept run).1
    have hle := weight_keepRest_le left rest
    simp only [_h, List.length_cons] at hlen
    simp only [weight_cons, Edit.weight]
    omega
  all_goals simp only [weight_cons, Edit.weight]; omega

/-- Moves a change up and then down. -/
def settle (side : Side) (before : Script α) (run : List α) (after : Script α) : Placed α :=
  let risen := rise side before run after
  sink side risen.before risen.run risen.after

end Placed

/-! ## All changes of a side in turn -/

/-- How many changes of a side a script has. -/
def Side.count (side : Side) (s : Script α) : Nat :=
  s.countP fun e => (side.run? e).isSome

theorem count_cons (side : Side) (e : Edit α) (s : Script α) :
    side.count (e :: s) = side.count s + if (side.run? e).isSome then 1 else 0 :=
  List.countP_cons

theorem count_cons_keep (side : Side) (run : List α) (s : Script α) :
    side.count (.keep run :: s) = side.count s := by
  simp [count_cons, Side.run?]

theorem count_keepBefore (side : Side) (run : List α) (s : Script α) :
    side.count (keepBefore run s) = side.count s := by
  unfold keepBefore
  split <;> simp only [count_cons_keep]

theorem count_keepRest (side : Side) (run : List α) (s : Script α) :
    side.count (keepRest run s) = side.count s := by
  unfold keepRest
  split <;> simp only [count_cons_keep]

variable [DecidableEq α]

theorem count_rise_le (side : Side) (before : Script α) (run : List α) (after : Script α) :
    side.count (Placed.rise side before run after).after ≤ side.count after := by
  fun_induction Placed.rise side before run after with
  | case1 | case2 | case3 => exact Nat.le_refl _
  | case4 _ _ _ _ _ _ _ _ _ ih => rwa [count_keepBefore] at ih
  | case5 _ _ _ _ ih | case8 _ _ _ _ ih => exact ih
  | case6 _ _ _ _ ih | case7 _ _ _ _ ih => simpa [count_cons, Side.run?] using ih

theorem count_sink_le (side : Side) (before : Script α) (run : List α) (after : Script α) :
    side.count (Placed.sink side before run after).after ≤ side.count after := by
  fun_induction Placed.sink side before run after with
  | case1 | case2 | case3 => exact Nat.le_refl _
  | case4 _ _ _ _ _ _ _ _ _ ih => rwa [count_keepRest] at ih
  | case5 _ _ _ _ ih | case6 _ _ _ _ ih | case7 _ _ _ _ ih | case8 _ _ _ _ ih =>
    rw [count_cons]
    omega

theorem count_settle_le (side : Side) (before : Script α) (run : List α) (after : Script α) :
    side.count (Placed.settle side before run after).after ≤ side.count after :=
  Nat.le_trans (count_sink_le side _ _ _) (count_rise_le side _ _ _)

/-- Settles the changes of one side. What has been passed stands in `before`, backwards. -/
def Script.settleFrom (side : Side) (before : Script α) : Script α → Script α
  | [] => before.reverse
  | e :: after =>
    match _h : side.run? e with
    | none => settleFrom side (e :: before) after
    | some run =>
      let placed := Placed.settle side before run after
      settleFrom side (side.edit placed.run :: placed.before) placed.after
termination_by s => (side.count s, s.length)
decreasing_by
  · apply Prod.Lex.right'
    · simp [count_cons, _h]
    · simp
  · apply Prod.Lex.left
    have hle := count_settle_le side before run after
    simp only [count_cons, _h, Option.isSome_some, ↓reduceIte]
    omega

/-- The settled form of a script: first the deletions settle, then the insertions. -/
def Script.settle (s : Script α) : Script α :=
  settleFrom .insertion [] (settleFrom .deletion [] s)

end Nftables.LineDiff
