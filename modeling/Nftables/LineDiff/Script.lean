/-!
# Edit scripts

A script says how one list becomes another: runs that are kept, deleted or inserted, in order. Its
two views give the lists back. What two lists share at their fronts and ends is taken off by
`splitCommon` and `splitCommonEnd`.
-/

namespace Nftables.LineDiff

/-- One run of a script. -/
inductive Edit (α : Type)
  | keep (run : List α)
  | delete (run : List α)
  | insert (run : List α)
deriving DecidableEq, Repr

namespace Edit

variable {α : Type}

/-- The part of the old list that a run stands for. -/
def old : Edit α → List α
  | keep run | delete run => run
  | insert _ => []

/-- The part of the new list that a run stands for. -/
def new : Edit α → List α
  | keep run | insert run => run
  | delete _ => []

/-- How much a run weighs while it stands in the way of another. -/
def weight : Edit α → Nat
  | keep run | delete run | insert run => run.length + 1

end Edit

/-- A list of runs. -/
abbrev Script (α : Type) := List (Edit α)

namespace Script

variable {α : Type}

/-- The list that the script starts from. -/
def old (s : Script α) : List α := s.flatMap Edit.old

/-- The list that the script ends in. -/
def new (s : Script α) : List α := s.flatMap Edit.new

def weight (s : Script α) : Nat := s.foldr (fun e n => e.weight + n) 0

@[simp] theorem old_append (s t : Script α) : old (s ++ t) = old s ++ old t :=
  List.flatMap_append

@[simp] theorem new_append (s t : Script α) : new (s ++ t) = new s ++ new t :=
  List.flatMap_append

end Script

/-! ## Common fronts and ends -/

variable {α : Type} [DecidableEq α]

/-- The longest common front of two lists, and what remains of each. -/
def splitCommon : List α → List α → List α × List α × List α
  | x :: xs, y :: ys =>
    if x = y then
      let (front, a, b) := splitCommon xs ys
      (x :: front, a, b)
    else ([], x :: xs, y :: ys)
  | xs, ys => ([], xs, ys)

/-- What remains of two lists before their longest common end, and that end. -/
def splitCommonEnd (xs ys : List α) : List α × List α × List α :=
  let (back, a, b) := splitCommon xs.reverse ys.reverse
  (a.reverse, b.reverse, back.reverse)

theorem splitCommon_eq (xs ys : List α) :
    xs = (splitCommon xs ys).1 ++ (splitCommon xs ys).2.1 ∧
      ys = (splitCommon xs ys).1 ++ (splitCommon xs ys).2.2 := by
  fun_induction splitCommon xs ys with
  | case1 x xs ys front a b h ih => simpa [h] using ih
  | case2 => simp
  | case3 => simp

theorem splitCommonEnd_eq (xs ys : List α) :
    xs = (splitCommonEnd xs ys).1 ++ (splitCommonEnd xs ys).2.2 ∧
      ys = (splitCommonEnd xs ys).2.1 ++ (splitCommonEnd xs ys).2.2 := by
  have h := splitCommon_eq xs.reverse ys.reverse
  have hx := congrArg List.reverse h.1
  have hy := congrArg List.reverse h.2
  simp only [List.reverse_reverse, List.reverse_append] at hx hy
  exact ⟨hx, hy⟩

theorem length_splitCommon (xs ys : List α) :
    (splitCommon xs ys).1.length + (splitCommon xs ys).2.1.length = xs.length ∧
      (splitCommon xs ys).1.length + (splitCommon xs ys).2.2.length = ys.length := by
  have h := splitCommon_eq xs ys
  have hx := congrArg List.length h.1
  have hy := congrArg List.length h.2
  simp only [List.length_append] at hx hy
  omega

theorem length_splitCommonEnd (xs ys : List α) :
    (splitCommonEnd xs ys).1.length + (splitCommonEnd xs ys).2.2.length = xs.length ∧
      (splitCommonEnd xs ys).2.1.length + (splitCommonEnd xs ys).2.2.length = ys.length := by
  have h := splitCommonEnd_eq xs ys
  have hx := congrArg List.length h.1
  have hy := congrArg List.length h.2
  simp only [List.length_append] at hx hy
  omega

end Nftables.LineDiff
