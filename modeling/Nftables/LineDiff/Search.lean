import Nftables.LineDiff.Script

/-!
# The search for a script

Between what two lists share at their fronts and ends, a shortest script is found by searching
from both corners of the grid of the two lists at once, along its diagonals, until the two searches
meet. The meeting point cuts both lists, and the parts are searched again. Diagonal `k` holds the
points whose positions in the two lists differ by `k`.
-/

namespace Nftables.LineDiff

variable {α : Type} [DecidableEq α]

/-! ## Where the two searches meet -/

/-- The number of equal items from positions `x` and `y` on. -/
def matchFrom (a b : Array α) (x y : Nat) : Nat :=
  if h : x < a.size ∧ y < b.size then
    if a[x] = b[y] then matchFrom a b (x + 1) (y + 1) + 1 else 0
  else 0
termination_by a.size - x

/-- The number of equal items that end before positions `x` and `y`. -/
def matchBefore (a b : Array α) : Nat → Nat → Nat
  | x + 1, y + 1 =>
    if h : x < a.size ∧ y < b.size then
      if a[x] = b[y] then matchBefore a b x y + 1 else 0
    else 0
  | _, _ => 0

/-- How far a search has come on each diagonal, the diagonals counted from `-reach`. -/
structure Frontier where
  reach : Nat
  points : Array Int

namespace Frontier

def empty (reach : Nat) : Frontier := ⟨reach, Array.replicate (2 * reach + 1) 0⟩

def get (f : Frontier) (k : Int) : Int := f.points.getD (k + f.reach).toNat 0

def set (f : Frontier) (k x : Int) : Frontier :=
  { f with points := f.points.setIfInBounds (k + f.reach).toNat x }

/-- Where step `d` starts on diagonal `k`: from the neighbour that is further on. -/
def start (f : Frontier) (d k : Int) : Int :=
  if k = -d ∨ (k ≠ d ∧ f.get (k - 1) < f.get (k + 1)) then f.get (k + 1) else f.get (k - 1) + 1

end Frontier

/-- The two searches, from the front and from the end. -/
structure Search where
  forward : Frontier
  backward : Frontier

/-- A meeting point ends the search; otherwise it goes on. -/
abbrev Searching := Except (Nat × Nat)

/-- Step `d` of the search from the front on diagonal `k`. -/
def Search.stepForward (a b : Array α) (d : Int) (s : Search) (k : Int) : Searching Search :=
  let delta : Int := a.size - b.size
  let x := s.forward.start d k
  let y := x - k
  let reached := if x < 0 ∨ y < 0 then x else x + matchFrom a b x.toNat y.toNat
  let s := { s with forward := s.forward.set k reached }
  -- an odd difference of the lengths takes an odd number of changes, and the last is made here
  if delta % 2 ≠ 0 ∧ (k - delta).natAbs ≤ d - 1 ∧ reached + s.backward.get (delta - k) ≥ a.size then
    .error (x.toNat, y.toNat)
  else .ok s

/-- Step `d` of the search from the end on diagonal `k`. Positions count from the end. -/
def Search.stepBackward (a b : Array α) (d : Int) (s : Search) (k : Int) : Searching Search :=
  let delta : Int := a.size - b.size
  let x := s.backward.start d k
  let y := x - k
  let run : Int :=
    if 0 ≤ x ∧ x < a.size ∧ 0 ≤ y ∧ y < b.size then
      matchBefore a b (a.size - x).toNat (b.size - y).toNat
    else 0
  let s := { s with backward := s.backward.set k (x + run) }
  -- an even difference takes an even number, so the last is made in this search
  if delta % 2 = 0 ∧ (k - delta).natAbs ≤ d ∧ x + run + s.forward.get (delta - k) ≥ a.size then
    .error ((a.size - (x + run)).toNat, (b.size - (y + run)).toNat)
  else .ok s

/-- The diagonals of step `d`, from above. -/
def diagonals (d : Nat) : List Int :=
  (List.range (d + 1)).map fun i : Nat => (d : Int) - 2 * (i : Int)

/-- Step `d` of both searches. -/
def Search.step (a b : Array α) (s : Search) (d : Nat) : Searching Search := do
  let s ← (diagonals d).foldlM (Search.stepForward a b d) s
  (diagonals d).foldlM (Search.stepBackward a b d) s

/-- The point at which both lists are cut, if the searches meet. -/
def meeting? (a b : Array α) : Option (Nat × Nat) :=
  -- each search has to come half the way at most
  let steps := (a.size + b.size + 1) / 2 + 1
  let s : Search := ⟨.empty (steps + 1), .empty (steps + 1)⟩
  match (List.range steps).foldlM (Search.step a b) s with
  | .error point => some point
  | .ok _ => none

/-! ## The script -/

/-- A script of one run, or of none for an empty run. -/
def single (edit : List α → Edit α) : List α → Script α
  | [] => []
  | run => [edit run]

/-- The point at which two lists are cut, if it makes both parts smaller. -/
def cutPoint? (a b : List α) : Option (Nat × Nat) :=
  match meeting? a.toArray b.toArray with
  | none => none
  | some (x, y) =>
    -- a cut at a corner would leave everything in one part
    if (a.take x).length + (b.take y).length < a.length + b.length ∧
        (a.drop x).length + (b.drop y).length < a.length + b.length then some (x, y)
    else none

theorem cutPoint?_lt {a b : List α} {x y : Nat} (h : cutPoint? a b = some (x, y)) :
    (a.take x).length + (b.take y).length < a.length + b.length ∧
      (a.drop x).length + (b.drop y).length < a.length + b.length := by
  unfold cutPoint? at h
  split at h
  · contradiction
  · split at h
    · rename_i hlt
      obtain ⟨rfl, rfl⟩ := Prod.mk.inj (Option.some.inj h)
      exact hlt
    · contradiction

/-- Two lists without what they share at their fronts and ends. -/
structure Trimmed (α : Type) where
  front : List α
  old : List α
  new : List α
  back : List α

def trimCommon (a b : List α) : Trimmed α :=
  let (front, a, b) := splitCommon a b
  let (old, new, back) := splitCommonEnd a b
  { front, old, new, back }

theorem trimCommon_eq (a b : List α) :
    a = (trimCommon a b).front ++ (trimCommon a b).old ++ (trimCommon a b).back ∧
      b = (trimCommon a b).front ++ (trimCommon a b).new ++ (trimCommon a b).back := by
  have hf := splitCommon_eq a b
  have hb := splitCommonEnd_eq (splitCommon a b).2.1 (splitCommon a b).2.2
  simp only [trimCommon, List.append_assoc]
  rw [← hb.1, ← hb.2]
  exact hf

theorem length_trimCommon_le (a b : List α) :
    (trimCommon a b).old.length + (trimCommon a b).new.length ≤ a.length + b.length := by
  have h := trimCommon_eq a b
  have ha := congrArg List.length h.1
  have hb := congrArg List.length h.2
  simp only [List.length_append] at ha hb
  omega

/-- A script for the middle parts, with the shared front and end around it. -/
def Trimmed.around (t : Trimmed α) (middle : Script α) : Script α :=
  single .keep t.front ++ middle ++ single .keep t.back

/-- A script from one list to another. -/
def search (a b : List α) : Script α :=
  let t := trimCommon a b
  if t.old = [] then t.around (single .insert t.new)
  else if t.new = [] then t.around (single .delete t.old)
  else
    match _h : cutPoint? t.old t.new with
    | none => t.around [.delete t.old, .insert t.new]
    | some (x, y) =>
      t.around (search (t.old.take x) (t.new.take y) ++ search (t.old.drop x) (t.new.drop y))
termination_by a.length + b.length
decreasing_by
  all_goals
    have hlt := cutPoint?_lt _h
    have hle := length_trimCommon_le a b
    simp only [t] at hlt
    omega

end Nftables.LineDiff
