import Mathlib.Data.List.Basic
import Nftables.Proofs.Frontier

/-!
# The searches meet

Between lists that share neither their first items nor their last ones, the search from the front
and the one from the end meet, in the grid of the two lists and in neither corner of it. So both
parts that the lists are cut into are smaller, and no script is found by giving up.

There are two things to show of a step, and they need each other. If the searches meet in it, the
point is inside of the grid: that follows from where the run has started, by `start_inside`, which
assumes that they have not met before. If they do not meet, they are still apart afterwards: that is
read off the test that has failed on every diagonal (`Frontier.Clear`). `Search.After` holds both
together, and `After.step` takes it one step on. Which of the two searches tests depends on the
parity of the difference in length, hence the two clauses on being clear.

That they meet at all is a count (`After.lt`): searches that are clear of each other have made fewer
moves than the grid has room for. The lists are trimmed before they are searched, which is what the
hypotheses on first and last items stand for; a first step from a corner that could run would be a
meeting in that corner.
-/

namespace Nftables.LineDiff

/-! ## The runs of the two searches -/

section Runs

variable {α : Type} [DecidableEq α] (a b : Array α)

/-- The run of equal items from a point on, counted from the front. -/
def runForward (x y : Int) : Int := if x < 0 ∨ y < 0 then 0 else matchFrom a b x.toNat y.toNat

/-- The run of equal items that ends before a point, both counted from the end. -/
def runBackward (x y : Int) : Int :=
  if 0 ≤ x ∧ x < a.size ∧ 0 ≤ y ∧ y < b.size then
    matchBefore a b (a.size - x).toNat (b.size - y).toNat
  else 0

theorem matchFrom_le (x y : Nat) (h : matchFrom a b x y ≠ 0) :
    x + matchFrom a b x y ≤ a.size ∧ y + matchFrom a b x y ≤ b.size := by
  fun_induction matchFrom a b x y with
  | case1 x y hin heq ih =>
    by_cases hrest : matchFrom a b (x + 1) (y + 1) = 0
    · omega
    · have hrest := ih hrest
      omega
  | case2 | case3 => exact absurd rfl h

theorem matchBefore_le (x y : Nat) : matchBefore a b x y ≤ x ∧ matchBefore a b x y ≤ y := by
  fun_induction matchBefore a b x y <;> omega

/-- A run that ends at the front of both lists begins with a common item. -/
theorem matchBefore_whole {x y : Nat} (hx : matchBefore a b x y = x)
    (hy : matchBefore a b x y = y) (h : 0 < x) : a[0]? = b[0]? := by
  fun_induction matchBefore a b x y with
  | case1 x y hin heq ih =>
    cases x with
    | zero =>
      obtain rfl : y = 0 := by omega
      rw [Array.getElem?_eq_getElem hin.1, Array.getElem?_eq_getElem hin.2, heq]
    | succ x => exact ih (by omega) (by omega) (by omega)
  | case2 | case3 | case4 => omega

theorem runsInside_forward : RunsInside a.size b.size (runForward a b) where
  nonneg x y := by
    unfold runForward
    split <;> omega
  inside x y h := by
    unfold runForward at h ⊢
    split at h
    · exact absurd rfl h
    · have hle := matchFrom_le a b x.toNat y.toNat (by omega)
      rw [if_neg ‹_›]
      omega

theorem runsInside_backward : RunsInside a.size b.size (runBackward a b) where
  nonneg x y := by
    unfold runBackward
    split <;> omega
  inside x y h := by
    have hle := matchBefore_le a b (a.size - x).toNat (b.size - y).toNat
    unfold runBackward at h ⊢
    split <;> omega

theorem runForward_corner (hfirst : a[0]? ≠ b[0]?) : runForward a b 0 0 = 0 := by
  have hzero : matchFrom a b 0 0 = 0 := by
    unfold matchFrom
    split
    · rename_i hin
      rw [if_neg]
      intro heq
      rw [Array.getElem?_eq_getElem hin.1, Array.getElem?_eq_getElem hin.2, heq] at hfirst
      exact hfirst rfl
    · rfl
  rw [runForward, if_neg (by decide)]
  exact congrArg Nat.cast hzero

theorem runBackward_corner (hlast : a.back? ≠ b.back?) : runBackward a b 0 0 = 0 := by
  unfold runBackward
  split
  · rename_i hin
    obtain ⟨x, hx⟩ := Nat.exists_eq_succ_of_ne_zero (n := a.size) (by omega)
    obtain ⟨y, hy⟩ := Nat.exists_eq_succ_of_ne_zero (n := b.size) (by omega)
    have hzero : matchBefore a b (x + 1) (y + 1) = 0 := by
      rw [matchBefore, dif_pos (by omega), if_neg]
      intro heq
      rw [Array.back?_eq_getElem?, Array.back?_eq_getElem?, Array.getElem?_eq_getElem (by omega),
        Array.getElem?_eq_getElem (by omega)] at hlast
      simp only [hx, hy, Nat.succ_sub_one, heq] at hlast
      exact hlast rfl
    rw [show ((a.size : Int) - 0).toNat = x + 1 by omega,
      show ((b.size : Int) - 0).toNat = y + 1 by omega, hzero]
    rfl
  · rfl

/-- Where the first items differ, a run from the end does not come to both fronts. -/
theorem runBackward_short (hfirst : a[0]? ≠ b[0]?) (x y : Int) (h : runBackward a b x y ≠ 0) :
    x + runBackward a b x y + (y + runBackward a b x y) < a.size + b.size := by
  have hinside := (runsInside_backward a b).inside x y h
  have hwhole := matchBefore_whole a b (x := (a.size - x).toNat) (y := (b.size - y).toNat)
  unfold runBackward at h hinside ⊢
  split at h
  · rename_i hin
    rw [if_pos hin] at hinside ⊢
    -- a run of that length would begin at both fronts
    refine Decidable.byContradiction fun hlong => hfirst ?_
    exact hwhole (by omega) (by omega) (by omega)
  · exact absurd rfl h

end Runs

/-! ## The steps of both searches -/

/-- The point is in the grid of `n` and `m` and in neither corner. -/
structure Inside (n m : Nat) (point : Nat × Nat) : Prop where
  left : point.1 ≤ n
  above : point.2 ≤ m
  front : 0 < point.1 + point.2
  back : point.1 + point.2 < n + m

theorem inside_mk {n m : Nat} {x y : Int} (hx : 0 ≤ x) (hy : 0 ≤ y) (hn : x ≤ n) (hm : y ≤ m)
    (hfront : 0 < x + y) (hback : x + y < n + m) : Inside n m (x.toNat, y.toNat) := by
  constructor <;> dsimp only <;> omega

namespace Search

variable {s : Search} {d reach : Nat} {k : Int}

/-- What holds when both searches have made step `d`, in a grid of `n` and `m`, and have not met. -/
structure After (n m reach d : Nat) (s : Search) : Prop where
  sizedForward : s.forward.Sized reach
  sizedBackward : s.backward.Sized reach
  forward : s.forward.Reached n m d
  backward : s.backward.Reached n m d
  clearForward : ((n : Int) - m) % 2 ≠ 0 → s.forward.Clear n m (d - 1) d
  clearBackward : ((n : Int) - m) % 2 = 0 → s.backward.Clear n m d d

/-- Where the search from the front meets the other one in the next step. -/
theorem After.inside_forward {n m : Nat} (h : s.After n m reach d) (hn : 0 < n) (hm : 0 < m)
    (hk : k ∈ diagonals (d + 1)) (hodd : ((n : Int) - m) % 2 ≠ 0)
    (hnear : (k - (n - m)).natAbs ≤ (d : Int)) :
    Inside n m ((s.forward.start ((d + 1 : Nat) : Int) k).toNat,
      (s.forward.start ((d + 1 : Nat) : Int) k - k).toNat) := by
  obtain ⟨hx, hy, hleft, habove, hfront, hback⟩ := h.forward.start_inside (h.clearForward hodd)
    (by omega) (by omega) (by omega) (by omega) hk (by omega) (by omega)
  exact inside_mk hx (by omega) hleft habove (by omega) (by omega)

variable {α : Type} [DecidableEq α] {a b : Array α}

/-- What the search from the front does on one diagonal. -/
theorem holds_stepForward {Q : Nat × Nat → Prop} {f₀ : Frontier}
    (hstart : s.forward.start d k = f₀.start d k)
    (hmeet : ((a.size : Int) - b.size) % 2 ≠ 0 → (k - (a.size - b.size)).natAbs ≤ (d : Int) - 1 →
      Q ((f₀.start d k).toNat, (f₀.start d k - k).toNat)) :
    Searching.Holds (fun s' => s'.forward
        = s.forward.set k (f₀.advance (runForward a b) d k) ∧ s'.backward = s.backward ∧
      (((a.size : Int) - b.size) % 2 ≠ 0 → (k - (a.size - b.size)).natAbs ≤ (d : Int) - 1 →
        f₀.advance (runForward a b) d k + s.backward.get (a.size - b.size - k) < a.size))
      Q (stepForward a b d s k) := by
  -- the run that the loop computes is the one of `runForward`
  have hreached : (if f₀.start d k < 0 ∨ f₀.start d k - k < 0 then f₀.start d k
      else f₀.start d k + matchFrom a b (f₀.start d k).toNat (f₀.start d k - k).toNat)
      = f₀.advance (runForward a b) d k := by
    unfold Frontier.advance runForward
    split <;> omega
  unfold stepForward
  simp only [hstart, hreached]
  split
  · rename_i hmet
    exact hmeet hmet.1 hmet.2.1
  · rename_i hnot
    exact ⟨rfl, rfl, fun hodd hnear => by omega⟩

/-- What the search from the end does on one diagonal. -/
theorem holds_stepBackward {Q : Nat × Nat → Prop} {f₀ : Frontier}
    (hstart : s.backward.start d k = f₀.start d k)
    (hmeet : ((a.size : Int) - b.size) % 2 = 0 → (k - (a.size - b.size)).natAbs ≤ (d : Int) →
      a.size ≤ f₀.advance (runBackward a b) d k + s.forward.get (a.size - b.size - k) →
      Q ((a.size - f₀.advance (runBackward a b) d k).toNat,
        (b.size - (f₀.advance (runBackward a b) d k - k)).toNat)) :
    Searching.Holds (fun s' => s'.backward
        = s.backward.set k (f₀.advance (runBackward a b) d k) ∧ s'.forward = s.forward ∧
      (((a.size : Int) - b.size) % 2 = 0 → (k - (a.size - b.size)).natAbs ≤ (d : Int) →
        f₀.advance (runBackward a b) d k + s.forward.get (a.size - b.size - k) < a.size))
      Q (stepBackward a b d s k) := by
  have hreached : f₀.start d k + (if 0 ≤ f₀.start d k ∧ f₀.start d k < a.size ∧
      0 ≤ f₀.start d k - k ∧ f₀.start d k - k < b.size then
        (matchBefore a b (a.size - f₀.start d k).toNat (b.size - (f₀.start d k - k)).toNat : Int)
      else 0) = f₀.advance (runBackward a b) d k := rfl
  have hreached' : ∀ run : Int, f₀.start d k - k + run = f₀.start d k + run - k := fun _ => by omega
  unfold stepBackward
  simp only [hstart, hreached', hreached]
  split
  · rename_i hmet
    exact hmeet hmet.1 hmet.2.1 hmet.2.2
  · rename_i hnot
    exact ⟨rfl, rfl, fun heven hnear => by omega⟩

theorem holds_sweepForward {Q : Nat × Nat → Prop} (hd : d < reach)
    (hsized : s.forward.Sized reach)
    (hmeet : ∀ k ∈ diagonals d, ((a.size : Int) - b.size) % 2 ≠ 0 →
      (k - (a.size - b.size)).natAbs ≤ (d : Int) - 1 →
      Q ((s.forward.start d k).toNat, (s.forward.start d k - k).toNat)) :
    Searching.Holds
      (fun s' => Frontier.Swept (runForward a b) s.forward reach d (d + 1) s'.forward ∧
      s'.backward = s.backward ∧ ∀ k ∈ diagonals d, ((a.size : Int) - b.size) % 2 ≠ 0 →
        (k - (a.size - b.size)).natAbs ≤ (d : Int) - 1 →
        s.forward.advance (runForward a b) d k + s.backward.get (a.size - b.size - k) < a.size)
      Q ((diagonals d).foldlM (stepForward a b d) s) := by
  refine holds_sweep forward backward hd hsized fun k hk s' hother hstart => ?_
  rw [← hother]
  exact holds_stepForward hstart (hmeet k hk)

theorem holds_sweepBackward {Q : Nat × Nat → Prop} (hd : d < reach)
    (hsized : s.backward.Sized reach)
    (hmeet : ∀ k ∈ diagonals d, ((a.size : Int) - b.size) % 2 = 0 →
      (k - (a.size - b.size)).natAbs ≤ (d : Int) →
      a.size ≤ s.backward.advance (runBackward a b) d k + s.forward.get (a.size - b.size - k) →
      Q ((a.size - s.backward.advance (runBackward a b) d k).toNat,
        (b.size - (s.backward.advance (runBackward a b) d k - k)).toNat)) :
    Searching.Holds
      (fun s' => Frontier.Swept (runBackward a b) s.backward reach d (d + 1) s'.backward ∧
      s'.forward = s.forward ∧ ∀ k ∈ diagonals d, ((a.size : Int) - b.size) % 2 = 0 →
        (k - (a.size - b.size)).natAbs ≤ (d : Int) →
        s.backward.advance (runBackward a b) d k + s.forward.get (a.size - b.size - k) < a.size)
      Q ((diagonals d).foldlM (stepBackward a b d) s) := by
  refine holds_sweep backward forward hd hsized fun k hk s' hother hstart => ?_
  rw [← hother]
  exact holds_stepBackward hstart fun heven hnear hsum => hmeet k hk heven hnear (hother ▸ hsum)

/-- Where the search from the end meets the other one in the next step. -/
theorem After.inside_backward (h : s.After a.size b.size reach d) (ha : 0 < a.size)
    (hb : 0 < b.size) (hfirst : a[0]? ≠ b[0]?) (hk : k ∈ diagonals (d + 1))
    (heven : ((a.size : Int) - b.size) % 2 = 0)
    (hnear : (k - (a.size - b.size)).natAbs ≤ (d + 1 : Int)) :
    Inside a.size b.size
      ((a.size - s.backward.advance (runBackward a b) ((d + 1 : Nat) : Int) k).toNat,
        (b.size - (s.backward.advance (runBackward a b) ((d + 1 : Nat) : Int) k - k)).toNat) := by
  obtain ⟨hx, hy, hn, hm, hfront, hback⟩ := h.backward.start_inside (h.clearBackward heven)
    (by omega) (by omega) (by omega) (by omega) hk (by omega) (by omega)
  have hnonneg := (runsInside_backward a b).nonneg
    (s.backward.start ((d + 1 : Nat) : Int) k) (s.backward.start ((d + 1 : Nat) : Int) k - k)
  have hinside := (runsInside_backward a b).inside
    (s.backward.start ((d + 1 : Nat) : Int) k) (s.backward.start ((d + 1 : Nat) : Int) k - k)
  -- the point of meeting is the end of the run here, so its length matters
  have hshort := runBackward_short a b hfirst
    (s.backward.start ((d + 1 : Nat) : Int) k) (s.backward.start ((d + 1 : Nat) : Int) k - k)
  unfold Frontier.advance
  apply inside_mk <;> omega

/-- **One more step of both searches** meets inside the grid, or goes on as before. -/
theorem After.step (h : s.After a.size b.size reach d) (ha : 0 < a.size) (hb : 0 < b.size)
    (hfirst : a[0]? ≠ b[0]?) (hd : d + 1 < reach) :
    Searching.Holds (After a.size b.size reach (d + 1)) (Inside a.size b.size)
      (s.step a b (d + 1)) := by
  -- the search from the front makes its step first
  have hforward := holds_sweepForward (a := a) (b := b) (Q := Inside a.size b.size) hd
    h.sizedForward fun k hk hodd hnear => h.inside_forward ha hb hk hodd (by omega)
  refine hforward.bind fun s₁ hs₁ => ?_
  obtain ⟨hswept₁, hback₁, hapart₁⟩ := hs₁
  have hreached₁ := h.forward.advance (runsInside_forward a b) hswept₁.get
  -- and the other one sees what has come of it
  have hbackward := holds_sweepBackward (a := a) (b := b) (Q := Inside a.size b.size) (s := s₁) hd
    (hback₁ ▸ h.sizedBackward) fun k hk heven hnear _ => hback₁ ▸
      h.inside_backward ha hb hfirst hk heven (by omega)
  refine hbackward.imp fun s₂ hs₂ => ?_
  obtain ⟨hswept₂, hforward₂, hapart₂⟩ := hs₂
  rw [hback₁] at hswept₂ hapart₂
  have hreached₂ := h.backward.advance (runsInside_backward a b) hswept₂.get
  refine ⟨hforward₂ ▸ hswept₁.sized, hswept₂.sized, hforward₂ ▸ hreached₁, hreached₂,
    fun hodd => ?_, fun heven => ?_⟩
  · rw [hforward₂]
    intro k hk hlow hhigh
    rw [hswept₁.get k hk]
    have hshared := mem_diagonals.mp hk
    have hclear := h.backward.clear (mem_diagonals.mpr (by omega))
      (hapart₁ k hk hodd (by omega))
    omega
  · intro k hk hlow hhigh
    rw [hswept₂.get k hk]
    have hshared := mem_diagonals.mp hk
    have hclear := hreached₁.clear (mem_diagonals.mpr (by omega)) (hapart₂ k hk heven (by omega))
    omega

/-- **The first step** stays in both corners, as the lists share no front and no end. -/
theorem after_first (ha : 0 < a.size) (hb : 0 < b.size) (hfirst : a[0]? ≠ b[0]?)
    (hlast : a.back? ≠ b.back?) (hreach : 0 < reach) :
    Searching.Holds (After a.size b.size reach 0) (Inside a.size b.size)
      (Search.step a b ⟨.empty reach, .empty reach⟩ 0) := by
  have hcorner : ∀ run, Frontier.advance run (.empty reach) (0 : Nat) 0 = run 0 0 := fun run => by
    simp [Frontier.advance, Frontier.start, Frontier.get_empty]
  have hforward := holds_sweepForward (a := a) (b := b) (Q := Inside a.size b.size)
    (s := ⟨.empty reach, .empty reach⟩) hreach (Frontier.sized_empty reach)
    fun k hk hodd hnear => by omega
  refine hforward.bind fun s₁ hs₁ => ?_
  obtain ⟨hswept₁, hback₁, -⟩ := hs₁
  have hget₁ : s₁.forward.get 0 = 0 := by
    rw [hswept₁.get 0 (by decide), hcorner, runForward_corner a b hfirst]
  have hadvance : s₁.backward.advance (runBackward a b) (0 : Nat) 0 = 0 := by
    rw [hback₁, hcorner, runBackward_corner a b hlast]
  have hbackward := holds_sweepBackward (a := a) (b := b) (Q := Inside a.size b.size) (s := s₁)
    hreach (hback₁ ▸ Frontier.sized_empty reach) fun k hk heven hnear hsum => by
      obtain rfl := eq_zero_of_mem_diagonals hk
      rw [show (a.size : Int) - b.size - 0 = 0 by omega, hget₁, hadvance] at hsum
      omega
  refine hbackward.imp fun s₂ hs₂ => ?_
  obtain ⟨hswept₂, hforward₂, -⟩ := hs₂
  have hget₂ : s₂.backward.get 0 = 0 := by
    rw [hswept₂.get 0 (by decide), hadvance]
  refine ⟨hforward₂ ▸ hswept₁.sized, hswept₂.sized, ?_, ?_, fun hodd => ?_, fun heven => ?_⟩
  · exact Frontier.reached_zero (by omega) (by omega) (hforward₂ ▸ hget₁)
  · exact Frontier.reached_zero (by omega) (by omega) hget₂
  · intro k hk hlow hhigh
    omega
  · intro k hk hlow hhigh
    obtain rfl := eq_zero_of_mem_diagonals hk
    rw [hget₂]
    omega

/-- **Searches that have made as many steps as half of the grid have met.** -/
theorem After.lt {n m : Nat} (h : s.After n m reach d) (hn : 0 < n) (hm : 0 < m) :
    2 * d < n + m := by
  refine Decidable.byContradiction fun hmany => ?_
  by_cases hparity : ((n : Int) - m) % 2 = 0
  · -- on the outermost diagonal that both searches have
    have hk : min (d : Int) (n - m + d) ∈ diagonals d := mem_diagonals.mpr (by omega)
    have hclear := h.clearBackward hparity _ hk (by omega) (by omega)
    have hmoves := h.backward.moves _ hk
    omega
  · have hk : min (d : Int) (n - m + (d - 1)) ∈ diagonals d := mem_diagonals.mpr (by omega)
    have hclear := h.clearForward hparity _ hk (by omega) (by omega)
    have hmoves := h.forward.moves _ hk
    omega

end Search

/-! ## The meeting point -/

section Meeting

variable {α : Type} [DecidableEq α] {a b : Array α}

/--
**The searches meet**, inside the grid, in lists that share neither their first items nor their last
ones.
-/
theorem meeting?_inside (ha : 0 < a.size) (hb : 0 < b.size) (hfirst : a[0]? ≠ b[0]?)
    (hlast : a.back? ≠ b.back?) :
    ∃ point, meeting? a b = some point ∧ Inside a.size b.size point := by
  let half := (a.size + b.size + 1) / 2
  let start : Search := ⟨.empty (half + 2), .empty (half + 2)⟩
  -- no step is done at first, and step `d` is the last one when `d + 1` are done
  have hloop : Searching.Holds (fun s => s.After a.size b.size (half + 2) half)
      (Inside a.size b.size) ((List.range (half + 1)).foldlM (Search.step a b) start) := by
    refine Searching.holds_range (P := fun done s => match done with
      | 0 => s = start
      | d + 1 => s.After a.size b.size (half + 2) d) (half + 1) (fun d hd s hs => ?_) rfl
    cases d with
    | zero =>
      subst hs
      exact Search.after_first ha hb hfirst hlast (by omega)
    | succ d => exact Search.After.step hs ha hb hfirst (by omega)
  unfold meeting?
  dsimp only
  cases hresult : (List.range (half + 1)).foldlM (Search.step a b) start with
  | error point =>
    rw [hresult] at hloop
    exact ⟨point, rfl, hloop⟩
  | ok s =>
    rw [hresult] at hloop
    have hlt := hloop.lt ha hb
    omega

end Meeting

/-! ## Lists that are cut -/

section Cut

variable {α : Type} [DecidableEq α]

theorem splitCommon_differ (xs ys : List α) (hx : (splitCommon xs ys).2.1 ≠ [])
    (hy : (splitCommon xs ys).2.2 ≠ []) :
    (splitCommon xs ys).2.1.head? ≠ (splitCommon xs ys).2.2.head? := by
  fun_induction splitCommon xs ys with
  | case1 x xs ys front a b h ih =>
    rw [h] at ih
    exact ih hx hy
  | case2 x xs y ys hne => simpa using hne
  | case3 xs ys hnone =>
    obtain ⟨x, xs, rfl⟩ := List.exists_cons_of_ne_nil hx
    obtain ⟨y, ys, rfl⟩ := List.exists_cons_of_ne_nil hy
    exact absurd rfl (hnone x xs y ys rfl)

/-- What remains of two lists shares no front and no end, if there is something of both. -/
theorem trimCommon_differ {a b : List α} (hold : (trimCommon a b).old ≠ [])
    (hnew : (trimCommon a b).new ≠ []) :
    (trimCommon a b).old.head? ≠ (trimCommon a b).new.head? ∧
      (trimCommon a b).old.getLast? ≠ (trimCommon a b).new.getLast? := by
  unfold trimCommon at hold hnew ⊢
  dsimp only at hold hnew ⊢
  obtain ⟨hxs, hys⟩ := splitCommonEnd_eq (splitCommon a b).2.1 (splitCommon a b).2.2
  constructor
  · -- the fronts are those from before the common end was taken off
    have hx := (congrArg List.head? hxs).trans (List.head?_append_of_ne_nil _ hold)
    have hy := (congrArg List.head? hys).trans (List.head?_append_of_ne_nil _ hnew)
    rw [← hx, ← hy]
    refine splitCommon_differ a b (fun hnone => hold ?_) (fun hnone => hnew ?_)
    · exact (List.append_eq_nil_iff.mp (hxs.symm.trans hnone)).1
    · exact (List.append_eq_nil_iff.mp (hys.symm.trans hnone)).1
  · simp only [splitCommonEnd, ne_eq, List.reverse_eq_nil_iff] at hold hnew
    simp only [splitCommonEnd, List.getLast?_reverse]
    exact splitCommon_differ _ _ hold hnew

/-- **Lists that differ at their fronts and ends are cut where the searches meet.** -/
theorem cutPoint?_eq_meeting? {a b : List α} (ha : a ≠ []) (hb : b ≠ [])
    (hfirst : a.head? ≠ b.head?) (hlast : a.getLast? ≠ b.getLast?) :
    ∃ point, meeting? a.toArray b.toArray = some point ∧ Inside a.length b.length point ∧
      cutPoint? a b = some point := by
  obtain ⟨⟨x, y⟩, hmeeting, hinside⟩ := meeting?_inside (a := a.toArray) (b := b.toArray)
    (by simpa [List.length_pos_iff] using ha) (by simpa [List.length_pos_iff] using hb)
    (by simpa [List.head?_eq_getElem?] using hfirst) (by simpa using hlast)
  obtain ⟨hleft, habove, hfront, hback⟩ := hinside
  simp only [List.size_toArray] at hleft habove hfront hback
  refine ⟨(x, y), hmeeting, ⟨hleft, habove, hfront, hback⟩, ?_⟩
  -- so the test that guards the recursion does not fail
  have hsmaller : (a.take x).length + (b.take y).length < a.length + b.length ∧
      (a.drop x).length + (b.drop y).length < a.length + b.length := by
    simp only [List.length_take, List.length_drop]
    omega
  rw [cutPoint?, hmeeting]
  exact if_pos hsmaller

/--
**No script is found by giving up.** What two lists do not share at their fronts and ends is cut at
a point in the grid where the searches meet, which is no corner of it.
-/
theorem search_cut {a b : List α} (hold : (trimCommon a b).old ≠ [])
    (hnew : (trimCommon a b).new ≠ []) :
    ∃ x y, meeting? (trimCommon a b).old.toArray (trimCommon a b).new.toArray = some (x, y) ∧
      Inside (trimCommon a b).old.length (trimCommon a b).new.length (x, y) ∧
      search a b = (trimCommon a b).around
        (search ((trimCommon a b).old.take x) ((trimCommon a b).new.take y) ++
          search ((trimCommon a b).old.drop x) ((trimCommon a b).new.drop y)) := by
  obtain ⟨hfirst, hlast⟩ := trimCommon_differ hold hnew
  obtain ⟨⟨x, y⟩, hmeeting, hinside, hcut⟩ := cutPoint?_eq_meeting? hold hnew hfirst hlast
  refine ⟨x, y, hmeeting, hinside, ?_⟩
  rw [search, if_neg hold, if_neg hnew]
  split
  · rename_i hnone
    cases hcut.symm.trans hnone
  · rename_i hsome
    cases hcut.symm.trans hsome
    rfl

end Cut

end Nftables.LineDiff
