import Nftables.LineDiff.Search

/-!
# How far the searches come

The frontier of a search is swept once in each step. A search that has made `d` steps stands at
least `d` moves from its corner. It may leave the grid of the two lists, but what is out there is
one move ahead of the diagonal next to it; so as long as the two searches have not met, none of them
starts outside of the grid on the diagonals that they share.

A frontier keeps, for each diagonal `k`, the furthest `x` that was reached on it; the point is `(x,
x - k)`. Step `d` advances the diagonals `d, d - 2, …, -d`, each from its neighbours, which belong
to step `d - 1`: so one array serves all steps, and a sweep can be said in terms of the frontier
that it started from (`Swept`, `holds_sweep`).

Nothing in the search keeps a point inside of the grid: a move to the right is taken at the right
border too. `Frontier.Reached` is what holds instead, with its two clauses on what is outside. With
`Frontier.Clear`, that the two searches have not met so far, it gives `start_inside`: on the
diagonals where they might meet next, a run starts inside of the grid and in none of its corners.
The module on where the searches meet takes it from there.
-/

namespace Nftables.LineDiff

/-! ## Loops that may end in a point -/

namespace Searching

variable {σ τ : Type} {P : σ → Prop} {Q : Nat × Nat → Prop}

/-- The search goes on in a state as `P` says, or ends in a point as `Q` says. -/
def Holds (P : σ → Prop) (Q : Nat × Nat → Prop) : Searching σ → Prop
  | .ok s => P s
  | .error point => Q point

theorem Holds.imp {P' : σ → Prop} {x : Searching σ} (h : Holds P Q x) (hp : ∀ s, P s → P' s) :
    Holds P' Q x := by
  cases x with
  | ok s => exact hp s h
  | error point => exact h

theorem Holds.bind {P' : τ → Prop} {x : Searching σ} {f : σ → Searching τ} (h : Holds P Q x)
    (hf : ∀ s, P s → Holds P' Q (f s)) : Holds P' Q (x >>= f) := by
  cases x with
  | ok s => exact hf s h
  | error point => exact h

theorem holds_range {P : Nat → σ → Prop} {f : σ → Nat → Searching σ} {s : σ} (n : Nat)
    (hstep : ∀ i < n, ∀ s, P i s → Holds (P (i + 1)) Q (f s i)) (h : P 0 s) :
    Holds (P n) Q ((List.range n).foldlM f s) := by
  induction n with
  | zero => exact h
  | succ n ih =>
    rw [List.range_succ, List.foldlM_append]
    -- the last round comes after the others
    refine (ih fun i hi => hstep i (Nat.lt_succ_of_lt hi)).bind fun s hs => ?_
    exact (hstep n (Nat.lt_succ_self n) s hs).bind fun s hs => hs

theorem holds_diagonals {P : Nat → σ → Prop} {f : σ → Int → Searching σ} {s : σ} (d : Nat)
    (hstep : ∀ i ≤ d, ∀ s, P i s → Holds (P (i + 1)) Q (f s (d - 2 * i))) (h : P 0 s) :
    Holds (P (d + 1)) Q ((diagonals d).foldlM f s) := by
  rw [diagonals, List.foldlM_map]
  exact holds_range (d + 1) (fun i hi => hstep i (Nat.le_of_lt_succ hi)) h

end Searching

theorem forall_diagonals {d : Nat} {C : Int → Prop} :
    (∀ k ∈ diagonals d, C k) ↔ ∀ i < d + 1, C (d - 2 * i) := by
  simp [diagonals]

theorem mem_diagonals {d : Nat} {k : Int} :
    k ∈ diagonals d ↔ -(d : Int) ≤ k ∧ k ≤ d ∧ ((d : Int) - k) % 2 = 0 := by
  simp only [diagonals, List.mem_map, List.mem_range]
  constructor
  · rintro ⟨i, hi, rfl⟩
    omega
  · rintro ⟨hlow, hhigh, heven⟩
    exact ⟨((d - k) / 2).toNat, by omega, by omega⟩

theorem eq_zero_of_mem_diagonals {k : Int} (hk : k ∈ diagonals 0) : k = 0 := by
  obtain ⟨hlow, hhigh, -⟩ := mem_diagonals.mp hk
  omega

/-! ## Sweeping the diagonals of a step -/

namespace Frontier

/-- There is a place for every diagonal up to `reach`. -/
structure Sized (reach : Nat) (f : Frontier) : Prop where
  wide : f.reach = reach
  size : f.points.size = 2 * reach + 1

variable {f f₀ : Frontier} {reach d i : Nat} {k k' x : Int} {run : Int → Int → Int}

theorem sized_empty (reach : Nat) : (empty reach).Sized reach :=
  ⟨rfl, Array.size_replicate⟩

theorem get_empty (reach : Nat) (k : Int) : (empty reach).get k = 0 := by
  simp only [get, empty, Array.getD_eq_getD_getElem?, Array.getElem?_replicate]
  split <;> rfl

theorem Sized.set (hf : f.Sized reach) (k x : Int) : (f.set k x).Sized reach :=
  ⟨hf.wide, by rw [Frontier.set, Array.size_setIfInBounds, hf.size]⟩

theorem Sized.get_set (hf : f.Sized reach) (hk : k.natAbs ≤ reach) (hk' : k'.natAbs ≤ reach) :
    (f.set k x).get k' = if k' = k then x else f.get k' := by
  have hsize := hf.size
  have hwide := hf.wide
  simp only [get, Frontier.set, Array.getD_eq_getD_getElem?, Array.getElem?_setIfInBounds]
  by_cases h : k' = k
  · subst h
    rw [if_pos rfl, if_pos rfl, if_pos (by omega)]
    rfl
  -- two diagonals within reach have two places
  · rw [if_neg h, if_neg (by omega)]

/-- How far step `d` comes on diagonal `k`: to the end of the run from where it starts. -/
def advance (run : Int → Int → Int) (f : Frontier) (d k : Int) : Int :=
  f.start d k + run (f.start d k) (f.start d k - k)

/-- The first `i` diagonals of step `d` are advanced, and those between them are as before. -/
structure Swept (run : Int → Int → Int) (f₀ : Frontier) (reach d i : Nat) (f : Frontier) :
    Prop where
  sized : f.Sized reach
  between : ∀ k : Int, k.natAbs ≤ reach → (d - k) % 2 ≠ 0 → f.get k = f₀.get k
  swept : ∀ j < i, f.get (d - 2 * j) = advance run f₀ d (d - 2 * j)

theorem swept_zero (h : f₀.Sized reach) : Swept run f₀ reach d 0 f₀ :=
  ⟨h, fun _ _ _ => rfl, nofun⟩

/-- A step starts from the diagonals between its own. -/
theorem Swept.start (h : Swept run f₀ reach d i f) (hd : d < reach) (hi : i ≤ d) :
    f.start d (d - 2 * i) = f₀.start d (d - 2 * i) := by
  have hbelow := h.between (d - 2 * i - 1) (by omega) (by omega)
  have habove := h.between (d - 2 * i + 1) (by omega) (by omega)
  simp only [Frontier.start, hbelow, habove]

theorem Swept.set (h : Swept run f₀ reach d i f) (hd : d < reach) (hi : i ≤ d) :
    Swept run f₀ reach d (i + 1) (f.set (d - 2 * i) (advance run f₀ d (d - 2 * i))) where
  sized := h.sized.set _ _
  between k hk hodd := by
    -- the diagonal that is set is of the other parity
    rw [h.sized.get_set (by omega) hk, if_neg (by omega), h.between k hk hodd]
  swept j hj := by
    rw [h.sized.get_set (by omega) (by omega)]
    split
    · rename_i heq
      rw [heq]
    · exact h.swept j (by omega)

theorem Swept.get (h : Swept run f₀ reach d (d + 1) f) :
    ∀ k ∈ diagonals d, f.get k = advance run f₀ d k :=
  forall_diagonals.mpr h.swept

end Frontier

/--
**What one sweep does.** `view` is the frontier that is swept, and the other one stays the same. A
diagonal on which the search goes on is advanced, and `C` holds of it.
-/
theorem holds_sweep (view other : Search → Frontier) {g : Search → Int → Searching Search}
    {run : Int → Int → Int} {C : Int → Prop} {Q : Nat × Nat → Prop} {reach d : Nat} {s : Search}
    (hd : d < reach) (hsized : (view s).Sized reach)
    (hg : ∀ k ∈ diagonals d, ∀ s', other s' = other s →
      (view s').start d k = (view s).start d k →
      Searching.Holds (fun s'' => view s'' = (view s').set k ((view s).advance run d k) ∧
        other s'' = other s ∧ C k) Q (g s' k)) :
    Searching.Holds (fun s' => Frontier.Swept run (view s) reach d (d + 1) (view s') ∧
      other s' = other s ∧ ∀ k ∈ diagonals d, C k) Q ((diagonals d).foldlM g s) := by
  have hloop : Searching.Holds (fun s' => Frontier.Swept run (view s) reach d (d + 1) (view s') ∧
      other s' = other s ∧ ∀ i < d + 1, C (d - 2 * i)) Q ((diagonals d).foldlM g s) := by
    refine Searching.holds_diagonals (P := fun i s' =>
      Frontier.Swept run (view s) reach d i (view s') ∧ other s' = other s ∧
        ∀ j < i, C (d - 2 * j)) d (fun i hi s' hs' => ?_)
      ⟨Frontier.swept_zero hsized, rfl, nofun⟩
    obtain ⟨hswept, hother, hC⟩ := hs'
    -- the diagonals that are done are none of those that the next one starts from
    refine (hg (d - 2 * i) (mem_diagonals.mpr (by omega)) s' hother (hswept.start hd hi)).imp
      fun s'' hs'' => ?_
    obtain ⟨hview, hother', hnext⟩ := hs''
    refine ⟨hview ▸ hswept.set hd hi, hother', fun j hj => ?_⟩
    rcases Nat.lt_succ_iff_lt_or_eq.mp hj with hj | rfl
    · exact hC j hj
    · exact hnext
  exact hloop.imp fun s' hs' => ⟨hs'.1, hs'.2.1, forall_diagonals.mpr hs'.2.2⟩

/-! ## How far a search has come -/

/-- The diagonals that lead to one of the next step are those on either side of it. -/
theorem Frontier.start_cases (f : Frontier) {d : Nat} {k : Int} (hk : k ∈ diagonals (d + 1)) :
    (k - 1 ∈ diagonals d ∧ f.start ((d + 1 : Nat) : Int) k = f.get (k - 1) + 1 ∧
        (k + 1 ∈ diagonals d → f.get (k + 1) ≤ f.get (k - 1))) ∨
      (k + 1 ∈ diagonals d ∧ f.start ((d + 1 : Nat) : Int) k = f.get (k + 1) ∧
        (k - 1 ∈ diagonals d → f.get (k - 1) < f.get (k + 1))) := by
  simp only [mem_diagonals] at hk ⊢
  unfold start
  split <;> omega

/-- From a diagonal, one move down leads to the one before it, and one to the right to the next. -/
theorem Frontier.le_start (f : Frontier) {d : Nat} {k k' : Int} (hk : k ∈ diagonals d)
    (hk' : k' ∈ diagonals (d + 1)) :
    (k' = k - 1 → f.get k ≤ f.start ((d + 1 : Nat) : Int) k') ∧
      (k' = k + 1 → f.get k + 1 ≤ f.start ((d + 1 : Nat) : Int) k') := by
  constructor
  · rintro rfl
    have hcases := f.start_cases hk'
    rw [Int.sub_add_cancel] at hcases
    rcases hcases with ⟨-, hstart, hle⟩ | ⟨-, hstart, -⟩
    · have hle := hle hk
      omega
    · exact Int.le_of_eq hstart.symm
  · rintro rfl
    have hcases := f.start_cases hk'
    rw [Int.add_sub_cancel] at hcases
    rcases hcases with ⟨-, hstart, -⟩ | ⟨-, hstart, hlt⟩
    · exact Int.le_of_eq hstart.symm
    · have hlt := hlt hk
      omega

/-- A run between equal items, from a point on: it ends in the grid of `n` and `m`. -/
structure RunsInside (n m : Int) (run : Int → Int → Int) : Prop where
  nonneg : ∀ x y, 0 ≤ run x y
  inside : ∀ x y, run x y ≠ 0 → x + run x y ≤ n ∧ y + run x y ≤ m

/--
How far a search has come in step `d`, in a grid of `n` and `m`. Each step is a move, so it is at
least `d` moves from its corner. What is outside of the grid to the right or below is one move ahead
of the next diagonal on that side.
-/
structure Frontier.Reached (n m : Int) (d : Nat) (f : Frontier) : Prop where
  moves : ∀ k ∈ diagonals d, 0 ≤ f.get k ∧ k ≤ f.get k ∧ d ≤ 2 * f.get k - k
  right : ∀ k ∈ diagonals d, n < f.get k → k - 2 ∈ diagonals d ∧ f.get k ≤ f.get (k - 2) + 1
  below : ∀ k ∈ diagonals d, m < f.get k - k →
    k + 2 ∈ diagonals d ∧ f.get k + 1 ≤ f.get (k + 2)
  corner : d = 0 → f.get 0 = 0

namespace Frontier

variable {f f' : Frontier} {n m : Int} {d : Nat} {run : Int → Int → Int}

theorem le_advance (hrun : RunsInside n m run) (f : Frontier) (d k : Int) :
    f.start d k ≤ advance run f d k := by
  have hnonneg := hrun.nonneg (f.start d k) (f.start d k - k)
  unfold advance
  omega

/-- A search that is outside of the grid has not run. -/
theorem advance_outside (hrun : RunsInside n m run) {f : Frontier} {d k : Int}
    (h : n < advance run f d k ∨ m < advance run f d k - k) :
    advance run f d k = f.start d k := by
  have hinside := hrun.inside (f.start d k) (f.start d k - k)
  unfold advance at h ⊢
  omega

theorem reached_zero (hn : 0 ≤ n) (hm : 0 ≤ m) (h : f.get 0 = 0) : f.Reached n m 0 := by
  refine ⟨fun k hk => ?_, fun k hk hright => ?_, fun k hk hbelow => ?_, fun _ => h⟩
  all_goals
    obtain rfl := eq_zero_of_mem_diagonals hk
    omega

/-- **What holds of a search in one step holds of it in the next.** -/
theorem Reached.advance (h : f.Reached n m d) (hrun : RunsInside n m run)
    (hf : ∀ k ∈ diagonals (d + 1), f'.get k = advance run f ((d + 1 : Nat) : Int) k) :
    f'.Reached n m (d + 1) where
  moves k hk := by
    have hle := le_advance hrun f ((d + 1 : Nat) : Int) k
    rw [hf k hk]
    rcases f.start_cases hk with ⟨hfrom, hstart, -⟩ | ⟨hfrom, hstart, -⟩
    · have hmoves := h.moves (k - 1) hfrom
      omega
    · have hmoves := h.moves (k + 1) hfrom
      omega
  right k hk hout := by
    rw [hf k hk] at hout ⊢
    have hstart := advance_outside hrun (.inl hout)
    rw [hstart] at hout ⊢
    -- in both cases it is the diagonal before that is one move behind
    have hbehind : k - 1 ∈ diagonals d ∧ f.start ((d + 1 : Nat) : Int) k ≤ f.get (k - 1) + 1 := by
      rcases f.start_cases hk with ⟨hfrom, hstart, -⟩ | ⟨hfrom, hstart, -⟩
      · exact ⟨hfrom, Int.le_of_eq hstart⟩
      · obtain ⟨hmem, hget⟩ := h.right (k + 1) hfrom (by omega)
        rw [show k + 1 - 2 = k - 1 by omega] at hmem hget
        exact ⟨hmem, by omega⟩
    have hmem : k - 2 ∈ diagonals (d + 1) := by
      have hlow := mem_diagonals.mp hbehind.1
      exact mem_diagonals.mpr (by omega)
    -- from there, one move down leads to the diagonal in question
    have hdown := (f.le_start hbehind.1 hmem).1 (by omega)
    have hle := le_advance hrun f ((d + 1 : Nat) : Int) (k - 2)
    rw [hf _ hmem]
    exact ⟨hmem, by omega⟩
  below k hk hout := by
    rw [hf k hk] at hout ⊢
    have hstart := advance_outside hrun (.inr hout)
    rw [hstart] at hout ⊢
    have hahead : k + 1 ∈ diagonals d ∧ f.start ((d + 1 : Nat) : Int) k = f.get (k + 1) := by
      rcases f.start_cases hk with ⟨hfrom, hstart, hno⟩ | ⟨hfrom, hstart, -⟩
      · -- below the grid, the move from above comes further than the one to the right
        obtain ⟨hmem, hget⟩ := h.below (k - 1) hfrom (by omega)
        rw [show k - 1 + 2 = k + 1 by omega] at hmem hget
        have hle := hno hmem
        omega
      · exact ⟨hfrom, hstart⟩
    have hmem : k + 2 ∈ diagonals (d + 1) := by
      have hhigh := mem_diagonals.mp hahead.1
      exact mem_diagonals.mpr (by omega)
    -- from there, one move to the right leads to the diagonal in question
    have hright := (f.le_start hahead.1 hmem).2 (by omega)
    have hle := le_advance hrun f ((d + 1 : Nat) : Int) (k + 2)
    rw [hf _ hmem]
    exact ⟨hmem, by omega⟩
  corner := nofun

end Frontier

/-! ## Where the searches have not met -/

/--
In step `d` the search has not come as far as the other one, which has made `r` steps, on the
diagonals that the two share.
-/
def Frontier.Clear (n m r : Int) (d : Nat) (f : Frontier) : Prop :=
  ∀ k ∈ diagonals d, n - m - r ≤ k → k ≤ n - m + r →
    f.get k < n ∧ f.get k - k < m ∧ 2 * f.get k - k + r ≤ n + m - 2

section Clear

variable {f g : Frontier} {n m r : Int} {d e : Nat} {k x : Int}

/-- Two searches that come to less than the whole together have not met. -/
theorem Frontier.Reached.clear (h : g.Reached n m e) (hk : n - m - k ∈ diagonals e)
    (hx : x + g.get (n - m - k) < n) : x < n ∧ x - k < m ∧ 2 * x - k + e ≤ n + m - 2 := by
  have hmoves := h.moves _ hk
  omega

/-- Next to the diagonals that they share, a search may stand on the border of the grid. -/
theorem Frontier.Reached.near (h : f.Reached n m d) (hclear : f.Clear n m r d) (hr : d - 1 ≤ r)
    (hparity : (d - (n - m) - r) % 2 = 0) (hk : k ∈ diagonals d) (hlow : n - m - r - 2 ≤ k)
    (hhigh : k ≤ n - m + r + 2) :
    f.get k ≤ n ∧ f.get k - k ≤ m ∧ (k ≤ n - m + r → f.get k < n) ∧
      (n - m - r ≤ k → f.get k - k < m) := by
  have hmem := mem_diagonals.mp hk
  -- what is outside of the grid is one move ahead of a shared diagonal, which is clear
  have hright : n < f.get k → k ≠ n - m + r + 2 := by
    rintro hout rfl
    obtain ⟨hnext, hget⟩ := h.right _ hk hout
    have hinner := hclear _ hnext
    have hwide := mem_diagonals.mp hnext
    omega
  have hbelow : m < f.get k - k → k ≠ n - m - r - 2 := by
    rintro hout rfl
    obtain ⟨hnext, hget⟩ := h.below _ hk hout
    have hinner := hclear _ hnext
    have hwide := mem_diagonals.mp hnext
    omega
  -- else it is a shared diagonal, or within the grid
  have hinner := hclear k hk
  omega

/--
**In the next step, no search starts outside of the grid or in a corner** on the diagonals that the
two share then.
-/
theorem Frontier.Reached.start_inside (h : f.Reached n m d) (hclear : f.Clear n m r d)
    (hn : 0 < n) (hm : 0 < m) (hr : d - 1 ≤ r) (hparity : (d - (n - m) - r) % 2 = 0)
    (hk : k ∈ diagonals (d + 1)) (hlow : n - m - r - 1 ≤ k) (hhigh : k ≤ n - m + r + 1) :
    let x := f.start ((d + 1 : Nat) : Int) k
    0 ≤ x ∧ k ≤ x ∧ x ≤ n ∧ x - k ≤ m ∧ 0 < 2 * x - k ∧ 2 * x - k < n + m := by
  intro x
  -- the first step starts from the corner, where no moves keep it from the end
  have hcorner : ∀ k' ∈ diagonals d, d = 0 → f.get k' = 0 := by
    rintro k' hk' rfl
    rw [eq_zero_of_mem_diagonals hk', h.corner rfl]
  rcases f.start_cases hk with ⟨hfrom, hstart, -⟩ | ⟨hfrom, hstart, -⟩
  · have hmoves := h.moves _ hfrom
    have hborder := h.near hclear hr hparity hfrom (by omega) (by omega)
    have hzero := hcorner _ hfrom
    have hmem := mem_diagonals.mp hfrom
    omega
  · have hmoves := h.moves _ hfrom
    have hborder := h.near hclear hr hparity hfrom (by omega) (by omega)
    have hzero := hcorner _ hfrom
    have hmem := mem_diagonals.mp hfrom
    omega

end Clear

end Nftables.LineDiff
