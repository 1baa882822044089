import Mathlib.Data.Finset.Card
import Mathlib.Data.Nat.ModEq
import Mathlib.Logic.Function.Iterate

/-! Stepping through a table by an increment, in a machine word.

A step adds the increment modulo the word size `M` and then reduces modulo the number `L`
of slots. Where a sum wraps, the slot after it is `M % L` off, and two slots may step to
one: `y`, whose sum does not wrap, and `y + M % L`, whose sum does. A walk comes back to
its first slot exactly if it does not meet two such slots, and then it does so within `L`
steps. If no sum wraps, or if `L` divides `M`, no walk meets two. -/
namespace WrapStep

variable {M L inc : Nat}

/-- The slot after `x`. -/
def step (M L inc x : Nat) : Nat := (x + inc) % M % L

theorem step_lt (hL : 0 < L) (x : Nat) : step M L inc x < L := Nat.mod_lt _ hL

/-- The slots of the walk from `first`. -/
def walk (M L inc first n : Nat) : Nat := (step M L inc)^[n] first

theorem walk_succ (first n : Nat) :
    walk M L inc first (n + 1) = step M L inc (walk M L inc first n) :=
  Function.iterate_succ_apply' ..

theorem walk_lt {first : Nat} (hfirst : first < L) (n : Nat) : walk M L inc first n < L := by
  cases n with
  | zero => exact hfirst
  | succ n =>
    rw [walk_succ]
    exact step_lt (Nat.zero_lt_of_lt hfirst) _

/-! ### Two slots that step to one -/

/-- The sum wraps for `x` and not for `y`, and `x` is as much further as that takes away. -/
def Merge (M L inc x y : Nat) : Prop := x = y + M % L ∧ y + inc < M ∧ M ≤ x + inc

instance (x y : Nat) : Decidable (Merge M L inc x y) := inferInstanceAs (Decidable (_ ∧ _ ∧ _))

theorem Merge.ne {x y : Nat} (h : Merge M L inc x y) : x ≠ y := by
  obtain ⟨-, hy, hx⟩ := h
  omega

/-- A sum that wraps is below the number of slots. -/
theorem step_of_wrap {x : Nat} (hinc : inc < M) (hLM : L ≤ M) (hx : x < L) (hwrap : M ≤ x + inc) :
    step M L inc x = x + inc - M := by
  have hword : (x + inc - M) % M = x + inc - M := Nat.mod_eq_of_lt (by omega)
  rw [step, Nat.mod_eq_sub_mod hwrap, hword, Nat.mod_eq_of_lt (by omega)]

theorem step_of_lt {x : Nat} (hsum : x + inc < M) : step M L inc x = (x + inc) % L := by
  rw [step, Nat.mod_eq_of_lt hsum]

theorem Merge.step_eq {x y : Nat} (h : Merge M L inc x y) (hinc : inc < M) (hLM : L ≤ M)
    (hx : x < L) : step M L inc x = step M L inc y := by
  obtain ⟨rfl, hy, hwrap⟩ := h
  have hM : M = L * (M / L) + M % L := (Nat.div_add_mod M L).symm
  have hsum : y + inc = y + M % L + inc - M + L * (M / L) := by omega
  have hlt : y + M % L + inc - M < L := by omega
  rw [step_of_wrap hinc hLM hx hwrap, step_of_lt hy, hsum, Nat.add_mul_mod_self_left,
    Nat.mod_eq_of_lt hlt]

/-- And only such slots do. -/
theorem merge_of_step_eq {x y : Nat} (hinc : inc < M) (hLM : L ≤ M) (hx : x < L) (hy : y < L)
    (hne : x ≠ y) (h : step M L inc x = step M L inc y) :
    Merge M L inc x y ∨ Merge M L inc y x := by
  have hwrapped : ∀ a b, a < L → b < L → M ≤ a + inc → b + inc < M →
      step M L inc a = step M L inc b → Merge M L inc a b := by
    intro a b ha hb hwrap hsum heq
    rw [step_of_wrap hinc hLM ha hwrap, step_of_lt hsum] at heq
    -- both sides are the residue of `b + inc`, so `a` is that of `b + M`
    have hmod : a ≡ b + M [MOD L] := by
      have hres : (a + inc - M) % L = (b + inc) % L := by rw [heq, Nat.mod_mod]
      have hshift : a + inc ≡ b + M + inc [MOD L] := by
        have hadd : a + inc - M + M ≡ b + inc + M [MOD L] := Nat.ModEq.add_right M hres
        rwa [Nat.sub_add_cancel hwrap, Nat.add_right_comm] at hadd
      exact Nat.ModEq.add_right_cancel' inc hshift
    have ha' : a = (b + M % L) % L := by
      rw [Nat.add_mod_mod, ← hmod, Nat.mod_eq_of_lt ha]
    have hr := Nat.mod_lt M (Nat.zero_lt_of_lt ha)
    refine ⟨?_, hsum, hwrap⟩
    by_cases hover : b + M % L < L
    · rwa [Nat.mod_eq_of_lt hover] at ha'
    · rw [Nat.mod_eq_sub_mod (by omega), Nat.mod_eq_of_lt (by omega)] at ha'
      omega
  by_cases hxw : M ≤ x + inc
  · by_cases hyw : M ≤ y + inc
    · rw [step_of_wrap hinc hLM hx hxw, step_of_wrap hinc hLM hy hyw] at h
      omega
    · exact .inl (hwrapped x y hx hy hxw (by omega) h)
  · by_cases hyw : M ≤ y + inc
    · exact .inr (hwrapped y x hy hx hyw (by omega) h.symm)
    · rw [step_of_lt (by omega), step_of_lt (by omega)] at h
      have hmod : x ≡ y [MOD L] := Nat.ModEq.add_right_cancel' inc h
      exact absurd (hmod.eq_of_lt_of_lt hx hy) hne

/-! ### Walks that come back -/

/-- No two slots of the walk step to one. -/
def Separate (M L inc first : Nat) : Prop :=
  ∀ i < L, ∀ j < L, ¬ Merge M L inc (walk M L inc first i) (walk M L inc first j)

instance (first : Nat) : Decidable (Separate M L inc first) :=
  inferInstanceAs (Decidable (∀ i < L, ∀ j < L, ¬ _))

/-- If no sum wraps the walk is separate, and if the number of slots divides the word size. -/
theorem separate_of_rotates {first : Nat} (hfirst : first < L) (h : inc + L ≤ M ∨ L ∣ M) :
    Separate M L inc first := by
  rintro i - j - ⟨heq, hsum, hwrap⟩
  have hi : walk M L inc first i < L := walk_lt hfirst i
  rcases h with hle | hdvd
  · omega
  · rw [Nat.mod_eq_zero_of_dvd hdvd] at heq
    omega

/-- A walk meets one slot twice within its first `L + 1`. -/
theorem exists_repeat {first : Nat} (hfirst : first < L) :
    ∃ i j, i < j ∧ j ≤ L ∧ walk M L inc first i = walk M L inc first j := by
  have hmaps : ∀ i ∈ Finset.range (L + 1), walk M L inc first i ∈ Finset.range L :=
    fun i _ => Finset.mem_range.mpr (walk_lt hfirst i)
  obtain ⟨i, hi, j, hj, hne, heq⟩ :=
    Finset.exists_ne_map_eq_of_card_lt_of_maps_to (by simp) hmaps
  rw [Finset.mem_range] at hi hj
  rcases Nat.lt_or_gt_of_ne hne with hlt | hlt
  · exact ⟨i, j, hlt, by omega, heq⟩
  · exact ⟨j, i, hlt, by omega, heq.symm⟩

/-- Before a repeated slot of a separate walk there is another, down to the first. -/
theorem Separate.returns {first : Nat} (h : Separate M L inc first) (hinc : inc < M) (hLM : L ≤ M)
    (hfirst : first < L) : ∃ n, 0 < n ∧ n ≤ L ∧ walk M L inc first n = first := by
  obtain ⟨i, j, hij, hj, heq⟩ := exists_repeat hfirst
  induction i generalizing j with
  | zero => exact ⟨j, hij, hj, heq.symm⟩
  | succ i ih =>
    obtain ⟨j, rfl⟩ := Nat.exists_eq_succ_of_ne_zero (Nat.ne_zero_of_lt hij)
    refine ih j (by omega) (by omega) ?_
    by_contra hne
    rw [walk_succ, walk_succ] at heq
    rcases merge_of_step_eq hinc hLM (walk_lt hfirst i) (walk_lt hfirst j) hne heq with hm | hm
    · exact h i (by omega) j (by omega) hm
    · exact h j (by omega) i (by omega) hm

/-- In a walk that comes back, what follows a slot determines it. -/
theorem walk_eq_of_succ {first n : Nat} (hn : 0 < n) (hreturns : walk M L inc first n = first)
    {i j : Nat} (heq : walk M L inc first (i + 1) = walk M L inc first (j + 1)) :
    walk M L inc first i = walk M L inc first j := by
  have hround : ∀ k, (step M L inc)^[n - 1] (walk M L inc first (k + 1)) = walk M L inc first k := by
    intro k
    rw [walk, ← Function.iterate_add_apply, show n - 1 + (k + 1) = k + n by omega,
      Function.iterate_add_apply]
    exact congrArg _ hreturns
  rw [← hround i, ← hround j, heq]

theorem separate_of_returns {first n : Nat} (hinc : inc < M) (hLM : L ≤ M) (hfirst : first < L)
    (hn : 0 < n) (hreturns : walk M L inc first n = first) : Separate M L inc first := by
  intro i _ j _ hm
  refine hm.ne (walk_eq_of_succ hn hreturns ?_)
  rw [walk_succ, walk_succ]
  exact hm.step_eq hinc hLM (walk_lt hfirst i)

end WrapStep
