import Mathlib.Data.Nat.Count
import Mathlib.Data.Int.CardIntervalMod

/-! A hand that goes round `n` places.

At position `q` the hand is at place `q % n`. What is counted down at every place the hand
comes to is down by `k` everywhere after `k` rounds (`Lowered.rounds`), wherever it started. -/
namespace HyperCache.Rounds

/-- How often the hand has been at place `j` before position `q`. -/
def visits (n j q : Nat) : Nat := Nat.count (fun m => m % n = j) q

variable {n j p q : Nat}

theorem visits_succ (n j q : Nat) : visits n j (q + 1) = visits n j q + if q % n = j then 1 else 0 :=
  Nat.count_succ _ q

theorem visits_mono (n j : Nat) (h : p ≤ q) : visits n j p ≤ visits n j q := Nat.count_monotone _ h

/-- A round comes to every place once. -/
theorem visits_round (hj : j < n) (q : Nat) : visits n j (q + n) = visits n j q + 1 := by
  have hmod : j % n = j := Nat.mod_eq_of_lt hj
  have hcount : ∀ m, visits n j m = m / n + if j < m % n then 1 else 0 := by
    intro m
    have heq := Nat.count_modEq_card m (Nat.zero_lt_of_lt hj) j
    simp only [Nat.ModEq, hmod] at heq
    exact heq
  rw [hcount, hcount, Nat.add_div_right q (Nat.zero_lt_of_lt hj), Nat.add_mod_right]
  omega

theorem visits_rounds (hj : j < n) (k q : Nat) : visits n j (q + k * n) = visits n j q + k := by
  induction k with
  | zero => rw [Nat.zero_mul, Nat.add_zero, Nat.add_zero]
  | succ k ih => rw [Nat.succ_mul, ← Nat.add_assoc, visits_round hj, ih, Nat.add_assoc]

/-- Every place is down by as often as the hand came to it between `p` and `q`. -/
def Lowered (n p q : Nat) (before after : Nat → Nat) : Prop :=
  ∀ j < n, after j ≤ before j - (visits n j q - visits n j p)

theorem Lowered.refl (n p : Nat) (level : Nat → Nat) : Lowered n p p level level := by
  intro j _
  rw [Nat.sub_self, Nat.sub_zero]

/-- The hand comes to one more place. -/
theorem Lowered.tick {before after next : Nat → Nat} (h : Lowered n p q before after) (hpq : p ≤ q)
    (hhere : next (q % n) ≤ after (q % n) - 1) (hother : ∀ j, j ≠ q % n → next j = after j) :
    Lowered n p (q + 1) before next := by
  intro j hj
  have hlevel := h j hj
  have hmono := visits_mono n j hpq
  rw [visits_succ]
  by_cases hplace : q % n = j
  · subst hplace
    rw [if_pos rfl]
    omega
  · rw [if_neg hplace, hother j (Ne.symm hplace)]
    exact hlevel

/-- **After `k` rounds every place is down by `k`.** -/
theorem Lowered.rounds {before after : Nat → Nat} (h : Lowered n p q before after) {k : Nat}
    (hq : p + k * n ≤ q) {j : Nat} (hj : j < n) : after j ≤ before j - k := by
  have hlevel := h j hj
  have hmono := visits_mono n j hq
  rw [visits_rounds hj] at hmono
  omega

end HyperCache.Rounds
