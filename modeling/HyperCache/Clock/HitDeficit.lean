import Mathlib.Algebra.BigOperators.Intervals
import Mathlib.Algebra.BigOperators.Ring.Finset
import Mathlib.Algebra.Order.BigOperators.Group.Finset
import Mathlib.Data.Multiset.Count
import Mathlib.Data.Nat.Find
import Mathlib.Tactic.Linarith
import Mathlib.Tactic.Ring

/-! A counter that is capped late.

A thread adds one to a counter; if that takes it over the cap it takes the whole
excess it saw off again, in a second step. Threads that add before an earlier excess
was taken off see it too, so together they take off more than was added.

Here `x` is how far the counter is above the cap and `D` the excesses that were seen
and not yet taken off. What the counter falls below the cap once all of them are is
`D.sum - x`, which a subtraction leaves as it is and an addition at `x ≥ 0` raises by
`x`. With at most 57 threads it never passes 2000 (`Levels.deficit`).

The bound comes from a count by levels: `σ y` is how many subtractions have passed
level `y` beyond those that the additions there account for. Taking an excess `d` off
passes the levels below `d`; an addition below the cap takes one back from the
highest level. Then the deficit is the sum over the levels of `high D y + σ y`, a level
moves only while the counter is above it (`Levels.level`), and being above it with
many threads still to subtract needs as many levels below (`Levels.crowd`). -/
namespace HitDeficit

/-- The excesses that end at or below level `y`. -/
def low (D : Multiset ℕ) (y : ℕ) : ℕ := D.countP (· ≤ y)

/-- The excesses that reach over level `y`. -/
def high (D : Multiset ℕ) (y : ℕ) : ℕ := D.countP (y < ·)

theorem low_add_high (D : Multiset ℕ) (y : ℕ) : low D y + high D y = D.card := by
  rw [low, high, D.card_eq_countP_add_countP (· ≤ y)]
  simp only [Nat.not_le]

theorem low_cons (d : ℕ) (D : Multiset ℕ) (y : ℕ) :
    low (d ::ₘ D) y = low D y + if d ≤ y then 1 else 0 := Multiset.countP_cons ..

theorem high_cons (d : ℕ) (D : Multiset ℕ) (y : ℕ) :
    high (d ::ₘ D) y = high D y + if y < d then 1 else 0 := Multiset.countP_cons ..

theorem low_mono (D : Multiset ℕ) {y z : ℕ} (h : z ≤ y) : low D z ≤ low D y := by
  rw [low, low, Multiset.countP_eq_card_filter, Multiset.countP_eq_card_filter]
  exact Multiset.card_le_card (Multiset.monotone_filter_right D fun d hd => hd.trans h)

/-- The sum of the excesses, level by level. -/
theorem sum_eq_high {N : ℕ} {D : Multiset ℕ} (h : ∀ d ∈ D, d ≤ N) :
    D.sum = ∑ y ∈ Finset.range N, high D y := by
  induction D using Multiset.induction with
  | empty => simp [high]
  | cons d D ih =>
    have hd : d ≤ N := h d (Multiset.mem_cons_self d D)
    have hone : ∑ y ∈ Finset.range N, (if y < d then 1 else 0) = d := by
      rw [← Finset.card_filter]
      have : (Finset.range N).filter (· < d) = Finset.range d := by
        ext y
        simp only [Finset.mem_filter, Finset.mem_range]
        omega
      rw [this, Finset.card_range]
    rw [Multiset.sum_cons, ih fun e he => h e (Multiset.mem_cons_of_mem he)]
    simp only [high_cons, Finset.sum_add_distrib, hone]
    exact Nat.add_comm ..

/-- How far level `y` is ahead of what the excesses below it explain. -/
def lead (σ : ℕ → ℕ) (D : Multiset ℕ) (y : ℕ) : ℤ := σ y + y - low D y

/-- The most that level `y` may hold. -/
def limit (y : ℕ) : ℕ := (57 - y) + Nat.findGreatest (fun k => k * (k - 1) ≤ 2 * (56 - y)) 10

/-- The count by levels of a counter `x` above its cap. -/
structure Levels (σ : ℕ → ℕ) (x : ℤ) (D : Multiset ℕ) : Prop where
  threads : D.card ≤ 57
  range : ∀ d ∈ D, 0 < d ∧ d ≤ 57
  bottom : σ 0 = 0
  top : ∀ y, 57 ≤ y → σ y = 0
  sum : ∑ y ∈ Finset.range 57, (σ y : ℤ) = D.card - x
  lead : ∀ z y : ℕ, 1 ≤ z → z < y → lead σ D y ≤ lead σ D z + max 0 (y - max (z : ℤ) (max x 0))
  level : ∀ y, 10 ≤ y → y < 57 → high D y + σ y ≤ limit y
  deficit : (D.sum : ℤ) - x ≤ 2000

/-- A counter that nobody has taken over its cap yet. -/
theorem Levels.start {x : ℤ} (h0 : x ≤ 0) (h1 : -2000 ≤ x) :
    Levels (fun y => if y = 1 then (-x).toNat else 0) x 0 where
  threads := by simp
  range := by simp
  bottom := by simp
  top y hy := by
    rw [if_neg (by omega)]
  sum := by
    simp only [Nat.cast_ite, Nat.cast_zero, Finset.sum_ite_eq', Finset.mem_range, Multiset.card_zero]
    rw [if_pos (by omega)]
    omega
  lead z y hz hy := by
    simp only [HitDeficit.lead, low, Multiset.countP_zero]
    rw [if_neg (show y ≠ 1 by omega)]
    split
    · omega
    · omega
  level y hy _ := by
    rw [if_neg (by omega)]
    simp [high]
  deficit := by
    simp only [Multiset.sum_zero, Nat.cast_zero]
    omega

section Steps
variable {σ : ℕ → ℕ} {x : ℤ} {D : Multiset ℕ}

/-- The counter is never further above its cap than there are threads to subtract. -/
theorem Levels.le_card (h : Levels σ x D) : x ≤ D.card := by
  have hsum := h.sum
  have hnonneg : 0 ≤ ∑ y ∈ Finset.range 57, (σ y : ℤ) := Finset.sum_nonneg fun y _ => by omega
  omega

/-- Nor is it further below than the deficit bound. -/
theorem Levels.ge (h : Levels σ x D) : -2000 ≤ x := by
  have := h.deficit
  omega

/-- The deficit is what the levels hold. -/
theorem Levels.deficit_eq (hrange : ∀ d ∈ D, 0 < d ∧ d ≤ 57) (hbottom : σ 0 = 0)
    (hsum : ∑ y ∈ Finset.range 57, (σ y : ℤ) = D.card - x) :
    (D.sum : ℤ) - x = ∑ y ∈ Finset.Ico 1 57, ((high D y + σ y : ℕ) : ℤ) := by
  have hhigh : D.sum = ∑ y ∈ Finset.range 57, high D y := sum_eq_high fun d hd => (hrange d hd).2
  have hzero : high D 0 = D.card := by
    rw [high, Multiset.countP_eq_card]
    exact fun d hd => (hrange d hd).1
  rw [Finset.range_eq_Ico, Finset.sum_eq_sum_Ico_succ_bot (by omega)] at hhigh hsum
  rw [hhigh, hzero]
  push_cast [Nat.cast_sum]
  rw [Finset.sum_add_distrib]
  rw [hbottom] at hsum
  push_cast at hsum
  linarith

/-- Taking an excess off passes one more time over each level below it. -/
theorem Levels.sub {d : ℕ} (h : Levels σ x (d ::ₘ D)) :
    Levels (fun y => σ y + if 1 ≤ y ∧ y < d then 1 else 0) (x - d) D := by
  have hd := h.range d (Multiset.mem_cons_self d D)
  have hlead : ∀ y, 1 ≤ y → HitDeficit.lead (fun y => σ y + if 1 ≤ y ∧ y < d then 1 else 0) D y =
      HitDeficit.lead σ (d ::ₘ D) y + 1 := by
    intro y hy
    simp only [HitDeficit.lead, low_cons]
    split <;> split <;> omega
  refine ⟨?_, fun e he => h.range e (Multiset.mem_cons_of_mem he), ?_, ?_, ?_, ?_, ?_, ?_⟩
  · have := h.threads
    rw [Multiset.card_cons] at this
    omega
  · simp [h.bottom]
  · intro y hy
    rw [h.top y hy, if_neg (by omega)]
  · have hcount : ∑ y ∈ Finset.range 57, (if 1 ≤ y ∧ y < d then (1 : ℤ) else 0) = d - 1 := by
      rw [← Finset.sum_filter, Finset.sum_const, nsmul_eq_mul, mul_one]
      have : (Finset.range 57).filter (fun y => 1 ≤ y ∧ y < d) = Finset.Ico 1 d := by
        ext y
        simp only [Finset.mem_filter, Finset.mem_range, Finset.mem_Ico]
        omega
      rw [this, Nat.card_Ico]
      omega
    have hsum := h.sum
    rw [Multiset.card_cons] at hsum
    push_cast at hsum ⊢
    rw [Finset.sum_add_distrib, hcount, hsum]
    omega
  · intro z y hz hy
    rw [hlead z hz, hlead y (by omega)]
    have := h.lead z y hz hy
    omega
  · intro y hy hy'
    have := h.level y hy hy'
    rw [high_cons] at this
    split at this <;> split <;> omega
  · have := h.deficit
    rw [Multiset.sum_cons, Nat.cast_add] at this
    omega

/-- An addition below the cap takes one subtraction back, from the highest level. -/
theorem Levels.addBelow (h : Levels σ x D) (hx : x < 0) : ∃ σ', Levels σ' (x + 1) D := by
  -- the highest level that holds a subtraction
  obtain ⟨y₀, hy₀, hpos, hmax⟩ : ∃ y₀, y₀ < 57 ∧ 0 < σ y₀ ∧ ∀ y, y₀ < y → σ y = 0 := by
    by_contra hnone
    have hzero : ∀ j, ∀ y, 57 - j ≤ y → σ y = 0 := by
      intro j
      induction j with
      | zero => exact fun y hy => h.top y (by omega)
      | succ j ih =>
        intro y hy
        by_contra hne
        refine hnone ⟨y, ?_, Nat.pos_of_ne_zero hne, fun z hz => ih z (by omega)⟩
        by_contra hge
        exact hne (h.top y (by omega))
    have hsum := h.sum
    rw [Finset.sum_eq_zero fun y _ => by rw [hzero 57 y (by omega)]; rfl] at hsum
    omega
  have hne : y₀ ≠ 0 := by
    rintro rfl
    exact absurd h.bottom (by omega)
  have hlead : ∀ y, HitDeficit.lead (fun y => if y = y₀ then σ y - 1 else σ y) D y =
      HitDeficit.lead σ D y - if y = y₀ then 1 else 0 := by
    intro y
    simp only [HitDeficit.lead]
    split
    · subst y
      omega
    · omega
  refine ⟨fun y => if y = y₀ then σ y - 1 else σ y, h.threads, h.range, ?_, ?_, ?_, ?_, ?_, ?_⟩
  · rw [if_neg (Ne.symm hne)]
    exact h.bottom
  · intro y hy
    rw [if_neg (by omega)]
    exact h.top y hy
  · have hone : ∑ y ∈ Finset.range 57, (if y = y₀ then (1 : ℤ) else 0) = 1 := by
      rw [Finset.sum_ite_eq', if_pos (Finset.mem_range.mpr hy₀)]
    have hsub : ∑ y ∈ Finset.range 57, ((if y = y₀ then σ y - 1 else σ y : ℕ) : ℤ) =
        ∑ y ∈ Finset.range 57, ((σ y : ℤ) - if y = y₀ then 1 else 0) := by
      apply Finset.sum_congr rfl
      intro y _
      split
      · subst y
        omega
      · omega
    rw [hsub, Finset.sum_sub_distrib, hone, h.sum]
    omega
  · intro z y hz hy
    rw [hlead, hlead]
    have hle := h.lead z y hz hy
    by_cases hzy : z = y₀
    · subst hzy
      have hσ : σ y = 0 := hmax y hy
      have hlow := low_mono D hy.le
      rw [if_pos rfl, if_neg (by omega)]
      simp only [HitDeficit.lead, hσ]
      omega
    · rw [if_neg hzy]
      split <;> omega
  · intro y hy hy'
    have hle := h.level y hy hy'
    show high D y + (if y = y₀ then σ y - 1 else σ y) ≤ limit y
    split <;> omega
  · have := h.deficit
    omega

/-- A counter above level `y` holds at every lower level what that one is ahead. -/
theorem Levels.crowd (h : Levels σ x D) {y : ℕ} (hy : (y : ℤ) ≤ x) (hy57 : y < 57) {m : ℕ}
    (hm : m < y) : 2 * m * HitDeficit.lead σ D y - m * (m + 1) ≤ 2 * (D.card - x) := by
  have hz : ∀ z : ℕ, 1 ≤ z → z < y → HitDeficit.lead σ D y - z ≤ σ z := by
    intro z hz hzy
    have hle := h.lead z y hz hzy
    unfold HitDeficit.lead at hle ⊢
    omega
  have hsum : ∀ m : ℕ, m < y → 2 * m * HitDeficit.lead σ D y - m * (m + 1) ≤
      2 * ∑ z ∈ Finset.range (m + 1), (σ z : ℤ) := by
    intro m
    induction m with
    | zero =>
      intro _
      simp
    | succ m ih =>
      intro hm
      have hstep := ih (by omega)
      have hone := hz (m + 1) (by omega) hm
      rw [Finset.sum_range_succ]
      push_cast at hone ⊢
      linarith
  have hle : ∑ z ∈ Finset.range (m + 1), (σ z : ℤ) ≤ ∑ z ∈ Finset.range 57, (σ z : ℤ) := by
    apply Finset.sum_le_sum_of_subset_of_nonneg
    · intro z hz
      rw [Finset.mem_range] at hz ⊢
      omega
    · intro z _ _
      omega
  have := hsum m hm
  rw [h.sum] at hle
  linarith

/-- What a level above which the counter stands may be ahead. -/
theorem Levels.lead_le (h : Levels σ x D) (hcard : D.card ≤ 56) {y : ℕ} (hy10 : 10 ≤ y)
    (hy57 : y < 57) (hy : (y : ℤ) ≤ x) :
    HitDeficit.lead σ D y ≤ Nat.findGreatest (fun k => k * (k - 1) ≤ 2 * (56 - y)) 10 := by
  have hle : HitDeficit.lead σ D y ≤ 10 := by
    have := h.crowd hy hy57 (show 9 < y by omega)
    push_cast at this
    omega
  by_cases hpos : HitDeficit.lead σ D y ≤ 0
  · exact hpos.trans (Int.natCast_nonneg _)
  · obtain ⟨k, hk⟩ : ∃ k : ℕ, HitDeficit.lead σ D y = k + 1 :=
      ⟨(HitDeficit.lead σ D y - 1).toNat, by omega⟩
    have hcrowd := h.crowd hy hy57 (show k < y by omega)
    rw [hk] at hcrowd ⊢
    have hprod : ((k + 1) * (k + 1 - 1) : ℤ) ≤ 2 * (56 - y) := by
      have hexp : ((k + 1) * (k + 1 - 1) : ℤ) = 2 * k * (k + 1) - k * (k + 1) := by ring
      rw [hexp]
      have hcast : (D.card : ℤ) ≤ 56 := by omega
      linarith
    have hnat : (k + 1) * (k + 1 - 1) ≤ 2 * (56 - y) := by
      rw [Nat.add_sub_cancel]
      zify [show y ≤ 56 by omega]
      linarith
    have := Nat.le_findGreatest (P := fun k => k * (k - 1) ≤ 2 * (56 - y)) (show k + 1 ≤ 10 by omega) hnat
    exact_mod_cast this

/-- All the limits together, with the ten lowest levels by the number of threads. -/
theorem limits_le : 10 * 56 + ∑ y ∈ Finset.Ico 10 57, limit y ≤ 2000 := by decide +kernel

/-- The nine lowest levels after an addition, by the number of threads alone. -/
theorem Levels.lower (h : Levels σ x D) (hx : 0 ≤ x) :
    ∑ y ∈ Finset.Ico 1 10, high ((x + 1).toNat ::ₘ D) y + ∑ y ∈ Finset.Ico 1 10, σ y ≤
      10 * D.card := by
  have hhigh : ∑ y ∈ Finset.Ico 1 10, high ((x + 1).toNat ::ₘ D) y ≤
      ∑ y ∈ Finset.Ico 1 10, (D.card + if y < (x + 1).toNat then 1 else 0) := by
    apply Finset.sum_le_sum
    intro y _
    rw [high_cons]
    exact Nat.add_le_add_right (Multiset.countP_le_card _ D) _
  have hcount : ∑ y ∈ Finset.Ico 1 10, (if y < (x + 1).toNat then 1 else 0) ≤ x.toNat := by
    rw [← Finset.card_filter]
    have hsub : (Finset.Ico 1 10).filter (· < (x + 1).toNat) ⊆ Finset.Ico 1 (x.toNat + 1) := by
      intro y hy
      rw [Finset.mem_filter, Finset.mem_Ico] at hy
      rw [Finset.mem_Ico]
      omega
    refine (Finset.card_le_card hsub).trans ?_
    rw [Nat.card_Ico]
    omega
  have hσ : ∑ y ∈ Finset.Ico 1 10, σ y ≤ ∑ y ∈ Finset.range 57, σ y := by
    apply Finset.sum_le_sum_of_subset
    intro y hy
    rw [Finset.mem_Ico] at hy
    rw [Finset.mem_range]
    omega
  have hsum := h.sum
  rw [← Nat.cast_sum] at hsum
  rw [Finset.sum_add_distrib, Finset.sum_const, Nat.card_Ico, nsmul_eq_mul, Nat.cast_id] at hhigh
  omega

/-- An addition at or above the cap leaves its excess to be taken off. -/
theorem Levels.add (h : Levels σ x D) (hx : 0 ≤ x) (hcard : D.card ≤ 56) :
    Levels σ (x + 1) ((x + 1).toNat ::ₘ D) := by
  have hxle := h.le_card
  have hrange : ∀ d ∈ (x + 1).toNat ::ₘ D, 0 < d ∧ d ≤ 57 := by
    intro d hd
    rcases Multiset.mem_cons.mp hd with rfl | hd
    · omega
    · exact h.range d hd
  have hsum : ∑ y ∈ Finset.range 57, (σ y : ℤ) = ((x + 1).toNat ::ₘ D).card - (x + 1) := by
    rw [h.sum, Multiset.card_cons]
    omega
  have hlead : ∀ y : ℕ, HitDeficit.lead σ ((x + 1).toNat ::ₘ D) y =
      HitDeficit.lead σ D y - if x + 1 ≤ y then 1 else 0 := by
    intro y
    simp only [HitDeficit.lead, low_cons]
    split <;> split <;> omega
  have hlevel : ∀ y, 10 ≤ y → y < 57 → high ((x + 1).toNat ::ₘ D) y + σ y ≤ limit y := by
    intro y hy10 hy57
    by_cases hy : (y : ℤ) ≤ x
    · have hle := h.lead_le hcard hy10 hy57 hy
      have hsplit := low_add_high D y
      rw [high_cons, if_pos (by omega)]
      unfold HitDeficit.lead at hle
      unfold limit
      omega
    · rw [high_cons, if_neg (by omega)]
      exact h.level y hy10 hy57
  refine ⟨by rw [Multiset.card_cons]; omega, hrange, h.bottom, h.top, hsum, ?_, hlevel, ?_⟩
  · intro z y hz hy
    rw [hlead, hlead]
    have hle := h.lead z y hz hy
    split <;> split <;> omega
  · rw [Levels.deficit_eq hrange h.bottom hsum,
      ← Finset.sum_Ico_consecutive _ (show 1 ≤ 10 by omega) (show 10 ≤ 57 by omega)]
    have hupper : ∑ y ∈ Finset.Ico 10 57, high ((x + 1).toNat ::ₘ D) y + ∑ y ∈ Finset.Ico 10 57, σ y ≤
        ∑ y ∈ Finset.Ico 10 57, limit y := by
      rw [← Finset.sum_add_distrib]
      apply Finset.sum_le_sum
      intro y hy
      rw [Finset.mem_Ico] at hy
      exact hlevel y hy.1 hy.2
    have hlower := h.lower hx
    have hlimits := limits_le
    rw [← Nat.cast_sum, ← Nat.cast_sum, Finset.sum_add_distrib, Finset.sum_add_distrib]
    omega

end Steps

end HitDeficit
