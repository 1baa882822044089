import Mathlib

/-! A family of shards and its totals.

A total is what a loop over the shards adds up. A call works on one shard, so it changes a
total by what it changes there. -/
namespace Sharded

variable {n : Nat} {α M : Type*}

/-- The sum over the shards, in their order. -/
def total [Add M] [Zero M] (f : Fin n → M) : M := (List.finRange n).foldl (fun sum i => sum + f i) 0

/-- A total can be taken on either side of a map that keeps sums. -/
theorem total_map {N : Type*} [Add M] [Zero M] [Add N] [Zero N] (φ : M → N)
    (hadd : ∀ a b, φ (a + b) = φ a + φ b) (hzero : φ 0 = 0) (f : Fin n → M) :
    total (fun i => φ (f i)) = φ (total f) := by
  rw [total, total, ← hzero]
  exact List.foldl_hom φ fun a i => (hadd a (f i)).symm

section
variable [AddCommMonoid M]

theorem total_eq_sum (f : Fin n → M) : total f = ∑ i, f i := by
  rw [Fin.sum_univ_def, total, List.sum_eq_foldl, List.foldl_map]

theorem total_zero : total (fun _ : Fin n => (0 : M)) = 0 := by
  rw [total_eq_sum, Finset.sum_const_zero]

theorem total_update (f : Fin n → M) (i : Fin n) (x : M) :
    total (Function.update f i x) + f i = total f + x := by
  rw [total_eq_sum, total_eq_sum, Finset.sum_update_of_mem (Finset.mem_univ i),
    ← Finset.add_sum_erase _ f (Finset.mem_univ i), Finset.sdiff_singleton_eq_erase]
  ac_rfl

/-- One shard is replaced. -/
theorem total_replace (shards : Fin n → α) (f : α → M) (i : Fin n) (a : α) :
    total (fun j => f (Function.update shards i a j)) + f (shards i) =
      total (fun j => f (shards j)) + f a := by
  have hcomp : (fun j => f (Function.update shards i a j)) =
      Function.update (fun j => f (shards j)) i (f a) := by
    funext j
    exact Function.apply_update (fun _ => f) shards i a j
  rw [hcomp]
  exact total_update (fun j => f (shards j)) i (f a)

end

theorem total_const (a : Nat) : total (fun _ : Fin n => a) = n * a := by
  rw [total_eq_sum, Finset.sum_const, Finset.card_univ, Fintype.card_fin, smul_eq_mul]

/-- Bounds on the shards add up. -/
theorem total_le (f : Fin n → Nat) {bound : Nat} (h : ∀ i, f i ≤ bound) :
    total f ≤ n * bound := by
  rw [total_eq_sum]
  calc ∑ i, f i ≤ ∑ _i : Fin n, bound := Finset.sum_le_sum fun i _ => h i
    _ = n * bound := by rw [Finset.sum_const, Finset.card_univ, Fintype.card_fin, smul_eq_mul]

end Sharded
