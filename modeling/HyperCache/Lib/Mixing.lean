import Mathlib.Logic.Function.Basic
import Mathlib.Tactic.Common

/-! Steps of a hash that lose nothing.

A word xored with itself shifted, rotated, or multiplied by a number that has an inverse
can be recovered. A digest that goes over its blocks with a round that loses neither the
state nor the block is changed by every change of one block (`foldl_ne`). -/
namespace Mixing

/-! ### Words -/

section Words
variable {w : Nat}

theorem xorShiftRight_injective {r : Nat} (hr : 0 < r) :
    Function.Injective fun x : BitVec w => x ^^^ (x >>> r) := by
  intro x y h
  -- a bit is known from the one `r` above it, so from the top down
  have hbits : ∀ n i, w - i ≤ n → x.getLsbD i = y.getLsbD i := by
    intro n
    induction n with
    | zero => exact fun i hi => by rw [BitVec.getLsbD_of_ge _ _ (by omega), BitVec.getLsbD_of_ge _ _ (by omega)]
    | succ n ih =>
      intro i hi
      have habove := ih (i + r) (by omega)
      have hbit := congrArg (BitVec.getLsbD · i) h
      simp only [BitVec.getLsbD_xor, BitVec.getLsbD_ushiftRight, Nat.add_comm r i] at hbit
      rw [habove] at hbit
      exact Bool.xor_left_inj.mp hbit
  exact BitVec.eq_of_getLsbD_eq fun i _ => hbits w i (Nat.sub_le ..)

theorem rotateLeft_injective (r : Nat) : Function.Injective fun x : BitVec w => x.rotateLeft r := by
  intro x y h
  refine BitVec.eq_of_getLsbD_eq fun i hi => ?_
  have hmod : r % w < w := Nat.mod_lt _ (by omega)
  -- where bit `i` has gone to
  by_cases hwrap : i + r % w < w
  · have hbit := congrArg (BitVec.getLsbD · (i + r % w)) h
    simp only [BitVec.getLsbD_rotateLeft, show ¬ i + r % w < r % w by omega, decide_false, cond_false, hwrap,
      decide_true, Bool.true_and, Nat.add_sub_cancel] at hbit
    exact hbit
  · have hbit := congrArg (BitVec.getLsbD · (i + r % w - w)) h
    have hback : w - r % w + (i + r % w - w) = i := by omega
    simp only [BitVec.getLsbD_rotateLeft, show i + r % w - w < r % w by omega, decide_true, cond_true,
      hback] at hbit
    exact hbit

theorem mul_injective {c d : BitVec w} (hcd : c * d = 1) : Function.Injective fun x : BitVec w => x * c := by
  intro x y h
  have hboth := congrArg (· * d) h
  rw [BitVec.mul_assoc, BitVec.mul_assoc, hcd] at hboth
  exact (BitVec.mul_one x).symm.trans (hboth.trans (BitVec.mul_one y))

end Words

/-! ### Blocks -/

section Blocks
variable {S B : Type*} {round : S → B → S}

theorem foldl_injective (hstate : ∀ b, Function.Injective fun s => round s b) (bs : List B) :
    Function.Injective fun s => bs.foldl round s := by
  induction bs with
  | nil => exact Function.injective_id
  | cons b bs ih => exact ih.comp (hstate b)

/-- Blocks that differ in one place lead to different states. -/
theorem foldl_ne (hstate : ∀ b, Function.Injective fun s => round s b)
    (hblock : ∀ s, Function.Injective (round s)) (s : S) (before after : List B) {b b' : B} (hne : b ≠ b') :
    (before ++ b :: after).foldl round s ≠ (before ++ b' :: after).foldl round s := by
  rw [List.foldl_append, List.foldl_append, List.foldl_cons, List.foldl_cons]
  exact fun h => hne (hblock _ (foldl_injective hstate after h))

end Blocks

end Mixing
