import HyperCache.Clock.Calls
import Mathlib.Algebra.BigOperators.Group.Finset.Piecewise

/-! Sums over the entries, with threads at work on some of them.

An entry counts from the write of `FinishSlotInsert` until the clock hand reads it, also
while its slot is under construction (`Pc.counted`). A sum over the entries counted so
changes in these two accesses only, by the entry written or read (`weigh_step`). -/
namespace HyperCache.Clock
open Interleaving ClockCache

/-- The sum of `f` over the entries, and over the slots in `U`. -/
def weigh (n : Nat) (f : Nat → Handle → Nat) (m : Memory) (U : Multiset Nat) : Nat :=
  ∑ i ∈ Finset.range n,
    ((if Shareable (m.metaWord i) then 1 else 0) + U.count i) * f i (m.cache.slot i).toHandle

/-- `f` looks at the key and the charge only. -/
def Reads (f : Nat → Handle → Nat) : Prop :=
  ∀ i h h', SameData h h' → f i h'.toHandle = f i h.toHandle

def oneOf (_ : Nat) (_ : Handle) : Nat := 1

theorem reads_oneOf : Reads oneOf := fun _ _ _ _ => rfl

namespace Pc

/-- What the next access reads of an entry. -/
def weightRead (pc : Pc) (f : Nat → Handle → Nat) (m : Memory) : Nat :=
  match pc.reading with
  | some i => f i (m.cache.slot i).toHandle
  | none => 0

/-- What the next access writes. -/
def weightWritten (pc : Pc) (f : Nat → Handle → Nat) : Nat :=
  match pc.writing with
  | some (i, handle) => f i handle
  | none => 0

end Pc

section Weigh
variable {n i : Nat} {f : Nat → Handle → Nat} {m m' : Memory} {U : Multiset Nat} (hf : Reads f)

theorem weigh_cons (hi : i < n) (U : Multiset Nat) :
    weigh n f m ({i} + U) = weigh n f m U + f i (m.cache.slot i).toHandle := by
  have hone : ∑ j ∈ Finset.range n, (if j = i then 1 else 0) * f j (m.cache.slot j).toHandle =
      f i (m.cache.slot i).toHandle := by
    rw [Finset.sum_eq_single_of_mem i (Finset.mem_range.mpr hi)]
    · rw [if_pos rfl, Nat.one_mul]
    · intro j _ hj
      rw [if_neg hj, Nat.zero_mul]
  rw [← hone, weigh, weigh, ← Finset.sum_add_distrib]
  refine Finset.sum_congr rfl fun j _ => ?_
  rw [Multiset.count_add, Multiset.count_singleton, ← Nat.add_mul]
  congr 1
  omega

theorem weigh_mono {g : Nat → Handle → Nat} (h : ∀ i handle, f i handle ≤ g i handle) :
    weigh n f m U ≤ weigh n g m U :=
  Finset.sum_le_sum fun _ _ => Nat.mul_le_mul_left _ (h _ _)

theorem weigh_start (f : Nat → Handle → Nat) (options : ClockCacheOptions) :
    weigh n f (Memory.start options) 0 = 0 := by
  refine Finset.sum_eq_zero fun i _ => ?_
  have hempty : ¬ Shareable 0 := by decide
  rw [start_metaWord, if_neg hempty, Multiset.count_zero, Nat.zero_mul]

include hf

theorem weigh_congr (h : ∀ j, j < n → (Shareable (m'.metaWord j) ↔ Shareable (m.metaWord j)) ∧
    SameData (m.cache.slot j) (m'.cache.slot j)) : weigh n f m' U = weigh n f m U := by
  refine Finset.sum_congr rfl fun j hj => ?_
  obtain ⟨hs, hd⟩ := h j (Finset.mem_range.mp hj)
  rw [hf j _ _ hd]
  simp only [hs]

/-- One slot becomes an entry. -/
theorem weigh_enter (hi : i < n) (was : ¬ Shareable (m.metaWord i)) (now : Shareable (m'.metaWord i))
    (words : ∀ j, j ≠ i → m'.metaWord j = m.metaWord j)
    (data : ∀ j, SameData (m.cache.slot j) (m'.cache.slot j)) :
    weigh n f m' U = weigh n f m U + f i (m.cache.slot i).toHandle := by
  have hmem : i ∈ Finset.range n := Finset.mem_range.mpr hi
  have hrest : ∀ j ∈ (Finset.range n).erase i,
      ((if Shareable (m'.metaWord j) then 1 else 0) + U.count j) * f j (m'.cache.slot j).toHandle =
      ((if Shareable (m.metaWord j) then 1 else 0) + U.count j) * f j (m.cache.slot j).toHandle := by
    intro j hj
    rw [words j (Finset.ne_of_mem_erase hj), hf j _ _ (data j)]
  rw [weigh, weigh, ← Finset.add_sum_erase _ _ hmem, ← Finset.add_sum_erase _ _ hmem,
    Finset.sum_congr rfl hrest, if_pos now, if_neg was, hf i _ _ (data i), Nat.add_mul, Nat.add_mul,
    Nat.one_mul, Nat.zero_mul]
  omega

omit hf in
/-- A slot that counts for nothing is written. -/
theorem weigh_write {handle : Handle} (hsize : i < m.cache.array.length)
    (was : ¬ Shareable (m.metaWord i)) (hnone : U.count i = 0) :
    weigh n f (m.setSlot i {m.cache.slot i with toHandle := handle}) U = weigh n f m U := by
  refine Finset.sum_congr rfl fun j _ => ?_
  have hword : (m.setSlot i {m.cache.slot i with toHandle := handle}).metaWord j = m.metaWord j :=
    word_setSlot (s := {m.cache.slot i with toHandle := handle}) rfl j
  have hslot : (m.setSlot i {m.cache.slot i with toHandle := handle}).cache.slot j =
      if j = i then {m.cache.slot i with toHandle := handle} else m.cache.slot j :=
    slot_setSlot m.cache j _ hsize
  rw [hword, hslot]
  by_cases hj : j = i
  · rw [hj, if_neg was, hnone, Nat.zero_mul, Nat.zero_mul]
  · rw [if_neg hj]

/-- **One access changes a sum** by what it reads and what it writes. -/
theorem Effect.balance {pc : Pc} {r : Memory × Pc} {o : Multiset Nat} (h : Effect n m pc r)
    (hsize : m.cache.array.length = n) (hfree : ∀ i handle, pc.writing = some (i, handle) → o.count i = 0) :
    weigh n f r.1 (r.2.counted + o) + pc.weightRead f m =
      weigh n f m (pc.counted + o) + pc.weightWritten f := by
  cases h with
  | tame m' pc' quiet before after words data =>
    have hsame : weigh n f m' (0 + o) = weigh n f m (0 + o) :=
      weigh_congr hf fun j hj => ⟨(words j hj).shareable, data j⟩
    simp only [Pc.weightRead, Pc.weightWritten, quiet, before, after, hsame]
  | take i m' pc' quiet before after inside was now words data =>
    have henter : weigh n f m o = weigh n f m' o + f i (m'.cache.slot i).toHandle :=
      weigh_enter hf inside now was (fun j hj => (words j hj).symm)
        fun j => ⟨(data j).hashedKey.symm, (data j).totalCharge.symm⟩
    simp only [Pc.weightRead, Pc.weightWritten, quiet, before, after, weigh_cons inside, zero_add, henter]
  | read i pc' reading writing before after inside =>
    simp only [Pc.weightRead, Pc.weightWritten, reading, writing, before, after, weigh_cons inside, zero_add]
    omega
  | write i handle pc' reading writing before after inside was =>
    have hisize : i < m.cache.array.length := by
      rw [hsize]
      exact inside
    have hslot : ((m.setSlot i {m.cache.slot i with toHandle := handle}).cache.slot i).toHandle = handle := by
      show ((m.cache.setSlot i _).slot i).toHandle = handle
      rw [slot_setSlot m.cache i _ hisize, if_pos rfl]
    simp only [Pc.weightRead, Pc.weightWritten, reading, writing, before, after, weigh_cons inside,
      zero_add, hslot, weigh_write hisize was (hfree i handle writing)]
    omega
  | publish i pc' quiet before after inside was =>
    have hisize : i < m.cache.array.length := by
      rw [hsize]
      exact inside
    have hword : ∀ j, (m.publish i).metaWord j = if j = i
        then (kStateVisible <<< kStateShift) ||| (kInitHitCount <<< kHitCounterShift)
        else m.metaWord j := metaWord_setMeta m _ hisize
    have henter : weigh n f (m.publish i) o = weigh n f m o + f i (m.cache.slot i).toHandle := by
      refine weigh_enter hf inside was ?_ (fun j hj => ?_) fun j => data_setMeta _ j
      · rw [hword, if_pos rfl]
        decide
      · rw [hword, if_neg hj]
    simp only [Pc.weightRead, Pc.weightWritten, quiet, before, after, weigh_cons inside, zero_add, henter]

end Weigh

section Runs
variable {ι : Type} [Fintype ι] [DecidableEq ι] {e : Nat} {c : CallConfig ι} {t : ι}

omit [Fintype ι] in
theorem writing_own {pc : Pc} {i : Nat} {handle : Handle} (h : pc.writing = some (i, handle)) :
    pc.tokens = {.own i} := by
  unfold Pc.writing at h
  split at h
  · cases h
    rfl
  · cases h

/-- No other thread counts the slot that a thread writes. -/
theorem Sound.unshared (h : Sound e c) {i : Nat} {handle : Handle}
    (hw : (c.threads t).writing = some (i, handle)) : (others Pc.counted c t).count i = 0 := by
  have hown := writing_own hw
  have hin : i < 2 ^ e := by
    have hk := h.words.loc t
    unfold Pc.writing at hw
    split at hw
    · next heq =>
      cases hw
      have hthread : c.uncount.threads t = _ := heq
      rw [hthread] at hk
      exact hk
    · cases hw
  have hslot := h.words.glob.slots i hin
  have htotal : total Pc.tokens c.uncount = {.own i} + others Pc.tokens c.uncount t := by
    rw [total_eq Pc.tokens c.uncount t, ← hown]
    rfl
  rw [htotal] at hslot
  have howners := (hslot.owner (by rw [held_own]; exact Nat.succ_pos _)).2
  rw [held_own] at howners
  have hzero : (others Pc.tokens c.uncount t).count (.own i) = 0 := by
    have hcount : (held c.shared.state (0 + others Pc.tokens c.uncount t) i).owners =
        (others Pc.tokens c.uncount t).count (.own i) := by rw [zero_add]; rfl
    have hone : (held c.shared.state (0 + others Pc.tokens c.uncount t) i).owners + 1 = 1 := howners
    omega
  have hle : (others Pc.counted c t).count i ≤ (others Pc.tokens c.uncount t).count (.own i) := by
    rw [others, others, Multiset.count_sum', Multiset.count_sum']
    exact Finset.sum_le_sum fun u _ => (c.threads u).counted_le_own i
  omega

/-- A calm step changes a sum by what it reads and what it writes. -/
theorem Sound.weigh_step (h : Sound e c) (hok : Calm c t) {f : Nat → Handle → Nat} (hf : Reads f)
    (choice : Choice) :
    weigh (2 ^ e) f (step choice c.shared.state (c.threads t)).1
        ((step choice c.shared.state (c.threads t)).2.counted + others Pc.counted c t) +
      (c.threads t).weightRead f c.shared.state =
    weigh (2 ^ e) f c.shared.state ((c.threads t).counted + others Pc.counted c t) +
      (c.threads t).weightWritten f :=
  (h.effect hok choice).balance hf h.words.glob.size fun _ _ hw => h.unshared hw

end Runs

end HyperCache.Clock
