import HyperCache.Clock.Search
import HyperCache.Clock.Termination

/-! What the two probe loops visit, for a table of a power of two slots.

`findSlot` and `rollback` step by the same odd increment from the same first slot. The slots
of one round are all different and so are all there are, and the round ends where it began:
a search that nothing stops visits every slot once, and a rollback takes one displacement
from each slot that comes before its own (`probing_covers`). -/
namespace HyperCache.Clock.ClockCache

section Round
variable {n : Nat} {c : ClockCache} (hlen : c.length.toNat = 2 ^ n) (k : UniqueId64x2)
include hlen

theorem visited_toNat (i : Nat) :
    (c.visited k i).toNat = Probe.slot c.length.toNat k.2.toNat (k.1 ||| 1).toNat i := by
  induction i with
  | zero =>
    show (c.modLength k.2).toNat = _
    rw [modLength_toNat, Probe.slot, Nat.zero_mul, Nat.add_zero]
  | succ i ih => rw [visited_succ, modLength_add hlen, ih, ← Probe.slot_succ]

theorem visited_toNat_lt (i : Nat) : (c.visited k i).toNat < c.length.toNat := by
  rw [visited_toNat hlen]
  exact Probe.slot_lt (pos_of_length hlen) i

/-- Every slot is visited in one step of the first round. -/
theorem visited_once {h : Nat} (hh : h < c.length.toNat) :
    ∃! i, i < c.length.toNat ∧ (c.visited k i).toNat = h := by
  have hco := coprime_of_length hlen k
  refine ⟨Probe.rank c.length.toNat k.2.toNat (k.1 ||| 1).toNat h, ⟨Probe.rank_lt hco hh, ?_⟩, ?_⟩
  · rw [visited_toNat hlen]
    exact Probe.slot_rank hco hh
  · rintro i ⟨hi, heq⟩
    rw [visited_toNat hlen] at heq
    rw [← heq]
    exact (Probe.rank_slot hco hi).symm

/-- The search is back at its first slot after one round and not before. -/
theorem visited_eq_first {i : Nat} (hpos : 0 < i) (hi : i ≤ c.length.toNat) :
    c.visited k i = c.visited k 0 ↔ i = c.length.toNat := by
  obtain ⟨j, rfl⟩ := Nat.exists_eq_succ_of_ne_zero (Nat.ne_of_gt hpos)
  rw [← UInt64.toNat_inj, visited_toNat hlen, visited_toNat hlen,
    Probe.slot_eq_start (coprime_of_length hlen k) hi]
  omega

/-- The slots before `h` are those visited in the steps before. -/
theorem mem_probesBefore_visited {i : Nat} (hi : i < c.length.toNat) (j : Nat) :
    j ∈ c.probesBefore k (c.visited k i).toNat ↔ ∃ m < i, (c.visited k m).toNat = j := by
  have hco := coprime_of_length hlen k
  rw [probesBefore, Probe.mem_before hco (visited_toNat_lt hlen k i), visited_toNat hlen,
    Probe.rank_slot hco hi]
  constructor
  · intro hlt
    have hj : j < c.length.toNat := by
      have hmem : j ∈ Probe.path c.length.toNat k.2.toNat (k.1 ||| 1).toNat := by
        refine List.idxOf_lt_length_iff.mp ?_
        rw [Probe.path_length]
        exact hlt.trans hi
      exact Probe.path_lt hmem
    refine ⟨_, hlt, ?_⟩
    rw [visited_toNat hlen]
    exact Probe.slot_rank hco hj
  · rintro ⟨m, hm, rfl⟩
    rw [visited_toNat hlen, Probe.rank_slot hco (hm.trans hi)]
    exact hm

/-- A search that nothing stops. -/
theorem findSlot_never {S : Type} (matchFn abortFn : Nat → S → S) (updateFn : Nat → Bool → S → S) (s : S) :
    c.findSlot k (fun h s => some (false, matchFn h s)) (fun h s => some (false, abortFn h s))
        (fun h isLast s => some (updateFn h isLast s)) s =
      some (none, (List.range c.length.toNat).foldl (fun s i =>
        updateFn (c.visited k i).toNat (decide (i + 1 = c.length.toNat))
          (abortFn (c.visited k i).toNat (matchFn (c.visited k i).toNat s))) s) := by
  have hpath : c.probePath k = (List.range' 0 c.length.toNat).map fun i => (c.visited k i).toNat := by
    rw [probePath, Probe.path, List.range_eq_range']
    exact List.map_congr_left fun i _ => (visited_toNat hlen k i).symm
  rw [findSlot_eq hlen, hpath, Probe.walk_never, List.range_eq_range', Nat.zero_add]

/-- A rollback to the slot of step `i`. -/
theorem rollback_visited {i : Nat} (hi : i < c.length.toNat) :
    ∃ d, c.rollback k (c.visited k i).toNat = some d ∧ d = {c with array := d.array} ∧
      d.array.length = c.array.length ∧ ∀ j, j < c.array.length → d.slot j = {c.slot j with
        displacements := (c.slot j).displacements - if ∃ m < i, (c.visited k m).toNat = j then 1 else 0} := by
  obtain ⟨array, hrest, hsize⟩ := c.displaceAll_rest (c.probesBefore k (c.visited k i).toNat) (-1)
  refine ⟨_, rollback_eq hlen k (visited_toNat_lt hlen k i), by rw [hrest], by rw [hrest, hsize], fun j hj => ?_⟩
  have hnodup : (c.probesBefore k (c.visited k i).toNat).Nodup := Probe.before_nodup (coprime_of_length hlen k) _
  rw [slot_displaceAll c j (-1) hnodup fun _ => hj]
  by_cases hbefore : ∃ m < i, (c.visited k m).toNat = j
  · rw [if_pos ((mem_probesBefore_visited hlen k hi j).mpr hbefore), if_pos hbefore, UInt32.sub_eq_add_neg]
  · rw [if_neg fun hm => hbefore ((mem_probesBefore_visited hlen k hi j).mp hm), if_neg hbefore,
      UInt32.sub_zero]

end Round

/-- **Probing a table of a power of two slots covers it.** One round visits every slot once and
ends at its first; a search that nothing stops visits the slots of one round, the last of them
as the last; and a rollback to any slot ends, having taken one displacement from each slot
visited before it. -/
theorem probing_covers (c : ClockCache) {n : Nat} (hlen : c.length.toNat = 2 ^ n) (k : UniqueId64x2) :
    (∀ h < c.length.toNat, ∃! i, i < c.length.toNat ∧ (c.visited k i).toNat = h) ∧
    (∀ i, 0 < i → i ≤ c.length.toNat → (c.visited k i = c.visited k 0 ↔ i = c.length.toNat)) ∧
    (∀ (S : Type) (matchFn abortFn : Nat → S → S) (updateFn : Nat → Bool → S → S) (s : S),
      c.findSlot k (fun h s => some (false, matchFn h s)) (fun h s => some (false, abortFn h s))
          (fun h isLast s => some (updateFn h isLast s)) s =
        some (none, (List.range c.length.toNat).foldl (fun s i =>
          updateFn (c.visited k i).toNat (decide (i + 1 = c.length.toNat))
            (abortFn (c.visited k i).toNat (matchFn (c.visited k i).toNat s))) s)) ∧
    ∀ h < c.length.toNat, ∃ i < c.length.toNat, (c.visited k i).toNat = h ∧
      ∃ d, c.rollback k h = some d ∧ d = {c with array := d.array} ∧ d.array.length = c.array.length ∧
        ∀ j, j < c.array.length → d.slot j = {c.slot j with displacements :=
          (c.slot j).displacements - if ∃ m < i, (c.visited k m).toNat = j then 1 else 0} := by
  refine ⟨fun h hh => visited_once hlen k hh, fun i hpos hi => visited_eq_first hlen k hpos hi,
    fun S matchFn abortFn updateFn s => findSlot_never hlen k matchFn abortFn updateFn s, fun h hh => ?_⟩
  obtain ⟨i, ⟨hi, rfl⟩, -⟩ := visited_once hlen k hh
  exact ⟨i, hi, rfl, rollback_visited hlen k hi⟩

/-- Eight slots, and an increment that wraps in every sum. -/
theorem probing_covers_eight :
    ((ClockCache.make ⟨0, 8, 0, 8, 1⟩).visited (18446744073709551612, 5) 3 ≠
      (ClockCache.make ⟨0, 8, 0, 8, 1⟩).visited (18446744073709551612, 5) 0) ∧
    ∃ d, (ClockCache.make ⟨0, 8, 0, 8, 1⟩).rollback (18446744073709551612, 5) 7 = some d := by
  obtain ⟨-, hfirst, -, hrollback⟩ :=
    probing_covers (ClockCache.make ⟨0, 8, 0, 8, 1⟩) (n := 3) rfl (18446744073709551612, 5)
  have hlength : (ClockCache.make ⟨0, 8, 0, 8, 1⟩).length.toNat = 8 := rfl
  rw [hlength] at hfirst hrollback
  obtain ⟨i, -, -, d, hd, -⟩ := hrollback 7 (by omega)
  exact ⟨fun h => absurd ((hfirst 3 (by omega) (by omega)).mp h) (by omega), d, hd⟩

end HyperCache.Clock.ClockCache
