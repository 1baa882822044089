import HyperCache.Clock.Accounts
import HyperCache.Clock.Weights

/-! The charge budget under concurrency.

`usage_` counts the charges of the entries, and what each call in progress reserved or
freed and has not settled: what `EvictForCharge` added, the charges it evicted since,
and from its settlement on the charge of the entry to come. `occupancy_` counts the
same in entries. Both are exact in every state (`Budget`), so no subtraction goes below
zero, and with no call in progress only the entries are left. -/
namespace HyperCache.Clock
open Interleaving ClockCache

/-! ### What a call owes -/

/-- `EvictForCharge` took the usage from `oldUsage` to `newUsage` for this charge. -/
structure Charged (capacity oldUsage newUsage charge : UInt64) : Prop where
  fits : oldUsage.toNat + charge.toNat < 2 ^ 64
  le : oldUsage.toNat ≤ newUsage.toNat
  newUsage : newUsage.toNat = min capacity.toNat (oldUsage.toNat + charge.toNat)

namespace EvictFrame

/-- What the call added to the usage, with what it freed and did not yet take off. -/
def usageOwed (f : EvictFrame) : Nat :=
  f.newUsage.toNat - f.oldUsage.toNat + f.data.freedCharge.toNat

/-- The entry to come, with those it freed and did not yet take off. -/
def occupancyOwed (f : EvictFrame) : Nat := 1 + f.data.freedCount.toNat

abbrev Charged (capacity : UInt64) (f : EvictFrame) : Prop :=
  Clock.Charged capacity f.oldUsage f.newUsage f.handle.totalCharge

theorem need_toNat {capacity : UInt64} {f : EvictFrame} (h : f.Charged capacity) :
    f.needEvictCharge.toNat + f.newUsage.toNat = f.oldUsage.toNat + f.handle.totalCharge.toNat := by
  have hfits := h.fits
  have hnew := h.newUsage
  have hsum : (f.oldUsage + f.handle.totalCharge).toNat =
      f.oldUsage.toNat + f.handle.totalCharge.toNat := by
    rw [UInt64.toNat_add, Nat.mod_eq_of_lt hfits]
  have hle : f.newUsage ≤ f.oldUsage + f.handle.totalCharge := by
    rw [UInt64.le_iff_toNat_le, hsum]
    omega
  rw [needEvictCharge, UInt64.toNat_sub_of_le _ _ hle, hsum]
  omega

/-- The frame when an entry of this charge has been taken. -/
def freed (f : EvictFrame) (charge : UInt64) : EvictFrame :=
  {f with data := {f.data with
    freedCharge := f.data.freedCharge + charge, freedCount := f.data.freedCount + 1}}

theorem freed_usageOwed (f : EvictFrame) {charge : UInt64} (h : f.usageOwed + charge.toNat < 2 ^ 64) :
    (f.freed charge).usageOwed = f.usageOwed + charge.toNat := by
  unfold usageOwed at h ⊢
  show f.newUsage.toNat - f.oldUsage.toNat + (f.data.freedCharge + charge).toNat = _
  rw [UInt64.toNat_add, Nat.mod_eq_of_lt (by omega), Nat.add_assoc]

theorem freed_occupancyOwed (f : EvictFrame) (charge : UInt64) (h : f.occupancyOwed + 1 < 2 ^ 64) :
    (f.freed charge).occupancyOwed = f.occupancyOwed + 1 := by
  unfold occupancyOwed at h ⊢
  show 1 + (f.data.freedCount + 1).toNat = _
  rw [UInt64.toNat_add, UInt64.toNat_one, Nat.mod_eq_of_lt (by omega), Nat.add_assoc]

end EvictFrame

namespace Pc

/-- What the call in progress owes to the usage. -/
def usageOwed : Pc → Nat
  | .evictPointer f | .evictDelta f | .evictLoad f | .evictLower f _ | .evictTake f _ | .evictOwn f _
  | .evictRollback f _ _ _ | .evictFree f _ | .evictMark f _ | .evictNext f | .evictStore f
  | .settleOccupancy f => f.usageOwed
  | .settleUsage f charge room => charge.toNat + if room then f.handle.totalCharge.toNat else 0
  | .insertOr f _ | .insertWrite f _ | .insertRef f _ | .insertKey f _ | .insertUndo f _ _
  | .insertDisplace f _ | .insertRollback f _ _ _ => f.handle.totalCharge.toNat
  | .insertFailOccupancy handle | .insertFailUsage handle => handle.totalCharge.toNat
  | .eraseRef f _ => (f.insertion.map fun handle => handle.totalCharge.toNat).getD 0
  | _ => 0

/-- What it owes to the occupancy. -/
def occupancyOwed : Pc → Nat
  | .chargeLoad .. | .chargeCas _ | .settleUsage .. | .insertGiveUp | .insertOr .. | .insertWrite ..
  | .insertRef .. | .insertKey .. | .insertUndo .. | .insertDisplace .. | .insertRollback ..
  | .insertFailOccupancy _ => 1
  | .evictPointer f | .evictDelta f | .evictLoad f | .evictLower f _ | .evictTake f _ | .evictOwn f _
  | .evictRollback f _ _ _ | .evictFree f _ | .evictMark f _ | .evictNext f | .evictStore f
  | .settleOccupancy f => f.occupancyOwed
  | .eraseRef f _ => (f.insertion.map fun _ => 1).getD 0
  | _ => 0

/-- What the next access takes off the usage. -/
def usageTaken : Pc → UInt64
  | .settleUsage _ charge _ => charge
  | .insertFailUsage handle => handle.totalCharge
  | .eraseUsage _ _ totalCharge => totalCharge
  | _ => 0

/-- What the next access takes off the occupancy. -/
def occupancyTaken : Pc → UInt64
  | .settleOccupancy f => f.data.freedCount
  | .insertGiveUp | .insertFailOccupancy _ | .eraseOccupancy .. => 1
  | _ => 0

/-- The entry that the next access is about to count. -/
def entering : Pc → Nat
  | .insertOccupancy _ => 1
  | _ => 0

/-- What a position knows of its charge. -/
def Charged (capacity : UInt64) : Pc → Prop
  | .chargeCas f => f.Charged capacity ∧ f.data = {}
  | .evictPointer f | .evictDelta f | .evictLoad f | .evictLower f _ | .evictTake f _ | .evictOwn f _
  | .evictRollback f _ _ _ | .evictFree f _ | .evictMark f _ | .evictNext f | .evictStore f
  | .settleOccupancy f => f.Charged capacity
  | _ => True

end Pc

/-- A position that owes so much, and takes off no more than that. -/
structure Owes (capacity : UInt64) (pc : Pc) (u o : Nat) : Prop where
  usage : pc.usageOwed = u
  occupancy : pc.occupancyOwed = o
  charged : pc.Charged capacity
  usageTaken : pc.usageTaken.toNat ≤ u
  occupancyTaken : pc.occupancyTaken.toNat ≤ o
  entering : pc.entering = 0

section Local
variable {capacity : UInt64} {c : ClockCache}

theorem owes_insertStart (handle : Handle) :
    Owes capacity (insertStart c handle) handle.totalCharge.toNat 1 :=
  ⟨rfl, rfl, trivial, Nat.zero_le _, Nat.zero_le _, rfl⟩

theorem owes_evictPointer {f : EvictFrame} (h : f.Charged capacity) :
    Owes capacity (.evictPointer f) f.usageOwed f.occupancyOwed :=
  ⟨rfl, rfl, h, Nat.zero_le _, Nat.zero_le _, rfl⟩

/-- The charge is in the new usage, or something is to be evicted for it. -/
theorem owes_chargeDone {f : EvictFrame} (h : f.Charged capacity) (hdata : f.data = {}) :
    Owes capacity (chargeDone c f) (f.newUsage.toNat - f.oldUsage.toNat) 1 := by
  rw [chargeDone]
  split
  · have howes := owes_evictPointer h
    simp only [EvictFrame.usageOwed, EvictFrame.occupancyOwed, hdata] at howes
    exact howes
  · next hreq =>
    have hneed : f.needEvictCharge = 0 := by
      have hzero : f.requestEvictCharge = 0 := by simpa using hreq
      unfold EvictFrame.requestEvictCharge at hzero
      split at hzero
      · cases hzero
      · exact hzero
    have hsum := EvictFrame.need_toNat h
    rw [hneed] at hsum
    have heq : f.newUsage.toNat - f.oldUsage.toNat = f.handle.totalCharge.toNat := by
      have hz : (0 : UInt64).toNat = 0 := rfl
      omega
    rw [heq]
    exact owes_insertStart f.handle

/-- Nothing is reserved before the compare-and-swap. -/
theorem owes_chargeTry {handle : Handle} {need : Bool} {oldUsage : UInt64}
    (hfits : oldUsage.toNat + handle.totalCharge.toNat < 2 ^ 64)
    (hle : oldUsage.toNat ≤ c.capacity.toNat) :
    Owes c.capacity (chargeTry c handle need oldUsage) 0 1 := by
  have hsum : (oldUsage + handle.totalCharge).toNat = oldUsage.toNat + handle.totalCharge.toNat := by
    rw [UInt64.toNat_add, Nat.mod_eq_of_lt hfits]
  have hnew : (min c.capacity (oldUsage + handle.totalCharge)).toNat =
      min c.capacity.toNat (oldUsage.toNat + handle.totalCharge.toNat) := by
    rw [min_toNat, hsum]
  have hle' : oldUsage.toNat ≤ (min c.capacity (oldUsage + handle.totalCharge)).toNat := by
    omega
  unfold chargeTry
  simp only
  split
  · next heq =>
    have howes := owes_chargeDone (c := c) (f := ⟨handle, need, oldUsage, _, 0, 0, 0, 0, 1, {}, 0⟩)
      ⟨hfits, hle', hnew⟩ rfl
    have hzero : (min c.capacity (oldUsage + handle.totalCharge)).toNat - oldUsage.toNat = 0 := by
      rw [heq]
      omega
    simp only [hzero] at howes
    exact howes
  · exact ⟨rfl, rfl, ⟨⟨hfits, hle', hnew⟩, rfl⟩, Nat.zero_le _,
      Nat.zero_le _, rfl⟩

theorem owes_evictSlotDone {f : EvictFrame} (h : f.Charged capacity) :
    Owes capacity (evictSlotDone f) f.usageOwed f.occupancyOwed := by
  unfold evictSlotDone
  repeat' split
  all_goals exact ⟨rfl, rfl, h, Nat.zero_le _, Nat.zero_le _, rfl⟩

theorem owes_evictTest {f : EvictFrame} (h : f.Charged capacity) (w : UInt64) :
    Owes capacity (evictTest f w) f.usageOwed f.occupancyOwed := by
  unfold evictTest
  split
  · exact owes_evictSlotDone h
  · split
    · exact owes_evictSlotDone (f := {f with data := {f.data with
        seenPinnedCount := f.data.seenPinnedCount + 1}}) h
    · split <;> exact ⟨rfl, rfl, h, Nat.zero_le _, Nat.zero_le _, rfl⟩

theorem owes_evictRollbackAt {f : EvictFrame} (h : f.Charged capacity) (i : UInt64) (k : UniqueId64x2)
    (current : UInt64) :
    Owes capacity (evictRollbackAt f i k current) f.usageOwed f.occupancyOwed := by
  unfold evictRollbackAt
  split <;> exact ⟨rfl, rfl, h, Nat.zero_le _, Nat.zero_le _, rfl⟩

/-- The three ways to settle: what was freed beyond the need goes back, or all that was
reserved, or nothing is left over. -/
theorem owes_settleTest {f : EvictFrame} (h : f.Charged capacity) (hfits : f.usageOwed < 2 ^ 64) :
    Owes capacity (settleTest c f) f.usageOwed 1 := by
  have hneed := EvictFrame.need_toNat h
  have hle := h.le
  unfold EvictFrame.usageOwed at hfits ⊢
  rw [settleTest]
  split
  · next hmore =>
    have hsub : (f.data.freedCharge - f.needEvictCharge).toNat =
        f.data.freedCharge.toNat - f.needEvictCharge.toNat :=
      UInt64.toNat_sub_of_le _ _ (UInt64.le_of_lt hmore)
    have hlt : f.needEvictCharge.toNat < f.data.freedCharge.toNat := UInt64.lt_iff_toNat_lt.mp hmore
    refine ⟨?_, rfl, trivial, ?_, Nat.zero_le _, rfl⟩
    · simp only [Pc.usageOwed, if_true, hsub]
      omega
    · simp only [Pc.usageTaken, hsub]
      omega
  · next hmore =>
    split
    · have hdiff : (f.newUsage - f.oldUsage).toNat = f.newUsage.toNat - f.oldUsage.toNat :=
        UInt64.toNat_sub_of_le _ _ (UInt64.le_iff_toNat_le.mpr hle)
      have hsum : (f.data.freedCharge + (f.newUsage - f.oldUsage)).toNat =
          f.newUsage.toNat - f.oldUsage.toNat + f.data.freedCharge.toNat := by
        rw [UInt64.toNat_add, hdiff, Nat.mod_eq_of_lt (by omega), Nat.add_comm]
      refine ⟨?_, rfl, trivial, ?_, Nat.zero_le _, rfl⟩
      · simp only [Pc.usageOwed, Bool.false_eq_true, if_false, hsum]
        rfl
      · simp only [Pc.usageTaken, hsum]
        exact Nat.le_refl _
    · next hless =>
      have heq : f.data.freedCharge.toNat = f.needEvictCharge.toNat := by
        have h1 : ¬ f.needEvictCharge.toNat < f.data.freedCharge.toNat :=
          fun hlt => hmore (UInt64.lt_iff_toNat_lt.mpr hlt)
        have h2 : ¬ f.data.freedCharge.toNat < f.needEvictCharge.toNat :=
          fun hlt => hless (.inl (UInt64.lt_iff_toNat_lt.mpr hlt))
        omega
      have howes : Owes capacity (insertStart c f.handle) f.handle.totalCharge.toNat 1 :=
        owes_insertStart f.handle
      have hcharge : f.newUsage.toNat - f.oldUsage.toNat + f.data.freedCharge.toNat =
          f.handle.totalCharge.toNat := by omega
      rw [hcharge]
      exact howes

theorem owes_insertRollbackAt (f : InsertFrame) (h current : UInt64) (already : Bool) :
    Owes capacity (insertRollbackAt c f h current already) f.handle.totalCharge.toNat 1 := by
  unfold insertRollbackAt insertEnd
  repeat' split
  all_goals exact ⟨rfl, rfl, trivial, Nat.zero_le _, by simp [Pc.occupancyTaken], rfl⟩

theorem owes_insertNext (f : InsertFrame) (current : UInt64) (already : Bool) :
    Owes capacity (insertNext c f current already) f.handle.totalCharge.toNat 1 := by
  unfold insertNext
  simp only
  split
  · exact owes_insertRollbackAt ..
  · split
    · exact owes_insertRollbackAt ..
    · exact ⟨rfl, rfl, trivial, Nat.zero_le _, Nat.zero_le _, rfl⟩

end Local

/-! ### One access -/

def chargeOf (_ : Nat) (h : Handle) : Nat := h.totalCharge.toNat

theorem reads_chargeOf : Reads chargeOf := fun _ _ _ h => congrArg UInt64.toNat h.totalCharge

/-- The usage leaves room for the charge that is being added to it. -/
def ChargeFits (m : Memory) : Pc → Prop
  | .chargeLoad handle _ => m.cache.usage.toNat + handle.totalCharge.toNat < 2 ^ 64
  | .chargeCas f => m.cache.usage.toNat + f.handle.totalCharge.toNat < 2 ^ 64
  | _ => True

/-- What a thread may rely on: the counters cover what it owes and what it is about to
read, and its position knows its charge. -/
structure Covered (capacity : UInt64) (m : Memory) (pc : Pc) : Prop where
  limit : m.cache.capacity = capacity
  within : m.cache.usage.toNat ≤ capacity.toNat
  usage : pc.usageOwed + pc.weightRead chargeOf m ≤ m.cache.usage.toNat
  occupancy : pc.occupancyOwed + pc.weightRead oneOf m ≤ m.cache.occupancy.toNat
  room : m.cache.occupancy.toNat + pc.entering < 2 ^ 64
  charged : pc.Charged capacity
  usageTaken : pc.usageTaken.toNat ≤ pc.usageOwed
  occupancyTaken : pc.occupancyTaken.toNat ≤ pc.occupancyOwed
  fits : ChargeFits m pc

/-- A step moves the counters by what it reads, writes and owes less or more than before. -/
structure Settles (capacity : UInt64) (m : Memory) (pc : Pc) (r : Memory × Pc) : Prop where
  limit : r.1.cache.capacity = capacity
  within : r.1.cache.usage.toNat ≤ capacity.toNat
  usage : r.1.cache.usage.toNat + pc.usageOwed + pc.weightRead chargeOf m =
    m.cache.usage.toNat + r.2.usageOwed + pc.weightWritten chargeOf
  occupancy : r.1.cache.occupancy.toNat + pc.occupancyOwed + pc.weightRead oneOf m =
    m.cache.occupancy.toNat + r.2.occupancyOwed + pc.weightWritten oneOf
  room : r.1.cache.occupancy.toNat + r.2.entering ≤
    m.cache.occupancy.toNat + pc.entering + pc.begun r.2
  charged : r.2.Charged capacity
  usageTaken : r.2.usageTaken.toNat ≤ r.2.usageOwed
  occupancyTaken : r.2.occupancyTaken.toNat ≤ r.2.occupancyOwed

instance decidableChargeFits (m : Memory) : (pc : Pc) → Decidable (ChargeFits m pc)
  | .chargeLoad .. | .chargeCas _ => by unfold ChargeFits; infer_instance
  | _ => by unfold ChargeFits; split <;> infer_instance

section Steps
variable {capacity : UInt64} {m m' : Memory} {pc pc' : Pc} {choice : Choice}

theorem Owes.settles {u o : Nat} (howes : Owes capacity pc' u o) (hlimit : m'.cache.capacity = capacity)
    (hwithin : m'.cache.usage.toNat ≤ capacity.toNat)
    (husage : m'.cache.usage.toNat + pc.usageOwed + pc.weightRead chargeOf m =
      m.cache.usage.toNat + u + pc.weightWritten chargeOf)
    (hoccupancy : m'.cache.occupancy.toNat + pc.occupancyOwed + pc.weightRead oneOf m =
      m.cache.occupancy.toNat + o + pc.weightWritten oneOf)
    (hroom : m'.cache.occupancy.toNat ≤ m.cache.occupancy.toNat + pc.entering) :
    Settles capacity m pc (m', pc') where
  limit := hlimit
  within := hwithin
  usage := by
    rw [howes.usage]
    exact husage
  occupancy := by
    rw [howes.occupancy]
    exact hoccupancy
  room := by
    rw [howes.entering]
    exact hroom.trans (Nat.le_add_right _ _)
  charged := howes.charged
  usageTaken := by
    rw [howes.usage]
    exact howes.usageTaken
  occupancyTaken := by
    rw [howes.occupancy]
    exact howes.occupancyTaken

/-- A position that neither reads nor writes an entry. -/
theorem quiet_weights (hread : pc.reading = none) (hwrite : pc.writing = none)
    (f : Nat → Handle → Nat) : pc.weightRead f m = 0 ∧ pc.weightWritten f = 0 := by
  rw [Pc.weightRead, Pc.weightWritten, hread, hwrite]
  exact ⟨rfl, rfl⟩

/-- An access to other things than the counters. -/
theorem Owes.still (howes : Owes capacity pc' pc.usageOwed pc.occupancyOwed) (h : Covered capacity m pc)
    (hread : pc.reading = none) (hwrite : pc.writing = none) (husage : m'.cache.usage = m.cache.usage)
    (hoccupancy : m'.cache.occupancy = m.cache.occupancy)
    (hcapacity : m'.cache.capacity = m.cache.capacity) : Settles capacity m pc (m', pc') := by
  obtain ⟨hr, hw⟩ := quiet_weights (m := m) hread hwrite chargeOf
  obtain ⟨hr', hw'⟩ := quiet_weights (m := m) hread hwrite oneOf
  apply howes.settles (hcapacity.trans h.limit)
  · rw [husage]
    exact h.within
  · rw [husage, hr, hw]
  · rw [hoccupancy, hr', hw']
  · rw [hoccupancy]
    exact Nat.le_add_right _ _

/-- What is taken off the usage was owed. -/
theorem Owes.subUsage {charge : UInt64} {u : Nat} (howes : Owes capacity pc' u pc.occupancyOwed)
    (h : Covered capacity m pc) (hread : pc.reading = none) (hwrite : pc.writing = none)
    (howed : pc.usageOwed = charge.toNat + u) : Settles capacity m pc (m.subUsage charge, pc') := by
  obtain ⟨hr, hw⟩ := quiet_weights (m := m) hread hwrite chargeOf
  obtain ⟨hr', hw'⟩ := quiet_weights (m := m) hread hwrite oneOf
  have hcover := h.usage
  have hwithin := h.within
  have hsub : (m.subUsage charge).cache.usage.toNat = m.cache.usage.toNat - charge.toNat :=
    UInt64.toNat_sub_of_le _ _ (UInt64.le_iff_toNat_le.mpr (by omega))
  refine howes.settles ?_ ?_ ?_ ?_ ?_
  · exact h.limit
  · omega
  · rw [hsub, hr, hw]
    omega
  · rw [hr', hw']
    rfl
  · exact Nat.le_add_right _ _

/-- What is taken off the occupancy was owed. -/
theorem Owes.subOccupancy {count : UInt64} {o : Nat} (howes : Owes capacity pc' pc.usageOwed o)
    (h : Covered capacity m pc) (hread : pc.reading = none) (hwrite : pc.writing = none)
    (howed : pc.occupancyOwed = count.toNat + o) : Settles capacity m pc (m.subOccupancy count, pc') := by
  obtain ⟨hr, hw⟩ := quiet_weights (m := m) hread hwrite chargeOf
  obtain ⟨hr', hw'⟩ := quiet_weights (m := m) hread hwrite oneOf
  have hcover := h.occupancy
  have hsub : (m.subOccupancy count).cache.occupancy.toNat = m.cache.occupancy.toNat - count.toNat :=
    UInt64.toNat_sub_of_le _ _ (UInt64.le_iff_toNat_le.mpr (by omega))
  refine howes.settles ?_ ?_ ?_ ?_ ?_
  · exact h.limit
  · exact h.within
  · rw [hr, hw]
    rfl
  · rw [hsub, hr', hw']
    omega
  · rw [hsub]
    omega

theorem call_settles (h : Covered capacity m pc) (howes : Owes capacity pc 0 0) (hidle : pc.busy = 0)
    (hread : pc.reading = none) (hwrite : pc.writing = none) :
    Settles capacity m pc (callStep m pc choice) := by
  have hother : ∀ m' pc', m'.cache = m.cache → Owes capacity pc' 0 0 →
      Settles capacity m pc (m', pc') := by
    intro m' pc' hcache howes'
    have howed : Owes capacity pc' pc.usageOwed pc.occupancyOwed := by
      rw [howes.usage, howes.occupancy]
      exact howes'
    exact howed.still h hread hwrite (by rw [hcache]) (by rw [hcache]) (by rw [hcache])
  cases choice with
  | lookup k => exact hother _ _ rfl ⟨rfl, rfl, trivial, Nat.zero_le _, Nat.zero_le _, rfl⟩
  | release i =>
    rw [callStep]
    split
    · exact hother _ _ rfl ⟨rfl, rfl, trivial, Nat.zero_le _, Nat.zero_le _, rfl⟩
    · exact hother _ _ rfl howes
  | insert handle =>
    obtain ⟨hr, hw⟩ := quiet_weights (m := m) hread hwrite chargeOf
    obtain ⟨hr', hw'⟩ := quiet_weights (m := m) hread hwrite oneOf
    have hone : pc.begun (.insertOccupancy handle) = 1 := by rw [Pc.begun, hidle]; rfl
    refine ⟨h.limit, h.within, ?_, ?_, ?_, trivial, Nat.le_refl 0, Nat.le_refl 0⟩
    · rw [hr, hw, howes.usage]
      rfl
    · rw [hr', hw', howes.occupancy]
      rfl
    · show m.cache.occupancy.toNat + 1 ≤
        m.cache.occupancy.toNat + pc.entering + pc.begun (.insertOccupancy handle)
      rw [hone]
      omega
  | erase k => exact hother _ _ rfl ⟨rfl, rfl, trivial, Nat.zero_le _, Nat.zero_le _, rfl⟩
  | go => exact hother _ _ rfl howes
  | spurious => exact hother _ _ rfl howes

theorem lookup_settles {k : UniqueId64x2} {current : UInt64} {slot : SlotPc}
    (h : Covered capacity m (.lookup k current slot)) :
    Settles capacity m (.lookup k current slot) (step choice m (.lookup k current slot)) := by
  have hother : ∀ m' pc', m'.cache.usage = m.cache.usage ∧ m'.cache.occupancy = m.cache.occupancy ∧
      m'.cache.capacity = m.cache.capacity → Owes capacity pc' 0 0 →
      Settles capacity m (.lookup k current slot) (m', pc') :=
    fun m' pc' hc howes => howes.still h rfl rfl hc.1 hc.2.1 hc.2.2
  simp only [step]
  split
  · exact hother _ (.lookup k current _) ⟨rfl, rfl, rfl⟩ ⟨rfl, rfl, trivial, Nat.zero_le _, Nat.zero_le _, rfl⟩
  · exact hother _ (.lookupReturn _) ⟨rfl, rfl, rfl⟩ ⟨rfl, rfl, trivial, Nat.zero_le _, Nat.zero_le _, rfl⟩
  · apply hother _ (.lookupAbort k current) _ ⟨rfl, rfl, trivial, Nat.zero_le _, Nat.zero_le _, rfl⟩
    split <;> exact ⟨rfl, rfl, rfl⟩

/-- The compare-and-swap reserves what it adds. -/
theorem chargeCas_settles {f : EvictFrame} (h : Covered capacity m (.chargeCas f)) :
    Settles capacity m (.chargeCas f) (step choice m (.chargeCas f)) := by
  obtain ⟨hcharged, hdata⟩ := h.charged
  have hlimit := h.limit
  simp only [step]
  split
  · next hcas =>
    have howes := owes_chargeDone (c := m.cache) hcharged hdata
    have hnew := hcharged.newUsage
    have hle := hcharged.le
    have hold := congrArg UInt64.toNat hcas.1
    refine howes.settles ?_ ?_ ?_ ?_ ?_
    · exact hlimit
    · show f.newUsage.toNat ≤ capacity.toNat
      omega
    · show f.newUsage.toNat + 0 + 0 = m.cache.usage.toNat + (f.newUsage.toNat - f.oldUsage.toNat) + 0
      omega
    · rfl
    · exact Nat.le_refl _
  · have howes : Owes m.cache.capacity
        (chargeTry m.cache f.handle f.needEvictForOccupancy m.cache.usage) 0 1 :=
      owes_chargeTry h.fits (by rw [hlimit]; exact h.within)
    rw [hlimit] at howes
    exact howes.still h rfl rfl rfl rfl rfl

/-- The taken entry's charge is read: it is owed from here on. -/
theorem evictOwn_settles {f : EvictFrame} {i : UInt64} (h : Covered capacity m (.evictOwn f i)) :
    Settles capacity m (.evictOwn f i) (step choice m (.evictOwn f i)) := by
  have husage : f.usageOwed + (m.cache.slot i.toNat).totalCharge.toNat ≤ m.cache.usage.toNat := h.usage
  have hoccupancy : f.occupancyOwed + 1 ≤ m.cache.occupancy.toNat := h.occupancy
  have hlt := m.cache.usage.toNat_lt
  have hlt' := m.cache.occupancy.toNat_lt
  have hcharge : (f.freed (m.cache.slot i.toNat).totalCharge).usageOwed =
      f.usageOwed + (m.cache.slot i.toNat).totalCharge.toNat := f.freed_usageOwed (by omega)
  have hcount := f.freed_occupancyOwed (m.cache.slot i.toNat).totalCharge (by omega)
  have howes := owes_evictRollbackAt (f := f.freed (m.cache.slot i.toNat).totalCharge) h.charged i
    (m.cache.slot i.toNat).hashedKey (firstSlot m.cache (m.cache.slot i.toNat).hashedKey)
  rw [hcharge, hcount] at howes
  apply howes.settles h.limit h.within
  · show m.cache.usage.toNat + f.usageOwed + (m.cache.slot i.toNat).totalCharge.toNat =
      m.cache.usage.toNat + (f.usageOwed + (m.cache.slot i.toNat).totalCharge.toNat) + 0
    omega
  · show m.cache.occupancy.toNat + f.occupancyOwed + 1 = m.cache.occupancy.toNat + (f.occupancyOwed + 1) + 0
    omega
  · exact Nat.le_refl _

theorem freeData_counters (i : Nat) : (m.freeData i).cache.usage = m.cache.usage ∧
    (m.freeData i).cache.occupancy = m.cache.occupancy ∧
    (m.freeData i).cache.capacity = m.cache.capacity := by
  unfold Memory.freeData ClockCache.freeData
  simp only
  split <;> exact ⟨rfl, rfl, rfl⟩

/-- **One access settles** what it reads, writes and owes, for every position outside
`Erase`. -/
theorem step_settles (h : Covered capacity m pc) (herase : pc.erasing = false) :
    Settles capacity m pc (step choice m pc) := by
  have hlimit := h.limit
  cases pc with
  | ready | lookupReturn | insertReturn | eraseReturn =>
    exact call_settles h ⟨rfl, rfl, trivial, Nat.zero_le _, Nat.zero_le _, rfl⟩ rfl rfl rfl
  | lookup k current slot => exact lookup_settles h
  | lookupAbort k current =>
    simp only [step]
    split
    · exact Owes.still ⟨rfl, rfl, trivial, Nat.zero_le _, Nat.zero_le _, rfl⟩ h rfl rfl rfl rfl rfl
    · unfold lookupNext
      simp only
      split <;>
      exact Owes.still ⟨rfl, rfl, trivial, Nat.zero_le _, Nat.zero_le _, rfl⟩ h rfl rfl rfl rfl rfl
  | release i =>
    exact Owes.still ⟨rfl, rfl, trivial, Nat.zero_le _, Nat.zero_le _, rfl⟩ h rfl rfl rfl rfl rfl
  | insertOccupancy handle =>
    have hroom : m.cache.occupancy.toNat + 1 < 2 ^ 64 := h.room
    have hsucc : (m.cache.occupancy + 1).toNat = m.cache.occupancy.toNat + 1 := by
      rw [UInt64.toNat_add, UInt64.toNat_one, Nat.mod_eq_of_lt hroom]
    have howes : Owes capacity (.chargeLoad handle (m.cache.occupancy + 1 > m.cache.occupancyLimit)) 0 1 :=
      ⟨rfl, rfl, trivial, Nat.zero_le _, Nat.zero_le _, rfl⟩
    refine howes.settles ?_ ?_ ?_ ?_ ?_
    · exact hlimit
    · exact h.within
    · rfl
    · show (m.cache.occupancy + 1).toNat + 0 + 0 = m.cache.occupancy.toNat + 1 + 0
      omega
    · show (m.cache.occupancy + 1).toNat ≤ m.cache.occupancy.toNat + 1
      omega
  | chargeLoad handle need =>
    have howes : Owes m.cache.capacity (chargeTry m.cache handle need m.cache.usage) 0 1 :=
      owes_chargeTry h.fits (by rw [hlimit]; exact h.within)
    rw [hlimit] at howes
    exact howes.still h rfl rfl rfl rfl rfl
  | chargeCas f => exact chargeCas_settles h
  | evictPointer f | evictDelta f =>
    exact Owes.still ⟨rfl, rfl, h.charged, Nat.zero_le _, Nat.zero_le _, rfl⟩ h rfl rfl rfl rfl rfl
  | evictNext f =>
    simp only [step]
    split <;>
    exact Owes.still ⟨rfl, rfl, h.charged, Nat.zero_le _, Nat.zero_le _, rfl⟩ h rfl rfl rfl rfl rfl
  | evictStore f =>
    exact Owes.still ⟨rfl, rfl, h.charged, Nat.zero_le _, Nat.le_add_left _ 1, rfl⟩ h rfl rfl rfl rfl rfl
  | evictFree f i =>
    obtain ⟨husage, hoccupancy, hcapacity⟩ := freeData_counters (m := m) i.toNat
    exact Owes.still ⟨rfl, rfl, h.charged, Nat.zero_le _, Nat.zero_le _, rfl⟩ h rfl rfl husage hoccupancy
      hcapacity
  | evictLoad f => exact (owes_evictTest h.charged _).still h rfl rfl rfl rfl rfl
  | evictLower f w =>
    have howes := owes_evictSlotDone (f := f) h.charged
    simp only [step]
    split <;> exact howes.still h rfl rfl rfl rfl rfl
  | evictTake f w =>
    simp only [step]
    split
    · exact Owes.still ⟨rfl, rfl, h.charged, Nat.zero_le _, Nat.zero_le _, rfl⟩ h rfl rfl rfl rfl rfl
    · exact (owes_evictSlotDone (f := f) h.charged).still h rfl rfl rfl rfl rfl
  | evictOwn f i => exact evictOwn_settles h
  | evictRollback f i k current =>
    exact (owes_evictRollbackAt h.charged ..).still h rfl rfl rfl rfl rfl
  | evictMark f i => exact (owes_evictSlotDone (f := f) h.charged).still h rfl rfl rfl rfl rfl
  | settleOccupancy f =>
    have husage : f.usageOwed + 0 ≤ m.cache.usage.toNat := h.usage
    have hlt := m.cache.usage.toNat_lt
    exact (owes_settleTest h.charged (by omega)).subOccupancy h rfl rfl (Nat.add_comm _ _)
  | settleUsage f charge room =>
    cases room with
    | true => exact (owes_insertStart f.handle).subUsage h rfl rfl rfl
    | false =>
      exact Owes.subUsage (u := 0) ⟨rfl, rfl, trivial, Nat.zero_le _, Nat.le_refl 1, rfl⟩ h rfl rfl rfl
  | insertGiveUp =>
    exact Owes.subOccupancy (o := 0) ⟨rfl, rfl, trivial, Nat.zero_le _, Nat.zero_le _, rfl⟩ h rfl rfl rfl
  | insertOr f current =>
    simp only [step]
    split
    · exact Owes.still ⟨rfl, rfl, trivial, Nat.zero_le _, Nat.zero_le _, rfl⟩ h rfl rfl rfl rfl rfl
    · split
      · exact (owes_insertNext f current false).still h rfl rfl rfl rfl rfl
      · exact Owes.still ⟨rfl, rfl, trivial, Nat.zero_le _, Nat.zero_le _, rfl⟩ h rfl rfl rfl rfl rfl
  | insertWrite f current =>
    have howes : Owes capacity (.insertPublish f current) 0 0 :=
      ⟨rfl, rfl, trivial, Nat.zero_le _, Nat.zero_le _, rfl⟩
    refine howes.settles ?_ ?_ ?_ ?_ ?_
    · exact hlimit
    · exact h.within
    · show m.cache.usage.toNat + f.handle.totalCharge.toNat + 0 =
        m.cache.usage.toNat + 0 + f.handle.totalCharge.toNat
      omega
    · rfl
    · exact Nat.le_refl _
  | insertPublish f current =>
    exact Owes.still ⟨rfl, rfl, trivial, Nat.zero_le _, Nat.zero_le _, rfl⟩ h rfl rfl rfl rfl rfl
  | insertRef f current =>
    simp only [step]
    split
    · exact Owes.still ⟨rfl, rfl, trivial, Nat.zero_le _, Nat.zero_le _, rfl⟩ h rfl rfl rfl rfl rfl
    · split
      · exact Owes.still ⟨rfl, rfl, trivial, Nat.zero_le _, Nat.zero_le _, rfl⟩ h rfl rfl rfl rfl rfl
      · exact (owes_insertNext f current false).still h rfl rfl rfl rfl rfl
  | insertKey f current =>
    exact Owes.still ⟨rfl, rfl, trivial, Nat.zero_le _, Nat.zero_le _, rfl⟩ h rfl rfl rfl rfl rfl
  | insertUndo f current already =>
    exact (owes_insertNext f current already).still h rfl rfl rfl rfl rfl
  | insertDisplace f current =>
    exact Owes.still ⟨rfl, rfl, trivial, Nat.zero_le _, Nat.zero_le _, rfl⟩ h rfl rfl rfl rfl rfl
  | insertRollback f i current already =>
    exact (owes_insertRollbackAt f i _ already).still h rfl rfl rfl rfl rfl
  | insertFailOccupancy handle =>
    exact Owes.subOccupancy (o := 0) ⟨rfl, rfl, trivial, Nat.le_refl _, Nat.zero_le _, rfl⟩ h rfl rfl rfl
  | insertFailUsage handle =>
    exact Owes.subUsage (u := 0) ⟨rfl, rfl, trivial, Nat.zero_le _, Nat.zero_le _, rfl⟩ h rfl rfl rfl
  | eraseRef | eraseKey | eraseAnd | eraseCas | eraseOwn | eraseFree | eraseMark | eraseOccupancy
  | eraseUsage | eraseRollback | eraseUndo | eraseUndoNone | eraseAbort => cases herase

end Steps

/-! ### Runs -/

/-- What a thread adds to the two sums, what it owes, and whether it is about to enter. -/
def budgetTokens (pc : Pc) : Multiset Nat × Nat × Nat × Nat :=
  (pc.counted, pc.usageOwed, pc.occupancyOwed, pc.entering)

/-- The counters are the entries and what the calls in progress owe. -/
structure Budget (n : Nat) (capacity : UInt64) (s : Counted Memory) (r : Multiset Nat × Nat × Nat × Nat) :
    Prop where
  limit : s.state.cache.capacity = capacity
  within : s.state.cache.usage.toNat ≤ capacity.toNat
  usage : s.state.cache.usage.toNat = weigh n chargeOf s.state r.1 + r.2.1
  occupancy : s.state.cache.occupancy.toNat = weigh n oneOf s.state r.1 + r.2.2.1
  room : s.state.cache.occupancy.toNat + r.2.2.2 ≤ s.count

/-- What a position knows of its charge and of what it takes off. -/
structure BudgetKnows (capacity : UInt64) (pc : Pc) : Prop where
  charged : pc.Charged capacity
  usageTaken : pc.usageTaken.toNat ≤ pc.usageOwed
  occupancyTaken : pc.occupancyTaken.toNat ≤ pc.occupancyOwed

section Runs
variable {ι : Type} [Fintype ι] [DecidableEq ι] {e : Nat} {c : CallConfig ι} {t : ι} {capacity : UInt64}

/-- Calm, and the usage leaves room for every charge. -/
structure Affordable (c : CallConfig ι) (t : ι) : Prop extends Calm c t where
  fits : ChargeFits c.shared.state (c.threads t)

instance decidableAffordable (c : CallConfig ι) (t : ι) : Decidable (Affordable c t) :=
  decidable_of_iff (Calm c t ∧ ChargeFits c.shared.state (c.threads t))
    ⟨fun ⟨h1, h2⟩ => ⟨h1, h2⟩, fun ⟨h1, h2⟩ => ⟨h1, h2⟩⟩

/-- A thread is about to read no more than is counted. -/
theorem Sound.weightRead_le (h : Sound e c) (hok : Calm c t) {f : Nat → Handle → Nat} (hf : Reads f) :
    (c.threads t).weightRead f c.shared.state ≤
      weigh (2 ^ e) f c.shared.state ((c.threads t).counted + others Pc.counted c t) := by
  have hstep := h.weigh_step hok hf .go
  cases hread : (c.threads t).reading with
  | none =>
    rw [Pc.weightRead, hread]
    exact Nat.zero_le _
  | some i =>
    have hwritten : (c.threads t).weightWritten f = 0 := by
      unfold Pc.reading at hread
      split at hread
      · next heq =>
        rw [heq]
        rfl
      · cases hread
    omega

theorem Budget.covered {o : Nat × Nat × Nat} (hs : Sound e c) (hok : Affordable c t)
    (hg : Budget (2 ^ e) capacity c.shared
      (budgetTokens (c.threads t) + (others Pc.counted c t, o)))
    (hk : BudgetKnows capacity (c.threads t)) : Covered capacity c.shared.state (c.threads t) where
  limit := hg.limit
  within := hg.within
  usage := by
    have hle := hs.weightRead_le hok.toCalm reads_chargeOf
    have husage : c.shared.state.cache.usage.toNat = weigh (2 ^ e) chargeOf c.shared.state
        ((c.threads t).counted + others Pc.counted c t) + ((c.threads t).usageOwed + o.1) := hg.usage
    omega
  occupancy := by
    have hle := hs.weightRead_le hok.toCalm reads_oneOf
    have hoccupancy : c.shared.state.cache.occupancy.toNat = weigh (2 ^ e) oneOf c.shared.state
        ((c.threads t).counted + others Pc.counted c t) + ((c.threads t).occupancyOwed + o.2.1) := hg.occupancy
    omega
  room := by
    have hroom : c.shared.state.cache.occupancy.toNat + ((c.threads t).entering + o.2.2) ≤
        c.shared.count := hg.room
    have hfew := hs.calls.glob.few
    omega
  charged := hk.charged
  usageTaken := hk.usageTaken
  occupancyTaken := hk.occupancyTaken
  fits := hok.fits

/-- One step keeps the budget. -/
theorem Budget.kept {o : Nat × Nat × Nat} (hs : Sound e c) (hok : Affordable c t)
    (hg : Budget (2 ^ e) capacity c.shared (budgetTokens (c.threads t) + (others Pc.counted c t, o)))
    (hk : BudgetKnows capacity (c.threads t)) (choice : Choice) :
    Budget (2 ^ e) capacity (counting step Pc.begun choice c.shared (c.threads t)).1
        (budgetTokens (counting step Pc.begun choice c.shared (c.threads t)).2 +
          (others Pc.counted c t, o)) ∧
      BudgetKnows capacity (counting step Pc.begun choice c.shared (c.threads t)).2 := by
  have hsettles : Settles capacity c.shared.state (c.threads t) (step choice c.shared.state (c.threads t)) :=
    step_settles (hg.covered hs hok hk) hok.keeps
  have hcharge := hs.weigh_step hok.toCalm reads_chargeOf choice
  have hone := hs.weigh_step hok.toCalm reads_oneOf choice
  have husage : c.shared.state.cache.usage.toNat = weigh (2 ^ e) chargeOf c.shared.state
      ((c.threads t).counted + others Pc.counted c t) + ((c.threads t).usageOwed + o.1) := hg.usage
  have hoccupancy : c.shared.state.cache.occupancy.toNat = weigh (2 ^ e) oneOf c.shared.state
      ((c.threads t).counted + others Pc.counted c t) + ((c.threads t).occupancyOwed + o.2.1) := hg.occupancy
  have hroom : c.shared.state.cache.occupancy.toNat + ((c.threads t).entering + o.2.2) ≤
      c.shared.count := hg.room
  have husage' := hsettles.usage
  have hoccupancy' := hsettles.occupancy
  have hroom' := hsettles.room
  refine ⟨⟨hsettles.limit, hsettles.within, ?_, ?_, ?_⟩, hsettles.charged, hsettles.usageTaken,
    hsettles.occupancyTaken⟩
  · show (step choice c.shared.state (c.threads t)).1.cache.usage.toNat = weigh _ _ _ _ +
      ((step choice c.shared.state (c.threads t)).2.usageOwed + o.1)
    simp only [counting, budgetTokens, Prod.fst_add]
    omega
  · show (step choice c.shared.state (c.threads t)).1.cache.occupancy.toNat = weigh _ _ _ _ +
      ((step choice c.shared.state (c.threads t)).2.occupancyOwed + o.2.1)
    simp only [counting, budgetTokens, Prod.fst_add]
    omega
  · show (step choice c.shared.state (c.threads t)).1.cache.occupancy.toNat +
      ((step choice c.shared.state (c.threads t)).2.entering + o.2.2) ≤ c.shared.count + _
    omega

theorem others_budgetTokens (c : CallConfig ι) (t : ι) :
    others budgetTokens c t = (others Pc.counted c t, (others budgetTokens c t).2) :=
  Prod.ext Prod.fst_sum rfl

/-- The budget holds wherever an affordable run leads. -/
theorem budget_of_reaches {options : ClockCacheOptions} (hlen : options.length.toNat = 2 ^ e)
    (hr : Reaches CallAccess Affordable (callStart ι options) c) :
    Sound e c ∧ Accounting budgetTokens (Budget (2 ^ e) options.capacity)
      (fun _ => BudgetKnows options.capacity) c := by
  refine ⟨sound_of_reaches hlen (hr.mono fun _ _ h => h.toCalm), ?_⟩
  have hassumed := hr.assume (P := Sound e) (fun _ _ _ _ h hok hs => h.set hok.toCalm hs) (start_sound hlen)
  refine Accounting.reaches ?_ (fun _ _ _ _ _ _ _ hm _ _ => hm) ?_ hassumed
  · rintro c t s pc ⟨hok, hsound⟩ hk ⟨choice, hstep⟩ hg
    cases hstep
    rw [others_budgetTokens] at hg ⊢
    exact hg.kept hsound hok hk choice
  · refine ⟨?_, fun _ => ⟨trivial, Nat.le_refl 0, Nat.le_refl 0⟩⟩
    have hzero : total budgetTokens (callStart ι options) = 0 := Finset.sum_const_zero
    rw [hzero]
    exact ⟨rfl, Nat.zero_le _, (weigh_start ..).symm, (weigh_start ..).symm, Nat.le_refl 0⟩

/-- What the budget promises of a state. -/
structure WithinBudget (c : CallConfig ι) : Prop where
  usage_le : c.shared.state.cache.usage ≤ c.shared.state.cache.capacity
  taken : ∀ t, (c.threads t).usageTaken ≤ c.shared.state.cache.usage ∧
    (c.threads t).occupancyTaken ≤ c.shared.state.cache.occupancy
  settled : (∀ t, (c.threads t).idle = true) →
    c.shared.state.cache.usage.toNat = c.shared.state.cache.charges ∧
      c.shared.state.cache.occupancy.toNat = c.shared.state.cache.population

omit [DecidableEq ι] in
/-- With no call in progress the entries are the slots that are not empty. -/
theorem Sound.weigh_idle (h : Sound e c) (hidle : ∀ t, (c.threads t).idle = true)
    (f : Nat → Handle → Nat) : weigh (2 ^ e) f c.shared.state 0 = c.shared.state.cache.tally f := by
  have hnone : total Pc.tokens c.uncount = 0 := Finset.sum_eq_zero fun t _ =>
    Pc.idle_cases (P := fun pc => pc.tokens = 0) (hidle t) rfl (fun _ => rfl) (fun _ => rfl) fun _ => rfl
  have hentry : ∀ i, i < 2 ^ e →
      (Shareable (c.shared.state.metaWord i) ↔ NonEmpty (c.shared.state.cache.slot i)) := by
    intro i hi
    have hslot := h.words.glob.slots i hi
    rw [hnone] at hslot
    show Shareable _ ↔ state (c.shared.state.metaWord i) ≠ kStateEmpty
    constructor
    · rintro (hs | hs)
      · rw [hs]
        decide
      · rw [hs]
        decide
    · intro hne
      by_contra hs
      obtain ⟨st, bit, hb⟩ := hslot.isBare (fun hv => hs (.inl hv)) fun hi => hs (.inr hi)
      have hstate := hslot.state_bare hb
      rcases hb.owned with ⟨rfl, -⟩ | ⟨-, howner⟩
      · exact hne hstate
      · have hzero : (held c.uncount.shared 0 i).owners = 0 := rfl
        omega
  have hsize : c.shared.state.cache.array.length = 2 ^ e := h.words.glob.size
  rw [ClockCache.tally, entries, Finset.sum_filter, hsize]
  refine Finset.sum_congr rfl fun i hi => ?_
  simp only [Multiset.count_zero, hentry i (Finset.mem_range.mp hi)]
  split
  · rw [Nat.add_zero, Nat.one_mul]
  · rw [Nat.add_zero, Nat.zero_mul]

/-- **The charge budget holds under concurrency.** -/
theorem reaches_withinBudget {options : ClockCacheOptions} {e : Nat}
    (hlen : options.length.toNat = 2 ^ e) {c : CallConfig ι}
    (hr : Reaches CallAccess Affordable (callStart ι options) c) : WithinBudget c := by
  obtain ⟨hsound, hbudget⟩ := budget_of_reaches hlen hr
  have hglob := hbudget.glob
  have hnone : (∀ t, (c.threads t).idle = true) → total budgetTokens c = 0 := fun hidle =>
    Finset.sum_eq_zero fun t _ => Pc.idle_cases (P := fun pc => budgetTokens pc = 0) (hidle t) rfl
      (fun _ => rfl) (fun _ => rfl) fun _ => rfl
  refine ⟨?_, fun t => ⟨?_, ?_⟩, fun hidle => ⟨?_, ?_⟩⟩
  · rw [UInt64.le_iff_toNat_le, hglob.limit]
    exact hglob.within
  · have husage := hglob.usage
    have htaken := (hbudget.loc t).usageTaken
    rw [UInt64.le_iff_toNat_le]
    rw [total_eq budgetTokens c t] at husage
    have howed : (budgetTokens (c.threads t) + others budgetTokens c t).2.1 =
      (c.threads t).usageOwed + (others budgetTokens c t).2.1 := rfl
    omega
  · have hoccupancy := hglob.occupancy
    have htaken := (hbudget.loc t).occupancyTaken
    rw [UInt64.le_iff_toNat_le]
    rw [total_eq budgetTokens c t] at hoccupancy
    have howed : (budgetTokens (c.threads t) + others budgetTokens c t).2.2.1 =
      (c.threads t).occupancyOwed + (others budgetTokens c t).2.2.1 := rfl
    omega
  · rw [hglob.usage, hnone hidle]
    exact hsound.weigh_idle hidle chargeOf
  · rw [hglob.occupancy, hnone hidle, population_eq]
    exact hsound.weigh_idle hidle oneOf

end Runs

/-- The second insertion evicts the entry of the first and takes its place. -/
def evicting : List (Fin 2 × Choice) :=
  (0, .insert ⟨7, 0, (2, 0), 1⟩) :: List.replicate 6 (0, .go) ++
    (1, .insert ⟨8, 0, (4, 0), 1⟩) :: List.replicate 25 (1, .go)

theorem reaches_withinBudget_evicting :
    WithinBudget (exec (counting step Pc.begun) (callStart (Fin 2) ⟨1, 2, 0, 2, 1⟩) evicting) :=
  reaches_withinBudget (e := 1) (by decide) (reaches_exec_guarded (by decide +kernel))

end HyperCache.Clock
