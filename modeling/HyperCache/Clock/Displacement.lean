import HyperCache.Clock.Accounts
import HyperCache.Clock.Weights

/-! Displacements under concurrency.

A slot counts the entries whose search passed it, and what the calls in progress added
to it or have not yet taken back: an insertion on its way has added one to each slot it
passed, a rollback has yet to take one from each slot between where it stands and the
entry. That is exact in every state (`Displaced`), so a slot with a visible entry beyond
it on its path never reads zero, and no search for that entry stops short of it. -/
namespace HyperCache.Clock
open Interleaving ClockCache

/-! ### What a call owes -/

/-- Slot `i` comes before `h` in the search for `k`. -/
def pathTo (n : Nat) (k : UniqueId64x2) (h i : Nat) : Nat :=
  if comesTo n k i < comesTo n k h then 1 else 0

/-- And not before `current`. -/
def pathFrom (n : Nat) (k : UniqueId64x2) (current h i : Nat) : Nat :=
  if comesTo n k current ≤ comesTo n k i then pathTo n k h i else 0

/-- What an entry counts on slot `i`. -/
def displacing (n i h : Nat) (handle : Handle) : Nat := pathTo n handle.hashedKey h i

theorem reads_displacing (n i : Nat) : Reads (displacing n i) := by
  intro h s s' hdata
  show pathTo n s'.hashedKey h i = pathTo n s.hashedKey h i
  rw [hdata.hashedKey]

theorem pathTo_le_one (n : Nat) (k : UniqueId64x2) (h i : Nat) : pathTo n k h i ≤ 1 := by
  unfold pathTo
  split <;> omega

theorem pathFrom_le_one (n : Nat) (k : UniqueId64x2) (current h i : Nat) :
    pathFrom n k current h i ≤ 1 := by
  unfold pathFrom
  split
  · exact pathTo_le_one n k h i
  · exact Nat.zero_le 1

/-- `current` comes before `h` in the search for `k`. -/
structure Short (n : Nat) (k : UniqueId64x2) (current h : UInt64) : Prop where
  here : current.toNat < n
  there : h.toNat < n
  lt : comesTo n k current.toNat < comesTo n k h.toNat

namespace Pc

/-- What the call in progress left on slot `i`. -/
def debt (n : Nat) (i : Nat) : Pc → Nat
  | .insertOr f current | .insertWrite f current | .insertRef f current | .insertKey f current
  | .insertUndo f current _ | .insertDisplace f current =>
    pathTo n f.handle.hashedKey current.toNat i
  | .insertRollback f h current _ => pathFrom n f.handle.hashedKey current.toNat h.toNat i
  | .evictRollback _ h k current => pathFrom n k current.toNat h.toNat i
  | _ => 0

/-- The entries on their way in or out. -/
def inFlight : Pc → Nat
  | .evictRollback .. => 2
  | .insertOccupancy _ | .chargeLoad .. | .chargeCas _ | .evictPointer _ | .evictDelta _
  | .evictLoad _ | .evictLower .. | .evictTake .. | .evictOwn .. | .evictFree .. | .evictMark ..
  | .evictNext _ | .evictStore _ | .settleOccupancy _ | .settleUsage .. | .insertOr ..
  | .insertWrite .. | .insertRef .. | .insertKey .. | .insertUndo .. | .insertDisplace ..
  | .insertRollback .. => 1
  | _ => 0

/-- A rollback stands before its entry. -/
def Returning (n : Nat) : Pc → Prop
  | .insertRollback f h current _ => Short n f.handle.hashedKey current h
  | .evictRollback _ h k current => Short n k current h
  | _ => True

theorem debt_le (pc : Pc) (n i : Nat) : pc.debt n i ≤ pc.inFlight := by
  cases pc with
  | insertOr f current | insertWrite f current | insertRef f current | insertKey f current
  | insertUndo f current | insertDisplace f current => exact pathTo_le_one ..
  | insertRollback f h current already => exact pathFrom_le_one ..
  | evictRollback f h k current => exact (pathFrom_le_one ..).trans (Nat.le_succ 1)
  | _ => exact Nat.zero_le _

end Pc

/-- A position that owes so much to each slot, with so many entries on their way. -/
structure Debts (n : Nat) (d : Nat → Nat) (l : Nat) (pc : Pc) : Prop where
  debt : ∀ i, i < n → pc.debt n i = d i
  inFlight : pc.inFlight ≤ l
  returning : pc.Returning n

section Local
variable {n : Nat} {c : ClockCache}

theorem debts_evictSlotDone (f : EvictFrame) : Debts n (fun _ => 0) 1 (evictSlotDone f) := by
  unfold evictSlotDone
  repeat' split
  all_goals exact ⟨fun _ _ => rfl, Nat.le_refl 1, trivial⟩

theorem debts_evictTest (f : EvictFrame) (w : UInt64) : Debts n (fun _ => 0) 1 (evictTest f w) := by
  unfold evictTest
  split
  · exact debts_evictSlotDone f
  · split
    · exact debts_evictSlotDone _
    · split <;> exact ⟨fun _ _ => rfl, Nat.le_refl 1, trivial⟩

theorem debts_insertEnd (f : InsertFrame) (already : Bool) :
    Debts n (fun _ => 0) 1 (insertEnd c f already) := by
  unfold insertEnd
  split <;> exact ⟨fun _ _ => rfl, Nat.zero_le 1, trivial⟩

/-- A rollback that stands at `current`, on its way or at its end. -/
theorem debts_evictRollbackAt (f : EvictFrame) (h : UInt64) (k : UniqueId64x2) (current : UInt64)
    (hs : current ≠ h → Short n k current h) :
    Debts n (pathFrom n k current.toNat h.toNat) 2 (evictRollbackAt f h k current) := by
  unfold evictRollbackAt
  split
  · next heq =>
    refine ⟨fun i _ => ?_, Nat.le_succ 1, trivial⟩
    show 0 = _
    unfold pathFrom pathTo
    rw [heq]
    grind
  · next hne => exact ⟨fun _ _ => rfl, Nat.le_refl 2, hs hne⟩

theorem debts_insertRollbackAt (f : InsertFrame) (h current : UInt64) (already : Bool)
    (hs : current ≠ h → Short n f.handle.hashedKey current h) :
    Debts n (pathFrom n f.handle.hashedKey current.toNat h.toNat) 1
      (insertRollbackAt c f h current already) := by
  unfold insertRollbackAt
  split
  · next heq =>
    obtain ⟨hdebt, hlive, hreturning⟩ := debts_insertEnd (n := n) (c := c) f already
    refine ⟨fun i hi => ?_, hlive, hreturning⟩
    rw [hdebt i hi]
    unfold pathFrom pathTo
    rw [heq]
    grind
  · next hne => exact ⟨fun _ _ => rfl, Nat.le_refl 1, hs hne⟩

end Local

section Paths
variable {e : Nat} {c : ClockCache} (hc : Sized e c)
include hc

theorem pathTo_first (k : UniqueId64x2) (i : Nat) : pathTo (2 ^ e) k (firstSlot c k).toNat i = 0 := by
  rw [pathTo, hc.comesTo_first, if_neg (Nat.not_lt_zero _)]

theorem pathFrom_first (k : UniqueId64x2) (h i : Nat) :
    pathFrom (2 ^ e) k (firstSlot c k).toNat h i = pathTo (2 ^ e) k h i := by
  rw [pathFrom, hc.comesTo_first, if_pos (Nat.zero_le _)]

theorem firstSlot_inside (k : UniqueId64x2) : (firstSlot c k).toNat < 2 ^ e :=
  firstSlot_lt hc.length (Nat.two_pow_pos e) k

theorem nextSlot_inside (k : UniqueId64x2) (current : UInt64) : (nextSlot c k current).toNat < 2 ^ e :=
  nextSlot_lt hc.length (Nat.two_pow_pos e) k current

/-- A step that is not the last comes to the next slot. -/
theorem comesTo_on {k : UniqueId64x2} {current : UInt64} (hi : current.toNat < 2 ^ e)
    (hlt : comesTo (2 ^ e) k current.toNat + 1 < 2 ^ e) :
    comesTo (2 ^ e) k (nextSlot c k current).toNat = comesTo (2 ^ e) k current.toNat + 1 := by
  have hnext := hc.comesTo_next k hi
  split at hnext
  · exact absurd hnext (Nat.ne_of_lt hlt)
  · exact hnext

/-- The path to the next slot has one slot more. -/
theorem pathTo_next {k : UniqueId64x2} {current : UInt64} (hi : current.toNat < 2 ^ e)
    (hlt : comesTo (2 ^ e) k current.toNat + 1 < 2 ^ e) {i : Nat} (hin : i < 2 ^ e) :
    pathTo (2 ^ e) k (nextSlot c k current).toNat i =
      pathTo (2 ^ e) k current.toNat i + if i = current.toNat then 1 else 0 := by
  have hsame : comesTo (2 ^ e) k i = comesTo (2 ^ e) k current.toNat ↔ i = current.toNat :=
    ⟨hc.comesTo_injective k hin hi, fun h => by rw [h]⟩
  unfold pathTo
  rw [comesTo_on hc hi hlt]
  simp only [← hsame]
  grind

theorem pathFrom_next {k : UniqueId64x2} {current h : UInt64} (hs : Short (2 ^ e) k current h) {i : Nat}
    (hin : i < 2 ^ e) : pathFrom (2 ^ e) k current.toNat h.toNat i =
      pathFrom (2 ^ e) k (nextSlot c k current).toNat h.toNat i + if i = current.toNat then 1 else 0 := by
  have hsame : comesTo (2 ^ e) k i = comesTo (2 ^ e) k current.toNat ↔ i = current.toNat :=
    ⟨hc.comesTo_injective k hin hs.here, fun h => by rw [h]⟩
  have hlt := hs.lt
  have hend := hc.comesTo_lt k hs.there
  unfold pathFrom pathTo
  rw [comesTo_on hc hs.here (by omega)]
  simp only [← hsame]
  grind

/-- The next slot is the entry, or comes before it. -/
theorem Short.next {k : UniqueId64x2} {current h : UInt64} (hs : Short (2 ^ e) k current h)
    (hne : nextSlot c k current ≠ h) : Short (2 ^ e) k (nextSlot c k current) h where
  here := nextSlot_inside hc k current
  there := hs.there
  lt := by
    have hlt := hs.lt
    have hend := hc.comesTo_lt k hs.there
    have hnext := comesTo_on (k := k) hc hs.here (by omega)
    have hother : comesTo (2 ^ e) k (nextSlot c k current).toNat ≠ comesTo (2 ^ e) k h.toNat := fun heq =>
      hne (UInt64.toNat_inj.mp (hc.comesTo_injective k (nextSlot_inside hc k current) hs.there heq))
    omega

/-- The first slot is the entry, or comes before it. -/
theorem short_first {k : UniqueId64x2} {h : UInt64} (hh : h.toNat < 2 ^ e) (hne : firstSlot c k ≠ h) :
    Short (2 ^ e) k (firstSlot c k) h where
  here := firstSlot_inside hc k
  there := hh
  lt := by
    have hother : comesTo (2 ^ e) k (firstSlot c k).toNat ≠ comesTo (2 ^ e) k h.toNat := fun heq =>
      hne (UInt64.toNat_inj.mp (hc.comesTo_injective k (firstSlot_inside hc k) hh heq))
    have hfirst := hc.comesTo_first k
    omega

theorem debts_insertStart (handle : Handle) : Debts (2 ^ e) (fun _ => 0) 1 (insertStart c handle) :=
  ⟨fun i _ => pathTo_first hc handle.hashedKey i, Nat.le_refl 1, trivial⟩

theorem debts_chargeDone (f : EvictFrame) : Debts (2 ^ e) (fun _ => 0) 1 (chargeDone c f) := by
  rw [chargeDone]
  split
  · exact ⟨fun _ _ => rfl, Nat.le_refl 1, trivial⟩
  · exact debts_insertStart hc f.handle

theorem debts_chargeTry (handle : Handle) (need : Bool) (old : UInt64) :
    Debts (2 ^ e) (fun _ => 0) 1 (chargeTry c handle need old) := by
  unfold chargeTry
  simp only
  split
  · exact debts_chargeDone hc _
  · exact ⟨fun _ _ => rfl, Nat.le_refl 1, trivial⟩

theorem debts_settleTest (f : EvictFrame) : Debts (2 ^ e) (fun _ => 0) 1 (settleTest c f) := by
  rw [settleTest]
  split
  · exact ⟨fun _ _ => rfl, Nat.le_refl 1, trivial⟩
  · split
    · exact ⟨fun _ _ => rfl, Nat.le_refl 1, trivial⟩
    · exact debts_insertStart hc f.handle

/-- An insertion that passes its slot keeps what it left before it. -/
theorem debts_insertNext (f : InsertFrame) {current : UInt64} (already : Bool)
    (hi : current.toNat < 2 ^ e) :
    Debts (2 ^ e) (pathTo (2 ^ e) f.handle.hashedKey current.toNat) 1 (insertNext c f current already) := by
  have hback : ∀ already, Debts (2 ^ e) (pathTo (2 ^ e) f.handle.hashedKey current.toNat) 1
      (insertRollbackAt c f current (firstSlot c f.handle.hashedKey) already) := by
    intro already
    have hdebts := debts_insertRollbackAt (c := c) f current (firstSlot c f.handle.hashedKey) already
      (short_first hc hi)
    have hsame : pathFrom (2 ^ e) f.handle.hashedKey (firstSlot c f.handle.hashedKey).toNat current.toNat =
        pathTo (2 ^ e) f.handle.hashedKey current.toNat :=
      funext fun i => pathFrom_first hc f.handle.hashedKey current.toNat i
    rwa [hsame] at hdebts
  unfold insertNext
  simp only
  split
  · exact hback true
  · split
    · exact hback false
    · exact ⟨fun _ _ => rfl, Nat.le_refl 1, trivial⟩

end Paths

/-! ### One access -/

/-- What an access changes in the displacements and the entries on their way. -/
structure Displaces (n : Nat) (m : Memory) (pc : Pc) (r : Memory × Pc) : Prop where
  balance : ∀ i, i < n →
    (r.1.cache.slot i).displacements.toNat + pc.debt n i + pc.weightRead (displacing n i) m =
      (m.cache.slot i).displacements.toNat + r.2.debt n i + pc.weightWritten (displacing n i)
  inFlight : r.2.inFlight + pc.weightWritten oneOf ≤ pc.inFlight + pc.weightRead oneOf m + pc.begun r.2
  returning : r.2.Returning n

/-- Every slot counts what is owed to it, and has room for one more. -/
def Counts (n : Nat) (m : Memory) (pc : Pc) : Prop :=
  ∀ i, i < n → pc.debt n i ≤ (m.cache.slot i).displacements.toNat ∧
    (m.cache.slot i).displacements.toNat + 1 < 2 ^ 32

section Memory
variable {n : Nat} {i : Nat} {m m' : Memory} {pc pc' : Pc}

theorem displacements_setSlot {s : HandleImpl} (h : s.displacements = (m.cache.slot i).displacements)
    (j : Nat) : ((m.setSlot i s).cache.slot j).displacements = (m.cache.slot j).displacements := by
  show ((m.cache.setSlot i s).slot j).displacements = _
  by_cases hi : i < m.cache.array.length
  · rw [slot_setSlot m.cache j s hi]
    split
    · next hj => rw [h, hj]
    · rfl
  · rw [ClockCache.setSlot, List.set_eq_of_length_le (Nat.le_of_not_lt hi)]

theorem displacements_setMeta (w : UInt64) (j : Nat) :
    ((m.setMeta i w).cache.slot j).displacements = (m.cache.slot j).displacements :=
  displacements_setSlot (s := {m.cache.slot i with metaWord := w}) rfl j

theorem displacements_freeData (j : Nat) :
    ((m.freeData i).cache.slot j).displacements = (m.cache.slot j).displacements := by
  unfold Memory.freeData ClockCache.freeData
  simp only
  split
  · exact displacements_setSlot (s := {m.cache.slot i with value := 0}) rfl j
  · rfl

theorem displacements_displace (hi : i < m.cache.array.length) (count : UInt32) (j : Nat) :
    ((m.displace i count).cache.slot j).displacements =
      if j = i then (m.cache.slot j).displacements + count else (m.cache.slot j).displacements := by
  show ((m.cache.displace i count).slot j).displacements = _
  rw [slot_displace m.cache j count fun _ => hi]
  split <;> rfl

theorem Debts.displaces {d : Nat → Nat} {l : Nat} (h : Debts n d l pc')
    (hbalance : ∀ i, i < n →
      (m'.cache.slot i).displacements.toNat + pc.debt n i + pc.weightRead (displacing n i) m =
        (m.cache.slot i).displacements.toNat + d i + pc.weightWritten (displacing n i))
    (hlive : l + pc.weightWritten oneOf ≤ pc.inFlight + pc.weightRead oneOf m) :
    Displaces n m pc (m', pc') where
  balance := by
    intro i hi
    rw [h.debt i hi]
    exact hbalance i hi
  inFlight := by
    have hle := h.inFlight
    simp only
    omega
  returning := h.returning

/-- A position that neither reads nor writes an entry. -/
theorem Debts.quiet {d : Nat → Nat} (h : Debts n d pc.inFlight pc') (hread : pc.reading = none)
    (hwrite : pc.writing = none)
    (hbalance : ∀ i, i < n → (m'.cache.slot i).displacements.toNat + pc.debt n i =
      (m.cache.slot i).displacements.toNat + d i) : Displaces n m pc (m', pc') := by
  apply h.displaces
  · intro i hi
    rw [Pc.weightRead, Pc.weightWritten, hread, hwrite]
    exact hbalance i hi
  · rw [Pc.weightRead, Pc.weightWritten, hread, hwrite]

/-- A step that leaves the displacements and what it owes to them. -/
theorem Debts.still (h : Debts n (fun i => pc.debt n i) pc.inFlight pc') (hread : pc.reading = none)
    (hwrite : pc.writing = none)
    (hsame : ∀ i, (m'.cache.slot i).displacements = (m.cache.slot i).displacements) :
    Displaces n m pc (m', pc') :=
  h.quiet hread hwrite fun i _ => by rw [hsame]

/-- A call begins, or the thread stays outside any. -/
theorem call_displaces {choice : Choice} (hbusy : pc.busy = 0) (hdebt : ∀ i, pc.debt n i = 0)
    (hread : pc.reading = none) (hwrite : pc.writing = none) (hreturning : pc.Returning n) :
    Displaces n m pc (callStep m pc choice) := by
  have hstay : ∀ m', m'.cache = m.cache → Displaces n m pc (m', pc) := fun m' hcache =>
    Debts.still ⟨fun _ _ => rfl, Nat.le_refl _, hreturning⟩ hread hwrite fun i => by rw [hcache]
  have hbegin : ∀ m' pc', m'.cache = m.cache → pc'.busy = 1 → pc'.inFlight ≤ 1 →
      (∀ i, pc'.debt n i = 0) → pc'.Returning n → Displaces n m pc (m', pc') := by
    intro m' pc' hcache hone hlive hzero hreturns
    refine ⟨fun i _ => ?_, ?_, hreturns⟩
    · rw [Pc.weightRead, Pc.weightWritten, hread, hwrite]
      simp only [hcache, hdebt, hzero]
    · rw [Pc.weightRead, Pc.weightWritten, hread, hwrite]
      simp only [Pc.begun, hbusy, hone]
      omega
  cases choice with
  | release h =>
    rw [callStep]
    split
    · exact hbegin _ _ rfl rfl (Nat.zero_le 1) (fun _ => rfl) trivial
    · exact hstay m rfl
  | lookup k => exact hbegin _ _ rfl rfl (Nat.zero_le 1) (fun _ => rfl) trivial
  | insert handle => exact hbegin _ _ rfl rfl (Nat.le_refl 1) (fun _ => rfl) trivial
  | erase k => exact hbegin _ _ rfl rfl (Nat.zero_le 1) (fun _ => rfl) trivial
  | go => exact hstay m rfl
  | spurious => exact hstay m rfl

/-- The displacement of one slot, added to it or taken back. -/
theorem toNat_add_one {x : UInt32} (h : x.toNat + 1 < 2 ^ 32) : (x + 1).toNat = x.toNat + 1 := by
  rw [UInt32.toNat_add, UInt32.toNat_one, Nat.mod_eq_of_lt h]

theorem toNat_add_neg_one {x : UInt32} (h : 1 ≤ x.toNat) : (x + -1).toNat + 1 = x.toNat := by
  have hsub : x + -1 = x - 1 := (UInt32.sub_eq_add_neg x 1).symm
  rw [hsub, UInt32.toNat_sub_of_le x 1 (UInt32.le_iff_toNat_le.mpr h), UInt32.toNat_one]
  omega

/-- A slot passed by an insertion counts one more. -/
theorem Debts.raise {current : UInt64} (h : Debts n (fun i => pc.debt n i + if i = current.toNat then 1 else 0)
      pc.inFlight pc') (hcounts : Counts n m pc) (hread : pc.reading = none) (hwrite : pc.writing = none)
    (hi : current.toNat < m.cache.array.length) : Displaces n m pc (m.displace current.toNat 1, pc') := by
  apply h.quiet hread hwrite
  intro i hn
  rw [displacements_displace hi]
  split
  · rw [toNat_add_one (hcounts i hn).2]
    omega
  · rfl

/-- A slot that a rollback passes counts one less, which was owed to it. -/
theorem Debts.lower {current : UInt64} {d : Nat → Nat} (h : Debts n d pc.inFlight pc')
    (hdebt : ∀ i, i < n → pc.debt n i = d i + if i = current.toNat then 1 else 0)
    (hcounts : Counts n m pc) (hread : pc.reading = none) (hwrite : pc.writing = none)
    (hi : current.toNat < m.cache.array.length) : Displaces n m pc (m.displace current.toNat (-1), pc') := by
  apply h.quiet hread hwrite
  intro i hn
  have howed := hdebt i hn
  have hle := (hcounts i hn).1
  rw [displacements_displace hi]
  split at howed
  · next heq =>
    have hback := toNat_add_neg_one (x := (m.cache.slot i).displacements) (by omega)
    rw [if_pos heq]
    omega
  · next hne =>
    rw [if_neg hne]
    omega

end Memory

section Steps
variable {carry : Bool} {e : Nat} {m : Memory} {o : Multiset Token} {choice : Choice}

theorem lookupAccess_word (k : UniqueId64x2) (h : HandleImpl) (slot : SlotPc) :
    ∃ w, (lookupAccess k h slot).1 = {h with metaWord := w} := by
  cases slot <;> exact ⟨_, rfl⟩

theorem lookup_displaces {n : Nat} {k : UniqueId64x2} {current : UInt64} {slot : SlotPc} :
    Displaces n m (.lookup k current slot) (step choice m (.lookup k current slot)) := by
  have hkeeps : ∀ i, ((m.setSlot current.toNat
      (lookupAccess k (m.cache.slot current.toNat) slot).1).cache.slot i).displacements =
      (m.cache.slot i).displacements := by
    obtain ⟨w, hw⟩ := lookupAccess_word k (m.cache.slot current.toNat) slot
    rw [hw]
    exact displacements_setMeta w
  have hother : ∀ m' pc', (∀ i, (m'.cache.slot i).displacements = (m.cache.slot i).displacements) →
      Debts n (fun _ => 0) 0 pc' → Displaces n m (.lookup k current slot) (m', pc') :=
    fun _ _ hsame hd => hd.still rfl rfl hsame
  simp only [step]
  split
  · exact hother _ (.lookup k current _) hkeeps ⟨fun _ _ => rfl, Nat.le_refl 0, trivial⟩
  · exact hother _ (.lookupReturn _) hkeeps ⟨fun _ _ => rfl, Nat.le_refl 0, trivial⟩
  · refine hother _ (.lookupAbort k current) ?_ ⟨fun _ _ => rfl, Nat.le_refl 0, trivial⟩
    split
    · exact hkeeps
    · exact hkeeps

theorem insertRef_displaces {f : InsertFrame} {current : UInt64} (hc : Sized e m.cache)
    (hi : current.toNat < 2 ^ e) :
    Displaces (2 ^ e) m (.insertRef f current) (step choice m (.insertRef f current)) := by
  simp only [step]
  split
  · exact Debts.still ⟨fun _ _ => rfl, Nat.le_refl 1, trivial⟩ rfl rfl (displacements_setMeta _)
  · split
    · exact Debts.still ⟨fun _ _ => rfl, Nat.le_refl 1, trivial⟩ rfl rfl (displacements_setMeta _)
    · exact (debts_insertNext hc f false hi).still rfl rfl (displacements_setMeta _)

theorem insertOr_displaces {f : InsertFrame} {current : UInt64} (hc : Sized e m.cache)
    (hi : current.toNat < 2 ^ e) :
    Displaces (2 ^ e) m (.insertOr f current) (step choice m (.insertOr f current)) := by
  simp only [step]
  split
  · exact Debts.still ⟨fun _ _ => rfl, Nat.le_refl 1, trivial⟩ rfl rfl (displacements_setMeta _)
  · split
    · exact (debts_insertNext hc f false hi).still rfl rfl (displacements_setMeta _)
    · exact Debts.still ⟨fun _ _ => rfl, Nat.le_refl 1, trivial⟩ rfl rfl (displacements_setMeta _)

/-- The taken entry is read: what it counted on its path is owed from here on. -/
theorem evictOwn_displaces {f : EvictFrame} {h : UInt64} (hc : Sized e m.cache) (hi : h.toNat < 2 ^ e) :
    Displaces (2 ^ e) m (.evictOwn f h) (step choice m (.evictOwn f h)) := by
  refine (debts_evictRollbackAt _ h _ _ (short_first hc hi)).displaces (fun i hn => ?_) (Nat.le_refl 2)
  show (m.cache.slot i).displacements.toNat + 0 + pathTo _ (m.cache.slot h.toNat).hashedKey h.toNat i =
    (m.cache.slot i).displacements.toNat + pathFrom _ (m.cache.slot h.toNat).hashedKey _ h.toNat i + 0
  rw [pathFrom_first hc]
  omega

/-- The entry is written: what the search left on its path, it counts from here on. -/
theorem insertWrite_displaces {f : InsertFrame} {current : UInt64} :
    Displaces (2 ^ e) m (.insertWrite f current) (step choice m (.insertWrite f current)) := by
  have hdebts : Debts (2 ^ e) (fun _ => 0) 0 (.insertPublish f current) :=
    ⟨fun _ _ => rfl, Nat.le_refl 0, trivial⟩
  refine hdebts.displaces (fun i _ => ?_) (Nat.le_refl 1)
  have hsame := displacements_setSlot (m := m) (i := current.toNat)
    (s := {m.cache.slot current.toNat with toHandle := f.handle}) rfl i
  show ((m.setSlot current.toNat _).cache.slot i).displacements.toNat +
    pathTo _ f.handle.hashedKey current.toNat i + 0 =
    (m.cache.slot i).displacements.toNat + 0 + pathTo _ f.handle.hashedKey current.toNat i
  rw [hsame]
  omega

/-- **What one access displaces**, for every position outside `Erase`. -/
theorem step_displaces {pc : Pc} (h : Protected carry (2 ^ e) m (pc.tokens + o)) (hk : Knows (2 ^ e) pc)
    (hw : pc.Within (2 ^ e)) (hr : pc.Returning (2 ^ e)) (hcounts : Counts (2 ^ e) m pc)
    (herase : pc.erasing = false) : Displaces (2 ^ e) m pc (step choice m pc) := by
  have hc : Sized e m.cache := ⟨h.length, h.size⟩
  have hsize : ∀ i, i < 2 ^ e → i < m.cache.array.length := fun i hi => by rwa [h.size]
  cases pc with
  | ready | lookupReturn | insertReturn | eraseReturn =>
    exact call_displaces rfl (fun _ => rfl) rfl rfl trivial
  | lookup k current slot => exact lookup_displaces
  | lookupAbort k current =>
    simp only [step]
    split
    · exact Debts.still ⟨fun _ _ => rfl, Nat.le_refl 0, trivial⟩ rfl rfl fun _ => rfl
    · unfold lookupNext
      simp only
      split <;> exact Debts.still ⟨fun _ _ => rfl, Nat.le_refl 0, trivial⟩ rfl rfl fun _ => rfl
  | release i =>
    exact Debts.still ⟨fun _ _ => rfl, Nat.le_refl 0, trivial⟩ rfl rfl (displacements_setMeta _)
  | insertOccupancy | evictPointer | evictDelta | evictStore =>
    exact Debts.still ⟨fun _ _ => rfl, Nat.le_refl 1, trivial⟩ rfl rfl fun _ => rfl
  | evictNext f =>
    simp only [step]
    split <;> exact Debts.still ⟨fun _ _ => rfl, Nat.le_refl 1, trivial⟩ rfl rfl fun _ => rfl
  | chargeLoad handle need => exact (debts_chargeTry hc handle need _).still rfl rfl fun _ => rfl
  | chargeCas f =>
    simp only [step]
    split
    · exact (debts_chargeDone hc f).still rfl rfl fun _ => rfl
    · exact (debts_chargeTry hc ..).still rfl rfl fun _ => rfl
  | evictLoad f => exact (debts_evictTest f _).still rfl rfl fun _ => rfl
  | evictLower f w =>
    simp only [step]
    split
    · exact (debts_evictSlotDone f).still rfl rfl (displacements_setMeta _)
    · exact (debts_evictSlotDone f).still rfl rfl fun _ => rfl
  | evictTake f w =>
    simp only [step]
    split
    · exact Debts.still ⟨fun _ _ => rfl, Nat.le_refl 1, trivial⟩ rfl rfl (displacements_setMeta _)
    · exact (debts_evictSlotDone f).still rfl rfl fun _ => rfl
  | evictOwn f i => exact evictOwn_displaces hc hk.2
  | evictRollback f i k current =>
    exact (debts_evictRollbackAt f i k _ (Short.next hc hr)).lower (fun j hj => pathFrom_next hc hr hj) hcounts
      rfl rfl (hsize _ hr.here)
  | evictFree f i => exact Debts.still ⟨fun _ _ => rfl, Nat.le_refl 1, trivial⟩ rfl rfl displacements_freeData
  | evictMark f i => exact (debts_evictSlotDone f).still rfl rfl (displacements_setMeta _)
  | settleOccupancy f => exact (debts_settleTest hc f).still rfl rfl fun _ => rfl
  | settleUsage f charge room =>
    cases room with
    | true => exact (debts_insertStart hc f.handle).still rfl rfl fun _ => rfl
    | false => exact Debts.still ⟨fun _ _ => rfl, Nat.zero_le 1, trivial⟩ rfl rfl fun _ => rfl
  | insertGiveUp | insertFailOccupancy | insertFailUsage =>
    exact Debts.still ⟨fun _ _ => rfl, Nat.le_refl 0, trivial⟩ rfl rfl fun _ => rfl
  | insertOr f current => exact insertOr_displaces hc hk
  | insertWrite f current => exact insertWrite_displaces
  | insertPublish f current =>
    exact Debts.still ⟨fun _ _ => rfl, Nat.le_refl 0, trivial⟩ rfl rfl (displacements_setMeta _)
  | insertRef f current => exact insertRef_displaces hc hk
  | insertKey f current => exact Debts.still ⟨fun _ _ => rfl, Nat.le_refl 1, trivial⟩ rfl rfl fun _ => rfl
  | insertUndo f current already =>
    exact (debts_insertNext hc f already hk).still rfl rfl (displacements_setMeta _)
  | insertDisplace f current =>
    refine Debts.raise ⟨fun j hj => pathTo_next hc hw.1 hw.2 hj, Nat.le_refl 1, trivial⟩ hcounts rfl rfl
      (hsize _ hw.1)
  | insertRollback f i current already =>
    exact (debts_insertRollbackAt f i _ already (Short.next hc hr)).lower (fun j hj => pathFrom_next hc hr hj)
      hcounts rfl rfl (hsize _ hr.here)
  | eraseRef | eraseKey | eraseAnd | eraseCas | eraseOwn | eraseFree | eraseMark | eraseOccupancy
  | eraseUsage | eraseRollback | eraseUndo | eraseUndoNone | eraseAbort => cases herase

end Steps

/-! ### Runs -/

/-- What a thread adds to the entries, what it owes to each slot, and the entries it
has on their way. -/
def displacementTokens (n : Nat) (pc : Pc) : Multiset Nat × (Nat → Nat) × Nat :=
  (pc.counted, fun i => pc.debt n i, pc.inFlight)

/-- Each slot counts the entries displaced over it and what the calls owe to it, and
there are no more entries than calls. -/
structure Displaced (n : Nat) (s : Counted Memory) (r : Multiset Nat × (Nat → Nat) × Nat) : Prop where
  counts : ∀ i, i < n →
    (s.state.cache.slot i).displacements.toNat = weigh n (displacing n i) s.state r.1 + r.2.1 i
  entries : weigh n oneOf s.state r.1 + r.2.2 ≤ s.count

section Runs
variable {ι : Type} [Fintype ι] [DecidableEq ι] {e : Nat} {c : CallConfig ι} {t : ι}

theorem others_displacementTokens (n : Nat) (c : CallConfig ι) (t : ι) :
    others (displacementTokens n) c t =
      (others Pc.counted c t, (others (displacementTokens n) c t).2) :=
  Prod.ext Prod.fst_sum rfl

/-- The other threads owe to one slot no more than they have on their way. -/
theorem others_debt_le (n : Nat) (c : CallConfig ι) (t : ι) (i : Nat) :
    (others (displacementTokens n) c t).2.1 i ≤ (others (displacementTokens n) c t).2.2 := by
  rw [others, Prod.snd_sum, Prod.fst_sum, Prod.snd_sum, Finset.sum_apply]
  exact Finset.sum_le_sum fun u _ => (c.threads u).debt_le n i

theorem Displaced.counted {o : (Nat → Nat) × Nat} (hs : Sound e c)
    (hg : Displaced (2 ^ e) c.shared
      (displacementTokens (2 ^ e) (c.threads t) + (others Pc.counted c t, o)))
    (hle : ∀ i, o.1 i ≤ o.2) : Counts (2 ^ e) c.shared.state (c.threads t) := by
  intro i hi
  have hcounts : (c.shared.state.cache.slot i).displacements.toNat =
      weigh (2 ^ e) (displacing (2 ^ e) i) c.shared.state
        ((c.threads t).counted + others Pc.counted c t) + ((c.threads t).debt (2 ^ e) i + o.1 i) :=
    hg.counts i hi
  have hentries : weigh (2 ^ e) oneOf c.shared.state ((c.threads t).counted + others Pc.counted c t) +
      ((c.threads t).inFlight + o.2) ≤ c.shared.count := hg.entries
  have hweigh : weigh (2 ^ e) (displacing (2 ^ e) i) c.shared.state
      ((c.threads t).counted + others Pc.counted c t) ≤
      weigh (2 ^ e) oneOf c.shared.state ((c.threads t).counted + others Pc.counted c t) :=
    weigh_mono fun h handle => pathTo_le_one _ handle.hashedKey h i
  have hown := (c.threads t).debt_le (2 ^ e) i
  have hothers := hle i
  have hfew := hs.calls.glob.few
  omega

/-- One step keeps the count of every slot. -/
theorem Displaced.kept {o : (Nat → Nat) × Nat} (hs : Sound e c) (hok : Calm c t)
    (hg : Displaced (2 ^ e) c.shared
      (displacementTokens (2 ^ e) (c.threads t) + (others Pc.counted c t, o)))
    (hle : ∀ i, o.1 i ≤ o.2) (hr : (c.threads t).Returning (2 ^ e)) (choice : Choice) :
    Displaced (2 ^ e) (counting step Pc.begun choice c.shared (c.threads t)).1
        (displacementTokens (2 ^ e) (counting step Pc.begun choice c.shared (c.threads t)).2 +
          (others Pc.counted c t, o)) ∧
      (counting step Pc.begun choice c.shared (c.threads t)).2.Returning (2 ^ e) := by
  have hwords := hs.words.glob
  rw [total_eq Pc.tokens c.uncount t] at hwords
  have hstep : Displaces (2 ^ e) c.shared.state (c.threads t) (step choice c.shared.state (c.threads t)) :=
    step_displaces hwords (hs.words.loc t) (hs.calls.loc t).1 hr (hg.counted hs hle) hok.keeps
  refine ⟨⟨fun i hi => ?_, ?_⟩, hstep.returning⟩
  · have hcounts : (c.shared.state.cache.slot i).displacements.toNat =
        weigh (2 ^ e) (displacing (2 ^ e) i) c.shared.state
          ((c.threads t).counted + others Pc.counted c t) + ((c.threads t).debt (2 ^ e) i + o.1 i) :=
      hg.counts i hi
    have hweigh := hs.weigh_step hok (reads_displacing (2 ^ e) i) choice
    have hbalance := hstep.balance i hi
    show ((step choice c.shared.state (c.threads t)).1.cache.slot i).displacements.toNat =
      weigh _ _ _ _ + ((step choice c.shared.state (c.threads t)).2.debt (2 ^ e) i + o.1 i)
    simp only [counting, displacementTokens, Prod.fst_add]
    omega
  · have hentries : weigh (2 ^ e) oneOf c.shared.state
        ((c.threads t).counted + others Pc.counted c t) + ((c.threads t).inFlight + o.2) ≤
        c.shared.count := hg.entries
    have hweigh := hs.weigh_step hok reads_oneOf choice
    have hlive := hstep.inFlight
    show weigh _ _ _ _ + ((step choice c.shared.state (c.threads t)).2.inFlight + o.2) ≤
      c.shared.count + (c.threads t).begun (step choice c.shared.state (c.threads t)).2
    simp only [counting, displacementTokens, Prod.fst_add]
    omega

/-- The slots count right wherever a calm run leads. -/
theorem displaced_of_reaches {options : ClockCacheOptions} (hlen : options.length.toNat = 2 ^ e)
    (hr : Reaches CallAccess Calm (callStart ι options) c) :
    Accounting (displacementTokens (2 ^ e)) (Displaced (2 ^ e)) (fun _ pc => pc.Returning (2 ^ e)) c := by
  have hassumed := hr.assume (P := Sound e) (fun _ _ _ _ h hok hs => h.set hok hs) (start_sound hlen)
  refine Accounting.reaches ?_ (fun _ _ _ _ _ _ _ hm _ _ => hm) ?_ hassumed
  · rintro c t s pc ⟨hok, hsound⟩ hreturning ⟨choice, hstep⟩ hg
    cases hstep
    have hle := others_debt_le (2 ^ e) c t
    rw [others_displacementTokens] at hg ⊢
    exact hg.kept hsound hok hle hreturning choice
  · refine ⟨?_, fun _ => trivial⟩
    have hzero : total (displacementTokens (2 ^ e)) (callStart ι options) = 0 := Finset.sum_const_zero
    rw [hzero]
    refine ⟨fun i hi => ?_, Nat.le_of_eq (weigh_start ..)⟩
    show ((ClockCache.make options).slot i).displacements.toNat = weigh _ _ (Memory.start options) 0 + 0
    rw [make_slot, weigh_start]
    rfl

end Runs

/-! ### Searches -/

/-- The accesses of the match function at one slot that are still to come, with the
one of the abort function after a miss. -/
def SlotPc.remaining : SlotPc → Nat
  | .ref => 4
  | .key => 3
  | .hit => 2
  | .hitSub _ => 1
  | .undo => 2

/-- The search has not come past slot `s`, and not to it where it gives its slot up. -/
def SlotPc.Toward (current s : Nat) : SlotPc → Prop
  | .ref | .key => current ≤ s
  | .hit | .hitSub _ => True
  | .undo => current < s

namespace Pc

/-- The accesses of the lookup that are still to come, when it goes on to slot `s`. -/
def remaining (n : Nat) (s : Nat) : Pc → Nat
  | .lookup k current slot => 4 * (comesTo n k s - comesTo n k current.toNat) + slot.remaining
  | .lookupAbort k current => 4 * (comesTo n k s - comesTo n k current.toNat) + 1
  | _ => 0

/-- In a lookup of `k` that comes to slot `s`, or returned with a handle. -/
def Seeking (n : Nat) (k : UniqueId64x2) (s : Nat) : Pc → Prop
  | .lookup k' current slot => k' = k ∧ current.toNat < n ∧
    slot.Toward (comesTo n k current.toNat) (comesTo n k s)
  | .lookupAbort k' current => k' = k ∧ current.toNat < n ∧ comesTo n k current.toNat < comesTo n k s
  | .lookupReturn r => r.isSome
  | _ => False

end Pc

section Search
variable {e s : Nat} {m : Memory} {k : UniqueId64x2} {choice : Choice}

/-- One access of a lookup: it does not stop short of the visible entry. -/
theorem Pc.Seeking.next {pc : Pc} (h : pc.Seeking (2 ^ e) k s) (hbusy : pc.idle = false)
    (hc : Sized e m.cache) (hs : s < 2 ^ e) (hv : VisibleWith k (m.cache.slot s))
    (hcounts : ∀ i, comesTo (2 ^ e) k i < comesTo (2 ^ e) k s → (m.cache.slot i).displacements ≠ 0) :
    (step choice m pc).2.Seeking (2 ^ e) k s ∧
      (step choice m pc).2.remaining (2 ^ e) s + 1 ≤ pc.remaining (2 ^ e) s := by
  cases pc with
  | lookup k' current slot =>
    obtain ⟨rfl, hi, htoward⟩ := h
    -- short of the entry's own slot, the search is before it
    have hshort : current.toNat ≠ s → comesTo (2 ^ e) k' current.toNat ≤ comesTo (2 ^ e) k' s →
        comesTo (2 ^ e) k' current.toNat < comesTo (2 ^ e) k' s := fun hne hle =>
      Nat.lt_of_le_of_ne hle fun heq => hne (hc.comesTo_injective k' hi hs heq)
    cases slot with
    | ref =>
      simp only [step_lookupRef]
      by_cases hat : current.toNat = s
      · have hvisible : state (m.metaWord s) = kStateVisible := hv.1
        rw [hat, if_pos hvisible]
        exact ⟨⟨rfl, hi, htoward⟩, Nat.le_refl _⟩
      · have hbefore := hshort hat htoward
        split
        · exact ⟨⟨rfl, hi, htoward⟩, Nat.le_refl _⟩
        · split
          · exact ⟨⟨rfl, hi, hbefore⟩, by simp [Pc.remaining, SlotPc.remaining]⟩
          · exact ⟨⟨rfl, hi, hbefore⟩, by simp [Pc.remaining, SlotPc.remaining]⟩
    | key =>
      simp only [step, lookupAccess]
      by_cases hat : current.toNat = s
      · rw [hat, if_pos hv.2]
        exact ⟨⟨rfl, hi, trivial⟩, Nat.le_refl _⟩
      · split
        · exact ⟨⟨rfl, hi, trivial⟩, Nat.le_refl _⟩
        · exact ⟨⟨rfl, hi, hshort hat htoward⟩, Nat.le_refl _⟩
    | hit =>
      simp only [step_lookupHit]
      split
      · exact ⟨⟨rfl, hi, trivial⟩, Nat.le_refl _⟩
      · exact ⟨rfl, by simp [Pc.remaining, SlotPc.remaining]⟩
    | hitSub overflow => exact ⟨rfl, Nat.le_add_left _ _⟩
    | undo => exact ⟨⟨rfl, hi, htoward⟩, Nat.le_refl _⟩
  | lookupAbort k' current =>
    obtain ⟨rfl, hi, hbefore⟩ := h
    have hdisplaced : notDisplaced current.toNat m.cache = false := by
      rw [notDisplaced, beq_eq_false_iff_ne]
      exact hcounts current.toNat hbefore
    have hend := hc.comesTo_lt k' hs
    have hon := comesTo_on (k := k') hc hi (by omega)
    have hne : nextSlot m.cache k' current ≠ firstSlot m.cache k' := by
      intro heq
      rw [heq, hc.comesTo_first] at hon
      omega
    simp only [step, hdisplaced, Bool.false_eq_true, if_false, lookupNext, if_neg hne]
    refine ⟨⟨rfl, nextSlot_inside hc k' current, ?_⟩, ?_⟩
    · show comesTo _ k' _ ≤ _
      omega
    · show 4 * (_ - comesTo _ k' _) + 4 + 1 ≤ 4 * (_ - _) + 1
      omega
  | lookupReturn r => cases hbusy
  | _ => exact absurd h id

end Search

/-- The visible entries whose probe path passes through slot `i`. -/
def ClockCache.visiblePast (c : ClockCache) (i : Nat) : Finset Nat :=
  (Finset.range c.array.length).filter fun s =>
    state (c.slot s).metaWord = kStateVisible ∧ i ∈ c.probesBefore (c.slot s).hashedKey s

/-- Calm, and whenever thread `t` moves it is in its lookup of `k`, with slot `s` visible
and of that key. -/
structure Searching {ι : Type} (t : ι) (k : UniqueId64x2) (s : Nat) (c : CallConfig ι) (u : ι) : Prop
    extends Calm c u where
  busy : u = t → (c.threads t).idle = false
  present : u = t → VisibleWith k (c.shared.state.cache.slot s)

instance decidableSearching {ι : Type} [DecidableEq ι] (t : ι) (k : UniqueId64x2) (s : Nat)
    (c : CallConfig ι) (u : ι) : Decidable (Searching t k s c u) :=
  decidable_of_iff (Calm c u ∧ (u = t → (c.threads t).idle = false) ∧
      (u = t → VisibleWith k (c.shared.state.cache.slot s)))
    ⟨fun ⟨h1, h2, h3⟩ => ⟨h1, h2, h3⟩, fun ⟨h1, h2, h3⟩ => ⟨h1, h2, h3⟩⟩

/-- Every slot counts the visible entries past it, and a lookup whose entry stays visible
returns a handle, within four accesses for each slot. -/
structure NoFalseMiss {ι : Type} [DecidableEq ι] (c : CallConfig ι) : Prop where
  displaced : ∀ i, i < c.shared.state.cache.array.length →
    (c.shared.state.cache.visiblePast i).card ≤ (c.shared.state.cache.slot i).displacements.toNat
  found : ∀ t k s schedule, s < c.shared.state.cache.array.length →
    c.threads t = .lookup k (firstSlot c.shared.state.cache k) .ref →
    Guarded (counting step Pc.begun) (Searching t k s) c schedule →
    (∃ i, (exec (counting step Pc.begun) c schedule).threads t = .lookupReturn (some i)) ∨
      ((exec (counting step Pc.begun) c schedule).threads t).idle = false ∧
        turns t schedule < 4 * c.shared.state.cache.array.length

section Runs
variable {ι : Type} [Fintype ι] [DecidableEq ι] {e : Nat} {c : CallConfig ι}

omit [DecidableEq ι] in
theorem Sound.sized (h : Sound e c) : Sized e c.shared.state.cache :=
  ⟨h.words.glob.length, h.words.glob.size⟩

omit [DecidableEq ι] in
/-- The visible entries past a slot are counted there. -/
theorem Sound.visiblePast_le (h : Sound e c) (hd : Displaced (2 ^ e) c.shared (total (displacementTokens (2 ^ e)) c))
    {i : Nat} (hi : i < 2 ^ e) :
    (c.shared.state.cache.visiblePast i).card ≤ (c.shared.state.cache.slot i).displacements.toNat := by
  have hsize : c.shared.state.cache.array.length = 2 ^ e := h.words.glob.size
  rw [hd.counts i hi, visiblePast, Finset.card_filter, hsize]
  refine Nat.le_add_right_of_le (Finset.sum_le_sum fun s hs => ?_)
  have hpath := h.sized.mem_probesBefore_iff (c.shared.state.cache.slot s).hashedKey (i := i)
    (Finset.mem_range.mp hs)
  split
  · next hvisible =>
    have hone : displacing (2 ^ e) i s (c.shared.state.cache.slot s).toHandle = 1 :=
      if_pos (hpath.mp hvisible.2)
    rw [hone, if_pos (.inl hvisible.1), Nat.mul_one]
    exact Nat.le_add_right 1 _
  · exact Nat.zero_le _

/-- A visible entry keeps every slot before it on its path above zero. -/
theorem displacements_ne_zero {options : ClockCacheOptions} (hlen : options.length.toNat = 2 ^ e)
    (hr : Reaches CallAccess Calm (callStart ι options) c) {k : UniqueId64x2} {s : Nat} (hs : s < 2 ^ e)
    (hv : VisibleWith k (c.shared.state.cache.slot s)) (i : Nat)
    (hi : comesTo (2 ^ e) k i < comesTo (2 ^ e) k s) :
    (c.shared.state.cache.slot i).displacements ≠ 0 := by
  have hsound := sound_of_reaches hlen hr
  have hpath := (hsound.sized.mem_probesBefore_iff k hs).mpr hi
  have hin : i < 2 ^ e := by
    rw [← hsound.sized.length]
    exact probesBefore_lt hpath
  have hmem : s ∈ c.shared.state.cache.visiblePast i := by
    rw [visiblePast, Finset.mem_filter, Finset.mem_range, hsound.sized.size, hv.2]
    exact ⟨hs, hv.1, hpath⟩
  have hle := hsound.visiblePast_le (displaced_of_reaches hlen hr).glob hin
  have hpos := Finset.card_pos.mpr ⟨s, hmem⟩
  intro hzero
  rw [hzero] at hle
  exact absurd (hpos.trans_le hle) (Nat.lt_irrefl 0)

/-- A lookup under way whose entry stays visible ends with a handle. -/
theorem seeking_exec {options : ClockCacheOptions} (hlen : options.length.toNat = 2 ^ e)
    (hr : Reaches CallAccess Calm (callStart ι options) c) {t : ι} {k : UniqueId64x2} {s : Nat}
    (hs : s < 2 ^ e) (hseek : (c.threads t).Seeking (2 ^ e) k s) {schedule : List (ι × Choice)}
    (hg : Guarded (counting step Pc.begun) (Searching t k s) c schedule) :
    ((exec (counting step Pc.begun) c schedule).threads t).Seeking (2 ^ e) k s ∧
      ((exec (counting step Pc.begun) c schedule).threads t).remaining (2 ^ e) s + turns t schedule ≤
        (c.threads t).remaining (2 ^ e) s := by
  induction schedule generalizing c with
  | nil => exact ⟨hseek, Nat.le_refl _⟩
  | cons move rest ih =>
    obtain ⟨u, choice⟩ := move
    obtain ⟨hok, hrest⟩ := hg
    obtain ⟨⟨m, pc⟩, hmove⟩ : ∃ r, counting step Pc.begun choice c.shared (c.threads u) = r := ⟨_, rfl⟩
    have hpc : pc = (step choice c.shared.state (c.threads u)).2 := (congrArg Prod.snd hmove).symm
    have hnext := hr.tail ⟨u, m, pc, hok.toCalm, ⟨choice, hmove⟩, rfl⟩
    rw [exec, hmove]
    rw [hmove] at hrest
    by_cases hu : u = t
    · subst hu
      have hstep : pc.Seeking (2 ^ e) k s ∧
          pc.remaining (2 ^ e) s + 1 ≤ (c.threads u).remaining (2 ^ e) s := by
        rw [hpc]
        exact hseek.next (hok.busy rfl) (sound_of_reaches hlen hr).sized hs (hok.present rfl)
          (displacements_ne_zero hlen hr hs (hok.present rfl))
      have hself := c.set_threads_self u m pc
      obtain ⟨hfound, hle⟩ := ih hnext (by rw [hself]; exact hstep.1) hrest
      rw [hself] at hle
      have hturns : turns u ((u, choice) :: rest) = turns u rest + 1 := List.count_cons_self
      refine ⟨hfound, ?_⟩
      rw [hturns]
      exact (Nat.add_le_add_right hle 1).trans hstep.2
    · have hother := c.set_threads_of_ne m pc (Ne.symm hu)
      obtain ⟨hfound, hle⟩ := ih hnext (by rw [hother]; exact hseek) hrest
      rw [hother] at hle
      have hturns : turns t ((u, choice) :: rest) = turns t rest := List.count_cons_of_ne hu
      rw [hturns]
      exact ⟨hfound, hle⟩

/-- **No false miss under concurrency.** -/
theorem reaches_noFalseMiss {options : ClockCacheOptions} {e : Nat}
    (hlen : options.length.toNat = 2 ^ e) {c : CallConfig ι}
    (hr : Reaches CallAccess Calm (callStart ι options) c) : NoFalseMiss c := by
  have hsound := sound_of_reaches hlen hr
  refine ⟨fun i hi => ?_, fun t k s schedule hs hpc hg => ?_⟩
  · rw [hsound.sized.size] at hi
    exact hsound.visiblePast_le (displaced_of_reaches hlen hr).glob hi
  · rw [hsound.sized.size] at hs ⊢
    have hfirst := hsound.sized.comesTo_first k
    have hseek : (c.threads t).Seeking (2 ^ e) k s := by
      rw [hpc]
      refine ⟨rfl, firstSlot_inside hsound.sized k, ?_⟩
      rw [SlotPc.Toward, hfirst]
      exact Nat.zero_le _
    have hstart : (c.threads t).remaining (2 ^ e) s ≤ 4 * 2 ^ e := by
      have hend := hsound.sized.comesTo_lt k hs
      rw [hpc, Pc.remaining, hfirst]
      show 4 * (_ - 0) + 4 ≤ 4 * 2 ^ e
      omega
    obtain ⟨hfound, hle⟩ := seeking_exec hlen hr hs hseek hg
    cases hend : (exec (counting step Pc.begun) c schedule).threads t with
    | lookup k' current slot =>
      rw [hend] at hle
      refine .inr ⟨rfl, ?_⟩
      have hpos : 0 < (Pc.lookup k' current slot).remaining (2 ^ e) s := by
        cases slot <;> exact Nat.succ_pos _
      omega
    | lookupAbort k' current =>
      rw [hend] at hle
      refine .inr ⟨rfl, ?_⟩
      have hpos : 0 < (Pc.lookupAbort k' current).remaining (2 ^ e) s := Nat.succ_pos _
      omega
    | lookupReturn r =>
      rw [hend] at hfound
      obtain ⟨i, rfl⟩ := Option.isSome_iff_exists.mp hfound
      exact .inl ⟨i, rfl⟩
    | _ =>
      rw [hend] at hfound
      exact absurd hfound id

end Runs

/-- Both keys come to slot 0 first: the second entry goes to slot 1. -/
def colliding : List (Fin 2 × Choice) :=
  (0, .insert ⟨7, 0, (2, 0), 1⟩) :: List.replicate 6 (0, .go) ++
    (0, .insert ⟨8, 0, (4, 0), 1⟩) :: List.replicate 11 (0, .go) ++ [(1, .lookup (4, 0))]

/-- The lookup of the second entry, while the other thread looks for the first. -/
def passing : List (Fin 2 × Choice) :=
  List.replicate 3 (1, .go) ++ (0, .lookup (2, 0)) :: List.replicate 3 (0, .go) ++
    List.replicate 4 (1, .go)

theorem reaches_noFalseMiss_colliding : ∃ i, (exec (counting step Pc.begun)
    (exec (counting step Pc.begun) (callStart (Fin 2) ⟨4, 2, 0, 2, 1⟩) colliding) passing).threads 1 =
      .lookupReturn (some i) := by
  have hmisses := reaches_noFalseMiss (e := 1)
    (c := exec (counting step Pc.begun) (callStart (Fin 2) ⟨4, 2, 0, 2, 1⟩) colliding) (by decide)
    (reaches_exec_guarded (by decide +kernel))
  refine (hmisses.found 1 (4, 0) 1 passing (by decide +kernel) rfl (by decide +kernel)).resolve_right ?_
  rintro ⟨hbusy, -⟩
  revert hbusy
  decide +kernel

end HyperCache.Clock
