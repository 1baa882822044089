import HyperCache.Clock.Search
import HyperCache.Clock.Words
import Mathlib.Algebra.BigOperators.Pi
import Mathlib.Algebra.Order.BigOperators.Group.Finset

/-! Fewer than 2^30 calls, none of which erases.

The number of calls bounds what they leave behind: a call holds at most one reference or
leaves one handle, makes at most one hit, and takes at most one reference on each slot
of its probe path. So no field of a word runs over into the next, and the words agree
with the tokens wherever such a run leads (`sound_of_reaches`). -/
namespace HyperCache.Clock
open Interleaving ClockCache

/-! ### Probe paths -/

/-- The step in which a search for this key comes to slot `i`, in a table of `n` slots. -/
def comesTo (n : Nat) (k : UniqueId64x2) (i : Nat) : Nat :=
  Probe.rank n k.2.toNat (k.1 ||| 1).toNat i

namespace ClockCache.Sized
variable {e : Nat} {c : ClockCache} (hc : Sized e c) (k : UniqueId64x2)
include hc

theorem comesTo_first : comesTo (2 ^ e) k (firstSlot c k).toNat = 0 := by
  have hcoprime := hc.coprime k
  rw [hc.length] at hcoprime
  rw [comesTo, firstSlot, modLength_toNat, hc.length]
  exact Probe.rank_start hcoprime (Nat.two_pow_pos e)

theorem comesTo_next {current : UInt64} (hi : current.toNat < 2 ^ e) :
    if nextSlot c k current = firstSlot c k then comesTo (2 ^ e) k current.toNat + 1 = 2 ^ e
    else comesTo (2 ^ e) k (nextSlot c k current).toNat = comesTo (2 ^ e) k current.toNat + 1 := by
  have hcoprime := hc.coprime k
  rw [hc.length] at hcoprime
  have hnext : if (current.toNat + (k.1 ||| 1).toNat) % 2 ^ e = k.2.toNat % 2 ^ e
      then comesTo (2 ^ e) k current.toNat + 1 = 2 ^ e
      else comesTo (2 ^ e) k ((current.toNat + (k.1 ||| 1).toNat) % 2 ^ e) =
        comesTo (2 ^ e) k current.toNat + 1 := Probe.rank_next hcoprime hi
  have hstep : (nextSlot c k current).toNat = (current.toNat + (k.1 ||| 1).toNat) % 2 ^ e := by
    rw [nextSlot, modLength_add hc.length, hc.length]
  have hfirst : (firstSlot c k).toNat = k.2.toNat % 2 ^ e := by
    rw [firstSlot, modLength_toNat, hc.length]
  simp only [← UInt64.toNat_inj, hstep, hfirst]
  exact hnext

theorem comesTo_lt {i : Nat} (hi : i < 2 ^ e) : comesTo (2 ^ e) k i < 2 ^ e := by
  have hcoprime := hc.coprime k
  rw [hc.length] at hcoprime
  exact Probe.rank_lt hcoprime hi

theorem comesTo_injective {i j : Nat} (hi : i < 2 ^ e) (hj : j < 2 ^ e)
    (h : comesTo (2 ^ e) k i = comesTo (2 ^ e) k j) : i = j := by
  have hcoprime := hc.coprime k
  rw [hc.length] at hcoprime
  exact Probe.rank_injective hcoprime hi hj h

/-- The slots that come before `s` are those of `probesBefore`. -/
theorem mem_probesBefore_iff {i s : Nat} (hs : s < 2 ^ e) :
    i ∈ c.probesBefore k s ↔ comesTo (2 ^ e) k i < comesTo (2 ^ e) k s := by
  have hcoprime := hc.coprime k
  rw [hc.length] at hcoprime
  rw [probesBefore, hc.length]
  exact Probe.mem_before hcoprime hs

end ClockCache.Sized

/-! ### What a call may still do -/

namespace Pc

/-- Outside any call. -/
def idle : Pc → Bool
  | .ready | .lookupReturn _ | .insertReturn _ | .eraseReturn _ => true
  | _ => false

/-- A fact about every position outside any call. -/
theorem idle_cases {P : Pc → Prop} {pc : Pc} (h : pc.idle = true) (ready : P .ready)
    (lookup : ∀ r, P (.lookupReturn r)) (insert : ∀ succ, P (.insertReturn succ))
    (erase : ∀ succ, P (.eraseReturn succ)) : P pc := by
  unfold idle at h
  split at h
  · exact ready
  · exact lookup _
  · exact insert _
  · exact erase _
  · cases h

/-- The calls in progress. -/
def busy (pc : Pc) : Nat := if pc.idle then 0 else 1

/-- The calls that a step begins. -/
def begun (pc pc' : Pc) : Nat := pc'.busy - pc.busy

/-- The hits the call may still make. -/
def hopeful : Pc → Nat
  | .lookup _ _ (.hitSub _) => 0
  | .lookup .. | .lookupAbort .. => 1
  | _ => 0

/-- The references the call may still leave on slot `i`. -/
def ahead (n : Nat) (i : Nat) : Pc → Nat
  | .lookup k current .ref => if comesTo n k current.toNat ≤ comesTo n k i then 1 else 0
  | .lookup k current _ | .lookupAbort k current =>
    if comesTo n k current.toNat < comesTo n k i then 1 else 0
  | .insertOccupancy _ | .chargeLoad .. | .chargeCas _ | .evictPointer _ | .evictDelta _
  | .evictLoad _ | .evictLower .. | .evictTake .. | .evictOwn .. | .evictRollback .. | .evictFree ..
  | .evictMark .. | .evictNext _ | .evictStore _ | .settleOccupancy _ | .settleUsage .. => 1
  | .insertOr f current | .insertRef f current =>
    if comesTo n f.handle.hashedKey current.toNat ≤ comesTo n f.handle.hashedKey i then 1 else 0
  | .insertKey f current | .insertUndo f current _ | .insertDisplace f current =>
    if comesTo n f.handle.hashedKey current.toNat < comesTo n f.handle.hashedKey i then 1 else 0
  | _ => 0

/-- The search is in the table, and an insertion goes on only before its last slot. -/
def Within (n : Nat) : Pc → Prop
  | .lookupAbort _ current => current.toNat < n
  | .insertDisplace f current =>
    current.toNat < n ∧ comesTo n f.handle.hashedKey current.toNat + 1 < n
  | _ => True

theorem busy_le_one (pc : Pc) : pc.busy ≤ 1 := by
  unfold busy
  split <;> omega

theorem ahead_le_one (n i : Nat) (pc : Pc) : pc.ahead n i ≤ 1 := by
  unfold ahead
  split
  all_goals first | exact Nat.le_refl 1 | exact Nat.zero_le 1 | (split <;> omega)

/-- Each call holds at most one reference. -/
theorem pending_le_busy (pc : Pc) (i : Nat) : pc.pending i ≤ pc.busy := by
  cases pc with
  | lookup k current slot =>
    cases slot <;> simp [pending, tokens, busy, idle, Multiset.count_singleton] <;> split <;> omega
  | _ => simp [pending, tokens, busy, idle, Multiset.count_singleton] <;> split <;> omega

end Pc

/-- A position of an insertion before its search. -/
structure Fresh (n : Nat) (pc : Pc) : Prop where
  hopeful : pc.hopeful = 0
  within : pc.Within n

section Local
variable {e : Nat} {c : ClockCache} (hc : Sized e c)

theorem fresh_insertStart (n : Nat) (handle : Handle) : Fresh n (insertStart c handle) := ⟨rfl, trivial⟩

theorem fresh_chargeDone (n : Nat) (f : EvictFrame) : Fresh n (chargeDone c f) := by
  rw [chargeDone]
  split
  · exact ⟨rfl, trivial⟩
  · exact fresh_insertStart n f.handle

theorem fresh_chargeTry (n : Nat) (handle : Handle) (need : Bool) (old : UInt64) :
    Fresh n (chargeTry c handle need old) := by
  unfold chargeTry
  simp only
  split
  · exact fresh_chargeDone n _
  · exact ⟨rfl, trivial⟩

theorem fresh_evictSlotDone (n : Nat) (f : EvictFrame) : Fresh n (evictSlotDone f) := by
  unfold evictSlotDone
  repeat' split
  all_goals exact ⟨rfl, trivial⟩

theorem fresh_evictTest (n : Nat) (f : EvictFrame) (w : UInt64) : Fresh n (evictTest f w) := by
  unfold evictTest
  split
  · exact fresh_evictSlotDone n f
  · split
    · exact fresh_evictSlotDone n _
    · split <;> exact ⟨rfl, trivial⟩

theorem fresh_evictRollbackAt (n : Nat) (f : EvictFrame) (h : UInt64) (k : UniqueId64x2)
    (current : UInt64) : Fresh n (evictRollbackAt f h k current) := by
  unfold evictRollbackAt
  split <;> exact ⟨rfl, trivial⟩

theorem fresh_settleTest (n : Nat) (f : EvictFrame) : Fresh n (settleTest c f) := by
  rw [settleTest]
  split
  · exact ⟨rfl, trivial⟩
  · split
    · exact ⟨rfl, trivial⟩
    · exact fresh_insertStart n f.handle

theorem hopeful_lookupNext (k : UniqueId64x2) (current : UInt64) :
    (lookupNext c k current).hopeful ≤ 1 := by
  unfold lookupNext
  simp only
  split
  · exact Nat.zero_le 1
  · exact Nat.le_refl 1

/-- A position in the search of `k`, which has passed slot `current`. -/
structure Passed (n : Nat) (k : UniqueId64x2) (current : UInt64) (pc : Pc) : Prop where
  ahead : ∀ i, pc.ahead n i ≤ if comesTo n k current.toNat < comesTo n k i then 1 else 0
  within : pc.Within n

theorem passed_insertRollbackAt (n : Nat) (f : InsertFrame) (h current i : UInt64) (already : Bool) :
    Passed n f.handle.hashedKey i (insertRollbackAt c f h current already) ∧
      (insertRollbackAt c f h current already).hopeful = 0 := by
  unfold insertRollbackAt insertEnd
  repeat' split
  all_goals exact ⟨⟨fun _ => Nat.zero_le _, trivial⟩, rfl⟩

include hc

theorem passed_lookupNext (k : UniqueId64x2) {current : UInt64} (hi : current.toNat < 2 ^ e) :
    Passed (2 ^ e) k current (lookupNext c k current) := by
  have hnext := hc.comesTo_next k hi
  unfold lookupNext
  simp only
  split
  · exact ⟨fun _ => Nat.zero_le _, trivial⟩
  · next hne =>
    rw [if_neg hne] at hnext
    refine ⟨fun i => ?_, trivial⟩
    rw [Pc.ahead, hnext]
    exact Nat.le_refl _

theorem passed_insertNext (f : InsertFrame) {current : UInt64} (already : Bool)
    (hi : current.toNat < 2 ^ e) :
    Passed (2 ^ e) f.handle.hashedKey current (insertNext c f current already) ∧
      (insertNext c f current already).hopeful = 0 := by
  have hnext := hc.comesTo_next f.handle.hashedKey hi
  unfold insertNext
  simp only
  split
  · exact passed_insertRollbackAt ..
  · split
    · exact passed_insertRollbackAt ..
    · next hne =>
      have hlt := hc.comesTo_lt f.handle.hashedKey
        (modLength_lt hc.length (Nat.two_pow_pos e) (current + (f.handle.hashedKey.1 ||| 1)))
      rw [if_neg hne] at hnext
      rw [nextSlot] at hnext
      exact ⟨⟨fun i => Nat.le_refl _, hi, by omega⟩, rfl⟩

theorem passed_insertOr (f : InsertFrame) {current : UInt64} (hw : (Pc.insertDisplace f current).Within (2 ^ e)) :
    Passed (2 ^ e) f.handle.hashedKey current
      (.insertOr f (nextSlot c f.handle.hashedKey current)) := by
  have hnext := hc.comesTo_next f.handle.hashedKey hw.1
  split at hnext
  · exact absurd hnext (Nat.ne_of_lt hw.2)
  · refine ⟨fun i => ?_, trivial⟩
    rw [Pc.ahead, hnext]
    exact Nat.le_refl _

end Local

/-! ### One access -/

/-- What a step may spend of what its call may still do. -/
structure Spends (n : Nat) (m : Memory) (pc : Pc) (r : Memory × Pc) : Prop where
  handles : r.1.handles.length + r.2.busy ≤ m.handles.length + pc.busy + pc.begun r.2
  hopeful : r.2.hopeful + (if pc.hitting.isSome then 1 else 0) ≤ pc.hopeful + pc.begun r.2
  ahead : ∀ i, i < n → r.1.left i + r.2.ahead n i ≤ m.left i + pc.ahead n i + pc.begun r.2
  within : r.2.Within n
  strays : ∀ i, (.stray i : Token) ∉ r.2.tokens

section Steps
variable {carry : Bool} {e : Nat} {m m' : Memory} {pc pc' : Pc} {o : Multiset Token} {choice : Choice}

theorem ite_lt_le (a b : Nat) : (if a < b then 1 else 0) ≤ if a ≤ b then 1 else 0 := by
  split <;> split <;> omega

theorem update_zero_le (left : Nat → Nat) (i j : Nat) : Function.update left i 0 j ≤ left j := by
  by_cases hj : j = i
  · rw [hj, Function.update_self]
    exact Nat.zero_le _
  · rw [Function.update_of_ne hj]

theorem no_strays (h : pc.tokens = 0) (i : Nat) : (.stray i : Token) ∉ pc.tokens := by
  rw [h]
  exact Multiset.notMem_zero _

/-- A step in a call that returns no handle and leaves no reference. -/
theorem Spends.on {n : Nat} (hbusy : pc.busy = 1) (hhandles : m'.handles = m.handles)
    (hleft : ∀ i, m'.left i ≤ m.left i)
    (hhopeful : pc'.hopeful + (if pc.hitting.isSome then 1 else 0) ≤ pc.hopeful)
    (hahead : ∀ i, i < n → pc'.ahead n i ≤ pc.ahead n i) (hwithin : pc'.Within n)
    (hstrays : ∀ i, (.stray i : Token) ∉ pc'.tokens) : Spends n m pc (m', pc') where
  handles := by
    have hle := pc'.busy_le_one
    simp only [hhandles, hbusy]
    omega
  hopeful := by
    simp only
    omega
  ahead := by
    intro i hi
    have hle := hahead i hi
    have hlow := hleft i
    simp only
    omega
  within := hwithin
  strays := hstrays

/-- A step of an insertion before its search. -/
theorem Fresh.on {n : Nat} (hf : Fresh n pc') (hbusy : pc.busy = 1) (hhit : pc.hitting = none)
    (hahead : ∀ i, pc.ahead n i = 1) (hhandles : m'.handles = m.handles)
    (hleft : ∀ i, m'.left i ≤ m.left i) (hstrays : ∀ i, (.stray i : Token) ∉ pc'.tokens) :
    Spends n m pc (m', pc') := by
  apply Spends.on hbusy hhandles hleft ?_ (fun i _ => ?_) hf.within hstrays
  · rw [hf.hopeful, hhit]
    exact Nat.zero_le _
  · rw [hahead i]
    exact pc'.ahead_le_one n i

/-- A call begins. -/
theorem Spends.call {n : Nat} (hidle : pc.busy = 0) (hhit : pc.hitting = none) (hbusy : pc'.busy = 1)
    (hhandles : m'.handles.length ≤ m.handles.length) (hleft : m'.left = m.left)
    (hhopeful : pc'.hopeful ≤ 1) (hwithin : pc'.Within n) (hstrays : ∀ i, (.stray i : Token) ∉ pc'.tokens) :
    Spends n m pc (m', pc') where
  handles := by
    simp only [Pc.begun, hidle, hbusy]
    omega
  hopeful := by
    simp only [Pc.begun, hidle, hbusy, hhit]
    exact Nat.le_add_left_of_le hhopeful
  ahead := by
    intro i _
    have hle := pc'.ahead_le_one n i
    simp only [Pc.begun, hidle, hbusy, hleft]
    omega
  within := hwithin
  strays := hstrays

theorem call_spends {n : Nat} (hidle : pc.busy = 0) (hhit : pc.hitting = none) (htokens : pc.tokens = 0)
    (hwithin : pc.Within n) : Spends n m pc (callStep m pc choice) := by
  have hstay : Spends n m pc (m, pc) := by
    refine ⟨Nat.le_add_right _ _, ?_, fun i _ => Nat.le_add_right _ _, hwithin, no_strays htokens⟩
    rw [hhit]
    exact Nat.le_add_right _ _
  cases choice with
  | release h =>
    rw [callStep]
    split
    · next hm =>
      refine .call hidle hhit rfl ?_ rfl (Nat.zero_le _) trivial (by simp [Pc.tokens])
      simp only [List.length_erase_of_mem hm]
      omega
    · exact hstay
  | lookup k => exact .call hidle hhit rfl (Nat.le_refl _) rfl (Nat.le_refl _) trivial (no_strays rfl)
  | insert handle =>
    exact .call hidle hhit rfl (Nat.le_refl _) rfl (Nat.zero_le _) trivial (no_strays rfl)
  | erase k => exact .call hidle hhit rfl (Nat.le_refl _) rfl (Nat.zero_le _) trivial (no_strays rfl)
  | go => exact hstay
  | spurious => exact hstay

/-- The lookup that ends with a handle. -/
theorem Spends.found {n : Nat} {k : UniqueId64x2} {current : UInt64} {slot : SlotPc}
    (hhits : (if (Pc.lookup k current slot).hitting.isSome then 1 else 0) ≤ (Pc.lookup k current slot).hopeful)
    (hhandles : m'.handles = current.toNat :: m.handles) (hleft : m'.left = m.left) :
    Spends n m (.lookup k current slot) (m', .lookupReturn (some current.toNat)) where
  handles := by
    simp only [hhandles, List.length_cons, Pc.busy, Pc.idle, Pc.begun, if_true, Bool.false_eq_true, if_false]
    omega
  hopeful := by
    show 0 + _ ≤ _
    rw [Nat.zero_add]
    exact hhits.trans (Nat.le_add_right _ _)
  ahead := by
    intro i _
    simp only [hleft, Pc.ahead]
    omega
  within := trivial
  strays := no_strays rfl

theorem leave_spends {n : Nat} {i : Nat} {w : UInt64} (hbusy : pc.busy = 1)
    (hhopeful : pc'.hopeful + (if pc.hitting.isSome then 1 else 0) ≤ pc.hopeful)
    (hahead : ∀ j, j < n → pc'.ahead n j ≤ pc.ahead n j) (hi : pc.ahead n i = 1 ∧ pc'.ahead n i = 0)
    (hwithin : pc'.Within n) (hstrays : ∀ i, (.stray i : Token) ∉ pc'.tokens) :
    Spends n m pc ((m.setMeta i w).leave i, pc') where
  handles := by
    have hle := pc'.busy_le_one
    simp only [hbusy, Memory.leave, Memory.setMeta]
    omega
  hopeful := by
    simp only
    omega
  ahead := by
    intro j hj
    have hle := hahead j hj
    show Function.update m.left i (m.left i + 1) j + _ ≤ _
    by_cases hji : j = i
    · rw [hji, Function.update_self]
      simp only
      omega
    · rw [Function.update_of_ne hji]
      simp only
      omega
  within := hwithin
  strays := hstrays

theorem lookup_spends {k : UniqueId64x2} {current : UInt64} {slot : SlotPc} {n : Nat}
    (hi : current.toNat < n) :
    Spends n m (.lookup k current slot) (step choice m (.lookup k current slot)) := by
  cases slot with
  | ref =>
    simp only [step_lookupRef]
    split
    · exact .on rfl rfl (fun _ => Nat.le_refl _) (Nat.le_refl _) (fun _ _ => ite_lt_le _ _) trivial
        (by simp [Pc.tokens])
    · split
      · exact .on rfl rfl (fun _ => Nat.le_refl _) (Nat.le_refl _) (fun _ _ => ite_lt_le _ _) trivial
          (by simp [Pc.tokens])
      · exact leave_spends rfl (Nat.le_refl _) (fun _ _ => ite_lt_le _ _)
          ⟨if_pos (Nat.le_refl _), if_neg (Nat.lt_irrefl _)⟩ hi (no_strays rfl)
  | key =>
    simp only [step, lookupAccess]
    split
    · exact .on rfl rfl (fun _ => Nat.le_refl _) (Nat.le_refl _) (fun i _ => Nat.le_refl _) trivial
        (by simp [Pc.tokens])
    · exact .on rfl rfl (fun _ => Nat.le_refl _) (Nat.le_refl _) (fun i _ => Nat.le_refl _) trivial
        (by simp [Pc.tokens])
  | hit =>
    simp only [step_lookupHit]
    split
    · exact .on rfl rfl (fun _ => Nat.le_refl _) (Nat.le_refl _) (fun i _ => Nat.le_refl _) trivial
        (by simp [Pc.tokens])
    · exact .found (Nat.le_refl _) rfl rfl
  | hitSub overflow => exact .found (Nat.le_refl _) rfl rfl
  | undo =>
    exact .on rfl rfl (fun _ => Nat.le_refl _) (Nat.le_refl _) (fun i _ => Nat.le_refl _) hi (no_strays rfl)

theorem insertOr_spends {f : InsertFrame} {current : UInt64} (hc : Sized e m.cache)
    (hi : current.toNat < 2 ^ e) :
    Spends (2 ^ e) m (.insertOr f current) (step choice m (.insertOr f current)) := by
  simp only [step]
  split
  · exact .on rfl rfl (fun _ => Nat.le_refl _) (Nat.le_refl _) (fun _ _ => Nat.zero_le _) trivial
      (by simp [Pc.tokens])
  · split
    · obtain ⟨hp, hzero⟩ := passed_insertNext hc f false hi
      exact .on rfl rfl (fun _ => Nat.le_refl _) (Nat.le_of_eq hzero)
        (fun i _ => (hp.ahead i).trans (ite_lt_le _ _)) hp.within
        (no_strays (clear_insertNext hc.length (Nat.two_pow_pos e) ..).tokens)
    · exact .on rfl rfl (fun _ => Nat.le_refl _) (Nat.le_refl _) (fun _ _ => Nat.le_refl _) trivial
        (no_strays rfl)

theorem insertRef_spends {f : InsertFrame} {current : UInt64} (hc : Sized e m.cache)
    (hi : current.toNat < 2 ^ e) :
    Spends (2 ^ e) m (.insertRef f current) (step choice m (.insertRef f current)) := by
  simp only [step]
  split
  · exact .on rfl rfl (fun _ => Nat.le_refl _) (Nat.le_refl _) (fun _ _ => ite_lt_le _ _) trivial
      (by simp [Pc.tokens])
  · split
    · exact .on rfl rfl (fun _ => Nat.le_refl _) (Nat.le_refl _) (fun _ _ => ite_lt_le _ _) trivial
        (by simp [Pc.tokens])
    · obtain ⟨hp, hzero⟩ := passed_insertNext hc f false hi
      have hpassed := hp.ahead current.toNat
      rw [if_neg (Nat.lt_irrefl _)] at hpassed
      exact leave_spends rfl (Nat.le_of_eq hzero) (fun i _ => (hp.ahead i).trans (ite_lt_le _ _))
        ⟨if_pos (Nat.le_refl _), Nat.le_zero.mp hpassed⟩ hp.within
        (no_strays (clear_insertNext hc.length (Nat.two_pow_pos e) ..).tokens)

/-- **What one access spends**, for every position outside `Erase`. -/
theorem step_spends (h : Protected carry (2 ^ e) m (pc.tokens + o)) (hk : Knows (2 ^ e) pc)
    (hw : pc.Within (2 ^ e)) (herase : pc.erasing = false) : Spends (2 ^ e) m pc (step choice m pc) := by
  have hlen := h.length
  have hn := h.pos
  have hc : Sized e m.cache := ⟨hlen, h.size⟩
  cases pc with
  | ready => exact call_spends rfl rfl rfl hw
  | lookup k current slot => exact lookup_spends hk.1
  | lookupAbort k current =>
    simp only [step]
    split
    · exact .on rfl rfl (fun _ => Nat.le_refl _) (Nat.zero_le _) (fun i _ => Nat.zero_le _) trivial
        (no_strays rfl)
    · have hp := passed_lookupNext hc k hw
      exact .on rfl rfl (fun _ => Nat.le_refl _) (hopeful_lookupNext k current)
        (fun i _ => hp.ahead i) hp.within (no_strays (clear_lookupNext hlen hn k current).tokens)
  | lookupReturn r => exact call_spends rfl rfl rfl hw
  | release i =>
    exact .on rfl rfl (fun _ => Nat.le_refl _) (Nat.le_refl _) (fun _ _ => Nat.le_refl _) trivial
      (no_strays rfl)
  | insertOccupancy | evictPointer | evictDelta | evictNext | evictStore =>
    exact Fresh.on ⟨rfl, trivial⟩ rfl rfl (fun _ => rfl) rfl (fun _ => Nat.le_refl _) (no_strays rfl)
  | chargeLoad handle need =>
    exact (fresh_chargeTry _ handle need _).on rfl rfl (fun _ => rfl) rfl (fun _ => Nat.le_refl _)
      (no_strays (clear_chargeTry hlen hn ..).tokens)
  | chargeCas f =>
    simp only [step]
    split
    · exact (fresh_chargeDone _ f).on rfl rfl (fun _ => rfl) rfl (fun _ => Nat.le_refl _)
        (no_strays (clear_chargeDone hlen hn hk).tokens)
    · exact (fresh_chargeTry ..).on rfl rfl (fun _ => rfl) rfl (fun _ => Nat.le_refl _)
        (no_strays (clear_chargeTry hlen hn ..).tokens)
  | evictLoad f =>
    exact (fresh_evictTest _ f _).on rfl rfl (fun _ => rfl) rfl (fun _ => Nat.le_refl _)
      (no_strays (clear_evictTest (n := 2 ^ e) hk (h.shareable (modLength_lt hlen hn _))).tokens)
  | evictLower f w =>
    have hs := no_strays (clear_evictSlotDone (n := 2 ^ e) hk.1).tokens
    simp only [step]
    split <;>
    exact (fresh_evictSlotDone _ f).on rfl rfl (fun _ => rfl) rfl (fun _ => Nat.le_refl _) hs
  | evictTake f w =>
    simp only [step]
    split
    · exact Fresh.on ⟨rfl, trivial⟩ rfl rfl (fun _ => rfl) rfl (fun _ => Nat.le_refl _)
        (by simp [Pc.tokens])
    · exact (fresh_evictSlotDone _ f).on rfl rfl (fun _ => rfl) rfl (fun _ => Nat.le_refl _)
        (no_strays (clear_evictSlotDone (n := 2 ^ e) hk.1).tokens)
  | evictOwn f i =>
    exact (fresh_evictRollbackAt ..).on rfl rfl (fun _ => rfl) rfl (fun _ => Nat.le_refl _)
      (by unfold evictRollbackAt; split <;> simp [Pc.tokens])
  | evictRollback f i k current =>
    exact (fresh_evictRollbackAt ..).on rfl rfl (fun _ => rfl) rfl (fun _ => Nat.le_refl _)
      (by unfold evictRollbackAt; split <;> simp [Pc.tokens])
  | evictFree f i =>
    exact Fresh.on ⟨rfl, trivial⟩ rfl rfl (fun _ => rfl) rfl (fun _ => Nat.le_refl _)
      (by simp [Pc.tokens])
  | evictMark f i =>
    exact (fresh_evictSlotDone _ f).on rfl rfl (fun _ => rfl) rfl (update_zero_le _ _)
      (no_strays (clear_evictSlotDone (n := 2 ^ e) hk.1).tokens)
  | settleOccupancy f =>
    exact (fresh_settleTest _ f).on rfl rfl (fun _ => rfl) rfl (fun _ => Nat.le_refl _)
      (no_strays (clear_settleTest hlen hn f).tokens)
  | settleUsage f charge room =>
    cases room <;>
    exact Fresh.on ⟨rfl, trivial⟩ rfl rfl (fun _ => rfl) rfl (fun _ => Nat.le_refl _) (no_strays rfl)
  | insertGiveUp | insertFailOccupancy | insertFailUsage =>
    exact .on rfl rfl (fun _ => Nat.le_refl _) (Nat.le_refl _) (fun _ _ => Nat.le_refl _) trivial
      (no_strays rfl)
  | insertOr f current => exact insertOr_spends hc hk
  | insertWrite f current =>
    exact .on rfl rfl (fun _ => Nat.le_refl _) (Nat.le_refl _) (fun _ _ => Nat.le_refl _) trivial
      (by simp [Pc.tokens])
  | insertPublish f current =>
    exact .on rfl rfl (update_zero_le _ _) (Nat.le_refl _) (fun _ _ => Nat.le_refl _) trivial
      (no_strays rfl)
  | insertRef f current => exact insertRef_spends hc hk
  | insertKey f current =>
    exact .on rfl rfl (fun _ => Nat.le_refl _) (Nat.le_refl _) (fun _ _ => Nat.le_refl _) trivial
      (by simp [Pc.tokens])
  | insertUndo f current already =>
    obtain ⟨hp, hzero⟩ := passed_insertNext hc f already hk
    exact .on rfl rfl (fun _ => Nat.le_refl _) (Nat.le_of_eq hzero) (fun i _ => hp.ahead i) hp.within
      (no_strays (clear_insertNext hlen hn ..).tokens)
  | insertDisplace f current =>
    have hp := passed_insertOr hc f hw
    exact .on rfl rfl (fun _ => Nat.le_refl _) (Nat.le_refl _) (fun i _ => hp.ahead i) trivial
      (no_strays rfl)
  | insertRollback f i current already =>
    obtain ⟨hp, hzero⟩ := passed_insertRollbackAt (c := m.cache) (2 ^ e) f i
      (nextSlot m.cache f.handle.hashedKey current) current already
    refine .on rfl rfl (fun _ => Nat.le_refl _) (Nat.le_of_eq hzero) (fun j _ => ?_) hp.within
      (no_strays (clear_insertRollbackAt hlen hn ..).tokens)
    unfold insertRollbackAt insertEnd
    repeat' split
    all_goals exact Nat.le_refl 0
  | insertReturn succ => exact call_spends rfl rfl rfl hw
  | eraseReturn succ => exact call_spends rfl rfl rfl hw
  | eraseRef | eraseKey | eraseAnd | eraseCas | eraseOwn | eraseFree | eraseMark | eraseOccupancy
  | eraseUsage | eraseRollback | eraseUndo | eraseUndoNone | eraseAbort => cases herase

end Steps

/-! ### Runs -/

/-- The access of `HitDecr`, if it is one, leaves the hit field at zero or above. -/
def NotBelow (m : Memory) : Pc → Prop
  | .lookup _ current (.hitSub overflow) => overflow ≤ hitCount (m.metaWord current.toNat)
  | _ => True

instance decidableNotBelow (m : Memory) : (pc : Pc) → Decidable (NotBelow m pc)
  | .lookup _ current (.hitSub overflow) =>
    inferInstanceAs (Decidable (overflow ≤ hitCount (m.metaWord current.toNat)))
  | .lookup _ _ .ref | .lookup _ _ .key | .lookup _ _ .hit | .lookup _ _ .undo | .ready
  | .lookupAbort .. | .lookupReturn _ | .release _ | .insertOccupancy _ | .chargeLoad ..
  | .chargeCas _ | .evictPointer _ | .evictDelta _ | .evictLoad _ | .evictLower .. | .evictTake ..
  | .evictOwn .. | .evictRollback .. | .evictFree .. | .evictMark .. | .evictNext _ | .evictStore _
  | .settleOccupancy _ | .settleUsage .. | .insertGiveUp | .insertOr .. | .insertWrite ..
  | .insertPublish .. | .insertRef .. | .insertKey .. | .insertUndo .. | .insertDisplace ..
  | .insertRollback .. | .insertFailOccupancy _ | .insertFailUsage _ | .insertReturn _ | .eraseRef ..
  | .eraseKey .. | .eraseAnd .. | .eraseCas .. | .eraseOwn .. | .eraseFree .. | .eraseMark ..
  | .eraseOccupancy .. | .eraseUsage .. | .eraseRollback .. | .eraseUndo .. | .eraseUndoNone ..
  | .eraseAbort .. | .eraseReturn _ => .isTrue trivial

section Runs
variable {ι : Type} [Fintype ι]

/-- Threads over a memory and the number of calls begun. -/
abbrev CallConfig (ι : Type) := Config (Counted Memory) Pc ι

/-- Some access of one thread; the call it begins, if any, is counted. -/
abbrev CallAccess : Counted Memory → Pc → Counted Memory → Pc → Prop :=
  Chosen (counting step Pc.begun)

/-- Fewer than 2^30 calls, no access of `Erase`, and no hit field below zero. -/
structure Calm (c : CallConfig ι) (t : ι) : Prop where
  few : (c.threads t).idle = true → c.shared.count + 1 < 2 ^ 30
  keeps : (c.threads t).erasing = false
  notBelow : NotBelow c.shared.state (c.threads t)

instance decidableCalm (c : CallConfig ι) (t : ι) : Decidable (Calm c t) :=
  decidable_of_iff (((c.threads t).idle = true → c.shared.count + 1 < 2 ^ 30) ∧
      (c.threads t).erasing = false ∧ NotBelow c.shared.state (c.threads t))
    ⟨fun ⟨h1, h2, h3⟩ => ⟨h1, h2, h3⟩, fun ⟨h1, h2, h3⟩ => ⟨h1, h2, h3⟩⟩

/-- A new cache, threads outside any call, and no call so far. -/
def callStart (ι : Type) (options : ClockCacheOptions) : CallConfig ι :=
  ⟨⟨Memory.start options, 0⟩, fun _ => .ready⟩

/-! ### The accounts of the calls -/

def callTokens (n : Nat) (pc : Pc) : Nat × Nat × (Nat → Nat) := (pc.busy, pc.hopeful, fun i => pc.ahead n i)

/-- What the calls begun account for. -/
structure CallsOk (n : Nat) (s : Counted Memory) (r : Nat × Nat × (Nat → Nat)) : Prop where
  few : s.count < 2 ^ 30
  handles : s.state.handles.length + r.1 ≤ s.count
  hopeful : r.2.1 ≤ s.count
  hits : ∀ i, i < n → Shareable (s.state.metaWord i) → carriedHits (s.state.metaWord i) + r.2.1 ≤ s.count + 3
  left : ∀ i, i < n → s.state.left i + r.2.2 i ≤ s.count

/-- What a position knows of its search, and that it has no reference to undo where
there was no entry. -/
def CallKnows (n : Nat) (pc : Pc) : Prop := pc.Within n ∧ ∀ i, (.stray i : Token) ∉ pc.tokens

/-- The accounts of a run: of the words, and of the calls. -/
structure Sound (e : Nat) (c : CallConfig ι) : Prop where
  words : Accounted true (2 ^ e) c.uncount
  calls : Accounting (callTokens (2 ^ e)) (CallsOk (2 ^ e)) (fun _ => CallKnows (2 ^ e)) c

theorem total_callTokens {κ : Type*} [Fintype κ] (n : Nat) (c : Config (Counted Memory) Pc κ) :
    (total (callTokens n) c).1 = ∑ t, (c.threads t).busy := by
  rw [total, Prod.fst_sum]
  rfl

theorem SlotOk.shareable {carry : Bool} {s : Held} (h : SlotOk carry s) (hr : 0 < s.refs) :
    Shareable s.word := by
  obtain ⟨st, bit, hits, he⟩ := h.isEntry (.inl hr)
  rw [Shareable, h.state_entry he]
  rcases he.shared with rfl | ⟨rfl, -⟩
  · exact .inr rfl
  · exact .inl rfl

theorem begun_le {pc pc' : Pc} (h : 0 < pc.begun pc') : pc.idle = true ∧ pc.begun pc' = 1 := by
  have hle := pc'.busy_le_one
  unfold Pc.begun at h ⊢
  cases hidle : pc.idle with
  | true =>
    refine ⟨rfl, ?_⟩
    have hzero : pc.busy = 0 := by rw [Pc.busy, hidle, if_pos rfl]
    omega
  | false =>
    have hone : pc.busy = 1 := by rw [Pc.busy, hidle, if_neg (by decide)]
    omega

/-- A position outside `Erase` that is about to take a reference. -/
theorem taking_of_calm {n : Nat} {pc : Pc} {i : Nat} (hi : pc.taking = some i) (hk : Knows n pc)
    (herase : pc.erasing = false) :
    i < n ∧ pc.ahead n i = 1 ∧ pc.busy = 1 ∧ ∀ j, pc.pending j = 0 := by
  unfold Pc.taking at hi
  split at hi
  · cases hi
    exact ⟨hk.1, if_pos (Nat.le_refl _), rfl, fun _ => rfl⟩
  · cases hi
    exact ⟨hk, if_pos (Nat.le_refl _), rfl, fun _ => rfl⟩
  · cases herase
  · cases hi

variable [DecidableEq ι] {e : Nat} {c : CallConfig ι} {t : ι}

omit [DecidableEq ι] in
theorem Sound.references_lt (h : Sound e c) {i : Nat} (hbusy : (c.threads t).busy = 1)
    (hnone : (c.threads t).pending i = 0) : references c.uncount i + 1 < 2 ^ 30 := by
  have hfew := h.calls.glob.few
  have hhandles := h.calls.glob.handles
  rw [total_callTokens] at hhandles
  have hcount : c.shared.state.handles.count i ≤ c.shared.state.handles.length := List.count_le_length
  have hsum : ∑ u, (c.threads u).pending i < ∑ u, (c.threads u).busy := by
    refine Finset.sum_lt_sum (fun u _ => (c.threads u).pending_le_busy i) ⟨t, Finset.mem_univ t, ?_⟩
    omega
  show c.shared.state.handles.count i + ∑ u, (c.threads u).pending i + 1 < 2 ^ 30
  omega

omit [DecidableEq ι] in
theorem Sound.strays (h : Sound e c) (i : Nat) :
    (total Pc.tokens c.uncount).count (.stray i) = 0 := by
  rw [total, Multiset.count_sum']
  exact Finset.sum_eq_zero fun u _ => Multiset.count_eq_zero_of_notMem ((h.calls.loc u).2 i)

/-- A calm step is one that the words allow. -/
theorem Sound.allowed (h : Sound e c) (hok : Calm c t) : Allowed true c.uncount t where
  room := by
    intro i hi
    obtain ⟨hin, hahead, hbusy, hnone⟩ := taking_of_calm hi (h.words.loc t) hok.keeps
    have hfew := h.calls.glob.few
    have hleft := h.calls.glob.left i hin
    have hrefs := h.references_lt hbusy (hnone i)
    have hstrays := h.strays i
    rw [total_eq (callTokens (2 ^ e)) c t] at hleft
    have hone : (callTokens (2 ^ e) (c.threads t) + others (callTokens (2 ^ e)) c t).2.2 i =
        1 + (others (callTokens (2 ^ e)) c t).2.2 i := by rw [← hahead]; rfl
    rw [hone] at hleft
    refine ⟨?_, ?_⟩
    · rw [← references_eq]
      exact hrefs
    · show 2 ^ 60 * 1 + c.shared.state.left i + (total Pc.tokens c.uncount).count (.stray i) + 1 < 2 ^ 61
      omega
  undisturbed := by
    intro i _ hm
    obtain ⟨u, -, hu⟩ := Multiset.mem_sum.mp hm
    exact (h.calls.loc u).2 i hu
  fit := by
    have hbelow := hok.notBelow
    unfold HitsFit
    split
    · next k current hpc =>
      have hk := h.words.loc t
      rw [hpc] at hk
      have hin : current.toNat < 2 ^ e := hk.1
      have hrefs : 0 < (held c.shared.state (total Pc.tokens c.uncount) current.toNat).refs := by
        rw [total_eq Pc.tokens c.uncount t, hpc]
        exact held_refs_pos
      have hhits := h.calls.glob.hits _ hin ((h.words.glob.slots _ hin).shareable hrefs)
      have hfew := h.calls.glob.few
      refine .inr ⟨rfl, ?_⟩
      show carriedHits (c.shared.state.metaWord current.toNat) + 1 < 2 ^ 31
      omega
    · next k current overflow hpc =>
      have hthread : c.threads t = .lookup k current (.hitSub overflow) := hpc
      rw [hthread] at hbelow
      exact hbelow
    · trivial

/-- One access keeps the accounts of the calls. -/
theorem CallsOk.step {n count : Nat} {m : Memory} {pc : Pc} {o : Nat × Nat × (Nat → Nat)}
    {r : Memory × Pc} (h : CallsOk n ⟨m, count⟩ (callTokens n pc + o)) (hsize : m.cache.array.length = n)
    (hspends : Spends n m pc r) (heffect : Effect n m pc r)
    (hfew : pc.idle = true → count + 1 < 2 ^ 30) :
    CallsOk n ⟨r.1, count + pc.begun r.2⟩ (callTokens n r.2 + o) where
  few := by
    show count + pc.begun r.2 < 2 ^ 30
    have hlt : count < 2 ^ 30 := h.few
    by_cases hbegun : 0 < pc.begun r.2
    · obtain ⟨hidle, hone⟩ := begun_le hbegun
      have hroom := hfew hidle
      omega
    · omega
  handles := by
    have hold : m.handles.length + (pc.busy + o.1) ≤ count := h.handles
    have hstep := hspends.handles
    show r.1.handles.length + (r.2.busy + o.1) ≤ count + pc.begun r.2
    omega
  hopeful := by
    have hold : pc.hopeful + o.2.1 ≤ count := h.hopeful
    have hstep := hspends.hopeful
    show r.2.hopeful + o.2.1 ≤ count + pc.begun r.2
    omega
  hits := by
    intro i hi hs
    have hstep := hspends.hopeful
    have hold : Shareable (m.metaWord i) → carriedHits (m.metaWord i) + (pc.hopeful + o.2.1) ≤ count + 3 :=
      h.hits i hi
    have hcalls : pc.hopeful + o.2.1 ≤ count := h.hopeful
    show carriedHits (r.1.metaWord i) + (r.2.hopeful + o.2.1) ≤ count + pc.begun r.2 + 3
    cases heffect with
    | tame m' pc' quiet before after words data =>
      have htame := words i hi
      have hwas := htame.shareable.mp hs
      have hhits := htame.hits hwas
      have hold := hold hwas
      have hone : (if pc.hitting = some i then 1 else 0) ≤ if pc.hitting.isSome then 1 else 0 := by
        split
        · next heq => rw [heq]; exact Nat.le_refl 1
        · exact Nat.zero_le _
      simp only at hstep ⊢
      omega
    | take j m' pc' quiet before after inside was now words data =>
      by_cases hij : i = j
      · rw [hij] at hs
        exact absurd hs now
      · simp only [words i hij] at hs hstep ⊢
        have hold := hold hs
        omega
    | read j pc' reading writing before after inside =>
      have hold := hold hs
      simp only at hstep ⊢
      omega
    | write j handle pc' reading writing before after inside was =>
      have hword : (m.setSlot j {m.cache.slot j with toHandle := handle}).metaWord i = m.metaWord i :=
        word_setSlot (s := {m.cache.slot j with toHandle := handle}) rfl i
      simp only [hword] at hs hstep ⊢
      have hold := hold hs
      omega
    | publish j pc' quiet before after inside was =>
      have hword : (m.publish j).metaWord i = if i = j
          then (kStateVisible <<< kStateShift) ||| (kInitHitCount <<< kHitCounterShift)
          else m.metaWord i := metaWord_setMeta m _ (by rw [hsize]; exact inside) i
      simp only [hword] at hs hstep ⊢
      by_cases hij : i = j
      · have hthree : carriedHits
            ((kStateVisible <<< kStateShift) ||| (kInitHitCount <<< kHitCounterShift)) = 3 := by decide
        rw [if_pos hij, hthree]
        omega
      · rw [if_neg hij] at hs ⊢
        have hold := hold hs
        omega
  left := by
    intro i hi
    have hold : m.left i + (pc.ahead n i + o.2.2 i) ≤ count := h.left i hi
    have hstep := hspends.ahead i hi
    show r.1.left i + (r.2.ahead n i + o.2.2 i) ≤ count + pc.begun r.2
    omega

theorem Sound.spends (h : Sound e c) (hok : Calm c t) (choice : Choice) :
    Spends (2 ^ e) c.shared.state (c.threads t) (step choice c.shared.state (c.threads t)) := by
  have hg := h.words.glob
  rw [total_eq Pc.tokens c.uncount t] at hg
  exact step_spends hg (h.words.loc t) (h.calls.loc t).1 hok.keeps

theorem Sound.effect (h : Sound e c) (hok : Calm c t) (choice : Choice) :
    Effect (2 ^ e) c.shared.state (c.threads t) (step choice c.shared.state (c.threads t)) := by
  have hg := h.words.glob
  have hallowed := h.allowed hok
  have hroom := hallowed.room
  rw [total_eq Pc.tokens c.uncount t] at hg hroom
  exact step_effect hg (h.words.loc t) hroom hallowed.fit hok.keeps

/-- One calm step keeps all accounts. -/
theorem Sound.set (h : Sound e c) (hok : Calm c t) {s : Counted Memory} {pc : Pc}
    (hs : CallAccess c.shared (c.threads t) s pc) : Sound e (c.set t s pc) := by
  refine ⟨accounted_set h.words (h.allowed hok) hs.uncount.1, ?_⟩
  have own : ∀ (c : CallConfig ι) t s pc, Calm c t ∧ Sound e c → CallKnows (2 ^ e) (c.threads t) →
      CallAccess c.shared (c.threads t) s pc →
      CallsOk (2 ^ e) c.shared (callTokens (2 ^ e) (c.threads t) + others (callTokens (2 ^ e)) c t) →
      CallsOk (2 ^ e) s (callTokens (2 ^ e) pc + others (callTokens (2 ^ e)) c t) ∧
        CallKnows (2 ^ e) pc := by
    rintro c t s pc ⟨hok, hsound⟩ hk ⟨choice, hstep⟩ hg
    cases hstep
    have hspends := hsound.spends hok choice
    exact ⟨hg.step hsound.words.glob.size hspends (hsound.effect hok choice) hok.few,
      hspends.within, hspends.strays⟩
  exact h.calls.set own (fun _ _ _ _ _ _ _ hm _ _ => hm) ⟨hok, h⟩ hs

omit [DecidableEq ι] in
theorem start_sound {options : ClockCacheOptions} (hlen : options.length.toNat = 2 ^ e) :
    Sound e (callStart ι options) where
  words := by
    have hpos : 0 < options.length.toNat := by
      rw [hlen]
      exact Nat.two_pow_pos e
    have hstart : Accounted true options.length.toNat (callStart ι options).uncount :=
      start_accounted hpos
    rw [hlen] at hstart
    exact hstart
  calls := by
    refine ⟨?_, fun _ => ⟨trivial, no_strays rfl⟩⟩
    have hzero : total (callTokens (2 ^ e)) (callStart ι options) = 0 := Finset.sum_const_zero
    rw [hzero]
    refine ⟨Nat.two_pow_pos 30, Nat.le_refl 0, Nat.le_refl 0, fun i _ hs => ?_, fun i _ => Nat.le_refl 0⟩
    rw [callStart, start_metaWord] at hs
    exact absurd hs (by decide)

/-- **The accounts hold** wherever a calm run leads. -/
theorem sound_of_reaches {options : ClockCacheOptions} (hlen : options.length.toNat = 2 ^ e)
    (hr : Reaches CallAccess Calm (callStart ι options) c) : Sound e c :=
  hr.invariant (fun _ _ _ _ h hok hs => h.set hok hs) (start_sound hlen)

end Runs

end HyperCache.Clock
