import HyperCache.Clock.ClockCache
import HyperCache.Lib.Probe

/-! What the functions on one slot do, between the calls of one thread.

Between calls a slot's word is one of two things (`Word`): an empty slot's, which
holds nothing but the references lookups left on it, or that of a visible or
invisible entry with its hit count and the references held on it. Each lemma
reads one function of `ClockCache.lean` on such a slot; the results are stated
with `setMeta`, `setSlot` and `displaceAll`, so that what is not mentioned is
unchanged. -/
namespace HyperCache.Clock

theorem ofInt_natCast (n : Nat) : UInt64.ofInt (n : Int) = UInt64.ofNat n := by
  apply UInt64.toNat_inj.mp
  rw [UInt64.ofInt, UInt64.toNat_ofNat', UInt64.toNat_ofNat']
  omega

namespace ClockCache

/-! ### Slots of the array -/

@[simp] theorem setSlot_length (c : ClockCache) (i : Nat) (h : HandleImpl) :
    (c.setSlot i h).length = c.length := rfl

@[simp] theorem setSlot_size (c : ClockCache) (i : Nat) (h : HandleImpl) :
    (c.setSlot i h).array.length = c.array.length := by
  simp [setSlot]

@[simp] theorem setMeta_length (c : ClockCache) (i : Nat) (w : UInt64) :
    (c.setMeta i w).length = c.length := rfl

@[simp] theorem setMeta_size (c : ClockCache) (i : Nat) (w : UInt64) :
    (c.setMeta i w).array.length = c.array.length := by
  simp [setMeta]

theorem slot_setSlot (c : ClockCache) {i : Nat} (j : Nat) (h : HandleImpl)
    (hi : i < c.array.length) : (c.setSlot i h).slot j = if j = i then h else c.slot j := by
  simp only [slot, setSlot, List.getD_eq_getElem?_getD, List.getElem?_set]
  by_cases hj : i = j
  · subst hj
    simp [hi]
  · simp [hj, Ne.symm hj]

theorem slot_setSlot_self (c : ClockCache) {i : Nat} (h : HandleImpl) (hi : i < c.array.length) :
    (c.setSlot i h).slot i = h := by
  rw [slot_setSlot c i h hi, if_pos rfl]

theorem slot_setSlot_of_ne (c : ClockCache) {i j : Nat} (h : HandleImpl) (hj : j ≠ i) :
    (c.setSlot i h).slot j = c.slot j := by
  simp only [slot, setSlot, List.getD_eq_getElem?_getD, List.getElem?_set]
  simp [Ne.symm hj]

theorem setSlot_setSlot (c : ClockCache) (i : Nat) (h k : HandleImpl) :
    (c.setSlot i h).setSlot i k = c.setSlot i k := by
  simp [setSlot]

/-- Writing a slot's own contents back changes nothing. -/
theorem setSlot_slot (c : ClockCache) {i : Nat} (hi : i < c.array.length) :
    c.setSlot i (c.slot i) = c := by
  have : c.array.set i (c.slot i) = c.array := by
    rw [slot, List.getD_eq_getElem?_getD, List.getElem?_eq_getElem hi, Option.getD_some,
      List.set_getElem_self]
  simp only [setSlot, this]

theorem slot_setMeta_self (c : ClockCache) {i : Nat} (w : UInt64) (hi : i < c.array.length) :
    (c.setMeta i w).slot i = {c.slot i with metaWord := w} :=
  slot_setSlot_self c _ hi

theorem slot_setMeta_of_ne (c : ClockCache) {i j : Nat} (w : UInt64) (hj : j ≠ i) :
    (c.setMeta i w).slot j = c.slot j :=
  slot_setSlot_of_ne c _ hj

theorem setMeta_setMeta (c : ClockCache) {i : Nat} (w w' : UInt64) (hi : i < c.array.length) :
    (c.setMeta i w).setMeta i w' = c.setMeta i w' := by
  rw [setMeta, slot_setMeta_self c w hi]
  exact setSlot_setSlot c i _ _

theorem setMeta_same (c : ClockCache) {i : Nat} (hi : i < c.array.length) :
    c.setMeta i (c.slot i).metaWord = c :=
  setSlot_slot c hi

/-- Two caches with the same counters and the same slots are the same. -/
theorem ext_slots {c d : ClockCache} (hrest : {c with array := []} = {d with array := []})
    (hsize : c.array.length = d.array.length)
    (hslot : ∀ i, i < c.array.length → c.slot i = d.slot i) : c = d := by
  have harray : c.array = d.array := by
    refine List.ext_getElem hsize fun i hc hd => ?_
    have := hslot i hc
    rwa [slot, slot, List.getD_eq_getElem?_getD, List.getD_eq_getElem?_getD,
      List.getElem?_eq_getElem hc, List.getElem?_eq_getElem hd] at this
  cases c
  cases d
  simp_all

theorem make_length {options : ClockCacheOptions} (hpos : 0 < options.length.toNat) :
    (ClockCache.make options).length = options.length := by
  have hlt : options.length > 0 := by
    rw [gt_iff_lt, UInt64.lt_iff_toNat_lt]
    exact hpos
  exact if_pos hlt

theorem make_slot {options : ClockCacheOptions} (i : Nat) :
    (ClockCache.make options).slot i = default := by
  simp only [slot, ClockCache.make, List.getD_eq_getElem?_getD, List.getElem?_replicate]
  split
  · rfl
  · rfl

/-! ### Words between calls -/

/-- The word of a slot that no call is working on: `stray` counts the references
of lookups that found it empty, at most one for each call so far. -/
inductive Word (calls refs : Nat) (w : UInt64) : Prop where
  | empty (stray : Nat) (hs : stray ≤ calls) (hr : refs = 0) (hw : w = pack 0 0 0 stray)
  | entry (st hits : Nat) (hst : st = 6 ∨ st = 7) (hh : hits ≤ 2000) (hw : w = pack st 0 hits refs)

theorem Word.mono {calls calls' refs : Nat} {w : UInt64} (h : Word calls refs w)
    (hle : calls ≤ calls') : Word calls' refs w := by
  cases h with
  | empty stray hs hr hw => exact .empty stray (Nat.le_trans hs hle) hr hw
  | entry st hits hst hh hw => exact .entry st hits hst hh hw

theorem fits_empty {r : Nat} (h : r < 2 ^ 30) : Fits 0 0 0 r := ⟨by omega, by omega, by omega, h⟩

theorem fits_entry {st h r : Nat} (hst : st = 6 ∨ st = 7) (hh : h ≤ 2001) (hr : r < 2 ^ 30) :
    Fits st 0 h r := ⟨by omega, by omega, by omega, hr⟩

theorem state_empty {r : Nat} (h : r < 2 ^ 30) : state (pack 0 0 0 r) = kStateEmpty :=
  state_pack (fits_empty h)

theorem state_invisible {h r : Nat} (hh : h ≤ 2001) (hr : r < 2 ^ 30) :
    state (pack 6 0 h r) = kStateInvisible :=
  state_pack (fits_entry (.inl rfl) hh hr)

theorem state_visible {h r : Nat} (hh : h ≤ 2001) (hr : r < 2 ^ 30) :
    state (pack 7 0 h r) = kStateVisible :=
  state_pack (fits_entry (.inr rfl) hh hr)

theorem empty_ne_visible : kStateEmpty ≠ kStateVisible := by decide

theorem empty_ne_invisible : kStateEmpty ≠ kStateInvisible := by decide

theorem invisible_ne_visible : kStateInvisible ≠ kStateVisible := by decide

theorem invisible_ne_empty : kStateInvisible ≠ kStateEmpty := by decide

theorem visible_ne_empty : kStateVisible ≠ kStateEmpty := by decide

theorem finish_word :
    (kStateVisible <<< kStateShift) ||| (kInitHitCount <<< kHitCounterShift) = pack 7 0 3 0 := by
  decide

/-- An entry visible to lookups with this key. -/
def VisibleWith (k : UniqueId64x2) (h : HandleImpl) : Prop :=
  state h.metaWord = kStateVisible ∧ h.hashedKey = k

instance (k : UniqueId64x2) (h : HandleImpl) : Decidable (VisibleWith k h) :=
  inferInstanceAs (Decidable (_ ∧ _))

/-- A slot whose state is not Empty. -/
def NonEmpty (h : HandleImpl) : Prop := state h.metaWord ≠ kStateEmpty

instance (h : HandleImpl) : Decidable (NonEmpty h) := inferInstanceAs (Decidable (_ ≠ _))

theorem VisibleWith.nonEmpty {k : UniqueId64x2} {h : HandleImpl} (hv : VisibleWith k h) :
    NonEmpty h := by
  rw [NonEmpty, hv.1]
  exact visible_ne_empty

/-- The slot of an entry that is gone: its word is zero, and the pointer its
deleter was called on is null. -/
def cleared (s : HandleImpl) : HandleImpl :=
  {s with value := if s.delCb ≠ 0 ∧ s.value ≠ 0 then 0 else s.value, metaWord := 0}

/-- The cache with the entry of slot `h` freed and the slot marked empty. -/
def clear (c : ClockCache) (h : Nat) : ClockCache :=
  {c.setSlot h (cleared (c.slot h)) with
    deleted := if (c.slot h).delCb ≠ 0 ∧ (c.slot h).value ≠ 0
      then c.deleted ++ [((c.slot h).delCb, (c.slot h).value)] else c.deleted}

theorem freeDataMarkEmpty_eq (c : ClockCache) {h : Nat} (hh : h < c.array.length) :
    c.freeDataMarkEmpty h = c.clear h := by
  by_cases hd : (c.slot h).delCb ≠ 0 ∧ (c.slot h).value ≠ 0
  · have hslot : ∀ d : List (DeleterFn × ObjectPtr),
        ({c.setSlot h {c.slot h with value := 0} with deleted := d} : ClockCache).slot h =
          {c.slot h with value := 0} := fun d => slot_setSlot_self c _ hh
    simp only [freeDataMarkEmpty, freeData, if_pos hd, markEmpty, setMeta, hslot, clear, cleared]
    simp only [setSlot, List.set_set]
  · simp only [freeDataMarkEmpty, freeData, if_neg hd, markEmpty, setMeta, clear, cleared]
    rfl

theorem clear_setMeta (c : ClockCache) {h : Nat} (w : UInt64) (hh : h < c.array.length) :
    (c.setMeta h w).clear h = c.clear h := by
  rw [clear, clear, slot_setMeta_self c w hh]
  simp only [setMeta, setSlot, List.set_set]
  rfl

/-! ### The functions on one slot -/

section Slots
variable {c : ClockCache} {h calls refs : Nat} (hh : h < c.array.length)
  (hw : Word calls refs (c.slot h).metaWord) (hcalls : calls + 1 < 2 ^ 30) (hrefs : refs ≤ calls)

include hh hw hcalls hrefs

/-- A lookup takes a reference where it matches, leaves one on an empty slot, and
changes no state. -/
theorem lookupMatch_spec (k : UniqueId64x2) :
    ∃ w', lookupMatch k h c = some (decide (VisibleWith k (c.slot h)), c.setMeta h w') ∧
      state w' = state (c.slot h).metaWord ∧
      Word (calls + 1) (refs + if VisibleWith k (c.slot h) then 1 else 0) w' := by
  have hkey : ∀ w, ((c.setMeta h w).slot h).hashedKey = (c.slot h).hashedKey := fun w => by
    rw [slot_setMeta_self c w hh]
  have hword : ∀ w, ((c.setMeta h w).slot h).metaWord = w := fun w => by
    rw [slot_setMeta_self c w hh]
  cases hw with
  | empty stray hs hr hw =>
    have hst : state (c.slot h).metaWord = kStateEmpty := by rw [hw, state_empty (by omega)]
    have hv : ¬ VisibleWith k (c.slot h) := fun hv => empty_ne_visible (hst.symm.trans hv.1)
    refine ⟨pack 0 0 0 (stray + 1), ?_, ?_, ?_⟩
    · simp only [lookupMatch, refIncr, hst, if_neg empty_ne_visible, if_neg empty_ne_invisible, hv,
        decide_false]
      rw [hw, pack_add_ref]
    · rw [state_empty (by omega), hst]
    · rw [if_neg hv]
      exact .empty _ (by omega) hr rfl
  | entry st hits hst hhits hw =>
    rcases hst with rfl | rfl
    · have hst : state (c.slot h).metaWord = kStateInvisible := by
        rw [hw, state_invisible (by omega) (by omega)]
      have hv : ¬ VisibleWith k (c.slot h) := fun hv => invisible_ne_visible (hst.symm.trans hv.1)
      refine ⟨(c.slot h).metaWord, ?_, rfl, ?_⟩
      · simp only [lookupMatch, refIncr, refDecr, hst, if_neg invisible_ne_visible, if_true, hv,
          decide_false, hword, setMeta_setMeta c _ _ hh]
        rw [hw, pack_add_ref, pack_sub_ref]
      · rw [if_neg hv]
        exact .entry 6 hits (.inl rfl) hhits hw
    · have hst : state (c.slot h).metaWord = kStateVisible := by
        rw [hw, state_visible (by omega) (by omega)]
      by_cases hk : (c.slot h).hashedKey = k
      · have hv : VisibleWith k (c.slot h) := ⟨hst, hk⟩
        have hcount : hitCount (pack 7 0 hits (refs + 1)) = hits :=
          hitCount_pack (fits_entry (.inr rfl) (by omega) (by omega))
        have hone : UInt64.ofInt 1 = UInt64.ofNat 1 := ofInt_natCast 1
        by_cases hmax : hits = 2000
        · refine ⟨pack 7 0 hits (refs + 1), ?_, ?_, ?_⟩
          · have hover : (hits : Int) + 1 - kMaxHitCount = 1 := by rw [hmax]; rfl
            simp only [lookupMatch, refIncr, hst, if_true, hkey, hk, hv, decide_true, hitIncr, hword]
            rw [hw, pack_add_ref, hcount, hover, if_pos (by decide)]
            simp only [hitDecr, hword, setMeta_setMeta c _ _ hh, hone]
            rw [pack_add_hit, pack_sub_hit]
          · rw [hst, state_visible (by omega) (by omega)]
          · rw [if_pos hv]
            exact .entry 7 hits (.inr rfl) hhits rfl
        · refine ⟨pack 7 0 (hits + 1) (refs + 1), ?_, ?_, ?_⟩
          · have hover : ¬ (hits : Int) + 1 - kMaxHitCount > 0 := by
              simp only [kMaxHitCount]
              omega
            simp only [lookupMatch, refIncr, hst, if_true, hkey, hk, hv, decide_true, hitIncr, hword]
            rw [hw, pack_add_ref, hcount, if_neg hover, setMeta_setMeta _ _ _ hh, hone, pack_add_hit]
          · rw [hst, state_visible (by omega) (by omega)]
          · rw [if_pos hv]
            exact .entry 7 (hits + 1) (.inr rfl) (by omega) rfl
      · have hv : ¬ VisibleWith k (c.slot h) := fun hv => hk hv.2
        refine ⟨(c.slot h).metaWord, ?_, rfl, ?_⟩
        · simp only [lookupMatch, refIncr, refDecr, hst, if_true, hkey, hk, if_false, hv, decide_false,
            hword, setMeta_setMeta c _ _ hh]
          rw [hw, pack_add_ref, pack_sub_ref]
        · rw [if_neg hv]
          exact .entry 7 hits (.inr rfl) hhits hw

omit hw hcalls hrefs in
/-- An insertion takes an empty slot, and leaves any other as it is. -/
theorem tryInsert_empty (handle : Handle) (already : Bool) (he : ¬ NonEmpty (c.slot h)) :
    tryInsert handle h c already = (true, already, c.setSlot h
      {c.slot h with toHandle := handle, metaWord := pack 7 0 3 0}) := by
  have hst : state (c.slot h).metaWord = kStateEmpty := not_not.mp he
  simp only [tryInsert, beginSlotInsert, hst, if_true, finishSlotInsert, finish_word]
  simp only [setMeta, setSlot_setSlot, slot_setSlot_self _ _ (show h < _ by simpa using hh)]

theorem tryInsert_entry (handle : Handle) (already : Bool) (he : NonEmpty (c.slot h)) :
    tryInsert handle h c already =
      (false, already || decide (VisibleWith handle.hashedKey (c.slot h)), c) := by
  have hword : ∀ w, ((c.setMeta h w).slot h).metaWord = w := fun w => by
    rw [slot_setMeta_self c w hh]
  have hkey : ∀ w, ((c.setMeta h w).slot h).hashedKey = (c.slot h).hashedKey := fun w => by
    rw [slot_setMeta_self c w hh]
  cases hw with
  | empty stray hs hr hw =>
    exact absurd (by rw [hw, state_empty (by omega)]) he
  | entry st hits hst hhits hw =>
    have hor : (c.slot h).metaWord ||| (kStateOccupiedBit <<< kStateShift) =
        (c.slot h).metaWord := by
      rw [hw, pack_or_occupied (fits_entry hst (by omega) (by omega)) (by omega)]
    rcases hst with rfl | rfl
    · have hst : state (c.slot h).metaWord = kStateInvisible := by
        rw [hw, state_invisible (by omega) (by omega)]
      have hv : ¬ VisibleWith handle.hashedKey (c.slot h) :=
        fun hv => invisible_ne_visible (hst.symm.trans hv.1)
      simp only [tryInsert, beginSlotInsert, hor, setMeta_same c hh, hst, if_neg invisible_ne_empty,
        if_pos invisible_ne_visible, hv, decide_false, Bool.or_false]
      rfl
    · have hst : state (c.slot h).metaWord = kStateVisible := by
        rw [hw, state_visible (by omega) (by omega)]
      have hback : (c.slot h).metaWord + kRefIncrement - kRefIncrement = (c.slot h).metaWord := by
        rw [hw, pack_add_ref, pack_sub_ref]
      by_cases hk : (c.slot h).hashedKey = handle.hashedKey
      · have hv : VisibleWith handle.hashedKey (c.slot h) := ⟨hst, hk⟩
        simp only [tryInsert, beginSlotInsert, hor, setMeta_same c hh, hst, if_neg visible_ne_empty,
          ne_eq, not_true_eq_false, if_false, if_true, refIncr, refDecr, hkey, hk, hword, hback,
          setMeta_setMeta c _ _ hh, hv, decide_true, Bool.or_true]
        rfl
      · have hv : ¬ VisibleWith handle.hashedKey (c.slot h) := fun hv => hk hv.2
        simp only [tryInsert, beginSlotInsert, hor, setMeta_same c hh, hst, if_neg visible_ne_empty,
          ne_eq, not_true_eq_false, if_false, if_true, refIncr, refDecr, hkey, hk, hword, hback,
          setMeta_setMeta c _ _ hh, hv, decide_false, Bool.or_false]
        rfl

omit hw hcalls hrefs in
/-- An erase leaves a slot without the key as it is. -/
theorem eraseMatch_miss (k : UniqueId64x2) (found succ : Bool) (hv : ¬ VisibleWith k (c.slot h)) :
    eraseMatch k h ⟨c, found, succ⟩ = some (false, ⟨c, found, succ⟩) := by
  have hword : ∀ w, ((c.setMeta h w).slot h).metaWord = w := fun w => by
    rw [slot_setMeta_self c w hh]
  have hkey : ∀ w, ((c.setMeta h w).slot h).hashedKey = (c.slot h).hashedKey := fun w => by
    rw [slot_setMeta_self c w hh]
  have hback : (c.slot h).metaWord + kRefIncrement - kRefIncrement = (c.slot h).metaWord := by
    rw [UInt64.add_sub_cancel]
  by_cases hst : state (c.slot h).metaWord = kStateVisible
  · have hk : (c.slot h).hashedKey ≠ k := fun hk => hv ⟨hst, hk⟩
    simp only [eraseMatch, refIncr, refDecr, hst, if_true, hkey, hk, if_false, hword, hback,
      setMeta_setMeta c _ _ hh, setMeta_same c hh]
    rfl
  · simp only [eraseMatch, refIncr, refDecr, hst, if_false, ite_self, hword, hback,
      setMeta_setMeta c _ _ hh, setMeta_same c hh]
    rfl

/-- An erase takes a visible entry of its key out, or leaves it invisible where a
reference is held on it. -/
theorem eraseMatch_hit (k : UniqueId64x2) (found succ : Bool) (hv : VisibleWith k (c.slot h)) :
    (refs = 0 ∧ eraseMatch k h ⟨c, found, succ⟩ =
      (((c.clear h).reclaimEntryUsage (c.slot h).totalCharge).rollback k h).map
        (fun c => (false, ⟨c, true, true⟩))) ∨
    (refs ≠ 0 ∧ ∃ hits ≤ 2000, eraseMatch k h ⟨c, found, succ⟩ =
      some (false, ⟨c.setMeta h (pack 6 0 hits refs), true, succ⟩)) := by
  have hword : ∀ w, ((c.setMeta h w).slot h).metaWord = w := fun w => by
    rw [slot_setMeta_self c w hh]
  have hkey : ∀ w, ((c.setMeta h w).slot h).hashedKey = (c.slot h).hashedKey := fun w => by
    rw [slot_setMeta_self c w hh]
  have hcharge : ∀ w, ((c.setMeta h w).slot h).totalCharge = (c.slot h).totalCharge := fun w => by
    rw [slot_setMeta_self c w hh]
  obtain ⟨hst, hk⟩ := hv
  cases hw with
  | empty stray hs hr hw =>
    exact absurd (hst.symm.trans (by rw [hw, state_empty (by omega)])) visible_ne_empty
  | entry st hits hst' hhits hw =>
    obtain rfl | rfl := hst'
    · exact absurd (hst.symm.trans (by rw [hw, state_invisible (by omega) (by omega)]))
        invisible_ne_visible.symm
    have hand : (c.slot h).metaWord + kRefIncrement &&& ~~~(kStateVisibleBit <<< kStateShift) =
        pack 6 0 hits (refs + 1) := by
      rw [hw, pack_add_ref, pack_and_invisible (fits_entry (.inr rfl) (by omega) (by omega)) (by omega)]
    have hcount : refCount (pack 6 0 hits (refs + 1)) = refs + 1 :=
      refCount_pack (fits_entry (.inl rfl) (by omega) (by omega))
    by_cases hr : refs = 0
    · left
      refine ⟨hr, ?_⟩
      have hone : ¬ ((refs : Int) + 1 > 1) := by omega
      simp only [eraseMatch, refIncr, hst, if_true, hkey, hk, hword, hand, hcount, hone, if_false,
        setMeta_setMeta c _ _ hh, hcharge]
      rw [freeDataMarkEmpty_eq _ (by simpa using hh), clear_setMeta c _ hh]
      cases ((c.clear h).reclaimEntryUsage (c.slot h).totalCharge).rollback k h with
      | none => rfl
      | some d => rfl
    · right
      refine ⟨hr, hits, hhits, ?_⟩
      have hone : (refs : Int) + 1 > 1 := by omega
      simp only [eraseMatch, refIncr, refDecr, hst, if_true, hkey, hk, hword, hand, hcount, hone,
        setMeta_setMeta c _ _ hh, pack_sub_ref]
      rfl

/-- What the clock hand does to a slot: nothing, if the slot is empty or held, or it lowers
the hit count of a visible entry nobody holds, or it takes such an entry for eviction. -/
theorem clockUpdate_spec (data : EvictionData) (sum : Int) {delta : Int} (hdelta : 1 ≤ delta) :
    (∃ seen, (refs = 0 → ¬ NonEmpty (c.slot h) ∧ seen = data.seenPinnedCount) ∧
      clockUpdate h c data sum delta = (false, c, {data with seenPinnedCount := seen}, sum)) ∨
    (refs = 0 ∧ NonEmpty (c.slot h) ∧ ∃ hits : Nat, hits ≤ 2000 ∧
      hits < hitCount (c.slot h).metaWord ∧ state (c.slot h).metaWord = kStateVisible ∧
      clockUpdate h c data sum delta = (false, c.setMeta h (pack 7 0 hits 0), data, sum)) ∨
    (refs = 0 ∧ NonEmpty (c.slot h) ∧ clockUpdate h c data sum delta =
      (true, c.setMeta h (kStateConstruction <<< kStateShift ||| 0),
        {data with freedCharge := data.freedCharge + (c.slot h).totalCharge,
                   freedCount := data.freedCount + 1}, sum)) := by
  cases hw with
  | empty stray hs hr hw =>
    left
    have hst : state (c.slot h).metaWord = kStateEmpty := by rw [hw, state_empty (by omega)]
    refine ⟨data.seenPinnedCount, fun _ => ⟨not_not.mpr hst, rfl⟩, ?_⟩
    simp only [clockUpdate, hst, show kStateEmpty &&& kStateShareableBit = 0 from by decide, if_true]
  | entry st hits hst hhits hw =>
    have hfits : Fits st 0 hits refs := fits_entry hst (by omega) (by omega)
    have hcount : refCount (c.slot h).metaWord = refs := by rw [hw, refCount_pack hfits]
    have hhit : hitCount (c.slot h).metaWord = hits := by rw [hw, hitCount_pack hfits]
    have hbit : (c.slot h).metaWord &&& kHitBitMask = 0 := by
      rw [hw, pack_and_hitBit hfits]
      rfl
    have hstate : state (c.slot h).metaWord = UInt64.ofNat st := by rw [hw, state_pack hfits]
    have hshare : ¬ (UInt64.ofNat st &&& kStateShareableBit = 0) := by
      obtain rfl | rfl := hst
      · decide
      · decide
    have hentry : NonEmpty (c.slot h) := by
      rw [NonEmpty, hstate]
      obtain rfl | rfl := hst
      · decide
      · decide
    have hcharge : ∀ w, ((c.setMeta h w).slot h).totalCharge = (c.slot h).totalCharge := fun w => by
      rw [slot_setMeta_self c w hh]
    by_cases hr : refs = 0
    · right
      have hzero : ¬ ((refs : Int) > 0) := by omega
      by_cases hlower : UInt64.ofNat st = kStateVisible ∧ (hits : Int) > 0
      · left
        have hnew : max ((hits : Int) - delta) 0 = ((hits - delta.toNat : Nat) : Int) := by omega
        have hword : (kStateVisible <<< kStateShift) ||| 0 |||
            (UInt64.ofNat (hits - delta.toNat) <<< kHitCounterShift) = pack 7 0 (hits - delta.toNat) 0 :=
          pack_or_hits Nat.zero_lt_two (by omega)
        refine ⟨hr, hentry, hits - delta.toNat, by omega, by rw [hhit]; omega, hstate.trans hlower.1, ?_⟩
        simp only [clockUpdate, hstate, hcount, hhit, hbit, if_neg hshare, if_neg hzero,
          if_pos hlower, hnew, ofInt_natCast, hword]
      · right
        refine ⟨hr, hentry, ?_⟩
        simp only [clockUpdate, hstate, hcount, hhit, hbit, if_neg hshare, if_neg hzero,
          if_neg hlower, hcharge]
    · left
      have hpos : (refs : Int) > 0 := by omega
      refine ⟨data.seenPinnedCount + 1, fun hzero => absurd hzero hr, ?_⟩
      simp only [clockUpdate, hstate, hcount, if_neg hshare, if_pos hpos]

omit hh in
/-- Giving a reference back. -/
theorem release_spec (hr : 1 ≤ refs) : ∃ w', c.release h = (true, c.setMeta h w') ∧
    state w' = state (c.slot h).metaWord ∧ Word calls (refs - 1) w' := by
  cases hw with
  | empty stray hs hr' hw => omega
  | entry st hits hst hhits hw =>
    refine ⟨pack st 0 hits (refs - 1), ?_, ?_, .entry st hits hst hhits rfl⟩
    · have : pack st 0 hits refs - kRefIncrement = pack st 0 hits (refs - 1) := by
        rw [← pack_sub_ref st 0 hits (refs - 1), Nat.sub_add_cancel hr]
      simp only [release, refDecr, hw, this]
    · rw [hw, state_pack (fits_entry hst (by omega) (by omega)),
        state_pack (fits_entry hst (by omega) (by omega))]

end Slots

end ClockCache

end HyperCache.Clock
