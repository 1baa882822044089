import HyperCache.Clock.References

/-! What each access does to the words of the table.

Most accesses keep every entry an entry and do not raise a hit count but by the hit
they make (`Tame`). The others move one slot along: an insertion writes its entry and
publishes it, the clock hand takes an entry and reads it. `step_effect` says once which
of these an access is, for every position outside `Erase`. -/
namespace HyperCache.Clock
open Interleaving ClockCache

/-! ### One word -/

/-- A visible or invisible entry. -/
def Shareable (metaWord : UInt64) : Prop :=
  state metaWord = kStateVisible ∨ state metaWord = kStateInvisible

instance (metaWord : UInt64) : Decidable (Shareable metaWord) := inferInstanceAs (Decidable (_ ∨ _))

/-- An entry stays one, with at most `n` more hits, and no other slot becomes one. -/
structure Tame (n : Nat) (w w' : UInt64) : Prop where
  shareable : Shareable w' ↔ Shareable w
  hits : Shareable w → carriedHits w' ≤ carriedHits w + n

theorem Tame.refl (n : Nat) (w : UInt64) : Tame n w w := ⟨Iff.rfl, fun _ => Nat.le_add_right _ _⟩

theorem Tame.of_not {n : Nat} {w w' : UInt64} (h : ¬ Shareable w) (h' : ¬ Shareable w') : Tame n w w' :=
  ⟨iff_of_false h' h, fun hs => absurd hs h⟩

theorem tame_pack {st bit hits r bit' hits' r' n : Nat} (hf : Fits st bit hits r)
    (hf' : Fits st bit' hits' r') (hle : bit' * 2 ^ 30 + hits' ≤ bit * 2 ^ 30 + hits + n) :
    Tame n (pack st bit hits r) (pack st bit' hits' r') where
  shareable := by rw [Shareable, Shareable, state_pack hf, state_pack hf']
  hits := by
    intro _
    rw [carriedHits_pack hf, carriedHits_pack hf']
    exact hle

section Word
variable {carry : Bool} {s : Held}

/-- A slot with an owner holds no entry. -/
theorem SlotOk.not_shareable (h : SlotOk carry s) (ho : 0 < s.owners) : ¬ Shareable s.word := by
  intro hs
  obtain ⟨st, bit, hits, he⟩ := h.isEntry (.inr hs)
  have hzero := he.owners
  omega

theorem IsBare.not_shareable {st bit : Nat} (hb : IsBare carry s st bit)
    (hroom : 2 ^ 60 * bit + (s.left + s.strays) < 2 ^ 61) : ¬ Shareable s.word := by
  rw [Shareable, hb.word]
  rcases hb.owned with ⟨rfl, -⟩ | ⟨rfl, -⟩
  · rw [state_pack_zero (by omega) hroom]
    decide
  · rw [state_pack_zero (by omega) hroom]
    decide

theorem SlotOk.tame_add_ref (h : SlotOk carry s) (hfew : s.refs + s.strays + 1 < 2 ^ 30)
    (hbare : 2 ^ 60 * carry.toNat + s.left + s.strays + 1 < 2 ^ 61) :
    Tame 0 s.word (s.word + kRefIncrement) := by
  rcases h.agrees with ⟨st, bit, hits, he⟩ | ⟨st, bit, hb⟩
  · obtain ⟨h1, h2, h3, h4⟩ := he.fits h.few
    rw [he.word, pack_add_ref]
    exact tame_pack ⟨h1, h2, h3, h4⟩ ⟨h1, h2, h3, by omega⟩ (by omega)
  · have hroom : 2 ^ 60 * bit + (s.left + s.strays + 1) < 2 ^ 61 := by
      have hle := Nat.mul_le_mul_left (2 ^ 60) hb.bit_le
      omega
    apply Tame.of_not (hb.not_shareable (by omega))
    have hb' : IsBare carry {s with word := s.word + kRefIncrement, left := s.left + 1} st bit := by
      refine ⟨hb.owned, hb.bit_le, ?_, hb.refs⟩
      rw [hb.word, pack_add_ref, Nat.add_right_comm]
    exact hb'.not_shareable (by simp only; omega)

theorem SlotOk.tame_sub_ref (h : SlotOk carry s) (hr : 0 < s.refs) :
    Tame 0 s.word (s.word - kRefIncrement) := by
  obtain ⟨st, bit, hits, he⟩ := h.isEntry (.inl hr)
  obtain ⟨h1, h2, h3, h4⟩ := he.fits h.few
  obtain ⟨r, hr⟩ : ∃ r, s.refs = r + 1 := ⟨s.refs - 1, by omega⟩
  rw [he.word, hr, pack_sub_ref]
  exact tame_pack ⟨h1, h2, h3, by omega⟩ ⟨h1, h2, h3, by omega⟩ (by omega)

theorem SlotOk.tame_hit (h : SlotOk carry s) (hr : 0 < s.refs) (hfit : HitFits carry s.word) :
    Tame 1 s.word (s.word + kHitIncrement * UInt64.ofInt 1) := by
  obtain ⟨st, bit, hits, he⟩ := h.isEntry (.inl hr)
  have hfits := he.fits h.few
  have hword : s.word + kHitIncrement * UInt64.ofInt 1 = pack st bit (hits + 1) s.refs := by
    rw [he.word]
    exact pack_add_hit st bit hits s.refs 1
  rw [HitFits, h.hitCount_entry he, he.word, carriedHits_pack hfits] at hfit
  obtain ⟨h1, h2, h3, h4⟩ := hfits
  rw [hword, he.word]
  by_cases hroom : hits + 1 < 2 ^ 30
  · exact tame_pack ⟨h1, h2, h3, h4⟩ ⟨h1, h2, hroom, h4⟩ (by omega)
  · have hcarry : hits + 1 = 2 ^ 30 ∧ bit = 0 := by omega
    rw [hcarry.1, hcarry.2, pack_carry]
    exact tame_pack ⟨h1, by omega, h3, h4⟩ ⟨h1, by omega, by omega, h4⟩ (by omega)

theorem SlotOk.tame_hitSub (h : SlotOk carry s) (hr : 0 < s.refs) {n : Nat}
    (hfit : (n : Int) ≤ hitCount s.word) :
    Tame 0 s.word (s.word - kHitIncrement * UInt64.ofInt n) := by
  obtain ⟨st, bit, hits, he⟩ := h.isEntry (.inl hr)
  rw [h.hitCount_entry he] at hfit
  obtain ⟨h1, h2, h3, h4⟩ := he.fits h.few
  obtain ⟨k, rfl⟩ : ∃ k, hits = k + n := ⟨hits - n, by omega⟩
  rw [he.word, ofInt_natCast, pack_sub_hit]
  exact tame_pack ⟨h1, h2, h3, h4⟩ ⟨h1, h2, by omega, h4⟩ (by omega)

theorem SlotOk.tame_lower (h : SlotOk carry s) (hv : state s.word = kStateVisible) {delta : Int} (hdelta : 0 ≤ delta) :
    Tame 0 s.word (lowered s.word delta) := by
  obtain ⟨st, bit, hits, he⟩ := h.isEntry (.inr (.inl hv))
  have hfits := he.fits h.few
  have hst : st = 7 := by
    have hstate := h.state_entry he
    rcases he.shared with rfl | ⟨rfl, -⟩
    · rw [hv] at hstate
      exact absurd hstate (by decide)
    · rfl
  have hcount := h.hitCount_entry he
  obtain ⟨h1, h2, h3, h4⟩ := hfits
  obtain ⟨k, hk, hle⟩ : ∃ k : Nat, max (hitCount s.word - delta) 0 = k ∧ k ≤ hits := by
    rw [hcount]
    exact ⟨(max ((hits : Int) - delta) 0).toNat, by omega, by omega⟩
  have hword : lowered s.word delta = pack 7 bit k 0 := by
    rw [lowered, hk, ofInt_natCast, he.word, pack_and_hitBit ⟨h1, h2, h3, h4⟩,
      pack_or_hits h2 (by omega)]
  rw [hword, he.word, hst]
  exact tame_pack ⟨by omega, h2, h3, h4⟩ ⟨by omega, h2, by omega, by omega⟩ (by omega)

end Word

/-! ### Positions -/

namespace Pc

/-- In `Erase`. -/
def erasing : Pc → Bool
  | .eraseRef .. | .eraseKey .. | .eraseAnd .. | .eraseCas .. | .eraseOwn .. | .eraseFree ..
  | .eraseMark .. | .eraseOccupancy .. | .eraseUsage .. | .eraseRollback .. | .eraseUndo ..
  | .eraseUndoNone .. | .eraseAbort .. => true
  | _ => false

/-- The slot the next access hits. -/
def hitting : Pc → Option Nat
  | .lookup _ current .hit => some current.toNat
  | _ => none

/-- A slot under construction whose entry still counts, or counts already. -/
def counted : Pc → Multiset Nat
  | .evictOwn _ h => {h.toNat}
  | .insertPublish _ current => {current.toNat}
  | _ => 0

/-- The taken entry that the next access reads. -/
def reading : Pc → Option Nat
  | .evictOwn _ h => some h.toNat
  | _ => none

/-- The entry that the next access writes, and where. -/
def writing : Pc → Option (Nat × Handle)
  | .insertWrite f current => some (current.toNat, f.handle)
  | _ => none

theorem counted_le_own (pc : Pc) (i : Nat) : pc.counted.count i ≤ pc.tokens.count (.own i) := by
  cases pc with
  | evictOwn f h => simp [counted, tokens, Multiset.count_singleton]
  | insertPublish f current => simp [counted, tokens, Multiset.count_singleton]
  | _ => exact Nat.zero_le _

theorem counted_eq_zero {pc : Pc} (h : pc.tokens = 0) : pc.counted = 0 := by
  cases pc with
  | evictOwn f i => exact absurd h (Multiset.singleton_ne_zero _)
  | insertPublish f current => exact absurd h (Multiset.singleton_ne_zero _)
  | _ => rfl

end Pc

/-! ### One access -/

/-- The same key and charge. -/
structure SameData (h h' : HandleImpl) : Prop where
  hashedKey : h'.hashedKey = h.hashedKey
  totalCharge : h'.totalCharge = h.totalCharge

theorem SameData.refl (h : HandleImpl) : SameData h h := ⟨rfl, rfl⟩

/-- What an access does to the slots below `n`. -/
inductive Effect (n : Nat) (m : Memory) (pc : Pc) : Memory × Pc → Prop where
  | tame (m' : Memory) (pc' : Pc)
    (quiet : pc.reading = none ∧ pc.writing = none) (before : pc.counted = 0) (after : pc'.counted = 0)
    (words : ∀ j, j < n → Tame (if pc.hitting = some j then 1 else 0) (m.metaWord j) (m'.metaWord j))
    (data : ∀ j, SameData (m.cache.slot j) (m'.cache.slot j)) : Effect n m pc (m', pc')
  | take (i : Nat) (m' : Memory) (pc' : Pc)
    (quiet : pc.reading = none ∧ pc.writing = none) (before : pc.counted = 0) (after : pc'.counted = {i})
    (inside : i < n) (was : Shareable (m.metaWord i)) (now : ¬ Shareable (m'.metaWord i))
    (words : ∀ j, j ≠ i → m'.metaWord j = m.metaWord j)
    (data : ∀ j, SameData (m.cache.slot j) (m'.cache.slot j)) : Effect n m pc (m', pc')
  | read (i : Nat) (pc' : Pc)
    (reading : pc.reading = some i) (writing : pc.writing = none)
    (before : pc.counted = {i}) (after : pc'.counted = 0) (inside : i < n) : Effect n m pc (m, pc')
  | write (i : Nat) (handle : Handle) (pc' : Pc)
    (reading : pc.reading = none) (writing : pc.writing = some (i, handle))
    (before : pc.counted = 0) (after : pc'.counted = {i})
    (inside : i < n) (was : ¬ Shareable (m.metaWord i)) :
    Effect n m pc (m.setSlot i {m.cache.slot i with toHandle := handle}, pc')
  | publish (i : Nat) (pc' : Pc)
    (quiet : pc.reading = none ∧ pc.writing = none) (before : pc.counted = {i}) (after : pc'.counted = 0)
    (inside : i < n) (was : ¬ Shareable (m.metaWord i)) : Effect n m pc (m.publish i, pc')

section Memory
variable {n i : Nat} {m m' : Memory} {pc pc' : Pc}

theorem data_setSlot {s : HandleImpl} (h : SameData (m.cache.slot i) s) (j : Nat) :
    SameData (m.cache.slot j) ((m.setSlot i s).cache.slot j) := by
  show SameData _ ((m.cache.setSlot i s).slot j)
  by_cases hi : i < m.cache.array.length
  · rw [slot_setSlot m.cache j s hi]
    split
    · next hj =>
      rw [hj]
      exact h
    · exact .refl _
  · rw [ClockCache.setSlot, List.set_eq_of_length_le (Nat.le_of_not_lt hi)]
    exact .refl _

theorem data_setMeta (w : UInt64) (j : Nat) :
    SameData (m.cache.slot j) ((m.setMeta i w).cache.slot j) :=
  data_setSlot (s := {m.cache.slot i with metaWord := w}) ⟨rfl, rfl⟩ j

theorem word_displace (count : UInt32) (j : Nat) : (m.displace i count).metaWord j = m.metaWord j :=
  word_setSlot (s := {m.cache.slot i with displacements := (m.cache.slot i).displacements + count}) rfl j

theorem data_displace (count : UInt32) (j : Nat) :
    SameData (m.cache.slot j) ((m.displace i count).cache.slot j) :=
  data_setSlot (s := {m.cache.slot i with displacements := (m.cache.slot i).displacements + count})
    ⟨rfl, rfl⟩ j

theorem word_freeData (j : Nat) : (m.freeData i).metaWord j = m.metaWord j := by
  unfold Memory.freeData ClockCache.freeData
  simp only
  split
  · exact word_setSlot (s := {m.cache.slot i with value := 0}) rfl j
  · rfl

theorem data_freeData (j : Nat) : SameData (m.cache.slot j) ((m.freeData i).cache.slot j) := by
  unfold Memory.freeData ClockCache.freeData
  simp only
  split
  · exact data_setSlot (s := {m.cache.slot i with value := 0}) ⟨rfl, rfl⟩ j
  · exact .refl _

/-- An access to something else than words and data. -/
theorem Effect.still (quiet : pc.reading = none ∧ pc.writing = none) (before : pc.counted = 0)
    (after : pc'.counted = 0) (words : ∀ j, m'.metaWord j = m.metaWord j)
    (data : ∀ j, SameData (m.cache.slot j) (m'.cache.slot j)) : Effect n m pc (m', pc') :=
  .tame m' pc' quiet before after (fun j _ => by rw [words j]; exact .refl _ _) data

/-- An access to one word. -/
theorem Effect.word {w : UInt64} (quiet : pc.reading = none ∧ pc.writing = none)
    (before : pc.counted = 0) (after : pc'.counted = 0) (hsize : i < m.cache.array.length)
    (hcache : m'.cache = (m.setMeta i w).cache)
    (htame : Tame (if pc.hitting = some i then 1 else 0) (m.metaWord i) w) :
    Effect n m pc (m', pc') := by
  refine .tame m' pc' quiet before after (fun j _ => ?_) fun j => ?_
  · have hword : m'.metaWord j = if j = i then w else m.metaWord j := by
      rw [← metaWord_setMeta m w hsize, Memory.metaWord, hcache]
      rfl
    rw [hword]
    by_cases hj : j = i
    · rw [if_pos hj, hj]
      exact htame
    · rw [if_neg hj]
      exact .refl _ _
  · rw [hcache]
    exact data_setMeta w j

end Memory

section Steps
variable {carry : Bool} {n : Nat} {m : Memory} {o : Multiset Token} {choice : Choice}

theorem call_effect {pc : Pc} (quiet : pc.reading = none ∧ pc.writing = none)
    (hc : pc.counted = 0) : Effect n m pc (callStep m pc choice) := by
  have hstay : Effect n m pc (m, pc) := .still quiet hc hc (fun _ => rfl) fun _ => .refl _
  cases choice with
  | release i =>
    rw [callStep]
    split
    · exact .still quiet hc rfl (fun _ => rfl) fun _ => .refl _
    · exact hstay
  | go => exact hstay
  | spurious => exact hstay
  | _ => exact .still quiet hc rfl (fun _ => rfl) fun _ => .refl _

theorem lookup_effect {k : UniqueId64x2} {current : UInt64} {slot : SlotPc}
    (h : Protected carry n m ((Pc.lookup k current slot).tokens + o)) (hi : current.toNat < n)
    (hroom : slot = .ref → Room carry m (0 + o) current.toNat)
    (hpos : ∀ overflow, slot = .hitSub overflow → 0 < overflow)
    (hfit : HitsFit carry m (.lookup k current slot)) :
    Effect n m (.lookup k current slot) (step choice m (.lookup k current slot)) := by
  have hsize : current.toNat < m.cache.array.length := by
    rw [h.size]
    exact hi
  have hok := h.slots _ hi
  cases slot with
  | ref =>
    obtain ⟨hfew, hbare⟩ := hroom rfl
    have htame : Tame 0 (m.metaWord current.toNat) (m.metaWord current.toNat + kRefIncrement) :=
      SlotOk.tame_add_ref hok hfew hbare
    simp only [step_lookupRef]
    split
    · exact .word ⟨rfl, rfl⟩ rfl rfl hsize rfl htame
    · split
      · exact .word ⟨rfl, rfl⟩ rfl rfl hsize rfl htame
      · exact .word ⟨rfl, rfl⟩ rfl rfl hsize rfl htame
  | key =>
    have hsame : m.setSlot current.toNat (m.cache.slot current.toNat) = m := by
      rw [Memory.setSlot, setSlot_slot m.cache hsize]
    simp only [step, lookupAccess, hsame]
    split <;> exact .still ⟨rfl, rfl⟩ rfl rfl (fun _ => rfl) fun _ => .refl _
  | hit =>
    have htame : Tame (if (Pc.lookup k current .hit).hitting = some current.toNat then 1 else 0)
        (m.metaWord current.toNat) (m.metaWord current.toNat + kHitIncrement * UInt64.ofInt 1) := by
      rw [Pc.hitting, if_pos rfl]
      exact SlotOk.tame_hit hok held_refs_pos hfit
    simp only [step_lookupHit]
    split
    · exact .word ⟨rfl, rfl⟩ rfl rfl hsize rfl htame
    · exact .word ⟨rfl, rfl⟩ rfl rfl hsize rfl htame
  | hitSub overflow =>
    obtain ⟨d, hd⟩ : ∃ d : Nat, overflow = d := ⟨overflow.toNat, by have := hpos overflow rfl; omega⟩
    have htame : Tame 0 (m.metaWord current.toNat)
        (m.metaWord current.toNat - kHitIncrement * UInt64.ofInt overflow) := by
      rw [HitsFit] at hfit
      rw [hd] at hfit ⊢
      exact SlotOk.tame_hitSub hok held_refs_pos hfit
    exact .word ⟨rfl, rfl⟩ rfl rfl hsize rfl htame
  | undo => exact .word ⟨rfl, rfl⟩ rfl rfl hsize rfl (SlotOk.tame_sub_ref hok held_refs_pos)

theorem Clear.still {pc pc' : Pc} (hc : Clear n pc') {m' : Memory}
    (quiet : pc.reading = none ∧ pc.writing = none) (before : pc.counted = 0)
    (words : ∀ j, m'.metaWord j = m.metaWord j)
    (data : ∀ j, SameData (m.cache.slot j) (m'.cache.slot j)) : Effect n m pc (m', pc') :=
  .still quiet before (Pc.counted_eq_zero hc.tokens) words data

theorem not_shareable_of_own {i : Nat} (h : Protected carry n m ({.own i} + o)) (hi : i < n) :
    ¬ Shareable (m.metaWord i) :=
  (h.slots i hi).not_shareable (by rw [held_own]; exact Nat.succ_pos _)

theorem evictLower_effect {f : EvictFrame} {w : UInt64} (h : Protected carry n m (0 + o))
    (hk : Knows n (.evictLower f w)) :
    Effect n m (.evictLower f w) (step choice m (.evictLower f w)) := by
  obtain ⟨hf, hv, hzero⟩ := hk
  have hi : (f.slot m.cache).toNat < n := modLength_lt h.length h.pos _
  have hsize : (f.slot m.cache).toNat < m.cache.array.length := by
    rw [h.size]
    exact hi
  simp only [step]
  split
  · next hcas =>
    rw [← hcas] at hv ⊢
    exact .word ⟨rfl, rfl⟩ rfl (Pc.counted_eq_zero (clear_evictSlotDone (n := n) hf).tokens) hsize rfl
      (SlotOk.tame_lower (h.slots _ hi) hv hf)
  · exact (clear_evictSlotDone hf).still ⟨rfl, rfl⟩ rfl (fun _ => rfl) fun _ => .refl _

theorem evictTake_effect {f : EvictFrame} {w : UInt64} (h : Protected carry n m (0 + o))
    (hk : Knows n (.evictTake f w)) :
    Effect n m (.evictTake f w) (step choice m (.evictTake f w)) := by
  obtain ⟨hf, he, hzero⟩ := hk
  have hi : (f.slot m.cache).toNat < n := modLength_lt h.length h.pos _
  have hsize : (f.slot m.cache).toNat < m.cache.array.length := by
    rw [h.size]
    exact hi
  have hafter : Holds carry n o (step choice m (.evictTake f w)) := evictTake_holds h ⟨hf, he, hzero⟩
  simp only [step] at hafter ⊢
  split
  · next hcas =>
    rw [if_pos hcas] at hafter
    refine .take (f.slot m.cache).toNat _ _ ⟨rfl, rfl⟩ rfl rfl hi (by rw [hcas]; exact he)
      (not_shareable_of_own hafter.1 hi) (fun j hj => ?_) fun j => data_setMeta _ j
    rw [metaWord_setMeta m _ hsize, if_neg hj]
  · exact (clear_evictSlotDone hf).still ⟨rfl, rfl⟩ rfl (fun _ => rfl) fun _ => .refl _

theorem insertOr_effect {f : InsertFrame} {current : UInt64} (h : Protected carry n m (0 + o))
    (hi : current.toNat < n) :
    Effect n m (.insertOr f current) (step choice m (.insertOr f current)) := by
  have hsize : current.toNat < m.cache.array.length := by
    rw [h.size]
    exact hi
  have hafter : Holds carry n o (step choice m (.insertOr f current)) := insertOr_holds h hi
  simp only [step] at hafter ⊢
  split
  · next he =>
    rw [if_pos he] at hafter
    have hnow := not_shareable_of_own hafter.1 hi
    rw [metaWord_setMeta m _ hsize, if_pos rfl] at hnow
    refine .word ⟨rfl, rfl⟩ rfl rfl hsize rfl (Tame.of_not ?_ hnow)
    rw [Shareable, he]
    decide
  · next he =>
    have hsame : m.metaWord current.toNat ||| (kStateOccupiedBit <<< kStateShift) =
        m.metaWord current.toNat := (h.slots _ hi).occupied he
    have htame := Tame.refl 0 (m.metaWord current.toNat)
    rw [hsame]
    split
    · exact .word ⟨rfl, rfl⟩ rfl
        (Pc.counted_eq_zero (clear_insertNext h.length h.pos f current false).tokens) hsize rfl htame
    · exact .word ⟨rfl, rfl⟩ rfl rfl hsize rfl htame

theorem insertRef_effect {f : InsertFrame} {current : UInt64} (h : Protected carry n m (0 + o))
    (hi : current.toNat < n) (hroom : Room carry m (0 + o) current.toNat) :
    Effect n m (.insertRef f current) (step choice m (.insertRef f current)) := by
  have hsize : current.toNat < m.cache.array.length := by
    rw [h.size]
    exact hi
  have htame : Tame 0 (m.metaWord current.toNat) (m.metaWord current.toNat + kRefIncrement) :=
    SlotOk.tame_add_ref (h.slots _ hi) hroom.1 hroom.2
  simp only [step]
  split
  · exact .word ⟨rfl, rfl⟩ rfl rfl hsize rfl htame
  · split
    · exact .word ⟨rfl, rfl⟩ rfl rfl hsize rfl htame
    · exact .word ⟨rfl, rfl⟩ rfl
        (Pc.counted_eq_zero (clear_insertNext h.length h.pos f current false).tokens) hsize rfl htame

/-- **What one access does** to the words, for every position outside `Erase`. -/
theorem step_effect {pc : Pc} (h : Protected carry n m (pc.tokens + o)) (hk : Knows n pc)
    (hroom : ∀ i, pc.taking = some i → Room carry m (pc.tokens + o) i) (hfit : HitsFit carry m pc)
    (herase : pc.erasing = false) : Effect n m pc (step choice m pc) := by
  have hlen := h.length
  have hn := h.pos
  cases pc with
  | ready => exact call_effect ⟨rfl, rfl⟩ rfl
  | lookup k current slot =>
    apply lookup_effect h hk.1 ?_ hk.2 hfit
    rintro rfl
    exact hroom _ rfl
  | lookupAbort k current =>
    simp only [step]
    split
    · exact .still ⟨rfl, rfl⟩ rfl rfl (fun _ => rfl) fun _ => .refl _
    · exact (clear_lookupNext hlen hn k current).still ⟨rfl, rfl⟩ rfl (fun _ => rfl) fun _ => .refl _
  | lookupReturn e => exact call_effect ⟨rfl, rfl⟩ rfl
  | release i =>
    exact .word ⟨rfl, rfl⟩ rfl rfl (by rw [h.size]; exact hk) rfl
      (SlotOk.tame_sub_ref (h.slots i hk) held_refs_pos)
  | chargeLoad handle need =>
    exact (clear_chargeTry hlen hn ..).still ⟨rfl, rfl⟩ rfl (fun _ => rfl) fun _ => .refl _
  | chargeCas f =>
    simp only [step]
    split
    · exact (clear_chargeDone hlen hn hk).still ⟨rfl, rfl⟩ rfl (fun _ => rfl) fun _ => .refl _
    · exact (clear_chargeTry hlen hn ..).still ⟨rfl, rfl⟩ rfl (fun _ => rfl) fun _ => .refl _
  | evictLoad f =>
    exact (clear_evictTest hk (h.shareable (modLength_lt hlen hn _))).still ⟨rfl, rfl⟩ rfl
      (fun _ => rfl) fun _ => .refl _
  | evictLower f w => exact evictLower_effect h hk
  | evictTake f w => exact evictTake_effect h hk
  | evictOwn f i =>
    refine .read i.toNat _ rfl rfl rfl ?_ hk.2
    unfold evictRollbackAt
    split <;> rfl
  | evictRollback f i k current =>
    refine .still ⟨rfl, rfl⟩ rfl ?_ (word_displace _) (data_displace _)
    unfold evictRollbackAt
    split <;> rfl
  | evictFree f i => exact .still ⟨rfl, rfl⟩ rfl rfl word_freeData data_freeData
  | evictMark f i =>
    have hsize : i.toNat < m.cache.array.length := by
      rw [h.size]
      exact hk.2
    exact .word ⟨rfl, rfl⟩ rfl (Pc.counted_eq_zero (clear_evictSlotDone (n := n) hk.1).tokens) hsize rfl
      (Tame.of_not (not_shareable_of_own h hk.2) (by decide))
  | settleOccupancy f =>
    exact (clear_settleTest hlen hn f).still ⟨rfl, rfl⟩ rfl (fun _ => rfl) fun _ => .refl _
  | settleUsage f charge room =>
    cases room <;> exact .still ⟨rfl, rfl⟩ rfl rfl (fun _ => rfl) fun _ => .refl _
  | insertOr f current => exact insertOr_effect h hk
  | insertWrite f current =>
    exact .write current.toNat f.handle _ rfl rfl rfl rfl hk (not_shareable_of_own h hk)
  | insertPublish f current =>
    exact .publish current.toNat _ ⟨rfl, rfl⟩ rfl rfl hk (not_shareable_of_own h hk)
  | insertRef f current => exact insertRef_effect h hk (hroom _ rfl)
  | insertUndo f current already =>
    exact .word ⟨rfl, rfl⟩ rfl (Pc.counted_eq_zero (clear_insertNext hlen hn ..).tokens)
      (by rw [h.size]; exact hk) rfl (SlotOk.tame_sub_ref (h.slots _ hk) held_refs_pos)
  | insertDisplace f current =>
    exact .still ⟨rfl, rfl⟩ rfl rfl (word_displace _) (data_displace _)
  | insertRollback f i current already =>
    exact (clear_insertRollbackAt hlen hn ..).still ⟨rfl, rfl⟩ rfl (word_displace _) (data_displace _)
  | insertReturn succ => exact call_effect ⟨rfl, rfl⟩ rfl
  | eraseReturn succ => exact call_effect ⟨rfl, rfl⟩ rfl
  | eraseRef | eraseKey | eraseAnd | eraseCas | eraseOwn | eraseFree | eraseMark | eraseOccupancy
  | eraseUsage | eraseRollback | eraseUndo | eraseUndoNone | eraseAbort => cases herase
  | _ => exact .still ⟨rfl, rfl⟩ rfl rfl (fun _ => rfl) fun _ => .refl _

end Steps

end HyperCache.Clock
