import HyperCache.Clock.Concurrent
import HyperCache.Clock.Table
import Mathlib.Algebra.Order.Group.Multiset
import Mathlib.Data.Multiset.Count

/-! What the threads hold of the slots, and what an access does to it.

Each thread holds tokens: a reference on an entry that it will undo or return, the
ownership of a slot under construction, or, in the last branch of `Erase`, a reference
it took on a slot without an entry and will undo all the same. `SlotOk` ties a slot's
word to the tokens of all threads and the handles outside any call; `Protected` asks
it of every slot, and there is one lemma for each access that trades tokens. -/
namespace HyperCache.Clock
open Interleaving ClockCache

/-- What a thread holds of slot `i`. -/
inductive Token where
  | ref (i : Nat)
  | stray (i : Nat)
  | own (i : Nat)
  deriving DecidableEq

namespace Pc

def tokens : Pc → Multiset Token
  | .lookup _ _ .ref => 0
  | .lookup _ current _ => {.ref current.toNat}
  | .release h => {.ref h}
  | .evictOwn _ h | .evictRollback _ h _ _ | .evictFree _ h | .evictMark _ h => {.own h.toNat}
  | .insertWrite _ current | .insertPublish _ current => {.own current.toNat}
  | .insertKey _ current | .insertUndo _ current _ => {.ref current.toNat}
  | .eraseKey _ current | .eraseAnd _ current | .eraseCas _ current _ | .eraseUndo _ current =>
    {.ref current.toNat}
  | .eraseOwn _ current | .eraseFree _ current _ | .eraseMark _ current _ => {.own current.toNat}
  | .eraseUndoNone _ current => {.stray current.toNat}
  | _ => 0

/-- The increments on slot `i` that the call will undo or return as a handle. -/
def pending (pc : Pc) (i : Nat) : Nat := pc.tokens.count (.ref i) + pc.tokens.count (.stray i)

/-- The slot whose reference counter the next access increments. -/
def taking : Pc → Option Nat
  | .lookup _ current .ref | .insertRef _ current | .eraseRef _ current => some current.toNat
  | _ => none

/-- The slot whose word the next access overwrites, by `FinishSlotInsert` or
`MarkEmpty`. -/
def overwriting : Pc → Option Nat
  | .insertPublish _ current | .eraseMark _ current _ => some current.toNat
  | .evictMark _ h => some h.toNat
  | _ => none

/-- The slot on which the next access runs `FreeData`. -/
def freeing : Pc → Option Nat
  | .evictFree _ h => some h.toNat
  | .eraseFree _ current _ => some current.toNat
  | _ => none

end Pc

/-! ### One slot -/

/-- A slot's word, what is held of the slot, and its history. -/
@[ext] structure Held where
  word : UInt64
  refs : Nat
  strays : Nat
  left : Nat
  owners : Nat
  published : Bool

def held (m : Memory) (M : Multiset Token) (i : Nat) : Held where
  word := m.metaWord i
  refs := m.handles.count i + M.count (.ref i)
  strays := M.count (.stray i)
  left := m.left i
  owners := M.count (.own i)
  published := m.published i

/-- A visible or invisible entry; it was published, and all its references are held.
Where the hit count may carry, it may have run over into the hit bit. -/
structure IsEntry (carry : Bool) (s : Held) (st bit hits : Nat) : Prop where
  shared : st = 6 ∨ st = 7 ∧ s.published = true
  bit_le : bit ≤ carry.toNat
  hits_lt : hits < 2 ^ 30
  word : s.word = pack st bit hits s.refs
  strays : s.strays = 0
  left : s.left = 0
  owners : s.owners = 0

/-- An empty slot, or one under construction by its owner. -/
structure IsBare (carry : Bool) (s : Held) (st bit : Nat) : Prop where
  owned : st = 0 ∧ s.owners = 0 ∨ st = 4 ∧ s.owners = 1
  bit_le : bit ≤ carry.toNat
  word : s.word = pack st bit 0 (s.left + s.strays)
  refs : s.refs = 0

/-- The word of a slot agrees with what is held of it. -/
structure SlotOk (carry : Bool) (s : Held) : Prop where
  agrees : (∃ st bit hits, IsEntry carry s st bit hits) ∨ ∃ st bit, IsBare carry s st bit
  few : s.refs + s.strays < 2 ^ 30
  bare : 2 ^ 60 * carry.toNat + s.left + s.strays < 2 ^ 61

/-- The hit count with the hit bit above it. -/
def carriedHits (metaWord : UInt64) : Nat := metaWord.toNat / 2 ^ 30 % 2 ^ 31

/-- The next hit stays in the hit count, or carries into the hit bit and no further. -/
def HitFits (carry : Bool) (metaWord : UInt64) : Prop :=
  hitCount metaWord + 1 < 2 ^ 30 ∨ carry = true ∧ carriedHits metaWord + 1 < 2 ^ 31

theorem carriedHits_pack {st bit hits r : Nat} (hf : Fits st bit hits r) :
    carriedHits (pack st bit hits r) = bit * 2 ^ 30 + hits := by
  rw [carriedHits, pack_toNat hf]
  obtain ⟨h1, h2, h3, h4⟩ := hf
  omega

theorem state_pack_zero {st bit r : Nat} (hst : st < 2 ^ 3) (hr : 2 ^ 60 * bit + r < 2 ^ 61) :
    state (pack st bit 0 r) = UInt64.ofNat st := by
  apply UInt64.toNat_inj.mp
  rw [state, UInt64.toNat_shiftRight, pack, UInt64.toNat_ofNat', show kStateShift.toNat % 64 = 61 from rfl,
    Nat.shiftRight_eq_div_pow, UInt64.toNat_ofNat']
  omega

theorem pack_or_occupied_zero {st bit r : Nat} (hst : st = 0 ∨ st = 4) (hr : 2 ^ 60 * bit + r < 2 ^ 61) :
    pack st bit 0 r ||| (kStateOccupiedBit <<< kStateShift) = pack 4 bit 0 r := by
  apply UInt64.toNat_inj.mp
  obtain ⟨y, hy, hlt, hp⟩ : ∃ y, (pack 4 bit 0 r).toNat = 2 ^ 63 * 1 + y ∧ y < 2 ^ 63 ∧
      ((pack st bit 0 r).toNat = y ∨ (pack st bit 0 r).toNat = 2 ^ 63 * 1 + y) := by
    refine ⟨2 ^ 60 * bit + r, ?_, by omega, ?_⟩
    · rw [pack, UInt64.toNat_ofNat']
      omega
    · rw [pack, UInt64.toNat_ofNat']
      omega
  rw [UInt64.toNat_or, show (kStateOccupiedBit <<< kStateShift).toNat = 2 ^ 63 * 1 from by decide, hy,
    Nat.two_pow_add_eq_or_of_lt hlt]
  rcases hp with hp | hp
  · rw [hp, Nat.or_comm]
  · rw [hp, Nat.two_pow_add_eq_or_of_lt hlt, Nat.or_comm, ← Nat.or_assoc, Nat.or_self]

variable {carry : Bool} {s : Held}

theorem IsEntry.fits {st bit hits : Nat} (h : IsEntry carry s st bit hits)
    (hfew : s.refs + s.strays < 2 ^ 30) : Fits st bit hits s.refs := by
  have hst := h.shared
  have hbit := h.bit_le
  have hone := carry.toNat_le
  exact ⟨by omega, by omega, h.hits_lt, by omega⟩

theorem IsBare.room {st bit : Nat} (h : IsBare carry s st bit)
    (hbare : 2 ^ 60 * carry.toNat + s.left + s.strays < 2 ^ 61) :
    2 ^ 60 * bit + (s.left + s.strays) < 2 ^ 61 := by
  have hle := Nat.mul_le_mul_left (2 ^ 60) h.bit_le
  omega

namespace SlotOk

theorem state_entry (h : SlotOk carry s) {st bit hits : Nat} (he : IsEntry carry s st bit hits) :
    state s.word = UInt64.ofNat st := by
  rw [he.word, state_pack (he.fits h.few)]

theorem refCount_entry (h : SlotOk carry s) {st bit hits : Nat} (he : IsEntry carry s st bit hits) :
    refCount s.word = s.refs := by
  rw [he.word, refCount_pack (he.fits h.few)]

theorem hitCount_entry (h : SlotOk carry s) {st bit hits : Nat} (he : IsEntry carry s st bit hits) :
    hitCount s.word = hits := by
  rw [he.word, hitCount_pack (he.fits h.few)]

theorem state_bare (h : SlotOk carry s) {st bit : Nat} (hb : IsBare carry s st bit) :
    state s.word = UInt64.ofNat st := by
  have hst := hb.owned
  rw [hb.word, state_pack_zero (by omega) (hb.room h.bare)]

/-- A slot with references or in a shareable state holds an entry. -/
theorem isEntry (h : SlotOk carry s)
    (he : 0 < s.refs ∨ state s.word = kStateVisible ∨ state s.word = kStateInvisible) :
    ∃ st bit hits, IsEntry carry s st bit hits := by
  rcases h.agrees with hentry | ⟨st, bit, hb⟩
  · exact hentry
  · have hstate := h.state_bare hb
    rcases hb.owned with ⟨rfl, -⟩ | ⟨rfl, -⟩
    · rw [hstate, hb.refs] at he
      exact absurd he (by decide)
    · rw [hstate, hb.refs] at he
      exact absurd he (by decide)

/-- A slot in another state is bare. -/
theorem isBare (h : SlotOk carry s) (hv : state s.word ≠ kStateVisible)
    (hi : state s.word ≠ kStateInvisible) : ∃ st bit, IsBare carry s st bit := by
  rcases h.agrees with ⟨st, bit, hits, he⟩ | hb
  · have hstate := h.state_entry he
    rcases he.shared with rfl | ⟨rfl, -⟩
    · exact absurd hstate hi
    · exact absurd hstate hv
  · exact hb

/-! What the accesses do to one slot. -/

theorem take (h : SlotOk carry s) (he : state s.word = kStateVisible ∨ state s.word = kStateInvisible)
    (hfew : s.refs + s.strays + 1 < 2 ^ 30) :
    SlotOk carry {s with word := s.word + kRefIncrement, refs := s.refs + 1} := by
  obtain ⟨st, bit, hits, he⟩ := h.isEntry (.inr he)
  refine ⟨.inl ⟨st, bit, hits, he.shared, he.bit_le, he.hits_lt, ?_, he.strays, he.left, he.owners⟩,
    ?_, h.bare⟩
  · rw [he.word, pack_add_ref]
  · simp only
    omega

theorem drop (h : SlotOk carry s) {r : Nat} (hr : s.refs = r + 1) :
    SlotOk carry {s with word := s.word - kRefIncrement, refs := r} := by
  have hfew := h.few
  obtain ⟨st, bit, hits, he⟩ := h.isEntry (.inl (by omega))
  refine ⟨.inl ⟨st, bit, hits, he.shared, he.bit_le, he.hits_lt, ?_, he.strays, he.left, he.owners⟩,
    ?_, h.bare⟩
  · rw [he.word, hr, pack_sub_ref]
  · simp only
    omega

theorem leave (h : SlotOk carry s) (hv : state s.word ≠ kStateVisible)
    (hi : state s.word ≠ kStateInvisible)
    (hbare : 2 ^ 60 * carry.toNat + s.left + s.strays + 1 < 2 ^ 61) :
    SlotOk carry {s with word := s.word + kRefIncrement, left := s.left + 1} := by
  obtain ⟨st, bit, hb⟩ := h.isBare hv hi
  refine ⟨.inr ⟨st, bit, hb.owned, hb.bit_le, ?_, hb.refs⟩, h.few, ?_⟩
  · rw [hb.word, pack_add_ref, Nat.add_right_comm]
  · simp only
    omega

theorem takeStray (h : SlotOk carry s) (hv : state s.word ≠ kStateVisible)
    (hi : state s.word ≠ kStateInvisible) (hfew : s.refs + s.strays + 1 < 2 ^ 30)
    (hbare : 2 ^ 60 * carry.toNat + s.left + s.strays + 1 < 2 ^ 61) :
    SlotOk carry {s with word := s.word + kRefIncrement, strays := s.strays + 1} := by
  obtain ⟨st, bit, hb⟩ := h.isBare hv hi
  refine ⟨.inr ⟨st, bit, hb.owned, hb.bit_le, ?_, hb.refs⟩, hfew, hbare⟩
  rw [hb.word, pack_add_ref, Nat.add_assoc]

theorem dropStray (h : SlotOk carry s) {r : Nat} (hs : s.strays = r + 1) :
    SlotOk carry {s with word := s.word - kRefIncrement, strays := r} := by
  have hfew := h.few
  have hbare := h.bare
  rcases h.agrees with ⟨st, bit, hits, he⟩ | ⟨st, bit, hb⟩
  · have hzero := he.strays
    omega
  · refine ⟨.inr ⟨st, bit, hb.owned, hb.bit_le, ?_, hb.refs⟩, ?_, ?_⟩
    · rw [hb.word, hs, ← Nat.add_assoc, pack_sub_ref]
    · simp only
      omega
    · simp only
      omega

/-- A hit that fills the count carries into the hit bit. -/
theorem hit (h : SlotOk carry s) (hr : 0 < s.refs) (hfit : HitFits carry s.word) :
    SlotOk carry {s with word := s.word + kHitIncrement * UInt64.ofInt 1} := by
  obtain ⟨st, bit, hits, he⟩ := h.isEntry (.inl hr)
  have hword : s.word + kHitIncrement * UInt64.ofInt 1 = pack st bit (hits + 1) s.refs := by
    rw [he.word]
    exact pack_add_hit st bit hits s.refs 1
  have hlt := he.hits_lt
  by_cases hroom : hits + 1 < 2 ^ 30
  · exact ⟨.inl ⟨st, bit, hits + 1, he.shared, he.bit_le, hroom, hword, he.strays, he.left, he.owners⟩,
      h.few, h.bare⟩
  · rw [HitFits, h.hitCount_entry he, he.word, carriedHits_pack (he.fits h.few)] at hfit
    rcases hfit with hfit | ⟨rfl, hfit⟩
    · omega
    · refine ⟨.inl ⟨st, 1, 0, he.shared, Nat.le_refl 1, by omega, ?_, he.strays, he.left, he.owners⟩,
        h.few, h.bare⟩
      have hcarry : hits + 1 = 2 ^ 30 ∧ bit = 0 := by omega
      rw [hcarry.1, hcarry.2, pack_carry] at hword
      exact hword

theorem hitSub (h : SlotOk carry s) (hr : 0 < s.refs) {n : Nat} (hfit : (n : Int) ≤ hitCount s.word) :
    SlotOk carry {s with word := s.word - kHitIncrement * UInt64.ofInt n} := by
  obtain ⟨st, bit, hits, he⟩ := h.isEntry (.inl hr)
  rw [h.hitCount_entry he] at hfit
  have hlt := he.hits_lt
  obtain ⟨k, rfl⟩ : ∃ k, hits = k + n := ⟨hits - n, by omega⟩
  refine ⟨.inl ⟨st, bit, k, he.shared, he.bit_le, by omega, ?_, he.strays, he.left, he.owners⟩,
    h.few, h.bare⟩
  rw [he.word, ofInt_natCast, pack_sub_hit]

theorem occupy (h : SlotOk carry s) (he : state s.word = kStateEmpty) : s.owners = 0 ∧
    SlotOk carry {s with word := s.word ||| (kStateOccupiedBit <<< kStateShift), owners := 1} := by
  obtain ⟨st, bit, hb⟩ := h.isBare (by rw [he]; decide) (by rw [he]; decide)
  have hstate := h.state_bare hb
  rcases hb.owned with ⟨rfl, ho⟩ | ⟨rfl, -⟩
  · refine ⟨ho, .inr ⟨4, bit, .inr ⟨rfl, rfl⟩, hb.bit_le, ?_, hb.refs⟩, h.few, h.bare⟩
    rw [hb.word, pack_or_occupied_zero (.inl rfl) (hb.room h.bare)]
  · rw [hstate] at he
    exact absurd he (by decide)

/-- Setting the occupied bit of a slot that is not empty changes nothing. -/
theorem occupied (h : SlotOk carry s) (hne : state s.word ≠ kStateEmpty) :
    s.word ||| (kStateOccupiedBit <<< kStateShift) = s.word := by
  rcases h.agrees with ⟨st, bit, hits, he⟩ | ⟨st, bit, hb⟩
  · have hst := he.shared
    rw [he.word, pack_or_occupied (he.fits h.few) (by omega)]
  · have hstate := h.state_bare hb
    rcases hb.owned with ⟨rfl, -⟩ | ⟨rfl, -⟩
    · exact absurd hstate hne
    · rw [hb.word, pack_or_occupied_zero (.inr rfl) (hb.room h.bare)]

/-- The owner of a slot is alone, and nobody else has a reference there. -/
theorem owner (h : SlotOk carry s) (ho : 0 < s.owners) : s.refs = 0 ∧ s.owners = 1 := by
  rcases h.agrees with ⟨st, bit, hits, he⟩ | ⟨st, bit, hb⟩
  · have hzero := he.owners
    omega
  · have howned := hb.owned
    exact ⟨hb.refs, by omega⟩

theorem hide (h : SlotOk carry s) (hr : 0 < s.refs) :
    SlotOk carry {s with word := s.word &&& ~~~(kStateVisibleBit <<< kStateShift)} := by
  obtain ⟨st, bit, hits, he⟩ := h.isEntry (.inl hr)
  have hst := he.shared
  refine ⟨.inl ⟨6, bit, hits, .inl rfl, he.bit_le, he.hits_lt, ?_, he.strays, he.left, he.owners⟩,
    h.few, h.bare⟩
  rw [he.word, pack_and_invisible (he.fits h.few) (by omega)]

/-- The clock hand lowers the hit count of an entry without references. -/
theorem lower (h : SlotOk carry s) (hv : state s.word = kStateVisible) (hzero : refCount s.word = 0)
    {delta : Int} (hdelta : 0 ≤ delta) : SlotOk carry {s with word := lowered s.word delta} := by
  obtain ⟨st, bit, hits, he⟩ := h.isEntry (.inr (.inl hv))
  have hlt := he.hits_lt
  have hrefs : s.refs = 0 := by
    rw [h.refCount_entry he] at hzero
    exact_mod_cast hzero
  have hpublished : s.published = true := by
    have hstate := h.state_entry he
    rcases he.shared with rfl | ⟨-, hp⟩
    · rw [hv] at hstate
      exact absurd hstate (by decide)
    · exact hp
  obtain ⟨n, hn, hlt⟩ : ∃ n : Nat, max (hitCount s.word - delta) 0 = n ∧ n < 2 ^ 30 := by
    rw [h.hitCount_entry he]
    exact ⟨(max ((hits : Int) - delta) 0).toNat, by omega, by omega⟩
  refine ⟨.inl ⟨7, bit, n, .inr ⟨rfl, hpublished⟩, he.bit_le, hlt, ?_, he.strays, he.left, he.owners⟩,
    h.few, h.bare⟩
  have hfits := he.fits h.few
  show lowered s.word delta = pack 7 bit n s.refs
  rw [lowered, hn, ofInt_natCast, he.word, pack_and_hitBit hfits, pack_or_hits hfits.2.1 hlt, hrefs]

/-- An entry becomes a slot under construction by the erase that holds the last
reference. -/
theorem own (h : SlotOk carry s) (he : state s.word = kStateVisible ∨ state s.word = kStateInvisible) :
    s.owners = 0 ∧ s.strays = 0 ∧
      SlotOk carry {s with word := kStateConstruction <<< kStateShift, refs := 0, owners := 1} := by
  obtain ⟨st, bit, hits, he⟩ := h.isEntry (.inr he)
  refine ⟨he.owners, he.strays, .inr ⟨4, 0, .inr ⟨rfl, rfl⟩, Nat.zero_le _, ?_, rfl⟩, ?_, h.bare⟩
  · simp only [he.strays, he.left]
    decide
  · simp only [he.strays]
    omega

/-- The clock hand keeps the hit bit of the entry it takes. -/
theorem handOwn (h : SlotOk carry s)
    (he : state s.word = kStateVisible ∨ state s.word = kStateInvisible) :
    s.owners = 0 ∧ SlotOk carry {s with
      word := (kStateConstruction <<< kStateShift) ||| (s.word &&& kHitBitMask), refs := 0, owners := 1} := by
  obtain ⟨st, bit, hits, he⟩ := h.isEntry (.inr he)
  refine ⟨he.owners, .inr ⟨4, bit, .inr ⟨rfl, rfl⟩, he.bit_le, ?_, rfl⟩, ?_, h.bare⟩
  · have hfits := he.fits h.few
    simp only [he.strays, he.left]
    rw [he.word, pack_and_hitBit hfits, pack_or_hitBit hfits.2.1]
  · simp only [he.strays]
    omega

theorem visible : SlotOk carry ⟨(kStateVisible <<< kStateShift) ||| (kInitHitCount <<< kHitCounterShift),
    0, 0, 0, 0, true⟩ := by
  refine ⟨.inl ⟨7, 0, 3, .inr ⟨rfl, rfl⟩, Nat.zero_le _, by omega, finish_word, rfl, rfl, rfl⟩,
    by decide, ?_⟩
  cases carry <;> decide

theorem empty : SlotOk carry ⟨0, 0, 0, 0, 0, false⟩ := by
  refine ⟨.inr ⟨0, 0, .inl ⟨rfl, rfl⟩, Nat.zero_le _, by decide, rfl⟩, by decide, ?_⟩
  cases carry <;> decide

end SlotOk

/-! ### The memory -/

/-- The memory against the tokens of all threads, for a table of `n` slots. -/
structure Protected (carry : Bool) (n : Nat) (m : Memory) (M : Multiset Token) : Prop where
  length : m.cache.length.toNat = n
  size : m.cache.array.length = n
  pos : 0 < n
  delta : 0 ≤ m.cache.hitDecrDelta
  handles : ∀ h ∈ m.handles, h < n
  slots : ∀ i, i < n → SlotOk carry (held m M i)

/-- What is the same in two memories but for slot `i`. -/
structure SameBut (i : Nat) (m m' : Memory) : Prop where
  length : m'.cache.length = m.cache.length
  size : m'.cache.array.length = m.cache.array.length
  delta : m'.cache.hitDecrDelta = m.cache.hitDecrDelta
  handles : ∀ h ∈ m'.handles, h ∈ m.handles ∨ h = i
  count : ∀ j, j ≠ i → m'.handles.count j = m.handles.count j
  slots : ∀ j, j ≠ i →
    m'.metaWord j = m.metaWord j ∧ m'.left j = m.left j ∧ m'.published j = m.published j

/-- Tokens of slot `i` only. -/
def Only (i : Nat) (T : Multiset Token) : Prop := ∀ x ∈ T, x = .ref i ∨ x = .stray i ∨ x = .own i

theorem Only.count {i j : Nat} {T : Multiset Token} (h : Only i T) (hj : j ≠ i) :
    T.count (.ref j) = 0 ∧ T.count (.stray j) = 0 ∧ T.count (.own j) = 0 := by
  refine ⟨?_, ?_, ?_⟩ <;>
  · rw [Multiset.count_eq_zero]
    intro hm
    have := h _ hm
    simp [hj] at this

theorem Protected.move {n i : Nat} {m m' : Memory} {T T' o : Multiset Token}
    (h : Protected carry n m (T + o)) (hi : i < n) (hs : SameBut i m m') (hT : Only i T) (hT' : Only i T')
    (hat : SlotOk carry (held m' (T' + o) i)) : Protected carry n m' (T' + o) where
  length := by rw [hs.length, h.length]
  size := by rw [hs.size, h.size]
  pos := h.pos
  delta := by rw [hs.delta]; exact h.delta
  handles := by
    intro j hj
    rcases hs.handles j hj with hm | rfl
    · exact h.handles j hm
    · exact hi
  slots := by
    intro j hj
    by_cases hji : j = i
    · rw [hji]
      exact hat
    · have hsame : held m' (T' + o) j = held m (T + o) j := by
        obtain ⟨hw, hl, hp⟩ := hs.slots j hji
        obtain ⟨hr, hst, ho⟩ := hT.count hji
        obtain ⟨hr', hst', ho'⟩ := hT'.count hji
        simp only [held, Multiset.count_add, hs.count j hji, hw, hl, hp, hr, hst, ho, hr', hst', ho']
      rw [hsame]
      exact h.slots j hj

/-- An access that changes nothing the protocol speaks of. -/
theorem Protected.same {n : Nat} {m m' : Memory} {M : Multiset Token} (h : Protected carry n m M)
    (hlength : m'.cache.length = m.cache.length) (hsize : m'.cache.array.length = m.cache.array.length)
    (hdelta : 0 ≤ m'.cache.hitDecrDelta) (hhandles : m'.handles = m.handles)
    (hslots : ∀ j, m'.metaWord j = m.metaWord j) (hleft : m'.left = m.left)
    (hpublished : m'.published = m.published) : Protected carry n m' M where
  length := by rw [hlength, h.length]
  size := by rw [hsize, h.size]
  pos := h.pos
  delta := hdelta
  handles := by rw [hhandles]; exact h.handles
  slots := by
    intro j hj
    have hsame : held m' M j = held m M j := by
      simp only [held, hhandles, hslots, hleft, hpublished]
    rw [hsame]
    exact h.slots j hj

/-! ### Accesses -/

section Access
variable {n i : Nat} {m : Memory} {o : Multiset Token}

theorem metaWord_setMeta (m : Memory) (w : UInt64) (hi : i < m.cache.array.length) (j : Nat) :
    (m.setMeta i w).metaWord j = if j = i then w else m.metaWord j := by
  show ((m.cache.setSlot i _).slot j).metaWord = _
  rw [slot_setSlot m.cache j _ hi]
  by_cases hj : j = i
  · rw [if_pos hj, if_pos hj]
  · rw [if_neg hj, if_neg hj]
    rfl

theorem sameBut_overwrite (m : Memory) (w : UInt64) (hi : i < m.cache.array.length) (l : Nat)
    (p : Bool) : SameBut i m {m.setMeta i w with
      left := Function.update m.left i l, published := Function.update m.published i p} where
  length := rfl
  size := setMeta_size m.cache i w
  delta := rfl
  handles := fun _ h => .inl h
  count := fun _ _ => rfl
  slots := by
    intro j hj
    refine ⟨?_, Function.update_of_ne hj .., Function.update_of_ne hj ..⟩
    show (m.setMeta i w).metaWord j = _
    rw [metaWord_setMeta m w hi, if_neg hj]

theorem sameBut_setMeta (m : Memory) (w : UInt64) (hi : i < m.cache.array.length) :
    SameBut i m (m.setMeta i w) := by
  have h := sameBut_overwrite m w hi (m.left i) (m.published i)
  rwa [Function.update_eq_self, Function.update_eq_self] at h

theorem sameBut_handles (m : Memory) {hs : List Nat} (hmem : ∀ h ∈ hs, h ∈ m.handles ∨ h = i)
    (hcount : ∀ j, j ≠ i → hs.count j = m.handles.count j) : SameBut i m {m with handles := hs} where
  length := rfl
  size := rfl
  delta := rfl
  handles := hmem
  count := hcount
  slots := fun _ _ => ⟨rfl, rfl, rfl⟩

theorem only_zero : Only i 0 := fun _ h => absurd h (Multiset.notMem_zero _)

theorem only_ref : Only i {.ref i} := fun _ h => .inl (Multiset.mem_singleton.mp h)

theorem only_stray : Only i {.stray i} := fun _ h => .inr (.inl (Multiset.mem_singleton.mp h))

theorem only_own : Only i {.own i} := fun _ h => .inr (.inr (Multiset.mem_singleton.mp h))

/-- The word of slot `i` is exchanged. -/
theorem Protected.setMeta {T T' : Multiset Token} (h : Protected carry n m (T + o)) (hi : i < n)
    (hT : Only i T) (hT' : Only i T') {w : UInt64}
    (hat : SlotOk carry {held m (T' + o) i with word := w}) : Protected carry n (m.setMeta i w) (T' + o) := by
  have hsize : i < m.cache.array.length := by rw [h.size]; exact hi
  refine h.move hi (sameBut_setMeta m w hsize) hT hT' ?_
  have hheld : held (m.setMeta i w) (T' + o) i = {held m (T' + o) i with word := w} := by
    apply Held.ext <;> try rfl
    exact (metaWord_setMeta m w hsize i).trans (if_pos rfl)
  rw [hheld]
  exact hat

theorem Protected.overwrite {T T' : Multiset Token} (h : Protected carry n m (T + o)) (hi : i < n)
    (hT : Only i T) (hT' : Only i T') {w : UInt64} {l : Nat} {p : Bool}
    (hat : SlotOk carry {held m (T' + o) i with word := w, left := l, published := p}) :
    Protected carry n {m.setMeta i w with
      left := Function.update m.left i l, published := Function.update m.published i p}
      (T' + o) := by
  have hsize : i < m.cache.array.length := by rw [h.size]; exact hi
  refine h.move hi (sameBut_overwrite m w hsize l p) hT hT' ?_
  have hheld : held {m.setMeta i w with
      left := Function.update m.left i l, published := Function.update m.published i p}
      (T' + o) i = {held m (T' + o) i with word := w, left := l, published := p} := by
    apply Held.ext <;> try rfl
    · exact (metaWord_setMeta m w hsize i).trans (if_pos rfl)
    · exact Function.update_self ..
    · exact Function.update_self ..
  rw [hheld]
  exact hat

theorem held_ref : held m ({.ref i} + o) i = {held m (0 + o) i with refs := (held m (0 + o) i).refs + 1} := by
  apply Held.ext <;> simp [held]
  omega

theorem held_stray :
    held m ({.stray i} + o) i = {held m (0 + o) i with strays := (held m (0 + o) i).strays + 1} := by
  apply Held.ext <;> simp [held, Nat.add_comm]

theorem held_own :
    held m ({.own i} + o) i = {held m (0 + o) i with owners := (held m (0 + o) i).owners + 1} := by
  apply Held.ext <;> simp [held, Nat.add_comm]

theorem Protected.take (h : Protected carry n m (0 + o)) (hi : i < n)
    (he : state (m.metaWord i) = kStateVisible ∨ state (m.metaWord i) = kStateInvisible)
    (hfew : (held m (0 + o) i).refs + (held m (0 + o) i).strays + 1 < 2 ^ 30) :
    Protected carry n (m.setMeta i (m.metaWord i + kRefIncrement)) ({.ref i} + o) := by
  apply h.setMeta hi only_zero only_ref
  rw [held_ref]
  exact (h.slots i hi).take he hfew

theorem Protected.takeStray (h : Protected carry n m (0 + o)) (hi : i < n)
    (hv : state (m.metaWord i) ≠ kStateVisible) (hinv : state (m.metaWord i) ≠ kStateInvisible)
    (hfew : (held m (0 + o) i).refs + (held m (0 + o) i).strays + 1 < 2 ^ 30)
    (hbare : 2 ^ 60 * carry.toNat + (held m (0 + o) i).left + (held m (0 + o) i).strays + 1 < 2 ^ 61) :
    Protected carry n (m.setMeta i (m.metaWord i + kRefIncrement)) ({.stray i} + o) := by
  apply h.setMeta hi only_zero only_stray
  rw [held_stray]
  exact (h.slots i hi).takeStray hv hinv hfew hbare

theorem Protected.leave (h : Protected carry n m (0 + o)) (hi : i < n)
    (hv : state (m.metaWord i) ≠ kStateVisible) (hinv : state (m.metaWord i) ≠ kStateInvisible)
    (hbare : 2 ^ 60 * carry.toNat + (held m (0 + o) i).left + (held m (0 + o) i).strays + 1 < 2 ^ 61) :
    Protected carry n ((m.setMeta i (m.metaWord i + kRefIncrement)).leave i) (0 + o) := by
  have hat := (h.slots i hi).leave hv hinv hbare
  have hkept := h.overwrite hi only_zero only_zero (l := m.left i + 1) (p := m.published i)
    (w := m.metaWord i + kRefIncrement) hat
  rwa [Function.update_eq_self] at hkept

theorem Protected.drop (h : Protected carry n m ({.ref i} + o)) (hi : i < n) :
    Protected carry n (m.setMeta i (m.metaWord i - kRefIncrement)) (0 + o) := by
  apply h.setMeta hi only_ref only_zero
  have hat := h.slots i hi
  rw [held_ref] at hat
  exact hat.drop rfl

theorem Protected.dropStray (h : Protected carry n m ({.stray i} + o)) (hi : i < n) :
    Protected carry n (m.setMeta i (m.metaWord i - kRefIncrement)) (0 + o) := by
  apply h.setMeta hi only_stray only_zero
  have hat := h.slots i hi
  rw [held_stray] at hat
  exact hat.dropStray rfl

theorem held_refs_pos : 0 < (held m ({.ref i} + o) i).refs := by
  rw [held_ref]
  exact Nat.succ_pos _

/-- A reference becomes a handle of the caller, and back. -/
theorem Protected.giveHandle (h : Protected carry n m ({.ref i} + o)) (hi : i < n) :
    Protected carry n {m with handles := i :: m.handles} (0 + o) := by
  refine h.move hi (sameBut_handles m ?_ ?_) only_ref only_zero ?_
  · intro j hj
    exact (List.mem_cons.mp hj).symm
  · intro j hj
    exact List.count_cons_of_ne (Ne.symm hj)
  · have hheld : held {m with handles := i :: m.handles} (0 + o) i = held m ({.ref i} + o) i := by
      rw [held_ref]
      apply Held.ext <;> try rfl
      show (i :: m.handles).count i + _ = m.handles.count i + _ + 1
      rw [List.count_cons_self]
      omega
    rw [hheld]
    exact h.slots i hi

theorem Protected.takeHandle (h : Protected carry n m (0 + o)) (hm : i ∈ m.handles) :
    Protected carry n {m with handles := m.handles.erase i} ({.ref i} + o) := by
  have hi : i < n := h.handles i hm
  refine h.move hi (sameBut_handles m ?_ ?_) only_zero only_ref ?_
  · intro j hj
    exact .inl (List.mem_of_mem_erase hj)
  · intro j hj
    exact List.count_erase_of_ne hj
  · have hpos : 0 < m.handles.count i := List.count_pos_iff.mpr hm
    have hheld : held {m with handles := m.handles.erase i} ({.ref i} + o) i = held m (0 + o) i := by
      rw [held_ref]
      apply Held.ext <;> try rfl
      show (m.handles.erase i).count i + _ + 1 = m.handles.count i + _
      rw [List.count_erase_self]
      omega
    rw [hheld]
    exact h.slots i hi

theorem Protected.hit (h : Protected carry n m ({.ref i} + o)) (hi : i < n)
    (hfit : HitFits carry (m.metaWord i)) :
    Protected carry n (m.setMeta i (m.metaWord i + kHitIncrement * UInt64.ofInt 1)) ({.ref i} + o) :=
  h.setMeta hi only_ref only_ref ((h.slots i hi).hit held_refs_pos hfit)

theorem Protected.hitSub (h : Protected carry n m ({.ref i} + o)) (hi : i < n) {overflow : Int}
    (hpos : 0 < overflow) (hfit : overflow ≤ hitCount (m.metaWord i)) :
    Protected carry n (m.setMeta i (m.metaWord i - kHitIncrement * UInt64.ofInt overflow))
      ({.ref i} + o) := by
  obtain ⟨k, rfl⟩ : ∃ k : Nat, overflow = k := ⟨overflow.toNat, by omega⟩
  exact h.setMeta hi only_ref only_ref ((h.slots i hi).hitSub held_refs_pos hfit)

theorem Protected.hide (h : Protected carry n m ({.ref i} + o)) (hi : i < n) :
    Protected carry n (m.setMeta i (m.metaWord i &&& ~~~(kStateVisibleBit <<< kStateShift)))
      ({.ref i} + o) :=
  h.setMeta hi only_ref only_ref ((h.slots i hi).hide held_refs_pos)

theorem Protected.lower (h : Protected carry n m (0 + o)) (hi : i < n)
    (hv : state (m.metaWord i) = kStateVisible) (hzero : refCount (m.metaWord i) = 0) {delta : Int}
    (hdelta : 0 ≤ delta) : Protected carry n (m.setMeta i (lowered (m.metaWord i) delta)) (0 + o) :=
  h.setMeta hi only_zero only_zero ((h.slots i hi).lower hv hzero hdelta)

theorem Protected.occupy (h : Protected carry n m (0 + o)) (hi : i < n)
    (he : state (m.metaWord i) = kStateEmpty) :
    Protected carry n (m.setMeta i (m.metaWord i ||| (kStateOccupiedBit <<< kStateShift)))
      ({.own i} + o) := by
  apply h.setMeta hi only_zero only_own
  obtain ⟨ho, hat⟩ := (h.slots i hi).occupy he
  rw [held_own, ho]
  exact hat

theorem Protected.occupied (h : Protected carry n m (0 + o)) (hi : i < n)
    (he : state (m.metaWord i) ≠ kStateEmpty) :
    Protected carry n (m.setMeta i (m.metaWord i ||| (kStateOccupiedBit <<< kStateShift))) (0 + o) := by
  have hsame : m.metaWord i ||| (kStateOccupiedBit <<< kStateShift) = m.metaWord i :=
    (h.slots i hi).occupied he
  rw [hsame]
  exact h.setMeta hi only_zero only_zero (h.slots i hi)

/-- The clock hand takes an entry that has no reference. -/
theorem Protected.handOwn (h : Protected carry n m (0 + o)) (hi : i < n)
    (he : state (m.metaWord i) = kStateVisible ∨ state (m.metaWord i) = kStateInvisible)
    (hzero : refCount (m.metaWord i) = 0) :
    Protected carry n (m.setMeta i
      ((kStateConstruction <<< kStateShift) ||| (m.metaWord i &&& kHitBitMask))) ({.own i} + o) := by
  obtain ⟨ho, hat⟩ := (h.slots i hi).handOwn he
  obtain ⟨st, bit, hits, hentry⟩ := (h.slots i hi).isEntry (.inr he)
  have hrefs : (held m (0 + o) i).refs = 0 := by
    have hcount := (h.slots i hi).refCount_entry hentry
    have hword : (held m (0 + o) i).word = m.metaWord i := rfl
    rw [hword, hzero] at hcount
    exact_mod_cast hcount.symm
  apply h.setMeta hi only_zero only_own
  rw [held_own, ho]
  rw [← hrefs] at hat
  exact hat

/-- An erase takes the entry whose last reference it holds. -/
theorem Protected.eraseOwn (h : Protected carry n m ({.ref i} + o)) (hi : i < n)
    (hone : refCount (m.metaWord i) ≤ 1) :
    Protected carry n (m.setMeta i (kStateConstruction <<< kStateShift)) ({.own i} + o) := by
  have hslot := h.slots i hi
  obtain ⟨st, bit, hits, hentry⟩ := hslot.isEntry (.inl held_refs_pos)
  have hstate := hslot.state_entry hentry
  have hcount := hslot.refCount_entry hentry
  have he : state (held m ({.ref i} + o) i).word = kStateVisible ∨
      state (held m ({.ref i} + o) i).word = kStateInvisible := by
    rcases hentry.shared with rfl | ⟨rfl, -⟩
    · exact .inr hstate
    · exact .inl hstate
  obtain ⟨ho, -, hat⟩ := hslot.own he
  have hword : (held m ({.ref i} + o) i).word = m.metaWord i := rfl
  rw [hword, held_ref] at hcount
  have hrefs : (held m (0 + o) i).refs = 0 := by
    simp only at hcount
    omega
  rw [held_ref] at ho hat
  apply h.setMeta hi only_ref only_own
  rw [held_own]
  simp only [hrefs] at ho hat ⊢
  rw [ho]
  exact hat

/-- The owner of a slot overwrites its word. -/
theorem Protected.release {w : UInt64} {p : Bool} (h : Protected carry n m ({.own i} + o)) (hi : i < n)
    (hstrays : (.stray i : Token) ∉ o) (hat : SlotOk carry ⟨w, 0, 0, 0, 0, p⟩) :
    Protected carry n {m.setMeta i w with
      left := Function.update m.left i 0, published := Function.update m.published i p} (0 + o) := by
  have hslot := h.slots i hi
  obtain ⟨hr, ho⟩ := hslot.owner (by rw [held_own]; exact Nat.succ_pos _)
  apply h.overwrite hi only_own only_zero
  have hzero : (held m (0 + o) i).strays = 0 := by
    show (0 + o).count _ = 0
    rw [zero_add]
    exact Multiset.count_eq_zero_of_notMem hstrays
  rw [held_own] at hr ho
  simp only at hr ho
  have hnone : (held m (0 + o) i).owners = 0 := by omega
  simp only [hr, hzero, hnone]
  exact hat

end Access

end HyperCache.Clock
