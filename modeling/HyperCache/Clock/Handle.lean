import Mathlib.Data.Nat.Bitwise

/-! Slots of the clock table and their packed word (`clock/handle.h`).

The word `meta` of a slot holds, from the low bits up, a reference counter and a
hit counter of 30 bits each, a hit bit and a 3-bit state. `pack` writes the
four fields; adding and subtracting one field's increment on a packed word is
that field plus or minus one with no condition (`pack_add_ref` and the others),
and only reading a field back needs the fields to be in range. -/
namespace HyperCache.Clock

/-- `void*`; zero is the null pointer. -/
abbrev ObjectPtr := UInt64

/-- A function pointer; zero is the null pointer. -/
abbrev DeleterFn := UInt64

/-- `std::array<uint64_t, 2>`. -/
abbrev UniqueId64x2 := UInt64 × UInt64

structure Handle where
  value : ObjectPtr := 0
  delCb : DeleterFn := 0
  hashedKey : UniqueId64x2 := (0, 0)
  totalCharge : UInt64 := 0
  deriving DecidableEq, Inhabited

def kCounterNumBits : UInt64 := 30
def kCounterMask : UInt64 := (1 <<< kCounterNumBits) - 1

def kRefCounterShift : UInt64 := 0
def kRefIncrement : UInt64 := 1 <<< kRefCounterShift
def kHitCounterShift : UInt64 := kCounterNumBits
def kHitIncrement : UInt64 := 1 <<< kHitCounterShift

def kHitBitShift : UInt64 := 2 * kCounterNumBits
def kHitBitMask : UInt64 := 1 <<< kHitBitShift

def kStateShift : UInt64 := kHitBitShift + 1

def kStateOccupiedBit : UInt64 := 0b100
def kStateShareableBit : UInt64 := 0b010
def kStateVisibleBit : UInt64 := 0b001

def kStateEmpty : UInt64 := 0b000
def kStateConstruction : UInt64 := kStateOccupiedBit
def kStateInvisible : UInt64 := kStateOccupiedBit ||| kStateShareableBit
def kStateVisible : UInt64 := kStateOccupiedBit ||| kStateShareableBit ||| kStateVisibleBit

def kMaxCountdown : UInt64 := 3

/-- A slot: the entry, its packed word `meta` and the displacement counter. -/
structure HandleImpl extends Handle where
  metaWord : UInt64 := 0
  displacements : UInt32 := 0
  deriving DecidableEq, Inhabited

/-! ### Reading the word (`clock_cache.cc`) -/

def state (metaWord : UInt64) : UInt64 := metaWord >>> kStateShift

def refCount (metaWord : UInt64) : Int :=
  ((metaWord >>> kRefCounterShift) &&& kCounterMask).toNat

def hitCount (metaWord : UInt64) : Int :=
  ((metaWord >>> kHitCounterShift) &&& kCounterMask).toNat

/-! ### The word by its fields -/

def pack (state hitBit hits refs : Nat) : UInt64 :=
  UInt64.ofNat (state * 2 ^ 61 + hitBit * 2 ^ 60 + hits * 2 ^ 30 + refs)

theorem kRefIncrement_eq : kRefIncrement = UInt64.ofNat 1 := by decide

theorem kHitIncrement_eq : kHitIncrement = UInt64.ofNat (2 ^ 30) := by decide

theorem pack_add_ref (st hb h r : Nat) : pack st hb h r + kRefIncrement = pack st hb h (r + 1) := by
  rw [kRefIncrement_eq, pack, pack, ← UInt64.ofNat_add, Nat.add_assoc]

theorem pack_sub_ref (st hb h r : Nat) : pack st hb h (r + 1) - kRefIncrement = pack st hb h r := by
  rw [← pack_add_ref, UInt64.add_sub_cancel]

theorem pack_add_hit (st hb h r n : Nat) :
    pack st hb h r + kHitIncrement * UInt64.ofNat n = pack st hb (h + n) r := by
  rw [kHitIncrement_eq, pack, pack, ← UInt64.ofNat_mul, ← UInt64.ofNat_add,
    show st * 2 ^ 61 + hb * 2 ^ 60 + h * 2 ^ 30 + r + 2 ^ 30 * n =
      st * 2 ^ 61 + hb * 2 ^ 60 + (h + n) * 2 ^ 30 + r by omega]

theorem pack_sub_hit (st hb h r n : Nat) :
    pack st hb (h + n) r - kHitIncrement * UInt64.ofNat n = pack st hb h r := by
  rw [← pack_add_hit, UInt64.add_sub_cancel]

/-- A hit count that runs over sets the hit bit. -/
theorem pack_carry (st r : Nat) : pack st 0 (2 ^ 30) r = pack st 1 0 r := by
  rw [pack, pack, show st * 2 ^ 61 + 0 * 2 ^ 60 + 2 ^ 30 * 2 ^ 30 + r =
    st * 2 ^ 61 + 1 * 2 ^ 60 + 0 * 2 ^ 30 + r by omega]

/-- Fields a word has room for. -/
def Fits (st hb h r : Nat) : Prop := st < 2 ^ 3 ∧ hb < 2 ∧ h < 2 ^ 30 ∧ r < 2 ^ 30

instance (st hb h r : Nat) : Decidable (Fits st hb h r) := inferInstanceAs (Decidable (_ ∧ _))

theorem pack_toNat {st hb h r : Nat} (hf : Fits st hb h r) :
    (pack st hb h r).toNat = st * 2 ^ 61 + hb * 2 ^ 60 + h * 2 ^ 30 + r := by
  obtain ⟨h1, h2, h3, h4⟩ := hf
  rw [pack, UInt64.toNat_ofNat', Nat.mod_eq_of_lt (by omega)]

theorem state_pack {st hb h r : Nat} (hf : Fits st hb h r) :
    state (pack st hb h r) = UInt64.ofNat st := by
  apply UInt64.toNat_inj.mp
  rw [state, UInt64.toNat_shiftRight, pack_toNat hf, show kStateShift.toNat % 64 = 61 from rfl,
    Nat.shiftRight_eq_div_pow, UInt64.toNat_ofNat']
  obtain ⟨h1, h2, h3, h4⟩ := hf
  omega

theorem refCount_pack {st hb h r : Nat} (hf : Fits st hb h r) : refCount (pack st hb h r) = r := by
  rw [refCount, UInt64.toNat_and, UInt64.toNat_shiftRight, pack_toNat hf,
    show kRefCounterShift.toNat % 64 = 0 from rfl, Nat.shiftRight_zero,
    show kCounterMask.toNat = 2 ^ 30 - 1 from by decide, Nat.and_two_pow_sub_one_eq_mod]
  obtain ⟨h1, h2, h3, h4⟩ := hf
  omega

theorem hitCount_pack {st hb h r : Nat} (hf : Fits st hb h r) : hitCount (pack st hb h r) = h := by
  rw [hitCount, UInt64.toNat_and, UInt64.toNat_shiftRight, pack_toNat hf,
    show kHitCounterShift.toNat % 64 = 30 from rfl, Nat.shiftRight_eq_div_pow,
    show kCounterMask.toNat = 2 ^ 30 - 1 from by decide, Nat.and_two_pow_sub_one_eq_mod]
  obtain ⟨h1, h2, h3, h4⟩ := hf
  omega

/-- The occupied bit of any other slot is set already. -/
theorem pack_or_occupied {st hb h r : Nat} (hf : Fits st hb h r) (hst : 4 ≤ st) :
    pack st hb h r ||| (kStateOccupiedBit <<< kStateShift) = pack st hb h r := by
  apply UInt64.toNat_inj.mp
  obtain ⟨h1, h2, h3, h4⟩ := hf
  rw [UInt64.toNat_or, pack_toNat ⟨h1, h2, h3, h4⟩,
    show (kStateOccupiedBit <<< kStateShift).toNat = 2 ^ 63 * 1 from by decide]
  obtain ⟨y, hy, hlt⟩ : ∃ y, st * 2 ^ 61 + hb * 2 ^ 60 + h * 2 ^ 30 + r = 2 ^ 63 * 1 + y ∧
      y < 2 ^ 63 :=
    ⟨(st - 4) * 2 ^ 61 + hb * 2 ^ 60 + h * 2 ^ 30 + r, by omega, by omega⟩
  rw [hy, Nat.two_pow_add_eq_or_of_lt hlt, Nat.or_comm, ← Nat.or_assoc, Nat.or_self]

/-- Clearing the visible bit: a visible or invisible entry becomes invisible. -/
theorem pack_and_invisible {st hb h r : Nat} (hf : Fits st hb h r) (hst : 6 ≤ st) :
    pack st hb h r &&& ~~~(kStateVisibleBit <<< kStateShift) = pack 6 hb h r := by
  apply UInt64.toNat_inj.mp
  obtain ⟨h1, h2, h3, h4⟩ := hf
  rw [UInt64.toNat_and, pack_toNat ⟨h1, h2, h3, h4⟩, pack_toNat ⟨by omega, h2, h3, h4⟩,
    show (~~~(kStateVisibleBit <<< kStateShift)).toNat = 6 * 2 ^ 61 + (2 ^ 61 - 1) from by decide]
  have hdiv : (st * 2 ^ 61 + hb * 2 ^ 60 + h * 2 ^ 30 + r) / 2 ^ 61 &&&
      (6 * 2 ^ 61 + (2 ^ 61 - 1)) / 2 ^ 61 = 6 := by
    rw [show (st * 2 ^ 61 + hb * 2 ^ 60 + h * 2 ^ 30 + r) / 2 ^ 61 = st by omega,
      show (6 * 2 ^ 61 + (2 ^ 61 - 1)) / 2 ^ 61 = 6 by omega]
    obtain rfl | rfl : st = 6 ∨ st = 7 := by omega
    · decide
    · decide
  have hmod : (st * 2 ^ 61 + hb * 2 ^ 60 + h * 2 ^ 30 + r) % 2 ^ 61 &&&
      (6 * 2 ^ 61 + (2 ^ 61 - 1)) % 2 ^ 61 = hb * 2 ^ 60 + h * 2 ^ 30 + r := by
    rw [show (6 * 2 ^ 61 + (2 ^ 61 - 1)) % 2 ^ 61 = 2 ^ 61 - 1 by omega,
      Nat.and_two_pow_sub_one_eq_mod]
    omega
  rw [← Nat.and_div_two_pow] at hdiv
  rw [← Nat.and_mod_two_pow] at hmod
  omega

theorem pack_and_hitBit {st hb h r : Nat} (hf : Fits st hb h r) :
    pack st hb h r &&& kHitBitMask = UInt64.ofNat (hb * 2 ^ 60) := by
  apply UInt64.toNat_inj.mp
  obtain ⟨h1, h2, h3, h4⟩ := hf
  rw [UInt64.toNat_and, pack_toNat ⟨h1, h2, h3, h4⟩, show kHitBitMask.toNat = 2 ^ 60 from by decide,
    Nat.and_two_pow, UInt64.toNat_ofNat', Nat.mod_eq_of_lt (by omega)]
  have hbit : (st * 2 ^ 61 + hb * 2 ^ 60 + h * 2 ^ 30 + r).testBit 60 = decide (hb = 1) := by
    rw [Nat.testBit_eq_decide_div_mod_eq]
    congr 1
    rw [eq_iff_iff]
    omega
  rw [hbit]
  obtain rfl | rfl : hb = 0 ∨ hb = 1 := by omega
  · rfl
  · rfl

/-- The word of a visible entry put together from its state and hit count. -/
theorem pack_or_hits {hb n : Nat} (hhb : hb < 2) (hn : n < 2 ^ 30) :
    (kStateVisible <<< kStateShift) ||| UInt64.ofNat (hb * 2 ^ 60) |||
      (UInt64.ofNat n <<< kHitCounterShift) = pack 7 hb n 0 := by
  apply UInt64.toNat_inj.mp
  rw [UInt64.toNat_or, UInt64.toNat_or, pack_toNat ⟨by omega, hhb, hn, by omega⟩,
    show (kStateVisible <<< kStateShift).toNat = 2 ^ 61 * 7 from by decide,
    UInt64.toNat_shiftLeft, UInt64.toNat_ofNat', show kHitCounterShift.toNat % 64 = 30 from rfl,
    UInt64.toNat_ofNat', Nat.shiftLeft_eq, Nat.mod_eq_of_lt (by omega), Nat.mod_eq_of_lt (by omega),
    Nat.mod_eq_of_lt (by omega), ← Nat.two_pow_add_eq_or_of_lt (by omega),
    show 2 ^ 61 * 7 + hb * 2 ^ 60 = 2 ^ 60 * (14 + hb) by omega,
    ← Nat.two_pow_add_eq_or_of_lt (by omega)]
  omega

theorem pack_or_hitBit {hb : Nat} (hhb : hb < 2) :
    (kStateConstruction <<< kStateShift) ||| UInt64.ofNat (hb * 2 ^ 60) = pack 4 hb 0 0 := by
  obtain rfl | rfl : hb = 0 ∨ hb = 1 := by omega
  · decide
  · decide

theorem min_toNat (a b : UInt64) : (min a b).toNat = min a.toNat b.toNat := by
  show (if a ≤ b then a else b).toNat = _
  by_cases hle : a ≤ b
  · rw [if_pos hle, Nat.min_eq_left (UInt64.le_iff_toNat_le.mp hle)]
  · rw [if_neg hle, Nat.min_eq_right (Nat.le_of_not_le fun h => hle (UInt64.le_iff_toNat_le.mpr h))]

end HyperCache.Clock
