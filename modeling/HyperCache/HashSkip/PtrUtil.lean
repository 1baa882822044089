import Mathlib.Data.Nat.Bitwise

/-! Pointers with a version and a mark (`hash_skip/ptr_util.h`).

The word `p_` holds the pointer in its low 47 bits, a version in the 14 bits from
bit 48 and the mark in bit 62. `MarkVersionedPtr` is the word by its fields, which the
lists are modelled with; `encode` writes the word, and each function of the header
reads or writes one field of it. -/
namespace HyperCache.HashSkip

def VERSION_MASK : UInt64 := 0x3FFF

/-! ### The word -/

def getRawPtr (p : UInt64) : UInt64 := p &&& 0x00007FFFFFFFFFFF

def isMarked (p : UInt64) : Bool := p &&& ((1 : UInt64) <<< 62) ≠ 0

def mark (p : UInt64) : UInt64 := p ||| ((1 : UInt64) <<< 62)

def unMark (p : UInt64) : UInt64 := p &&& ~~~((1 : UInt64) <<< 62)

def getVersion (p : UInt64) : Nat := ((p >>> 48) &&& VERSION_MASK).toNat

def clearVersion (p : UInt64) : UInt64 := p &&& ~~~((0x3FFF : UInt64) <<< 48)

def setVersion (p : UInt64) (version : Nat) : UInt64 :=
  clearVersion p ||| ((UInt64.ofNat version &&& VERSION_MASK) <<< 48)

def incrVersion (p : UInt64) : UInt64 := setVersion p (getVersion p + 1)

/-- `GetVersion() - 1` is an `int32_t`, of which `SetVersion` takes 14 bits. -/
def decrVersion (p : UInt64) : UInt64 := setVersion p (getVersion p + (2 ^ 14 - 1))

def packPtr (p : UInt64) (version : Nat) (marked : Bool) : UInt64 :=
  setVersion (if marked then mark p else unMark p) version

/-! ### The word by its fields -/

/-- Named, so that a version carries no proof. -/
instance instNeZeroVersions : NeZero (2 ^ 14) := ⟨by decide⟩

/-- `raw` is an address; zero is the null pointer. -/
structure MarkVersionedPtr where
  raw : Nat := 0
  version : Fin (2 ^ 14) := 0
  marked : Bool := false
  deriving DecidableEq, Inhabited

namespace MarkVersionedPtr

def encode (p : MarkVersionedPtr) : UInt64 :=
  UInt64.ofNat ((if p.marked then 2 ^ 62 else 0) + p.version * 2 ^ 48 + p.raw)

variable {p : MarkVersionedPtr} (hp : p.raw < 2 ^ 47)
include hp

theorem encode_toNat :
    p.encode.toNat = (if p.marked then 2 ^ 62 else 0) + p.version * 2 ^ 48 + p.raw := by
  have hv := p.version.isLt
  rw [encode, UInt64.toNat_ofNat', Nat.mod_eq_of_lt]
  split <;> omega

theorem getRawPtr_encode : getRawPtr p.encode = UInt64.ofNat p.raw := by
  apply UInt64.toNat_inj.mp
  rw [getRawPtr, UInt64.toNat_and, encode_toNat hp,
    show (0x00007FFFFFFFFFFF : UInt64).toNat = 2 ^ 47 - 1 from by decide,
    Nat.and_two_pow_sub_one_eq_mod, UInt64.toNat_ofNat']
  split <;> omega

theorem getVersion_encode : getVersion p.encode = p.version := by
  have hv := p.version.isLt
  rw [getVersion, UInt64.toNat_and, UInt64.toNat_shiftRight, encode_toNat hp,
    show (48 : UInt64).toNat % 64 = 48 from rfl, Nat.shiftRight_eq_div_pow,
    show VERSION_MASK.toNat = 2 ^ 14 - 1 from by decide, Nat.and_two_pow_sub_one_eq_mod]
  split <;> omega

theorem isMarked_encode : isMarked p.encode = p.marked := by
  have hv := p.version.isLt
  have hread : ((if p.marked then 2 ^ 62 else 0) + p.version * 2 ^ 48 + p.raw) / 2 ^ 62 % 2 =
      if p.marked then 1 else 0 := by
    split <;> omega
  have hbit : (p.encode &&& ((1 : UInt64) <<< 62)).toNat = if p.marked then 2 ^ 62 else 0 := by
    rw [UInt64.toNat_and, encode_toNat hp, show ((1 : UInt64) <<< 62).toNat = 2 ^ 62 from by decide,
      Nat.and_two_pow, Nat.testBit_eq_decide_div_mod_eq, hread]
    cases p.marked <;> rfl
  have hne : (p.encode &&& ((1 : UInt64) <<< 62) ≠ 0) ↔ p.marked = true := by
    rw [ne_eq, ← UInt64.toNat_inj, hbit]
    cases p.marked <;> decide
  rw [isMarked]
  cases hm : p.marked with
  | false => exact decide_eq_false (fun h => by rw [hne, hm] at h; cases h)
  | true => exact decide_eq_true (hne.mpr hm)

end MarkVersionedPtr

theorem and_eq_self {x c k : Nat} (hx : x < 2 ^ k) (hc : c % 2 ^ k = 2 ^ k - 1) : x &&& c = x := by
  have hdiv : (x &&& c) / 2 ^ k = 0 := by
    rw [Nat.and_div_two_pow, Nat.div_eq_of_lt hx, Nat.zero_and]
  have hmod : (x &&& c) % 2 ^ k = x := by
    rw [Nat.and_mod_two_pow, hc, Nat.mod_eq_of_lt hx, Nat.and_two_pow_sub_one_of_lt_two_pow hx]
  rw [← Nat.div_add_mod (x &&& c) (2 ^ k), hdiv, hmod, Nat.mul_zero, Nat.zero_add]

theorem marked_toNat {raw : Nat} (hraw : raw < 2 ^ 47) (marked : Bool) :
    (if marked then mark (UInt64.ofNat raw) else unMark (UInt64.ofNat raw)).toNat =
      (if marked then 2 ^ 62 else 0) + raw := by
  have hp : (UInt64.ofNat raw).toNat = raw := by
    rw [UInt64.toNat_ofNat', Nat.mod_eq_of_lt (by omega)]
  cases marked with
  | true =>
    show (UInt64.ofNat raw ||| ((1 : UInt64) <<< 62)).toNat = 2 ^ 62 + raw
    rw [UInt64.toNat_or, hp, show ((1 : UInt64) <<< 62).toNat = 2 ^ 62 * 1 from by decide,
      Nat.or_comm, ← Nat.two_pow_add_eq_or_of_lt (by omega), Nat.mul_one]
  | false =>
    show (UInt64.ofNat raw &&& ~~~((1 : UInt64) <<< 62)).toNat = 0 + raw
    rw [UInt64.toNat_and, hp, Nat.zero_add]
    exact and_eq_self hraw (by decide)

theorem clearVersion_toNat {p : UInt64} {raw : Nat} (hraw : raw < 2 ^ 47) {marked : Bool}
    (hp : p.toNat = (if marked then 2 ^ 62 else 0) + raw) : (clearVersion p).toNat = p.toNat := by
  rw [clearVersion, UInt64.toNat_and, hp,
    show (~~~((0x3FFF : UInt64) <<< 48)).toNat = 2 ^ 62 * 3 + (2 ^ 48 - 1) from by decide]
  cases marked with
  | true =>
    show (2 ^ 62 + raw) &&& (2 ^ 62 * 3 + (2 ^ 48 - 1)) = 2 ^ 62 + raw
    have hdiv : ((2 ^ 62 + raw) &&& (2 ^ 62 * 3 + (2 ^ 48 - 1))) / 2 ^ 62 = 1 := by
      rw [Nat.and_div_two_pow, show (2 ^ 62 + raw) / 2 ^ 62 = 1 by omega,
        show (2 ^ 62 * 3 + (2 ^ 48 - 1)) / 2 ^ 62 = 3 by omega]
      rfl
    have hmod : ((2 ^ 62 + raw) &&& (2 ^ 62 * 3 + (2 ^ 48 - 1))) % 2 ^ 62 = raw := by
      rw [Nat.and_mod_two_pow, show (2 ^ 62 + raw) % 2 ^ 62 = raw by omega,
        show (2 ^ 62 * 3 + (2 ^ 48 - 1)) % 2 ^ 62 = 2 ^ 48 - 1 by omega]
      exact Nat.and_two_pow_sub_one_of_lt_two_pow (by omega)
    omega
  | false =>
    show (0 + raw) &&& (2 ^ 62 * 3 + (2 ^ 48 - 1)) = 0 + raw
    rw [Nat.zero_add]
    exact and_eq_self hraw (by omega)

/-- `PackPtr` writes the three fields, the version modulo 2^14. -/
theorem packPtr_eq_encode {raw : Nat} (hraw : raw < 2 ^ 47) (version : Nat) (marked : Bool) :
    packPtr (UInt64.ofNat raw) version marked =
      MarkVersionedPtr.encode ⟨raw, Fin.ofNat (2 ^ 14) version, marked⟩ := by
  have hmarked := marked_toNat hraw marked
  have hclear := clearVersion_toNat hraw hmarked
  rw [hmarked] at hclear
  have hversion : ((UInt64.ofNat version &&& VERSION_MASK) <<< 48).toNat =
      2 ^ 48 * (version % 2 ^ 14) := by
    rw [UInt64.toNat_shiftLeft, UInt64.toNat_and, UInt64.toNat_ofNat',
      show VERSION_MASK.toNat = 2 ^ 14 - 1 from by decide, Nat.and_two_pow_sub_one_eq_mod,
      show (48 : UInt64).toNat % 64 = 48 from rfl, Nat.shiftLeft_eq]
    omega
  apply UInt64.toNat_inj.mp
  rw [packPtr, setVersion, UInt64.toNat_or, hclear, hversion,
    MarkVersionedPtr.encode_toNat (p := ⟨raw, Fin.ofNat (2 ^ 14) version, marked⟩) hraw]
  have hlow : raw ||| 2 ^ 48 * (version % 2 ^ 14) = 2 ^ 48 * (version % 2 ^ 14) + raw := by
    rw [Nat.or_comm, ← Nat.two_pow_add_eq_or_of_lt (by omega)]
  have hv : ((Fin.ofNat (2 ^ 14) version : Fin (2 ^ 14)) : Nat) = version % 2 ^ 14 := rfl
  cases marked with
  | true =>
    show (2 ^ 62 + raw) ||| 2 ^ 48 * (version % 2 ^ 14) = 2 ^ 62 + (version % 2 ^ 14) * 2 ^ 48 + raw
    rw [show 2 ^ 62 + raw = 2 ^ 62 * 1 + raw by omega,
      Nat.two_pow_add_eq_or_of_lt (show raw < 2 ^ 62 by omega), Nat.or_assoc, hlow,
      ← Nat.two_pow_add_eq_or_of_lt (by omega)]
    omega
  | false =>
    show (0 + raw) ||| 2 ^ 48 * (version % 2 ^ 14) = 0 + (version % 2 ^ 14) * 2 ^ 48 + raw
    rw [Nat.zero_add, hlow]
    omega

/-! ### Writing one field -/

namespace MarkVersionedPtr

def mark (p : MarkVersionedPtr) : MarkVersionedPtr := {p with marked := true}

def unMark (p : MarkVersionedPtr) : MarkVersionedPtr := {p with marked := false}

def incrVersion (p : MarkVersionedPtr) : MarkVersionedPtr := {p with version := p.version + 1}

def decrVersion (p : MarkVersionedPtr) : MarkVersionedPtr := {p with version := p.version - 1}

variable {p : MarkVersionedPtr} (hp : p.raw < 2 ^ 47)
include hp

theorem mark_encode : HashSkip.mark p.encode = p.mark.encode := by
  have hv := p.version.isLt
  apply UInt64.toNat_inj.mp
  rw [HashSkip.mark, UInt64.toNat_or, encode_toNat hp, encode_toNat (p := p.mark) hp,
    show ((1 : UInt64) <<< 62).toNat = 2 ^ 62 * 1 from by decide, Nat.or_comm]
  have hlow : 2 ^ 62 * 1 ||| (p.version * 2 ^ 48 + p.raw) = 2 ^ 62 * 1 + (p.version * 2 ^ 48 + p.raw) :=
    (Nat.two_pow_add_eq_or_of_lt (by omega) 1).symm
  cases hm : p.marked with
  | false =>
    simp only [Bool.false_eq_true, if_false, MarkVersionedPtr.mark, if_true, Nat.zero_add]
    omega
  | true =>
    have hself : 2 ^ 62 + p.version * 2 ^ 48 + p.raw = 2 ^ 62 * 1 ||| (p.version * 2 ^ 48 + p.raw) := by
      omega
    simp only [if_true, MarkVersionedPtr.mark]
    rw [hself, ← Nat.or_assoc, Nat.or_self]

omit hp in
/-- The mark is the high digit of the word. -/
theorem exists_bit (p : MarkVersionedPtr) :
    ∃ b, b = (if p.marked then 1 else 0) ∧ (b = 0 ∨ b = 1) ∧
      (if p.marked then 2 ^ 62 else 0) = 2 ^ 62 * b := by
  cases p.marked with
  | false => exact ⟨0, rfl, .inl rfl, rfl⟩
  | true => exact ⟨1, rfl, .inr rfl, rfl⟩

theorem unMark_encode : HashSkip.unMark p.encode = p.unMark.encode := by
  have hv := p.version.isLt
  obtain ⟨b, -, hb, hbit⟩ := exists_bit p
  apply UInt64.toNat_inj.mp
  rw [HashSkip.unMark, UInt64.toNat_and, encode_toNat hp, encode_toNat (p := p.unMark) hp, hbit,
    show (~~~((1 : UInt64) <<< 62)).toNat = 2 ^ 62 * 2 + (2 ^ 62 - 1) from by decide]
  show _ = 0 + p.version * 2 ^ 48 + p.raw
  have hdiv : (2 ^ 62 * b + p.version * 2 ^ 48 + p.raw &&& 2 ^ 62 * 2 + (2 ^ 62 - 1)) / 2 ^ 62 = 0 := by
    rw [Nat.and_div_two_pow, show (2 ^ 62 * b + p.version * 2 ^ 48 + p.raw) / 2 ^ 62 = b by omega,
      show (2 ^ 62 * 2 + (2 ^ 62 - 1)) / 2 ^ 62 = 2 by omega]
    rcases hb with rfl | rfl
    · rfl
    · rfl
  have hmod : (2 ^ 62 * b + p.version * 2 ^ 48 + p.raw &&& 2 ^ 62 * 2 + (2 ^ 62 - 1)) % 2 ^ 62 =
      p.version * 2 ^ 48 + p.raw := by
    rw [Nat.and_mod_two_pow, show (2 ^ 62 * b + p.version * 2 ^ 48 + p.raw) % 2 ^ 62 =
      p.version * 2 ^ 48 + p.raw by omega,
      show (2 ^ 62 * 2 + (2 ^ 62 - 1)) % 2 ^ 62 = 2 ^ 62 - 1 by omega]
    exact Nat.and_two_pow_sub_one_of_lt_two_pow (by omega)
  omega

theorem clearVersion_encode : clearVersion p.encode = encode ⟨p.raw, 0, p.marked⟩ := by
  have hv := p.version.isLt
  obtain ⟨b, -, hb, hbit⟩ := exists_bit p
  apply UInt64.toNat_inj.mp
  rw [clearVersion, UInt64.toNat_and, encode_toNat hp, encode_toNat (p := ⟨p.raw, 0, p.marked⟩) hp,
    hbit, show (~~~((0x3FFF : UInt64) <<< 48)).toNat = 2 ^ 62 * 3 + (2 ^ 48 - 1) from by decide]
  show _ = 2 ^ 62 * b + 0 * 2 ^ 48 + p.raw
  have hdiv : (2 ^ 62 * b + p.version * 2 ^ 48 + p.raw &&& 2 ^ 62 * 3 + (2 ^ 48 - 1)) / 2 ^ 62 = b := by
    rw [Nat.and_div_two_pow, show (2 ^ 62 * b + p.version * 2 ^ 48 + p.raw) / 2 ^ 62 = b by omega,
      show (2 ^ 62 * 3 + (2 ^ 48 - 1)) / 2 ^ 62 = 3 by omega]
    rcases hb with rfl | rfl
    · rfl
    · rfl
  have hmod : (2 ^ 62 * b + p.version * 2 ^ 48 + p.raw &&& 2 ^ 62 * 3 + (2 ^ 48 - 1)) % 2 ^ 62 =
      p.raw := by
    rw [Nat.and_mod_two_pow, show (2 ^ 62 * b + p.version * 2 ^ 48 + p.raw) % 2 ^ 62 =
      p.version * 2 ^ 48 + p.raw by omega,
      show (2 ^ 62 * 3 + (2 ^ 48 - 1)) % 2 ^ 62 = 2 ^ 48 - 1 by omega, Nat.and_two_pow_sub_one_eq_mod]
    omega
  omega

theorem setVersion_encode (version : Nat) :
    setVersion p.encode version = encode ⟨p.raw, Fin.ofNat (2 ^ 14) version, p.marked⟩ := by
  have hversion : ((UInt64.ofNat version &&& VERSION_MASK) <<< 48).toNat =
      2 ^ 48 * (version % 2 ^ 14) := by
    rw [UInt64.toNat_shiftLeft, UInt64.toNat_and, UInt64.toNat_ofNat',
      show VERSION_MASK.toNat = 2 ^ 14 - 1 from by decide, Nat.and_two_pow_sub_one_eq_mod,
      show (48 : UInt64).toNat % 64 = 48 from rfl, Nat.shiftLeft_eq]
    omega
  have hlow : p.raw ||| 2 ^ 48 * (version % 2 ^ 14) = 2 ^ 48 * (version % 2 ^ 14) + p.raw := by
    rw [Nat.or_comm, ← Nat.two_pow_add_eq_or_of_lt (by omega)]
  obtain ⟨b, -, hb, hbit⟩ := exists_bit p
  apply UInt64.toNat_inj.mp
  rw [setVersion, clearVersion_encode hp, UInt64.toNat_or, hversion,
    encode_toNat (p := ⟨p.raw, 0, p.marked⟩) hp,
    encode_toNat (p := ⟨p.raw, Fin.ofNat (2 ^ 14) version, p.marked⟩) hp, hbit]
  show 2 ^ 62 * b + 0 * 2 ^ 48 + p.raw ||| 2 ^ 48 * (version % 2 ^ 14) =
    2 ^ 62 * b + version % 2 ^ 14 * 2 ^ 48 + p.raw
  rw [Nat.zero_mul, Nat.add_zero, Nat.two_pow_add_eq_or_of_lt (show p.raw < 2 ^ 62 by omega),
    Nat.or_assoc, hlow, ← Nat.two_pow_add_eq_or_of_lt (by omega)]
  omega

theorem incrVersion_encode : HashSkip.incrVersion p.encode = p.incrVersion.encode := by
  have hnext : Fin.ofNat (2 ^ 14) (p.version + 1) = p.version + 1 := by
    apply Fin.ext
    rw [Fin.val_add]
    rfl
  rw [HashSkip.incrVersion, getVersion_encode hp, setVersion_encode hp, hnext]
  rfl

theorem decrVersion_encode : HashSkip.decrVersion p.encode = p.decrVersion.encode := by
  have hprev : Fin.ofNat (2 ^ 14) (p.version + (2 ^ 14 - 1)) = p.version - 1 := by
    apply Fin.ext
    rw [Fin.sub_def, Nat.add_comm]
    rfl
  rw [HashSkip.decrVersion, getVersion_encode hp, setVersion_encode hp, hprev]
  rfl

/-- A compare-and-swap compares the fields. -/
theorem encode_inj {q : MarkVersionedPtr} (hq : q.raw < 2 ^ 47) : p.encode = q.encode ↔ p = q := by
  constructor
  · intro h
    have hraw := congrArg getRawPtr h
    have hversion := congrArg getVersion h
    have hmarked := congrArg isMarked h
    rw [getRawPtr_encode hp, getRawPtr_encode hq, ← UInt64.toNat_inj, UInt64.toNat_ofNat',
      UInt64.toNat_ofNat', Nat.mod_eq_of_lt (by omega), Nat.mod_eq_of_lt (by omega)] at hraw
    rw [getVersion_encode hp, getVersion_encode hq] at hversion
    rw [isMarked_encode hp, isMarked_encode hq] at hmarked
    cases p
    cases q
    simp only [MarkVersionedPtr.mk.injEq]
    exact ⟨hraw, Fin.ext hversion, hmarked⟩
  · rintro rfl
    rfl

end MarkVersionedPtr

end HyperCache.HashSkip
