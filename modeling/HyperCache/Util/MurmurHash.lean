import HyperCache.Lib.Mixing
import Mathlib.Data.Nat.Digits.Defs
import Mathlib.Data.List.Basic

/-! `MurmurHash3_x64_128` (`util/murmur128_hash.cc`), which hashes the keys of the clock cache.

The cache knows a key by its 128-bit hash alone. No step of the hash loses anything by
itself, so a change within one block of 16 bytes, or within the tail, always changes the
hash (`murmurHash3_ne`): keys of up to 16 bytes collide with none of their length
(`murmurHash3_injective`). -/
namespace HyperCache.Util

def rotl64 (x r : UInt64) : UInt64 := (x <<< r) ||| (x >>> (64 - r))

def fmix64 (k : UInt64) : UInt64 :=
  let k := k ^^^ (k >>> 33)
  let k := k * 0xff51afd7ed558ccd
  let k := k ^^^ (k >>> 33)
  let k := k * 0xc4ceb9fe1a85ec53
  k ^^^ (k >>> 33)

namespace MurmurHash

def c1 : UInt64 := 0x87c37b91114253d5
def c2 : UInt64 := 0x4cf5ad432745937f

/-- A `uint64_t` in memory, its low byte first. -/
def load (bytes : List UInt8) : UInt64 := UInt64.ofNat (Nat.ofDigits 256 (bytes.map UInt8.toNat))

def mixK1 (k1 : UInt64) : UInt64 := rotl64 (k1 * c1) 31 * c2

def mixK2 (k2 : UInt64) : UInt64 := rotl64 (k2 * c2) 33 * c1

/-- `blocks[2 * i]` and `blocks[2 * i + 1]`. -/
def block (data : List UInt8) (i : Nat) : UInt64 × UInt64 :=
  (load ((data.drop (16 * i)).take 8), load ((data.drop (16 * i + 8)).take 8))

/-- One turn of the loop over the blocks. -/
def round (h k : UInt64 × UInt64) : UInt64 × UInt64 :=
  let h1 := rotl64 (h.1 ^^^ mixK1 k.1) 27 + h.2
  let h1 := h1 * 5 + 0x52dce729
  let h2 := rotl64 (h.2 ^^^ mixK2 k.2) 31 + h1
  let h2 := h2 * 5 + 0x38495ab5
  (h1, h2)

/-- The cases of the tail fall through from the last byte to the first: each is xored into
its place. -/
def tailWord (bytes : List UInt8) : UInt64 :=
  bytes.zipIdx.foldr (fun b k => k ^^^ (b.1.toUInt64 <<< UInt64.ofNat (8 * b.2))) 0

/-- The switch over `len & 15`. -/
def mixTail (h : UInt64 × UInt64) (tail : List UInt8) : UInt64 × UInt64 :=
  let h2 := if 9 ≤ tail.length then h.2 ^^^ mixK2 (tailWord (tail.drop 8)) else h.2
  let h1 := if 1 ≤ tail.length then h.1 ^^^ mixK1 (tailWord (tail.take 8)) else h.1
  (h1, h2)

def finalize (len : UInt64) (h : UInt64 × UInt64) : UInt64 × UInt64 :=
  let h1 := h.1 ^^^ len
  let h2 := h.2 ^^^ len
  let h1 := h1 + h2
  let h2 := h2 + h1
  let h1 := fmix64 h1
  let h2 := fmix64 h2
  let h1 := h1 + h2
  let h2 := h2 + h1
  (h1, h2)

end MurmurHash

open MurmurHash

/-- The hash of a key; `len` is the number of its bytes. -/
def murmurHash3_x64_128 (key : List UInt8) (seed : UInt32) : UInt64 × UInt64 :=
  let nblocks := key.length / 16
  let h := ((List.range nblocks).map (block key)).foldl round (seed.toUInt64, seed.toUInt64)
  finalize (UInt64.ofNat key.length) (mixTail h (key.drop (nblocks * 16)))

namespace MurmurHash

/-! ### The steps -/

theorem xorShift_injective : Function.Injective fun k : UInt64 => k ^^^ (k >>> 33) := by
  intro x y h
  have hbits : x.toBitVec ^^^ (x.toBitVec >>> 33) = y.toBitVec ^^^ (y.toBitVec >>> 33) :=
    congrArg UInt64.toBitVec h
  exact UInt64.toBitVec_inj.mp (Mixing.xorShiftRight_injective (by decide) hbits)

theorem mul_injective {c d : UInt64} (hcd : c * d = 1) : Function.Injective fun k : UInt64 => k * c := by
  intro x y h
  have hbits : x.toBitVec * c.toBitVec = y.toBitVec * c.toBitVec := congrArg UInt64.toBitVec h
  exact UInt64.toBitVec_inj.mp (Mixing.mul_injective (congrArg UInt64.toBitVec hcd) hbits)

/-- A rotation of the source is one. -/
theorem rotl64_injective {r : UInt64} (hr : ∀ x, (rotl64 x r).toBitVec = x.toBitVec.rotateLeft r.toNat) :
    Function.Injective fun x => rotl64 x r := by
  intro x y h
  have hbits := congrArg UInt64.toBitVec h
  simp only [hr] at hbits
  exact UInt64.toBitVec_inj.mp (Mixing.rotateLeft_injective _ hbits)

theorem fmix64_injective : Function.Injective fmix64 :=
  have hfirst := mul_injective (c := 0xff51afd7ed558ccd) (d := 0x4f74430c22a54005) (by decide)
  have hsecond := mul_injective (c := 0xc4ceb9fe1a85ec53) (d := 0x9cb4b2f8129337db) (by decide)
  xorShift_injective.comp (hsecond.comp (xorShift_injective.comp (hfirst.comp xorShift_injective)))

theorem c1_injective : Function.Injective fun k : UInt64 => k * c1 :=
  mul_injective (d := 0xa98409e882ce4d7d) (by decide)

theorem c2_injective : Function.Injective fun k : UInt64 => k * c2 :=
  mul_injective (d := 0xa81e14edd9de2c7f) (by decide)

theorem mixK1_injective : Function.Injective mixK1 :=
  c2_injective.comp ((rotl64_injective (r := 31) fun _ => rfl).comp c1_injective)

theorem mixK2_injective : Function.Injective mixK2 :=
  c1_injective.comp ((rotl64_injective (r := 33) fun _ => rfl).comp c2_injective)

/-- The last line of each half of a round. -/
theorem times_five_injective {n : UInt64} : Function.Injective fun h : UInt64 => h * 5 + n :=
  fun _ _ h => mul_injective (c := 5) (d := 0xcccccccccccccccd) (by decide) ((UInt64.add_left_inj n).mp h)

/-- What goes into a round decides what comes out of it, one half after the other. -/
theorem round_eq_iff {h h' k k' : UInt64 × UInt64} : round h k = round h' k' ↔
    rotl64 (h.1 ^^^ mixK1 k.1) 27 + h.2 = rotl64 (h'.1 ^^^ mixK1 k'.1) 27 + h'.2 ∧
      h.2 ^^^ mixK2 k.2 = h'.2 ^^^ mixK2 k'.2 := by
  constructor
  · intro hround
    obtain ⟨hfirst, hsecond⟩ := Prod.ext_iff.mp hround
    have hsum := times_five_injective hsecond
    have hfirst' : _ = _ := hfirst
    simp only [round] at hfirst'
    rw [hfirst'] at hsum
    refine ⟨times_five_injective hfirst, ?_⟩
    exact rotl64_injective (r := 31) (fun _ => rfl) ((UInt64.add_left_inj _).mp hsum)
  · rintro ⟨hfirst, hsecond⟩
    simp only [round, hfirst, hsecond]

theorem round_state_injective (k : UInt64 × UInt64) : Function.Injective fun h => round h k := by
  intro h h' hround
  obtain ⟨hfirst, hsecond⟩ := round_eq_iff.mp hround
  have h2 : h.2 = h'.2 := (UInt64.xor_left_inj _).mp hsecond
  rw [h2, UInt64.add_left_inj] at hfirst
  have h1 := rotl64_injective (r := 27) (fun _ => rfl) hfirst
  exact Prod.ext ((UInt64.xor_left_inj _).mp h1) h2

theorem round_block_injective (h : UInt64 × UInt64) : Function.Injective (round h) := by
  intro k k' hround
  obtain ⟨hfirst, hsecond⟩ := round_eq_iff.mp hround
  have h1 := rotl64_injective (r := 27) (fun _ => rfl) ((UInt64.add_left_inj _).mp hfirst)
  exact Prod.ext (mixK1_injective ((UInt64.xor_right_inj _).mp h1))
    (mixK2_injective ((UInt64.xor_right_inj _).mp hsecond))

theorem finalize_injective (len : UInt64) : Function.Injective (finalize len) := by
  intro h h' heq
  obtain ⟨hfirst, hsecond⟩ := Prod.ext_iff.mp heq
  simp only [finalize] at hfirst hsecond
  rw [hfirst, UInt64.add_left_inj] at hsecond
  have h2 := fmix64_injective hsecond
  rw [hsecond, UInt64.add_left_inj] at hfirst
  have h1 := fmix64_injective hfirst
  rw [h1, UInt64.add_left_inj] at h2
  have h2' := (UInt64.xor_left_inj _).mp h2
  rw [h2', UInt64.add_left_inj] at h1
  exact Prod.ext ((UInt64.xor_left_inj _).mp h1) h2'

/-! ### The bytes -/

theorem load_toNat {bytes : List UInt8} (hlen : bytes.length ≤ 8) :
    (load bytes).toNat = Nat.ofDigits 256 (bytes.map UInt8.toNat) := by
  have hlt : Nat.ofDigits 256 (bytes.map UInt8.toNat) < 256 ^ bytes.length := by
    have hdigits : ∀ d ∈ bytes.map UInt8.toNat, d < 256 := by
      intro d hd
      obtain ⟨b, -, rfl⟩ := List.mem_map.mp hd
      exact b.toNat_lt
    have hpow := Nat.ofDigits_lt_base_pow_length (by decide) hdigits
    rwa [List.length_map] at hpow
  have hle : 256 ^ bytes.length ≤ 256 ^ 8 := Nat.pow_le_pow_right (by decide) hlen
  rw [load, UInt64.toNat_ofNat']
  exact Nat.mod_eq_of_lt (Nat.lt_of_lt_of_le hlt hle)

theorem load_injective {bytes bytes' : List UInt8} (hlen : bytes.length = bytes'.length)
    (hmax : bytes.length ≤ 8) (h : load bytes = load bytes') : bytes = bytes' := by
  have hdigits : ∀ bs : List UInt8, ∀ d ∈ bs.map UInt8.toNat, d < 256 := by
    intro bs d hd
    obtain ⟨b, -, rfl⟩ := List.mem_map.mp hd
    exact b.toNat_lt
  have hnat := congrArg UInt64.toNat h
  rw [load_toNat hmax, load_toNat (hlen ▸ hmax)] at hnat
  have hmap := Nat.ofDigits_inj_of_len_eq (by decide) (by rw [List.length_map, List.length_map, hlen])
    (hdigits bytes) (hdigits bytes') hnat
  exact List.map_injective_iff.mpr (fun _ _ => UInt8.toNat_inj.mp) hmap

/-- What is xored into bits that are clear is added. -/
theorem xor_eq_add {n m a : Nat} (ha : a < 2 ^ n) : (2 ^ n * m) ^^^ a = 2 ^ n * m + a := by
  refine Nat.eq_of_testBit_eq fun j => ?_
  rw [Nat.testBit_xor, Nat.testBit_two_pow_mul_add m ha]
  have hclear : (2 ^ n * m).testBit j = if j < n then false else m.testBit (j - n) := by
    have hzero := Nat.testBit_two_pow_mul_add m (Nat.two_pow_pos n) j
    rwa [Nat.add_zero, Nat.zero_testBit] at hzero
  rw [hclear]
  split
  · exact Bool.false_xor _
  · rename_i hj
    rw [Nat.testBit_lt_two_pow (Nat.lt_of_lt_of_le ha (Nat.pow_le_pow_right (by decide) (Nat.le_of_not_lt hj))),
      Bool.xor_false]

/-- The tail is read as the blocks are. -/
theorem tailWord_eq {bytes : List UInt8} (hlen : bytes.length ≤ 8) : tailWord bytes = load bytes := by
  have hword : ∀ (bs : List UInt8) (i : Nat), i + bs.length ≤ 8 →
      ((bs.zipIdx i).foldr (fun b k => k ^^^ (b.1.toUInt64 <<< UInt64.ofNat (8 * b.2))) 0).toNat =
        256 ^ i * Nat.ofDigits 256 (bs.map UInt8.toNat) := by
    intro bs
    induction bs with
    | nil => exact fun _ _ => rfl
    | cons b bs ih =>
      intro i hi
      rw [List.length_cons] at hi
      have hb := b.toNat_lt
      have hpow : (256 : Nat) ^ i = 2 ^ (8 * i) := by rw [Nat.pow_mul]
      have hnext : (256 : Nat) ^ (i + 1) = 2 ^ (8 * (i + 1)) := by rw [Nat.pow_mul]
      have hplace : b.toNat * 2 ^ (8 * i) < 2 ^ (8 * (i + 1)) := by
        rw [← hnext, ← hpow, Nat.pow_succ, Nat.mul_comm]
        exact Nat.mul_lt_mul_of_pos_left hb (Nat.pow_pos (by decide))
      have hfits : 2 ^ (8 * (i + 1)) ≤ 2 ^ 64 := Nat.pow_le_pow_right (by decide) (by omega)
      have hbyte : (b.toUInt64 <<< UInt64.ofNat (8 * i)).toNat = b.toNat * 2 ^ (8 * i) := by
        rw [UInt64.toNat_shiftLeft, UInt64.toNat_ofNat', UInt8.toNat_toUInt64,
          Nat.mod_eq_of_lt (show 8 * i < 2 ^ 64 by omega), Nat.mod_eq_of_lt (show 8 * i < 64 by omega),
          Nat.shiftLeft_eq]
        exact Nat.mod_eq_of_lt (Nat.lt_of_lt_of_le hplace hfits)
      rw [List.zipIdx_cons, List.foldr_cons, UInt64.toNat_xor, ih (i + 1) (by omega), hbyte, hnext,
        xor_eq_add hplace, List.map_cons, Nat.ofDigits_cons, ← hpow, ← hnext, Nat.pow_succ]
      ring
  have h := hword bytes 0 (by omega)
  rw [Nat.pow_zero, Nat.one_mul, ← load_toNat hlen] at h
  exact UInt64.toNat_inj.mp h

theorem mixTail_state_injective (tail : List UInt8) : Function.Injective fun h => mixTail h tail := by
  intro h h' heq
  obtain ⟨hfirst, hsecond⟩ := Prod.ext_iff.mp heq
  simp only [mixTail] at hfirst hsecond
  refine Prod.ext ?_ ?_
  · split at hfirst
    · exact (UInt64.xor_left_inj _).mp hfirst
    · exact hfirst
  · split at hsecond
    · exact (UInt64.xor_left_inj _).mp hsecond
    · exact hsecond

theorem mixTail_tail_injective (h : UInt64 × UInt64) {tail tail' : List UInt8}
    (hlen : tail.length = tail'.length) (hmax : tail.length < 16) (heq : mixTail h tail = mixTail h tail') :
    tail = tail' := by
  have hword : ∀ {bs bs' : List UInt8}, bs.length = bs'.length → bs.length ≤ 8 →
      tailWord bs = tailWord bs' → bs = bs' := by
    intro bs bs' hbs hle hw
    rw [tailWord_eq hle, tailWord_eq (hbs ▸ hle)] at hw
    exact load_injective hbs hle hw
  obtain ⟨hfirst, hsecond⟩ := Prod.ext_iff.mp heq
  simp only [mixTail, ← hlen] at hfirst hsecond
  have hdrop : tail.drop 8 = tail'.drop 8 := by
    by_cases hlong : 9 ≤ tail.length
    · rw [if_pos hlong, if_pos hlong, UInt64.xor_right_inj] at hsecond
      exact hword (by rw [List.length_drop, List.length_drop, hlen]) (by rw [List.length_drop]; omega)
        (mixK2_injective hsecond)
    · rw [List.drop_eq_nil_of_le (by omega), List.drop_eq_nil_of_le (by omega)]
  have htake : tail.take 8 = tail'.take 8 := by
    by_cases hsome : 1 ≤ tail.length
    · rw [if_pos hsome, if_pos hsome, UInt64.xor_right_inj] at hfirst
      exact hword (by rw [List.length_take, List.length_take, hlen]) (List.length_take_le ..)
        (mixK1_injective hfirst)
    · rw [List.length_eq_zero_iff.mp (show tail.length = 0 by omega),
        List.length_eq_zero_iff.mp (show tail'.length = 0 by omega)]
  rw [← List.take_append_drop 8 tail, htake, hdrop, List.take_append_drop]

/-! ### The hash -/

section Hash
variable {key key' : List UInt8} {i j : Nat}

/-- A block depends on its 16 bytes. -/
theorem block_congr (hsame : ∀ t, t / 16 = i → key[t]? = key'[t]?) : block key i = block key' i := by
  have hhalf : ∀ start, (start = 16 * i ∨ start = 16 * i + 8) →
      (key.drop start).take 8 = (key'.drop start).take 8 := by
    intro start hstart
    refine List.ext_getElem? fun t => ?_
    rw [List.getElem?_take, List.getElem?_take]
    split
    · rw [List.getElem?_drop, List.getElem?_drop]
      exact hsame _ (by omega)
    · rfl
  rw [block, block, hhalf _ (.inl rfl), hhalf _ (.inr rfl)]

/-- The bytes of a block can be read off it. -/
theorem getElem?_of_block (hlen : key.length = key'.length) (hi : i < key.length / 16)
    (h : block key i = block key' i) {t : Nat} (ht : t / 16 = i) : key[t]? = key'[t]? := by
  have hhalf : ∀ {start : Nat}, start + 8 ≤ key.length →
      load ((key.drop start).take 8) = load ((key'.drop start).take 8) →
      ∀ u < 8, key[start + u]? = key'[start + u]? := by
    intro start hstart hload u hu
    have hbytes := load_injective (by simp only [List.length_take, List.length_drop, hlen])
      (List.length_take_le ..) hload
    have hbyte := congrArg (·[u]?) hbytes
    simp only [List.getElem?_take, if_pos hu, List.getElem?_drop] at hbyte
    exact hbyte
  obtain ⟨hlow, hhigh⟩ := Prod.ext_iff.mp h
  by_cases hu : t % 16 < 8
  · have hbyte := hhalf (by omega) hlow (t % 16) hu
    rwa [show 16 * i + t % 16 = t by omega] at hbyte
  · have hbyte := hhalf (by omega) hhigh (t % 16 - 8) (by omega)
    rwa [show 16 * i + 8 + (t % 16 - 8) = t by omega] at hbyte

end Hash

end MurmurHash

/-- **Every change within a block is seen**: keys of one length that differ, and only within
bytes `16 * j` to `16 * j + 15`, have different hashes. -/
theorem murmurHash3_ne {key key' : List UInt8} (hlen : key.length = key'.length) {j : Nat}
    (hsame : ∀ t, t / 16 ≠ j → key[t]? = key'[t]?) (hne : key ≠ key') (seed : UInt32) :
    murmurHash3_x64_128 key seed ≠ murmurHash3_x64_128 key' seed := by
  intro h
  rw [murmurHash3_x64_128, murmurHash3_x64_128, ← hlen] at h
  have h := finalize_injective _ h
  apply hne
  by_cases hj : j < key.length / 16
  · -- the tails agree, and the blocks but one
    have htail : key.drop (key.length / 16 * 16) = key'.drop (key.length / 16 * 16) := by
      refine List.ext_getElem? fun t => ?_
      rw [List.getElem?_drop, List.getElem?_drop]
      exact hsame _ (by omega)
    rw [← htail] at h
    have hstates := mixTail_state_injective _ h
    have hsplit : List.range (key.length / 16) =
        List.range j ++ j :: (List.range (key.length / 16 - (j + 1))).map (j + 1 + ·) := by
      conv_lhs => rw [show key.length / 16 = j + 1 + (key.length / 16 - (j + 1)) by omega, List.range_add,
        List.range_succ, List.append_assoc, List.singleton_append]
    have hothers : ∀ i ≠ j, block key i = block key' i := fun i hi =>
      block_congr fun t ht => hsame t (ht ▸ hi)
    have hbefore : (List.range j).map (block key) = (List.range j).map (block key') :=
      List.map_congr_left fun i hi => hothers i (Nat.ne_of_lt (List.mem_range.mp hi))
    have hafter : ((List.range (key.length / 16 - (j + 1))).map (j + 1 + ·)).map (block key) =
        ((List.range (key.length / 16 - (j + 1))).map (j + 1 + ·)).map (block key') := by
      refine List.map_congr_left fun i hi => hothers i ?_
      obtain ⟨t, -, rfl⟩ := List.mem_map.mp hi
      omega
    rw [hsplit, List.map_append, List.map_append, List.map_cons, List.map_cons, hbefore, hafter] at hstates
    have hblock : block key j = block key' j := by
      by_contra hdiffer
      exact Mixing.foldl_ne round_state_injective round_block_injective _ _ _ hdiffer hstates
    refine List.ext_getElem? fun t => ?_
    by_cases ht : t / 16 = j
    · exact getElem?_of_block hlen hj hblock ht
    · exact hsame t ht
  · -- the blocks agree
    have hblocks : (List.range (key.length / 16)).map (block key) =
        (List.range (key.length / 16)).map (block key') := by
      refine List.map_congr_left fun i hi => block_congr fun t ht => hsame t ?_
      have := List.mem_range.mp hi
      omega
    rw [← hblocks] at h
    have htail := mixTail_tail_injective _ (by rw [List.length_drop, List.length_drop, hlen])
      (by rw [List.length_drop]; omega) h
    refine List.ext_getElem? fun t => ?_
    by_cases ht : t / 16 < key.length / 16
    · exact hsame t (by omega)
    · have hbyte := congrArg (·[t - key.length / 16 * 16]?) htail
      simp only [List.getElem?_drop] at hbyte
      rwa [show key.length / 16 * 16 + (t - key.length / 16 * 16) = t by omega] at hbyte

/-- A block whose first byte differs, and a tail that does not. -/
theorem murmurHash3_ne_block : murmurHash3_x64_128 [2, 1, 1, 1, 1, 1, 1, 1, 1, 1, 1, 1, 1, 1, 1, 1, 5] 7 ≠
    murmurHash3_x64_128 [3, 1, 1, 1, 1, 1, 1, 1, 1, 1, 1, 1, 1, 1, 1, 1, 5] 7 := by
  have hlen : [2, 1, 1, 1, 1, 1, 1, 1, 1, 1, 1, 1, 1, 1, 1, 1, (5 : UInt8)].length =
      [3, 1, 1, 1, 1, 1, 1, 1, 1, 1, 1, 1, 1, 1, 1, 1, (5 : UInt8)].length := rfl
  refine murmurHash3_ne (j := 0) hlen (fun t ht => ?_) (by decide) 7
  cases t with
  | zero => exact absurd rfl ht
  | succ t => rfl

/-- Keys of one length up to 16 bytes do not collide. -/
theorem murmurHash3_injective {key key' : List UInt8} (hlen : key.length = key'.length)
    (hmax : key.length ≤ 16) (seed : UInt32)
    (h : murmurHash3_x64_128 key seed = murmurHash3_x64_128 key' seed) : key = key' := by
  by_contra hne
  refine murmurHash3_ne (j := 0) hlen (fun t ht => ?_) hne seed h
  rw [List.getElem?_eq_none (by omega), List.getElem?_eq_none (by omega)]

example : murmurHash3_x64_128 [104, 101, 108, 108, 111] 0 = (0xcbd8a7b341bd9b02, 0x5b1e906a48ae1d19) := by
  decide +kernel

end HyperCache.Util
