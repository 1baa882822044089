import HyperCache.Clock.Table

/-! The probe loop as a walk over a list.

With a table of a power of two slots and an odd step, `findSlot` visits every slot
once in the order of `probePath`, and `rollback` takes one displacement from each
slot of `probesBefore`, the part of that path before the entry. The operations
are then read with the search rule of `Probe`. -/
namespace HyperCache.Clock.ClockCache

/-- The order in which a search for this key visits the slots. -/
def probePath (c : ClockCache) (k : UniqueId64x2) : List Nat :=
  Probe.path c.length.toNat k.2.toNat (k.1 ||| 1).toNat

/-- The slots a search for this key visits before it comes to `h`. -/
def probesBefore (c : ClockCache) (k : UniqueId64x2) (h : Nat) : List Nat :=
  Probe.before c.length.toNat k.2.toNat (k.1 ||| 1).toNat h

/-- The table has `2 ^ n` slots. -/
structure Sized (n : Nat) (c : ClockCache) : Prop where
  length : c.length.toNat = 2 ^ n
  size : c.array.length = 2 ^ n

theorem step_odd (k : UniqueId64x2) : (k.1 ||| 1).toNat % 2 = 1 := by
  rw [UInt64.toNat_or, show (1 : UInt64).toNat = 1 from rfl, Nat.or_mod_two_eq_one]
  right
  rfl

theorem modLength_toNat (c : ClockCache) (x : UInt64) :
    (c.modLength x).toNat = x.toNat % c.length.toNat := by
  rw [modLength, UInt64.toNat_mod]

section Length
variable {n : Nat} {c : ClockCache} (hlen : c.length.toNat = 2 ^ n)
include hlen

theorem dvd_of_length : 2 ^ n ∣ 2 ^ 64 := by
  have hlt : 2 ^ n < 2 ^ 64 := hlen ▸ c.length.toNat_lt
  exact Nat.pow_dvd_pow 2 ((Nat.pow_lt_pow_iff_right (by omega)).mp hlt).le

theorem coprime_of_length (k : UniqueId64x2) : Nat.Coprime c.length.toNat (k.1 ||| 1).toNat := by
  rw [hlen]
  exact Probe.coprime_of_odd (step_odd k) n

theorem pos_of_length : 0 < c.length.toNat := by
  rw [hlen]
  exact Nat.two_pow_pos n

/-- The sum of the step wraps at 64 bits, which residues by the length do not notice. -/
theorem modLength_add (x y : UInt64) :
    (c.modLength (x + y)).toNat = (x.toNat + y.toNat) % c.length.toNat := by
  rw [modLength_toNat, UInt64.toNat_add, hlen, Nat.mod_mod_of_dvd _ (dvd_of_length hlen)]

end Length

namespace Sized
variable {n : Nat} {c : ClockCache} (hc : Sized n c)
include hc

theorem coprime (k : UniqueId64x2) : Nat.Coprime c.length.toNat (k.1 ||| 1).toNat :=
  coprime_of_length hc.length k

theorem pos : 0 < c.length.toNat := pos_of_length hc.length

theorem lt_size {i : Nat} : i < c.array.length ↔ i < c.length.toNat := by
  rw [hc.size, hc.length]

theorem mem_probePath (k : UniqueId64x2) {i : Nat} : i ∈ c.probePath k ↔ i < c.length.toNat :=
  Probe.mem_path (hc.coprime k)

theorem probePath_ne_nil (k : UniqueId64x2) : c.probePath k ≠ [] := by
  apply List.ne_nil_of_length_pos
  rw [probePath, Probe.path_length]
  exact hc.pos

theorem probesBefore_of_split (k : UniqueId64x2) {pre post : List Nat} {h : Nat}
    (hsplit : c.probePath k = pre ++ h :: post) : c.probesBefore k h = pre :=
  Probe.before_of_split (hc.coprime k) hsplit

theorem probesBefore_nodup (k : UniqueId64x2) (h : Nat) : (c.probesBefore k h).Nodup :=
  Probe.before_nodup (hc.coprime k) h

/-- Of two slots a search comes to one first. -/
theorem before_or_before (k : UniqueId64x2) {i j : Nat} (hi : i < c.length.toNat)
    (hj : j < c.length.toNat) (hne : i ≠ j) : i ∈ c.probesBefore k j ∨ j ∈ c.probesBefore k i := by
  rw [probesBefore, probesBefore, Probe.mem_before (hc.coprime k) hj, Probe.mem_before (hc.coprime k) hi]
  exact Nat.lt_or_gt_of_ne fun heq => hne (Probe.rank_injective (hc.coprime k) hi hj heq)

end Sized

theorem probesBefore_ne {c : ClockCache} {k : UniqueId64x2} {i h : Nat}
    (hi : i ∈ c.probesBefore k h) : i ≠ h :=
  Probe.before_ne hi

theorem probesBefore_lt {c : ClockCache} {k : UniqueId64x2} {i h : Nat}
    (hi : i ∈ c.probesBefore k h) : i < c.length.toNat :=
  Probe.before_lt hi

theorem probesBefore_congr {c d : ClockCache} (hl : d.length = c.length) (k : UniqueId64x2) (h : Nat) :
    d.probesBefore k h = c.probesBefore k h := by
  unfold probesBefore
  rw [hl]

/-! ### FindSlot -/

section FindSlot
variable {S : Type} {n : Nat} {c : ClockCache} (hlen : c.length.toNat = 2 ^ n) (k : UniqueId64x2)
  (matchFn abortFn : Nat → S → Option (Bool × S)) (updateFn : Nat → Bool → S → Option S)
include hlen

theorem findSlotLoop_eq (fuel j : Nat) (current : UInt64) (s : S)
    (hj : j < c.length.toNat) (hfuel : fuel = c.length.toNat - j)
    (hcur : current.toNat = Probe.slot c.length.toNat k.2.toNat (k.1 ||| 1).toNat j) :
    findSlotLoop c.modLength (k.1 ||| 1) (c.modLength k.2) matchFn abortFn updateFn fuel current s =
      Probe.walk matchFn abortFn updateFn
        (Probe.pathFrom c.length.toNat k.2.toNat (k.1 ||| 1).toNat j) s := by
  induction fuel generalizing j current s with
  | zero => omega
  | succ fuel ih =>
    have hnext : (c.modLength (current + (k.1 ||| 1))).toNat =
        Probe.slot c.length.toNat k.2.toNat (k.1 ||| 1).toNat (j + 1) := by
      rw [modLength_add hlen, hcur, ← Probe.slot_succ]
    have hlast : (c.modLength (current + (k.1 ||| 1)) == c.modLength k.2) =
        (Probe.pathFrom c.length.toNat k.2.toNat (k.1 ||| 1).toNat (j + 1)).isEmpty := by
      have hfirst : (c.modLength k.2).toNat =
          Probe.slot c.length.toNat k.2.toNat (k.1 ||| 1).toNat 0 := by
        rw [modLength_toNat, Probe.slot, Nat.zero_mul, Nat.add_zero]
      rw [Probe.pathFrom_isEmpty, Bool.eq_iff_iff, beq_iff_eq, decide_eq_true_iff,
        ← UInt64.toNat_inj, hnext, hfirst, Probe.slot_eq_start (coprime_of_length hlen k) hj]
    rw [Probe.pathFrom_of_lt hj, findSlotLoop, Probe.walk, hcur]
    congr 1
    funext r
    obtain ⟨found, s⟩ := r
    cases found with
    | true => rfl
    | false =>
      show (abortFn _ s >>= _) = (abortFn _ s >>= _)
      congr 1
      funext r
      obtain ⟨stop, s⟩ := r
      cases stop with
      | true => rfl
      | false =>
        simp only [hlast, Bool.false_eq_true, if_false]
        congr 1
        funext s
        by_cases hend : c.length.toNat ≤ j + 1
        · have hnil : Probe.pathFrom c.length.toNat k.2.toNat (k.1 ||| 1).toNat (j + 1) = [] := by
            rw [← List.isEmpty_iff, Probe.pathFrom_isEmpty, decide_eq_true hend]
          rw [hnil]
          rfl
        · rw [Probe.pathFrom_isEmpty, decide_eq_false hend]
          exact ih (j + 1) _ s (by omega) (by omega) hnext

theorem findSlot_eq (s : S) :
    c.findSlot k matchFn abortFn updateFn s =
      Probe.walk matchFn abortFn updateFn (c.probePath k) s := by
  rw [findSlot, probePath, ← Probe.pathFrom_zero]
  apply findSlotLoop_eq hlen k matchFn abortFn updateFn _ 0 _ s (pos_of_length hlen) rfl
  rw [modLength_toNat, Probe.slot, Nat.zero_mul, Nat.add_zero]

end FindSlot

/-! ### Rollback -/

/-- The displacements of all the listed slots by `count`. -/
def displaceAll (c : ClockCache) (slots : List Nat) (count : UInt32) : ClockCache :=
  slots.foldl (fun c i => c.displace i count) c

@[simp] theorem displace_length (c : ClockCache) (i : Nat) (count : UInt32) :
    (c.displace i count).length = c.length := rfl

@[simp] theorem displace_size (c : ClockCache) (i : Nat) (count : UInt32) :
    (c.displace i count).array.length = c.array.length := by
  simp [displace]

theorem displaceAll_rest (c : ClockCache) (slots : List Nat) (count : UInt32) :
    ∃ array, c.displaceAll slots count = {c with array := array} ∧
      array.length = c.array.length := by
  induction slots generalizing c with
  | nil => exact ⟨c.array, rfl, rfl⟩
  | cons i slots ih =>
    obtain ⟨array, heq, hlen⟩ := ih (c.displace i count)
    exact ⟨array, by rw [displaceAll, List.foldl_cons]; exact heq, by rw [hlen, displace_size]⟩

theorem slot_displace (c : ClockCache) {i : Nat} (j : Nat) (count : UInt32)
    (hi : j = i → i < c.array.length) : (c.displace i count).slot j =
      if j = i then {c.slot j with displacements := (c.slot j).displacements + count} else c.slot j := by
  by_cases hj : j = i
  · rw [displace, slot_setSlot c j _ (hi hj), if_pos hj, if_pos hj, hj]
  · rw [displace, slot_setSlot_of_ne c _ hj, if_neg hj]

theorem slot_displaceAll (c : ClockCache) {slots : List Nat} (j : Nat) (count : UInt32)
    (hn : slots.Nodup) (hlt : j ∈ slots → j < c.array.length) :
    (c.displaceAll slots count).slot j = if j ∈ slots
      then {c.slot j with displacements := (c.slot j).displacements + count} else c.slot j := by
  induction slots generalizing c with
  | nil => rfl
  | cons i slots ih =>
    obtain ⟨hi, hn⟩ := List.nodup_cons.mp hn
    have hstep := ih (c.displace i count) hn
      (fun hj => by simpa using hlt (List.mem_cons_of_mem i hj))
    rw [displaceAll, List.foldl_cons]
    rw [displaceAll] at hstep
    rw [hstep, slot_displace c j count fun hj => hj ▸ hlt (hj ▸ List.mem_cons_self)]
    by_cases hj : j = i
    · subst hj
      simp [hi]
    · simp [hj]

theorem displaceAll_back {c : ClockCache} {slots : List Nat} (hn : slots.Nodup)
    (hlt : ∀ i ∈ slots, i < c.array.length) :
    (c.displaceAll slots 1).displaceAll slots (-1) = c := by
  obtain ⟨array₁, heq₁, hlen₁⟩ := c.displaceAll_rest slots 1
  obtain ⟨array₂, heq₂, hlen₂⟩ := (c.displaceAll slots 1).displaceAll_rest slots (-1)
  have hsize₁ : (c.displaceAll slots 1).array.length = c.array.length := by rw [heq₁, hlen₁]
  apply ext_slots
  · rw [heq₂, heq₁]
  · rw [heq₂, hlen₂, hsize₁]
  · intro j _
    rw [slot_displaceAll _ j (-1) hn (by rw [hsize₁]; exact hlt j), slot_displaceAll c j 1 hn (hlt j)]
    by_cases hj : j ∈ slots
    · have hback : (c.slot j).displacements + 1 + -1 = (c.slot j).displacements := by
        rw [← UInt32.sub_eq_add_neg, UInt32.add_sub_cancel]
      simp only [if_pos hj, hback]
    · rw [if_neg hj, if_neg hj]

theorem displaceAll_append (c : ClockCache) (slots : List Nat) (i : Nat) (count : UInt32) :
    (c.displaceAll slots count).displace i count = c.displaceAll (slots ++ [i]) count := by
  rw [displaceAll, displaceAll, List.foldl_append]
  rfl

theorem rollbackLoop_eq {n : Nat} {c : ClockCache} (hlen : c.length.toNat = 2 ^ n) (k : UniqueId64x2) (h fuel j : Nat)
    (current : UInt64) (hj : j < c.length.toNat) (hfuel : fuel = c.length.toNat - j)
    (hcur : current.toNat = Probe.slot c.length.toNat k.2.toNat (k.1 ||| 1).toNat j)
    (hmem : h ∈ Probe.pathFrom c.length.toNat k.2.toNat (k.1 ||| 1).toNat j) :
    rollbackLoop (k.1 ||| 1) h fuel current c = some (c.displaceAll
      ((Probe.pathFrom c.length.toNat k.2.toNat (k.1 ||| 1).toNat j).takeWhile (· ≠ h)) (-1)) := by
  induction fuel generalizing j current c with
  | zero => omega
  | succ fuel ih =>
    rw [rollbackLoop]
    rw [Probe.pathFrom_of_lt hj] at hmem ⊢
    by_cases hh : current.toNat = h
    · rw [if_pos hh, List.takeWhile_cons_of_neg (by rw [← hcur, hh]; simp)]
      rfl
    · rw [if_neg hh, List.takeWhile_cons_of_pos (by rw [← hcur]; simpa using hh), hcur]
      have hrest : h ∈ Probe.pathFrom c.length.toNat k.2.toNat (k.1 ||| 1).toNat (j + 1) := by
        rcases List.mem_cons.mp hmem with heq | hrest
        · exact absurd (hcur.trans heq.symm) hh
        · exact hrest
      have hnext : j + 1 < c.length.toNat := by
        by_contra hend
        have hnil : (Probe.pathFrom c.length.toNat k.2.toNat (k.1 ||| 1).toNat (j + 1)).isEmpty := by
          rw [Probe.pathFrom_isEmpty, decide_eq_true (Nat.le_of_not_lt hend)]
        rw [List.isEmpty_iff.mp hnil] at hrest
        exact List.not_mem_nil hrest
      have hd : (c.displace (Probe.slot c.length.toNat k.2.toNat (k.1 ||| 1).toNat j) (-1)).length.toNat =
          2 ^ n := hlen
      exact ih hd (j + 1) (c.modLength (current + (k.1 ||| 1))) hnext (by simp; omega)
        (by rw [modLength_add hlen, hcur, ← Probe.slot_succ]; rfl) hrest

/-- `Rollback` comes to the entry's slot, and takes a displacement from each slot
on the way. -/
theorem rollback_eq {n : Nat} {c : ClockCache} (hlen : c.length.toNat = 2 ^ n) (k : UniqueId64x2) {h : Nat}
    (hh : h < c.length.toNat) :
    c.rollback k h = some (c.displaceAll (c.probesBefore k h) (-1)) := by
  have hmem : h ∈ Probe.pathFrom c.length.toNat k.2.toNat (k.1 ||| 1).toNat 0 := by
    rw [Probe.pathFrom_zero]
    exact (Probe.mem_path (coprime_of_length hlen k)).mpr hh
  have hloop := rollbackLoop_eq hlen k h _ 0 (c.modLength k.2) (pos_of_length hlen) rfl
    (by rw [modLength_toNat, Probe.slot, Nat.zero_mul, Nat.add_zero]) hmem
  rw [Probe.pathFrom_zero] at hloop
  exact hloop

end HyperCache.Clock.ClockCache
