import HyperCache.Clock.Table
import HyperCache.Lib.WrapStep

/-! When the probe loop comes back to its first slot, for a table of any length.

The step adds the increment in 64 bits and then reduces it by the length, so that the loop
visits the slots of a `WrapStep.walk`. The loop of each operation ends for a key on every
table exactly when that walk is separate; otherwise its first slot is never stepped to
again, and a search that finds nothing goes on for ever. -/
namespace HyperCache.Clock.ClockCache

/-- The slot the loop visits after `x`. -/
def next (c : ClockCache) (increment x : UInt64) : UInt64 := c.modLength (x + increment)

variable {c d : ClockCache}

theorem next_toNat (increment x : UInt64) : (c.next increment x).toNat =
    WrapStep.step (2 ^ 64) c.length.toNat increment.toNat x.toNat := by
  rw [next, modLength, UInt64.toNat_mod, UInt64.toNat_add]
  rfl

theorem modLength_lt (hL : 0 < c.length) (x : UInt64) :
    (c.modLength x).toNat < c.length.toNat := by
  rw [modLength, UInt64.toNat_mod]
  exact Nat.mod_lt _ hL

/-! ### Loops that come back -/

/-- The three functions return on this slot, and keep the invariant. -/
structure Total {S : Type} (Inv : S → Prop) (matchFn abortFn : Nat → S → Option (Bool × S))
    (updateFn : Nat → Bool → S → Option S) (h : Nat) : Prop where
  matching : ∀ s, Inv s → ∃ b s', matchFn h s = some (b, s') ∧ Inv s'
  aborting : ∀ s, Inv s → ∃ b s', abortFn h s = some (b, s') ∧ Inv s'
  updating : ∀ isLast s, Inv s → ∃ s', updateFn h isLast s = some s' ∧ Inv s'

/-- The slot visited in round `j`. -/
def visited (c : ClockCache) (k : UniqueId64x2) (j : Nat) : UInt64 :=
  (c.next (k.1 ||| 1))^[j] (c.modLength k.2)

variable {S : Type} {Inv : S → Prop} {matchFn abortFn : Nat → S → Option (Bool × S)}
  {updateFn : Nat → Bool → S → Option S} {k : UniqueId64x2}

theorem visited_succ (j : Nat) :
    c.visited k (j + 1) = c.modLength (c.visited k j + (k.1 ||| 1)) :=
  Function.iterate_succ_apply' ..

theorem visited_lt (hL : 0 < c.length) (j : Nat) : (c.visited k j).toNat < c.length.toNat := by
  cases j with
  | zero => exact modLength_lt hL _
  | succ j =>
    rw [visited_succ]
    exact modLength_lt hL _

/-- The walk of a key's loop is separate: of no two slots it visits the sum wraps for one and
not for the other and the slot after them is the same. -/
def Separate (length : UInt64) (k : UniqueId64x2) : Prop :=
  WrapStep.Separate (2 ^ 64) length.toNat (k.1 ||| 1).toNat (k.2.toNat % length.toNat)

instance (length : UInt64) (k : UniqueId64x2) : Decidable (Separate length k) :=
  inferInstanceAs (Decidable (WrapStep.Separate ..))

theorem visited_walk (j : Nat) : (c.visited k j).toNat =
    WrapStep.walk (2 ^ 64) c.length.toNat (k.1 ||| 1).toNat (k.2.toNat % c.length.toNat) j := by
  induction j with
  | zero => exact UInt64.toNat_mod ..
  | succ j ih => rw [visited_succ, ← next, next_toNat, ih, WrapStep.walk_succ]

/-- The loop is at its first slot again after at most `length_` steps. -/
theorem visited_returns (hL : 0 < c.length) (h : Separate c.length k) :
    ∃ n, 0 < n ∧ n ≤ c.length.toNat ∧ c.visited k n = c.modLength k.2 := by
  obtain ⟨n, hpos, hn, hreturns⟩ :=
    WrapStep.Separate.returns h (k.1 ||| 1).toNat_lt c.length.toNat_lt.le (Nat.mod_lt _ hL)
  refine ⟨n, hpos, hn, UInt64.toNat_inj.mp ?_⟩
  rw [visited_walk, hreturns]
  exact (UInt64.toNat_mod ..).symm

/-- Or never. -/
theorem visited_ne_first (hL : 0 < c.length) (h : ¬ Separate c.length k) (j : Nat) :
    c.visited k (j + 1) ≠ c.modLength k.2 := by
  intro heq
  refine h (WrapStep.separate_of_returns (n := j + 1) (k.1 ||| 1).toNat_lt c.length.toNat_lt.le
    (Nat.mod_lt _ hL) (Nat.succ_pos j) ?_)
  rw [← visited_walk, heq]
  exact UInt64.toNat_mod ..

theorem findSlotLoop_returns {n : Nat} (hreturns : c.visited k n = c.modLength k.2)
    (htotal : ∀ j < n, Total Inv matchFn abortFn updateFn (c.visited k j).toNat)
    (fuel j : Nat) (s : S) (hs : Inv s) (hj : j < n) (hfuel : n ≤ j + fuel) :
    (findSlotLoop c.modLength (k.1 ||| 1) (c.modLength k.2) matchFn abortFn updateFn fuel
      (c.visited k j) s).isSome := by
  induction fuel generalizing j s with
  | zero => omega
  | succ fuel ih =>
    obtain ⟨found, s₁, hmatch, hs₁⟩ := (htotal j hj).matching s hs
    rw [findSlotLoop]
    simp only [hmatch, Option.bind_eq_bind, Option.bind_some]
    cases found with
    | true => rfl
    | false =>
      obtain ⟨stop, s₂, habort, hs₂⟩ := (htotal j hj).aborting s₁ hs₁
      simp only [habort, Option.bind_some]
      cases stop with
      | true => rfl
      | false =>
        obtain ⟨s₃, hupdate, hs₃⟩ :=
          (htotal j hj).updating (c.visited k (j + 1) == c.modLength k.2) s₂ hs₂
        rw [visited_succ] at hupdate
        simp only [hupdate, Option.bind_some]
        by_cases hlast : c.visited k (j + 1) = c.modLength k.2
        · rw [visited_succ] at hlast
          simp [hlast]
        · have hne : j + 1 ≠ n := fun heq => hlast (heq ▸ hreturns)
          have hrest := ih (j + 1) s₃ hs₃ (by omega) (by omega)
          rw [visited_succ] at hlast hrest
          simpa [hlast] using hrest

theorem findSlot_returns (Inv : S → Prop) (hL : 0 < c.length) (h : Separate c.length k)
    (htotal : ∀ j < c.length.toNat, Total Inv matchFn abortFn updateFn (c.visited k j).toNat)
    (s : S) (hs : Inv s) : (c.findSlot k matchFn abortFn updateFn s).isSome := by
  obtain ⟨n, hpos, hn, hreturns⟩ := visited_returns hL h
  exact findSlotLoop_returns hreturns (fun j hj => htotal j (by omega)) _ 0 s hs hpos (by omega)

/-- `Rollback` comes to a slot the loop has visited. -/
theorem rollbackLoop_returns (i fuel j : Nat) (d : ClockCache) (hd : d.length = c.length)
    (hj : j ≤ i) (hfuel : i < j + fuel) :
    ∃ d', rollbackLoop (k.1 ||| 1) (c.visited k i).toNat fuel (c.visited k j) d = some d' ∧
      d'.length = c.length := by
  induction fuel generalizing j d with
  | zero => omega
  | succ fuel ih =>
    rw [rollbackLoop]
    by_cases hhere : (c.visited k j).toNat = (c.visited k i).toNat
    · exact ⟨d, if_pos hhere, hd⟩
    · have hne : j ≠ i := fun heq => hhere (heq ▸ rfl)
      rw [if_neg hhere]
      have hnext : d.modLength (c.visited k j + (k.1 ||| 1)) = c.visited k (j + 1) := by
        rw [visited_succ, modLength, modLength, hd]
      rw [hnext]
      exact ih (j + 1) _ hd (by omega) (by omega)

theorem rollback_returns {i : Nat} (hi : i < c.length.toNat) (hd : d.length = c.length) :
    ∃ d', d.rollback k (c.visited k i).toNat = some d' ∧ d'.length = c.length := by
  have hfirst : d.modLength k.2 = c.visited k 0 := by
    rw [modLength, hd]
    rfl
  rw [rollback, hfirst, hd]
  exact rollbackLoop_returns i _ 0 d hd (Nat.zero_le _) (by omega)

/-! ### The three operations -/

theorem lookupMatch_length (h : Nat) (d : ClockCache) :
    ∃ b d', lookupMatch k h d = some (b, d') ∧ d'.length = d.length := by
  simp only [lookupMatch]
  split
  · split
    · refine ⟨_, _, rfl, ?_⟩
      simp only [hitIncr]
      split <;> rfl
    · exact ⟨_, _, rfl, rfl⟩
  · split
    · exact ⟨_, _, rfl, rfl⟩
    · exact ⟨_, _, rfl, rfl⟩

theorem lookup_returns (hL : 0 < c.length) (h : Separate c.length k) : (c.lookup k).isSome := by
  refine findSlot_returns (fun d => d.length = c.length) hL h (fun j _ => ⟨?_, ?_, ?_⟩) c rfl
  · intro d hd
    obtain ⟨b, d', heq, hlen⟩ := lookupMatch_length (k := k) (c.visited k j).toNat d
    exact ⟨b, d', heq, hlen.trans hd⟩
  · exact fun d hd => ⟨_, d, rfl, hd⟩
  · exact fun _ d hd => ⟨d, rfl, hd⟩

theorem freeDataMarkEmpty_length (d : ClockCache) (h : Nat) :
    (d.freeDataMarkEmpty h).length = d.length := by
  simp only [freeDataMarkEmpty, freeData]
  split <;> rfl

theorem erase_returns (hL : 0 < c.length) (h : Separate c.length k) : (c.erase k).isSome := by
  have hfind : (c.findSlot k (eraseMatch k) (fun h s => some (notDisplaced h s.cache, s))
      (fun _ _ s => some s) ⟨c, false, false⟩).isSome := by
    refine findSlot_returns (fun s => s.cache.length = c.length) hL h
      (fun j hj => ⟨fun s hs => ?_, fun s hs => ⟨_, s, rfl, hs⟩, fun _ s hs => ⟨s, rfl, hs⟩⟩) _ rfl
    have hrollback : ∀ d : ClockCache, d.length = c.length → ∃ b s',
        (d.rollback k (c.visited k j).toNat >>= fun d =>
          some (false, (⟨d, true, true⟩ : EraseState))) = some (b, s') ∧
        s'.cache.length = c.length := by
      intro d hd
      obtain ⟨d', heq, hlen⟩ := rollback_returns (k := k) hj hd
      exact ⟨false, ⟨d', true, true⟩, by rw [heq]; rfl, hlen⟩
    simp only [eraseMatch]
    split
    · split
      · split
        · exact ⟨_, _, rfl, hs⟩
        · exact hrollback _ ((freeDataMarkEmpty_length _ _).trans hs)
      · exact ⟨_, _, rfl, hs⟩
    · split
      · exact ⟨_, _, rfl, hs⟩
      · exact ⟨_, _, rfl, hs⟩
  obtain ⟨r, hr⟩ := Option.isSome_iff_exists.mp hfind
  rw [erase, hr]
  rfl

theorem tryInsert_length (handle : Handle) (h : Nat) (d : ClockCache) (alreadyMatches : Bool) :
    (tryInsert handle h d alreadyMatches).2.2.length = d.length := by
  have hbegin : (beginSlotInsert handle h d alreadyMatches).2.2.length = d.length := by
    simp only [beginSlotInsert]
    split
    · rfl
    · split
      · rfl
      · split
        · split <;> rfl
        · split <;> rfl
  simp only [tryInsert]
  split <;> exact hbegin

theorem doInsert_returns (hL : 0 < c.length) {handle : Handle}
    (h : Separate c.length handle.hashedKey) : (c.doInsert handle).isSome := by
  have hfind : (c.findSlot handle.hashedKey (insertMatch handle) (insertAbort handle)
      (insertUpdate handle) ⟨c, false⟩).isSome := by
    refine findSlot_returns (fun s => s.cache.length = c.length) hL h
      (fun j hj => ⟨fun s hs => ?_, fun s hs => ?_, fun isLast s hs => ?_⟩) _ rfl
    · exact ⟨_, _, rfl, (tryInsert_length ..).trans hs⟩
    · obtain ⟨d', heq, hlen⟩ := rollback_returns (k := handle.hashedKey) hj hs
      rw [insertAbort]
      split
      · exact ⟨true, ⟨d', s.alreadyMatches⟩, by rw [heq]; rfl, hlen⟩
      · exact ⟨_, _, rfl, hs⟩
    · obtain ⟨d', heq, hlen⟩ := rollback_returns (k := handle.hashedKey) hj hs
      rw [insertUpdate]
      split
      · exact ⟨⟨d', s.alreadyMatches⟩, by rw [heq]; rfl, hlen⟩
      · exact ⟨_, rfl, hs⟩
  obtain ⟨⟨e, s⟩, hs⟩ := Option.isSome_iff_exists.mp hfind
  rw [doInsert, hs]
  simp only [Option.bind_eq_bind, Option.bind_some]
  split <;> rfl

/-! ### Loops that do not -/

/-- A search that finds nothing, changes nothing and never comes to its first slot again. -/
theorem findSlotLoop_diverges {s : S}
    (hmatch : ∀ j, matchFn (c.visited k j).toNat s = some (false, s))
    (habort : ∀ j, abortFn (c.visited k j).toNat s = some (false, s))
    (hupdate : ∀ j, updateFn (c.visited k j).toNat false s = some s)
    (hnever : ∀ j, c.visited k (j + 1) ≠ c.modLength k.2) (fuel j : Nat) :
    findSlotLoop c.modLength (k.1 ||| 1) (c.modLength k.2) matchFn abortFn updateFn fuel
      (c.visited k j) s = none := by
  induction fuel generalizing j with
  | zero => rfl
  | succ fuel ih =>
    have hlast : (c.modLength (c.visited k j + (k.1 ||| 1)) == c.modLength k.2) = false := by
      rw [← visited_succ]
      exact beq_eq_false_iff_ne.mpr (hnever j)
    have hrest := ih (j + 1)
    rw [visited_succ] at hrest
    rw [findSlotLoop]
    simp only [hmatch j, habort j, hlast, hupdate j, Option.bind_eq_bind, Option.bind_some,
      Bool.false_eq_true, if_false]
    exact hrest

/-- A table with an entry of another key in every slot, none of which stops a search. -/
def occupied (length h0 : UInt64) : ClockCache :=
  {ClockCache.make ⟨0, length, 0, 0, 0⟩ with
    array := List.replicate length.toNat
      {(default : HandleImpl) with
        hashedKey := (h0 + 1, 0), metaWord := kStateVisible <<< kStateShift, displacements := 1}}

theorem slot_occupied (length h0 : UInt64) {i : Nat} (hi : i < length.toNat) :
    (occupied length h0).slot i = {(default : HandleImpl) with
      hashedKey := (h0 + 1, 0), metaWord := kStateVisible <<< kStateShift, displacements := 1} := by
  simp [slot, occupied, hi]

/-- A lookup takes a reference on such a slot and gives it back. -/
theorem lookupMatch_occupied (length h0 h1 : UInt64) {i : Nat} (hi : i < length.toNat) :
    lookupMatch (h0, h1) i (occupied length h0) = some (false, occupied length h0) := by
  have hsize : i < (occupied length h0).array.length := by
    rw [occupied, List.length_replicate]
    exact hi
  have hkey : ((h0 + 1, 0) : UniqueId64x2) ≠ (h0, h1) := by
    intro heq
    have hone : h0 + 1 = h0 := congrArg Prod.fst heq
    grind
  have hback : ((occupied length h0).refIncr i).2.refDecr i = occupied length h0 := by
    rw [refIncr, refDecr, slot_setMeta_self _ _ hsize, setMeta_setMeta _ _ _ hsize,
      UInt64.add_sub_cancel]
    exact setMeta_same _ hsize
  have hslot : ((occupied length h0).refIncr i).2.slot i =
      {(occupied length h0).slot i with
        metaWord := ((occupied length h0).slot i).metaWord + kRefIncrement} :=
    slot_setMeta_self _ _ hsize
  rw [lookupMatch]
  simp only [hslot, hback]
  simp only [refIncr, slot_occupied length h0 hi, hkey, if_false]
  rfl

theorem lookup_diverges {length h0 h1 : UInt64} (hL : 0 < length)
    (h : ¬ Separate length (h0, h1)) : (occupied length h0).lookup (h0, h1) = none := by
  have hlength : (occupied length h0).length = length := make_length hL
  have hpos : 0 < (occupied length h0).length := by
    rw [hlength]
    exact hL
  have hvisited : ∀ j, ((occupied length h0).visited (h0, h1) j).toNat < length.toNat :=
    fun j => Nat.lt_of_lt_of_eq (visited_lt hpos j) (congrArg UInt64.toNat hlength)
  refine findSlotLoop_diverges ?_ ?_ (fun _ => rfl) ?_ _ 0
  · exact fun j => lookupMatch_occupied length h0 _ (hvisited j)
  · intro j
    rw [notDisplaced, slot_occupied length h0 (hvisited j)]
    rfl
  · exact visited_ne_first hpos (hlength.symm ▸ h)

/-- **When the probe loops end.** For a length and a hashed key, the loops of the three
operations end on every table if and only if the walk they take is separate. -/
theorem probing_ends_iff (length h0 h1 : UInt64) (hL : 0 < length) :
    (∀ c : ClockCache, c.length = length →
      (c.lookup (h0, h1)).isSome ∧ (c.erase (h0, h1)).isSome ∧
      ∀ handle : Handle, handle.hashedKey = (h0, h1) → (c.doInsert handle).isSome) ↔
    Separate length (h0, h1) := by
  constructor
  · intro hends
    by_contra h
    have hsome := (hends (occupied length h0) (make_length hL)).1
    rw [lookup_diverges hL h] at hsome
    cases hsome
  · rintro h c rfl
    refine ⟨lookup_returns hL h, erase_returns hL h, fun handle hkey => doInsert_returns hL ?_⟩
    rw [hkey]
    exact h

/-- Five slots and a sum that wraps: from slot 0 to slot 3 and back again. -/
theorem probing_ends_five :
    ((occupied 5 18446744073709551613).lookup (18446744073709551613, 0)).isSome ∧
      ((occupied 5 18446744073709551613).erase (18446744073709551613, 0)).isSome ∧
      ((occupied 5 18446744073709551613).doInsert
        {(default : Handle) with hashedKey := (18446744073709551613, 0)}).isSome := by
  obtain ⟨hlookup, herase, hinsert⟩ :=
    (probing_ends_iff 5 18446744073709551613 0 (by decide)).mpr (by decide)
      (occupied 5 18446744073709551613) rfl
  exact ⟨hlookup, herase, hinsert _ rfl⟩

/-- A key whose sums never wrap and any key in a table of a power of two slots. -/
theorem separate_of_rotates {length : UInt64} (hL : 0 < length) (k : UniqueId64x2)
    (h : (k.1 ||| 1).toNat + length.toNat ≤ 2 ^ 64 ∨ length.toNat ∣ 2 ^ 64) : Separate length k :=
  WrapStep.separate_of_rotates (Nat.mod_lt _ hL) h

/-- Three slots, the largest increment, and a search that starts at slot 2: it goes on to
slot 1 and to slot 0, whose successor is slot 0. -/
theorem lookup_diverges_three :
    (occupied 3 18446744073709551615).lookup (18446744073709551615, 2) = none := by
  decide

end HyperCache.Clock.ClockCache
