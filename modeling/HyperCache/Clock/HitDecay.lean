import HyperCache.Clock.Table
import HyperCache.Lib.Stepwise

/-! How fast `Evict` lowers the hit counts.

`Evict` is to add up the hit counts it leaves on the entries it comes to and to make its
decrement larger where they are high. `ClockUpdate` moves its pointer to the sum and not the
sum, so every new decrement is the smallest there is. `evictLoopLog` is the loop of `Evict`
with the sum kept beside it; `Hand` is what the clock hand sees of the table, and tells from
the state before the call how large each of these sums is. The decrement is right where none
of them asks for more than the smallest (`adapts_iff`). -/
namespace HyperCache.Clock

/-- What a sum of hit counts asks for. -/
def askedDelta (left hitDecrDeltaMin : Int) : Int :=
  max hitDecrDeltaMin (max 1 (left / kDecrHitPerEntryCount))

/-- Visible and unpinned, with hits to take. -/
def Decrements (w : UInt64) : Prop := state w = kStateVisible ∧ ¬ refCount w > 0 ∧ hitCount w > 0

instance : DecidablePred Decrements :=
  fun w => inferInstanceAs (Decidable (state w = kStateVisible ∧ ¬ refCount w > 0 ∧ hitCount w > 0))

/-- The hit count a decrement leaves. -/
def hitsLeft (delta : Int) (w : UInt64) : Int := max (hitCount w - delta) 0

/-- The word `ClockUpdate` writes then. -/
def decremented (delta : Int) (w : UInt64) : UInt64 :=
  (kStateVisible <<< kStateShift) ||| (w &&& kHitBitMask) |||
    (UInt64.ofInt (hitsLeft delta w) <<< kHitCounterShift)

/-- A new decrement, and the hit counts left since the one before. -/
structure Recomputation where
  left : Int
  delta : Int
  deriving DecidableEq

namespace ClockCache

/-! ### The loop with the sum beside it -/

def watchSlot (w : EvictState × Int) (h : Nat) : Option (EvictState × Int) := do
  let metaWord := (w.1.cache.slot h).metaWord
  let s ← evictSlot w.1 h
  return (s, if Decrements metaWord then w.2 + hitsLeft w.1.hitDecrDelta metaWord else w.2)

def watchStep (w : EvictState × Int) (oldClockPointer : UInt64) : Option (EvictState × Int) :=
  [0, 1, 2, 3].foldlM
    (fun w i => watchSlot w (w.1.cache.modLength (oldClockPointer + i)).toNat) w

/-- The clock pointer moved for the next step. -/
def advance (s : EvictState) : EvictState :=
  {s with cache := {s.cache with clockPointer := s.cache.clockPointer + kStepSize}}

/-- `evictLoop`, with each recomputation it makes. -/
def evictLoopLog (requestedCharge maxClockPointer : UInt64) :
    Nat → UInt64 → Int → EvictState × Int → List Recomputation × Option EvictState
  | 0, _, _, _ => ([], none)
  | fuel + 1, oldClockPointer, offset, w =>
    match watchStep w oldClockPointer with
    | none => ([], none)
    | some (s, left) =>
      if s.data.freedCharge ≥ requestedCharge then ([], some s)
      else if oldClockPointer ≥ maxClockPointer then ([], some s)
      else if isEvictionEffortExceeded s.data then ([], some s)
      else
        let offset := offset + 4
        if offset + 4 ≥ kDecrHitPerEntryCount then
          let delta := newHitDecrDelta s.hitCountSum s.cache.hitDecrDeltaMin
          let (log, result) := evictLoopLog requestedCharge maxClockPointer fuel s.cache.clockPointer offset
            ({advance s with hitDecrDelta := delta, hitCountSum := 0}, 0)
          (⟨left, delta⟩ :: log, result)
        else evictLoopLog requestedCharge maxClockPointer fuel s.cache.clockPointer offset (advance s, left)

/-- The recomputations of a call in its first `fuel` steps. -/
def recomputations (c : ClockCache) (requestedCharge : UInt64) (fuel : Nat) : List Recomputation :=
  (evictLoopLog requestedCharge (c.clockPointer + kMaxCountdown * c.length) fuel c.clockPointer 0
    (⟨{c with clockPointer := c.clockPointer + kStepSize}, {}, 0, c.hitDecrDelta⟩, 0)).1

/-- Each decrement a call computes is the one its sum asks for, and the last is stored. -/
def Adapts (c : ClockCache) (requestedCharge : UInt64) : Prop :=
  (∀ fuel, ∀ r ∈ c.recomputations requestedCharge fuel, r.delta = askedDelta r.left c.hitDecrDeltaMin) ∧
  ∀ data d, c.evict requestedCharge = some (data, d) →
    d.hitDecrDelta =
      ((c.recomputations requestedCharge (2 ^ 62 + 1)).map (·.delta)).getLastD c.hitDecrDelta

theorem watchStep_fst (w : EvictState × Int) (p : UInt64) :
    (watchStep w p).map Prod.fst = evictStep w.1 p := by
  have hslot : ∀ (w : EvictState × Int) (s : EvictState) (i : UInt64), s = w.1 →
      Option.Rel (fun w s => s = w.1)
        (watchSlot w (w.1.cache.modLength (p + i)).toNat) (evictSlot s (s.cache.modLength (p + i)).toNat) := by
    rintro w s i rfl
    rw [watchSlot]
    cases evictSlot w.1 (w.1.cache.modLength (p + i)).toNat with
    | none => exact .none
    | some s => exact .some rfl
  have hrel : Option.Rel (fun w s => s = w.1) (watchStep w p) (evictStep w.1 p) :=
    Stepwise.run_rel hslot rfl
  revert hrel
  cases watchStep w p with
  | none =>
    cases evictStep w.1 p with
    | none => exact fun _ => rfl
    | some s => exact nofun
  | some w' =>
    cases evictStep w.1 p with
    | none => exact nofun
    | some s => exact fun hrel => congrArg some (Option.rel_some_some.mp hrel).symm

/-- The loop does what it does without the sum. -/
theorem evictLoopLog_snd (requested pointerEnd : UInt64) (fuel : Nat) (pointer : UInt64) (offset : Int)
    (w : EvictState × Int) :
    (evictLoopLog requested pointerEnd fuel pointer offset w).2 =
      evictLoop requested pointerEnd fuel pointer offset w.1 := by
  induction fuel generalizing pointer offset w with
  | zero => rfl
  | succ fuel ih =>
    rw [evictLoopLog, evictLoop, ← watchStep_fst]
    cases watchStep w pointer with
    | none => rfl
    | some w' =>
      obtain ⟨s, left⟩ := w'
      simp only [Option.map_some, Option.bind_eq_bind, Option.bind_some]
      split
      · rfl
      · split
        · rfl
        · split
          · rfl
          · split
            · exact ih _ _ _
            · exact ih _ _ _

theorem evictSlot_delta {s t : EvictState} {i : Nat} (hs : evictSlot s i = some t) :
    t.hitDecrDelta = s.hitDecrDelta := by
  simp only [evictSlot, Option.bind_eq_bind, Option.pure_def] at hs
  split at hs
  · obtain ⟨d, -, ht⟩ := Option.bind_eq_some_iff.mp hs
    cases ht
    rfl
  · cases hs
    rfl

theorem evictStep_delta {s t : EvictState} {p : UInt64} (hs : evictStep s p = some t) :
    t.hitDecrDelta = s.hitDecrDelta :=
  @Stepwise.run_keeps _ _ _ _ _ _ (fun _ _ => True) (fun u => u.hitDecrDelta = s.hitDecrDelta)
    (fun _ _ _ hu _ hslot => (evictSlot_delta hslot).trans hu) rfl
    (Stepwise.along_of_mem (fun _ _ _ => trivial) s) hs

section Unfold
variable {requested pointerEnd p : UInt64} {fuel : Nat} {offset : Int} {w : EvictState × Int}
  {s : EvictState} {left : Int} (hw : watchStep w p = some (s, left))
include hw

theorem evictLoopLog_stop
    (hstop : s.data.freedCharge ≥ requested ∨ p ≥ pointerEnd ∨ isEvictionEffortExceeded s.data = true) :
    evictLoopLog requested pointerEnd (fuel + 1) p offset w = ([], some s) := by
  simp only [evictLoopLog, hw]
  split
  · rfl
  · split
    · rfl
    · rename_i henough hend
      rw [if_pos ((hstop.resolve_left henough).resolve_left hend)]

variable
  (hgo : ¬ s.data.freedCharge ≥ requested ∧ ¬ p ≥ pointerEnd ∧ ¬ isEvictionEffortExceeded s.data = true)
include hgo

theorem evictLoopLog_renew (hrec : offset + 4 + 4 ≥ kDecrHitPerEntryCount) (delta : Int)
    (hdelta : newHitDecrDelta s.hitCountSum s.cache.hitDecrDeltaMin = delta) :
    evictLoopLog requested pointerEnd (fuel + 1) p offset w =
      (⟨left, delta⟩ :: (evictLoopLog requested pointerEnd fuel s.cache.clockPointer (offset + 4)
          ({advance s with hitDecrDelta := delta, hitCountSum := 0}, 0)).1,
        (evictLoopLog requested pointerEnd fuel s.cache.clockPointer (offset + 4)
          ({advance s with hitDecrDelta := delta, hitCountSum := 0}, 0)).2) := by
  subst hdelta
  simp only [evictLoopLog, hw]
  rw [if_neg hgo.1, if_neg hgo.2.1, if_neg hgo.2.2, if_pos hrec]

theorem evictLoopLog_keep (hno : ¬ offset + 4 + 4 ≥ kDecrHitPerEntryCount) :
    evictLoopLog requested pointerEnd (fuel + 1) p offset w =
      evictLoopLog requested pointerEnd fuel s.cache.clockPointer (offset + 4) (advance s, left) := by
  simp only [evictLoopLog, hw]
  rw [if_neg hgo.1, if_neg hgo.2.1, if_neg hgo.2.2, if_neg hno]

end Unfold

/-- The loop ends with the last decrement it computed. -/
theorem evictLoopLog_delta (requested pointerEnd : UInt64) (fuel : Nat) (pointer : UInt64)
    (offset : Int) (w : EvictState × Int) (s : EvictState)
    (hs : (evictLoopLog requested pointerEnd fuel pointer offset w).2 = some s) :
    s.hitDecrDelta = ((evictLoopLog requested pointerEnd fuel pointer offset w).1.map
      (·.delta)).getLastD w.1.hitDecrDelta := by
  induction fuel generalizing pointer offset w with
  | zero => cases hs
  | succ fuel ih =>
    cases hw : watchStep w pointer with
    | none =>
      rw [evictLoopLog, hw] at hs
      cases hs
    | some w' =>
      obtain ⟨t, left⟩ := w'
      have hdelta : t.hitDecrDelta = w.1.hitDecrDelta := by
        have hstep := watchStep_fst w pointer
        rw [hw] at hstep
        exact evictStep_delta hstep.symm
      by_cases hgo : ¬ t.data.freedCharge ≥ requested ∧ ¬ pointer ≥ pointerEnd ∧
          ¬ isEvictionEffortExceeded t.data = true
      · by_cases hrec : offset + 4 + 4 ≥ kDecrHitPerEntryCount
        · rw [evictLoopLog_renew hw hgo hrec _ rfl] at hs ⊢
          rw [List.map_cons, List.getLastD_cons]
          exact ih _ _ _ hs
        · rw [evictLoopLog_keep hw hgo hrec] at hs ⊢
          rw [← hdelta]
          exact ih _ _ _ hs
      · have hstop : t.data.freedCharge ≥ requested ∨ pointer ≥ pointerEnd ∨
            isEvictionEffortExceeded t.data = true := by
          simpa only [not_and_or, not_not] using hgo
        rw [evictLoopLog_stop hw hstop] at hs ⊢
        cases hs
        exact hdelta

/-! ### What the hand sees -/

/-- The words of the table and the locals of `Evict`, with the sum kept. -/
structure Hand where
  word : Nat → UInt64
  data : EvictionData
  left : Int

variable {c d : ClockCache} {pointer : UInt64} {delta : Int} {x : Hand} {w : EvictState × Int}

/-- One slot under the hand. An entry it takes is rolled back, which must end. -/
def visit (c : ClockCache) (delta : Int) (x : Hand) (i : Nat) : Option Hand :=
  let metaWord := x.word i
  if state metaWord &&& kStateShareableBit = 0 then some x
  else if refCount metaWord > 0 then
    some {x with data := {x.data with seenPinnedCount := x.data.seenPinnedCount + 1}}
  else if state metaWord = kStateVisible ∧ hitCount metaWord > 0 then
    some {x with
      word := Function.update x.word i (decremented delta metaWord)
      left := x.left + hitsLeft delta metaWord}
  else if (c.rollback (c.slot i).hashedKey i).isSome then
    some {x with
      word := Function.update x.word i 0
      data := {x.data with
        freedCharge := x.data.freedCharge + (c.slot i).totalCharge
        freedCount := x.data.freedCount + 1}}
  else none

def visitStep (c : ClockCache) (delta : Int) (p : UInt64) (x : Hand) : Option Hand :=
  [0, 1, 2, 3].foldlM (fun x i => c.visit delta x (c.modLength (p + i)).toNat) x

/-- The cache in the middle of a call shows the hand these words. -/
structure Shows (c : ClockCache) (word : Nat → UInt64) (pointer : UInt64) (d : ClockCache) : Prop where
  length : d.length = c.length
  size : d.array.length = c.array.length
  minimum : d.hitDecrDeltaMin = c.hitDecrDeltaMin
  pointer : d.clockPointer = pointer
  key : ∀ j, (d.slot j).hashedKey = (c.slot j).hashedKey
  charge : ∀ j, (d.slot j).totalCharge = (c.slot j).totalCharge
  word : ∀ j, (d.slot j).metaWord = word j

/-- The loop and the hand stand at the same place. -/
structure InStep (c : ClockCache) (pointer : UInt64) (delta : Int) (x : Hand) (w : EvictState × Int) :
    Prop where
  shows : Shows c x.word pointer w.1.cache
  data : w.1.data = x.data
  sum : w.1.hitCountSum = 0
  decr : w.1.hitDecrDelta = delta
  left : w.2 = x.left

/-! ### Writing a slot -/

theorem size_of_word {i : Nat} (h : (d.slot i).metaWord ≠ 0) : i < d.array.length := by
  refine Nat.lt_of_not_le fun hle => h ?_
  rw [slot, List.getD_eq_default _ _ hle]
  rfl

def words (c : ClockCache) (i : Nat) : UInt64 := (c.slot i).metaWord

theorem Shows.refl (c : ClockCache) : Shows c c.words c.clockPointer c :=
  ⟨rfl, rfl, rfl, rfl, fun _ => rfl, fun _ => rfl, fun _ => rfl⟩

theorem Shows.trans {word word' : Nat → UInt64} {pointer' : UInt64} {e : ClockCache}
    (h : Shows c word pointer d) (h' : Shows d word' pointer' e) : Shows c word' pointer' e where
  length := h'.length.trans h.length
  size := h'.size.trans h.size
  minimum := h'.minimum.trans h.minimum
  pointer := h'.pointer
  key j := (h'.key j).trans (h.key j)
  charge j := (h'.charge j).trans (h.charge j)
  word := h'.word

theorem Shows.words_eq {word : Nat → UInt64} (h : Shows c word pointer d) : d.words = word := funext h.word

/-- A slot with the same key and charge in place of its old one. -/
theorem shows_setSlot (c : ClockCache) (i : Nat) (h : HandleImpl) (hkey : h.hashedKey = (c.slot i).hashedKey)
    (hcharge : h.totalCharge = (c.slot i).totalCharge) (hi : i < c.array.length) :
    Shows c (Function.update c.words i h.metaWord) c.clockPointer (c.setSlot i h) := by
  have hslot : ∀ j, (c.setSlot i h).slot j = if j = i then h else c.slot j :=
    fun j => slot_setSlot c j h hi
  refine ⟨rfl, setSlot_size c i h, rfl, rfl, fun j => ?_, fun j => ?_, fun j => ?_⟩
  · rw [hslot]
    split
    · rename_i heq
      rw [heq, hkey]
    · rfl
  · rw [hslot]
    split
    · rename_i heq
      rw [heq, hcharge]
    · rfl
  · rw [hslot, Function.update_apply]
    split
    · rfl
    · rfl

/-- A slot that keeps its word too, or one outside the array. -/
theorem shows_setSlot_same (c : ClockCache) (i : Nat) (h : HandleImpl)
    (hkey : h.hashedKey = (c.slot i).hashedKey) (hcharge : h.totalCharge = (c.slot i).totalCharge)
    (hword : h.metaWord = (c.slot i).metaWord) : Shows c c.words c.clockPointer (c.setSlot i h) := by
  by_cases hi : i < c.array.length
  · have hshows := shows_setSlot c i h hkey hcharge hi
    rwa [hword, show (c.slot i).metaWord = c.words i from rfl, Function.update_eq_self] at hshows
  · have hnone : c.setSlot i h = c := by
      rw [setSlot, List.set_eq_of_length_le (Nat.le_of_not_lt hi)]
    rw [hnone]
    exact Shows.refl c

theorem shows_setMeta (c : ClockCache) {i : Nat} (v : UInt64) (hi : i < c.array.length) :
    Shows c (Function.update c.words i v) c.clockPointer (c.setMeta i v) :=
  shows_setSlot c i {c.slot i with metaWord := v} rfl rfl hi

theorem shows_freeData (c : ClockCache) (i : Nat) : Shows c c.words c.clockPointer (c.freeData i) := by
  simp only [freeData]
  split
  · have h := shows_setSlot_same c i {c.slot i with value := 0} rfl rfl rfl
    exact ⟨h.length, h.size, h.minimum, h.pointer, h.key, h.charge, h.word⟩
  · exact Shows.refl c

theorem rollbackLoop_shows {increment : UInt64} {i fuel : Nat} {current : UInt64}
    (hrun : rollbackLoop increment i fuel current c = some d) : Shows c c.words c.clockPointer d := by
  induction fuel generalizing c current with
  | zero => cases hrun
  | succ fuel ih =>
    rw [rollbackLoop] at hrun
    split at hrun
    · cases hrun
      exact Shows.refl _
    · have hone : Shows c c.words c.clockPointer (c.displace current.toNat (-1)) :=
        shows_setSlot_same c current.toNat _ rfl rfl rfl
      have hrest := ih hrun
      rw [hone.words_eq] at hrest
      exact hone.trans hrest

/-- Whether a rollback ends is a matter of the length and the key. -/
theorem rollbackLoop_isSome {increment : UInt64} {i fuel : Nat} {current : UInt64}
    (hlen : d.length = c.length) : (rollbackLoop increment i fuel current d).isSome =
      (rollbackLoop increment i fuel current c).isSome := by
  induction fuel generalizing c d current with
  | zero => rfl
  | succ fuel ih =>
    rw [rollbackLoop, rollbackLoop]
    split
    · rfl
    · rw [modLength, modLength, hlen]
      exact ih hlen

theorem rollback_isSome {k : UniqueId64x2} {i : Nat} (hlen : d.length = c.length) :
    (d.rollback k i).isSome = (c.rollback k i).isSome := by
  rw [rollback, rollback, modLength, modLength, hlen]
  exact rollbackLoop_isSome hlen

/-! ### The loop and the hand in step -/

/-- **One slot**: the code and the hand do the same to the word. -/
theorem InStep.slot (h : InStep c pointer delta x w) (i : Nat) :
    Option.Rel (InStep c pointer delta) (c.visit delta x i) (watchSlot w i) := by
  obtain ⟨⟨cache, data, sum, decr⟩, left⟩ := w
  obtain ⟨hshows, hdata, hsum, hdelta, hleft⟩ := h
  simp only at hshows hdata hsum hdelta hleft
  subst hdata hsum hdelta hleft
  have hword : (cache.slot i).metaWord = x.word i := hshows.word i
  simp only [visit, watchSlot, evictSlot, clockUpdate, hword]
  by_cases hshare : state (x.word i) &&& kStateShareableBit = 0
  · have hnot : ¬ Decrements (x.word i) := by
      rintro ⟨hvisible, -⟩
      rw [hvisible] at hshare
      revert hshare
      decide
    rw [if_pos hshare, if_pos hshare]
    simp only [Bool.false_eq_true, if_false, hnot]
    exact .some ⟨hshows, rfl, rfl, rfl, rfl⟩
  rw [if_neg hshare, if_neg hshare]
  by_cases hpinned : refCount (x.word i) > 0
  · have hnot : ¬ Decrements (x.word i) := fun hdec => hdec.2.1 hpinned
    rw [if_pos hpinned, if_pos hpinned]
    simp only [Bool.false_eq_true, if_false, hnot]
    exact .some ⟨hshows, rfl, rfl, rfl, rfl⟩
  rw [if_neg hpinned, if_neg hpinned]
  have hi : i < cache.array.length := by
    refine size_of_word fun hzero => hshare ?_
    rw [← hword, hzero]
    decide
  by_cases hhits : state (x.word i) = kStateVisible ∧ hitCount (x.word i) > 0
  · have hdec : Decrements (x.word i) := ⟨hhits.1, hpinned, hhits.2⟩
    rw [if_pos hhits, if_pos hhits]
    simp only [Bool.false_eq_true, if_false, hdec, if_true]
    have hset := shows_setMeta cache (decremented decr (x.word i)) hi
    rw [hshows.words_eq, hshows.pointer] at hset
    exact .some ⟨hshows.trans hset, rfl, rfl, rfl, rfl⟩
  · have hnot : ¬ Decrements (x.word i) := fun hdec => hhits ⟨hdec.1, hdec.2.2⟩
    rw [if_neg hhits, if_neg hhits]
    simp only [if_true, hnot, if_false]
    have hset := hshows.trans (hshows.pointer ▸ shows_setMeta cache
      ((kStateConstruction <<< kStateShift) ||| (x.word i &&& kHitBitMask)) hi)
    generalize cache.setMeta i ((kStateConstruction <<< kStateShift) ||| (x.word i &&& kHitBitMask)) = owned
      at hset ⊢
    rw [hset.key i, hset.charge i, ← rollback_isSome hset.length]
    cases hback : owned.rollback (c.slot i).hashedKey i with
    | none =>
      simp only [Option.isSome_none, Bool.false_eq_true, if_false]
      exact .none
    | some d =>
      simp only [Option.isSome_some, if_true]
      have hrolled : Shows c owned.words owned.clockPointer d := hset.trans (rollbackLoop_shows hback)
      rw [hset.words_eq, hset.pointer] at hrolled
      have hfreed : Shows c d.words d.clockPointer (d.freeData i) := hrolled.trans (shows_freeData d i)
      rw [hrolled.words_eq, hrolled.pointer] at hfreed
      have hi' : i < (d.freeData i).array.length := by
        rw [hfreed.size, ← hshows.size]
        exact hi
      have hgone := hfreed.trans (shows_setMeta (d.freeData i) 0 hi')
      rw [hfreed.words_eq, hfreed.pointer, Function.update_idem, hshows.words_eq] at hgone
      exact .some ⟨hgone, rfl, rfl, rfl, rfl⟩

theorem InStep.step (h : InStep c pointer delta x w) (p : UInt64) :
    Option.Rel (InStep c pointer delta) (c.visitStep delta p x) (watchStep w p) := by
  refine Stepwise.run_rel (fun x w i hin => ?_) h
  rw [modLength, modLength, hin.shows.length]
  exact hin.slot _

/-! ### The hand along a call -/

/-- The clock pointer from which a step of a call starts. -/
def position (c : ClockCache) (t : Nat) : UInt64 := c.clockPointer + kStepSize * UInt64.ofNat t

/-- After this many steps the decrement is computed anew. -/
def Recomputes (t : Nat) : Prop := (4 * t + 4 : Int) ≥ kDecrHitPerEntryCount

instance : DecidablePred Recomputes :=
  fun t => inferInstanceAs (Decidable ((4 * t + 4 : Int) ≥ kDecrHitPerEntryCount))

/-- The smallest decrement there is to compute. -/
def leastDelta (c : ClockCache) : Int := max 1 c.hitDecrDeltaMin

def deltaAt (c : ClockCache) (t : Nat) : Int := if Recomputes t then c.leastDelta else c.hitDecrDelta

def Hand.restart (x : Hand) (t : Nat) : Hand := {x with left := if Recomputes t then 0 else x.left}

/-- What the hand sees after `t` steps, with the hit counts left since the last time the
decrement was computed. -/
def handAfter (c : ClockCache) : Nat → Option Hand
  | 0 => some ⟨c.words, {}, 0⟩
  | t + 1 => do
    let x ← c.handAfter t
    c.visitStep (c.deltaAt t) (c.position t) (x.restart t)

/-- The call goes on after the step from position `t`. -/
def Continues (c : ClockCache) (requestedCharge : UInt64) (t : Nat) (x : Hand) : Prop :=
  ¬ x.data.freedCharge ≥ requestedCharge ∧
    ¬ c.position t ≥ c.clockPointer + kMaxCountdown * c.length ∧
    ¬ isEvictionEffortExceeded x.data = true

/-- The call takes more than `t` steps. -/
def GoesOn (c : ClockCache) (requestedCharge : UInt64) (t : Nat) : Prop :=
  ∀ u < t, ∃ x, c.handAfter (u + 1) = some x ∧ c.Continues requestedCharge u x

/-- Whenever the call comes to compute the decrement anew, the hit counts left ask for no
more than the smallest. -/
def Modest (c : ClockCache) (requestedCharge : UInt64) : Prop :=
  ∀ t x, Recomputes t → c.GoesOn requestedCharge t → c.handAfter t = some x →
    x.left < kDecrHitPerEntryCount * (c.leastDelta + 1)

theorem position_zero (c : ClockCache) : c.position 0 = c.clockPointer := by
  simp [position]

theorem position_succ (c : ClockCache) (t : Nat) : c.position (t + 1) = c.position t + kStepSize := by
  rw [position, position, UInt64.ofNat_add, UInt64.mul_add, ← UInt64.add_assoc]
  rfl

theorem GoesOn.succ {requested : UInt64} {t : Nat} (h : c.GoesOn requested t)
    (hx : c.handAfter (t + 1) = some x) (hgo : c.Continues requested t x) : c.GoesOn requested (t + 1) := by
  intro u hu
  rcases Nat.lt_succ_iff_lt_or_eq.mp hu with hlt | rfl
  · exact h u hlt
  · exact ⟨x, hx, hgo⟩

theorem handAfter_succ {t : Nat} (hx : c.handAfter t = some x) :
    c.handAfter (t + 1) = c.visitStep (c.deltaAt t) (c.position t) (x.restart t) := by
  rw [handAfter, hx]
  rfl

/-- The sum that `Evict` itself has is zero. -/
theorem newHitDecrDelta_zero (c : ClockCache) : newHitDecrDelta 0 c.hitDecrDeltaMin = c.leastDelta := rfl

section Round
variable {t : Nat} {s : EvictState} {left : Int} (h : InStep c (c.position (t + 1)) (c.deltaAt t) x (s, left))
include h

theorem InStep.advance : Shows c x.word (c.position (t + 1 + 1)) (advance s).cache := by
  obtain ⟨hlength, hsize, hminimum, hpointer, hkey, hcharge, hword⟩ := h.shows
  refine ⟨hlength, hsize, hminimum, ?_, hkey, hcharge, hword⟩
  rw [position_succ, ← hpointer]
  rfl

/-- A new round that keeps the decrement. -/
theorem InStep.keep (hno : ¬ Recomputes (t + 1)) :
    InStep c (c.position (t + 1 + 1)) (c.deltaAt (t + 1)) (x.restart (t + 1))
      (ClockCache.advance s, left) := by
  have hno' : ¬ Recomputes t := fun hrec => hno (by unfold Recomputes at hrec ⊢; push_cast; omega)
  refine ⟨h.advance, h.data, h.sum, ?_, ?_⟩
  · rw [deltaAt, if_neg hno]
    exact h.decr.trans (if_neg hno')
  · rw [Hand.restart, if_neg hno]
    exact h.left

/-- A new round that computes it. -/
theorem InStep.renew (hrec : Recomputes (t + 1)) :
    InStep c (c.position (t + 1 + 1)) (c.deltaAt (t + 1)) (x.restart (t + 1))
      ({ClockCache.advance s with hitDecrDelta := c.leastDelta, hitCountSum := 0}, 0) := by
  refine ⟨h.advance, h.data, rfl, ?_, ?_⟩
  · rw [deltaAt, if_pos hrec]
  · rw [Hand.restart, if_pos hrec]

end Round

/-- **The loop computes the decrement where the hand does**, and always to the smallest. -/
theorem InStep.mem_log {requested : UInt64} {t : Nat} (fuel : Nat) (hgoes : c.GoesOn requested t)
    (hx : c.handAfter t = some x)
    (h : InStep c (c.position (t + 1)) (c.deltaAt t) (x.restart t) w) (r : Recomputation) :
    r ∈ (evictLoopLog requested (c.clockPointer + kMaxCountdown * c.length) fuel (c.position t) (4 * t) w).1 ↔
      ∃ u y, t < u ∧ u ≤ t + fuel ∧ Recomputes u ∧ c.GoesOn requested u ∧ c.handAfter u = some y ∧
        r = ⟨y.left, c.leastDelta⟩ := by
  induction fuel generalizing t x w with
  | zero =>
    refine iff_of_false List.not_mem_nil ?_
    rintro ⟨u, y, hlt, hle, -⟩
    omega
  | succ fuel ih =>
    have hstep := h.step (c.position t)
    rw [← handAfter_succ hx] at hstep
    -- a call that does not go on from here computes nothing more
    have hover : (∀ y, c.handAfter (t + 1) = some y → ¬ c.Continues requested t y) →
        ¬ ∃ u y, t < u ∧ u ≤ t + (fuel + 1) ∧ Recomputes u ∧ c.GoesOn requested u ∧
          c.handAfter u = some y ∧ r = ⟨y.left, c.leastDelta⟩ := by
      rintro hstop ⟨u, -, hlt, -, -, hgo, -⟩
      obtain ⟨y, hy, hcontinues⟩ := hgo t hlt
      exact hstop y hy hcontinues
    revert hstep
    cases hafter : c.handAfter (t + 1) with
    | none =>
      cases hw : watchStep w (c.position t) with
      | none =>
        rw [evictLoopLog, hw]
        refine fun _ => iff_of_false List.not_mem_nil (hover fun y hy => ?_)
        cases hafter.symm.trans hy
      | some w' => exact nofun
    | some y =>
      cases hw : watchStep w (c.position t) with
      | none => exact nofun
      | some w' =>
        intro hstep
        have hin := Option.rel_some_some.mp hstep
        obtain ⟨s, left⟩ := w'
        have hdata : s.data = y.data := hin.data
        by_cases hgo : c.Continues requested t y
        · have hgoes' := hgoes.succ hafter hgo
          rw [Continues, ← hdata] at hgo
          have hpointer : s.cache.clockPointer = c.position (t + 1) := hin.shows.pointer
          have hdelta : newHitDecrDelta s.hitCountSum s.cache.hitDecrDeltaMin = c.leastDelta := by
            rw [hin.sum, hin.shows.minimum, newHitDecrDelta_zero]
          have hoffset : (4 * t : Int) + 4 = 4 * (t + 1 : Nat) := by omega
          by_cases hrec : Recomputes (t + 1)
          · have hrest := ih hgoes' hafter (hin.renew hrec)
            have hleft : left = y.left := hin.left
            rw [evictLoopLog_renew hw hgo (hoffset ▸ hrec) _ hdelta, List.mem_cons, hpointer, hoffset,
              hrest, hleft]
            constructor
            · rintro (rfl | ⟨u, z, hlt, hle, hz⟩)
              · exact ⟨t + 1, y, by omega, by omega, hrec, hgoes', hafter, rfl⟩
              · exact ⟨u, z, by omega, by omega, hz⟩
            · rintro ⟨u, z, hlt, hle, hrecu, hgou, hz, rfl⟩
              rcases Nat.eq_or_lt_of_le hlt with rfl | hlt
              · cases hafter.symm.trans hz
                exact .inl rfl
              · exact .inr ⟨u, z, hlt, by omega, hrecu, hgou, hz, rfl⟩
          · have hrest := ih hgoes' hafter (hin.keep hrec)
            rw [evictLoopLog_keep hw hgo (hoffset ▸ hrec), hpointer, hoffset, hrest]
            constructor
            · rintro ⟨u, z, hlt, hle, hz⟩
              exact ⟨u, z, by omega, by omega, hz⟩
            · rintro ⟨u, z, hlt, hle, hrecu, hz⟩
              have hne : u ≠ t + 1 := fun heq => hrec (heq ▸ hrecu)
              exact ⟨u, z, by omega, by omega, hrecu, hz⟩
        · have hstop : s.data.freedCharge ≥ requested ∨ c.position t ≥ c.clockPointer + kMaxCountdown * c.length ∨
              isEvictionEffortExceeded s.data = true := by
            rw [hdata]
            simpa only [Continues, not_and_or, not_not] using hgo
          rw [evictLoopLog_stop hw hstop]
          refine iff_of_false List.not_mem_nil (hover fun y' hy => ?_)
          cases hafter.symm.trans hy
          exact hgo

/-- What the loop starts with. -/
theorem inStep_start (c : ClockCache) : InStep c (c.position (0 + 1)) (c.deltaAt 0)
    (Hand.restart ⟨c.words, {}, 0⟩ 0)
    (⟨{c with clockPointer := c.clockPointer + kStepSize}, {}, 0, c.hitDecrDelta⟩, 0) := by
  have hno : ¬ Recomputes 0 := by decide
  refine ⟨⟨rfl, rfl, rfl, ?_, fun _ => rfl, fun _ => rfl, fun _ => rfl⟩, rfl, rfl, ?_, ?_⟩
  · rw [position_succ, position_zero]
  · rw [deltaAt, if_neg hno]
  · rw [Hand.restart, if_neg hno]

theorem mem_recomputations {requested : UInt64} {fuel : Nat} (r : Recomputation) :
    r ∈ c.recomputations requested fuel ↔ ∃ t x, 0 < t ∧ t ≤ 0 + fuel ∧ Recomputes t ∧
      c.GoesOn requested t ∧ c.handAfter t = some x ∧ r = ⟨x.left, c.leastDelta⟩ := by
  have hgoes : c.GoesOn requested 0 := fun u hu => absurd hu (Nat.not_lt_zero u)
  have hlog := (inStep_start c).mem_log fuel hgoes rfl r
  rwa [position_zero] at hlog

theorem leastDelta_asked {left : Int} :
    c.leastDelta = askedDelta left c.hitDecrDeltaMin ↔ left < kDecrHitPerEntryCount * (c.leastDelta + 1) := by
  have hdiv : left / kDecrHitPerEntryCount ≤ c.leastDelta ↔
      left < kDecrHitPerEntryCount * (c.leastDelta + 1) := by
    rw [← Int.lt_add_one_iff, Int.ediv_lt_iff_lt_mul (by decide), Int.mul_comm]
  rw [← hdiv, leastDelta, askedDelta]
  omega

/-- **The decrement follows the hit counts where they ask for the smallest.** In any state
and for any request, every decrement `Evict` computes is the one the hit counts it has left
ask for, and the last is stored when it returns, if and only if none of these sums asks for
more than the smallest decrement there is. -/
theorem adapts_iff (c : ClockCache) (requestedCharge : UInt64) :
    c.Adapts requestedCharge ↔ c.Modest requestedCharge := by
  have hstored : ∀ data d, c.evict requestedCharge = some (data, d) → d.hitDecrDelta =
      ((c.recomputations requestedCharge (2 ^ 62 + 1)).map (·.delta)).getLastD c.hitDecrDelta := by
    intro data d hrun
    simp only [evict, Option.bind_eq_bind] at hrun
    obtain ⟨s, hloop, hd⟩ := Option.bind_eq_some_iff.mp hrun
    cases hd
    rw [← evictLoopLog_snd _ _ _ _ _
      (⟨{c with clockPointer := c.clockPointer + kStepSize}, {}, 0, c.hitDecrDelta⟩, 0)] at hloop
    exact evictLoopLog_delta _ _ _ _ _ _ s hloop
  constructor
  · rintro ⟨hright, -⟩ t x hrec hgoes hx
    have hpos : 0 < t := Nat.pos_of_ne_zero fun hzero => absurd hrec (by rw [hzero]; decide)
    have hmem : ⟨x.left, c.leastDelta⟩ ∈ c.recomputations requestedCharge t :=
      (mem_recomputations _).mpr ⟨t, x, hpos, by omega, hrec, hgoes, hx, rfl⟩
    exact leastDelta_asked.mp (hright t _ hmem)
  · intro hmodest
    refine ⟨fun fuel r hr => ?_, hstored⟩
    obtain ⟨t, x, -, -, hrec, hgoes, hx, rfl⟩ := (mem_recomputations r).mp hr
    exact leastDelta_asked.mpr (hmodest t x hrec hgoes hx)

/-! ### A large table of entries that were used -/

/-- Every slot holds an entry at home, looked up once since its insertion. -/
def used : ClockCache where
  capacity := 8192
  length := 8192
  occupancyLimit := 8192
  hitDecrDeltaMin := 1
  clockPointer := 0
  occupancy := 8192
  usage := 8192
  hitDecrDelta := 1
  array := (List.range 8192).map fun i =>
    {value := 1, delCb := 1, hashedKey := (0, UInt64.ofNat i), totalCharge := 1, metaWord := pack 7 0 4 0}
  deleted := []

/-- The hand has come to the first `q` slots and left three hits in each. -/
structure Passed (q : Nat) (x : Hand) : Prop where
  data : x.data = {}
  left : x.left = 3 * q
  word : ∀ j, q ≤ j → j < 8192 → x.word j = pack 7 0 4 0

theorem passed_zero (word : Nat → UInt64) (hword : ∀ j < 8192, word j = pack 7 0 4 0) :
    Passed 0 ⟨word, {}, 0⟩ :=
  ⟨rfl, rfl, fun j _ hj => hword j hj⟩

theorem Passed.slot {q : Nat} (h : Passed q x) (hq : q < 8192) :
    ∃ y, used.visit 1 x q = some y ∧ Passed (q + 1) y := by
  have hword := h.word q (Nat.le_refl q) hq
  refine ⟨{x with
    word := Function.update x.word q (decremented 1 (pack 7 0 4 0))
    left := x.left + hitsLeft 1 (pack 7 0 4 0)}, ?_, h.data, ?_, fun j hj hlt => ?_⟩
  · simp only [visit, hword]
    rw [if_neg (by decide), if_neg (by decide), if_pos (by decide)]
  · show x.left + hitsLeft 1 (pack 7 0 4 0) = _
    rw [h.left, show hitsLeft 1 (pack 7 0 4 0) = 3 from by decide]
    push_cast
    omega
  · show Function.update x.word q _ j = _
    rw [Function.update_of_ne (by omega)]
    exact h.word j (by omega) hlt

theorem used_position {t : Nat} (ht : t < 1249) : (used.position t).toNat = 4 * t := by
  show (0 + kStepSize * UInt64.ofNat t).toNat = _
  rw [UInt64.zero_add, UInt64.toNat_mul, UInt64.toNat_ofNat', show kStepSize.toNat = 4 from rfl]
  omega

theorem Passed.step {t : Nat} (h : Passed (4 * t) x) (ht : t < 1249) :
    ∃ y, used.visitStep 1 (used.position t) x = some y ∧ Passed (4 * (t + 1)) y := by
  have hplace : ∀ i : UInt64, i.toNat < 4 →
      (used.modLength (used.position t + i)).toNat = 4 * t + i.toNat := by
    intro i hi
    rw [modLength, UInt64.toNat_mod, UInt64.toNat_add, used_position ht, show used.length.toNat = 8192 from rfl]
    omega
  obtain ⟨x₁, heq₁, h₁⟩ := h.slot (by omega)
  obtain ⟨x₂, heq₂, h₂⟩ := h₁.slot (by omega)
  obtain ⟨x₃, heq₃, h₃⟩ := h₂.slot (by omega)
  obtain ⟨x₄, heq₄, h₄⟩ := h₃.slot (by omega)
  refine ⟨x₄, ?_, h₄⟩
  simp only [visitStep, List.foldlM_cons, List.foldlM_nil, hplace 0 (by decide), hplace 1 (by decide),
    hplace 2 (by decide), hplace 3 (by decide)]
  simp only [show (0 : UInt64).toNat = 0 from rfl, show (1 : UInt64).toNat = 1 from rfl,
    show (2 : UInt64).toNat = 2 from rfl, show (3 : UInt64).toNat = 3 from rfl, Nat.add_zero]
  simp only [heq₁, heq₂, heq₃, heq₄, Option.bind_eq_bind, Option.bind_some, Option.pure_def]

theorem used_words {i : Nat} (hi : i < 8192) : used.words i = pack 7 0 4 0 := by
  simp [words, slot, used, hi]

theorem used_passed (t : Nat) (ht : t ≤ 1249) : ∃ x, used.handAfter t = some x ∧ Passed (4 * t) x := by
  induction t with
  | zero =>
    exact ⟨⟨used.words, {}, 0⟩, rfl, passed_zero used.words fun j hj => used_words hj⟩
  | succ t ih =>
    obtain ⟨x, hx, h⟩ := ih (by omega)
    have hno : ¬ Recomputes t := by
      unfold Recomputes kDecrHitPerEntryCount
      omega
    obtain ⟨y, hy, h'⟩ := h.step (by omega)
    refine ⟨y, ?_, h'⟩
    rw [handAfter_succ hx, deltaAt, if_neg hno, Hand.restart, if_neg hno]
    exact hy

/-- By the first time the decrement is computed the entries are left with 14988 hits, which
ask for two at a time. -/
theorem used_not_adapts : ¬ used.Adapts 1 := by
  rw [adapts_iff]
  intro hmodest
  obtain ⟨x, hx, h⟩ := used_passed 1249 (by omega)
  have hgoes : used.GoesOn 1 1249 := by
    intro u hu
    obtain ⟨y, hy, hpassed⟩ := used_passed (u + 1) hu
    refine ⟨y, hy, ?_, ?_, ?_⟩
    · rw [hpassed.data]
      decide
    · intro hle
      have hle := UInt64.le_iff_toNat_le.mp hle
      rw [used_position hu, show (used.clockPointer + kMaxCountdown * used.length).toNat = 24576 from by decide] at hle
      omega
    · rw [hpassed.data]
      decide
  have hlt := hmodest 1249 x (by decide) hgoes hx
  rw [h.left] at hlt
  revert hlt
  decide

end ClockCache

end HyperCache.Clock
