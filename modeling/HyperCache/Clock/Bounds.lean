import HyperCache.Clock.Cache

/-! Every index into `array_`, checked.

The index of a slot is computed in four places: `FindSlot`, `Rollback`, `Evict` and the
destructor. Here they are executed with every remainder and every index checked
(`Checked`), their loops followed for as long as one likes (`Limits`). With a table of as
many slots as it takes remainders by, nothing is ever out of bounds, and what is executed
is the unchecked model (`Follows`); the constructor makes such a table exactly where the
length of a shard is not zero (`inBounds_iff`). -/
namespace HyperCache.Clock

/-- Why a checked execution has no result. -/
inductive Stop where
  /-- A loop went on for longer than it was followed. -/
  | cut
  | remainderByZero
  | outOfBounds (index : Nat)
  deriving DecidableEq

/-- For how many rounds the loops are followed. -/
structure Limits where
  probe : Nat
  hand : Nat

namespace Checked
open ClockCache

/-- `ModLength`. -/
def modLength (c : ClockCache) (x : UInt64) : Except Stop UInt64 :=
  if c.length = 0 then .error .remainderByZero else .ok (c.modLength x)

/-- The slot `&array_[i]`. -/
def slotAt (c : ClockCache) (i : UInt64) : Except Stop Nat :=
  if i.toNat < c.array.length then .ok i.toNat else .error (.outOfBounds i.toNat)

def ofOption {α : Type} : Option α → Except Stop α
  | none => .error .cut
  | some a => .ok a

def findSlotLoop {S : Type} (c : ClockCache) (increment first : UInt64)
    (matchFn abortFn : Nat → S → Except Stop (Bool × S))
    (updateFn : Nat → Bool → S → Except Stop S) : Nat → UInt64 → S → Except Stop (Option Nat × S)
  | 0, _, _ => .error .cut
  | fuel + 1, current, s => do
    let h ← slotAt c current
    let (found, s) ← matchFn h s
    if found then return (some h, s)
    let (stop, s) ← abortFn h s
    if stop then return (none, s)
    let current ← modLength c (current + increment)
    let isLast := current == first
    let s ← updateFn h isLast s
    if isLast then return (none, s)
    findSlotLoop c increment first matchFn abortFn updateFn fuel current s

def rollbackLoop (increment : UInt64) (h : Nat) : Nat → UInt64 → ClockCache → Except Stop ClockCache
  | 0, _, _ => .error .cut
  | fuel + 1, current, c => do
    let i ← slotAt c current
    if i = h then return c
    let next ← modLength c (current + increment)
    rollbackLoop increment h fuel next (c.displace i (-1))

section
variable (limits : Limits)

def findSlot {S : Type} (c : ClockCache) (hashedKey : UniqueId64x2)
    (matchFn abortFn : Nat → S → Except Stop (Bool × S))
    (updateFn : Nat → Bool → S → Except Stop S) (s : S) : Except Stop (Option Nat × S) := do
  let first ← modLength c hashedKey.2
  findSlotLoop c (hashedKey.1 ||| 1) first matchFn abortFn updateFn limits.probe first s

def rollback (c : ClockCache) (hashedKey : UniqueId64x2) (h : Nat) : Except Stop ClockCache := do
  let current ← modLength c hashedKey.2
  rollbackLoop (hashedKey.1 ||| 1) h limits.probe current c

def lookup (c : ClockCache) (hashedKey : UniqueId64x2) : Except Stop (Option Nat × ClockCache) :=
  findSlot limits c hashedKey (fun h c => ofOption (lookupMatch hashedKey h c))
    (fun h c => .ok (notDisplaced h c, c)) (fun _ _ c => .ok c) c

def eraseMatch (hashedKey : UniqueId64x2) (h : Nat) (s : EraseState) : Except Stop (Bool × EraseState) := do
  let (oldMeta, c) := s.cache.refIncr h
  if state oldMeta = kStateVisible then
    if (c.slot h).hashedKey = hashedKey then
      let oldMeta := (c.slot h).metaWord
      let c := c.setMeta h (oldMeta &&& ~~~(kStateVisibleBit <<< kStateShift))
      let oldMeta := oldMeta &&& ~~~(kStateVisibleBit <<< kStateShift)
      if refCount oldMeta > 1 then return (false, ⟨c.refDecr h, true, s.succ⟩)
      let c := c.setMeta h (kStateConstruction <<< kStateShift)
      let totalCharge := (c.slot h).totalCharge
      let c := c.freeDataMarkEmpty h
      let c := c.reclaimEntryUsage totalCharge
      let c ← rollback limits c hashedKey h
      return (false, ⟨c, true, true⟩)
    else return (false, {s with cache := c.refDecr h})
  else if state oldMeta = kStateInvisible then return (false, {s with cache := c.refDecr h})
  else return (false, {s with cache := c.refDecr h})

def erase (c : ClockCache) (hashedKey : UniqueId64x2) : Except Stop (Bool × ClockCache) := do
  let (_, s) ← findSlot limits c hashedKey (eraseMatch limits hashedKey)
    (fun h s => .ok (notDisplaced h s.cache, s)) (fun _ _ s => .ok s) ⟨c, false, false⟩
  return (s.succ || !s.found, s.cache)

/-- One slot under the hand: `array_[ModLength(pointer)]`. -/
def evictSlot (s : EvictState) (pointer : UInt64) : Except Stop EvictState := do
  let i ← modLength s.cache pointer
  let h ← slotAt s.cache i
  let (owned, c, data, hitCountSum) := clockUpdate h s.cache s.data s.hitCountSum s.hitDecrDelta
  if owned then
    let c ← rollback limits c (c.slot h).hashedKey h
    return {s with
      cache := c.trackAndReleaseEvictedEntry h, data := data, hitCountSum := hitCountSum}
  return {s with cache := c, data := data, hitCountSum := hitCountSum}

def evictStep (s : EvictState) (oldClockPointer : UInt64) : Except Stop EvictState :=
  [0, 1, 2, 3].foldlM (fun s i => evictSlot limits s (oldClockPointer + i)) s

def evictLoop (requestedCharge maxClockPointer : UInt64) :
    Nat → UInt64 → Int → EvictState → Except Stop EvictState
  | 0, _, _, _ => .error .cut
  | fuel + 1, oldClockPointer, offset, s => do
    let s ← evictStep limits s oldClockPointer
    if s.data.freedCharge ≥ requestedCharge then return s
    if oldClockPointer ≥ maxClockPointer then return s
    if isEvictionEffortExceeded s.data then return s
    let oldClockPointer := s.cache.clockPointer
    let s := {s with cache := {s.cache with clockPointer := oldClockPointer + kStepSize}}
    let offset := offset + 4
    if offset + 4 ≥ kDecrHitPerEntryCount then
      let delta := newHitDecrDelta s.hitCountSum s.cache.hitDecrDeltaMin
      evictLoop requestedCharge maxClockPointer fuel oldClockPointer offset
        {s with hitDecrDelta := delta, hitCountSum := 0}
    else evictLoop requestedCharge maxClockPointer fuel oldClockPointer offset s

def evict (c : ClockCache) (requestedCharge : UInt64) : Except Stop (EvictionData × ClockCache) := do
  let oldClockPointer := c.clockPointer
  let c := {c with clockPointer := oldClockPointer + kStepSize}
  let maxClockPointer := oldClockPointer + kMaxCountdown * c.length
  let s ← evictLoop limits requestedCharge maxClockPointer limits.hand oldClockPointer 0
    ⟨c, {}, 0, c.hitDecrDelta⟩
  return (s.data, {s.cache with hitDecrDelta := s.hitDecrDelta})

def insertAbort (handle : Handle) (h : Nat) (s : InsertState) : Except Stop (Bool × InsertState) :=
  if s.alreadyMatches then do
    let c ← rollback limits s.cache handle.hashedKey h
    return (true, {s with cache := c})
  else .ok (false, s)

def insertUpdate (handle : Handle) (h : Nat) (isLast : Bool) (s : InsertState) :
    Except Stop InsertState :=
  if isLast then do
    let c ← rollback limits s.cache handle.hashedKey h
    return {s with cache := c}
  else .ok {s with cache := s.cache.displace h 1}

def doInsert (c : ClockCache) (handle : Handle) : Except Stop (Option Nat × Bool × ClockCache) := do
  let (e, s) ← findSlot limits c handle.hashedKey (fun h s => ofOption (insertMatch handle h s))
    (insertAbort limits handle) (insertUpdate limits handle) ⟨c, false⟩
  if s.alreadyMatches then return (none, true, s.cache)
  return (e, false, s.cache)

def evictForCharge (c : ClockCache) (totalCharge : UInt64) (needEvictForOccupancy : Bool) :
    Except Stop (Bool × ClockCache) := do
  let oldUsage := c.usage
  let newUsage := min c.capacity (oldUsage + totalCharge)
  let c := {c with usage := newUsage}
  let needEvictCharge := oldUsage + totalCharge - newUsage
  let requestEvictCharge :=
    if needEvictForOccupancy ∧ needEvictCharge = 0 then 1 else needEvictCharge
  if requestEvictCharge > 0 then
    let (data, c) ← evict limits c requestEvictCharge
    return c.settleCharge data oldUsage newUsage needEvictCharge needEvictForOccupancy
  return (true, c)

def eraseAndInsert (c : ClockCache) (handle : Handle) : Except Stop (Bool × ClockCache) := do
  let (erased, c) ← erase limits c handle.hashedKey
  if !erased then return (false, c)
  let (e, _, c) ← doInsert limits c handle
  return (e.isSome, c)

def reserve (c : ClockCache) (handle : Handle) : Except Stop (Bool × ClockCache) :=
  let oldOccupancy := c.occupancy
  let c := {c with occupancy := oldOccupancy + 1}
  let needEvictForOccupancy : Bool := oldOccupancy + 1 > c.occupancyLimit
  evictForCharge limits c handle.totalCharge needEvictForOccupancy

def insert (c : ClockCache) (handle : Handle) : Except Stop (Bool × ClockCache) := do
  let (room, c) ← reserve limits c handle
  if !room then return (false, {c with occupancy := c.occupancy - 1})
  let (e, alreadyMatches, c) ← doInsert limits c handle
  if e.isSome then return (true, c)
  let (updated, c) ← if alreadyMatches then eraseAndInsert limits c handle else .ok (false, c)
  if updated then return (true, c)
  return (false, {c with occupancy := c.occupancy - 1, usage := c.usage - handle.totalCharge})

def destroySlot (c : ClockCache) (i : Nat) : Except Stop ClockCache := do
  let i ← slotAt c (UInt64.ofNat i)
  let state := state (c.slot i).metaWord
  if state = kStateEmpty then .ok c
  else if state = kStateInvisible ∨ state = kStateVisible then do
    let c := c.freeData i
    let c ← rollback limits c (c.slot i).hashedKey i
    return c.reclaimEntryUsage (c.slot i).totalCharge
  else .ok c

/-- The destructor, with the second loop, which asserts that no displacement is left. -/
def destroy (c : ClockCache) : Except Stop ClockCache := do
  let c ← (List.range c.length.toNat).foldlM (destroySlot limits) c
  (List.range c.length.toNat).foldlM (fun c i => do let _ ← slotAt c (UInt64.ofNat i); return c) c

end

end Checked

/-! ### Executions that are followed without a fault -/

/-- The checked execution `y` meets no fault, its result has the property, and where the
loops are followed to their ends it is the execution `x` of the model. -/
structure Follows {α : Type} (exact : Prop) (P : α → Prop) (y : Except Stop α) (x : Option α) : Prop where
  fault : ∀ e, y = .error e → e = .cut
  result : ∀ a, y = .ok a → P a
  same : exact → y = Checked.ofOption x

namespace Follows
variable {α β : Type} {exact : Prop} {P : α → Prop} {Q : β → Prop}

theorem pure {a : α} (h : P a) : Follows exact P (.ok a) (some a) where
  fault e he := by cases he
  result b hb := by
    cases hb
    exact h
  same _ := rfl

theorem cut : Follows exact P (.error .cut) none where
  fault e he := by
    cases he
    rfl
  result b hb := by cases hb
  same _ := rfl

theorem ofOption {x : Option α} (h : ∀ a, x = some a → P a) : Follows exact P (Checked.ofOption x) x := by
  cases x with
  | none => exact cut
  | some a => exact pure (h a rfl)

theorem bind {y : Except Stop α} {x : Option α} {g : α → Except Stop β} {f : α → Option β}
    (h : Follows exact P y x) (hrest : ∀ a, P a → Follows exact Q (g a) (f a)) :
    Follows exact Q (y >>= g) (x >>= f) := by
  cases y with
  | error e =>
    cases h.fault e rfl
    refine ⟨fun e he => ?_, fun b hb => ?_, fun hexact => ?_⟩
    · cases he
      rfl
    · cases hb
    · have hx := h.same hexact
      cases x with
      | none => rfl
      | some a => cases hx
  | ok a =>
    have ha := hrest a (h.result a rfl)
    refine ⟨ha.fault, ha.result, fun hexact => ?_⟩
    have hx := h.same hexact
    cases x with
    | none => cases hx
    | some b =>
      cases hx
      exact ha.same hexact

/-- A checked step that succeeds and that the model does not have. -/
theorem checked {a : α} {y : Except Stop α} {g : α → Except Stop β} {x : Option β} (h : y = .ok a)
    (hrest : Follows exact Q (g a) x) : Follows exact Q (y >>= g) x := by
  subst h
  exact hrest

/-- Loops with the same number of rounds where that matters. -/
theorem of_rounds {y : Nat → Except Stop α} {x : Nat → Option α} (h : ∀ m, Follows exact P (y m) (x m))
    {m m' : Nat} (hm : exact → m = m') : Follows exact P (y m) (x m') :=
  ⟨(h m).fault, (h m).result, fun hexact => hm hexact ▸ (h m).same hexact⟩

theorem foldlM {step : β → α → Except Stop β} {step' : β → α → Option β} (l : List α)
    (hstep : ∀ b, Q b → ∀ a ∈ l, Follows exact Q (step b a) (step' b a)) {b : β} (hb : Q b) :
    Follows exact Q (l.foldlM step b) (l.foldlM step' b) := by
  induction l generalizing b with
  | nil => exact pure hb
  | cons a l ih =>
    rw [List.foldlM_cons, List.foldlM_cons]
    refine (hstep b hb a List.mem_cons_self).bind fun b' hb' => ?_
    exact ih (fun b hb a ha => hstep b hb a (List.mem_cons_of_mem _ ha)) hb'

end Follows

/-! ### Tables as large as they say -/

namespace ClockCache

/-- The table has a slot for every remainder. -/
structure Allocated (c : ClockCache) : Prop where
  length : c.length ≠ 0
  size : c.length.toNat ≤ c.array.length

/-- A table of the same length and size. -/
structure Alike (c d : ClockCache) : Prop where
  length : d.length = c.length
  size : d.array.length = c.array.length

section Alike
variable {c d : ClockCache} {i : Nat}

theorem Alike.refl (c : ClockCache) : Alike c c := ⟨rfl, rfl⟩

@[simp] theorem alike_setSlot {h : HandleImpl} : Alike c (d.setSlot i h) ↔ Alike c d :=
  ⟨fun h => ⟨h.length, by simpa using h.size⟩, fun h => ⟨h.length, by simpa using h.size⟩⟩

@[simp] theorem alike_setMeta {w : UInt64} : Alike c (d.setMeta i w) ↔ Alike c d := alike_setSlot

@[simp] theorem alike_refIncr : Alike c (d.refIncr i).2 ↔ Alike c d := alike_setSlot

@[simp] theorem alike_refDecr : Alike c (d.refDecr i) ↔ Alike c d := alike_setSlot

@[simp] theorem alike_displace {count : UInt32} : Alike c (d.displace i count) ↔ Alike c d := alike_setSlot

@[simp] theorem alike_hitIncr {count : Int} : Alike c (d.hitIncr i count) ↔ Alike c d := by
  simp only [hitIncr]
  split
  · exact alike_setSlot.trans alike_setSlot
  · exact alike_setSlot

@[simp] theorem alike_freeData : Alike c (d.freeData i) ↔ Alike c d := by
  simp only [freeData]
  split
  · have hset := alike_setSlot (c := c) (d := d) (i := i) (h := {d.slot i with value := 0})
    exact ⟨fun h => hset.mp ⟨h.1, h.2⟩, fun h => ⟨(hset.mpr h).1, (hset.mpr h).2⟩⟩
  · exact Iff.rfl

@[simp] theorem alike_freeDataMarkEmpty : Alike c (d.freeDataMarkEmpty i) ↔ Alike c d :=
  alike_setSlot.trans alike_freeData

@[simp] theorem alike_reclaimEntryUsage {charge : UInt64} :
    Alike c (d.reclaimEntryUsage charge) ↔ Alike c d := ⟨fun h => ⟨h.1, h.2⟩, fun h => ⟨h.1, h.2⟩⟩

theorem Alike.tryInsert (h : Alike c d) (handle : Handle) (already : Bool) :
    Alike c (tryInsert handle i d already).2.2 := by
  have hbegin : Alike c (beginSlotInsert handle i d already).2.2 := by
    simp only [beginSlotInsert]
    split
    · simpa
    · split
      · simpa
      · split
        · split
          · simpa
          · simpa
        · split
          · simpa
          · simpa
  simp only [ClockCache.tryInsert]
  split
  · simpa [finishSlotInsert] using hbegin
  · exact hbegin

theorem Alike.lookupMatch (h : Alike c d) {k : UniqueId64x2} {r : Bool × ClockCache}
    (hrun : lookupMatch k i d = some r) : Alike c r.2 := by
  simp only [ClockCache.lookupMatch] at hrun
  split at hrun
  · split at hrun
    · cases hrun
      simpa
    · cases hrun
      simpa
  · split at hrun
    · cases hrun
      simpa
    · cases hrun
      simpa

theorem Alike.clockUpdate (h : Alike c d) (data : EvictionData) (sum delta : Int) :
    Alike c (clockUpdate i d data sum delta).2.1 := by
  simp only [ClockCache.clockUpdate]
  split
  · exact h
  · split
    · exact h
    · split
      · simpa
      · simpa

theorem Alike.settleCharge (h : Alike c d) (data : EvictionData) (oldUsage newUsage need : UInt64)
    (occupancy : Bool) : Alike c (d.settleCharge data oldUsage newUsage need occupancy).2 := by
  simp only [ClockCache.settleCharge]
  split
  · exact ⟨h.1, h.2⟩
  · split
    · exact ⟨h.1, h.2⟩
    · exact ⟨h.1, h.2⟩

end Alike

end ClockCache

/-! ### Nothing is out of bounds in a table that fits -/

namespace Checked
open ClockCache

variable {limits : Limits} {c d : ClockCache}

/-- The loops are followed as far as the model follows them. -/
structure Exact (limits : Limits) (c : ClockCache) : Prop where
  probe : limits.probe = c.length.toNat
  hand : limits.hand = 2 ^ 62 + 1

section
variable (hc : Allocated c)
include hc

theorem modLength_ok (hd : Alike c d) (x : UInt64) : modLength d x = .ok (d.modLength x) := by
  rw [modLength, if_neg (by rw [hd.length]; exact hc.length)]

theorem modLength_lt (hd : Alike c d) (x : UInt64) : (d.modLength x).toNat < c.array.length := by
  have hpos : 0 < d.length.toNat := by
    rw [hd.length, Nat.pos_iff_ne_zero]
    exact fun h => hc.length (UInt64.toNat_inj.mp h)
  refine Nat.lt_of_lt_of_le ?_ hc.size
  rw [modLength_toNat, hd.length]
  rw [hd.length] at hpos
  exact Nat.mod_lt _ hpos

omit hc in
theorem slotAt_ok (hd : Alike c d) {i : UInt64} (hi : i.toNat < c.array.length) :
    slotAt d i = .ok i.toNat := by
  rw [slotAt, if_pos (by rw [hd.size]; exact hi)]

theorem findSlotLoop_follows {S : Type} {exact : Prop} {P : S → Prop} (increment first : UInt64)
    {matchFn abortFn : Nat → S → Except Stop (Bool × S)} {matchFn' abortFn' : Nat → S → Option (Bool × S)}
    {updateFn : Nat → Bool → S → Except Stop S} {updateFn' : Nat → Bool → S → Option S}
    (hmatch : ∀ h s, P s → Follows exact (fun r => P r.2) (matchFn h s) (matchFn' h s))
    (habort : ∀ h s, P s → Follows exact (fun r => P r.2) (abortFn h s) (abortFn' h s))
    (hupdate : ∀ h b s, P s → Follows exact P (updateFn h b s) (updateFn' h b s))
    (fuel : Nat) {current : UInt64} (hcurrent : current.toNat < c.array.length) {s : S} (hs : P s) :
    Follows exact (fun r => P r.2)
      (findSlotLoop c increment first matchFn abortFn updateFn fuel current s)
      (ClockCache.findSlotLoop c.modLength increment first matchFn' abortFn' updateFn' fuel current s) := by
  induction fuel generalizing current s with
  | zero => exact .cut
  | succ fuel ih =>
    rw [findSlotLoop, ClockCache.findSlotLoop]
    refine .checked (slotAt_ok (.refl c) hcurrent) ((hmatch _ s hs).bind fun r hr => ?_)
    obtain ⟨found, s⟩ := r
    cases found with
    | true => exact .pure hr
    | false =>
      refine (habort _ s hr).bind fun r hr => ?_
      obtain ⟨stop, s⟩ := r
      cases stop with
      | true => exact .pure hr
      | false =>
        refine .checked (modLength_ok hc (.refl c) _) ((hupdate _ _ s hr).bind fun s hs => ?_)
        split
        · exact .pure hs
        · exact ih (modLength_lt hc (.refl c) _) hs

theorem findSlot_follows {S : Type} {P : S → Prop} (k : UniqueId64x2)
    {matchFn abortFn : Nat → S → Except Stop (Bool × S)} {matchFn' abortFn' : Nat → S → Option (Bool × S)}
    {updateFn : Nat → Bool → S → Except Stop S} {updateFn' : Nat → Bool → S → Option S}
    (hmatch : ∀ h s, P s → Follows (Exact limits c) (fun r => P r.2) (matchFn h s) (matchFn' h s))
    (habort : ∀ h s, P s → Follows (Exact limits c) (fun r => P r.2) (abortFn h s) (abortFn' h s))
    (hupdate : ∀ h b s, P s → Follows (Exact limits c) P (updateFn h b s) (updateFn' h b s))
    (hd : Alike c d) {s : S} (hs : P s) :
    Follows (Exact limits c) (fun r => P r.2) (findSlot limits d k matchFn abortFn updateFn s)
      (ClockCache.findSlot d k matchFn' abortFn' updateFn' s) := by
  have hfits : Allocated d := ⟨by rw [hd.length]; exact hc.length, by rw [hd.length, hd.size]; exact hc.size⟩
  rw [findSlot, ClockCache.findSlot]
  have hloop := fun fuel => findSlotLoop_follows hfits (k.1 ||| 1) (d.modLength k.2)
    hmatch habort hupdate fuel (by rw [hd.size]; exact modLength_lt hc hd k.2) hs
  refine .checked (modLength_ok hc hd _) (.of_rounds hloop fun hexact => ?_)
  rw [hd.length]
  exact hexact.probe

theorem rollbackLoop_follows (exact : Prop) (increment : UInt64) (h fuel : Nat) {current : UInt64}
    (hcurrent : current.toNat < c.array.length) (hd : Alike c d) :
    Follows exact (Alike c) (rollbackLoop increment h fuel current d)
      (ClockCache.rollbackLoop increment h fuel current d) := by
  induction fuel generalizing current d with
  | zero => exact .cut
  | succ fuel ih =>
    rw [rollbackLoop, ClockCache.rollbackLoop]
    refine .checked (slotAt_ok hd hcurrent) ?_
    split
    · exact .pure hd
    · refine .checked (modLength_ok hc hd _) (ih (modLength_lt hc hd _) ?_)
      simpa

theorem rollback_follows (hd : Alike c d) (k : UniqueId64x2) (h : Nat) :
    Follows (Exact limits c) (Alike c) (rollback limits d k h) (d.rollback k h) := by
  rw [rollback, ClockCache.rollback]
  have hloop := fun fuel => rollbackLoop_follows hc (Exact limits c) (k.1 ||| 1) h fuel
    (modLength_lt hc hd k.2) hd
  refine .checked (modLength_ok hc hd _) (.of_rounds hloop fun hexact => ?_)
  rw [hd.length]
  exact hexact.probe

/-! ### The operations -/

theorem lookup_follows (hd : Alike c d) (k : UniqueId64x2) :
    Follows (Exact limits c) (fun r => Alike c r.2) (lookup limits d k) (d.lookup k) := by
  rw [lookup, ClockCache.lookup]
  refine findSlot_follows hc k (fun h d hd => ?_) (fun h d hd => .pure hd) (fun h b d hd => .pure hd) hd hd
  exact .ofOption fun r hr => hd.lookupMatch hr

theorem eraseMatch_follows (k : UniqueId64x2) (h : Nat) (s : EraseState) (hs : Alike c s.cache) :
    Follows (Exact limits c) (fun r => Alike c r.2.cache) (eraseMatch limits k h s)
      (ClockCache.eraseMatch k h s) := by
  simp only [eraseMatch, ClockCache.eraseMatch]
  split
  · split
    · split
      · exact .pure (by simpa)
      · exact (rollback_follows hc (by simpa) k h).bind fun d hd => .pure hd
    · exact .pure (by simpa)
  · split
    · exact .pure (by simpa)
    · exact .pure (by simpa)

theorem erase_follows (hd : Alike c d) (k : UniqueId64x2) :
    Follows (Exact limits c) (fun r => Alike c r.2) (erase limits d k) (d.erase k) := by
  rw [erase, ClockCache.erase]
  refine (findSlot_follows (P := fun s : EraseState => Alike c s.cache) hc k
    (eraseMatch_follows hc k) (fun h s hs => .pure hs) (fun h b s hs => .pure hs) hd hd).bind fun r hr => ?_
  exact .pure hr

theorem evictSlot_follows {s : EvictState} (hs : Alike c s.cache) (pointer : UInt64) :
    Follows (Exact limits c) (fun s => Alike c s.cache) (evictSlot limits s pointer)
      (ClockCache.evictSlot s (s.cache.modLength pointer).toNat) := by
  rw [evictSlot, ClockCache.evictSlot]
  refine .checked (modLength_ok hc hs _) (.checked (slotAt_ok hs (modLength_lt hc hs _)) ?_)
  have hd := hs.clockUpdate (i := (s.cache.modLength pointer).toNat) s.data s.hitCountSum s.hitDecrDelta
  generalize ClockCache.clockUpdate (s.cache.modLength pointer).toNat s.cache s.data s.hitCountSum
    s.hitDecrDelta = update at hd
  obtain ⟨owned, d, data, sum⟩ := update
  cases owned with
  | true =>
    refine (rollback_follows hc hd _ _).bind fun d hd => .pure ?_
    simpa [trackAndReleaseEvictedEntry] using hd
  | false => exact .pure hd

theorem evictStep_follows {s : EvictState} (hs : Alike c s.cache) (pointer : UInt64) :
    Follows (Exact limits c) (fun s => Alike c s.cache) (evictStep limits s pointer)
      (ClockCache.evictStep s pointer) :=
  .foldlM _ (fun _ hs _ _ => evictSlot_follows hc hs _) hs

variable (limits) in
theorem evictLoop_follows (requested pointerEnd : UInt64) (fuel : Nat) {s : EvictState}
    (hs : Alike c s.cache) (pointer : UInt64) (offset : Int) :
    Follows (Exact limits c) (fun s => Alike c s.cache)
      (evictLoop limits requested pointerEnd fuel pointer offset s)
      (ClockCache.evictLoop requested pointerEnd fuel pointer offset s) := by
  induction fuel generalizing s pointer offset with
  | zero => exact .cut
  | succ fuel ih =>
    rw [evictLoop, ClockCache.evictLoop]
    refine (evictStep_follows hc hs pointer).bind fun s hs => ?_
    split
    · exact .pure hs
    split
    · exact .pure hs
    split
    · exact .pure hs
    simp only
    split
    · apply ih
      exact ⟨hs.1, hs.2⟩
    · apply ih
      exact ⟨hs.1, hs.2⟩

theorem evict_follows (hd : Alike c d) (requested : UInt64) :
    Follows (Exact limits c) (fun r => Alike c r.2) (evict limits d requested) (d.evict requested) := by
  rw [evict, ClockCache.evict]
  have hstart : Alike c {d with clockPointer := d.clockPointer + kStepSize} := ⟨hd.1, hd.2⟩
  have hloop := fun fuel => evictLoop_follows limits hc requested
    (d.clockPointer + kMaxCountdown * d.length) fuel
    (s := ⟨{d with clockPointer := d.clockPointer + kStepSize}, {}, 0, d.hitDecrDelta⟩) hstart d.clockPointer 0
  exact (Follows.of_rounds hloop fun hexact => hexact.hand).bind fun s hs => .pure ⟨hs.1, hs.2⟩

theorem doInsert_follows (hd : Alike c d) (handle : Handle) :
    Follows (Exact limits c) (fun r => Alike c r.2.2) (doInsert limits d handle) (d.doInsert handle) := by
  rw [doInsert, ClockCache.doInsert]
  refine (findSlot_follows (P := fun s : InsertState => Alike c s.cache) hc handle.hashedKey
    (fun h s hs => ?_) (fun h s hs => ?_) (fun h b s hs => ?_) hd hd).bind fun r hr => ?_
  · exact .ofOption fun r hr => by
      cases hr
      exact hs.tryInsert handle _
  · rw [insertAbort, ClockCache.insertAbort]
    split
    · exact (rollback_follows hc hs _ h).bind fun d hd => .pure hd
    · exact .pure hs
  · rw [insertUpdate, ClockCache.insertUpdate]
    split
    · exact (rollback_follows hc hs _ h).bind fun d hd => .pure hd
    · exact .pure (by simpa)
  · obtain ⟨e, s⟩ := r
    simp only
    split
    · exact .pure hr
    · exact .pure hr

theorem reserve_follows (hd : Alike c d) (handle : Handle) :
    Follows (Exact limits c) (fun r => Alike c r.2) (reserve limits d handle) (d.reserve handle) := by
  simp only [reserve, ClockCache.reserve, evictForCharge, ClockCache.evictForCharge]
  generalize (if decide (d.occupancy + 1 > d.occupancyLimit) = true ∧
    d.usage + handle.totalCharge - min d.capacity (d.usage + handle.totalCharge) = 0 then 1
    else d.usage + handle.totalCharge - min d.capacity (d.usage + handle.totalCharge)) = request
  have hstart : Alike c {d with
      occupancy := d.occupancy + 1, usage := min d.capacity (d.usage + handle.totalCharge)} := ⟨hd.1, hd.2⟩
  split
  · refine (evict_follows hc hstart request).bind fun r hr => .pure ?_
    exact hr.settleCharge ..
  · exact .pure hstart

theorem eraseAndInsert_follows (hd : Alike c d) (handle : Handle) :
    Follows (Exact limits c) (fun r => Alike c r.2) (eraseAndInsert limits d handle)
      (d.eraseAndInsert handle) := by
  rw [eraseAndInsert, ClockCache.eraseAndInsert]
  refine (erase_follows hc hd _).bind fun r hr => ?_
  obtain ⟨erased, d⟩ := r
  cases erased with
  | false => exact .pure hr
  | true => exact (doInsert_follows hc hr handle).bind fun r hr => .pure hr

theorem insert_follows (hd : Alike c d) (handle : Handle) :
    Follows (Exact limits c) (fun r => Alike c r.2) (insert limits d handle) (d.insert handle) := by
  rw [insert, ClockCache.insert]
  refine (reserve_follows hc hd handle).bind fun r hr => ?_
  obtain ⟨room, d⟩ := r
  cases room with
  | false => exact .pure ⟨hr.1, hr.2⟩
  | true =>
    refine (doInsert_follows hc hr handle).bind fun r hr => ?_
    obtain ⟨e, already, d⟩ := r
    simp only
    split
    · exact .pure hr
    · have hgive : ∀ r : Bool × ClockCache, Alike c r.2 → Follows (Exact limits c) (fun r => Alike c r.2)
          (if r.1 = true then pure (true, r.2) else pure (false, {r.2 with
            occupancy := r.2.occupancy - 1, usage := r.2.usage - handle.totalCharge}))
          (if r.1 = true then pure (true, r.2) else pure (false, {r.2 with
            occupancy := r.2.occupancy - 1, usage := r.2.usage - handle.totalCharge})) := by
        intro r hr
        split
        · exact .pure hr
        · exact .pure ⟨hr.1, hr.2⟩
      split
      · exact (eraseAndInsert_follows hc hr handle).bind hgive
      · exact hgive (false, d) hr

/-! ### Destruction -/

theorem slotAt_ofNat (hd : Alike c d) {i : Nat} (hi : i < c.length.toNat) :
    slotAt d (UInt64.ofNat i) = .ok i := by
  have hsmall : (UInt64.ofNat i).toNat = i := by
    rw [UInt64.toNat_ofNat', Nat.mod_eq_of_lt (hi.trans c.length.toNat_lt)]
  have hlt : (UInt64.ofNat i).toNat < c.array.length := by
    rw [hsmall]
    exact Nat.lt_of_lt_of_le hi hc.size
  rw [slotAt_ok hd hlt, hsmall]

theorem destroySlot_follows (hd : Alike c d) {i : Nat} (hi : i < c.length.toNat) :
    Follows (Exact limits c) (Alike c) (destroySlot limits d i) (d.destroySlot i) := by
  refine .checked (slotAt_ofNat hc hd hi) ?_
  simp only [ClockCache.destroySlot]
  split
  · exact .pure hd
  · split
    · refine (rollback_follows hc (by simpa) _ i).bind fun d hd => .pure ?_
      simpa
    · exact .pure hd

theorem asserts_ok (hd : Alike c d) {l : List Nat} (hl : ∀ i ∈ l, i < c.length.toNat) :
    l.foldlM (fun c i => do let _ ← slotAt c (UInt64.ofNat i); return c) d = .ok d := by
  induction l with
  | nil => rfl
  | cons i l ih =>
    rw [List.foldlM_cons, slotAt_ofNat hc hd (hl i List.mem_cons_self)]
    exact ih fun j hj => hl j (List.mem_cons_of_mem i hj)

theorem destroy_follows (hd : Alike c d) :
    Follows (Exact limits c) (Alike c) (destroy limits d) d.destroy := by
  have hslots : Follows (Exact limits c) (Alike c)
      ((List.range c.length.toNat).foldlM (destroySlot limits) d)
      ((List.range c.length.toNat).foldlM ClockCache.destroySlot d) :=
    .foldlM _ (fun e he i hi => destroySlot_follows hc he (List.mem_range.mp hi)) hd
  have hall := hslots.bind (Q := Alike c) (f := some)
    (g := fun e => (List.range e.length.toNat).foldlM
      (fun c i => do let _ ← slotAt c (UInt64.ofNat i); return c) e) fun e he => by
        rw [he.length, asserts_ok hc he fun i hi => List.mem_range.mp hi]
        exact .pure he
  rw [Option.bind_eq_bind, Option.bind_fun_some] at hall
  rw [destroy, ClockCache.destroy, hd.length]
  exact hall

end

/-! ### A table without slots -/

/-- The execution meets a remainder by zero or an index out of bounds. -/
def Faulty {α : Type} (y : Except Stop α) : Prop := ∃ e, y = .error e ∧ e ≠ .cut

theorem Faulty.bind {α β : Type} {y : Except Stop α} (h : Faulty y) (g : α → Except Stop β) :
    Faulty (y >>= g) := by
  obtain ⟨e, rfl, he⟩ := h
  exact ⟨e, rfl, he⟩

section
variable (hd : d.array.length = 0)
include hd

theorem slotAt_faulty (i : UInt64) : Faulty (slotAt d i) :=
  ⟨.outOfBounds i.toNat, if_neg (by omega), by rintro ⟨⟩⟩

/-- There is nothing to take a remainder by, or no slot for it. -/
theorem index_faulty (x : UInt64) {α : Type} (g : UInt64 → Nat → Except Stop α) :
    Faulty (do let i ← modLength d x; let h ← slotAt d i; g i h) := by
  by_cases hzero : d.length = 0
  · rw [modLength, if_pos hzero]
    exact ⟨.remainderByZero, rfl, by decide⟩
  · rw [modLength, if_neg hzero]
    exact (slotAt_faulty hd _).bind _

theorem findSlot_faulty {S : Type} (k : UniqueId64x2) (matchFn abortFn : Nat → S → Except Stop (Bool × S))
    (updateFn : Nat → Bool → S → Except Stop S) (s : S) :
    Faulty (findSlot ⟨1, 1⟩ d k matchFn abortFn updateFn s) := by
  have hfault := index_faulty hd k.2 (fun first h => do
    let (found, s) ← matchFn h s
    if found then return (some h, s)
    let (stop, s) ← abortFn h s
    if stop then return (none, s)
    let current ← modLength d (first + (k.1 ||| 1))
    let s ← updateFn h (current == first) s
    if current == first then return (none, s)
    findSlotLoop d (k.1 ||| 1) first matchFn abortFn updateFn 0 current s)
  exact hfault

theorem evict_faulty (requested : UInt64) : Faulty (evict ⟨1, 1⟩ d requested) := by
  have hslot : ∀ data sum delta pointer, Faulty (evictSlot ⟨1, 1⟩
      ⟨{d with clockPointer := d.clockPointer + kStepSize}, data, sum, delta⟩ pointer) := by
    intro data sum delta pointer
    rw [evictSlot]
    exact index_faulty hd pointer _
  rw [evict, evictLoop, evictStep, List.foldlM_cons]
  exact (((hslot _ _ _ _).bind _).bind _).bind _

theorem doInsert_faulty (handle : Handle) : Faulty (doInsert ⟨1, 1⟩ d handle) := by
  rw [doInsert]
  exact (findSlot_faulty hd ..).bind _

theorem insert_faulty (handle : Handle) : Faulty (insert ⟨1, 1⟩ d handle) := by
  rw [insert]
  simp only [reserve, evictForCharge]
  generalize (if decide (d.occupancy + 1 > d.occupancyLimit) = true ∧
    d.usage + handle.totalCharge - min d.capacity (d.usage + handle.totalCharge) = 0 then 1
    else d.usage + handle.totalCharge - min d.capacity (d.usage + handle.totalCharge)) = request
  have hstart : ({d with occupancy := d.occupancy + 1, usage := min d.capacity (d.usage + handle.totalCharge)} :
    ClockCache).array.length = 0 := hd
  split
  · exact ((evict_faulty hstart request).bind _).bind _
  · exact (doInsert_faulty hstart handle).bind _

theorem lookup_faulty (k : UniqueId64x2) : Faulty (lookup ⟨1, 1⟩ d k) := findSlot_faulty hd ..

theorem erase_faulty (k : UniqueId64x2) : Faulty (erase ⟨1, 1⟩ d k) := by
  rw [erase]
  exact (findSlot_faulty hd ..).bind _

theorem destroy_faulty (hl : d.length ≠ 0) : Faulty (destroy ⟨1, 1⟩ d) := by
  have hpos : 0 < d.length.toNat := by
    rw [Nat.pos_iff_ne_zero]
    exact fun h => hl (UInt64.toNat_inj.mp h)
  obtain ⟨m, hm⟩ := Nat.exists_eq_add_of_lt hpos
  rw [destroy, show d.length.toNat = m + 1 by omega, List.range_succ_eq_map, List.foldlM_cons, destroySlot]
  exact (((slotAt_faulty hd _).bind _).bind _).bind _

end

/-! ### The sharded cache -/

/-- A call of the cache. -/
inductive Request (Key : Type) where
  | insert (key : Key) (handle : Handle)
  | lookup (key : Key)
  | erase (hashedKey : UniqueId64x2)

section
variable {Key : Type} {size : Nat} [NeZero size]

def Request.apply (hashKey : Key → UniqueId64x2) (c : Cache size) : Request Key → Option (Cache size)
  | .insert key handle => do return (← c.insert hashKey key handle).2
  | .lookup key => do return (← c.lookup hashKey key).2
  | .erase hashedKey => do return (← c.erase hashedKey).2

variable (limits : Limits) (hashKey : Key → UniqueId64x2)

/-- The call with every index checked. -/
def step (c : Cache size) : Request Key → Except Stop (Cache size)
  | .insert key handle => do
    let i := Cache.index size (hashKey key)
    let (_, shard) ← insert limits (c.shards i) {handle with hashedKey := hashKey key}
    return c.store i shard
  | .lookup key => do
    let i := Cache.index size (hashKey key)
    let (_, shard) ← lookup limits (c.shards i) (hashKey key)
    return c.store i shard
  | .erase hashedKey => do
    let i := Cache.index size hashedKey
    let (_, shard) ← erase limits (c.shards i) hashedKey
    return c.store i shard

/-- The cache from its construction through the calls to its destruction. -/
def life (o : CacheOptions) (requests : List (Request Key)) : Except Stop (Cache o.shardNum.toNat) := do
  let c ← requests.foldlM (step limits hashKey) (Cache.make o)
  (List.finRange o.shardNum.toNat).foldlM (fun c i => do
    let shard ← destroy limits (c.shards i)
    return c.store i shard) c

end

/-- Followed for as long as one likes, the cache never takes a remainder by zero and never
computes the index of a slot that its table does not have. -/
def InBounds {Key : Type} (hashKey : Key → UniqueId64x2) (o : CacheOptions) (requests : List (Request Key)) :
    Prop := ∀ limits e, life limits hashKey o requests = .error e → e = .cut

section
variable {Key : Type} {size : Nat} [NeZero size] {hashKey : Key → UniqueId64x2}

omit [NeZero size] in
theorem alike_store {s : Cache size} (hs : ∀ i, Alike c (s.shards i)) (hd : Alike c d) (i : Fin size) :
    ∀ j, Alike c ((s.store i d).shards j) := by
  intro j
  show Alike c (Function.update s.shards i d j)
  by_cases hj : j = i
  · subst hj
    rwa [Function.update_self]
  · rw [Function.update_of_ne hj]
    exact hs j

/-- **The step lemma**: a call of a cache whose tables have a slot for every remainder is
followed, and leaves such a cache. -/
theorem step_follows (hc : Allocated c) {s : Cache size} (hs : ∀ i, Alike c (s.shards i))
    (request : Request Key) : Follows (Exact limits c) (fun s => ∀ i, Alike c (s.shards i))
      (step limits hashKey s request) (request.apply hashKey s) := by
  cases request with
  | insert key handle =>
    rw [step, Request.apply, Cache.insert, bind_assoc]
    refine (insert_follows hc (hs _) _).bind fun r hr => .pure ?_
    exact alike_store hs hr _
  | lookup key =>
    rw [step, Request.apply, Cache.lookup, bind_assoc]
    refine (lookup_follows hc (hs _) _).bind fun r hr => .pure ?_
    exact alike_store hs hr _
  | erase hashedKey =>
    rw [step, Request.apply, Cache.erase, bind_assoc]
    refine (erase_follows hc (hs _) _).bind fun r hr => .pure ?_
    exact alike_store hs hr _

omit [NeZero size] in
theorem destroyAll_follows (hc : Allocated c) {s : Cache size} (hs : ∀ i, Alike c (s.shards i)) :
    Follows (Exact limits c) (fun s => ∀ i, Alike c (s.shards i))
      ((List.finRange size).foldlM (fun s i => do
        let shard ← destroy limits (s.shards i)
        return s.store i shard) s)
      ((List.finRange size).foldlM (fun s i => do return s.store i (← (s.shards i).destroy)) s) := by
  refine .foldlM _ (fun s hs i _ => ?_) hs
  exact (destroy_follows hc (hs i)).bind fun d hd => .pure (alike_store hs hd i)

variable (limits) in
omit [NeZero size] in
/-- Of shards of length zero the destructor looks at no slot. -/
theorem destroyAll_zero (l : List (Fin size)) {s : Cache size} (hs : ∀ i, (s.shards i).length = 0) :
    ∃ s', l.foldlM (fun s i => do
      let shard ← destroy limits (s.shards i)
      return s.store i shard) s = .ok s' := by
  induction l generalizing s with
  | nil => exact ⟨s, rfl⟩
  | cons i l ih =>
    have hdestroy : destroy limits (s.shards i) = .ok (s.shards i) := by
      have hrange : List.range (s.shards i).length.toNat = [] := by rw [hs i]; rfl
      simp only [destroy, hrange, List.foldlM_nil]
      show (List.range (s.shards i).length.toNat).foldlM _ _ = _
      rw [hrange]
      rfl
    have hstore : ∀ j, ((s.store i (s.shards i)).shards j).length = 0 := by
      intro j
      rw [Cache.store, Function.update_eq_self]
      exact hs j
    obtain ⟨s', hrest⟩ := ih hstore
    refine ⟨s', ?_⟩
    rw [List.foldlM_cons, hdestroy]
    exact hrest

omit [NeZero size] in
theorem destroyAll_faulty {s : Cache size} (hsize : ∀ i, (s.shards i).array.length = 0)
    (hl : ∀ i, (s.shards i).length ≠ 0) {l : List (Fin size)} (hne : l ≠ []) :
    Faulty (l.foldlM (fun s i => do
      let shard ← destroy ⟨1, 1⟩ (s.shards i)
      return s.store i shard) s) := by
  obtain ⟨i, rest, rfl⟩ := List.exists_cons_of_ne_nil hne
  rw [List.foldlM_cons]
  exact ((destroy_faulty (hsize i) (hl i)).bind _).bind _

theorem step_faulty {s : Cache size} (hs : ∀ i, (s.shards i).array.length = 0) (request : Request Key) :
    Faulty (step ⟨1, 1⟩ hashKey s request) := by
  cases request with
  | insert key handle => exact (insert_faulty (hs _) _).bind _
  | lookup key => exact (lookup_faulty (hs _) _).bind _
  | erase hashedKey => exact (erase_faulty (hs _) _).bind _

end

/-- The length of a shard is not zero exactly where there is a slot for each of them. -/
theorem shardLength_pos (o : CacheOptions) : o.length / o.shardNum > 0 ↔ o.shardNum ≤ o.length := by
  rw [gt_iff_lt, UInt64.lt_iff_toNat_lt, UInt64.toNat_div, UInt64.le_iff_toNat_le]
  exact Nat.div_pos_iff.trans (and_iff_right o.positive)

theorem allocated_make {o : CacheOptions} (h : o.shardNum ≤ o.length) :
    Allocated (ClockCache.make (Cache.shardOptions o)) := by
  have hpos := (shardLength_pos o).mpr h
  have hlength : (ClockCache.make (Cache.shardOptions o)).length = o.length / o.shardNum := if_pos hpos
  have hsize : (ClockCache.make (Cache.shardOptions o)).array.length = (o.length / o.shardNum).toNat :=
    List.length_replicate
  exact ⟨by rw [hlength]; exact (UInt64.ne_of_lt hpos).symm, by rw [hlength, hsize]⟩

section
variable {o : CacheOptions} (h : ¬ o.shardNum ≤ o.length)
include h

theorem make_size_zero : (ClockCache.make (Cache.shardOptions o)).array.length = 0 := by
  have hzero : ¬ o.length / o.shardNum > 0 := fun hpos => h ((shardLength_pos o).mp hpos)
  have hsize : (ClockCache.make (Cache.shardOptions o)).array.length = (o.length / o.shardNum).toNat :=
    List.length_replicate
  rw [hsize]
  exact Nat.eq_zero_of_not_pos fun hpos => hzero (UInt64.lt_iff_toNat_lt.mpr hpos)

theorem make_length_zero : (ClockCache.make (Cache.shardOptions o)).length = 0 ↔
    o.valueSize = 0 ∨ o.capacity / o.shardNum < o.valueSize := by
  have hzero : ¬ o.length / o.shardNum > 0 := fun hpos => h ((shardLength_pos o).mp hpos)
  have hlength : (ClockCache.make (Cache.shardOptions o)).length =
      if o.valueSize > 0 then o.capacity / o.shardNum / o.valueSize else 0 := if_neg hzero
  rw [hlength]
  by_cases hvalue : o.valueSize > 0
  · have hne : o.valueSize ≠ 0 := (UInt64.ne_of_lt hvalue).symm
    rw [if_pos hvalue, ← UInt64.toNat_inj, UInt64.toNat_div, UInt64.lt_iff_toNat_lt]
    have hdiv := Nat.div_eq_zero_iff (a := (o.capacity / o.shardNum).toNat) (b := o.valueSize.toNat)
    rw [show (0 : UInt64).toNat = 0 from rfl, hdiv, ← UInt64.toNat_inj]
    rfl
  · rw [if_neg hvalue]
    have heq : o.valueSize = 0 := by
      rw [← UInt64.toNat_inj]
      exact Nat.eq_zero_of_not_pos fun hpos => hvalue (UInt64.lt_iff_toNat_lt.mpr hpos)
    exact iff_of_true rfl (.inl heq)

end

/-- **When every index is in bounds**: where each shard has a length of its own, or where
no call is made and the length made from the value size is zero. -/
theorem inBounds_iff {Key : Type} (hashKey : Key → UniqueId64x2) (o : CacheOptions)
    (requests : List (Request Key)) : InBounds hashKey o requests ↔
      o.shardNum ≤ o.length ∨
        requests = [] ∧ (o.valueSize = 0 ∨ o.capacity / o.shardNum < o.valueSize) := by
  by_cases hlen : o.shardNum ≤ o.length
  · refine iff_of_true (fun limits e he => ?_) (.inl hlen)
    have hc := allocated_make hlen
    have hrun : Follows (Exact limits (ClockCache.make (Cache.shardOptions o)))
        (fun s => ∀ i, Alike (ClockCache.make (Cache.shardOptions o)) (s.shards i))
        (requests.foldlM (step limits hashKey) (Cache.make o))
        (requests.foldlM (fun c request => request.apply hashKey c) (Cache.make o)) :=
      .foldlM _ (fun s hs request _ => step_follows hc hs request) fun i => Alike.refl _
    exact (hrun.bind fun s hs => destroyAll_follows hc hs).fault e he
  · have hsize := make_size_zero hlen
    have hend : ∀ {y : Except Stop (Cache o.shardNum.toNat)}, life ⟨1, 1⟩ hashKey o requests = y → Faulty y →
        ¬ InBounds hashKey o requests := by
      rintro _ rfl ⟨e, he, hne⟩ hin
      exact hne (hin _ e he)
    cases requests with
    | cons request requests =>
      have hfault : Faulty (life ⟨1, 1⟩ hashKey o (request :: requests)) := by
        rw [life, List.foldlM_cons]
        exact ((step_faulty (fun _ => hsize) request).bind _).bind _
      exact iff_of_false (hend rfl hfault) (by simp [hlen])
    | nil =>
      by_cases hzero : (ClockCache.make (Cache.shardOptions o)).length = 0
      · refine iff_of_true (fun limits e he => ?_) (.inr ⟨rfl, (make_length_zero hlen).mp hzero⟩)
        obtain ⟨s, hs⟩ := destroyAll_zero limits (List.finRange o.shardNum.toNat)
          (s := Cache.make o) fun _ => hzero
        cases hs.symm.trans he
      · have hne : List.finRange o.shardNum.toNat ≠ [] := by
          rw [Ne, ← List.length_eq_zero_iff, List.length_finRange]
          exact Nat.ne_of_gt o.positive
        have hfault : Faulty (life ⟨1, 1⟩ hashKey o []) :=
          destroyAll_faulty (s := Cache.make o) (fun _ => hsize) (fun _ => hzero) hne
        refine iff_of_false (hend rfl hfault) ?_
        rintro (hle | ⟨-, hshort⟩)
        · exact hlen hle
        · exact hzero ((make_length_zero hlen).mpr hshort)

/-- One shard of eight bytes whose length is to be made from the value size: it takes
remainders by eight, and has no slot. -/
theorem lookup_out_of_bounds : ¬ ∀ (Key : Type) (hashKey : Key → UniqueId64x2) (o : CacheOptions)
    (requests : List (Request Key)), (o.length > 0 ∨ o.length = 0 ∧ 0 < o.valueSize ∧
      o.valueSize ≤ o.capacity / o.shardNum) → InBounds hashKey o requests := by
  intro hclaim
  have hin := hclaim UniqueId64x2 id ⟨⟨8, 0, 1, 0, 1⟩, 1, by decide⟩ [.lookup (0, 0)] (by decide)
  have hfault : life ⟨1, 1⟩ id ⟨⟨8, 0, 1, 0, 1⟩, 1, by decide⟩ [.lookup ((0, 0) : UniqueId64x2)] =
      .error (.outOfBounds 0) := rfl
  cases hin _ _ hfault

end Checked

end HyperCache.Clock
