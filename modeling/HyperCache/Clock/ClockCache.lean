import HyperCache.Clock.Handle

/-! The clock cache (`clock/clock_cache.cc`), one call at a time.

An open-addressed table of slots. `findSlot` is the probe loop every operation
shares: it starts at `hashed_key[1] % length_` and steps by `hashed_key[0] | 1`
until a slot matches, the search aborts, or the start comes round again. An
entry's insertion counts a displacement in every slot it stepped over, and its
removal takes them back (`rollback`); a search may stop at a slot no entry was
displaced over.

Every function takes the cache and returns it. `none` is a loop that does not
end: the probe loop visits at most `length_` slots before it repeats itself, and
the loop of `evict` has as many steps as the clock pointer has values. -/
namespace HyperCache.Clock

def kInitHitCount : UInt64 := 3
def kMaxHitCount : Int := 2000
def kDecrHitPerEntryCount : Int := 5000

structure EvictionData where
  freedCharge : UInt64 := 0
  freedCount : UInt64 := 0
  seenPinnedCount : UInt64 := 0
  deriving DecidableEq

/-- The table and its counters. `deleted` lists the calls made of a `del_cb`. -/
structure ClockCache where
  capacity : UInt64
  length : UInt64
  occupancyLimit : UInt64
  hitDecrDeltaMin : Int
  clockPointer : UInt64
  occupancy : UInt64
  usage : UInt64
  hitDecrDelta : Int
  array : List HandleImpl
  deleted : List (DeleterFn × ObjectPtr)
  deriving DecidableEq

/-- `ClockCacheOptions`, with the occupancy limit as the constructor's product
`length * load_factor` rounds it: any value may come out of the floating-point
multiplication, and no result here depends on which. -/
structure ClockCacheOptions where
  capacity : UInt64
  length : UInt64
  valueSize : UInt64
  occupancyLimit : UInt64
  hitDecrDeltaMin : Int

namespace ClockCache

/-- The constructor. The array has `options.length` slots whatever `length_` is. -/
def make (options : ClockCacheOptions) : ClockCache where
  capacity := options.capacity
  length :=
    if options.length > 0 then options.length
    else if options.valueSize > 0 then options.capacity / options.valueSize else 0
  occupancyLimit := options.occupancyLimit
  hitDecrDeltaMin := options.hitDecrDeltaMin
  clockPointer := 0
  occupancy := 0
  usage := 0
  hitDecrDelta := 1
  array := List.replicate options.length.toNat default
  deleted := []

/-! ### Slots -/

/-- `array_[i]`. -/
def slot (c : ClockCache) (i : Nat) : HandleImpl := c.array.getD i default

def setSlot (c : ClockCache) (i : Nat) (h : HandleImpl) : ClockCache :=
  {c with array := c.array.set i h}

def setMeta (c : ClockCache) (i : Nat) (metaWord : UInt64) : ClockCache :=
  c.setSlot i {c.slot i with metaWord := metaWord}

def refIncr (c : ClockCache) (h : Nat) : UInt64 × ClockCache :=
  ((c.slot h).metaWord, c.setMeta h ((c.slot h).metaWord + kRefIncrement))

def refDecr (c : ClockCache) (h : Nat) : ClockCache :=
  c.setMeta h ((c.slot h).metaWord - kRefIncrement)

def hitDecr (c : ClockCache) (h : Nat) (count : Int) : ClockCache :=
  c.setMeta h ((c.slot h).metaWord - kHitIncrement * UInt64.ofInt count)

def hitIncr (c : ClockCache) (h : Nat) (count : Int) : ClockCache :=
  let oldMeta := (c.slot h).metaWord
  let c := c.setMeta h (oldMeta + kHitIncrement * UInt64.ofInt count)
  let overflow := hitCount oldMeta + count - kMaxHitCount
  if overflow > 0 then c.hitDecr h overflow else c

def markEmpty (c : ClockCache) (h : Nat) : ClockCache := c.setMeta h 0

/-- `Handle::FreeData`. -/
def freeData (c : ClockCache) (h : Nat) : ClockCache :=
  let s := c.slot h
  if s.delCb ≠ 0 ∧ s.value ≠ 0 then
    {c.setSlot h {s with value := 0} with deleted := c.deleted ++ [(s.delCb, s.value)]}
  else c

def freeDataMarkEmpty (c : ClockCache) (h : Nat) : ClockCache := (c.freeData h).markEmpty h

/-- Whether the slot was taken, whether the key is already there, and the table. -/
def beginSlotInsert (handle : Handle) (h : Nat) (c : ClockCache) (alreadyMatches : Bool) :
    Bool × Bool × ClockCache :=
  let oldMeta := (c.slot h).metaWord
  let c := c.setMeta h (oldMeta ||| (kStateOccupiedBit <<< kStateShift))
  let oldState := state oldMeta
  if oldState = kStateEmpty then (true, alreadyMatches, c)
  else if oldState ≠ kStateVisible then (false, alreadyMatches, c)
  else
    let (oldMeta, c) := c.refIncr h
    if state oldMeta = kStateVisible then
      if (c.slot h).hashedKey = handle.hashedKey then (false, true, c.refDecr h)
      else (false, alreadyMatches, c.refDecr h)
    else if state oldMeta = kStateInvisible then (false, alreadyMatches, c.refDecr h)
    else (false, alreadyMatches, c)

def finishSlotInsert (handle : Handle) (h : Nat) (c : ClockCache) : ClockCache :=
  let c := c.setSlot h {c.slot h with toHandle := handle}
  c.setMeta h ((kStateVisible <<< kStateShift) ||| (kInitHitCount <<< kHitCounterShift))

def tryInsert (handle : Handle) (h : Nat) (c : ClockCache) (alreadyMatches : Bool) :
    Bool × Bool × ClockCache :=
  let (b, alreadyMatches, c) := beginSlotInsert handle h c alreadyMatches
  if b then (b, alreadyMatches, finishSlotInsert handle h c) else (b, alreadyMatches, c)

/-! ### The probe loop -/

def modLength (c : ClockCache) (x : UInt64) : UInt64 := x % c.length

/-- The `do … while` of `FindSlot`, with the captured variables of the three
functions in `s`; `mod` is `ModLength`. -/
def findSlotLoop {S : Type} (mod : UInt64 → UInt64) (increment first : UInt64)
    (matchFn : Nat → S → Option (Bool × S)) (abortFn : Nat → S → Option (Bool × S))
    (updateFn : Nat → Bool → S → Option S) :
    Nat → UInt64 → S → Option (Option Nat × S)
  | 0, _, _ => none
  | fuel + 1, current, s => do
    let h := current.toNat
    let (found, s) ← matchFn h s
    if found then return (some h, s)
    let (stop, s) ← abortFn h s
    if stop then return (none, s)
    let current := mod (current + increment)
    let isLast := current == first
    let s ← updateFn h isLast s
    if isLast then return (none, s)
    findSlotLoop mod increment first matchFn abortFn updateFn fuel current s

def findSlot {S : Type} (c : ClockCache) (hashedKey : UniqueId64x2)
    (matchFn : Nat → S → Option (Bool × S)) (abortFn : Nat → S → Option (Bool × S))
    (updateFn : Nat → Bool → S → Option S) (s : S) : Option (Option Nat × S) :=
  let base := hashedKey.2
  let increment := hashedKey.1 ||| 1
  let first := c.modLength base
  findSlotLoop c.modLength increment first matchFn abortFn updateFn c.length.toNat first s

/-- `displacements` of one slot by `count`, modulo 2^32. -/
def displace (c : ClockCache) (i : Nat) (count : UInt32) : ClockCache :=
  c.setSlot i {c.slot i with displacements := (c.slot i).displacements + count}

def rollbackLoop (increment : UInt64) (h : Nat) : Nat → UInt64 → ClockCache → Option ClockCache
  | 0, _, _ => none
  | fuel + 1, current, c =>
    if current.toNat = h then some c
    else rollbackLoop increment h fuel (c.modLength (current + increment))
      (c.displace current.toNat (-1))

def rollback (c : ClockCache) (hashedKey : UniqueId64x2) (h : Nat) : Option ClockCache :=
  rollbackLoop (hashedKey.1 ||| 1) h c.length.toNat (c.modLength hashedKey.2) c

/-! ### Lookup and Release -/

def lookupMatch (hashedKey : UniqueId64x2) (h : Nat) (c : ClockCache) :
    Option (Bool × ClockCache) :=
  let (oldMeta, c) := c.refIncr h
  if state oldMeta = kStateVisible then
    if (c.slot h).hashedKey = hashedKey then some (true, c.hitIncr h 1)
    else some (false, c.refDecr h)
  else if state oldMeta = kStateInvisible then some (false, c.refDecr h)
  else some (false, c)  -- nothing to undo on a slot that holds no entry

/-- The abort function of `Lookup` and `Erase`. -/
def notDisplaced (h : Nat) (c : ClockCache) : Bool := (c.slot h).displacements == 0

def lookup (c : ClockCache) (hashedKey : UniqueId64x2) : Option (Option Nat × ClockCache) :=
  c.findSlot hashedKey (lookupMatch hashedKey) (fun h c => some (notDisplaced h c, c))
    (fun _ _ c => some c) c

def release (c : ClockCache) (h : Nat) : Bool × ClockCache := (true, c.refDecr h)

/-! ### Erase -/

def reclaimEntryUsage (c : ClockCache) (totalCharge : UInt64) : ClockCache :=
  {c with occupancy := c.occupancy - 1, usage := c.usage - totalCharge}

/-- The table and the two flags `Erase` captures. -/
structure EraseState where
  cache : ClockCache
  found : Bool
  succ : Bool

def eraseMatch (hashedKey : UniqueId64x2) (h : Nat) (s : EraseState) :
    Option (Bool × EraseState) := do
  let (oldMeta, c) := s.cache.refIncr h
  if state oldMeta = kStateVisible then
    if (c.slot h).hashedKey = hashedKey then
      let oldMeta := (c.slot h).metaWord
      let c := c.setMeta h (oldMeta &&& ~~~(kStateVisibleBit <<< kStateShift))
      let oldMeta := oldMeta &&& ~~~(kStateVisibleBit <<< kStateShift)
      -- the loop runs once: with no other thread the compare-and-swap succeeds
      if refCount oldMeta > 1 then return (false, ⟨c.refDecr h, true, s.succ⟩)
      let c := c.setMeta h (kStateConstruction <<< kStateShift)
      let totalCharge := (c.slot h).totalCharge
      let c := c.freeDataMarkEmpty h
      let c := c.reclaimEntryUsage totalCharge
      let c ← c.rollback hashedKey h
      return (false, ⟨c, true, true⟩)
    else return (false, {s with cache := c.refDecr h})
  else if state oldMeta = kStateInvisible then return (false, {s with cache := c.refDecr h})
  else return (false, {s with cache := c.refDecr h})

def erase (c : ClockCache) (hashedKey : UniqueId64x2) : Option (Bool × ClockCache) := do
  let (_, s) ← c.findSlot hashedKey (eraseMatch hashedKey)
    (fun h s => some (notDisplaced h s.cache, s)) (fun _ _ s => some s) ⟨c, false, false⟩
  return (s.succ || !s.found, s.cache)

/-! ### Eviction -/

def isEvictionEffortExceeded (data : EvictionData) : Bool :=
  (data.freedCount + 1) * 30 ≤ data.seenPinnedCount

/-- Whether ownership of the slot was taken. -/
def clockUpdate (h : Nat) (c : ClockCache) (data : EvictionData) (hitCountSum hitDecrDelta : Int) :
    Bool × ClockCache × EvictionData × Int :=
  let metaWord := (c.slot h).metaWord
  if state metaWord &&& kStateShareableBit = 0 then (false, c, data, hitCountSum)
  else if refCount metaWord > 0 then
    (false, c, {data with seenPinnedCount := data.seenPinnedCount + 1}, hitCountSum)
  else
    let hits := hitCount metaWord
    if state metaWord = kStateVisible ∧ hits > 0 then
      let newHitCount := max (hits - hitDecrDelta) 0
      let newMeta := (kStateVisible <<< kStateShift) ||| (metaWord &&& kHitBitMask) |||
        (UInt64.ofInt newHitCount <<< kHitCounterShift)
      -- `hit_count_sum += new_hit_count` moves the pointer, not the sum it points to
      (false, c.setMeta h newMeta, data, hitCountSum)
    else
      let c := c.setMeta h ((kStateConstruction <<< kStateShift) ||| (metaWord &&& kHitBitMask))
      let data := {data with
        freedCharge := data.freedCharge + (c.slot h).totalCharge
        freedCount := data.freedCount + 1}
      (true, c, data, hitCountSum)

def trackAndReleaseEvictedEntry (c : ClockCache) (h : Nat) : ClockCache := c.freeDataMarkEmpty h

/-- The table and the locals of `Evict`. -/
structure EvictState where
  cache : ClockCache
  data : EvictionData
  hitCountSum : Int
  hitDecrDelta : Int

/-- One slot under the clock hand. -/
def evictSlot (s : EvictState) (h : Nat) : Option EvictState := do
  let (owned, c, data, hitCountSum) := clockUpdate h s.cache s.data s.hitCountSum s.hitDecrDelta
  if owned then
    let c ← c.rollback (c.slot h).hashedKey h
    return {s with
      cache := c.trackAndReleaseEvictedEntry h, data := data, hitCountSum := hitCountSum}
  return {s with cache := c, data := data, hitCountSum := hitCountSum}

def kStepSize : UInt64 := 4

/-- The `step_size` slots from the clock pointer on. -/
def evictStep (s : EvictState) (oldClockPointer : UInt64) : Option EvictState :=
  [0, 1, 2, 3].foldlM
    (fun s i => evictSlot s (s.cache.modLength (oldClockPointer + i)).toNat) s

/-- `std::max(hit_count_sum * 1.0 / kDecrHitPerEntryCount, 1.0)`, at least the option's minimum. -/
def newHitDecrDelta (hitCountSum hitDecrDeltaMin : Int) : Int :=
  max (max (hitCountSum / kDecrHitPerEntryCount) 1) hitDecrDeltaMin

def evictLoop (requestedCharge maxClockPointer : UInt64) :
    Nat → UInt64 → Int → EvictState → Option EvictState
  | 0, _, _, _ => none
  | fuel + 1, oldClockPointer, offset, s => do
    let s ← evictStep s oldClockPointer
    if s.data.freedCharge ≥ requestedCharge then return s
    if oldClockPointer ≥ maxClockPointer then return s
    if isEvictionEffortExceeded s.data then return s
    let oldClockPointer := s.cache.clockPointer
    let s := {s with cache := {s.cache with clockPointer := oldClockPointer + kStepSize}}
    let offset := offset + 4
    if offset + 4 ≥ kDecrHitPerEntryCount then
      let delta := newHitDecrDelta s.hitCountSum s.cache.hitDecrDeltaMin
      evictLoop requestedCharge maxClockPointer fuel oldClockPointer offset
        {s with hitDecrDelta := delta, hitCountSum := 0}
    else evictLoop requestedCharge maxClockPointer fuel oldClockPointer offset s

def evict (c : ClockCache) (requestedCharge : UInt64) : Option (EvictionData × ClockCache) := do
  let oldClockPointer := c.clockPointer
  let c := {c with clockPointer := oldClockPointer + kStepSize}
  let maxClockPointer := oldClockPointer + kMaxCountdown * c.length
  let s ← evictLoop requestedCharge maxClockPointer (2 ^ 62 + 1) oldClockPointer 0
    ⟨c, {}, 0, c.hitDecrDelta⟩
  -- stored when the function returns, by the deleter bound to a local
  return (s.data, {s.cache with hitDecrDelta := s.hitDecrDelta})

/-! ### Insert -/

/-- The table and the flag `DoInsert` writes through its pointer. -/
structure InsertState where
  cache : ClockCache
  alreadyMatches : Bool

def insertMatch (handle : Handle) (h : Nat) (s : InsertState) : Option (Bool × InsertState) :=
  let (b, alreadyMatches, c) := tryInsert handle h s.cache s.alreadyMatches
  some (b, ⟨c, alreadyMatches⟩)

def insertAbort (handle : Handle) (h : Nat) (s : InsertState) : Option (Bool × InsertState) :=
  if s.alreadyMatches then do
    -- stop searching and roll back displacements
    let c ← s.cache.rollback handle.hashedKey h
    return (true, {s with cache := c})
  else some (false, s)

def insertUpdate (handle : Handle) (h : Nat) (isLast : Bool) (s : InsertState) :
    Option InsertState :=
  if isLast then do
    -- search is ending, roll back displacements
    let c ← s.cache.rollback handle.hashedKey h
    return {s with cache := c}
  else some {s with cache := s.cache.displace h 1}

/-- The slot inserted into, and whether the key was found instead. -/
def doInsert (c : ClockCache) (handle : Handle) : Option (Option Nat × Bool × ClockCache) := do
  let (e, s) ← c.findSlot handle.hashedKey (insertMatch handle) (insertAbort handle)
    (insertUpdate handle) ⟨c, false⟩
  if s.alreadyMatches then return (none, true, s.cache)
  return (e, false, s.cache)

/-- The accounts of `Insert` after `Evict`: what was freed beyond the need goes
back, and a need not met gives the reservation up. -/
def settleCharge (c : ClockCache) (data : EvictionData) (oldUsage newUsage needEvictCharge : UInt64)
    (needEvictForOccupancy : Bool) : Bool × ClockCache :=
  let c := {c with occupancy := c.occupancy - data.freedCount}
  if data.freedCharge > needEvictCharge then
    (true, {c with usage := c.usage - (data.freedCharge - needEvictCharge)})
  else if data.freedCharge < needEvictCharge ∨ (needEvictForOccupancy ∧ data.freedCount = 0) then
    (false, {c with usage := c.usage - (data.freedCharge + (newUsage - oldUsage))})
  else (true, c)

def evictForCharge (c : ClockCache) (totalCharge : UInt64) (needEvictForOccupancy : Bool) :
    Option (Bool × ClockCache) := do
  let oldUsage := c.usage
  let newUsage := min c.capacity (oldUsage + totalCharge)
  -- with no other thread the compare-and-swap succeeds at once
  let c := {c with usage := newUsage}
  let needEvictCharge := oldUsage + totalCharge - newUsage
  let requestEvictCharge :=
    if needEvictForOccupancy ∧ needEvictCharge = 0 then 1 else needEvictCharge
  if requestEvictCharge > 0 then
    let (data, c) ← c.evict requestEvictCharge
    return c.settleCharge data oldUsage newUsage needEvictCharge needEvictForOccupancy
  return (true, c)

/-- `Erase(handle.hashed_key) && DoInsert(handle, &already_matches)`. -/
def eraseAndInsert (c : ClockCache) (handle : Handle) : Option (Bool × ClockCache) := do
  let (erased, c) ← c.erase handle.hashedKey
  if !erased then return (false, c)
  let (e, _, c) ← c.doInsert handle
  return (e.isSome, c)

/-- The first lines of `Insert`: whether there is room, its occupancy and charge
reserved. -/
def reserve (c : ClockCache) (handle : Handle) : Option (Bool × ClockCache) :=
  let oldOccupancy := c.occupancy
  let c := {c with occupancy := oldOccupancy + 1}
  let needEvictForOccupancy : Bool := oldOccupancy + 1 > c.occupancyLimit
  c.evictForCharge handle.totalCharge needEvictForOccupancy

def insert (c : ClockCache) (handle : Handle) : Option (Bool × ClockCache) := do
  let (room, c) ← c.reserve handle
  if !room then return (false, {c with occupancy := c.occupancy - 1})
  -- new
  let (e, alreadyMatches, c) ← c.doInsert handle
  if e.isSome then return (true, c)
  -- update
  let (updated, c) ← if alreadyMatches then c.eraseAndInsert handle else some (false, c)
  if updated then return (true, c)
  return (false, {c with occupancy := c.occupancy - 1, usage := c.usage - handle.totalCharge})

/-! ### The destructor -/

/-- One slot of `~ClockCache`. The entry is freed where it is, and its word stays. -/
def destroySlot (c : ClockCache) (i : Nat) : Option ClockCache :=
  let state := state (c.slot i).metaWord
  if state = kStateEmpty then some c
  else if state = kStateInvisible ∨ state = kStateVisible then do
    let c := c.freeData i
    let c ← c.rollback (c.slot i).hashedKey i
    return c.reclaimEntryUsage (c.slot i).totalCharge
  else some c  -- `assert(false)`

def destroy (c : ClockCache) : Option ClockCache := (List.range c.length.toNat).foldlM destroySlot c

end ClockCache

end HyperCache.Clock
