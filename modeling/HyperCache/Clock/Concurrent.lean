import HyperCache.Clock.ClockCache
import HyperCache.Lib.Interleaving

/-! The clock cache under any number of threads, access by access.

Every access to an atomic (a slot's `meta` or `displacements`, `usage_`,
`occupancy_`, `clock_pointer_`, `hit_decr_delta_`) is one step, and so is every read
or write of a slot's own data that other threads might race with. A thread's
position (`Pc`) says which access it makes next and carries the locals it needs.

The memory also keeps what no step reads: the handles that `Lookup` returned and
nobody released, the references that calls left on slots without an entry, and
whether a slot was published since it was last marked empty. -/
namespace HyperCache.Clock
open ClockCache

/-! ### One slot under `Lookup` -/

/-- Where the match function of `Lookup` stands. -/
inductive SlotPc where
  | ref
  | key
  | hit
  | hitSub (overflow : Int)
  | undo
  deriving DecidableEq

/-- One access of the match function of `Lookup`; on the right, its result. -/
def lookupAccess (hashedKey : UniqueId64x2) (h : HandleImpl) : SlotPc → HandleImpl × (SlotPc ⊕ Bool)
  | .ref =>
    let oldMeta := h.metaWord
    ({h with metaWord := oldMeta + kRefIncrement},
      if state oldMeta = kStateVisible then .inl .key
      else if state oldMeta = kStateInvisible then .inl .undo
      else .inr false)
  | .key => (h, .inl (if h.hashedKey = hashedKey then .hit else .undo))
  | .hit =>
    let oldMeta := h.metaWord
    let overflow := hitCount oldMeta + 1 - kMaxHitCount
    ({h with metaWord := oldMeta + kHitIncrement * UInt64.ofInt 1},
      if overflow > 0 then .inl (.hitSub overflow) else .inr true)
  | .hitSub overflow =>
    ({h with metaWord := h.metaWord - kHitIncrement * UInt64.ofInt overflow}, .inr true)
  | .undo => ({h with metaWord := h.metaWord - kRefIncrement}, .inr false)

/-! ### The memory -/

structure Memory where
  cache : ClockCache
  /-- The slots of the handles returned by `Lookup` and not released. -/
  handles : List Nat
  /-- The references that calls left on a slot since its word was last overwritten. -/
  left : Nat → Nat
  /-- Whether the slot was published since it was last marked empty. -/
  published : Nat → Bool

namespace Memory

def setSlot (m : Memory) (i : Nat) (h : HandleImpl) : Memory := {m with cache := m.cache.setSlot i h}

def setMeta (m : Memory) (i : Nat) (w : UInt64) : Memory := {m with cache := m.cache.setMeta i w}

def metaWord (m : Memory) (i : Nat) : UInt64 := (m.cache.slot i).metaWord

/-- A reference that its call leaves where it found no entry. -/
def leave (m : Memory) (i : Nat) : Memory :=
  {m with left := Function.update m.left i (m.left i + 1)}

def displace (m : Memory) (i : Nat) (count : UInt32) : Memory :=
  {m with cache := m.cache.displace i count}

/-- The exchange of `FinishSlotInsert`. -/
def publish (m : Memory) (i : Nat) : Memory :=
  {m.setMeta i ((kStateVisible <<< kStateShift) ||| (kInitHitCount <<< kHitCounterShift)) with
    left := Function.update m.left i 0, published := Function.update m.published i true}

/-- The exchange of `MarkEmpty`. -/
def markEmpty (m : Memory) (i : Nat) : Memory :=
  {m with
    cache := m.cache.markEmpty i
    left := Function.update m.left i 0
    published := Function.update m.published i false}

def freeData (m : Memory) (i : Nat) : Memory := {m with cache := m.cache.freeData i}

def subOccupancy (m : Memory) (count : UInt64) : Memory :=
  {m with cache := {m.cache with occupancy := m.cache.occupancy - count}}

def subUsage (m : Memory) (charge : UInt64) : Memory :=
  {m with cache := {m.cache with usage := m.cache.usage - charge}}

end Memory

/-! ### Positions -/

/-- An insertion in `DoInsert`, the second of its call if `again`. -/
structure InsertFrame where
  handle : Handle
  again : Bool

/-- An `Erase`, and the insertion it is part of if any. -/
structure EraseFrame where
  hashedKey : UniqueId64x2
  found : Bool
  succ : Bool
  insertion : Option Handle

/-- An insertion in `EvictForCharge` and `Evict`. -/
structure EvictFrame where
  handle : Handle
  needEvictForOccupancy : Bool
  oldUsage : UInt64
  newUsage : UInt64
  oldClockPointer : UInt64 := 0
  maxClockPointer : UInt64 := 0
  offset : Int := 0
  hitCountSum : Int := 0
  hitDecrDelta : Int := 1
  data : EvictionData := {}
  i : UInt64 := 0

/-- The access a thread makes next. -/
inductive Pc where
  | ready
  | lookup (hashedKey : UniqueId64x2) (current : UInt64) (slot : SlotPc)
  | lookupAbort (hashedKey : UniqueId64x2) (current : UInt64)
  | lookupReturn (e : Option Nat)
  | release (h : Nat)
  | insertOccupancy (handle : Handle)
  | chargeLoad (handle : Handle) (needEvictForOccupancy : Bool)
  | chargeCas (f : EvictFrame)
  | evictPointer (f : EvictFrame)
  | evictDelta (f : EvictFrame)
  | evictLoad (f : EvictFrame)
  | evictLower (f : EvictFrame) (metaWord : UInt64)
  | evictTake (f : EvictFrame) (metaWord : UInt64)
  | evictOwn (f : EvictFrame) (h : UInt64)
  | evictRollback (f : EvictFrame) (h : UInt64) (hashedKey : UniqueId64x2) (current : UInt64)
  | evictFree (f : EvictFrame) (h : UInt64)
  | evictMark (f : EvictFrame) (h : UInt64)
  | evictNext (f : EvictFrame)
  | evictStore (f : EvictFrame)
  | settleOccupancy (f : EvictFrame)
  | settleUsage (f : EvictFrame) (charge : UInt64) (room : Bool)
  | insertGiveUp
  | insertOr (f : InsertFrame) (current : UInt64)
  | insertWrite (f : InsertFrame) (current : UInt64)
  | insertPublish (f : InsertFrame) (current : UInt64)
  | insertRef (f : InsertFrame) (current : UInt64)
  | insertKey (f : InsertFrame) (current : UInt64)
  | insertUndo (f : InsertFrame) (current : UInt64) (alreadyMatches : Bool)
  | insertDisplace (f : InsertFrame) (current : UInt64)
  | insertRollback (f : InsertFrame) (h current : UInt64) (alreadyMatches : Bool)
  | insertFailOccupancy (handle : Handle)
  | insertFailUsage (handle : Handle)
  | insertReturn (succ : Bool)
  | eraseRef (f : EraseFrame) (current : UInt64)
  | eraseKey (f : EraseFrame) (current : UInt64)
  | eraseAnd (f : EraseFrame) (current : UInt64)
  | eraseCas (f : EraseFrame) (current oldMeta : UInt64)
  | eraseOwn (f : EraseFrame) (current : UInt64)
  | eraseFree (f : EraseFrame) (current totalCharge : UInt64)
  | eraseMark (f : EraseFrame) (current totalCharge : UInt64)
  | eraseOccupancy (f : EraseFrame) (current totalCharge : UInt64)
  | eraseUsage (f : EraseFrame) (current totalCharge : UInt64)
  | eraseRollback (f : EraseFrame) (h current : UInt64)
  | eraseUndo (f : EraseFrame) (current : UInt64)
  /-- `RefDecr` of the last branch, of a reference taken where there was no entry. -/
  | eraseUndoNone (f : EraseFrame) (current : UInt64)
  | eraseAbort (f : EraseFrame) (current : UInt64)
  | eraseReturn (succ : Bool)

/-- What a step does not decide: the next call of a thread that has none, and whether
a weak compare-and-swap fails though the value is the expected one. -/
inductive Choice where
  | lookup (hashedKey : UniqueId64x2)
  | release (h : Nat)
  | insert (handle : Handle)
  | erase (hashedKey : UniqueId64x2)
  | go
  | spurious
  deriving DecidableEq

/-! ### Between two accesses -/

section Local
variable (c : ClockCache)

def firstSlot (hashedKey : UniqueId64x2) : UInt64 := c.modLength hashedKey.2

def nextSlot (hashedKey : UniqueId64x2) (current : UInt64) : UInt64 :=
  c.modLength (current + (hashedKey.1 ||| 1))

/-- `FindSlot` after the slot `current` did not end the lookup. -/
def lookupNext (hashedKey : UniqueId64x2) (current : UInt64) : Pc :=
  let current := nextSlot c hashedKey current
  if current = firstSlot c hashedKey then .lookupReturn none else .lookup hashedKey current .ref

/-- The end of an erase. -/
def eraseEnd (f : EraseFrame) : Pc :=
  match f.insertion with
  | none => .eraseReturn (f.succ || !f.found)
  | some handle =>
    if f.succ || !f.found then .insertOr ⟨handle, true⟩ (firstSlot c handle.hashedKey)
    else .insertFailOccupancy handle

def eraseNext (f : EraseFrame) (current : UInt64) : Pc :=
  let current := nextSlot c f.hashedKey current
  if current = firstSlot c f.hashedKey then eraseEnd c f else .eraseRef f current

/-- The loop of `Erase` with `old_meta` read. -/
def eraseTry (f : EraseFrame) (current oldMeta : UInt64) : Pc :=
  if refCount oldMeta > 1 then .eraseUndo f current else .eraseCas f current oldMeta

def eraseRollbackAt (f : EraseFrame) (h current : UInt64) : Pc :=
  if current = h then .eraseAbort f h else .eraseRollback f h current

/-- `DoInsert` has not placed the entry. -/
def insertEnd (f : InsertFrame) (alreadyMatches : Bool) : Pc :=
  if alreadyMatches ∧ f.again = false then
    .eraseRef ⟨f.handle.hashedKey, false, false, some f.handle⟩ (firstSlot c f.handle.hashedKey)
  else .insertFailOccupancy f.handle

def insertRollbackAt (f : InsertFrame) (h current : UInt64) (alreadyMatches : Bool) : Pc :=
  if current = h then insertEnd c f alreadyMatches else .insertRollback f h current alreadyMatches

/-- `FindSlot` after `TryInsert` returned false. -/
def insertNext (f : InsertFrame) (current : UInt64) (alreadyMatches : Bool) : Pc :=
  let first := firstSlot c f.handle.hashedKey
  if alreadyMatches then insertRollbackAt c f current first true
  else if nextSlot c f.handle.hashedKey current = first then
    insertRollbackAt c f current first false
  else .insertDisplace f current

/-- `DoInsert` begins. -/
def insertStart (handle : Handle) : Pc := .insertOr ⟨handle, false⟩ (firstSlot c handle.hashedKey)

namespace EvictFrame

def needEvictCharge (f : EvictFrame) : UInt64 := f.oldUsage + f.handle.totalCharge - f.newUsage

def requestEvictCharge (f : EvictFrame) : UInt64 :=
  if f.needEvictForOccupancy ∧ f.needEvictCharge = 0 then 1 else f.needEvictCharge

def slot (f : EvictFrame) : UInt64 := c.modLength (f.oldClockPointer + f.i)

end EvictFrame

/-- `EvictForCharge` has its new usage. -/
def chargeDone (f : EvictFrame) : Pc :=
  if f.requestEvictCharge > 0 then .evictPointer f else insertStart c f.handle

/-- The loop of `EvictForCharge` with `old_usage` read. -/
def chargeTry (handle : Handle) (needEvictForOccupancy : Bool) (oldUsage : UInt64) : Pc :=
  let f : EvictFrame := {
    handle := handle
    needEvictForOccupancy := needEvictForOccupancy
    oldUsage := oldUsage
    newUsage := min c.capacity (oldUsage + handle.totalCharge)}
  if f.newUsage = oldUsage then chargeDone c f else .chargeCas f

/-- The slot of this step of `Evict` is done. -/
def evictSlotDone (f : EvictFrame) : Pc :=
  if f.i + 1 < kStepSize then .evictLoad {f with i := f.i + 1}
  else if f.data.freedCharge ≥ f.requestEvictCharge then .evictStore f
  else if f.oldClockPointer ≥ f.maxClockPointer then .evictStore f
  else if isEvictionEffortExceeded f.data then .evictStore f
  else .evictNext f

/-- `ClockUpdate` with the word of the slot loaded. -/
def evictTest (f : EvictFrame) (metaWord : UInt64) : Pc :=
  if state metaWord &&& kStateShareableBit = 0 then evictSlotDone f
  else if refCount metaWord > 0 then
    evictSlotDone {f with data := {f.data with seenPinnedCount := f.data.seenPinnedCount + 1}}
  else if state metaWord = kStateVisible ∧ hitCount metaWord > 0 then .evictLower f metaWord
  else .evictTake f metaWord

def lowered (metaWord : UInt64) (hitDecrDelta : Int) : UInt64 :=
  (kStateVisible <<< kStateShift) ||| (metaWord &&& kHitBitMask) |||
    (UInt64.ofInt (max (hitCount metaWord - hitDecrDelta) 0) <<< kHitCounterShift)

def evictRollbackAt (f : EvictFrame) (h : UInt64) (hashedKey : UniqueId64x2) (current : UInt64) : Pc :=
  if current = h then .evictFree f h else .evictRollback f h hashedKey current

/-- `EvictForCharge` after `Evict`, the freed entries off the occupancy. -/
def settleTest (f : EvictFrame) : Pc :=
  if f.data.freedCharge > f.needEvictCharge then
    .settleUsage f (f.data.freedCharge - f.needEvictCharge) true
  else if f.data.freedCharge < f.needEvictCharge ∨
      (f.needEvictForOccupancy ∧ f.data.freedCount = 0) then
    .settleUsage f (f.data.freedCharge + (f.newUsage - f.oldUsage)) false
  else insertStart c f.handle

end Local

/-! ### Steps -/

/-- A thread outside any call begins one; a handle can be released only once. -/
def callStep (m : Memory) (pc : Pc) : Choice → Memory × Pc
  | .lookup hashedKey => (m, .lookup hashedKey (firstSlot m.cache hashedKey) .ref)
  | .release h =>
    if h ∈ m.handles then ({m with handles := m.handles.erase h}, .release h) else (m, pc)
  | .insert handle => (m, .insertOccupancy handle)
  | .erase hashedKey =>
    (m, .eraseRef ⟨hashedKey, false, false, none⟩ (firstSlot m.cache hashedKey))
  | .go | .spurious => (m, pc)

/-- The next access of one thread. -/
def step (choice : Choice) (m : Memory) : Pc → Memory × Pc
  | .ready => callStep m .ready choice
  -- Lookup
  | .lookup hashedKey current slot =>
    let (h, next) := lookupAccess hashedKey (m.cache.slot current.toNat) slot
    let m' := m.setSlot current.toNat h
    match next with
    | .inl slot => (m', .lookup hashedKey current slot)
    | .inr true =>
      ({m' with handles := current.toNat :: m'.handles}, .lookupReturn (some current.toNat))
    | .inr false =>
      (if slot = .ref then m'.leave current.toNat else m', .lookupAbort hashedKey current)
  | .lookupAbort hashedKey current =>
    if notDisplaced current.toNat m.cache then (m, .lookupReturn none)
    else (m, lookupNext m.cache hashedKey current)
  | .lookupReturn e => callStep m (.lookupReturn e) choice
  | .release h => (m.setMeta h (m.metaWord h - kRefIncrement), .ready)
  -- Insert
  | .insertOccupancy handle =>
    let oldOccupancy := m.cache.occupancy
    ({m with cache := {m.cache with occupancy := oldOccupancy + 1}},
      .chargeLoad handle (oldOccupancy + 1 > m.cache.occupancyLimit))
  | .chargeLoad handle needEvictForOccupancy =>
    (m, chargeTry m.cache handle needEvictForOccupancy m.cache.usage)
  | .chargeCas f =>
    if m.cache.usage = f.oldUsage ∧ choice ≠ .spurious then
      ({m with cache := {m.cache with usage := f.newUsage}}, chargeDone m.cache f)
    else (m, chargeTry m.cache f.handle f.needEvictForOccupancy m.cache.usage)
  -- Evict
  | .evictPointer f =>
    let oldClockPointer := m.cache.clockPointer
    ({m with cache := {m.cache with clockPointer := oldClockPointer + kStepSize}},
      .evictDelta {f with
        oldClockPointer := oldClockPointer
        maxClockPointer := oldClockPointer + kMaxCountdown * m.cache.length})
  | .evictDelta f => (m, .evictLoad {f with hitDecrDelta := m.cache.hitDecrDelta})
  | .evictLoad f => (m, evictTest f (m.metaWord (f.slot m.cache).toNat))
  | .evictLower f metaWord =>
    let h := (f.slot m.cache).toNat
    if m.metaWord h = metaWord then
      (m.setMeta h (lowered metaWord f.hitDecrDelta), evictSlotDone f)
    else (m, evictSlotDone f)
  | .evictTake f metaWord =>
    let h := f.slot m.cache
    if m.metaWord h.toNat = metaWord then
      (m.setMeta h.toNat ((kStateConstruction <<< kStateShift) ||| (metaWord &&& kHitBitMask)),
        .evictOwn f h)
    else (m, evictSlotDone f)
  | .evictOwn f h =>
    let s := m.cache.slot h.toNat
    let data := {f.data with
      freedCharge := f.data.freedCharge + s.totalCharge, freedCount := f.data.freedCount + 1}
    (m, evictRollbackAt {f with data := data} h s.hashedKey (firstSlot m.cache s.hashedKey))
  | .evictRollback f h hashedKey current =>
    (m.displace current.toNat (-1),
      evictRollbackAt f h hashedKey (nextSlot m.cache hashedKey current))
  | .evictFree f h => (m.freeData h.toNat, .evictMark f h)
  | .evictMark f h => (m.markEmpty h.toNat, evictSlotDone f)
  | .evictNext f =>
    let oldClockPointer := m.cache.clockPointer
    let f := {f with oldClockPointer := oldClockPointer, offset := f.offset + 4, i := 0}
    let f := if f.offset + 4 ≥ kDecrHitPerEntryCount then
      {f with
        hitDecrDelta := newHitDecrDelta f.hitCountSum m.cache.hitDecrDeltaMin, hitCountSum := 0}
      else f
    ({m with cache := {m.cache with clockPointer := oldClockPointer + kStepSize}}, .evictLoad f)
  | .evictStore f =>
    ({m with cache := {m.cache with hitDecrDelta := f.hitDecrDelta}}, .settleOccupancy f)
  | .settleOccupancy f => (m.subOccupancy f.data.freedCount, settleTest m.cache f)
  | .settleUsage f charge room =>
    (m.subUsage charge, if room then insertStart m.cache f.handle else .insertGiveUp)
  | .insertGiveUp => (m.subOccupancy 1, .insertReturn false)
  -- DoInsert
  | .insertOr f current =>
    let oldMeta := m.metaWord current.toNat
    let m := m.setMeta current.toNat (oldMeta ||| (kStateOccupiedBit <<< kStateShift))
    if state oldMeta = kStateEmpty then (m, .insertWrite f current)
    else if state oldMeta ≠ kStateVisible then (m, insertNext m.cache f current false)
    else (m, .insertRef f current)
  | .insertWrite f current =>
    (m.setSlot current.toNat {m.cache.slot current.toNat with toHandle := f.handle},
      .insertPublish f current)
  | .insertPublish _ current => (m.publish current.toNat, .insertReturn true)
  | .insertRef f current =>
    let oldMeta := m.metaWord current.toNat
    let m := m.setMeta current.toNat (oldMeta + kRefIncrement)
    if state oldMeta = kStateVisible then (m, .insertKey f current)
    else if state oldMeta = kStateInvisible then (m, .insertUndo f current false)
    else (m.leave current.toNat, insertNext m.cache f current false)
  | .insertKey f current =>
    (m, .insertUndo f current ((m.cache.slot current.toNat).hashedKey = f.handle.hashedKey))
  | .insertUndo f current alreadyMatches =>
    (m.setMeta current.toNat (m.metaWord current.toNat - kRefIncrement),
      insertNext m.cache f current alreadyMatches)
  | .insertDisplace f current =>
    (m.displace current.toNat 1, .insertOr f (nextSlot m.cache f.handle.hashedKey current))
  | .insertRollback f h current alreadyMatches =>
    (m.displace current.toNat (-1),
      insertRollbackAt m.cache f h (nextSlot m.cache f.handle.hashedKey current) alreadyMatches)
  | .insertFailOccupancy handle => (m.subOccupancy 1, .insertFailUsage handle)
  | .insertFailUsage handle => (m.subUsage handle.totalCharge, .insertReturn false)
  | .insertReturn succ => callStep m (.insertReturn succ) choice
  -- Erase
  | .eraseRef f current =>
    let oldMeta := m.metaWord current.toNat
    let m := m.setMeta current.toNat (oldMeta + kRefIncrement)
    if state oldMeta = kStateVisible then (m, .eraseKey f current)
    else if state oldMeta = kStateInvisible then (m, .eraseUndo f current)
    else (m, .eraseUndoNone f current)
  | .eraseKey f current =>
    if (m.cache.slot current.toNat).hashedKey = f.hashedKey then
      (m, .eraseAnd {f with found := true} current)
    else (m, .eraseUndo f current)
  | .eraseAnd f current =>
    let oldMeta := m.metaWord current.toNat
    let newMeta := oldMeta &&& ~~~(kStateVisibleBit <<< kStateShift)
    (m.setMeta current.toNat newMeta, eraseTry f current newMeta)
  | .eraseCas f current oldMeta =>
    if m.metaWord current.toNat = oldMeta ∧ choice ≠ .spurious then
      (m.setMeta current.toNat (kStateConstruction <<< kStateShift), .eraseOwn f current)
    else (m, eraseTry f current (m.metaWord current.toNat))
  | .eraseOwn f current => (m, .eraseFree f current (m.cache.slot current.toNat).totalCharge)
  | .eraseFree f current totalCharge => (m.freeData current.toNat, .eraseMark f current totalCharge)
  | .eraseMark f current totalCharge =>
    (m.markEmpty current.toNat, .eraseOccupancy f current totalCharge)
  | .eraseOccupancy f current totalCharge => (m.subOccupancy 1, .eraseUsage f current totalCharge)
  | .eraseUsage f current totalCharge =>
    (m.subUsage totalCharge,
      eraseRollbackAt {f with succ := true} current (firstSlot m.cache f.hashedKey))
  | .eraseRollback f h current =>
    (m.displace current.toNat (-1), eraseRollbackAt f h (nextSlot m.cache f.hashedKey current))
  | .eraseUndo f current | .eraseUndoNone f current =>
    (m.setMeta current.toNat (m.metaWord current.toNat - kRefIncrement), .eraseAbort f current)
  | .eraseAbort f current =>
    if notDisplaced current.toNat m.cache then (m, eraseEnd m.cache f)
    else (m, eraseNext m.cache f current)
  | .eraseReturn succ => callStep m (.eraseReturn succ) choice

/-- The `Ref` of a lookup. -/
theorem step_lookupRef (choice : Choice) (m : Memory) (hashedKey : UniqueId64x2) (current : UInt64) :
    step choice m (.lookup hashedKey current .ref) =
      let oldMeta := m.metaWord current.toNat
      let m' := m.setMeta current.toNat (oldMeta + kRefIncrement)
      if state oldMeta = kStateVisible then (m', .lookup hashedKey current .key)
      else if state oldMeta = kStateInvisible then (m', .lookup hashedKey current .undo)
      else (m'.leave current.toNat, .lookupAbort hashedKey current) := by
  show step choice m _ = if state (m.cache.slot current.toNat).metaWord = kStateVisible then _ else
    if state (m.cache.slot current.toNat).metaWord = kStateInvisible then _ else _
  simp only [step, lookupAccess]
  by_cases hv : state (m.cache.slot current.toNat).metaWord = kStateVisible
  · simp only [if_pos hv]
    rfl
  · by_cases hinv : state (m.cache.slot current.toNat).metaWord = kStateInvisible
    · simp only [if_neg hv, if_pos hinv]
      rfl
    · simp only [if_neg hv, if_neg hinv]
      rfl

/-- The `HitIncr` of a lookup. -/
theorem step_lookupHit (choice : Choice) (m : Memory) (hashedKey : UniqueId64x2) (current : UInt64) :
    step choice m (.lookup hashedKey current .hit) =
      let oldMeta := m.metaWord current.toNat
      let m' := m.setMeta current.toNat (oldMeta + kHitIncrement * UInt64.ofInt 1)
      let overflow := hitCount oldMeta + 1 - kMaxHitCount
      if overflow > 0 then (m', .lookup hashedKey current (.hitSub overflow))
      else ({m' with handles := current.toNat :: m'.handles}, .lookupReturn (some current.toNat)) := by
  show step choice m _ =
    if hitCount (m.cache.slot current.toNat).metaWord + 1 - kMaxHitCount > 0 then _ else _
  simp only [step, lookupAccess]
  by_cases hover : hitCount (m.cache.slot current.toNat).metaWord + 1 - kMaxHitCount > 0
  · simp only [if_pos hover]
    rfl
  · simp only [if_neg hover]
    rfl

/-- Some access of one thread. -/
abbrev Access : Memory → Pc → Memory → Pc → Prop := Interleaving.Chosen step

/-- A new cache and threads outside any call. -/
def Memory.start (options : ClockCacheOptions) : Memory :=
  ⟨ClockCache.make options, [], fun _ => 0, fun _ => false⟩

end HyperCache.Clock
