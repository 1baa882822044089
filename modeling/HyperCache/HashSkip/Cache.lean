import HyperCache.HashSkip.AtomicSkipList
import HyperCache.Lib.Stepwise
import HyperCache.Util.Queue

/-! The hash-skip cache (`hash_skip/cache.h`), one call at a time.

Each bucket is a skip list. Every so often one is decayed: all its hit counts fall, a
node without hits is deleted, and one with few goes into the queue from which `Evict`
takes its victims. Or it is compacted: its live nodes are copied into a new list, which
takes its place under the next generation.

`memoryUsed` is the sum itself, whatever `int64_t` can hold; charges are `int32_t`. `none` is a
call that does not return. -/
namespace HyperCache.HashSkip

structure LowKey where
  bucketIndex : Nat := 0
  /-- The generation of the bucket when pushed. -/
  gen : Nat := 0
  key : Int64 := 0
  deriving Inhabited

structure HashSkipCache where
  capicity : Int
  memoryUsed : Int := 0
  /-- `buckets_.size()`. -/
  bucketNum : Nat
  buckets : Nat → Option AtomicSkipList := fun _ => none
  bucketsGen : Nat → Nat := fun _ => 0
  lowQueue : Util.Queue LowKey := .make 10000
  initDone : Bool := false

namespace HashSkipCache

def make (capicity : Int) (bucketNum : Nat) : HashSkipCache :=
  {capicity := capicity, bucketNum := bucketNum}

def init (c : HashSkipCache) : HashSkipCache :=
  if c.initDone then c
  else {c with
    buckets := fun i => if i < c.bucketNum then some AtomicSkipList.make else c.buckets i
    initDone := true}

/-- `key % buckets_.size()`, where the key is converted to the unsigned type first. -/
def bucketIndex (c : HashSkipCache) (key : Int64) : Nat := key.toUInt64.toNat % c.bucketNum

def setBucket (c : HashSkipCache) (i : Nat) (l : AtomicSkipList) : HashSkipCache :=
  {c with buckets := Function.update c.buckets i (some l)}

@[simp] theorem setBucket_self (c : HashSkipCache) (i : Nat) (l : AtomicSkipList) :
    (c.setBucket i l).buckets i = some l :=
  Function.update_self ..

theorem setBucket_of_ne (c : HashSkipCache) {i j : Nat} (l : AtomicSkipList) (hne : j ≠ i) :
    (c.setBucket i l).buckets j = c.buckets j :=
  Function.update_of_ne hne ..

def get (c : HashSkipCache) (key : Int64) : Option (Option Handle × HashSkipCache) :=
  match c.buckets (c.bucketIndex key) with
  | none => some (none, c)
  | some bucket => do
    let (handle, bucket) ← bucket.get key
    return (handle, c.setBucket (c.bucketIndex key) bucket)

/-! ### Evict -/

/-- What becomes of one entry of the queue: the charge that marking its node has freed, zero
if there is nothing to mark. -/
def evictOne (c : HashSkipCache) (it : LowKey) : Option (Int32 × HashSkipCache) :=
  if it.gen ≠ c.bucketsGen it.bucketIndex then some (0, c)
  else
    match c.buckets it.bucketIndex with
    | none => some (0, c)
    | some bucket => do
      match ← bucket.getNode it.key with
      | none => return (0, c)
      | some node =>
        let (freeCharge, bucket) := bucket.markNode node
        let c := c.setBucket it.bucketIndex bucket
        if freeCharge > 0 then return (freeCharge, {c with memoryUsed := c.memoryUsed + freeCharge.toInt})
        else return (0, c)

/-- The loop of `Evict`: what is still needed at its end, and the cache. -/
def evictLoop : Nat → Int32 → HashSkipCache → Option (Int32 × HashSkipCache)
  | 0, _, _ => none
  | fuel + 1, needCharge, c =>
    if needCharge > 0 ∧ c.lowQueue.size > 0 then do
      let (it, q) ← c.lowQueue.pop
      let c := {c with lowQueue := q}
      match it with
      | none => evictLoop fuel needCharge c
      | some it =>
        let (freeCharge, c) ← c.evictOne it
        evictLoop fuel (needCharge - freeCharge) c
    else some (needCharge, c)

/-- Every turn takes an entry from the queue. -/
def evict (c : HashSkipCache) (needCharge : Int32) : Option (Bool × HashSkipCache) := do
  let (_, c) ← evictLoop (c.lowQueue.size.toNat + 1) needCharge c
  return (true, c)

/-! ### Insert -/

/-- `handle ? handle->Charge() : 0`. -/
def charge (handle : Option Handle) : Int32 := (handle.map Handle.charge).getD 0

/-- What `Insert` does once there is room. -/
def store (c : HashSkipCache) (key : Int64) (handle : Option Handle) (levels : List Nat) :
    Option (Bool × HashSkipCache) :=
  match c.buckets (c.bucketIndex key) with
  | none => some (false, c)
  | some bucket => do
    let (oldHandle, bucket) ← bucket.insert key handle levels
    let charge := match oldHandle with
      | none => charge handle
      | some old => charge handle - old.charge
    let c := c.setBucket (c.bucketIndex key) bucket
    return (true, {c with memoryUsed := c.memoryUsed + charge.toInt})

def insert (c : HashSkipCache) (key : Int64) (handle : Option Handle) (levels : List Nat) :
    Option (Bool × HashSkipCache) :=
  if (c.buckets (c.bucketIndex key)).isNone then some (false, c)
  else if c.memoryUsed + (charge handle).toInt > c.capicity then do
    let (enough, c) ← c.evict (charge handle)
    if enough then c.store key handle levels else return (false, c)
  else c.store key handle levels

/-! ### Decay -/

/-- The list that a pass over bucket `i` has loaded. -/
def bucket (i : Nat) (c : HashSkipCache) : AtomicSkipList := (c.buckets i).getD AtomicSkipList.make

/-- `fn` of `DecayOneBucket`. -/
def decayNode (i a : Nat) (c : HashSkipCache) : Option (Bool × HashSkipCache) :=
  let (hitCount, node) := ((c.bucket i).node a).decrHitCount 100
  let c := c.setBucket i ((c.bucket i).setNode a node)
  if hitCount > 100 then some (true, c)
  else if hitCount > 0 then do
    let (_, q) ← c.lowQueue.push ⟨i, c.bucketsGen i, node.key⟩
    return (true, {c with lowQueue := q})
  else
    let (freeCharge, bucket) := (c.bucket i).markDeleted a
    let c := c.setBucket i bucket
    if freeCharge > 0 then some (true, {c with memoryUsed := c.memoryUsed - freeCharge.toInt})
    else some (true, c)

def decayOneBucket (c : HashSkipCache) (i : Nat) : Option HashSkipCache :=
  if (c.buckets i).isNone then some c
  else AtomicSkipList.iterateLevel (bucket i) (decayNode i) (c.bucket i).size AtomicSkipList.head c

/-! ### Compaction -/

/-- `GetMarkedDeletedNum() * 1.0 / GetNodeNum() < 0.3`; the ratio of two zeros is not. -/
def sparse (l : AtomicSkipList) : Bool := l.nodeNum ≠ 0 && 10 * l.markedDeletedNum < 3 * l.nodeNum

/-- `fn` of `CompactOneBucket`. -/
def copyNode (levels : Nat → Fin (maxLevel + 1)) (bucket : AtomicSkipList) (a : Nat)
    (newBucket : AtomicSkipList) : Option (Bool × AtomicSkipList) := do
  let (_, newBucket) ← newBucket.insert (bucket.node a).key (bucket.node a).handle [(levels a).val]
  return (true, newBucket)

/-- `levels` are the random levels, one for each node that is copied. -/
def compactOneBucket (c : HashSkipCache) (i : Nat) (levels : Nat → Fin (maxLevel + 1)) :
    Option (Option AtomicSkipList) :=
  match c.buckets i with
  | none => some none
  | some bucket =>
    if sparse bucket then some none
    else do
      let newBucket ← AtomicSkipList.iterateLevel (fun _ => bucket) (copyNode levels bucket) bucket.size
        AtomicSkipList.head AtomicSkipList.make
      return some newBucket

/-- What `Compact` does with a new bucket. -/
def swap (c : HashSkipCache) (i : Nat) (newBucket : AtomicSkipList) : HashSkipCache :=
  {c.setBucket i newBucket with bucketsGen := Function.update c.bucketsGen i (c.bucketsGen i + 1)}

/-! ### Runs -/

/-- A call of a client, or a turn of one of the threads of the cache. -/
inductive Call where
  | insert (key : Int64) (handle : Option Handle) (topLevel : Fin (maxLevel + 1))
  | get (key : Int64)
  | decay (i : Nat)
  | compact (i : Nat) (levels : Nat → Fin (maxLevel + 1))

/-- `none`: it does not return, or there is no such bucket. -/
def call (c : HashSkipCache) : Call → Option HashSkipCache
  | .insert key handle topLevel => (c.insert key handle [topLevel.val]).map Prod.snd
  | .get key => (c.get key).map Prod.snd
  | .decay i => if i < c.bucketNum then c.decayOneBucket i else none
  | .compact i levels =>
    if i < c.bucketNum then do
      match ← c.compactOneBucket i levels with
      | none => return c
      | some newBucket => return c.swap i newBucket
    else none

def run (c : HashSkipCache) (calls : List Call) : Option HashSkipCache := Stepwise.run call c calls

end HashSkipCache

end HyperCache.HashSkip
