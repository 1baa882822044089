import HyperCache.HashSkip.PtrUtil
import Mathlib.Logic.Function.Basic

/-! The skip list of a bucket (`hash_skip/node.h`, `hash_skip/atomic_skiplist.h`), one
call at a time.

Nodes live in a heap, at addresses that are never used again; `head_` and `tail_` are
at fixed ones. Deletion marks a node in the mark of its own level-0 pointer and takes
its handle; the node stays linked until the bucket is compacted.

`findStep` is one load of `Find`. A call draws its random levels from a list, one for
each turn of `Insert`'s loop. `none` is a loop that does not end, or one of `Find` or
`IterateLevel` that has come to the null pointer, which is the address zero. -/
namespace HyperCache.HashSkip

/-- The object a `std::shared_ptr<Handle>` points to: which one it is, and its `Charge()`. -/
structure Handle where
  id : Nat
  charge : Int32
  deriving DecidableEq

def MAX_HIT_COUNT : Int16 := 1000

structure Node where
  key : Int64 := 0
  topLevel : Nat := 0
  /-- Of length `topLevel + 1`. -/
  nexts : List MarkVersionedPtr := []
  handle : Option Handle := none
  hitCount : Int16 := 200
  deriving Inhabited

namespace Node

/-- A new node, its pointers null. -/
def make (key : Int64) (handle : Option Handle) (topLevel : Nat) : Node :=
  {key := key, topLevel := topLevel, nexts := List.replicate (topLevel + 1) default, handle := handle}

def next (n : Node) (level : Nat) : MarkVersionedPtr := n.nexts.getD level default

def isMarked (n : Node) : Bool := (n.next 0).marked

def incrHitCount (n : Node) : Node :=
  if n.hitCount ≥ MAX_HIT_COUNT then n else {n with hitCount := n.hitCount + 1}

def decrHitCount (n : Node) (delta : Int16) : Int16 × Node :=
  if n.hitCount ≤ 0 then (0, n)
  else
    let newCount := if n.hitCount ≤ delta then 0 else n.hitCount - delta
    (newCount, {n with hitCount := newCount})

/-- The charge of the handle it took; zero if the node was marked already. -/
def markDeleted (n : Node) : Int32 × Node :=
  let expected := n.next 0
  if expected.marked then (0, n)
  else
    let desired : MarkVersionedPtr := ⟨expected.raw, expected.version + 1, true⟩
    ((n.handle.map Handle.charge).getD 0, {n with nexts := n.nexts.set 0 desired, handle := none})

end Node

/-- `max_level_`. -/
def maxLevel : Nat := 15

/-- Named, so that a level carries no proof. -/
instance (priority := high) instNeZeroLevels : @NeZero Nat Zero.ofOfNat0 (maxLevel + 1) := ⟨Nat.succ_ne_zero maxLevel⟩

structure AtomicSkipList where
  node : Nat → Node
  /-- The addresses from here on are free. -/
  size : Nat
  nodeNum : Nat := 0
  markedDeletedNum : Nat := 0

namespace AtomicSkipList

/-- `head_`. -/
def head : Nat := 1

/-- `tail_`. -/
def tail : Nat := 2

def make : AtomicSkipList where
  node := Function.update
    (Function.update (fun _ => default) tail (Node.make Int64.maxValue none maxLevel)) head
    {Node.make Int64.minValue none maxLevel with
      nexts := List.replicate (maxLevel + 1) {raw := tail}}
  size := 3

def setNode (l : AtomicSkipList) (a : Nat) (n : Node) : AtomicSkipList :=
  {l with node := Function.update l.node a n}

def next (l : AtomicSkipList) (a level : Nat) : MarkVersionedPtr := (l.node a).next level

def setNext (l : AtomicSkipList) (a level : Nat) (p : MarkVersionedPtr) : AtomicSkipList :=
  l.setNode a {l.node a with nexts := (l.node a).nexts.set level p}

/-! ### Find -/

/-- The locals of `Find`. -/
structure FindState where
  level : Nat
  pred : Nat
  preds : Nat → Nat := fun _ => 0
  succs : Nat → MarkVersionedPtr := fun _ => default
  found : Bool := false

def FindState.start : FindState := {level := maxLevel, pred := head}

/-- A level is searched: `currPtr` points to the first node that is not before the key. -/
def FindState.record (s : FindState) (currPtr : MarkVersionedPtr) (equal : Bool) : FindState :=
  {s with
    preds := Function.update s.preds s.level s.pred
    succs := Function.update s.succs s.level currPtr
    found := s.found || equal}

/-- One load: to the next node, down one level, or to the end of `Find` (on the right). -/
def findStep (l : AtomicSkipList) (key : Int64) (s : FindState) : FindState ⊕ FindState :=
  let currPtr := l.next s.pred s.level
  let curr := currPtr.raw
  if (l.node curr).key < key then .inl {s with pred := curr}
  else
    let recorded := s.record currPtr ((l.node curr).key == key)
    match s.level with
    | 0 => .inr recorded
    | level + 1 => .inl {recorded with level := level}

def findLoop (l : AtomicSkipList) (key : Int64) : Nat → FindState → Option FindState
  | 0, _ => none
  | fuel + 1, s =>
    -- `curr->key` through a null pointer
    if (l.next s.pred s.level).raw = 0 then none
    else
      match l.findStep key s with
      | .inl s => findLoop l key fuel s
      | .inr s => some s

/-- A search visits each node and each level at most once. -/
def find (l : AtomicSkipList) (key : Int64) : Option FindState :=
  l.findLoop key (l.size + maxLevel + 1) FindState.start

/-! ### Get -/

/-- `Get(key)`: the node, if it is there and not marked. -/
def getNode (l : AtomicSkipList) (key : Int64) : Option (Option Nat) := do
  let s ← l.find key
  let node := (s.succs 0).raw
  if !s.found then return none
  if (l.node node).isMarked then return none
  return some node

/-- `Get(key, handle)`. -/
def get (l : AtomicSkipList) (key : Int64) : Option (Option Handle × AtomicSkipList) := do
  match ← l.getNode key with
  | none => return (none, l)
  | some node => return ((l.node node).handle, l.setNode node (l.node node).incrHitCount)

/-! ### Insert -/

def updateHandle (l : AtomicSkipList) (node : Nat) (handle : Option Handle) : AtomicSkipList :=
  l.setNode node {l.node node with handle := handle}

/-- `new Node`, its pointers set to the successors found. -/
def newNode (l : AtomicSkipList) (key : Int64) (handle : Option Handle) (topLevel : Nat)
    (succs : Nat → MarkVersionedPtr) : Nat × AtomicSkipList :=
  let n := Node.make key handle topLevel
  let n := {n with nexts := (List.range (topLevel + 1)).map fun level => {raw := (succs level).raw}}
  (l.size, {l.setNode l.size n with size := l.size + 1})

def linkLevel (l : AtomicSkipList) (pred : Nat) (expected : MarkVersionedPtr) (newNode level : Nat) :
    Bool × AtomicSkipList :=
  let desired : MarkVersionedPtr := ⟨newNode, expected.version + 1, false⟩
  if l.next pred level = expected then (true, l.setNext pred level desired) else (false, l)

/-- The links above level 0, from `level` on. -/
def linkUpper (key : Int64) (newNode topLevel : Nat) :
    Nat → Nat → FindState → AtomicSkipList → Option AtomicSkipList
  | 0, _, _, _ => none
  | fuel + 1, level, s, l =>
    if topLevel < level then some l
    else
      match l.linkLevel (s.preds level) (s.succs level) newNode level with
      | (true, l) => linkUpper key newNode topLevel fuel (level + 1) s l
      | (false, l) => do
        let s ← l.find key
        linkUpper key newNode topLevel fuel level s l

/-- The loop of `Insert`. The handle is moved into the new node, so that a second turn
has none. -/
def insertLoop (key : Int64) :
    List Nat → Option Handle → AtomicSkipList → Option (Option Handle × AtomicSkipList)
  | levels, handle, l => do
    let s ← l.find key
    if s.found then
      let node := (s.succs 0).raw
      return ((l.node node).handle, l.updateHandle node handle)
    match levels with
    | [] => none
    | topLevel :: levels =>
      let (node, l) := l.newNode key handle topLevel s.succs
      match l.linkLevel (s.preds 0) (s.succs 0) node 0 with
      | (false, l) => insertLoop key levels none l
      | (true, l) =>
        let l ← linkUpper key node topLevel (maxLevel + 1) 1 s l
        return (none, {l with nodeNum := l.nodeNum + 1})

/-- The old handle of the key, and the list. -/
def insert (l : AtomicSkipList) (key : Int64) (handle : Option Handle) (levels : List Nat) :
    Option (Option Handle × AtomicSkipList) :=
  if handle.isNone then some (none, l) else insertLoop key levels handle l

/-! ### Iteration and deletion -/

/-- `IterateLevel` on level 0, from `pred`; `view` finds the list in the state of `fn`. -/
def iterateLevel {S : Type} (view : S → AtomicSkipList) (fn : Nat → S → Option (Bool × S)) :
    Nat → Nat → S → Option S
  | 0, _, _ => none
  | fuel + 1, pred, s => do
    let curr := ((view s).next pred 0).raw
    if curr = 0 then none
    else if ((view s).node curr).isMarked then iterateLevel view fn fuel curr s
    else if curr = tail then return s
    else
      let (more, s) ← fn curr s
      if more then iterateLevel view fn fuel curr s else return s

/-- `Node::MarkDeleted`. -/
def markNode (l : AtomicSkipList) (a : Nat) : Int32 × AtomicSkipList :=
  let (charge, n) := (l.node a).markDeleted
  (charge, l.setNode a n)

/-- `AtomicSkipList::MarkDeleted`. -/
def markDeleted (l : AtomicSkipList) (a : Nat) : Int32 × AtomicSkipList :=
  let (charge, l) := l.markNode a
  (charge, if charge > 0 then {l with markedDeletedNum := l.markedDeletedNum + 1} else l)

/-! ### What a list holds -/

/-- The nodes after `pred` on level 0, up to `tail_`. -/
def nodesFrom (l : AtomicSkipList) : Nat → Nat → List Nat
  | 0, _ => []
  | fuel + 1, pred =>
    let curr := (l.next pred 0).raw
    if curr = tail then [] else curr :: nodesFrom l fuel curr

/-- The nodes between `head_` and `tail_`. -/
def nodes (l : AtomicSkipList) : List Nat := l.nodesFrom l.size head

/-- What `Get` would return. -/
def value (l : AtomicSkipList) (key : Int64) : Option Handle := (l.get key).bind Prod.fst

/-- The key has a node, and it is marked. -/
def keyMarked (l : AtomicSkipList) (key : Int64) : Bool :=
  (l.find key).any fun s => s.found && (l.node (s.succs 0).raw).isMarked

end AtomicSkipList

end HyperCache.HashSkip
