import HyperCache.HashSkip.AtomicSkipList
import HyperCache.Lib.Interleaving

/-! The skip list with any number of threads at work (`hash_skip/atomic_skiplist.h`).

One step is one atomic access: a load of `Find`, a store to a pointer of a new node, a
compare-and-swap, a load of a mark, an access to a hit count or to one of the counters.
The handle of a node is an `AtomicSharedPtr`, so that each load and store of it counts as
one step. `new` may return any address that is not in use, also that of a node that was
deleted because its link at level 0 failed. -/
namespace HyperCache.HashSkip

/-- What a call returned. An `Insert` is known by its number. -/
inductive SharedSkipList.Reply where
  | inserted (call : Nat) (oldHandle : Option Handle)
  | gotNode (key : Int64) (node : Option Nat)
  | got (key : Int64) (handle : Option Handle)
  | markedDeleted (node : Nat) (charge : Int32)

/-- The memory. No step reads the last two fields: the keys and handles that `Insert` was
called with, in order, and what the calls returned, the last one first. -/
structure SharedSkipList where
  list : AtomicSkipList
  /-- The addresses in use. -/
  live : Nat → Bool
  passed : List (Int64 × Option Handle) := []
  replies : List SharedSkipList.Reply := []

namespace SharedSkipList
open AtomicSkipList

def make : SharedSkipList where
  list := AtomicSkipList.make
  live := fun a => a == head || a == tail

/-- The arguments of an `Insert`, and its number. The handle is none once it is moved. -/
structure InsertCall where
  call : Nat
  key : Int64
  handle : Option Handle

/-- Where a thread stands: the access it makes next, with the locals it needs. -/
inductive Pc where
  | ready
  | insertFind (i : InsertCall) (f : FindState)
  | insertUpdate (i : InsertCall) (node : Nat)
  | insertNew (i : InsertCall) (f : FindState)
  | insertStore (i : InsertCall) (f : FindState) (newNode topLevel level : Nat)
  | insertLink (i : InsertCall) (f : FindState) (newNode topLevel : Nat)
  | insertUpper (i : InsertCall) (f : FindState) (newNode topLevel level : Nat)
  | insertSearch (i : InsertCall) (f : FindState) (newNode topLevel level : Nat)
  | insertCount (i : InsertCall)
  | getFind (key : Int64) (full : Bool) (f : FindState)
  | getMarked (key : Int64) (full : Bool) (node : Nat)
  | getHandle (key : Int64) (node : Nat)
  | hitLoad (key : Int64) (node : Nat) (handle : Option Handle)
  | hitCas (key : Int64) (node : Nat) (handle : Option Handle) (oldCount : Int16)
  | markLoad (node : Nat)
  | markCas (node : Nat) (expected : MarkVersionedPtr)
  | markStore (node : Nat)
  | markCount (node : Nat) (charge : Int32)

/-- An `Insert` is in progress. -/
def Pc.inserting : Pc → Bool
  | .insertFind .. | .insertUpdate .. | .insertNew .. | .insertStore .. | .insertLink ..
  | .insertUpper .. | .insertSearch .. | .insertCount .. => true
  | _ => false

/-- The `Find` in progress, with its key. -/
def Pc.search : Pc → Option (Int64 × FindState)
  | .insertFind i f | .insertSearch i f .. => some (i.key, f)
  | .getFind key _ f => some (key, f)
  | _ => none

/-- What a step does not decide: the next call of a thread that has none, where `new` puts
a node and what `RandomLevel` returns for it, and whether a weak compare-and-swap fails
though the value is the expected one. -/
inductive Choice where
  | insert (key : Int64) (handle : Option Handle)
  | getNode (key : Int64)
  | get (key : Int64)
  | markDeleted (node : Nat)
  | new (address topLevel : Nat)
  | go
  | spurious

def Choice.isSpurious : Choice → Bool
  | .spurious => true
  | _ => false

/-- A call returns. -/
def reply (s : SharedSkipList) (r : Reply) : SharedSkipList := {s with replies := r :: s.replies}

/-- A thread outside any call begins one. `MarkDeleted` is called on nodes of the list. -/
def call (s : SharedSkipList) : Choice → SharedSkipList × Pc
  | .insert key handle =>
    let s' := {s with passed := s.passed ++ [(key, handle)]}
    if handle.isNone then (s'.reply (.inserted s.passed.length none), .ready)
    else (s', .insertFind ⟨s.passed.length, key, handle⟩ FindState.start)
  | .getNode key => (s, .getFind key false FindState.start)
  | .get key => (s, .getFind key true FindState.start)
  | .markDeleted node => (s, if node ∈ s.list.nodes then .markLoad node else .ready)
  | _ => (s, .ready)

/-- An address that `new` may return. -/
def Free (s : SharedSkipList) (address : Nat) : Prop :=
  0 < address ∧ address < 2 ^ 47 ∧ s.live address = false

instance (s : SharedSkipList) (address : Nat) : Decidable (s.Free address) :=
  inferInstanceAs (Decidable (_ ∧ _ ∧ _))

/-- `new Node`, its pointers null. -/
def new (s : SharedSkipList) (address : Nat) (key : Int64) (handle : Option Handle)
    (topLevel : Nat) : SharedSkipList where
  list := {s.list.setNode address (Node.make key handle topLevel) with
    size := max s.list.size (address + 1)}
  live := Function.update s.live address true
  passed := s.passed
  replies := s.replies

/-- The next turn of the loop that sets the pointers of a new node. -/
def storeFrom (i : InsertCall) (f : FindState) (newNode topLevel level : Nat) : Pc :=
  if level ≤ topLevel then .insertStore i f newNode topLevel level else .insertLink i f newNode topLevel

/-- The next turn of the loop that links above level 0. -/
def linkFrom (i : InsertCall) (f : FindState) (newNode topLevel level : Nat) : Pc :=
  if level ≤ topLevel then .insertUpper i f newNode topLevel level else .insertCount i

/-- The loop of `IncrHitCount` with the count it has read; then `Get` returns. -/
def incrHitCount (s : SharedSkipList) (key : Int64) (node : Nat) (handle : Option Handle)
    (oldCount : Int16) : SharedSkipList × Pc :=
  if oldCount ≥ MAX_HIT_COUNT then (s.reply (.got key handle), .ready)
  else (s, .hitCas key node handle oldCount)

/-- The loop of `MarkDeleted` with the pointer it has read. -/
def markDeleted (s : SharedSkipList) (node : Nat) (expected : MarkVersionedPtr) : SharedSkipList × Pc :=
  if expected.marked then (s.reply (.markedDeleted node 0), .ready) else (s, .markCas node expected)

/-- One access. -/
def step (c : Choice) (s : SharedSkipList) : Pc → SharedSkipList × Pc
  | .ready => s.call c
  | .insertFind i f =>
    match s.list.findStep i.key f with
    | .inl f => (s, .insertFind i f)
    | .inr f => (s, if f.found then .insertUpdate i (f.succs 0).raw else .insertNew i f)
  | .insertUpdate i node =>
    let oldHandle := (s.list.node node).handle
    ({s with list := s.list.updateHandle node i.handle}.reply (.inserted i.call oldHandle), .ready)
  | .insertNew i f =>
    match c with
    | .new address topLevel =>
      if s.Free address ∧ topLevel ≤ maxLevel then
        (s.new address i.key i.handle topLevel, storeFrom {i with handle := none} f address topLevel 0)
      else (s, .insertNew i f)
    | _ => (s, .insertNew i f)
  | .insertStore i f newNode topLevel level =>
    ({s with list := s.list.setNext newNode level {raw := (f.succs level).raw}},
      storeFrom i f newNode topLevel (level + 1))
  | .insertLink i f newNode topLevel =>
    match s.list.linkLevel (f.preds 0) (f.succs 0) newNode 0 with
    | (true, l) => ({s with list := l}, linkFrom i f newNode topLevel 1)
    | (false, _) =>
      -- delete new_node
      ({s with live := Function.update s.live newNode false}, .insertFind i FindState.start)
  | .insertUpper i f newNode topLevel level =>
    if c.isSpurious then (s, .insertSearch i FindState.start newNode topLevel level)
    else
      match s.list.linkLevel (f.preds level) (f.succs level) newNode level with
      | (true, l) => ({s with list := l}, linkFrom i f newNode topLevel (level + 1))
      | (false, _) => (s, .insertSearch i FindState.start newNode topLevel level)
  | .insertSearch i f newNode topLevel level =>
    match s.list.findStep i.key f with
    | .inl f => (s, .insertSearch i f newNode topLevel level)
    | .inr f => (s, .insertUpper i f newNode topLevel level)
  | .insertCount i =>
    ({s with list := {s.list with nodeNum := s.list.nodeNum + 1}}.reply (.inserted i.call none), .ready)
  | .getFind key full f =>
    match s.list.findStep key f with
    | .inl f => (s, .getFind key full f)
    | .inr f =>
      if f.found then (s, .getMarked key full (f.succs 0).raw)
      else (s.reply (if full then .got key none else .gotNode key none), .ready)
  | .getMarked key full node =>
    if (s.list.node node).isMarked then
      (s.reply (if full then .got key none else .gotNode key none), .ready)
    else if full then (s, .getHandle key node)
    else (s.reply (.gotNode key (some node)), .ready)
  | .getHandle key node => (s, .hitLoad key node (s.list.node node).handle)
  | .hitLoad key node handle => s.incrHitCount key node handle (s.list.node node).hitCount
  | .hitCas key node handle oldCount =>
    let hits := (s.list.node node).hitCount
    if hits = oldCount ∧ c.isSpurious = false then
      ({s with list := s.list.setNode node {s.list.node node with hitCount := oldCount + 1}}.reply
        (.got key handle), .ready)
    else s.incrHitCount key node handle hits
  | .markLoad node => s.markDeleted node (s.list.next node 0)
  | .markCas node expected =>
    let ptr := s.list.next node 0
    if ptr = expected ∧ c.isSpurious = false then
      ({s with list := s.list.setNext node 0 ⟨expected.raw, expected.version + 1, true⟩}, .markStore node)
    else s.markDeleted node ptr
  | .markStore node =>
    let charge := ((s.list.node node).handle.map Handle.charge).getD 0
    let s' := {s with list := s.list.updateHandle node none}
    if charge > 0 then (s', .markCount node charge)
    else (s'.reply (.markedDeleted node charge), .ready)
  | .markCount node charge =>
    ({s with list := {s.list with markedDeletedNum := s.list.markedDeletedNum + 1}}.reply
      (.markedDeleted node charge), .ready)

/-- A new list, and no thread in a call. -/
def initial {ι : Type*} : Interleaving.Config SharedSkipList Pc ι := ⟨make, fun _ => .ready⟩

end SharedSkipList

end HyperCache.HashSkip
