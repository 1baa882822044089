import HyperCache.Lib.Fallible
import Mathlib

/-! One shard of the LRU cache: `lru/cache_shard.h`.

`entries_` is the list in order of use, the most recent element first, and `map_` points
from each key to its element. An element of a `std::list` keeps its identity while it is
spliced around, so an element carries the number of its node, and an iterator is that
number. Two things a call can do are undefined in C++ and are faults here: `back()` of an
empty list, and an iterator whose element has left the list. A third is not: the eviction
loops use the last element after `pop_back`. The model assumes that the popped node still
holds what it held, and every result about a call that evicts rests on that; `Deletion.alive`
says where a deleter is called on such a node.

A call holds the shard's mutex from start to end, so it is one step. -/
namespace HyperCache.Lru

/-- `lru::Handle`: the value pointer and the deleter, null or some address. -/
structure Handle where
  value : Option Nat
  delCb : Option Nat
  totalCharge : UInt64
deriving DecidableEq, Repr

/-- `FreeData` does something: there is a deleter and a value. -/
def Handle.frees (h : Handle) : Bool := h.delCb.isSome && h.value.isSome

def Handle.freeData (h : Handle) : Handle :=
  if h.frees then {h with value := none, totalCharge := 0} else h

/-- One call of a deleter, and whether the element it works on was still in the list. -/
structure Deletion where
  delCb : Option Nat
  value : Option Nat
  alive : Bool
deriving DecidableEq, Repr

def Handle.deletions (h : Handle) (alive : Bool) : List Deletion :=
  if h.frees then [⟨h.delCb, h.value, alive⟩] else []

/-- `CacheSharedOptions`. -/
structure CacheSharedOptions where
  capacity : UInt64
  entryNum : Int64
  valueSize : UInt64
deriving DecidableEq, Repr

/-- A node of `std::list<std::pair<Key, Handle>>`. -/
structure Element (Key : Type) where
  node : Nat
  first : Key
  second : Handle
deriving DecidableEq, Repr

inductive Fault
  /-- `entries_.back()` of an empty list. -/
  | emptyBack
  /-- An iterator of `map_` is used whose element has left the list. -/
  | danglingEntry
deriving DecidableEq, Repr

@[simp] theorem ok_bind {α β : Type} (a : α) (f : α → Except Fault β) :
    (Except.ok a >>= f) = f a := rfl

@[simp] theorem error_bind {α β : Type} (fault : Fault) (f : α → Except Fault β) :
    (Except.error fault >>= f) = .error fault := rfl

theorem bind_eq_ok {α β : Type} {x : Except Fault α} {f : α → Except Fault β} {b : β}
    (h : (x >>= f) = .ok b) : ∃ a, x = .ok a ∧ f a = .ok b := by
  cases x with
  | error fault => cases h
  | ok a => exact ⟨a, rfl, h⟩

structure LRUCacheShard (Key : Type) where
  capacity : UInt64
  maxEntryNum : Int64
  usage : UInt64
  entries : List (Element Key)
  map : AList fun _ : Key => Nat
  /-- Nodes allocated so far. -/
  nodes : Nat
  /-- The deleter calls made so far. -/
  deleted : List Deletion

namespace LRUCacheShard
variable {Key : Type}

/-- The constructor. -/
def make (o : CacheSharedOptions) : LRUCacheShard Key where
  capacity := o.capacity
  maxEntryNum :=
    if 0 < o.entryNum then o.entryNum
    else if 0 < o.valueSize then (o.capacity / o.valueSize).toInt64
    else 0
  usage := 0
  entries := []
  map := ∅
  nodes := 0
  deleted := []

def getUsage (s : LRUCacheShard Key) : UInt64 := s.usage

def getEntryNum (s : LRUCacheShard Key) : Nat := s.entries.length

/-- The element an iterator points at. -/
def at? (s : LRUCacheShard Key) (it : Nat) : Option (Element Key) :=
  s.entries.find? (·.node == it)

/-- The other elements, in their order. -/
def without (s : LRUCacheShard Key) (it : Nat) : List (Element Key) :=
  s.entries.eraseP (·.node == it)

variable [DecidableEq Key]

/-- The body of both eviction loops: the last element leaves, is freed, and what is then
left of its charge is subtracted. The element is used after `pop_back`, and is taken to be as
it was. -/
def evictLast (s : LRUCacheShard Key) : Except Fault (LRUCacheShard Key) :=
  match s.entries.getLast? with
  | none => .error .emptyBack
  | some last => .ok
      {s with
        map := s.map.erase last.first
        entries := s.entries.dropLast
        deleted := s.deleted ++ last.second.deletions false
        usage := s.usage - last.second.freeData.totalCharge}

/-- `while (tooFull) evictLast`, on a list of `n` elements. Each round takes one, and with
none left the next round is the fault. -/
def evictWhile (tooFull : LRUCacheShard Key → Bool) :
    Nat → LRUCacheShard Key → Except Fault (LRUCacheShard Key)
  | 0, s => if tooFull s then s.evictLast else .ok s
  | n + 1, s => if tooFull s then s.evictLast >>= evictWhile tooFull n else .ok s

/-- `usage_ + need_charge > capacity_`. -/
def overCharge (need : UInt64) (s : LRUCacheShard Key) : Bool := s.capacity < s.usage + need

/-- `entries_.size() >= max_entry_num_`, where the limit is converted to unsigned. -/
def overOccupancy (s : LRUCacheShard Key) : Bool :=
  s.maxEntryNum.toUInt64.toNat ≤ s.entries.length

def evictForCharge (need : UInt64) (s : LRUCacheShard Key) : Except Fault (LRUCacheShard Key) :=
  if s.capacity = 0 then .ok s else evictWhile (overCharge need) s.entries.length s

def evictForOccupancy (s : LRUCacheShard Key) : Except Fault (LRUCacheShard Key) :=
  if s.maxEntryNum = 0 then .ok s else evictWhile overOccupancy s.entries.length s

/-- A hit moves the element to the front. -/
def get (s : LRUCacheShard Key) (key : Key) :
    Except Fault (LRUCacheShard Key × Option Handle) :=
  match s.map.lookup key with
  | none => .ok (s, none)
  | some it =>
    match s.at? it with
    | none => .error .danglingEntry
    | some e => .ok ({s with entries := e :: s.without it}, some e.second)

/-- The end of the update path: free what the element holds, store the handle in it and
splice it to the front. `usage_` stays. -/
def overwrite (it : Nat) (handle : Handle) (s : LRUCacheShard Key) :
    Except Fault (LRUCacheShard Key) :=
  match s.at? it with
  | none => .error .danglingEntry
  | some e => .ok
      {s with
        deleted := s.deleted ++ e.second.deletions true
        entries := {e with second := handle} :: s.without it}

/-- The end of the insert path. -/
def emplaceFront (key : Key) (handle : Handle) (s : LRUCacheShard Key) : LRUCacheShard Key :=
  {s with
    entries := ⟨s.nodes, key, handle⟩ :: s.entries
    map := s.map.insert key s.nodes
    nodes := s.nodes + 1
    usage := s.usage + handle.totalCharge}

def insert (s : LRUCacheShard Key) (key : Key) (handle : Handle) :
    Except Fault (LRUCacheShard Key) :=
  match s.map.lookup key with
  | some it =>
    match s.at? it with
    | none => .error .danglingEntry
    | some e =>
      -- unsigned, so a smaller charge needs a huge one
      let needCharge := handle.totalCharge - e.second.totalCharge
      (if 0 < needCharge then s.evictForCharge needCharge else .ok s) >>= overwrite it handle
  | none => do
    let s ← s.evictForCharge handle.totalCharge
    let s ← s.evictForOccupancy
    return s.emplaceFront key handle

omit [DecidableEq Key] in
/-- The destructor frees what the elements hold. -/
def destroy (s : LRUCacheShard Key) : LRUCacheShard Key :=
  {s with
    entries := s.entries.map fun e => {e with second := e.second.freeData}
    deleted := s.deleted ++ s.entries.flatMap fun e => e.second.deletions true}

end LRUCacheShard

/-! ### Runs -/

inductive Call (Key : Type)
  | get (key : Key)
  | insert (key : Key) (handle : Handle)
deriving DecidableEq, Repr

def Call.key {Key : Type} : Call Key → Key
  | .get key => key
  | .insert key _ => key

/-- The charge a call brings in. -/
def Call.charge {Key : Type} : Call Key → UInt64
  | .get _ => 0
  | .insert _ handle => handle.totalCharge

namespace LRUCacheShard
variable {Key : Type} [DecidableEq Key]

/-- One call, with what it returns. -/
def step (s : LRUCacheShard Key) : Call Key → Except Fault (LRUCacheShard Key × Option Handle)
  | .get key => s.get key
  | .insert key handle => do return (← s.insert key handle, none)

theorem step_insert {s t : LRUCacheShard Key} {key : Key} {handle : Handle}
    (h : s.insert key handle = .ok t) : s.step (.insert key handle) = .ok (t, none) := by
  rw [step, h]
  rfl

theorem step_insert_ok {s : LRUCacheShard Key} {key : Key} {handle : Handle}
    {r : LRUCacheShard Key × Option Handle} (h : s.step (.insert key handle) = .ok r) :
    ∃ t, s.insert key handle = .ok t ∧ r = (t, none) := by
  obtain ⟨t, ht, hr⟩ := bind_eq_ok h
  exact ⟨t, ht, (Except.ok.inj hr).symm⟩

/-- A run of calls, up to its first fault. -/
abbrev run (s : LRUCacheShard Key) (calls : List (Call Key)) : Except Fault (LRUCacheShard Key) :=
  Fallible.run step s calls

/-- Every call of a run has the property in the state it finds. -/
abbrev Along (P : LRUCacheShard Key → Call Key → Prop) (s : LRUCacheShard Key)
    (calls : List (Call Key)) : Prop :=
  Fallible.Along step P s calls

end LRUCacheShard
end HyperCache.Lru
