import Mathlib

/-! The ordered map (`util/skiplist.h`).

Nodes live in a heap, at addresses that are not used again; zero is the null pointer and
`delete` empties the cell. Every access to a pointer or an index is checked: a fault is
an access to a cell that holds no node, an index past the end of a `next`, or a loop
that does not end. `std::string` is any type with a linear order, as far as keys go.
`RandomLevel` is a parameter of `Insert`. -/
namespace HyperCache.Util

inductive Fault where
  | pointer
  | index
  | endless

structure SkipList.Node (κ ν : Type) where
  key : κ
  value : ν
  next : List Nat

/-- `max_level_`. -/
def SkipList.maxLevel : Nat := 16

/-- What `RandomLevel` may return. -/
abbrev SkipList.Level : Type := {level : Nat // 1 ≤ level ∧ level ≤ SkipList.maxLevel}

structure SkipList (κ ν : Type) where
  node : Nat → Option (SkipList.Node κ ν)
  /-- The addresses from here on are free. -/
  size : Nat
  curMaxLevel : Nat

namespace SkipList
variable {κ ν : Type}

/-- `head_`. -/
def head : Nat := 1

def make [Inhabited κ] [Inhabited ν] : SkipList κ ν where
  node := Function.update (fun _ => none) head (some ⟨default, default, List.replicate maxLevel 0⟩)
  size := 2
  curMaxLevel := 1

def deref (l : SkipList κ ν) (a : Nat) : Except Fault (Node κ ν) :=
  match l.node a with
  | none => .error .pointer
  | some n => .ok n

def setNode (l : SkipList κ ν) (a : Nat) (n : Node κ ν) : SkipList κ ν :=
  {l with node := Function.update l.node a (some n)}

/-- `delete`. -/
def deleteNode (l : SkipList κ ν) (a : Nat) : SkipList κ ν :=
  {l with node := Function.update l.node a none}

/-- `node->next[level]`. -/
def next (l : SkipList κ ν) (a level : Nat) : Except Fault Nat := do
  let n ← l.deref a
  match n.next[level]? with
  | none => .error .index
  | some p => .ok p

def setNext (l : SkipList κ ν) (a level p : Nat) : Except Fault (SkipList κ ν) := do
  let n ← l.deref a
  if level < n.next.length then .ok (l.setNode a {n with next := n.next.set level p})
  else .error .index

/-! ### Searching -/

section Search
variable [LinearOrder κ]

/-- The inner loop: along a level to the last node before the key. -/
def walk (l : SkipList κ ν) (key : κ) (level : Nat) : Nat → Nat → Except Fault Nat
  | 0, _ => .error .endless
  | fuel + 1, node => do
    let next ← l.next node level
    if next = 0 then return node
    let n ← l.deref next
    if n.key < key then walk l key level fuel next else return node

/-- The outer loop, from the level below: the node it ends at, and `update`. -/
def search (l : SkipList κ ν) (key : κ) : Nat → Nat → (Nat → Nat) → Except Fault (Nat × (Nat → Nat))
  | 0, node, update => .ok (node, update)
  | level + 1, node, update => do
    let node ← l.walk key level l.size node
    search l key level node (Function.update update level node)

/-- `node && node->key == key`. -/
def hasKey (l : SkipList κ ν) (node : Nat) (key : κ) : Except Fault Bool :=
  if node = 0 then .ok false
  else do
    let n ← l.deref node
    return n.key = key

def get (l : SkipList κ ν) (key : κ) : Except Fault (Option ν) := do
  let (node, _) ← l.search key l.curMaxLevel head fun _ => 0
  let node ← l.next node 0
  if ← l.hasKey node key then
    let n ← l.deref node
    return some n.value
  else return none

/-! ### Insert -/

/-- The levels that the list grows by begin at `head_`. -/
def grow (l : SkipList κ ν) (newLevel : Nat) (update : Nat → Nat) : (Nat → Nat) × SkipList κ ν :=
  if newLevel > l.curMaxLevel then
    (fun level => if l.curMaxLevel ≤ level ∧ level < newLevel then head else update level,
      {l with curMaxLevel := newLevel})
  else (update, l)

/-- One turn of the loop that links the new node. -/
def linkLevel (update : Nat → Nat) (newNode : Nat) (l : SkipList κ ν) (level : Nat) :
    Except Fault (SkipList κ ν) := do
  let next ← l.next (update level) level
  let l ← l.setNext newNode level next
  l.setNext (update level) level newNode

def insert (l : SkipList κ ν) (key : κ) (value : ν) (newLevel : Level) : Except Fault (SkipList κ ν) := do
  let (node, update) ← l.search key l.curMaxLevel head fun _ => 0
  let node ← l.next node 0
  if ← l.hasKey node key then
    let n ← l.deref node
    return l.setNode node {n with value := value}
  else
    let (update, l) := l.grow newLevel.val update
    let newNode := l.size
    let l := {l.setNode newNode ⟨key, value, List.replicate newLevel.val 0⟩ with size := l.size + 1}
    (List.range newLevel.val).foldlM (linkLevel update newNode) l

/-! ### Erase -/

/-- The loop that unlinks a node; the first argument is the number of levels from `level` on. -/
def unlink (update : Nat → Nat) (node : Nat) : Nat → Nat → SkipList κ ν → Except Fault (SkipList κ ν)
  | 0, _, l => .ok l
  | rest + 1, level, l => do
    if (← l.next (update level) level) ≠ node then return l
    let l ← l.setNext (update level) level (← l.next node level)
    unlink update node rest (level + 1) l

/-- The loop that lowers `cur_max_level_`, from its value on. -/
def shrink (l : SkipList κ ν) : Nat → Except Fault (SkipList κ ν)
  | 0 => .ok {l with curMaxLevel := 0}
  | level + 1 => do
    if level + 1 > 1 then
      if (← l.next head level) = 0 then shrink l level else return {l with curMaxLevel := level + 1}
    else return {l with curMaxLevel := level + 1}

def erase (l : SkipList κ ν) (key : κ) : Except Fault (Bool × SkipList κ ν) := do
  let (node, update) ← l.search key l.curMaxLevel head fun _ => 0
  let node ← l.next node 0
  if ← l.hasKey node key then
    let l ← unlink update node l.curMaxLevel 0 l
    let l := l.deleteNode node
    let l ← l.shrink l.curMaxLevel
    return (true, l)
  else return (false, l)

/-! ### Runs -/

inductive Call (κ ν : Type) where
  | get (key : κ)
  | insert (key : κ) (value : ν) (newLevel : Level)
  | erase (key : κ)

inductive Reply (ν : Type) where
  | got (value : Option ν)
  | inserted
  | erased (found : Bool)

def call (l : SkipList κ ν) : Call κ ν → Except Fault (SkipList κ ν × Reply ν)
  | .get key => do return (l, .got (← l.get key))
  | .insert key value newLevel => do return (← l.insert key value newLevel, .inserted)
  | .erase key => do
    let (found, l) ← l.erase key
    return (l, .erased found)

/-- The list after a run of calls, and what they returned. -/
def run (l : SkipList κ ν) : List (Call κ ν) → Except Fault (SkipList κ ν × List (Reply ν))
  | [] => .ok (l, [])
  | c :: calls => do
    let (l, reply) ← l.call c
    let (l, replies) ← run l calls
    return (l, reply :: replies)

end Search

end SkipList

end HyperCache.Util
