import HyperCache.Lib.Interleaving

/-! The bounded queue (`util/queue.h`).

A ring of slots, each with a sequence number that says which position may use it
next: `seq = pos` is free for the push of `pos`, `seq = pos + 1` is filled for
the pop of `pos`. `Push` and `Pop` claim a position by a compare-and-swap on
`head_` or `tail_` and publish the slot afterwards, so a call is several steps:
every access to `head_`, `tail_`, a slot's `seq` or a slot's `data` is one.

Positions are `int64_t` in the source and start at zero; `Fifo` in
`QueueProofs.lean` bounds every one the steps compute (its field `fits`), so they are
natural numbers here and only the differences the code tests are integers. -/
namespace HyperCache.Util

/-- One slot of the ring. -/
structure Queue.Node (α : Type) where
  /-- For marking the slot status. -/
  seq : Nat
  /-- For storing the data. -/
  data : α

structure Queue (α : Type) where
  capicity : Nat
  buffer : Nat → Queue.Node α
  head : Nat
  tail : Nat

namespace Queue
variable {α : Type}

/-- The constructor: each slot is available for the producer of its own index. -/
def make [Inhabited α] (capicity : Nat) : Queue α where
  capicity := capicity
  buffer := fun i => ⟨i, default⟩
  head := 0
  tail := 0

/-- `buffer_[pos % capicity_]`. -/
def node (q : Queue α) (pos : Nat) : Node α := q.buffer (pos % q.capicity)

def setNode (q : Queue α) (pos : Nat) (n : Node α) : Queue α :=
  {q with buffer := Function.update q.buffer (pos % q.capicity) n}

@[simp] theorem setNode_capicity (q : Queue α) (pos : Nat) (n : Node α) :
    (q.setNode pos n).capicity = q.capicity := rfl

@[simp] theorem setNode_head (q : Queue α) (pos : Nat) (n : Node α) :
    (q.setNode pos n).head = q.head := rfl

@[simp] theorem setNode_tail (q : Queue α) (pos : Nat) (n : Node α) :
    (q.setNode pos n).tail = q.tail := rfl

theorem setNode_node (q : Queue α) (pos m : Nat) (n : Node α) :
    (q.setNode pos n).node m = if m % q.capicity = pos % q.capicity then n else q.node m := by
  simp only [node, setNode, Function.update_apply]

/-- `Size`: positions pushed and not yet popped, zero if the two loads disagree. -/
def size (q : Queue α) : Int :=
  let size := (q.head : Int) - q.tail
  if size ≥ 0 then size else 0

/-! ### One call with no other thread moving

`head_` is then the position the call loaded, so its compare-and-swap succeeds;
`none` is the call that reloads the same position for ever. -/

def push (q : Queue α) (value : α) : Option (Bool × Queue α) :=
  let pos := q.head
  let diff : Int := (q.node pos).seq - pos
  if diff = 0 then some (true, {q with head := pos + 1}.setNode pos ⟨pos + 1, value⟩)
  else if diff < 0 then some (false, q)
  else none

def pop (q : Queue α) : Option (Option α × Queue α) :=
  let pos := q.tail
  let diff : Int := (q.node pos).seq - (pos + 1 : Nat)
  if diff = 0 then
    let data := (q.node pos).data
    some (some data, {q with tail := pos + 1}.setNode pos ⟨pos + q.capicity, data⟩)
  else if diff < 0 then some (none, q)
  else none

/-! ### Calls of several threads, access by access -/

/-- Where a thread stands: the access it makes next, with the locals it needs. -/
inductive Pc (α : Type) where
  | ready
  | pushLoadHead (value : α)
  | pushLoadSeq (value : α) (pos : Nat)
  | pushCas (value : α) (pos : Nat)
  | pushWriteData (value : α) (pos : Nat)
  | pushStoreSeq (pos : Nat)
  | pushReturn (succ : Bool)
  | popLoadTail
  | popLoadSeq (pos : Nat)
  | popCas (pos : Nat)
  | popReadData (pos : Nat)
  | popStoreSeq (pos : Nat) (value : α)
  | popReturn (value : Option α)

/-- The queue and its history, which no step reads: the value of the push that
claimed each position, and the position and value of each pop that has read. -/
structure State (α : Type) where
  queue : Queue α
  pushed : List α
  delivered : List (Nat × α)

/-- What the step does not decide: the next call of a thread that has none, and
whether a weak compare-and-swap fails though the value is the expected one. -/
inductive Choice (α : Type) where
  | push (value : α)
  | pop
  | go
  | spurious

def Choice.isSpurious : Choice α → Bool
  | .spurious => true
  | _ => false

/-- A thread outside any call begins one. -/
def call (l : Pc α) : Choice α → Pc α
  | .push value => .pushLoadHead value
  | .pop => .popLoadTail
  | _ => l

/-- One access. -/
def step (c : Choice α) (s : State α) : Pc α → State α × Pc α
  | .ready => (s, call .ready c)
  | .pushLoadHead value => (s, .pushLoadSeq value s.queue.head)
  | .pushLoadSeq value pos =>
    let diff : Int := (s.queue.node pos).seq - pos
    if diff = 0 then (s, .pushCas value pos)
    else if diff < 0 then (s, .pushReturn false)
    else (s, .pushLoadHead value)
  | .pushCas value pos =>
    -- a failed compare-and-swap leaves the current head in `pos`
    if s.queue.head = pos ∧ c.isSpurious = false then
      ({s with queue := {s.queue with head := pos + 1}, pushed := s.pushed ++ [value]},
        .pushWriteData value pos)
    else (s, .pushLoadSeq value s.queue.head)
  | .pushWriteData value pos =>
    let node := {s.queue.node pos with data := value}
    ({s with queue := s.queue.setNode pos node}, .pushStoreSeq pos)
  | .pushStoreSeq pos =>
    let node := {s.queue.node pos with seq := pos + 1}
    ({s with queue := s.queue.setNode pos node}, .pushReturn true)
  | .pushReturn succ => (s, call (.pushReturn succ) c)
  | .popLoadTail => (s, .popLoadSeq s.queue.tail)
  | .popLoadSeq pos =>
    let diff : Int := (s.queue.node pos).seq - (pos + 1 : Nat)
    if diff = 0 then (s, .popCas pos)
    else if diff < 0 then (s, .popReturn none)
    else (s, .popLoadTail)
  | .popCas pos =>
    if s.queue.tail = pos ∧ c.isSpurious = false then
      ({s with queue := {s.queue with tail := pos + 1}}, .popReadData pos)
    else (s, .popLoadSeq s.queue.tail)
  | .popReadData pos =>
    let value := (s.queue.node pos).data
    ({s with delivered := s.delivered ++ [(pos, value)]}, .popStoreSeq pos value)
  | .popStoreSeq pos value =>
    let node := {s.queue.node pos with seq := pos + s.queue.capicity}
    ({s with queue := s.queue.setNode pos node}, .popReturn (some value))
  | .popReturn value => (s, call (.popReturn value) c)

/-- Some access of one thread. -/
abbrev Access : State α → Pc α → State α → Pc α → Prop := Interleaving.Chosen step

/-- A new queue and threads outside any call. -/
def start [Inhabited α] (ι : Type) (capicity : Nat) : Interleaving.Config (State α) (Pc α) ι :=
  ⟨⟨make capicity, [], []⟩, fun _ => .ready⟩

end Queue

end HyperCache.Util
