import HyperCache.HashSkip.PtrUtil
import HyperCache.Lib.Interleaving

/-! A shared pointer that is loaded and stored atomically (`hash_skip/atomic_shared_ptr.h`).

`ptr_` points to a cell on the heap that holds the value, a null `ptr_` to none. Its
version counts the loads that are reading the cell: a load adds one before it copies the
value and takes it back afterwards, and a store waits for the count to be zero, marks
the pointer, replaces it, and then deletes the cell it took out. Every access to `ptr_`,
every copy out of a cell, and every `new` and `delete` of one is a step of its own.

A word of `ptr_` is modelled by its fields, as the cells' addresses are below 2^47
(`MarkVersionedPtr.mark_encode` and the others). An address that is not in use is free for
the next `new`, whatever was there before. -/
namespace HyperCache.HashSkip

/-- A store that has returned: its argument, which value it replaced, what it returned, and
the number of values replaced before it began and when it returned. -/
structure AtomicSharedPtr.Returned (V : Type) where
  began : Nat
  newValue : Option V
  replaced : Nat
  oldValue : Option V
  ended : Nat

/-- The memory, with `V` the values that are not null. No step reads the last four fields:
the values that stores have replaced, in order; the arguments of these stores, in the same
order; for each load that returned the number of values replaced before it began, what it
returned, and the number replaced when it did; and the stores that returned. -/
structure AtomicSharedPtr (V : Type) where
  ptr : MarkVersionedPtr
  cells : Nat → Option V
  past : List (Option V) := []
  stored : List (Option V) := []
  loads : List (Nat × Option V × Nat) := []
  returned : List (AtomicSharedPtr.Returned V) := []

namespace AtomicSharedPtr
variable {V : Type}

/-- The constructor, whose cell is at `address`. -/
def make (value : Option V) (address : Nat) : AtomicSharedPtr V where
  ptr := ⟨if value.isSome then address else 0, 0, false⟩
  cells := Function.update (fun _ => none) address value

/-- The value the pointer holds. No cell is at address zero. -/
def value (s : AtomicSharedPtr V) : Option V := s.cells s.ptr.raw

/-- All values so far, the present one last. -/
def history (s : AtomicSharedPtr V) : List (Option V) := s.past ++ [s.value]

/-- Where a thread stands: the access it makes next, with the locals it needs. A load and a
store carry how many values were replaced before they began, a load then which value it
took, and a store its argument and then which value it replaced. -/
inductive Pc (V : Type) where
  | ready
  | loadPtr (began : Nat)
  | loadCas (began : Nat) (currPtr : MarkVersionedPtr)
  | loadCopy (began : Nat) (currPtr : MarkVersionedPtr)
  | loadRelease (began taken : Nat) (value : Option V) (currPtr : MarkVersionedPtr)
  | loadReturn (began taken : Nat) (value : Option V)
  | storeNew (began : Nat) (newValue : Option V)
  | storePtr (began : Nat) (newValue : Option V) (newRaw : Nat)
  | storeCas (began : Nat) (newValue : Option V) (newRaw : Nat) (oldPtr : MarkVersionedPtr)
  | storeSwap (began : Nat) (newValue : Option V) (newRaw : Nat) (oldPtr : MarkVersionedPtr)
  | storeCopy (began : Nat) (newValue : Option V) (replaced : Nat) (oldPtr : MarkVersionedPtr)
  | storeDelete (began : Nat) (newValue : Option V) (replaced : Nat) (oldPtr : MarkVersionedPtr)
    (oldValue : Option V)
  | storeReturn (began : Nat) (newValue : Option V) (replaced : Nat) (oldValue : Option V)

/-- A `Load` is in progress. -/
def Pc.loading : Pc V → Bool
  | .loadPtr _ | .loadCas .. | .loadCopy .. | .loadRelease .. | .loadReturn .. => true
  | _ => false

/-- A `Store` is in progress. -/
def Pc.storing : Pc V → Bool
  | .storeNew .. | .storePtr .. | .storeCas .. | .storeSwap .. | .storeCopy .. | .storeDelete ..
  | .storeReturn .. => true
  | _ => false

/-- What a step does not decide: the next call of a thread that has none, the address that
`new` returns, and whether a weak compare-and-swap fails though the value is the expected
one. -/
inductive Choice (V : Type) where
  | load
  | store (newValue : Option V)
  | new (address : Nat)
  | go
  | spurious

def Choice.isSpurious : Choice V → Bool
  | .spurious => true
  | _ => false

/-- A thread outside any call begins one. -/
def call (s : AtomicSharedPtr V) : Choice V → Pc V
  | .load => .loadPtr s.past.length
  | .store newValue => .storeNew s.past.length newValue
  | _ => .ready

/-- The loop of `Load` with the value of `ptr_` it has read. -/
def acquire (s : AtomicSharedPtr V) (began : Nat) : Pc V :=
  if s.ptr.raw = 0 then .loadReturn began s.past.length none else .loadCas began s.ptr

/-- `PackPtr(ptr.GetRawPtr(), 0, false)`. -/
def unused (ptr : MarkVersionedPtr) : MarkVersionedPtr := ⟨ptr.raw, 0, false⟩

/-- An address that `new` may return. -/
def Free (s : AtomicSharedPtr V) (address : Nat) : Prop :=
  0 < address ∧ address < 2 ^ 47 ∧ (s.cells address).isNone

instance (s : AtomicSharedPtr V) (address : Nat) : Decidable (s.Free address) :=
  inferInstanceAs (Decidable (_ ∧ _ ∧ _))

/-- One access. -/
def step (c : Choice V) (s : AtomicSharedPtr V) : Pc V → AtomicSharedPtr V × Pc V
  | .ready => (s, s.call c)
  | .loadPtr began => (s, s.acquire began)
  | .loadCas began currPtr =>
    -- acquire ref
    let currPtr := currPtr.unMark
    if s.ptr = currPtr ∧ c.isSpurious = false then
      ({s with ptr := currPtr.incrVersion}, .loadCopy began currPtr)
    else (s, s.acquire began)
  | .loadCopy began currPtr =>
    (s, .loadRelease began s.past.length (s.cells currPtr.raw) currPtr)
  | .loadRelease began taken value currPtr =>
    -- release ref
    let currPtr := currPtr.unMark
    if s.ptr = currPtr ∧ c.isSpurious = false then
      ({s with ptr := currPtr.decrVersion}, .loadReturn began taken value)
    else (s, .loadRelease began taken value s.ptr)
  | .loadReturn began _ value =>
    ({s with loads := (began, value, s.past.length) :: s.loads}, .ready)
  | .storeNew began none => (s, .storePtr began none 0)
  | .storeNew began (some v) =>
    match c with
    | .new address =>
      if s.Free address then
        ({s with cells := Function.update s.cells address (some v)},
          .storePtr began (some v) address)
      else (s, .storeNew began (some v))
    | _ => (s, .storeNew began (some v))
  | .storePtr began newValue newRaw => (s, .storeCas began newValue newRaw (unused s.ptr))
  | .storeCas began newValue newRaw oldPtr =>
    -- mark
    if s.ptr = oldPtr ∧ c.isSpurious = false then
      ({s with ptr := oldPtr.mark}, .storeSwap began newValue newRaw oldPtr)
    else (s, .storeCas began newValue newRaw (unused s.ptr))
  | .storeSwap began newValue newRaw oldPtr =>
    -- of the argument only the cell is left to the store; the history keeps it
    let s' := {s with ptr := ⟨newRaw, 0, false⟩, past := s.past ++ [s.value],
                      stored := s.stored ++ [newValue]}
    if oldPtr.raw = 0 then (s', .storeReturn began newValue s.past.length none)
    else (s', .storeCopy began newValue s.past.length oldPtr)
  | .storeCopy began newValue replaced oldPtr =>
    (s, .storeDelete began newValue replaced oldPtr (s.cells oldPtr.raw))
  | .storeDelete began newValue replaced oldPtr oldValue =>
    ({s with cells := Function.update s.cells oldPtr.raw none},
      .storeReturn began newValue replaced oldValue)
  | .storeReturn began newValue replaced oldValue =>
    ({s with returned := ⟨began, newValue, replaced, oldValue, s.past.length⟩ :: s.returned},
      .ready)

end AtomicSharedPtr

end HyperCache.HashSkip
