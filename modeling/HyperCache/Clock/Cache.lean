import HyperCache.Clock.Ownership
import HyperCache.Lib.Fallible
import HyperCache.Lib.Sharded

/-! The sharded clock cache: `clock/cache.cc`.

A key is hashed once, and the first word of the hash chooses the shard. Each shard has its
part of the capacity and of the length, so what no shard exceeds the cache does not. -/
namespace HyperCache.Clock
open Fallible Sharded

/-- `CacheOptions`, with a number of shards to divide by. `occupancyLimit` is what the
constructor of a shard makes of the shard's length. -/
structure CacheOptions extends ClockCacheOptions where
  shardNum : UInt64
  positive : 0 < shardNum.toNat

structure Cache (size : Nat) where
  shards : Fin size → ClockCache

/-- `HandleImpl*`: a slot of one of the shards. -/
structure HandlePtr (size : Nat) where
  shard : Fin size
  slot : Nat
  deriving DecidableEq

namespace Cache
variable {Key : Type} {size : Nat}

def shardOptions (o : CacheOptions) : ClockCacheOptions :=
  {o.toClockCacheOptions with
    capacity := o.capacity / o.shardNum
    length := o.length / o.shardNum}

/-- The constructor. -/
def make (o : CacheOptions) : Cache o.shardNum.toNat := ⟨fun _ => .make (shardOptions o)⟩

/-- One shard is what it has become. -/
def store (c : Cache size) (i : Fin size) (shard : ClockCache) : Cache size :=
  ⟨Function.update c.shards i shard⟩

def getOccupancy (c : Cache size) : UInt64 := total fun i => (c.shards i).occupancy

def getUsage (c : Cache size) : UInt64 := total fun i => (c.shards i).usage

def getOccupancyLimit (c : Cache size) : UInt64 := total fun i => (c.shards i).occupancyLimit

section
variable [NeZero size]

/-- `GetShard(hashed_key)`. -/
def index (size : Nat) [NeZero size] (hashedKey : UniqueId64x2) : Fin size :=
  ⟨hashedKey.1.toNat % size, Nat.mod_lt _ (Nat.pos_of_ne_zero (NeZero.ne size))⟩

variable (hashKey : Key → UniqueId64x2)

def lookup (c : Cache size) (key : Key) : Option (Option (HandlePtr size) × Cache size) := do
  let i := index size (hashKey key)
  let (e, shard) ← (c.shards i).lookup (hashKey key)
  return (e.map fun h => ⟨i, h⟩, c.store i shard)

def insert (c : Cache size) (key : Key) (handle : Handle) : Option (Bool × Cache size) := do
  let i := index size (hashKey key)
  let (succ, shard) ← (c.shards i).insert {handle with hashedKey := hashKey key}
  return (succ, c.store i shard)

def erase (c : Cache size) (hashedKey : UniqueId64x2) : Option (Bool × Cache size) := do
  let i := index size hashedKey
  let (succ, shard) ← (c.shards i).erase hashedKey
  return (succ, c.store i shard)

/-- `GetShard(handle->GetHash())->Release(handle)`: whichever shard is asked, `Release`
works on the slot the pointer points to. -/
def release (c : Cache size) (h : HandlePtr size) : Bool × Cache size :=
  (true, c.store h.shard ((c.shards h.shard).release h.slot).2)

end

end Cache

/-! ### A client of the cache -/

inductive CacheCall (Key : Type) (size : Nat) where
  | insert (key : Key) (handle : Handle)
  | lookup (key : Key)
  | release (h : HandlePtr size)
  | erase (hashedKey : UniqueId64x2)

/-- Why a run does not go on: a call does not end, or its handle is not the client's. -/
inductive Fault where
  | endless
  | notHeld

/-- The cache and, for each shard, the slots of the handles its client was given and has
not released. -/
structure CacheSession (size : Nat) where
  cache : Cache size
  held : Fin size → List Nat

instance (o : CacheOptions) : NeZero o.shardNum.toNat := ⟨Nat.ne_of_gt o.positive⟩

namespace CacheSession
variable {Key : Type} {size : Nat}

def start (o : CacheOptions) : CacheSession o.shardNum.toNat := ⟨Cache.make o, fun _ => []⟩

/-- The handle that was returned, if one was, is the client's. -/
def take (s : CacheSession size) (c : Cache size) : Option (HandlePtr size) → CacheSession size
  | none => ⟨c, s.held⟩
  | some h => ⟨c, Function.update s.held h.shard (h.slot :: s.held h.shard)⟩

section
variable [NeZero size] (hashKey : Key → UniqueId64x2)

/-- One call, and whether it returned true or a handle. -/
def step (s : CacheSession size) : CacheCall Key size → Except Fault (CacheSession size × Bool)
  | .insert key handle =>
    match s.cache.insert hashKey key handle with
    | none => .error .endless
    | some (succ, c) => .ok (⟨c, s.held⟩, succ)
  | .lookup key =>
    match s.cache.lookup hashKey key with
    | none => .error .endless
    | some (e, c) => .ok (s.take c e, e.isSome)
  | .release h =>
    if h.slot ∈ s.held h.shard then
      let (succ, c) := s.cache.release h
      .ok (⟨c, Function.update s.held h.shard ((s.held h.shard).erase h.slot)⟩, succ)
    else .error .notHeld
  | .erase hashedKey =>
    match s.cache.erase hashedKey with
    | none => .error .endless
    | some (succ, c) => .ok (⟨c, s.held⟩, succ)

/-- The charges in the shard and the new one add up without a carry. -/
def Fits (s : CacheSession size) : CacheCall Key size → Prop
  | .insert key handle =>
    (s.cache.shards (Cache.index size (hashKey key))).usage.toNat + handle.totalCharge.toNat < 2 ^ 64
  | _ => True

instance (s : CacheSession size) : DecidablePred (s.Fits hashKey)
  | .insert _ _ => inferInstanceAs (Decidable (_ < _))
  | .lookup _ | .release _ | .erase _ => isTrue trivial

end

/-! ### A call is a call of one shard -/

/-- One shard and what its client holds of it. -/
def shard (s : CacheSession size) (i : Fin size) : Session := ⟨s.cache.shards i, s.held i, fun _ => none⟩

/-- The call of shard `i` that a call of the cache comes to, and what is left. -/
structure Routed (s s' : CacheSession size) (i : Fin size) (call : Call) (t : Session) : Prop where
  call : (s.shard i).call call = some t
  shards : s'.cache.shards = Function.update s.cache.shards i t.cache
  held : s'.held = Function.update s.held i t.held

section
variable [NeZero size] {hashKey : Key → UniqueId64x2} {s s' : CacheSession size} {r : Bool}

theorem step_routed {call : CacheCall Key size} (hstep : s.step hashKey call = .ok (s', r)) :
    ∃ i call' t, Routed s s' i call' t ∧ ∀ handle, call' = .insert handle → s.Fits hashKey call →
      (s.cache.shards i).usage.toNat + handle.totalCharge.toNat < 2 ^ 64 := by
  cases call with
  | insert key handle =>
    cases hinsert : s.cache.insert hashKey key handle with
    | none =>
      simp only [step, hinsert] at hstep
      cases hstep
    | some p =>
      simp only [step, hinsert] at hstep
      cases hstep
      obtain ⟨⟨succ, shard⟩, hshard, hp⟩ := Option.bind_eq_some_iff.mp hinsert
      cases hp
      refine ⟨Cache.index size (hashKey key), .insert {handle with hashedKey := hashKey key},
        ⟨shard, s.held (Cache.index size (hashKey key)), if succ then
          Function.update (fun _ => none) (hashKey key) (some handle.value) else fun _ => none⟩, ⟨?_, rfl, ?_⟩, ?_⟩
      · simp only [Session.call, CacheSession.shard, hshard]
        rfl
      · exact (Function.update_eq_self _ _).symm
      · rintro _ ⟨⟩ hfits
        exact hfits
  | lookup key =>
    cases hlookup : s.cache.lookup hashKey key with
    | none =>
      simp only [step, hlookup] at hstep
      cases hstep
    | some p =>
      simp only [step, hlookup] at hstep
      cases hstep
      obtain ⟨⟨e, shard⟩, hshard, hp⟩ := Option.bind_eq_some_iff.mp hlookup
      cases hp
      refine ⟨Cache.index size (hashKey key), .lookup (hashKey key),
        ⟨shard, e.toList ++ s.held (Cache.index size (hashKey key)), fun _ => none⟩, ⟨?_, ?_, ?_⟩, by rintro _ ⟨⟩⟩
      · simp only [Session.call, CacheSession.shard, hshard]
        rfl
      · cases e with
        | none => rfl
        | some h => rfl
      · cases e with
        | none => exact (Function.update_eq_self _ _).symm
        | some h => rfl
  | release h =>
    by_cases hheld : h.slot ∈ s.held h.shard
    · simp only [step, if_pos hheld] at hstep
      cases hstep
      refine ⟨h.shard, .release h.slot, ⟨((s.cache.shards h.shard).release h.slot).2,
        (s.held h.shard).erase h.slot, fun _ => none⟩, ⟨?_, rfl, rfl⟩, by rintro _ ⟨⟩⟩
      exact if_pos hheld
    · simp only [step, if_neg hheld] at hstep
      cases hstep
  | erase k =>
    cases herase : s.cache.erase k with
    | none =>
      simp only [step, herase] at hstep
      cases hstep
    | some p =>
      simp only [step, herase] at hstep
      cases hstep
      obtain ⟨⟨succ, shard⟩, hshard, hp⟩ := Option.bind_eq_some_iff.mp herase
      cases hp
      refine ⟨Cache.index size k, .erase k, ⟨shard, s.held (Cache.index size k), Function.update (fun _ => none) k none⟩,
        ⟨?_, rfl, ?_⟩, by rintro _ ⟨⟩⟩
      · simp only [Session.call, CacheSession.shard, hshard]
        rfl
      · exact (Function.update_eq_self _ _).symm

/-! ### The budgets -/

/-- Every shard is valid and within its part of the limits. -/
structure Good (o : CacheOptions) (n used : Nat) (s : CacheSession size) : Prop where
  valid : ∀ i, ∃ lookups inserts, lookups + inserts ≤ used ∧ (s.shard i).Valid n lookups inserts
  budgeted : ∀ i, (s.cache.shards i).Budgeted
  capacity : ∀ i, (s.cache.shards i).capacity = o.capacity / o.shardNum
  occupancyLimit : ∀ i, (s.cache.shards i).occupancyLimit = o.occupancyLimit

variable {o : CacheOptions} {n used : Nat}

omit [NeZero size] in
theorem Good.start (hlen : (o.length / o.shardNum).toNat = 2 ^ n) : Good o n 0 (start o) where
  valid i := ⟨0, 0, Nat.le_refl 0, Session.Valid.start hlen⟩
  budgeted i := by
    have hempty : (ClockCache.make (Cache.shardOptions o)).entries = ∅ := Session.make_entries
    constructor
    · show (ClockCache.make (Cache.shardOptions o)).charges ≤ _
      rw [ClockCache.charges, hempty, Finset.sum_empty]
      exact Nat.zero_le _
    · show (ClockCache.make (Cache.shardOptions o)).population ≤ _
      rw [ClockCache.population, hempty, Finset.card_empty]
      exact Nat.zero_le _
  capacity _ := rfl
  occupancyLimit _ := rfl

/-- **The step lemma**: a call keeps every shard within its limits. -/
theorem Good.step (h : Good o n used s) (hlim : used + 1 < 2 ^ 30) {call : CacheCall Key size}
    (hfits : s.Fits hashKey call) (hstep : s.step hashKey call = .ok (s', r)) :
    Good o n (used + 1) s' := by
  obtain ⟨i, call', t, ⟨hcall, hshards, hheld⟩, hcharge⟩ := step_routed hstep
  obtain ⟨l, m, hle, hvalid⟩ := h.valid i
  obtain ⟨l', m', hle', hvalid'⟩ := hvalid.call (by omega) hcall
  obtain ⟨hbudgeted, hcap, hlimit⟩ := hvalid.budgeted (by omega) (h.budgeted i)
    (fun handle he => hcharge handle he hfits) hcall
  have hcache : ∀ P : ClockCache → Prop, P t.cache → (∀ j, P (s.cache.shards j)) →
      ∀ j, P (s'.cache.shards j) := by
    intro P ht hs j
    rw [hshards]
    by_cases hj : j = i
    · subst hj
      rw [Function.update_self]
      exact ht
    · rw [Function.update_of_ne hj]
      exact hs j
  refine ⟨fun j => ?_, hcache _ hbudgeted h.budgeted, hcache (fun c => c.capacity = _)
    (hcap.trans (h.capacity i)) h.capacity, hcache (fun c => c.occupancyLimit = _)
    (hlimit.trans (h.occupancyLimit i)) h.occupancyLimit⟩
  rw [CacheSession.shard, hshards, hheld]
  by_cases hj : j = i
  · subst hj
    rw [Function.update_self, Function.update_self]
    exact ⟨l', m', by omega, hvalid'.table, hvalid'.held, hvalid'.inTable, hvalid'.population,
      hvalid'.delta, hvalid'.occupancy, hvalid'.usage⟩
  · rw [Function.update_of_ne hj, Function.update_of_ne hj]
    obtain ⟨l₁, m₁, hle₁, hvalid₁⟩ := h.valid j
    exact ⟨l₁, m₁, by omega, hvalid₁⟩

theorem Good.run (h : Good o n used s) (calls : List (CacheCall Key size))
    (hlim : used + calls.length < 2 ^ 30)
    (hfits : Along (CacheSession.step hashKey) (Fits hashKey) s calls)
    (hrun : Fallible.run (CacheSession.step hashKey) s calls = .ok s') : Good o n (used + calls.length) s' := by
  induction calls generalizing s used with
  | nil =>
    cases hrun
    exact h
  | cons call calls ih =>
    rw [List.length_cons] at hlim ⊢
    obtain ⟨r, hstep, hrest⟩ := run_cons.mp hrun
    have h' := ih (h.step (by omega) hfits.1 hstep) (by omega) (hfits.2 r hstep) hrest
    rwa [Nat.add_right_comm, Nat.add_assoc] at h'

omit [NeZero size] in
/-- A total of counters that does not carry. -/
theorem total_toNat {f : Fin size → UInt64} (h : (total fun i => (f i).toNat) < 2 ^ 64) :
    (total f).toNat = total fun i => (f i).toNat := by
  have hmap := total_map UInt64.ofNat (fun a b => UInt64.ofNat_add a b) rfl fun i => (f i).toNat
  simp only [UInt64.ofNat_toNat] at hmap
  rw [hmap, UInt64.toNat_ofNat', Nat.mod_eq_of_lt h]

omit [NeZero size] in
theorem Good.usage_le {s : CacheSession o.shardNum.toNat} (h : Good o n used s) :
    s.cache.getUsage ≤ o.capacity := by
  have hshard : ∀ i, (s.cache.shards i).usage.toNat ≤ o.capacity.toNat / o.shardNum.toNat := by
    intro i
    obtain ⟨l, m, -, hvalid⟩ := h.valid i
    have hle := (h.budgeted i).charges
    have hcap := (s.cache.shards i).capacity.toNat_lt
    rw [← UInt64.toNat_div, ← h.capacity i]
    exact (ClockCache.usage_toNat hvalid.usage (Nat.lt_of_le_of_lt hle hcap)).trans_le hle
  have htotal := (total_le _ hshard).trans (Nat.mul_div_le _ _)
  have hcarry := Nat.lt_of_le_of_lt htotal o.capacity.toNat_lt
  exact UInt64.le_iff_toNat_le.mpr ((total_toNat hcarry).trans_le htotal)

omit [NeZero size] in
theorem Good.occupancy_le {s : CacheSession o.shardNum.toNat} (h : Good o n used s)
    (hused : used < 2 ^ 30) (hlimits : o.shardNum.toNat * o.occupancyLimit.toNat < 2 ^ 64) :
    s.cache.getOccupancy ≤ s.cache.getOccupancyLimit := by
  have hshard : ∀ i, (s.cache.shards i).occupancy.toNat ≤ o.occupancyLimit.toNat := by
    intro i
    obtain ⟨l, m, hle, hvalid⟩ := h.valid i
    have hpop := hvalid.population
    rw [← h.occupancyLimit i]
    exact (ClockCache.occupancy_toNat hvalid.occupancy
      (Nat.lt_of_le_of_lt hpop (by omega))).trans_le (h.budgeted i).population
  have hlimit : (total fun i => (s.cache.shards i).occupancyLimit.toNat) =
      o.shardNum.toNat * o.occupancyLimit.toNat := by
    rw [← total_const]
    congr 1
    funext i
    rw [h.occupancyLimit i]
  have htotal := total_le _ hshard
  have hcarry := Nat.lt_of_le_of_lt htotal hlimits
  apply UInt64.le_iff_toNat_le.mpr
  calc s.cache.getOccupancy.toNat = _ := total_toNat hcarry
    _ ≤ o.shardNum.toNat * o.occupancyLimit.toNat := htotal
    _ = s.cache.getOccupancyLimit.toNat := by
      rw [← hlimit]
      exact (total_toNat (hlimit ▸ hlimits)).symm

end

/-- **The cache keeps to its budgets** between all calls of a run in which no sum of charges
and not the sum of the occupancy limits is 2^64 or more. -/
theorem run_budgeted (hashKey : Key → UniqueId64x2) (o : CacheOptions) {n : Nat}
    (hlen : (o.length / o.shardNum).toNat = 2 ^ n)
    (hlimits : o.shardNum.toNat * o.occupancyLimit.toNat < 2 ^ 64)
    (calls : List (CacheCall Key o.shardNum.toNat)) (hcalls : calls.length < 2 ^ 30)
    (hsums : Along (step hashKey) (Fits hashKey) (start o) calls)
    {s : CacheSession o.shardNum.toNat} (hrun : run (step hashKey) (start o) calls = .ok s) :
    s.cache.getUsage ≤ o.capacity ∧ s.cache.getOccupancy ≤ s.cache.getOccupancyLimit := by
  have hgood := (Good.start hlen).run calls (by omega) hsums hrun
  exact ⟨hgood.usage_le, hgood.occupancy_le (by omega) hlimits⟩

/-- Two shards of four slots, with a capacity of three and two entries each. -/
def twoShards : CacheOptions := ⟨⟨6, 8, 0, 2, 1⟩, 2, by decide⟩

/-- In one shard, an entry pinned and erased, an eviction, and an insertion that does not
fit beside the pinned entry; an entry without a charge in the other. -/
def pinnedCalls : List (CacheCall UInt64 twoShards.shardNum.toNat) :=
  [.insert 0 ⟨10, 1, (0, 0), 2⟩, .lookup 0, .erase (0, 0), .insert 2 ⟨20, 1, (0, 0), 1⟩,
    .insert 4 ⟨30, 1, (0, 0), 2⟩, .insert 1 ⟨40, 1, (0, 0), 0⟩]

theorem run_budgeted_pinned : ∃ s, run (step fun k => (k, 0)) (start twoShards) pinnedCalls = .ok s ∧
    s.cache.getUsage ≤ twoShards.capacity ∧ s.cache.getOccupancy ≤ s.cache.getOccupancyLimit :=
  ⟨_, rfl, run_budgeted (fun k => (k, 0)) twoShards (n := 2) (by decide) (by decide) pinnedCalls
    (by decide) (by decide +kernel) rfl⟩

end CacheSession
end HyperCache.Clock
