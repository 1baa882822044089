import HyperCache.HashSkip.Aging
import HyperCache.Lib.Rounds

/-! The threads of the cache.

One thread decays the buckets and one compacts them, each going round by an index of its own;
clients call in between. When the decay thread has gone round ten times, it has met every
bucket ten times, so that no entry is left that was not used in the meantime
(`run_ten_rounds`). A compaction of the bucket would give the entry a new node, with new hits. -/
namespace HyperCache.HashSkip
open HashSkipCache

/-- The cache, and where its threads are: `bucket_index` of `Decay` and of `Compact`. -/
structure CacheThreads where
  cache : HashSkipCache
  decayIndex : Nat := 0
  compactIndex : Nat := 0

namespace CacheThreads

/-- A call of a client, or a turn of a thread. -/
inductive Event where
  | insert (key : Int64) (handle : Option Handle) (topLevel : Fin (maxLevel + 1))
  | get (key : Int64)
  | decay
  | compact (levels : Nat → Fin (maxLevel + 1))

def Event.decays : Event → Bool
  | .decay => true
  | _ => false

/-- A new `Init`ed cache, its threads at their first bucket. -/
def start (capicity : Int) (bucketNum : Nat) : CacheThreads := {cache := (make capicity bucketNum).init}

/-- The bucket that a thread at the index turns to. -/
def wrap (s : CacheThreads) (bucketIndex : Nat) : Nat := if bucketIndex = s.cache.bucketNum then 0 else bucketIndex

def call (s : CacheThreads) : Event → Call
  | .insert key handle topLevel => .insert key handle topLevel
  | .get key => .get key
  | .decay => .decay (s.wrap s.decayIndex)
  | .compact levels => .compact (s.wrap s.compactIndex) levels

/-- Where the threads are after an event. -/
def moved (s : CacheThreads) (cache : HashSkipCache) : Event → CacheThreads
  | .decay => {s with cache := cache, decayIndex := s.wrap s.decayIndex + 1}
  | .compact _ => {s with cache := cache, compactIndex := s.wrap s.compactIndex + 1}
  | _ => {s with cache := cache}

def step (s : CacheThreads) (e : Event) : Option CacheThreads :=
  (s.cache.call (s.call e)).map fun cache => s.moved cache e

def run (s : CacheThreads) (events : List Event) : Option CacheThreads := Stepwise.run step s events

/-- A turn of the compactor that finds too little to compact. -/
def skips (s : CacheThreads) : Event → Bool
  | .compact _ => (s.cache.buckets (s.wrap s.compactIndex)).all sparse
  | _ => false

/-- The event leaves the entry of the key alone, unless it is a decay. -/
def Idle (key : Int64) (s : CacheThreads) (e : Event) : Prop :=
  s.cache.Leaves key (s.call e) ∨ s.skips e = true

instance (key : Int64) (s : CacheThreads) : DecidablePred (Idle key s) :=
  fun _ => inferInstanceAs (Decidable (_ ∨ _))

section Step
variable {s s' : CacheThreads} {e : Event} {n : Nat} {key : Int64} {hits : Int} {handle : Handle} {passes q : Nat}

@[simp] theorem moved_cache (s : CacheThreads) (cache : HashSkipCache) (e : Event) : (s.moved cache e).cache = cache := by
  cases e <;> rfl

/-- A run of events is a run of calls. -/
theorem run_calls {events : List Event} (hrun : s.run events = some s') :
    ∃ calls, s.cache.run calls = some s'.cache := by
  induction events generalizing s with
  | nil =>
    cases hrun
    exact ⟨[], rfl⟩
  | cons e events ih =>
    obtain ⟨s₁, hstep, hrest⟩ := Stepwise.run_cons.mp hrun
    obtain ⟨cache, hcall, rfl⟩ := Option.map_eq_some_iff.mp hstep
    obtain ⟨calls, hcalls⟩ := ih hrest
    rw [moved_cache] at hcalls
    exact ⟨s.call e :: calls, Stepwise.run_cons.mpr ⟨cache, hcall, hcalls⟩⟩

/-- The decay thread has had `q` turns. -/
structure Turned (s : CacheThreads) (n q : Nat) : Prop where
  ready : s.cache.Ready n
  index : s.wrap s.decayIndex = q % n

theorem wrap_next (hn : 0 < n) (q : Nat) : (if q % n + 1 = n then 0 else q % n + 1) = (q + 1) % n := by
  rw [← Nat.mod_add_mod q n 1]
  split
  next hlast => rw [hlast, Nat.mod_self]
  next hmore =>
    have hlt := Nat.mod_lt q hn
    exact (Nat.mod_eq_of_lt (by omega)).symm

/-- **The step lemma** for the threads. -/
theorem Turned.step (hn : 0 < n) (h : s.Turned n q) (hstep : s.step e = some s') :
    s'.Turned n (q + if e.decays then 1 else 0) := by
  obtain ⟨cache, hcall, rfl⟩ := Option.map_eq_some_iff.mp hstep
  obtain ⟨hready, hindex⟩ := h
  have hready' := (hready.faithful hcall s.cache.bounds_slot).1
  have hnum : cache.bucketNum = s.cache.bucketNum := hready'.bucketNum.trans hready.bucketNum.symm
  refine ⟨by rw [moved_cache]; exact hready', ?_⟩
  cases e with
  | decay =>
    show (if s.wrap s.decayIndex + 1 = cache.bucketNum then 0 else s.wrap s.decayIndex + 1) = (q + 1) % n
    rw [hready'.bucketNum, hindex]
    exact wrap_next hn q
  | insert | get | compact =>
    show (if s.decayIndex = cache.bucketNum then 0 else s.decayIndex) = q % n
    rw [hnum]
    exact hindex

theorem skips_cache (hskips : s.skips e = true) (hstep : s.step e = some s') : s'.cache = s.cache := by
  obtain ⟨cache, hcall, rfl⟩ := Option.map_eq_some_iff.mp hstep
  rw [moved_cache]
  cases e with
  | compact levels =>
    rcases compact_cases hcall with rfl | ⟨l, new, hbucket, hcompact, -⟩
    · rfl
    · rw [skips, hbucket, Option.all_some] at hskips
      rw [compactOneBucket, hbucket] at hcompact
      simp only [hskips, if_true] at hcompact
      cases hcompact
  | insert | get | decay => cases hskips

/-- What is left of the entry after a decay of its bucket, or another event. -/
theorem Turned.left (h : s.Turned n q) (hat : s.cache.At key (Left hits handle passes))
    (hidle : Idle key s e) (hstep : s.step e = some s') :
    ∃ passes', s'.cache.At key (Left hits handle passes') ∧ passes' + Rounds.visits n (s.cache.bucketIndex key) q =
      passes + Rounds.visits n (s.cache.bucketIndex key) (q + if e.decays then 1 else 0) := by
  have hstep' := hstep
  obtain ⟨cache, hcall, rfl⟩ := Option.map_eq_some_iff.mp hstep
  rcases hidle with hleaves | hskips
  · have hleft := hat.call h.ready hleaves hcall
    refine ⟨_, (moved_cache s cache e).symm ▸ hleft, ?_⟩
    cases e with
    | decay =>
      rw [call, Call.decays, h.index, Event.decays, if_pos rfl, Rounds.visits_succ]
      simp only [beq_iff_eq]
      omega
    | insert | get | compact => rfl
  · refine ⟨passes, (skips_cache hskips hstep').symm ▸ hat, ?_⟩
    cases e with
    | compact levels => rfl
    | insert | get | decay => cases hskips

end Step

/-! ### Runs -/

theorem countP_cons_decays (e : Event) (events : List Event) (q : Nat) :
    q + (e :: events).countP Event.decays = q + (if e.decays = true then 1 else 0) + events.countP Event.decays := by
  rw [List.countP_cons]
  omega

theorem Turned.after {s s' : CacheThreads} {n q : Nat} {events : List Event} (hn : 0 < n) (h : s.Turned n q)
    (hrun : s.run events = some s') : s'.Turned n (q + events.countP Event.decays) := by
  induction events generalizing s q with
  | nil =>
    cases hrun
    exact h
  | cons e events ih =>
    obtain ⟨s₁, hstep, hrest⟩ := Stepwise.run_cons.mp hrun
    rw [countP_cons_decays]
    exact ih (h.step hn hstep) hrest

theorem start_turned (capicity : Int) {bucketNum : Nat} (hnum : 0 < bucketNum) :
    (start capicity bucketNum).Turned bucketNum 0 := by
  refine ⟨init_ready capicity hnum, ?_⟩
  rw [Nat.zero_mod]
  exact ite_self 0

/-- **The run lemma**: the entry has been through the decays of its bucket. -/
theorem Turned.run {s s' : CacheThreads} {n q passes : Nat} {key : Int64} {hits : Int} {handle : Handle}
    {idle : List Event} (hn : 0 < n) (h : s.Turned n q) (hat : s.cache.At key (Left hits handle passes))
    (hidle : Stepwise.Along CacheThreads.step (Idle key) s idle) (hrun : s.run idle = some s') :
    s'.cache.Ready n ∧ ∃ passes', s'.cache.At key (Left hits handle passes') ∧
      passes' + Rounds.visits n (s.cache.bucketIndex key) q =
        passes + Rounds.visits n (s.cache.bucketIndex key) (q + idle.countP Event.decays) := by
  induction idle generalizing s q passes with
  | nil =>
    cases hrun
    exact ⟨h.ready, passes, hat, rfl⟩
  | cons e idle ih =>
    obtain ⟨s₁, hstep, hrest⟩ := Stepwise.run_cons.mp hrun
    have h₁ := h.step hn hstep
    obtain ⟨passes₁, hat₁, hcount₁⟩ := h.left hat hidle.1 hstep
    obtain ⟨hready, passes', hat', hcount⟩ := ih h₁ hat₁ (hidle.2 s₁ hstep) hrest
    have hindex : s₁.cache.bucketIndex key = s.cache.bucketIndex key := by
      rw [bucketIndex, bucketIndex, h₁.ready.bucketNum, h.ready.bucketNum]
    rw [hindex] at hcount
    rw [countP_cons_decays]
    exact ⟨hready, passes', hat', by omega⟩

/-- **Ten rounds of the decay thread leave nothing idle**: what a `Get` has returned is gone when
the thread has had ten turns for each bucket, if it is not read, written or evicted and its
bucket is not rebuilt in between, whatever else clients and threads do. -/
theorem run_ten_rounds {capicity : Int} {bucketNum : Nat} {events idle : List Event} {s s' : CacheThreads}
    {cache : HashSkipCache} {key : Int64} {handle : Handle} (hnum : 0 < bucketNum) (hkey : key ≠ Int64.maxValue)
    (hrun : (start capicity bucketNum).run events = some s) (hget : s.cache.get key = some (some handle, cache))
    (hidle : Stepwise.Along step (Idle key) {s with cache := cache} idle)
    (hten : 10 * bucketNum ≤ idle.countP Event.decays)
    (hend : ({s with cache := cache} : CacheThreads).run idle = some s') :
    ∃ last, s'.cache.get key = some (none, last) := by
  obtain ⟨hready, hindex⟩ := (start_turned capicity hnum).after hnum hrun
  obtain ⟨calls, hcalls⟩ := run_calls hrun
  obtain ⟨hd, -, hits, hhits, hat⟩ := at_of_get hready (run_capped hcalls) hkey hget
  have hturned : Turned {s with cache := cache} bucketNum (0 + events.countP Event.decays) := by
    refine ⟨hd, ?_⟩
    rw [← hindex]
    show (if s.decayIndex = cache.bucketNum then 0 else s.decayIndex) = _
    rw [hd.bucketNum, wrap, hready.bucketNum]
  obtain ⟨hready', passes, hleft, hcount⟩ := hturned.run hnum hat hidle hend
  refine hleft.gone hready' hhits ?_
  have hbucket : cache.bucketIndex key < bucketNum := by
    rw [bucketIndex, hd.bucketNum]
    exact Nat.mod_lt _ hnum
  have hmono := Rounds.visits_mono bucketNum (cache.bucketIndex key) (Nat.add_le_add_left hten
    (0 + events.countP Event.decays))
  rw [Rounds.visits_rounds hbucket] at hmono
  simp only at hcount
  omega

/-- The compactor passes both buckets, and another key is used. -/
theorem run_ten_rounds_idle : ∃ s cache s', (start 10 2).run [.insert 0 (some ⟨1, 4⟩) 0, .decay, .get 0] = some s ∧
    s.cache.get 0 = some (some ⟨1, 4⟩, cache) ∧
    ({s with cache := cache} : CacheThreads).run ([.insert 1 (some ⟨2, 4⟩) 3, .compact fun _ => 0, .get 1,
      .compact fun _ => 0] ++ List.replicate 20 .decay) = some s' ∧
    ∃ last, s'.cache.get 0 = some (none, last) := by
  have hany : ((start 10 2).run [.insert 0 (some ⟨1, 4⟩) 0, .decay, .get 0]).any (fun s => (s.cache.get 0).any fun r =>
      (({s with cache := r.2} : CacheThreads).run ([.insert 1 (some ⟨2, 4⟩) 3, .compact fun _ => 0, .get 1,
        .compact fun _ => 0] ++ List.replicate 20 .decay)).any fun _ => r.1 = some ⟨1, 4⟩ ∧
          Stepwise.Along step (Idle 0) {s with cache := r.2} ([.insert 1 (some ⟨2, 4⟩) 3, .compact fun _ => 0, .get 1,
            .compact fun _ => 0] ++ List.replicate 20 .decay)) = true := by
    decide +kernel
  obtain ⟨s, hrun, hrest⟩ := (Option.any_eq_true _ _).mp hany
  obtain ⟨⟨found, cache⟩, hget, hrest⟩ := (Option.any_eq_true _ _).mp hrest
  obtain ⟨s', hend, hall⟩ := (Option.any_eq_true _ _).mp hrest
  obtain ⟨rfl, hidle⟩ := of_decide_eq_true hall
  exact ⟨s, cache, s', hrun, hget, hend,
    run_ten_rounds (by decide) (by decide) hrun hget hidle (by decide) hend⟩

end CacheThreads

end HyperCache.HashSkip
