import HyperCache.Clock.Cache
import HyperCache.Lib.SideBySide

/-! The sharded clock cache is its shards side by side.

A call goes to one shard and is a call of that shard alone (`shard_call`). So a run of the
cache is one run of each shard, on the calls routed to it (`run_iff_shards`): what holds of
every run of a single `ClockCache` holds of each shard. -/
namespace HyperCache.Clock

namespace Session

/-- What the keys were last inserted with is not looked at. -/
def bare (s : Session) : Session := {s with latest := fun _ => none}

/-- One call of a shard. -/
def shardCall (s : Session) (call : Call) : Option Session := (s.call call).map bare

theorem call_bare (s : Session) (call : Call) : (s.call call).map bare = s.bare.shardCall call := by
  cases call with
  | insert handle =>
    simp only [shardCall, Session.call, bare]
    cases s.cache.insert handle with
    | none => rfl
    | some r => rfl
  | lookup k =>
    simp only [shardCall, Session.call, bare]
    cases s.cache.lookup k with
    | none => rfl
    | some r => rfl
  | release h =>
    by_cases hheld : h ∈ s.held
    · have hfull : s.call (.release h) = some {s with cache := (s.cache.release h).2, held := s.held.erase h} :=
        if_pos hheld
      have hbare : s.bare.call (.release h) =
          some {s.bare with cache := (s.cache.release h).2, held := s.held.erase h} := if_pos hheld
      rw [shardCall, hfull, hbare]
      rfl
    · have hfull : s.call (.release h) = none := if_neg hheld
      have hbare : s.bare.call (.release h) = none := if_neg hheld
      rw [shardCall, hfull, hbare]
  | erase k =>
    simp only [shardCall, Session.call, bare]
    cases s.cache.erase k with
    | none => rfl
    | some r => rfl

theorem run_bare (s : Session) (calls : List Call) :
    (s.run calls).map bare = Stepwise.run shardCall s.bare calls := by
  have hrun : (Stepwise.run Session.call s calls).map bare = Stepwise.run shardCall s.bare (calls.map id) :=
    Stepwise.run_map call_bare s calls
  rwa [List.map_id] at hrun

end Session

namespace CacheSession
open Fallible SideBySide

variable {Key : Type} {size : Nat} [NeZero size] (hashKey : Key → UniqueId64x2)

/-- The shard a call goes to, and the call that is made there. -/
def route : CacheCall Key size → Fin size × Call
  | .insert key handle => (Cache.index size (hashKey key), .insert {handle with hashedKey := hashKey key})
  | .lookup key => (Cache.index size (hashKey key), .lookup (hashKey key))
  | .release h => (h.shard, .release h.slot)
  | .erase hashedKey => (Cache.index size hashedKey, .erase hashedKey)

/-- One call, whatever it returns. -/
def call (s : CacheSession size) (call : CacheCall Key size) : Option (CacheSession size) :=
  (s.step hashKey call).toOption.map Prod.fst

omit [NeZero size] in
theorem shard_injective : Function.Injective (shard : CacheSession size → Fin size → Session) := by
  intro s s' h
  have hcaches : s.cache.shards = s'.cache.shards := funext fun i => congrArg Session.cache (congrFun h i)
  have hheld : s.held = s'.held := funext fun i => congrArg Session.held (congrFun h i)
  cases s with
  | mk c held =>
    cases c
    cases hcaches
    cases hheld
    rfl

omit [NeZero size] in
/-- One shard and what is held of it are replaced. -/
theorem shard_store (s : CacheSession size) (i : Fin size) (c : ClockCache) (held : List Nat) :
    shard ⟨s.cache.store i c, Function.update s.held i held⟩ =
      Function.update s.shard i ⟨c, held, fun _ => none⟩ := by
  funext j
  by_cases hj : j = i
  · subst hj
    simp only [shard, Cache.store, Function.update_self]
  · simp only [shard, Cache.store, Function.update_of_ne hj]

omit [NeZero size] in
theorem shard_keeps_held (s : CacheSession size) (i : Fin size) (c : ClockCache) :
    shard ⟨s.cache.store i c, s.held⟩ = Function.update s.shard i ⟨c, s.held i, fun _ => none⟩ := by
  have hstore := s.shard_store i c (s.held i)
  rwa [Function.update_eq_self] at hstore

/-- **The step lemma**: a call is a call of the shard it goes to. -/
theorem shard_call (s : CacheSession size) (call : CacheCall Key size) :
    (s.call hashKey call).map shard = sideBySide Session.shardCall s.shard (route hashKey call) := by
  cases call with
  | insert key handle =>
    simp only [CacheSession.call, step, Cache.insert, sideBySide, route, Session.shardCall, Session.call, shard]
    cases (s.cache.shards (Cache.index size (hashKey key))).insert {handle with hashedKey := hashKey key} with
    | none => rfl
    | some r => exact congrArg some (s.shard_keeps_held ..)
  | lookup key =>
    simp only [CacheSession.call, step, Cache.lookup, sideBySide, route, Session.shardCall, Session.call, shard]
    cases (s.cache.shards (Cache.index size (hashKey key))).lookup (hashKey key) with
    | none => rfl
    | some r =>
      obtain ⟨e, c⟩ := r
      cases e with
      | none => exact congrArg some (s.shard_keeps_held ..)
      | some h => exact congrArg some (s.shard_store ..)
  | release h =>
    by_cases hheld : h.slot ∈ s.held h.shard
    · have hcache : s.step hashKey (.release h) = .ok (⟨s.cache.store h.shard
          ((s.cache.shards h.shard).release h.slot).2, Function.update s.held h.shard
          ((s.held h.shard).erase h.slot)⟩, true) := if_pos hheld
      have hshard : (s.shard h.shard).call (.release h.slot) = some ⟨((s.cache.shards h.shard).release h.slot).2,
          (s.held h.shard).erase h.slot, fun _ => none⟩ := if_pos hheld
      rw [CacheSession.call, hcache, sideBySide, route, Session.shardCall, hshard]
      exact congrArg some (s.shard_store ..)
    · have hcache : s.step hashKey (.release h) = .error .notHeld := if_neg hheld
      have hshard : (s.shard h.shard).call (.release h.slot) = none := if_neg hheld
      rw [CacheSession.call, hcache, sideBySide, route, Session.shardCall, hshard]
      rfl
  | erase k =>
    simp only [CacheSession.call, step, Cache.erase, sideBySide, route, Session.shardCall, Session.call, shard]
    cases (s.cache.shards (Cache.index size k)).erase k with
    | none => rfl
    | some r => exact congrArg some (s.shard_keeps_held ..)

theorem run_call (s : CacheSession size) (calls : List (CacheCall Key size)) :
    (run (step hashKey) s calls).toOption = Stepwise.run (call hashKey) s calls := run_toOption s calls

/-- The calls that go to shard `i`. -/
def callsAt (i : Fin size) (calls : List (CacheCall Key size)) : List Call := callsOf i (calls.map (route hashKey))

/-- **A run of the cache is one run of each shard**, from what the constructor makes of it, on
the calls that go to it. -/
theorem run_iff_shards (hashKey : Key → UniqueId64x2) (o : CacheOptions)
    (calls : List (CacheCall Key o.shardNum.toNat)) (s : CacheSession o.shardNum.toNat) :
    run (step hashKey) (start o) calls = .ok s ↔
      ∀ i, ∃ latest, (Session.start (Cache.shardOptions o)).run (callsAt hashKey i calls) =
        some ⟨s.cache.shards i, s.held i, latest⟩ := by
  have hok : ∀ r : Except Fault (CacheSession o.shardNum.toNat), r = .ok s ↔ r.toOption = some s :=
    fun r => ⟨fun h => by rw [h]; rfl, ok_of_toOption⟩
  have hmap : ∀ r : Option (CacheSession o.shardNum.toNat), r = some s ↔ r.map shard = some s.shard :=
    fun r => (Option.map_injective shard_injective).eq_iff.symm
  rw [hok, run_call, hmap, Stepwise.run_map (shard_call hashKey), run_iff]
  refine forall_congr' fun i => ?_
  have hbare := Session.run_bare (Session.start (Cache.shardOptions o)) (callsAt hashKey i calls)
  constructor
  · intro h
    obtain ⟨t, ht, hshard⟩ := Option.map_eq_some_iff.mp (hbare.trans h)
    refine ⟨t.latest, ht.trans ?_⟩
    obtain ⟨hcache, hheld, -⟩ := Session.mk.inj hshard
    rw [← hcache, ← hheld]
  · rintro ⟨latest, h⟩
    rw [h] at hbare
    exact hbare.symm

end CacheSession

end HyperCache.Clock
