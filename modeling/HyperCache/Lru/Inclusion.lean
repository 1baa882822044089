import HyperCache.Lib.Paging
import HyperCache.Lru.Cache

/-! A larger LRU cache does not miss more.

When all handles have one charge, a call moves an entry to the front, or puts one there in place
of the last when the shard is full (`Uniform.step_pairs`). Of two shards with the same calls,
the one with the smaller limits then holds part of what the other holds, in the same order
(`Contained.step`): unless it is full it has evicted nothing, and the two are alike. So every
`Get` that hits in a smaller cache hits in a larger one (`run_inclusion`). -/
namespace HyperCache.Lru
open Fallible

namespace LRUCacheShard
variable {Key : Type} [DecidableEq Key] {s s' t : LRUCacheShard Key} {key : Key} {handle : Handle}
  {charge : UInt64} {call : Call Key}

/-- The keys and handles, the most recently used first. -/
def pairs (s : LRUCacheShard Key) : List (Key × Handle) := s.entries.map fun e => (e.first, e.second)

omit [DecidableEq Key] in
theorem pairs_keys (s : LRUCacheShard Key) : s.pairs.map Prod.fst = s.entries.map (·.first) := by
  rw [pairs, List.map_map]
  rfl

theorem Represents.pairs_nodup (h : Represents s) : (s.pairs.map Prod.fst).Nodup := by
  rw [pairs_keys]
  exact h.keys

/-- The entries but one are those with the other keys. -/
theorem Represents.pairs_without (h : Represents s) {e : Element Key} (he : e ∈ s.entries) :
    (s.without e.node).map (fun e => (e.first, e.second)) = s.pairs.filter (·.1 ≠ e.first) := by
  obtain ⟨-, before, after, hes, hwithout⟩ := h.at_node he
  have hkeys := h.keys
  rw [hes, List.map_append, List.map_cons] at hkeys
  obtain ⟨-, htail, hdisjoint⟩ := List.nodup_append.mp hkeys
  have hbefore : ∀ a ∈ before, a.first ≠ e.first := fun a ha heq =>
    hdisjoint _ (List.mem_map_of_mem ha) _ (List.mem_cons_self ..) heq
  have hafter : ∀ a ∈ after, a.first ≠ e.first := fun a ha heq =>
    (List.nodup_cons.mp htail).1 (heq ▸ List.mem_map_of_mem ha)
  have hall : (before.map fun e => (e.first, e.second)).filter (·.1 ≠ e.first) =
      before.map fun e => (e.first, e.second) := by
    refine List.filter_eq_self.mpr fun p hp => ?_
    obtain ⟨a, ha, rfl⟩ := List.mem_map.mp hp
    exact decide_eq_true (hbefore a ha)
  have hrest : (after.map fun e => (e.first, e.second)).filter (·.1 ≠ e.first) =
      after.map fun e => (e.first, e.second) := by
    refine List.filter_eq_self.mpr fun p hp => ?_
    obtain ⟨a, ha, rfl⟩ := List.mem_map.mp hp
    exact decide_eq_true (hafter a ha)
  rw [pairs, hwithout, hes, List.map_append, List.map_append, List.map_cons, List.filter_append,
    List.filter_cons_of_neg (by simp), hall, hrest]

/-- The list a call leaves. -/
def listed (charge : UInt64) (s : LRUCacheShard Key) : Call Key → List (Key × Handle)
  | .get key => Paging.promote s.pairs key
  | .insert key handle => Paging.put (!decide (Roomy charge s)) s.pairs key handle

/-- What a call returns. -/
def found (s : LRUCacheShard Key) : Call Key → Option Handle
  | .get key => (s.pairs.find? (·.1 = key)).map Prod.snd
  | .insert _ _ => none

theorem promote_of_mem (h : Represents s) {e : Element Key} (he : e ∈ s.entries) :
    s.pairs.find? (·.1 = e.first) = some (e.first, e.second) :=
  Paging.find?_of_mem h.pairs_nodup (List.mem_map.mpr ⟨e, he, rfl⟩)

/-- **The step lemma**: a shard is a list that evicts its last entry. -/
theorem Uniform.step_pairs (h : Uniform charge s) (hcall : Charges charge call)
    (hle : s.capacity ≠ 0 → charge ≤ s.capacity) :
    ∃ t, s.step call = .ok (t, s.found call) ∧ Uniform charge t ∧ t.capacity = s.capacity ∧
      t.maxEntryNum = s.maxEntryNum ∧ t.pairs = s.listed charge call ∧ (¬ Roomy charge s → ¬ Roomy charge t) := by
  obtain ⟨t, result, hstep, huniform, hcap, hadds, hnot⟩ := h.step hcall hle
  have hstays : t.maxEntryNum = s.maxEntryNum → ¬ Roomy charge s → ¬ Roomy charge t := by
    intro hlimit hfull hroomy
    have hnadds : ¬ Adds s call := by
      cases call with
      | get key => exact id
      | insert key handle => exact fun hadd => hfull (hcall.1 ▸ hadd.2)
    obtain ⟨husage, hnum⟩ := hnot hnadds
    rw [getEntryNum, getEntryNum] at hnum
    rw [Roomy, hcap, husage, hlimit, hnum] at hroomy
    exact hfull hroomy
  suffices hexplicit : ∃ t, s.step call = .ok (t, s.found call) ∧ t.maxEntryNum = s.maxEntryNum ∧
      t.pairs = s.listed charge call by
    obtain ⟨t', hstep', hlimit, hpairs⟩ := hexplicit
    cases hstep.symm.trans hstep'
    exact ⟨t, hstep', huniform, hcap, hlimit, hpairs, hstays hlimit⟩
  cases call with
  | get key =>
    by_cases hkey : key ∈ s.entries.map (·.first)
    · obtain ⟨e, he, rfl⟩ := List.mem_map.mp hkey
      have hfind := promote_of_mem h.represents he
      refine ⟨{s with entries := e :: s.without e.node}, (get_hit h.represents he).trans ?_, rfl, ?_⟩
      · rw [found, hfind, Option.map_some]
      · rw [listed, Paging.promote, hfind, ← h.represents.pairs_without he]
        rfl
    · have hkey' : key ∉ s.pairs.map Prod.fst := by
        rw [pairs_keys]
        exact hkey
      refine ⟨s, (get_miss h.represents hkey).trans ?_, rfl, (Paging.promote_absent hkey').symm⟩
      have hnone : s.pairs.find? (·.1 = key) = none :=
        List.find?_eq_none.mpr fun p hp heq => hkey' (List.mem_map.mpr ⟨p, hp, of_decide_eq_true heq⟩)
      rw [found, hnone, Option.map_none]
  | insert key handle =>
    obtain ⟨hcharge, hdel⟩ := hcall
    by_cases hkey : key ∈ s.entries.map (·.first)
    · obtain ⟨e, he, rfl⟩ := List.mem_map.mp hkey
      have hinsert := insert_same h.represents he (hcharge.trans (h.same e he).symm)
      refine ⟨_, step_insert hinsert, rfl, ?_⟩
      rw [← pairs_keys] at hkey
      rw [listed, Paging.put, if_pos hkey, ← h.represents.pairs_without he]
      rfl
    · have hkey' : key ∉ s.pairs.map Prod.fst := by
        rw [pairs_keys]
        exact hkey
      rcases h.insert_new hkey hcharge hle with ⟨hroomy, hinsert⟩ | ⟨hfull, m, hm, hinsert⟩
      · refine ⟨_, step_insert hinsert, rfl, ?_⟩
        rw [keep_all le_rfl, listed, Paging.put, if_neg hkey', decide_eq_true hroomy]
        rfl
      · refine ⟨_, step_insert hinsert, rfl, ?_⟩
        have hlast : s.pairs.dropLast = (s.entries.take m).map fun e => (e.first, e.second) := by
          rw [pairs, ← List.map_dropLast, List.dropLast_eq_take, ← hm, Nat.add_sub_cancel]
        rw [listed, Paging.put, if_neg hkey', decide_eq_false hfull, Bool.not_false, if_pos rfl, hlast]
        rfl

/-- What was just inserted is found. -/
theorem Uniform.found_insert (h : Uniform charge s) (hcall : Charges charge (.insert key handle))
    (hle : s.capacity ≠ 0 → charge ≤ s.capacity) :
    ∃ t, s.step (.insert key handle) = .ok (t, none) ∧ t.found (.get key) = some handle := by
  obtain ⟨t, hstep, -, -, -, hpairs, -⟩ := h.step_pairs hcall hle
  refine ⟨t, hstep, ?_⟩
  simp [found, hpairs, listed, Paging.put]

/-! ### Two shards with the same calls -/

/-- The limits of the second shard are no smaller. -/
structure Larger (s s' : LRUCacheShard Key) : Prop where
  capacity : s'.capacity = 0 ∨ s.capacity ≠ 0 ∧ s.capacity ≤ s'.capacity
  limit : s'.maxEntryNum = 0 ∨
    s.maxEntryNum ≠ 0 ∧ s.maxEntryNum.toUInt64.toNat ≤ s'.maxEntryNum.toUInt64.toNat

instance (s s' : LRUCacheShard Key) : Decidable (Larger s s') :=
  decidable_of_iff (_ ∧ _) ⟨fun h => ⟨h.1, h.2⟩, fun h => ⟨h.capacity, h.limit⟩⟩

/-- The first shard holds part of what the second holds. If it has evicted anything it is full. -/
structure Contained (charge : UInt64) (s s' : LRUCacheShard Key) : Prop where
  small : Uniform charge s
  large : Uniform charge s'
  larger : Larger s s'
  sub : s.pairs.Sublist s'.pairs
  alike : s.pairs = s'.pairs ∨ ¬ Roomy charge s

omit [DecidableEq Key] in
theorem settled_pairs (s : LRUCacheShard Key) :
    settled s.entries = (s.pairs.map fun p => p.2.freeData.totalCharge).sum := by
  rw [settled, pairs, List.map_map]
  rfl

/-- Where the two are alike, the larger one is full no sooner. -/
theorem Contained.roomy (h : Contained charge s s') (hroomy : Roomy charge s) : Roomy charge s' := by
  have halike := h.alike.resolve_right (not_not_intro hroomy)
  have husage : s'.usage = s.usage := by rw [h.small.usage, h.large.usage, settled_pairs, settled_pairs, halike]
  have hlen : s'.entries.length = s.entries.length := by
    have hlength := congrArg List.length halike
    rw [pairs, pairs, List.length_map, List.length_map] at hlength
    exact hlength.symm
  constructor
  · rcases h.larger.capacity with hnone | ⟨hcap, hle⟩
    · exact .inl hnone
    · rw [husage]
      exact .inr (UInt64.le_trans (hroomy.1.resolve_left hcap) hle)
  · rcases h.larger.limit with hnone | ⟨hlimit, hle⟩
    · exact .inl hnone
    · rw [hlen]
      exact .inr (Nat.lt_of_lt_of_le (hroomy.2.resolve_left hlimit) hle)

/-- **The step lemma**, for both. -/
theorem Contained.step (h : Contained charge s s') (hcall : Charges charge call)
    (hle : s.capacity ≠ 0 → charge ≤ s.capacity) :
    ∃ t t', s.step call = .ok (t, s.found call) ∧ s'.step call = .ok (t', s'.found call) ∧
      Contained charge t t' ∧ t.capacity = s.capacity ∧
      ∀ handle, s.found call = some handle → s'.found call = some handle := by
  have hle' : s'.capacity ≠ 0 → charge ≤ s'.capacity := by
    intro hcap'
    obtain ⟨hcap, hcaps⟩ := h.larger.capacity.resolve_left hcap'
    exact UInt64.le_trans (hle hcap) hcaps
  obtain ⟨t, hstep, hsmall, hcap, hlimit, hpairs, hfull⟩ := h.small.step_pairs hcall hle
  obtain ⟨t', hstep', hlarge, hcap', hlimit', hpairs', -⟩ := h.large.step_pairs hcall hle'
  have hkeys := h.large.represents.pairs_nodup
  refine ⟨t, t', hstep, hstep', ⟨hsmall, hlarge, ⟨?_, ?_⟩, ?_, ?_⟩, hcap, fun handle hfound => ?_⟩
  · rw [hcap, hcap']
    exact h.larger.capacity
  · rw [hlimit, hlimit']
    exact h.larger.limit
  · rw [hpairs, hpairs']
    cases call with
    | get key => exact Paging.promote_sublist h.sub hkeys key
    | insert key handle =>
      refine Paging.put_sublist h.sub (fun hfull' => ?_) key handle
      rw [Bool.not_eq_true', decide_eq_false_iff_not] at hfull' ⊢
      exact fun hroomy => hfull' (h.roomy hroomy)
  · by_cases hroomy : Roomy charge s
    · refine .inl ?_
      rw [hpairs, hpairs']
      cases call with
      | get key => rw [listed, listed, h.alike.resolve_right (not_not_intro hroomy)]
      | insert key handle =>
        rw [listed, listed, h.alike.resolve_right (not_not_intro hroomy), decide_eq_true hroomy,
          decide_eq_true (h.roomy hroomy)]
    · exact .inr (hfull hroomy)
  · cases call with
    | get key =>
      obtain ⟨p, hfind, hvalue⟩ := Option.map_eq_some_iff.mp hfound
      rw [found, Paging.find?_of_sublist h.sub hkeys hfind, Option.map_some, hvalue]
    | insert key handle' => cases hfound

end LRUCacheShard

/-! ### Two caches -/

namespace LRUCache
variable {Key : Type} [DecidableEq Key] {toSize : Key → UInt64} {c c' : LRUCache Key} {charge : UInt64} {call : Call Key}

/-- Each shard of the first cache holds part of what its counterpart holds. -/
structure Contained (charge : UInt64) (c c' : LRUCache Key) : Prop where
  size : c.size = c'.size
  shards : ∀ (i : Fin c.size) (i' : Fin c'.size), i.val = i'.val →
    LRUCacheShard.Contained charge (c.shards i) (c'.shards i')
  charge : ∀ i, (c.shards i).capacity ≠ 0 → charge ≤ (c.shards i).capacity

theorem Contained.step (h : Contained charge c c') (hcall : LRUCacheShard.Charges charge call) :
    ∃ t t' result result', c.step toSize call = .ok (t, result) ∧ c'.step toSize call = .ok (t', result') ∧
      Contained charge t t' ∧ ∀ handle, result = some handle → result' = some handle := by
  have hindex : (c.index toSize call.key).val = (c'.index toSize call.key).val :=
    congrArg ((toSize call.key).toNat % ·) h.size
  have hshards := h.shards _ _ hindex
  obtain ⟨s, s', hstep, hstep', hcontained, hcap, hfound⟩ := hshards.step hcall (h.charge _)
  refine ⟨_, _, _, _, step_ok hstep, step_ok hstep', ⟨h.size, fun (i : Fin c.size) (i' : Fin c'.size) hi => ?_,
    fun (i : Fin c.size) => ?_⟩, hfound⟩
  · by_cases hj : i = c.index toSize call.key
    · subst hj
      obtain rfl : i' = c'.index toSize call.key := Fin.ext (hi.symm.trans hindex)
      simp only [store, Function.update_self]
      exact hcontained
    · have hj' : i' ≠ c'.index toSize call.key := fun heq => hj (Fin.ext (hi.trans (heq ▸ hindex.symm)))
      simp only [store, Function.update_of_ne hj, Function.update_of_ne hj']
      exact h.shards i i' hi
  · by_cases hj : i = c.index toSize call.key
    · subst hj
      simp only [store, Function.update_self]
      rw [hcap]
      exact h.charge _
    · simp only [store, Function.update_of_ne hj]
      exact h.charge i

theorem Contained.run (h : Contained charge c c') (calls : List (Call Key))
    (hcalls : ∀ call ∈ calls, LRUCacheShard.Charges charge call) :
    ∃ t t', Fallible.run (LRUCache.step toSize) c calls = .ok t ∧
      Fallible.run (LRUCache.step toSize) c' calls = .ok t' ∧ Contained charge t t' := by
  induction calls generalizing c c' with
  | nil => exact ⟨c, c', rfl, rfl, h⟩
  | cons call calls ih =>
    obtain ⟨u, u', result, result', hstep, hstep', hnext, -⟩ := h.step (hcalls call (List.mem_cons_self ..))
    obtain ⟨t, t', hrun, hrun', hend⟩ := ih hnext fun call hmem => hcalls call (List.mem_cons_of_mem _ hmem)
    exact ⟨t, t', run_cons.mpr ⟨_, hstep, hrun⟩, run_cons.mpr ⟨_, hstep', hrun'⟩, hend⟩

/-- What was just inserted is found. -/
theorem Contained.get_inserted (h : Contained charge c c') {key : Key} {handle : Handle}
    (hcall : LRUCacheShard.Charges charge (.insert key handle)) :
    ∃ t u, c.step toSize (.insert key handle) = .ok (t, none) ∧
      t.get toSize key = .ok (u, some handle) := by
  have hindex : (c.index toSize key).val = (c'.index toSize key).val :=
    congrArg ((toSize key).toNat % ·) h.size
  obtain ⟨s, hs, hfound⟩ := (h.shards _ _ hindex).small.found_insert hcall (h.charge _)
  have hinsert : c.step toSize (.insert key handle) = .ok (c.store (c.index toSize key) s, none) :=
    step_ok hs
  obtain ⟨t, t', result, result', ht, -, hnext, -⟩ :=
    @Contained.step Key _ toSize c c' charge (.insert key handle) h hcall
  cases hinsert.symm.trans ht
  have hshard : (c.store (c.index toSize key) s).shards (c.index toSize key) = s :=
    Function.update_self ..
  have hcall' : LRUCacheShard.Charges charge (.get key) := trivial
  have hsize : c.size = t'.size := hnext.size
  have hindex' : (c.index toSize key).val = (t'.index toSize key).val :=
    congrArg ((toSize key).toNat % ·) hsize
  obtain ⟨v, hv, -⟩ := (hnext.shards (c.index toSize key) (t'.index toSize key) hindex').small.step_pairs
    hcall' (hnext.charge _)
  rw [hshard, hfound] at hv
  have hget : ((c.store (c.index toSize key) s).shards (c.index toSize key)).step (.get key) =
      .ok (v, some handle) := by
    rw [hshard]
    exact hv
  exact ⟨_, _, hinsert, @step_ok Key _ toSize _ (.get key) _ _ hget⟩

/-- **A larger cache does not miss more**: of two caches with as many shards, the shards of the
second with limits no smaller, and the same calls, whose handles all have one charge and no
deleter, each shard of the first holds a part of what its counterpart holds, in the same order.
What was just inserted is found, and the second hits whenever the first does, with the same
handle. -/
theorem run_inclusion (toSize : Key → UInt64) (charge : UInt64) {o o' : LRUCacheOptions}
    (hshards : o.shardNum = o'.shardNum)
    (hlarger : LRUCacheShard.Larger (.make ⟨o.capacity, o.entryNum, o.valueSize⟩ : LRUCacheShard Key)
      (.make ⟨o'.capacity, o'.entryNum, o'.valueSize⟩))
    (hle : o.capacity ≠ 0 → charge ≤ o.capacity) (calls : List (Call Key))
    (hcalls : ∀ call ∈ calls, LRUCacheShard.Charges charge call) :
    ∃ c c', run (step toSize) (make o) calls = .ok c ∧ run (step toSize) (make o') calls = .ok c' ∧
      c.size = c'.size ∧
      (∀ (i : Fin c.size) (i' : Fin c'.size), i.val = i'.val →
        (c.shards i).pairs.Sublist (c'.shards i').pairs) ∧
      (∀ past key handle, calls = past ++ [.insert key handle] →
        ∃ t, c.get toSize key = .ok (t, some handle)) ∧
      ∀ key t handle, c.get toSize key = .ok (t, some handle) → ∃ t', c'.get toSize key = .ok (t', some handle) := by
  have hstart : Contained charge (make o) (make o' : LRUCache Key) :=
    ⟨hshards, fun _ _ _ => ⟨LRUCacheShard.make_uniform _ charge, LRUCacheShard.make_uniform _ charge, hlarger,
      List.Sublist.refl _, .inl rfl⟩, fun _ => hle⟩
  obtain ⟨c, c', hrun, hrun', hend⟩ := hstart.run calls hcalls
  refine ⟨c, c', hrun, hrun', hend.size, fun i i' hi => (hend.shards i i' hi).sub, ?_, ?_⟩
  · rintro past key handle rfl
    obtain ⟨b, b', hpast, -, hbefore⟩ :=
      hstart.run past fun call hmem => hcalls call (List.mem_append_left _ hmem)
    obtain ⟨t, u, hinsert, hget⟩ :=
      hbefore.get_inserted (hcalls _ (List.mem_append_right _ (List.mem_singleton_self _)))
    cases hrun.symm.trans (run_concat.mpr ⟨b, none, hpast, hinsert⟩)
    exact ⟨u, hget⟩
  · intro key t handle hget
    have hcall : LRUCacheShard.Charges charge (.get key) := trivial
    obtain ⟨u, u', result, result', hstep, hstep', -, hfound⟩ :=
      @Contained.step Key _ toSize c c' charge (.get key) hend hcall
    have hresult : (c.get toSize key) = .ok (u, result) := hstep
    cases hresult.symm.trans hget
    have hlarge : c'.get toSize key = .ok (u', some handle) := by
      rw [← hfound handle rfl]
      exact hstep'
    exact ⟨u', hlarge⟩

/-- Two shards, and a capacity and an entry limit of two. -/
def twoShards : LRUCacheOptions := ⟨2, 2, 0, 2, Nat.two_pos⟩

/-- Two shards that evict less. -/
def twoLargerShards : LRUCacheOptions := ⟨3, 4, 0, 2, Nat.two_pos⟩

/-- Three keys of one shard and one of the other. -/
def fourKeys : List (Call Int64) :=
  [.insert 0 ⟨some 1, none, 1⟩, .insert 2 ⟨some 2, none, 1⟩, .insert 1 ⟨some 3, none, 1⟩, .get 0,
    .insert 4 ⟨some 4, none, 1⟩]

theorem run_inclusion_evicting : ∃ c c', run (step Int64.toUInt64) (make twoShards) fourKeys = .ok c ∧
    run (step Int64.toUInt64) (make twoLargerShards) fourKeys = .ok c' ∧
    c.size = c'.size ∧
    (∀ (i : Fin c.size) (i' : Fin c'.size), i.val = i'.val →
      (c.shards i).pairs.Sublist (c'.shards i').pairs) ∧
    (∀ past key handle, fourKeys = past ++ [.insert key handle] →
      ∃ t, c.get Int64.toUInt64 key = .ok (t, some handle)) ∧
    ∀ key t handle, c.get Int64.toUInt64 key = .ok (t, some handle) →
      ∃ t', c'.get Int64.toUInt64 key = .ok (t', some handle) :=
  @run_inclusion Int64 _ Int64.toUInt64 1 twoShards twoLargerShards rfl (by decide) (by decide) fourKeys (by decide)

end LRUCache

end HyperCache.Lru
