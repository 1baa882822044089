import HyperCache.Lru.Inclusion

/-! The totals of the sharded LRU cache.

Every shard was given the whole capacity and the whole entry limit, so how many entries it
takes before it evicts does not depend on how many shards there are. What the cache holds
after some calls follows from the keys: each shard holds as many entries as different keys
were inserted there, up to the number it takes (`Paging.Cold`). The options are kept as long
as the sum of these numbers is within them, and only so long. -/
namespace HyperCache.Lru
open Fallible Sharded

variable {Key : Type} [DecidableEq Key] {toSize : Key → UInt64} {o : LRUCacheOptions}
  {charge : UInt64} {call : Call Key} {calls : List (Call Key)}

/-- The key that a call inserts. -/
def Call.inserts : Call Key → Option Key
  | .get _ => none
  | .insert key _ => some key

/-- The keys inserted so far, after one more call. -/
def Call.adding (seen : Finset Key) : Call Key → Finset Key
  | .get _ => seen
  | .insert key _ => Insert.insert key seen

/-! ### One shard -/

/-- The entry limit that every shard is given, none if it is zero. -/
def LRUCacheOptions.shardLimit (o : LRUCacheOptions) : Int64 :=
  if 0 < o.entryNum then o.entryNum
  else if 0 < o.valueSize then (o.capacity / o.valueSize).toInt64
  else 0

/-- A shard with `n` entries of this charge takes one more without evicting another. -/
def LRUCacheOptions.Takes (o : LRUCacheOptions) (charge : UInt64) (n : Nat) : Prop :=
  (o.capacity = 0 ∨ UInt64.ofNat (n + 1) * charge ≤ o.capacity) ∧
  (o.shardLimit = 0 ∨ n < o.shardLimit.toUInt64.toNat)

instance (o : LRUCacheOptions) (charge : UInt64) : DecidablePred (o.Takes charge) :=
  fun _ => inferInstanceAs (Decidable (_ ∧ _))

namespace LRUCacheShard
variable {s : LRUCacheShard Key} {seen : Finset Key}

omit [DecidableEq Key] in
theorem settled_of_charges {es : List (Element Key)}
    (h : ∀ e ∈ es, e.second.freeData.totalCharge = charge) :
    settled es = UInt64.ofNat es.length * charge := by
  induction es with
  | nil => exact (UInt64.zero_mul).symm
  | cons e es ih =>
    rw [settled_cons, h e (List.mem_cons_self ..),
      ih fun e' he => h e' (List.mem_cons_of_mem e he), List.length_cons, UInt64.ofNat_add]
    grind

theorem Uniform.usage_eq (h : Uniform charge s) :
    s.usage = UInt64.ofNat s.entries.length * charge := by
  rw [h.usage, settled_of_charges h.charges]

theorem Uniform.roomy_iff (h : Uniform charge s) (hcap : s.capacity = o.capacity)
    (hlimit : s.maxEntryNum = o.shardLimit) :
    Roomy charge s ↔ o.Takes charge s.entries.length := by
  have hnext : s.usage + charge = UInt64.ofNat (s.entries.length + 1) * charge := by
    rw [h.usage_eq, UInt64.ofNat_add]
    grind
  rw [Roomy, LRUCacheOptions.Takes, hnext, hcap, hlimit]

/-- An empty shard has room. -/
theorem Uniform.roomy_nil (h : Uniform charge s) (hle : s.capacity ≠ 0 → charge ≤ s.capacity)
    (hnil : s.entries = []) : Roomy charge s := by
  refine ⟨or_iff_not_imp_left.mpr fun hcap => ?_, or_iff_not_imp_left.mpr fun hlimit => ?_⟩
  · rw [h.usage, hnil, settled_nil, UInt64.zero_add]
    exact hle hcap
  · rw [hnil]
    exact limit_pos hlimit

/-- **The step lemma**: a shard holds as many entries as different keys were inserted, up to the
number it takes. -/
theorem Uniform.step_cold (h : Uniform charge s) (hcap : s.capacity = o.capacity)
    (hlimit : s.maxEntryNum = o.shardLimit)
    (hcold : Paging.Cold (o.Takes charge) seen (s.pairs.map Prod.fst))
    (hcall : Charges charge call) (hle : s.capacity ≠ 0 → charge ≤ s.capacity) :
    ∃ t result, s.step call = .ok (t, result) ∧ Uniform charge t ∧ t.capacity = o.capacity ∧
      t.maxEntryNum = o.shardLimit ∧
      Paging.Cold (o.Takes charge) (call.adding seen) (t.pairs.map Prod.fst) := by
  obtain ⟨t, hstep, huniform, hcap', hlimit', hpairs, -⟩ := h.step_pairs hcall hle
  refine ⟨t, _, hstep, huniform, hcap'.trans hcap, hlimit'.trans hlimit, ?_⟩
  rw [hpairs]
  cases call with
  | get key => exact hcold.promote key
  | insert key handle =>
    have hlen : s.pairs.length = s.entries.length := List.length_map _
    refine hcold.put key handle ?_ fun hfull hnil => ?_
    · rw [hlen, ← h.roomy_iff hcap hlimit, Bool.not_eq_true', decide_eq_false_iff_not]
    · rw [Bool.not_eq_true', decide_eq_false_iff_not] at hfull
      exact hfull (h.roomy_nil hle (List.map_eq_nil_iff.mp hnil))

/-- One call adds one entry or none. -/
theorem Uniform.step_getEntryNum (h : Uniform charge s) (hcall : Charges charge call)
    (hle : s.capacity ≠ 0 → charge ≤ s.capacity) {t : LRUCacheShard Key} {result : Option Handle}
    (hstep : s.step call = .ok (t, result)) :
    t.getEntryNum = s.getEntryNum ∨ t.getEntryNum = s.getEntryNum + 1 := by
  obtain ⟨t', result', hstep', -, -, hadds, hnot⟩ := h.step hcall hle
  cases hstep.symm.trans hstep'
  by_cases hadd : Adds s call
  · exact .inr (hadds hadd).2
  · exact .inl (hnot hadd).2

end LRUCacheShard

/-! ### All shards -/

/-- The different keys that calls insert in shard `i` of `n`. -/
def routed (toSize : Key → UInt64) (n : Nat) (calls : List (Call Key)) (i : Nat) : Finset Key :=
  ((calls.filterMap Call.inserts).filter fun key => (toSize key).toNat % n = i).toFinset

theorem routed_self {n : Nat} : routed toSize n (calls ++ [call]) ((toSize call.key).toNat % n) =
    call.adding (routed toSize n calls ((toSize call.key).toNat % n)) := by
  cases call with
  | get key => simp [routed, Call.inserts, Call.adding, List.filterMap_cons]
  | insert key handle =>
    ext k
    simp [routed, Call.inserts, Call.adding, Call.key]

theorem routed_of_ne {n i : Nat} (h : i ≠ (toSize call.key).toNat % n) :
    routed toSize n (calls ++ [call]) i = routed toSize n calls i := by
  cases call with
  | get key => simp [routed, Call.inserts, List.filterMap_cons]
  | insert key handle =>
    have hne : ¬ (toSize key).toNat % n = i := fun heq => h heq.symm
    simp [routed, Call.inserts, hne]

namespace LRUCacheOptions

/-- How many entries of this charge all shards hold after the calls: each as many as different
keys were inserted there, up to the number it takes. -/
def entriesAfter (toSize : Key → UInt64) (o : LRUCacheOptions) (charge : UInt64)
    (calls : List (Call Key)) : Nat :=
  total fun i : Fin o.shardNum =>
    Paging.filled (o.Takes charge) (routed toSize o.shardNum calls i).card

/-- The options allow the cache `n` entries of this charge. The entry limit counts when every
shard can have an entry. -/
def Allows (o : LRUCacheOptions) (charge : UInt64) (n : Nat) : Prop :=
  (o.capacity ≠ 0 → UInt64.ofNat n * charge ≤ o.capacity) ∧
  ((o.shardNum : Int) ≤ o.entryNum.toInt → (n : Int) ≤ o.entryNum.toInt)

instance (o : LRUCacheOptions) (charge : UInt64) : DecidablePred (o.Allows charge) :=
  fun _ => inferInstanceAs (Decidable (_ ∧ _))

end LRUCacheOptions

namespace LRUCache
variable {c : LRUCache Key}

/-- The totals are within the options. The entry limit counts when every shard can have an
entry. -/
def Within (o : LRUCacheOptions) (c : LRUCache Key) : Prop :=
  (o.capacity ≠ 0 → c.getUsage ≤ o.capacity) ∧
  ((o.shardNum : Int) ≤ o.entryNum.toInt → (c.getEntryNum : Int) ≤ o.entryNum.toInt)

instance (o : LRUCacheOptions) (c : LRUCache Key) : Decidable (Within o c) :=
  inferInstanceAs (Decidable (_ ∧ _))

/-- A cache that began with these options and these calls. -/
structure Begun (toSize : Key → UInt64) (o : LRUCacheOptions) (charge : UInt64)
    (calls : List (Call Key)) (c : LRUCache Key) : Prop where
  size : c.size = o.shardNum
  uniform : ∀ i, (c.shards i).Uniform charge
  capacity : ∀ i, (c.shards i).capacity = o.capacity
  limit : ∀ i, (c.shards i).maxEntryNum = o.shardLimit
  keys : ∀ i : Fin c.size, Paging.Cold (o.Takes charge) (routed toSize c.size calls i)
    ((c.shards i).pairs.map Prod.fst)

theorem make_begun (toSize : Key → UInt64) (o : LRUCacheOptions) (charge : UInt64) :
    Begun toSize o charge [] (make o) :=
  ⟨rfl, fun _ => LRUCacheShard.make_uniform _ charge, fun _ => rfl, fun _ => rfl,
    fun _ => Paging.cold_nil⟩

theorem Begun.getEntryNum_eq (h : Begun toSize o charge calls c) :
    c.getEntryNum = o.entriesAfter toSize charge calls := by
  have hlen : ∀ i : Fin c.size, (c.shards i).getEntryNum =
      Paging.filled (o.Takes charge) (routed toSize c.size calls i).card := by
    intro i
    rw [← (h.keys i).length, List.length_map]
    exact (List.length_map _).symm
  rw [getEntryNum, funext hlen, LRUCacheOptions.entriesAfter, ← h.size]

theorem Begun.getUsage_eq (h : Begun toSize o charge calls c) :
    c.getUsage = UInt64.ofNat c.getEntryNum * charge := by
  have husage : ∀ i, (c.shards i).getUsage = UInt64.ofNat (c.shards i).getEntryNum * charge :=
    fun i => (h.uniform i).usage_eq
  rw [getUsage, funext husage, getEntryNum]
  refine total_map (fun n => UInt64.ofNat n * charge) (fun a b => ?_) UInt64.zero_mul _
  rw [UInt64.ofNat_add, UInt64.add_mul]

theorem Begun.within_iff (h : Begun toSize o charge calls c) :
    Within o c ↔ o.Allows charge (o.entriesAfter toSize charge calls) := by
  rw [Within, LRUCacheOptions.Allows, h.getUsage_eq, h.getEntryNum_eq]

/-- One call goes to one shard, and adds one entry or none. -/
theorem Begun.step (h : Begun toSize o charge calls c) (hcall : LRUCacheShard.Charges charge call)
    (hle : o.capacity ≠ 0 → charge ≤ o.capacity) :
    ∃ c' result, c.step toSize call = .ok (c', result) ∧
      Begun toSize o charge (calls ++ [call]) c' ∧
      (o.entriesAfter toSize charge (calls ++ [call]) = o.entriesAfter toSize charge calls ∨
        o.entriesAfter toSize charge (calls ++ [call]) =
          o.entriesAfter toSize charge calls + 1) := by
  have hcap := h.capacity (c.index toSize call.key)
  have hle' := hcap.symm ▸ hle
  obtain ⟨s, result, hstep, huniform, hcap', hlimit', hcold⟩ :=
    LRUCacheShard.Uniform.step_cold (h.uniform _) hcap (h.limit _)
      (h.keys (c.index toSize call.key)) hcall hle'
  have hbegun : Begun toSize o charge (calls ++ [call]) (c.store (c.index toSize call.key) s) := by
    refine ⟨h.size, ?_, ?_, ?_, fun (i : Fin c.size) => ?_⟩
    · exact (Function.forall_update_iff c.shards (p := fun _ s => s.Uniform charge)).mpr
        ⟨huniform, fun j _ => h.uniform j⟩
    · exact (Function.forall_update_iff c.shards (p := fun _ s => s.capacity = o.capacity)).mpr
        ⟨hcap', fun j _ => h.capacity j⟩
    · exact (Function.forall_update_iff c.shards (p := fun _ s => s.maxEntryNum = o.shardLimit)).mpr
        ⟨hlimit', fun j _ => h.limit j⟩
    · by_cases hi : i = c.index toSize call.key
      · subst hi
        have hrouted : routed toSize c.size (calls ++ [call]) (c.index toSize call.key) =
            call.adding (routed toSize c.size calls (c.index toSize call.key)) := routed_self
        rw [← hrouted] at hcold
        simpa [store] using hcold
      · have hne : i.val ≠ (toSize call.key).toNat % c.size := fun heq => hi (Fin.ext heq)
        have hkeys := h.keys i
        rw [← routed_of_ne hne] at hkeys
        have hshard : (c.store (c.index toSize call.key) s).shards i = c.shards i :=
          Function.update_of_ne hi _ _
        rw [hshard]
        exact hkeys
  refine ⟨_, result, step_ok hstep, hbegun, ?_⟩
  rw [← hbegun.getEntryNum_eq, ← h.getEntryNum_eq]
  have hnum := (h.uniform _).step_getEntryNum hcall hle' hstep
  have hstore : (c.store (c.index toSize call.key) s).getEntryNum +
      (c.shards (c.index toSize call.key)).getEntryNum = c.getEntryNum + s.getEntryNum :=
    total_replace c.shards (·.getEntryNum) _ s
  omega

theorem run_begun (toSize : Key → UInt64) (hle : o.capacity ≠ 0 → charge ≤ o.capacity)
    (calls : List (Call Key)) (hcalls : ∀ call ∈ calls, LRUCacheShard.Charges charge call) :
    ∃ c, run (step toSize) (make o) calls = .ok c ∧ Begun toSize o charge calls c := by
  induction calls using List.reverseRecOn with
  | nil => exact ⟨_, rfl, make_begun toSize o charge⟩
  | append_singleton calls call ih =>
    obtain ⟨c, hrun, h⟩ := ih fun call hmem => hcalls call (List.mem_append_left _ hmem)
    obtain ⟨c', result, hstep, h', -⟩ :=
      h.step (hcalls call (List.mem_append_right _ (List.mem_singleton_self _))) hle
    exact ⟨c', run_concat.mpr ⟨c, result, hrun, hstep⟩, h'⟩

theorem entriesAfter_nil (toSize : Key → UInt64) (o : LRUCacheOptions) (charge : UInt64) :
    o.entriesAfter toSize charge [] = 0 := total_zero

/-- **The cache keeps to its options exactly as long as they allow what its shards take.** All
handles have one charge, no larger than a shard's part of the capacity, and no deleter. -/
theorem run_within (toSize : Key → UInt64) (o : LRUCacheOptions) (charge : UInt64)
    (hle : o.capacity ≠ 0 → charge.toNat ≤ o.capacity.toNat / o.shardNum)
    (calls : List (Call Key)) (hcalls : ∀ call ∈ calls, LRUCacheShard.Charges charge call) :
    (∀ past, past <+: calls → ∃ c, run (step toSize) (make o) past = .ok c ∧ Within o c) ↔
      ∀ n ≤ o.entriesAfter toSize charge calls, o.Allows charge n := by
  have hwhole : o.capacity ≠ 0 → charge ≤ o.capacity := fun hcap =>
    UInt64.le_iff_toNat_le.mpr (Nat.le_trans (hle hcap) (Nat.div_le_self ..))
  induction calls using List.reverseRecOn with
  | nil =>
    have hbegun : Begun toSize o charge [] (make o) := make_begun toSize o charge
    constructor
    · intro hall n hn
      rw [entriesAfter_nil, Nat.le_zero] at hn
      obtain ⟨c, hc, hwithin⟩ := hall [] List.prefix_rfl
      cases hc
      rwa [hbegun.within_iff, entriesAfter_nil, ← hn] at hwithin
    · intro hallows past hp
      obtain rfl := List.prefix_nil.mp hp
      exact ⟨_, rfl, hbegun.within_iff.mpr (hallows _ le_rfl)⟩
  | append_singleton calls call ih =>
    have hpast : ∀ call ∈ calls, LRUCacheShard.Charges charge call :=
      fun call hmem => hcalls call (List.mem_append_left _ hmem)
    obtain ⟨c, hrun, h⟩ := run_begun toSize hwhole calls hpast
    obtain ⟨c', result, hstep, h', hnext⟩ :=
      h.step (hcalls call (List.mem_append_right _ (List.mem_singleton_self _))) hwhole
    have hrun' := run_concat.mpr ⟨c, result, hrun, hstep⟩
    have hprefix : (∀ past, past <+: calls ++ [call] →
        ∃ c, run (step toSize) (make o) past = .ok c ∧ Within o c) ↔
        (∀ past, past <+: calls → ∃ c, run (step toSize) (make o) past = .ok c ∧ Within o c) ∧
          Within o c' := by
      constructor
      · intro hall
        obtain ⟨u, hu, hwithin⟩ := hall _ List.prefix_rfl
        cases hrun'.symm.trans hu
        exact ⟨fun past hp => hall past (hp.trans (List.prefix_append ..)), hwithin⟩
      · rintro ⟨hall, hwithin⟩ past hp
        rcases List.prefix_concat_iff.mp hp with rfl | hp
        · exact ⟨c', hrun', hwithin⟩
        · exact hall past hp
    refine hprefix.trans ((and_congr (ih hpast) h'.within_iff).trans ?_)
    -- the number of entries passes through every value on its way up
    constructor
    · rintro ⟨hallows, hlast⟩ n hn
      by_cases hle' : n ≤ o.entriesAfter toSize charge calls
      · exact hallows n hle'
      · obtain rfl : n = o.entriesAfter toSize charge (calls ++ [call]) := by omega
        exact hlast
    · intro hallows
      exact ⟨fun n hn => hallows n (by omega), hallows _ le_rfl⟩

/-- One key in each shard, and one of them again. -/
theorem run_within_two :
    ∃ c, run (step Int64.toUInt64) (make twoShards)
        [Call.insert 0 ⟨some 1, none, 1⟩, .insert 1 ⟨some 2, none, 1⟩, .get 0,
          .insert 0 ⟨some 3, none, 1⟩] = .ok c ∧ Within twoShards c :=
  (run_within Int64.toUInt64 twoShards 1 (by decide) _ (by decide)).mpr (by decide) _
    (List.prefix_refl _)

/-- Two keys of one shard and one of the other: each shard is within the whole capacity and
the whole entry limit, the cache is not. -/
theorem shards_exceed_options :
    ∃ c, run (step Int64.toUInt64) (make twoShards)
        [Call.insert 0 ⟨some 1, none, 1⟩, .insert 2 ⟨some 2, none, 1⟩,
          .insert 1 ⟨some 3, none, 1⟩] = .ok c ∧
      c.getUsage = 3 ∧ c.getEntryNum = 3 ∧ ¬ Within twoShards c :=
  ⟨_, rfl, by decide, by decide, by decide⟩

end LRUCache
end HyperCache.Lru
