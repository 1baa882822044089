import HyperCache.Lib.Sharded
import HyperCache.Lru.Representation
import Mathlib.Data.UInt

/-! The sharded LRU cache: `lru/cache.h`.

The constructor computes a capacity for each shard and then gives every shard the whole
capacity and the whole entry limit. -/
namespace HyperCache.Lru
open Fallible Sharded

/-! ### A shard whose handles all have one charge -/

namespace LRUCacheShard
variable {Key : Type} [DecidableEq Key] {s t : LRUCacheShard Key} {key : Key} {handle : Handle}
  {charge : UInt64} {call : Call Key} {m : Nat}

structure Uniform (charge : UInt64) (s : LRUCacheShard Key) : Prop where
  represents : Represents s
  charges : ∀ e ∈ s.entries, e.second.freeData.totalCharge = charge
  same : ∀ e ∈ s.entries, e.second.totalCharge = charge
  usage : s.usage = settled s.entries
  bounded : s.capacity ≠ 0 → s.usage ≤ s.capacity
  limited : s.maxEntryNum ≠ 0 → s.entries.length ≤ s.maxEntryNum.toUInt64.toNat

/-- Neither limit makes a new entry of this charge evict another. -/
def Roomy (charge : UInt64) (s : LRUCacheShard Key) : Prop :=
  (s.capacity = 0 ∨ s.usage + charge ≤ s.capacity) ∧
  (s.maxEntryNum = 0 ∨ s.entries.length < s.maxEntryNum.toUInt64.toNat)

instance (charge : UInt64) (s : LRUCacheShard Key) : Decidable (Roomy charge s) :=
  inferInstanceAs (Decidable (_ ∧ _))

theorem make_uniform (o : CacheSharedOptions) (charge : UInt64) :
    Uniform charge (make o : LRUCacheShard Key) :=
  ⟨make_represents o, nofun, nofun, rfl, fun _ => Nat.zero_le _, fun _ => Nat.zero_le _⟩

theorem Uniform.keep_pred (h : Uniform charge s) (hm : m + 1 = s.entries.length) :
    s.usage - settled (s.entries.drop m) + charge = s.usage := by
  have hdrop : s.entries.drop m = [s.entries[m]] := by
    rw [List.drop_eq_getElem_cons (by omega), List.drop_eq_nil_of_le (by omega)]
  have hcharge := h.charges _ (List.getElem_mem (by omega : m < s.entries.length))
  rw [hdrop, settled_cons, settled_nil, hcharge]
  grind

/-- One element less makes room for one more of the same charge. -/
theorem Uniform.admits_pred (h : Uniform charge s) (hcap : s.capacity ≠ 0)
    (hm : m + 1 = s.entries.length) : s.Admits charge m := by
  rw [Admits, h.keep_pred hm]
  exact h.bounded hcap

omit [DecidableEq Key] in
theorem admits_all : s.Admits charge s.entries.length ↔ s.usage + charge ≤ s.capacity := by
  rw [Admits, List.drop_eq_nil_of_le le_rfl, settled_nil, UInt64.sub_zero]

/-- The first loop evicts one entry, or none if the charge fits as it is. -/
theorem Uniform.evictForCharge (h : Uniform charge s)
    (hle : s.capacity ≠ 0 → charge ≤ s.capacity) :
    ∃ m ≤ s.entries.length, s.evictForCharge charge = .ok (s.keep m) ∧
      ((m = s.entries.length ∧ (s.capacity = 0 ∨ s.usage + charge ≤ s.capacity)) ∨
        (m + 1 = s.entries.length ∧ ¬ (s.capacity = 0 ∨ s.usage + charge ≤ s.capacity))) := by
  have hempty : s.entries.length = 0 → s.capacity ≠ 0 → s.usage + charge ≤ s.capacity := by
    intro hnil hcap
    rw [h.usage, List.eq_nil_of_length_eq_zero hnil, settled_nil, UInt64.zero_add]
    exact hle hcap
  rcases s.evictForCharge_cases charge with
    ⟨hcap, hevict⟩ | ⟨hcap, m, hm, hadmits, hmax, hevict⟩ | ⟨hcap, hnone, -⟩
  · exact ⟨_, le_rfl, by rw [hevict, keep_all le_rfl], .inl ⟨rfl, .inl hcap⟩⟩
  · refine ⟨m, hm, hevict, ?_⟩
    by_cases hfits : s.usage + charge ≤ s.capacity
    · refine .inl ⟨Nat.le_antisymm hm (Nat.le_of_not_lt fun hlt => ?_), .inr hfits⟩
      exact hmax _ hlt le_rfl (admits_all.mpr hfits)
    · have hpos : 0 < s.entries.length := Nat.pos_of_ne_zero fun h0 => hfits (hempty h0 hcap)
      have hne : m ≠ s.entries.length := fun heq => hfits (admits_all.mp (heq ▸ hadmits))
      have hpred : s.entries.length - 1 ≤ m := Nat.le_of_not_lt fun hlt =>
        hmax _ hlt (Nat.sub_le ..) (h.admits_pred hcap (by omega))
      refine .inr ⟨by omega, ?_⟩
      rintro (hcap' | hfits')
      · exact hcap hcap'
      · exact hfits hfits'
  · by_cases hpos : 0 < s.entries.length
    · have hpred : s.entries.length - 1 + 1 = s.entries.length := by omega
      exact absurd (h.admits_pred hcap hpred) (hnone _ (Nat.sub_le ..))
    · exact absurd (admits_all.mpr (hempty (by omega) hcap)) (hnone _ le_rfl)

/-- A new entry evicts one entry, or none if there is room. -/
theorem Uniform.insert_new (h : Uniform charge s) (hkey : key ∉ s.entries.map (·.first))
    (hcharge : handle.totalCharge = charge) (hle : s.capacity ≠ 0 → charge ≤ s.capacity) :
    (Roomy charge s ∧
      s.insert key handle = .ok ((s.keep s.entries.length).emplaceFront key handle)) ∨
    (¬ Roomy charge s ∧ ∃ m, m + 1 = s.entries.length ∧
      s.insert key handle = .ok ((s.keep m).emplaceFront key handle)) := by
  subst hcharge
  obtain ⟨m, hm, hevict, hm'⟩ := h.evictForCharge hle
  have hlen : (s.keep m).entries.length = m := List.length_take_of_le hm
  have hroom : (s.keep m).room =
      if s.maxEntryNum = 0 then m else s.maxEntryNum.toUInt64.toNat - 1 := by
    rw [room, hlen, keep_maxEntryNum]
  rw [insert_new_ok h.represents hkey hm hevict, hroom]
  by_cases hlimit : s.maxEntryNum = 0
  · rw [if_pos hlimit, Nat.min_self]
    rcases hm' with ⟨rfl, hfits⟩ | ⟨hpred, hfits⟩
    · exact .inl ⟨⟨hfits, .inl hlimit⟩, rfl⟩
    · exact .inr ⟨fun hroomy => hfits hroomy.1, m, hpred, rfl⟩
  · have hpos := limit_pos hlimit
    have hlimited := h.limited hlimit
    rw [if_neg hlimit]
    rcases hm' with ⟨rfl, hfits⟩ | ⟨hpred, hfits⟩
    · by_cases hfull : s.entries.length < s.maxEntryNum.toUInt64.toNat
      · refine .inl ⟨⟨hfits, .inr hfull⟩, ?_⟩
        rw [Nat.min_eq_left (by omega)]
      · refine .inr ⟨fun hroomy => hroomy.2.elim hlimit hfull, s.entries.length - 1, by omega, ?_⟩
        rw [Nat.min_eq_right (by omega), show s.maxEntryNum.toUInt64.toNat - 1 =
          s.entries.length - 1 by omega]
    · refine .inr ⟨fun hroomy => hfits hroomy.1, m, hpred, ?_⟩
      rw [Nat.min_eq_left (by omega)]

/-- The call adds an entry to the shard and evicts none. -/
def Adds (s : LRUCacheShard Key) : Call Key → Prop
  | .get _ => False
  | .insert key handle => key ∉ s.entries.map (·.first) ∧ Roomy handle.totalCharge s

instance (s : LRUCacheShard Key) : DecidablePred (Adds s)
  | .get _ => isFalse not_false
  | .insert key handle => inferInstanceAs (Decidable
      (key ∉ s.entries.map (·.first) ∧ Roomy handle.totalCharge s))

theorem Uniform.reorder (h : Uniform charge s) {e : Element Key} (handle : Handle)
    (he : e ∈ s.entries) (hfree : handle.freeData.totalCharge = charge)
    (hsame : handle.totalCharge = charge) (deleted : List Deletion) :
    Uniform charge
      {s with deleted := deleted, entries := {e with second := handle} :: s.without e.node} ∧
    ({e with second := handle} :: s.without e.node).length = s.entries.length := by
  obtain ⟨hsub, -, hperm⟩ := h.represents.without he
  obtain ⟨-, before, after, hes, hwithout⟩ := h.represents.at_node he
  have hlen := hperm.length_eq.symm
  refine ⟨⟨h.represents.reorder ?_ rfl rfl, ?_, ?_, ?_, h.bounded, fun hlimit => ?_⟩, hlen⟩
  · exact (hperm.map fun e => (e.first, e.node)).symm
  · exact List.forall_mem_cons.mpr ⟨hfree, fun a ha => h.charges a (hsub.subset ha)⟩
  · exact List.forall_mem_cons.mpr ⟨hsame, fun a ha => h.same a (hsub.subset ha)⟩
  · have hold : settled s.entries = settled before + (charge + settled after) := by
      rw [hes, settled_append, settled_cons, h.charges e he]
    change s.usage = settled ({e with second := handle} :: s.without e.node)
    rw [h.usage, hold, hwithout, settled_cons, settled_append, hfree]
    grind
  · exact hlen.symm ▸ h.limited hlimit

theorem Uniform.emplace (h : Uniform charge s) (hkey : key ∉ s.entries.map (·.first))
    (hm : m ≤ s.entries.length) (hfree : handle.freeData.totalCharge = charge)
    (hsame : handle.totalCharge = charge)
    (hbound : s.capacity ≠ 0 → (s.keep m).usage + charge ≤ s.capacity)
    (hlimit : s.maxEntryNum ≠ 0 → m + 1 ≤ s.maxEntryNum.toUInt64.toNat) :
    Uniform charge ((s.keep m).emplaceFront key handle) := by
  have hadd : settled s.entries = settled (s.entries.take m) + settled (s.entries.drop m) := by
    rw [← settled_append, List.take_append_drop]
  refine ⟨(h.represents.keep m).emplaceFront (keep_new hkey), ?_, ?_, ?_, ?_, fun hl => ?_⟩
  · exact List.forall_mem_cons.mpr ⟨hfree, fun a ha => h.charges a (List.mem_of_mem_take ha)⟩
  · exact List.forall_mem_cons.mpr ⟨hsame, fun a ha => h.same a (List.mem_of_mem_take ha)⟩
  · change s.usage - settled (s.entries.drop m) + handle.totalCharge =
      settled (⟨s.nodes, key, handle⟩ :: s.entries.take m)
    rw [settled_cons, hfree, hsame, h.usage, hadd]
    grind
  · intro hcap
    change (s.keep m).usage + handle.totalCharge ≤ s.capacity
    rw [hsame]
    exact hbound hcap
  · have hlen : (s.entries.take m).length = m := List.length_take_of_le hm
    change (s.entries.take m).length + 1 ≤ _
    exact hlen.symm ▸ hlimit hl

/-- A call with this charge, and no deleter. -/
def Charges (charge : UInt64) : Call Key → Prop
  | .get _ => True
  | .insert _ handle => handle.totalCharge = charge ∧ handle.delCb = none

instance (charge : UInt64) : DecidablePred (Charges charge : Call Key → Prop)
  | .get _ => isTrue trivial
  | .insert _ handle => inferInstanceAs (Decidable
      (handle.totalCharge = charge ∧ handle.delCb = none))

/-- What one call changes: only one that adds an entry changes the number of entries, and
with it `usage_`. -/
theorem Uniform.step (h : Uniform charge s) (hcall : Charges charge call)
    (hle : s.capacity ≠ 0 → charge ≤ s.capacity) :
    ∃ t result, s.step call = .ok (t, result) ∧ Uniform charge t ∧
      t.capacity = s.capacity ∧
      (Adds s call → t.usage = s.usage + charge ∧ t.getEntryNum = s.getEntryNum + 1) ∧
      (¬ Adds s call → t.usage = s.usage ∧ t.getEntryNum = s.getEntryNum) := by
  cases call with
  | get key =>
    by_cases hkey : key ∈ s.entries.map (·.first)
    · obtain ⟨e, he, rfl⟩ := List.mem_map.mp hkey
      obtain ⟨huniform, hlen⟩ := h.reorder e.second he (h.charges e he) (h.same e he) s.deleted
      exact ⟨_, _, get_hit h.represents he, huniform, rfl, False.elim, fun _ => ⟨rfl, hlen⟩⟩
    · exact ⟨_, _, get_miss h.represents hkey, h, rfl, False.elim, fun _ => ⟨rfl, rfl⟩⟩
  | insert key handle =>
    obtain ⟨hsame, hdel⟩ := hcall
    have hfree : handle.freeData.totalCharge = charge := by
      simp [Handle.freeData, Handle.frees, hdel, hsame]
    by_cases hkey : key ∈ s.entries.map (·.first)
    · obtain ⟨e, he, rfl⟩ := List.mem_map.mp hkey
      obtain ⟨huniform, hlen⟩ :=
        h.reorder handle he hfree hsame (s.deleted ++ e.second.deletions true)
      have hinsert := insert_same h.represents he (hsame.trans (h.same e he).symm)
      exact ⟨_, _, step_insert hinsert, huniform, rfl, fun hadds => absurd hkey hadds.1,
        fun _ => ⟨rfl, hlen⟩⟩
    · rcases h.insert_new hkey hsame hle with ⟨hroomy, hinsert⟩ | ⟨hroomy, m, hm, hinsert⟩
      · rw [keep_all le_rfl] at hinsert
        refine ⟨_, _, step_insert hinsert, ?_, rfl, fun _ => ⟨?_, rfl⟩, fun hadds => ?_⟩
        · rw [← keep_all (s := s) le_rfl]
          refine h.emplace hkey le_rfl hfree hsame (fun hcap => ?_) fun hlimit => ?_
          · rw [keep_all le_rfl]
            exact hroomy.1.resolve_left hcap
          · exact hroomy.2.resolve_left hlimit
        · exact congrArg (s.usage + ·) hsame
        · exact absurd ⟨hkey, hsame.symm ▸ hroomy⟩ hadds
      · have husage : (s.keep m).usage + charge = s.usage := h.keep_pred hm
        have hlen : (s.entries.take m).length = m := List.length_take_of_le (by omega)
        refine ⟨_, _, step_insert hinsert, ?_, rfl, fun hadds => ?_, fun _ => ⟨?_, ?_⟩⟩
        · refine h.emplace hkey (by omega) hfree hsame (fun hcap => ?_) fun hlimit => ?_
          · exact husage.symm ▸ h.bounded hcap
          · exact hm.symm ▸ h.limited hlimit
        · exact absurd (hsame ▸ hadds.2) hroomy
        · exact (congrArg ((s.keep m).usage + ·) hsame).trans husage
        · change (s.entries.take m).length + 1 = s.entries.length
          rw [hlen, hm]

end LRUCacheShard

/-! ### The cache -/

/-- `LRUCacheOptions`, with a number of shards to divide by. -/
structure LRUCacheOptions where
  capacity : UInt64
  entryNum : Int64
  valueSize : UInt64
  shardNum : Nat
  positive : 0 < shardNum

structure LRUCache (Key : Type) where
  size : Nat
  positive : 0 < size
  shards : Fin size → LRUCacheShard Key

namespace LRUCache
variable {Key : Type}

/-- The constructor. `per_shard_capacity` is not used. -/
def make (o : LRUCacheOptions) : LRUCache Key where
  size := o.shardNum
  positive := o.positive
  shards := fun _ => .make ⟨o.capacity, o.entryNum, o.valueSize⟩

def getUsage (c : LRUCache Key) : UInt64 := total fun i => (c.shards i).getUsage

def getEntryNum (c : LRUCache Key) : Nat := total fun i => (c.shards i).getEntryNum

/-- One shard is what it has become. -/
def store (c : LRUCache Key) (i : Fin c.size) (s : LRUCacheShard Key) : LRUCache Key :=
  {c with shards := Function.update c.shards i s}

section
variable [DecidableEq Key] (toSize : Key → UInt64)

/-- `key % shards_.size()`: the key is converted to `size_t` first. -/
def index (c : LRUCache Key) (key : Key) : Fin c.size :=
  ⟨(toSize key).toNat % c.size, Nat.mod_lt _ c.positive⟩

def get (c : LRUCache Key) (key : Key) : Except Fault (LRUCache Key × Option Handle) := do
  let i := c.index toSize key
  let (s, found) ← (c.shards i).get key
  return (c.store i s, found)

def insert (c : LRUCache Key) (key : Key) (handle : Handle) : Except Fault (LRUCache Key) := do
  let i := c.index toSize key
  let s ← (c.shards i).insert key handle
  return c.store i s

/-- One call, with what it returns. -/
def step (c : LRUCache Key) : Call Key → Except Fault (LRUCache Key × Option Handle)
  | .get key => c.get toSize key
  | .insert key handle => do return (← c.insert toSize key handle, none)

variable {toSize} {c : LRUCache Key} {call : Call Key}

/-- A call is a call of one shard. -/
theorem step_ok {s : LRUCacheShard Key} {result : Option Handle}
    (h : (c.shards (c.index toSize call.key)).step call = .ok (s, result)) :
    c.step toSize call = .ok (c.store (c.index toSize call.key) s, result) := by
  cases call with
  | get key =>
    change (c.shards (c.index toSize key)).get key = .ok (s, result) at h
    simp only [step, get, Call.key, h, ok_bind]
    rfl
  | insert key handle =>
    cases hinsert : (c.shards (c.index toSize key)).insert key handle with
    | error fault =>
      simp only [LRUCacheShard.step, Call.key, hinsert, error_bind] at h
      cases h
    | ok t =>
      cases (LRUCacheShard.step_insert hinsert).symm.trans h
      simp only [step, insert, Call.key, hinsert, ok_bind]
      rfl

end
end LRUCache
end HyperCache.Lru
