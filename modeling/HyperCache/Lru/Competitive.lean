import HyperCache.Lru.Inclusion

/-! How well the LRU policy evicts.

A shard whose handles all have one charge has room for a fixed number of entries, `slots`, and
an insertion of a key that it has not is a miss (`Uniform.step_request`). So the bound for lists
that evict their last key holds of it: against any cache of `h` entries that is asked for the
same keys, and may know them all beforehand, it brings in at most `slots / (slots - h + 1)` times
as many, and `slots` more (`run_competitive`). -/
namespace HyperCache.Lru

namespace LRUCacheShard
variable {Key : Type} [DecidableEq Key] {s t : LRUCacheShard Key} {charge : UInt64} {call : Call Key}

/-- How many entries of one charge the shard has room for. -/
def slots (charge : UInt64) (s : LRUCacheShard Key) : Nat :=
  if s.capacity = 0 then s.maxEntryNum.toUInt64.toNat
  else if s.maxEntryNum = 0 then s.capacity.toNat / charge.toNat
  else min (s.capacity.toNat / charge.toNat) s.maxEntryNum.toUInt64.toNat

/-- The key a call uses: a `Get` that misses uses none. -/
def used (s : LRUCacheShard Key) : Call Key → List Key
  | .get key => if key ∈ s.entries.map (·.first) then [key] else []
  | .insert key _ => [key]

/-- The keys that a run uses. -/
def usedBy (s : LRUCacheShard Key) : List (Call Key) → List Key
  | [] => []
  | call :: calls =>
    match s.step call with
    | .error _ => s.used call
    | .ok (t, _) => s.used call ++ t.usedBy calls

/-- An insertion brings in a key that was not there. -/
def brought (s : LRUCacheShard Key) : Call Key → Nat
  | .get _ => 0
  | .insert key _ => if key ∈ s.entries.map (·.first) then 0 else 1

def broughtBy (s : LRUCacheShard Key) : List (Call Key) → Nat
  | [] => 0
  | call :: calls =>
    match s.step call with
    | .error _ => s.brought call
    | .ok (t, _) => s.brought call + t.broughtBy calls

/-- A shard with limits whose charges are counted without a carry. -/
structure Counted (charge : UInt64) (s : LRUCacheShard Key) : Prop where
  uniform : Uniform charge s
  positive : 0 < charge.toNat
  limited : s.capacity ≠ 0 ∨ s.maxEntryNum ≠ 0
  fits : s.capacity ≠ 0 → charge ≤ s.capacity
  carry : s.capacity.toNat + charge.toNat < 2 ^ 64
  usage : s.capacity ≠ 0 → s.usage.toNat = s.entries.length * charge.toNat

theorem Counted.slots_pos (h : Counted charge s) : 0 < s.slots charge := by
  have hroom : s.capacity ≠ 0 → 0 < s.capacity.toNat / charge.toNat := fun hcap =>
    Nat.div_pos (UInt64.le_iff_toNat_le.mp (h.fits hcap)) h.positive
  rw [slots]
  split
  next hcap => exact limit_pos (h.limited.resolve_left (not_not_intro hcap))
  next hcap =>
    split
    · exact hroom hcap
    next hlimit => exact Nat.lt_min.mpr ⟨hroom hcap, limit_pos hlimit⟩

/-- There is room while there are fewer entries than slots. -/
theorem Counted.roomy_iff (h : Counted charge s) : Roomy charge s ↔ s.entries.length < s.slots charge := by
  have hroom : s.capacity ≠ 0 →
      (s.usage + charge ≤ s.capacity ↔ s.entries.length < s.capacity.toNat / charge.toNat) := by
    intro hcap
    have hbound := UInt64.le_iff_toNat_le.mp (h.uniform.bounded hcap)
    have hcarry := h.carry
    rw [UInt64.le_iff_toNat_le, UInt64.toNat_add, Nat.mod_eq_of_lt (by omega), h.usage hcap, Nat.lt_iff_add_one_le,
      Nat.le_div_iff_mul_le h.positive, Nat.succ_mul]
  rw [Roomy, slots]
  split
  next hcap =>
    have hlimit := h.limited.resolve_left (not_not_intro hcap)
    simp [hcap, hlimit]
  next hcap =>
    split
    next hlimit => simp [hcap, hlimit, hroom hcap]
    next hlimit => simp [hcap, hlimit, hroom hcap]

/-- The limits do not change. -/
theorem Counted.step (h : Counted charge s) (hcall : Charges charge call) :
    ∃ t, s.step call = .ok (t, s.found call) ∧ Counted charge t ∧ t.slots charge = s.slots charge ∧
      t.pairs = s.listed charge call := by
  obtain ⟨t, hstep, huniform, hcap, hlimit, hpairs, -⟩ := h.uniform.step_pairs hcall h.fits
  obtain ⟨t', result, hstep', -, -, hadds, hnot⟩ := h.uniform.step hcall h.fits
  cases hstep'.symm.trans hstep
  refine ⟨t, hstep, ⟨huniform, h.positive, ?_, ?_, ?_, fun hc => ?_⟩, ?_, hpairs⟩
  · rw [hcap, hlimit]
    exact h.limited
  · rw [hcap]
    exact h.fits
  · rw [hcap]
    exact h.carry
  · rw [hcap] at hc
    have husage := h.usage hc
    have hbound := UInt64.le_iff_toNat_le.mp (h.uniform.bounded hc)
    have hcarry := h.carry
    by_cases hadd : Adds s call
    · obtain ⟨hu, hn⟩ := hadds hadd
      rw [getEntryNum, getEntryNum] at hn
      rw [hu, hn, UInt64.toNat_add, Nat.mod_eq_of_lt (by omega), husage, Nat.succ_mul]
    · obtain ⟨hu, hn⟩ := hnot hadd
      rw [getEntryNum, getEntryNum] at hn
      rw [hu, hn, husage]
  · rw [slots, hcap, hlimit, slots]

/-- **The step lemma**: a call is a request for the key it uses, and brings it in if it was
missing. -/
theorem Counted.step_request (h : Counted charge s) (hcall : Charges charge call) :
    ∃ t, s.step call = .ok (t, s.found call) ∧ Counted charge t ∧ t.slots charge = s.slots charge ∧
      t.pairs.map Prod.fst = (s.used call).foldl (Paging.request (s.slots charge)) (s.pairs.map Prod.fst) ∧
      s.brought call = Paging.misses (s.slots charge) (s.pairs.map Prod.fst) (s.used call) := by
  obtain ⟨t, hstep, hcounted, hslots, hpairs⟩ := h.step hcall
  refine ⟨t, hstep, hcounted, hslots, ?_⟩
  have hkeys := s.pairs_keys
  have hlen : (s.pairs.map Prod.fst).length = s.entries.length := by rw [hkeys, List.length_map]
  rw [hpairs]
  cases call with
  | get key =>
    rw [listed, used, brought, ← hkeys]
    by_cases hkey : key ∈ s.pairs.map Prod.fst
    · obtain ⟨p, hp, rfl⟩ := List.mem_map.mp hkey
      have hfind := Paging.find?_of_mem h.uniform.represents.pairs_nodup hp
      rw [if_pos hkey, List.foldl_cons, List.foldl_nil, Paging.request, if_pos hkey, Paging.misses, if_pos hkey,
        Paging.misses, Paging.promote, hfind]
      exact ⟨congrArg (p.1 :: ·) (Paging.keys_filter h.uniform.represents.pairs_nodup p.1), rfl⟩
    · rw [if_neg hkey, Paging.promote_absent hkey]
      exact ⟨rfl, rfl⟩
  | insert key handle =>
    rw [listed, used, brought, ← hkeys, List.foldl_cons, List.foldl_nil, Paging.request, Paging.misses,
      Paging.misses, Nat.add_zero, Paging.put, List.map_cons, hlen]
    refine ⟨?_, rfl⟩
    by_cases hkey : key ∈ s.pairs.map Prod.fst
    · rw [if_pos hkey, if_pos hkey]
      exact congrArg (key :: ·) (Paging.keys_filter h.uniform.represents.pairs_nodup key)
    · rw [if_neg hkey, if_neg hkey]
      by_cases hroomy : Roomy charge s
      · rw [decide_eq_true hroomy, if_pos (h.roomy_iff.mp hroomy)]
        rfl
      · rw [decide_eq_false hroomy, if_neg fun hlt => hroomy (h.roomy_iff.mpr hlt), Bool.not_false, if_pos rfl,
          List.map_dropLast]

/-- **The run lemma.** -/
theorem Counted.run (h : Counted charge s) {calls : List (Call Key)}
    (hcalls : ∀ call ∈ calls, Charges charge call) :
    (∃ t, s.run calls = .ok t) ∧
      s.broughtBy calls = Paging.misses (s.slots charge) (s.pairs.map Prod.fst) (s.usedBy calls) := by
  induction calls generalizing s with
  | nil => exact ⟨⟨s, rfl⟩, rfl⟩
  | cons call calls ih =>
    obtain ⟨t, hstep, ht, hslots, hkeys, hbrought⟩ := h.step_request (hcalls call (List.mem_cons_self ..))
    obtain ⟨⟨u, hrun⟩, hrest⟩ := ih ht fun call hmem => hcalls call (List.mem_cons_of_mem _ hmem)
    refine ⟨⟨u, Fallible.run_cons.mpr ⟨_, hstep, hrun⟩⟩, ?_⟩
    simp only [broughtBy, usedBy, hstep]
    rw [Paging.misses_append, ← hkeys, ← hbrought, ← hslots, hrest]

/-- **LRU competes with every other policy**: in a run with one charge and no deleter, let any
cache of at most `h` entries be asked for the keys that the shard's calls use. The insertions that
bring a key in are at most `slots / (slots - h + 1)` times its faults, and `slots` more. -/
theorem run_competitive {o : CacheSharedOptions} (hpos : 0 < charge.toNat)
    (hlimited : o.capacity ≠ 0 ∨ (make o : LRUCacheShard Key).maxEntryNum ≠ 0)
    (hfits : o.capacity ≠ 0 → charge ≤ o.capacity) (hcarry : o.capacity.toNat + charge.toNat < 2 ^ 64)
    {calls : List (Call Key)} (hcalls : ∀ call ∈ calls, Charges charge call) {h : Nat}
    {schedule : List (Key × Finset Key)} (hserves : Paging.Serves h ∅ schedule)
    (hkeys : (make o).usedBy calls = schedule.map Prod.fst) :
    (∃ s, (make o).run calls = .ok s) ∧
      ((make o : LRUCacheShard Key).slots charge + 1 - h) * (make o).broughtBy calls ≤
        (make o : LRUCacheShard Key).slots charge * Paging.faults ∅ schedule +
          ((make o : LRUCacheShard Key).slots charge + 1 - h) * (make o : LRUCacheShard Key).slots charge := by
  have hstart : Counted charge (make o : LRUCacheShard Key) :=
    ⟨make_uniform o charge, hpos, hlimited, hfits, hcarry, fun _ => (Nat.zero_mul _).symm⟩
  obtain ⟨hrun, hbrought⟩ := hstart.run hcalls
  refine ⟨hrun, ?_⟩
  rw [hbrought, hkeys]
  exact Paging.competitive hstart.slots_pos hserves

/-- Three keys for a shard of two entries. -/
def threeKeys : List (Call Nat) :=
  [.insert 1 ⟨some 1, none, 1⟩, .insert 2 ⟨some 2, none, 1⟩, .insert 3 ⟨some 3, none, 1⟩,
    .insert 1 ⟨some 4, none, 1⟩, .get 2, .insert 2 ⟨some 5, none, 1⟩]

/-- The shard brings a key in five times, and two entries that keep key 1 four times. -/
theorem run_competitive_two : (∃ s, (make ⟨2, 0, 0⟩ : LRUCacheShard Nat).run threeKeys = .ok s) ∧
    (2 + 1 - 2) * 5 ≤ 2 * 4 + (2 + 1 - 2) * 2 := by
  have hslots : (make ⟨2, 0, 0⟩ : LRUCacheShard Nat).slots 1 = 2 := by decide
  have hbrought : (make ⟨2, 0, 0⟩ : LRUCacheShard Nat).broughtBy threeKeys = 5 := by decide
  have hall := @run_competitive Nat _ 1 ⟨2, 0, 0⟩ (by decide) (by decide) (by decide) (by decide) threeKeys
    (by decide) 2 [(1, {1}), (2, {1, 2}), (3, {1, 3}), (1, {1, 3}), (2, {1, 2})] (by decide) (by decide)
  rw [hslots, hbrought] at hall
  exact hall

end LRUCacheShard

end HyperCache.Lru
