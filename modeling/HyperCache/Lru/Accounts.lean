import HyperCache.Lru.Representation

/-! The charge accounts of a shard.

`usage_` is meant to be the sum of the charges of the entries. It is, as long as a present
key keeps its charge, sums stay in the word, and no entry that is evicted is one whose
charge `FreeData` has already set to zero. Then the two eviction loops together keep the
longest front part of the list that both limits admit next to the new entry. -/
namespace HyperCache.Lru.LRUCacheShard
open Fallible

variable {Key : Type} {s t : LRUCacheShard Key} {key : Key} {handle : Handle}
  {charge : UInt64} {m : Nat}

/-- The sum of the charges, as they were inserted. -/
def charges (es : List (Element Key)) : Nat := (es.map (·.second.totalCharge.toNat)).sum

@[simp] theorem charges_nil : charges ([] : List (Element Key)) = 0 := rfl

@[simp] theorem charges_cons (e : Element Key) (es : List (Element Key)) :
    charges (e :: es) = e.second.totalCharge.toNat + charges es := List.sum_cons

@[simp] theorem charges_append (es es' : List (Element Key)) :
    charges (es ++ es') = charges es + charges es' := by
  simp [charges]

theorem charges_take_add (es : List (Element Key)) (m : Nat) :
    charges (es.take m) + charges (es.drop m) = charges es := by
  rw [← charges_append, List.take_append_drop]

theorem charges_take_le {es : List (Element Key)} {i : Nat} (h : i ≤ m) :
    charges (es.take i) ≤ charges (es.take m) := by
  have := charges_take_add (es.take m) i
  rw [List.take_take, Nat.min_eq_left h] at this
  omega

/-- Freeing the entry leaves its charge to be subtracted. -/
def Whole (e : Element Key) : Prop := e.second.freeData.totalCharge = e.second.totalCharge

instance (e : Element Key) : Decidable (Whole e) :=
  inferInstanceAs (Decidable (e.second.freeData.totalCharge = e.second.totalCharge))

/-- With nothing but `kept` left, both limits admit an entry of this charge. -/
structure Admitted (s : LRUCacheShard Key) (charge : UInt64) (kept : List (Element Key)) :
    Prop where
  charge : s.capacity = 0 ∨ charges kept + charge.toNat ≤ s.capacity.toNat
  number : s.maxEntryNum = 0 ∨ kept.length < s.maxEntryNum.toUInt64.toNat

instance (s : LRUCacheShard Key) (charge : UInt64) : DecidablePred (s.Admitted charge) :=
  fun kept => decidable_of_iff
    ((s.capacity = 0 ∨ charges kept + charge.toNat ≤ s.capacity.toNat) ∧
      (s.maxEntryNum = 0 ∨ kept.length < s.maxEntryNum.toUInt64.toNat))
    ⟨fun h => ⟨h.1, h.2⟩, fun h => ⟨h.1, h.2⟩⟩

/-- How many of its first elements a shard is to keep for a new entry of this charge. -/
def kept (s : LRUCacheShard Key) (charge : UInt64) : Nat :=
  Nat.findGreatest (fun m => s.Admitted charge (s.entries.take m)) s.entries.length

theorem kept_le : s.kept charge ≤ s.entries.length := Nat.findGreatest_le _

/-- Both limits admit an entry next to what is kept for it: at worst nothing is. -/
theorem kept_admitted (hle : s.capacity ≠ 0 → charge ≤ s.capacity) :
    s.Admitted charge (s.entries.take (s.kept charge)) := by
  refine Nat.findGreatest_spec (P := fun m => s.Admitted charge (s.entries.take m))
    (Nat.zero_le _) ⟨?_, ?_⟩
  · refine or_iff_not_imp_left.mpr fun hcap => ?_
    simpa using UInt64.le_iff_toNat_le.mp (hle hcap)
  · exact or_iff_not_imp_left.mpr limit_pos

theorem not_admitted_of_kept_lt {i : Nat} (hi : s.kept charge < i) (hlen : i ≤ s.entries.length) :
    ¬ s.Admitted charge (s.entries.take i) :=
  Nat.findGreatest_is_greatest hi hlen

/-! ### What is subtracted -/

theorem settled_toNat {es : List (Element Key)} (hwhole : ∀ e ∈ es, Whole e)
    (hlt : charges es < 2 ^ 64) : (settled es).toNat = charges es := by
  induction es with
  | nil => rfl
  | cons e es ih =>
    rw [charges_cons] at hlt
    have hes := ih (fun e' he => hwhole e' (List.mem_cons_of_mem e he)) (by omega)
    rw [settled_cons, hwhole e (List.mem_cons_self ..), UInt64.toNat_add, hes, charges_cons]
    exact Nat.mod_eq_of_lt hlt

theorem admits_iff {i : Nat} (hacc : s.usage.toNat = charges s.entries)
    (hsum : charges s.entries + charge.toNat < 2 ^ 64)
    (hwhole : ∀ e ∈ s.entries.drop i, Whole e) :
    s.Admits charge i ↔ charges (s.entries.take i) + charge.toNat ≤ s.capacity.toNat := by
  have hadd := charges_take_add s.entries i
  have hsettled := settled_toNat hwhole (by omega)
  have husage : (s.usage - settled (s.entries.drop i)).toNat = charges (s.entries.take i) := by
    rw [UInt64.toNat_sub_of_le _ _ (UInt64.le_iff_toNat_le.mpr (by omega)), hsettled]
    omega
  rw [Admits, UInt64.le_iff_toNat_le, UInt64.toNat_add, husage, Nat.mod_eq_of_lt (by omega)]

/-! ### A new key -/

variable [DecidableEq Key]

theorem keep_usage_toNat {i : Nat} (hacc : s.usage.toNat = charges s.entries)
    (hwhole : ∀ e ∈ s.entries.drop i, Whole e) :
    (s.keep i).usage.toNat = charges (s.entries.take i) := by
  have hadd := charges_take_add s.entries i
  have hlt : s.usage.toNat < 2 ^ 64 := s.usage.toNat_lt
  have hsettled := settled_toNat hwhole (by omega)
  rw [keep_usage, UInt64.toNat_sub_of_le _ _ (UInt64.le_iff_toNat_le.mpr (by omega)), hsettled]
  omega

/-- **A new entry evicts no more than it must.** -/
theorem insert_new_kept (h : Represents s) (hacc : s.usage.toNat = charges s.entries)
    (hkey : key ∉ s.entries.map (·.first))
    (hle : s.capacity ≠ 0 → handle.totalCharge ≤ s.capacity)
    (hsum : charges s.entries + handle.totalCharge.toNat < 2 ^ 64)
    (hwhole : ∀ e ∈ s.entries.drop (s.kept handle.totalCharge), Whole e) :
    s.insert key handle =
      .ok ((s.keep (s.kept handle.totalCharge)).emplaceFront key handle) := by
  have hadmitted := kept_admitted hle
  have hiff : ∀ i, s.kept handle.totalCharge ≤ i → (s.Admits handle.totalCharge i ↔
      charges (s.entries.take i) + handle.totalCharge.toNat ≤ s.capacity.toNat) :=
    fun i hi => admits_iff hacc hsum fun e he =>
      hwhole e (List.drop_subset_drop_left _ hi he)
  -- what the first loop keeps, and that it is no more than the charge limit needs
  obtain ⟨m, hm, hevict, hkept, hcharge⟩ : ∃ m ≤ s.entries.length,
      s.evictForCharge handle.totalCharge = .ok (s.keep m) ∧ s.kept handle.totalCharge ≤ m ∧
      ∀ i ≤ m, s.capacity = 0 ∨
        charges (s.entries.take i) + handle.totalCharge.toNat ≤ s.capacity.toNat := by
    rcases s.evictForCharge_cases handle.totalCharge with
      ⟨hcap, hevict⟩ | ⟨hcap, m, hm, hadmits, hmax, hevict⟩ | ⟨hcap, hnone, -⟩
    · exact ⟨_, le_rfl, by rw [hevict, keep_all le_rfl], kept_le, fun _ _ => .inl hcap⟩
    · have hkept : s.kept handle.totalCharge ≤ m := by
        refine Nat.le_of_not_lt fun hlt => hmax _ hlt kept_le ?_
        exact (hiff _ le_rfl).mpr (hadmitted.charge.resolve_left hcap)
      refine ⟨m, hm, hevict, hkept, fun i hi => .inr ?_⟩
      exact le_trans (Nat.add_le_add_right (charges_take_le hi) _) ((hiff m hkept).mp hadmits)
    · exact absurd ((hiff _ le_rfl).mpr (hadmitted.charge.resolve_left hcap)) (hnone _ kept_le)
  rw [insert_new_ok h hkey hm hevict]
  -- the second loop keeps what both limits admit
  have hroom : min m (s.keep m).room = s.kept handle.totalCharge := by
    have hlen : ∀ i ≤ m, (s.entries.take i).length = i :=
      fun i hi => List.length_take_of_le (Nat.le_trans hi hm)
    have hmlen : (s.keep m).entries.length = m := hlen m le_rfl
    refine le_antisymm (Nat.le_of_not_lt fun hlt => ?_) (le_min hkept ?_)
    · refine not_admitted_of_kept_lt hlt (Nat.le_trans (Nat.min_le_left ..) hm)
        ⟨hcharge _ (Nat.min_le_left ..), or_iff_not_imp_left.mpr fun hmax => ?_⟩
      rw [hlen _ (Nat.min_le_left ..)]
      rw [room, keep_maxEntryNum, if_neg hmax] at hlt ⊢
      omega
    · rw [room, keep_maxEntryNum]
      split
      · rwa [hmlen]
      · have hnumber := hadmitted.number.resolve_left ‹_›
        rw [hlen _ hkept] at hnumber
        omega
  rw [hroom]

/-! ### Every run -/

/-- `usage_` is the sum of the charges, within the capacity if there is one. -/
structure Accounted (s : LRUCacheShard Key) : Prop where
  represents : Represents s
  usage : s.usage.toNat = charges s.entries
  bounded : s.capacity ≠ 0 → s.usage ≤ s.capacity

theorem make_accounted (o : CacheSharedOptions) : Accounted (make o : LRUCacheShard Key) :=
  ⟨make_represents o, rfl, fun _ => Nat.zero_le _⟩

/-- An element in another place, with another handle of the same charge. -/
theorem Accounted.reorder (h : Accounted s) {e : Element Key} (e' : Element Key)
    (he : e ∈ s.entries)
    (hsame : e'.second.totalCharge = e.second.totalCharge) (hfirst : e'.first = e.first)
    (hnode : e'.node = e.node) (deleted : List Deletion) :
    Accounted {s with deleted := deleted, entries := e' :: s.without e.node} := by
  obtain ⟨-, before, after, hes, hwithout⟩ := h.represents.at_node he
  refine ⟨h.represents.reorder ?_ rfl rfl, h.usage.trans ?_, h.bounded⟩
  · simp only [hwithout, hes, List.map_cons, List.map_append, hfirst, hnode]
    exact List.perm_middle.symm
  · simp only [hwithout, hes, charges_cons, charges_append, hsame]
    omega

theorem Accounted.emplace (h : Accounted s) (hkey : key ∉ s.entries.map (·.first))
    (hle : s.capacity ≠ 0 → handle.totalCharge ≤ s.capacity)
    (hsum : charges s.entries + handle.totalCharge.toNat < 2 ^ 64)
    (hwhole : ∀ e ∈ s.entries.drop (s.kept handle.totalCharge), Whole e) :
    Accounted ((s.keep (s.kept handle.totalCharge)).emplaceFront key handle) := by
  have husage : ((s.keep (s.kept handle.totalCharge)).usage + handle.totalCharge).toNat =
      charges (s.entries.take (s.kept handle.totalCharge)) + handle.totalCharge.toNat := by
    have hadd := charges_take_add s.entries (s.kept handle.totalCharge)
    rw [UInt64.toNat_add, keep_usage_toNat h.usage hwhole]
    exact Nat.mod_eq_of_lt (by omega)
  refine ⟨(h.represents.keep _).emplaceFront (keep_new hkey), ?_, fun hcap => ?_⟩
  · exact husage.trans (Nat.add_comm ..)
  · refine UInt64.le_iff_toNat_le.mpr (le_of_eq_of_le husage ?_)
    exact (kept_admitted hle).charge.resolve_left hcap

/-- Before the call, what would make `usage_` drift is absent: a present key keeps its
charge, and for a new key the sum with its charge stays in the word and every entry that
has to go is one whose charge `FreeData` leaves alone. -/
def Steady (s : LRUCacheShard Key) : Call Key → Prop
  | .get _ => True
  | .insert key handle =>
    (∀ e ∈ s.entries, e.first = key → handle.totalCharge = e.second.totalCharge) ∧
    (key ∉ s.entries.map (·.first) →
      charges s.entries + handle.totalCharge.toNat < 2 ^ 64 ∧
      ∀ e ∈ s.entries.drop (s.kept handle.totalCharge), Whole e)

instance (s : LRUCacheShard Key) : DecidablePred (Steady s)
  | .get _ => isTrue trivial
  | .insert key handle => inferInstanceAs (Decidable (
    (∀ e ∈ s.entries, e.first = key → handle.totalCharge = e.second.totalCharge) ∧
    (key ∉ s.entries.map (·.first) →
      charges s.entries + handle.totalCharge.toNat < 2 ^ 64 ∧
      ∀ e ∈ s.entries.drop (s.kept handle.totalCharge), Whole e)))

theorem Accounted.get (h : Accounted s) (key : Key) :
    ∃ t result, s.get key = .ok (t, result) ∧ Accounted t ∧ t.capacity = s.capacity := by
  by_cases hkey : key ∈ s.entries.map (·.first)
  · obtain ⟨e, he, rfl⟩ := List.mem_map.mp hkey
    exact ⟨_, _, get_hit h.represents he, h.reorder e he rfl rfl rfl s.deleted, rfl⟩
  · exact ⟨_, _, get_miss h.represents hkey, h, rfl⟩

theorem Accounted.insert (h : Accounted s) (hsteady : Steady s (.insert key handle))
    (hle : s.capacity ≠ 0 → handle.totalCharge ≤ s.capacity) :
    ∃ t, s.insert key handle = .ok t ∧ Accounted t ∧ t.capacity = s.capacity := by
  by_cases hkey : key ∈ s.entries.map (·.first)
  · obtain ⟨e, he, rfl⟩ := List.mem_map.mp hkey
    have hsame := hsteady.1 e he rfl
    exact ⟨_, insert_same h.represents he hsame, h.reorder {e with second := handle} he hsame rfl rfl _, rfl⟩
  · obtain ⟨hsum, hwhole⟩ := hsteady.2 hkey
    exact ⟨_, insert_new_kept h.represents h.usage hkey hle hsum hwhole,
      h.emplace hkey hle hsum hwhole, rfl⟩

theorem Accounted.step (h : Accounted s) {call : Call Key} (hsteady : Steady s call)
    (hle : s.capacity ≠ 0 → call.charge ≤ s.capacity) :
    ∃ t result, s.step call = .ok (t, result) ∧ Accounted t ∧ t.capacity = s.capacity := by
  cases call with
  | get key => exact h.get key
  | insert key handle =>
    obtain ⟨t, ht, hacc, hcap⟩ := h.insert hsteady hle
    exact ⟨t, none, step_insert ht, hacc, hcap⟩

/-- **The accounts of a shard.** In a run of handles within the capacity each of whose
insertions is steady, `usage_` is after every call the sum of the charges of the entries,
and within the capacity. -/
theorem run_accounted (o : CacheSharedOptions) (hcap : 0 < o.capacity) (calls : List (Call Key))
    (hle : ∀ call ∈ calls, call.charge ≤ o.capacity)
    (hsteady : Along Steady (make o : LRUCacheShard Key) calls) :
    ∃ s : LRUCacheShard Key, (make o).run calls = .ok s ∧
      s.usage.toNat = charges s.entries ∧ s.usage ≤ o.capacity := by
  suffices hrun : ∃ s : LRUCacheShard Key, (make o).run calls = .ok s ∧ Accounted s ∧
      s.capacity = o.capacity by
    obtain ⟨s, hs, h, hsame⟩ := hrun
    exact ⟨s, hs, h.usage, hsame ▸ h.bounded (hsame ▸ (UInt64.pos_iff_ne_zero.mp hcap))⟩
  induction calls using List.reverseRecOn with
  | nil => exact ⟨_, rfl, make_accounted o, rfl⟩
  | append_singleton calls last ih =>
    replace hsteady := along_concat.mp hsteady
    obtain ⟨s, hs, h, hsame⟩ :=
      ih (fun call hmem => hle call (List.mem_append_left _ hmem)) hsteady.1
    have hlast := hle last (List.mem_append_right _ (List.mem_singleton_self _))
    obtain ⟨t, result, ht, hacc, htcap⟩ := h.step (hsteady.2 s hs) fun _ => hsame ▸ hlast
    exact ⟨t, run_concat.mpr ⟨s, result, hs, ht⟩, hacc, htcap.trans hsame⟩

/-- The entry without a deleter is the one that has to go. -/
theorem run_accounted_evicting :
    ∃ s : LRUCacheShard Nat, (make ⟨10, 0, 0⟩).run
      [.insert 1 ⟨some 1, none, 4⟩, .insert 2 ⟨some 2, none, 4⟩, .get 1,
        .insert 1 ⟨some 3, some 9, 4⟩, .insert 3 ⟨some 4, some 9, 6⟩] = .ok s ∧
      s.usage.toNat = charges s.entries ∧ s.usage ≤ 10 :=
  run_accounted ⟨10, 0, 0⟩ (by decide) _ (by decide) (by decide)

/-- An update changes the charge of an entry and not `usage_`; and an evicted entry with a
deleter takes nothing off `usage_`. -/
theorem usage_drifts :
    (∃ s : LRUCacheShard Nat, (make ⟨10, 0, 0⟩).run
      [.insert 1 ⟨some 1, none, 2⟩, .insert 1 ⟨some 2, none, 8⟩] = .ok s ∧
      s.usage = 2 ∧ charges s.entries = 8) ∧
    ∃ s : LRUCacheShard Nat, (make ⟨10, 0, 0⟩).run
      [.insert 1 ⟨some 1, some 9, 4⟩, .insert 2 ⟨some 2, none, 4⟩,
        .insert 3 ⟨some 3, none, 4⟩] = .ok s ∧
      s.usage = 8 ∧ charges s.entries = 4 :=
  ⟨⟨_, rfl, by decide⟩, ⟨_, rfl, by decide⟩⟩

end HyperCache.Lru.LRUCacheShard
