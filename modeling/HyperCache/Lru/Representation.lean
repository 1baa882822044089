import HyperCache.Lru.Eviction
import Mathlib.Data.List.Induction
import Mathlib.Data.List.Nodup
import Mathlib.Data.List.Perm.Basic

/-! `map_` and `entries_` of a shard represent one map.

The invariant is kept by every call that returns. Whether a call returns is a matter of
`usage_`: an eviction loop must be able to stop before the list is empty, and on the
update path before it comes to the entry being updated. -/
namespace HyperCache.Lru.LRUCacheShard
open Fallible

variable {Key : Type} [DecidableEq Key] {s t : LRUCacheShard Key} {key : Key} {handle : Handle}
  {m it : Nat}

/-- `map_` has one entry for each element of `entries_`, and it points at that element. -/
structure Represents (s : LRUCacheShard Key) : Prop where
  keys : (s.entries.map (·.first)).Nodup
  nodes : (s.entries.map (·.node)).Nodup
  mapped : s.map.keys.Perm (s.entries.map (·.first))
  points : ∀ e ∈ s.entries, s.map.lookup e.first = some e.node
  allocated : ∀ e ∈ s.entries, e.node < s.nodes

theorem make_represents (o : CacheSharedOptions) : Represents (make o : LRUCacheShard Key) where
  keys := List.nodup_nil
  nodes := List.nodup_nil
  mapped := .nil
  points := nofun
  allocated := nofun

/-- The order of the elements and what they hold do not matter. -/
theorem Represents.reorder (h : Represents s)
    (hperm : (t.entries.map fun e => (e.first, e.node)).Perm
      (s.entries.map fun e => (e.first, e.node)))
    (hmap : t.map = s.map) (hnodes : t.nodes = s.nodes) : Represents t := by
  have hfirst : (t.entries.map (·.first)).Perm (s.entries.map (·.first)) := by
    simpa [Function.comp_def] using hperm.map Prod.fst
  have hnode : (t.entries.map (·.node)).Perm (s.entries.map (·.node)) := by
    simpa [Function.comp_def] using hperm.map Prod.snd
  have hmem : ∀ e ∈ t.entries, ∃ e' ∈ s.entries, e'.first = e.first ∧ e'.node = e.node := by
    intro e he
    have := hperm.subset (List.mem_map.mpr ⟨e, he, rfl⟩)
    obtain ⟨e', he', heq⟩ := List.mem_map.mp this
    exact ⟨e', he', congrArg Prod.fst heq, congrArg Prod.snd heq⟩
  refine ⟨hfirst.nodup_iff.mpr h.keys, hnode.nodup_iff.mpr h.nodes, ?_, ?_, ?_⟩
  · rw [hmap]
    exact h.mapped.trans hfirst.symm
  · intro e he
    obtain ⟨e', he', hf, hn⟩ := hmem e he
    rw [hmap, ← hf, ← hn]
    exact h.points e' he'
  · intro e he
    obtain ⟨e', he', -, hn⟩ := hmem e he
    rw [hnodes, ← hn]
    exact h.allocated e' he'

theorem Represents.evictLast (h : Represents s) (ht : s.evictLast = .ok t) : Represents t := by
  rcases List.eq_nil_or_concat s.entries with hnil | ⟨es, last, hes⟩
  · simp [evictLast_nil hnil] at ht
  rw [List.concat_eq_append] at hes
  obtain rfl := Except.ok.inj ((evictLast_concat hes).symm.trans ht)
  have hkeys := h.keys
  have hnodes := h.nodes
  have hmapped := h.mapped
  simp only [hes, List.map_append, List.map_cons, List.map_nil] at hkeys hnodes hmapped
  have hmem : ∀ e ∈ es, e ∈ s.entries := fun e he => hes ▸ List.mem_append_left _ he
  refine ⟨(List.nodup_append.mp hkeys).1, (List.nodup_append.mp hnodes).1, ?_, ?_, ?_⟩
  · simp only [AList.keys_erase]
    have := (hmapped.trans (List.perm_append_singleton ..)).erase last.first
    rwa [List.erase_cons_head] at this
  · intro e he
    have hne : e.first ≠ last.first :=
      (List.nodup_append.mp hkeys).2.2 _ (List.mem_map_of_mem he) _ (List.mem_singleton_self _)
    simp only [AList.lookup_erase_ne hne]
    exact h.points e (hmem e he)
  · exact fun e he => h.allocated e (hmem e he)

theorem Represents.keep (h : Represents s) (m : Nat) : Represents (s.keep m) := by
  rcases Nat.le_total s.entries.length m with hm | hm
  · rwa [keep_all hm]
  induction hm using Nat.decreasingInduction with
  | self => rwa [keep_all le_rfl]
  | of_succ m hm ih => exact ih.evictLast (evictLast_keep hm)

theorem Represents.emplaceFront (h : Represents s) (hkey : key ∉ s.entries.map (·.first)) :
    Represents (s.emplaceFront key handle) := by
  have hnew : key ∉ s.map.keys := fun hk => hkey (h.mapped.subset hk)
  refine ⟨List.nodup_cons.mpr ⟨hkey, h.keys⟩, List.nodup_cons.mpr ⟨?_, h.nodes⟩, ?_, ?_, ?_⟩
  · intro hn
    obtain ⟨e, he, heq⟩ := List.mem_map.mp hn
    exact absurd heq (Nat.ne_of_lt (h.allocated e he))
  · simp only [LRUCacheShard.emplaceFront, AList.keys_insert, List.erase_of_not_mem hnew,
      List.map_cons]
    exact h.mapped.cons key
  · intro e he
    rcases List.mem_cons.mp he with rfl | he
    · exact AList.lookup_insert _
    · have hne : e.first ≠ key := fun heq => hkey (heq ▸ List.mem_map_of_mem he)
      exact (AList.lookup_insert_ne hne).trans (h.points e he)
  · intro e he
    rcases List.mem_cons.mp he with rfl | he
    · exact Nat.lt_succ_self _
    · exact Nat.lt_succ_of_lt (h.allocated e he)

/-! ### Following an iterator -/

theorem Represents.lookup_none (h : Represents s) :
    s.map.lookup key = none ↔ key ∉ s.entries.map (·.first) := by
  rw [AList.lookup_eq_none, AList.mem_keys, h.mapped.mem_iff]

/-- The element, found by its node, with the rest of the list. -/
theorem Represents.at_node (h : Represents s) {e : Element Key} (he : e ∈ s.entries) :
    s.at? e.node = some e ∧ ∃ before after, s.entries = before ++ e :: after ∧
      s.without e.node = before ++ after := by
  obtain ⟨before, after, hes⟩ := List.append_of_mem he
  have hnot : ∀ a ∈ before, ¬ (a.node == e.node) = true := by
    intro a ha heq
    have hnodes := h.nodes
    rw [hes, List.map_append, List.map_cons] at hnodes
    exact (List.nodup_append.mp hnodes).2.2 _ (List.mem_map_of_mem ha) _
      (List.mem_cons_self ..) (beq_iff_eq.mp heq)
  refine ⟨?_, before, after, hes, ?_⟩
  · rw [at?, hes, List.find?_append, List.find?_eq_none.mpr hnot, Option.none_or,
      List.find?_cons_of_pos (by simp)]
  · rw [without, hes, List.eraseP_append_right _ hnot, List.eraseP_cons_of_pos (by simp)]

theorem Represents.without (h : Represents s) {e : Element Key} (he : e ∈ s.entries) :
    (s.without e.node).Sublist s.entries ∧ (∀ a ∈ s.without e.node, a.first ≠ e.first) ∧
      s.entries.Perm (e :: s.without e.node) := by
  obtain ⟨-, before, after, hes, hwithout⟩ := h.at_node he
  have hperm : s.entries.Perm (e :: s.without e.node) := by
    rw [hwithout, hes]
    exact List.perm_middle
  have hkeys := (hperm.map (·.first)).nodup_iff.mp h.keys
  refine ⟨List.eraseP_sublist, fun a ha heq => (List.nodup_cons.mp hkeys).1 ?_, hperm⟩
  exact List.mem_map.mpr ⟨a, ha, heq⟩

omit [DecidableEq Key] in
theorem at?_none (h : ∀ e ∈ s.entries, e.node ≠ it) : s.at? it = none :=
  List.find?_eq_none.mpr fun e he => by simpa using h e he

/-! ### The calls -/

theorem get_miss (h : Represents s) (hkey : key ∉ s.entries.map (·.first)) :
    s.get key = .ok (s, none) := by
  simp [get, h.lookup_none.mpr hkey]

/-- A hit moves the element of the key to the front. -/
theorem get_hit (h : Represents s) {e : Element Key} (he : e ∈ s.entries) :
    s.get e.first = .ok ({s with entries := e :: s.without e.node}, some e.second) := by
  simp [get, h.points e he, (h.at_node he).1]

theorem insert_new (h : Represents s) (hkey : key ∉ s.entries.map (·.first)) :
    s.insert key handle = (do
      let s ← s.evictForCharge handle.totalCharge
      let s ← s.evictForOccupancy
      return s.emplaceFront key handle) := by
  simp [LRUCacheShard.insert, h.lookup_none.mpr hkey]

theorem insert_present (h : Represents s) {e : Element Key} (he : e ∈ s.entries) :
    s.insert e.first handle =
      (if 0 < handle.totalCharge - e.second.totalCharge then
        s.evictForCharge (handle.totalCharge - e.second.totalCharge) else .ok s) >>=
      overwrite e.node handle := by
  simp [LRUCacheShard.insert, h.points e he, (h.at_node he).1]

theorem overwrite_ok (h : Represents s) {e : Element Key} (he : e ∈ s.entries) :
    overwrite e.node handle s = .ok
      {s with
        deleted := s.deleted ++ e.second.deletions true
        entries := {e with second := handle} :: s.without e.node} := by
  simp [overwrite, (h.at_node he).1]

/-- A present key that keeps its charge evicts nothing. -/
theorem insert_same (h : Represents s) {e : Element Key} (he : e ∈ s.entries)
    (hsame : handle.totalCharge = e.second.totalCharge) :
    s.insert e.first handle = .ok
      {s with
        deleted := s.deleted ++ e.second.deletions true
        entries := {e with second := handle} :: s.without e.node} := by
  rw [insert_present h he, if_neg (by simp [hsame]), ok_bind]
  exact overwrite_ok h he

/-- An evicted element is not to be used any more. -/
theorem overwrite_evicted (h : Represents s) {e : Element Key} (he : e ∈ s.entries)
    (hm : e ∉ s.entries.take m) :
    overwrite e.node handle (s.keep m) = .error .danglingEntry := by
  have hnone : (s.keep m).at? e.node = none := by
    refine at?_none fun e' he' hnode => hm ?_
    have := List.inj_on_of_nodup_map h.nodes (List.mem_of_mem_take he') he hnode
    exact this ▸ he'
  simp [overwrite, hnone]

theorem Represents.overwrite (h : Represents s) {e : Element Key} (he : e ∈ s.entries)
    (ht : overwrite e.node handle s = .ok t) : Represents t := by
  obtain rfl := Except.ok.inj ((overwrite_ok h he).symm.trans ht)
  obtain ⟨-, before, after, hes, hwithout⟩ := h.at_node he
  refine h.reorder ?_ rfl rfl
  simp only [hwithout, hes, List.map_cons, List.map_append]
  exact List.perm_middle.symm

theorem Represents.get (h : Represents s) {result : Option Handle}
    (ht : s.get key = .ok (t, result)) : Represents t := by
  by_cases hkey : key ∈ s.entries.map (·.first)
  · obtain ⟨e, he, rfl⟩ := List.mem_map.mp hkey
    cases (get_hit h he).symm.trans ht
    obtain ⟨-, before, after, hes, hwithout⟩ := h.at_node he
    refine h.reorder ?_ rfl rfl
    simp only [hwithout, hes, List.map_cons, List.map_append]
    exact List.perm_middle.symm
  · cases (get_miss h hkey).symm.trans ht
    exact h

/-- The insert path returns once its first loop has. -/
theorem insert_new_ok (h : Represents s) (hkey : key ∉ s.entries.map (·.first))
    (hm : m ≤ s.entries.length) (hevict : s.evictForCharge handle.totalCharge = .ok (s.keep m)) :
    s.insert key handle =
      .ok ((s.keep (min m (s.keep m).room)).emplaceFront key handle) := by
  have hlen : (s.keep m).entries.length = m := List.length_take_of_le hm
  rw [insert_new h hkey, hevict, ok_bind, evictForOccupancy_eq, ok_bind, hlen,
    keep_keep (Nat.min_le_left ..) hm]
  rfl

theorem keep_new (hkey : key ∉ s.entries.map (·.first)) :
    key ∉ (s.keep m).entries.map (·.first) :=
  fun hk => hkey (List.map_subset _ (List.take_subset m _) hk)

/-! ### Every run -/

/-- Before the call, `usage_` lets its eviction loop stop in time. Without a charge limit
there is no such loop. A new key needs some number of first elements that admits its
charge. A present one needs either its old charge again, when nothing is evicted, or a
number of first elements with its own among them that admits the difference. -/
def Safe (s : LRUCacheShard Key) : Call Key → Prop
  | .get _ => True
  | .insert key handle =>
    s.capacity = 0 ∨
    (key ∉ s.entries.map (·.first) ∧ ∃ m, s.Admits handle.totalCharge m) ∨
    ∃ e ∈ s.entries, e.first = key ∧
      (handle.totalCharge = e.second.totalCharge ∨
        ∃ m, e ∈ s.entries.take m ∧ s.Admits (handle.totalCharge - e.second.totalCharge) m)

theorem insert_new_returns (h : Represents s) (hkey : key ∉ s.entries.map (·.first)) :
    (∃ t, s.insert key handle = .ok t) ↔ Safe s (.insert key handle) := by
  have hpresent : ¬ ∃ e ∈ s.entries, e.first = key ∧
      (handle.totalCharge = e.second.totalCharge ∨
        ∃ m, e ∈ s.entries.take m ∧ s.Admits (handle.totalCharge - e.second.totalCharge) m) :=
    fun ⟨e, he, hf, _⟩ => hkey (hf ▸ List.mem_map_of_mem he)
  rcases s.evictForCharge_cases handle.totalCharge with
    ⟨hcap, hevict⟩ | ⟨-, m, hm, hadmits, -, hevict⟩ | ⟨hcap, hnone, hevict⟩
  · refine iff_of_true ⟨_, insert_new_ok h hkey le_rfl ?_⟩ (.inl hcap)
    rw [keep_all le_rfl]
    exact hevict
  · exact iff_of_true ⟨_, insert_new_ok h hkey hm hevict⟩ (.inr (.inl ⟨hkey, m, hadmits⟩))
  · refine iff_of_false ?_ ?_
    · rintro ⟨t, ht⟩
      rw [insert_new h hkey, hevict, error_bind] at ht
      cases ht
    · rintro (hcap' | ⟨-, m, hadmits⟩ | hex)
      · exact hcap hcap'
      · exact hnone _ (Nat.min_le_right ..) hadmits.min
      · exact hpresent hex

theorem insert_present_returns (h : Represents s) {e : Element Key} (he : e ∈ s.entries) :
    (∃ t, s.insert e.first handle = .ok t) ↔ Safe s (.insert e.first handle) := by
  have hkey : e.first ∈ s.entries.map (·.first) := List.mem_map_of_mem he
  by_cases hsame : handle.totalCharge = e.second.totalCharge
  · exact iff_of_true ⟨_, insert_same h he hsame⟩ (.inr (.inr ⟨e, he, rfl, .inl hsame⟩))
  rw [insert_present h he]
  have hpos : 0 < handle.totalCharge - e.second.totalCharge :=
    UInt64.pos_iff_ne_zero.mpr fun h0 => hsame (by grind)
  rw [if_pos hpos]
  rcases s.evictForCharge_cases (handle.totalCharge - e.second.totalCharge) with
    ⟨hcap, hevict⟩ | ⟨hcap, m, hm, hadmits, hmax, hevict⟩ | ⟨hcap, hnone, hevict⟩
  · rw [hevict, ok_bind]
    exact iff_of_true ⟨_, overwrite_ok h he⟩ (.inl hcap)
  · rw [hevict, ok_bind]
    by_cases htake : e ∈ s.entries.take m
    · exact iff_of_true ⟨_, overwrite_ok (h.keep m) htake⟩
        (.inr (.inr ⟨e, he, rfl, .inr ⟨m, htake, hadmits⟩⟩))
    · rw [overwrite_evicted h he htake]
      refine iff_of_false nofun ?_
      rintro (hcap' | ⟨hnot, -⟩ | ⟨e', he', hf, hsame' | ⟨i, hi, hadmits'⟩⟩)
      · exact hcap hcap'
      · exact hnot hkey
      all_goals obtain rfl := List.inj_on_of_nodup_map h.keys he' he hf
      · exact hsame hsame'
      · refine hmax (min i s.entries.length) ?_ (Nat.min_le_right ..) hadmits'.min
        refine Nat.lt_of_not_le fun hle => htake ?_
        have hi' : e' ∈ s.entries.take (min i s.entries.length) := by
          rwa [← List.take_eq_take_min]
        exact List.take_subset_take_left _ hle hi'
  · rw [hevict]
    refine iff_of_false nofun ?_
    rintro (hcap' | ⟨hnot, -⟩ | ⟨e', he', hf, hsame' | ⟨i, -, hadmits'⟩⟩)
    · exact hcap hcap'
    · exact hnot hkey
    all_goals obtain rfl := List.inj_on_of_nodup_map h.keys he' he hf
    · exact hsame hsame'
    · exact hnone _ (Nat.min_le_right ..) hadmits'.min

theorem Represents.insert (h : Represents s) (ht : s.insert key handle = .ok t) :
    Represents t := by
  by_cases hkey : key ∈ s.entries.map (·.first)
  · obtain ⟨e, he, rfl⟩ := List.mem_map.mp hkey
    rw [insert_present h he] at ht
    split at ht
    · cases hevict : s.evictForCharge (handle.totalCharge - e.second.totalCharge) with
      | error fault =>
        rw [hevict] at ht
        cases ht
      | ok u =>
        obtain ⟨m, -, rfl⟩ := evictForCharge_keep hevict
        rw [hevict] at ht
        by_cases htake : e ∈ s.entries.take m
        · exact (h.keep m).overwrite htake ht
        · cases (overwrite_evicted h he htake).symm.trans ht
    · exact h.overwrite he ht
  · cases hevict : s.evictForCharge handle.totalCharge with
    | error fault =>
      rw [insert_new h hkey, hevict] at ht
      cases ht
    | ok u =>
      obtain ⟨m, hm, rfl⟩ := evictForCharge_keep hevict
      cases (insert_new_ok h hkey hm hevict).symm.trans ht
      exact (h.keep _).emplaceFront (keep_new hkey)

theorem step_represents (h : Represents s) {call : Call Key} {result : Option Handle}
    (ht : s.step call = .ok (t, result)) : Represents t := by
  cases call with
  | get key => exact h.get ht
  | insert key handle =>
    obtain ⟨u, hinsert, heq⟩ := step_insert_ok ht
    cases heq
    exact h.insert hinsert

/-- A call returns exactly when it is safe. -/
theorem step_returns (h : Represents s) (call : Call Key) :
    (∃ r, s.step call = .ok r) ↔ Safe s call := by
  cases call with
  | get key =>
    refine iff_of_true ?_ trivial
    by_cases hkey : key ∈ s.entries.map (·.first)
    · obtain ⟨e, he, rfl⟩ := List.mem_map.mp hkey
      exact ⟨_, get_hit h he⟩
    · exact ⟨_, get_miss h hkey⟩
  | insert key handle =>
    have hstep : (∃ r, s.step (.insert key handle) = .ok r) ↔ ∃ t, s.insert key handle = .ok t := by
      constructor
      · rintro ⟨r, hr⟩
        obtain ⟨u, hinsert, -⟩ := step_insert_ok hr
        exact ⟨u, hinsert⟩
      · rintro ⟨u, hu⟩
        exact ⟨(u, none), step_insert hu⟩
    rw [hstep]
    by_cases hkey : key ∈ s.entries.map (·.first)
    · obtain ⟨e, he, rfl⟩ := List.mem_map.mp hkey
      exact insert_present_returns h he
    · exact insert_new_returns h hkey

theorem run_represents (o : CacheSharedOptions) (calls : List (Call Key)) {s : LRUCacheShard Key}
    (hrun : (make o).run calls = .ok s) : Represents s := by
  induction calls using List.reverseRecOn generalizing s with
  | nil =>
    cases hrun
    exact make_represents o
  | append_singleton calls call ih =>
    obtain ⟨t, result, ht, hstep⟩ := run_concat.mp hrun
    exact step_represents (ih ht) hstep

/-- **A shard is well formed as long as every call is safe, and only so long.** A run meets
no fault if and only if each of its calls is safe in the state it finds; `map_` and
`entries_` then represent one map after every call. -/
theorem run_returns (o : CacheSharedOptions) (calls : List (Call Key)) :
    (∃ s, (make o : LRUCacheShard Key).run calls = .ok s ∧ Represents s) ↔
      Along Safe (make o : LRUCacheShard Key) calls := by
  induction calls using List.reverseRecOn with
  | nil => exact iff_of_true ⟨_, rfl, make_represents o⟩ trivial
  | append_singleton calls last ih =>
    refine Iff.trans ?_ ((and_congr_left' ih).trans along_concat.symm)
    constructor
    · rintro ⟨s, hrun, -⟩
      obtain ⟨t, result, ht, hstep⟩ := run_concat.mp hrun
      refine ⟨⟨t, ht, run_represents o _ ht⟩, fun u hu => ?_⟩
      cases ht.symm.trans hu
      exact (step_returns (run_represents o _ ht) last).mp ⟨_, hstep⟩
    · rintro ⟨⟨s, hrun, h⟩, hsafe⟩
      obtain ⟨⟨t, result⟩, hstep⟩ := (step_returns h last).mpr (hsafe s hrun)
      exact ⟨t, run_concat.mpr ⟨s, result, hrun, hstep⟩, step_represents h hstep⟩

/-- The least recently used of two entries is replaced by one of a larger charge: the loop
evicts the entry that is being updated. -/
theorem update_evicts_itself :
    ¬ ∃ s : LRUCacheShard Nat, (make ⟨10, 0, 0⟩).run
      [.insert 1 ⟨some 1, none, 5⟩, .insert 2 ⟨some 2, none, 5⟩, .insert 1 ⟨some 3, none, 6⟩] =
        .ok s ∧ Represents s := by
  rintro ⟨s, hrun, -⟩
  have hfault : (make ⟨10, 0, 0⟩ : LRUCacheShard Nat).run
      [.insert 1 ⟨some 1, none, 5⟩, .insert 2 ⟨some 2, none, 5⟩, .insert 1 ⟨some 3, none, 6⟩] =
        .error .danglingEntry := rfl
  cases hfault.symm.trans hrun

end HyperCache.Lru.LRUCacheShard
