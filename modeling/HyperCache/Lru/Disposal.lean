import HyperCache.Lru.Representation

/-! Who deletes the values of a shard, and when.

A value leaves by an update, by an eviction or with the shard. The update and the destructor
free an element that is in the list. The eviction loops take the element out first, and read
its charge only after `FreeData` has cleared it. So each value is deleted once, on a live
element, and each eviction settles its charge, in exactly the runs that evict nothing
(`disposes_iff`). -/
namespace HyperCache.Lru
open Fallible

variable {Key : Type}

/-- The handles a run brings in. -/
def inserted (calls : List (Call Key)) : List Handle :=
  calls.flatMap fun
    | .get _ => []
    | .insert _ handle => [handle]

@[simp] theorem inserted_nil : inserted ([] : List (Call Key)) = [] := rfl

@[simp] theorem inserted_append (calls calls' : List (Call Key)) :
    inserted (calls ++ calls') = inserted calls ++ inserted calls' := List.flatMap_append

@[simp] theorem inserted_get (key : Key) : inserted [Call.get key] = [] := rfl

@[simp] theorem inserted_insert (key : Key) (handle : Handle) :
    inserted [Call.insert key handle] = [handle] := rfl

theorem Handle.deletions_of_frees {h : Handle} (hfrees : h.frees) (alive : Bool) :
    h.deletions alive = [⟨h.delCb, h.value, alive⟩] := if_pos hfrees

namespace LRUCacheShard
variable [DecidableEq Key] {o : CacheSharedOptions} {s t : LRUCacheShard Key} {key : Key} {handle : Handle}
  {call : Call Key} {result : Option Handle} {m : Nat}

/-! ### What a run is to do -/

/-- The states in which a loop runs its body. -/
def rounds (tooFull : LRUCacheShard Key → Bool) :
    Nat → LRUCacheShard Key → List (LRUCacheShard Key)
  | 0, s => if tooFull s then [s] else []
  | n + 1, s =>
    if tooFull s then
      s :: match s.evictLast with
        | .ok t => rounds tooFull n t
        | .error _ => []
    else []

def chargeRounds (need : UInt64) (s : LRUCacheShard Key) : List (LRUCacheShard Key) :=
  if s.capacity = 0 then [] else rounds (overCharge need) s.entries.length s

def occupancyRounds (s : LRUCacheShard Key) : List (LRUCacheShard Key) :=
  if s.maxEntryNum = 0 then [] else rounds overOccupancy s.entries.length s

/-- The states in which a call evicts an element. -/
def evictions (s : LRUCacheShard Key) : Call Key → List (LRUCacheShard Key)
  | .get _ => []
  | .insert key handle =>
    match s.map.lookup key with
    | some it =>
      match s.at? it with
      | none => []
      | some e =>
        let needCharge := handle.totalCharge - e.second.totalCharge
        if 0 < needCharge then s.chargeRounds needCharge else []
    | none =>
      s.chargeRounds handle.totalCharge ++
        match s.evictForCharge handle.totalCharge with
        | .ok t => t.occupancyRounds
        | .error _ => []

/-- The eviction subtracts the charge the element came with. -/
def Settles (s : LRUCacheShard Key) : Prop :=
  ∀ last ∈ s.entries.getLast?, ∀ t, s.evictLast = .ok t → t.usage = s.usage - last.second.totalCharge

/-- From construction to destruction, each inserted value is deleted once, every deletion
is on a live element, and every eviction settles its charge. -/
def Disposes (o : CacheSharedOptions) (calls : List (Call Key)) : Prop :=
  ∃ s : LRUCacheShard Key, (make o).run calls = .ok s ∧
    (∀ h ∈ inserted calls,
      s.destroy.deleted.filter (·.value = h.value) = [⟨h.delCb, h.value, true⟩]) ∧
    (∀ d ∈ s.destroy.deleted, d.alive = true) ∧
    Along (fun s call => ∀ u ∈ s.evictions call, Settles u) (make o : LRUCacheShard Key) calls

/-! ### Calls that evict nothing -/

/-- The limits leave room for this much charge and, for a new key, one more element. -/
def HasCharge (need : UInt64) (s : LRUCacheShard Key) : Prop :=
  s.capacity = 0 ∨ overCharge need s = false

def HasPlace (s : LRUCacheShard Key) : Prop :=
  s.maxEntryNum = 0 ∨ overOccupancy s = false

/-- In the state before it, the call finds room. -/
def FindsRoom (s : LRUCacheShard Key) : Call Key → Prop
  | .get _ => True
  | .insert key handle =>
    (∀ e ∈ s.entries, e.first = key → 0 < handle.totalCharge - e.second.totalCharge →
      HasCharge (handle.totalCharge - e.second.totalCharge) s) ∧
    (key ∉ s.entries.map (·.first) → HasCharge handle.totalCharge s ∧ HasPlace s)

instance (need : UInt64) : DecidablePred (HasCharge need : LRUCacheShard Key → Prop) :=
  fun s => inferInstanceAs (Decidable (s.capacity = 0 ∨ overCharge need s = false))

instance : DecidablePred (HasPlace : LRUCacheShard Key → Prop) :=
  fun s => inferInstanceAs (Decidable (s.maxEntryNum = 0 ∨ overOccupancy s = false))

instance (s : LRUCacheShard Key) : DecidablePred (FindsRoom s)
  | .get _ => isTrue trivial
  | .insert key handle => inferInstanceAs (Decidable (
    (∀ e ∈ s.entries, e.first = key → 0 < handle.totalCharge - e.second.totalCharge →
      HasCharge (handle.totalCharge - e.second.totalCharge) s) ∧
    (key ∉ s.entries.map (·.first) → HasCharge handle.totalCharge s ∧ HasPlace s)))

omit [DecidableEq Key] in
theorem evictWhile_idle [DecidableEq Key] {tooFull : LRUCacheShard Key → Bool}
    (h : tooFull s = false) (n : Nat) : evictWhile tooFull n s = .ok s ∧ rounds tooFull n s = [] := by
  cases n with
  | zero => simp [evictWhile, rounds, h]
  | succ n => simp [evictWhile, rounds, h]

theorem HasCharge.idle {need : UInt64} (h : HasCharge need s) :
    s.evictForCharge need = .ok s ∧ s.chargeRounds need = [] := by
  unfold evictForCharge chargeRounds
  by_cases hcap : s.capacity = 0
  · rw [if_pos hcap, if_pos hcap]
    exact ⟨rfl, rfl⟩
  · rw [if_neg hcap, if_neg hcap]
    exact evictWhile_idle (h.resolve_left hcap) _

theorem HasPlace.idle (h : HasPlace s) :
    s.evictForOccupancy = .ok s ∧ s.occupancyRounds = [] := by
  unfold evictForOccupancy occupancyRounds
  by_cases hmax : s.maxEntryNum = 0
  · rw [if_pos hmax, if_pos hmax]
    exact ⟨rfl, rfl⟩
  · rw [if_neg hmax, if_neg hmax]
    exact evictWhile_idle (h.resolve_left hmax) _

/-! ### What a call that finds room does -/

/-- The elements in the list hold values to delete, and with those already deleted they are
the values brought in. -/
structure Tended (handles : List Handle) (s : LRUCacheShard Key) : Prop where
  represents : Represents s
  frees : ∀ e ∈ s.entries, e.second.frees = true
  disposals : s.destroy.deleted.Perm (handles.flatMap (·.deletions true))

theorem make_tended (o : CacheSharedOptions) : Tended [] (make o : LRUCacheShard Key) where
  represents := make_represents o
  frees := nofun
  disposals := .nil

variable {handles : List Handle}

theorem Tended.get (h : Tended handles s) (key : Key) :
    ∃ t result, s.get key = .ok (t, result) ∧ Tended handles t := by
  by_cases hkey : key ∈ s.entries.map (·.first)
  · obtain ⟨e, he, rfl⟩ := List.mem_map.mp hkey
    obtain ⟨-, -, hperm⟩ := h.represents.without he
    have hget := get_hit h.represents he
    refine ⟨_, _, hget, h.represents.get hget, ?_, ?_⟩
    · exact fun a ha => h.frees a (hperm.mem_iff.mpr ha)
    · refine List.Perm.trans ?_ h.disposals
      exact (hperm.symm.flatMap_right _).append_left s.deleted
  · exact ⟨_, _, get_miss h.represents hkey, h⟩

theorem Tended.insert_present (h : Tended handles s) {e : Element Key} (he : e ∈ s.entries)
    (hroom : FindsRoom s (.insert e.first handle)) (hfrees : handle.frees = true) :
    ∃ t, s.insert e.first handle = .ok t ∧ s.evictions (.insert e.first handle) = [] ∧
      Tended (handles ++ [handle]) t := by
  have hidle : (if 0 < handle.totalCharge - e.second.totalCharge then
      s.evictForCharge (handle.totalCharge - e.second.totalCharge) else .ok s) = .ok s ∧
      s.evictions (.insert e.first handle) = [] := by
    simp only [evictions, h.represents.points e he, (h.represents.at_node he).1]
    by_cases hpos : 0 < handle.totalCharge - e.second.totalCharge
    · rw [if_pos hpos, if_pos hpos]
      exact (hroom.1 e he rfl hpos).idle
    · rw [if_neg hpos, if_neg hpos]
      exact ⟨rfl, rfl⟩
  have hover : overwrite e.node handle s = .ok
      {s with
        deleted := s.deleted ++ e.second.deletions true
        entries := {e with second := handle} :: s.without e.node} := overwrite_ok h.represents he
  obtain ⟨-, -, hperm⟩ := h.represents.without he
  refine ⟨_, ?_, hidle.2, h.represents.overwrite he hover, ?_, ?_⟩
  · rw [LRUCacheShard.insert_present h.represents he, hidle.1, ok_bind]
    exact hover
  · intro a ha
    rcases List.mem_cons.mp ha with rfl | ha
    · exact hfrees
    · exact h.frees a (hperm.mem_iff.mpr (List.mem_cons_of_mem e ha))
  · -- what the element held is deleted now, the new handle later
    have hsplit : (s.deleted ++ (e.second.deletions true ++
        (s.without e.node).flatMap fun a => a.second.deletions true)).Perm
        (handles.flatMap (·.deletions true)) :=
      ((hperm.symm.flatMap_right _).append_left s.deleted).trans h.disposals
    rw [List.flatMap_append, List.flatMap_singleton]
    show ((s.deleted ++ e.second.deletions true) ++ (handle.deletions true ++
      (s.without e.node).flatMap fun a => a.second.deletions true)).Perm _
    refine List.Perm.trans ?_ (hsplit.append_right _)
    rw [← List.append_assoc s.deleted, List.append_assoc (s.deleted ++ _)]
    exact List.perm_append_comm.append_left _

theorem Tended.insert_new (h : Tended handles s) (hkey : key ∉ s.entries.map (·.first))
    (hroom : FindsRoom s (.insert key handle)) (hfrees : handle.frees = true) :
    ∃ t, s.insert key handle = .ok t ∧ s.evictions (.insert key handle) = [] ∧
      Tended (handles ++ [handle]) t := by
  obtain ⟨hcharge, hplace⟩ := hroom.2 hkey
  refine ⟨s.emplaceFront key handle, ?_, ?_, h.represents.emplaceFront hkey, ?_, ?_⟩
  · rw [LRUCacheShard.insert_new h.represents hkey, hcharge.idle.1, ok_bind, hplace.idle.1]
    rfl
  · simp only [evictions, h.represents.lookup_none.mpr hkey, hcharge.idle.1, hcharge.idle.2,
      hplace.idle.2, List.append_nil]
  · intro a ha
    rcases List.mem_cons.mp ha with rfl | ha
    · exact hfrees
    · exact h.frees a ha
  · rw [List.flatMap_append, List.flatMap_singleton]
    show (s.deleted ++ (handle.deletions true ++
      s.entries.flatMap fun e => e.second.deletions true)).Perm _
    refine (List.perm_append_comm.append_left s.deleted).trans ?_
    rw [← List.append_assoc]
    exact h.disposals.append_right _

theorem Tended.step (h : Tended handles s) (hroom : FindsRoom s call)
    (hfrees : ∀ handle ∈ inserted [call], handle.frees = true) :
    ∃ t result, s.step call = .ok (t, result) ∧ s.evictions call = [] ∧
      Tended (handles ++ inserted [call]) t := by
  cases call with
  | get key =>
    obtain ⟨t, result, ht, htended⟩ := h.get key
    rw [inserted_get, List.append_nil]
    exact ⟨t, result, ht, rfl, htended⟩
  | insert key handle =>
    have hfree : handle.frees = true := hfrees handle (List.mem_singleton_self handle)
    have hinsert : ∃ t, s.insert key handle = .ok t ∧ s.evictions (.insert key handle) = [] ∧
        Tended (handles ++ [handle]) t := by
      by_cases hkey : key ∈ s.entries.map (·.first)
      · obtain ⟨e, he, rfl⟩ := List.mem_map.mp hkey
        exact h.insert_present he hroom hfree
      · exact h.insert_new hkey hroom hfree
    obtain ⟨t, ht, hnone, htended⟩ := hinsert
    exact ⟨t, none, step_insert ht, hnone, htended⟩

/-! ### What an eviction leaves -/

/-- A deleter has worked on an element that had left the list. -/
def Late (s : LRUCacheShard Key) : Prop := ∃ d ∈ s.deleted, d.alive = false

omit [DecidableEq Key] in
theorem Late.mono (h : Late s) (hsub : s.deleted ⊆ t.deleted) : Late t := by
  obtain ⟨d, hd, hdead⟩ := h
  exact ⟨d, hsub hd, hdead⟩

theorem keep_deleted (m : Nat) : s.deleted ⊆ (s.keep m).deleted := List.subset_append_left ..

theorem keep_late (hfrees : ∀ e ∈ s.entries, e.second.frees = true) (hm : m < s.entries.length) :
    Late (s.keep m) := by
  have hmem : s.entries[m] ∈ s.entries.drop m := by
    rw [List.drop_eq_getElem_cons hm]
    exact List.mem_cons_self
  refine ⟨⟨s.entries[m].second.delCb, s.entries[m].second.value, false⟩, ?_, rfl⟩
  refine List.mem_append_right _ (List.mem_flatMap.mpr ⟨s.entries[m], List.mem_reverse.mpr hmem, ?_⟩)
  rw [Handle.deletions_of_frees (hfrees _ (List.getElem_mem hm))]
  exact List.mem_singleton_self _

/-- Without room, the first loop evicts. -/
theorem evictForCharge_shrinks {need : UInt64} (hroom : ¬ HasCharge need s)
    (ht : s.evictForCharge need = .ok t) :
    ∃ m, m < s.entries.length ∧ t = s.keep m := by
  rcases s.evictForCharge_cases need with
    ⟨hcap, -⟩ | ⟨-, m, hm, hadmits, -, hevict⟩ | ⟨-, -, hevict⟩
  · exact absurd (.inl hcap) hroom
  · refine ⟨m, Nat.lt_of_le_of_ne hm ?_, (Except.ok.inj (hevict.symm.trans ht)).symm⟩
    rintro rfl
    have hfits := (overCharge_keep need).mpr hadmits
    rw [keep_all le_rfl] at hfits
    exact hroom (.inr hfits)
  · cases hevict.symm.trans ht

omit [DecidableEq Key] in
theorem room_lt (hplace : ¬ HasPlace s) : s.room < s.entries.length := by
  have hmax : s.maxEntryNum ≠ 0 := fun hmax => hplace (.inl hmax)
  have hpos := limit_pos hmax
  have hfull : s.maxEntryNum.toUInt64.toNat ≤ s.entries.length := by
    refine Nat.le_of_not_lt fun hlt => hplace (.inr ?_)
    exact decide_eq_false (Nat.not_le.mpr hlt)
  rw [room, if_neg hmax]
  omega

omit [DecidableEq Key] in
theorem overwrite_deleted {it : Nat} (ht : overwrite it handle s = .ok t) :
    s.deleted ⊆ t.deleted := by
  unfold overwrite at ht
  split at ht
  · cases ht
  · cases ht
    exact List.subset_append_left ..

/-- A call that finds no room and returns leaves a late deletion. -/
theorem Tended.insert_late (h : Tended handles s) (hroom : ¬ FindsRoom s (.insert key handle))
    (ht : s.insert key handle = .ok t) : Late t := by
  by_cases hkey : key ∈ s.entries.map (·.first)
  · obtain ⟨e, he, rfl⟩ := List.mem_map.mp hkey
    have hover : 0 < handle.totalCharge - e.second.totalCharge ∧
        ¬ HasCharge (handle.totalCharge - e.second.totalCharge) s := by
      refine Classical.not_imp.mp fun hfits => hroom ⟨fun e' he' hfirst => ?_, fun hnot => absurd hkey hnot⟩
      obtain rfl := List.inj_on_of_nodup_map h.represents.keys he' he hfirst
      exact hfits
    rw [LRUCacheShard.insert_present h.represents he, if_pos hover.1] at ht
    cases hevict : s.evictForCharge (handle.totalCharge - e.second.totalCharge) with
    | error fault =>
      rw [hevict] at ht
      cases ht
    | ok u =>
      rw [hevict, ok_bind] at ht
      obtain ⟨m, hm, rfl⟩ := evictForCharge_shrinks hover.2 hevict
      exact (keep_late h.frees hm).mono (overwrite_deleted ht)
  · have hlate : ∃ m, m ≤ s.entries.length ∧
        s.evictForCharge handle.totalCharge = .ok (s.keep m) ∧
        min m (s.keep m).room < s.entries.length := by
      by_cases hcharge : HasCharge handle.totalCharge s
      · have hplace : ¬ HasPlace s := fun hplace =>
          hroom ⟨fun e he hfirst => absurd (List.mem_map.mpr ⟨e, he, hfirst⟩) hkey,
            fun _ => ⟨hcharge, hplace⟩⟩
        refine ⟨s.entries.length, le_rfl, ?_, ?_⟩
        · rw [keep_all le_rfl]
          exact hcharge.idle.1
        · rw [keep_all le_rfl]
          exact Nat.lt_of_le_of_lt (Nat.min_le_right ..) (room_lt hplace)
      · cases hevict : s.evictForCharge handle.totalCharge with
        | error fault =>
          rw [LRUCacheShard.insert_new h.represents hkey, hevict] at ht
          cases ht
        | ok u =>
          obtain ⟨m, hm, rfl⟩ := evictForCharge_shrinks hcharge hevict
          exact ⟨m, hm.le, rfl, Nat.lt_of_le_of_lt (Nat.min_le_left ..) hm⟩
    obtain ⟨m, hm, hevict, hlt⟩ := hlate
    cases (insert_new_ok h.represents hkey hm hevict).symm.trans ht
    exact keep_late h.frees hlt

theorem Tended.step_late (h : Tended handles s) (hroom : ¬ FindsRoom s call)
    (ht : s.step call = .ok (t, result)) : Late t := by
  cases call with
  | get key => exact absurd trivial hroom
  | insert key handle =>
    obtain ⟨u, hinsert, heq⟩ := step_insert_ok ht
    cases heq
    exact h.insert_late hroom hinsert

theorem step_deleted (ht : s.step call = .ok (t, result)) : s.deleted ⊆ t.deleted := by
  have hcharge : ∀ {need : UInt64} {u : LRUCacheShard Key}, s.evictForCharge need = .ok u →
      s.deleted ⊆ u.deleted := by
    intro need u hu
    obtain ⟨m, -, rfl⟩ := evictForCharge_keep hu
    exact keep_deleted m
  cases call with
  | get key =>
    simp only [LRUCacheShard.step, LRUCacheShard.get] at ht
    split at ht
    · cases ht
      exact List.Subset.refl _
    · split at ht
      · cases ht
      · cases ht
        exact List.Subset.refl _
  | insert key handle =>
    obtain ⟨u, hinsert, heq⟩ := step_insert_ok ht
    cases heq
    unfold LRUCacheShard.insert at hinsert
    split at hinsert
    · split at hinsert
      · cases hinsert
      · obtain ⟨u, hevict, hover⟩ := bind_eq_ok hinsert
        split at hevict
        · exact List.Subset.trans (hcharge hevict) (overwrite_deleted hover)
        · cases hevict
          exact overwrite_deleted hover
    · obtain ⟨u, hevict, hrest⟩ := bind_eq_ok hinsert
      rw [evictForOccupancy_eq, ok_bind] at hrest
      cases hrest
      exact List.Subset.trans (hcharge hevict) (keep_deleted _)

/-! ### Every run -/

theorem run_deleted {calls : List (Call Key)} (hrun : s.run calls = .ok t) :
    s.deleted ⊆ t.deleted := by
  induction calls generalizing s with
  | nil =>
    cases hrun
    exact List.Subset.refl _
  | cons call calls ih =>
    obtain ⟨⟨u, result⟩, hstep, hrest⟩ := run_cons.mp hrun
    exact List.Subset.trans (step_deleted hstep) (ih hrest)

/-- A run whose calls find room returns, evicts nothing and keeps every value accounted
for. -/
theorem Tended.run {calls : List (Call Key)} (h : Tended handles s)
    (hfrees : ∀ handle ∈ inserted calls, handle.frees = true) (hroom : Along FindsRoom s calls) :
    (∃ t, s.run calls = .ok t ∧ Tended (handles ++ inserted calls) t) ∧
      Along (fun s call => ∀ u ∈ s.evictions call, Settles u) s calls := by
  induction calls generalizing s handles with
  | nil =>
    rw [inserted_nil, List.append_nil]
    exact ⟨⟨s, rfl, h⟩, trivial⟩
  | cons call calls ih =>
    have hcons : inserted (call :: calls) = inserted [call] ++ inserted calls :=
      inserted_append [call] calls
    rw [hcons] at hfrees ⊢
    obtain ⟨t, result, hstep, hnone, htended⟩ :=
      h.step hroom.1 fun handle hmem => hfrees handle (List.mem_append_left _ hmem)
    obtain ⟨⟨u, hrun, hu⟩, hsettles⟩ :=
      ih htended (fun handle hmem => hfrees handle (List.mem_append_right _ hmem)) (hroom.2 _ hstep)
    refine ⟨⟨u, run_cons.mpr ⟨_, hstep, hrun⟩, List.append_assoc .. ▸ hu⟩, ?_, fun r hr => ?_⟩
    · intro v hv
      rw [hnone] at hv
      cases hv
    · cases hstep.symm.trans hr
      exact hsettles

/-- A run that returns without a late deletion has found room for every call. -/
theorem Tended.roomy {calls : List (Call Key)} (h : Tended handles s)
    (hfrees : ∀ handle ∈ inserted calls, handle.frees = true) (hrun : s.run calls = .ok t)
    (hlive : ¬ Late t) : Along FindsRoom s calls := by
  induction calls generalizing s handles with
  | nil => trivial
  | cons call calls ih =>
    have hcons : inserted (call :: calls) = inserted [call] ++ inserted calls :=
      inserted_append [call] calls
    rw [hcons] at hfrees
    obtain ⟨⟨u, result⟩, hstep, hrest⟩ := run_cons.mp hrun
    have hroom : FindsRoom s call :=
      Classical.byContradiction fun hno => hlive ((h.step_late hno hstep).mono (run_deleted hrest))
    obtain ⟨v, _, hv, -, htended⟩ :=
      h.step hroom fun handle hmem => hfrees handle (List.mem_append_left _ hmem)
    cases hv.symm.trans hstep
    refine ⟨hroom, fun r hr => ?_⟩
    cases hstep.symm.trans hr
    exact ih htended (fun handle hmem => hfrees handle (List.mem_append_right _ hmem)) hrest

omit [DecidableEq Key] in
/-- With distinct values, the deletions of one are those of its own handle. -/
theorem filter_value {handles : List Handle} (hfrees : ∀ h ∈ handles, h.frees = true)
    (hdistinct : (handles.map (·.value)).Nodup) {h : Handle} (hmem : h ∈ handles) :
    (handles.flatMap (·.deletions true)).filter (·.value = h.value) =
      [⟨h.delCb, h.value, true⟩] := by
  have hmap : handles.flatMap (·.deletions true) =
      handles.map fun h => (⟨h.delCb, h.value, true⟩ : Deletion) := by
    rw [List.map_eq_flatMap]
    exact List.flatMap_congr fun h hmem => Handle.deletions_of_frees (hfrees h hmem) true
  obtain ⟨before, after, rfl⟩ := List.append_of_mem hmem
  rw [List.map_append, List.map_cons, List.nodup_append, List.nodup_cons] at hdistinct
  obtain ⟨-, ⟨hafter, -⟩, hbefore⟩ := hdistinct
  have hother : ∀ hs : List Handle, (∀ a ∈ hs, a.value ≠ h.value) →
      (hs.map fun h => (⟨h.delCb, h.value, true⟩ : Deletion)).filter (·.value = h.value) = [] := by
    intro hs hne
    refine List.filter_eq_nil_iff.mpr fun d hd => ?_
    obtain ⟨a, ha, rfl⟩ := List.mem_map.mp hd
    simpa using hne a ha
  rw [hmap, List.map_append, List.map_cons, List.filter_append,
    List.filter_cons_of_pos (by simp), hother before, hother after]
  · rfl
  · exact fun a ha heq => hafter (heq ▸ List.mem_map_of_mem ha)
  · exact fun a ha => hbefore _ (List.mem_map_of_mem ha) _ (List.mem_cons_self)

/-- **Who deletes the values of a shard.** Take a run, from construction to destruction, of
handles with distinct values and deleters. Each value is deleted exactly once, always on an
element that is still in the list, and every eviction subtracts the charge its element
came with, if and only if no call of the run evicts. -/
theorem disposes_iff (o : CacheSharedOptions) (calls : List (Call Key))
    (hfrees : ∀ handle ∈ inserted calls, handle.value.isSome ∧ handle.delCb.isSome)
    (hdistinct : ((inserted calls).map (·.value)).Nodup) :
    Disposes o calls ↔ Along FindsRoom (make o : LRUCacheShard Key) calls := by
  replace hfrees : ∀ handle ∈ inserted calls, handle.frees = true := fun handle hmem => by
    simp [Handle.frees, hfrees handle hmem]
  constructor
  · rintro ⟨s, hrun, -, hlive, -⟩
    refine (make_tended o).roomy hfrees hrun ?_
    rintro ⟨d, hd, hdead⟩
    have halive := hlive d (List.mem_append_left _ hd)
    rw [hdead] at halive
    cases halive
  · intro hroom
    obtain ⟨⟨s, hrun, htended⟩, hsettles⟩ := (make_tended o).run hfrees hroom
    have hperm := htended.disposals
    rw [List.nil_append] at hperm
    refine ⟨s, hrun, fun h hmem => ?_, fun d hd => ?_, hsettles⟩
    · have hfilter := hperm.filter fun d => decide (d.value = h.value)
      rw [filter_value hfrees hdistinct hmem] at hfilter
      exact List.perm_singleton.mp hfilter
    · obtain ⟨h, hmem, hdel⟩ := List.mem_flatMap.mp (hperm.subset hd)
      rw [Handle.deletions_of_frees (hfrees h hmem)] at hdel
      rw [List.mem_singleton.mp hdel]

/-- An update and two entries, with nothing to evict. -/
theorem disposes_update :
    Disposes ⟨10, 2, 0⟩ [Call.insert 1 ⟨some 1, some 9, 4⟩, .insert 2 ⟨some 2, some 9, 4⟩, .get 1,
      .insert 1 ⟨some 3, some 9, 6⟩] :=
  (disposes_iff ⟨10, 2, 0⟩ _ (by decide) (by decide)).mpr (by decide)

/-- The second of two entries evicts the first, which is then deleted out of the list. -/
theorem evicts_late :
    ¬ ∀ (o : CacheSharedOptions) (calls : List (Call Nat)),
      (∀ handle ∈ inserted calls, handle.value.isSome ∧ handle.delCb.isSome) →
      ((inserted calls).map (·.value)).Nodup → (∀ call ∈ calls, call.charge ≤ o.capacity) →
      Disposes o calls := by
  intro h
  obtain ⟨s, hrun, -, hlive, -⟩ := h ⟨10, 1, 0⟩
    [.insert 1 ⟨some 1, some 9, 4⟩, .insert 2 ⟨some 2, some 9, 4⟩] (by decide) (by decide) (by decide)
  have hdeleted : (s.destroy.deleted.all (·.alive)) = false := by
    cases hrun
    rfl
  rw [List.all_eq_true.mpr hlive] at hdeleted
  cases hdeleted

end LRUCacheShard
end HyperCache.Lru
