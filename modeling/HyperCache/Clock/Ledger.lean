import HyperCache.Clock.Ownership

/-! The life of a value, from the insertion that returns true to its deleter.

The ledger of a client lists the handles the cache accepted and the ones lookups returned
that are not released. Every accepted handle is an entry of the table or was freed, one
or the other (`Owned`), and the destructor frees the entries that are left. -/
namespace HyperCache.Clock
open ClockCache

/-- The cache, the handles of the insertions that returned true, and for each handle that a
lookup returned and that is not released its slot and what it held. -/
structure Ledger where
  cache : ClockCache
  accepted : List Handle
  handed : List (Nat × Handle)

namespace Ledger

def start (options : ClockCacheOptions) : Ledger := ⟨ClockCache.make options, [], []⟩

def call (l : Ledger) : Call → Option Ledger
  | .insert handle => do
    let (succ, c) ← l.cache.insert handle
    return {l with cache := c, accepted := if succ then handle :: l.accepted else l.accepted}
  | .lookup hashedKey => do
    let (e, c) ← l.cache.lookup hashedKey
    return {l with cache := c, handed := e.toList.map (fun h => (h, (c.slot h).toHandle)) ++ l.handed}
  | .release h =>
    if h ∈ l.handed.map (·.1) then
      some {l with cache := (l.cache.release h).2, handed := l.handed.eraseP fun p => p.1 = h}
    else none
  | .erase hashedKey => do
    let (_, c) ← l.cache.erase hashedKey
    return {l with cache := c}

def run (l : Ledger) (calls : List Call) : Option Ledger := calls.foldlM call l

/-- The client without its ledger. -/
def session (l : Ledger) : Session := ⟨l.cache, l.handed.map (·.1), fun _ => none⟩

/-- A call of the ledger is a call of the client. -/
theorem call_session {l l' : Ledger} {call : Call} (hcall : l.call call = some l') :
    ∃ latest, l.session.call call = some ⟨l'.cache, l'.handed.map (·.1), latest⟩ := by
  cases call with
  | insert handle =>
    obtain ⟨⟨ok, c⟩, hinsert, hcall⟩ := Option.bind_eq_some_iff.mp hcall
    cases hcall
    refine ⟨if ok then Function.update (fun _ => none) handle.hashedKey (some handle.value)
      else fun _ => none, ?_⟩
    simp only [Session.call, session, hinsert]
    rfl
  | lookup k =>
    obtain ⟨⟨e, c⟩, hlookup, hcall⟩ := Option.bind_eq_some_iff.mp hcall
    cases hcall
    refine ⟨fun _ => none, ?_⟩
    simp only [Session.call, session, hlookup]
    cases e with
    | none => rfl
    | some h => rfl
  | release h =>
    rw [Ledger.call] at hcall
    by_cases hheld : h ∈ l.handed.map (·.1)
    · rw [if_pos hheld] at hcall
      cases hcall
      have herase : (l.handed.map (·.1)).erase h =
          (l.handed.eraseP fun p => p.1 = h).map (·.1) := by
        rw [List.erase_eq_eraseP', List.eraseP_map]
        rfl
      refine ⟨fun _ => none, (if_pos hheld).trans ?_⟩
      rw [← herase]
      rfl
    · rw [if_neg hheld] at hcall
      cases hcall
  | erase k =>
    obtain ⟨⟨ok, c⟩, herase, hcall⟩ := Option.bind_eq_some_iff.mp hcall
    cases hcall
    refine ⟨Function.update (fun _ => none) k none, ?_⟩
    simp only [Session.call, session, herase]
    rfl

/-- Every accepted handle is an entry's or was freed, and a handle that a lookup returned
stays that of its entry. -/
structure Owned (l : Ledger) : Prop where
  balance : ∃ freed, (l.accepted : Multiset Handle) = l.cache.stored + freed ∧
    (l.cache.deleted : Multiset (DeleterFn × ObjectPtr)) = freed.filterMap Handle.callback
  handed : ∀ p ∈ l.handed, NonEmpty (l.cache.slot p.1) ∧ (l.cache.slot p.1).toHandle = p.2

theorem Owned.start (options : ClockCacheOptions) : Owned (start options) where
  balance := by
    refine ⟨0, ?_, rfl⟩
    have hempty : (ClockCache.make options).entries = ∅ := Session.make_entries
    show (0 : Multiset Handle) = (ClockCache.make options).stored + 0
    rw [stored, hempty]
    rfl
  handed := nofun

section Step
variable {n lookups inserts : Nat} {l l' : Ledger} {refs : Nat → Nat} {freed : Multiset Handle}

/-- Freed entries are still accounted for. -/
theorem Owned.balance_moves {c : ClockCache} (h : Owned l) (hmoves : Moves refs freed l.cache c) :
    ∃ all, (l.accepted : Multiset Handle) = c.stored + all ∧
      (c.deleted : Multiset (DeleterFn × ObjectPtr)) = all.filterMap Handle.callback := by
  obtain ⟨before, hbalance, hdeleted⟩ := h.balance
  refine ⟨freed + before, ?_, ?_⟩
  · rw [hbalance, hmoves.stored, Multiset.add_assoc]
  · rw [hmoves.deleted, hdeleted, Multiset.filterMap_add, Multiset.add_comm]

/-- A handle that is not released pins its entry. -/
theorem Owned.handed_moves {c : ClockCache} (h : Owned l)
    (hmoves : Moves (fun i => (l.handed.map (·.1)).count i) freed l.cache c) :
    ∀ p ∈ l.handed, NonEmpty (c.slot p.1) ∧ (c.slot p.1).toHandle = p.2 := by
  intro p hp
  obtain ⟨he, hh⟩ := h.handed p hp
  have hcount : 0 < (l.handed.map (·.1)).count p.1 :=
    List.count_pos_iff.mpr (List.mem_map_of_mem hp)
  obtain ⟨he', hh'⟩ := hmoves.held p.1 hcount he
  exact ⟨he', hh'.trans hh⟩

/-- **The step lemma**: a call keeps the ledger. -/
theorem Owned.call (h : Owned l) (hvalid : l.session.Valid n lookups inserts)
    (hlim : lookups + inserts + 1 < 2 ^ 30) {call : Call} (hcall : l.call call = some l') :
    Owned l' := by
  obtain ⟨latest, hsession⟩ := call_session hcall
  cases call with
  | insert handle =>
    obtain ⟨⟨ok, c⟩, hinsert, hcall⟩ := Option.bind_eq_some_iff.mp hcall
    cases hcall
    obtain ⟨ok', hinsert', -, hins⟩ := hvalid.insert_moves hlim hsession
    cases hinsert.symm.trans hinsert'
    cases hins with
    | failed hmoves => exact ⟨h.balance_moves hmoves, h.handed_moves hmoves⟩
    | placed hmoves hi hempty hadded hrest hroom =>
      rename_i i e
      obtain ⟨all, hbalance, hdeleted⟩ := h.balance_moves hmoves
      refine ⟨⟨all, ?_, ?_⟩, fun p hp => ?_⟩
      · show (handle ::ₘ (l.accepted : Multiset Handle)) = c.stored + all
        have hstored : c.stored = e.stored + {handle} := hadded.stored hi hempty
        rw [hbalance, hstored, ← Multiset.singleton_add, ← Multiset.add_assoc,
          Multiset.add_comm {handle}]
      · have hrest : c = {e with array := c.array} := hrest
        have hdel : c.deleted = e.deleted := by rw [hrest]
        show (c.deleted : Multiset (DeleterFn × ObjectPtr)) = _
        rw [hdel]
        exact hdeleted
      · obtain ⟨he, hh⟩ := h.handed_moves hmoves p hp
        have hne : p.1 ≠ i := by
          intro hpi
          rw [hpi] at he
          exact hempty (mem_entries.mpr ⟨hi, he⟩)
        obtain ⟨hw, hh'⟩ := hadded.other p.1 hne
        rw [NonEmpty, hw, hh']
        exact ⟨he, hh⟩
  | lookup k =>
    obtain ⟨⟨r, c⟩, hlookup, hcall⟩ := Option.bind_eq_some_iff.mp hcall
    cases hcall
    obtain ⟨hmoves, r', hlookup', -, hfound⟩ := hvalid.lookup_moves hlim hsession
    cases hlookup.symm.trans hlookup'
    refine ⟨h.balance_moves hmoves, fun p hp => ?_⟩
    rcases List.mem_append.mp hp with hp | hp
    · obtain ⟨i, hi, rfl⟩ := List.mem_map.mp hp
      exact ⟨(hfound i (Option.mem_toList.mp hi)).2, rfl⟩
    · exact h.handed_moves hmoves p hp
  | release i =>
    obtain ⟨hmoves, -⟩ := hvalid.release_moves hlim hsession
    rw [Ledger.call] at hcall
    split at hcall
    · cases hcall
      exact ⟨h.balance_moves hmoves, fun p hp => h.handed_moves hmoves p (List.mem_of_mem_eraseP hp)⟩
    · cases hcall
  | erase k =>
    obtain ⟨⟨ok, c⟩, herase, hcall⟩ := Option.bind_eq_some_iff.mp hcall
    cases hcall
    obtain ⟨-, freed, hmoves⟩ := hvalid.erase_moves hlim hsession
    exact ⟨h.balance_moves hmoves, h.handed_moves hmoves⟩

/-- **The run lemma.** -/
theorem Owned.run (h : Owned l) (hvalid : l.session.Valid n lookups inserts) (calls : List Call)
    (hlim : lookups + inserts + calls.length < 2 ^ 30) (hrun : l.run calls = some l') :
    Owned l' ∧ ∃ lookups inserts, lookups + inserts < 2 ^ 30 ∧ l'.session.Valid n lookups inserts := by
  induction calls generalizing lookups inserts l with
  | nil =>
    cases hrun
    exact ⟨h, lookups, inserts, by omega, hvalid⟩
  | cons call calls ih =>
    rw [List.length_cons] at hlim
    obtain ⟨l₁, hcall, hrun⟩ := Option.bind_eq_some_iff.mp hrun
    obtain ⟨latest, hsession⟩ := call_session hcall
    obtain ⟨lookups', inserts', hle, hvalid'⟩ := hvalid.call (by omega) hsession
    exact ih (h.call hvalid (by omega) hcall) ⟨hvalid'.table, hvalid'.held, hvalid'.inTable,
      hvalid'.population, hvalid'.delta, hvalid'.occupancy, hvalid'.usage⟩ (by omega) hrun

end Step

end Ledger

/-! ### The destructor -/

namespace ClockCache

theorem freeData_eq (c : ClockCache) {i : Nat} (hi : i < c.array.length) :
    ∃ h, c.freeData i = {c.setSlot i h with
      deleted := c.deleted ++ ((c.slot i).toHandle.callback).toList} := by
  by_cases hd : (c.slot i).delCb ≠ 0 ∧ (c.slot i).value ≠ 0
  · refine ⟨{c.slot i with value := 0}, ?_⟩
    rw [freeData, if_pos hd, Handle.callback, if_pos hd]
    rfl
  · refine ⟨c.slot i, ?_⟩
    rw [freeData, if_neg hd, Handle.callback, if_neg hd, setSlot_slot c hi, Option.toList_none,
      List.append_nil]

/-- The cache after the slots before `i` were destroyed. -/
structure Destroyed (i : Nat) (c d : ClockCache) : Prop where
  length : d.length = c.length
  size : d.array.length = c.array.length
  ahead : ∀ j, i ≤ j → (d.slot j).metaWord = (c.slot j).metaWord ∧
    (d.slot j).toHandle = (c.slot j).toHandle
  deleted : d.deleted = c.deleted ++
    (((List.range i).filter fun j => NonEmpty (c.slot j)).map fun j => (c.slot j).toHandle).filterMap
      Handle.callback

theorem Destroyed.step {n calls refs : Nat} {c d : ClockCache} (hc : Sized n c) {i : Nat}
    (h : Destroyed i c d) (hi : i < c.length.toNat) (hw : Word calls refs (c.slot i).metaWord)
    (hlim : calls < 2 ^ 30) (hrefs : refs ≤ calls) :
    ∃ e, d.destroySlot i = some e ∧ Destroyed (i + 1) c e := by
  have hd : Sized n d := hc.congr h.length h.size
  have hid : i < d.length.toNat := by rwa [h.length]
  obtain ⟨hword, hhandle⟩ := h.ahead i (Nat.le_refl i)
  cases hw with
  | empty stray hs hr hw =>
    have hst : state (c.slot i).metaWord = kStateEmpty := by rw [hw, state_empty (by omega)]
    have hempty : decide (NonEmpty (c.slot i)) = false := decide_eq_false (not_not.mpr hst)
    refine ⟨d, ?_, h.length, h.size, fun j hj => h.ahead j (by omega), ?_⟩
    · rw [destroySlot, hword, if_pos hst]
    · rw [h.deleted, List.range_succ, List.filter_append, List.filter_singleton, hempty]
      simp
  | entry st hits hst hhits hw =>
    have hstate : state (c.slot i).metaWord = UInt64.ofNat st := by
      rw [hw, state_pack (fits_entry hst (by omega) (by omega))]
    have hshare : state (c.slot i).metaWord = kStateInvisible ∨
        state (c.slot i).metaWord = kStateVisible := by
      rw [hstate]
      obtain rfl | rfl := hst
      · exact .inl rfl
      · exact .inr rfl
    have hentry : NonEmpty (c.slot i) := by
      rcases hshare with hst | hst
      · exact fun he => invisible_ne_empty (hst.symm.trans he)
      · exact fun he => visible_ne_empty (hst.symm.trans he)
    obtain ⟨s, hfree⟩ := d.freeData_eq (hd.lt_size.mpr hid)
    have hlen : (d.freeData i).length = d.length := by
      rw [hfree]
      rfl
    have hsize : (d.freeData i).array.length = d.array.length := by
      rw [hfree]
      exact setSlot_size d i s
    have hsized : Sized n (d.freeData i) := hd.congr hlen hsize
    have hslot : ∀ j, j ≠ i → (d.freeData i).slot j = d.slot j := by
      intro j hj
      rw [hfree]
      exact slot_setSlot_of_ne d s hj
    generalize hpath : (d.freeData i).probesBefore ((d.freeData i).slot i).hashedKey i = path
    have hback := rollback_eq hsized.length ((d.freeData i).slot i).hashedKey (by rwa [hlen] : i < _)
    rw [hpath] at hback
    obtain ⟨array, hrest, hsame⟩ := (d.freeData i).displaceAll_rest path (-1)
    refine ⟨((d.freeData i).displaceAll path (-1)).reclaimEntryUsage
      (((d.freeData i).displaceAll path (-1)).slot i).totalCharge, ?_, ?_, ?_, ?_, ?_⟩
    · rw [destroySlot, hword, if_neg hentry, if_pos hshare]
      simp only [hback]
      rfl
    · rw [hrest]
      exact hlen.trans h.length
    · rw [hrest]
      exact hsame.trans (hsize.trans h.size)
    · intro j hj
      have hmoved := slot_displaceAll (d.freeData i) j (-1) (hpath ▸ hsized.probesBefore_nodup _ i)
        (fun hm => hsized.lt_size.mpr (probesBefore_lt (hpath ▸ hm)))
      obtain ⟨hwj, hhj⟩ := h.ahead j (by omega)
      show ((((d.freeData i).displaceAll path (-1)).slot j).metaWord = _ ∧
        (((d.freeData i).displaceAll path (-1)).slot j).toHandle = _)
      rw [hmoved, hslot j (by omega), ← hwj, ← hhj]
      split
      · exact ⟨rfl, rfl⟩
      · exact ⟨rfl, rfl⟩
    · have hdel : (d.freeData i).deleted = d.deleted ++ ((c.slot i).toHandle.callback).toList := by
        rw [hfree, hhandle]
      rw [hrest]
      show (d.freeData i).deleted = _
      rw [hdel, h.deleted, List.range_succ, List.filter_append, List.filter_singleton,
        decide_eq_true hentry, List.append_assoc]
      cases hcb : (c.slot i).toHandle.callback <;> simp [hcb]

/-- **The destructor frees the entries**, each once. -/
theorem destroy_spec {n calls : Nat} {refs : Nat → Nat} {c : ClockCache} (h : Table n calls refs c)
    (hlim : calls < 2 ^ 30) : ∃ d, c.destroy = some d ∧
      (d.deleted : Multiset (DeleterFn × ObjectPtr)) =
        c.deleted + c.stored.filterMap Handle.callback := by
  have hloop : ∀ i, i ≤ c.length.toNat → ∃ d, (List.range i).foldlM destroySlot c = some d ∧
      Destroyed i c d := by
    intro i
    induction i with
    | zero => exact fun _ => ⟨c, rfl, rfl, rfl, fun _ _ => ⟨rfl, rfl⟩, (List.append_nil _).symm⟩
    | succ i ih =>
      intro hi
      obtain ⟨d, hfold, hd⟩ := ih (by omega)
      obtain ⟨e, hstep, he⟩ := hd.step h.toSized hi (h.word i hi) hlim (h.held i)
      refine ⟨e, ?_, he⟩
      rw [List.range_succ, List.foldlM_append, hfold]
      show [i].foldlM destroySlot d = some e
      rw [List.foldlM_cons, hstep]
      rfl
  obtain ⟨d, hfold, hd⟩ := hloop c.length.toNat (Nat.le_refl _)
  refine ⟨d, hfold, ?_⟩
  rw [hd.deleted, ← Multiset.coe_add, h.length, ← h.size]
  rfl

end ClockCache

namespace Ledger

/-- Handles whose values the deleter is called for. -/
theorem filterMap_callback {s : Multiset Handle} (hfree : ∀ h ∈ s, h.value ≠ 0 ∧ h.delCb ≠ 0) :
    s.filterMap Handle.callback = s.map fun h => (h.delCb, h.value) := by
  induction s using Multiset.induction_on with
  | empty => rfl
  | cons h s ih =>
    obtain ⟨hvalue, hcb⟩ := hfree h (Multiset.mem_cons_self h s)
    have hsome : h.callback = some (h.delCb, h.value) := if_pos ⟨hcb, hvalue⟩
    rw [Multiset.filterMap_cons_some _ h s hsome, Multiset.map_cons,
      ih fun a ha => hfree a (Multiset.mem_cons_of_mem ha)]

/-- **Every accepted value is freed once, and none under a handle.** Between the calls of a
run no value has been freed twice, and none that was not accepted or that a handle is held
on; after the destructor every accepted value has been. -/
theorem run_frees {options : ClockCacheOptions} {n : Nat} (hlen : options.length.toNat = 2 ^ n)
    {calls : List Call} (hcalls : calls.length < 2 ^ 30) {l : Ledger}
    (hrun : (start options).run calls = some l) (hdistinct : (l.accepted.map (·.value)).Nodup)
    (hfree : ∀ h ∈ l.accepted, h.value ≠ 0 ∧ h.delCb ≠ 0) :
    (l.cache.deleted.map (·.2)).Nodup ∧
    (∀ p ∈ l.cache.deleted, ∃ h ∈ l.accepted, p = (h.delCb, h.value)) ∧
    (∀ p ∈ l.handed, ∀ q ∈ l.cache.deleted, q.2 ≠ p.2.value) ∧
    ∃ d, l.cache.destroy = some d ∧
      d.deleted.Perm (l.accepted.map fun h => (h.delCb, h.value)) := by
  obtain ⟨howned, lookups, inserts, hlt, hvalid⟩ :=
    (Owned.start options).run (Session.Valid.start hlen) calls (by omega) hrun
  obtain ⟨freed, hbalance, hdeleted⟩ := howned.balance
  have hfreed : ∀ h ∈ freed, h ∈ l.accepted := fun h hf => by
    rw [← Multiset.mem_coe, hbalance]
    exact Multiset.mem_add.mpr (.inr hf)
  have hvalues : (l.accepted.map (·.value) : Multiset ObjectPtr) =
      l.cache.stored.map (·.value) + freed.map (·.value) := by
    rw [← Multiset.map_coe, hbalance, Multiset.map_add]
  have hnodup : (l.cache.stored.map (·.value) + freed.map (·.value)).Nodup :=
    hvalues ▸ Multiset.coe_nodup.mpr hdistinct
  obtain ⟨-, hfreedNodup, hdisjoint⟩ := Multiset.nodup_add.mp hnodup
  rw [filterMap_callback fun h hf => hfree h (hfreed h hf)] at hdeleted
  have hmem : ∀ p ∈ l.cache.deleted, ∃ h ∈ freed, (h.delCb, h.value) = p := fun p hp =>
    Multiset.mem_map.mp (hdeleted ▸ Multiset.mem_coe.mpr hp)
  refine ⟨?_, ?_, ?_, ?_⟩
  · rw [← Multiset.coe_nodup, ← Multiset.map_coe, hdeleted, Multiset.map_map]
    exact hfreedNodup
  · intro p hp
    obtain ⟨h, hf, heq⟩ := hmem p hp
    exact ⟨h, hfreed h hf, heq.symm⟩
  · intro p hp q hq heq
    obtain ⟨h, hf, rfl⟩ := hmem q hq
    obtain ⟨he, hp'⟩ := howned.handed p hp
    have hin : p.1 < l.cache.array.length :=
      hvalid.table.lt_size.mpr (hvalid.inTable p.1 (List.mem_map_of_mem hp))
    have hstored : p.2.value ∈ l.cache.stored.map (·.value) :=
      Multiset.mem_map_of_mem _ (hp' ▸ mem_stored hin he)
    exact Multiset.disjoint_left.mp hdisjoint hstored (heq ▸ Multiset.mem_map_of_mem _ hf)
  · obtain ⟨d, hdestroy, hd⟩ : ∃ d, l.cache.destroy = some d ∧
        (d.deleted : Multiset (DeleterFn × ObjectPtr)) =
          l.cache.deleted + l.cache.stored.filterMap Handle.callback :=
      destroy_spec hvalid.table (by omega)
    refine ⟨d, hdestroy, ?_⟩
    rw [← Multiset.coe_eq_coe, hd, hdeleted, ← Multiset.map_coe, hbalance, Multiset.map_add,
      filterMap_callback fun h hs => hfree h ?_, Multiset.add_comm]
    rw [← Multiset.mem_coe, hbalance]
    exact Multiset.mem_add.mpr (.inl hs)

/-- An entry hidden under a handle, evictions, an insertion that fails and is tried again, and
an update: the hidden entry and the last one are left to the destructor. -/
theorem run_frees_retried : ∃ l, (start ⟨3, 4, 0, 4, 1⟩).run
    [.insert ⟨10, 1, (0, 0), 1⟩, .insert ⟨20, 1, (2, 4), 1⟩, .lookup (2, 4), .erase (2, 4),
      .insert ⟨30, 1, (0, 8), 2⟩, .insert ⟨50, 1, (0, 3), 3⟩, .release 3,
      .insert ⟨50, 1, (0, 3), 1⟩, .insert ⟨40, 1, (0, 3), 1⟩] = some l ∧
    (l.cache.deleted.map (·.2)).Nodup ∧ ∃ d, l.cache.destroy = some d ∧
      d.deleted.Perm (l.accepted.map fun h => (h.delCb, h.value)) := by
  have hany : ((start ⟨3, 4, 0, 4, 1⟩).run
      [.insert ⟨10, 1, (0, 0), 1⟩, .insert ⟨20, 1, (2, 4), 1⟩, .lookup (2, 4), .erase (2, 4),
        .insert ⟨30, 1, (0, 8), 2⟩, .insert ⟨50, 1, (0, 3), 3⟩, .release 3,
        .insert ⟨50, 1, (0, 3), 1⟩, .insert ⟨40, 1, (0, 3), 1⟩]).any (fun l =>
      (l.accepted.map (·.value)).Nodup ∧ ∀ h ∈ l.accepted, h.value ≠ 0 ∧ h.delCb ≠ 0) = true := by
    decide +kernel
  obtain ⟨l, hrun, hl⟩ := (Option.any_eq_true _ _).mp hany
  obtain ⟨hdistinct, hfree⟩ := of_decide_eq_true hl
  obtain ⟨honce, -, -, hdestroy⟩ := run_frees (n := 2) rfl (by decide) hrun hdistinct hfree
  exact ⟨l, hrun, honce, hdestroy⟩

end Ledger

end HyperCache.Clock
