import HyperCache.HashSkip.Capacity
import HyperCache.HashSkip.History
import Mathlib.Algebra.BigOperators.Group.Finset.Basic
import Mathlib.Algebra.Order.BigOperators.Group.Finset
import Mathlib.Data.Fintype.EquivFin

/-! What `memory_used_` counts.

`Insert` adds the charge that it stores and subtracts the one that it replaces, and a decay
subtracts what it deletes. But `Evict` adds what it frees, and a compaction leaves the
handles of marked nodes and of `tail_` behind without a word. So `memory_used_` is the charge
of all handles in the buckets, and on top twice what was evicted and once what was left
behind (`run_memory`): never less than what `Get` can return, and no more only if nothing
was evicted or left behind and no marked node has a handle (`run_memory_exact_iff`).

In the code the counter is an `int64_t`. It grows with every eviction, so a run that is long
enough wraps it; the results are about runs whose sums it can hold (`SumsHold`). -/
namespace HyperCache.HashSkip

noncomputable instance keyFintype : Fintype Int64 :=
  Fintype.ofInjective (fun key : Int64 => key.toBitVec.toFin) fun _ _ h =>
    Int64.toBitVec_inj.mp (BitVec.toFin_inj.mp h)

namespace AtomicSkipList
open HashSkipCache (charge freed lapsed)

/-- The charge of what is stored in a slot. -/
def slotCharge (s : Option (Bool × Option Handle)) : Int := (charge (s.bind Prod.snd)).toInt

section Slots
variable {l l' : AtomicSkipList} {as bs : List Nat} {a : Nat} {key : Int64}

/-- What `Insert` returns is what the slot had. -/
theorem insert_old (h : Listed l as) {handle : Handle} {topLevel : Fin (maxLevel + 1)} {old : Option Handle}
    (hinsert : l.insert key (some handle) [topLevel.val] = some (old, l')) :
    old = (l.slot key).bind Prod.snd := by
  rcases insert_cases h key handle (Nat.le_of_lt_succ topLevel.isLt) [] with
    ⟨a, ha, rfl, hfound⟩ | ⟨habsent, p, l₁, as', -, hlinked⟩
  · cases hfound.symm.trans hinsert
    rw [slot_of_mem h ha, Option.bind_some]
  · cases hlinked.symm.trans hinsert
    rw [slot_of_absent h habsent, Option.bind_none]

/-- A copy has no key that the old list has not, but that of `tail_`. -/
theorem Copied.slot_ne_none (h : Copied l as l' bs) (hl : Listed l as) (hslot : l'.slot key ≠ none) :
    key = Int64.maxValue ∨ l.slot key ≠ none := by
  rcases mem_or_absent l' bs key with ⟨b, hb, rfl⟩ | habsent
  · rcases List.mem_append.mp hb with hm | hm
    · obtain ⟨-, a, ha, hkey, -⟩ := h.live b hm
      right
      rw [← hkey, slot_of_mem hl (List.mem_append_left _ ha)]
      exact Option.some_ne_none _
    · rw [List.mem_singleton.mp hm, h.formed.listed.tail_key]
      exact .inl rfl
  · exact absurd (slot_of_absent h.formed.listed habsent) hslot

/-- The keys of a list, each once. -/
theorem Listed.keys_nodup (h : Listed l as) : (as.map fun a => (l.node a).key).Nodup := by
  refine (List.nodup_map_iff_inj_on h.nodup).mpr fun a ha b hb hkey => ?_
  exact h.eq_of_key (List.mem_append_left _ ha) (List.mem_append_left _ hb) hkey

/-- A sum over all keys that only those of the nodes count in. -/
theorem Listed.sum_keys (h : Listed l as) {g : Int64 → Int}
    (hzero : ∀ key, (∀ a ∈ as, (l.node a).key ≠ key) → g key = 0) :
    ∑ key, g key = (as.map fun a => g (l.node a).key).sum := by
  have hsub : ∑ key ∈ (as.map fun a => (l.node a).key).toFinset, g key = ∑ key, g key := by
    refine Finset.sum_subset (Finset.subset_univ _) fun key _ hkey => hzero key fun a ha heq => ?_
    exact hkey (List.mem_toFinset.mpr (List.mem_map.mpr ⟨a, ha, heq⟩))
  rw [← hsub, List.sum_toFinset _ h.keys_nodup, List.map_map]
  rfl

end Slots

end AtomicSkipList

namespace HashSkipCache
open AtomicSkipList (slotCharge Listed Usable Copied shown tail)

/-- The charges of all handles in the cache. -/
noncomputable def held (c : HashSkipCache) : Int := ∑ key, slotCharge (c.slot key)

/-- The charges of all handles that `Get` would return. -/
noncomputable def shownCharge (c : HashSkipCache) : Int := ∑ key, (charge (c.view key)).toInt

/-- What a compaction of bucket `i` leaves behind. -/
def leftBehind (c : HashSkipCache) (i : Nat) (key : Int64) : Bool :=
  c.bucketIndex key = i && (c.keyMarked key || key = Int64.maxValue)

/-- What a call adds to `memory_used_` beyond what it adds to the buckets. -/
noncomputable def drift (c : HashSkipCache) : Call → Int
  | .insert _ handle _ => 2 * ∑ key with c.dropped (c.room handle) key, slotCharge (c.slot key)
  | .compact i levels =>
    if ((c.compactOneBucket i levels).getD none).isSome then
      ∑ key with c.leftBehind i key, slotCharge (c.slot key)
    else 0
  | _ => 0

/-- Each key is in its own bucket; the key of `tail_` is in all. -/
def Placed (c : HashSkipCache) : Prop :=
  ∀ i l, c.buckets i = some l → ∀ key, l.slot key ≠ none → key = Int64.maxValue ∨ c.bucketIndex key = i

/-- All charges are positive. -/
def Charged (c : HashSkipCache) : Prop :=
  ∀ key marked handle, c.slot key = some (marked, some handle) → 0 < handle.charge

/-- A cache between calls, with keys in their buckets and positive charges. -/
structure Booked (n : Nat) (c : HashSkipCache) : Prop where
  ready : c.Ready n
  placed : c.Placed
  charged : c.Charged

section Steps
variable {n : Nat} {c c' : HashSkipCache} {i : Nat} {l l' : AtomicSkipList} {as : List Nat} {key : Int64}

theorem Charged.nonneg (h : c.Charged) (key : Int64) : 0 ≤ slotCharge (c.slot key) := by
  have hcharged := h key
  revert hcharged
  rcases c.slot key with _ | ⟨marked, _ | handle⟩
  · exact fun _ => Int.le_refl 0
  · exact fun _ => Int.le_refl 0
  · exact fun hcharged => Int.le_of_lt (Int32.lt_iff_toInt_lt.mp (hcharged marked handle rfl))

/-- A charge that is not negative is freed in full. -/
theorem freed_of_charged {handle : Option Handle} (h : 0 ≤ (charge handle).toInt) :
    freed (charge handle) = charge handle := by
  rw [freed]
  split
  · rfl
  next hpos =>
    have hle : (charge handle).toInt ≤ 0 := Int.not_lt.mp fun hlt => hpos (Int32.lt_iff_toInt_lt.mpr hlt)
    have hzero : (charge handle).toInt = (0 : Int32).toInt := Int.le_antisymm hle h
    exact (Int32.toInt_inj.mp hzero).symm

theorem Placed.setBucket (h : c.Placed)
    (hl : ∀ key, l.slot key ≠ none → key = Int64.maxValue ∨ c.bucketIndex key = i) :
    (c.setBucket i l).Placed := by
  intro j m hm
  by_cases hj : j = i
  · subst hj
    rw [setBucket_self] at hm
    cases hm
    exact hl
  · rw [setBucket_of_ne c l hj] at hm
    exact h j m hm

/-- What fades keeps its key. -/
theorem Placed.fades (h : c.Placed) (hbucket : c.buckets i = some l) (hfades : AtomicSkipList.Fades l l')
    (key : Int64) (hslot : l'.slot key ≠ none) : key = Int64.maxValue ∨ c.bucketIndex key = i := by
  refine h i l hbucket key fun hnone => hslot ?_
  rcases hfades key with hsame | ⟨⟨handle, hlive⟩, -⟩
  · exact hsame.trans hnone
  · cases hlive.symm.trans hnone

theorem Charged.fades (h : c.Charged) (hfades : Fades c c') : c'.Charged := by
  intro key marked handle hslot
  rcases hfades key with hsame | ⟨-, hgone⟩
  · exact h key marked handle (hsame.symm.trans hslot)
  · cases hgone.symm.trans hslot

/-- One key counts differently. -/
theorem held_change (hother : ∀ k ≠ key, slotCharge (c'.slot k) = slotCharge (c.slot k)) :
    c'.held = c.held - slotCharge (c.slot key) + slotCharge (c'.slot key) := by
  have hrest : ∑ k ∈ Finset.univ.erase key, slotCharge (c'.slot k) =
      ∑ k ∈ Finset.univ.erase key, slotCharge (c.slot k) :=
    Finset.sum_congr rfl fun k hk => hother k (Finset.ne_of_mem_erase hk)
  have hbefore := Finset.add_sum_erase Finset.univ (fun k => slotCharge (c.slot k)) (Finset.mem_univ key)
  have hafter := Finset.add_sum_erase Finset.univ (fun k => slotCharge (c'.slot k)) (Finset.mem_univ key)
  rw [held, held, ← hbefore, ← hafter, hrest]
  omega

/-- **What fades is dropped**, with its charge. -/
theorem Fades.held (h : Fades c c') :
    c'.held = c.held - ∑ key with c.dropped (some c') key, slotCharge (c.slot key) := by
  rw [HashSkipCache.held, HashSkipCache.held, Finset.sum_filter, ← Finset.sum_sub_distrib]
  refine Finset.sum_congr rfl fun key _ => ?_
  rcases h.dropped key with ⟨hkept, hsame⟩ | ⟨hlost, hgone⟩
  · rw [hkept, if_neg Bool.false_ne_true, hsame, Int.sub_zero]
  · rw [hlost, if_pos rfl, hgone, Int.sub_self]
    rfl

/-- The slot of a node in its bucket. -/
theorem Booked.slot_node (h : c.Booked n) (hbucket : c.buckets i = some l) (hl : Usable l as) {a : Nat}
    (ha : a ∈ as) : c.bucketIndex (l.node a).key = i ∧
      c.slot (l.node a).key = some ((l.node a).isMarked, (l.node a).handle) := by
  have hslot := AtomicSkipList.slot_of_mem hl.formed.listed (List.mem_append_left [tail] ha)
  have hi : c.bucketIndex (l.node a).key = i := by
    refine (h.placed i l hbucket _ ?_).resolve_left (hl.formed.listed.key_ne ha)
    rw [hslot]
    exact Option.some_ne_none _
  exact ⟨hi, (slot_of_bucket hbucket hi).trans hslot⟩

theorem EvictStep.booked (h : EvictStep c c') (hc : c.Booked n) : c'.Booked n := by
  refine ⟨h.ready hc.ready, ?_, hc.charged.fades h.fades⟩
  cases h with
  | pop q hq => exact hc.placed
  | mark i l as a hbucket hl ha hmark =>
    exact hc.placed.setBucket (hc.placed.fades hbucket (hl.markNode ha hmark).2)

/-- **A turn of `Evict`** adds to `memory_used_` what it takes from the buckets. -/
theorem EvictStep.memory (h : EvictStep c c') (hc : c.Booked n) :
    c'.memoryUsed + c'.held = c.memoryUsed + c.held := by
  cases h with
  | pop q hq => rfl
  | mark i l as a hbucket hl ha hmark =>
    obtain ⟨hi, hslot⟩ := hc.slot_node hbucket hl ha
    have hfree : (l.markNode a).1 = charge (l.node a).handle := by
      rw [AtomicSkipList.markNode_eq]
      exact (AtomicSkipList.markDeleted_unmarked hmark).1
    have hpos : 0 ≤ (charge (l.node a).handle).toInt := by
      have hnonneg := hc.charged.nonneg (l.node a).key
      rw [hslot] at hnonneg
      exact hnonneg
    have hafter : ∀ k, (c.setBucket i (l.markNode a).2).slot k =
        if k = (l.node a).key then some (true, none) else c.slot k := by
      intro k
      rw [slot_setBucket, hl.markNode_slot ha hmark]
      by_cases hk : k = (l.node a).key
      · rw [if_pos hk, hk, if_pos hi, Function.update_self]
      · rw [if_neg hk, Function.update_of_ne hk]
        split
        next hi => exact (slot_of_bucket hbucket hi).symm
        next => rfl
    have hchange : (c.setBucket i (l.markNode a).2).held = c.held - slotCharge (c.slot (l.node a).key) +
        slotCharge ((c.setBucket i (l.markNode a).2).slot (l.node a).key) :=
      held_change fun k hk => by rw [hafter, if_neg hk]
    rw [hafter, if_pos rfl, hslot] at hchange
    have hmemory : c.memoryUsed + (freed (l.markNode a).1).toInt = c.memoryUsed + (charge (l.node a).handle).toInt := by
      rw [hfree, freed_of_charged hpos]
    show c.memoryUsed + (freed (l.markNode a).1).toInt + (c.setBucket i (l.markNode a).2).held = _
    rw [hmemory, hchange]
    show c.memoryUsed + (charge (l.node a).handle).toInt + (c.held - (charge (l.node a).handle).toInt + 0) = _
    omega

theorem Evicts.booked (h : Evicts c c') (hc : c.Booked n) :
    c'.Booked n ∧ c'.memoryUsed + c'.held = c.memoryUsed + c.held := by
  induction h with
  | refl => exact ⟨hc, rfl⟩
  | tail _ hstep ih => exact ⟨hstep.booked ih.1, (hstep.memory ih.1).trans ih.2⟩

theorem Booked.get (h : c.Booked n) {found : Option Handle} (hrun : c.get key = some (found, c')) :
    c'.Booked n ∧ c'.memoryUsed = c.memoryUsed ∧ c'.held = c.held := by
  obtain ⟨c₁, hget, hready, hslot⟩ := h.ready.get key
  cases hget.symm.trans hrun
  have hheld : c'.held = c.held := by rw [held, hslot, held]
  have hcharged : c'.Charged := fun k marked handle hk => h.charged k marked handle (hslot ▸ hk)
  rcases get_cases hrun with ⟨-, -, rfl⟩ | ⟨l, l', hbucket, hfound, rfl⟩
  · exact ⟨h, rfl, rfl⟩
  · obtain ⟨as, hl⟩ := h.ready.lists _ l hbucket
    obtain ⟨l₁, hl₁, -, hsame⟩ := hl.get key
    obtain ⟨-, rfl⟩ := Prod.mk.inj (Option.some.inj (hl₁.symm.trans hfound))
    refine ⟨⟨hready, h.placed.setBucket fun k hk => ?_, hcharged⟩, rfl, hheld⟩
    rw [hsame] at hk
    exact h.placed _ l hbucket k hk

/-- **`Insert`** books what it stores and what it replaces. -/
theorem Booked.store (h : c.Booked n) {handle : Option Handle} {topLevel : Fin (maxLevel + 1)} {stored : Bool}
    (hpos : ∀ x ∈ handle, 0 < x.charge) (hrun : c.store key handle [topLevel.val] = some (stored, c')) :
    c'.Booked n ∧ c'.memoryUsed - c'.held = c.memoryUsed - c.held := by
  obtain ⟨c₁, hstore, hready, hslot⟩ := h.ready.store key handle topLevel
  cases hstore.symm.trans hrun
  rcases store_cases hrun with ⟨-, hfalse, -⟩ | ⟨l, old, l', hbucket, hinsert, -, hc'⟩
  · cases hfalse
  obtain ⟨as, hl⟩ := h.ready.lists _ l hbucket
  cases handle with
  | none =>
    cases hinsert
    have hsame : c'.slot = c.slot := hslot
    have hmemory : c'.memoryUsed = c.memoryUsed := by rw [hc']; exact Int.add_zero _
    refine ⟨⟨hready, ?_, fun k marked x hk => h.charged k marked x (hsame ▸ hk)⟩, by rw [hmemory, held, hsame, held]⟩
    rw [hc']
    exact h.placed.setBucket (h.placed _ l hbucket)
  | some handle =>
    obtain ⟨old', l₁, as', hinsert', -, hstored⟩ := hl.insert key handle topLevel
    cases hinsert.symm.trans hinsert'
    have hold := AtomicSkipList.insert_old hl.formed.listed hinsert
    have hslot : Stored c key handle c' := hslot
    have hself : slotCharge (c'.slot key) = (charge (some handle)).toInt := by rw [hslot.self]; rfl
    have hwas : slotCharge (c.slot key) = (charge old).toInt := by
      rw [hold, slotCharge, slot_of_bucket hbucket rfl]
    have hchange : c'.held = c.held - slotCharge (c.slot key) + slotCharge (c'.slot key) := by
      refine held_change fun k hk => ?_
      rcases hslot.other k hk with hsame | ⟨x, hwas, his⟩
      · rw [hsame]
      · rw [hwas, his]
        rfl
    have hposold : ∀ x ∈ old, 0 < x.charge := by
      intro x hx
      rw [hold, Option.mem_def, Option.bind_eq_some_iff] at hx
      obtain ⟨⟨marked, found⟩, hslotold, rfl⟩ := hx
      exact h.charged key marked x ((slot_of_bucket hbucket rfl).trans hslotold)
    have hmemory : c'.memoryUsed = c.memoryUsed + ((charge (some handle)).toInt - (charge old).toInt) := by
      rw [hc', ← (toInt_charge_sub hpos hposold).1]
    refine ⟨⟨hready, ?_, fun k marked x hk => ?_⟩, by rw [hchange, hself, hwas, hmemory]; omega⟩
    · rw [hc']
      refine h.placed.setBucket fun k hk => ?_
      by_cases hkey : k = key
      · exact .inr (hkey ▸ rfl)
      · refine h.placed _ l hbucket k fun hnone => hk ?_
        rcases hstored.other k hkey with hsame | ⟨x, hwas, -⟩
        · exact hsame.trans hnone
        · cases hwas.symm.trans hnone
    · by_cases hkey : k = key
      · subst hkey
        cases hslot.self.symm.trans hk
        exact hpos handle rfl
      · rcases hslot.other k hkey with hsame | ⟨y, hwas, his⟩
        · exact h.charged k marked x (hsame.symm.trans hk)
        · cases his.symm.trans hk
          exact h.charged k true x hwas

/-- The charges that a decay takes away are those of the nodes that it deletes. -/
theorem aged_charge (h : c.Booked n) (hbucket : c.buckets i = some l) (hl : Usable l as)
    (hslot : ∀ k, c'.slot k = if c.bucketIndex k = i then (l.aged as).slot k else c.slot k) :
    c.held - c'.held = (as.map fun a => (lapsed (l.node a)).toInt).sum := by
  obtain ⟨haged, hnodes, hothers⟩ := hl.aged_slot
  rw [held, held, ← Finset.sum_sub_distrib, hl.formed.listed.sum_keys fun key hkey => ?_]
  · refine congrArg List.sum (List.map_congr_left fun a ha => ?_)
    obtain ⟨hi, hself⟩ := h.slot_node hbucket hl ha
    have hpos : 0 ≤ (charge (l.node a).handle).toInt := by
      have hnonneg := h.charged.nonneg (l.node a).key
      rw [hself] at hnonneg
      exact hnonneg
    rw [hslot, if_pos hi, hnodes a ha, hself, lapsed]
    cases hexpires : (l.node a).expires with
    | true =>
      have hlen : 0 < (l.node a).nexts.length := by
        rw [hl.formed.listed.lengths a (List.mem_cons_of_mem _ ha)]
        omega
      rw [(Node.aged_expires hlen hexpires).2, if_pos rfl, freed_of_charged hpos]
      exact Int.sub_zero _
    | false =>
      rw [(Node.aged_stays hexpires).2]
      exact Int.sub_self _
  · rw [hslot]
    split
    next hi => rw [hothers key hkey, slot_of_bucket hbucket hi, Int.sub_self]
    next => exact Int.sub_self _

/-- **A decay** books what it deletes. -/
theorem Booked.decay (h : c.Booked n) (hrun : c.decayOneBucket i = some c') :
    c'.Booked n ∧ c'.memoryUsed - c'.held = c.memoryUsed - c.held := by
  obtain ⟨c₁, hdecay, hready, hfades⟩ := h.ready.decay i
  cases hdecay.symm.trans hrun
  have hcharged := h.charged.fades hfades
  cases hbucket : c.buckets i with
  | none =>
    rw [decayOneBucket, if_pos (by rw [hbucket]; rfl)] at hrun
    cases hrun
    exact ⟨h, rfl⟩
  | some l =>
    obtain ⟨as, hl⟩ := h.ready.lists i l hbucket
    obtain ⟨q, num, hspec, -⟩ := decay_spec hl.formed hl.tail_unmarked hbucket h.ready.queue
    cases hspec.symm.trans hrun
    obtain ⟨haged, hlfades⟩ := hl.aged
    have hcounted : ({l.aged as with markedDeletedNum := num} : AtomicSkipList).slot = (l.aged as).slot :=
      AtomicSkipList.slot_congr haged.formed.listed rfl rfl
    refine ⟨⟨hready, h.placed.setBucket fun k hk => ?_, hcharged⟩, ?_⟩
    · rw [hcounted] at hk
      exact h.placed.fades hbucket hlfades k hk
    · have hslot : ∀ k, (c.setBucket i {l.aged as with markedDeletedNum := num}).slot k =
          if c.bucketIndex k = i then (l.aged as).slot k else c.slot k := by
        intro k
        rw [slot_setBucket, hcounted]
      have hlapse := aged_charge h hbucket hl hslot
      show c.memoryUsed - (as.map fun a => (lapsed (l.node a)).toInt).sum -
        (c.setBucket i {l.aged as with markedDeletedNum := num}).held = _
      rw [← hlapse]
      omega

/-- Where no mark has a handle, a slot counts what it shows. -/
theorem slotCharge_shown {s : Option (Bool × Option Handle)} (h : ∀ handle, s ≠ some (true, some handle)) :
    slotCharge s = (charge (shown s)).toInt := by
  rcases s with _ | ⟨_ | _, _ | handle⟩
  · rfl
  · rfl
  · rfl
  · rfl
  · exact absurd rfl (h handle)

/-- **A compaction** leaves the handles of marked nodes and of `tail_` behind. -/
theorem Booked.swap (h : c.Booked n) {levels : Nat → Fin (maxLevel + 1)} {new : AtomicSkipList}
    (hcompact : c.compactOneBucket i levels = some (some new)) : (c.swap i new).Booked n ∧
      (c.swap i new).held = c.held - ∑ key with c.leftBehind i key, slotCharge (c.slot key) := by
  obtain ⟨result, hrun, hcopy⟩ := h.ready.compact i levels
  cases hrun.symm.trans hcompact
  obtain ⟨l, as, bs, hbucket, hl, hcopied, hnew⟩ := hcopy new rfl
  have hset := h.ready.setBucket (i := i) hnew
  have hslot : ∀ k, (c.swap i new).slot k = if c.bucketIndex k = i then new.slot k else c.slot k :=
    fun k => slot_setBucket (c := c) (i := i) (l := new) k
  refine ⟨⟨⟨hset.positive, hset.bucketNum, hset.buckets, hset.lists, hset.queue⟩, ?_, ?_⟩, ?_⟩
  · refine h.placed.setBucket fun k hk => ?_
    rcases hcopied.slot_ne_none hl.formed.listed hk with hmax | hslot
    · exact .inl hmax
    · exact h.placed i l hbucket k hslot
  · intro k marked handle hk
    rw [hslot] at hk
    split at hk
    next hi =>
      obtain ⟨hunmarked, hshown⟩ := hcopied.slot_eq hl.formed.listed k
      cases marked with
      | true => exact (hunmarked handle hk).elim
      | false =>
        rw [AtomicSkipList.shown_eq_some.mpr hk] at hshown
        split at hshown
        · cases hshown
        · refine h.charged k false handle ?_
          rw [slot_of_bucket hbucket hi]
          exact AtomicSkipList.shown_eq_some.mp hshown.symm
    next => exact h.charged k marked handle hk
  · rw [held, held, Finset.sum_filter, ← Finset.sum_sub_distrib]
    refine Finset.sum_congr rfl fun k _ => ?_
    rw [hslot, leftBehind]
    by_cases hi : c.bucketIndex k = i
    · obtain ⟨hunmarked, hshown⟩ := hcopied.slot_eq hl.formed.listed k
      have hcopy : slotCharge (new.slot k) = (charge (if k = Int64.maxValue then none else shown (c.slot k))).toInt := by
        rw [slotCharge_shown fun handle hk => hunmarked handle hk, hshown, slot_of_bucket hbucket hi]
      rw [if_pos hi, hcopy, decide_eq_true hi, Bool.true_and]
      by_cases hmax : k = Int64.maxValue
      · rw [if_pos hmax, decide_eq_true hmax, Bool.or_true, if_pos rfl, Int.sub_self]
        rfl
      · rw [if_neg hmax, decide_eq_false hmax, Bool.or_false, keyMarked]
        rcases c.slot k with _ | ⟨_ | _, handle⟩
        · rfl
        · exact (Int.sub_zero _).symm
        · exact (Int.sub_self _).symm
    · rw [if_neg hi, decide_eq_false hi, Bool.false_and, if_neg Bool.false_ne_true, Int.sub_zero]

/-- **The step lemma**: what `memory_used_` has beyond the handles in the buckets changes by
the drift of the call. -/
theorem Booked.call (h : c.Booked n) {turn : Call} (hbrings : turn.Brings fun x => 0 < x.charge)
    (hrun : c.call turn = some c') : c'.Booked n ∧
      c'.memoryUsed - c'.held = c.memoryUsed - c.held + c.drift turn ∧ 0 ≤ c.drift turn := by
  cases turn with
  | insert key handle topLevel =>
    obtain ⟨c₁, c₂, hroom, hevicts, hstore, hinsert⟩ := h.ready.insert key handle topLevel
    have hcall : c.call (.insert key handle topLevel) = some c₂ := Option.map_eq_some_iff.mpr ⟨_, hinsert, rfl⟩
    cases hcall.symm.trans hrun
    obtain ⟨hbooked, hmoved⟩ := hevicts.booked h
    obtain ⟨hstored, hkept⟩ := hbooked.store hbrings hstore
    have hdropped := hevicts.fades.held
    have hdrift : c.drift (.insert key handle topLevel) =
        2 * ∑ key with c.dropped (some c₁) key, slotCharge (c.slot key) := by
      rw [drift, hroom]
    have hnonneg : 0 ≤ ∑ key with c.dropped (some c₁) key, slotCharge (c.slot key) :=
      Finset.sum_nonneg fun k _ => h.charged.nonneg k
    exact ⟨hstored, by omega, by omega⟩
  | get key =>
    obtain ⟨⟨found, c₁⟩, hget, rfl⟩ := Option.map_eq_some_iff.mp hrun
    obtain ⟨hbooked, hmemory, hheld⟩ := h.get hget
    have hdrift : c.drift (.get key) = 0 := rfl
    refine ⟨hbooked, ?_, by omega⟩
    show c₁.memoryUsed - c₁.held = _
    omega
  | decay i =>
    obtain ⟨hbooked, hkept⟩ := h.decay (Option.ite_none_right_eq_some.mp hrun).2
    have hdrift : c.drift (.decay i) = 0 := rfl
    exact ⟨hbooked, by omega, by omega⟩
  | compact i levels =>
    have hnonneg : 0 ≤ ∑ key with c.leftBehind i key, slotCharge (c.slot key) :=
      Finset.sum_nonneg fun k _ => h.charged.nonneg k
    obtain ⟨hi, hcompact⟩ := Option.ite_none_right_eq_some.mp hrun
    obtain ⟨new, hnew, hreturn⟩ := Option.bind_eq_some_iff.mp hcompact
    cases new with
    | none =>
      cases hreturn
      have hdrift : c.drift (.compact i levels) = 0 := by
        rw [drift, hnew]
        rfl
      exact ⟨h, by omega, by omega⟩
    | some new =>
      cases hreturn
      obtain ⟨hbooked, hheld⟩ := h.swap hnew
      have hdrift : c.drift (.compact i levels) = ∑ key with c.leftBehind i key, slotCharge (c.slot key) := by
        rw [drift, hnew]
        rfl
      have hmemory : (c.swap i new).memoryUsed = c.memoryUsed := rfl
      exact ⟨hbooked, by omega, by omega⟩

end Steps

/-! ### The counter of 64 bits -/

/-- A sum that an `int64_t` holds. -/
def Holds (sum : Int) : Prop := (Int64.ofInt sum).toInt = sum

instance : DecidablePred Holds := fun _ => inferInstanceAs (Decidable (_ = _))

/-- `memory_used_` as it is stored. -/
def stored64 (c : HashSkipCache) : HashSkipCache := {c with memoryUsed := (Int64.ofInt c.memoryUsed).toInt}

/-- One call of a cache with an `int64_t` counter. Only `Insert` reads `memory_used_`, and before
anything is added to it, so it may be wrapped at the end of the call. -/
def call64 (c : HashSkipCache) (turn : Call) : Option HashSkipCache := (c.call turn).map stored64

/-- `memory_used_ + charge`, which `Insert` compares with the capacity. -/
def compared (c : HashSkipCache) : Call → Int
  | .insert _ handle _ => c.memoryUsed + (charge handle).toInt
  | _ => c.memoryUsed

/-- No sum of the call overflows: neither the one it compares nor the one it leaves. -/
def SumsHold (c : HashSkipCache) (turn : Call) : Prop :=
  Holds (c.compared turn) ∧ ∀ c' ∈ c.call turn, Holds c'.memoryUsed

instance (c : HashSkipCache) : DecidablePred c.SumsHold :=
  fun turn => inferInstanceAs (Decidable (Holds (c.compared turn) ∧ ∀ c' ∈ c.call turn, Holds c'.memoryUsed))

theorem stored64_eq {c : HashSkipCache} (h : Holds c.memoryUsed) : c.stored64 = c := by
  rw [stored64, h]

/-- Without overflow the counter of 64 bits is the sum. -/
theorem run64_eq {c c' : HashSkipCache} {calls : List Call} (hsums : Stepwise.Along call SumsHold c calls)
    (hrun : c.run calls = some c') : Stepwise.run call64 c calls = some c' := by
  refine Stepwise.run_congr (fun s turn t hs hcall => ?_) hsums hrun
  rw [call64, hcall, Option.map_some, stored64_eq (hs.2 t hcall)]

/-! ### Runs -/

theorem init_booked (capicity : Int) {bucketNum : Nat} (hnum : 0 < bucketNum) :
    (make capicity bucketNum).init.Booked bucketNum := by
  refine ⟨init_ready capicity hnum, fun i l hbucket key hslot => ?_, fun key marked handle hslot => ?_⟩
  · have hl := forall_init (R := fun l => l = AtomicSkipList.make) rfl capicity bucketNum i l hbucket
    left
    by_contra hmax
    refine hslot (hl ▸ AtomicSkipList.slot_of_absent AtomicSkipList.make_listed fun a ha => ?_)
    rw [List.mem_singleton.mp ha]
    exact Ne.symm hmax
  · exact absurd hslot ((init_slot capicity bucketNum key).2 marked handle)

theorem init_held (capicity : Int) (bucketNum : Nat) : (make capicity bucketNum).init.held = 0 := by
  refine Finset.sum_eq_zero fun key _ => ?_
  rw [slotCharge_shown ((init_slot capicity bucketNum key).2 true), (init_slot capicity bucketNum key).1]
  rfl

/-- No more is shown than is held, and all of it unless a marked node has a handle. -/
theorem Booked.shownCharge_le {n : Nat} {c : HashSkipCache} (h : c.Booked n) :
    c.shownCharge ≤ c.held ∧ (c.shownCharge = c.held ↔ c.Bare) := by
  have hkey : ∀ key, (charge (c.view key)).toInt ≤ slotCharge (c.slot key) := by
    intro key
    have hnonneg := h.charged.nonneg key
    rw [view]
    revert hnonneg
    rcases c.slot key with _ | ⟨_ | _, handle⟩
    · exact id
    · exact fun _ => Int.le_refl _
    · exact id
  refine ⟨Finset.sum_le_sum fun key _ => hkey key, fun heq key handle hslot => ?_, fun hbare => ?_⟩
  · have hall := (Finset.sum_eq_sum_iff_of_le fun key _ => hkey key).mp heq key (Finset.mem_univ key)
    have hpos := Int32.lt_iff_toInt_lt.mp (h.charged key true handle hslot)
    rw [view, hslot] at hall
    exact absurd hall (Int.ne_of_lt hpos)
  · exact Finset.sum_congr rfl fun key _ => (slotCharge_shown (hbare key)).symm

/-- **The run lemma.** -/
theorem run_booked {capicity : Int} {bucketNum : Nat} {calls : List Call} {c : HashSkipCache}
    (hnum : 0 < bucketNum) (hbrings : ∀ turn ∈ calls, turn.Brings fun x => 0 < x.charge)
    (hrun : (make capicity bucketNum).init.run calls = some c) : c.Booked bucketNum ∧
      c.memoryUsed = c.held + Stepwise.tally call drift (make capicity bucketNum).init calls ∧
      0 ≤ Stepwise.tally call drift (make capicity bucketNum).init calls := by
  have hstep : ∀ s turn t, s.Booked bucketNum → turn.Brings (fun x => 0 < x.charge) → call s turn = some t →
      t.Booked bucketNum ∧ t.memoryUsed - t.held = s.memoryUsed - s.held + s.drift turn ∧ 0 ≤ s.drift turn :=
    fun s turn t hs hturn hcall => hs.call hturn hcall
  have hstart := init_booked capicity hnum
  have hend := Stepwise.run_keeps (fun s turn t hs hturn hcall => (hstep s turn t hs hturn hcall).1) hstart
    (Stepwise.along_of_mem (fun turn hmem _ => hbrings turn hmem) _) hrun
  obtain ⟨htotal, hpos⟩ := Stepwise.run_tally hstep hstart
    (Stepwise.along_of_mem (fun turn hmem _ => hbrings turn hmem) _) hrun
  have hheld := init_held capicity bucketNum
  have hmemory : (make capicity bucketNum).init.memoryUsed = 0 := rfl
  exact ⟨hend, by omega, hpos⟩

/-- **What `memory_used_` counts**: the charges of all handles in the buckets, and what the
calls of the run have added beyond, as long as the `int64_t` can hold it. It is never less than
what `Get` can return. -/
theorem run_memory {capicity : Int} {bucketNum : Nat} {calls : List Call} {c : HashSkipCache}
    (hnum : 0 < bucketNum) (hbrings : ∀ turn ∈ calls, turn.Brings fun x => 0 < x.charge)
    (hsums : Stepwise.Along call SumsHold (make capicity bucketNum).init calls)
    (hrun : (make capicity bucketNum).init.run calls = some c) :
    Stepwise.run call64 (make capicity bucketNum).init calls = some c ∧
      c.memoryUsed = c.held + Stepwise.tally call drift (make capicity bucketNum).init calls ∧
      c.shownCharge ≤ c.memoryUsed := by
  obtain ⟨hbooked, hmemory, hpos⟩ := run_booked hnum hbrings hrun
  have hle := hbooked.shownCharge_le.1
  exact ⟨run64_eq hsums hrun, hmemory, by omega⟩

/-- Charges of four, four and five, a decay, and an eviction that frees one of them. -/
theorem run_memory_evicting : ∃ c, Stepwise.run call64 (make 10 2).init [.insert 0 (some ⟨1, 4⟩) 0,
      .insert 2 (some ⟨2, 4⟩) 3, .decay 0, .insert 4 (some ⟨3, 5⟩) 1, .compact 0 (fun _ => 1)] = some c ∧
    c.memoryUsed = c.held + Stepwise.tally call drift (make 10 2).init [.insert 0 (some ⟨1, 4⟩) 0,
      .insert 2 (some ⟨2, 4⟩) 3, .decay 0, .insert 4 (some ⟨3, 5⟩) 1, .compact 0 (fun _ => 1)] ∧
    c.shownCharge ≤ c.memoryUsed := by
  have hsome : ((make 10 2).init.run [.insert 0 (some ⟨1, 4⟩) 0, .insert 2 (some ⟨2, 4⟩) 3, .decay 0,
      .insert 4 (some ⟨3, 5⟩) 1, .compact 0 (fun _ => 1)]).isSome = true := by
    decide +kernel
  obtain ⟨c, hrun⟩ := Option.isSome_iff_exists.mp hsome
  refine ⟨c, run_memory (by decide) ?_ (by decide +kernel) hrun⟩
  simp only [List.forall_mem_cons, Call.Brings, Option.mem_def, Option.some.injEq, forall_eq', List.not_mem_nil,
    false_imp_iff, implies_true, and_true]
  decide

/-- **When `memory_used_` is exact**: as long as the `int64_t` can hold it, it is what `Get` can
return if and only if no call of the run has added anything beyond, and no marked node has a
handle. -/
theorem run_memory_exact_iff {capicity : Int} {bucketNum : Nat} {calls : List Call} {c : HashSkipCache}
    (hnum : 0 < bucketNum) (hbrings : ∀ turn ∈ calls, turn.Brings fun x => 0 < x.charge)
    (hsums : Stepwise.Along call SumsHold (make capicity bucketNum).init calls)
    (hrun : (make capicity bucketNum).init.run calls = some c) :
    Stepwise.run call64 (make capicity bucketNum).init calls = some c ∧
      (c.memoryUsed = c.shownCharge ↔
        Stepwise.tally call drift (make capicity bucketNum).init calls = 0 ∧ c.Bare) := by
  obtain ⟨hbooked, hmemory, hpos⟩ := run_booked hnum hbrings hrun
  obtain ⟨hle, hbare⟩ := hbooked.shownCharge_le
  refine ⟨run64_eq hsums hrun, ?_⟩
  rw [← hbare]
  omega

/-- An entry is replaced, and another decays away. -/
theorem run_memory_exact_iff_replaced : ∃ c, Stepwise.run call64 (make 10 2).init [.insert 0 (some ⟨1, 4⟩) 0,
      .insert 0 (some ⟨2, 3⟩) 3, .insert 1 (some ⟨3, 5⟩) 1, .decay 1, .decay 1] = some c ∧
    (c.memoryUsed = c.shownCharge ↔ Stepwise.tally call drift (make 10 2).init [.insert 0 (some ⟨1, 4⟩) 0,
      .insert 0 (some ⟨2, 3⟩) 3, .insert 1 (some ⟨3, 5⟩) 1, .decay 1, .decay 1] = 0 ∧ c.Bare) := by
  have hsome : ((make 10 2).init.run [.insert 0 (some ⟨1, 4⟩) 0, .insert 0 (some ⟨2, 3⟩) 3,
      .insert 1 (some ⟨3, 5⟩) 1, .decay 1, .decay 1]).isSome = true := by
    decide +kernel
  obtain ⟨c, hrun⟩ := Option.isSome_iff_exists.mp hsome
  refine ⟨c, run_memory_exact_iff (by decide) ?_ (by decide +kernel) hrun⟩
  simp only [List.forall_mem_cons, Call.Brings, Option.mem_def, Option.some.injEq, forall_eq', List.not_mem_nil,
    false_imp_iff, implies_true, and_true]
  decide

end HashSkipCache

end HyperCache.HashSkip
