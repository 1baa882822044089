import HyperCache.HashSkip.Charges
import HyperCache.HashSkip.DeletedCount

/-! When `memory_used_` is what `Get` can return, in every state of a run.

Three things take the two apart: an `Evict` that frees a charge adds it where it should be
subtracted, an `Insert` into a marked node is counted and cannot be read, and a compaction
leaves the handle of `tail_` behind. Each can be told from the state before the call
(`Settles`): `Evict` goes through the whole queue until it frees something, so it frees
nothing exactly if no entry of the queue has a handle that `Get` would return. -/
namespace HyperCache.HashSkip.HashSkipCache
open AtomicSkipList (shown slotCharge Usable tail)

/-- The charges of all handles that `Get` returns. -/
noncomputable def readable (c : HashSkipCache) : Int := ∑ key, (charge ((c.get key).bind Prod.fst)).toInt

/-- For an `Insert` of the first key nothing is lost when the node of the second is marked: it is not
its own, and `Get` does not show it. -/
def Idle (c : HashSkipCache) (key k : Int64) : Prop := k ≠ key ∧ shown (c.slot k) = none

/-- The call leaves `memory_used_` right: an `Insert` that has to evict finds no entry of the
queue with a handle or of its own key, and none finds its own key marked; and no compaction
rebuilds the bucket of the largest key while that key has a handle. -/
def Settles (c : HashSkipCache) : Call → Prop
  | .insert key handle _ =>
    (charge handle > 0 → c.memoryUsed + (charge handle).toInt > c.capicity →
      ∀ it ∈ c.entries, c.evictable it = true → c.Idle key it.key) ∧
    (handle ≠ none → c.keyMarked key = false)
  | .compact i _ => c.bucketIndex Int64.maxValue = i →
    (∀ l ∈ c.buckets i, sparse l = true) ∨ shown (c.slot Int64.maxValue) = none
  | _ => True

instance (c : HashSkipCache) (key k : Int64) : Decidable (c.Idle key k) :=
  inferInstanceAs (Decidable (_ ∧ _))

instance (c : HashSkipCache) : DecidablePred c.Settles
  | .insert .. => inferInstanceAs (Decidable (_ ∧ _))
  | .compact .. => inferInstanceAs (Decidable (_ → _))
  | .get _ => inferInstanceAs (Decidable True)
  | .decay _ => inferInstanceAs (Decidable True)

/-! ### Evict -/

section Evict
variable {n : Nat} {c c' c₁ : HashSkipCache} {key k : Int64} {it : LowKey} {held : List LowKey}

theorem dropped_iff : c.dropped (some c') k = true ↔ c.keyMarked k = false ∧ c'.keyMarked k = true := by
  rw [dropped, Option.any_some, Bool.and_eq_true_iff, Bool.not_eq_eq_eq_not, Bool.not_true]

/-- What is marked stays marked. -/
theorem Fades.marked (h : Fades c c') (hmark : c.keyMarked k = true) : c'.keyMarked k = true := by
  rcases h k with hsame | ⟨-, hgone⟩
  · rw [keyMarked, hsame]
    exact hmark
  · rw [keyMarked, hgone]
    rfl

theorem entries_eq (h : c.lowQueue.Holds 10000 held) : c.entries = held := by
  have hlength : c.lowQueue.head - c.lowQueue.tail = held.length := by
    rw [h.head]
    omega
  rw [entries, hlength]
  refine List.ext_getElem (by simp) fun i hi hi' => ?_
  rw [List.getElem_map, List.getElem_range'_1, h.filled i hi']

/-- An entry can be evicted if its key is in the bucket it names, and not marked. -/
theorem Booked.evictable_iff (h : c.Booked n) (hkey : it.key ≠ Int64.maxValue) : c.evictable it = true ↔
    it.gen = c.bucketsGen it.bucketIndex ∧ c.bucketIndex it.key = it.bucketIndex ∧
      ∃ handle, c.slot it.key = some (false, handle) := by
  rw [evictable, Bool.and_eq_true_iff, beq_iff_eq]
  refine and_congr_right fun _ => ?_
  constructor
  · intro hany
    obtain ⟨l, hbucket, hget⟩ := (Option.any_eq_true _ _).mp hany
    obtain ⟨as, hl⟩ := h.ready.lists _ l hbucket
    rcases AtomicSkipList.getNode_cases hl.formed.listed it.key with ⟨a, ha, hakey, hmark, -⟩ | ⟨hnone, -⟩
    · have hslot := AtomicSkipList.slot_of_mem hl.formed.listed ha
      rw [hakey, hmark] at hslot
      have hi : c.bucketIndex it.key = it.bucketIndex := by
        refine (h.placed _ l hbucket it.key ?_).resolve_left hkey
        rw [hslot]
        exact Option.some_ne_none _
      exact ⟨hi, (l.node a).handle, (slot_of_bucket hbucket hi).trans hslot⟩
    · rw [hnone] at hget
      cases hget
  · rintro ⟨hi, handle, hslot⟩
    obtain ⟨l, as, hbucket, hl⟩ := h.ready.bucket it.key
    rw [slot_of_bucket hbucket rfl] at hslot
    rw [← hi, hbucket, Option.any_some]
    rcases AtomicSkipList.getNode_cases hl.formed.listed it.key with ⟨a, -, -, -, hget⟩ | ⟨-, hmarked⟩
    · rw [hget]
      rfl
    · rcases AtomicSkipList.mem_or_absent l as it.key with ⟨a, ha, hakey⟩ | habsent
      · rw [← hakey, AtomicSkipList.slot_of_mem hl.formed.listed ha, hmarked a ha hakey] at hslot
        cases hslot
      · rw [AtomicSkipList.slot_of_absent hl.formed.listed habsent] at hslot
        cases hslot

/-- What one entry of the queue does: nothing, or its key loses its handle. -/
theorem Booked.evictOne (h : c.Booked n) (hkey : it.key ≠ Int64.maxValue) {free : Int32}
    (hrun : c.evictOne it = some (free, c')) : Evicts c c' ∧ c'.lowQueue = c.lowQueue ∧
      c'.bucketsGen = c.bucketsGen ∧ c'.bucketIndex = c.bucketIndex ∧
      (c.evictable it = false ∧ free = 0 ∧ c' = c ∨
        c.evictable it = true ∧ (∀ k, c'.slot k = if k = it.key then some (true, none) else c.slot k) ∧
          (shown (c.slot it.key) = none → free = 0)) := by
  obtain ⟨free', c₁, hrun', hevicts, hqueue⟩ := h.ready.evictOne hkey
  cases hrun.symm.trans hrun'
  rcases evictOne_cases hrun with ⟨hidle, hfree, rfl⟩ | ⟨l, a, hlive, hbucket, hget, hfree, rfl⟩
  · exact ⟨hevicts, hqueue, rfl, rfl, .inl ⟨hidle, hfree, rfl⟩⟩
  refine ⟨hevicts, hqueue, rfl, rfl, .inr ⟨hlive, ?_⟩⟩
  obtain ⟨as, hl⟩ := h.ready.lists _ l hbucket
  rcases AtomicSkipList.getNode_cases hl.formed.listed it.key with ⟨b, hb, hbkey, hmark, hfound⟩ | ⟨hnone, -⟩
  · cases hget.symm.trans hfound
    have ha : a ∈ as := by
      rcases List.mem_append.mp hb with hm | hm
      · exact hm
      · rw [List.mem_singleton.mp hm, hl.formed.listed.tail_key] at hbkey
        exact absurd hbkey.symm hkey
    obtain ⟨hi, hslot⟩ := h.slot_node hbucket hl ha
    rw [hbkey] at hi
    rw [hbkey, hmark] at hslot
    refine ⟨fun k => ?_, fun hshown => ?_⟩
    · have hset := slot_setBucket (c := c) (i := it.bucketIndex) (l := (l.markNode a).2) k
      refine Eq.trans hset ?_
      rw [hl.markNode_slot ha hmark, hbkey]
      by_cases hk : k = it.key
      · rw [if_pos hk, hk, if_pos hi, Function.update_self]
      · rw [if_neg hk, Function.update_of_ne hk]
        split
        next hi => exact (slot_of_bucket hbucket hi).symm
        next => rfl
    · rw [hslot] at hshown
      have hhandle : (l.node a).handle = none := hshown
      rw [hfree, AtomicSkipList.markNode_eq, (AtomicSkipList.markDeleted_unmarked hmark).1, hhandle]
      rfl
  · cases hget.symm.trans hnone

/-- To mark an idle key changes nothing of what an eviction may lose. -/
theorem dropped_congr_of_idle (hidle : c.Idle key it.key)
    (hslot : ∀ k, c₁.slot k = if k = it.key then some (true, none) else c.slot k) :
    (∀ k, c.dropped (some c') k = true → c.Idle key k) ↔ ∀ k, c₁.dropped (some c') k = true → c₁.Idle key k := by
  refine forall_congr' fun k => ?_
  by_cases hk : k = it.key
  · subst hk
    refine iff_of_true (fun _ => hidle) fun hgone => ?_
    have hlive := (dropped_iff.mp hgone).1
    rw [keyMarked, hslot, if_pos rfl] at hlive
    cases hlive
  · rw [dropped, dropped, keyMarked, keyMarked, Idle, Idle, hslot, if_neg hk]

/-- Nor what of the queue is idle. -/
theorem Booked.evictable_congr_of_idle (h : c.Booked n) (h₁ : c₁.Booked n) (hgen : c₁.bucketsGen = c.bucketsGen)
    (hindex : c₁.bucketIndex = c.bucketIndex) (hidle : c.Idle key it.key)
    (hslot : ∀ k, c₁.slot k = if k = it.key then some (true, none) else c.slot k) {x : LowKey}
    (hx : x.key ≠ Int64.maxValue) :
    (c₁.evictable x = true → c₁.Idle key x.key) ↔ (c.evictable x = true → c.Idle key x.key) := by
  rw [h₁.evictable_iff hx, h.evictable_iff hx, hgen, hindex, hslot]
  by_cases hk : x.key = it.key
  · rw [if_pos hk, hk]
    refine iff_of_true (fun hlive => ?_) fun _ => hidle
    obtain ⟨-, -, _, hslot⟩ := hlive
    cases hslot
  · rw [if_neg hk, Idle, Idle, hslot, if_neg hk]

/-- **The loop of `Evict`** marks no handle and not the key itself exactly if it finds neither in
the queue: until it has freed something it goes on. -/
theorem Booked.evictLoop (h : c.Booked n) (hheld : c.lowQueue.Holds 10000 held)
    (hkeys : ∀ it ∈ held, it.key ≠ Int64.maxValue) {fuel : Nat} (hfuel : held.length < fuel) {need rest : Int32}
    (hrun : HashSkipCache.evictLoop fuel need c = some (rest, c')) :
    (∀ k, c.dropped (some c') k = true → c.Idle key k) ↔
      (need > 0 → ∀ it ∈ held, c.evictable it = true → c.Idle key it.key) := by
  have hkept : ∀ c : HashSkipCache, ∀ k, c.dropped (some c) k ≠ true := fun c k hdropped => by
    obtain ⟨hlive, hmarked⟩ := dropped_iff.mp hdropped
    exact Bool.false_ne_true (hlive.symm.trans hmarked)
  induction held generalizing c fuel need with
  | nil =>
    obtain ⟨fuel, rfl⟩ := Nat.exists_eq_add_one.mpr hfuel
    have hsize : ¬ c.lowQueue.size > 0 := by
      rw [hheld.size]
      exact lt_irrefl 0
    rw [HashSkipCache.evictLoop, if_neg fun hmore => hsize hmore.2] at hrun
    cases hrun
    exact iff_of_true (fun k hdropped => absurd hdropped (hkept _ k)) fun _ it hit => absurd hit List.not_mem_nil
  | cons it held ih =>
    obtain ⟨fuel, rfl⟩ := Nat.exists_eq_add_one.mpr (Nat.zero_lt_of_lt hfuel)
    rw [HashSkipCache.evictLoop] at hrun
    by_cases hneed : need > 0
    · have hsize : c.lowQueue.size > 0 := by
        rw [hheld.size, List.length_cons]
        exact Int.natCast_pos.mpr (Nat.succ_pos _)
      rw [if_pos ⟨hneed, hsize⟩] at hrun
      obtain ⟨q, hpop, hq⟩ := hheld.pop rfl
      simp only [hpop, Option.bind_eq_bind, Option.bind_some] at hrun
      obtain ⟨⟨free, c₁⟩, hone, hrest⟩ := Option.bind_eq_some_iff.mp hrun
      obtain ⟨hitkey, hkeys⟩ := List.forall_mem_cons.mp hkeys
      have hpopped : EvictStep c {c with lowQueue := q} := .pop q ⟨held, hq, hkeys⟩
      obtain ⟨hevicts, hqueue, hgen, hindex, hcases⟩ := (hpopped.booked h).evictOne hitkey hone
      have hlength : held.length < fuel := Nat.lt_of_succ_lt_succ hfuel
      have hbooked₁ := (hevicts.booked (hpopped.booked h)).1
      have hrec := ih hbooked₁ (hqueue ▸ hq) hkeys hlength hrest
      rcases hcases with ⟨hidle, rfl, rfl⟩ | ⟨hlive, hslot, hfree⟩
      · rw [Int32.sub_zero] at hrec
        refine Iff.trans hrec (forall_congr' fun _ => ?_)
        rw [List.forall_mem_cons]
        exact ⟨fun hothers => ⟨fun hlive => absurd (hidle.symm.trans hlive) Bool.false_ne_true, hothers⟩, And.right⟩
      · have hlive : c.evictable it = true := hlive
        obtain ⟨handle, hwas⟩ := ((h.evictable_iff hitkey).mp hlive).2.2
        have hfades : Fades c₁ c' := by
          have hqueued : c₁.lowQueue.size < fuel := by
            rw [hqueue, hq.size]
            exact Int.ofNat_lt.mpr hlength
          obtain ⟨rest', c₂, hrest', hevicts'⟩ :=
            (hevicts.ready (hpopped.ready h.ready)).evictLoop hqueued (need - free)
          cases hrest.symm.trans hrest'
          exact hevicts'.fades
        by_cases hitIdle : c.Idle key it.key
        · have hzero : free = 0 := hfree hitIdle.2
          rw [hzero, Int32.sub_zero] at hrec
          have hfound : ∀ x ∈ held, (c₁.evictable x = true → c₁.Idle key x.key) ↔
              (c.evictable x = true → c.Idle key x.key) :=
            fun x hx => h.evictable_congr_of_idle hbooked₁ hgen hindex hitIdle hslot (hkeys x hx)
          refine (dropped_congr_of_idle hitIdle hslot).trans (Iff.trans hrec (forall_congr' fun _ => ?_))
          rw [List.forall_mem_cons]
          exact ⟨fun hall => ⟨fun _ => hitIdle, fun x hx => (hfound x hx).mp (hall x hx)⟩,
            fun hall x hx => (hfound x hx).mpr (hall.2 x hx)⟩
        · refine iff_of_false (fun hall => hitIdle (hall it.key ?_)) fun hall =>
            hitIdle (hall hneed it (List.mem_cons_self ..) hlive)
          refine dropped_iff.mpr ⟨?_, hfades.marked ?_⟩
          · rw [keyMarked, hwas]
            rfl
          · rw [keyMarked, hslot, if_pos rfl]
            rfl
    · rw [if_neg fun hmore => hneed hmore.1] at hrun
      cases hrun
      exact iff_of_true (fun k hdropped => absurd hdropped (hkept _ k)) fun hpos => absurd hpos hneed

/-- The same of the room that an `Insert` makes. -/
theorem Booked.room (h : c.Booked n) {handle : Option Handle} (hroom : c.room handle = some c') :
    (∀ k, c.dropped (some c') k = true → c.Idle key k) ↔
      (charge handle > 0 → c.memoryUsed + (charge handle).toInt > c.capicity →
        ∀ it ∈ c.entries, c.evictable it = true → c.Idle key it.key) := by
  rw [HashSkipCache.room] at hroom
  split at hroom
  next hfull =>
    obtain ⟨⟨enough, c₁⟩, hevict, rfl⟩ := Option.map_eq_some_iff.mp hroom
    obtain ⟨-, rest, hloop⟩ := evict_cases hevict
    obtain ⟨held, hheld, hkeys⟩ := h.ready.queue
    have hfuel : held.length < c.lowQueue.size.toNat + 1 := by
      rw [hheld.size]
      omega
    rw [entries_eq hheld]
    refine Iff.trans (h.evictLoop hheld hkeys hfuel hloop) (forall_congr' fun _ => ?_)
    exact ⟨fun hall _ => hall, fun hall => hall hfull⟩
  next hfits =>
    cases hroom
    refine iff_of_true (fun k hdropped => ?_) fun _ hfull => absurd hfull hfits
    obtain ⟨hlive, hmarked⟩ := dropped_iff.mp hdropped
    exact absurd (hlive.symm.trans hmarked) Bool.false_ne_true

end Evict

/-! ### Calls -/

section Steps
variable {n : Nat} {c c' c₁ : HashSkipCache} {key k : Int64} {i : Nat}

/-- Where no mark has a handle, a slot counts if and only if it shows one. -/
theorem Charged.slotCharge_eq_zero (h : c.Charged) (hbare : ∀ handle, c.slot k ≠ some (true, some handle)) :
    slotCharge (c.slot k) = 0 ↔ shown (c.slot k) = none := by
  rw [slotCharge_shown hbare]
  cases hshown : shown (c.slot k) with
  | none => exact iff_of_true rfl rfl
  | some handle =>
    have hpos := Int32.lt_iff_toInt_lt.mp (h k false handle (AtomicSkipList.shown_eq_some.mp hshown))
    exact iff_of_false (fun hzero => absurd hzero (Int.ne_of_gt hpos)) (Option.some_ne_none handle)

theorem shown_of_keyMarked (h : c.keyMarked k = true) : shown (c.slot k) = none := by
  rw [keyMarked] at h
  revert h
  rcases c.slot k with _ | ⟨_ | _, handle⟩
  · exact fun _ => rfl
  · intro hmark
    cases hmark
  · exact fun _ => rfl

/-- An eviction adds nothing if and only if it frees nothing. -/
theorem Booked.evicted_eq_zero (h : c.Booked n) (hfades : Fades c c₁) :
    ∑ k with c.dropped (some c₁) k, slotCharge (c.slot k) = 0 ↔
      ∀ k, c.dropped (some c₁) k = true → shown (c.slot k) = none := by
  rw [Finset.sum_eq_zero_iff_of_nonneg fun k _ => h.charged.nonneg k]
  refine forall_congr' fun k => ?_
  rw [Finset.mem_filter_univ]
  refine imp_congr_right fun hdropped => ?_
  rcases hfades k with hsame | ⟨⟨handle, hlive⟩, -⟩
  · obtain ⟨hlive, hmarked⟩ := dropped_iff.mp hdropped
    rw [keyMarked, hsame, ← keyMarked, hlive] at hmarked
    cases hmarked
  · exact h.charged.slotCharge_eq_zero fun x hx => by cases hlive.symm.trans hx

/-- **`Insert`** -/
theorem Booked.insert_settles (h : c.Booked n) (hbare : c.Bare) {handle : Option Handle} {topLevel : Fin (maxLevel + 1)}
    (hrun : c.call (.insert key handle topLevel) = some c') :
    c.drift (.insert key handle topLevel) = 0 ∧ c'.Bare ↔ c.Settles (.insert key handle topLevel) := by
  obtain ⟨c₁, c₂, hroom, hevicts, hstore, hinsert⟩ := h.ready.insert key handle topLevel
  obtain ⟨c₃, hstore', -, hslot⟩ := (hevicts.ready h.ready).store key handle topLevel
  cases hstore.symm.trans hstore'
  have hcall : c.call (.insert key handle topLevel) = some c₂ := Option.map_eq_some_iff.mpr ⟨_, hinsert, rfl⟩
  cases hcall.symm.trans hrun
  have hfades := hevicts.fades
  have hbare₁ := hfades.bare hbare
  have hdrift : c.drift (.insert key handle topLevel) = 0 ↔
      ∀ k, c.dropped (some c₁) k = true → shown (c.slot k) = none := by
    rw [← h.evicted_eq_zero hfades, drift, hroom]
    exact mul_eq_zero_iff_left (by decide)
  rw [hdrift, Settles, ← h.room hroom]
  cases handle with
  | none =>
    have hsame : c'.slot = c₁.slot := hslot
    have hidle : ∀ k, c.dropped (some c₁) k = true → c.Idle key k :=
      (h.room hroom).mpr fun hpos => absurd hpos (by decide)
    refine iff_of_true ⟨fun k hk => (hidle k hk).2, fun k x => ?_⟩ ⟨hidle, fun hne => absurd rfl hne⟩
    rw [hsame]
    exact hbare₁ k x
  | some handle =>
    have hslot : Stored c₁ key handle c' := hslot
    constructor
    · rintro ⟨hfreed, hbare'⟩
      have hmark₁ : c₁.keyMarked key = false := by
        refine Bool.eq_false_iff.mpr fun hmark => hbare' key handle ?_
        rw [hslot.self, hmark]
      refine ⟨fun k hk => ⟨?_, hfreed k hk⟩, fun _ => Bool.eq_false_iff.mpr fun hmark => ?_⟩
      · rintro rfl
        exact absurd (hmark₁.symm.trans (dropped_iff.mp hk).2) Bool.false_ne_true
      · exact absurd (hmark₁.symm.trans (hfades.marked hmark)) Bool.false_ne_true
    · rintro ⟨hidle, hmark⟩
      have hmark := hmark (Option.some_ne_none handle)
      have hmark₁ : c₁.keyMarked key = false :=
        Bool.eq_false_iff.mpr fun hmark₁ => (hidle key (dropped_iff.mpr ⟨hmark, hmark₁⟩)).1 rfl
      exact ⟨fun k hk => (hidle k hk).2, (hslot.exact hbare₁ hmark₁).1⟩

/-- **A compaction** adds nothing if and only if it leaves no handle behind in `tail_`. -/
theorem Booked.compact_settles (h : c.Booked n) (hbare : c.Bare) {levels : Nat → Fin (maxLevel + 1)}
    (hrun : c.call (.compact i levels) = some c') :
    c.drift (.compact i levels) = 0 ∧ c'.Bare ↔ c.Settles (.compact i levels) := by
  obtain ⟨hi, hcompact⟩ := Option.ite_none_right_eq_some.mp hrun
  obtain ⟨l, hbucket⟩ := h.ready.buckets i (h.ready.bucketNum ▸ hi)
  obtain ⟨new, hnew, hreturn⟩ := Option.bind_eq_some_iff.mp hcompact
  have hdense := compactOneBucket_isSome hbucket hnew
  rw [drift, hnew, Option.getD_some, Settles]
  cases new with
  | none =>
    cases hreturn
    refine iff_of_true ⟨rfl, hbare⟩ fun _ => .inl fun m hm => ?_
    cases hbucket.symm.trans hm
    exact (Bool.not_eq_eq_eq_not.mp hdense.symm)
  | some new =>
    cases hreturn
    have hbare' : (c.swap i new).Bare := fun k handle hslot =>
      hbare k handle ((swap_slot h.ready hnew k).1 handle hslot)
    rw [Option.isSome_some, if_pos rfl, and_iff_left hbare', Finset.sum_eq_zero_iff_of_nonneg fun k _ =>
      h.charged.nonneg k]
    constructor
    · intro hzero hmax
      refine .inr ((h.charged.slotCharge_eq_zero (hbare Int64.maxValue)).mp (hzero _ ?_))
      rw [Finset.mem_filter_univ, leftBehind, decide_eq_true hmax, decide_eq_true rfl, Bool.or_true, Bool.and_true]
    · intro hsettles k hk
      rw [Finset.mem_filter_univ, leftBehind, Bool.and_eq_true_iff, Bool.or_eq_true_iff, decide_eq_true_eq,
        decide_eq_true_eq] at hk
      obtain ⟨hki, hmark | rfl⟩ := hk
      · exact (h.charged.slotCharge_eq_zero (hbare k)).mpr (shown_of_keyMarked hmark)
      · refine (h.charged.slotCharge_eq_zero (hbare Int64.maxValue)).mpr ((hsettles hki).resolve_left fun hall => ?_)
        rw [hall l hbucket] at hdense
        cases hdense

/-- **What settles**: in a state in which no marked node has a handle, a call leaves it so and adds
to `memory_used_` no more than to the buckets exactly under its condition. -/
theorem Booked.settles_iff (h : c.Booked n) (hbare : c.Bare) {turn : Call} (hrun : c.call turn = some c') :
    c.drift turn = 0 ∧ c'.Bare ↔ c.Settles turn := by
  cases turn with
  | insert key handle topLevel => exact h.insert_settles hbare hrun
  | get key =>
    obtain ⟨c₁, hget, -, hslot⟩ := h.ready.get key
    have hcall : c.call (.get key) = some c₁ := Option.map_eq_some_iff.mpr ⟨_, hget, rfl⟩
    cases hcall.symm.trans hrun
    refine iff_of_true ⟨rfl, fun k x => ?_⟩ trivial
    rw [hslot]
    exact hbare k x
  | decay i =>
    obtain ⟨-, hdecay⟩ := Option.ite_none_right_eq_some.mp hrun
    obtain ⟨c₁, hdecay', -, hfades⟩ := h.ready.decay i
    cases hdecay.symm.trans hdecay'
    exact iff_of_true ⟨rfl, hfades.bare hbare⟩ trivial
  | compact i levels => exact h.compact_settles hbare hrun

theorem Booked.readable_eq (h : c.Booked n) : c.readable = c.shownCharge := by
  refine Finset.sum_congr rfl fun key _ => ?_
  obtain ⟨c₁, hget, -⟩ := h.ready.get key
  rw [hget, view]
  rfl

/-- The counter is right if it has the handles in the buckets, and no marked node has one. -/
theorem Booked.exact_iff (h : c.Booked n) (hle : c.held ≤ c.memoryUsed) :
    c.memoryUsed = c.readable ↔ c.memoryUsed = c.held ∧ c.Bare := by
  obtain ⟨hshown, hbare⟩ := h.shownCharge_le
  rw [h.readable_eq, ← hbare]
  omega

/-- **The step lemma.** -/
theorem Booked.exact_call (h : c.Booked n) (hle : c.held ≤ c.memoryUsed) (hexact : c.memoryUsed = c.readable)
    {turn : Call} (hrange : turn.InRange n) (hbrings : turn.Brings fun x => 0 < x.charge) :
    ∃ c', c.call turn = some c' ∧ (c'.Booked n ∧ c'.held ≤ c'.memoryUsed) ∧
      (c'.memoryUsed = c'.readable ↔ c.Settles turn) := by
  obtain ⟨c', hrun, -⟩ := h.ready.call hrange
  obtain ⟨hbooked, hdrift, hpos⟩ := h.call hbrings hrun
  obtain ⟨hmemory, hbare⟩ := (h.exact_iff hle).mp hexact
  have hle' : c'.held ≤ c'.memoryUsed := by omega
  refine ⟨c', hrun, ⟨hbooked, hle'⟩, ?_⟩
  rw [hbooked.exact_iff hle', ← h.settles_iff hbare hrun]
  refine and_congr_left fun _ => ?_
  omega

end Steps

/-! ### Runs -/

/-- The counter is right in every state of a run if and only if every call settles. -/
theorem exact_along_iff (capicity : Int) {bucketNum : Nat} (hnum : 0 < bucketNum) {calls : List Call}
    (hcalls : ∀ turn ∈ calls, turn.InRange bucketNum ∧ turn.Brings fun x => 0 < x.charge) :
    (∀ past, past <+: calls → ∀ c, (make capicity bucketNum).init.run past = some c → c.memoryUsed = c.readable) ↔
      Stepwise.Along call Settles (make capicity bucketNum).init calls := by
  have hstart := init_booked capicity hnum
  have hheld := init_held capicity bucketNum
  have hmemory : (make capicity bucketNum).init.memoryUsed = 0 := rfl
  have hstep : ∀ (c : HashSkipCache) (turn : Call), c.Booked bucketNum ∧ c.held ≤ c.memoryUsed →
      c.memoryUsed = c.readable → turn.InRange bucketNum ∧ (turn.Brings fun x => 0 < x.charge) →
      ∃ c', c.call turn = some c' ∧ (c'.Booked bucketNum ∧ c'.held ≤ c'.memoryUsed) ∧
        (c'.memoryUsed = c'.readable ↔ c.Settles turn) :=
    fun c turn hc hexact hturn => hc.1.exact_call hc.2 hexact hturn.1 hturn.2
  have hle : (make capicity bucketNum).init.held ≤ (make capicity bucketNum).init.memoryUsed := by omega
  refine Stepwise.along_iff hstep ⟨hstart, hle⟩ ((hstart.exact_iff hle).mpr ⟨by omega, init_bare capicity bucketNum⟩) ?_
  exact Stepwise.along_of_mem (fun turn hturn _ => hcalls turn hturn) _

/-- **When `memory_used_` is right throughout**: as long as the `int64_t` can hold it, in every
state of a run it is what `Get` can return if and only if every call of the run settles. -/
theorem run_settles_iff (capicity : Int) {bucketNum : Nat} (hnum : 0 < bucketNum) {calls : List Call}
    (hcalls : ∀ turn ∈ calls, turn.InRange bucketNum ∧ turn.Brings fun x => 0 < x.charge)
    (hsums : Stepwise.Along call SumsHold (make capicity bucketNum).init calls) :
    (∀ past, past <+: calls → ∃ c, Stepwise.run call64 (make capicity bucketNum).init past = some c ∧
        c.memoryUsed = c.readable) ↔
      Stepwise.Along call Settles (make capicity bucketNum).init calls := by
  rw [← exact_along_iff capicity hnum hcalls]
  refine forall₂_congr fun past hpast => ?_
  obtain ⟨c, hrun, -⟩ := run_calls_return capicity hnum past fun turn hturn =>
    (hcalls turn (hpast.subset hturn)).1
  obtain ⟨rest, rfl⟩ := hpast
  have hrun64 := run64_eq hsums.left hrun
  constructor
  · rintro ⟨d, hd, hexact⟩ e he
    cases hrun64.symm.trans hd
    cases hrun.symm.trans he
    exact hexact
  · exact fun hall => ⟨c, hrun64, hall c hrun⟩

/-- Entries are replaced, decay away and are compacted. -/
theorem run_settles_iff_decayed : ∃ c, Stepwise.run call64 (make 10 2).init [.insert 0 (some ⟨1, 4⟩) 0,
      .insert 0 (some ⟨2, 3⟩) 3, .insert 1 (some ⟨3, 5⟩) 1, .decay 1, .decay 1, .compact 1 (fun _ => 2),
      .insert 1 (some ⟨4, 2⟩) 0] = some c ∧
    c.memoryUsed = c.readable := by
  refine (run_settles_iff 10 (by decide) ?_ (by decide +kernel)).mpr (by decide +kernel) _ (List.prefix_refl _)
  simp only [List.forall_mem_cons, Call.InRange, Call.Brings, Option.mem_def, Option.some.injEq, forall_eq',
    List.not_mem_nil, false_imp_iff, implies_true, and_true, true_and]
  decide

/-- A node is queued by its decay and evicted for the next key: its charge is added once more. -/
theorem evict_adds : ¬ ∀ (capicity : Int) (bucketNum : Nat) (calls : List Call) (c : HashSkipCache), 0 < bucketNum →
    (∀ turn ∈ calls, turn.InRange bucketNum ∧ turn.Brings fun x => 0 < x.charge) →
    Stepwise.Along call SumsHold (make capicity bucketNum).init calls →
    (make capicity bucketNum).init.run calls = some c → c.memoryUsed = c.readable := by
  intro hclaim
  have hcalls : ∀ turn ∈ [Call.insert 1 (some ⟨10, 5⟩) 0, .decay 0, .insert 0 (some ⟨20, 6⟩) 0],
      turn.InRange 1 ∧ turn.Brings fun x => 0 < x.charge := by
    simp only [List.forall_mem_cons, Call.InRange, Call.Brings, Option.mem_def, Option.some.injEq, forall_eq',
      List.not_mem_nil, false_imp_iff, implies_true, and_true, true_and]
    decide
  have hsums : Stepwise.Along call SumsHold (make 10 1).init
      [.insert 1 (some ⟨10, 5⟩) 0, .decay 0, .insert 0 (some ⟨20, 6⟩) 0] := by
    decide +kernel
  have hevicts : ¬ Stepwise.Along call Settles (make 10 1).init
      [.insert 1 (some ⟨10, 5⟩) 0, .decay 0, .insert 0 (some ⟨20, 6⟩) 0] := by
    decide +kernel
  refine hevicts ((exact_along_iff 10 (by decide) hcalls).mp fun past hpast c hrun => ?_)
  have hpastcalls := fun turn hturn => hcalls turn (hpast.subset hturn)
  obtain ⟨rest, heq⟩ := hpast
  exact hclaim 10 1 past c (by decide) hpastcalls (Stepwise.Along.left (heq ▸ hsums)) hrun

end HyperCache.HashSkip.HashSkipCache
