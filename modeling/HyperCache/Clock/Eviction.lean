import HyperCache.Clock.Operations

/-! Eviction and insertion.

`Evict` frees entries and reports what it freed; the caller takes that off the
counters, so through the eviction the counters run ahead of the entries by exactly
what was freed (`Evicted`). `Insert` reserves one place and one charge first, and
each of its exits either leaves the reservation to a placed entry or gives it back:
between calls nothing is spare (`insert_spec`). -/
namespace HyperCache.Clock.ClockCache

/-! ### Counters do not matter to the table -/

section Counters
variable {n calls : Nat} {refs : Nat → Nat} {c d e : ClockCache}

theorem SameEntries.of_array (hl : d.length = c.length) (ha : d.array = c.array) :
    SameEntries c d := by
  have hslot : ∀ j, d.slot j = c.slot j := fun j => by rw [slot, ha, slot]
  exact ⟨hl, by rw [ha], fun j => by rw [hslot], fun j => by rw [hslot], fun j => by rw [hslot]⟩

theorem Table.of_array (h : Table n calls refs c) (hl : d.length = c.length)
    (ha : d.array = c.array) : Table n calls refs d := by
  apply h.same (SameEntries.of_array hl ha) h.held
  intro i hi
  rw [slot, ha]
  exact h.word i hi

theorem Kept.of_array (h : Kept n calls refs c d) (hl : e.length = d.length)
    (ha : e.array = d.array) : Kept n calls refs c e where
  table := h.table.of_array hl ha
  fades i k hv := by
    have hslot : e.slot i = d.slot i := by rw [slot, ha, slot]
    rw [hslot] at hv ⊢
    exact h.fades i k hv
  population := by
    rw [(SameEntries.of_array hl ha).population]
    exact h.population

end Counters

/-! ### Evict -/

section Evict
variable {n calls : Nat} {refs : Nat → Nat}

/-- Taking the displacements of an entry back and then the entry out. -/
theorem removed_evict {c : ClockCache} (hc : Sized n c) {i : Nat} (hi : i < c.length.toNat)
    (w : UInt64) : Removed i c
      (((c.setMeta i w).displaceAll (c.probesBefore (c.slot i).hashedKey i) (-1)).clear i) := by
  obtain ⟨array, heq, hlen⟩ :=
    (c.setMeta i w).displaceAll_rest (c.probesBefore (c.slot i).hashedKey i) (-1)
  have hsize : ((c.setMeta i w).displaceAll (c.probesBefore (c.slot i).hashedKey i) (-1)).array.length =
      c.array.length := by rw [heq, hlen, setMeta_size]
  have hilt : i < c.array.length := hc.lt_size.mpr hi
  have hall : ∀ j, ((c.setMeta i w).displaceAll (c.probesBefore (c.slot i).hashedKey i) (-1)).slot j =
      if j ∈ c.probesBefore (c.slot i).hashedKey i
        then {(c.setMeta i w).slot j with displacements := ((c.setMeta i w).slot j).displacements + (-1)}
        else (c.setMeta i w).slot j := by
    intro j
    apply slot_displaceAll _ j (-1) (hc.probesBefore_nodup _ i)
    intro hm
    rw [setMeta_size]
    exact hc.lt_size.mpr (probesBefore_lt hm)
  refine ⟨by rw [clear, heq]; rfl, ?_, ?_, ?_, ?_⟩
  · rw [clear]
    exact (setSlot_size _ i _).trans hsize
  · rw [slot_clear _ i (by rwa [hsize]), if_pos rfl, cleared]
  · intro j hj
    rw [slot_clear _ j (by rwa [hsize]), if_neg hj, hall, slot_setMeta_of_ne c w hj]
    split
    · exact ⟨rfl, rfl⟩
    · exact ⟨rfl, rfl⟩
  · intro j
    rw [slot_clear _ j (by rwa [hsize])]
    by_cases hj : j = i
    · subst hj
      have hself : j ∉ c.probesBefore (c.slot j).hashedKey j := fun hm => probesBefore_ne hm rfl
      rw [if_pos rfl, if_neg hself, cleared, hall, if_neg hself, slot_setMeta_self c w hilt,
        UInt32.sub_zero]
    · rw [if_neg hj, hall, slot_setMeta_of_ne c w hj]
      split
      · rw [UInt32.sub_eq_add_neg]
      · rw [UInt32.sub_zero]

/-- The table and the locals of `Evict` after some slots: what the counters run
ahead by is what was freed. -/
structure Evicted (n calls : Nat) (refs : Nat → Nat) (s s' : EvictState) : Prop where
  kept : Kept n calls refs s.cache s'.cache
  length : s'.cache.length = s.cache.length
  delta : 1 ≤ s.hitDecrDelta → 1 ≤ s'.hitDecrDelta
  occupancy : s'.cache.spareOccupancy - s'.data.freedCount =
    s.cache.spareOccupancy - s.data.freedCount
  usage : s'.cache.spareUsage - s'.data.freedCharge = s.cache.spareUsage - s.data.freedCharge

theorem Evicted.refl {s : EvictState} (h : Table n calls refs s.cache) : Evicted n calls refs s s :=
  ⟨Kept.refl h, rfl, id, rfl, rfl⟩

theorem Evicted.trans {s s' s'' : EvictState} (h : Evicted n calls refs s s')
    (h' : Evicted n calls refs s' s'') : Evicted n calls refs s s'' :=
  ⟨h.kept.trans h'.kept, h'.length.trans h.length, fun hd => h'.delta (h.delta hd),
    h'.occupancy.trans h.occupancy, h'.usage.trans h.usage⟩

/-- One slot under the hand: nothing but a pin is noted, or an entry's hit count is
lowered, or an entry nobody holds is freed. -/
theorem evictSlot_cases {s : EvictState} (h : Table n calls refs s.cache) (hlim : calls + 1 < 2 ^ 30)
    (hdelta : 1 ≤ s.hitDecrDelta) {i : Nat} (hi : i < s.cache.length.toNat) :
    (∃ seen, (refs i = 0 → ¬ NonEmpty (s.cache.slot i) ∧ seen = s.data.seenPinnedCount) ∧
      evictSlot s i = some {s with data := {s.data with seenPinnedCount := seen}}) ∨
    (refs i = 0 ∧ NonEmpty (s.cache.slot i) ∧ state (s.cache.slot i).metaWord = kStateVisible ∧
      ∃ hits : Nat, hits ≤ 2000 ∧ hits < hitCount (s.cache.slot i).metaWord ∧
        evictSlot s i = some {s with cache := s.cache.setMeta i (pack 7 0 hits 0)}) ∨
    (i ∈ s.cache.entries ∧ refs i = 0 ∧ ∃ d, evictSlot s i = some {s with
        cache := d
        data := {s.data with
          freedCharge := s.data.freedCharge + (s.cache.slot i).totalCharge
          freedCount := s.data.freedCount + 1}} ∧
      Freed i s.cache d ∧ d.occupancy = s.cache.occupancy ∧ d.usage = s.cache.usage) := by
  have hsize := h.lt_size.mpr hi
  rcases clockUpdate_spec hsize (h.word i hi) hlim (h.held i) s.data s.hitCountSum hdelta with
    ⟨seen, hseen, heq⟩ | ⟨hrefs, hentry, hits, hhits, hless, hvis, heq⟩ | ⟨hrefs, hentry, heq⟩
  · left
    refine ⟨seen, hseen, ?_⟩
    rw [evictSlot, heq]
    rfl
  · right; left
    refine ⟨hrefs, hentry, hvis, hits, hhits, hless, ?_⟩
    rw [evictSlot, heq]
    rfl
  · right; right
    have hremoved := removed_evict h.toSized hi (kStateConstruction <<< kStateShift ||| 0)
    have hsized : Sized n (s.cache.setMeta i (kStateConstruction <<< kStateShift ||| 0)) :=
      h.toSized.congr rfl (setMeta_size _ _ _)
    have hkey : ((s.cache.setMeta i (kStateConstruction <<< kStateShift ||| 0)).slot i).hashedKey =
        (s.cache.slot i).hashedKey := by rw [slot_setMeta_self _ _ hsize]
    have hbefore : (s.cache.setMeta i (kStateConstruction <<< kStateShift ||| 0)).probesBefore
        (s.cache.slot i).hashedKey i = s.cache.probesBefore (s.cache.slot i).hashedKey i :=
      probesBefore_congr rfl _ i
    have hown : ((s.cache.setMeta i (kStateConstruction <<< kStateShift ||| 0)).displaceAll
        (s.cache.probesBefore (s.cache.slot i).hashedKey i) (-1)).slot i =
        {s.cache.slot i with metaWord := kStateConstruction <<< kStateShift ||| 0} := by
      have hself : i ∉ s.cache.probesBefore (s.cache.slot i).hashedKey i :=
        fun hm => probesBefore_ne hm rfl
      rw [slot_displaceAll _ i (-1) (h.probesBefore_nodup _ i) ?_, if_neg hself,
        slot_setMeta_self _ _ hsize]
      intro hm
      rw [setMeta_size]
      exact h.lt_size.mpr (probesBefore_lt hm)
    obtain ⟨array, hrest, hlen⟩ :=
      (s.cache.setMeta i (kStateConstruction <<< kStateShift ||| 0)).displaceAll_rest
        (s.cache.probesBefore (s.cache.slot i).hashedKey i) (-1)
    have hfree : ((s.cache.setMeta i (kStateConstruction <<< kStateShift ||| 0)).displaceAll
        (s.cache.probesBefore (s.cache.slot i).hashedKey i) (-1)).freeDataMarkEmpty i =
        ((s.cache.setMeta i (kStateConstruction <<< kStateShift ||| 0)).displaceAll
          (s.cache.probesBefore (s.cache.slot i).hashedKey i) (-1)).clear i := by
      apply freeDataMarkEmpty_eq
      rwa [hrest, hlen, setMeta_size]
    refine ⟨mem_entries.mpr ⟨hsize, hentry⟩, hrefs, _, ?_, ⟨hremoved, ?_⟩, ?_, ?_⟩
    · rw [evictSlot, heq]
      simp only [if_true, hkey, rollback_eq hsized.length _ hi, hbefore, trackAndReleaseEvictedEntry]
      show some _ = some _
      rw [hfree]
    · rw [clear, hown, hrest]
      rfl
    · rw [clear, hrest]
      rfl
    · rw [clear, hrest]
      rfl

theorem evictSlot_spec {s : EvictState} (h : Table n calls refs s.cache) (hlim : calls + 1 < 2 ^ 30)
    (hdelta : 1 ≤ s.hitDecrDelta) {i : Nat} (hi : i < s.cache.length.toNat) :
    ∃ s', evictSlot s i = some s' ∧ Evicted n calls refs s s' := by
  rcases evictSlot_cases h hlim hdelta hi with
    ⟨seen, -, heq⟩ | ⟨hrefs, hentry, hvis, hits, hhits, -, heq⟩ | ⟨hmem, hrefs, d, heq, hfreed, hocc, husage⟩
  · exact ⟨_, heq, Kept.refl h, rfl, id, rfl, rfl⟩
  · obtain ⟨hsame, hkept⟩ := Kept.setMeta h hi (by omega) hentry hhits (.inr ⟨rfl, hvis⟩)
    rw [hrefs] at hsame hkept
    refine ⟨_, heq, hkept, rfl, id, ?_, ?_⟩
    · show (s.cache.setMeta i _).spareOccupancy - _ = _
      rw [spareOccupancy, hsame.population]
      rfl
    · show (s.cache.setMeta i _).spareUsage - _ = _
      rw [spareUsage, hsame.charges]
      rfl
  · refine ⟨_, heq, Kept.remove h hfreed.toRemoved hmem hrefs, hfreed.length, id, ?_, ?_⟩
    · have hcount : s.cache.population = _ := (hfreed.population hmem).symm
      rw [spareOccupancy, spareOccupancy, hcount, UInt64.ofNat_add, hocc]
      show s.cache.occupancy - _ - (s.data.freedCount + 1) = _
      rw [UInt64.ofNat_one]
      generalize UInt64.ofNat _ = x
      grind
    · have hcount : s.cache.charges = _ := (hfreed.charges hmem).symm
      rw [spareUsage, spareUsage, hcount, UInt64.ofNat_add, UInt64.ofNat_toNat, husage]
      show s.cache.usage - _ - (s.data.freedCharge + _) = _
      generalize UInt64.ofNat _ = x
      grind

/-! ### The loop of Evict -/

/-- The locals and the pointer of a new round. -/
theorem Evicted.round {s s' : EvictState} (h : Evicted n calls refs s s') (pointer : UInt64)
    {delta : Int} (hdelta : 1 ≤ s.hitDecrDelta → 1 ≤ delta) (sum : Int) :
    Evicted n calls refs s ⟨{s'.cache with clockPointer := pointer}, s'.data, sum, delta⟩ :=
  ⟨h.kept.of_array rfl rfl, h.length, hdelta, h.occupancy, h.usage⟩

/-- What the loop is made of: a slot under the hand, or the locals and the pointer of a
new round. -/
inductive Turn (s : EvictState) : EvictState → Prop
  | slot (pointer : UInt64) {s' : EvictState}
      (hslot : evictSlot s (s.cache.modLength pointer).toNat = some s') : Turn s s'
  | round (pointer : UInt64) {delta : Int} (hdelta : 1 ≤ s.hitDecrDelta → 1 ≤ delta) (sum : Int) :
      Turn s ⟨{s.cache with clockPointer := pointer}, s.data, sum, delta⟩

open Relation in
theorem evictStep_turns {s s' : EvictState} {pointer : UInt64}
    (hrun : evictStep s pointer = some s') : ReflTransGen Turn s s' := by
  have hfold : ∀ (steps : List UInt64) (s₁ : EvictState),
      steps.foldlM (fun s i => evictSlot s (s.cache.modLength (pointer + i)).toNat) s₁ = some s' →
        ReflTransGen Turn s₁ s' := by
    intro steps
    induction steps with
    | nil =>
      intro s₁ hrun
      cases hrun
      exact .refl
    | cons i steps ih =>
      intro s₁ hrun
      rw [List.foldlM_cons] at hrun
      obtain ⟨s₂, hslot, hrun⟩ := Option.bind_eq_some_iff.mp hrun
      exact .head (.slot _ hslot) (ih s₂ hrun)
  exact hfold [0, 1, 2, 3] s hrun

open Relation in
theorem evictLoop_turns (requested pointerEnd : UInt64) {s s' : EvictState} (fuel : Nat)
    (pointer : UInt64) (offset : Int)
    (hrun : evictLoop requested pointerEnd fuel pointer offset s = some s') :
    ReflTransGen Turn s s' := by
  induction fuel generalizing pointer offset s with
  | zero => cases hrun
  | succ fuel ih =>
    rw [evictLoop] at hrun
    obtain ⟨s₁, hstep, hrun⟩ := Option.bind_eq_some_iff.mp hrun
    refine (evictStep_turns hstep).trans ?_
    split at hrun
    · cases hrun
      exact .refl
    split at hrun
    · cases hrun
      exact .refl
    split at hrun
    · cases hrun
      exact .refl
    simp only at hrun
    split at hrun
    · refine .head (.round _ (fun _ => ?_) 0) (ih _ _ hrun)
      show 1 ≤ newHitDecrDelta s₁.hitCountSum s₁.cache.hitDecrDeltaMin
      unfold newHitDecrDelta
      omega
    · exact .head (.round _ id s₁.hitCountSum) (ih _ _ hrun)

theorem Evicted.turn {s s' s'' : EvictState} (h : Evicted n calls refs s s') (hlim : calls + 1 < 2 ^ 30)
    (hdelta : 1 ≤ s.hitDecrDelta) (hturn : Turn s' s'') : Evicted n calls refs s s'' := by
  cases hturn with
  | slot pointer hslot =>
    have hi : (s'.cache.modLength pointer).toNat < s'.cache.length.toNat := by
      rw [modLength_toNat]
      exact Nat.mod_lt _ h.kept.table.pos
    obtain ⟨s₁, heq, hs₁⟩ := evictSlot_spec h.kept.table hlim (h.delta hdelta) hi
    cases heq.symm.trans hslot
    exact h.trans hs₁
  | round pointer hdelta' sum => exact h.round pointer (fun hd => hdelta' (h.delta hd)) sum

theorem evictLoop_spec (requested pointerEnd : UInt64) {s s' : EvictState}
    (hlim : calls + 1 < 2 ^ 30) (fuel : Nat) (pointer : UInt64) (offset : Int)
    (h : Table n calls refs s.cache) (hdelta : 1 ≤ s.hitDecrDelta)
    (hrun : evictLoop requested pointerEnd fuel pointer offset s = some s') :
    Evicted n calls refs s s' := by
  have hturns := evictLoop_turns requested pointerEnd fuel pointer offset hrun
  clear hrun
  induction hturns with
  | refl => exact Evicted.refl h
  | tail _ hturn ih => exact ih.turn hlim hdelta hturn

/-- `Evict` takes entries away, and reports how many and what they charged. -/
theorem evict_spec {c d : ClockCache} (h : Table n calls refs c) (hlim : calls + 1 < 2 ^ 30)
    (hdelta : 1 ≤ c.hitDecrDelta) {requested : UInt64} {data : EvictionData}
    (hrun : c.evict requested = some (data, d)) :
    Kept n calls refs c d ∧ d.length = c.length ∧ 1 ≤ d.hitDecrDelta ∧
      d.spareOccupancy = c.spareOccupancy + data.freedCount ∧
      d.spareUsage = c.spareUsage + data.freedCharge := by
  rw [evict] at hrun
  obtain ⟨s, hloop, hrun⟩ := Option.bind_eq_some_iff.mp hrun
  cases hrun
  have hs := evictLoop_spec requested _ hlim _ _ 0
    (h.of_array (d := {c with clockPointer := c.clockPointer + kStepSize}) rfl rfl) hdelta hloop
  refine ⟨?_, hs.length, hs.delta hdelta, ?_, ?_⟩
  · have hback : Kept n calls refs c {c with clockPointer := c.clockPointer + kStepSize} :=
      (Kept.refl h).of_array rfl rfl
    exact (hback.trans hs.kept).of_array rfl rfl
  · have hspare : s.cache.spareOccupancy - s.data.freedCount = c.spareOccupancy - 0 := hs.occupancy
    show s.cache.spareOccupancy = _
    grind
  · have hspare : s.cache.spareUsage - s.data.freedCharge = c.spareUsage - 0 := hs.usage
    show s.cache.spareUsage = _
    grind

end Evict

/-! ### Insert -/

section Insert
variable {n calls : Nat} {refs : Nat → Nat} {c d : ClockCache}

/-- What `settleCharge` does to the counters: the freed entries are off the occupancy, and the
charge `e` stays reserved if there is room for it. -/
theorem settleCharge_spec {data : EvictionData} {room need : Bool}
    {oldUsage newUsage needCharge e : UInt64} {c : ClockCache}
    (hrun : c.settleCharge data oldUsage newUsage needCharge need = (room, d))
    (husage : c.spareUsage = newUsage - oldUsage + data.freedCharge)
    (hneed : needCharge = oldUsage + e - newUsage) :
    d.length = c.length ∧ d.array = c.array ∧ d.hitDecrDelta = c.hitDecrDelta ∧
      d.spareOccupancy = c.spareOccupancy - data.freedCount ∧
      d.spareUsage = if room then e else 0 := by
  have hcount : ∀ occ use : UInt64, ({c with occupancy := occ, usage := use} : ClockCache).charges =
      c.charges := fun _ _ => rfl
  rw [spareUsage] at husage
  rw [settleCharge] at hrun
  split at hrun
  · cases hrun
    refine ⟨rfl, rfl, rfl, ?_, ?_⟩
    · show c.occupancy - data.freedCount - UInt64.ofNat c.population = _
      unfold spareOccupancy
      grind
    · show c.usage - (data.freedCharge - needCharge) - UInt64.ofNat c.charges = e
      grind
  · rename_i hmore
    split at hrun
    · cases hrun
      refine ⟨rfl, rfl, rfl, ?_, ?_⟩
      · show c.occupancy - data.freedCount - UInt64.ofNat c.population = _
        unfold spareOccupancy
        grind
      · show c.usage - (data.freedCharge + (newUsage - oldUsage)) - UInt64.ofNat c.charges = 0
        grind
    · rename_i hless
      have hexact : data.freedCharge = needCharge := by
        rw [not_or] at hless
        exact UInt64.le_antisymm (UInt64.not_lt.mp hmore) (UInt64.not_lt.mp hless.1)
      cases hrun
      refine ⟨rfl, rfl, rfl, ?_, ?_⟩
      · show c.occupancy - data.freedCount - UInt64.ofNat c.population = _
        unfold spareOccupancy
        grind
      · show c.usage - UInt64.ofNat c.charges = e
        grind

/-- The reservation of one place and, if there is room, of the charge. -/
theorem reserve_spec (h : Table n calls refs c) (hlim : calls + 1 < 2 ^ 30)
    (hdelta : 1 ≤ c.hitDecrDelta) (hocc : c.spareOccupancy = 0) (husage : c.spareUsage = 0)
    {handle : Handle} {room : Bool} (hrun : c.reserve handle = some (room, d)) :
    Kept n calls refs c d ∧ d.length = c.length ∧ 1 ≤ d.hitDecrDelta ∧ d.spareOccupancy = 1 ∧
      d.spareUsage = if room then handle.totalCharge else 0 := by
  rw [reserve, evictForCharge] at hrun
  simp only at hrun
  generalize hreq : (if decide (c.occupancy + 1 > c.occupancyLimit) = true ∧
    c.usage + handle.totalCharge - min c.capacity (c.usage + handle.totalCharge) = 0 then 1
    else c.usage + handle.totalCharge - min c.capacity (c.usage + handle.totalCharge)) = request at hrun
  by_cases hpos : request > 0
  · rw [if_pos hpos] at hrun
    obtain ⟨⟨data, e⟩, hevict, hsettle⟩ := Option.bind_eq_some_iff.mp hrun
    have hstart := h.of_array (d := {c with
      occupancy := c.occupancy + 1, usage := min c.capacity (c.usage + handle.totalCharge)}) rfl rfl
    obtain ⟨hkept, hlen, hdelta', hocc', husage'⟩ := evict_spec hstart hlim hdelta hevict
    have hback : Kept n calls refs c {c with
        occupancy := c.occupancy + 1, usage := min c.capacity (c.usage + handle.totalCharge)} :=
      (Kept.refl h).of_array rfl rfl
    have hspare : e.spareUsage =
        min c.capacity (c.usage + handle.totalCharge) - c.usage + data.freedCharge := by
      rw [husage']
      show min c.capacity _ - UInt64.ofNat c.charges + _ = _
      unfold spareUsage at husage
      generalize min c.capacity (c.usage + handle.totalCharge) = m
      grind
    obtain ⟨hl, ha, hd, ho, hu⟩ := settleCharge_spec (Option.some.inj hsettle) hspare rfl
    refine ⟨(hback.trans hkept).of_array hl ha, hl.trans hlen, hd ▸ hdelta', ?_, hu⟩
    rw [ho, hocc']
    show c.occupancy + 1 - UInt64.ofNat c.population + data.freedCount - data.freedCount = 1
    unfold spareOccupancy at hocc
    grind
  · rw [if_neg hpos] at hrun
    cases hrun
    refine ⟨(Kept.refl h).of_array rfl rfl, rfl, hdelta, ?_, ?_⟩
    · show c.occupancy + 1 - UInt64.ofNat c.population = 1
      unfold spareOccupancy at hocc
      grind
    · have hzero : c.usage + handle.totalCharge - min c.capacity (c.usage + handle.totalCharge) = 0 := by
        have hrequest : request = 0 := by
          rw [← UInt64.toNat_inj]
          exact Nat.eq_zero_of_not_pos fun hp => hpos (UInt64.lt_iff_toNat_lt.mpr hp)
        rw [hrequest] at hreq
        split at hreq
        · exact absurd hreq (by decide)
        · exact hreq
      show min c.capacity (c.usage + handle.totalCharge) - UInt64.ofNat c.charges = handle.totalCharge
      unfold spareUsage at husage
      generalize min c.capacity (c.usage + handle.totalCharge) = m at hzero
      grind

/-- A search for `k` comes to no empty slot before a visible entry of that key. -/
def Unbroken (c : ClockCache) (k : UniqueId64x2) : Prop :=
  ∀ j, j < c.length.toNat → VisibleWith k (c.slot j) → ∀ i ∈ c.probesBefore k j, NonEmpty (c.slot i)

/-- What an insertion leaves. A placed entry is the only new one; where the path of
its key was unbroken no other visible entry has its key. -/
structure Inserted (n calls : Nat) (refs : Nat → Nat) (handle : Handle) (c : ClockCache) (ok : Bool)
    (d : ClockCache) : Prop where
  table : Table n calls refs d
  length : d.length = c.length
  delta : 1 ≤ d.hitDecrDelta
  occupancy : d.spareOccupancy = 0
  usage : d.spareUsage = 0
  population : d.population ≤ c.population + 1
  failed : ok = false → Fades c d
  placed : ok = true → ∃ i e, i < c.length.toNat ∧ Fades c e ∧ Added i handle e d ∧
    ((∀ e, c.reserve handle = some (true, e) → e.Unbroken handle.hashedKey) →
      ∀ j, j < c.length.toNat → ¬ VisibleWith handle.hashedKey (e.slot j))

theorem Added.population {i : Nat} {handle : Handle} (h : Added i handle c d) (hi : i < c.array.length)
    (hempty : i ∉ c.entries) : d.population = c.population + 1 := by
  rw [population_eq, population_eq, h.tally hi hempty]

theorem Added.charges {i : Nat} {handle : Handle} (h : Added i handle c d) (hi : i < c.array.length)
    (hempty : i ∉ c.entries) : d.charges = c.charges + handle.totalCharge.toNat := by
  rw [charges_eq, charges_eq, h.tally hi hempty]

/-- A placed entry uses what was reserved for it. -/
theorem Added.spare {i : Nat} {handle : Handle} (h : Added i handle c d) (hi : i < c.array.length)
    (hempty : i ∉ c.entries) (hrest : d = {c with array := d.array}) (hocc : c.spareOccupancy = 1)
    (husage : c.spareUsage = handle.totalCharge) : d.spareOccupancy = 0 ∧ d.spareUsage = 0 := by
  have hocc' : d.occupancy = c.occupancy := by rw [hrest]
  have husage' : d.usage = c.usage := by rw [hrest]
  unfold spareOccupancy at *
  unfold spareUsage at *
  rw [h.population hi hempty, h.charges hi hempty, hocc', husage', UInt64.ofNat_add, UInt64.ofNat_add,
    UInt64.ofNat_toNat, UInt64.ofNat_one]
  constructor
  · grind
  · grind

/-- On an unbroken path the place found is the only one with the key. -/
theorem none_of_unbroken (h : Table n calls refs c) {handle : Handle} {i : Nat}
    (hi : i < c.length.toNat) (hempty : i ∉ c.entries)
    (hbefore : ∀ j ∈ c.probesBefore handle.hashedKey i, ¬ VisibleWith handle.hashedKey (c.slot j))
    (hun : c.Unbroken handle.hashedKey) :
    ∀ j, j < c.length.toNat → ¬ VisibleWith handle.hashedKey (c.slot j) := by
  intro j hj hv
  have hnone : ¬ NonEmpty (c.slot i) := fun he => hempty (mem_entries.mpr ⟨h.lt_size.mpr hi, he⟩)
  by_cases heq : i = j
  · rw [heq] at hnone
    exact hnone hv.nonEmpty
  · rcases h.before_or_before handle.hashedKey hi hj heq with hij | hji
    · exact hnone (hun j hj hv i hij)
    · exact hbefore j hji hv

/-- The table in the middle of an insertion: entries may have left, and one place and
one charge are reserved. -/
structure Reserved (n calls : Nat) (refs : Nat → Nat) (handle : Handle) (c d : ClockCache) : Prop
    extends Kept n calls refs c d where
  length : d.length = c.length
  delta : 1 ≤ d.hitDecrDelta
  occupancy : d.spareOccupancy = 1
  usage : d.spareUsage = handle.totalCharge

/-- The last exit of `Insert` gives the reservation back. -/
theorem Reserved.giveBack {handle : Handle} (h : Reserved n calls refs handle c d) :
    Inserted n calls refs handle c false
      {d with occupancy := d.occupancy - 1, usage := d.usage - handle.totalCharge} := by
  have hkept := h.toKept.of_array
    (e := {d with occupancy := d.occupancy - 1, usage := d.usage - handle.totalCharge}) rfl rfl
  refine ⟨hkept.table, h.length, h.delta, ?_, ?_, hkept.population.trans (Nat.le_succ _),
    fun _ => hkept.fades, by simp⟩
  · have hocc := h.occupancy
    show d.occupancy - 1 - UInt64.ofNat d.population = 0
    unfold spareOccupancy at hocc
    grind
  · have husage := h.usage
    show d.usage - handle.totalCharge - UInt64.ofNat d.charges = 0
    unfold spareUsage at husage
    grind

/-- A search that placed the entry leaves the reservation to it. -/
theorem Reserved.place {handle : Handle} {e : ClockCache} {i : Nat}
    (h : Reserved n calls refs handle c d) (hlim : calls < 2 ^ 30) (hadded : Added i handle d e)
    (hi : i < d.length.toNat) (hempty : i ∉ d.entries) (hrest : e = {d with array := e.array})
    (hnone : (∀ e, c.reserve handle = some (true, e) → e.Unbroken handle.hashedKey) →
      ∀ j, j < c.length.toNat → ¬ VisibleWith handle.hashedKey (d.slot j)) :
    Inserted n calls refs handle c true e := by
  have hsize := h.table.lt_size.mpr hi
  obtain ⟨hocc, husage⟩ := hadded.spare hsize hempty hrest h.occupancy h.usage
  refine ⟨h.table.add hlim hadded hi hempty, hadded.length.trans h.length, by rw [hrest]; exact h.delta,
    hocc, husage, ?_, by simp, fun _ => ⟨i, d, by rwa [← h.length], h.fades, hadded, hnone⟩⟩
  rw [hadded.population hsize hempty]
  exact Nat.add_le_add_right h.population 1

theorem eraseAndInsert_spec {handle : Handle} {ok : Bool} {e : ClockCache}
    (h : Reserved n calls refs handle c d) (hlim : calls + 1 < 2 ^ 30) (hpop : c.population < 2 ^ 32)
    (hrun : d.eraseAndInsert handle = some (ok, e)) :
    (ok = false ∧ Reserved n calls refs handle c e) ∨
      (ok = true ∧ Inserted n calls refs handle c true e) := by
  obtain ⟨erased, d', herase, hd', hgone⟩ := erase_spec h.table hlim
    (Nat.lt_of_le_of_lt h.population hpop) handle.hashedKey
  have hres : Reserved n calls refs handle c d' :=
    ⟨h.toKept.trans hd'.toKept, hd'.length.trans h.length, hd'.delta ▸ h.delta,
      hd'.occupancy.trans h.occupancy, hd'.usage.trans h.usage⟩
  rw [eraseAndInsert, herase] at hrun
  cases erased with
  | false =>
    cases hrun
    exact .inl ⟨rfl, hres⟩
  | true =>
    obtain ⟨r, already, d'', hdo, hplaced⟩ := doInsert_spec hres.table hlim handle
    simp only [Option.bind_eq_bind, Option.bind_some, hdo, Bool.not_true, Bool.false_eq_true,
      if_false] at hrun
    cases hplaced with
    | inserted i e' hadded hi hempty hrest hbefore =>
      cases hrun
      refine .inr ⟨rfl, hres.place (by omega) hadded hi hempty hrest fun _ j hj => ?_⟩
      exact hgone j (by rwa [h.length])
    | matched =>
      cases hrun
      exact .inl ⟨rfl, hres⟩
    | full =>
      cases hrun
      exact .inl ⟨rfl, hres⟩

/-- **Every exit of `Insert` settles its accounts.** Nothing is spare afterwards if
nothing was before. -/
theorem insert_spec (h : Table n calls refs c) (hlim : calls + 1 < 2 ^ 30)
    (hpop : c.population < 2 ^ 32) (hdelta : 1 ≤ c.hitDecrDelta) (hocc : c.spareOccupancy = 0)
    (husage : c.spareUsage = 0) {handle : Handle} {ok : Bool}
    (hrun : c.insert handle = some (ok, d)) : Inserted n calls refs handle c ok d := by
  rw [insert] at hrun
  obtain ⟨⟨room, e⟩, hreserve, hrun⟩ := Option.bind_eq_some_iff.mp hrun
  obtain ⟨hkept, hlen, hdelta', hocc', husage'⟩ := reserve_spec h hlim hdelta hocc husage hreserve
  cases room with
  | false =>
    cases hrun
    have hkept' := hkept.of_array (e := {e with occupancy := e.occupancy - 1}) rfl rfl
    refine ⟨hkept'.table, hlen, hdelta', ?_, husage', hkept'.population.trans (Nat.le_succ _),
      fun _ => hkept'.fades, by simp⟩
    show e.occupancy - 1 - UInt64.ofNat e.population = 0
    unfold spareOccupancy at hocc'
    grind
  | true =>
    have hres : Reserved n calls refs handle c e := ⟨hkept, hlen, hdelta', hocc', husage'⟩
    obtain ⟨r, already, e', hdo, hplaced⟩ := doInsert_spec hkept.table hlim handle
    simp only [Option.bind_eq_bind, Option.bind_some, hdo, Bool.not_true, Bool.false_eq_true,
      if_false] at hrun
    cases hplaced with
    | inserted i _ hadded hi hempty hrest hbefore =>
      cases hrun
      refine hres.place (by omega) hadded hi hempty hrest fun hun j hj => ?_
      exact none_of_unbroken hkept.table hi hempty (fun j hj => (hbefore j hj).2)
        (hun e hreserve) j (by rwa [hlen])
    | matched =>
      obtain ⟨⟨updated, e'⟩, hupdate, hrun⟩ := Option.bind_eq_some_iff.mp hrun
      rcases eraseAndInsert_spec hres hlim hpop hupdate with ⟨rfl, hres'⟩ | ⟨rfl, hins⟩
      · cases hrun
        exact hres'.giveBack
      · cases hrun
        exact hins
    | full =>
      cases hrun
      exact hres.giveBack

end Insert

end HyperCache.Clock.ClockCache
