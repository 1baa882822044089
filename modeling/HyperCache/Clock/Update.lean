import HyperCache.Clock.Erasure

/-! What an insertion that fails leaves behind.

`Insert` returns false where there is no room, where no slot is free, and where it comes
to a visible entry of its key and erases it without freeing one: `Erase` hides the entry
of a key that is held, and reports that it did not succeed. The first two exits lose
nothing but what was evicted (`Worn`); the third loses the key (`insert_blocked`). -/
namespace HyperCache.Clock

namespace ClockCache

/-- The table after the clock hand: entries were freed, or their hit counts lowered. -/
def Worn (c d : ClockCache) : Prop :=
  ∀ i, NonEmpty (d.slot i) → state (d.slot i).metaWord = state (c.slot i).metaWord ∧
    (d.slot i).toHandle = (c.slot i).toHandle

namespace Worn
variable {c d e : ClockCache}

theorem refl (c : ClockCache) : Worn c c := fun _ _ => ⟨rfl, rfl⟩

theorem nonEmpty (h : Worn c d) {i : Nat} (he : NonEmpty (d.slot i)) : NonEmpty (c.slot i) := by
  rw [NonEmpty, ← (h i he).1]
  exact he

theorem trans (h : Worn c d) (h' : Worn d e) : Worn c e := by
  intro i he
  obtain ⟨hstate, hh⟩ := h' i he
  obtain ⟨hstate', hh'⟩ := h i (h'.nonEmpty he)
  exact ⟨hstate.trans hstate', hh.trans hh'⟩

theorem visible (h : Worn c d) {i : Nat} (he : NonEmpty (d.slot i)) (k : UniqueId64x2) :
    VisibleWith k (d.slot i) ↔ VisibleWith k (c.slot i) := by
  obtain ⟨hstate, hh⟩ := h i he
  rw [VisibleWith, VisibleWith, hstate, congrArg Handle.hashedKey hh]

theorem of_array (ha : d.array = c.array) : Worn c d := by
  intro i _
  rw [slot, ha, slot]
  exact ⟨rfl, rfl⟩

end Worn

section Evict
variable {n calls : Nat} {refs : Nat → Nat}

theorem evictSlot_worn {s s' : EvictState} (h : Table n calls refs s.cache) (hlim : calls + 1 < 2 ^ 30)
    (hdelta : 1 ≤ s.hitDecrDelta) {i : Nat} (hi : i < s.cache.length.toNat)
    (hrun : evictSlot s i = some s') : Worn s.cache s'.cache := by
  have hsize := h.lt_size.mpr hi
  rcases evictSlot_cases h hlim hdelta hi with
    ⟨seen, -, heq⟩ | ⟨hrefs, hentry, hvis, hits, hhits, -, heq⟩ | ⟨hmem, hrefs, d, heq, hfreed, -⟩
  · cases heq.symm.trans hrun
    exact Worn.refl _
  · cases heq.symm.trans hrun
    intro j _
    by_cases hj : j = i
    · subst hj
      rw [slot_setMeta_self _ _ hsize, hvis]
      exact ⟨state_visible (by omega) (by omega), rfl⟩
    · rw [slot_setMeta_of_ne _ _ hj]
      exact ⟨rfl, rfl⟩
  · cases heq.symm.trans hrun
    intro j hj
    by_cases hji : j = i
    · subst hji
      refine absurd hj ?_
      rw [NonEmpty, hfreed.word]
      decide
    · obtain ⟨hw, hh⟩ := hfreed.other j hji
      exact ⟨by rw [hw], hh⟩

theorem evict_worn {c d : ClockCache} (h : Table n calls refs c) (hlim : calls + 1 < 2 ^ 30)
    (hdelta : 1 ≤ c.hitDecrDelta) {requested : UInt64} {data : EvictionData}
    (hrun : c.evict requested = some (data, d)) : Worn c d := by
  rw [evict] at hrun
  obtain ⟨s, hloop, hdone⟩ := Option.bind_eq_some_iff.mp hrun
  cases hdone
  have hturns := evictLoop_turns _ _ _ _ _ hloop
  clear hloop hrun
  -- the hand keeps the table in order, and so each of its turns wears it
  have hstart : Table n calls refs {c with clockPointer := c.clockPointer + kStepSize} := h.of_array rfl rfl
  have hworn : Evicted n calls refs ⟨{c with clockPointer := c.clockPointer + kStepSize}, {}, 0, c.hitDecrDelta⟩ s ∧
      Worn c s.cache := by
    induction hturns with
    | refl => exact ⟨Evicted.refl hstart, Worn.of_array rfl⟩
    | tail _ hturn ih =>
      obtain ⟨hevicted, hworn⟩ := ih
      refine ⟨hevicted.turn hlim hdelta hturn, hworn.trans ?_⟩
      cases hturn with
      | slot pointer hslot =>
        refine evictSlot_worn hevicted.kept.table hlim (hevicted.delta hdelta) ?_ hslot
        rw [modLength_toNat]
        exact Nat.mod_lt _ hevicted.kept.table.pos
      | round pointer hdelta sum => exact Worn.of_array rfl
  exact hworn.2.trans (Worn.of_array rfl)

theorem settleCharge_array (c : ClockCache) (data : EvictionData) (oldUsage newUsage needCharge : UInt64)
    (need : Bool) : (c.settleCharge data oldUsage newUsage needCharge need).2.array = c.array := by
  rw [settleCharge]
  split
  · rfl
  · split
    · rfl
    · rfl

theorem reserve_worn {c d : ClockCache} (h : Table n calls refs c) (hlim : calls + 1 < 2 ^ 30)
    (hdelta : 1 ≤ c.hitDecrDelta) {handle : Handle} {room : Bool}
    (hrun : c.reserve handle = some (room, d)) : Worn c d := by
  rw [reserve, evictForCharge] at hrun
  simp only at hrun
  generalize (if decide (c.occupancy + 1 > c.occupancyLimit) = true ∧
    c.usage + handle.totalCharge - min c.capacity (c.usage + handle.totalCharge) = 0 then 1
    else c.usage + handle.totalCharge - min c.capacity (c.usage + handle.totalCharge)) = request at hrun
  by_cases hpos : request > 0
  · rw [if_pos hpos] at hrun
    obtain ⟨⟨data, e⟩, hevict, hsettle⟩ := Option.bind_eq_some_iff.mp hrun
    have hstart := h.of_array (d := {c with
      occupancy := c.occupancy + 1, usage := min c.capacity (c.usage + handle.totalCharge)}) rfl rfl
    have hworn := evict_worn hstart hlim hdelta hevict
    have harray := settleCharge_array e data c.usage (min c.capacity (c.usage + handle.totalCharge))
      (c.usage + handle.totalCharge - min c.capacity (c.usage + handle.totalCharge))
      (decide (c.occupancy + 1 > c.occupancyLimit))
    rw [Option.some.inj hsettle] at harray
    exact (Worn.of_array rfl).trans (hworn.trans (Worn.of_array harray))
  · rw [if_neg hpos] at hrun
    cases hrun
    exact Worn.of_array rfl

end Evict

/-! ### Erase and search again -/

/-- An update that frees an entry finds a place: its second search meets no entry of the key,
and a slot is free. -/
theorem eraseAndInsert_freed {n calls : Nat} {refs : Nat → Nat} {c : ClockCache} (h : Table n calls refs c)
    (hlim : calls + 1 < 2 ^ 30) (hpop : c.population < 2 ^ 32) {handle : Handle} {i : Nat}
    (hv : VisibleWith handle.hashedKey (c.slot i)) (hfree : refs i = 0) :
    ∃ d, c.eraseAndInsert handle = some (true, d) := by
  obtain ⟨erased, c₁, herase, hc₁⟩ := erase_slots h hlim hpop handle.hashedKey
  obtain rfl := hc₁.ok.mpr (.inl ⟨i, hv, hfree⟩)
  have hgone : ¬ NonEmpty (c₁.slot i) := (hc₁.taken i hv).emptied hfree
  have hi : i < c₁.length.toNat := by
    rw [hc₁.erased.length]
    exact h.lt_size.mp (lt_of_nonEmpty hv.nonEmpty)
  obtain ⟨r, already, d, hdo, hplaced, hno⟩ := doInsert_place hc₁.erased.table hlim handle
  cases hplaced with
  | inserted j _ hadded hj hempty hrest hbefore =>
    refine ⟨d, ?_⟩
    rw [eraseAndInsert, herase]
    simp only [Option.bind_eq_bind, Option.bind_some, hdo]
    rfl
  | matched =>
    obtain ⟨j, hvj, -⟩ := hno.matched rfl
    exact absurd hvj (hc₁.hidden _ j)
  | full => exact absurd (hno.full rfl rfl i hi).1 hgone

end ClockCache

namespace Session
open ClockCache

/-- The entry of slot `i` is freed by the clock hand in `Insert`: its slot is empty once
room was made. -/
def Evicts (s : Session) (handle : Handle) (i : Nat) : Prop :=
  ∃ room e, s.cache.reserve handle = some (room, e) ∧ NonEmpty (s.cache.slot i) ∧ ¬ NonEmpty (e.slot i)

/-- A failed insertion of `handle` that left the table `d`: the entry that a lookup of a key
ended at before is lost only if it was evicted, and the handle was stored nowhere. -/
structure OnlyEvicted (s : Session) (handle : Handle) (d : ClockCache) : Prop where
  found : ∀ k i, VisibleWith k (s.cache.slot i) → ∃ j c, s.cache.lookup k = some (some j, c) ∧
    (¬ s.Evicts handle j →
      ∃ j' c', d.lookup k = some (some j', c') ∧ (c'.slot j').value = (c.slot j).value)
  stored : ∀ i, NonEmpty (d.slot i) →
    NonEmpty (s.cache.slot i) ∧ (d.slot i).toHandle = (s.cache.slot i).toHandle

/-- After the evictions of the insertion its search comes to a visible entry of the key,
and every visible entry of the key is held. -/
def Blocked (s : Session) (handle : Handle) : Prop :=
  ∃ e, s.cache.reserve handle = some (true, e) ∧ e.Meets handle.hashedKey ∧
    ∀ i, VisibleWith handle.hashedKey (e.slot i) → i ∈ s.held

section Insert
variable {n lookups : Nat} {s : Session} (h : Sound n lookups s) (hlim : lookups + 1 < 2 ^ 30)
  (hpop : s.cache.population < 2 ^ 32) {handle : Handle} {d : ClockCache}
include h hlim hpop

/-- The exits of `Insert` that return false: the table as the eviction left it, or the
update of a key that is held. -/
theorem Sound.insert_failed (hrun : s.cache.insert handle = some (false, d)) :
    ∃ room e, s.cache.reserve handle = some (room, e) ∧
      (d.length = e.length ∧ d.array = e.array ∨ s.Blocked handle) := by
  rw [ClockCache.insert] at hrun
  obtain ⟨⟨room, e⟩, hreserve, hrun⟩ := Option.bind_eq_some_iff.mp hrun
  refine ⟨room, e, hreserve, ?_⟩
  obtain ⟨hkept, hlen, -⟩ := reserve_spec h.table hlim h.delta h.occupancy h.usage hreserve
  cases room with
  | false =>
    cases hrun
    exact .inl ⟨rfl, rfl⟩
  | true =>
    obtain ⟨r, already, e', hdo, hplaced, hno⟩ := doInsert_place hkept.table hlim handle
    simp only [Option.bind_eq_bind, Option.bind_some, hdo, Bool.not_true, Bool.false_eq_true,
      if_false] at hrun
    cases hplaced with
    | inserted i _ hadded hi hempty hrest hbefore => cases hrun
    | full =>
      cases hrun
      exact .inl ⟨rfl, rfl⟩
    | matched =>
      right
      obtain ⟨⟨updated, e'⟩, hupdate, hrun⟩ := Option.bind_eq_some_iff.mp hrun
      refine ⟨e, hreserve, hno.matched rfl, fun j hj => ?_⟩
      by_contra hheld
      obtain ⟨e₁, hplaced⟩ := eraseAndInsert_freed hkept.table hlim
        (Nat.lt_of_le_of_lt hkept.population hpop) hj (List.count_eq_zero.mpr hheld)
      cases hplaced.symm.trans hupdate
      cases hrun

/-- Where the update is blocked, the insertion fails and the key is gone. -/
theorem Sound.insert_blocked (hblocked : s.Blocked handle) :
    ∃ d, s.cache.insert handle = some (false, d) ∧ Kept n lookups (fun i => s.held.count i) s.cache d ∧
      ∀ i, ¬ VisibleWith handle.hashedKey (d.slot i) := by
  obtain ⟨e, hreserve, ⟨i, hv, hbefore⟩, hheld⟩ := hblocked
  obtain ⟨hkept, hlen, -⟩ := reserve_spec h.table hlim h.delta h.occupancy h.usage hreserve
  obtain ⟨r, already, e', hdo, hplaced, hno⟩ := doInsert_place hkept.table hlim handle
  have hi : i < e.length.toNat := hkept.table.lt_size.mp (lt_of_nonEmpty hv.nonEmpty)
  cases hplaced with
  | full => exact absurd hv (hno.full rfl rfl i hi).2
  | inserted j _ hadded hj hempty hrest hnone =>
    have hfree : ¬ NonEmpty (e.slot j) := fun he => hempty (mem_entries.mpr ⟨hkept.table.lt_size.mpr hj, he⟩)
    have hne : i ≠ j := by
      rintro rfl
      exact hfree hv.nonEmpty
    rcases hkept.table.before_or_before handle.hashedKey hi hj hne with hij | hji
    · exact absurd hv (hnone i hij).2
    · exact absurd (hbefore j hji) hfree
  | matched =>
    obtain ⟨erased, e₁, herase, he₁⟩ := erase_slots hkept.table hlim
      (Nat.lt_of_le_of_lt hkept.population hpop) handle.hashedKey
    have hkeeps : erased = false := by
      rw [← Bool.not_eq_true, he₁.ok]
      rintro (⟨j, hj, hfree⟩ | hnone)
      · exact List.count_eq_zero.mp hfree (hheld j hj)
      · exact hnone i hv
    subst hkeeps
    refine ⟨{e₁ with occupancy := e₁.occupancy - 1, usage := e₁.usage - handle.totalCharge}, ?_,
      (hkept.trans he₁.erased.toKept).of_array rfl rfl, fun j => he₁.hidden _ j⟩
    rw [ClockCache.insert, hreserve]
    simp only [Option.bind_eq_bind, Option.bind_some, hdo, eraseAndInsert, herase]
    rfl

/-- A key whose visible entry is not evicted is found where it was. -/
theorem Sound.found_worn {room : Bool} {e : ClockCache} (hreserve : s.cache.reserve handle = some (room, e))
    (hl : d.length = e.length) (ha : d.array = e.array) {k : UniqueId64x2} {i : Nat}
    (hfirst : s.cache.firstVisible k = some i) (he : NonEmpty (e.slot i)) :
    ∃ c, d.lookup k = some (some i, c) ∧ (c.slot i).toHandle = (s.cache.slot i).toHandle := by
  obtain ⟨hkept, hlen, -⟩ := reserve_spec h.table hlim h.delta h.occupancy h.usage hreserve
  have hworn := reserve_worn h.table hlim h.delta hreserve
  obtain ⟨hv, pre, post, hsplit, hpre⟩ := List.find?_eq_some_iff_append.mp hfirst
  have hsplit' : e.probePath k = pre ++ i :: post := by
    rw [probePath, hlen]
    exact hsplit
  have hfirst' : e.firstVisible k = some i := by
    apply firstVisible_of_split k hsplit' fun j hj hvj => ?_
    · exact (hworn.visible he k).mpr (of_decide_eq_true hv)
    · have hnot := hpre j hj
      rw [decide_eq_true (hkept.fades j k hvj).1] at hnot
      exact absurd hnot (by decide)
  have hslot : ∀ j, d.slot j = e.slot j := fun j => by rw [slot, ha, slot]
  have hsame := SameEntries.of_array hl ha
  have hpop' : d.population < 2 ^ 32 := by
    rw [hsame.population]
    exact Nat.lt_of_le_of_lt hkept.population hpop
  obtain ⟨c, hlookup, hc⟩ := lookup_first (hkept.table.of_array hl ha) hlim hpop' k
  rw [firstVisible_congr hl fun j => by rw [hslot], hfirst'] at hlookup hc
  refine ⟨c, hlookup, ?_⟩
  rw [hc.same.handle, hslot]
  exact (hworn i he).2

/-- **When a failed insertion loses nothing but evictions**: exactly where its update is
not blocked. -/
theorem Sound.insert_failed_iff :
    (∀ d, s.cache.insert handle = some (false, d) → s.OnlyEvicted handle d) ↔ ¬ s.Blocked handle := by
  constructor
  · intro hclaim hblocked
    obtain ⟨d, hinsert, hd, hgone⟩ := h.insert_blocked hlim hpop hblocked
    obtain ⟨e, hreserve, ⟨i, hv, hbefore⟩, -⟩ := hblocked
    obtain ⟨hkept, hlen, -⟩ := reserve_spec h.table hlim h.delta h.occupancy h.usage hreserve
    have hvc : VisibleWith handle.hashedKey (s.cache.slot i) := (hkept.fades i _ hv).1
    have hi : i < s.cache.length.toNat := h.table.lt_size.mp (lt_of_nonEmpty hvc.nonEmpty)
    obtain ⟨j, c, hlookup, hfound⟩ := (hclaim d hinsert).found handle.hashedKey i hvc
    obtain ⟨c', hlookup', hc'⟩ := lookup_first h.table hlim hpop handle.hashedKey
    have hfirst : s.cache.firstVisible handle.hashedKey = some j :=
      (Prod.mk.inj (Option.some.inj (hlookup'.symm.trans hlookup))).1
    rw [hfirst] at hc'
    -- the first visible entry lies before the one the search met, so it was not evicted
    have hkeep : ¬ s.Evicts handle j := by
      rintro ⟨room, e', hreserve', -, hempty⟩
      obtain ⟨-, rfl⟩ := Prod.mk.inj (Option.some.inj (hreserve.symm.trans hreserve'))
      have hne : j ≠ i := by
        rintro rfl
        exact hempty hv.nonEmpty
      rcases h.table.before_or_before handle.hashedKey (hc'.found j rfl).1 hi hne with hji | hij
      · rw [← probesBefore_congr hlen] at hji
        exact hempty (hbefore j hji)
      · exact not_visible_before h.table _ hfirst hij hvc
    obtain ⟨j', c'', hafter, -⟩ := hfound hkeep
    obtain ⟨c₃, hmiss, -⟩ := lookup_first hd.table hlim (Nat.lt_of_le_of_lt hd.population hpop) handle.hashedKey
    rw [(firstVisible_eq_none hd.table handle.hashedKey).mpr fun i _ => hgone i, hafter] at hmiss
    cases hmiss
  · intro hno d hinsert
    obtain ⟨room, e, hreserve, hd⟩ := h.insert_failed hlim hpop hinsert
    obtain ⟨hl, ha⟩ := hd.resolve_right hno
    have hworn := reserve_worn h.table hlim h.delta hreserve
    refine ⟨fun k i hv => ?_, fun i he => ?_⟩
    · obtain ⟨c, hlookup, hc⟩ := lookup_first h.table hlim hpop k
      cases hfirst : s.cache.firstVisible k with
      | none =>
        have hi := h.table.lt_size.mp (lt_of_nonEmpty hv.nonEmpty)
        exact absurd hv ((firstVisible_eq_none h.table k).mp hfirst i hi)
      | some j =>
        rw [hfirst] at hlookup hc
        refine ⟨j, c, hlookup, fun hkeep => ?_⟩
        have he : NonEmpty (e.slot j) := by
          by_contra he
          exact hkeep ⟨room, e, hreserve, (hc.found j rfl).2.nonEmpty, he⟩
        obtain ⟨c', hlookup', hsame⟩ := h.found_worn hlim hpop hreserve hl ha hfirst he
        refine ⟨j, c', hlookup', ?_⟩
        rw [congrArg Handle.value hsame, congrArg Handle.value (hc.same.handle j)]
    · have hslot : d.slot i = e.slot i := by rw [slot, ha, slot]
      rw [hslot] at he ⊢
      exact ⟨hworn.nonEmpty he, (hworn i he).2⟩

end Insert

/-! ### Runs of any length -/

/-- No reference field of the table is full, and the entries are few enough to be counted. -/
def Roomy (s : Session) : Prop :=
  (∀ i, i < s.cache.length.toNat → refCount (s.cache.slot i).metaWord + 1 < 2 ^ 30) ∧
    s.cache.population < 2 ^ 32

/-- There is room in every state of the run. -/
def RoomyRun : Session → List Call → Prop
  | s, [] => s.Roomy
  | s, call :: calls => s.Roomy ∧ ∀ s' ∈ s.call call, RoomyRun s' calls

/-- A reference field bounds what it counts. -/
theorem word_of_refCount {calls refs m : Nat} {w : UInt64} (h : Word calls refs w) (hcalls : calls < 2 ^ 30)
    (hrefs : refs ≤ calls) (hle : refCount w ≤ m) : refs ≤ m ∧ Word m refs w := by
  cases h with
  | empty stray hs hr hw =>
    have hcount : refCount w = stray := by rw [hw, refCount_pack (fits_empty (by omega))]
    exact ⟨by omega, .empty stray (by omega) hr hw⟩
  | entry st hits hst hh hw =>
    have hcount : refCount w = refs := by rw [hw, refCount_pack (fits_entry hst (by omega) (by omega))]
    exact ⟨by omega, .entry st hits hst hh hw⟩

theorem refCount_le {calls refs : Nat} {w : UInt64} (h : Word calls refs w) (hcalls : calls < 2 ^ 30)
    (hrefs : refs ≤ calls) : refCount w ≤ calls := by
  cases h with
  | empty stray hs hr hw =>
    rw [hw, refCount_pack (fits_empty (by omega))]
    exact Int.ofNat_le.mpr hs
  | entry st hits hst hh hw =>
    rw [hw, refCount_pack (fits_entry hst (by omega) (by omega))]
    exact Int.ofNat_le.mpr hrefs

section Run
variable {n lookups : Nat} {s s' : Session}

theorem Sound.mono (h : Sound n lookups s) {lookups' : Nat} (hle : lookups ≤ lookups') :
    Sound n lookups' s :=
  ⟨⟨h.table.toSized, fun i => (h.table.held i).trans hle, fun i hi => (h.table.word i hi).mono hle,
    h.table.displacements⟩, h.inTable, h.delta, h.occupancy, h.usage⟩

/-- Whatever number of lookups there were, only what the fields hold now matters. -/
theorem Sound.tighten (h : Sound n lookups s) (hlim : lookups < 2 ^ 30) (hroomy : s.Roomy) :
    Sound n (2 ^ 30 - 2) s := by
  have hfits : ∀ i, i < s.cache.length.toNat → s.held.count i ≤ 2 ^ 30 - 2 ∧
      Word (2 ^ 30 - 2) (s.held.count i) (s.cache.slot i).metaWord := by
    intro i hi
    have := hroomy.1 i hi
    exact word_of_refCount (h.table.word i hi) hlim (h.table.held i) (by omega)
  refine ⟨⟨h.table.toSized, fun i => ?_, fun i hi => (hfits i hi).2, h.table.displacements⟩, h.inTable,
    h.delta, h.occupancy, h.usage⟩
  by_cases hi : i < s.cache.length.toNat
  · exact (hfits i hi).1
  · rw [List.count_eq_zero.mpr fun hmem => hi (h.inTable i hmem)]
    exact Nat.zero_le _

/-- **The step lemma**: every call that finds room keeps the session sound. -/
theorem Sound.call (h : Sound n lookups s) (hlim : lookups + 1 < 2 ^ 30)
    (hpop : s.cache.population < 2 ^ 32) {call : Call} (hcall : s.call call = some s') :
    Sound n (lookups + 1) s' := by
  cases call with
  | insert handle => exact (h.insert hlim hpop hcall).1.mono (Nat.le_succ _)
  | lookup k => exact (h.lookup hlim hpop hcall).1
  | release i => exact (h.release hlim hcall).1.mono (Nat.le_succ _)
  | erase k => exact (h.erase hlim hpop hcall).1.mono (Nat.le_succ _)

/-- **The run lemma**: the session is sound between all calls. -/
theorem Sound.run (h : Sound n lookups s) (hlim : lookups < 2 ^ 30) (calls : List Call)
    (hroomy : s.RoomyRun calls) (hrun : s.run calls = some s') : Sound n (2 ^ 30 - 2) s' ∧ s'.Roomy := by
  induction calls generalizing lookups s with
  | nil =>
    cases hrun
    exact ⟨h.tighten hlim hroomy, hroomy⟩
  | cons call calls ih =>
    rw [run_cons] at hrun
    obtain ⟨s₁, hcall, hrun⟩ := Option.bind_eq_some_iff.mp hrun
    have h₁ := (h.tighten hlim hroomy.1).call (by omega) hroomy.1.2 hcall
    exact ih h₁ (by omega) (hroomy.2 s₁ hcall) hrun

/-- In a short run there is always room. -/
theorem Valid.roomyRun {inserts : Nat} (h : Valid n lookups inserts s) (calls : List Call)
    (hlim : lookups + inserts + calls.length + 1 < 2 ^ 30) : s.RoomyRun calls := by
  have hroomy : s.Roomy := by
    refine ⟨fun i hi => ?_, h.pop_lt (by omega)⟩
    have hle := refCount_le (h.table.word i hi) (by omega) (h.table.held i)
    omega
  induction calls generalizing lookups inserts s with
  | nil => exact hroomy
  | cons call calls ih =>
    rw [List.length_cons] at hlim
    refine ⟨hroomy, fun s' hcall => ?_⟩
    obtain ⟨l, m, hle, h'⟩ := h.call (by omega) hcall
    refine ih h' (by omega) ⟨fun i hi => ?_, h'.pop_lt (by omega)⟩
    have hle' := refCount_le (h'.table.word i hi) (by omega) (h'.table.held i)
    omega

end Run

/-- **A failed insertion loses nothing but evictions exactly where it is not blocked**: in
every state of a run that always had room, whatever the key and the handle. -/
theorem run_insert_failed {options : ClockCacheOptions} {n : Nat} (hlen : options.length.toNat = 2 ^ n)
    {calls : List Call} {s : Session} (hrun : (start options).run calls = some s)
    (hroomy : (start options).RoomyRun calls) (handle : Handle) :
    (∀ d, s.cache.insert handle = some (false, d) → s.OnlyEvicted handle d) ↔ ¬ s.Blocked handle := by
  obtain ⟨h, hroom⟩ := (Valid.start hlen).sound.run (by omega) calls hroomy hrun
  exact h.insert_failed_iff (by omega) hroom.2

/-- Two entries, one of them held: a larger value for the held key does not fit even after the
other entry was evicted, so the insertion fails, and the held key is still found as it was. -/
theorem run_insert_failed_held : ∃ s d, (start ⟨3, 4, 0, 4, 1⟩).run
    [.insert ⟨10, 1, (2, 0), 1⟩, .insert ⟨20, 1, (4, 0), 1⟩, .lookup (2, 0)] = some s ∧
    s.cache.insert ⟨30, 1, (2, 0), 3⟩ = some (false, d) ∧ (∃ i, s.Evicts ⟨30, 1, (2, 0), 3⟩ i) ∧
    s.OnlyEvicted ⟨30, 1, (2, 0), 3⟩ d := by
  have hany : ((start ⟨3, 4, 0, 4, 1⟩).run
      [.insert ⟨10, 1, (2, 0), 1⟩, .insert ⟨20, 1, (4, 0), 1⟩, .lookup (2, 0)]).any
      (fun s => (s.cache.insert ⟨30, 1, (2, 0), 3⟩).any (fun p => p.1 = false) ∧
        (s.cache.reserve ⟨30, 1, (2, 0), 3⟩).any fun r => r.1 = false ∧
          (List.range 4).any fun i => NonEmpty (s.cache.slot i) ∧ ¬ NonEmpty (r.2.slot i)) = true := by
    decide +kernel
  obtain ⟨s, hrun, hs⟩ := (Option.any_eq_true _ _).mp hany
  obtain ⟨hinsert, hreserve⟩ := of_decide_eq_true hs
  obtain ⟨⟨ok, d⟩, hinsert, hok⟩ := (Option.any_eq_true _ _).mp hinsert
  obtain rfl : ok = false := of_decide_eq_true hok
  obtain ⟨⟨room, e⟩, hreserve, hr⟩ := (Option.any_eq_true _ _).mp hreserve
  obtain ⟨hroom, hevicts⟩ := of_decide_eq_true hr
  obtain rfl : room = false := hroom
  obtain ⟨i, -, hi⟩ := List.any_eq_true.mp hevicts
  obtain ⟨hbefore, hafter⟩ := of_decide_eq_true hi
  have hfree : ¬ s.Blocked ⟨30, 1, (2, 0), 3⟩ := by
    rintro ⟨e', hreserve', -⟩
    cases hreserve.symm.trans hreserve'
  exact ⟨s, d, hrun, hinsert, ⟨i, false, e, hreserve, hbefore, hafter⟩,
    (run_insert_failed (n := 2) rfl hrun ((Valid.start (n := 2) rfl).roomyRun _ (by decide)) _).mpr
      hfree d hinsert⟩

/-- A key is inserted and looked up, and inserted again while that handle is held: the
insertion fails, and the key is not found any more. -/
theorem insert_loses_held : ¬ ∀ (options : ClockCacheOptions) (n : Nat) (calls : List Call) (s : Session)
    (handle : Handle) (d : ClockCache), options.length.toNat = 2 ^ n →
    (start options).run calls = some s → s.cache.insert handle = some (false, d) →
    s.OnlyEvicted handle d := by
  intro hclaim
  have hany : ((start ⟨1000, 2, 0, 2, 1⟩).run [.insert ⟨10, 1, (2, 0), 1⟩, .lookup (2, 0)]).any
      (fun s => VisibleWith (2, 0) (s.cache.slot 0) ∧ (s.cache.lookup (2, 0)).all (fun p => p.1 = some 0) ∧
        (s.cache.reserve ⟨20, 1, (2, 0), 1⟩).all (fun r => NonEmpty (r.2.slot 0)) ∧
        (s.cache.insert ⟨20, 1, (2, 0), 1⟩).any (fun p => p.1 = false ∧
          (p.2.lookup (2, 0)).all fun q => q.1 = none)) = true := by
    decide +kernel
  obtain ⟨s, hrun, hs⟩ := (Option.any_eq_true _ _).mp hany
  obtain ⟨hv, hfound, hkept, hinsert⟩ := of_decide_eq_true hs
  obtain ⟨⟨ok, d⟩, hinsert, hd⟩ := (Option.any_eq_true _ _).mp hinsert
  obtain ⟨rfl, hgone⟩ := of_decide_eq_true hd
  obtain ⟨j, c, hlookup, hcopy⟩ := (hclaim _ 1 _ s _ d rfl hrun hinsert).found (2, 0) 0 hv
  rw [hlookup, Option.all_some, decide_eq_true_eq] at hfound
  cases hfound
  have hkeep : ¬ s.Evicts ⟨20, 1, (2, 0), 1⟩ 0 := by
    rintro ⟨room, e, hreserve, -, hempty⟩
    rw [hreserve, Option.all_some, decide_eq_true_eq] at hkept
    exact hempty hkept
  obtain ⟨j', c', hafter, -⟩ := hcopy hkeep
  rw [hafter, Option.all_some, decide_eq_true_eq] at hgone
  cases hgone

end Session

end HyperCache.Clock
