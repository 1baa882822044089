import HyperCache.Clock.Ownership
import HyperCache.Clock.Update
import HyperCache.Lib.Rounds

/-! How the clock hand wears the table down while nothing is held.

A slot has as many `lives` as the hand has to come to it until it is empty: a visible entry
one for each hit and one more, an invisible one the last only. While no reference is held
`Evict` gives up for no pinned entry, so it frees what was asked of it or goes round the
table `kMaxCountdown` times and takes that many lives of every slot (`evict_sweeps`). -/
namespace HyperCache.Clock

/-- How often the clock hand comes to the slot until it is empty. -/
def lives (h : HandleImpl) : Nat :=
  if state h.metaWord = kStateEmpty then 0
  else if state h.metaWord = kStateVisible then (hitCount h.metaWord).toNat + 1
  else 1

namespace ClockCache
open Rounds

theorem lives_eq_zero {h : HandleImpl} : lives h = 0 ↔ ¬ NonEmpty h := by
  rw [lives, NonEmpty, not_not]
  split
  · rename_i hempty
    exact iff_of_true rfl hempty
  · rename_i hentry
    split
    · exact iff_of_false (Nat.succ_ne_zero _) hentry
    · exact iff_of_false Nat.one_ne_zero hentry

theorem lives_congr {h k : HandleImpl} (hw : h.metaWord = k.metaWord) : lives h = lives k := by
  rw [lives, lives, hw]

theorem lives_pack {h : HandleImpl} {hits : Nat} (hhits : hits ≤ 2000)
    (hw : h.metaWord = pack 7 0 hits 0) : lives h = hits + 1 := by
  have hcount : hitCount (pack 7 0 hits 0) = hits :=
    hitCount_pack (fits_entry (.inr rfl) (by omega) (by omega))
  rw [lives, hw, state_visible (by omega) (by omega), if_neg visible_ne_empty, if_pos rfl, hcount]
  rfl

/-- The hit counter of a word between calls bounds its lives. -/
theorem lives_le {calls refs : Nat} {h : HandleImpl} (hw : Word calls refs h.metaWord)
    (hcalls : calls < 2 ^ 30) (hrefs : refs ≤ calls) : lives h ≤ 2001 := by
  rw [lives]
  cases hw with
  | empty stray hs hr hw =>
    rw [hw, state_empty (by omega), if_pos rfl]
    exact Nat.zero_le _
  | entry st hits hst hhits hw =>
    have hcount : hitCount h.metaWord = hits := by
      rw [hw, hitCount_pack (fits_entry hst (by omega) (by omega))]
    split
    · exact Nat.zero_le _
    · split
      · rw [hcount]
        omega
      · omega

section Evict
variable {n calls : Nat} {refs : Nat → Nat}

/-- Under the hand a slot nobody holds loses a life, and every other slot keeps its own. -/
theorem evictSlot_lives {s s' : EvictState} (h : Table n calls refs s.cache) (hlim : calls + 1 < 2 ^ 30)
    (hdelta : 1 ≤ s.hitDecrDelta) {i : Nat} (hi : i < s.cache.length.toNat) (hfree : refs i = 0)
    (hrun : evictSlot s i = some s') :
    lives (s'.cache.slot i) ≤ lives (s.cache.slot i) - 1 ∧
      (∀ j, j ≠ i → lives (s'.cache.slot j) = lives (s.cache.slot j)) ∧
      s'.data.seenPinnedCount = s.data.seenPinnedCount ∧ s'.cache.clockPointer = s.cache.clockPointer := by
  have hsize := h.lt_size.mpr hi
  rcases evictSlot_cases h hlim hdelta hi with
    ⟨seen, hseen, heq⟩ | ⟨hrefs, hentry, hvis, hits, hhits, hless, heq⟩ | ⟨hmem, hrefs, d, heq, hfreed, -⟩
  · cases heq.symm.trans hrun
    obtain ⟨hempty, hsame⟩ := hseen hfree
    exact ⟨(lives_eq_zero.mpr hempty).trans_le (Nat.zero_le _), fun _ _ => rfl, hsame, rfl⟩
  · cases heq.symm.trans hrun
    refine ⟨?_, fun j hj => ?_, rfl, rfl⟩
    · have hbefore : lives (s.cache.slot i) = (hitCount (s.cache.slot i).metaWord).toNat + 1 := by
        rw [lives, if_neg hentry, if_pos hvis]
      rw [lives_pack hhits (by rw [slot_setMeta_self _ _ hsize]), hbefore]
      omega
    · rw [slot_setMeta_of_ne _ _ hj]
  · cases heq.symm.trans hrun
    refine ⟨?_, fun j hj => lives_congr (hfreed.other j hj).1, rfl, ?_⟩
    · have hgone : ¬ NonEmpty (d.slot i) := by
        rw [NonEmpty, hfreed.word]
        decide
      exact (lives_eq_zero.mpr hgone).trans_le (Nat.zero_le _)
    · show d.clockPointer = _
      rw [hfreed.rest]

/-- The table and the locals of `Evict` as the hand goes from position `p` to `q`: every slot
lost a life each time the hand came to it, and no pinned entry was seen. -/
structure Sweeping (n calls : Nat) (refs : Nat → Nat) (s s' : EvictState) (p q : Nat) : Prop where
  evicted : Evicted n calls refs s s'
  frees : ∃ freed, Frees refs freed s s'
  worn : Lowered s.cache.length.toNat p q (fun j => lives (s.cache.slot j)) fun j => lives (s'.cache.slot j)
  seen : s'.data.seenPinnedCount = s.data.seenPinnedCount
  le : p ≤ q

theorem Sweeping.refl {s : EvictState} (h : Table n calls refs s.cache) (p : Nat) :
    Sweeping n calls refs s s p p :=
  ⟨Evicted.refl h, ⟨0, Moves.refl refs _, (UInt64.add_zero _).symm, (UInt64.add_zero _).symm⟩,
    Lowered.refl _ p _, rfl, Nat.le_refl p⟩

variable {s s' : EvictState} {p q : Nat} (h : Sweeping n calls refs s s' p q)
include h

/-- A new round of the loop changes the locals and the pointer only. -/
theorem Sweeping.round (pointer : UInt64) {delta : Int} (hnew : 1 ≤ delta)
    (sum : Int) : Sweeping n calls refs s ⟨{s'.cache with clockPointer := pointer}, s'.data, sum, delta⟩ p q where
  evicted := h.evicted.round pointer (fun _ => hnew) sum
  frees := by
    obtain ⟨freed, hmoves, hcount, hcharge⟩ := h.frees
    exact ⟨freed, hmoves.of_array rfl rfl rfl rfl rfl, hcount, hcharge⟩
  worn := h.worn
  seen := h.seen
  le := h.le

variable (hlim : calls + 1 < 2 ^ 30) (hdelta : 1 ≤ s.hitDecrDelta) (hfree : ∀ i, refs i = 0)
include hlim hdelta

include hfree in
/-- One slot under the hand. -/
theorem Sweeping.slot {pointer : UInt64} (hpointer : pointer.toNat = q) :
    ∃ s'', evictSlot s' (s'.cache.modLength pointer).toNat = some s'' ∧
      Sweeping n calls refs s s'' p (q + 1) ∧ s''.cache.clockPointer = s'.cache.clockPointer := by
  have htable := h.evicted.kept.table
  have hpos : 0 < s'.cache.length.toNat := htable.pos
  have hplace : (s'.cache.modLength pointer).toNat = q % s.cache.length.toNat := by
    rw [modLength_toNat, hpointer, h.evicted.length]
  have hi : (s'.cache.modLength pointer).toNat < s'.cache.length.toNat := by
    rw [modLength_toNat]
    exact Nat.mod_lt _ hpos
  obtain ⟨s'', heq, hevicted⟩ := evictSlot_spec htable hlim (h.evicted.delta hdelta) hi
  obtain ⟨hhere, hother, hseen, hclock⟩ :=
    evictSlot_lives htable hlim (h.evicted.delta hdelta) hi (hfree _) heq
  obtain ⟨freed, hfrees⟩ := h.frees
  obtain ⟨freed', hfrees'⟩ := turn_frees hlim htable (h.evicted.delta hdelta) (.slot pointer heq)
  rw [hplace] at hhere hother
  exact ⟨s'', heq, ⟨h.evicted.trans hevicted, ⟨_, hfrees.trans hfrees'⟩,
    h.worn.tick h.le hhere hother, hseen.trans h.seen, Nat.le_succ_of_le h.le⟩, hclock⟩

include hfree in
/-- The four slots of a step. -/
theorem Sweeping.step {pointer : UInt64} (hpointer : pointer.toNat = q) (hroom : q + 4 < 2 ^ 64) :
    ∃ s'', evictStep s' pointer = some s'' ∧ Sweeping n calls refs s s'' p (q + 4) ∧
      s''.cache.clockPointer = s'.cache.clockPointer := by
  have hat : ∀ i : UInt64, i.toNat < 4 → (pointer + i).toNat = q + i.toNat := by
    intro i hi
    rw [UInt64.toNat_add, hpointer, Nat.mod_eq_of_lt (by omega)]
  obtain ⟨s₁, heq₁, h₁, hclock₁⟩ := h.slot hlim hdelta hfree (hat 0 (by decide))
  obtain ⟨s₂, heq₂, h₂, hclock₂⟩ := h₁.slot hlim hdelta hfree (hat 1 (by decide))
  obtain ⟨s₃, heq₃, h₃, hclock₃⟩ := h₂.slot hlim hdelta hfree (hat 2 (by decide))
  obtain ⟨s₄, heq₄, h₄, hclock₄⟩ := h₃.slot hlim hdelta hfree (hat 3 (by decide))
  refine ⟨s₄, ?_, h₄, hclock₄.trans (hclock₃.trans (hclock₂.trans hclock₁))⟩
  simp only [evictStep, List.foldlM_cons, List.foldlM_nil, heq₁, heq₂, heq₃, heq₄, Option.bind_eq_bind,
    Option.bind_some, Option.pure_def]

omit hlim hdelta in
/-- Without a pinned entry the effort is never exceeded. -/
theorem Sweeping.effort (hdata : s.data = {}) (hpop : s.cache.population < 2 ^ 32) :
    isEvictionEffortExceeded s'.data = false := by
  obtain ⟨freed, hmoves, hcount, -⟩ := h.frees
  have hcard := hmoves.population
  have hfreed : s'.data.freedCount.toNat = freed.card := by
    rw [hcount, hdata]
    show (0 + UInt64.ofNat freed.card).toNat = _
    rw [UInt64.zero_add, UInt64.toNat_ofNat', Nat.mod_eq_of_lt (by omega)]
  have hseen : s'.data.seenPinnedCount = 0 := by
    rw [h.seen, hdata]
  have heffort : ((s'.data.freedCount + 1) * 30).toNat = (freed.card + 1) * 30 := by
    rw [UInt64.toNat_mul, UInt64.toNat_add, hfreed, show (1 : UInt64).toNat = 1 from rfl,
      show (30 : UInt64).toNat = 30 from rfl]
    omega
  refine decide_eq_false fun hle => ?_
  have hle := UInt64.le_iff_toNat_le.mp hle
  rw [heffort, hseen, show (0 : UInt64).toNat = 0 from rfl] at hle
  omega

include hfree in
/-- **The loop frees what was asked or goes on to the end.** -/
theorem Sweeping.loop (requested pointerEnd : UInt64) (hdata : s.data = {})
    (hpop : s.cache.population < 2 ^ 32) (hroom : pointerEnd.toNat + 8 < 2 ^ 64) (fuel : Nat)
    {pointer : UInt64} (offset : Int) (hpointer : pointer.toNat = q)
    (hclock : s'.cache.clockPointer.toNat = q + 4) (hend : q < pointerEnd.toNat + 4)
    (hfuel : pointerEnd.toNat + 4 ≤ q + 4 * fuel) :
    ∃ s'' q', evictLoop requested pointerEnd fuel pointer offset s' = some s'' ∧
      Sweeping n calls refs s s'' p q' ∧
      (requested ≤ s''.data.freedCharge ∨ pointerEnd.toNat + 4 ≤ q') ∧
      s''.cache.clockPointer.toNat ≤ pointerEnd.toNat + 8 := by
  induction fuel generalizing pointer offset s' q with
  | zero => omega
  | succ fuel ih =>
    obtain ⟨s₁, hstep, h₁, hclock₁⟩ := h.step hlim hdelta hfree hpointer (by omega)
    have hclock₂ : s₁.cache.clockPointer.toNat = q + 4 := by rw [hclock₁, hclock]
    rw [evictLoop, hstep]
    simp only [Option.bind_eq_bind, Option.bind_some, h₁.effort hdata hpop, Bool.false_eq_true, if_false]
    by_cases henough : s₁.data.freedCharge ≥ requested
    · rw [if_pos henough]
      exact ⟨s₁, q + 4, rfl, h₁, .inl henough, by omega⟩
    rw [if_neg henough]
    by_cases hover : pointer ≥ pointerEnd
    · have hle := UInt64.le_iff_toNat_le.mp hover
      rw [if_pos hover]
      exact ⟨s₁, q + 4, rfl, h₁, .inr (by omega), by omega⟩
    rw [if_neg hover]
    have hlt : q < pointerEnd.toNat := by
      rw [← hpointer]
      exact UInt64.lt_iff_toNat_lt.mp (UInt64.not_le.mp hover)
    have hnext : (s₁.cache.clockPointer + kStepSize).toNat = q + 4 + 4 := by
      rw [UInt64.toNat_add, hclock₂, show kStepSize.toNat = 4 from rfl, Nat.mod_eq_of_lt (by omega)]
    split
    · refine ih (h₁.round _ ?_ 0) _ hclock₂ hnext (by omega) (by omega)
      unfold newHitDecrDelta
      omega
    · exact ih (h₁.round _ (h₁.evicted.delta hdelta) _) _ hclock₂ hnext (by omega) (by omega)

end Evict

/-- **An eviction that fails takes three lives of every slot.** -/
theorem evict_sweeps {n calls : Nat} {refs : Nat → Nat} {c : ClockCache} (h : Table n calls refs c)
    (hlim : calls + 1 < 2 ^ 30) (hdelta : 1 ≤ c.hitDecrDelta) (hfree : ∀ i, refs i = 0) (hpop : c.population < 2 ^ 32)
    (hclock : c.clockPointer.toNat + (3 * c.length.toNat + 8) < 2 ^ 64) (requested : UInt64) :
    ∃ data d, c.evict requested = some (data, d) ∧
      (requested ≤ data.freedCharge ∨
        ∀ j, j < c.length.toNat → lives (d.slot j) ≤ lives (c.slot j) - 3) ∧
      d.clockPointer.toNat ≤ c.clockPointer.toNat + (3 * c.length.toNat + 8) := by
  have hstart : Table n calls refs {c with clockPointer := c.clockPointer + kStepSize} := h.of_array rfl rfl
  have hend : (c.clockPointer + kMaxCountdown * c.length).toNat =
      c.clockPointer.toNat + 3 * c.length.toNat := by
    rw [UInt64.toNat_add, UInt64.toNat_mul, show kMaxCountdown.toNat = 3 from rfl,
      Nat.mod_eq_of_lt (show 3 * c.length.toNat < 2 ^ 64 by omega), Nat.mod_eq_of_lt (by omega)]
  have hfirst : (c.clockPointer + kStepSize).toNat = c.clockPointer.toNat + 4 := by
    rw [UInt64.toNat_add, show kStepSize.toNat = 4 from rfl, Nat.mod_eq_of_lt (by omega)]
  have hrefl : Sweeping n calls refs
      ⟨{c with clockPointer := c.clockPointer + kStepSize}, {}, 0, c.hitDecrDelta⟩ _ _ _ :=
    Sweeping.refl hstart c.clockPointer.toNat
  obtain ⟨s, q, hloop, hs, hdone, hpointer⟩ := hrefl.loop hlim hdelta hfree requested
    (c.clockPointer + kMaxCountdown * c.length) rfl hpop (by omega) (2 ^ 62 + 1) 0 rfl hfirst (by omega)
    (by omega)
  refine ⟨s.data, {s.cache with hitDecrDelta := s.hitDecrDelta}, ?_, hdone.imp_right fun hq j hj => ?_, ?_⟩
  · simp only [evict, Option.bind_eq_bind, hloop, Option.bind_some]
    rfl
  · exact hs.worn.rounds (by rw [hend] at hq; exact Nat.le_trans (Nat.le_add_right _ 4) hq) hj
  · show s.cache.clockPointer.toNat ≤ _
    omega

end ClockCache

end HyperCache.Clock
