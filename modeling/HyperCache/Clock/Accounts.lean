import HyperCache.Clock.Search
import Mathlib.Algebra.BigOperators.Group.Finset.Piecewise

/-! The accounts of the clock table.

Everything the cache counts is a sum over the entries it holds, the slots that are
not empty: how many there are (`population`), what they charge (`charges`), and how
many were displaced over a given slot (`displaced`). A call changes the set of
entries one at a time. `Removed` and `Added` say how the slots differ after an entry
left or came, whichever function did it, and the sums follow once for both. -/
namespace HyperCache.Clock.ClockCache

/-- The slots whose state is not Empty. -/
def entries (c : ClockCache) : Finset Nat :=
  (Finset.range c.array.length).filter fun i => NonEmpty (c.slot i)

def population (c : ClockCache) : Nat := c.entries.card

def charges (c : ClockCache) : Nat := ∑ i ∈ c.entries, (c.slot i).totalCharge.toNat

/-- Whether a search for this key passes through `i` before it comes to `s`. -/
def passes (c : ClockCache) (i s : Nat) (k : UniqueId64x2) : Nat :=
  if i ∈ c.probesBefore k s then 1 else 0

/-- The entries whose insertion passed through slot `i`. -/
def displaced (c : ClockCache) (i : Nat) : Nat :=
  (c.entries.filter fun s => i ∈ c.probesBefore (c.slot s).hashedKey s).card

/-- The sum of `f` over the entries. -/
def tally (c : ClockCache) (f : Nat → Handle → Nat) : Nat :=
  ∑ i ∈ c.entries, f i (c.slot i).toHandle

theorem population_eq (c : ClockCache) : c.population = c.tally fun _ _ => 1 := by
  rw [population, tally, Finset.card_eq_sum_ones]

theorem charges_eq (c : ClockCache) : c.charges = c.tally fun _ h => h.totalCharge.toNat := rfl

theorem displaced_eq (c : ClockCache) (i : Nat) :
    c.displaced i = c.tally fun s h => c.passes i s h.hashedKey := by
  rw [displaced, tally, Finset.card_filter]
  rfl

theorem mem_entries {c : ClockCache} {i : Nat} :
    i ∈ c.entries ↔ i < c.array.length ∧ NonEmpty (c.slot i) := by
  rw [entries, Finset.mem_filter, Finset.mem_range]

theorem lt_of_nonEmpty {c : ClockCache} {i : Nat} (he : NonEmpty (c.slot i)) : i < c.array.length := by
  by_contra hle
  refine he ?_
  rw [slot, List.getD_eq_default _ _ (Nat.le_of_not_lt hle)]
  decide

theorem displaced_le (c : ClockCache) (i : Nat) : c.displaced i ≤ c.population :=
  Finset.card_filter_le _ _

/-- An entry beyond slot `i` on its own path is counted there. -/
theorem displaced_pos {c : ClockCache} {i s : Nat} (hs : s ∈ c.entries)
    (hi : i ∈ c.probesBefore (c.slot s).hashedKey s) : 0 < c.displaced i :=
  Finset.card_pos.mpr ⟨s, Finset.mem_filter.mpr ⟨hs, hi⟩⟩

theorem passes_congr {c d : ClockCache} (hl : d.length = c.length) (i s : Nat) (k : UniqueId64x2) :
    d.passes i s k = c.passes i s k := by
  unfold passes
  rw [probesBefore_congr hl]

theorem ofNat_passes (c : ClockCache) (i s : Nat) (k : UniqueId64x2) :
    UInt32.ofNat (c.passes i s k) = if i ∈ c.probesBefore k s then 1 else 0 := by
  unfold passes
  by_cases h : i ∈ c.probesBefore k s
  · rw [if_pos h, if_pos h]
    rfl
  · rw [if_neg h, if_neg h]
    rfl

/-! ### Entries that come and go -/

/-- The same entries: only words changed, and none between Empty and the rest. -/
structure SameEntries (c d : ClockCache) : Prop where
  length : d.length = c.length
  size : d.array.length = c.array.length
  nonEmpty : ∀ j, NonEmpty (d.slot j) ↔ NonEmpty (c.slot j)
  handle : ∀ j, (d.slot j).toHandle = (c.slot j).toHandle
  displacements : ∀ j, (d.slot j).displacements = (c.slot j).displacements

/-- The entry of slot `i` left, with its displacements. -/
structure Removed (i : Nat) (c d : ClockCache) : Prop where
  length : d.length = c.length
  size : d.array.length = c.array.length
  word : (d.slot i).metaWord = 0
  other : ∀ j, j ≠ i → (d.slot j).metaWord = (c.slot j).metaWord ∧
    (d.slot j).toHandle = (c.slot j).toHandle
  displacements : ∀ j, (d.slot j).displacements =
    (c.slot j).displacements - if j ∈ c.probesBefore (c.slot i).hashedKey i then 1 else 0

/-- An entry came to slot `i`, with its displacements. -/
structure Added (i : Nat) (handle : Handle) (c d : ClockCache) : Prop where
  length : d.length = c.length
  size : d.array.length = c.array.length
  word : (d.slot i).metaWord = pack 7 0 3 0
  entry : (d.slot i).toHandle = handle
  other : ∀ j, j ≠ i → (d.slot j).metaWord = (c.slot j).metaWord ∧
    (d.slot j).toHandle = (c.slot j).toHandle
  displacements : ∀ j, (d.slot j).displacements =
    (c.slot j).displacements + if j ∈ c.probesBefore handle.hashedKey i then 1 else 0

theorem SameEntries.entries {c d : ClockCache} (h : SameEntries c d) : d.entries = c.entries := by
  ext i
  rw [mem_entries, mem_entries, h.size, h.nonEmpty]

theorem SameEntries.tally {c d : ClockCache} (h : SameEntries c d) (f : Nat → Handle → Nat) :
    d.tally f = c.tally f := by
  unfold ClockCache.tally
  rw [h.entries]
  exact Finset.sum_congr rfl fun i _ => by rw [h.handle]

theorem Removed.entries {i : Nat} {c d : ClockCache} (h : Removed i c d) :
    d.entries = c.entries.erase i := by
  ext j
  rw [Finset.mem_erase, mem_entries, mem_entries, h.size]
  by_cases hj : j = i
  · subst hj
    have : ¬ NonEmpty (d.slot j) := by
      rw [NonEmpty, h.word]
      decide
    simp [this]
  · rw [NonEmpty, NonEmpty, (h.other j hj).1]
    simp [hj]

theorem Removed.tally {i : Nat} {c d : ClockCache} (h : Removed i c d) (hi : i ∈ c.entries)
    (f : Nat → Handle → Nat) : d.tally f + f i (c.slot i).toHandle = c.tally f := by
  unfold ClockCache.tally
  rw [h.entries, ← Finset.sum_erase_add _ _ hi]
  congr 1
  apply Finset.sum_congr rfl
  intro j hj
  rw [(h.other j (Finset.ne_of_mem_erase hj)).2]

theorem Added.entries {i : Nat} {handle : Handle} {c d : ClockCache} (h : Added i handle c d)
    (hi : i < c.array.length) : d.entries = Insert.insert i c.entries := by
  ext j
  rw [Finset.mem_insert, mem_entries, mem_entries, h.size]
  by_cases hj : j = i
  · subst hj
    have : NonEmpty (d.slot j) := by
      rw [NonEmpty, h.word]
      decide
    simp [this, hi]
  · rw [NonEmpty, NonEmpty, (h.other j hj).1]
    simp [hj]

theorem Added.tally {i : Nat} {handle : Handle} {c d : ClockCache} (h : Added i handle c d)
    (hi : i < c.array.length) (hempty : i ∉ c.entries) (f : Nat → Handle → Nat) :
    d.tally f = c.tally f + f i handle := by
  unfold ClockCache.tally
  rw [h.entries hi, Finset.sum_insert hempty, h.entry, Nat.add_comm]
  congr 1
  apply Finset.sum_congr rfl
  intro j hj
  have hne : j ≠ i := fun he => hempty (he ▸ hj)
  rw [(h.other j hne).2]

theorem SameEntries.refl (c : ClockCache) : SameEntries c c :=
  ⟨rfl, rfl, fun _ => Iff.rfl, fun _ => rfl, fun _ => rfl⟩

theorem SameEntries.setMeta (c : ClockCache) {i : Nat} {w : UInt64} (hi : i < c.array.length)
    (hw : state w ≠ kStateEmpty ↔ NonEmpty (c.slot i)) : SameEntries c (c.setMeta i w) where
  length := rfl
  size := setMeta_size c i w
  nonEmpty j := by
    by_cases hj : j = i
    · subst hj
      rw [slot_setMeta_self c w hi]
      exact hw
    · rw [slot_setMeta_of_ne c w hj]
  handle j := by
    by_cases hj : j = i
    · subst hj
      rw [slot_setMeta_self c w hi]
    · rw [slot_setMeta_of_ne c w hj]
  displacements j := by
    by_cases hj : j = i
    · subst hj
      rw [slot_setMeta_self c w hi]
    · rw [slot_setMeta_of_ne c w hj]

/-! ### The table between calls -/

/-- The table when no call is running: `refs` are the references held on each slot,
and every slot counts the entries displaced over it. -/
structure Table (n calls : Nat) (refs : Nat → Nat) (c : ClockCache) : Prop extends Sized n c where
  held : ∀ i, refs i ≤ calls
  word : ∀ i, i < c.length.toNat → Word calls (refs i) (c.slot i).metaWord
  displacements : ∀ i, i < c.length.toNat → (c.slot i).displacements = UInt32.ofNat (c.displaced i)

section Table
variable {n calls : Nat} {refs : Nat → Nat} {c d : ClockCache}

theorem Sized.congr (h : Sized n c) (hl : d.length = c.length)
    (hs : d.array.length = c.array.length) : Sized n d :=
  ⟨by rw [hl, h.length], by rw [hs, h.size]⟩

/-- No reference is held on an empty slot. -/
theorem Table.refs_of_empty (h : Table n calls refs c) (hlim : calls < 2 ^ 30) {i : Nat}
    (hi : i < c.length.toNat) (hempty : ¬ NonEmpty (c.slot i)) : refs i = 0 := by
  have hheld := h.held i
  cases h.word i hi with
  | empty stray hs hr hw => exact hr
  | entry st hits hst hh hw =>
    refine absurd ?_ hempty
    rw [NonEmpty, hw, state_pack (fits_entry hst (by omega) (by omega))]
    obtain rfl | rfl := hst
    · decide
    · decide

theorem Table.same (h : Table n calls refs c) (hs : SameEntries c d) {calls' : Nat}
    {refs' : Nat → Nat} (hheld : ∀ i, refs' i ≤ calls')
    (hw : ∀ i, i < c.length.toNat → Word calls' (refs' i) (d.slot i).metaWord) :
    Table n calls' refs' d where
  toSized := h.toSized.congr hs.length hs.size
  held := hheld
  word := by rwa [hs.length]
  displacements i hi := by
    rw [hs.length] at hi
    rw [hs.displacements, h.displacements i hi, displaced_eq, displaced_eq, hs.tally]
    simp only [passes_congr hs.length]

theorem Table.remove (h : Table n calls refs c) {i : Nat} (hr : Removed i c d)
    (hi : i ∈ c.entries) (hrefs : refs i = 0) : Table n calls refs d where
  toSized := h.toSized.congr hr.length hr.size
  held := h.held
  word j hj := by
    rw [hr.length] at hj
    by_cases hji : j = i
    · subst hji
      exact .empty 0 (by omega) hrefs (hr.word.trans (by decide))
    · rw [(hr.other j hji).1]
      exact h.word j hj
  displacements j hj := by
    rw [hr.length] at hj
    have hsum := hr.tally hi fun s h => c.passes j s h.hashedKey
    rw [← displaced_eq] at hsum
    rw [hr.displacements, h.displacements j hj, ← hsum, displaced_eq d]
    simp only [passes_congr hr.length]
    rw [UInt32.ofNat_add, ofNat_passes, UInt32.add_sub_cancel]

theorem Table.add (h : Table n calls refs c) (hlim : calls < 2 ^ 30) {i : Nat} {handle : Handle} (ha : Added i handle c d)
    (hi : i < c.length.toNat) (hempty : i ∉ c.entries) : Table n calls refs d where
  toSized := h.toSized.congr ha.length ha.size
  held := h.held
  word j hj := by
    rw [ha.length] at hj
    by_cases hji : j = i
    · subst hji
      have hrefs : refs j = 0 := by
        exact h.refs_of_empty hlim hj fun he => hempty (mem_entries.mpr ⟨h.lt_size.mpr hj, he⟩)
      rw [ha.word, hrefs]
      exact .entry 7 3 (.inr rfl) (by omega) rfl
    · rw [(ha.other j hji).1]
      exact h.word j hj
  displacements j hj := by
    rw [ha.length] at hj
    have hsum := ha.tally (h.lt_size.mpr hi) hempty fun s h => c.passes j s h.hashedKey
    rw [← displaced_eq] at hsum
    rw [ha.displacements, h.displacements j hj, displaced_eq d]
    simp only [passes_congr ha.length]
    rw [hsum, UInt32.ofNat_add, ofNat_passes]

end Table

end HyperCache.Clock.ClockCache
