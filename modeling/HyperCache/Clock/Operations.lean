import HyperCache.Clock.Accounts

/-! What each operation does to the table.

`Lookup` and `Erase` search along the probe path of the key until a slot that no
entry was displaced over, and by the displacement counts there is then nothing of
that key further on (`none_beyond`). `Erase` and `Evict` only take entries away
(`Kept`), `DoInsert` adds one or leaves the table as it was. The counters of the
cache are compared with the entries by their difference (`spareOccupancy`,
`spareUsage`): it is what `Insert` has reserved and not yet used. -/
namespace HyperCache.Clock.ClockCache

/-- What `occupancy_` counts beyond the entries. -/
def spareOccupancy (c : ClockCache) : UInt64 := c.occupancy - UInt64.ofNat c.population

/-- What `usage_` counts beyond the entries' charges. -/
def spareUsage (c : ClockCache) : UInt64 := c.usage - UInt64.ofNat c.charges

/-- Every visible entry of `d` is one of `c`. -/
def Fades (c d : ClockCache) : Prop :=
  ∀ i k, VisibleWith k (d.slot i) → VisibleWith k (c.slot i) ∧ (d.slot i).toHandle = (c.slot i).toHandle

theorem Fades.refl (c : ClockCache) : Fades c c := fun _ _ hv => ⟨hv, rfl⟩

theorem Fades.trans {c d e : ClockCache} (h : Fades c d) (h' : Fades d e) : Fades c e := by
  intro i k hv
  obtain ⟨hd, he⟩ := h' i k hv
  obtain ⟨hc, hd⟩ := h i k hd
  exact ⟨hc, he.trans hd⟩

theorem Removed.fades {i : Nat} {c d : ClockCache} (h : Removed i c d) : Fades c d := by
  intro j k hv
  by_cases hj : j = i
  · subst hj
    refine absurd hv.1 ?_
    rw [h.word]
    decide
  · obtain ⟨hw, hh⟩ := h.other j hj
    exact ⟨⟨hw ▸ hv.1, (congrArg Handle.hashedKey hh).symm.trans hv.2⟩, hh⟩

theorem fades_setMeta (c : ClockCache) {i : Nat} {w : UInt64} (hi : i < c.array.length)
    (hw : state w = kStateVisible → state (c.slot i).metaWord = kStateVisible) :
    Fades c (c.setMeta i w) := by
  intro j k hv
  by_cases hj : j = i
  · subst hj
    rw [slot_setMeta_self c w hi] at hv ⊢
    exact ⟨⟨hw hv.1, hv.2⟩, rfl⟩
  · rw [slot_setMeta_of_ne c w hj] at hv ⊢
    exact ⟨hv, rfl⟩

/-- The table after entries left or were made invisible. -/
structure Kept (n calls : Nat) (refs : Nat → Nat) (c d : ClockCache) : Prop where
  table : Table n calls refs d
  fades : Fades c d
  population : d.population ≤ c.population

section Kept
variable {n calls : Nat} {refs : Nat → Nat} {c d e : ClockCache}

theorem Kept.refl (h : Table n calls refs c) : Kept n calls refs c c :=
  ⟨h, Fades.refl c, Nat.le_refl _⟩

theorem Kept.trans (h : Kept n calls refs c d) (h' : Kept n calls refs d e) : Kept n calls refs c e :=
  ⟨h'.table, h.fades.trans h'.fades, Nat.le_trans h'.population h.population⟩

theorem SameEntries.population (h : SameEntries c d) : d.population = c.population := by
  rw [population_eq, population_eq, h.tally]

theorem SameEntries.charges (h : SameEntries c d) : d.charges = c.charges := by
  rw [charges_eq, charges_eq, h.tally]

theorem Removed.population {i : Nat} (h : Removed i c d) (hi : i ∈ c.entries) :
    d.population + 1 = c.population := by
  rw [population_eq, population_eq, ← h.tally hi]

theorem Removed.charges {i : Nat} (h : Removed i c d) (hi : i ∈ c.entries) :
    d.charges + (c.slot i).totalCharge.toNat = c.charges := by
  rw [charges_eq, charges_eq, ← h.tally hi]

theorem Table.setMeta (h : Table n calls refs c) {i : Nat} {w : UInt64} (hi : i < c.length.toNat)
    (hw : Word calls (refs i) w) (hs : SameEntries c (c.setMeta i w)) :
    Table n calls refs (c.setMeta i w) := by
  refine h.same hs h.held fun j hj => ?_
  by_cases hji : j = i
  · subst hji
    rw [slot_setMeta_self c w (h.lt_size.mpr hj)]
    exact hw
  · rw [slot_setMeta_of_ne c w hji]
    exact h.word j hj

/-- Writing the word of an entry that stays one, visible only if it was. -/
theorem Kept.setMeta (h : Table n calls refs c) {i st hits : Nat} (hi : i < c.length.toNat)
    (hlim : calls < 2 ^ 30) (hentry : NonEmpty (c.slot i)) (hhits : hits ≤ 2000)
    (hst : st = 6 ∨ st = 7 ∧ state (c.slot i).metaWord = kStateVisible) :
    SameEntries c (c.setMeta i (pack st 0 hits (refs i))) ∧
      Kept n calls refs c (c.setMeta i (pack st 0 hits (refs i))) := by
  have hst' : st = 6 ∨ st = 7 := hst.imp_right And.left
  have hheld := h.held i
  have hstate : state (pack st 0 hits (refs i)) = UInt64.ofNat st :=
    state_pack (fits_entry hst' (by omega) (by omega))
  have hsame : SameEntries c (c.setMeta i (pack st 0 hits (refs i))) := by
    apply SameEntries.setMeta c (h.lt_size.mpr hi)
    refine iff_of_true ?_ hentry
    rw [hstate]
    obtain rfl | rfl := hst'
    · decide
    · decide
  refine ⟨hsame, h.setMeta hi (.entry st hits hst' hhits rfl) hsame, ?_, hsame.population.le⟩
  apply fades_setMeta c (h.lt_size.mpr hi)
  intro hv
  obtain rfl | ⟨-, hvis⟩ := hst
  · exact absurd (hstate.symm.trans hv) (by decide)
  · exact hvis

theorem Kept.remove (h : Table n calls refs c) {i : Nat} (hr : Removed i c d) (hi : i ∈ c.entries)
    (hrefs : refs i = 0) : Kept n calls refs c d where
  table := h.remove hr hi hrefs
  fades := hr.fades
  population := by
    have := hr.population hi
    omega

end Kept

/-! ### Lookup -/

section Search
variable {n calls : Nat} {refs : Nat → Nat} {c : ClockCache} (h : Table n calls refs c)
  (hlim : calls + 1 < 2 ^ 30) (hpop : c.population < 2 ^ 32) (k : UniqueId64x2)
include h

include hpop in
/-- **Where a search may stop.** Nothing of the key was displaced over a slot whose
counter is zero, so if the key is not visible up to that slot it is not visible. -/
theorem none_beyond {pre post : List Nat} {i : Nat} (hsplit : c.probePath k = pre ++ i :: post)
    (hpre : ∀ j ∈ pre, ¬ VisibleWith k (c.slot j)) (hi : ¬ VisibleWith k (c.slot i))
    (hzero : (c.slot i).displacements = 0) :
    ∀ j, j < c.length.toNat → ¬ VisibleWith k (c.slot j) := by
  intro j hj hv
  have hmem : j ∈ pre ++ i :: post := hsplit ▸ (h.mem_probePath k).mpr hj
  rcases List.mem_append.mp hmem with hjpre | hjpost
  · exact hpre j hjpre hv
  · rcases List.mem_cons.mp hjpost with rfl | hjpost
    · exact hi hv
    · obtain ⟨post₁, post₂, rfl⟩ := List.append_of_mem hjpost
      have hbefore : c.probesBefore k j = pre ++ i :: post₁ :=
        h.probesBefore_of_split k (by rw [hsplit, List.append_assoc, List.cons_append])
      have hpos : 0 < c.displaced i := by
        refine displaced_pos (mem_entries.mpr ⟨h.lt_size.mpr hj, hv.nonEmpty⟩) ?_
        rw [hv.2, hbefore]
        simp
      have hlt : i < c.length.toNat := (h.mem_probePath k).mp (by rw [hsplit]; simp)
      have hle := c.displaced_le i
      rw [h.displacements i hlt, ← UInt32.toNat_inj, UInt32.toNat_ofNat',
        Nat.mod_eq_of_lt (by omega)] at hzero
      exact absurd hzero (by rw [show (0 : UInt32).toNat = 0 from rfl]; omega)

omit h in
/-- The table in the middle of a lookup that has visited the slots `pre`. -/
structure Looked (calls : Nat) (refs : Nat → Nat) (pre : List Nat) (c d : ClockCache) : Prop where
  rest : d = {c with array := d.array}
  size : d.array.length = c.array.length
  slot : ∀ j, ∃ w, d.slot j = {c.slot j with metaWord := w} ∧ state w = state (c.slot j).metaWord
  word : ∀ j, j < c.length.toNat → Word (calls + 1) (refs j) (d.slot j).metaWord
  ahead : ∀ j, j ∉ pre → d.slot j = c.slot j

omit h in
theorem Looked.visible {pre : List Nat} {d : ClockCache} (hd : Looked calls refs pre c d) (j : Nat) :
    VisibleWith k (d.slot j) ↔ VisibleWith k (c.slot j) := by
  obtain ⟨w, hslot, hstate⟩ := hd.slot j
  rw [hslot, VisibleWith, VisibleWith, hstate]

omit h in
theorem Looked.sameEntries {pre : List Nat} {d : ClockCache} (hd : Looked calls refs pre c d) :
    SameEntries c d where
  length := by rw [hd.rest]
  size := hd.size
  nonEmpty j := by
    obtain ⟨w, hslot, hstate⟩ := hd.slot j
    rw [hslot, NonEmpty, NonEmpty, hstate]
  handle j := by
    obtain ⟨w, hslot, -⟩ := hd.slot j
    rw [hslot]
  displacements j := by
    obtain ⟨w, hslot, -⟩ := hd.slot j
    rw [hslot]

omit h in
theorem Looked.fades {pre : List Nat} {d : ClockCache} (hd : Looked calls refs pre c d) :
    Fades c d := fun j k hv => ⟨(hd.visible k j).mp hv, hd.sameEntries.handle j⟩

omit h in
theorem Looked.start (h : Table n calls refs c) : Looked calls refs [] c c where
  rest := rfl
  size := rfl
  slot j := ⟨(c.slot j).metaWord, rfl, rfl⟩
  word j hj := (h.word j hj).mono (Nat.le_succ calls)
  ahead _ _ := rfl

/-- Visiting one more slot. -/
theorem Looked.touch (refs' : Nat → Nat) {pre : List Nat} {d : ClockCache} {i : Nat} {w : UInt64}
    (hd : Looked calls refs pre c d) (hi : i < c.length.toNat)
    (hstate : state w = state (d.slot i).metaWord) (hw : Word (calls + 1) (refs' i) w)
    (hrefs : ∀ j, j ≠ i → refs' j = refs j) :
    Looked calls refs' (pre ++ [i]) c (d.setMeta i w) where
  rest := by
    rw [ClockCache.setMeta, setSlot, hd.rest]
  size := by rw [setMeta_size, hd.size]
  slot j := by
    obtain ⟨v, hslot, hv⟩ := hd.slot j
    by_cases hj : j = i
    · subst hj
      rw [slot_setMeta_self d w (by rw [hd.size]; exact h.lt_size.mpr hi), hslot]
      exact ⟨w, rfl, by rw [hstate, hslot, hv]⟩
    · rw [slot_setMeta_of_ne d w hj]
      exact ⟨v, hslot, hv⟩
  word j hj := by
    by_cases hji : j = i
    · subst hji
      rw [slot_setMeta_self d w (by rw [hd.size]; exact h.lt_size.mpr hi)]
      exact hw
    · rw [slot_setMeta_of_ne d w hji, hrefs j hji]
      exact hd.word j hj
  ahead j hj := by
    rw [List.mem_append, List.mem_singleton, not_or] at hj
    rw [slot_setMeta_of_ne d w hj.2]
    exact hd.ahead j hj.1

/-- What a lookup of `k` returns and leaves: the table with one more reference on
the slot found, if any. -/
structure LookedUp (n calls : Nat) (refs : Nat → Nat) (k : UniqueId64x2) (c : ClockCache)
    (r : Option Nat) (d : ClockCache) : Prop where
  rest : d = {c with array := d.array}
  same : SameEntries c d
  fades : Fades c d
  table : Table n (calls + 1) (fun i => refs i + if r = some i then 1 else 0) d
  found : ∀ i, r = some i → i < c.length.toNat ∧ VisibleWith k (c.slot i)
  missed : r = none → ∀ i, i < c.length.toNat → ¬ VisibleWith k (c.slot i)

theorem Looked.missed {pre : List Nat} {d : ClockCache} (hd : Looked calls refs pre c d)
    (hnone : ∀ i, i < c.length.toNat → ¬ VisibleWith k (c.slot i)) :
    LookedUp n calls refs k c none d where
  rest := hd.rest
  same := hd.sameEntries
  fades := hd.fades
  table := h.same hd.sameEntries (fun i => by simpa using (h.held i).trans (Nat.le_succ calls))
    (by simpa using hd.word)
  found i hi := by cases hi
  missed _ := hnone

theorem Looked.found {pre : List Nat} {d : ClockCache} {i : Nat}
    (hd : Looked calls (fun j => refs j + if some i = some j then 1 else 0) pre c d)
    (hi : i < c.length.toNat) (hv : VisibleWith k (c.slot i)) :
    LookedUp n calls refs k c (some i) d where
  rest := hd.rest
  same := hd.sameEntries
  fades := hd.fades
  table := by
    refine h.same hd.sameEntries (fun j => ?_) hd.word
    have := h.held j
    split
    · omega
    · omega
  found j hj := by
    cases hj
    exact ⟨hi, hv⟩
  missed hr := by cases hr

omit h in
/-- The first slot on the path of the key that is visible with it. -/
def firstVisible (c : ClockCache) (k : UniqueId64x2) : Option Nat :=
  (c.probePath k).find? fun i => decide (VisibleWith k (c.slot i))

omit h in
theorem firstVisible_of_split {pre post : List Nat} {i : Nat} (hsplit : c.probePath k = pre ++ i :: post)
    (hpre : ∀ j ∈ pre, ¬ VisibleWith k (c.slot j)) (hv : VisibleWith k (c.slot i)) :
    c.firstVisible k = some i := by
  rw [firstVisible, List.find?_eq_some_iff_append]
  exact ⟨decide_eq_true hv, pre, post, hsplit, fun j hj => by simpa using hpre j hj⟩

theorem not_visible_before {i j : Nat} (hfirst : c.firstVisible k = some i) (hj : j ∈ c.probesBefore k i) :
    ¬ VisibleWith k (c.slot j) := by
  obtain ⟨-, pre, post, hsplit, hpre⟩ := List.find?_eq_some_iff_append.mp hfirst
  rw [h.probesBefore_of_split k hsplit] at hj
  simpa using hpre j hj

theorem firstVisible_eq_none :
    c.firstVisible k = none ↔ ∀ i, i < c.length.toNat → ¬ VisibleWith k (c.slot i) := by
  rw [firstVisible, List.find?_eq_none]
  simp only [h.mem_probePath k, decide_eq_true_eq]

include hlim hpop in
/-- **A lookup ends at the first visible entry of its key**, if there is one, and takes
a reference there. -/
theorem lookup_first : ∃ d, c.lookup k = some (c.firstVisible k, d) ∧
    LookedUp n calls refs k c (c.firstVisible k) d := by
  have hloop : ∃ r d, c.lookup k = some (r, d) ∧ r = c.firstVisible k ∧ LookedUp n calls refs k c r d := by
    rw [lookup, findSlot_eq h.length]
    refine Probe.walk_spec
      (fun pre d => Looked calls refs pre c d ∧ ∀ j ∈ pre, ¬ VisibleWith k (c.slot j))
      (fun r d => r = c.firstVisible k ∧ LookedUp n calls refs k c r d) ?_ ?_ ⟨Looked.start h, by simp⟩
    · rintro pre i post d hsplit ⟨hd, hpre⟩
      have hi : i < c.length.toNat := (h.mem_probePath k).mp (by rw [hsplit]; simp)
      have hahead : d.slot i = c.slot i := by
        apply hd.ahead
        rw [← h.probesBefore_of_split k hsplit]
        exact fun hmem => probesBefore_ne hmem rfl
      have hword : Word calls (refs i) (d.slot i).metaWord := by
        rw [hahead]
        exact h.word i hi
      have hsize : i < d.array.length := by
        rw [hd.size]
        exact h.lt_size.mpr hi
      obtain ⟨w, hmatch, hstate, hw⟩ := lookupMatch_spec hsize hword hlim (h.held i) k
      rw [hahead] at hmatch hw
      refine ⟨_, _, hmatch, ?_, ?_⟩
      · intro hv
        have hv := of_decide_eq_true hv
        rw [if_pos hv] at hw
        refine ⟨(firstVisible_of_split k hsplit hpre hv).symm, (hd.touch h
          (fun j => refs j + if some i = some j then 1 else 0) hi hstate (by simpa using hw) ?_).found h k hi hv⟩
        intro j hj
        simp [Ne.symm hj]
      · intro hv
        have hv := of_decide_eq_false hv
        rw [if_neg hv, Nat.add_zero] at hw
        have hnext := hd.touch h refs hi hstate hw fun j _ => rfl
        refine ⟨_, _, rfl, ?_, ?_⟩
        · intro hstop
          have hzero : (c.slot i).displacements = 0 := by
            rw [← hnext.sameEntries.displacements i]
            exact eq_of_beq hstop
          have hnone := none_beyond h hpop k hsplit hpre hv hzero
          exact ⟨((firstVisible_eq_none h k).mpr hnone).symm, hnext.missed h k hnone⟩
        · intro _
          refine ⟨_, rfl, hnext, ?_⟩
          intro j hj
          rcases List.mem_append.mp hj with hj | hj
          · exact hpre j hj
          · rw [List.mem_singleton.mp hj]
            exact hv
    · rintro d ⟨hd, hpre⟩
      have hnone : ∀ i, i < c.length.toNat → ¬ VisibleWith k (c.slot i) :=
        fun i hi => hpre i ((h.mem_probePath k).mpr hi)
      exact ⟨((firstVisible_eq_none h k).mpr hnone).symm, hd.missed h k hnone⟩
  obtain ⟨_, d, hlookup, rfl, hd⟩ := hloop
  exact ⟨d, hlookup, hd⟩

include hlim hpop in
theorem lookup_spec : ∃ r d, c.lookup k = some (r, d) ∧ LookedUp n calls refs k c r d := by
  obtain ⟨d, hlookup, hd⟩ := lookup_first h hlim hpop k
  exact ⟨_, d, hlookup, hd⟩

end Search

/-! ### Erase -/

theorem slot_clear (c : ClockCache) {i : Nat} (j : Nat) (hi : i < c.array.length) :
    (c.clear i).slot j = if j = i then cleared (c.slot i) else c.slot j :=
  slot_setSlot c j _ hi

/-- Taking an entry out and then its displacements back. -/
theorem removed_rollback {n : Nat} {c d : ClockCache} (hc : Sized n c) {i : Nat}
    (hi : i < c.length.toNat) (hl : d.length = c.length) (ha : d.array = (c.clear i).array) :
    Removed i c (d.displaceAll (c.probesBefore (c.slot i).hashedKey i) (-1)) := by
  have hsize : d.array.length = c.array.length := by
    rw [ha]
    exact setSlot_size c i _
  have hslot : ∀ j, d.slot j = (c.clear i).slot j := fun j => by rw [slot, ha, slot]
  obtain ⟨array, heq, hlen⟩ := d.displaceAll_rest (c.probesBefore (c.slot i).hashedKey i) (-1)
  have hall : ∀ j, (d.displaceAll (c.probesBefore (c.slot i).hashedKey i) (-1)).slot j =
      if j ∈ c.probesBefore (c.slot i).hashedKey i
        then {d.slot j with displacements := (d.slot j).displacements + (-1)} else d.slot j := by
    intro j
    apply slot_displaceAll d j (-1) (hc.probesBefore_nodup _ i)
    intro hm
    rw [hsize]
    exact hc.lt_size.mpr (probesBefore_lt hm)
  refine ⟨by rw [heq]; exact hl, by rw [heq]; exact hlen.trans hsize, ?_, ?_, ?_⟩
  · rw [hall, if_neg fun hm => probesBefore_ne hm rfl, hslot,
      slot_clear c i (hc.lt_size.mpr hi), if_pos rfl, cleared]
  · intro j hj
    have hdj : d.slot j = c.slot j := by rw [hslot, slot_clear c j (hc.lt_size.mpr hi), if_neg hj]
    rw [hall, hdj]
    split
    · exact ⟨rfl, rfl⟩
    · exact ⟨rfl, rfl⟩
  · intro j
    have hdj : (d.slot j).displacements = (c.slot j).displacements := by
      rw [hslot, slot_clear c j (hc.lt_size.mpr hi)]
      by_cases hj : j = i
      · subst hj
        rw [if_pos rfl, cleared]
      · rw [if_neg hj]
    rw [hall]
    split
    · show (d.slot j).displacements + (-1) = _
      rw [hdj, UInt32.sub_eq_add_neg]
    · rw [hdj, UInt32.sub_zero]

/-- The entry of slot `i` was freed: it left, and its deleter was called. -/
structure Freed (i : Nat) (c d : ClockCache) : Prop extends Removed i c d where
  rest : d = {c with
    array := d.array
    occupancy := d.occupancy
    usage := d.usage
    deleted := (c.clear i).deleted}

/-- The slot has the entry, or the lack of one, that it had. -/
def SameSlot (i : Nat) (c d : ClockCache) : Prop :=
  (d.slot i).metaWord = (c.slot i).metaWord ∧ (d.slot i).toHandle = (c.slot i).toHandle

namespace SameSlot
variable {i : Nat} {c d e : ClockCache}

theorem refl (i : Nat) (c : ClockCache) : SameSlot i c c := ⟨rfl, rfl⟩

theorem trans (h : SameSlot i c d) (h' : SameSlot i d e) : SameSlot i c e :=
  ⟨h'.1.trans h.1, h'.2.trans h.2⟩

theorem visible (h : SameSlot i c d) (k : UniqueId64x2) :
    VisibleWith k (d.slot i) ↔ VisibleWith k (c.slot i) := by
  rw [VisibleWith, VisibleWith, h.1, congrArg Handle.hashedKey h.2]

theorem nonEmpty (h : SameSlot i c d) : NonEmpty (d.slot i) ↔ NonEmpty (c.slot i) := by
  rw [NonEmpty, NonEmpty, h.1]

end SameSlot

/-- An erase has taken slot `i` from view, and emptied it if nobody held it. -/
structure Taken (refs : Nat → Nat) (k : UniqueId64x2) (i : Nat) (d : ClockCache) : Prop where
  hidden : ¬ VisibleWith k (d.slot i)
  emptied : refs i = 0 → ¬ NonEmpty (d.slot i)

theorem Taken.same {refs : Nat → Nat} {k : UniqueId64x2} {i : Nat} {d e : ClockCache}
    (h : Taken refs k i d) (hs : SameSlot i d e) : Taken refs k i e :=
  ⟨by rw [hs.visible]; exact h.hidden, by rw [hs.nonEmpty]; exact h.emptied⟩

section Erase
variable {n calls : Nat} {refs : Nat → Nat} {c : ClockCache} (h : Table n calls refs c)
  (hlim : calls + 1 < 2 ^ 30) (hpop : c.population < 2 ^ 32) (k : UniqueId64x2)

/-- What an erase leaves: fewer entries, none of them visible with the key, and
counters that moved with them. -/
structure Erased (n calls : Nat) (refs : Nat → Nat) (c d : ClockCache) : Prop
    extends Kept n calls refs c d where
  length : d.length = c.length
  delta : d.hitDecrDelta = c.hitDecrDelta
  occupancy : d.spareOccupancy = c.spareOccupancy
  usage : d.spareUsage = c.spareUsage

theorem Erased.refl (h : Table n calls refs c) : Erased n calls refs c c :=
  ⟨Kept.refl h, rfl, rfl, rfl, rfl⟩

theorem Erased.trans {c d e : ClockCache} (h : Erased n calls refs c d)
    (h' : Erased n calls refs d e) : Erased n calls refs c e :=
  ⟨h.toKept.trans h'.toKept, h'.length.trans h.length, h'.delta.trans h.delta,
    h'.occupancy.trans h.occupancy, h'.usage.trans h.usage⟩

include h hlim

/-- One slot of an erase: not of this key, or its entry freed, or hidden where a
reference is held on it. -/
theorem eraseMatch_cases (found succ : Bool) {i : Nat} (hi : i < c.length.toNat) :
    (¬ VisibleWith k (c.slot i) ∧ eraseMatch k i ⟨c, found, succ⟩ = some (false, ⟨c, found, succ⟩)) ∨
    (VisibleWith k (c.slot i) ∧ refs i = 0 ∧ ∃ d,
      eraseMatch k i ⟨c, found, succ⟩ = some (false, ⟨d, true, true⟩) ∧
      Freed i c d ∧ d.occupancy = c.occupancy - 1 ∧ d.usage = c.usage - (c.slot i).totalCharge) ∨
    (VisibleWith k (c.slot i) ∧ refs i ≠ 0 ∧ ∃ hits ≤ 2000, eraseMatch k i ⟨c, found, succ⟩ =
      some (false, ⟨c.setMeta i (pack 6 0 hits (refs i)), true, succ⟩)) := by
  have hsize := h.lt_size.mpr hi
  by_cases hv : VisibleWith k (c.slot i)
  · right
    rcases eraseMatch_hit hsize (h.word i hi) hlim (h.held i) k found succ hv with
      ⟨hrefs, heq⟩ | ⟨hrefs, hits, hhits, heq⟩
    · left
      have hk := hv.2
      have hremoved := removed_rollback h.toSized hi
        (d := (c.clear i).reclaimEntryUsage (c.slot i).totalCharge) rfl rfl
      have hbefore : ((c.clear i).reclaimEntryUsage (c.slot i).totalCharge).probesBefore k i =
          c.probesBefore k i := probesBefore_congr rfl k i
      have hsized : Sized n ((c.clear i).reclaimEntryUsage (c.slot i).totalCharge) :=
        ⟨h.length, (setSlot_size c i _).trans h.size⟩
      obtain ⟨array, hrest, -⟩ := ((c.clear i).reclaimEntryUsage (c.slot i).totalCharge).displaceAll_rest
        (c.probesBefore (c.slot i).hashedKey i) (-1)
      rw [rollback_eq hsized.length k hi, Option.map_some, hbefore, ← hk] at heq
      rw [← hk]
      refine ⟨⟨hv.1, rfl⟩, hrefs, _, heq, ⟨hremoved, ?_⟩, ?_, ?_⟩
      · rw [hrest]
        rfl
      · rw [hrest]
        rfl
      · rw [hrest]
        rfl
    · exact .inr ⟨hv, hrefs, hits, hhits, heq⟩
  · exact .inl ⟨hv, eraseMatch_miss hsize k found succ hv⟩

/-- What an erase does to one slot. -/
structure Visited (n calls : Nat) (refs : Nat → Nat) (k : UniqueId64x2) (i : Nat) (s t : EraseState) :
    Prop where
  erased : Erased n calls refs s.cache t.cache
  other : ∀ j, j ≠ i → SameSlot j s.cache t.cache
  slot : if VisibleWith k (s.cache.slot i) then Taken refs k i t.cache else SameSlot i s.cache t.cache
  found : t.found = (s.found || decide (VisibleWith k (s.cache.slot i)))
  succ : t.succ = (s.succ || decide (VisibleWith k (s.cache.slot i) ∧ refs i = 0))

theorem eraseMatch_spec (found succ : Bool) {i : Nat} (hi : i < c.length.toNat) :
    ∃ s, eraseMatch k i ⟨c, found, succ⟩ = some (false, s) ∧ Visited n calls refs k i ⟨c, found, succ⟩ s := by
  rcases eraseMatch_cases h hlim k found succ hi with
    ⟨hv, heq⟩ | ⟨hv, hrefs, d, heq, hfreed, hocc, husage⟩ | ⟨hv, hrefs, hits, hhits, heq⟩
  · refine ⟨_, heq, Erased.refl h, fun j _ => SameSlot.refl j c, ?_, by simp [hv], by simp [hv]⟩
    rw [if_neg hv]
    exact SameSlot.refl i c
  · have hentry : i ∈ c.entries := mem_entries.mpr ⟨h.lt_size.mpr hi, hv.nonEmpty⟩
    have hgone : ¬ NonEmpty (d.slot i) := by
      rw [NonEmpty, hfreed.word]
      decide
    refine ⟨_, heq, ⟨Kept.remove h hfreed.toRemoved hentry hrefs, hfreed.length, ?_, ?_, ?_⟩, hfreed.other,
      ?_, by simp [hv], by simp [hv, hrefs]⟩
    · show d.hitDecrDelta = c.hitDecrDelta
      rw [hfreed.rest]
    · have hcount : c.population = _ := (hfreed.population hentry).symm
      rw [spareOccupancy, spareOccupancy, hcount, UInt64.ofNat_add, hocc]
      grind
    · have hcount : c.charges = _ := (hfreed.charges hentry).symm
      rw [spareUsage, spareUsage, hcount, UInt64.ofNat_add, UInt64.ofNat_toNat, husage]
      grind
    · rw [if_pos hv]
      exact ⟨fun hvis => hgone hvis.nonEmpty, fun _ => hgone⟩
  · obtain ⟨hsame, hkept⟩ := Kept.setMeta h hi (by omega) hv.nonEmpty hhits (.inl rfl)
    refine ⟨_, heq, ⟨hkept, rfl, rfl, ?_, ?_⟩, fun j hj => ?_, ?_, by simp [hv], by simp [hrefs]⟩
    · rw [spareOccupancy, spareOccupancy, hsame.population]
      rfl
    · rw [spareUsage, spareUsage, hsame.charges]
      rfl
    · rw [SameSlot, slot_setMeta_of_ne c _ hj]
      exact ⟨rfl, rfl⟩
    · rw [if_pos hv]
      refine ⟨fun hvis => ?_, fun hzero => absurd hzero hrefs⟩
      have hheld := h.held i
      rw [slot_setMeta_self c _ (h.lt_size.mpr hi)] at hvis
      exact invisible_ne_visible ((state_invisible (by omega) (by omega)).symm.trans hvis.1)

omit h hlim in
/-- The table in the middle of an erase that has visited the slots `pre`. -/
structure Erasing (n calls : Nat) (refs : Nat → Nat) (k : UniqueId64x2) (c : ClockCache) (pre : List Nat)
    (s : EraseState) : Prop where
  erased : Erased n calls refs c s.cache
  slots : ∀ i, if i ∈ pre ∧ VisibleWith k (c.slot i) then Taken refs k i s.cache else SameSlot i c s.cache
  found : s.found = true ↔ ∃ i ∈ pre, VisibleWith k (c.slot i)
  succ : s.succ = true ↔ ∃ i ∈ pre, VisibleWith k (c.slot i) ∧ refs i = 0

omit h hlim in
theorem Erasing.hidden {pre : List Nat} {s : EraseState} (hs : Erasing n calls refs k c pre s) {i : Nat}
    (hi : i ∈ pre) : ¬ VisibleWith k (s.cache.slot i) := by
  have hslot := hs.slots i
  by_cases hv : VisibleWith k (c.slot i)
  · rw [if_pos ⟨hi, hv⟩] at hslot
    exact hslot.hidden
  · rw [if_neg fun h => hv h.2] at hslot
    rwa [hslot.visible]

omit hlim in
/-- Visiting one more slot. -/
theorem Erasing.visit {pre post : List Nat} {s t : EraseState} {i : Nat}
    (hsplit : c.probePath k = pre ++ i :: post) (hs : Erasing n calls refs k c pre s)
    (hvisit : Visited n calls refs k i s t) : Erasing n calls refs k c (pre ++ [i]) t := by
  have hnot : i ∉ pre := by
    rw [← h.probesBefore_of_split k hsplit]
    exact fun hmem => probesBefore_ne hmem rfl
  have hi := hs.slots i
  rw [if_neg fun hmem => hnot hmem.1] at hi
  have hvis := hi.visible k
  have hslot := hvisit.slot
  refine ⟨hs.erased.trans hvisit.erased, fun j => ?_, ?_, ?_⟩
  · by_cases hj : j = i
    · subst hj
      by_cases hv : VisibleWith k (c.slot j)
      · rw [if_pos (hvis.mpr hv)] at hslot
        rw [if_pos ⟨by simp, hv⟩]
        exact hslot
      · rw [if_neg (mt hvis.mp hv)] at hslot
        rw [if_neg fun h => hv h.2]
        exact hi.trans hslot
    · have hother := hvisit.other j hj
      have hsj := hs.slots j
      by_cases hv : j ∈ pre ∧ VisibleWith k (c.slot j)
      · rw [if_pos hv] at hsj
        rw [if_pos ⟨by simp [hv.1], hv.2⟩]
        exact hsj.same hother
      · rw [if_neg hv] at hsj
        rw [if_neg (by simpa [hj] using hv)]
        exact hsj.trans hother
  · rw [hvisit.found, Bool.or_eq_true, hs.found, decide_eq_true_eq, hvis]
    simp [or_and_right, exists_or]
  · rw [hvisit.succ, Bool.or_eq_true, hs.succ, decide_eq_true_eq, hvis]
    simp [or_and_right, exists_or]

omit h hlim in
/-- What an erase of `k` returns and leaves: every slot visible with `k` is taken from
view, and the others are as they were. -/
structure Erasure (n calls : Nat) (refs : Nat → Nat) (k : UniqueId64x2) (c : ClockCache) (ok : Bool)
    (d : ClockCache) : Prop where
  erased : Erased n calls refs c d
  taken : ∀ i, VisibleWith k (c.slot i) → Taken refs k i d
  same : ∀ i, ¬ VisibleWith k (c.slot i) → SameSlot i c d
  ok : ok = true ↔ (∃ i, VisibleWith k (c.slot i) ∧ refs i = 0) ∨ ∀ i, ¬ VisibleWith k (c.slot i)

omit h hlim in
theorem Erasure.hidden {ok : Bool} {d : ClockCache} (hd : Erasure n calls refs k c ok d) (i : Nat) :
    ¬ VisibleWith k (d.slot i) := by
  by_cases hv : VisibleWith k (c.slot i)
  · exact (hd.taken i hv).hidden
  · rwa [(hd.same i hv).visible]

omit hlim in
/-- The slots not visited by an erase that ended have no visible entry of its key. -/
theorem Erasing.ended {pre : List Nat} {s : EraseState} (hs : Erasing n calls refs k c pre s)
    (hnone : ∀ i, i < c.length.toNat → ¬ VisibleWith k (s.cache.slot i)) :
    Erasure n calls refs k c (s.succ || !s.found) s.cache := by
  have hpre : ∀ i, VisibleWith k (c.slot i) → i ∈ pre := by
    intro i hv
    by_contra hnot
    have hslot := hs.slots i
    rw [if_neg fun hmem => hnot hmem.1] at hslot
    exact hnone i (h.lt_size.mp (lt_of_nonEmpty hv.nonEmpty)) ((hslot.visible k).mpr hv)
  refine ⟨hs.erased, fun i hv => ?_, fun i hv => ?_, ?_⟩
  · have hslot := hs.slots i
    rwa [if_pos ⟨hpre i hv, hv⟩] at hslot
  · have hslot := hs.slots i
    rwa [if_neg fun hmem => hv hmem.2] at hslot
  · have hfound : s.found = false ↔ ∀ i, ¬ VisibleWith k (c.slot i) := by
      rw [← Bool.not_eq_true, hs.found]
      exact ⟨fun hno i hv => hno ⟨i, hpre i hv, hv⟩, fun hno ⟨i, _, hv⟩ => hno i hv⟩
    rw [Bool.or_eq_true, Bool.not_eq_true', hs.succ, hfound]
    exact or_congr_left ⟨fun ⟨i, _, hi⟩ => ⟨i, hi⟩, fun ⟨i, hi⟩ => ⟨i, hpre i hi.1, hi⟩⟩

include hpop

/-- **Erase leaves no visible entry of its key**, wherever on the path it was, and every
slot without one as it was. -/
theorem erase_slots : ∃ ok d, c.erase k = some (ok, d) ∧ Erasure n calls refs k c ok d := by
  have hloop : ∃ r s, Probe.walk (eraseMatch k) (fun h (s : EraseState) => some (notDisplaced h s.cache, s))
      (fun _ _ s => some s) (c.probePath k) ⟨c, false, false⟩ = some (r, s) ∧
      Erasure n calls refs k c (s.succ || !s.found) s.cache := by
    refine Probe.walk_spec (Erasing n calls refs k c)
      (fun _ s => Erasure n calls refs k c (s.succ || !s.found) s.cache) ?_ ?_
      ⟨Erased.refl h, fun i => by simpa using SameSlot.refl i c, by simp, by simp⟩
    · rintro pre i post ⟨d, found, succ⟩ hsplit hd
      have hlen : d.length = c.length := hd.erased.length
      have hi : i < d.length.toNat := by
        rw [hlen]
        exact (h.mem_probePath k).mp (by rw [hsplit]; simp)
      obtain ⟨s, hmatch, hvisit⟩ := eraseMatch_spec hd.erased.table hlim k found succ hi
      have hs := hd.visit h k hsplit hvisit
      refine ⟨_, _, hmatch, by simp, fun _ => ⟨_, _, rfl, fun hstop => ?_, fun _ => ⟨_, rfl, hs⟩⟩⟩
      have hpop' : s.cache.population < 2 ^ 32 := Nat.lt_of_le_of_lt hs.erased.population hpop
      have hlen' : s.cache.length = c.length := hs.erased.length
      have hsplit' : s.cache.probePath k = pre ++ i :: post := by
        rw [probePath, hlen']
        exact hsplit
      refine hs.ended h k fun j hj => ?_
      exact none_beyond hs.erased.table hpop' k hsplit' (fun j hj => hs.hidden k (by simp [hj]))
        (hs.hidden k (by simp)) (eq_of_beq hstop) j (by rwa [hlen'])
    · exact fun s hs => hs.ended h k fun i hi => hs.hidden k ((h.mem_probePath k).mpr hi)
  obtain ⟨r, s, hwalk, hs⟩ := hloop
  refine ⟨s.succ || !s.found, s.cache, ?_, hs⟩
  rw [erase, findSlot_eq h.length, hwalk]
  rfl

theorem erase_spec : ∃ ok d, c.erase k = some (ok, d) ∧ Erased n calls refs c d ∧
    ∀ i, i < c.length.toNat → ¬ VisibleWith k (d.slot i) := by
  obtain ⟨ok, d, herase, hd⟩ := erase_slots h hlim hpop k
  exact ⟨ok, d, herase, hd.erased, fun i _ => hd.hidden k i⟩

end Erase

/-! ### DoInsert -/

/-- The outcomes of `DoInsert`: the entry put in the first empty slot of its path,
past entries none of which has its key; or the table as it was. -/
inductive Placed (handle : Handle) (c : ClockCache) : Option Nat → Bool → ClockCache → Prop where
  | inserted (i : Nat) (d : ClockCache) (hadded : Added i handle c d) (hi : i < c.length.toNat)
      (hempty : i ∉ c.entries) (hrest : d = {c with array := d.array})
      (hbefore : ∀ j ∈ c.probesBefore handle.hashedKey i,
        NonEmpty (c.slot j) ∧ ¬ VisibleWith handle.hashedKey (c.slot j)) :
      Placed handle c (some i) false d
  | matched : Placed handle c none true c
  | full : Placed handle c none false c

section DoInsert
variable {n calls : Nat} {refs : Nat → Nat} {c : ClockCache} (h : Table n calls refs c)
  (hlim : calls + 1 < 2 ^ 30) (handle : Handle)
include h

/-- The entry placed in the slot the search came to. -/
theorem added_insert {pre post : List Nat} {i : Nat}
    (hsplit : c.probePath handle.hashedKey = pre ++ i :: post) :
    Added i handle c ((c.displaceAll pre 1).setSlot i
      {(c.displaceAll pre 1).slot i with toHandle := handle, metaWord := pack 7 0 3 0}) := by
  have hpre : pre = c.probesBefore handle.hashedKey i := (h.probesBefore_of_split _ hsplit).symm
  have hi : i < c.array.length := h.lt_size.mpr ((h.mem_probePath _).mp (by rw [hsplit]; simp))
  obtain ⟨array, heq, hlen⟩ := c.displaceAll_rest pre 1
  have hsize : (c.displaceAll pre 1).array.length = c.array.length := by rw [heq, hlen]
  have hall : ∀ j, (c.displaceAll pre 1).slot j = if j ∈ pre
      then {c.slot j with displacements := (c.slot j).displacements + 1} else c.slot j := by
    intro j
    apply slot_displaceAll c j 1
    · rw [hpre]
      exact h.probesBefore_nodup _ i
    · intro hm
      rw [hpre] at hm
      exact h.lt_size.mpr (probesBefore_lt hm)
  have hself : i ∉ pre := by
    rw [hpre]
    exact fun hm => probesBefore_ne hm rfl
  refine ⟨by rw [heq]; rfl, by rw [setSlot_size, hsize], ?_, ?_, ?_, ?_⟩
  · rw [slot_setSlot_self _ _ (by rwa [hsize])]
  · rw [slot_setSlot_self _ _ (by rwa [hsize])]
  · intro j hj
    rw [slot_setSlot_of_ne _ _ hj, hall]
    split
    · exact ⟨rfl, rfl⟩
    · exact ⟨rfl, rfl⟩
  · intro j
    rw [slot_setSlot _ j _ (by rwa [hsize]), ← hpre]
    by_cases hj : j = i
    · subst hj
      rw [if_pos rfl, if_neg hself, hall, if_neg hself, UInt32.add_zero]
    · rw [if_neg hj, hall]
      split
      · rfl
      · rw [UInt32.add_zero]

omit h in
/-- A search for a place for `k` comes to a visible entry of it before an empty slot. -/
def Meets (c : ClockCache) (k : UniqueId64x2) : Prop :=
  ∃ i, VisibleWith k (c.slot i) ∧ ∀ j ∈ c.probesBefore k i, NonEmpty (c.slot j)

omit h in
/-- What it tells about the table that `DoInsert` found no place. -/
structure NoPlace (handle : Handle) (c : ClockCache) (e : Option Nat) (already : Bool) : Prop where
  matched : already = true → c.Meets handle.hashedKey
  full : e = none → already = false → ∀ i, i < c.length.toNat →
    NonEmpty (c.slot i) ∧ ¬ VisibleWith handle.hashedKey (c.slot i)

include hlim in
/-- `DoInsert` either places the entry or leaves the table as it was, displacements
included. -/
theorem doInsert_place : ∃ e already d, c.doInsert handle = some (e, already, d) ∧
    Placed handle c e already d ∧ NoPlace handle c e already := by
  have hloop : ∃ e s, Probe.walk (insertMatch handle) (insertAbort handle) (insertUpdate handle)
      (c.probePath handle.hashedKey) ⟨c, false⟩ = some (e, s) ∧
      Placed handle c (if s.alreadyMatches then none else e) s.alreadyMatches s.cache ∧
      NoPlace handle c e s.alreadyMatches := by
    refine Probe.walk_spec
      (fun pre s => s = ⟨if pre = c.probePath handle.hashedKey then c else c.displaceAll pre 1, false⟩ ∧
        ∀ j ∈ pre, NonEmpty (c.slot j) ∧ ¬ VisibleWith handle.hashedKey (c.slot j))
      (fun e (s : InsertState) =>
        Placed handle c (if s.alreadyMatches then none else e) s.alreadyMatches s.cache ∧
          NoPlace handle c e s.alreadyMatches)
      ?_ ?_ ⟨by rw [if_neg (h.probePath_ne_nil _).symm]; rfl, by simp⟩
    · rintro pre i post s hsplit ⟨hs, hpre⟩
      have hi : i < c.length.toNat := (h.mem_probePath _).mp (by rw [hsplit]; simp)
      have hbefore : pre = c.probesBefore handle.hashedKey i := (h.probesBefore_of_split _ hsplit).symm
      have hnodup : pre.Nodup := hbefore ▸ h.probesBefore_nodup _ i
      have hlt : ∀ j ∈ pre, j < c.array.length :=
        fun j hj => h.lt_size.mpr (probesBefore_lt (hbefore ▸ hj))
      have hself : i ∉ pre := fun hm => probesBefore_ne (hbefore ▸ hm) rfl
      rw [if_neg (by rw [hsplit]; simp)] at hs
      subst hs
      have hslot : (c.displaceAll pre 1).slot i = c.slot i := by
        rw [slot_displaceAll c i 1 hnodup (hlt i), if_neg hself]
      obtain ⟨array, hrest, hlen⟩ := c.displaceAll_rest pre 1
      have hlength : (c.displaceAll pre 1).length = c.length := by rw [hrest]
      have hsized : Sized n (c.displaceAll pre 1) := h.toSized.congr hlength (by rw [hrest, hlen])
      have hsize : i < (c.displaceAll pre 1).array.length := by
        rw [hrest, hlen]
        exact h.lt_size.mpr hi
      have hback : (c.displaceAll pre 1).rollback handle.hashedKey i = some c := by
        rw [rollback_eq hsized.length _ (by rwa [hlength]), probesBefore_congr hlength, ← hbefore,
          displaceAll_back hnodup hlt]
      by_cases he : NonEmpty (c.slot i)
      · have hword : Word calls (refs i) ((c.displaceAll pre 1).slot i).metaWord :=
          hslot ▸ h.word i hi
        have htry := tryInsert_entry hsize hword hlim (h.held i) handle false (hslot ▸ he)
        rw [hslot, Bool.false_or] at htry
        by_cases hv : VisibleWith handle.hashedKey (c.slot i)
        · refine ⟨false, ⟨c.displaceAll pre 1, true⟩, by simp [insertMatch, htry, hv], by simp,
            fun _ => ⟨true, ⟨c, true⟩, by simp [insertAbort, hback], fun _ => ⟨.matched, ?_⟩, by simp⟩⟩
          refine ⟨fun _ => ⟨i, hv, ?_⟩, by simp⟩
          rw [← hbefore]
          exact fun j hj => (hpre j hj).1
        · refine ⟨false, ⟨c.displaceAll pre 1, false⟩, by simp [insertMatch, htry, hv], by simp,
            fun _ => ⟨false, ⟨c.displaceAll pre 1, false⟩, by simp [insertAbort], by simp, fun _ => ?_⟩⟩
          have hpre' : ∀ j ∈ pre ++ [i],
              NonEmpty (c.slot j) ∧ ¬ VisibleWith handle.hashedKey (c.slot j) := by
            intro j hj
            rcases List.mem_append.mp hj with hj | hj
            · exact hpre j hj
            · rw [List.mem_singleton.mp hj]
              exact ⟨he, hv⟩
          cases post with
          | nil =>
            refine ⟨⟨c, false⟩, by simp [insertUpdate, hback], ?_, hpre'⟩
            rw [if_pos hsplit.symm]
          | cons j post =>
            refine ⟨⟨c.displaceAll (pre ++ [i]) 1, false⟩, ?_, ?_, hpre'⟩
            · simp [insertUpdate, displaceAll_append]
            · rw [if_neg (by rw [hsplit]; simp)]
      · have htry := tryInsert_empty hsize handle false (hslot ▸ he)
        refine ⟨true, _, by simp only [insertMatch, htry]; rfl, fun _ => ?_, by simp⟩
        refine ⟨.inserted i _ (added_insert h handle hsplit) hi
          (fun hm => he (mem_entries.mp hm).2) ?_ (hbefore ▸ hpre), by simp, by simp⟩
        rw [setSlot, hrest]
    · rintro s ⟨hs, hpre⟩
      rw [if_pos rfl] at hs
      subst hs
      exact ⟨.full, by simp, fun _ _ i hi => hpre i ((h.mem_probePath _).mpr hi)⟩
  obtain ⟨e, s, hwalk, hplaced, hno⟩ := hloop
  rw [doInsert, findSlot_eq h.length, hwalk]
  by_cases ha : s.alreadyMatches
  · rw [ha] at hplaced hno
    exact ⟨none, true, s.cache, by simp [ha], by simpa using hplaced, hno.matched, by simp⟩
  · rw [Bool.not_eq_true] at ha
    rw [ha] at hplaced hno
    exact ⟨e, false, s.cache, by simp [ha], by simpa using hplaced, hno⟩

include hlim in
theorem doInsert_spec : ∃ e already d, c.doInsert handle = some (e, already, d) ∧
    Placed handle c e already d := by
  obtain ⟨e, already, d, hdo, hplaced, -⟩ := doInsert_place h hlim handle
  exact ⟨e, already, d, hdo, hplaced⟩

end DoInsert

end HyperCache.Clock.ClockCache
