import HyperCache.Clock.Invariant

/-! Which values the table owns.

An entry leaves the table in one way only, through `FreeData`, whether it is erased or
evicted. So a call is described by the handles it freed (`Moves`): the entries before it
are those after it and the freed ones, and the deleter was called for each freed one
once. What is counted of the entries follows by adding up (`stored`). -/
namespace HyperCache.Clock

/-- The call `FreeData` makes for an entry. -/
def Handle.callback (h : Handle) : Option (DeleterFn × ObjectPtr) :=
  if h.delCb ≠ 0 ∧ h.value ≠ 0 then some (h.delCb, h.value) else none

namespace ClockCache

/-- The handles of the entries. -/
def stored (c : ClockCache) : Multiset Handle := c.entries.val.map fun i => (c.slot i).toHandle

/-- What some handles charge together. -/
def chargeOf (handles : Multiset Handle) : Nat := (handles.map fun h => h.totalCharge.toNat).sum

@[simp] theorem chargeOf_zero : chargeOf 0 = 0 := rfl

@[simp] theorem chargeOf_singleton (h : Handle) : chargeOf {h} = h.totalCharge.toNat := by
  simp [chargeOf]

@[simp] theorem chargeOf_add (s t : Multiset Handle) : chargeOf (s + t) = chargeOf s + chargeOf t := by
  simp [chargeOf]

theorem population_stored (c : ClockCache) : c.population = c.stored.card := by
  simp [population, stored]

theorem charges_stored (c : ClockCache) : c.charges = chargeOf c.stored := by
  rw [chargeOf, stored, Multiset.map_map]
  rfl

theorem mem_stored {c : ClockCache} {i : Nat} (hi : i < c.array.length) (he : NonEmpty (c.slot i)) :
    (c.slot i).toHandle ∈ c.stored :=
  Multiset.mem_map_of_mem _ (mem_entries.mpr ⟨hi, he⟩)

theorem clear_deleted (c : ClockCache) (i : Nat) :
    (c.clear i).deleted = c.deleted ++ ((c.slot i).toHandle.callback).toList := by
  by_cases hd : (c.slot i).delCb ≠ 0 ∧ (c.slot i).value ≠ 0
  · simp [clear, Handle.callback, hd]
  · simp only [clear, Handle.callback, if_neg hd, Option.toList_none, List.append_nil]

section Stored
variable {c d : ClockCache} {i : Nat} {handle : Handle}

theorem SameEntries.stored (h : SameEntries c d) : d.stored = c.stored := by
  unfold ClockCache.stored
  rw [h.entries]
  exact Multiset.map_congr rfl fun j _ => h.handle j

theorem Removed.stored (h : Removed i c d) (hi : i ∈ c.entries) :
    c.stored = d.stored + {(c.slot i).toHandle} := by
  have hrest : d.stored = (c.entries.erase i).val.map fun j => (c.slot j).toHandle := by
    unfold ClockCache.stored
    rw [h.entries]
    exact Multiset.map_congr rfl fun j hj =>
      (h.other j (Finset.ne_of_mem_erase (Finset.mem_val.mp hj))).2
  rw [hrest, Finset.erase_val, ClockCache.stored, Multiset.add_comm, Multiset.singleton_add,
    ← Multiset.map_cons (fun j => (c.slot j).toHandle), Multiset.cons_erase hi]

theorem Added.stored (h : Added i handle c d) (hi : i < c.array.length) (hempty : i ∉ c.entries) :
    d.stored = c.stored + {handle} := by
  have hnew : Insert.insert i c.entries = Finset.cons i c.entries hempty :=
    (Finset.cons_eq_insert i c.entries hempty).symm
  unfold ClockCache.stored
  rw [h.entries hi, hnew, Finset.cons_val, Multiset.map_cons, h.entry, ← Multiset.singleton_add,
    Multiset.add_comm]
  congr 1
  exact Multiset.map_congr rfl fun j hj => (h.other j fun he => hempty (he ▸ hj)).2

end Stored

/-- The entries freed between `c` and `d`, none of them one that a reference is held on. -/
structure Moves (refs : Nat → Nat) (freed : Multiset Handle) (c d : ClockCache) : Prop where
  stored : c.stored = d.stored + freed
  deleted : (d.deleted : Multiset (DeleterFn × ObjectPtr)) =
    c.deleted + freed.filterMap Handle.callback
  held : ∀ i, 0 < refs i → NonEmpty (c.slot i) →
    NonEmpty (d.slot i) ∧ (d.slot i).toHandle = (c.slot i).toHandle
  capacity : d.capacity = c.capacity
  occupancyLimit : d.occupancyLimit = c.occupancyLimit

section Moves
variable {n calls : Nat} {refs : Nat → Nat} {freed freed' : Multiset Handle} {c d e : ClockCache}
  {i : Nat}

theorem SameEntries.moves (h : SameEntries c d) (hdel : d.deleted = c.deleted)
    (hcap : d.capacity = c.capacity) (hlimit : d.occupancyLimit = c.occupancyLimit) :
    Moves refs 0 c d where
  stored := by rw [h.stored, Multiset.add_zero]
  deleted := by rw [hdel, Multiset.filterMap_zero, Multiset.add_zero]
  held i _ he := ⟨(h.nonEmpty i).mpr he, h.handle i⟩
  capacity := hcap
  occupancyLimit := hlimit

theorem Moves.refl (refs : Nat → Nat) (c : ClockCache) : Moves refs 0 c c :=
  (SameEntries.refl c).moves rfl rfl rfl

theorem Moves.trans (h : Moves refs freed c d) (h' : Moves refs freed' d e) :
    Moves refs (freed + freed') c e where
  stored := by rw [h.stored, h'.stored, Multiset.add_assoc, Multiset.add_comm freed]
  deleted := by rw [h'.deleted, h.deleted, Multiset.filterMap_add, Multiset.add_assoc]
  held i hr he := by
    obtain ⟨hd, hdh⟩ := h.held i hr he
    obtain ⟨he', heh⟩ := h'.held i hr hd
    exact ⟨he', heh.trans hdh⟩
  capacity := h'.capacity.trans h.capacity
  occupancyLimit := h'.occupancyLimit.trans h.occupancyLimit

/-- Counters and pointers do not matter. -/
theorem Moves.of_array (h : Moves refs freed c d) (hl : e.length = d.length)
    (ha : e.array = d.array) (hdel : e.deleted = d.deleted) (hcap : e.capacity = d.capacity)
    (hlimit : e.occupancyLimit = d.occupancyLimit) : Moves refs freed c e := by
  have hsame : Moves refs 0 d e := (SameEntries.of_array hl ha).moves hdel hcap hlimit
  rw [← Multiset.add_zero freed]
  exact h.trans hsame

theorem Freed.moves (h : Freed i c d) (hi : i ∈ c.entries) (hrefs : refs i = 0) :
    Moves refs {(c.slot i).toHandle} c d where
  stored := h.stored hi
  deleted := by
    have hdel : d.deleted = (c.clear i).deleted := by rw [h.rest]
    rw [hdel, clear_deleted, ← Multiset.coe_add]
    cases hcb : (c.slot i).toHandle.callback with
    | none =>
      rw [← Multiset.cons_zero, Multiset.filterMap_cons_none _ 0 hcb]
      rfl
    | some p =>
      rw [← Multiset.cons_zero, Multiset.filterMap_cons_some _ _ 0 hcb]
      rfl
  held j hr he := by
    have hj : j ≠ i := by
      rintro rfl
      omega
    obtain ⟨hw, hh⟩ := h.other j hj
    rw [NonEmpty, hw]
    exact ⟨he, hh⟩
  capacity := by rw [h.rest]
  occupancyLimit := by rw [h.rest]

end Moves

/-! ### Erase and Evict -/

section Calls
variable {n calls : Nat} {refs : Nat → Nat} {c d : ClockCache} (h : Table n calls refs c)
  (hlim : calls + 1 < 2 ^ 30)
include h hlim

theorem eraseMatch_moves {k : UniqueId64x2} {found succ b : Bool} {s : EraseState} {i : Nat}
    (hi : i < c.length.toNat) (hrun : eraseMatch k i ⟨c, found, succ⟩ = some (b, s)) :
    ∃ freed, Moves refs freed c s.cache := by
  rcases eraseMatch_cases h hlim k found succ hi with
    ⟨hv, heq⟩ | ⟨hv, hrefs, d, heq, hfreed, -⟩ | ⟨hv, -, hits, hhits, heq⟩
  · cases heq.symm.trans hrun
    exact ⟨0, Moves.refl refs c⟩
  · cases heq.symm.trans hrun
    exact ⟨_, hfreed.moves (mem_entries.mpr ⟨h.lt_size.mpr hi, hv.nonEmpty⟩) hrefs⟩
  · cases heq.symm.trans hrun
    have hsame := (Kept.setMeta h hi (by omega) hv.nonEmpty hhits (.inl rfl)).1
    exact ⟨0, hsame.moves rfl rfl rfl⟩

/-- `Erase` frees what it takes out of the table. -/
theorem erase_moves {k : UniqueId64x2} {ok : Bool} (hrun : c.erase k = some (ok, d)) :
    ∃ freed, Moves refs freed c d := by
  rw [erase, findSlot_eq h.length] at hrun
  obtain ⟨⟨r, s⟩, hwalk, hrun⟩ := Option.bind_eq_some_iff.mp hrun
  cases hrun
  refine (Probe.walk_keeps
    (fun s => Erased n calls refs c s.cache ∧ ∃ freed, Moves refs freed c s.cache)
    ?_ ?_ ?_ ⟨Erased.refl h, 0, Moves.refl refs c⟩ hwalk).2
  · rintro i hi ⟨d, found, succ⟩ b s' ⟨herased, freed, hmoves⟩ hmatch
    have hi' : i < d.length.toNat := by
      rw [show d.length = c.length from herased.length]
      exact (h.mem_probePath k).mp hi
    obtain ⟨s'', hspec, hvisit⟩ := eraseMatch_spec herased.table hlim k found succ hi'
    obtain ⟨freed', hmoves'⟩ := eraseMatch_moves herased.table hlim hi' hmatch
    cases hspec.symm.trans hmatch
    exact ⟨herased.trans hvisit.erased, freed + freed', hmoves.trans hmoves'⟩
  · intro i _ s b s' hs habort
    cases habort
    exact hs
  · intro i _ s b s' hs hupdate
    cases hupdate
    exact hs

/-- The entries freed between two states of `Evict`, and their accounts. -/
structure Frees (refs : Nat → Nat) (freed : Multiset Handle) (s s' : EvictState) : Prop where
  moves : Moves refs freed s.cache s'.cache
  count : s'.data.freedCount = s.data.freedCount + UInt64.ofNat freed.card
  charge : s'.data.freedCharge = s.data.freedCharge + UInt64.ofNat (chargeOf freed)

omit h hlim in
theorem Frees.trans {s s' s'' : EvictState} {freed freed' : Multiset Handle}
    (h : Frees refs freed s s') (h' : Frees refs freed' s' s'') :
    Frees refs (freed + freed') s s'' where
  moves := h.moves.trans h'.moves
  count := by rw [h'.count, h.count, Multiset.card_add, UInt64.ofNat_add, UInt64.add_assoc]
  charge := by rw [h'.charge, h.charge, chargeOf_add, UInt64.ofNat_add, UInt64.add_assoc]

omit h in
theorem turn_frees {s s' : EvictState} (h : Table n calls refs s.cache) (hdelta : 1 ≤ s.hitDecrDelta)
    (hturn : Turn s s') : ∃ freed, Frees refs freed s s' := by
  cases hturn with
  | slot pointer hslot =>
    have hi : (s.cache.modLength pointer).toNat < s.cache.length.toNat := by
      rw [modLength_toNat]
      exact Nat.mod_lt _ h.pos
    rcases evictSlot_cases h hlim hdelta hi with
      ⟨seen, -, heq⟩ | ⟨hrefs, hentry, hvis, hits, hhits, -, heq⟩ | ⟨hmem, hrefs, d, heq, hfreed, -⟩
    · cases heq.symm.trans hslot
      exact ⟨0, Moves.refl refs _, (UInt64.add_zero _).symm, (UInt64.add_zero _).symm⟩
    · cases heq.symm.trans hslot
      have hsame := (Kept.setMeta h hi (by omega) hentry hhits (.inr ⟨rfl, hvis⟩)).1
      rw [hrefs] at hsame
      exact ⟨0, hsame.moves rfl rfl rfl, (UInt64.add_zero _).symm, (UInt64.add_zero _).symm⟩
    · cases heq.symm.trans hslot
      refine ⟨_, hfreed.moves hmem hrefs, ?_, ?_⟩
      · rw [Multiset.card_singleton]
        rfl
      · rw [chargeOf_singleton, UInt64.ofNat_toNat]
  | round pointer _ sum =>
    have hmoves := (Moves.refl refs s.cache).of_array
      (e := {s.cache with clockPointer := pointer}) rfl rfl rfl rfl rfl
    exact ⟨0, hmoves, (UInt64.add_zero _).symm, (UInt64.add_zero _).symm⟩

/-- `Evict` frees what it takes out of the table, and reports how many entries that were
and what they charged. -/
theorem evict_moves (hdelta : 1 ≤ c.hitDecrDelta) {requested : UInt64} {data : EvictionData}
    (hrun : c.evict requested = some (data, d)) :
    ∃ freed, Moves refs freed c d ∧ data.freedCount = UInt64.ofNat freed.card ∧
      data.freedCharge = UInt64.ofNat (chargeOf freed) := by
  rw [evict] at hrun
  obtain ⟨s, hloop, hrun⟩ := Option.bind_eq_some_iff.mp hrun
  cases hrun
  have hstart : Table n calls refs {c with clockPointer := c.clockPointer + kStepSize} :=
    h.of_array rfl rfl
  have hturns := evictLoop_turns _ _ _ _ _ hloop
  clear hloop hrun
  have hfrees : ∃ freed, Frees refs freed
      ⟨{c with clockPointer := c.clockPointer + kStepSize}, {}, 0, c.hitDecrDelta⟩ s ∧
      Evicted n calls refs
        ⟨{c with clockPointer := c.clockPointer + kStepSize}, {}, 0, c.hitDecrDelta⟩ s := by
    induction hturns with
    | refl => exact ⟨0, ⟨Moves.refl refs _, rfl, rfl⟩, Evicted.refl hstart⟩
    | tail _ hturn ih =>
      obtain ⟨freed, hfrees, hevicted⟩ := ih
      obtain ⟨freed', hfrees'⟩ := turn_frees hlim hevicted.kept.table (hevicted.delta hdelta) hturn
      exact ⟨_, hfrees.trans hfrees', hevicted.turn hlim hdelta hturn⟩
  obtain ⟨freed, hfrees, -⟩ := hfrees
  have hback : Moves refs 0 c {c with clockPointer := c.clockPointer + kStepSize} :=
    (Moves.refl refs c).of_array rfl rfl rfl rfl rfl
  refine ⟨0 + freed, (hback.trans hfrees.moves).of_array rfl rfl rfl rfl rfl, ?_, ?_⟩
  · rw [hfrees.count, Multiset.zero_add]
    exact UInt64.zero_add _
  · rw [hfrees.charge, Multiset.zero_add]
    exact UInt64.zero_add _

end Calls

/-! ### Insert -/

/-- The entries are within the limits. -/
structure Budgeted (c : ClockCache) : Prop where
  charges : c.charges ≤ c.capacity.toNat
  population : c.population ≤ c.occupancyLimit.toNat

/-- The entries and one more of this charge are within the limits. -/
structure HasRoom (charge : UInt64) (c : ClockCache) : Prop where
  charges : c.charges + charge.toNat ≤ c.capacity.toNat
  population : c.population + 1 ≤ c.occupancyLimit.toNat

section Insert
variable {n calls : Nat} {refs : Nat → Nat} {freed : Multiset Handle} {c d : ClockCache}
  {handle : Handle}

theorem Moves.charges (h : Moves refs freed c d) : c.charges = d.charges + chargeOf freed := by
  rw [charges_stored, charges_stored, h.stored, chargeOf_add]

theorem Moves.population (h : Moves refs freed c d) : c.population = d.population + freed.card := by
  rw [population_stored, population_stored, h.stored, Multiset.card_add]

theorem Budgeted.moves (hb : Budgeted c) (h : Moves refs freed c d) : Budgeted d := by
  have hcharges := h.charges
  have hpop := h.population
  obtain ⟨hc, hp⟩ := hb
  constructor
  · rw [h.capacity]
    omega
  · rw [h.occupancyLimit]
    omega

theorem HasRoom.moves {charge : UInt64} (hr : HasRoom charge c) (h : Moves refs freed c d) :
    HasRoom charge d := by
  have hcharges := h.charges
  have hpop := h.population
  obtain ⟨hc, hp⟩ := hr
  constructor
  · rw [h.capacity]
    omega
  · rw [h.occupancyLimit]
    omega

/-- `occupancy_` and `usage_` when nothing is spare. -/
theorem occupancy_toNat (hocc : c.spareOccupancy = 0) (hpop : c.population < 2 ^ 64) :
    c.occupancy.toNat = c.population := by
  have heq : c.occupancy = UInt64.ofNat c.population := by
    unfold spareOccupancy at hocc
    grind
  rw [heq, UInt64.toNat_ofNat', Nat.mod_eq_of_lt hpop]

theorem usage_toNat (husage : c.spareUsage = 0) (hcharges : c.charges < 2 ^ 64) :
    c.usage.toNat = c.charges := by
  have heq : c.usage = UInt64.ofNat c.charges := by
    unfold spareUsage at husage
    grind
  rw [heq, UInt64.toNat_ofNat', Nat.mod_eq_of_lt hcharges]

theorem settleCharge_rest {data : EvictionData} {room need : Bool}
    {oldUsage newUsage needCharge : UInt64}
    (hrun : c.settleCharge data oldUsage newUsage needCharge need = (room, d)) :
    d = {c with occupancy := d.occupancy, usage := d.usage} := by
  rw [settleCharge] at hrun
  split at hrun
  · cases hrun
    rfl
  split at hrun
  · cases hrun
    rfl
  · cases hrun
    rfl

/-- There is room only if enough was freed. -/
theorem settleCharge_room {data : EvictionData} {need : Bool} {oldUsage newUsage needCharge : UInt64}
    (hrun : c.settleCharge data oldUsage newUsage needCharge need = (true, d)) :
    needCharge ≤ data.freedCharge ∧
      (need = true → needCharge < data.freedCharge ∨ data.freedCount ≠ 0) := by
  rw [settleCharge] at hrun
  split at hrun
  · rename_i hmore
    exact ⟨UInt64.le_of_lt hmore, fun _ => .inl hmore⟩
  split at hrun
  · cases hrun
  · rename_i hless
    rw [not_or] at hless
    exact ⟨UInt64.not_lt.mp hless.1, fun hneed => .inr fun hzero => hless.2 ⟨hneed, hzero⟩⟩

/-- There is no room only if too little was freed. -/
theorem settleCharge_failed {data : EvictionData} {need : Bool} {oldUsage newUsage needCharge : UInt64}
    (hrun : c.settleCharge data oldUsage newUsage needCharge need = (false, d)) :
    data.freedCharge ≤ needCharge ∧
      (data.freedCharge < needCharge ∨ need = true ∧ data.freedCount = 0) := by
  rw [settleCharge] at hrun
  split at hrun
  · cases hrun
  rename_i hmore
  split at hrun
  · rename_i hless
    exact ⟨UInt64.not_lt.mp hmore, hless⟩
  · cases hrun

/-- The accounts an insertion of this charge starts from. -/
structure Settled (charge : UInt64) (c : ClockCache) : Prop extends Budgeted c where
  small : c.population < 2 ^ 32
  occupancy : c.spareOccupancy = 0
  usage : c.spareUsage = 0
  fits : c.usage.toNat + charge.toNat < 2 ^ 64

/-- What a reservation frees that finds room for this charge. -/
structure Relief (charge : UInt64) (freed : Multiset Handle) (c : ClockCache) : Prop where
  enough : (c.usage + charge - min c.capacity (c.usage + charge)).toNat ≤ chargeOf freed
  one : c.occupancyLimit < c.occupancy + 1 → freed ≠ 0

/-- There is a place under any bound on the entries that the limit keeps to. -/
theorem Moves.hasPlace (h : Moves refs freed c d) {charge : UInt64} (hr : Relief charge freed c)
    (hocc : c.spareOccupancy = 0) (hsmall : c.population < 2 ^ 32) {m : Nat} (hpop : c.population ≤ m)
    (hlimit : c.occupancyLimit.toNat ≤ m) : d.population + 1 ≤ m := by
  have hcount := h.population
  have ho := occupancy_toNat hocc (by omega)
  by_cases hfull : c.occupancyLimit < c.occupancy + 1
  · have := Multiset.card_pos.mpr (hr.one hfull)
    omega
  · have hle := UInt64.le_iff_toNat_le.mp (UInt64.not_lt.mp hfull)
    rw [UInt64.toNat_add, ho, show (1 : UInt64).toNat = 1 from rfl, Nat.mod_eq_of_lt (by omega)] at hle
    omega

/-- What was freed leaves room for the entry. -/
theorem Moves.hasRoom (h : Moves refs freed c d) {charge : UInt64} (hr : Relief charge freed c)
    (hs : Settled charge c) : HasRoom charge d := by
  have hcap := c.capacity.toNat_lt
  have hcharges := h.charges
  have henough := hr.enough
  obtain ⟨⟨hbc, hbp⟩, hpop, hocc, husage, hfits⟩ := hs
  have hu := usage_toNat husage (by omega)
  have hsum : (c.usage + charge).toNat = c.charges + charge.toNat := by
    rw [UInt64.toNat_add, hu, Nat.mod_eq_of_lt (hu ▸ hfits)]
  constructor
  · have hmin : (min c.capacity (c.usage + charge)).toNat =
        min c.capacity.toNat (c.charges + charge.toNat) := by rw [min_toNat, hsum]
    rw [UInt64.toNat_sub_of_le _ _ (UInt64.le_iff_toNat_le.mpr (by omega)), hmin, hsum] at henough
    rw [h.capacity]
    omega
  · rw [h.occupancyLimit]
    exact h.hasPlace hr hocc hpop hbp (Nat.le_refl _)

theorem reserve_moves (h : Table n calls refs c) (hlim : calls + 1 < 2 ^ 30)
    (hdelta : 1 ≤ c.hitDecrDelta) {room : Bool} (hrun : c.reserve handle = some (room, d)) :
    ∃ freed, Moves refs freed c d ∧ (room = true → Relief handle.totalCharge freed c) := by
  rw [reserve, evictForCharge] at hrun
  simp only at hrun
  have hback : Moves refs 0 c {c with
      occupancy := c.occupancy + 1, usage := min c.capacity (c.usage + handle.totalCharge)} :=
    (Moves.refl refs c).of_array rfl rfl rfl rfl rfl
  generalize hneed : c.usage + handle.totalCharge - min c.capacity (c.usage + handle.totalCharge) =
    need at hrun
  by_cases hpos : (if decide (c.occupancy + 1 > c.occupancyLimit) = true ∧ need = 0 then 1
      else need) > 0
  · rw [if_pos hpos] at hrun
    obtain ⟨⟨data, e⟩, hevict, hsettle⟩ := Option.bind_eq_some_iff.mp hrun
    have hstart := h.of_array (d := {c with
      occupancy := c.occupancy + 1, usage := min c.capacity (c.usage + handle.totalCharge)}) rfl rfl
    obtain ⟨freed, hmoves, hcount, hcharge⟩ := evict_moves hstart hlim hdelta hevict
    have hsettle := Option.some.inj hsettle
    have hrest := settleCharge_rest hsettle
    have hall : Moves refs (0 + freed) c d := by
      rw [hrest]
      exact (hback.trans hmoves).of_array rfl rfl rfl rfl rfl
    rw [Multiset.zero_add] at hall
    refine ⟨freed, hall, fun hroom => ⟨?_, fun hfull => ?_⟩⟩
    · rw [hroom] at hsettle
      have hle := UInt64.le_iff_toNat_le.mp (settleCharge_room hsettle).1
      rw [hneed]
      rw [hcharge, UInt64.toNat_ofNat'] at hle
      exact hle.trans (Nat.mod_le _ _)
    · rw [hroom] at hsettle
      rintro rfl
      rcases (settleCharge_room hsettle).2 (decide_eq_true hfull) with hmore | hsome
      · rw [hcharge] at hmore
        exact absurd (UInt64.lt_iff_toNat_lt.mp hmore) (Nat.not_lt_zero _)
      · exact hsome hcount
  · rw [if_neg hpos] at hrun
    cases hrun
    have hzero := UInt64.le_antisymm (UInt64.not_lt.mp hpos) (Nat.zero_le _)
    refine ⟨0, hback, fun _ => ⟨?_, fun hfull => ?_⟩⟩
    · rw [hneed]
      split at hzero
      · exact absurd hzero (by decide)
      · rw [hzero]
        exact Nat.zero_le _
    · have hfull' : decide (c.occupancy + 1 > c.occupancyLimit) = true := decide_eq_true hfull
      by_cases hn : need = 0
      · rw [if_pos ⟨hfull', hn⟩] at hzero
        exact absurd hzero (by decide)
      · rw [if_neg fun hand => hn hand.2] at hzero
        exact absurd hzero hn

/-- What an insertion does to the entries: some are freed, and if it returns true one
comes to an empty slot. -/
inductive InsertMoves (refs : Nat → Nat) (handle : Handle) (c : ClockCache) : Bool → ClockCache → Prop
  | failed {freed : Multiset Handle} {d : ClockCache} (hmoves : Moves refs freed c d) :
      InsertMoves refs handle c false d
  | placed {freed : Multiset Handle} {i : Nat} {e d : ClockCache} (hmoves : Moves refs freed c e)
      (hi : i < e.array.length) (hempty : i ∉ e.entries) (hadded : Added i handle e d)
      (hrest : d = {e with array := d.array})
      (hroom : Settled handle.totalCharge c → HasRoom handle.totalCharge e) :
      InsertMoves refs handle c true d

theorem insert_moves (h : Table n calls refs c) (hlim : calls + 1 < 2 ^ 30)
    (hpop : c.population < 2 ^ 32) (hdelta : 1 ≤ c.hitDecrDelta) (hocc : c.spareOccupancy = 0)
    (husage : c.spareUsage = 0) {ok : Bool} (hrun : c.insert handle = some (ok, d)) :
    InsertMoves refs handle c ok d := by
  rw [insert] at hrun
  obtain ⟨⟨room, e⟩, hreserve, hrun⟩ := Option.bind_eq_some_iff.mp hrun
  obtain ⟨hkept, hlen, hdelta', hocc', husage'⟩ := reserve_spec h hlim hdelta hocc husage hreserve
  obtain ⟨freed, hmoves, hroom⟩ := reserve_moves h hlim hdelta hreserve
  cases room with
  | false =>
    cases hrun
    exact .failed (hmoves.of_array rfl rfl rfl rfl rfl)
  | true =>
    obtain ⟨r, already, e', hdo, hplaced⟩ := doInsert_spec hkept.table hlim handle
    simp only [Option.bind_eq_bind, Option.bind_some, hdo, Bool.not_true, Bool.false_eq_true,
      if_false] at hrun
    cases hplaced with
    | inserted i _ hadded hi hempty hrest hbefore =>
      cases hrun
      exact .placed hmoves (hkept.table.lt_size.mpr hi) hempty hadded hrest (hmoves.hasRoom (hroom rfl))
    | full =>
      cases hrun
      exact .failed (hmoves.of_array rfl rfl rfl rfl rfl)
    | matched =>
      obtain ⟨⟨updated, e'⟩, hupdate, hrun⟩ := Option.bind_eq_some_iff.mp hrun
      obtain ⟨⟨erased, e₁⟩, herase, hupdate⟩ := Option.bind_eq_some_iff.mp hupdate
      obtain ⟨ok', e₂, herase', herased, -⟩ := erase_spec hkept.table hlim
        (Nat.lt_of_le_of_lt hkept.population hpop) handle.hashedKey
      obtain ⟨freed', hmoves'⟩ := erase_moves hkept.table hlim herase
      cases herase.symm.trans herase'
      have hall := hmoves.trans hmoves'
      cases erased with
      | false =>
        cases hupdate
        cases hrun
        exact .failed (hall.of_array rfl rfl rfl rfl rfl)
      | true =>
        obtain ⟨r, already, e₃, hdo, hplaced⟩ := doInsert_spec herased.table hlim handle
        simp only [Option.bind_eq_bind, Option.bind_some, hdo, Bool.not_true, Bool.false_eq_true,
          if_false] at hupdate
        cases hplaced with
        | inserted i _ hadded hi hempty hrest hbefore =>
          cases hupdate
          cases hrun
          exact .placed hall (herased.table.lt_size.mpr hi) hempty hadded hrest
            fun hs => (hmoves.hasRoom (hroom rfl) hs).moves hmoves'
        | matched =>
          cases hupdate
          cases hrun
          exact .failed (hall.of_array rfl rfl rfl rfl rfl)
        | full =>
          cases hupdate
          cases hrun
          exact .failed (hall.of_array rfl rfl rfl rfl rfl)

end Insert

end ClockCache

/-! ### Calls of a client -/

namespace Session
open ClockCache

section Step
variable {n lookups inserts : Nat} {s s' : Session} (h : Valid n lookups inserts s)
  (hlim : lookups + inserts + 1 < 2 ^ 30)
include h hlim

theorem Valid.insert_moves {handle : Handle} (hcall : s.call (.insert handle) = some s') :
    ∃ ok, s.cache.insert handle = some (ok, s'.cache) ∧ s'.held = s.held ∧
      InsertMoves (fun i => s.held.count i) handle s.cache ok s'.cache := by
  obtain ⟨⟨ok, d⟩, hinsert, hcall⟩ := Option.bind_eq_some_iff.mp hcall
  cases hcall
  exact ⟨ok, hinsert, rfl, ClockCache.insert_moves h.table (by omega) (h.pop_lt hlim) h.delta
    h.occupancy h.usage hinsert⟩

theorem Valid.erase_moves {k : UniqueId64x2} (hcall : s.call (.erase k) = some s') :
    s'.held = s.held ∧ ∃ freed, Moves (fun i => s.held.count i) freed s.cache s'.cache := by
  obtain ⟨⟨ok, d⟩, herase, hcall⟩ := Option.bind_eq_some_iff.mp hcall
  cases hcall
  exact ⟨rfl, ClockCache.erase_moves h.table (by omega) herase⟩

/-- A lookup frees nothing, and the handle it returns is that of an entry. -/
theorem Valid.lookup_moves {k : UniqueId64x2} (hcall : s.call (.lookup k) = some s') :
    Moves (fun i => s.held.count i) 0 s.cache s'.cache ∧ ∃ r, s.cache.lookup k = some (r, s'.cache) ∧
      s'.held = r.toList ++ s.held ∧ ∀ i, r = some i →
        i < s.cache.length.toNat ∧ NonEmpty (s'.cache.slot i) := by
  obtain ⟨⟨r, d⟩, hlookup, hcall⟩ := Option.bind_eq_some_iff.mp hcall
  cases hcall
  obtain ⟨r', d', hspec, hd⟩ := lookup_spec h.table (by omega) (h.pop_lt hlim) k
  obtain ⟨rfl, rfl⟩ := Prod.mk.inj (Option.some.inj (hlookup.symm.trans hspec))
  refine ⟨hd.same.moves ?_ ?_ ?_, r, hlookup, rfl, fun i hi => ?_⟩
  · show d.deleted = _
    rw [hd.rest]
  · show d.capacity = _
    rw [hd.rest]
  · show d.occupancyLimit = _
    rw [hd.rest]
  · obtain ⟨hlt, hv⟩ := hd.found i hi
    exact ⟨hlt, (hd.same.nonEmpty i).mpr hv.nonEmpty⟩

theorem Valid.release_moves {i : Nat} (hcall : s.call (.release i) = some s') :
    Moves (fun i => s.held.count i) 0 s.cache s'.cache ∧ s'.held = s.held.erase i := by
  rw [Session.call] at hcall
  by_cases hheld : i ∈ s.held
  · rw [if_pos hheld] at hcall
    cases hcall
    have hi := h.inTable i hheld
    obtain ⟨w, hrelease, hstate, -⟩ := release_spec (h.table.word i hi) (by omega) (h.table.held i)
      (List.count_pos_iff.mpr hheld)
    have hsame : SameEntries s.cache (s.cache.setMeta i w) := by
      apply SameEntries.setMeta _ (h.table.lt_size.mpr hi)
      rw [hstate, NonEmpty]
    rw [hrelease]
    exact ⟨hsame.moves rfl rfl rfl, rfl⟩
  · rw [if_neg hheld] at hcall
    cases hcall

/-- No call changes the limits. -/
theorem Valid.limits {call : Call} (hcall : s.call call = some s') :
    s'.cache.capacity = s.cache.capacity ∧ s'.cache.occupancyLimit = s.cache.occupancyLimit := by
  cases call with
  | insert handle =>
    obtain ⟨ok, -, -, hins⟩ := h.insert_moves hlim hcall
    cases hins with
    | failed hmoves => exact ⟨hmoves.capacity, hmoves.occupancyLimit⟩
    | placed hmoves hi hempty hadded hrest hroom =>
      rw [hrest]
      exact ⟨hmoves.capacity, hmoves.occupancyLimit⟩
  | lookup k =>
    have hmoves := (h.lookup_moves hlim hcall).1
    exact ⟨hmoves.capacity, hmoves.occupancyLimit⟩
  | release i =>
    have hmoves := (h.release_moves hlim hcall).1
    exact ⟨hmoves.capacity, hmoves.occupancyLimit⟩
  | erase k =>
    obtain ⟨-, freed, hmoves⟩ := h.erase_moves hlim hcall
    exact ⟨hmoves.capacity, hmoves.occupancyLimit⟩

/-- **No call takes the entries beyond the limits**, if the charges add up without a
carry. -/
theorem Valid.budgeted {call : Call} (hb : Budgeted s.cache)
    (hfits : ∀ handle, call = .insert handle →
      s.cache.usage.toNat + handle.totalCharge.toNat < 2 ^ 64) (hcall : s.call call = some s') :
    Budgeted s'.cache ∧ s'.cache.capacity = s.cache.capacity ∧
      s'.cache.occupancyLimit = s.cache.occupancyLimit := by
  refine ⟨?_, h.limits hlim hcall⟩
  cases call with
  | insert handle =>
    obtain ⟨ok, -, -, hins⟩ := h.insert_moves hlim hcall
    cases hins with
    | failed hmoves => exact hb.moves hmoves
    | placed hmoves hi hempty hadded hrest hroom =>
      obtain ⟨hcharges, hpop⟩ :=
        hroom ⟨hb, h.pop_lt hlim, h.occupancy, h.usage, hfits handle rfl⟩
      constructor
      · rw [hadded.charges hi hempty, hrest]
        exact hcharges
      · rw [hadded.population hi hempty, hrest]
        exact hpop
  | lookup k => exact hb.moves (h.lookup_moves hlim hcall).1
  | release i => exact hb.moves (h.release_moves hlim hcall).1
  | erase k =>
    obtain ⟨-, freed, hmoves⟩ := h.erase_moves hlim hcall
    exact hb.moves hmoves

end Step

/-- No run changes the limits. -/
theorem Valid.run_limits {n lookups inserts : Nat} {s s' : Session} (h : Valid n lookups inserts s)
    (calls : List Call) (hlim : lookups + inserts + calls.length < 2 ^ 30) (hrun : s.run calls = some s') :
    s'.cache.capacity = s.cache.capacity ∧ s'.cache.occupancyLimit = s.cache.occupancyLimit := by
  induction calls generalizing lookups inserts s with
  | nil =>
    cases hrun
    exact ⟨rfl, rfl⟩
  | cons call calls ih =>
    rw [List.length_cons] at hlim
    rw [run_cons] at hrun
    obtain ⟨s₁, hcall, hrun⟩ := Option.bind_eq_some_iff.mp hrun
    obtain ⟨l₁, i₁, hle, h₁⟩ := h.call (by omega) hcall
    obtain ⟨hcap, hlimit⟩ := h.limits (by omega) hcall
    obtain ⟨hcap', hlimit'⟩ := ih h₁ (by omega) hrun
    exact ⟨hcap'.trans hcap, hlimit'.trans hlimit⟩

end Session

end HyperCache.Clock
