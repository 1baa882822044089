import HyperCache.Clock.Sweep

/-! Insertions that are tried again.

While the client holds no handle, `Insert` fails for want of room only, and then the clock
hand has taken three lives of every slot (`Idle.swept`). A slot has at most 2001, so the
667th try finds the table empty, and an empty table has room for any handle that the
capacity allows (`run_insertRetry`). -/
namespace HyperCache.Clock

namespace ClockCache

/-- The loop that calls `Insert` again until it returns true, at most `retry` times. -/
def insertRetry (handle : Handle) : Nat → ClockCache → Option (Bool × ClockCache)
  | 0, c => some (false, c)
  | retry + 1, c => do
    let (succ, c) ← c.insert handle
    if succ then return (true, c)
    insertRetry handle retry c

/-! ### Places in the table -/

section Places
variable {n : Nat} {c : ClockCache} (h : Sized n c)
include h

theorem population_le : c.population ≤ c.length.toNat := by
  rw [h.length, ← h.size]
  exact (Finset.card_filter_le _ _).trans (Finset.card_range _).le

/-- With fewer entries than slots a slot is empty. -/
theorem exists_empty (hlt : c.population < c.length.toNat) :
    ∃ i, i < c.length.toNat ∧ ¬ NonEmpty (c.slot i) := by
  by_contra! hfull
  have hall : c.entries = Finset.range c.array.length := by
    refine Finset.filter_true_of_mem fun i hi => hfull i ?_
    rw [h.length, ← h.size]
    exact Finset.mem_range.mp hi
  rw [population, hall, Finset.card_range, h.size, ← h.length] at hlt
  exact Nat.lt_irrefl _ hlt

theorem entries_eq_empty (hlives : ∀ i, i < c.length.toNat → lives (c.slot i) = 0) : c.entries = ∅ := by
  refine Finset.filter_false_of_mem fun i hi => lives_eq_zero.mp (hlives i ?_)
  rw [h.length, ← h.size]
  exact Finset.mem_range.mp hi

end Places

/-! ### One try -/

/-- A cache between calls whose client holds nothing. -/
structure Idle (n calls : Nat) (c : ClockCache) : Prop where
  table : Table n calls (fun _ => 0) c
  delta : 1 ≤ c.hitDecrDelta
  occupancy : c.spareOccupancy = 0
  usage : c.spareUsage = 0
  population : c.population < 2 ^ 32
  limit : 1 ≤ c.occupancyLimit.toNat
  limit_le : c.occupancyLimit.toNat ≤ c.length.toNat

/-- What a reservation that found no room leaves: every slot had three lives less, and one
of them had more. -/
structure Swept (c d : ClockCache) : Prop where
  clock : d.clockPointer.toNat ≤ c.clockPointer.toNat + (3 * c.length.toNat + 8)
  worn : ∀ i, i < c.length.toNat → lives (d.slot i) ≤ lives (c.slot i) - 3
  lasting : ∃ i, i < c.length.toNat ∧ 3 < lives (c.slot i)

/-- A reservation without room has asked `Evict` for at least one, and was given too little. -/
theorem reserve_failed {c d : ClockCache} {handle : Handle} (hrun : c.reserve handle = some (false, d)) :
    ∃ need request data e, need = c.usage + handle.totalCharge - min c.capacity (c.usage + handle.totalCharge) ∧
      (request = need ∧ 0 < need ∨ request = 1 ∧ need = 0) ∧
      ClockCache.evict {c with
        occupancy := c.occupancy + 1
        usage := min c.capacity (c.usage + handle.totalCharge)} request = some (data, e) ∧
      d = {e with occupancy := d.occupancy, usage := d.usage} ∧
      data.freedCharge ≤ need ∧
      (data.freedCharge < need ∨ c.occupancyLimit < c.occupancy + 1 ∧ data.freedCount = 0) := by
  rw [reserve, evictForCharge] at hrun
  simp only at hrun
  generalize hneed : c.usage + handle.totalCharge - min c.capacity (c.usage + handle.totalCharge) =
    need at hrun
  by_cases hpos : (if decide (c.occupancy + 1 > c.occupancyLimit) = true ∧ need = 0 then 1
      else need) > 0
  · rw [if_pos hpos] at hrun
    obtain ⟨⟨data, e⟩, hevict, hsettle⟩ := Option.bind_eq_some_iff.mp hrun
    have hsettle := Option.some.inj hsettle
    obtain ⟨hle, hfew⟩ := settleCharge_failed hsettle
    refine ⟨need, _, data, e, rfl, ?_, hevict, settleCharge_rest hsettle, hle, ?_⟩
    · split
      · rename_i hfull
        exact .inr ⟨rfl, hfull.2⟩
      · rename_i hfull
        rw [if_neg hfull] at hpos
        exact .inl ⟨rfl, hpos⟩
    · exact hfew.imp_right fun hfull => ⟨of_decide_eq_true hfull.1, hfull.2⟩
  · rw [if_neg hpos] at hrun
    cases hrun

/-- What a charge within the capacity needs is not more than what is in use. -/
theorem need_le_usage {usage charge capacity : UInt64} (h : charge ≤ capacity) :
    usage + charge - min capacity (usage + charge) ≤ usage := by
  have hle := UInt64.le_iff_toNat_le.mp h
  have hmin : min capacity (usage + charge) ≤ usage + charge := by
    rw [UInt64.le_iff_toNat_le, min_toNat]
    exact Nat.min_le_right _ _
  have hsum := UInt64.toNat_add usage charge
  rw [UInt64.le_iff_toNat_le, UInt64.toNat_sub_of_le _ _ hmin, min_toNat]
  omega

section Try
variable {n calls : Nat} {c d : ClockCache} {handle : Handle} (h : Idle n calls c)
  (hlim : calls + 1 < 2 ^ 30)
include h hlim

theorem Idle.reserve_isSome (hclock : c.clockPointer.toNat + (3 * c.length.toNat + 8) < 2 ^ 64)
    (handle : Handle) : ∃ room d, c.reserve handle = some (room, d) := by
  rw [reserve, evictForCharge]
  simp only
  generalize (if decide (c.occupancy + 1 > c.occupancyLimit) = true ∧
    c.usage + handle.totalCharge - min c.capacity (c.usage + handle.totalCharge) = 0 then 1
    else c.usage + handle.totalCharge - min c.capacity (c.usage + handle.totalCharge)) = request
  by_cases hpos : request > 0
  · have hstart := h.table.of_array (d := {c with
      occupancy := c.occupancy + 1, usage := min c.capacity (c.usage + handle.totalCharge)}) rfl rfl
    obtain ⟨data, e, hevict, -⟩ :=
      evict_sweeps hstart hlim h.delta (fun _ => rfl) h.population hclock request
    rw [if_pos hpos, hevict]
    exact ⟨_, _, rfl⟩
  · rw [if_neg hpos]
    exact ⟨_, _, rfl⟩

/-- **A reservation that fails has swept the table**, and not found it empty. -/
theorem Idle.swept (hcharge : handle.totalCharge ≤ c.capacity)
    (hclock : c.clockPointer.toNat + (3 * c.length.toNat + 8) < 2 ^ 64)
    (hrun : c.reserve handle = some (false, d)) : Swept c d := by
  obtain ⟨need, request, data, e, hneed, hrequest, hevict, hrest, hle, hfew⟩ := reserve_failed hrun
  have hstart := h.table.of_array (d := {c with
    occupancy := c.occupancy + 1, usage := min c.capacity (c.usage + handle.totalCharge)}) rfl rfl
  obtain ⟨freed, hmoves, hcount, hcharges⟩ := evict_moves hstart hlim h.delta hevict
  have hcard : c.population = e.population + freed.card := hmoves.population
  have hsum : c.charges = e.charges + chargeOf freed := hmoves.charges
  have hpop := h.population
  have hnone : data.freedCount = 0 → freed = 0 := by
    intro hzero
    rw [hcount, ← UInt64.toNat_inj, UInt64.toNat_ofNat', Nat.mod_eq_of_lt (by omega)] at hzero
    exact Multiset.card_eq_zero.mp hzero
  have hslot : ∀ i, d.slot i = e.slot i := fun i => by rw [hrest]; rfl
  obtain ⟨data', e', hevict', hdone, hpointer⟩ := evict_sweeps hstart hlim h.delta (fun _ => rfl) hpop hclock request
  cases hevict.symm.trans hevict'
  -- it did not free what was asked, or there would be room
  have hshort : ¬ request ≤ data.freedCharge := by
    rintro henough
    rcases hrequest with ⟨rfl, hpos⟩ | ⟨rfl, rfl⟩
    · rcases hfew with hless | ⟨-, hzero⟩
      · exact absurd henough (UInt64.not_le.mpr hless)
      · rw [hcharges, hnone hzero] at henough
        exact absurd hpos (UInt64.not_lt.mpr henough)
    · exact absurd (UInt64.le_trans henough hle) (by decide)
  have hlives := hdone.resolve_left hshort
  refine ⟨by rw [hrest]; exact hpointer, fun i hi => by rw [hslot]; exact hlives i hi, ?_⟩
  -- if every slot was emptied, all that is in use was freed
  by_contra! hfew'
  have hempty : e.entries = ∅ := by
    have hkept := (evict_spec hstart hlim h.delta hevict).1
    refine entries_eq_empty hkept.table.toSized fun i hi => ?_
    have hi' : i < c.length.toNat := by
      rw [h.table.length, ← hkept.table.length]
      exact hi
    have hleft := hlives i hi'
    have := hfew' i hi'
    exact Nat.eq_zero_of_le_zero (hleft.trans (Nat.sub_eq_zero_of_le this).le)
  have hall : data.freedCharge = c.usage := by
    have husage := h.usage
    have hzero : e.charges = 0 := by rw [charges, hempty, Finset.sum_empty]
    rw [hcharges, show chargeOf freed = c.charges by omega]
    unfold spareUsage at husage
    grind
  rcases hfew with hless | ⟨hfull, hzero⟩
  · rw [hall, hneed] at hless
    exact absurd (need_le_usage hcharge) (UInt64.not_le.mpr hless)
  · have hgone : e.population = 0 := Finset.card_eq_zero.mpr hempty
    have hpopzero : c.population = 0 := by
      rw [hcard, hnone hzero, hgone, Multiset.card_zero]
    have hocc := occupancy_toNat h.occupancy (by omega)
    have hlimit := h.limit
    have hlt := UInt64.lt_iff_toNat_lt.mp hfull
    rw [UInt64.toNat_add, hocc, hpopzero] at hlt
    exact absurd hlt (Nat.not_lt.mpr hlimit)

omit h in
/-- With room reserved and nothing held the search finds a place, if need be after it has
erased what was there of the key. -/
theorem insert_of_room {refs : Nat → Nat} {e : ClockCache} (h : Table n calls refs e) (hfree : ∀ i, refs i = 0)
    (hpop : e.population < 2 ^ 32) (hreserve : c.reserve handle = some (true, e))
    (hroom : e.population < e.length.toNat) : ∃ d, c.insert handle = some (true, d) := by
  obtain ⟨i, hi, hempty⟩ := exists_empty h.toSized hroom
  obtain ⟨r, already, d, hdo, hplaced, hno⟩ := doInsert_place h hlim handle
  cases hplaced with
  | inserted j _ hadded hj hfree' hrest hbefore =>
    refine ⟨d, ?_⟩
    rw [ClockCache.insert, hreserve]
    simp only [Option.bind_eq_bind, Option.bind_some, hdo]
    rfl
  | full => exact absurd (hno.full rfl rfl i hi).1 hempty
  | matched =>
    obtain ⟨j, hv, -⟩ := hno.matched rfl
    obtain ⟨d, hupdate⟩ := eraseAndInsert_freed h hlim hpop hv (hfree j)
    refine ⟨d, ?_⟩
    rw [ClockCache.insert, hreserve]
    simp only [Option.bind_eq_bind, Option.bind_some, hdo, Bool.not_true, Bool.false_eq_true, if_false,
      Option.isSome_none, if_true, hupdate]
    rfl

/-- **One try**: it succeeds, or the hand has swept a table that stays as it was otherwise. -/
theorem Idle.insert (hcharge : handle.totalCharge ≤ c.capacity)
    (hclock : c.clockPointer.toNat + (3 * c.length.toNat + 8) < 2 ^ 64) :
    ∃ ok d, c.insert handle = some (ok, d) ∧ (ok = false →
      Idle n calls d ∧ Swept c d ∧ d.length = c.length ∧ d.capacity = c.capacity) := by
  obtain ⟨room, e, hreserve⟩ := h.reserve_isSome hlim hclock handle
  obtain ⟨hkept, hlen, -⟩ := reserve_spec h.table hlim h.delta h.occupancy h.usage hreserve
  obtain ⟨freed, hmoves, hroom⟩ := reserve_moves h.table hlim h.delta hreserve
  have hpop : e.population < 2 ^ 32 := Nat.lt_of_le_of_lt hkept.population h.population
  cases room with
  | true =>
    have hplace := hmoves.hasPlace (hroom rfl) h.occupancy h.population
      (population_le h.table.toSized) h.limit_le
    rw [← hlen] at hplace
    obtain ⟨d, hinsert⟩ := insert_of_room hlim hkept.table (fun _ => rfl) hpop hreserve hplace
    exact ⟨true, d, hinsert, by simp⟩
  | false =>
    have hinsert : c.insert handle = some (false, {e with occupancy := e.occupancy - 1}) := by
      rw [ClockCache.insert, hreserve]
      rfl
    have hins := insert_spec h.table hlim h.population h.delta h.occupancy h.usage hinsert
    obtain ⟨hptr, hworn, hlasting⟩ := h.swept hlim hcharge hclock hreserve
    refine ⟨false, _, hinsert, fun _ => ⟨⟨hins.table, hins.delta, hins.occupancy, hins.usage, hpop, ?_, ?_⟩,
      ⟨hptr, hworn, hlasting⟩, hlen, hmoves.capacity⟩⟩
    · show 1 ≤ e.occupancyLimit.toNat
      rw [hmoves.occupancyLimit]
      exact h.limit
    · show e.occupancyLimit.toNat ≤ e.length.toNat
      rw [hmoves.occupancyLimit, hlen]
      exact h.limit_le

end Try

/-- An empty table has room for any handle the capacity allows. -/
theorem insert_of_unpopulated {n calls : Nat} {refs : Nat → Nat} {c : ClockCache} (h : Table n calls refs c)
    (hpop : c.population = 0) (hocc : c.spareOccupancy = 0) (husage : c.spareUsage = 0)
    (hlimit : 1 ≤ c.occupancyLimit.toNat) {handle : Handle} (hcharge : handle.totalCharge ≤ c.capacity) :
    ∃ d, c.insert handle = some (true, d) := by
  have hzero : c.usage = 0 := by
    rw [spareUsage, charges, Finset.card_eq_zero.mp hpop, Finset.sum_empty] at husage
    exact (UInt64.sub_zero c.usage).symm.trans husage
  have hneed : c.usage + handle.totalCharge - min c.capacity (c.usage + handle.totalCharge) = 0 := by
    have hle : _ ≤ c.usage := need_le_usage hcharge
    rw [UInt64.le_iff_toNat_le, hzero] at hle
    rw [hzero]
    exact UInt64.toNat_inj.mp (Nat.eq_zero_of_le_zero hle)
  have hfull : ¬ c.occupancy + 1 > c.occupancyLimit := by
    have ho := occupancy_toNat hocc (by omega)
    rw [gt_iff_lt, UInt64.lt_iff_toNat_lt, UInt64.toNat_add, ho, hpop]
    exact Nat.not_lt.mpr hlimit
  have hreserve : c.reserve handle = some (true, {c with
      occupancy := c.occupancy + 1, usage := min c.capacity (c.usage + handle.totalCharge)}) := by
    rw [reserve, evictForCharge]
    simp only [hneed, hfull, decide_false, Bool.false_eq_true, false_and, if_false]
    rfl
  have hstart := h.of_array (d := {c with
    occupancy := c.occupancy + 1, usage := min c.capacity (c.usage + handle.totalCharge)}) rfl rfl
  obtain ⟨i, rest, hpath⟩ := List.exists_cons_of_ne_nil (hstart.probePath_ne_nil handle.hashedKey)
  have hi : i < c.length.toNat := (hstart.mem_probePath handle.hashedKey).mp (by rw [hpath]; exact List.mem_cons_self)
  have hdo : ∃ d, ({c with
      occupancy := c.occupancy + 1
      usage := min c.capacity (c.usage + handle.totalCharge)} : ClockCache).doInsert handle = some (some i, false, d) := by
    have htry := tryInsert_empty (hstart.lt_size.mpr hi) handle false (not_nonEmpty hpop i)
    rw [doInsert, findSlot_eq hstart.length, hpath]
    simp [Probe.walk, insertMatch, htry]
  obtain ⟨d, hdo⟩ := hdo
  refine ⟨d, ?_⟩
  rw [ClockCache.insert, hreserve]
  simp only [Option.bind_eq_bind, Option.bind_some, hdo]
  rfl

/-- **As many tries as a slot has lives, by three.** -/
theorem Idle.insertRetry {n calls : Nat} {c : ClockCache} {handle : Handle} (h : Idle n calls c)
    (hlim : calls + 1 < 2 ^ 30) (hcharge : handle.totalCharge ≤ c.capacity) (retry : Nat) (hretry : 1 ≤ retry)
    (hlives : ∀ i, i < c.length.toNat → lives (c.slot i) ≤ 3 * retry)
    (hclock : c.clockPointer.toNat + retry * (3 * c.length.toNat + 8) < 2 ^ 64) :
    ∃ d, c.insertRetry handle retry = some (true, d) := by
  induction retry, hretry using Nat.le_induction generalizing c with
  | base =>
    obtain ⟨ok, d, hinsert, hfailed⟩ := h.insert hlim hcharge (by omega)
    cases ok with
    | true => exact ⟨d, by rw [ClockCache.insertRetry, hinsert]; rfl⟩
    | false =>
      obtain ⟨-, hswept, -⟩ := hfailed rfl
      obtain ⟨i, hi, hlasting⟩ := hswept.lasting
      have := hlives i hi
      omega
  | succ retry hretry ih =>
    rw [Nat.succ_mul] at hclock
    obtain ⟨ok, d, hinsert, hfailed⟩ := h.insert hlim hcharge (by omega)
    cases ok with
    | true => exact ⟨d, by rw [ClockCache.insertRetry, hinsert]; rfl⟩
    | false =>
      obtain ⟨hidle, hswept, hlen, hcap⟩ := hfailed rfl
      have hptr := hswept.clock
      obtain ⟨e, he⟩ := ih hidle (by rwa [hcap]) (fun i hi => by
        have hworn := hswept.worn i (hlen ▸ hi)
        have := hlives i (hlen ▸ hi)
        omega) (by rw [hlen]; omega)
      refine ⟨e, ?_⟩
      rw [ClockCache.insertRetry, hinsert]
      exact he

end ClockCache

namespace Session
open ClockCache

/-- **Retrying `Insert` succeeds when nothing is held**: wherever a run leaves the cache with
every handle released, one of 667 insertions of a handle that the capacity allows returns
true. -/
theorem run_insertRetry {options : ClockCacheOptions} {n : Nat} (hlen : options.length.toNat = 2 ^ n)
    (hlimit : 1 ≤ options.occupancyLimit.toNat)
    (hlimit_le : options.occupancyLimit.toNat ≤ options.length.toNat) {calls : List Call}
    (hcalls : calls.length < 2 ^ 30) {s : Session} (hrun : (start options).run calls = some s)
    (hheld : s.held = []) {handle : Handle} (hcharge : handle.totalCharge ≤ options.capacity)
    (hclock : s.cache.clockPointer.toNat + 667 * (3 * s.cache.length.toNat + 8) < 2 ^ 64) :
    ∃ d, s.cache.insertRetry handle 667 = some (true, d) := by
  obtain ⟨l, m, hlt, h⟩ := valid_of_run hlen hcalls hrun
  obtain ⟨hcap, hlim⟩ := (Valid.start hlen).run_limits calls (by omega) hrun
  have hlength : s.cache.length.toNat = options.length.toNat := by rw [h.table.length, hlen]
  have htable : Table n l (fun _ => 0) s.cache := by
    have := h.table
    rwa [hheld] at this
  have hcharge : handle.totalCharge ≤ s.cache.capacity := by
    rw [hcap]
    exact hcharge
  have hlimit : 1 ≤ s.cache.occupancyLimit.toNat := by
    rw [hlim]
    exact hlimit
  have hpop := h.population
  by_cases hzero : s.cache.population = 0
  · obtain ⟨d, hinsert⟩ := insert_of_unpopulated htable hzero h.occupancy h.usage hlimit hcharge
    exact ⟨d, by rw [insertRetry, hinsert]; rfl⟩
  · have hidle : Idle n l s.cache := by
      refine ⟨htable, h.delta, h.occupancy, h.usage, by omega, hlimit, ?_⟩
      rw [hlim, hlength]
      exact hlimit_le
    refine hidle.insertRetry (by omega) hcharge 667 (by omega) (fun i hi => ?_) hclock
    exact lives_le (htable.word i hi) (by omega) (Nat.zero_le l)

/-- One place, and an entry that was looked up three times. -/
theorem run_insertRetry_used : ∃ s, (start ⟨10, 2, 0, 1, 1⟩).run
    [.insert ⟨10, 1, (0, 0), 1⟩, .lookup (0, 0), .release 0, .lookup (0, 0), .release 0, .lookup (0, 0),
      .release 0] = some s ∧ ∃ d, s.cache.insertRetry ⟨20, 1, (2, 1), 10⟩ 667 = some (true, d) := by
  have hany : ((start ⟨10, 2, 0, 1, 1⟩).run
      [.insert ⟨10, 1, (0, 0), 1⟩, .lookup (0, 0), .release 0, .lookup (0, 0), .release 0, .lookup (0, 0),
        .release 0]).any (fun s => s.held = [] ∧
          s.cache.clockPointer.toNat + 667 * (3 * s.cache.length.toNat + 8) < 2 ^ 64) = true := by
    decide +kernel
  obtain ⟨s, hrun, hs⟩ := (Option.any_eq_true _ _).mp hany
  obtain ⟨hheld, hclock⟩ := of_decide_eq_true hs
  exact ⟨s, hrun, run_insertRetry (n := 1) rfl (by decide) (by decide) (by decide) hrun hheld (by decide) hclock⟩

end Session

end HyperCache.Clock
