import HyperCache.Clock.Eviction
import HyperCache.Clock.Session

/-! The clock cache over a whole run of calls.

`Valid` holds of a new cache and is kept by every call (`Valid.call`), so it holds
between the calls of every run (`Valid.run`). Its fields are the two results of this
file: the counters are those of the entries (`run_accounts`), and every slot counts
the entries displaced over it, so a lookup finds whatever is visible
(`run_displacements`). -/
namespace HyperCache.Clock.Session
open ClockCache

/-- A session between calls, after so many lookups and insertions. -/
structure Valid (n lookups inserts : Nat) (s : Session) : Prop where
  table : Table n lookups (fun i => s.held.count i) s.cache
  held : s.held.length ≤ lookups
  inTable : ∀ i ∈ s.held, i < s.cache.length.toNat
  population : s.cache.population ≤ inserts
  delta : 1 ≤ s.cache.hitDecrDelta
  occupancy : s.cache.spareOccupancy = 0
  usage : s.cache.spareUsage = 0

section Start
variable {options : ClockCacheOptions} {n : Nat} (hlen : options.length.toNat = 2 ^ n)
include hlen

omit hlen in
theorem make_entries : (ClockCache.make options).entries = ∅ := by
  ext i
  rw [mem_entries, make_slot]
  refine iff_of_false (fun h => h.2 ?_) (Finset.notMem_empty i)
  decide

theorem Valid.start : Valid n 0 0 (Session.start options) where
  table := by
    refine ⟨⟨?_, ?_⟩, fun _ => by simp [Session.start], fun i _ => ?_, fun i _ => ?_⟩
    · show (ClockCache.make options).length.toNat = 2 ^ n
      rw [make_length (by rw [hlen]; exact Nat.two_pow_pos n), hlen]
    · show (List.replicate options.length.toNat default).length = 2 ^ n
      rw [List.length_replicate, hlen]
    · show Word 0 _ ((ClockCache.make options).slot i).metaWord
      rw [make_slot]
      exact .empty 0 (by omega) (by simp [Session.start]) (by decide)
    · show ((ClockCache.make options).slot i).displacements = UInt32.ofNat ((ClockCache.make options).displaced i)
      rw [make_slot, displaced, make_entries]
      rfl
  held := by simp [Session.start]
  inTable := by simp [Session.start]
  population := by
    show (ClockCache.make options).population ≤ 0
    rw [ClockCache.population, make_entries]
    exact Nat.le_refl 0
  delta := by
    show 1 ≤ (1 : Int)
    omega
  occupancy := by
    show (0 : UInt64) - UInt64.ofNat (ClockCache.make options).population = 0
    rw [ClockCache.population, make_entries]
    rfl
  usage := by
    show (0 : UInt64) - UInt64.ofNat (ClockCache.make options).charges = 0
    rw [charges, make_entries, Finset.sum_empty]
    rfl

end Start

/-- The session's table counts its references and displacements exactly, and its
accounts are settled. -/
structure Sound (n lookups : Nat) (s : Session) : Prop where
  table : Table n lookups (fun i => s.held.count i) s.cache
  inTable : ∀ i ∈ s.held, i < s.cache.length.toNat
  delta : 1 ≤ s.cache.hitDecrDelta
  occupancy : s.cache.spareOccupancy = 0
  usage : s.cache.spareUsage = 0

theorem Valid.sound {n lookups inserts : Nat} {s : Session} (h : Valid n lookups inserts s) :
    Sound n lookups s :=
  ⟨h.table, h.inTable, h.delta, h.occupancy, h.usage⟩

section Call
variable {n lookups : Nat} {s s' : Session} (h : Sound n lookups s) (hlim : lookups + 1 < 2 ^ 30)
  (hpop : s.cache.population < 2 ^ 32)
include h hlim

include hpop in
theorem Sound.insert {handle : Handle} (hcall : s.call (.insert handle) = some s') :
    Sound n lookups s' ∧ s'.held = s.held ∧
      ∃ ok, s'.latest = (if ok then Function.update s.latest handle.hashedKey (some handle.value)
        else s.latest) ∧ Inserted n lookups (fun i => s.held.count i) handle s.cache ok s'.cache := by
  obtain ⟨⟨ok, d⟩, hinsert, hcall⟩ := Option.bind_eq_some_iff.mp hcall
  cases hcall
  have hins := insert_spec h.table hlim hpop h.delta h.occupancy h.usage hinsert
  refine ⟨⟨hins.table, fun i hi => ?_, hins.delta, hins.occupancy, hins.usage⟩, rfl, ok, rfl, hins⟩
  show i < d.length.toNat
  rw [hins.length]
  exact h.inTable i hi

include hpop in
theorem Sound.lookup {k : UniqueId64x2} (hcall : s.call (.lookup k) = some s') :
    Sound n (lookups + 1) s' ∧ s'.latest = s.latest ∧
      ∃ r, s'.held = r.toList ++ s.held ∧
        LookedUp n lookups (fun i => s.held.count i) k s.cache r s'.cache := by
  obtain ⟨⟨r, d⟩, hlookup, hcall⟩ := Option.bind_eq_some_iff.mp hcall
  cases hcall
  obtain ⟨r', d', hspec, hd⟩ := lookup_spec h.table hlim hpop k
  obtain ⟨rfl, rfl⟩ := Prod.mk.inj (Option.some.inj (hlookup.symm.trans hspec))
  have hlen : d.length = s.cache.length := hd.same.length
  refine ⟨⟨?_, fun i hi => ?_, ?_, ?_, ?_⟩, rfl, r, rfl, hd⟩
  · have hcount : (fun i => (r.toList ++ s.held).count i) =
        fun i => s.held.count i + if r = some i then 1 else 0 := by
      funext i
      rw [List.count_append, Nat.add_comm]
      congr 1
      cases r with
      | none => rfl
      | some j =>
        rw [Option.toList_some, List.count_singleton]
        simp
    show Table n (lookups + 1) (fun i => (r.toList ++ s.held).count i) d
    rw [hcount]
    exact hd.table
  · show i < d.length.toNat
    rw [hlen]
    rcases List.mem_append.mp hi with hi | hi
    · exact (hd.found i (Option.mem_toList.mp hi)).1
    · exact h.inTable i hi
  · show 1 ≤ d.hitDecrDelta
    rw [hd.rest]
    exact h.delta
  · show d.occupancy - UInt64.ofNat d.population = 0
    rw [hd.same.population, hd.rest]
    exact h.occupancy
  · show d.usage - UInt64.ofNat d.charges = 0
    rw [hd.same.charges, hd.rest]
    exact h.usage

include hpop in
theorem Sound.erase {k : UniqueId64x2} (hcall : s.call (.erase k) = some s') :
    Sound n lookups s' ∧ s'.held = s.held ∧ s'.latest = Function.update s.latest k none ∧
      ∃ ok, Erasure n lookups (fun i => s.held.count i) k s.cache ok s'.cache := by
  obtain ⟨⟨ok, d⟩, herase, hcall⟩ := Option.bind_eq_some_iff.mp hcall
  cases hcall
  obtain ⟨ok', d', hspec, hd⟩ := erase_slots h.table hlim hpop k
  obtain ⟨rfl, rfl⟩ := Prod.mk.inj (Option.some.inj (herase.symm.trans hspec))
  refine ⟨⟨hd.erased.table, fun i hi => ?_, hd.erased.delta ▸ h.delta,
    hd.erased.occupancy.trans h.occupancy, hd.erased.usage.trans h.usage⟩, rfl, rfl, ok, hd⟩
  show i < d.length.toNat
  rw [hd.erased.length]
  exact h.inTable i hi

theorem Sound.release {i : Nat} (hcall : s.call (.release i) = some s') :
    Sound n lookups s' ∧ s'.held = s.held.erase i ∧ s'.latest = s.latest ∧
      SameEntries s.cache s'.cache ∧ Fades s.cache s'.cache := by
  rw [Session.call] at hcall
  by_cases hheld : i ∈ s.held
  · rw [if_pos hheld] at hcall
    cases hcall
    have hi := h.inTable i hheld
    have hsize := h.table.lt_size.mpr hi
    obtain ⟨w, hrelease, hstate, hw⟩ := release_spec (h.table.word i hi) hlim (h.table.held i)
      (List.count_pos_iff.mpr hheld)
    have hsame : SameEntries s.cache (s.cache.setMeta i w) := by
      apply SameEntries.setMeta _ hsize
      rw [hstate, NonEmpty]
    rw [hrelease]
    refine ⟨⟨?_, fun j hj => h.inTable j (List.mem_of_mem_erase hj), h.delta, ?_, ?_⟩, rfl, rfl, hsame, ?_⟩
    · show Table n lookups (fun j => (s.held.erase i).count j) (s.cache.setMeta i w)
      apply h.table.same hsame
      · exact fun j => ((s.held.erase_sublist).count_le j).trans (h.table.held j)
      · intro j hj
        by_cases hji : j = i
        · subst hji
          rw [slot_setMeta_self _ w hsize, List.count_erase_self]
          exact hw
        · rw [slot_setMeta_of_ne _ w hji, List.count_erase_of_ne hji]
          exact h.table.word j hj
    · show s.cache.occupancy - UInt64.ofNat (s.cache.setMeta i w).population = 0
      rw [hsame.population]
      exact h.occupancy
    · show s.cache.usage - UInt64.ofNat (s.cache.setMeta i w).charges = 0
      rw [hsame.charges]
      exact h.usage
    · apply fades_setMeta _ hsize
      rw [hstate]
      exact id
  · rw [if_neg hheld] at hcall
    cases hcall

end Call

section Step
variable {n lookups inserts : Nat} {s s' : Session} (h : Valid n lookups inserts s)
  (hlim : lookups + inserts + 1 < 2 ^ 30)
include h hlim

theorem Valid.pop_lt : s.cache.population < 2 ^ 32 := by
  have := h.population
  omega

theorem Valid.insert {handle : Handle} (hcall : s.call (.insert handle) = some s') :
    Valid n lookups (inserts + 1) s' ∧
      ∃ ok, s'.latest = (if ok then Function.update s.latest handle.hashedKey (some handle.value)
        else s.latest) ∧ Inserted n lookups (fun i => s.held.count i) handle s.cache ok s'.cache := by
  obtain ⟨hs, hheld, ok, hlatest, hins⟩ := h.sound.insert (by omega) (h.pop_lt hlim) hcall
  refine ⟨⟨hs.table, hheld ▸ h.held, hs.inTable, ?_, hs.delta, hs.occupancy, hs.usage⟩, ok, hlatest, hins⟩
  exact hins.population.trans (Nat.add_le_add_right h.population 1)

theorem Valid.lookup {k : UniqueId64x2} (hcall : s.call (.lookup k) = some s') :
    Valid n (lookups + 1) inserts s' ∧ s'.latest = s.latest ∧
      ∃ r, LookedUp n lookups (fun i => s.held.count i) k s.cache r s'.cache := by
  obtain ⟨hs, hlatest, r, hheld, hd⟩ := h.sound.lookup (by omega) (h.pop_lt hlim) hcall
  refine ⟨⟨hs.table, ?_, hs.inTable, ?_, hs.delta, hs.occupancy, hs.usage⟩, hlatest, r, hd⟩
  · have hr : r.toList.length ≤ 1 := by
      cases r with
      | none => exact Nat.zero_le 1
      | some j => exact Nat.le_refl 1
    have := h.held
    rw [hheld, List.length_append]
    omega
  · rw [hd.same.population]
    exact h.population

theorem Valid.erase {k : UniqueId64x2} (hcall : s.call (.erase k) = some s') :
    Valid n lookups inserts s' ∧ s'.latest = Function.update s.latest k none ∧
      Fades s.cache s'.cache ∧ ∀ i, i < s.cache.length.toNat → ¬ VisibleWith k (s'.cache.slot i) := by
  obtain ⟨hs, hheld, hlatest, ok, hd⟩ := h.sound.erase (by omega) (h.pop_lt hlim) hcall
  exact ⟨⟨hs.table, hheld ▸ h.held, hs.inTable, hd.erased.population.trans h.population, hs.delta,
    hs.occupancy, hs.usage⟩, hlatest, hd.erased.fades, fun i _ => hd.hidden k i⟩

theorem Valid.release {i : Nat} (hcall : s.call (.release i) = some s') :
    Valid n lookups inserts s' ∧ s'.latest = s.latest ∧ Fades s.cache s'.cache := by
  obtain ⟨hs, hheld, hlatest, hsame, hfades⟩ := h.sound.release (by omega) hcall
  refine ⟨⟨hs.table, ?_, hs.inTable, ?_, hs.delta, hs.occupancy, hs.usage⟩, hlatest, hfades⟩
  · rw [hheld]
    exact (s.held.erase_sublist).length_le.trans h.held
  · rw [hsame.population]
    exact h.population

/-- **The step lemma**: every call keeps the session valid. -/
theorem Valid.call {call : Call} (hcall : s.call call = some s') :
    ∃ lookups' inserts', lookups' + inserts' ≤ lookups + inserts + 1 ∧ Valid n lookups' inserts' s' := by
  cases call with
  | insert handle => exact ⟨lookups, inserts + 1, by omega, (h.insert hlim hcall).1⟩
  | lookup k => exact ⟨lookups + 1, inserts, by omega, (h.lookup hlim hcall).1⟩
  | release i => exact ⟨lookups, inserts, by omega, (h.release hlim hcall).1⟩
  | erase k => exact ⟨lookups, inserts, by omega, (h.erase hlim hcall).1⟩

end Step

theorem run_cons (s : Session) (call : Call) (calls : List Call) :
    s.run (call :: calls) = (s.call call).bind fun s => s.run calls := List.foldlM_cons ..

/-- **The run lemma**: the session is valid between all calls. -/
theorem Valid.run {n lookups inserts : Nat} {s s' : Session} (h : Valid n lookups inserts s)
    (calls : List Call) (hlim : lookups + inserts + calls.length < 2 ^ 30)
    (hrun : s.run calls = some s') :
    ∃ lookups' inserts', lookups' + inserts' ≤ lookups + inserts + calls.length ∧
      Valid n lookups' inserts' s' := by
  induction calls generalizing lookups inserts s with
  | nil =>
    cases hrun
    exact ⟨lookups, inserts, Nat.le_refl _, h⟩
  | cons call calls ih =>
    rw [List.length_cons] at hlim ⊢
    rw [run_cons] at hrun
    obtain ⟨s₁, hcall, hrun⟩ := Option.bind_eq_some_iff.mp hrun
    obtain ⟨l₁, i₁, hle, h₁⟩ := h.call (by omega) hcall
    obtain ⟨l₂, i₂, hle', h₂⟩ := ih h₁ (by omega) hrun
    exact ⟨l₂, i₂, by omega, h₂⟩

theorem valid_of_run {options : ClockCacheOptions} {n : Nat} (hlen : options.length.toNat = 2 ^ n)
    {calls : List Call} (hcalls : calls.length < 2 ^ 30) {s : Session}
    (hrun : (start options).run calls = some s) :
    ∃ lookups inserts, lookups + inserts < 2 ^ 30 ∧ Valid n lookups inserts s := by
  obtain ⟨l, i, hle, h⟩ := (Valid.start hlen).run calls (by omega) hrun
  exact ⟨l, i, by omega, h⟩

/-- **The accounts are exact between calls**: `occupancy_` is the number of slots
that are not empty and `usage_` the sum of their charges. -/
theorem run_accounts {options : ClockCacheOptions} {n : Nat} (hlen : options.length.toNat = 2 ^ n)
    {calls : List Call} (hcalls : calls.length < 2 ^ 30) {s : Session}
    (hrun : (start options).run calls = some s) (hcharges : s.cache.charges < 2 ^ 64) :
    s.cache.occupancy.toNat = s.cache.population ∧ s.cache.usage.toNat = s.cache.charges := by
  obtain ⟨l, i, hlt, h⟩ := valid_of_run hlen hcalls hrun
  have hpop := h.population
  have hocc : s.cache.occupancy = UInt64.ofNat s.cache.population := by
    have := h.occupancy
    unfold spareOccupancy at this
    grind
  have husage : s.cache.usage = UInt64.ofNat s.cache.charges := by
    have := h.usage
    unfold spareUsage at this
    grind
  constructor
  · rw [hocc, UInt64.toNat_ofNat', Nat.mod_eq_of_lt (by omega)]
  · rw [husage, UInt64.toNat_ofNat', Nat.mod_eq_of_lt hcharges]

/-- Two insertions that collide, an entry erased while held, and an eviction. -/
theorem run_accounts_evicting : ∃ s, (start ⟨3, 4, 0, 4, 1⟩).run
    [.insert ⟨10, 1, (0, 0), 1⟩, .insert ⟨20, 1, (2, 4), 1⟩, .lookup (2, 4), .erase (2, 4),
      .insert ⟨30, 1, (0, 8), 2⟩] = some s ∧
    s.cache.occupancy.toNat = s.cache.population ∧ s.cache.usage.toNat = s.cache.charges := by
  have hany : ((start ⟨3, 4, 0, 4, 1⟩).run
      [.insert ⟨10, 1, (0, 0), 1⟩, .insert ⟨20, 1, (2, 4), 1⟩, .lookup (2, 4), .erase (2, 4),
        .insert ⟨30, 1, (0, 8), 2⟩]).any (fun s => s.cache.charges < 2 ^ 64) = true := by
    decide +kernel
  obtain ⟨s, hrun, hcharges⟩ := (Option.any_eq_true _ _).mp hany
  exact ⟨s, hrun, run_accounts (n := 2) rfl (by decide) hrun (of_decide_eq_true hcharges)⟩

/-- **Every slot counts the entries displaced over it, and a search stops at a slot
that counts none only when there is nothing beyond**: a key visible in some slot is
found. -/
theorem run_displacements {options : ClockCacheOptions} {n : Nat}
    (hlen : options.length.toNat = 2 ^ n) {calls : List Call} (hcalls : calls.length < 2 ^ 30)
    {s : Session} (hrun : (start options).run calls = some s) :
    (∀ i, i < s.cache.length.toNat → (s.cache.slot i).displacements.toNat =
      (s.cache.entries.filter fun j => j ≠ i ∧
        i ∈ s.cache.probesBefore (s.cache.slot j).hashedKey j).card) ∧
    ∀ k i, i < s.cache.length.toNat → VisibleWith k (s.cache.slot i) →
      ∃ j c, s.cache.lookup k = some (some j, c) ∧ VisibleWith k (s.cache.slot j) := by
  obtain ⟨l, m, hlt, h⟩ := valid_of_run hlen hcalls hrun
  have hpop := h.population
  constructor
  · intro i hi
    have hle := s.cache.displaced_le i
    rw [h.table.displacements i hi, UInt32.toNat_ofNat', Nat.mod_eq_of_lt (by omega), displaced]
    congr 1
    apply Finset.filter_congr
    intro j _
    exact (and_iff_right_of_imp fun hj => (probesBefore_ne hj).symm).symm
  · intro k i hi hv
    have hone : 0 < s.cache.population :=
      Finset.card_pos.mpr ⟨i, mem_entries.mpr ⟨h.table.lt_size.mpr hi, hv.nonEmpty⟩⟩
    obtain ⟨r, d, hlookup, hd⟩ := lookup_spec h.table (by omega) (by omega) k
    cases r with
    | none => exact absurd hv (hd.missed rfl i hi)
    | some j => exact ⟨j, d, hlookup, (hd.found j rfl).2⟩

/-- The second of two colliding entries, found past the first. -/
theorem run_displacements_colliding : ∃ s, (start ⟨3, 4, 0, 4, 1⟩).run
    [.insert ⟨10, 1, (0, 0), 1⟩, .insert ⟨20, 1, (2, 4), 1⟩] = some s ∧
    (s.cache.slot 0).displacements.toNat = (s.cache.entries.filter fun j => j ≠ 0 ∧
      0 ∈ s.cache.probesBefore (s.cache.slot j).hashedKey j).card ∧
    ∃ j c, s.cache.lookup (2, 4) = some (some j, c) ∧ VisibleWith (2, 4) (s.cache.slot j) := by
  have hany : ((start ⟨3, 4, 0, 4, 1⟩).run
      [.insert ⟨10, 1, (0, 0), 1⟩, .insert ⟨20, 1, (2, 4), 1⟩]).any
      (fun s => 3 < s.cache.length.toNat ∧ VisibleWith (2, 4) (s.cache.slot 3)) = true := by
    decide +kernel
  obtain ⟨s, hrun, hs⟩ := (Option.any_eq_true _ _).mp hany
  obtain ⟨hi, hv⟩ := of_decide_eq_true hs
  obtain ⟨hcount, hfind⟩ := run_displacements (n := 2) rfl (by decide) hrun
  exact ⟨s, hrun, hcount 0 (by omega), hfind (2, 4) 3 hi hv⟩

end HyperCache.Clock.Session
