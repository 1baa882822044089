import HyperCache.Clock.Invariant

/-! What an erase takes away, and what it leaves.

An erase takes every slot visible with its key from view, empties those nobody holds,
and leaves each other slot its word and its entry (`Erasure`). A lookup of another key
ends at the first slot visible with that key, before and after, so it finds the same
one (`run_erase`). -/
namespace HyperCache.Clock

namespace ClockCache
variable {n calls : Nat} {refs : Nat → Nat} {c : ClockCache} (h : Table n calls refs c)

/-! ### A table without entries -/

section Unpopulated
variable (hpop : c.population = 0) (k : UniqueId64x2)

include hpop in
theorem not_nonEmpty (i : Nat) : ¬ NonEmpty (c.slot i) := by
  intro he
  have hmem : i ∈ c.entries := mem_entries.mpr ⟨lt_of_nonEmpty he, he⟩
  have hcard : 0 < c.population := Finset.card_pos.mpr ⟨i, hmem⟩
  omega

include h hpop

theorem displacements_of_unpopulated {i : Nat} (hi : i < c.length.toNat) : (c.slot i).displacements = 0 := by
  have hle := c.displaced_le i
  rw [h.displacements i hi, show c.displaced i = 0 by omega]
  rfl

/-- Nothing was displaced over the first slot, so a search ends there. -/
theorem erase_of_unpopulated : c.erase k = some (true, c) := by
  obtain ⟨i, rest, hpath⟩ := List.exists_cons_of_ne_nil (h.probePath_ne_nil k)
  have hi : i < c.length.toNat := (h.mem_probePath k).mp (by rw [hpath]; exact List.mem_cons_self)
  have hmatch := eraseMatch_miss (h.lt_size.mpr hi) k false false fun hv => not_nonEmpty hpop i hv.nonEmpty
  have hstop : notDisplaced i c = true := by
    rw [notDisplaced, displacements_of_unpopulated h hpop hi]
    rfl
  rw [erase, findSlot_eq h.length, hpath]
  simp [Probe.walk, hmatch, hstop]

theorem lookup_of_unpopulated : ∃ d, c.lookup k = some (none, d) := by
  obtain ⟨i, rest, hpath⟩ := List.exists_cons_of_ne_nil (h.probePath_ne_nil k)
  have hi : i < c.length.toNat := (h.mem_probePath k).mp (by rw [hpath]; exact List.mem_cons_self)
  have hstate : state (c.slot i).metaWord = kStateEmpty := not_not.mp (not_nonEmpty hpop i)
  have hmatch : lookupMatch k i c = some (false, c.setMeta i ((c.slot i).metaWord + kRefIncrement)) := by
    simp only [lookupMatch, refIncr, hstate, if_neg empty_ne_visible, if_neg empty_ne_invisible]
  have hstop : notDisplaced i (c.setMeta i ((c.slot i).metaWord + kRefIncrement)) = true := by
    rw [notDisplaced, slot_setMeta_self c _ (h.lt_size.mpr hi)]
    exact beq_iff_eq.mpr (displacements_of_unpopulated h hpop hi)
  refine ⟨c.setMeta i ((c.slot i).metaWord + kRefIncrement), ?_⟩
  rw [lookup, findSlot_eq h.length, hpath]
  simp [Probe.walk, hmatch, hstop]

end Unpopulated

/-! ### Slots left as they were -/

/-- A search for a key that lost and gained no visible entry ends at the same slot. -/
theorem firstVisible_congr {d : ClockCache} {k : UniqueId64x2} (hl : d.length = c.length)
    (hsame : ∀ i, VisibleWith k (d.slot i) ↔ VisibleWith k (c.slot i)) :
    d.firstVisible k = c.firstVisible k := by
  have hpath : d.probePath k = c.probePath k := by rw [probePath, hl, probePath]
  rw [firstVisible, hpath, firstVisible]
  congr 1
  funext i
  exact decide_eq_decide.mpr (hsame i)

end ClockCache

namespace Session
open ClockCache

/-- What an erase of `k` owes in a session, its table afterwards being `c`. -/
structure Erases (s : Session) (k : UniqueId64x2) (c : ClockCache) : Prop where
  hidden : ∀ i, ¬ VisibleWith k (c.slot i)
  missed : ∃ d, c.lookup k = some (none, d)
  emptied : ∀ i, VisibleWith k (s.cache.slot i) → i ∉ s.held → ¬ NonEmpty (c.slot i)
  others : ∀ k', k' ≠ k → ∃ r d d', s.cache.lookup k' = some (r, d) ∧ c.lookup k' = some (r, d') ∧
    ∀ i ∈ r, (d'.slot i).toHandle = (d.slot i).toHandle

section
variable {n lookups inserts : Nat} {s : Session} (h : Valid n lookups inserts s)
include h

/-- Nothing is found in a table without entries, before or after. -/
theorem Valid.erases_unpopulated (hpop : s.cache.population = 0) (k : UniqueId64x2) :
    s.Erases k s.cache where
  hidden i hv := not_nonEmpty hpop i hv.nonEmpty
  missed := lookup_of_unpopulated h.table hpop k
  emptied i hv _ := absurd hv.nonEmpty (not_nonEmpty hpop i)
  others k' _ := by
    obtain ⟨d, hlookup⟩ := lookup_of_unpopulated h.table hpop k'
    exact ⟨none, d, d, hlookup, hlookup, by rintro _ ⟨⟩⟩

theorem Valid.erases (hlim : lookups + 1 < 2 ^ 30) (hpop : s.cache.population < 2 ^ 32)
    {k : UniqueId64x2} {ok : Bool} {c : ClockCache}
    (hc : Erasure n lookups (fun i => s.held.count i) k s.cache ok c) : s.Erases k c := by
  have hpop' : c.population < 2 ^ 32 := Nat.lt_of_le_of_lt hc.erased.population hpop
  refine ⟨fun i => hc.hidden k i, ?_, fun i hv hi => ?_, fun k' hk => ?_⟩
  · obtain ⟨d, hlookup, -⟩ := lookup_first hc.erased.table hlim hpop' k
    rw [(firstVisible_eq_none hc.erased.table k).mpr fun i _ => hc.hidden k i] at hlookup
    exact ⟨d, hlookup⟩
  · exact (hc.taken i hv).emptied (List.count_eq_zero.mpr hi)
  · have hsame : ∀ i, VisibleWith k' (c.slot i) ↔ VisibleWith k' (s.cache.slot i) := by
      intro i
      by_cases hv : VisibleWith k (s.cache.slot i)
      · refine iff_of_false (fun hv' => ?_) fun hv' => hk (hv'.2.symm.trans hv.2)
        exact hk ((hc.erased.fades i k' hv').1.2.symm.trans hv.2)
      · exact (hc.same i hv).visible k'
    obtain ⟨d, hbefore, hd⟩ := lookup_first h.table hlim hpop k'
    obtain ⟨d', hafter, hd'⟩ := lookup_first hc.erased.table hlim hpop' k'
    rw [firstVisible_congr hc.erased.length hsame] at hafter hd'
    refine ⟨_, d, d', hbefore, hafter, fun i hi => ?_⟩
    obtain ⟨-, hv⟩ := hd.found i hi
    rw [hd'.same.handle, hd.same.handle]
    exact (hc.erased.fades i k' ((hsame i).mpr hv)).2

end

/-- **Erase removes every copy and nothing else.** After it no slot is visible with the
key and a lookup does not find it, each visible entry of it that nobody held is gone from
the table, and a lookup of any other key gives what it gave before. -/
theorem run_erase {options : ClockCacheOptions} {n : Nat} (hlen : options.length.toNat = 2 ^ n)
    {calls : List Call} (hcalls : calls.length < 2 ^ 30) {s : Session}
    (hrun : (start options).run calls = some s) (k : UniqueId64x2) :
    ∃ ok c, s.cache.erase k = some (ok, c) ∧ s.Erases k c := by
  obtain ⟨l, m, hlt, h⟩ := valid_of_run hlen hcalls hrun
  have hpop := h.population
  by_cases hzero : s.cache.population = 0
  · exact ⟨true, s.cache, erase_of_unpopulated h.table hzero k, h.erases_unpopulated hzero k⟩
  · obtain ⟨ok, c, herase, hc⟩ := erase_slots h.table (by omega) (by omega) k
    exact ⟨ok, c, herase, h.erases (by omega) (by omega) hc⟩

/-- Two entries of (4, 0), the newer in the hole that an erase left before the older, and
the older held. -/
theorem run_erase_copies : ∃ s, (start ⟨1000, 4, 0, 4, 1⟩).run
    [.insert ⟨10, 1, (2, 0), 1⟩, .insert ⟨20, 1, (4, 0), 1⟩, .lookup (4, 0), .erase (2, 0),
      .insert ⟨30, 1, (4, 0), 1⟩, .insert ⟨40, 1, (6, 0), 1⟩] = some s ∧
    VisibleWith (4, 0) (s.cache.slot 0) ∧ VisibleWith (4, 0) (s.cache.slot 1) ∧ 1 ∈ s.held ∧
    ∃ ok c, s.cache.erase (4, 0) = some (ok, c) ∧ s.Erases (4, 0) c := by
  have hany : ((start ⟨1000, 4, 0, 4, 1⟩).run
      [.insert ⟨10, 1, (2, 0), 1⟩, .insert ⟨20, 1, (4, 0), 1⟩, .lookup (4, 0), .erase (2, 0),
        .insert ⟨30, 1, (4, 0), 1⟩, .insert ⟨40, 1, (6, 0), 1⟩]).any
      (fun s => VisibleWith (4, 0) (s.cache.slot 0) ∧ VisibleWith (4, 0) (s.cache.slot 1) ∧ 1 ∈ s.held) = true := by
    decide +kernel
  obtain ⟨s, hrun, hs⟩ := (Option.any_eq_true _ _).mp hany
  obtain ⟨h0, h1, hheld⟩ := of_decide_eq_true hs
  exact ⟨s, hrun, h0, h1, hheld, run_erase (n := 2) rfl (by decide) hrun (4, 0)⟩

end Session

end HyperCache.Clock
