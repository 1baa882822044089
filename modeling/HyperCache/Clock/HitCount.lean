import HyperCache.Clock.Concurrent
import HyperCache.Clock.HitDeficit
import HyperCache.Clock.Table
import Mathlib.Algebra.BigOperators.Pi

/-! Hit counting on one slot by any number of threads.

The threads look up the key of one visible slot and release the handles they get.
`HitIncr` adds one and, if that takes the count over `kMaxHitCount`, takes the
overflow it saw off again in a second access. Threads between the two see each
other's overflow and take it off as well: with 57 threads the count can fall by at
most 2000 below the maximum, with 58 by 2060 (`hits_intact_iff`). -/
namespace HyperCache.Clock
open Interleaving ClockCache

/-- The slot and the handles of it that were returned and not released. -/
structure HitMemory where
  slot : HandleImpl
  handles : Nat

inductive HitPc where
  | ready
  | lookup (slot : SlotPc)
  | release
  deriving DecidableEq

inductive HitChoice where
  | lookup
  | release
  | go

/-- The next access of one thread. -/
def hitStep (choice : HitChoice) (m : HitMemory) : HitPc → HitMemory × HitPc
  | .ready => match choice with
    | .lookup => (m, .lookup .ref)
    | .release => if 0 < m.handles then ({m with handles := m.handles - 1}, .release) else (m, .ready)
    | .go => (m, .ready)
  | .lookup slot =>
    let (h, next) := lookupAccess m.slot.hashedKey m.slot slot
    match next with
    | .inl slot => ({m with slot := h}, .lookup slot)
    | .inr true => ({m with slot := h, handles := m.handles + 1}, .ready)
    | .inr false => ({m with slot := h}, .ready)
  | .release => ({m with slot := {m.slot with metaWord := m.slot.metaWord - kRefIncrement}}, .ready)

abbrev HitAccess : HitMemory → HitPc → HitMemory → HitPc → Prop := Chosen hitStep

namespace HitPc

/-- The references of a thread that it will undo or return. -/
def pending : HitPc → Nat
  | .ready | .lookup .ref => 0
  | .lookup _ | .release => 1

/-- The overflow a thread has seen and not yet taken off. -/
def excess : HitPc → Multiset Nat
  | .lookup (.hitSub overflow) => {overflow.toNat}
  | _ => 0

/-- The reference a thread takes with its next access. -/
def taking : HitPc → Nat
  | .lookup .ref => 1
  | _ => 0

end HitPc

section Runs
variable {T : Nat}

abbrev HitConfig (T : Nat) := Config HitMemory HitPc (Fin T)

/-- The references held on the slot. -/
def hitReferences {ι : Type} [Fintype ι] (c : Config HitMemory HitPc ι) : Nat :=
  c.shared.handles + ∑ t, (c.threads t).pending

/-- Fewer than 2^30 references on the slot at a time. -/
def FewHits {ι : Type} [Fintype ι] (c : Config HitMemory HitPc ι) (t : ι) : Prop :=
  hitReferences c + (c.threads t).taking < 2 ^ 30

instance {ι : Type} [Fintype ι] (c : Config HitMemory HitPc ι) (t : ι) : Decidable (FewHits c t) :=
  inferInstanceAs (Decidable (_ < _))

/-- A visible slot with `hits` hits and `refs` references, and `T` threads. -/
def hitStart (T : Nat) (entry : HandleImpl) (hits refs : Nat) : HitConfig T :=
  ⟨⟨{entry with metaWord := pack 7 0 hits refs}, refs⟩, fun _ => .ready⟩

/-- The word of a visible slot whose hit count stayed in its field and in bounds. -/
structure Intact (c : HitConfig T) : Prop where
  visible : state c.shared.slot.metaWord = kStateVisible
  hitBit : c.shared.slot.metaWord &&& kHitBitMask = 0
  hits : 0 ≤ hitCount c.shared.slot.metaWord ∧ hitCount c.shared.slot.metaWord ≤ kMaxHitCount + T
  refs : refCount c.shared.slot.metaWord = hitReferences c

/-! ### The accounts of one slot -/

def hitTokens (pc : HitPc) : Nat × Multiset Nat := (pc.pending, pc.excess)

/-- The word against what the threads hold: the count is the maximum and `x`, and
`x` has a count by levels. -/
def HitGlobal (m : HitMemory) (r : Nat × Multiset Nat) : Prop :=
  ∃ σ x, HitDeficit.Levels σ x r.2 ∧ m.slot.metaWord = pack 7 0 (2000 + x).toNat (m.handles + r.1) ∧
    m.handles + r.1 < 2 ^ 30

/-- What a thread knows of its own overflow. -/
def HitLocal (_ : HitMemory) : HitPc → Prop
  | .lookup (.hitSub overflow) => 0 < overflow
  | _ => True

theorem excess_card (pc : HitPc) : pc.excess.card ≤ 1 := by
  cases pc with
  | lookup slot => cases slot <;> simp [HitPc.excess]
  | _ => simp [HitPc.excess]

theorem total_hitTokens {ι : Type} [Fintype ι] (c : Config HitMemory HitPc ι) :
    total hitTokens c = (∑ t, (c.threads t).pending, ∑ t, (c.threads t).excess) :=
  Prod.ext Prod.fst_sum Prod.snd_sum

theorem total_excess_card (c : HitConfig T) : (total hitTokens c).2.card ≤ T := by
  rw [total_hitTokens, Multiset.card_sum]
  refine (Finset.sum_le_card_nsmul _ _ 1 fun t _ => excess_card _).trans ?_
  simp

theorem others_excess_card (c : HitConfig T) (t : Fin T) :
    (others hitTokens c t).2.card + 1 ≤ T := by
  have hsnd : (others hitTokens c t).2 = ∑ u ∈ Finset.univ.erase t, (c.threads u).excess :=
    Prod.snd_sum
  have hle : (others hitTokens c t).2.card ≤ (Finset.univ.erase t).card := by
    rw [hsnd, Multiset.card_sum]
    refine (Finset.sum_le_card_nsmul _ _ 1 fun t _ => excess_card _).trans ?_
    simp
  rw [Finset.card_erase_of_mem (Finset.mem_univ t), Finset.card_univ, Fintype.card_fin] at hle
  have := t.pos
  omega

/-! ### One access -/

theorem HitGlobal.word {m : HitMemory} {r : Nat × Multiset Nat} (h : HitGlobal m r)
    (hcard : r.2.card ≤ 57) : ∃ hits, m.slot.metaWord = pack 7 0 hits (m.handles + r.1) ∧
      Fits 7 0 hits (m.handles + r.1) ∧ (hits : Int) ≤ 2000 + r.2.card := by
  obtain ⟨σ, x, hlevels, hw, hlt⟩ := h
  have hle := hlevels.le_card
  have hge := hlevels.ge
  exact ⟨(2000 + x).toNat, hw, ⟨by omega, by omega, by omega, hlt⟩, by omega⟩

section Access
variable {m : HitMemory} {o : Nat × Multiset Nat} (hcard : o.2.card ≤ 56)
include hcard

/-- `HitIncr`: below the maximum one more hit, from there on an overflow to take off. -/
theorem hit_global (h : HitGlobal m (1 + o.1, 0 + o.2)) :
    HitGlobal (hitStep .go m (.lookup .hit)).1 (hitTokens (hitStep .go m (.lookup .hit)).2 + o) ∧
      HitLocal (hitStep .go m (.lookup .hit)).1 (hitStep .go m (.lookup .hit)).2 := by
  obtain ⟨σ, x, hlevels, hw, hlt⟩ := h
  replace hlevels : HitDeficit.Levels σ x o.2 := by
    rwa [show (1 + o.1, 0 + o.2).2 = 0 + o.2 from rfl, zero_add] at hlevels
  replace hlt : m.handles + (1 + o.1) < 2 ^ 30 := hlt
  have hle := hlevels.le_card
  have hge := hlevels.ge
  have hcount : hitCount m.slot.metaWord = 2000 + x := by
    rw [hw, hitCount_pack ⟨by omega, by omega, by omega, hlt⟩]
    omega
  have hword : m.slot.metaWord + kHitIncrement * UInt64.ofInt 1 =
      pack 7 0 (2000 + (x + 1)).toNat (m.handles + (1 + o.1)) := by
    rw [hw, show UInt64.ofInt 1 = UInt64.ofNat 1 from ofInt_natCast 1, pack_add_hit]
    congr 1
    omega
  by_cases hx : 0 ≤ x
  · have hover : hitCount m.slot.metaWord + 1 - kMaxHitCount > 0 := by
      rw [hcount, kMaxHitCount]
      omega
    have hexcess : (hitCount m.slot.metaWord + 1 - kMaxHitCount).toNat = (x + 1).toNat := by
      rw [hcount, kMaxHitCount]
      omega
    simp only [hitStep, lookupAccess, if_pos hover]
    refine ⟨⟨σ, x + 1, ?_, hword, hlt⟩, hover⟩
    show HitDeficit.Levels σ (x + 1) ({(hitCount m.slot.metaWord + 1 - kMaxHitCount).toNat} + o.2)
    rw [hexcess, Multiset.singleton_add]
    exact hlevels.add hx hcard
  · have hover : ¬ hitCount m.slot.metaWord + 1 - kMaxHitCount > 0 := by
      rw [hcount, kMaxHitCount]
      omega
    obtain ⟨σ', hlevels'⟩ := hlevels.addBelow (by omega)
    simp only [hitStep, lookupAccess, if_neg hover]
    have hrefs : m.handles + (1 + o.1) = m.handles + 1 + (0 + o.1) := by omega
    rw [hrefs] at hword hlt
    refine ⟨⟨σ', x + 1, ?_, hword, hlt⟩, trivial⟩
    show HitDeficit.Levels σ' (x + 1) (0 + o.2)
    rwa [zero_add]

/-- **One access of `Lookup` or `Release`** keeps the word and the threads' overflows
in step. -/
theorem hitStep_global (choice : HitChoice) (pc : HitPc)
    (hfew : m.handles + (pc.pending + o.1) + pc.taking < 2 ^ 30) (hloc : HitLocal m pc)
    (h : HitGlobal m (hitTokens pc + o)) :
    HitGlobal (hitStep choice m pc).1 (hitTokens (hitStep choice m pc).2 + o) ∧
      HitLocal (hitStep choice m pc).1 (hitStep choice m pc).2 := by
  have hself : (hitTokens pc + o).2.card ≤ 57 := by
    show (pc.excess + o.2).card ≤ 57
    rw [Multiset.card_add]
    have := excess_card pc
    omega
  obtain ⟨hits, hw, hfits, -⟩ := h.word hself
  cases pc with
  | ready =>
    cases choice with
    | lookup => exact ⟨h, trivial⟩
    | go => exact ⟨h, trivial⟩
    | release =>
      by_cases hpos : 0 < m.handles
      · simp only [hitStep, if_pos hpos]
        obtain ⟨σ, x, hlevels, hword, hlt⟩ := h
        have hrefs : m.handles + (0 + o.1) = m.handles - 1 + (1 + o.1) := by omega
        exact ⟨⟨σ, x, hlevels, hword.trans (congrArg _ hrefs), hrefs ▸ hlt⟩, trivial⟩
      · simp only [hitStep, if_neg hpos]
        exact ⟨h, trivial⟩
  | release =>
    obtain ⟨σ, x, hlevels, hword, hlt⟩ := h
    have hrefs : m.handles + (1 + o.1) = m.handles + (0 + o.1) + 1 := by omega
    refine ⟨⟨σ, x, hlevels, ?_, ?_⟩, trivial⟩
    · show m.slot.metaWord - kRefIncrement = _
      rw [hword, show (hitTokens HitPc.release + o).1 = 1 + o.1 from rfl, hrefs, pack_sub_ref]
      rfl
    · show m.handles + (0 + o.1) < 2 ^ 30
      have : m.handles + (1 + o.1) < 2 ^ 30 := hlt
      omega
  | lookup slot =>
    cases slot with
    | ref =>
      have hvis : state m.slot.metaWord = kStateVisible := by
        rw [hw, state_pack hfits]
        rfl
      simp only [hitStep, lookupAccess, if_pos hvis]
      obtain ⟨σ, x, hlevels, hword, hlt⟩ := h
      have hrefs : m.handles + (0 + o.1) + 1 = m.handles + (1 + o.1) := by omega
      refine ⟨⟨σ, x, hlevels, ?_, ?_⟩, trivial⟩
      · show m.slot.metaWord + kRefIncrement = pack 7 0 (2000 + x).toNat (m.handles + (1 + o.1))
        rw [hword, pack_add_ref, ← hrefs]
        rfl
      · show m.handles + (1 + o.1) < 2 ^ 30
        have : m.handles + (0 + o.1) + 1 < 2 ^ 30 := hfew
        omega
    | key =>
      simp only [hitStep, lookupAccess, if_true]
      exact ⟨h, trivial⟩
    | hit => exact hit_global hcard h
    | hitSub overflow =>
      obtain ⟨σ, x, hlevels, hword, hlt⟩ := h
      have hpos : 0 < overflow := hloc
      have hsplit : (hitTokens (.lookup (.hitSub overflow)) + o).2 = overflow.toNat ::ₘ o.2 :=
        Multiset.singleton_add ..
      rw [hsplit] at hlevels
      have hsub := hlevels.sub
      have hge := hsub.ge
      have hrefs : m.handles + (1 + o.1) = m.handles + 1 + (0 + o.1) := by omega
      simp only [hitStep, lookupAccess]
      refine ⟨⟨fun y => σ y + if 1 ≤ y ∧ y < overflow.toNat then 1 else 0, x - overflow.toNat,
        ?_, ?_, ?_⟩, trivial⟩
      · show HitDeficit.Levels _ _ (0 + o.2)
        rwa [zero_add]
      · show m.slot.metaWord - kHitIncrement * UInt64.ofInt overflow =
          pack 7 0 (2000 + (x - overflow.toNat)).toNat (m.handles + 1 + (0 + o.1))
        have hhits : (2000 + x).toNat = (2000 + (x - overflow.toNat)).toNat + overflow.toNat := by omega
        rw [hword, hhits, ← hrefs, show UInt64.ofInt overflow = UInt64.ofNat overflow.toNat by
          rw [← ofInt_natCast, Int.toNat_of_nonneg hpos.le]]
        exact pack_sub_hit 7 0 _ _ _
      · exact hrefs ▸ hlt
    | undo =>
      obtain ⟨σ, x, hlevels, hword, hlt⟩ := h
      have hrefs : m.handles + (1 + o.1) = m.handles + (0 + o.1) + 1 := by omega
      refine ⟨⟨σ, x, hlevels, ?_, ?_⟩, trivial⟩
      · show m.slot.metaWord - kRefIncrement = _
        rw [hword, show (hitTokens (HitPc.lookup .undo) + o).1 = 1 + o.1 from rfl, hrefs, pack_sub_ref]
        rfl
      · show m.handles + (0 + o.1) < 2 ^ 30
        have : m.handles + (1 + o.1) < 2 ^ 30 := hlt
        omega

end Access

theorem hitReferences_eq {ι : Type} [Fintype ι] (c : Config HitMemory HitPc ι) :
    hitReferences c = c.shared.handles + (total hitTokens c).1 := by
  rw [total_hitTokens]
  rfl

theorem total_hitStart (entry : HandleImpl) (hits refs : Nat) :
    total hitTokens (hitStart T entry hits refs) = 0 := Finset.sum_eq_zero fun _ _ => rfl

/-- The accounts hold in every run of at most 57 threads. -/
theorem hit_accounts (hT : T ≤ 57) {entry : HandleImpl} {hits refs : Nat} (hhits : hits ≤ 2000)
    (hrefs : refs < 2 ^ 30) {c : HitConfig T}
    (hr : Reaches HitAccess FewHits (hitStart T entry hits refs) c) :
    Accounting hitTokens HitGlobal HitLocal c := by
  refine Accounting.reaches ?_ ?_ ?_ hr
  · rintro c t s' l' hok hloc ⟨choice, hstep⟩ hglob
    have hcard := others_excess_card c t
    have hfew : c.shared.handles + ((c.threads t).pending + (others hitTokens c t).1) +
        (c.threads t).taking < 2 ^ 30 := by
      have hok : hitReferences c + (c.threads t).taking < 2 ^ 30 := hok
      rw [hitReferences_eq, total_eq hitTokens c t] at hok
      exact hok
    have hnext := hitStep_global (show (others hitTokens c t).2.card ≤ 56 by omega) choice
      (c.threads t) hfew hloc hglob
    rw [hstep] at hnext
    exact hnext
  · intro s l s' l' m r _ hm _ _
    exact hm
  · refine ⟨⟨fun y => if y = 1 then (-((hits : Int) - 2000)).toNat else 0, (hits : Int) - 2000,
      ?_, ?_, ?_⟩, fun _ => trivial⟩
    · rw [total_hitStart]
      exact HitDeficit.Levels.start (by omega) (by omega)
    · have hback : (2000 + ((hits : Int) - 2000)).toNat = hits := by omega
      rw [total_hitStart, hback]
      rfl
    · rw [total_hitStart]
      exact hrefs

theorem intact_of_accounts (hT : T ≤ 57) {c : HitConfig T}
    (h : Accounting hitTokens HitGlobal HitLocal c) : Intact c := by
  have hcard := total_excess_card c
  obtain ⟨hits, hw, hfits, hle⟩ := h.glob.word (by omega)
  rw [← hitReferences_eq] at hw hfits
  refine ⟨?_, ?_, ?_, ?_⟩
  · rw [hw, state_pack hfits]
    rfl
  · rw [hw, pack_and_hitBit hfits]
    rfl
  · rw [hw, hitCount_pack hfits, kMaxHitCount]
    omega
  · rw [hw, refCount_pack hfits]

/-! ### Fifty-eight threads -/

/-- All threads pass the maximum, eleven of them a second time, and then all take
off what they saw. -/
def overflowSchedule : List (Fin 58 × HitChoice) :=
  (List.finRange 58).flatMap (fun t => [(t, .lookup), (t, .go), (t, .go), (t, .go)]) ++
  ((List.finRange 58).take 11).flatMap
    (fun t => [(t, .go), (t, .lookup), (t, .go), (t, .go), (t, .go)]) ++
  (List.finRange 58).map fun t => (t, .go)

theorem hitReferences_le (c : HitConfig T) (t : Fin T) :
    hitReferences c + (c.threads t).taking ≤ c.shared.handles + T + 1 := by
  have hsum : ∑ u, (c.threads u).pending ≤ T := by
    refine (Finset.sum_le_card_nsmul _ _ 1 fun u _ => ?_).trans (by simp)
    cases c.threads u with
    | lookup slot => cases slot <;> simp [HitPc.pending]
    | _ => simp [HitPc.pending]
  have htaking : (c.threads t).taking ≤ 1 := by
    cases c.threads t with
    | lookup slot => cases slot <;> simp [HitPc.taking]
    | _ => simp [HitPc.taking]
  unfold hitReferences
  omega

theorem hitStep_handles (choice : HitChoice) (m : HitMemory) (pc : HitPc) :
    (hitStep choice m pc).1.handles ≤ m.handles + 1 := by
  cases pc with
  | ready =>
    cases choice with
    | release =>
      simp only [hitStep]
      split
      · exact (Nat.sub_le _ _).trans (Nat.le_succ _)
      · exact Nat.le_succ _
    | _ => simp [hitStep]
  | release => simp [hitStep]
  | lookup slot =>
    simp only [hitStep]
    split <;> simp

/-- A schedule far shorter than 2^30 cannot take 2^30 references. -/
theorem guarded_of_short (c : HitConfig T) (schedule : List (Fin T × HitChoice))
    (h : c.shared.handles + schedule.length + T + 1 < 2 ^ 30) :
    Guarded hitStep FewHits c schedule := by
  induction schedule generalizing c with
  | nil => trivial
  | cons move rest ih =>
    obtain ⟨t, choice⟩ := move
    rw [List.length_cons] at h
    refine ⟨Nat.lt_of_le_of_lt (hitReferences_le c t) (by omega), ih _ ?_⟩
    have := hitStep_handles choice c.shared (c.threads t)
    rw [Config.set_shared]
    omega

theorem overflow_length : overflowSchedule.length = 345 := by decide +kernel

theorem overflow_guarded : Guarded hitStep FewHits (hitStart 58 default 2000 0) overflowSchedule := by
  apply guarded_of_short
  rw [overflow_length]
  show 0 + 345 + 58 + 1 < 2 ^ 30
  omega

theorem overflow_invisible :
    state (exec hitStep (hitStart 58 default 2000 0) overflowSchedule).shared.slot.metaWord =
      kStateInvisible := by
  decide +kernel

theorem overflow_run : ∃ c : HitConfig 58,
    Reaches HitAccess FewHits (hitStart 58 default 2000 0) c ∧
      state c.shared.slot.metaWord = kStateInvisible :=
  ⟨_, reaches_exec_guarded overflow_guarded, overflow_invisible⟩

/-- Fifty-eight threads on a slot at its maximum: the subtractions take the count below
zero and borrow from the state, which becomes Invisible. -/
theorem overflow_not_intact : ¬ ∀ (T : Nat) (entry : HandleImpl) (hits refs : Nat), hits ≤ 2000 →
    refs < 2 ^ 30 → ∀ c : HitConfig T,
      Reaches HitAccess FewHits (hitStart T entry hits refs) c → Intact c := by
  intro hall
  obtain ⟨c, hrun, hinvisible⟩ := overflow_run
  have hvisible := (hall 58 default 2000 0 (by omega) (by omega) c hrun).visible
  exact invisible_ne_visible (hinvisible.symm.trans hvisible)

theorem fewHits_embed {ι κ : Type} [Fintype ι] [Fintype κ] (f : ι ↪ κ)
    (c : Config HitMemory HitPc ι) (t : ι) (h : FewHits c t) :
    FewHits (c.embed f .ready) (f t) := by
  have h : hitReferences c + (c.threads t).taking < 2 ^ 30 := h
  show hitReferences (c.embed f .ready) + ((c.embed f .ready).threads (f t)).taking < 2 ^ 30
  rw [hitReferences_eq] at h ⊢
  rw [total_embed hitTokens f rfl, Config.embed_threads]
  exact h

/-! ### From any count to the maximum -/

/-- The memory with another entry in the slot. -/
def HitMemory.withEntry (m : HitMemory) (entry : HandleImpl) : HitMemory :=
  {m with slot := {entry with metaWord := m.slot.metaWord}}

/-- The accesses of the threads do not depend on the entry. -/
theorem hitStep_withEntry (choice : HitChoice) (m : HitMemory) (entry : HandleImpl) (pc : HitPc) :
    hitStep choice (m.withEntry entry) pc =
      ((hitStep choice m pc).1.withEntry entry, (hitStep choice m pc).2) := by
  cases pc with
  | ready =>
    cases choice with
    | lookup => rfl
    | go => rfl
    | release =>
      simp only [hitStep]
      by_cases h : 0 < m.handles
      · rw [if_pos (show 0 < (m.withEntry entry).handles from h), if_pos h]
        rfl
      · rw [if_neg (show ¬ 0 < (m.withEntry entry).handles from h), if_neg h]
  | release => rfl
  | lookup slot =>
    have hword : (m.withEntry entry).slot.metaWord = m.slot.metaWord := rfl
    cases slot with
    | ref =>
      simp only [hitStep, lookupAccess, hword]
      by_cases hv : state m.slot.metaWord = kStateVisible
      · rw [if_pos hv]
        rfl
      · rw [if_neg hv]
        by_cases hi : state m.slot.metaWord = kStateInvisible
        · rw [if_pos hi]
          rfl
        · rw [if_neg hi]
          rfl
    | key => simp only [hitStep, lookupAccess, if_true, HitMemory.withEntry]
    | hit =>
      simp only [hitStep, lookupAccess, hword]
      by_cases h : hitCount m.slot.metaWord + 1 - kMaxHitCount > 0
      · rw [if_pos h]
        rfl
      · rw [if_neg h]
        rfl
    | hitSub overflow => rfl
    | undo => rfl

theorem reaches_withEntry (entry : HandleImpl) {c c' : HitConfig T}
    (hr : Reaches HitAccess FewHits c c') :
    Reaches HitAccess FewHits ⟨c.shared.withEntry entry, c.threads⟩
      ⟨c'.shared.withEntry entry, c'.threads⟩ := by
  induction hr with
  | refl => exact .refl
  | tail _ hs ih =>
    obtain ⟨t, s, l, hok, ⟨choice, hstep⟩, rfl⟩ := hs
    refine ih.tail ⟨t, s.withEntry entry, l, hok, ⟨choice, ?_⟩, rfl⟩
    rw [hitStep_withEntry, hstep]

section Solo
variable (t : Fin T)

/-- One thread moves and the others are outside any call. -/
def solo (m : HitMemory) (pc : HitPc) : HitConfig T := ⟨m, Function.update (fun _ => .ready) t pc⟩

theorem solo_ready (m : HitMemory) : solo t m .ready = ⟨m, fun _ => .ready⟩ := by
  rw [solo, Function.update_eq_self]

theorem solo_step {m m' : HitMemory} {pc pc' : HitPc} (choice : HitChoice)
    (hstep : hitStep choice m pc = (m', pc')) (h : m.handles + pc.pending + pc.taking < 2 ^ 30) :
    Step HitAccess FewHits (solo t m pc) (solo t m' pc') := by
  have hpc : (solo t m pc).threads t = pc := by
    show Function.update (fun _ => HitPc.ready) t pc t = pc
    rw [Function.update_self]
  have hsum : ∑ u, ((solo t m pc).threads u).pending = pc.pending := by
    rw [Finset.sum_eq_single t]
    · rw [hpc]
    · intro u _ hu
      show HitPc.pending (Function.update (fun _ => HitPc.ready) t pc u) = 0
      rw [Function.update_of_ne hu]
      rfl
    · exact fun ht => absurd (Finset.mem_univ t) ht
  refine ⟨t, m', pc', ?_, ⟨choice, by rw [hpc]; exact hstep⟩, ?_⟩
  · show hitReferences (solo t m pc) + ((solo t m pc).threads t).taking < 2 ^ 30
    rw [hitReferences, hsum, hpc]
    exact h
  · simp only [solo, Config.set, Function.update_idem]

include t

/-- One thread releases a handle. -/
theorem solo_release (entry : HandleImpl) (w : UInt64) (refs : Nat) (h : refs + 1 < 2 ^ 30) :
    Reaches HitAccess FewHits (⟨⟨{entry with metaWord := w}, refs + 1⟩, fun _ => .ready⟩ : HitConfig T)
      ⟨⟨{entry with metaWord := w - kRefIncrement}, refs⟩, fun _ => .ready⟩ := by
  have hbegin : hitStep .release ⟨{entry with metaWord := w}, refs + 1⟩ .ready =
      (⟨{entry with metaWord := w}, refs⟩, .release) := by
    rw [hitStep, if_pos (Nat.succ_pos refs), Nat.add_sub_cancel]
  have hend : hitStep .go ⟨{entry with metaWord := w}, refs⟩ .release =
      (⟨{entry with metaWord := w - kRefIncrement}, refs⟩, .ready) := rfl
  have hfirst := solo_step t .release hbegin h
  have hlast := solo_step t .go hend h
  rw [solo_ready] at hfirst hlast
  exact (Relation.ReflTransGen.single hfirst).tail hlast

/-- One thread looks the key up below the maximum. -/
theorem solo_lookup (entry : HandleImpl) (w : UInt64) (hv : state w = kStateVisible)
    (hover : ¬ hitCount (w + kRefIncrement) + 1 - kMaxHitCount > 0) :
    Reaches HitAccess FewHits (⟨⟨{entry with metaWord := w}, 0⟩, fun _ => .ready⟩ : HitConfig T)
      ⟨⟨{entry with metaWord := w + kRefIncrement + kHitIncrement * UInt64.ofInt 1}, 1⟩,
        fun _ => .ready⟩ := by
  have hcall : hitStep .lookup ⟨{entry with metaWord := w}, 0⟩ .ready =
      (⟨{entry with metaWord := w}, 0⟩, .lookup .ref) := rfl
  have href : hitStep .go ⟨{entry with metaWord := w}, 0⟩ (.lookup .ref) =
      (⟨{entry with metaWord := w + kRefIncrement}, 0⟩, .lookup .key) := by
    simp only [hitStep, lookupAccess, if_pos hv]
  have hkey : hitStep .go ⟨{entry with metaWord := w + kRefIncrement}, 0⟩ (.lookup .key) =
      (⟨{entry with metaWord := w + kRefIncrement}, 0⟩, .lookup .hit) := by
    simp only [hitStep, lookupAccess, if_true]
  have hhit : hitStep .go ⟨{entry with metaWord := w + kRefIncrement}, 0⟩ (.lookup .hit) =
      (⟨{entry with metaWord := w + kRefIncrement + kHitIncrement * UInt64.ofInt 1}, 1⟩, .ready) := by
    simp only [hitStep, lookupAccess, if_neg hover]
  have hfirst := solo_step t .lookup hcall (show 0 + 0 + 0 < 2 ^ 30 by decide)
  have hlast := solo_step t .go hhit (show 0 + 1 + 0 < 2 ^ 30 by decide)
  rw [solo_ready] at hfirst hlast
  have hsecond := solo_step t .go href (show 0 + 0 + 1 < 2 ^ 30 by decide)
  have hthird := solo_step t .go hkey (show 0 + 1 + 0 < 2 ^ 30 by decide)
  exact (((Relation.ReflTransGen.single hfirst).tail hsecond).tail hthird).tail hlast

/-- Whatever the count and the references, a run leads to the maximum with none. -/
theorem solo_maximum (entry : HandleImpl) {hits refs : Nat} (hhits : hits ≤ 2000)
    (hrefs : refs < 2 ^ 30) :
    Reaches HitAccess FewHits (hitStart T entry hits refs) (hitStart T entry 2000 0) := by
  have hrelease : ∀ hits refs, refs < 2 ^ 30 →
      Reaches HitAccess FewHits (hitStart T entry hits refs) (hitStart T entry hits 0) := by
    intro hits refs
    induction refs with
    | zero => exact fun _ => .refl
    | succ refs ih =>
      intro h
      have hone := solo_release t entry (pack 7 0 hits (refs + 1)) refs h
      rw [pack_sub_ref] at hone
      exact hone.trans (ih (by omega))
  have hlookup : ∀ n hits, hits + n = 2000 →
      Reaches HitAccess FewHits (hitStart T entry hits 0) (hitStart T entry 2000 0) := by
    intro n
    induction n with
    | zero =>
      intro hits h
      rw [show hits = 2000 by omega]
      exact .refl
    | succ n ih =>
      intro hits h
      have hover : ¬ hitCount (pack 7 0 hits 0 + kRefIncrement) + 1 - kMaxHitCount > 0 := by
        rw [pack_add_ref, hitCount_pack (fits_entry (.inr rfl) (by omega) (by omega)), kMaxHitCount]
        omega
      have hone := solo_lookup t entry (pack 7 0 hits 0) (state_visible (by omega) (by omega)) hover
      rw [show UInt64.ofInt 1 = UInt64.ofNat 1 from ofInt_natCast 1, pack_add_ref, pack_add_hit] at hone
      exact (hone.trans (hrelease (hits + 1) 1 (by omega))).trans (ih (hits + 1) (by omega))
  exact (hrelease hits refs hrefs).trans (hlookup (2000 - hits) hits (by omega))

end Solo

/-- The run of fifty-eight threads among more of them, whatever the entry. -/
theorem overflow_run_among (hT : 58 ≤ T) (entry : HandleImpl) :
    ∃ c : HitConfig T, Reaches HitAccess FewHits (hitStart T entry 2000 0) c ∧
      state c.shared.slot.metaWord = kStateInvisible := by
  obtain ⟨c, hrun, hinvisible⟩ := overflow_run
  have hlift := hrun.embed (Fin.castLEEmb hT) HitPc.ready (fewHits_embed (Fin.castLEEmb hT))
  have hstart : (hitStart 58 default 2000 0).embed (Fin.castLEEmb hT) HitPc.ready =
      hitStart T default 2000 0 := Config.embed_const _ _ _
  rw [hstart] at hlift
  exact ⟨_, reaches_withEntry entry hlift, hinvisible⟩

/-- **How many threads the hit counter bears**: from any count and any references, the
runs of up to 57 threads keep the word of the slot intact, and among those of 58 or
more there is one that does not. -/
theorem hits_intact_iff (T : Nat) (entry : HandleImpl) {hits refs : Nat} (hhits : hits ≤ 2000)
    (hrefs : refs < 2 ^ 30) :
    (∀ c : HitConfig T, Reaches HitAccess FewHits (hitStart T entry hits refs) c → Intact c) ↔
      T ≤ 57 := by
  constructor
  · intro hall
    by_contra hT
    obtain ⟨c, hrun, hinvisible⟩ := overflow_run_among (show 58 ≤ T by omega) entry
    have hvisible := (hall c ((solo_maximum ⟨0, by omega⟩ entry hhits hrefs).trans hrun)).visible
    exact invisible_ne_visible (hinvisible.symm.trans hvisible)
  · intro hT c hr
    exact intact_of_accounts hT (hit_accounts hT hhits hrefs hr)

/-- Two threads on a slot at its maximum with one reference held. -/
theorem hits_intact_two : (∀ c : HitConfig 2,
    Reaches HitAccess FewHits (hitStart 2 default 2000 1) c → Intact c) ↔ 2 ≤ 57 :=
  hits_intact_iff 2 default (by omega) (by omega)

end Runs

end HyperCache.Clock
