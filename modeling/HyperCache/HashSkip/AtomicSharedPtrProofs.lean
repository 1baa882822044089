import HyperCache.HashSkip.AtomicSharedPtr
import Mathlib.Algebra.BigOperators.Group.Finset.Piecewise
import Mathlib.Algebra.Order.BigOperators.Group.Finset

/-! `AtomicSharedPtr` is a linearizable register that deletes no cell too early.

Threads hold claims: a load that copies has counted itself in the version, a store that
replaces has the mark, a cell is owned by the store that made it or took it out, and every
replaced value is returned by one store. The cell that a store has made holds its argument,
so that the values so far are the first one and the stored arguments. `Global` is what the
memory owes to all the claims together, and `Local` what each position relies on: while the
version counts a load the pointer is not replaced, so the cell it copies from is the present
one. -/
namespace HyperCache.HashSkip.AtomicSharedPtr
open Interleaving

variable {V : Type}

inductive Claim where
  | reading
  | marking
  | owning (address : Nat)
  | replaced (index : Nat)
  deriving DecidableEq

/-- A pointer's cell, if it has one. -/
def cell (raw : Nat) : Multiset Claim := if raw = 0 then 0 else {.owning raw}

/-- What a position claims. -/
def Pc.claims : Pc V → Multiset Claim
  | .loadCopy .. | .loadRelease .. => {.reading}
  | .storePtr _ _ newRaw | .storeCas _ _ newRaw _ => cell newRaw
  | .storeSwap _ _ newRaw _ => .marking ::ₘ cell newRaw
  | .storeCopy _ _ replaced oldPtr | .storeDelete _ _ replaced oldPtr _ =>
    .replaced replaced ::ₘ cell oldPtr.raw
  | .storeReturn _ _ replaced _ => {.replaced replaced}
  | _ => 0

/-- A store took effect between its start and its end: what it returned is the value it
replaced, and its argument is the next of all values. -/
structure Took (past history : List (Option V)) (r : Returned V) : Prop where
  began : r.began ≤ r.replaced
  ended : r.replaced < r.ended
  oldValue : past[r.replaced]? = some r.oldValue
  newValue : history[r.replaced + 1]? = some r.newValue

/-- What the memory owes to the claims `m` of all threads, `first` the value it was made
with. -/
structure Global (first : Option V) (s : AtomicSharedPtr V) (m : Multiset Claim) : Prop where
  version : (s.ptr.version : Nat) = m.count .reading
  mark : m.count .marking = if s.ptr.marked then 1 else 0
  unread : s.ptr.marked = true → m.count .reading = 0
  bounded : ∀ a, s.cells a ≠ none → 0 < a ∧ a < 2 ^ 47
  present : s.ptr.raw ≠ 0 → s.cells s.ptr.raw ≠ none
  owned : ∀ a, .owning a ∈ m → s.cells a ≠ none ∧ a ≠ s.ptr.raw
  once : ∀ a, m.count (.owning a) ≤ 1
  replaced : ∀ k, m.count (.replaced k) + (s.returned.map (·.replaced)).count k =
    if k < s.past.length then 1 else 0
  returned : ∀ r ∈ s.returned, Took s.past s.history r
  stored : s.history = first :: s.stored
  loads : ∀ l ∈ s.loads, ∃ k, l.1 ≤ k ∧ k ≤ l.2.2 ∧ s.history[k]? = some l.2.1

/-- The cell that a store has made holds its argument. -/
def Holds (s : AtomicSharedPtr V) (newRaw : Nat) (newValue : Option V) : Prop :=
  if newRaw = 0 then newValue = none else s.cells newRaw = newValue

/-- What a position relies on. -/
def Local (s : AtomicSharedPtr V) : Pc V → Prop
  | .loadPtr began => began ≤ s.past.length
  | .loadCas began currPtr => began ≤ s.past.length ∧ currPtr.raw ≠ 0
  | .loadCopy began currPtr => began ≤ s.past.length ∧ currPtr.raw ≠ 0 ∧ currPtr.raw = s.ptr.raw
  | .loadRelease began taken value _ | .loadReturn began taken value =>
    began ≤ taken ∧ taken ≤ s.past.length ∧ s.history[taken]? = some value
  | .storeNew began _ => began ≤ s.past.length
  | .storePtr began newValue newRaw => began ≤ s.past.length ∧ Holds s newRaw newValue
  | .storeCas began newValue newRaw oldPtr =>
    began ≤ s.past.length ∧ Holds s newRaw newValue ∧ oldPtr = unused oldPtr
  | .storeSwap began newValue newRaw oldPtr =>
    began ≤ s.past.length ∧ Holds s newRaw newValue ∧ oldPtr = unused oldPtr ∧ s.ptr = oldPtr.mark
  | .storeCopy began newValue replaced oldPtr =>
    oldPtr.raw ≠ 0 ∧
      Took s.past s.history ⟨began, newValue, replaced, s.cells oldPtr.raw, s.past.length⟩
  | .storeDelete began newValue replaced oldPtr oldValue =>
    oldPtr.raw ≠ 0 ∧ Took s.past s.history ⟨began, newValue, replaced, oldValue, s.past.length⟩
  | .storeReturn began newValue replaced oldValue =>
    Took s.past s.history ⟨began, newValue, replaced, oldValue, s.past.length⟩
  | _ => True

/-! ### What a step leaves to the others -/

/-- What the claims `m` keep when another thread takes the memory from `s` to `s'`. -/
structure Keeps (s s' : AtomicSharedPtr V) (m : Multiset Claim) : Prop where
  past : s.past <+: s'.past
  history : s.history <+: s'.history
  reading : .reading ∈ m → s'.ptr.raw = s.ptr.raw
  marking : .marking ∈ m → s'.ptr = s.ptr
  owning : ∀ a, .owning a ∈ m → s'.cells a = s.cells a

theorem Keeps.refl (s : AtomicSharedPtr V) (m : Multiset Claim) : Keeps s s m :=
  ⟨List.prefix_rfl, List.prefix_rfl, fun _ => rfl, fun _ => rfl, fun _ _ => rfl⟩

theorem mem_cell {raw : Nat} (h : raw ≠ 0) : Claim.owning raw ∈ cell raw := by
  rw [cell, if_neg h]
  exact Multiset.mem_singleton_self _

theorem prefix_getElem? {l l' : List (Option V)} {k : Nat} {v : Option V} (h : l <+: l')
    (hk : l[k]? = some v) : l'[k]? = some v := by
  obtain ⟨t, rfl⟩ := h
  rw [List.getElem?_append_left (List.getElem?_eq_some_iff.mp hk).1]
  exact hk

theorem Took.mono {past past' history history' : List (Option V)} {r : Returned V}
    (h : Took past history r) (hp : past <+: past') (hh : history <+: history') {ended : Nat}
    (he : r.ended ≤ ended) : Took past' history' {r with ended := ended} :=
  ⟨h.began, Nat.lt_of_lt_of_le h.ended he, prefix_getElem? hp h.oldValue,
    prefix_getElem? hh h.newValue⟩

section Keep
variable {s s' : AtomicSharedPtr V} {m r : Multiset Claim} {first : Option V}

theorem Holds.keeps {newRaw : Nat} {newValue : Option V} (h : Holds s newRaw newValue)
    (hk : newRaw ≠ 0 → s'.cells newRaw = s.cells newRaw) : Holds s' newRaw newValue := by
  unfold Holds at h ⊢
  split
  · rwa [if_pos ‹_›] at h
  · rw [hk ‹_›]
    rwa [if_neg ‹_›] at h

/-- A position keeps what it relies on. -/
theorem Local.keeps {l : Pc V} (h : Local s l) (hk : Keeps s s' l.claims) : Local s' l := by
  have hpast := hk.past.length_le
  cases l with
  | ready => trivial
  | loadPtr began => exact Nat.le_trans h hpast
  | loadCas began currPtr => exact ⟨Nat.le_trans h.1 hpast, h.2⟩
  | loadCopy began currPtr =>
    have hraw := hk.reading (Multiset.mem_singleton_self _)
    exact ⟨Nat.le_trans h.1 hpast, h.2.1, h.2.2.trans hraw.symm⟩
  | loadRelease began taken value currPtr =>
    exact ⟨h.1, Nat.le_trans h.2.1 hpast, prefix_getElem? hk.history h.2.2⟩
  | loadReturn began taken value =>
    exact ⟨h.1, Nat.le_trans h.2.1 hpast, prefix_getElem? hk.history h.2.2⟩
  | storeNew began newValue => exact Nat.le_trans h hpast
  | storePtr began newValue newRaw =>
    exact ⟨Nat.le_trans h.1 hpast, h.2.keeps fun hne => hk.owning newRaw (mem_cell hne)⟩
  | storeCas began newValue newRaw oldPtr =>
    exact ⟨Nat.le_trans h.1 hpast, h.2.1.keeps fun hne => hk.owning newRaw (mem_cell hne), h.2.2⟩
  | storeSwap began newValue newRaw oldPtr =>
    refine ⟨Nat.le_trans h.1 hpast, h.2.1.keeps fun hne => hk.owning newRaw ?_, h.2.2.1, ?_⟩
    · exact Multiset.mem_cons_of_mem (mem_cell hne)
    · exact (hk.marking (Multiset.mem_cons_self _ _)).trans h.2.2.2
  | storeCopy began newValue replaced oldPtr =>
    have hcell := hk.owning oldPtr.raw (Multiset.mem_cons_of_mem (mem_cell h.1))
    refine ⟨h.1, ?_⟩
    rw [hcell]
    exact h.2.mono hk.past hk.history hpast
  | storeDelete began newValue replaced oldPtr oldValue =>
    exact ⟨h.1, h.2.mono hk.past hk.history hpast⟩
  | storeReturn began newValue replaced oldValue => exact h.mono hk.past hk.history hpast

/-- The pointer word changes, not where it points. -/
theorem Keeps.word {ptr : MarkVersionedPtr} (hraw : ptr.raw = s.ptr.raw) (hmark : Claim.marking ∉ m) :
    Keeps s {s with ptr := ptr} m where
  past := List.prefix_rfl
  history := by
    show s.past ++ [s.cells s.ptr.raw] <+: s.past ++ [s.cells ptr.raw]
    rw [hraw]
  reading _ := hraw
  marking h := absurd h hmark
  owning _ _ := rfl

/-- A cell that is not the present one holds no value of the history. -/
theorem history_update {a : Nat} (v : Option V) (hptr : a ≠ s.ptr.raw) :
    history {s with cells := Function.update s.cells a v} = s.history := by
  have hvalue : Function.update s.cells a v s.ptr.raw = s.cells s.ptr.raw :=
    Function.update_of_ne hptr.symm _ _
  show s.past ++ [Function.update s.cells a v s.ptr.raw] = s.past ++ [s.cells s.ptr.raw]
  rw [hvalue]

/-- A cell that is neither the present one nor one of the others' changes. -/
theorem Keeps.cell {a : Nat} (v : Option V) (hptr : a ≠ s.ptr.raw) (hown : Claim.owning a ∉ m) :
    Keeps s {s with cells := Function.update s.cells a v} m where
  past := List.prefix_rfl
  history := by
    rw [history_update v hptr]
  reading _ := rfl
  marking _ := rfl
  owning b hb := by
    have hne : b ≠ a := fun he => hown (he ▸ hb)
    exact Function.update_of_ne hne _ _

/-- The pointer is replaced. -/
theorem Keeps.swap (ptr : MarkVersionedPtr) (stored : List (Option V)) (hread : Claim.reading ∉ m)
    (hmark : Claim.marking ∉ m) :
    Keeps s {s with ptr := ptr, past := s.past ++ [s.value], stored := stored} m where
  past := List.prefix_append _ _
  history := List.prefix_append _ _
  reading h := absurd h hread
  marking h := absurd h hmark
  owning _ _ := rfl

theorem Global.cells_zero (h : Global first s m) : s.cells 0 = none := by
  by_contra hne
  exact absurd (h.bounded 0 hne).1 (Nat.lt_irrefl 0)

/-- While the pointer is not marked no thread has the mark. -/
theorem Global.unmarked (h : Global first s m) (hm : s.ptr.marked = false) : Claim.marking ∉ m := by
  rw [← Multiset.count_eq_zero, h.mark, hm]
  rfl

theorem step_keeps {l l' : Pc V} {c : Choice V} (h : Global first s (l.claims + r)) (hl : Local s l)
    (hstep : step c s l = (s', l')) : Keeps s s' r := by
  have hfree : s.ptr.marked = false → Claim.marking ∉ r := fun hm hr =>
    h.unmarked hm (Multiset.mem_add.mpr (.inr hr))
  cases l with
  | ready | loadPtr | loadCopy | storePtr | storeCopy =>
    cases hstep
    exact Keeps.refl s r
  | loadCas began currPtr =>
    simp only [step] at hstep
    split at hstep
    · rename_i hcas
      cases hstep
      refine Keeps.word (congrArg MarkVersionedPtr.raw hcas.1).symm (hfree ?_)
      rw [hcas.1]
      rfl
    · cases hstep
      exact Keeps.refl s r
  | loadRelease began taken value currPtr =>
    simp only [step] at hstep
    split at hstep
    · rename_i hcas
      cases hstep
      refine Keeps.word (congrArg MarkVersionedPtr.raw hcas.1).symm (hfree ?_)
      rw [hcas.1]
      rfl
    · cases hstep
      exact Keeps.refl s r
  | loadReturn began taken value =>
    cases hstep
    exact ⟨List.prefix_rfl, List.prefix_rfl, fun _ => rfl, fun _ => rfl, fun _ _ => rfl⟩
  | storeNew began newValue =>
    cases newValue with
    | none =>
      cases hstep
      exact Keeps.refl s r
    | some v =>
      cases c with
      | new address =>
        simp only [step] at hstep
        split at hstep
        · rename_i hnew
          cases hstep
          have hnone : s.cells address = none := Option.isNone_iff_eq_none.mp hnew.2.2
          refine Keeps.cell _ (fun he => ?_) fun hown => ?_
          · exact h.present (he ▸ Nat.ne_of_gt hnew.1) (he ▸ hnone)
          · exact (h.owned address (Multiset.mem_add.mpr (.inr hown))).1 hnone
        · cases hstep
          exact Keeps.refl s r
      | load | store | go | spurious =>
        cases hstep
        exact Keeps.refl s r
  | storeCas began newValue newRaw oldPtr =>
    simp only [step] at hstep
    split at hstep
    · rename_i hcas
      cases hstep
      refine Keeps.word (congrArg MarkVersionedPtr.raw hcas.1).symm (hfree ?_)
      rw [hcas.1, hl.2.2]
      rfl
    · cases hstep
      exact Keeps.refl s r
  | storeSwap began newValue newRaw oldPtr =>
    have hmarked : s.ptr.marked = true := by
      rw [hl.2.2.2]
      rfl
    have hread : Claim.reading ∉ r := by
      intro hr
      have hcount := h.unread hmarked
      rw [Multiset.count_eq_zero] at hcount
      exact hcount (Multiset.mem_add.mpr (.inr hr))
    have hmark : Claim.marking ∉ r := by
      have hcount := h.mark
      rw [hmarked, Pc.claims, Multiset.cons_add, Multiset.count_cons_self, Multiset.count_add] at hcount
      rw [← Multiset.count_eq_zero]
      have hone : (if true = true then 1 else 0) = 1 := rfl
      omega
    simp only [step] at hstep
    split at hstep
    · cases hstep
      exact Keeps.swap _ _ hread hmark
    · cases hstep
      exact Keeps.swap _ _ hread hmark
  | storeDelete began newValue replaced oldPtr oldValue =>
    cases hstep
    have hmem : Claim.owning oldPtr.raw ∈
        (Pc.storeDelete began newValue replaced oldPtr oldValue).claims :=
      Multiset.mem_cons_of_mem (mem_cell hl.1)
    refine Keeps.cell _ (h.owned _ (Multiset.mem_add.mpr (.inl hmem))).2 fun hr => ?_
    have honce := h.once oldPtr.raw
    rw [Multiset.count_add] at honce
    have hmine := Multiset.count_pos.mpr hmem
    have htheirs := Multiset.count_pos.mpr hr
    omega
  | storeReturn began newValue replaced oldValue =>
    cases hstep
    exact ⟨List.prefix_rfl, List.prefix_rfl, fun _ => rfl, fun _ => rfl, fun _ _ => rfl⟩

end Keep

/-! ### What each change of the memory does to the accounts -/

@[simp] theorem count_cell_reading (raw : Nat) : (cell raw).count .reading = 0 := by
  unfold cell
  split <;> rfl

@[simp] theorem count_cell_marking (raw : Nat) : (cell raw).count .marking = 0 := by
  unfold cell
  split <;> rfl

@[simp] theorem count_cell_replaced (raw k : Nat) : (cell raw).count (.replaced k) = 0 := by
  unfold cell
  split <;> rfl

theorem mem_cell_iff {raw a : Nat} : Claim.owning a ∈ cell raw ↔ raw ≠ 0 ∧ a = raw := by
  unfold cell
  by_cases h : raw = 0
  · simp [h]
  · simp [h]

theorem nodup_cell (raw a : Nat) : (cell raw).count (.owning a) ≤ 1 := by
  unfold cell
  split
  · exact Nat.zero_le 1
  · rw [Multiset.count_singleton]
    split <;> omega

section Changes
variable {first : Option V} {s : AtomicSharedPtr V} {r : Multiset Claim}

/-- A load counts itself. -/
theorem Global.incr (h : Global first s r) (hm : s.ptr.marked = false)
    (hlim : r.count .reading + 1 < 2 ^ 14) :
    Global first {s with ptr := s.ptr.incrVersion} (.reading ::ₘ r) where
  version := by
    have hv := h.version
    rw [Multiset.count_cons_self]
    show ((s.ptr.version + 1 : Fin (2 ^ 14)) : Nat) = _
    rw [Fin.val_add, hv]
    exact Nat.mod_eq_of_lt hlim
  mark := by
    rw [Multiset.count_cons_of_ne (by decide)]
    exact h.mark
  unread hmarked := by
    exact absurd (hm.symm.trans hmarked) (by decide)
  bounded := h.bounded
  present := h.present
  owned a ha := h.owned a (by simpa using ha)
  once a := by
    rw [Multiset.count_cons_of_ne (by simp)]
    exact h.once a
  replaced k := by
    rw [Multiset.count_cons_of_ne (by simp)]
    exact h.replaced k
  returned := h.returned
  stored := h.stored
  loads := h.loads

/-- And takes itself back. -/
theorem Global.decr (h : Global first s (.reading ::ₘ r)) (hm : s.ptr.marked = false) :
    Global first {s with ptr := s.ptr.decrVersion} r where
  version := by
    have hv := h.version
    have hlt := s.ptr.version.isLt
    rw [Multiset.count_cons_self] at hv
    show ((s.ptr.version - 1 : Fin (2 ^ 14)) : Nat) = _
    rw [Fin.sub_def]
    show (2 ^ 14 - 1 + (s.ptr.version : Nat)) % 2 ^ 14 = _
    omega
  mark := by
    have := h.mark
    rwa [Multiset.count_cons_of_ne (by decide)] at this
  unread hmarked := by
    exact absurd (hm.symm.trans hmarked) (by decide)
  bounded := h.bounded
  present := h.present
  owned a ha := h.owned a (Multiset.mem_cons_of_mem ha)
  once a := by
    have := h.once a
    rwa [Multiset.count_cons_of_ne (by simp)] at this
  replaced k := by
    have := h.replaced k
    rwa [Multiset.count_cons_of_ne (by simp)] at this
  returned := h.returned
  stored := h.stored
  loads := h.loads

/-- A store makes a cell. -/
theorem Global.new (h : Global first s r) {a : Nat} (ha : s.Free a) (v : V) :
    Global first {s with cells := Function.update s.cells a (some v)} (cell a + r) := by
  obtain ⟨hpos, hlt, hnone⟩ := ha
  have hnone : s.cells a = none := Option.isNone_iff_eq_none.mp hnone
  have hptr : a ≠ s.ptr.raw := fun he => h.present (he ▸ Nat.ne_of_gt hpos) (he ▸ hnone)
  have hfresh : Claim.owning a ∉ r := fun hr => (h.owned a hr).1 hnone
  have hkeeps : Keeps s {s with cells := Function.update s.cells a (some v)} 0 :=
    Keeps.cell (some v) hptr (Multiset.notMem_zero _)
  have hsome : ∀ b, s.cells b ≠ none → Function.update s.cells a (some v) b ≠ none := by
    intro b hb
    rw [Function.update_apply]
    split
    · exact Option.some_ne_none v
    · exact hb
  refine ⟨?_, ?_, fun hm => ?_, fun b hb => ?_, fun hne => hsome _ (h.present hne), fun b hb => ?_,
    fun b => ?_, fun k => ?_, fun p hp => ?_, ?_, fun l hl => ?_⟩
  · simpa using h.version
  · simpa using h.mark
  · simpa using h.unread hm
  · change Function.update s.cells a (some v) b ≠ none at hb
    by_cases hba : b = a
    · subst hba
      exact ⟨hpos, hlt⟩
    · rw [Function.update_of_ne hba] at hb
      exact h.bounded b hb
  · rcases Multiset.mem_add.mp hb with hb | hb
    · obtain ⟨-, rfl⟩ := mem_cell_iff.mp hb
      refine ⟨?_, hptr⟩
      show Function.update s.cells b (some v) b ≠ none
      rw [Function.update_self]
      exact Option.some_ne_none v
    · obtain ⟨hcell, hne⟩ := h.owned b hb
      exact ⟨hsome b hcell, hne⟩
  · rw [Multiset.count_add]
    by_cases hba : b = a
    · subst hba
      have := nodup_cell b b
      rw [Multiset.count_eq_zero.mpr hfresh]
      omega
    · have : (cell a).count (.owning b) = 0 :=
        Multiset.count_eq_zero.mpr fun hmem => hba (mem_cell_iff.mp hmem).2
      have := h.once b
      omega
  · simpa using h.replaced k
  · exact (h.returned p hp).mono hkeeps.past hkeeps.history (Nat.le_refl _)
  · rw [history_update _ hptr]
    exact h.stored
  · obtain ⟨k, hb, he, hk⟩ := h.loads l hl
    exact ⟨k, hb, he, prefix_getElem? hkeeps.history hk⟩

/-- A store takes the mark of a pointer that no load is reading. -/
theorem Global.marked (h : Global first s r) (hptr : s.ptr = unused s.ptr) :
    Global first {s with ptr := s.ptr.mark} (.marking ::ₘ r) := by
  have hzero : r.count .reading = 0 := by
    rw [← h.version, hptr]
    rfl
  have hnone : r.count .marking = 0 := by
    rw [h.mark, hptr]
    rfl
  refine ⟨?_, ?_, fun _ => ?_, h.bounded, h.present, fun a ha => h.owned a (by simpa using ha),
    fun a => ?_, fun k => ?_, h.returned, h.stored, h.loads⟩
  · rw [Multiset.count_cons_of_ne (by decide)]
    exact h.version
  · rw [Multiset.count_cons_self, hnone]
    rfl
  · rw [Multiset.count_cons_of_ne (by decide)]
    exact hzero
  · rw [Multiset.count_cons_of_ne (by simp)]
    exact h.once a
  · rw [Multiset.count_cons_of_ne (by simp)]
    exact h.replaced k

/-- A store replaces the pointer it has marked by that of its argument, and owns the cell it
took out. -/
theorem Global.swap {newRaw : Nat} {newValue : Option V} {oldPtr : MarkVersionedPtr}
    (h : Global first s (.marking ::ₘ (cell newRaw + r))) (hnew : s.cells newRaw = newValue)
    (hptr : s.ptr = oldPtr.mark) :
    Global first {s with ptr := ⟨newRaw, 0, false⟩, past := s.past ++ [s.value],
                         stored := s.stored ++ [newValue]}
      (.replaced s.past.length ::ₘ (cell oldPtr.raw + r)) := by
  have hraw : s.ptr.raw = oldPtr.raw := by
    rw [hptr]
    rfl
  have hmarked : s.ptr.marked = true := by
    rw [hptr]
    rfl
  have hread : r.count .reading = 0 := by
    simpa using h.unread hmarked
  have hmark : r.count .marking = 0 := by
    have := h.mark
    rw [hmarked] at this
    simpa using this
  have hlen : (s.past ++ [s.value]).length = s.past.length + 1 := by simp
  refine ⟨?_, ?_, fun hm => absurd hm Bool.false_ne_true, h.bounded, fun hne => ?_, fun a ha => ?_,
    fun a => ?_, fun k => ?_, fun p hp => ?_, ?_, fun l hl => ?_⟩
  · simpa using hread.symm
  · simpa using hmark
  · exact (h.owned newRaw
      (Multiset.mem_cons_of_mem (Multiset.mem_add.mpr (.inl (mem_cell hne))))).1
  · rcases Multiset.mem_add.mp ((Multiset.mem_cons.mp ha).resolve_left (by simp)) with ha | ha
    · obtain ⟨hne, rfl⟩ := mem_cell_iff.mp ha
      have hcell : s.cells oldPtr.raw ≠ none := hraw ▸ h.present (hraw ▸ hne)
      refine ⟨hcell, fun he => ?_⟩
      have he : oldPtr.raw = newRaw := he
      exact (h.owned newRaw (Multiset.mem_cons_of_mem (Multiset.mem_add.mpr
        (.inl (mem_cell (he ▸ hne)))))).2 (he.symm.trans hraw.symm)
    · obtain ⟨hcell, -⟩ := h.owned a (Multiset.mem_cons_of_mem (Multiset.mem_add.mpr (.inr ha)))
      refine ⟨hcell, fun he => ?_⟩
      have he : a = newRaw := he
      subst he
      have hpos := (h.bounded a hcell).1
      have honce := h.once a
      rw [Multiset.count_cons_of_ne (by simp), Multiset.count_add] at honce
      have hown : Claim.owning a ∈ cell a := mem_cell (by omega)
      have hmine := Multiset.count_pos.mpr hown
      have htheirs := Multiset.count_pos.mpr ha
      omega
  · rw [Multiset.count_cons_of_ne (by simp), Multiset.count_add]
    have honce := h.once a
    rw [Multiset.count_cons_of_ne (by simp), Multiset.count_add] at honce
    by_cases ha : Claim.owning a ∈ r
    · have hne := (h.owned a (Multiset.mem_cons_of_mem (Multiset.mem_add.mpr (.inr ha)))).2
      have hzero : (cell oldPtr.raw).count (.owning a) = 0 :=
        Multiset.count_eq_zero.mpr fun hmem => hne ((mem_cell_iff.mp hmem).2.trans hraw.symm)
      omega
    · have := nodup_cell oldPtr.raw a
      rw [Multiset.count_eq_zero.mpr ha]
      omega
  · have hk := h.replaced k
    rw [Multiset.count_cons_of_ne (by simp), Multiset.count_add, count_cell_replaced] at hk
    show Multiset.count _ _ + (s.returned.map (·.replaced)).count k =
      if k < (s.past ++ [s.value]).length then 1 else 0
    rw [Multiset.count_cons, Multiset.count_add, count_cell_replaced, hlen]
    by_cases heq : k = s.past.length
    · subst heq
      rw [if_neg (Nat.lt_irrefl _)] at hk
      rw [if_pos rfl, if_pos (Nat.lt_succ_self _)]
      omega
    · have hne : ¬ Claim.replaced k = .replaced s.past.length := by simpa using heq
      rw [if_neg hne, Nat.add_zero, hk]
      congr 1
      exact propext ⟨fun hlt => by omega, fun hlt => by omega⟩
  · exact (h.returned p hp).mono (List.prefix_append _ _) (List.prefix_append _ _) (Nat.le_refl _)
  · show s.history ++ [s.cells newRaw] = first :: (s.stored ++ [newValue])
    rw [h.stored, hnew, List.cons_append]
  · obtain ⟨k, hb, he, hk⟩ := h.loads l hl
    exact ⟨k, hb, he, prefix_getElem? (List.prefix_append _ _) hk⟩

/-- A store deletes the cell it owns. -/
theorem Global.delete {k a : Nat} (h : Global first s (.replaced k ::ₘ cell a + r)) (ha : a ≠ 0) :
    Global first {s with cells := Function.update s.cells a none} ({.replaced k} + r) := by
  have hmem : Claim.owning a ∈ Claim.replaced k ::ₘ cell a + r :=
    Multiset.mem_add.mpr (.inl (Multiset.mem_cons_of_mem (mem_cell ha)))
  have hptr := (h.owned a hmem).2
  have hgone : Claim.owning a ∉ r := by
    intro hr
    have honce := h.once a
    rw [Multiset.cons_add, Multiset.count_cons_of_ne (by simp), Multiset.count_add] at honce
    have hmine := Multiset.count_pos.mpr (mem_cell ha)
    have htheirs := Multiset.count_pos.mpr hr
    omega
  have hkeeps : Keeps s {s with cells := Function.update s.cells a none} 0 :=
    Keeps.cell none hptr (Multiset.notMem_zero _)
  refine ⟨?_, ?_, fun hm => ?_, fun b hb => ?_, fun hne => ?_, fun b hb => ?_, fun b => ?_,
    fun j => ?_, fun p hp => ?_, ?_, fun l hl => ?_⟩
  · simpa using h.version
  · simpa using h.mark
  · simpa using h.unread hm
  · change Function.update s.cells a none b ≠ none at hb
    by_cases hba : b = a
    · subst hba
      exact absurd (Function.update_self ..) hb
    · rw [Function.update_of_ne hba] at hb
      exact h.bounded b hb
  · show Function.update s.cells a none s.ptr.raw ≠ none
    rw [Function.update_of_ne hptr.symm]
    exact h.present hne
  · have hb : Claim.owning b ∈ r := by simpa using hb
    obtain ⟨hcell, hne⟩ := h.owned b (Multiset.mem_add.mpr (.inr hb))
    have hba : b ≠ a := fun he => hgone (he ▸ hb)
    refine ⟨?_, hne⟩
    show Function.update s.cells a none b ≠ none
    rwa [Function.update_of_ne hba]
  · have honce := h.once b
    rw [Multiset.cons_add, Multiset.count_cons_of_ne (by simp), Multiset.count_add] at honce
    rw [Multiset.singleton_add, Multiset.count_cons_of_ne (by simp)]
    omega
  · have hj := h.replaced j
    rw [Multiset.cons_add, Multiset.count_cons, Multiset.count_add, count_cell_replaced] at hj
    rw [Multiset.singleton_add, Multiset.count_cons]
    show _ + _ + (s.returned.map (·.replaced)).count j = if j < s.past.length then 1 else 0
    omega
  · exact (h.returned p hp).mono hkeeps.past hkeeps.history (Nat.le_refl _)
  · rw [history_update _ hptr]
    exact h.stored
  · obtain ⟨j, hb, he, hj⟩ := h.loads l hl
    exact ⟨j, hb, he, prefix_getElem? hkeeps.history hj⟩

/-- A store returns. -/
theorem Global.storeReturn {p : Returned V} (h : Global first s ({.replaced p.replaced} + r))
    (hp : Took s.past s.history p) : Global first {s with returned := p :: s.returned} r := by
  refine ⟨?_, ?_, fun hm => ?_, h.bounded, h.present, fun a ha => ?_, fun a => ?_, fun j => ?_,
    fun q hq => ?_, h.stored, h.loads⟩
  · simpa using h.version
  · simpa using h.mark
  · simpa using h.unread hm
  · exact h.owned a (Multiset.mem_add.mpr (.inr ha))
  · have := h.once a
    rwa [Multiset.singleton_add, Multiset.count_cons_of_ne (by simp)] at this
  · have hj := h.replaced j
    rw [Multiset.singleton_add, Multiset.count_cons] at hj
    show _ + (p.replaced :: s.returned.map (·.replaced)).count j =
      if j < s.past.length then 1 else 0
    rw [List.count_cons, ← hj]
    by_cases hkj : p.replaced = j
    · subst hkj
      simp only [beq_self_eq_true, if_true]
      omega
    · have hne : ¬ Claim.replaced j = .replaced p.replaced := by
        simp only [Claim.replaced.injEq]
        exact fun he => hkj he.symm
      rw [if_neg hne, if_neg (by simpa using hkj)]
      omega
  · rcases List.mem_cons.mp hq with rfl | hq
    · exact hp
    · exact h.returned q hq

/-- A load returns. -/
theorem Global.loadReturn (h : Global first s r) {began taken : Nat} {v : Option V} (hb : began ≤ taken)
    (ht : taken ≤ s.past.length) (hv : s.history[taken]? = some v) :
    Global first {s with loads := (began, v, s.past.length) :: s.loads} r := by
  refine ⟨h.version, h.mark, h.unread, h.bounded, h.present, h.owned, h.once, h.replaced,
    h.returned, h.stored, fun l hl => ?_⟩
  rcases List.mem_cons.mp hl with rfl | hl
  · exact ⟨taken, hb, ht, hv⟩
  · exact h.loads l hl

end Changes

/-! ### One step of a thread -/

section Own
variable {first : Option V} {s s' : AtomicSharedPtr V} {r : Multiset Claim}

/-- A load that has read `ptr_` with no claim: the value of a null pointer is none. -/
theorem Global.acquire (h : Global first s r) {began : Nat} (hb : began ≤ s.past.length) :
    (s.acquire began).claims = 0 ∧ Local s (s.acquire began) := by
  unfold AtomicSharedPtr.acquire
  by_cases hnull : s.ptr.raw = 0
  · rw [if_pos hnull]
    refine ⟨rfl, hb, Nat.le_refl _, ?_⟩
    show (s.past ++ [s.cells s.ptr.raw])[s.past.length]? = some none
    rw [hnull, h.cells_zero, List.getElem?_concat_length]
  · rw [if_neg hnull]
    exact ⟨rfl, hb, hnull⟩

theorem Global.cells_of_holds {m : Multiset Claim} (h : Global first s m) {newRaw : Nat}
    {newValue : Option V} (hnew : Holds s newRaw newValue) : s.cells newRaw = newValue := by
  unfold Holds at hnew
  split at hnew
  · rw [‹newRaw = 0›, hnew, h.cells_zero]
  · exact hnew

/-- What a store can say from when it replaces the pointer on. -/
theorem took_swap {began newRaw : Nat} {newValue : Option V} {oldPtr : MarkVersionedPtr}
    (hbegan : began ≤ s.past.length) (hnew : s.cells newRaw = newValue)
    (hptr : s.ptr = oldPtr.mark) :
    Took (s.past ++ [s.value]) (s.past ++ [s.value] ++ [s.cells newRaw])
      ⟨began, newValue, s.past.length, s.cells oldPtr.raw, (s.past ++ [s.value]).length⟩ := by
  have hvalue : s.value = s.cells oldPtr.raw := by
    rw [AtomicSharedPtr.value, hptr]
    rfl
  have hlen : (s.past ++ [s.value]).length = s.past.length + 1 := List.length_append
  refine ⟨hbegan, ?_, ?_, ?_⟩
  · show s.past.length < (s.past ++ [s.value]).length
    omega
  · show (s.past ++ [s.value])[s.past.length]? = some (s.cells oldPtr.raw)
    rw [List.getElem?_concat_length, hvalue]
  · show (s.past ++ [s.value] ++ [s.cells newRaw])[s.past.length + 1]? = some newValue
    rw [← hlen, List.getElem?_concat_length, hnew]

/-- **The step lemma.** A step trades its thread's claims, and the thread can rely on what
its next position needs. -/
theorem step_own {l l' : Pc V} {c : Choice V} (h : Global first s (l.claims + r)) (hl : Local s l)
    (hlim : l.loading = true → l.claims = 0 → r.count .reading + 1 < 2 ^ 14)
    (hstep : step c s l = (s', l')) : Global first s' (l'.claims + r) ∧ Local s' l' := by
  cases l with
  | ready =>
    cases hstep
    cases c with
    | load => exact ⟨h, Nat.le_refl _⟩
    | store newValue => exact ⟨h, Nat.le_refl _⟩
    | new address => exact ⟨h, trivial⟩
    | go => exact ⟨h, trivial⟩
    | spurious => exact ⟨h, trivial⟩
  | loadPtr began =>
    cases hstep
    obtain ⟨hclaims, hlocal⟩ := h.acquire hl
    rw [hclaims]
    exact ⟨h, hlocal⟩
  | loadCas began currPtr =>
    simp only [step] at hstep
    split at hstep
    · rename_i hcas
      cases hstep
      have hm : s.ptr.marked = false := by
        rw [hcas.1]
        rfl
      have hg : Global first s r := by simpa [Pc.claims] using h
      have hincr := hg.incr hm (hlim rfl rfl)
      rw [hcas.1] at hincr
      exact ⟨hincr, hl.1, hl.2, rfl⟩
    · cases hstep
      obtain ⟨hclaims, hlocal⟩ := h.acquire hl.1
      rw [hclaims]
      exact ⟨h, hlocal⟩
  | loadCopy began currPtr =>
    cases hstep
    refine ⟨h, hl.1, Nat.le_refl _, ?_⟩
    rw [hl.2.2]
    exact List.getElem?_concat_length
  | loadRelease began taken value currPtr =>
    simp only [step] at hstep
    split at hstep
    · rename_i hcas
      cases hstep
      have hm : s.ptr.marked = false := by
        rw [hcas.1]
        rfl
      have hdecr := Global.decr h hm
      rw [hcas.1] at hdecr
      refine ⟨by simpa [Pc.claims] using hdecr, hl.1, hl.2.1, ?_⟩
      have hvalue : s.value = s.cells currPtr.unMark.decrVersion.raw := by
        rw [AtomicSharedPtr.value, hcas.1]
        rfl
      show (s.past ++ [s.cells currPtr.unMark.decrVersion.raw])[taken]? = some value
      rw [← hvalue]
      exact hl.2.2
    · cases hstep
      exact ⟨h, hl⟩
  | loadReturn began taken value =>
    cases hstep
    have hg : Global first s r := by simpa [Pc.claims] using h
    refine ⟨?_, trivial⟩
    simpa [Pc.claims] using hg.loadReturn hl.1 hl.2.1 hl.2.2
  | storeNew began newValue =>
    cases newValue with
    | none =>
      cases hstep
      exact ⟨h, hl, rfl⟩
    | some v =>
      cases c with
      | new address =>
        simp only [step] at hstep
        split at hstep
        · rename_i hnew
          cases hstep
          have hg : Global first s r := by simpa [Pc.claims] using h
          refine ⟨hg.new hnew v, hl, ?_⟩
          rw [Holds, if_neg (Nat.ne_of_gt hnew.1)]
          exact Function.update_self ..
        · cases hstep
          exact ⟨h, hl⟩
      | load | store | go | spurious =>
        cases hstep
        exact ⟨h, hl⟩
  | storePtr began newValue newRaw =>
    cases hstep
    exact ⟨h, hl.1, hl.2, rfl⟩
  | storeCas began newValue newRaw oldPtr =>
    simp only [step] at hstep
    split at hstep
    · rename_i hcas
      cases hstep
      have hunused : s.ptr = unused s.ptr := by
        rw [hcas.1]
        exact hl.2.2
      have hmark := h.marked hunused
      rw [hcas.1] at hmark
      refine ⟨?_, hl.1, hl.2.1, hl.2.2, rfl⟩
      rw [Pc.claims, Multiset.cons_add]
      exact hmark
    · cases hstep
      exact ⟨h, hl.1, hl.2.1, rfl⟩
  | storeSwap began newValue newRaw oldPtr =>
    obtain ⟨hbegan, hnew, -, hptr⟩ := hl
    have hg : Global first s (.marking ::ₘ (cell newRaw + r)) := by
      rw [← Multiset.cons_add]
      exact h
    have hswap := hg.swap (h.cells_of_holds hnew) hptr
    have htook := took_swap hbegan (h.cells_of_holds hnew) hptr
    simp only [step] at hstep
    split at hstep
    · rename_i hnull
      cases hstep
      rw [hnull, cell, if_pos rfl, Multiset.zero_add] at hswap
      rw [hnull, h.cells_zero] at htook
      exact ⟨by rw [Pc.claims, Multiset.singleton_add]; exact hswap, htook⟩
    · rename_i hne
      cases hstep
      exact ⟨by rw [Pc.claims, Multiset.cons_add]; exact hswap, hne, htook⟩
  | storeCopy began newValue replaced oldPtr =>
    cases hstep
    exact ⟨h, hl⟩
  | storeDelete began newValue replaced oldPtr oldValue =>
    cases hstep
    have hmem : Claim.owning oldPtr.raw ∈
        Claim.replaced replaced ::ₘ cell oldPtr.raw + r :=
      Multiset.mem_add.mpr (.inl (Multiset.mem_cons_of_mem (mem_cell hl.1)))
    refine ⟨Global.delete h hl.1, ?_⟩
    show Took _ (history _) _
    rw [history_update _ (h.owned _ hmem).2]
    exact hl.2
  | storeReturn began newValue replaced oldValue =>
    cases hstep
    refine ⟨?_, trivial⟩
    rw [show (Pc.ready : Pc V).claims = 0 from rfl, Multiset.zero_add]
    exact Global.storeReturn h hl

end Own

/-! ### Runs -/

section Run
variable {ι : Type} [Fintype ι] [DecidableEq ι] {c : Config (AtomicSharedPtr V) (Pc V) ι}

/-- Fewer than 2^14 loads are in progress. -/
def Few (c : Config (AtomicSharedPtr V) (Pc V) ι) (_ : ι) : Prop :=
  (Finset.univ.filter fun t => (c.threads t).loading = true).card < 2 ^ 14

instance (c : Config (AtomicSharedPtr V) (Pc V) ι) (t : ι) : Decidable (Few c t) :=
  inferInstanceAs (Decidable (_ < _))

theorem count_reading_le (l : Pc V) : l.claims.count .reading ≤ if l.loading = true then 1 else 0 := by
  cases l <;> simp [Pc.claims, Pc.loading]

theorem count_replaced_of_not_storing (k : Nat) {l : Pc V} (h : l.storing = false) :
    l.claims.count (.replaced k) = 0 := by
  cases l <;> simp [Pc.claims, Pc.storing] at h ⊢

/-- A load that does not count itself yet leaves the version room for it. -/
theorem Few.room {t : ι} (h : Few c t) (hload : (c.threads t).loading = true) :
    (others Pc.claims c t).count .reading + 1 < 2 ^ 14 := by
  have hle : (others Pc.claims c t).count .reading ≤
      ((Finset.univ.erase t).filter fun u => (c.threads u).loading = true).card := by
    rw [others, Multiset.count_sum', Finset.card_filter]
    exact Finset.sum_le_sum fun u _ => count_reading_le _
  have hmem : t ∈ Finset.univ.filter fun u => (c.threads u).loading = true :=
    Finset.mem_filter.mpr ⟨Finset.mem_univ t, hload⟩
  rw [Finset.filter_erase] at hle
  have hcard := Finset.card_erase_add_one hmem
  unfold Few at h
  omega

theorem make_global (value : Option V) {address : Nat} (haddr : 0 < address ∧ address < 2 ^ 47) :
    Global value (make value address) 0 where
  version := rfl
  mark := rfl
  unread _ := rfl
  bounded a ha := by
    by_cases he : a = address
    · rw [he]
      exact haddr
    · have hnone : Function.update (fun _ => none) address value a = none :=
        Function.update_of_ne he _ _
      exact absurd hnone ha
  present hne := by
    cases value with
    | none => exact absurd rfl hne
    | some v =>
      show Function.update (fun _ => none) address (some v) address ≠ none
      rw [Function.update_self]
      exact Option.some_ne_none v
  owned a ha := absurd ha (Multiset.notMem_zero _)
  once a := Nat.zero_le 1
  replaced k := rfl
  returned := nofun
  stored := by
    cases value with
    | none =>
      show [Function.update (fun _ => none) address none 0] = [none]
      simp
    | some v =>
      show [Function.update (fun _ => none) address (some v) address] = [some v]
      rw [Function.update_self]
  loads := nofun

/-- **The run lemma.** -/
theorem reaches_accounting {value : Option V} {address : Nat}
    (haddr : 0 < address ∧ address < 2 ^ 47)
    (hr : Reaches (Chosen step) Few ⟨make value address, fun _ => .ready⟩ c) :
    Accounting Pc.claims (Global value) Local c := by
  have hstart : Accounting Pc.claims (Global value) Local
      (⟨make value address, fun _ => .ready⟩ : Config (AtomicSharedPtr V) (Pc V) ι) := by
    have hzero : total Pc.claims (⟨make value address, fun _ => .ready⟩ :
        Config (AtomicSharedPtr V) (Pc V) ι) = 0 := Finset.sum_eq_zero fun _ _ => rfl
    refine ⟨?_, fun _ => trivial⟩
    rw [hzero]
    exact make_global value haddr
  refine hstart.reaches ?_ ?_ hr
  · rintro c t s' l' hfew hloc ⟨a, hstep⟩ hglob
    exact step_own hglob hloc (fun hload _ => hfew.room hload) hstep
  · rintro s l s' l' m r hloc hlocm ⟨a, hstep⟩ hglob
    have hk := step_keeps hglob hloc hstep
    refine hlocm.keeps ⟨hk.past, hk.history, fun hmem => hk.reading ?_, fun hmem => hk.marking ?_,
      fun b hmem => hk.owning b ?_⟩
    · exact Multiset.mem_add.mpr (.inl hmem)
    · exact Multiset.mem_add.mpr (.inl hmem)
    · exact Multiset.mem_add.mpr (.inl hmem)

/-- With no store in progress each replaced value belongs to one store that has returned. -/
theorem Global.settled {first : Option V} {s : AtomicSharedPtr V} {m : Multiset Claim}
    (h : Global first s m) (hnone : ∀ k, m.count (.replaced k) = 0) {values : List (Option V)}
    (hlen : values.length = s.past.length) {f : Returned V → Option V}
    (hf : ∀ p ∈ s.returned, values[p.replaced]? = some (f p)) :
    (values : Multiset (Option V)) = (s.returned.map f : List (Option V)) := by
  have hindex : (s.returned.map (·.replaced) : Multiset Nat) = Multiset.range s.past.length := by
    ext k
    have hk := h.replaced k
    rw [hnone, Nat.zero_add] at hk
    rw [Multiset.coe_count, hk, Multiset.count_eq_of_nodup (Multiset.nodup_range _)]
    simp only [Multiset.mem_range]
  have hread : s.returned.map (fun p => values[p.replaced]?) = s.returned.map fun p => some (f p) :=
    List.map_congr_left hf
  have hvalues : (List.range s.past.length).map (fun k => values[k]?) = values.map some := by
    rw [← hlen]
    apply List.ext_getElem?
    intro k
    by_cases hk : k < values.length
    · simp [hk]
    · simp [hk]
  apply Multiset.map_injective (Option.some_injective (Option V))
  calc Multiset.map some (values : Multiset (Option V))
      = Multiset.map (fun k => values[k]?) (Multiset.range s.past.length) :=
        (congrArg _ hvalues).symm
    _ = Multiset.map (fun k => values[k]?) (s.returned.map (·.replaced) : Multiset Nat) := by
      rw [hindex]
    _ = Multiset.map some ((s.returned.map f : List (Option V)) : Multiset (Option V)) := by
      rw [Multiset.map_coe, Multiset.map_coe, List.map_map, List.map_map]
      exact congrArg _ hread

/-- As many values were stored as were replaced. -/
theorem Global.length_stored {first : Option V} {s : AtomicSharedPtr V} {m : Multiset Claim}
    (h : Global first s m) : s.stored.length = s.past.length := by
  have hlen := congrArg List.length h.stored
  rw [history, List.length_append, List.length_singleton, List.length_cons] at hlen
  exact (Nat.succ.inj hlen).symm

/-- **A linearizable register with safe reclamation.** A load copies from the present cell;
it returns a value that was the present one between its start and its end. The values so far
are the first one and the arguments of the stores in the order in which they took effect,
each between the start and the end of its store; a store returns the value just before its
argument, no two the same one; and with no store in progress each value but the present one
was returned. -/
theorem run_linearizable {value : Option V} {address : Nat}
    (haddr : 0 < address ∧ address < 2 ^ 47)
    (hr : Reaches (Chosen step) Few ⟨make value address, fun _ => .ready⟩ c) :
    (∀ t began currPtr, c.threads t = .loadCopy began currPtr →
      currPtr.raw = c.shared.ptr.raw ∧ c.shared.cells currPtr.raw ≠ none) ∧
    (∀ l ∈ c.shared.loads, ∃ k, l.1 ≤ k ∧ k ≤ l.2.2 ∧ c.shared.history[k]? = some l.2.1) ∧
    c.shared.history = value :: c.shared.stored ∧
    (∀ p ∈ c.shared.returned, p.began ≤ p.replaced ∧ p.replaced < p.ended ∧
      c.shared.history[p.replaced]? = some p.oldValue ∧
      c.shared.history[p.replaced + 1]? = some p.newValue) ∧
    (c.shared.returned.map (·.replaced)).Nodup ∧
    ((∀ t, (c.threads t).storing = false) →
      (c.shared.stored : Multiset (Option V)) =
        (c.shared.returned.map (·.newValue) : List (Option V)) ∧
      (c.shared.history : Multiset (Option V)) =
        c.shared.value ::ₘ (c.shared.returned.map (·.oldValue) : List (Option V))) := by
  obtain ⟨hglob, hloc⟩ := reaches_accounting haddr hr
  refine ⟨?_, hglob.loads, hglob.stored, fun p hp => ?_, ?_, ?_⟩
  · intro t began currPtr ht
    have hl := hloc t
    rw [ht] at hl
    refine ⟨hl.2.2, ?_⟩
    have hraw := hl.2.2
    rw [hraw]
    exact hglob.present (hraw ▸ hl.2.1)
  · have htook := hglob.returned p hp
    exact ⟨htook.began, htook.ended,
      prefix_getElem? (List.prefix_append _ _) htook.oldValue, htook.newValue⟩
  · rw [List.nodup_iff_count_le_one]
    intro k
    have hk := hglob.replaced k
    split at hk
    · omega
    · omega
  · intro hidle
    have hnone : ∀ k, (total Pc.claims c).count (.replaced k) = 0 := by
      intro k
      rw [total, Multiset.count_sum']
      exact Finset.sum_eq_zero fun t _ => count_replaced_of_not_storing k (hidle t)
    refine ⟨hglob.settled hnone hglob.length_stored fun p hp => ?_, ?_⟩
    · have hnew := (hglob.returned p hp).newValue
      rwa [hglob.stored, List.getElem?_cons_succ] at hnew
    · have hold := hglob.settled hnone rfl fun p hp => (hglob.returned p hp).oldValue
      rw [history, ← Multiset.coe_add, hold, Multiset.coe_singleton, Multiset.add_comm,
        Multiset.singleton_add]

end Run

/-- Two stores, the second at the address of the cell the first has deleted, and two loads:
one counts itself while the first store waits for it, the other reads the pointer before the
second store and counts itself after. -/
def reuse : List (Fin 2 × Choice Nat) :=
  [(0, .load), (0, .go), (0, .go),
    (1, .store (some 20)), (1, .new 2), (1, .go), (1, .go),
    (0, .go), (0, .go), (0, .spurious), (0, .go), (0, .go),
    (1, .go), (1, .go), (1, .go), (1, .go), (1, .go), (1, .go),
    (0, .load), (0, .go),
    (1, .store (some 30)), (1, .new 1), (1, .go), (1, .go), (1, .go), (1, .go), (1, .go), (1, .go),
    (0, .go), (0, .go), (0, .go), (0, .go), (0, .go), (0, .go)]

theorem run_linearizable_reused : ∃ c : Config (AtomicSharedPtr Nat) (Pc Nat) (Fin 2),
    Reaches (Chosen step) Few ⟨make (some 10) 1, fun _ => .ready⟩ c ∧
    c.shared.loads.map (·.2.1) = [some 30, some 10] ∧
    (∀ l ∈ c.shared.loads, ∃ k, l.1 ≤ k ∧ k ≤ l.2.2 ∧ c.shared.history[k]? = some l.2.1) ∧
    c.shared.stored = [some 20, some 30] ∧
    c.shared.history = some 10 :: c.shared.stored ∧
    c.shared.returned.map (·.oldValue) = [some 20, some 10] ∧
    (∀ p ∈ c.shared.returned, p.began ≤ p.replaced ∧ p.replaced < p.ended ∧
      c.shared.history[p.replaced]? = some p.oldValue ∧
      c.shared.history[p.replaced + 1]? = some p.newValue) ∧
    (c.shared.history : Multiset (Option Nat)) =
      c.shared.value ::ₘ (c.shared.returned.map (·.oldValue) : List (Option Nat)) := by
  have hr : Reaches (Chosen step) Few _ (exec step
      (⟨make (some 10) 1, fun _ => .ready⟩ : Config (AtomicSharedPtr Nat) (Pc Nat) (Fin 2)) reuse) :=
    reaches_exec_guarded (by decide +kernel)
  obtain ⟨-, hloads, hhistory, hreturned, -, hsettled⟩ := run_linearizable ⟨by decide, by decide⟩ hr
  refine ⟨_, hr, by decide +kernel, hloads, by decide +kernel, hhistory, by decide +kernel,
    hreturned, (hsettled fun t => ?_).2⟩
  obtain rfl | rfl : t = 0 ∨ t = 1 := by omega
  · rfl
  · rfl

end HyperCache.HashSkip.AtomicSharedPtr
