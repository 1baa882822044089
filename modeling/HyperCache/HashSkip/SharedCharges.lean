import HyperCache.HashSkip.Capacity
import HyperCache.HashSkip.Handles

/-! What concurrent insertions add to `memory_used_`.

`HashSkipCache::Insert` adds the charge it has stored, and subtracts the one it was given back,
after `AtomicSkipList::Insert` has returned. So as long as no link at level 0 fails,
`memory_used_` lags behind the list by the handles of the calls that have linked a node and not
returned, and is exact when there are none (`reaches_memory`). -/
namespace HyperCache.HashSkip.SharedSkipList
open AtomicSkipList Interleaving
open HashSkipCache (charge)

/-- What the calls that have returned have added to `memory_used_`. -/
def memoryUsed (s : SharedSkipList) : Int :=
  (s.answers.map fun p => (charge (s.given p.1) - charge p.2).toInt).sum

/-- The charge of all handles in the list. -/
def held (s : SharedSkipList) : Int :=
  ((s.list.nodes ++ [tail]).map fun a => (charge (s.list.node a).handle).toInt).sum

/-- The `Insert` that has linked its node and has not returned. -/
def Pc.linked : Pc → Option Nat
  | .insertUpper i .. | .insertSearch i .. | .insertCount i => some i.call
  | _ => none

/-- The charge of a call's handle. -/
def passedCharge (s : SharedSkipList) (i : Nat) : Int := (charge (s.given i)).toInt

/-- What `memory_used_` has not got yet from a thread. -/
def pending (s : SharedSkipList) (pc : Pc) : Int := (pc.linked.map s.passedCharge).getD 0

/-! ### Debts by their charges -/

def Debt.placing? : Debt → Option Nat
  | .placing i => some i
  | .answering _ => none

def Debt.answering? : Debt → Option Nat
  | .placing _ => none
  | .answering i => some i

/-- A call whose handle is placed, but which has not returned, counts. -/
def Debt.weight (f : Nat → Int) : Debt → Int
  | .placing i => -f i
  | .answering i => f i

section Debts
variable {f : Nat → Int} {d : Multiset Debt} {i : Nat}

theorem count_placing : (d.filterMap Debt.placing?).count i = d.count (.placing i) := by
  induction d using Multiset.induction_on with
  | empty => rfl
  | cons x d ih =>
    cases x with
    | placing j =>
      rw [Multiset.filterMap_cons_some Debt.placing? _ d rfl, Multiset.count_cons, Multiset.count_cons, ih]
      simp only [Debt.placing.injEq]
    | answering j =>
      rw [Multiset.filterMap_cons_none _ d rfl, ih, Multiset.count_cons_of_ne]
      intro heq
      cases heq

theorem count_answering : (d.filterMap Debt.answering?).count i = d.count (.answering i) := by
  induction d using Multiset.induction_on with
  | empty => rfl
  | cons x d ih =>
    cases x with
    | placing j =>
      rw [Multiset.filterMap_cons_none _ d rfl, ih, Multiset.count_cons_of_ne]
      intro heq
      cases heq
    | answering j =>
      rw [Multiset.filterMap_cons_some Debt.answering? _ d rfl, Multiset.count_cons, Multiset.count_cons, ih]
      simp only [Debt.answering.injEq]

theorem sum_weight : (d.map (Debt.weight f)).sum =
    ((d.filterMap Debt.answering?).map f).sum - ((d.filterMap Debt.placing?).map f).sum := by
  induction d using Multiset.induction_on with
  | empty => rfl
  | cons x d ih =>
    rw [Multiset.map_cons, Multiset.sum_cons, ih]
    cases x with
    | placing j =>
      rw [Multiset.filterMap_cons_none (f := Debt.answering?) _ d rfl,
        Multiset.filterMap_cons_some Debt.placing? _ d rfl, Multiset.map_cons, Multiset.sum_cons, Debt.weight]
      omega
    | answering j =>
      rw [Multiset.filterMap_cons_none (f := Debt.placing?) _ d rfl,
        Multiset.filterMap_cons_some Debt.answering? _ d rfl, Multiset.map_cons, Multiset.sum_cons, Debt.weight]
      omega

end Debts

/-! ### The books -/

theorem sum_filterMap {α β : Type*} (xs : List α) (g : α → Option β) (f : β → Int) :
    ((xs.filterMap g).map f).sum = (xs.map fun x => ((g x).map f).getD 0).sum := by
  induction xs with
  | nil => rfl
  | cons x xs ih =>
    rw [List.filterMap_cons, List.map_cons, List.sum_cons, ← ih]
    cases g x with
    | none => exact (Int.zero_add _).symm
    | some y => rfl

section Ledger
variable {s : SharedSkipList} {cur old : Nat → Option Nat} {d : Multiset Debt} {i : Nat}

theorem given_positive (hpos : ∀ p ∈ s.passed, ∀ x ∈ p.2, 0 < x.charge) (i : Nat) :
    ∀ x ∈ s.given i, 0 < x.charge := by
  intro x hx
  obtain ⟨p, hp, hpx⟩ := Option.bind_eq_some_iff.mp hx
  exact hpos p (List.mem_of_getElem? hp) x hpx

/-- Every call has returned or is to return. -/
theorem Ledger.answers_eq (h : Ledger s cur old d) :
    ((s.answers.map Prod.fst : List Nat) : Multiset Nat) + d.filterMap Debt.answering? =
      Multiset.range s.passed.length := by
  ext i
  rw [Multiset.count_add, count_answering, Multiset.coe_count, h.answered,
    Multiset.count_eq_of_nodup (Multiset.nodup_range _)]
  simp only [Multiset.mem_range]

/-- Every handle is with a node, returned, or to be placed. -/
theorem Ledger.places_eq (h : Ledger s cur old d) :
    (((s.list.nodes ++ [tail]).filterMap cur : List Nat) : Multiset Nat) +
        (((s.answers.map Prod.fst).filterMap old : List Nat) : Multiset Nat) + d.filterMap Debt.placing? =
      Multiset.range s.passed.length := by
  ext i
  rw [Multiset.count_add, Multiset.count_add, count_placing, Multiset.coe_count, Multiset.coe_count, h.placed,
    Multiset.count_eq_of_nodup (Multiset.nodup_range _)]
  simp only [Multiset.mem_range]

/-- The nodes have the handles of their calls. -/
theorem Ledger.held_eq (h : Ledger s cur old d) :
    s.held = (((s.list.nodes ++ [tail]).filterMap cur).map s.passedCharge).sum := by
  rw [sum_filterMap, held]
  refine congrArg List.sum (List.map_congr_left fun a ha => ?_)
  cases hcur : cur a with
  | none =>
    rw [h.empty a ha hcur]
    rfl
  | some i =>
    have hgiven : s.given i = (s.list.node a).handle := by rw [given, h.current a ha i hcur, Option.bind_some]
    rw [Option.map_some, Option.getD_some, passedCharge, hgiven]

/-- A call adds its charge, less that of the handle it was given back. -/
theorem Ledger.memoryUsed_eq (h : Ledger s cur old d) (hpos : ∀ p ∈ s.passed, ∀ x ∈ p.2, 0 < x.charge) :
    s.memoryUsed = ((s.answers.map Prod.fst).map s.passedCharge).sum -
      (((s.answers.map Prod.fst).filterMap old).map s.passedCharge).sum := by
  rw [sum_filterMap, List.map_map, List.map_map, memoryUsed, ← Multiset.sum_coe, ← Multiset.sum_coe,
    ← Multiset.sum_coe, ← Multiset.map_coe, ← Multiset.map_coe, ← Multiset.map_coe, ← Multiset.sum_map_sub]
  refine congrArg Multiset.sum (Multiset.map_congr rfl fun p hp => ?_)
  have hold : ∀ x ∈ p.2, 0 < x.charge := by
    intro x hx
    rw [h.returned p hp] at hx
    obtain ⟨i, -, hi⟩ := Option.bind_eq_some_iff.mp hx
    exact given_positive hpos i x hi
  rw [(HashSkipCache.toInt_charge_sub (given_positive hpos p.1) hold).1, h.returned p hp]
  show s.passedCharge p.1 - _ = s.passedCharge p.1 - ((old p.1).map s.passedCharge).getD 0
  cases old p.1 with
  | none => rfl
  | some i => rfl

/-- **The books balance**: with what the debts weigh. -/
theorem Ledger.balance (h : Ledger s cur old d) (hpos : ∀ p ∈ s.passed, ∀ x ∈ p.2, 0 < x.charge) :
    s.memoryUsed + (d.map (Debt.weight s.passedCharge)).sum = s.held := by
  have hanswers := congrArg (fun m => (m.map s.passedCharge).sum) h.answers_eq
  have hplaces := congrArg (fun m => (m.map s.passedCharge).sum) h.places_eq
  simp only [Multiset.map_add, Multiset.sum_add, Multiset.map_coe, Multiset.sum_coe] at hanswers hplaces
  rw [sum_weight, h.held_eq, h.memoryUsed_eq hpos]
  omega

end Ledger

theorem debts_weight (s : SharedSkipList) (pc : Pc) :
    (pc.debts.map (Debt.weight s.passedCharge)).sum = s.pending pc := by
  cases pc with
  | insertFind i | insertUpdate i | insertNew i | insertStore i | insertLink i =>
    rw [Pc.debts, Multiset.map_add, Multiset.sum_add, Multiset.map_singleton, Multiset.map_singleton,
      Multiset.sum_singleton, Multiset.sum_singleton]
    exact Int.add_left_neg _
  | insertUpper i | insertSearch i | insertCount i =>
    rw [Pc.debts, Multiset.map_singleton, Multiset.sum_singleton]
    rfl
  | _ => rfl

section Run
variable {ι : Type*} [Fintype ι] [DecidableEq ι] {c : Config SharedSkipList Pc ι}

/-- **`memory_used_` is exact** but for the calls that have linked a node and not returned: in
every interleaving of insertions of handles with positive charges, while no link at level 0 fails. -/
theorem reaches_memory (hr : Reaches Giving Unbeaten initial c)
    (hpos : ∀ p ∈ c.shared.passed, ∀ x ∈ p.2, 0 < x.charge) :
    c.shared.memoryUsed + ∑ t, c.shared.pending (c.threads t) = c.shared.held ∧
      ((∀ t, (c.threads t).inserting = false) → c.shared.memoryUsed = c.shared.held) := by
  obtain ⟨cur, old, hledger⟩ := (accounted_of_reaches hr).ledger
  have hbalance := hledger.balance hpos
  have hweight : ((total Pc.debts c).map (Debt.weight c.shared.passedCharge)).sum =
      ∑ t, c.shared.pending (c.threads t) := by
    have hsum := map_sum (Multiset.sumAddMonoidHom.comp (Multiset.mapAddMonoidHom
      (Debt.weight c.shared.passedCharge))) (fun t => (c.threads t).debts) Finset.univ
    exact hsum.trans (Finset.sum_congr rfl fun t _ => debts_weight c.shared (c.threads t))
  rw [hweight] at hbalance
  refine ⟨hbalance, fun hidle => ?_⟩
  have hzero : ∑ t, c.shared.pending (c.threads t) = 0 := by
    refine Finset.sum_eq_zero fun t _ => ?_
    have ht := hidle t
    generalize c.threads t = pc at ht
    cases pc <;> first | rfl | cases ht
  rw [hzero, Int.add_zero] at hbalance
  exact hbalance

/-- A handle is replaced before the call that placed it has returned. -/
theorem reaches_memory_replaced : ∃ c : Config SharedSkipList Pc (Fin 2),
    Reaches Giving Unbeaten initial c ∧ c.shared.passed = [(7, some ⟨0, 1⟩), (7, some ⟨1, 1⟩)] ∧
    c.shared.memoryUsed + ∑ t, c.shared.pending (c.threads t) = c.shared.held ∧
      c.shared.memoryUsed = c.shared.held := by
  have hr : Reaches Giving Unbeaten initial (exec (fun c => step c.1) initial replaced) :=
    reaches_exec_guarded (by decide +kernel)
  have hpassed : (exec (fun c => step c.1) (initial : Config SharedSkipList Pc (Fin 2)) replaced).shared.passed =
      [(7, some ⟨0, 1⟩), (7, some ⟨1, 1⟩)] := by
    decide +kernel
  obtain ⟨hbalance, hexact⟩ := reaches_memory hr (by rw [hpassed]; decide)
  exact ⟨_, hr, hpassed, hbalance, hexact (by decide +kernel)⟩

end Run

end HyperCache.HashSkip.SharedSkipList
