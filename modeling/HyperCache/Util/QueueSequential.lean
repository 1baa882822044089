import HyperCache.Util.QueueProofs

/-! The bounded queue used by one thread, against a list.

Between calls the positions from `tail_` to `head_` are filled with the values held and the
rest of the lap is free (`Holds`). Push and pop then find the sequence number that tells a
full slot from a free one, except in a queue of one slot: there the slot filled for position
`pos` is also the one free for `pos + 1`, and a push into the full queue overwrites. So the
queue is a FIFO exactly where it has two slots or is never pushed to when full
(`agrees_iff`). -/
namespace HyperCache.Util.Queue

inductive Op (α : Type) where
  | push (value : α)
  | pop

/-- What a completed call returns. -/
inductive Answer (α : Type) where
  | pushed (succ : Bool)
  | popped (value : Option α)
  deriving DecidableEq

variable {α : Type}

def perform (q : Queue α) : Op α → Option (Answer α × Queue α)
  | .push value => (q.push value).map fun r => (.pushed r.1, r.2)
  | .pop => q.pop.map fun r => (.popped r.1, r.2)

/-- Calls in sequence, if they all complete. -/
def performAll (q : Queue α) : List (Op α) → Option (List (Answer α) × Queue α)
  | [] => some ([], q)
  | op :: ops => do
    let (answer, q) ← q.perform op
    let (answers, q) ← q.performAll ops
    return (answer :: answers, q)

/-! ### What the queue is for -/

namespace Bounded

/-- A FIFO of at most `n` values. -/
def perform (n : Nat) (held : List α) : Op α → Answer α × List α
  | .push value => if held.length = n then (.pushed false, held) else (.pushed true, held ++ [value])
  | .pop => (.popped held.head?, held.tail)

def performAll (n : Nat) (held : List α) : List (Op α) → List (Answer α) × List α
  | [] => ([], held)
  | op :: ops =>
    let (answer, held) := perform n held op
    let (answers, held) := performAll n held ops
    (answer :: answers, held)

/-- No push comes when the queue is full. -/
def NeverOverfull (n : Nat) (held : List α) : List (Op α) → Prop
  | [] => True
  | op :: ops => (held.length = n → ∀ value, op ≠ .push value) ∧ NeverOverfull n (perform n held op).2 ops

theorem NeverOverfull.shorter {n : Nat} {held : List α} {done ops : List (Op α)} (h : NeverOverfull n held ops)
    (hpre : done <+: ops) : NeverOverfull n held done := by
  induction done generalizing held ops with
  | nil => trivial
  | cons op done ih =>
    obtain ⟨rest, rfl⟩ := hpre
    exact ⟨h.1, ih h.2 (List.prefix_append done rest)⟩

end Bounded

/-! ### The queue between calls -/

/-- The queue holds these values, the oldest first. -/
structure Holds (n : Nat) (held : List α) (q : Queue α) : Prop where
  capicity : q.capicity = n
  le : held.length ≤ n
  head : q.head = q.tail + held.length
  filled : ∀ i (hi : i < held.length), q.node (q.tail + i) = ⟨q.tail + i + 1, held[i]⟩
  free : ∀ pos, q.head ≤ pos → pos < q.tail + n → (q.node pos).seq = pos

theorem make_holds [Inhabited α] (n : Nat) : Holds n [] (make n : Queue α) where
  capicity := rfl
  le := Nat.zero_le n
  head := rfl
  filled i hi := absurd hi (Nat.not_lt_zero i)
  free pos _ hpos := by
    have hlt : pos < n := by simpa [make] using hpos
    show pos % n = pos
    exact Nat.mod_eq_of_lt hlt

theorem push_of_seq {q : Queue α} (hseq : (q.node q.head).seq = q.head) (value : α) :
    q.push value = some (true, {q with head := q.head + 1}.setNode q.head ⟨q.head + 1, value⟩) := by
  simp only [Queue.push, hseq, Int.sub_self, if_true]

theorem pop_of_node {q : Queue α} {value : α} (hnode : q.node q.tail = ⟨q.tail + 1, value⟩) :
    q.pop = some (some value,
      {q with tail := q.tail + 1}.setNode q.tail ⟨q.tail + q.capicity, value⟩) := by
  simp only [Queue.pop, hnode, Int.sub_self, if_true]

section Step
variable {n : Nat} {held : List α} {q : Queue α} (h : Holds n held q)
include h

theorem Holds.size : q.size = held.length := by
  have := h.head
  simp only [Queue.size]
  split
  · omega
  · omega

/-- A push finds the slot of `head_` free. -/
theorem Holds.push (hroom : held.length < n) (value : α) :
    ∃ q', q.push value = some (true, q') ∧ Holds n (held ++ [value]) q' := by
  obtain ⟨rfl, hle, hhead, hfilled, hfree⟩ := h
  have hseq := hfree q.head (Nat.le_refl _) (by omega)
  refine ⟨_, push_of_seq hseq value, rfl, ?_, ?_, ?_, ?_⟩
  · rw [List.length_append, List.length_singleton]
    exact hroom
  · show q.head + 1 = q.tail + (held ++ [value]).length
    rw [List.length_append, List.length_singleton, hhead]
    omega
  · intro i hi
    rw [List.length_append, List.length_singleton] at hi
    show (({q with head := q.head + 1} : Queue α).setNode q.head _).node (q.tail + i) = _
    by_cases hlast : i = held.length
    · subst hlast
      rw [← hhead, setNode_node_self, List.getElem_append_right (Nat.le_refl _)]
      simpa using hhead
    · have hi' : i < held.length := by omega
      rw [setNode_node_of_ne _ _ (by omega) (by simp only; omega) (by simp only; omega),
        List.getElem_append_left hi']
      exact hfilled i hi'
  · intro pos hpos hlt
    have hpos : q.head + 1 ≤ pos := hpos
    have hlt : pos < q.tail + q.capicity := hlt
    show ((({q with head := q.head + 1} : Queue α).setNode q.head _).node pos).seq = pos
    rw [setNode_node_of_ne _ _ (by omega) (by simp only; omega) (by simp only; omega)]
    exact hfree pos (by omega) hlt

/-- A pop finds the slot of `tail_` filled with the oldest value. -/
theorem Holds.pop {value : α} {rest : List α} (hheld : held = value :: rest) :
    ∃ q', q.pop = some (some value, q') ∧ Holds n rest q' := by
  subst hheld
  obtain ⟨rfl, hle, hhead, hfilled, hfree⟩ := h
  rw [List.length_cons] at hle hhead
  have hnode : q.node q.tail = ⟨q.tail + 1, value⟩ := hfilled 0 (by simp)
  refine ⟨_, pop_of_node hnode, rfl, by omega, ?_, ?_, ?_⟩
  · show q.head = q.tail + 1 + rest.length
    omega
  · intro i hi
    show (({q with tail := q.tail + 1} : Queue α).setNode q.tail _).node (q.tail + 1 + i) =
      ⟨q.tail + 1 + i + 1, rest[i]⟩
    rw [setNode_node_of_ne _ _ (by omega) (by simp only; omega) (by simp only; omega),
      show q.tail + 1 + i = q.tail + (i + 1) by omega]
    exact hfilled (i + 1) (by simpa using hi)
  · intro pos hpos hlt
    have hpos : q.head ≤ pos := hpos
    have hlt : pos < q.tail + 1 + q.capicity := hlt
    show ((({q with tail := q.tail + 1} : Queue α).setNode q.tail _).node pos).seq = pos
    by_cases hlap : pos = q.tail + q.capicity
    · subst hlap
      have hself := node_add_capicity (({q with tail := q.tail + 1} : Queue α).setNode q.tail
        ⟨q.tail + q.capicity, value⟩) q.tail
      rw [setNode_node_self] at hself
      exact congrArg Node.seq hself
    · rw [setNode_node_of_ne _ _ (by omega) (by simp only; omega) (by simp only; omega)]
      exact hfree pos hpos (by omega)

theorem Holds.pop_empty (hn : 1 ≤ n) (hheld : held = []) : q.pop = some (none, q) := by
  subst hheld
  obtain ⟨rfl, -, hhead, -, hfree⟩ := h
  have hseq := hfree q.tail (by simpa using hhead.le) (by omega)
  have hdiff : ((q.tail : Int) - (q.tail + 1 : Nat)) < 0 := by omega
  simp only [Queue.pop, hseq, hdiff, if_true, hdiff.ne, if_false]

/-- The slot of `head_` in a full queue is that of the oldest value. -/
theorem Holds.seq_full (hn : 1 ≤ n) (hfull : held.length = n) : (q.node q.head).seq = q.tail + 1 := by
  obtain ⟨rfl, -, hhead, hfilled, -⟩ := h
  rw [hhead, hfull, node_add_capicity]
  exact congrArg Node.seq (hfilled 0 (by omega))

theorem Holds.push_full (hn : 2 ≤ n) (hfull : held.length = n) (value : α) :
    q.push value = some (false, q) := by
  have hseq := h.seq_full (by omega) hfull
  have hhead := h.head
  have hdiff : ((q.tail + 1 : Nat) - q.head : Int) < 0 := by omega
  simp only [Queue.push, hseq, hdiff, if_true, hdiff.ne, if_false]

/-- **In a queue of one slot a push overwrites.** -/
theorem Holds.push_overfull (hn : n = 1) (hfull : held.length = n) (value : α) :
    ∃ q', q.push value = some (true, q') := by
  have hseq := h.seq_full (by omega) hfull
  have hhead := h.head
  exact ⟨_, push_of_seq (by omega) value⟩

/-- **The step lemma**: a call answers as the bounded FIFO does, unless it is a push into the
one slot there is. -/
theorem Holds.perform (hn : 1 ≤ n) {op : Op α}
    (hop : 2 ≤ n ∨ (held.length = n → ∀ value, op ≠ .push value)) :
    ∃ q', q.perform op = some ((Bounded.perform n held op).1, q') ∧
      Holds n (Bounded.perform n held op).2 q' := by
  cases op with
  | push value =>
    by_cases hfull : held.length = n
    · have htwo : 2 ≤ n := hop.resolve_right fun hnot => hnot hfull value rfl
      refine ⟨q, ?_, ?_⟩
      · rw [Queue.perform, h.push_full htwo hfull, Bounded.perform, if_pos hfull]
        rfl
      · rw [Bounded.perform, if_pos hfull]
        exact h
    · obtain ⟨q', hpush, hq'⟩ := h.push (Nat.lt_of_le_of_ne h.le hfull) value
      refine ⟨q', ?_, ?_⟩
      · rw [Queue.perform, hpush, Bounded.perform, if_neg hfull]
        rfl
      · rw [Bounded.perform, if_neg hfull]
        exact hq'
  | pop =>
    cases hheld : held with
    | nil =>
      subst hheld
      refine ⟨q, ?_, h⟩
      rw [Queue.perform, h.pop_empty hn rfl]
      rfl
    | cons value rest =>
      obtain ⟨q', hpop, hq'⟩ := h.pop hheld
      refine ⟨q', ?_, hq'⟩
      rw [Queue.perform, hpop]
      rfl

/-- **The run lemma.** -/
theorem Holds.performAll (hn : 1 ≤ n) {ops : List (Op α)} (hops : 2 ≤ n ∨ Bounded.NeverOverfull n held ops) :
    ∃ q', q.performAll ops = some ((Bounded.performAll n held ops).1, q') ∧
      Holds n (Bounded.performAll n held ops).2 q' := by
  induction ops generalizing held q with
  | nil => exact ⟨q, rfl, h⟩
  | cons op ops ih =>
    obtain ⟨q₁, hop, h₁⟩ := h.perform hn (hops.imp_right And.left)
    obtain ⟨q₂, hrest, h₂⟩ := ih h₁ (hops.imp_right And.right)
    refine ⟨q₂, ?_, h₂⟩
    rw [Queue.performAll, hop]
    simp only [Option.bind_eq_bind, Option.bind_some, hrest]
    rfl

end Step

/-! ### Every sequence of calls -/

/-- A call moves `head_` and `tail_` by one at most, so no position exceeds the number of
calls. -/
theorem perform_positions {q q' : Queue α} {op : Op α} {answer : Answer α}
    (hrun : q.perform op = some (answer, q')) : q'.head ≤ q.head + 1 ∧ q'.tail ≤ q.tail + 1 := by
  cases op with
  | push value =>
    obtain ⟨⟨succ, q''⟩, hpush, heq⟩ := Option.map_eq_some_iff.mp hrun
    cases heq
    simp only [Queue.push] at hpush
    split at hpush
    · cases hpush
      exact ⟨Nat.le_refl _, Nat.le_succ _⟩
    split at hpush
    · cases hpush
      exact ⟨Nat.le_succ _, Nat.le_succ _⟩
    · cases hpush
  | pop =>
    obtain ⟨⟨value, q''⟩, hpop, heq⟩ := Option.map_eq_some_iff.mp hrun
    cases heq
    simp only [Queue.pop] at hpop
    split at hpop
    · cases hpop
      exact ⟨Nat.le_succ _, Nat.le_refl _⟩
    split at hpop
    · cases hpop
      exact ⟨Nat.le_succ _, Nat.le_succ _⟩
    · cases hpop

theorem performAll_positions {q q' : Queue α} {ops : List (Op α)} {answers : List (Answer α)}
    (hrun : q.performAll ops = some (answers, q')) :
    q'.head ≤ q.head + ops.length ∧ q'.tail ≤ q.tail + ops.length := by
  induction ops generalizing q answers with
  | nil =>
    cases hrun
    exact ⟨Nat.le_refl _, Nat.le_refl _⟩
  | cons op ops ih =>
    obtain ⟨⟨answer, q₁⟩, hop, hrun⟩ := Option.bind_eq_some_iff.mp hrun
    obtain ⟨⟨rest, q₂⟩, hrest, hrun⟩ := Option.bind_eq_some_iff.mp hrun
    cases hrun
    obtain ⟨hhead, htail⟩ := perform_positions hop
    obtain ⟨hhead', htail'⟩ := ih hrest
    rw [List.length_cons]
    omega

/-- Calls up to any one of them, where they complete, answer as the bounded FIFO of `n` values
does, and the size after them is the number of values it holds. -/
def AgreesFrom (n : Nat) (held : List α) (q : Queue α) (ops : List (Op α)) : Prop :=
  ∀ done, done <+: ops → ∀ answers q', q.performAll done = some (answers, q') →
    answers = (Bounded.performAll n held done).1 ∧ q'.size = (Bounded.performAll n held done).2.length

theorem Holds.agreesFrom_iff {n : Nat} {held : List α} {q : Queue α} (h : Holds n held q) (hn : 1 ≤ n)
    (ops : List (Op α)) : AgreesFrom n held q ops ↔ 2 ≤ n ∨ Bounded.NeverOverfull n held ops := by
  constructor
  · intro hagrees
    by_cases htwo : 2 ≤ n
    · exact .inl htwo
    right
    induction ops generalizing held q with
    | nil => trivial
    | cons op ops ih =>
      have hroom : held.length = n → ∀ value, op ≠ .push value := by
        rintro hfull value rfl
        -- the push into the one slot there is returns true
        obtain ⟨q', hpush⟩ := h.push_overfull (by omega) hfull value
        have hdone : q.performAll [.push value] = some ([.pushed true], q') := by
          rw [Queue.performAll, Queue.perform, hpush]
          rfl
        obtain ⟨hanswers, -⟩ := hagrees [.push value] ⟨ops, rfl⟩ _ _ hdone
        simp [Bounded.performAll, Bounded.perform, hfull] at hanswers
      obtain ⟨q₁, hop, h₁⟩ := h.perform hn (.inr hroom)
      refine ⟨hroom, ih h₁ fun done hpre answers q' hdone => ?_⟩
      have hall : q.performAll (op :: done) = some ((Bounded.perform n held op).1 :: answers, q') := by
        rw [Queue.performAll, hop]
        simp only [Option.bind_eq_bind, Option.bind_some, hdone]
        rfl
      obtain ⟨hanswers, hsize⟩ := hagrees (op :: done) (List.cons_prefix_cons.mpr ⟨rfl, hpre⟩) _ _ hall
      exact ⟨(List.cons.inj hanswers).2, hsize⟩
  · intro hcond done hpre answers q' hdone
    have hcond : 2 ≤ n ∨ Bounded.NeverOverfull n held done :=
      hcond.imp_right fun hnever => hnever.shorter hpre
    obtain ⟨q'', hall, hq⟩ := h.performAll hn hcond
    cases hdone.symm.trans hall
    exact ⟨rfl, hq.size⟩

/-- **When the queue is an exact FIFO**: a new queue of `n` slots answers every sequence of
calls as the bounded FIFO of `n` values does if and only if it has two slots or is never
pushed to when full. -/
theorem agrees_iff [Inhabited α] {n : Nat} (hn : 1 ≤ n) (ops : List (Op α)) :
    AgreesFrom n [] (make n : Queue α) ops ↔ 2 ≤ n ∨ Bounded.NeverOverfull n [] ops :=
  (make_holds n).agreesFrom_iff hn ops

/-- Two slots, pushed to when full and popped from when empty. -/
theorem agrees_two : AgreesFrom 2 [] (make 2 : Queue Nat)
    [.push 10, .push 20, .push 30, .pop, .push 40, .pop, .pop, .pop] :=
  (agrees_iff (by decide) _).mpr (.inl (Nat.le_refl 2))

/-- One slot: the second push returns true, and overwrites the first value. -/
theorem overwrites_one : ¬ AgreesFrom 1 [] (make 1 : Queue Nat) [.push 10, .push 20] := by
  intro h
  have hdone : ((make 1 : Queue Nat).performAll [.push 10, .push 20]).map Prod.fst =
      some [.pushed true, .pushed true] := by
    decide
  obtain ⟨⟨answers, q⟩, hrun, heq⟩ := Option.map_eq_some_iff.mp hdone
  obtain ⟨hanswers, -⟩ := h _ (List.prefix_refl _) answers q hrun
  exact absurd (heq.symm.trans hanswers) (by decide)

end HyperCache.Util.Queue
