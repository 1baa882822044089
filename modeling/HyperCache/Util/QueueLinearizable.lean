import HyperCache.Lib.BoundedFifo
import HyperCache.Util.QueueProofs

/-! The bounded queue as a linearizable FIFO.

`view` reads a configuration as one of the abstract queue of `Lib/BoundedFifo.lean`: the
values pushed, the positions popped, and the claims in flight. A push happens at its
compare-and-swap on `head_`, a pop at its own on `tail_`, and both end when they publish
their slot; every other access shows nothing. What remains are the answers `false`. A
call that finds the sequence number of its slot too small is at the end of the queue, and
the slot is either full (or empty) or still claimed by the call one lap (or one step)
before: then `Push` says that the queue is full and `Pop` that it is empty, though they
may not be. -/
namespace HyperCache.Util.Queue
open Interleaving Claim

variable {α : Type}

/-- The abstract queue's word for a position. -/
def phase : Pc α → BoundedFifo.Pc α
  | .ready => .ready
  | .pushLoadHead value | .pushLoadSeq value _ | .pushCas value _ => .pushing value
  | .pushWriteData _ pos | .pushStoreSeq pos => .placed pos
  | .pushReturn succ => .pushReturn succ
  | .popLoadTail | .popLoadSeq _ | .popCas _ => .popping
  | .popReadData pos | .popStoreSeq pos _ => .taken pos
  | .popReturn value => .popReturn value

/-- The memory as the abstract queue, with the claims `m` in flight. -/
def fifo (s : State α) (m : Multiset Claim) : BoundedFifo.State α where
  values := s.pushed
  popped := s.queue.tail
  filling := {k | writing k ∈ m}
  emptying := {k | reading k ∈ m ∨ resetting k ∈ m}

def view {ι : Type} [Fintype ι] (c : Config (State α) (Pc α) ι) :
    Config (BoundedFifo.State α) (BoundedFifo.Pc α) ι :=
  ⟨fifo c.shared (total claims c), fun t => phase (c.threads t)⟩

/-- What callers see of an access. -/
def event (l l' : Pc α) : Option (BoundedFifo.Event α) := BoundedFifo.event (phase l) (phase l')

/-! ### The answers `false` -/

section Answers
variable {s : State α} {m : Multiset Claim}

/-- The slot of a pushed position has not gone back. -/
theorem Global.le_seq (h : Global s m) {pos : Nat} (hpos : pos < s.queue.head) :
    pos ≤ (s.queue.node pos).seq ∧ (pos < s.queue.tail → pos + 1 ≤ (s.queue.node pos).seq) := by
  have htwo := h.two_le
  obtain ⟨n, hn, hlt, hmod⟩ := exists_window (show 0 < s.queue.capicity by omega) s.queue.head pos
  have hnode : s.queue.node pos = s.queue.node n := by simp only [node, hmod]
  -- the window is one lap ahead of everything before it
  have hlap : pos + s.queue.capicity ≤ n := by
    by_contra hnear
    exact absurd (pos_eq hmod (by omega) (by omega)) (by omega)
  rw [hnode]
  cases h.slot n hn hlt with
  | free hs _ _ => omega
  | filled k hk hs _ _ _ => omega
  | written k hk hs hw =>
    have := (h.writing k hw).1
    omega

/-- `Push` finds no slot: the ring is full, or the pop one lap before holds the slot. -/
theorem Global.push_false (h : Global s m) {pos : Nat} (hpos : pos ≤ s.queue.head)
    (hseq : (s.queue.node pos).seq < pos) : s.pushed.length = s.queue.tail + s.queue.capicity ∨
      ∃ k, (reading k ∈ m ∨ resetting k ∈ m) ∧ k + s.queue.capicity = s.pushed.length := by
  have htwo := h.two_le
  have hlap := h.head_le
  obtain rfl : pos = s.queue.head := by
    by_contra hne
    have := (h.le_seq (show pos < s.queue.head by omega)).1
    omega
  rw [h.length]
  cases h.slot s.queue.head (Nat.le_refl _) (by omega) with
  | free hs _ _ => omega
  | filled k hk hs _ _ hpend =>
    rcases hpend with htail | hpop
    · exact .inl (by omega)
    · exact .inr ⟨k, hpop, hk⟩
  | written k hk hs hw =>
    have := (h.writing k hw).1
    exact .inl (by omega)

/-- `Pop` finds no value: none is left, or the push of the next one holds the slot. -/
theorem Global.pop_none (h : Global s m) {pos : Nat} (hpos : pos ≤ s.queue.tail)
    (hseq : (s.queue.node pos).seq < pos + 1) :
    s.queue.tail = s.pushed.length ∨ Claim.writing s.queue.tail ∈ m := by
  have hle := h.tail_le
  obtain rfl : pos = s.queue.tail := by
    by_contra hne
    have := (h.le_seq (show pos < s.queue.head by omega)).2 (by omega)
    omega
  rw [h.length]
  by_cases hempty : s.queue.tail = s.queue.head
  · exact .inl hempty
  · refine .inr ?_
    have hlap := h.head_le
    have htwo := h.two_le
    cases h.slot_of_lap (k := s.queue.tail) (by omega) hlap with
    | free _ hroom _ => omega
    | filled k hk hs _ _ _ =>
      rw [node_add_capicity] at hs
      omega
    | written k hk _ hw =>
      obtain rfl : k = s.queue.tail := by omega
      exact hw

end Answers

/-! ### One access -/

section Access
variable {s s' : State α} {l l' : Pc α} {r : Multiset Claim}

theorem fifo_claimPush (hlen : s.pushed.length = s.queue.head) (value : α) :
    fifo {s with queue := {s.queue with head := s.queue.head + 1}, pushed := s.pushed ++ [value]}
        (writing s.queue.head ::ₘ r) =
      {fifo s r with
        values := s.pushed ++ [value], filling := insert s.pushed.length (fifo s r).filling} := by
  rw [fifo, fifo, BoundedFifo.State.mk.injEq]
  refine ⟨rfl, rfl, Set.ext fun k => ?_, Set.ext fun k => ?_⟩
  · simp [hlen]
  · simp

theorem fifo_claimPop (s : State α) (r : Multiset Claim) :
    fifo {s with queue := {s.queue with tail := s.queue.tail + 1}} (reading s.queue.tail ::ₘ r) =
      {fifo s r with
        popped := s.queue.tail + 1, emptying := insert s.queue.tail (fifo s r).emptying} := by
  rw [fifo, fifo, BoundedFifo.State.mk.injEq]
  refine ⟨rfl, rfl, Set.ext fun k => ?_, Set.ext fun k => ?_⟩
  · simp
  · simp [or_assoc]

theorem fifo_publish (s : State α) {pos : Nat} (hfresh : writing pos ∉ r) :
    {fifo s (writing pos ::ₘ r) with filling := (fifo s (writing pos ::ₘ r)).filling \ {pos}} =
      fifo s r := by
  rw [fifo, fifo, BoundedFifo.State.mk.injEq]
  refine ⟨rfl, rfl, Set.ext fun k => ?_, Set.ext fun k => ?_⟩
  · by_cases hk : k = pos
    · simp [hk, hfresh]
    · simp [hk]
  · simp

theorem fifo_readData (s : State α) (pos : Nat) (r : Multiset Claim) :
    fifo s (resetting pos ::ₘ r) = fifo s (reading pos ::ₘ r) := by
  rw [fifo, fifo, BoundedFifo.State.mk.injEq]
  refine ⟨rfl, rfl, Set.ext fun k => ?_, Set.ext fun k => ?_⟩
  · simp
  · simp [or_assoc, or_left_comm]

theorem fifo_reset (s : State α) {pos : Nat} (hread : reading pos ∉ r)
    (hreset : resetting pos ∉ r) :
    {fifo s (resetting pos ::ₘ r) with
      emptying := (fifo s (resetting pos ::ₘ r)).emptying \ {pos}} = fifo s r := by
  rw [fifo, fifo, BoundedFifo.State.mk.injEq]
  refine ⟨rfl, rfl, Set.ext fun k => ?_, Set.ext fun k => ?_⟩
  · simp
  · by_cases hk : k = pos
    · simp [hk, hread, hreset]
    · simp [hk]

/-- One access is one step of the abstract queue or none. -/
theorem access_fifo (hk : Knows s l) (hs : Access s l s' l') (h : Global s (claims l + r)) :
    BoundedFifo.Step s.queue.capicity True (fifo s (claims l + r)) (phase l)
        (fifo s' (claims l' + r)) (phase l') ∨
      phase l' = phase l ∧ fifo s' (claims l' + r) = fifo s (claims l + r) := by
  obtain ⟨c, hs⟩ := hs
  cases l with
  | ready | pushReturn | popReturn =>
    obtain ⟨rfl, rfl⟩ := Prod.mk.inj hs
    cases c with
    | push value => exact .inl (.push value rfl)
    | pop => exact .inl (.pop rfl)
    | go | spurious => exact .inr ⟨rfl, rfl⟩
  | pushLoadHead value | popLoadTail =>
    obtain ⟨rfl, rfl⟩ := Prod.mk.inj hs
    exact .inr ⟨rfl, rfl⟩
  | pushLoadSeq value pos =>
    simp only [step] at hs
    split at hs
    · obtain ⟨rfl, rfl⟩ := Prod.mk.inj hs
      exact .inr ⟨rfl, rfl⟩
    · split at hs
      · obtain ⟨rfl, rfl⟩ := Prod.mk.inj hs
        refine .inl (.refuse value ?_)
        rcases h.push_false hk (by omega) with hfull | ⟨k, hpop, hlap⟩
        · exact .inl hfull
        · exact .inr ⟨trivial, k, hpop, hlap⟩
      · obtain ⟨rfl, rfl⟩ := Prod.mk.inj hs
        exact .inr ⟨rfl, rfl⟩
  | popLoadSeq pos =>
    simp only [step] at hs
    split at hs
    · obtain ⟨rfl, rfl⟩ := Prod.mk.inj hs
      exact .inr ⟨rfl, rfl⟩
    · split at hs
      · obtain ⟨rfl, rfl⟩ := Prod.mk.inj hs
        exact .inl (.giveUp ((h.pop_none hk (by omega)).imp_right fun hw => ⟨trivial, hw⟩))
      · obtain ⟨rfl, rfl⟩ := Prod.mk.inj hs
        exact .inr ⟨rfl, rfl⟩
  | pushCas value pos =>
    simp only [step] at hs
    split at hs
    case isTrue hcas =>
      obtain ⟨rfl, -⟩ := hcas
      obtain ⟨rfl, rfl⟩ := Prod.mk.inj hs
      simp only [claims, zero_add, Multiset.singleton_add] at h ⊢
      have hroom := h.room hk
      rw [← h.length] at hroom
      refine .inl ?_
      rw [fifo_claimPush h.length]
      show BoundedFifo.Step _ _ _ (.pushing value) _ (.placed s.queue.head)
      rw [← h.length]
      exact .place value hroom
    case isFalse =>
      obtain ⟨rfl, rfl⟩ := Prod.mk.inj hs
      exact .inr ⟨rfl, rfl⟩
  | popCas pos =>
    simp only [step] at hs
    split at hs
    case isTrue hcas =>
      obtain ⟨rfl, -⟩ := hcas
      obtain ⟨rfl, rfl⟩ := Prod.mk.inj hs
      simp only [claims, zero_add, Multiset.singleton_add] at h ⊢
      have hsome := h.nonempty hk
      rw [← h.length] at hsome
      refine .inl ?_
      rw [fifo_claimPop]
      exact .take hsome
    case isFalse =>
      obtain ⟨rfl, rfl⟩ := Prod.mk.inj hs
      exact .inr ⟨rfl, rfl⟩
  | pushWriteData value pos =>
    obtain ⟨rfl, rfl⟩ := Prod.mk.inj hs
    exact .inr ⟨rfl, rfl⟩
  | pushStoreSeq pos =>
    obtain ⟨rfl, rfl⟩ := Prod.mk.inj hs
    simp only [claims, Multiset.singleton_add, zero_add] at h ⊢
    have hdone := fifo_publish s (Multiset.nodup_cons.mp h.nodup).1
    exact .inl (hdone ▸ .finishPush pos)
  | popReadData pos =>
    obtain ⟨rfl, rfl⟩ := Prod.mk.inj hs
    simp only [claims, Multiset.singleton_add] at h ⊢
    exact .inr ⟨rfl, fifo_readData s pos r⟩
  | popStoreSeq pos value =>
    obtain ⟨rfl, rfl⟩ := Prod.mk.inj hs
    simp only [claims, Multiset.singleton_add, zero_add] at h ⊢
    have hread : reading pos ∉ r := fun hm =>
      h.exclusive pos (Multiset.mem_cons_of_mem hm) (Multiset.mem_cons_self _ _)
    have hdone := fifo_reset s hread (Multiset.nodup_cons.mp h.nodup).1
    exact .inl (hdone ▸ .finishPop pos value (h.delivered pos value hk).2.2)

end Access

/-! ### Every interleaving -/

section Run
variable {ι : Type} [Fintype ι] [DecidableEq ι] {capicity : Nat}

theorem view_set (c : Config (State α) (Pc α) ι) (t : ι) (s : State α) (l : Pc α) :
    view (c.set t s l) = (view c).set t (fifo s (claims l + others claims c t)) (phase l) := by
  rw [view, total_set]
  refine congrArg (Config.mk _) (funext fun u => ?_)
  by_cases hu : u = t
  · subst hu
    rw [Config.set_threads_self, Function.update_self]
  · rw [Config.set_threads_of_ne _ _ _ hu, Function.update_of_ne hu]
    rfl

/-- One access of a reachable configuration is one step of the same thread of the abstract
queue, or none. -/
theorem access_simulates {c : Config (State α) (Pc α) ι} (hacc : Accounting claims Global Knows c)
    (hcap : c.shared.queue.capicity = capicity) {t : ι} {s : State α} {l : Pc α}
    (hs : Access c.shared (c.threads t) s l) :
    Simulates event (BoundedFifo.Step capicity True) BoundedFifo.event view c t s l := by
  have hglob := hacc.glob
  rw [total_eq claims c t] at hglob
  have hfifo : (view c).shared = fifo c.shared (claims (c.threads t) + others claims c t) :=
    congrArg (fifo c.shared) (total_eq claims c t)
  rcases access_fifo (hacc.loc t) hs hglob with hstep | ⟨hphase, hsame⟩
  · rw [hcap, ← hfifo] at hstep
    exact .move _ _ hstep rfl (view_set c t s l)
  · refine .stay ?_ ?_
    · rw [event, hphase, BoundedFifo.event_self]
    · rw [view_set, hphase, hsame, ← hfifo]
      exact congrArg (Config.mk _) (Function.update_eq_self t _)

variable [Inhabited α]

/-- **Whatever the interleaving, the queue is a bounded FIFO**: what its callers see is what
they may see of the abstract queue on which each call happens in one step, but that a call
may also give up on a position that another call still holds; and each position belongs to
one push and one pop, which delivers what that push wrote. -/
theorem trace_linearizable (h : 2 ≤ capicity) {es : List (ι × BoundedFifo.Event α)}
    {c : Config (State α) (Pc α) ι} (ht : Trace Access event (start ι capicity) es c) :
    Fifo capicity c ∧ Trace (BoundedFifo.Step capicity True) BoundedFifo.event
      (BoundedFifo.start α ι) es (view c) := by
  refine ⟨reaches_fifo h ht.reaches, ?_⟩
  have hstart : view (start (α := α) ι capicity) = BoundedFifo.start α ι := by
    simp [view, start, make, BoundedFifo.start, fifo, total, claims, phase]
  rw [← hstart]
  refine ht.simulate (P := Reaches Access anyStep (start ι capicity)) ?_ ?_ .refl
  · exact fun c t s l hr hs => access_simulates (accounts h hr) (capicity_reaches hr) hs
  · exact fun c t s l hr hs => hr.tail ⟨t, s, l, trivial, hs, rfl⟩

end Run

/-- A push that has claimed position 0 and not written yet, another that is done with
position 1, and then a pop. -/
def overtaken : List (Fin 3 × Choice Nat) :=
  [(0, .push 10), (0, .go), (0, .go), (0, .go),
    (1, .push 20), (1, .go), (1, .go), (1, .go), (1, .go), (1, .go),
    (2, .pop), (2, .go), (2, .go)]

/-- What the callers see: a pop that begins after a push has ended finds nothing. -/
theorem showing_overtaken : showing step event (start (Fin 3) 2) overtaken =
    [(0, .push 10), (1, .push 20), (1, .pushed true), (2, .pop), (2, .popped none)] := rfl

theorem trace_linearizable_overtaken :
    Fifo 2 (exec step (start (α := Nat) (Fin 3) 2) overtaken) ∧
    Trace (BoundedFifo.Step 2 True) BoundedFifo.event (BoundedFifo.start Nat (Fin 3))
      [(0, .push 10), (1, .push 20), (1, .pushed true), (2, .pop), (2, .popped none)]
      (view (exec step (start (α := Nat) (Fin 3) 2) overtaken)) :=
  trace_linearizable (by decide)
    (showing_overtaken ▸ trace_exec step event (start (Fin 3) 2) overtaken)

/-- Without calls that give up on others the queue is not a linearizable FIFO. -/
theorem not_linearizable : ¬ ∀ es c, Trace Access event (start (α := Nat) (Fin 3) 2) es c →
    Fifo 2 c ∧ ∃ a, Trace (BoundedFifo.Step 2 False) BoundedFifo.event
      (BoundedFifo.start Nat (Fin 3)) es a := by
  intro h
  obtain ⟨-, a, ha⟩ := h _ _ (trace_exec step event (start (Fin 3) 2) overtaken)
  rw [showing_overtaken] at ha
  have hlast : Trace (BoundedFifo.Step 2 False) BoundedFifo.event (BoundedFifo.start Nat (Fin 3))
      ([(0, .push 10), (1, .push 20), (1, .pushed true), (2, .pop)] ++ [(2, .popped none)]) a := ha
  obtain ⟨x, hx⟩ := BoundedFifo.popped_of_pushed (u := 1) hlast (by simp) (by simp)
  simp at hx

end HyperCache.Util.Queue
