import HyperCache.Lib.Trace
import Mathlib.Data.Set.Insert

/-! A bounded FIFO shared by several threads.

`values` are all values ever put in, in order, and the first `popped` of them have been
taken out; at most `capacity` are inside. A push puts its value in, or answers that the
queue is full, in one step between its beginning and its end, and so does a pop. A
concurrent object whose traces are all traces of this one is a linearizable bounded
FIFO.

With `hasty` the calls may also give up on each other: a push whose place is that of a
value that a pop has taken and not finished with, and a pop whose value was put in by a
push that has not finished. Everything else is the same. -/
namespace BoundedFifo
open Interleaving

variable {α : Type*}

/-- The queue, and the positions whose push or pop has happened and not ended. -/
structure State (α : Type*) where
  values : List α
  popped : Nat
  filling : Set Nat
  emptying : Set Nat

/-- Where a thread stands. -/
inductive Pc (α : Type*) where
  | ready
  | pushing (value : α)
  | placed (pos : Nat)
  | pushReturn (succ : Bool)
  | popping
  | taken (pos : Nat)
  | popReturn (value : Option α)

/-- A call begins, or ends with an answer. -/
inductive Event (α : Type*) where
  | push (value : α)
  | pushed (succ : Bool)
  | pop
  | popped (value : Option α)

/-- Outside any call. -/
def Pc.outside : Pc α → Bool
  | .ready | .pushReturn _ | .popReturn _ => true
  | _ => false

def event (l l' : Pc α) : Option (Event α) :=
  match l.outside, l' with
  | true, .pushing value => some (.push value)
  | true, .popping => some .pop
  | false, .pushReturn succ => some (.pushed succ)
  | false, .popReturn value => some (.popped value)
  | _, _ => none

theorem event_self (l : Pc α) : event l l = none := by
  cases l <;> rfl

/-- One step. -/
inductive Step (capacity : Nat) (hasty : Prop) (s : State α) : Pc α → State α → Pc α → Prop
  | push {l : Pc α} (value : α) (out : l.outside = true) :
      Step capacity hasty s l s (.pushing value)
  | place (value : α) (room : s.values.length < s.popped + capacity) :
      Step capacity hasty s (.pushing value)
        {s with values := s.values ++ [value], filling := insert s.values.length s.filling}
        (.placed s.values.length)
  | refuse (value : α) (full : s.values.length = s.popped + capacity ∨
        hasty ∧ ∃ k ∈ s.emptying, k + capacity = s.values.length) :
      Step capacity hasty s (.pushing value) s (.pushReturn false)
  | finishPush (pos : Nat) :
      Step capacity hasty s (.placed pos) {s with filling := s.filling \ {pos}} (.pushReturn true)
  | pop {l : Pc α} (out : l.outside = true) : Step capacity hasty s l s .popping
  | take (left : s.popped < s.values.length) :
      Step capacity hasty s .popping
        {s with popped := s.popped + 1, emptying := insert s.popped s.emptying} (.taken s.popped)
  | giveUp (empty : s.popped = s.values.length ∨ hasty ∧ s.popped ∈ s.filling) :
      Step capacity hasty s .popping s (.popReturn none)
  | finishPop (pos : Nat) (value : α) (hvalue : s.values[pos]? = some value) :
      Step capacity hasty s (.taken pos) {s with emptying := s.emptying \ {pos}}
        (.popReturn (some value))

/-- An empty queue, and threads outside any call. -/
def start (α ι : Type*) : Config (State α) (Pc α) ι := ⟨⟨[], 0, ∅, ∅⟩, fun _ => .ready⟩

/-! ### A pop that finds nothing

If no call gives up on another, a pop that begins after a push has ended finds the value
of that push or an earlier one, as long as nothing has been taken out. -/

section Empty
variable {capacity : Nat} {s s' : State α} {l l' : Pc α}

theorem Step.length_le {hasty : Prop} (h : Step capacity hasty s l s' l') :
    s.values.length ≤ s'.values.length := by
  cases h with
  | place value => simp
  | _ => exact Nat.le_refl _

/-- A push that has put its value in is at a position of the queue. -/
theorem Step.placed_lt {hasty : Prop} {n : Nat} (h : Step capacity hasty s l s' (.placed n)) :
    n < s'.values.length := by
  cases h with
  | place value => simp

/-- Only a push that has put its value in answers that it did. -/
theorem Step.of_pushed {hasty : Prop} (h : Step capacity hasty s l s' l')
    (he : event l l' = some (.pushed true)) : ∃ n, l = .placed n := by
  cases h with
  | finishPush pos => exact ⟨pos, rfl⟩
  | push value out | pop out => simp [event, out] at he
  | _ => simp [event, Pc.outside] at he

/-- Only a pop that begins shows one, and nothing else leads to taking a value. -/
theorem Step.to_popping {hasty : Prop} (h : Step capacity hasty s l s' l')
    (hl : l' = .popping ∨ ∃ n, l' = .taken n) :
    event l l' = some .pop ∨ l = .popping := by
  cases h with
  | pop out => exact .inl (by simp [event, out])
  | take left => exact .inr rfl
  | _ => simp at hl

/-- A value is taken out by a pop, which is then at its position. -/
theorem Step.popped_eq {hasty : Prop} (h : Step capacity hasty s l s' l') :
    s'.popped = s.popped ∨ l = .popping ∧ ∃ n, l' = .taken n := by
  cases h with
  | take left => exact .inr ⟨rfl, _, rfl⟩
  | _ => exact .inl rfl

/-- A pop that has taken a value ends with a value. -/
theorem Step.of_taken {hasty : Prop} {n : Nat} (h : Step capacity hasty s (.taken n) s' l') :
    ∃ x, event (.taken n) l' = some (.popped (some x)) := by
  cases h with
  | finishPop pos value hvalue => exact ⟨value, rfl⟩
  | push value out | pop out => simp [Pc.outside] at out

variable {ι : Type*} [DecidableEq ι] {es : List (ι × Event α)} {c : Config (State α) (Pc α) ι}
  {t u : ι}

/-- What the events say about the queue when `t` is the only thread that pops. -/
structure Alone (t : ι) (es : List (ι × Event α)) (c : Config (State α) (Pc α) ι) : Prop where
  placed : ∀ u n, c.threads u = .placed n → n < c.shared.values.length
  pushed : ∀ u, (u, .pushed true) ∈ es → 0 < c.shared.values.length
  others : ∀ u, u ≠ t → (u, .pop) ∉ es → c.threads u ≠ .popping ∧ ∀ n, c.threads u ≠ .taken n
  popped : (∀ u, u ≠ t → (u, .pop) ∉ es) → c.shared.popped = 0 ∨
    (∃ n, c.threads t = .taken n) ∨ ∃ x, (t, .popped (some x)) ∈ es

theorem Alone.step {hasty : Prop} (h : Alone t es c)
    (hs : Step capacity hasty c.shared (c.threads u) s l) :
    Alone t (es ++ shown event u (c.threads u) l) (c.set u s l) := by
  have hlen := hs.length_le
  refine ⟨fun w n hw => ?_, fun w hw => ?_, fun w hne hw => ?_, fun hw => ?_⟩
  · show n < s.values.length
    by_cases hwu : w = u
    · subst hwu
      rw [Config.set_threads_self] at hw
      subst hw
      exact hs.placed_lt
    · rw [Config.set_threads_of_ne _ _ _ hwu] at hw
      exact Nat.lt_of_lt_of_le (h.placed w n hw) hlen
  · show 0 < s.values.length
    rcases List.mem_append.mp hw with hw | hw
    · exact Nat.lt_of_lt_of_le (h.pushed w hw) hlen
    · obtain ⟨n, hn⟩ := hs.of_pushed (mem_shown.mp hw).2
      have := h.placed u n hn
      omega
  · rw [List.mem_append, not_or] at hw
    obtain ⟨hpop, htaken⟩ := h.others w hne hw.1
    by_cases hwu : w = u
    · subst hwu
      rw [Config.set_threads_self]
      have hfrom : ¬ (l = .popping ∨ ∃ n, l = .taken n) := fun hl =>
        (hs.to_popping hl).elim (fun he => hw.2 (mem_shown.mpr ⟨rfl, he⟩)) hpop
      exact ⟨fun hl => hfrom (.inl hl), fun n hl => hfrom (.inr ⟨n, hl⟩)⟩
    · rw [Config.set_threads_of_ne _ _ _ hwu]
      exact ⟨hpop, htaken⟩
  · have hold : ∀ w, w ≠ t → (w, .pop) ∉ es := fun w hne hm =>
      hw w hne (List.mem_append.mpr (.inl hm))
    rcases h.popped hold with hzero | ⟨n, hn⟩ | ⟨x, hx⟩
    · rcases hs.popped_eq with heq | ⟨hpop, n, rfl⟩
      · exact .inl (heq.trans hzero)
      · -- only `t` takes values out
        obtain rfl : u = t := by
          by_contra hne
          exact (h.others u hne (hold u hne)).1 hpop
        exact .inr (.inl ⟨n, Config.set_threads_self ..⟩)
    · by_cases hut : u = t
      · subst hut
        rw [hn] at hs
        obtain ⟨x, hx⟩ := hs.of_taken
        exact .inr (.inr ⟨x, List.mem_append.mpr (.inr (mem_shown.mpr ⟨rfl, hn ▸ hx⟩))⟩)
      · exact .inr (.inl ⟨n, (Config.set_threads_of_ne _ _ _ (Ne.symm hut)).trans hn⟩)
    · exact .inr (.inr ⟨x, List.mem_append.mpr (.inl hx)⟩)

/-- **No pop of a FIFO misses a value that a push has put in.** If a push has ended and
only `t` pops, then `t` gets a value before it is told that there is none. -/
theorem popped_of_pushed
    (h : Trace (Step capacity False) event (start α ι) (es ++ [(t, .popped none)]) c)
    (hpush : (u, .pushed true) ∈ es) (halone : ∀ w, w ≠ t → (w, .pop) ∉ es) :
    ∃ x, (t, .popped (some x)) ∈ es := by
  obtain ⟨d, s, l, hd, hs, he⟩ := h.last
  have hinv : Alone t es d := by
    refine hd.invariant (P := Alone t) (fun es d u s l h hs => h.step hs) ?_
    exact ⟨by simp [start], by simp, by simp [start], by simp [start]⟩
  have hpos := hinv.pushed u hpush
  rcases hinv.popped halone with hzero | ⟨n, hn⟩ | hx
  · generalize d.threads t = l₀ at hs he
    cases hs with
    | giveUp empty =>
      rcases empty with hempty | ⟨hasty, -⟩
      · omega
      · exact hasty.elim
    | push value out | pop out => simp [event, out] at he
    | _ => simp [event, Pc.outside] at he
  · rw [hn] at hs he
    obtain ⟨x, hx⟩ := hs.of_taken
    rw [hx] at he
    cases he
  · exact hx

end Empty

end BoundedFifo
