import HyperCache.Lib.Interleaving

/-! What a concurrent object shows.

An event is the beginning or the end of a call, with its argument or its answer. The
trace of a run lists the events of all threads in the order in which they happen. An
object is as good as a simpler one if each of its traces is a trace of the simpler one,
too; where the simpler one does the work of each call in one step this is
linearizability. `Trace.simulate` proves it step by step: one step of the object is one
step of the same thread of the simpler one with the same event, or it shows nothing and
changes nothing there. -/
namespace Interleaving

variable {S L S' L' ι E : Type*}

/-- What a step of thread `t` from `l` to `l'` adds to the trace. -/
def shown (event : L → L → Option E) (t : ι) (l l' : L) : List (ι × E) :=
  (event l l').toList.map (t, ·)

theorem mem_shown {event : L → L → Option E} {t u : ι} {l l' : L} {e : E} :
    (u, e) ∈ shown event t l l' ↔ u = t ∧ event l l' = some e := by
  rw [shown, List.mem_map]
  constructor
  · rintro ⟨e', he, hu⟩
    obtain ⟨rfl, rfl⟩ := Prod.mk.inj hu
    exact ⟨rfl, by simpa using he⟩
  · rintro ⟨rfl, he⟩
    exact ⟨e, by simpa using he, rfl⟩

variable [DecidableEq ι]

/-- Some run from `c` shows these events. -/
inductive Trace (step : S → L → S → L → Prop) (event : L → L → Option E) (c : Config S L ι) :
    List (ι × E) → Config S L ι → Prop
  | start : Trace step event c [] c
  | step {es : List (ι × E)} {d : Config S L ι} {t : ι} {s : S} {l : L}
      (h : Trace step event c es d) (hs : step d.shared (d.threads t) s l) :
      Trace step event c (es ++ shown event t (d.threads t) l) (d.set t s l)

section Run
variable {step : S → L → S → L → Prop} {event : L → L → Option E} {c d : Config S L ι}
  {es : List (ι × E)}

theorem Trace.reaches (h : Trace step event c es d) : Reaches step anyStep c d := by
  induction h with
  | start => exact .refl
  | step _ hs ih => exact ih.tail ⟨_, _, _, trivial, hs, rfl⟩

/-- What holds at the start and is kept by each step, of the events so far and the
configuration they led to. -/
theorem Trace.invariant {P : List (ι × E) → Config S L ι → Prop}
    (hstep : ∀ es d t s l, P es d → step d.shared (d.threads t) s l →
      P (es ++ shown event t (d.threads t) l) (d.set t s l))
    (h0 : P [] c) (h : Trace step event c es d) : P es d := by
  induction h with
  | start => exact h0
  | step _ hs ih => exact hstep _ _ _ _ _ ih hs

/-- The step that showed the last event. -/
theorem Trace.last {t : ι} {e : E} (h : Trace step event c (es ++ [(t, e)]) d) :
    ∃ d s l, Trace step event c es d ∧ step d.shared (d.threads t) s l ∧
      event (d.threads t) l = some e := by
  generalize hes : es ++ [(t, e)] = fs at h
  induction h with
  | start => exact absurd hes (by simp)
  | @step fs d u s l h hs ih =>
    cases he : event (d.threads u) l with
    | none =>
      rw [shown, he] at hes
      exact ih (by simpa using hes)
    | some e' =>
      rw [shown, he] at hes
      obtain ⟨rfl, hlast⟩ := List.append_inj' hes rfl
      obtain ⟨rfl, rfl⟩ := Prod.mk.inj (List.singleton_inj.mp hlast)
      exact ⟨d, s, l, h, hs, he⟩

end Run

/-! ### From one object to another -/

section Simulate
variable {step : S → L → S → L → Prop} {event : L → L → Option E}
  {step' : S' → L' → S' → L' → Prop} {event' : L' → L' → Option E}
  {abs : Config S L ι → Config S' L' ι} {P : Config S L ι → Prop}

/-- The step of thread `t` to `s` and `l` is a step of the same thread with the same event
in what `abs` makes of the configuration, or it shows nothing and changes nothing there. -/
inductive Simulates (event : L → L → Option E) (step' : S' → L' → S' → L' → Prop)
    (event' : L' → L' → Option E) (abs : Config S L ι → Config S' L' ι) (c : Config S L ι) (t : ι)
    (s : S) (l : L) : Prop
  | move (s' : S') (l' : L') (hs : step' (abs c).shared ((abs c).threads t) s' l')
      (he : event' ((abs c).threads t) l' = event (c.threads t) l)
      (hc : abs (c.set t s l) = (abs c).set t s' l')
  | stay (he : event (c.threads t) l = none) (hc : abs (c.set t s l) = abs c)

/-- **Forward simulation.** -/
theorem Trace.simulate
    (hsim : ∀ c t s l, P c → step c.shared (c.threads t) s l →
      Simulates event step' event' abs c t s l)
    (hstep : ∀ c t s l, P c → step c.shared (c.threads t) s l → P (c.set t s l))
    {c d : Config S L ι} {es : List (ι × E)} (h0 : P c) (h : Trace step event c es d) :
    Trace step' event' (abs c) es (abs d) := by
  have hinv : Trace step' event' (abs c) es (abs d) ∧ P d := by
    refine h.invariant (P := fun es d => Trace step' event' (abs c) es (abs d) ∧ P d) ?_
      ⟨.start, h0⟩
    rintro es d t s l ⟨ih, hp⟩ hs
    refine ⟨?_, hstep d t s l hp hs⟩
    cases hsim d t s l hp hs with
    | move s' l' hs' he hc =>
      rw [hc, shown, ← he]
      exact ih.step hs'
    | stay he hc =>
      rw [hc, shown, he]
      simpa using ih
  exact hinv.1

end Simulate

/-! ### The trace of a schedule -/

section Schedule
variable {C : Type*} (next : C → S → L → S × L) (event : L → L → Option E)

/-- The events of the run in which the listed threads move in turn. -/
def showing (c : Config S L ι) : List (ι × C) → List (ι × E)
  | [] => []
  | (t, a) :: rest =>
    let r := next a c.shared (c.threads t)
    shown event t (c.threads t) r.2 ++ showing (c.set t r.1 r.2) rest

theorem trace_exec (c : Config S L ι) (schedule : List (ι × C)) :
    Trace (Chosen next) event c (showing next event c schedule) (exec next c schedule) := by
  have hfrom : ∀ d es, Trace (Chosen next) event c es d →
      Trace (Chosen next) event c (es ++ showing next event d schedule) (exec next d schedule) := by
    induction schedule with
    | nil =>
      intro d es h
      simpa [showing, exec] using h
    | cons move rest ih =>
      intro d es h
      obtain ⟨t, a⟩ := move
      simp only [showing, exec, ← List.append_assoc]
      exact ih _ _ (h.step ⟨a, rfl⟩)
  exact hfrom c [] .start

end Schedule

end Interleaving
