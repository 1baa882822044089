import HyperCache.Lib.Stepwise
import Mathlib.Logic.Function.Basic

/-! Caches as maps that lose entries.

What the clients of a cache do and see is a list of events, and the events before one say
what each key should show there. A history is faithful if nothing else is ever seen than
what was last put, and exact if it is always seen until it is lost. Both hold of the history
of every run when they hold of each call (`history_faithful`, `history_exact`). -/
namespace LossyMap

inductive Event (K V : Type*) where
  | put (key : K) (value : V)
  | got (key : K) (value : Option V)
  | erase (key : K)
  | lose (gone : K → Bool)

section Events
variable {K V : Type*} [DecidableEq K] {m m' : K → Option V} {e : Event K V} {es es' : List (Event K V)}

def Event.write (m : K → Option V) : Event K V → K → Option V
  | .put key value => Function.update m key (some value)
  | .got _ _ => m
  | .erase key => Function.update m key none
  | .lose gone => fun key => if gone key then none else m key

/-- The map after the events. -/
def after (m : K → Option V) (es : List (Event K V)) : K → Option V := es.foldl Event.write m

/-- What is found under a key is what the map has there. -/
def Faithful (m : K → Option V) : List (Event K V) → Prop
  | [] => True
  | e :: es => (∀ key value, e = .got key (some value) → m key = some value) ∧ Faithful (e.write m) es

/-- Whether something is found, too. -/
def Exact (m : K → Option V) : List (Event K V) → Prop
  | [] => True
  | e :: es => (∀ key found, e = .got key found → m key = found) ∧ Exact (e.write m) es

theorem after_append : after m (es ++ es') = after (after m es) es' := List.foldl_append

theorem Faithful.append (h : Faithful m es) (h' : Faithful (after m es) es') : Faithful m (es ++ es') := by
  induction es generalizing m with
  | nil => exact h'
  | cons e es ih => exact ⟨h.1, ih h.2 h'⟩

theorem Exact.append (h : Exact m es) (h' : Exact (after m es) es') : Exact m (es ++ es') := by
  induction es generalizing m with
  | nil => exact h'
  | cons e es ih => exact ⟨h.1, ih h.2 h'⟩

/-- What is found was put last. -/
theorem Exact.found {key : K} {found : Option V} (h : Exact m (es ++ .got key found :: es')) :
    after m es key = found := by
  induction es generalizing m with
  | nil => exact h.1 key found rfl
  | cons e es ih => exact ih h.2

/-- The event leaves the entry of the key alone. -/
def Event.spares (key : K) : Event K V → Bool
  | .put other _ => other ≠ key
  | .got _ _ => true
  | .erase other => other ≠ key
  | .lose gone => !gone key

theorem Event.write_of_spares {key : K} (h : e.spares key = true) : e.write m key = m key := by
  cases e with
  | put other value =>
    exact Function.update_of_ne (Ne.symm (of_decide_eq_true h)) ..
  | got other found => rfl
  | erase other => exact Function.update_of_ne (Ne.symm (of_decide_eq_true h)) ..
  | lose gone =>
    have hgone : gone key = false := Bool.not_eq_eq_eq_not.mp h
    exact if_neg (hgone ▸ Bool.false_ne_true)

/-- What an event leaves under a key depends on what was there. -/
theorem Event.write_congr {key : K} (h : m key = m' key) : e.write m key = e.write m' key := by
  cases e with
  | put other value =>
    by_cases hk : key = other
    · rw [hk, Event.write, Event.write, Function.update_self, Function.update_self]
    · rw [Event.write, Event.write, Function.update_of_ne hk, Function.update_of_ne hk, h]
  | got other found => exact h
  | erase other =>
    by_cases hk : key = other
    · rw [hk, Event.write, Event.write, Function.update_self, Function.update_self]
    · rw [Event.write, Event.write, Function.update_of_ne hk, Function.update_of_ne hk, h]
  | lose gone =>
    show (if gone key then none else m key) = if gone key then none else m' key
    rw [h]

theorem after_congr {key : K} (h : m key = m' key) : after m es key = after m' es key := by
  induction es generalizing m m' with
  | nil => exact h
  | cons e es ih => exact ih (Event.write_congr h)

theorem after_of_spares {key : K} (h : ∀ e ∈ es, e.spares key = true) : after m es key = m key := by
  induction es generalizing m with
  | nil => rfl
  | cons e es ih =>
    rw [after, List.foldl_cons]
    exact (ih fun e he => h e (List.mem_cons_of_mem _ he)).trans
      (Event.write_of_spares (h e (List.mem_cons_self ..)))

/-- **A put is read** until the entry is put again, erased or lost. -/
theorem Exact.kept {key : K} {value : V} {between : List (Event K V)} {found : Option V}
    (h : Exact m (es ++ .put key value :: (between ++ .got key found :: es')))
    (hspared : ∀ e ∈ between, e.spares key = true) : found = some value := by
  rw [← List.cons_append, ← List.append_assoc] at h
  have hfound := h.found
  rw [after_append, after, List.foldl_cons] at hfound
  rw [← hfound]
  exact (after_of_spares hspared).trans (Function.update_self ..)

end Events

/-! ### Runs -/

section Runs
variable {K V : Type*} {σ γ : Type} [DecidableEq K] {step : σ → γ → Option σ} {events : σ → γ → List (Event K V)}
  {P : σ → γ → Prop}

/-- The events of a run, up to a call that does not return. -/
def history (step : σ → γ → Option σ) (events : σ → γ → List (Event K V)) (s : σ) :
    List γ → List (Event K V)
  | [] => []
  | call :: calls =>
    match step s call with
    | none => []
    | some t => events s call ++ history step events t calls

omit [DecidableEq K] in
theorem history_append {s t : σ} {calls calls' : List γ} (hrun : Stepwise.run step s calls = some t) :
    history step events s (calls ++ calls') = history step events s calls ++ history step events t calls' := by
  induction calls generalizing s with
  | nil =>
    cases hrun
    rfl
  | cons call calls ih =>
    obtain ⟨u, hcall, hrest⟩ := Stepwise.run_cons.mp hrun
    simp only [List.cons_append, history, hcall]
    rw [ih hrest, List.append_assoc]

omit [DecidableEq K] in
theorem history_cons {s t : σ} {call : γ} {calls : List γ} (hcall : step s call = some t) :
    history step events s (call :: calls) = events s call ++ history step events t calls := by
  rw [history, hcall]

/-- What a run's calls spare, its events do. -/
theorem spares_of_along {s : σ} {calls : List γ} {key : K}
    (h : Stepwise.Along step (fun s call => ∀ e ∈ events s call, e.spares key = true) s calls) :
    ∀ e ∈ history step events s calls, e.spares key = true := by
  induction calls generalizing s with
  | nil => exact fun e he => absurd he List.not_mem_nil
  | cons call calls ih =>
    intro e he
    rw [history] at he
    cases hcall : step s call with
    | none =>
      rw [hcall] at he
      exact absurd he List.not_mem_nil
    | some t =>
      rw [hcall] at he
      rcases List.mem_append.mp he with hm | hm
      · exact h.1 e hm
      · exact ih (h.2 t hcall) e hm

/-- The map has all that is there. -/
def Bounds (shows : K → V → Prop) (m : K → Option V) : Prop :=
  ∀ key value, shows key value → m key = some value

/-- **Faithful runs**: each call keeps what is there within what was put last. The invariant
may depend on how many calls are left. -/
theorem history_faithful {I : Nat → σ → Prop} {shows : σ → K → V → Prop}
    (hstep : ∀ left s call t m, I (left + 1) s → P s call → step s call = some t → Bounds (shows s) m →
      I left t ∧ Faithful m (events s call) ∧ Bounds (shows t) (after m (events s call)))
    {s : σ} {m : K → Option V} {calls : List γ} (hs : I calls.length s) (hm : Bounds (shows s) m)
    (halong : Stepwise.Along step P s calls) : Faithful m (history step events s calls) := by
  induction calls generalizing s m with
  | nil => trivial
  | cons call calls ih =>
    rw [history]
    cases hcall : step s call with
    | none => trivial
    | some t =>
      obtain ⟨ht, hfaithful, hbounds⟩ := hstep calls.length s call t m hs halong.1 hcall hm
      exact hfaithful.append (ih ht hbounds (halong.2 t hcall))

/-- **Exact runs**: each call changes what is there as its events say. -/
theorem history_exact {Inv : σ → Prop} {view : σ → K → Option V}
    (hstep : ∀ s call t, Inv s → P s call → step s call = some t →
      Inv t ∧ Exact (view s) (events s call) ∧ view t = after (view s) (events s call))
    {s : σ} (hs : Inv s) {calls : List γ} (halong : Stepwise.Along step P s calls) :
    Exact (view s) (history step events s calls) := by
  induction calls generalizing s with
  | nil => trivial
  | cons call calls ih =>
    rw [history]
    cases hcall : step s call with
    | none => trivial
    | some t =>
      obtain ⟨ht, hexact, hview⟩ := hstep s call t hs halong.1 hcall
      refine hexact.append ?_
      rw [← hview]
      exact ih ht (halong.2 t hcall)

end Runs

end LossyMap
