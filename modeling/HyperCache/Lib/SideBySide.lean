import HyperCache.Lib.Stepwise
import Mathlib.Logic.Function.Basic

/-! Machines side by side.

Each call is one machine's, and the others stay as they are. A run of all of them is then one
run of each, on its own calls in their order (`run_iff`). -/
namespace SideBySide

variable {ι σ γ : Type} [DecidableEq ι] {step : σ → γ → Option σ} {f g : ι → σ} {calls : List (ι × γ)}

def sideBySide (step : σ → γ → Option σ) (f : ι → σ) (call : ι × γ) : Option (ι → σ) :=
  (step (f call.1) call.2).map (Function.update f call.1)

/-- The calls of one machine. -/
def callsOf (i : ι) (calls : List (ι × γ)) : List γ :=
  calls.filterMap fun call => if call.1 = i then some call.2 else none

theorem callsOf_self (i : ι) (call : γ) : callsOf i ((i, call) :: calls) = call :: callsOf i calls := by
  simp [callsOf]

theorem callsOf_other {i j : ι} (hj : j ≠ i) (call : γ) : callsOf j ((i, call) :: calls) = callsOf j calls := by
  simp [callsOf, hj.symm]

/-- **A run is one of each machine.** -/
theorem run_iff : Stepwise.run (sideBySide step) f calls = some g ↔
    ∀ i, Stepwise.run step (f i) (callsOf i calls) = some (g i) := by
  induction calls generalizing f with
  | nil =>
    constructor
    · intro h i
      cases h
      rfl
    · intro h
      exact congrArg some (funext fun i => Option.some.inj (h i))
  | cons call calls ih =>
    obtain ⟨i, call⟩ := call
    rw [Stepwise.run_cons]
    constructor
    · rintro ⟨f', hcall, hrest⟩ j
      obtain ⟨t, ht, rfl⟩ := Option.map_eq_some_iff.mp hcall
      have hj := ih.mp hrest j
      by_cases hji : j = i
      · subst hji
        rw [Function.update_self] at hj
        rw [callsOf_self]
        exact Stepwise.run_cons.mpr ⟨t, ht, hj⟩
      · rw [Function.update_of_ne hji] at hj
        rw [callsOf_other hji]
        exact hj
    · intro h
      have hi := h i
      rw [callsOf_self] at hi
      obtain ⟨t, ht, hrest⟩ := Stepwise.run_cons.mp hi
      refine ⟨Function.update f i t, Option.map_eq_some_iff.mpr ⟨t, ht, rfl⟩, ih.mpr fun j => ?_⟩
      by_cases hji : j = i
      · subst hji
        rw [Function.update_self]
        exact hrest
      · rw [Function.update_of_ne hji, ← callsOf_other hji call]
        exact h j

end SideBySide
