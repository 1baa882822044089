import HyperCache.Lib.Stepwise

/-! Runs of a machine whose calls can fail.

A call takes the state to a new one and returns something, or it is a fault, and then
there is no state to go on from. -/
namespace Fallible

variable {σ γ ρ ε : Type} {step : σ → γ → Except ε (σ × ρ)} {s t : σ} {calls : List γ} {call : γ}

/-- A run of calls, up to its first fault. -/
def run (step : σ → γ → Except ε (σ × ρ)) (s : σ) (calls : List γ) : Except ε σ :=
  calls.foldlM (fun s call => do return (← step s call).1) s

/-- A run begins with its first call. -/
theorem run_cons : run step s (call :: calls) = .ok t ↔
    ∃ r, step s call = .ok r ∧ run step r.1 calls = .ok t := by
  simp only [run, List.foldlM_cons]
  cases step s call with
  | error fault => exact ⟨nofun, nofun⟩
  | ok r => exact ⟨fun h => ⟨r, rfl, h⟩, fun ⟨r', hr, h⟩ => Except.ok.inj hr ▸ h⟩

/-- A run ends with its last call. -/
theorem run_concat : run step s (calls ++ [call]) = .ok t ↔
    ∃ u result, run step s calls = .ok u ∧ step u call = .ok (t, result) := by
  induction calls generalizing s with
  | nil =>
    constructor
    · intro h
      obtain ⟨r, hr, ht⟩ := run_cons.mp h
      cases ht
      exact ⟨s, r.2, rfl, hr⟩
    · rintro ⟨u, result, hu, ht⟩
      cases hu
      exact run_cons.mpr ⟨_, ht, rfl⟩
  | cons first calls ih =>
    constructor
    · intro h
      obtain ⟨r, hr, hrest⟩ := run_cons.mp h
      obtain ⟨u, result, hu, ht⟩ := ih.mp hrest
      exact ⟨u, result, run_cons.mpr ⟨r, hr, hu⟩, ht⟩
    · rintro ⟨u, result, hu, ht⟩
      obtain ⟨r, hr, hrest⟩ := run_cons.mp hu
      exact run_cons.mpr ⟨r, hr, ih.mpr ⟨u, result, hrest, ht⟩⟩

/-- A run, whatever its calls return and whatever its fault is. -/
theorem run_toOption (s : σ) (calls : List γ) :
    (run step s calls).toOption = Stepwise.run (fun s call => (step s call).toOption.map Prod.fst) s calls := by
  induction calls generalizing s with
  | nil => rfl
  | cons call calls ih =>
    rw [run, List.foldlM_cons, Stepwise.run, List.foldlM_cons]
    cases step s call with
    | error fault => rfl
    | ok r => exact ih r.1

theorem ok_of_toOption {result : Except ε σ} (h : result.toOption = some s) : result = .ok s := by
  cases result with
  | error fault => cases h
  | ok t =>
    cases h
    rfl

/-- Every call of a run has the property in the state it finds. -/
def Along (step : σ → γ → Except ε (σ × ρ)) (P : σ → γ → Prop) (s : σ) : List γ → Prop
  | [] => True
  | call :: calls => P s call ∧ ∀ r, step s call = .ok r → Along step P r.1 calls

instance decidableAlong (P : σ → γ → Prop) [∀ s, DecidablePred (P s)] :
    ∀ s calls, Decidable (Along step P s calls)
  | _, [] => isTrue trivial
  | s, call :: calls =>
    match hstep : step s call with
    | .error _ => decidable_of_iff (P s call)
        ⟨fun h => ⟨h, fun _ hr => nomatch hstep.symm.trans hr⟩, fun h => h.1⟩
    | .ok r =>
      have : Decidable (Along step P r.1 calls) := decidableAlong P r.1 calls
      decidable_of_iff (P s call ∧ Along step P r.1 calls)
        ⟨fun h => ⟨h.1, fun _ hr => Except.ok.inj (hstep.symm.trans hr) ▸ h.2⟩,
          fun h => ⟨h.1, h.2 r hstep⟩⟩

/-- The last call of a run finds the state the calls before it have left. -/
theorem along_concat {P : σ → γ → Prop} : Along step P s (calls ++ [call]) ↔
    Along step P s calls ∧ ∀ t, run step s calls = .ok t → P t call := by
  induction calls generalizing s with
  | nil =>
    constructor
    · intro h
      exact ⟨trivial, fun t ht => Except.ok.inj ht ▸ h.1⟩
    · intro h
      exact ⟨h.2 s rfl, fun _ _ => trivial⟩
  | cons first calls ih =>
    constructor
    · rintro ⟨hfirst, hrest⟩
      refine ⟨⟨hfirst, fun r hr => (ih.mp (hrest r hr)).1⟩, fun t ht => ?_⟩
      obtain ⟨r, hr, hrun⟩ := run_cons.mp ht
      exact (ih.mp (hrest r hr)).2 t hrun
    · rintro ⟨⟨hfirst, hrest⟩, hlast⟩
      refine ⟨hfirst, fun r hr => ih.mpr ⟨hrest r hr, fun t ht => ?_⟩⟩
      exact hlast t (run_cons.mpr ⟨r, hr, ht⟩)

end Fallible
