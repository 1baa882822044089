/-! Runs of a machine whose calls may have no successor state.

A call takes the state to a new one, or it does not return and the run is over. What a
call keeps under a condition, a run keeps whose calls all meet that condition. -/
namespace Stepwise

variable {σ γ : Type} {step : σ → γ → Option σ} {s t : σ} {calls : List γ} {call : γ}

def run (step : σ → γ → Option σ) (s : σ) (calls : List γ) : Option σ := calls.foldlM step s

/-- Every call of a run has the property in the state it finds. -/
def Along (step : σ → γ → Option σ) (P : σ → γ → Prop) (s : σ) : List γ → Prop
  | [] => True
  | call :: calls => P s call ∧ ∀ t, step s call = some t → Along step P t calls

instance decidableAlong (P : σ → γ → Prop) [∀ s, DecidablePred (P s)] :
    ∀ s calls, Decidable (Along step P s calls)
  | _, [] => isTrue trivial
  | s, call :: calls =>
    match hstep : step s call with
    | none => decidable_of_iff (P s call)
        ⟨fun h => ⟨h, fun _ ht => nomatch hstep.symm.trans ht⟩, fun h => h.1⟩
    | some t =>
      have : Decidable (Along step P t calls) := decidableAlong P t calls
      decidable_of_iff (P s call ∧ Along step P t calls)
        ⟨fun h => ⟨h.1, fun _ ht => Option.some.inj (hstep.symm.trans ht) ▸ h.2⟩,
          fun h => ⟨h.1, h.2 t hstep⟩⟩

/-- A run begins with its first call. -/
theorem run_cons : run step s (call :: calls) = some t ↔
    ∃ u, step s call = some u ∧ run step u calls = some t := by
  rw [run, List.foldlM_cons]
  exact Option.bind_eq_some_iff

/-- A run has its parts. -/
theorem run_append {calls' : List γ} : run step s (calls ++ calls') = some t ↔
    ∃ u, run step s calls = some u ∧ run step u calls' = some t := by
  rw [run, List.foldlM_append]
  exact Option.bind_eq_some_iff

/-- A relation that is reflexive and composes holds from the start of a run to its end. -/
theorem run_relates {P : σ → γ → Prop} {Inv : σ → Prop} {R : σ → σ → Prop} (hrefl : ∀ x, R x x)
    (htrans : ∀ x y z, R x y → R y z → R x z)
    (hstep : ∀ s call t, Inv s → P s call → step s call = some t → Inv t ∧ R s t)
    (hs : Inv s) (halong : Along step P s calls) (hrun : run step s calls = some t) :
    Inv t ∧ R s t := by
  induction calls generalizing s with
  | nil =>
    cases hrun
    exact ⟨hs, hrefl _⟩
  | cons call calls ih =>
    obtain ⟨u, hcall, hrest⟩ := run_cons.mp hrun
    obtain ⟨hu, hsu⟩ := hstep s call u hs halong.1 hcall
    obtain ⟨ht, hut⟩ := ih hu (halong.2 u hcall) hrest
    exact ⟨ht, htrans _ u t hsu hut⟩

/-- Two machines that go in step: both runs end, in related states, or neither does. -/
theorem run_rel {τ : Type} {other : τ → γ → Option τ} {R : σ → τ → Prop}
    (hstep : ∀ x y call, R x y → Option.Rel R (step x call) (other y call)) {u : τ} (h : R s u) :
    Option.Rel R (run step s calls) (run other u calls) := by
  induction calls generalizing s u with
  | nil => exact .some h
  | cons call calls ih =>
    have hcall := hstep s u call h
    rw [run, run, List.foldlM_cons, List.foldlM_cons]
    revert hcall
    cases step s call with
    | none =>
      cases other u call with
      | none => exact fun _ => .none
      | some v => exact nofun
    | some t =>
      cases other u call with
      | none => exact nofun
      | some v => exact fun hcall => ih (Option.rel_some_some.mp hcall)

/-- A map from one machine to another takes runs to runs. -/
theorem run_map {τ δ : Type} {other : τ → δ → Option τ} {view : σ → τ} {route : γ → δ}
    (hstep : ∀ x call, (step x call).map view = other (view x) (route call)) (s : σ) (calls : List γ) :
    (run step s calls).map view = run other (view s) (calls.map route) := by
  induction calls generalizing s with
  | nil => rfl
  | cons call calls ih =>
    rw [run, List.foldlM_cons, List.map_cons, run, List.foldlM_cons, ← hstep]
    cases step s call with
    | none => rfl
    | some t => exact ih t

theorem along_of_mem {P : σ → γ → Prop} (h : ∀ call ∈ calls, ∀ t, P t call) (s : σ) :
    Along step P s calls := by
  induction calls generalizing s with
  | nil => trivial
  | cons call calls ih =>
    exact ⟨h call (List.mem_cons_self ..) s, fun t _ =>
      ih (fun c hc => h c (List.mem_cons_of_mem _ hc)) t⟩

theorem Along.and {P Q : σ → γ → Prop} (h : Along step P s calls) (h' : Along step Q s calls) :
    Along step (fun s call => P s call ∧ Q s call) s calls := by
  induction calls generalizing s with
  | nil => trivial
  | cons call calls ih => exact ⟨⟨h.1, h'.1⟩, fun t ht => ih (h.2 t ht) (h'.2 t ht)⟩

theorem Along.left {P : σ → γ → Prop} {calls' : List γ} (h : Along step P s (calls ++ calls')) :
    Along step P s calls := by
  induction calls generalizing s with
  | nil => trivial
  | cons call calls ih => exact ⟨h.1, fun t ht => ih (h.2 t ht)⟩

/-- What follows a run finds the state the run has left. -/
theorem Along.append {P : σ → γ → Prop} {calls' : List γ} (h : Along step P s (calls ++ calls'))
    (hrun : run step s calls = some t) : Along step P t calls' := by
  induction calls generalizing s with
  | nil =>
    cases hrun
    exact h
  | cons call calls ih =>
    obtain ⟨u, hcall, hrest⟩ := run_cons.mp hrun
    exact ih (h.2 u hcall) hrest

/-- **The run lemma**: what every call keeps, a run keeps. -/
theorem run_keeps {P : σ → γ → Prop} {Inv : σ → Prop}
    (hstep : ∀ s call t, Inv s → P s call → step s call = some t → Inv t) (hs : Inv s)
    (halong : Along step P s calls) (hrun : run step s calls = some t) : Inv t :=
  (run_relates (R := fun _ _ => True) (fun _ => trivial) (fun _ _ _ _ _ => trivial)
    (fun s call t hi hp hcall => ⟨hstep s call t hi hp hcall, trivial⟩) hs halong hrun).1

/-- A machine that takes the same steps under a condition has the same runs. -/
theorem run_congr {P : σ → γ → Prop} {other : σ → γ → Option σ}
    (hstep : ∀ s call t, P s call → step s call = some t → other s call = some t)
    (halong : Along step P s calls) (hrun : run step s calls = some t) : run other s calls = some t := by
  induction calls generalizing s with
  | nil => exact hrun
  | cons call calls ih =>
    obtain ⟨u, hcall, hrest⟩ := run_cons.mp hrun
    exact run_cons.mpr ⟨u, hstep s call u halong.1 hcall, ih (halong.2 u hcall) hrest⟩

/-- The sum of what the calls of a run cost, each in the state it finds. -/
def tally (step : σ → γ → Option σ) (cost : σ → γ → Int) (s : σ) : List γ → Int
  | [] => 0
  | call :: calls =>
    match step s call with
    | none => 0
    | some t => cost s call + tally step cost t calls

/-- **Telescoping**: a measure that every call raises by its cost. -/
theorem run_tally {P : σ → γ → Prop} {Inv : σ → Prop} {measure : σ → Int} {cost : σ → γ → Int}
    (hstep : ∀ s call t, Inv s → P s call → step s call = some t → Inv t ∧
      measure t = measure s + cost s call ∧ 0 ≤ cost s call)
    (hs : Inv s) (halong : Along step P s calls) (hrun : run step s calls = some t) :
    measure t = measure s + tally step cost s calls ∧ 0 ≤ tally step cost s calls := by
  induction calls generalizing s with
  | nil =>
    cases hrun
    exact ⟨(Int.add_zero _).symm, Int.le_refl 0⟩
  | cons call calls ih =>
    obtain ⟨u, hcall, hrest⟩ := run_cons.mp hrun
    obtain ⟨hu, hmeasure, hcost⟩ := hstep s call u hs halong.1 hcall
    obtain ⟨htotal, hpos⟩ := ih hu (halong.2 u hcall) hrest
    rw [tally, hcall]
    exact ⟨by rw [htotal, hmeasure, Int.add_assoc], Int.add_nonneg hcost hpos⟩

/-- **When a property holds in every state of a run**: if each call keeps it exactly under its
condition, all states have it if and only if all calls meet the condition. -/
theorem along_iff {P Q : σ → γ → Prop} {Inv E : σ → Prop}
    (hstep : ∀ s call, Inv s → E s → Q s call → ∃ t, step s call = some t ∧ Inv t ∧ (E t ↔ P s call))
    (hs : Inv s) (hE : E s) (halong : Along step Q s calls) :
    (∀ past, past <+: calls → ∀ t, run step s past = some t → E t) ↔ Along step P s calls := by
  induction calls generalizing s with
  | nil =>
    refine ⟨fun _ => trivial, fun _ past hpast t hrun => ?_⟩
    rw [List.prefix_nil.mp hpast] at hrun
    cases hrun
    exact hE
  | cons call calls ih =>
    obtain ⟨u, hcall, hu, hiff⟩ := hstep s call hs hE halong.1
    constructor
    · intro hall
      have hEu : E u := hall [call] (List.prefix_append [call] calls) u (run_cons.mpr ⟨u, hcall, rfl⟩)
      refine ⟨hiff.mp hEu, fun t ht => ?_⟩
      cases hcall.symm.trans ht
      refine (ih hu hEu (halong.2 u hcall)).mp fun past hpast t hrun => ?_
      exact hall (call :: past) (List.cons_prefix_cons.mpr ⟨rfl, hpast⟩) t (run_cons.mpr ⟨u, hcall, hrun⟩)
    · intro hmeets past hpast t hrun
      cases past with
      | nil =>
        cases hrun
        exact hE
      | cons first past =>
        obtain ⟨rfl, hrest⟩ := List.cons_prefix_cons.mp hpast
        obtain ⟨v, hfirst, hrun⟩ := run_cons.mp hrun
        cases hcall.symm.trans hfirst
        exact (ih hu (hiff.mpr hmeets.1) (halong.2 u hcall)).mpr (hmeets.2 u hcall) past hrest t hrun

end Stepwise
