import HyperCache.Lib.Stepwise
import Mathlib.Order.Monotone.Defs
import Mathlib.Order.UpperLower.Basic

/-! Snapshots that are taken key by key.

A machine copies its source while it runs. The copier has passed more and more keys; the call
that passes a key copies what the source has for it, and the copy stays. So each key is copied
at a moment of its own, and what the source has for it afterwards is not seen (`run_taken`). A
copier that goes through the keys in order takes them in order (`run_moments`). -/
namespace Snapshot
open Stepwise

variable {σ γ κ α : Type} {step : σ → γ → Option σ} {P : σ → γ → Prop} {Inv : σ → Prop}
  {source copy : σ → κ → α} {passed : σ → Set κ} {s t : σ} {calls : List γ} {key : κ}

/-- What a call does to the copy. -/
structure Turn (source copy : σ → κ → α) (passed : σ → Set κ) (s t : σ) : Prop where
  grows : passed s ⊆ passed t
  kept : ∀ key ∈ passed s, copy t key = copy s key
  taken : ∀ key ∈ passed t, key ∉ passed s → copy t key = source s key

/-- The call passes the key: here it is copied. -/
structure Takes (step : σ → γ → Option σ) (passed : σ → Set κ) (s : σ) (calls : List γ) (key : κ) (n : Nat)
    (u : σ) : Prop where
  before : run step s (calls.take n) = some u ∧ key ∉ passed u
  after : ∃ v, run step s (calls.take (n + 1)) = some v ∧ key ∈ passed v

/-- What follows does not matter. -/
theorem Takes.append {n : Nat} {u : σ} (h : Takes step passed s calls key n u) (hn : n < calls.length)
    (rest : List γ) : Takes step passed s (calls ++ rest) key n u := by
  refine ⟨?_, ?_⟩
  · rw [List.take_append_of_le_length (Nat.le_of_lt hn)]
    exact h.before
  · rw [List.take_append_of_le_length hn]
    exact h.after

section Run
variable (hstep : ∀ s call t, Inv s → P s call → step s call = some t → Inv t ∧ Turn source copy passed s t)
include hstep

/-- What is copied stays. -/
theorem run_kept (hs : Inv s) (halong : Along step P s calls) (hrun : run step s calls = some t) :
    Inv t ∧ passed s ⊆ passed t ∧ ∀ key ∈ passed s, copy t key = copy s key := by
  refine run_relates (R := fun s t => passed s ⊆ passed t ∧ ∀ key ∈ passed s, copy t key = copy s key)
    ?_ ?_ ?_ hs halong hrun
  · exact fun x => ⟨Set.Subset.refl _, fun _ _ => rfl⟩
  · rintro x y z ⟨hxy, hkept⟩ ⟨hyz, hkept'⟩
    exact ⟨hxy.trans hyz, fun key hkey => (hkept' key (hxy hkey)).trans (hkept key hkey)⟩
  · intro s call t hs hcall hstep'
    obtain ⟨ht, hturn⟩ := hstep s call t hs hcall hstep'
    exact ⟨ht, hturn.grows, hturn.kept⟩

/-- **Every key has its moment**: its copy is what the source had for it there. -/
theorem run_taken (hs : Inv s) (halong : Along step P s calls) (hrun : run step s calls = some t)
    (hfresh : key ∉ passed s) (hkey : key ∈ passed t) :
    ∃ n < calls.length, ∃ u, Takes step passed s calls key n u ∧ copy t key = source u key := by
  induction calls generalizing s with
  | nil =>
    cases hrun
    exact absurd hkey hfresh
  | cons call calls ih =>
    obtain ⟨u, hcall, hrest⟩ := run_cons.mp hrun
    obtain ⟨hu, hturn⟩ := hstep s call u hs halong.1 hcall
    have hrest' := halong.2 u hcall
    by_cases hpassed : key ∈ passed u
    · obtain ⟨-, -, hkept⟩ := run_kept hstep hu hrest' hrest
      refine ⟨0, Nat.succ_pos _, s, ⟨⟨rfl, hfresh⟩, u, run_cons.mpr ⟨u, hcall, rfl⟩, hpassed⟩, ?_⟩
      rw [hkept key hpassed, hturn.taken key hpassed hfresh]
    · obtain ⟨n, hn, w, ⟨⟨hbefore, hnot⟩, v, hafter, hv⟩, hcopy⟩ := ih hu hrest' hrest hpassed
      refine ⟨n + 1, Nat.succ_lt_succ hn, w, ⟨⟨?_, hnot⟩, v, ?_, hv⟩, hcopy⟩
      · exact run_cons.mpr ⟨u, hcall, hbefore⟩
      · exact run_cons.mpr ⟨u, hcall, hafter⟩

/-- A key that is passed stays so. -/
theorem passed_mono (hs : Inv s) (halong : Along step P s calls) {m n : Nat} (hle : m ≤ n) {u v : σ}
    (hu : run step s (calls.take m) = some u) (hv : run step s (calls.take n) = some v) :
    passed u ⊆ passed v := by
  obtain ⟨rest, hrest⟩ := List.take_prefix_take_left hle (l := calls)
  rw [← hrest, run_append] at hv
  obtain ⟨u', hu', hrun⟩ := hv
  cases hu.symm.trans hu'
  have halong' : Along step P s (calls.take n) := by
    rw [← List.take_append_drop n calls] at halong
    exact halong.left
  rw [← hrest] at halong'
  have hinv := (run_kept hstep hs halong'.left hu).1
  exact (run_kept hstep hinv (halong'.append hu) hrun).2.1

/-- **The snapshot of a copier that goes through the keys in order**: the moments of the keys
are in that order. -/
theorem run_moments [LE κ] (hlower : ∀ u, IsLowerSet (passed u)) (hs : Inv s) (hempty : passed s = ∅)
    (halong : Along step P s calls) (hrun : run step s calls = some t) :
    ∃ moment : κ → Nat, (∀ key key', key' ∈ passed t → key ≤ key' → moment key ≤ moment key') ∧
      ∀ key ∈ passed t, moment key < calls.length ∧ ∃ u,
        Takes step passed s calls key (moment key) u ∧ copy t key = source u key := by
  have hfresh : ∀ key, key ∉ passed s := fun key hmem => by
    rw [hempty] at hmem
    exact hmem
  have hmoment : ∀ key, ∃ n, key ∈ passed t → n < calls.length ∧ ∃ u,
      Takes step passed s calls key n u ∧ copy t key = source u key := by
    intro key
    by_cases hkey : key ∈ passed t
    · obtain ⟨n, hn, hrest⟩ := run_taken hstep hs halong hrun (hfresh key) hkey
      exact ⟨n, fun _ => ⟨hn, hrest⟩⟩
    · exact ⟨0, fun hmem => absurd hmem hkey⟩
  choose moment hmoment using hmoment
  refine ⟨moment, fun key key' hkey' hle => ?_, fun key hkey => hmoment key hkey⟩
  obtain ⟨-, u, htakes, -⟩ := hmoment key (hlower t hle hkey')
  obtain ⟨-, u', ⟨-, v', hafter, hpassed⟩, -⟩ := hmoment key' hkey'
  -- a key is not passed at its moment, and it is where a later key is
  by_contra hlt
  exact htakes.before.2 (passed_mono hstep hs halong (Nat.not_le.mp hlt) hafter htakes.before.1
    (hlower v' hle hpassed))

end Run

end Snapshot
