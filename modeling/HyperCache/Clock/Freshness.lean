import HyperCache.Clock.Invariant

/-! What a lookup may return.

`DoInsert` takes the first empty slot on the probe path and does not look whether
the key is visible further on. An erase or an eviction can leave such a hole, and an
insertion into it makes a second entry of one key; when the clock hand then takes the
newer of the two, lookups come to the older again (`stale_lookup`). As long as no
insertion meets a hole before a visible entry of its key (`Smooth`), each key has at
most one visible entry, and that is the latest one (`run_fresh`). -/
namespace HyperCache.Clock.Session
open ClockCache

/-- Every visible entry holds the value its key was last inserted with. -/
def Fresh (s : Session) : Prop :=
  ∀ i, i < s.cache.length.toNat → ∀ k, VisibleWith k (s.cache.slot i) →
    s.latest k = some (s.cache.slot i).value

/-- A call that is not an insertion past a hole: when `DoInsert` starts, after the
evictions of the call, no empty slot lies on the path of the key before a slot
visible with it. -/
def Smooth (s : Session) : Call → Prop
  | .insert handle =>
    ∀ r ∈ s.cache.reserve handle, r.1 = true → r.2.Unbroken handle.hashedKey
  | _ => True

/-- Every call of the run is smooth in the state it is made in. -/
def SmoothRun : Session → List Call → Prop
  | _, [] => True
  | s, call :: calls => s.Smooth call ∧ ∀ s' ∈ s.call call, SmoothRun s' calls

instance (c : ClockCache) (k : UniqueId64x2) : Decidable (c.Unbroken k) :=
  inferInstanceAs (Decidable (∀ j, j < c.length.toNat → VisibleWith k (c.slot j) →
    ∀ i ∈ c.probesBefore k j, NonEmpty (c.slot i)))

instance (s : Session) : (call : Call) → Decidable (s.Smooth call)
  | .insert handle => inferInstanceAs (Decidable
      (∀ r ∈ s.cache.reserve handle, r.1 = true → r.2.Unbroken handle.hashedKey))
  | .lookup _ | .release _ | .erase _ => .isTrue trivial

instance decidableSmoothRun : (s : Session) → (calls : List Call) → Decidable (s.SmoothRun calls)
  | _, [] => .isTrue trivial
  | s, call :: calls =>
    have (s' : Session) : Decidable (s'.SmoothRun calls) := decidableSmoothRun s' calls
    inferInstanceAs (Decidable (s.Smooth call ∧ ∀ s' ∈ s.call call, s'.SmoothRun calls))

section Step
variable {n lookups inserts : Nat} {s s' : Session} (h : Valid n lookups inserts s)
  (hlim : lookups + inserts + 1 < 2 ^ 30) (hfresh : s.Fresh)
include h hlim hfresh

/-- **The step lemma**: a smooth call keeps every visible entry the latest one. -/
theorem Fresh.call {call : Call} (hsmooth : s.Smooth call) (hcall : s.call call = some s')
    (hlen : s'.cache.length = s.cache.length) : s'.Fresh := by
  intro j hj k hv
  rw [hlen] at hj
  cases call with
  | insert handle =>
    obtain ⟨-, ok, hlatest, hins⟩ := h.insert hlim hcall
    cases ok with
    | false =>
      obtain ⟨hv', hh⟩ := hins.failed rfl j k hv
      rw [hlatest, congrArg Handle.value hh]
      exact hfresh j hj k hv'
    | true =>
      obtain ⟨i, c, hi, hfades, hadded, hnone⟩ := hins.placed rfl
      have hgone := hnone fun c hreserve => hsmooth (true, c) hreserve rfl
      rw [hlatest, if_pos rfl]
      by_cases hji : j = i
      · subst hji
        have hk : handle.hashedKey = k := (congrArg Handle.hashedKey hadded.entry).symm.trans hv.2
        rw [← hk, Function.update_self, congrArg Handle.value hadded.entry]
      · obtain ⟨hw, hh⟩ := hadded.other j hji
        have hvc : VisibleWith k (c.slot j) :=
          ⟨hw ▸ hv.1, (congrArg Handle.hashedKey hh).symm.trans hv.2⟩
        have hk : k ≠ handle.hashedKey := by
          intro hk
          rw [hk] at hvc
          exact hgone j hj hvc
        obtain ⟨hv', hh'⟩ := hfades j k hvc
        rw [Function.update_of_ne hk, congrArg Handle.value (hh.trans hh')]
        exact hfresh j hj k hv'
  | lookup k' =>
    obtain ⟨-, hlatest, r, hd⟩ := h.lookup hlim hcall
    obtain ⟨hv', hh⟩ := hd.fades j k hv
    rw [hlatest, congrArg Handle.value hh]
    exact hfresh j hj k hv'
  | release i =>
    obtain ⟨-, hlatest, hfades⟩ := h.release hlim hcall
    obtain ⟨hv', hh⟩ := hfades j k hv
    rw [hlatest, congrArg Handle.value hh]
    exact hfresh j hj k hv'
  | erase k' =>
    obtain ⟨-, hlatest, hfades, hgone⟩ := h.erase hlim hcall
    obtain ⟨hv', hh⟩ := hfades j k hv
    have hk : k ≠ k' := by
      intro hk
      rw [hk] at hv
      exact hgone j hj hv
    rw [hlatest, Function.update_of_ne hk, congrArg Handle.value hh]
    exact hfresh j hj k hv'

end Step

theorem Fresh.run {n lookups inserts : Nat} {s s' : Session} (h : Valid n lookups inserts s)
    (hfresh : s.Fresh) (calls : List Call) (hlim : lookups + inserts + calls.length < 2 ^ 30)
    (hsmooth : s.SmoothRun calls) (hrun : s.run calls = some s') : s'.Fresh := by
  induction calls generalizing lookups inserts s with
  | nil =>
    cases hrun
    exact hfresh
  | cons call calls ih =>
    rw [List.length_cons] at hlim
    rw [run_cons] at hrun
    obtain ⟨s₁, hcall, hrun⟩ := Option.bind_eq_some_iff.mp hrun
    obtain ⟨l₁, i₁, hle, h₁⟩ := h.call (by omega) hcall
    obtain ⟨hsmooth, hrest⟩ := hsmooth
    have hlen : s₁.cache.length = s.cache.length := by
      rw [← UInt64.toNat_inj, h₁.table.length, h.table.length]
    exact ih h₁ (hfresh.call h (by omega) hsmooth hcall hlen) (by omega) (hrest s₁ hcall) hrun

/-- **No stale value in a smooth run**: what a lookup returns is the value its key was
last inserted with, not erased since. -/
theorem run_fresh {options : ClockCacheOptions} {n : Nat} (hlen : options.length.toNat = 2 ^ n)
    {calls : List Call} (hcalls : calls.length + 1 < 2 ^ 30) {s : Session}
    (hrun : (start options).run calls = some s) (hsmooth : (start options).SmoothRun calls)
    {k : UniqueId64x2} {i : Nat} {c : ClockCache} (hlookup : s.cache.lookup k = some (some i, c)) :
    s.latest k = some (c.slot i).value := by
  have hempty : (start options).Fresh := by
    intro j _ k hv
    rw [show (start options).cache.slot j = default from make_slot j] at hv
    exact absurd hv.1 (by decide)
  have hfresh := hempty.run (Valid.start hlen) calls (by omega) hsmooth hrun
  obtain ⟨l, m, hle, h⟩ := (Valid.start hlen).run calls (by omega) hrun
  obtain ⟨r, d, hspec, hd⟩ := lookup_spec h.table (by omega) (h.pop_lt (by omega)) k
  obtain ⟨rfl, rfl⟩ := Prod.mk.inj (Option.some.inj (hlookup.symm.trans hspec))
  obtain ⟨hi, hv⟩ := hd.found i rfl
  rw [congrArg Handle.value (hd.same.handle i)]
  exact hfresh i hi k hv

/-- Three insertions of two colliding keys with an erase between, and the lookup that
finds the latest. -/
theorem run_fresh_colliding : ∃ s i c, (start ⟨1000, 2, 0, 2, 1⟩).run
    [.insert ⟨10, 1, (2, 0), 1⟩, .insert ⟨20, 1, (4, 0), 1⟩, .insert ⟨30, 1, (4, 0), 1⟩,
      .erase (2, 0)] = some s ∧
    s.cache.lookup (4, 0) = some (some i, c) ∧ s.latest (4, 0) = some (c.slot i).value := by
  have hany : ((start ⟨1000, 2, 0, 2, 1⟩).run
      [.insert ⟨10, 1, (2, 0), 1⟩, .insert ⟨20, 1, (4, 0), 1⟩, .insert ⟨30, 1, (4, 0), 1⟩,
        .erase (2, 0)]).any (fun s => (s.cache.lookup (4, 0)).any fun p => p.1.isSome) = true := by
    decide +kernel
  obtain ⟨s, hrun, hs⟩ := (Option.any_eq_true _ _).mp hany
  obtain ⟨⟨r, c⟩, hlookup, hr⟩ := (Option.any_eq_true _ _).mp hs
  obtain ⟨i, rfl⟩ := Option.isSome_iff_exists.mp hr
  exact ⟨s, i, c, hrun, hlookup, run_fresh (n := 1) rfl (by decide) hrun (by decide +kernel) hlookup⟩

/-- A run whose last insertion of (4, 0) goes into the hole that the erase of (2, 0)
left, and is then evicted: the lookup returns the value inserted before it. -/
theorem stale_lookup : ¬ ∀ (options : ClockCacheOptions) (n : Nat) (calls : List Call) (s : Session)
    (k : UniqueId64x2) (i : Nat) (c : ClockCache), options.length.toNat = 2 ^ n →
    calls.length + 1 < 2 ^ 30 → (start options).run calls = some s →
    s.cache.lookup k = some (some i, c) → s.latest k = some (c.slot i).value := by
  intro hclaim
  have hany : ((start ⟨1000, 2, 0, 2, 1⟩).run
      [.insert ⟨10, 1, (2, 0), 1⟩, .insert ⟨20, 1, (4, 0), 1⟩, .lookup (4, 0), .release 1,
        .erase (2, 0), .insert ⟨30, 1, (4, 0), 1⟩, .insert ⟨40, 1, (6, 0), 1⟩]).any
      (fun s => (s.cache.lookup (4, 0)).any fun p => p.1.any fun i =>
        s.latest (4, 0) ≠ some (p.2.slot i).value) = true := by
    decide +kernel
  obtain ⟨s, hrun, hs⟩ := (Option.any_eq_true _ _).mp hany
  obtain ⟨⟨r, c⟩, hlookup, hr⟩ := (Option.any_eq_true _ _).mp hs
  obtain ⟨i, rfl, hne⟩ := (Option.any_eq_true _ _).mp hr
  exact of_decide_eq_true hne (hclaim _ 1 _ s _ i c rfl (by decide) hrun hlookup)

end HyperCache.Clock.Session
