import Mathlib.Algebra.BigOperators.Group.Finset.Basic
import Mathlib.Data.Fintype.Basic
import Mathlib.Logic.Relation

/-! Threads over one shared memory.

A configuration is the shared memory and where each thread stands; one step is
one atomic access of one thread. `Step` takes a guard on the configuration
before the step, so that "every run whose steps all meet a condition" is the
same relation with another guard.

Invariants are proved by accounting. Each thread position holds tokens, the
memory satisfies a property of the sum of all tokens (`glob`), and each position
carries a fact about the memory (`loc`). `Accounting.reaches` asks what one step
does to its own tokens with the rest of the sum arbitrary, and that it keeps the
fact of any one other position. -/
namespace Interleaving

variable {S L ι M : Type*}

/-- The shared memory and the position of each thread. -/
structure Config (S L ι : Type*) where
  shared : S
  threads : ι → L

section Steps
variable [DecidableEq ι]

/-- Thread `t` at `l` over the memory `s`, every other thread where it was. -/
def Config.set (c : Config S L ι) (t : ι) (s : S) (l : L) : Config S L ι :=
  ⟨s, Function.update c.threads t l⟩

@[simp] theorem Config.set_shared (c : Config S L ι) (t : ι) (s : S) (l : L) :
    (c.set t s l).shared = s := rfl

@[simp] theorem Config.set_threads_self (c : Config S L ι) (t : ι) (s : S) (l : L) :
    (c.set t s l).threads t = l := by
  simp [Config.set]

theorem Config.set_threads_of_ne (c : Config S L ι) {t u : ι} (s : S) (l : L) (h : u ≠ t) :
    (c.set t s l).threads u = c.threads u := by
  simp [Config.set, h]

/-- One thread takes one step, the configuration before it meeting the guard. -/
def Step (step : S → L → S → L → Prop) (ok : Config S L ι → ι → Prop)
    (c c' : Config S L ι) : Prop :=
  ∃ t s l, ok c t ∧ step c.shared (c.threads t) s l ∧ c' = c.set t s l

/-- No guard: any thread may move. -/
def anyStep : Config S L ι → ι → Prop := fun _ _ => True

/-- Some interleaving of guarded steps leads from `c` to `c'`. -/
def Reaches (step : S → L → S → L → Prop) (ok : Config S L ι → ι → Prop) :
    Config S L ι → Config S L ι → Prop :=
  Relation.ReflTransGen (Step step ok)

/-- A run under a guard is a run under any weaker one. -/
theorem Reaches.mono {step : S → L → S → L → Prop} {ok ok' : Config S L ι → ι → Prop}
    (h : ∀ c t, ok c t → ok' c t) {c c' : Config S L ι} (hr : Reaches step ok c c') :
    Reaches step ok' c c' := by
  refine Relation.ReflTransGen.mono ?_ _ _ hr
  rintro a b ⟨t, s, l, hok, hs, rfl⟩
  exact ⟨t, s, l, h a t hok, hs, rfl⟩

/-- What holds at the start and is kept by each step holds wherever a run leads. -/
theorem Reaches.invariant {step : S → L → S → L → Prop} {ok : Config S L ι → ι → Prop}
    {P : Config S L ι → Prop}
    (hstep : ∀ c t s l, P c → ok c t → step c.shared (c.threads t) s l → P (c.set t s l))
    {c c' : Config S L ι} (h0 : P c) (hr : Reaches step ok c c') : P c' := by
  induction hr with
  | refl => exact h0
  | tail _ hs ih =>
    obtain ⟨t, s, l, hok, hs, rfl⟩ := hs
    exact hstep _ t s l ih hok hs

/-- An invariant may be assumed before every step. -/
theorem Reaches.assume {step : S → L → S → L → Prop} {ok : Config S L ι → ι → Prop}
    {P : Config S L ι → Prop}
    (hstep : ∀ c t s l, P c → ok c t → step c.shared (c.threads t) s l → P (c.set t s l))
    {c c' : Config S L ι} (h0 : P c) (hr : Reaches step ok c c') :
    Reaches step (fun c t => ok c t ∧ P c) c c' := by
  induction hr with
  | refl => exact .refl
  | tail hr hs ih =>
    obtain ⟨t, s, l, hok, hs, rfl⟩ := hs
    exact ih.tail ⟨t, s, l, ⟨hok, Reaches.invariant hstep h0 hr⟩, hs, rfl⟩

/-! ### Runs from a schedule -/

/-- Named, so that a schedule of two threads carries no proofs. -/
instance instNeZeroTwo : @NeZero Nat Zero.ofOfNat0 2 := ⟨Nat.succ_ne_zero 1⟩

/-- The step relation of a step function that leaves some choices open. -/
def Chosen {C : Type*} (next : C → S → L → S × L) (s : S) (l : L) (s' : S) (l' : L) : Prop :=
  ∃ c, next c s l = (s', l')

/-- The run in which the listed threads move in turn, with the listed choices. -/
def exec {C : Type*} (next : C → S → L → S × L) (c : Config S L ι) :
    List (ι × C) → Config S L ι
  | [] => c
  | (t, a) :: rest =>
    let r := next a c.shared (c.threads t)
    exec next (c.set t r.1 r.2) rest

/-- The guard holds at every step of the schedule. -/
def Guarded {C : Type*} (next : C → S → L → S × L) (ok : Config S L ι → ι → Prop)
    (c : Config S L ι) : List (ι × C) → Prop
  | [] => True
  | (t, a) :: rest =>
    let r := next a c.shared (c.threads t)
    ok c t ∧ Guarded next ok (c.set t r.1 r.2) rest

instance decidableGuarded {C : Type*} (next : C → S → L → S × L) (ok : Config S L ι → ι → Prop)
    [∀ c t, Decidable (ok c t)] (c : Config S L ι) :
    (schedule : List (ι × C)) → Decidable (Guarded next ok c schedule)
  | [] => .isTrue trivial
  | (t, a) :: rest =>
    @instDecidableAnd (ok c t) _ inferInstance (decidableGuarded next ok
      (c.set t (next a c.shared (c.threads t)).1 (next a c.shared (c.threads t)).2) rest)

theorem Guarded.left {C : Type*} {next : C → S → L → S × L} {ok : Config S L ι → ι → Prop} {c : Config S L ι}
    {past rest : List (ι × C)} (h : Guarded next ok c (past ++ rest)) : Guarded next ok c past := by
  induction past generalizing c with
  | nil => trivial
  | cons move past ih => exact ⟨h.1, ih h.2⟩

/-- The steps of thread `t` in a schedule. -/
def turns {C : Type*} (t : ι) (schedule : List (ι × C)) : Nat := (schedule.map Prod.fst).count t

theorem reaches_exec_guarded {C : Type*} {next : C → S → L → S × L} {ok : Config S L ι → ι → Prop}
    {c : Config S L ι} {schedule : List (ι × C)} (h : Guarded next ok c schedule) :
    Reaches (Chosen next) ok c (exec next c schedule) := by
  induction schedule generalizing c with
  | nil => exact .refl
  | cons move rest ih =>
    obtain ⟨t, a⟩ := move
    exact .head ⟨t, _, _, h.1, ⟨a, rfl⟩, rfl⟩ (ih h.2)

theorem reaches_exec {C : Type*} (next : C → S → L → S × L) (c : Config S L ι)
    (schedule : List (ι × C)) : Reaches (Chosen next) anyStep c (exec next c schedule) := by
  induction schedule generalizing c with
  | nil => exact .refl
  | cons move rest ih =>
    obtain ⟨t, a⟩ := move
    exact .head ⟨t, _, _, trivial, ⟨a, rfl⟩, rfl⟩ (ih _)

end Steps

/-! ### Counted runs -/

section Count
variable {C : Type*}

/-- A memory, and a count of what the threads did. -/
structure Counted (S : Type*) where
  state : S
  count : Nat

/-- The same step, which adds its cost to the count. -/
def counting (next : C → S → L → S × L) (cost : L → L → Nat) (a : C) (s : Counted S) (l : L) :
    Counted S × L :=
  let r := next a s.state l
  (⟨r.1, s.count + cost l r.2⟩, r.2)

/-- The configuration without the count. -/
def Config.uncount (c : Config (Counted S) L ι) : Config S L ι := ⟨c.shared.state, c.threads⟩

variable [DecidableEq ι]

theorem Chosen.uncount {next : C → S → L → S × L} {cost : L → L → Nat} {s s' : Counted S}
    {l l' : L} (h : Chosen (counting next cost) s l s' l') :
    Chosen next s.state l s'.state l' ∧ s'.count = s.count + cost l l' := by
  obtain ⟨a, ha⟩ := h
  cases ha
  exact ⟨⟨a, rfl⟩, rfl⟩

end Count

/-! ### More threads -/

section Embed
variable {κ : Type*} (f : ι ↪ κ) (l : L)

/-- The same configuration among more threads, all others at `l`. -/
noncomputable def Config.embed (c : Config S L ι) : Config S L κ :=
  ⟨c.shared, Function.extend f c.threads fun _ => l⟩

theorem Config.embed_threads (c : Config S L ι) (t : ι) :
    (c.embed f l).threads (f t) = c.threads t := by
  show Function.extend f c.threads (fun _ => l) (f t) = c.threads t
  rw [f.injective.extend_apply]

theorem Config.embed_threads_of_notMem (c : Config S L ι) {u : κ} (h : ¬ ∃ t, f t = u) :
    (c.embed f l).threads u = l := by
  show Function.extend f c.threads (fun _ => l) u = l
  rw [Function.extend_apply' _ _ _ h]

/-- Threads that all stand at `l`, among more of them. -/
theorem Config.embed_const (s : S) :
    (⟨s, fun _ => l⟩ : Config S L ι).embed f l = ⟨s, fun _ => l⟩ := by
  have hthreads : Function.extend f (fun _ => l) (fun _ => l) = fun _ => l := by
    funext u
    by_cases hu : ∃ t, f t = u
    · obtain ⟨t, rfl⟩ := hu
      rw [f.injective.extend_apply]
    · rw [Function.extend_apply' _ _ _ hu]
  rw [Config.embed, hthreads]

variable [DecidableEq ι] [DecidableEq κ]

theorem Config.embed_set (c : Config S L ι) (t : ι) (s : S) (m : L) :
    (c.set t s m).embed f l = (c.embed f l).set (f t) s m := by
  have hthreads : Function.extend f (Function.update c.threads t m) (fun _ => l) =
      Function.update (Function.extend f c.threads fun _ => l) (f t) m := by
    funext u
    by_cases hu : ∃ v, f v = u
    · obtain ⟨v, rfl⟩ := hu
      rw [f.injective.extend_apply]
      by_cases hv : v = t
      · rw [hv, Function.update_self, Function.update_self]
      · rw [Function.update_of_ne hv, Function.update_of_ne (f.injective.ne hv),
          f.injective.extend_apply]
    · rw [Function.extend_apply' _ _ _ hu,
        Function.update_of_ne (fun h => hu ⟨t, h.symm⟩), Function.extend_apply' _ _ _ hu]
  simp only [Config.embed, Config.set, hthreads]

/-- A run of some threads is a run of all, in which the others do not move. -/
theorem Reaches.embed {step : S → L → S → L → Prop} {ok : Config S L ι → ι → Prop}
    {ok' : Config S L κ → κ → Prop} (hok : ∀ c t, ok c t → ok' (c.embed f l) (f t))
    {c c' : Config S L ι} (hr : Reaches step ok c c') :
    Reaches step ok' (c.embed f l) (c'.embed f l) := by
  induction hr with
  | refl => exact .refl
  | tail _ hs ih =>
    obtain ⟨t, s, m, hguard, hstep, rfl⟩ := hs
    refine ih.tail ⟨f t, s, m, hok _ t hguard, ?_, Config.embed_set ..⟩
    rw [Config.embed_threads]
    exact hstep

end Embed

/-! ### Accounting -/

section Accounting
variable [Fintype ι] [DecidableEq ι] [AddCommMonoid M] (tok : L → M)

/-- The tokens of all threads. -/
def total (c : Config S L ι) : M := ∑ t, tok (c.threads t)

/-- The tokens of all threads but one. -/
def others (c : Config S L ι) (t : ι) : M := ∑ u ∈ Finset.univ.erase t, tok (c.threads u)

theorem total_eq (c : Config S L ι) (t : ι) :
    total tok c = tok (c.threads t) + others tok c t :=
  (Finset.add_sum_erase _ _ (Finset.mem_univ t)).symm

theorem others_set (c : Config S L ι) (t : ι) (s : S) (l : L) :
    others tok (c.set t s l) t = others tok c t := by
  refine Finset.sum_congr rfl fun u hu => ?_
  rw [c.set_threads_of_ne s l (Finset.ne_of_mem_erase hu)]

theorem total_set (c : Config S L ι) (t : ι) (s : S) (l : L) :
    total tok (c.set t s l) = tok l + others tok c t := by
  rw [total_eq tok _ t, others_set, Config.set_threads_self]

omit [DecidableEq ι] in
/-- Threads without tokens change no sum. -/
theorem total_embed {κ : Type*} [Fintype κ] (f : ι ↪ κ) {l : L} (hl : tok l = 0)
    (c : Config S L ι) : total tok (c.embed f l) = total tok c := by
  have himage : ∑ u ∈ Finset.univ.map f, tok ((c.embed f l).threads u) = total tok c := by
    rw [Finset.sum_map]
    exact Finset.sum_congr rfl fun t _ => by rw [Config.embed_threads]
  rw [← himage]
  symm
  apply Finset.sum_subset (Finset.subset_univ _)
  intro u _ hu
  rw [Config.embed_threads_of_notMem, hl]
  rintro ⟨t, rfl⟩
  exact hu (Finset.mem_map_of_mem f (Finset.mem_univ t))

/-- Another thread's tokens are among the others. -/
theorem others_eq (c : Config S L ι) {t u : ι} (h : u ≠ t) :
    ∃ r, others tok c t = tok (c.threads u) + r :=
  ⟨_, (Finset.add_sum_erase _ _ (Finset.mem_erase.mpr ⟨h, Finset.mem_univ u⟩)).symm⟩

/-- The memory agrees with the tokens, and every thread's own fact holds. -/
structure Accounting (glob : S → M → Prop) (loc : S → L → Prop) (c : Config S L ι) : Prop where
  glob : glob c.shared (total tok c)
  loc : ∀ t, loc c.shared (c.threads t)

variable {tok} {glob : S → M → Prop} {loc : S → L → Prop} {step : S → L → S → L → Prop}
  {ok : Config S L ι → ι → Prop}

/-- One step keeps the accounts: its own tokens are traded with those of the
other threads untouched, and no other position's fact is lost. -/
theorem Accounting.set
    (own : ∀ c t s' l', ok c t → loc c.shared (c.threads t) → step c.shared (c.threads t) s' l' →
      glob c.shared (tok (c.threads t) + others tok c t) →
      glob s' (tok l' + others tok c t) ∧ loc s' l')
    (other : ∀ s l s' l' m r, loc s l → loc s m → step s l s' l' →
      glob s (tok l + (tok m + r)) → loc s' m)
    {c : Config S L ι} (h : Accounting tok glob loc c) {t : ι} {s' : S} {l' : L} (hok : ok c t)
    (hs : step c.shared (c.threads t) s' l') : Accounting tok glob loc (c.set t s' l') := by
  have hg := h.glob
  rw [total_eq tok c t] at hg
  obtain ⟨hglob, hloc⟩ := own c t s' l' hok (h.loc t) hs hg
  refine ⟨by rw [total_set]; exact hglob, fun u => ?_⟩
  by_cases hu : u = t
  · subst hu
    rw [Config.set_threads_self]
    exact hloc
  · rw [c.set_threads_of_ne s' l' hu]
    obtain ⟨r, hr⟩ := others_eq tok c hu
    rw [hr] at hg
    exact other _ _ _ _ _ r (h.loc t) (h.loc u) hs hg

/-- The accounts hold wherever a guarded run leads. -/
theorem Accounting.reaches
    (own : ∀ c t s' l', ok c t → loc c.shared (c.threads t) → step c.shared (c.threads t) s' l' →
      glob c.shared (tok (c.threads t) + others tok c t) →
      glob s' (tok l' + others tok c t) ∧ loc s' l')
    (other : ∀ s l s' l' m r, loc s l → loc s m → step s l s' l' →
      glob s (tok l + (tok m + r)) → loc s' m)
    {c c' : Config S L ι} (h : Accounting tok glob loc c) (hr : Reaches step ok c c') :
    Accounting tok glob loc c' :=
  hr.invariant (fun _ _ _ _ h hok hs => h.set own other hok hs) h

end Accounting

end Interleaving
