import HyperCache.HashSkip.Handles

/-! What a lost race at level 0 costs.

The handle of a node whose link fails is deleted with the node, and nothing brings it back:
from then on there are fewer handles in the list, with calls in progress and among the answers
than there were passed (`Missing`). After the calls each handle passed is with a node or
returned, so a run keeps all handles if and only if no such link has failed
(`run_handed_iff`). -/
namespace HyperCache.HashSkip.SharedSkipList
open AtomicSkipList Interleaving

/-- The handles in the list, and those that calls have returned. -/
def sighted (s : SharedSkipList) : Nat :=
  (s.list.nodes ++ [tail]).countP (fun a => (s.list.node a).handle.isSome) + s.answers.countP fun p => p.2.isSome

/-- One for a position that has a handle in hand. -/
def Pc.holds (l : AtomicSkipList) (pc : Pc) : Nat := (pc.hand l).toList.length

section Step
variable {s s' : SharedSkipList} {pc pc' : Pc} {c : Choice}

theorem countP_isSome_cons {α : Type*} (x : α) (xs : List α) (f : α → Option Handle) :
    (x :: xs).countP (fun a => (f a).isSome) = xs.countP (fun a => (f a).isSome) + (f x).toList.length := by
  rw [List.countP_cons]
  cases f x with
  | none => rfl
  | some handle => rfl

/-- **The step lemma**: no access makes a handle but the call that passes it. -/
theorem Turn.sighted_le (ht : Turn s pc s' pc') (h : Listed s.list s.list.nodes) (h' : Listed s'.list s'.list.nodes) :
    s'.sighted + pc'.holds s'.list + s.passed.length ≤ s.sighted + pc.holds s.list + s'.passed.length := by
  rw [sighted, sighted, Pc.holds, Pc.holds]
  cases ht with
  | still list passed answers debts hand =>
    have hnodes : (s'.list.nodes ++ [tail]).countP (fun a => (s'.list.node a).handle.isSome) =
        (s.list.nodes ++ [tail]).countP fun a => (s.list.node a).handle.isSome := by
      rw [list.nodes]
      exact List.countP_congr fun a ha => by rw [(list.node a ha).2]
    rw [hnodes, answers, hand, passed]
  | begin key handle before after list passed answers taken =>
    rw [list, answers, ← list, taken, passed, List.length_append, list]
    simp only [Option.toList_some, List.length_singleton]
    omega
  | update i node before after mem carried list passed answers hand placed =>
    have hnodes : s'.list.nodes = s.list.nodes := by
      rw [list]
      exact (quiet_setNode (n := {s.list.node node with handle := i.handle}) h rfl rfl rfl fun _ => rfl).nodes
    have hself : (s'.list.node node).handle = i.handle := by
      rw [list, updateHandle, node_setNode_self]
    have hothers : ((s.list.nodes ++ [tail]).erase node).countP (fun a => (s'.list.node a).handle.isSome) =
        ((s.list.nodes ++ [tail]).erase node).countP fun a => (s.list.node a).handle.isSome := by
      refine List.countP_congr fun a ha => ?_
      rw [list, updateHandle, node_setNode_of_ne _ _ ((nodes_nodup h).mem_erase_iff.mp ha).1]
    have hperm := List.perm_cons_erase mem
    rw [hnodes, answers, hand, placed, passed, hperm.countP_eq, hperm.countP_eq, countP_isSome_cons,
      countP_isSome_cons, countP_isSome_cons, hself, hothers]
    simp only [Option.toList_none, List.length_nil]
    omega
  | link i newNode before after fresh carried mem node passed answers hand placed =>
    have hsame : ∀ xs : List Nat, xs.countP (fun a => (s'.list.node a).handle.isSome) =
        xs.countP fun a => (s.list.node a).handle.isSome :=
      fun xs => List.countP_congr fun a _ => by rw [(node a).2]
    rw [hsame, (nodes_linked h h' fresh mem).countP_eq, countP_isSome_cons, answers, hand, placed, passed]
    simp only [Option.toList_none, List.length_nil]
    omega
  | count i before after list passed answers placed =>
    have hnodes : (s'.list.nodes ++ [tail]).countP (fun a => (s'.list.node a).handle.isSome) =
        (s.list.nodes ++ [tail]).countP fun a => (s.list.node a).handle.isSome := by
      rw [list.nodes]
      exact List.countP_congr fun a ha => by rw [(list.node a ha).2]
    rw [hnodes, answers, placed, passed, countP_isSome_cons]
    exact Nat.add_le_add_right (Nat.add_le_add_left (Nat.zero_le _) _) _
  | lost beaten list passed answers gone =>
    rw [gone, list, answers, passed]
    exact Nat.add_le_add_right (Nat.add_le_add_left (Nat.zero_le _) _) _

/-- A link that fails loses what the position has in hand. -/
theorem step_beaten (hmoved : pc.Moved) (hbeaten : ¬ pc.Unbeaten s.list) (hstep : step c s pc = (s', pc')) :
    s'.list = s.list ∧ s'.replies = s.replies ∧ s'.passed = s.passed ∧ pc'.hand s'.list = none := by
  cases pc with
  | insertLink i f newNode topLevel =>
    simp only [Pc.Unbeaten] at hbeaten
    simp only [step, linkLevel, if_neg hbeaten] at hstep
    cases hstep
    exact ⟨rfl, rfl, rfl, hmoved⟩
  | _ => exact absurd trivial hbeaten

/-- Nobody passes null. -/
theorem Turn.solid (ht : Turn s pc s' pc') (h : ∀ p ∈ s.passed, p.2 ≠ none) : ∀ p ∈ s'.passed, p.2 ≠ none := by
  cases ht with
  | begin key handle _ _ _ passed =>
    rw [passed]
    intro p hp
    rcases List.mem_append.mp hp with hp | hp
    · exact h p hp
    · rw [List.mem_singleton.mp hp]
      exact Option.some_ne_none handle
  | still _ passed | update _ _ _ _ _ _ _ passed | link _ _ _ _ _ _ _ _ passed | count _ _ _ _ passed
  | lost _ _ passed =>
    rw [passed]
    exact h

/-- Other threads leave a position what it has in hand. -/
theorem Keeps.hand {l l' : AtomicSkipList} (h : Keeps l l' pc.claims) : pc.hand l' = pc.hand l := by
  cases pc with
  | insertStore i f newNode topLevel level =>
    exact congrArg Node.handle (h.owned newNode (Multiset.mem_singleton_self _))
  | insertLink i f newNode topLevel =>
    exact congrArg Node.handle (h.owned newNode (Multiset.mem_singleton_self _))
  | _ => rfl

/-- After the calls no handle that was passed is out of sight. -/
theorem Handed.passed_le {cur old : Nat → Option Nat} (h : Handed s cur old) (hsolid : ∀ p ∈ s.passed, p.2 ≠ none) :
    s.passed.length ≤ s.sighted := by
  have hgiven : ∀ i < s.passed.length, (s.given i).isSome = true := by
    intro i hi
    rw [given, List.getElem?_eq_getElem hi, Option.bind_some, Option.isSome_iff_ne_none]
    exact hsolid _ (List.getElem_mem hi)
  have hall : List.range s.passed.length ⊆
      ((s.list.nodes ++ [tail]).filter fun a => (s.list.node a).handle.isSome).filterMap cur ++
        (s.answers.filter fun p => p.2.isSome).filterMap fun p => old p.1 := by
    intro i hi
    have hi := List.mem_range.mp hi
    rw [List.mem_append, List.mem_filterMap, List.mem_filterMap]
    rcases h.either i hi with ⟨⟨a, ha, hcur⟩, -⟩ | ⟨-, j, hold, -⟩
    · refine .inl ⟨a, List.mem_filter.mpr ⟨ha, ?_⟩, hcur⟩
      have hnode := hgiven i hi
      rw [given, h.current a ha i hcur] at hnode
      exact hnode
    · have hj : j < s.passed.length := by
        have hkey := (h.other j i hold).2
        rw [keyOf, keyOf, List.getElem?_eq_getElem hi, Option.map_some] at hkey
        obtain ⟨p, hp, -⟩ := Option.map_eq_some_iff.mp hkey.symm
        exact (List.getElem?_eq_some_iff.mp hp).1
      have hreturned := (h.returned j (s.given i)).mpr ⟨hj, by rw [hold, Option.bind_some]⟩
      exact .inr ⟨(j, s.given i), List.mem_filter.mpr ⟨mem_answers.mpr hreturned, hgiven i hi⟩, hold⟩
  have hle := (List.subperm_of_subset List.nodup_range hall).length_le
  rw [List.length_range, List.length_append] at hle
  refine hle.trans (Nat.add_le_add ?_ ?_)
  · rw [List.countP_eq_length_filter]
    exact List.length_filterMap_le ..
  · rw [List.countP_eq_length_filter]
    exact List.length_filterMap_le ..

end Step

/-! ### Runs -/

section Run
variable {ι : Type*} [Fintype ι] [DecidableEq ι] {c : Config SharedSkipList Pc ι} {t : ι} {k : Nat}
  {s' : SharedSkipList} {pc' : Pc}

/-- At least `k` of the handles passed are nowhere any more. -/
structure Missing (k : Nat) (c : Config SharedSkipList Pc ι) : Prop where
  sound : Giving.Sound c
  solid : ∀ p ∈ c.shared.passed, p.2 ≠ none
  missing : c.shared.sighted + total (Pc.holds c.shared.list) c + k ≤ c.shared.passed.length

omit [DecidableEq ι] in
theorem initial_missing : Missing 0 (initial : Config SharedSkipList Pc ι) := by
  have hnodes : make.list.nodes = [] := make_listed.nodes_eq
  have htotal : total (Pc.holds make.list) (initial : Config SharedSkipList Pc ι) = 0 := Finset.sum_const_zero
  refine ⟨initial_sound, fun _ hp => absurd hp List.not_mem_nil, ?_⟩
  show make.sighted + total (Pc.holds make.list) initial + 0 ≤ make.passed.length
  rw [htotal, sighted, hnodes]
  decide

/-- What the other threads have in hand. -/
theorem others_holds {l l' : AtomicSkipList} (h : ∀ u ≠ t, Keeps l l' (c.threads u).claims) :
    others (Pc.holds l') c t = others (Pc.holds l) c t := by
  refine Finset.sum_congr rfl fun u hu => ?_
  rw [Pc.holds, Pc.holds, (h u (Finset.ne_of_mem_erase hu)).hand]

/-- What is missing stays missing. -/
theorem Missing.set (h : Missing k c) (hstep : Giving c.shared (c.threads t) s' pc') :
    Missing k (c.set t s' pc') := by
  obtain ⟨hsound, hturn, -, hkeeps⟩ := h.sound.set hstep
  refine ⟨hsound, hturn.solid h.solid, ?_⟩
  have hmissing := h.missing
  have hle := hturn.sighted_le h.sound.accounts.glob.listed hsound.accounts.glob.listed
  rw [total_eq _ c t] at hmissing
  rw [total_set, Config.set_shared, others_holds hkeeps]
  omega

/-- A link that fails loses a handle. -/
theorem Missing.beaten (h : Missing k c) (hbeaten : ¬ Unbeaten c t)
    (hhand : (c.threads t).hand c.shared.list ≠ none) (hstep : Giving c.shared (c.threads t) s' pc') :
    Missing (k + 1) (c.set t s' pc') := by
  obtain ⟨hsound, hturn, -, hkeeps⟩ := h.sound.set hstep
  obtain ⟨a, hstep⟩ := hstep
  obtain ⟨hlist, hreplies, hpassed, hnone⟩ := step_beaten (h.sound.moved t) hbeaten hstep
  refine ⟨hsound, hturn.solid h.solid, ?_⟩
  have hmissing := h.missing
  have hone : (c.threads t).holds c.shared.list = 1 := by
    obtain ⟨handle, hhandle⟩ := Option.ne_none_iff_exists'.mp hhand
    rw [Pc.holds, hhandle]
    rfl
  rw [total_eq _ c t, hone] at hmissing
  rw [total_set, Config.set_shared, others_holds hkeeps, Pc.holds, hnone, hpassed, sighted, answers, hlist, hreplies,
    ← answers, ← sighted, Option.toList_none, List.length_nil]
  omega

omit [DecidableEq ι] in
/-- A thread whose link fails has a handle in hand, if none has been lost before. -/
theorem Accounted.hand (h : Accounted c) (hbeaten : ¬ Unbeaten c t) : (c.threads t).hand c.shared.list ≠ none := by
  obtain ⟨cur, old, hledger⟩ := h.ledger
  have hcarried := h.carried t
  rw [Unbeaten] at hbeaten
  revert hcarried hbeaten
  cases c.threads t with
  | insertLink i f newNode topLevel =>
    exact fun _ hcarried => hledger.solid _ (List.mem_of_getElem? hcarried)
  | _ => exact fun hbeaten _ => absurd trivial hbeaten

/-- **The run lemma**: from a state in which every handle is accounted for, a run with a link that
fails misses one. -/
theorem Accounted.missing (h : Accounted c) (hmissing : Missing 0 c)
    {schedule : List (ι × {c : Choice // c.gives = true})}
    (hbeaten : ¬ Guarded (fun c => step c.1) Unbeaten c schedule) :
    Missing 1 (exec (fun c => step c.1) c schedule) := by
  induction schedule generalizing c with
  | nil => exact absurd trivial hbeaten
  | cons move rest ih =>
    obtain ⟨t, a⟩ := move
    have hstep : Giving c.shared (c.threads t) (step a.1 c.shared (c.threads t)).1
        (step a.1 c.shared (c.threads t)).2 := ⟨a, rfl⟩
    by_cases hun : Unbeaten c t
    · exact ih (h.set hun hstep) (hmissing.set hstep) fun hrest => hbeaten ⟨hun, hrest⟩
    · refine (reaches_exec _ _ rest).invariant (fun _ _ _ _ hm _ hs => hm.set hs) ?_
      exact hmissing.beaten hun (h.hand hun) hstep

/-- What a schedule makes of a new list. -/
def played (schedule : List (ι × {c : Choice // c.gives = true})) : Config SharedSkipList Pc ι :=
  exec (fun c => step c.1) initial schedule

/-- Every node always has a handle, and at last each handle passed is with the node of its key, or
exactly one other `Insert` of this key has returned it. -/
def KeepsHandles (schedule : List (ι × {c : Choice // c.gives = true})) : Prop :=
  (∀ past, past <+: schedule → ∀ a ∈ (played past).shared.list.nodes,
    ((played past).shared.list.node a).handle ≠ none) ∧ ∃ cur old, Handed (played schedule).shared cur old

/-- **When all handles are kept**: a run of insertions after which none is in progress keeps them
if and only if no link at level 0 has failed. -/
theorem run_handed_iff {schedule : List (ι × {c : Choice // c.gives = true})}
    (hidle : ∀ t, ((played schedule).threads t).inserting = false) :
    KeepsHandles schedule ↔ Guarded (fun c => step c.1) Unbeaten initial schedule := by
  constructor
  · rintro ⟨-, cur, old, hhanded⟩
    by_contra hbeaten
    have hmissing : Missing 1 (played schedule) := initial_accounted.missing initial_missing hbeaten
    have hle := hhanded.passed_le hmissing.solid
    have hone := hmissing.missing
    omega
  · intro hguarded
    refine ⟨?_, (accounted_of_reaches (reaches_exec_guarded hguarded)).handed hidle⟩
    rintro past ⟨rest, rfl⟩
    exact (accounted_of_reaches (reaches_exec_guarded hguarded.left)).solid

end Run

/-- An `Insert` of thread 1 replaces the handle of thread 0 before it is counted: nothing is lost. -/
theorem run_handed_iff_replaced : KeepsHandles replaced :=
  (run_handed_iff (by decide +kernel)).mpr (by decide +kernel)

/-- Two threads insert one key; the link of the second fails, and it stores null in the node of the
first. -/
def raced : List (Fin 2 × {c : Choice // c.gives = true}) :=
  (0, ⟨.insert 5 (some ⟨0, 1⟩), rfl⟩) :: (1, ⟨.insert 5 (some ⟨1, 1⟩), rfl⟩) :: (walks 0 16 ++ (walks 1 16 ++
    (0, ⟨.new 3 0, rfl⟩) :: (1, ⟨.new 4 0, rfl⟩) :: (walks 0 1 ++ (walks 1 1 ++ (walks 0 1 ++ (walks 1 1 ++
      (walks 1 17 ++ walks 0 1)))))))

theorem raced_loses : ¬ ∀ schedule : List (Fin 2 × {c : Choice // c.gives = true}),
    (∀ t, ((played schedule).threads t).inserting = false) → KeepsHandles schedule := by
  intro hclaim
  have hnone : ((played raced).shared.list.node 3).handle = none := by
    decide +kernel
  exact (hclaim raced (by decide +kernel)).1 raced (List.prefix_refl _) 3 (by decide +kernel) hnone

end HyperCache.HashSkip.SharedSkipList
