import HyperCache.HashSkip.ConcurrentProofs

/-! What `Get` returns while other threads are at work.

A `Get` makes many accesses, and nodes are linked, written and marked between them. But the
last load of its search, or its load of the mark, or of the handle, tells what the list had
for the key at that access: a handle that `Get` returns was with the node of the key at some
moment of the call, and it returns nothing only if at some moment of the call the key had no
node, a marked one or one without a handle (`get_moment`). -/
namespace HyperCache.HashSkip.SharedSkipList
open AtomicSkipList Interleaving

/-- What `Get` may return of the list as it is: the handle of the key's node; or nothing, if
the key has no node that is unmarked and has a handle. -/
def Shows (l : AtomicSkipList) (key : Int64) : Option Handle → Prop
  | some handle => ∃ a ∈ l.nodes ++ [tail], (l.node a).key = key ∧ (l.node a).handle = some handle
  | none => ∀ a ∈ l.nodes ++ [tail], (l.node a).key = key → (l.node a).isMarked = true ∨ (l.node a).handle = none

/-- A `Get` of the key is in progress, and if it has its handle, this is in `G`. -/
def Getting (l : AtomicSkipList) (key : Int64) (G : Option Handle → Prop) : Pc → Prop
  | .getFind k full _ => k = key ∧ full = true
  | .getMarked k full node => k = key ∧ full = true ∧ (l.node node).key = key
  | .getHandle k node => k = key ∧ (l.node node).key = key
  | .hitLoad k _ handle => k = key ∧ G handle
  | .hitCas k _ handle _ => k = key ∧ G handle
  | _ => False

/-- A `Get` is in progress. -/
def Pc.reading : Pc → Bool
  | .getFind .. | .getMarked .. | .getHandle .. | .hitLoad .. | .hitCas .. => true
  | _ => false

section Step
variable {l : AtomicSkipList} {s s' : SharedSkipList} {pc pc' : Pc} {a : Choice} {key : Int64}
  {G : Option Handle → Prop} {r : Option Handle}

theorem Getting.keeps (h : Getting l key G pc) (hl : Local l pc) {l' : AtomicSkipList}
    (hk : Grows l l' l.nodes l'.nodes) : Getting l' key G pc := by
  cases pc with
  | getFind | hitLoad | hitCas => exact h
  | getMarked k full node => exact ⟨h.1, h.2.1, (hk.node node (List.mem_cons_of_mem _ hl)).1.trans h.2.2⟩
  | getHandle k node => exact ⟨h.1, (hk.node node (List.mem_cons_of_mem _ hl)).1.trans h.2⟩
  | _ => exact h.elim

theorem Getting.reading (h : Getting l key G pc) : pc.reading = true := by
  cases pc with
  | getFind | getMarked | getHandle | hitLoad | hitCas => rfl
  | _ => exact h.elim

/-- The last load of a search that has not found the key: no node has it. -/
theorem findStep_missed (h : Listed l l.nodes) {f f' : FindState} (hs : Searching l l.nodes key f)
    (hfind : l.findStep key f = .inr f') (hmiss : f'.found = false) {b : Nat} (hb : b ∈ l.nodes ++ [tail]) :
    (l.node b).key ≠ key := by
  intro hkey
  rw [findStep] at hfind
  split at hfind
  · cases hfind
  next hle =>
    cases hlevel : f.level with
    | succ level =>
      simp only [hlevel] at hfind
      cases hfind
    | zero =>
      simp only [hlevel] at hfind
      cases hfind
      have hnext : place key ≤ l.rank (l.next f.pred 0).raw := by
        obtain ⟨hmem, -⟩ := hs.forward h
        rw [hlevel] at hmem hle
        rw [rank_eq (h.ne_head hmem), place_le]
        exact Int64.not_lt.mp hle
      have heq := h.next_key hs.pred_mem hs.pred_lt hnext hb hkey
      obtain ⟨-, hdiffers⟩ := Bool.or_eq_false_iff.mp hmiss
      rw [heq] at hdiffers
      exact ne_of_beq_false hdiffers hkey

/-- `Get` returns the handle it has. -/
theorem incrHitCount_got (hin : G r) {node : Nat} {oldCount : Int16}
    (hstep : s.incrHitCount key node r oldCount = (s', pc')) :
    Getting s'.list key G pc' ∨ pc'.reading = false ∧ ∃ r, s'.replies = .got key r :: s.replies ∧ G r := by
  rw [incrHitCount] at hstep
  split at hstep
  · cases hstep
    exact .inr ⟨rfl, r, rfl, hin⟩
  · cases hstep
    exact .inl ⟨rfl, hin⟩

/-- **The step lemma**: an access of a `Get` of the key, as long as what the list shows at its
accesses is in `G`. -/
theorem step_getting (h : Listed s.list s.list.nodes) (hl : Local s.list pc) (hg : Getting s.list key G pc)
    (hshows : ∀ r, Shows s.list key r → G r) (hstep : step a s pc = (s', pc')) :
    Getting s'.list key G pc' ∨ pc'.reading = false ∧ ∃ r, s'.replies = .got key r :: s.replies ∧ G r := by
  cases pc with
  | getFind k full f =>
    obtain ⟨rfl, rfl⟩ := hg
    simp only [step] at hstep
    rcases findStep_spec h hl with ⟨f', hfind, -⟩ | ⟨f', hfind, hf'⟩
    · rw [hfind] at hstep
      cases hstep
      exact .inl ⟨rfl, rfl⟩
    · rw [hfind] at hstep
      cases hfound : f'.found with
      | true =>
        simp only [hfound, if_true] at hstep
        cases hstep
        exact .inl ⟨rfl, rfl, hf'.found hfound⟩
      | false =>
        simp only [hfound, Bool.false_eq_true, if_false] at hstep
        cases hstep
        refine .inr ⟨rfl, none, rfl, hshows none fun b hb hkey => ?_⟩
        exact absurd hkey (findStep_missed h hl hfind hfound hb)
  | getMarked k full node =>
    obtain ⟨rfl, rfl, hkey⟩ := hg
    simp only [step] at hstep
    split at hstep
    next hmark =>
      cases hstep
      refine .inr ⟨rfl, none, rfl, hshows none fun b hb hbkey => .inl ?_⟩
      rw [h.eq_of_key hb hl (hbkey.trans hkey.symm)]
      exact hmark
    next =>
      cases hstep
      exact .inl ⟨rfl, hkey⟩
  | getHandle k node =>
    obtain ⟨rfl, hkey⟩ := hg
    cases hstep
    refine .inl ⟨rfl, hshows _ ?_⟩
    cases hhandle : (s.list.node node).handle with
    | some handle => exact ⟨node, hl, hkey, hhandle⟩
    | none =>
      intro b hb hbkey
      rw [h.eq_of_key hb hl (hbkey.trans hkey.symm)]
      exact .inr hhandle
  | hitLoad k node handle =>
    obtain ⟨rfl, hin⟩ := hg
    exact incrHitCount_got hin hstep
  | hitCas k node handle oldCount =>
    obtain ⟨rfl, hin⟩ := hg
    simp only [step] at hstep
    split at hstep
    · cases hstep
      exact .inr ⟨rfl, handle, rfl, hin⟩
    · exact incrHitCount_got hin hstep
  | _ => exact hg.elim

end Step

/-! ### Runs -/

section Run
variable {ι : Type*} [Fintype ι] [DecidableEq ι] {c : Config SharedSkipList Pc ι} {t : ι} {key : Int64}
  {G : Option Handle → Prop}

omit [DecidableEq ι] in
theorem Accounts.listed (h : Accounts c) : Listed c.shared.list c.shared.list.nodes := h.glob.listed

/-- **The run lemma**: over a schedule in which the call lasts, what it returns at last is in
`G`, if what the list shows in all states of the schedule is. -/
theorem Accounts.got (h : Accounts c) (hg : Getting c.shared.list key G (c.threads t))
    (schedule : List (ι × Choice))
    (hbusy : ∀ done, done <+: schedule → ((exec step c done).threads t).reading = true)
    (hshows : ∀ done, done <+: schedule → ∀ r, Shows (exec step c done).shared.list key r → G r)
    {a : Choice} {s' : SharedSkipList} {pc' : Pc}
    (hlast : step a (exec step c schedule).shared ((exec step c schedule).threads t) = (s', pc'))
    (hdone : pc'.reading = false) :
    ∃ r, s'.replies = .got key r :: (exec step c schedule).shared.replies ∧ G r := by
  induction schedule generalizing c with
  | nil =>
    rcases step_getting h.listed (h.loc t) hg (hshows [] (List.prefix_refl _)) hlast with hmore | ⟨-, hend⟩
    · rw [hmore.reading] at hdone
      cases hdone
    · exact hend
  | cons move rest ih =>
    obtain ⟨u, b⟩ := move
    obtain ⟨s₁, pc₁, hmove⟩ : ∃ s₁ pc₁, step b c.shared (c.threads u) = (s₁, pc₁) := ⟨_, _, rfl⟩
    have hexec : ∀ done, exec step c ((u, b) :: done) = exec step (c.set u s₁ pc₁) done := fun done => by
      rw [exec, hmove]
    have hlonger : ∀ {done}, done <+: rest → (u, b) :: done <+: (u, b) :: rest := fun hdone =>
      List.cons_prefix_cons.mpr ⟨rfl, hdone⟩
    rw [hexec] at hlast ⊢
    refine ih (h.set ⟨b, hmove⟩) ?_ (fun done hdone => ?_) (fun done hdone => ?_) hlast
    · by_cases hut : u = t
      · subst hut
        rw [Config.set_threads_self, Config.set_shared]
        rcases step_getting h.listed (h.loc u) hg (hshows [] List.nil_prefix) hmove with hmore | ⟨hend, -⟩
        · exact hmore
        · have hlasts := hbusy _ (hlonger List.nil_prefix)
          rw [hexec, exec, Config.set_threads_self, hend] at hlasts
          cases hlasts
      · rw [c.set_threads_of_ne _ _ (Ne.symm hut), Config.set_shared]
        exact hg.keeps (h.loc t) (h.grows ⟨b, hmove⟩)
    · rw [← hexec]
      exact hbusy _ (hlonger hdone)
    · rw [← hexec]
      exact hshows _ (hlonger hdone)

/-- **`Get` returns what the list had** for its key at some moment of the call, whatever other
threads do: in any run of any number of threads. -/
theorem get_moment (hr : Reaches (Chosen step) anyStep initial c)
    (hstart : c.threads t = .getFind key true FindState.start) {schedule : List (ι × Choice)}
    (hbusy : ∀ done, done <+: schedule → ((exec step c done).threads t).reading = true) {a : Choice}
    (hdone : (step a (exec step c schedule).shared ((exec step c schedule).threads t)).2.reading = false) :
    ∃ r, (step a (exec step c schedule).shared ((exec step c schedule).threads t)).1.replies =
        .got key r :: (exec step c schedule).shared.replies ∧
      ∃ done, done <+: schedule ∧ Shows (exec step c done).shared.list key r := by
  have h : Accounts c := initial_accounts.reaches hr
  have hg : Getting c.shared.list key
      (fun r => ∃ done, done <+: schedule ∧ Shows (exec step c done).shared.list key r) (c.threads t) := by
    rw [hstart]
    exact ⟨rfl, rfl⟩
  exact h.got hg schedule hbusy (fun done hdone r hshown => ⟨done, hdone, hshown⟩) rfl hdone

end Run

/-- Thread 0 has inserted a key, and thread 1 begins to read it. -/
def begun : Config SharedSkipList Pc (Fin 2) :=
  exec step initial ((0, .insert 7 (some ⟨0, 1⟩)) :: (goes 0 16 ++ (0, .new 3 0) :: (goes 0 3 ++ [(1, .get 7)])))

/-- Thread 0 replaces the handle before thread 1 loads it. -/
def rewritten : List (Fin 2 × Choice) :=
  goes 1 17 ++ (0, .insert 7 (some ⟨1, 1⟩)) :: (goes 0 17 ++ goes 1 2)

set_option maxRecDepth 4000 in
theorem get_moment_rewritten :
    ∃ r, (step .go (exec step begun rewritten).shared ((exec step begun rewritten).threads 1)).1.replies =
        .got 7 r :: (exec step begun rewritten).shared.replies ∧
      ∃ done, done <+: rewritten ∧ Shows (exec step begun done).shared.list 7 r := by
  have hbusy : ∀ n < 38, ((exec step begun (rewritten.take n)).threads 1).reading = true := by
    decide +kernel
  refine get_moment (reaches_exec ..) rfl (fun done hdone => ?_) (by decide +kernel)
  rw [List.prefix_iff_eq_take.mp hdone]
  exact hbusy _ (Nat.lt_succ_of_le hdone.length_le)

end HyperCache.HashSkip.SharedSkipList
