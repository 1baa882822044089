import HyperCache.HashSkip.ConcurrentProofs

/-! The levels of the skip list above 0, with any number of threads at work.

A new node gets its pointers from the search before its link at level 0. When a link above
fails, `Insert` searches anew and compares with what it finds then, but the pointers of the
node stay. A node that was linked in between is then skipped on that level (`skipped`). As
long as every link finds the successor its node points to, each level holds the nodes of
that height that no thread is still to link there (`Towers`), so all of them when no
`Insert` is in progress (`reaches_levels`). -/
namespace HyperCache.HashSkip.SharedSkipList
open AtomicSkipList Interleaving

/-- The node a thread is still to link, and from which level on. -/
def Pc.rising : Pc → Option (Nat × Nat)
  | .insertUpper _ _ newNode _ level | .insertSearch _ _ newNode _ level => some (newNode, level)
  | _ => none

/-- A link above level 0 whose compare-and-swap succeeds replaces a pointer to where the new
node points itself. -/
def Fits (c : Choice) (s : SharedSkipList) : Pc → Prop
  | .insertUpper _ f newNode _ level =>
    c.isSpurious = false → s.list.next (f.preds level) level = f.succs level →
      (s.list.next newNode level).raw = (f.succs level).raw
  | _ => True

/-- A step that meets the condition. -/
def Fitting (s : SharedSkipList) (pc : Pc) (s' : SharedSkipList) (pc' : Pc) : Prop :=
  ∃ c, step c s pc = (s', pc') ∧ Fits c s pc

/-! ### What a step shows on the levels -/

/-- The levels stay as they are. -/
structure Quiet (l l' : AtomicSkipList) : Prop where
  nodes : l'.nodes = l.nodes
  raw : ∀ a ∈ head :: l.nodes, ∀ level, (l'.next a level).raw = (l.next a level).raw

theorem Quiet.refl (l : AtomicSkipList) : Quiet l l := ⟨rfl, fun _ _ _ => rfl⟩

section Quiet
variable {l l' : AtomicSkipList} {a : Nat} (h : Listed l l.nodes)
include h

/-- Nodes outside the list do not matter. -/
theorem quiet_of_same (hsame : ∀ a ∈ head :: l.nodes ++ [tail], l'.node a = l.node a)
    (hsize : l.size ≤ l'.size) : Quiet l l' := by
  have hraw : ∀ a ∈ head :: l.nodes, ∀ level, (l'.next a level).raw = (l.next a level).raw := by
    intro a ha level
    rw [next, next, hsame a (List.mem_append_left _ ha)]
  have hlisted : Listed l' l.nodes := by
    apply h.congr ?_ hraw hsize
    intro a ha
    rw [hsame a ha]
    exact ⟨rfl, rfl, rfl⟩
  exact ⟨hlisted.nodes_eq, hraw⟩

/-- Nor do handles, hit counts, marks and versions. -/
theorem quiet_setNode {n : Node} (hkey : n.key = (l.node a).key) (htop : n.topLevel = (l.node a).topLevel)
    (hlen : n.nexts.length = (l.node a).nexts.length)
    (hraw : ∀ level, (n.next level).raw = (l.next a level).raw) : Quiet l (l.setNode a n) := by
  refine ⟨(h.setNode hkey htop hlen hraw).nodes_eq, fun b _ level => ?_⟩
  by_cases hb : b = a
  · subst hb
    rw [next, node_setNode_self]
    exact hraw level
  · rw [next, next, node_setNode_of_ne l n hb]

end Quiet

/-- What one access does to the levels: nothing, a link at level 0, or one above. -/
inductive Effect (s : SharedSkipList) (pc : Pc) (s' : SharedSkipList) (pc' : Pc) : Prop where
  | quiet (list : Quiet s.list s'.list) (same : pc'.rising = pc.rising)
  | link (i : InsertCall) (f : FindState) (newNode topLevel : Nat) (before : pc.rising = none)
      (after : pc' = linkFrom i f newNode topLevel 1) (fresh : newNode ∉ s.list.nodes)
      (top : (s'.list.node newNode).topLevel = topLevel)
      (mem : ∀ a, a ∈ s'.list.nodes ↔ a = newNode ∨ a ∈ s.list.nodes)
      (above : ∀ a level, level ≠ 0 → s'.list.next a level = s.list.next a level)
  | rise (i : InsertCall) (f : FindState) (newNode topLevel level : Nat)
      (before : pc = .insertUpper i f newNode topLevel level)
      (after : pc' = linkFrom i f newNode topLevel (level + 1))
      (swap : s.list.next (f.preds level) level = f.succs level)
      (fit : (s.list.next newNode level).raw = (f.succs level).raw)
      (list : s'.list = s.list.setNext (f.preds level) level ⟨newNode, (f.succs level).version + 1, false⟩)
      (nodes : s'.list.nodes = s.list.nodes)

section Step
variable {s s' : SharedSkipList} {pc pc' : Pc} {c : Choice} {r : Multiset Claim}

/-- A step that leaves the list alone. -/
theorem Effect.still (hlist : s'.list = s.list) (hrising : pc'.rising = pc.rising) :
    Effect s pc s' pc' := .quiet (hlist ▸ Quiet.refl _) hrising

theorem incrHitCount_effect {key : Int64} {node : Nat} {handle : Option Handle} {oldCount : Int16}
    (hpc : pc.rising = none) (hstep : s.incrHitCount key node handle oldCount = (s', pc')) :
    Effect s pc s' pc' := by
  rw [incrHitCount] at hstep
  split at hstep
  · cases hstep
    exact .still rfl hpc.symm
  · cases hstep
    exact .still rfl hpc.symm

theorem markDeleted_effect {node : Nat} {expected : MarkVersionedPtr} (hpc : pc.rising = none)
    (hstep : s.markDeleted node expected = (s', pc')) : Effect s pc s' pc' := by
  rw [markDeleted] at hstep
  split at hstep
  · cases hstep
    exact .still rfl hpc.symm
  · cases hstep
    exact .still rfl hpc.symm

/-- The pointers of a new node, one after the other: nothing rises yet. -/
theorem storeFrom_rising (i : InsertCall) (f : FindState) (newNode topLevel level : Nat) :
    (storeFrom i f newNode topLevel level).rising = none := by
  rw [storeFrom]
  split
  · rfl
  · rfl

/-- **The inversion of a step**, as far as the levels go. -/
theorem step_effect (h : Global s.list s.live (pc.claims + r)) (hl : Local s.list pc)
    (hstep : step c s pc = (s', pc')) (hfits : Fits c s pc) : Effect s pc s' pc' := by
  have hlisted := h.listed
  have hsearch : ∀ {key : Int64} {f : FindState}, Searching s.list s.list.nodes key f →
      (∃ f', s.list.findStep key f = .inl f') ∨ ∃ f', s.list.findStep key f = .inr f' := by
    intro key f hs
    rcases findStep_spec hlisted hs with ⟨f', hfind, -⟩ | ⟨f', hfind, -⟩
    · exact .inl ⟨f', hfind⟩
    · exact .inr ⟨f', hfind⟩
  cases pc with
  | ready =>
    cases c with
    | insert key handle =>
      simp only [step, call] at hstep
      split at hstep
      · cases hstep
        exact .still rfl rfl
      · cases hstep
        exact .still rfl rfl
    | markDeleted node =>
      simp only [step, call] at hstep
      cases hstep
      refine .still rfl ?_
      split
      · rfl
      · rfl
    | getNode | get | new | go | spurious =>
      cases hstep
      exact .still rfl rfl
  | insertFind i f =>
    simp only [step] at hstep
    rcases hsearch hl with ⟨f', hfind⟩ | ⟨f', hfind⟩
    · rw [hfind] at hstep
      cases hstep
      exact .still rfl rfl
    · rw [hfind] at hstep
      cases hstep
      refine .still rfl ?_
      split
      · rfl
      · rfl
  | insertUpdate i node =>
    cases hstep
    exact .quiet (quiet_setNode hlisted rfl rfl rfl fun _ => rfl) rfl
  | insertNew i f =>
    cases c with
    | new address topLevel =>
      simp only [step] at hstep
      split at hstep
      · rename_i hnew
        cases hstep
        refine .quiet (quiet_of_same hlisted (fun b hb => ?_) (Nat.le_max_left ..)) (storeFrom_rising ..)
        have hne : b ≠ address := by
          rintro rfl
          exact absurd (h.inUse b hb) (by rw [hnew.1.2.2]; decide)
        exact node_setNode_of_ne s.list _ hne
      · cases hstep
        exact .still rfl rfl
    | insert | getNode | get | markDeleted | go | spurious =>
      cases hstep
      exact .still rfl rfl
  | insertStore i f newNode topLevel level =>
    cases hstep
    refine .quiet (quiet_of_same hlisted (fun b hb => ?_) (Nat.le_refl _)) (storeFrom_rising ..)
    have hne : b ≠ newNode := by
      rintro rfl
      exact h.not_owned hb (Multiset.mem_add.mpr (.inl (Multiset.mem_singleton_self _)))
    exact node_setNode_of_ne s.list _ hne
  | insertLink i f newNode topLevel =>
    obtain ⟨⟨hf, hmiss⟩, hfill⟩ := hl
    simp only [step, linkLevel] at hstep
    by_cases hcas : s.list.next (f.preds 0) 0 = f.succs 0
    · rw [if_pos hcas] at hstep
      cases hstep
      have hzero := hf.between 0 (Nat.zero_le _)
      have hprepared := hfill.prepared h hf hmiss
      obtain ⟨as, hlinked, hmem⟩ := hlisted.linkPrepared (w := ⟨newNode, (f.succs 0).version + 1, false⟩)
        hprepared hzero.pred_mem hzero.pred_lt (by rw [hfill.stored 0 (Nat.succ_pos _), hcas]) rfl
      refine .link i f newNode topLevel rfl rfl hprepared.fresh ?_ (fun a => ?_) fun a level hlevel => ?_
      · exact (node_setNext s.list (f.preds 0) 0 _ newNode).2.1.trans hfill.top
      · show a ∈ (s.list.setNext (f.preds 0) 0 _).nodes ↔ _
        rw [hlinked.nodes_eq]
        exact hmem a
      · exact next_setNext_of_ne s.list _ (.inr hlevel)
    · rw [if_neg hcas] at hstep
      cases hstep
      exact .still rfl rfl
  | insertUpper i f newNode topLevel level =>
    obtain ⟨hf, hr⟩ := hl
    simp only [step, linkLevel] at hstep
    split at hstep
    · cases hstep
      exact .still rfl rfl
    · rename_i hsure
      by_cases hcas : s.list.next (f.preds level) level = f.succs level
      · rw [if_pos hcas] at hstep
        cases hstep
        have hnodes := (rise_listed (w := ⟨newNode, (f.succs level).version + 1, false⟩)
          hlisted hf hr rfl).nodes_eq
        exact .rise i f newNode topLevel level rfl rfl hcas
          (hfits (Bool.eq_false_iff.mpr hsure) hcas) rfl hnodes
      · rw [if_neg hcas] at hstep
        cases hstep
        exact .still rfl rfl
  | insertSearch i f newNode topLevel level =>
    simp only [step] at hstep
    rcases hsearch hl.1 with ⟨f', hfind⟩ | ⟨f', hfind⟩
    · rw [hfind] at hstep
      cases hstep
      exact .still rfl rfl
    · rw [hfind] at hstep
      cases hstep
      exact .still rfl rfl
  | insertCount i =>
    cases hstep
    exact .quiet (quiet_of_same hlisted (fun _ _ => rfl) (Nat.le_refl _)) rfl
  | getFind key full f =>
    simp only [step] at hstep
    rcases hsearch hl with ⟨f', hfind⟩ | ⟨f', hfind⟩
    · rw [hfind] at hstep
      cases hstep
      exact .still rfl rfl
    · rw [hfind] at hstep
      simp only at hstep
      split at hstep
      · cases hstep
        exact .still rfl rfl
      · cases hstep
        exact .still rfl rfl
  | getMarked key full node =>
    simp only [step] at hstep
    split at hstep
    · cases hstep
      exact .still rfl rfl
    · split at hstep
      · cases hstep
        exact .still rfl rfl
      · cases hstep
        exact .still rfl rfl
  | getHandle key node =>
    cases hstep
    exact .still rfl rfl
  | hitLoad key node handle => exact incrHitCount_effect rfl hstep
  | hitCas key node handle oldCount =>
    simp only [step] at hstep
    split at hstep
    · cases hstep
      exact .quiet (quiet_setNode hlisted rfl rfl rfl fun _ => rfl) rfl
    · exact incrHitCount_effect rfl hstep
  | markLoad node => exact markDeleted_effect rfl hstep
  | markCas node expected =>
    simp only [step] at hstep
    split at hstep
    · rename_i hcas
      cases hstep
      have hraw := congrArg MarkVersionedPtr.raw hcas.1
      exact .quiet (quiet_setNode hlisted rfl rfl List.length_set
        (raw_set (w := ⟨expected.raw, expected.version + 1, true⟩) hraw.symm)) rfl
    · exact markDeleted_effect rfl hstep
  | markStore node =>
    have hquiet : Quiet s.list (s.list.updateHandle node none) :=
      quiet_setNode hlisted rfl rfl rfl fun _ => rfl
    simp only [step] at hstep
    split at hstep
    · cases hstep
      exact .quiet hquiet rfl
    · cases hstep
      exact .quiet hquiet rfl
  | markCount node charge =>
    cases hstep
    exact .quiet (quiet_of_same hlisted (fun _ _ => rfl) (Nat.le_refl _)) rfl

end Step

/-! ### Where the searches stand -/

/-- The search stands on its level, and on those above it has left a node of the level. -/
def Standing (P : Nat → Nat → Prop) (f : FindState) : Prop :=
  P f.level f.pred ∧ ∀ level, f.level < level → level ≤ maxLevel → P level (f.preds level)

/-- On every level the search has left a node of the level. -/
def Passed (P : Nat → Nat → Prop) (f : FindState) : Prop := ∀ level ≤ maxLevel, P level (f.preds level)

/-- Where the search stands whose result is to be linked to. -/
def Pc.Placed (P : Nat → Nat → Prop) : Pc → Prop
  | .insertFind _ f | .insertSearch _ f _ _ _ => Standing P f
  | .insertNew _ f | .insertStore _ f _ _ _ | .insertLink _ f _ _ | .insertUpper _ f _ _ _ => Passed P f
  | _ => True

theorem Pc.Placed.mono {P Q : Nat → Nat → Prop} {pc : Pc} (h : pc.Placed P)
    (hmono : ∀ level a, P level a → Q level a) : pc.Placed Q := by
  cases pc with
  | insertFind | insertSearch => exact ⟨hmono _ _ h.1, fun level hlt hle => hmono _ _ (h.2 level hlt hle)⟩
  | insertNew | insertStore | insertLink | insertUpper => exact fun level hle => hmono _ _ (h level hle)
  | _ => trivial

/-- From a node of a level a search comes to the next one, or down. -/
structure Closed (l : AtomicSkipList) (P : Nat → Nat → Prop) : Prop where
  head : ∀ level, P level head
  down : ∀ level a, level + 1 ≤ maxLevel → P (level + 1) a → P level a
  next : ∀ level a, level ≤ maxLevel → P level a →
    (l.next a level).raw = tail ∨ P level (l.next a level).raw

section Place
variable {P : Nat → Nat → Prop} {l : AtomicSkipList} {key : Int64} {f : FindState}

theorem Closed.start (h : Closed l P) : Standing P FindState.start :=
  ⟨h.head _, fun _ hlt hle => absurd hlt (Nat.not_lt.mpr hle)⟩

/-- One load of a search. -/
theorem Closed.findStep (h : Closed l P) (key : Int64) (hlisted : Listed l l.nodes) (hlevel : f.level ≤ maxLevel)
    (hs : Standing P f) : (∀ f', l.findStep key f = .inl f' → Standing P f') ∧
      ∀ f', l.findStep key f = .inr f' → Passed P f' := by
  obtain ⟨hpred, habove⟩ := hs
  by_cases hkey : (l.node (l.next f.pred f.level).raw).key < key
  · have hstep : l.findStep key f = .inl {f with pred := (l.next f.pred f.level).raw} := if_pos hkey
    refine ⟨fun f' hf' => ?_, fun f' hf' => absurd (hstep.symm.trans hf') Sum.inl_ne_inr⟩
    cases hstep.symm.trans hf'
    refine ⟨(h.next f.level f.pred hlevel hpred).resolve_left fun htail => ?_, habove⟩
    rw [htail, hlisted.tail_key] at hkey
    exact absurd (Int64.le_maxValue key) (Int64.not_le.mpr hkey)
  · have hrecord : ∀ level, f.level ≤ level → level ≤ maxLevel →
        P level (Function.update f.preds f.level f.pred level) := by
      intro level hle hmax
      by_cases heq : level = f.level
      · rw [heq, Function.update_self]
        exact hpred
      · rw [Function.update_of_ne heq]
        exact habove level (by omega) hmax
    cases hzero : f.level with
    | zero =>
      have hstep : l.findStep key f = .inr (f.record (l.next f.pred f.level)
          ((l.node (l.next f.pred f.level).raw).key == key)) := by
        rw [AtomicSkipList.findStep, if_neg hkey]
        simp only [hzero]
      refine ⟨fun f' hf' => absurd (hstep.symm.trans hf') Sum.inr_ne_inl, fun f' hf' level hmax => ?_⟩
      cases hstep.symm.trans hf'
      exact hrecord level (by omega) hmax
    | succ below =>
      have hstep : l.findStep key f = .inl {f.record (l.next f.pred f.level)
          ((l.node (l.next f.pred f.level).raw).key == key) with level := below} := by
        rw [AtomicSkipList.findStep, if_neg hkey]
        simp only [hzero]
      refine ⟨fun f' hf' => ?_, fun f' hf' => absurd (hstep.symm.trans hf') Sum.inl_ne_inr⟩
      cases hstep.symm.trans hf'
      refine ⟨h.down below f.pred (by omega) (hzero ▸ hpred), fun level hlt hmax => ?_⟩
      exact hrecord level (by simp only at hlt; omega) hmax

theorem storeFrom_placed (hp : Passed P f) (i : InsertCall) (newNode topLevel level : Nat) :
    (storeFrom i f newNode topLevel level).Placed P := by
  rw [storeFrom]
  split
  · exact hp
  · exact hp

theorem linkFrom_placed (hp : Passed P f) (i : InsertCall) (newNode topLevel level : Nat) :
    (linkFrom i f newNode topLevel level).Placed P := by
  rw [linkFrom]
  split
  · exact hp
  · trivial

theorem incrHitCount_placed {s s' : SharedSkipList} {pc' : Pc} {node : Nat} {handle : Option Handle}
    {oldCount : Int16} (hstep : s.incrHitCount key node handle oldCount = (s', pc')) : pc'.Placed P := by
  rw [incrHitCount] at hstep
  split at hstep
  · cases hstep
    trivial
  · cases hstep
    trivial

theorem markDeleted_placed {s s' : SharedSkipList} {pc' : Pc} {node : Nat} {expected : MarkVersionedPtr}
    (hstep : s.markDeleted node expected = (s', pc')) : pc'.Placed P := by
  rw [markDeleted] at hstep
  split at hstep
  · cases hstep
    trivial
  · cases hstep
    trivial

/-- One step of a thread keeps where it stands. -/
theorem Closed.step {s s' : SharedSkipList} {pc pc' : Pc} {c : Choice} (h : Closed s.list P)
    (hlisted : Listed s.list s.list.nodes) (hl : Local s.list pc) (hp : pc.Placed P)
    (hstep : step c s pc = (s', pc')) : pc'.Placed P := by
  cases pc with
  | ready =>
    cases c with
    | insert key handle =>
      simp only [SharedSkipList.step, call] at hstep
      split at hstep
      · cases hstep
        trivial
      · cases hstep
        exact h.start
    | markDeleted node =>
      simp only [SharedSkipList.step, call] at hstep
      split at hstep
      · cases hstep
        trivial
      · cases hstep
        trivial
    | getNode | get | new | go | spurious =>
      cases hstep
      trivial
  | insertFind i f =>
    obtain ⟨hgo, hend⟩ := h.findStep i.key hlisted hl.level hp
    simp only [SharedSkipList.step] at hstep
    cases hfind : s.list.findStep i.key f with
    | inl f' =>
      rw [hfind] at hstep
      cases hstep
      exact hgo f' hfind
    | inr f' =>
      rw [hfind] at hstep
      cases hstep
      split
      · trivial
      · exact hend f' hfind
  | insertSearch i f newNode topLevel level =>
    obtain ⟨hgo, hend⟩ := h.findStep i.key hlisted hl.1.level hp
    simp only [SharedSkipList.step] at hstep
    cases hfind : s.list.findStep i.key f with
    | inl f' =>
      rw [hfind] at hstep
      cases hstep
      exact hgo f' hfind
    | inr f' =>
      rw [hfind] at hstep
      cases hstep
      exact hend f' hfind
  | insertNew i f =>
    cases c with
    | new address topLevel =>
      simp only [SharedSkipList.step] at hstep
      split at hstep
      · cases hstep
        exact storeFrom_placed hp _ _ _ _
      · cases hstep
        exact hp
    | insert | getNode | get | markDeleted | go | spurious =>
      cases hstep
      exact hp
  | insertStore i f newNode topLevel level =>
    cases hstep
    exact storeFrom_placed hp _ _ _ _
  | insertLink i f newNode topLevel =>
    simp only [SharedSkipList.step, linkLevel] at hstep
    split at hstep
    · cases hstep
      exact linkFrom_placed hp _ _ _ _
    · cases hstep
      exact h.start
  | insertUpper i f newNode topLevel level =>
    simp only [SharedSkipList.step, linkLevel] at hstep
    split at hstep
    · cases hstep
      exact h.start
    · split at hstep
      · cases hstep
        exact linkFrom_placed hp _ _ _ _
      · cases hstep
        exact h.start
  | getFind key full f =>
    simp only [SharedSkipList.step] at hstep
    split at hstep
    · cases hstep
      trivial
    · split at hstep
      · cases hstep
        trivial
      · cases hstep
        trivial
  | getMarked key full node =>
    simp only [SharedSkipList.step] at hstep
    split at hstep
    · cases hstep
      trivial
    · split at hstep
      · cases hstep
        trivial
      · cases hstep
        trivial
  | hitLoad key node handle => exact incrHitCount_placed hstep
  | hitCas key node handle oldCount =>
    simp only [SharedSkipList.step] at hstep
    split at hstep
    · cases hstep
      trivial
    · exact incrHitCount_placed hstep
  | markLoad node => exact markDeleted_placed hstep
  | markCas node expected =>
    simp only [SharedSkipList.step] at hstep
    split at hstep
    · cases hstep
      trivial
    · exact markDeleted_placed hstep
  | markStore node =>
    simp only [SharedSkipList.step] at hstep
    split at hstep
    · cases hstep
      trivial
    · cases hstep
      trivial
  | insertUpdate | insertCount | getHandle | markCount =>
    cases hstep
    trivial

end Place

/-! ### The levels of a configuration -/

section Towers
variable {ι : Type*} [Fintype ι] {c : Config SharedSkipList Pc ι}

/-- Some thread is still to link the node on this level. -/
def Owes (c : Config SharedSkipList Pc ι) (level a : Nat) : Prop :=
  ∃ t start, (c.threads t).rising = some (a, start) ∧ start ≤ level

/-- The node is linked on this level. -/
def On (c : Config SharedSkipList Pc ι) (level a : Nat) : Prop :=
  a ∈ c.shared.list.nodes ∧ level ≤ (c.shared.list.node a).topLevel ∧ ¬ Owes c level a

/-- A search may stand at the node on this level. -/
def Stand (c : Config SharedSkipList Pc ι) (level a : Nat) : Prop := a = head ∨ On c level a

/-- The level leads through the nodes that are linked there. -/
def Level (c : Config SharedSkipList Pc ι) (level : Nat) : Prop :=
  ∃ as, Chain.Linked (fun a => (c.shared.list.next a level).raw) c.shared.list.rank head tail as ∧
    ∀ a, a ∈ as ↔ On c level a

/-- Each level leads through its nodes, each node is linked upwards by one thread, and the
searches whose result is to be linked to stand on their levels. -/
structure Towers (c : Config SharedSkipList Pc ι) : Prop where
  accounts : Accounts c
  levels : ∀ level, level ≠ 0 → level ≤ maxLevel → Level c level
  single : ∀ t u a n n', (c.threads t).rising = some (a, n) → (c.threads u).rising = some (a, n') → t = u
  placed : ∀ t, (c.threads t).Placed (Stand c)

theorem Towers.listed (h : Towers c) : Listed c.shared.list c.shared.list.nodes := h.accounts.glob.listed

/-- What a thread is still to link is in the list, and has that level. -/
theorem Towers.rising (h : Towers c) {t : ι} {a start : Nat} (hr : (c.threads t).rising = some (a, start)) :
    a ∈ c.shared.list.nodes ∧ start ≠ 0 := by
  have hl := h.accounts.loc t
  generalize c.threads t = pc at hr hl
  cases pc with
  | insertUpper | insertSearch =>
    cases hr
    exact ⟨hl.2.mem, hl.2.level_pos⟩
  | _ => cases hr

/-- Level 0 too. -/
theorem Towers.level (h : Towers c) {level : Nat} (hle : level ≤ maxLevel) : Level c level := by
  by_cases hzero : level = 0
  · subst hzero
    refine ⟨c.shared.list.nodes, h.listed.linked, fun a => ⟨fun ha => ⟨ha, Nat.zero_le _, ?_⟩, fun ha => ha.1⟩⟩
    rintro ⟨t, start, hr, hstart⟩
    exact (h.rising hr).2 (Nat.le_zero.mp hstart)
  · exact h.levels level hzero hle

theorem Towers.closed (h : Towers c) : Closed c.shared.list (Stand c) where
  head _ := .inl rfl
  down level a hle hstand := by
    refine hstand.imp_right fun hon => ⟨hon.1, Nat.le_of_succ_le hon.2.1, ?_⟩
    rintro ⟨t, start, hr, hstart⟩
    exact hon.2.2 ⟨t, start, hr, Nat.le_succ_of_le hstart⟩
  next level a hle hstand := by
    obtain ⟨as, hlinked, hmem⟩ := h.level hle
    have ha : a ∈ head :: as := by
      rcases hstand with rfl | hon
      · exact List.mem_cons_self ..
      · exact List.mem_cons_of_mem _ ((hmem a).mpr hon)
    rcases List.mem_append.mp (hlinked.next_mem ha) with hnext | hnext
    · exact .inr (.inr ((hmem _).mp hnext))
    · exact .inl (List.mem_singleton.mp hnext)

/-! ### One step -/

theorem linkFrom_rising (i : InsertCall) (f : FindState) (newNode topLevel level : Nat) :
    (linkFrom i f newNode topLevel level).rising = if level ≤ topLevel then some (newNode, level) else none := by
  rw [linkFrom]
  split
  · rfl
  · rfl

/-- What a thread has to link after a step it had to link before, unless the node is new. -/
theorem Effect.rising {s s' : SharedSkipList} {pc pc' : Pc} (h : Effect s pc s' pc') {a n : Nat}
    (hr : pc'.rising = some (a, n)) : a ∉ s.list.nodes ∨ ∃ n', pc.rising = some (a, n') ∧ n' ≤ n := by
  cases h with
  | quiet _ same => exact .inr ⟨n, same ▸ hr, Nat.le_refl n⟩
  | link i f newNode topLevel _ after fresh =>
    rw [after, linkFrom_rising] at hr
    split at hr
    · cases hr
      exact .inl fresh
    · cases hr
  | rise i f newNode topLevel level before after =>
    rw [after, linkFrom_rising] at hr
    split at hr
    · cases hr
      exact .inr ⟨level, by rw [before]; rfl, Nat.le_succ level⟩
    · cases hr

variable [DecidableEq ι]

section Set
variable {t : ι} {s' : SharedSkipList} {pc' : Pc} (h : Towers c) (he : Effect c.shared (c.threads t) s' pc')
include h he

omit [Fintype ι] h in
/-- Nodes of the list are owed no more than before. -/
theorem Effect.owes {level a : Nat} (ha : a ∈ c.shared.list.nodes)
    (howes : Owes (c.set t s' pc') level a) : Owes c level a := by
  obtain ⟨u, n, hr, hn⟩ := howes
  by_cases hu : u = t
  · subst hu
    rw [Config.set_threads_self] at hr
    rcases he.rising hr with hfresh | ⟨n', hr', hle⟩
    · exact absurd ha hfresh
    · exact ⟨u, n', hr', Nat.le_trans hle hn⟩
  · rw [c.set_threads_of_ne _ _ hu] at hr
    exact ⟨u, n, hr, hn⟩

theorem Towers.single_set (u v : ι) (a n n' : Nat) (hu : ((c.set t s' pc').threads u).rising = some (a, n))
    (hv : ((c.set t s' pc').threads v).rising = some (a, n')) : u = v := by
  have hback : ∀ w m, ((c.set t s' pc').threads w).rising = some (a, m) →
      (w = t ∧ a ∉ c.shared.list.nodes) ∨ ∃ m', (c.threads w).rising = some (a, m') := by
    intro w m hw
    by_cases hwt : w = t
    · subst hwt
      rw [Config.set_threads_self] at hw
      rcases he.rising hw with hfresh | ⟨m', hm', -⟩
      · exact .inl ⟨rfl, hfresh⟩
      · exact .inr ⟨m', hm'⟩
    · rw [c.set_threads_of_ne _ _ hwt] at hw
      exact .inr ⟨m, hw⟩
  rcases hback u n hu with ⟨rfl, hfresh⟩ | ⟨m, hm⟩
  · rcases hback v n' hv with ⟨rfl, -⟩ | ⟨m', hm'⟩
    · rfl
    · exact absurd (h.rising hm').1 hfresh
  · rcases hback v n' hv with ⟨rfl, hfresh⟩ | ⟨m', hm'⟩
    · exact absurd (h.rising hm).1 hfresh
    · exact h.single u v a m m' hm hm'

variable (hgrows : Grows c.shared.list s'.list c.shared.list.nodes s'.list.nodes)
include hgrows

omit [Fintype ι] h in
/-- A node that is linked on a level stays so. -/
theorem Effect.on_set {level a : Nat} (hon : On c level a) : On (c.set t s' pc') level a := by
  obtain ⟨hmem, hle, hnot⟩ := hon
  have htop := (hgrows.node a (List.mem_append_left _ (List.mem_cons_of_mem _ hmem))).2
  exact ⟨hgrows.mem a hmem, by rw [Config.set_shared, htop]; exact hle, fun howes => hnot (he.owes hmem howes)⟩

omit [Fintype ι] h in
/-- A level that no link changes. -/
theorem Effect.level_same {level : Nat} (hlevel : Level c level)
    (hnext : ∀ a ∈ head :: c.shared.list.nodes, (s'.list.next a level).raw = (c.shared.list.next a level).raw)
    (hon : ∀ a, On (c.set t s' pc') level a → On c level a) : Level (c.set t s' pc') level := by
  obtain ⟨as, hlinked, hmem⟩ := hlevel
  have hsub : ∀ a ∈ head :: as, a ∈ head :: c.shared.list.nodes := by
    intro a ha
    rcases List.mem_cons.mp ha with rfl | ha
    · exact List.mem_cons_self ..
    · exact List.mem_cons_of_mem _ ((hmem a).mp ha).1
  refine ⟨as, hlinked.congr (fun a ha => hnext a (hsub a ha)) fun a ha => hgrows.rank ?_, fun a => ?_⟩
  · rcases List.mem_append.mp ha with ha | ha
    · exact List.mem_append_left _ (hsub a ha)
    · exact List.mem_append_right _ ha
  · exact (hmem a).trans ⟨he.on_set hgrows, hon a⟩

omit [DecidableEq ι] he hgrows in
/-- The link itself: the new node comes between two neighbours of the level. -/
theorem Towers.link_after {i : InsertCall} {f : FindState} {newNode topLevel level : Nat} {as : List Nat}
    (hf : Found c.shared.list c.shared.list.nodes i.key f)
    (hrising : Rising c.shared.list i.key newNode topLevel level) (hmax : level ≤ maxLevel)
    (hlinked : Chain.Linked (fun a => (c.shared.list.next a level).raw) c.shared.list.rank head tail as)
    (hpred : f.preds level ∈ head :: as) (hnew : newNode ∉ as)
    (hswap : c.shared.list.next (f.preds level) level = f.succs level)
    (hfit : (c.shared.list.next newNode level).raw = (f.succs level).raw)
    (hlist : s'.list = c.shared.list.setNext (f.preds level) level ⟨newNode, (f.succs level).version + 1, false⟩) :
    ∃ as', Chain.Linked (fun a => (s'.list.next a level).raw) s'.list.rank head tail as' ∧
      ∀ a, a ∈ as' ↔ a = newNode ∨ a ∈ as := by
  have hlisted := h.listed
  have hbetween := hf.between level hmax
  have hmem : newNode ∈ c.shared.list.nodes ++ [tail] := List.mem_append_left _ hrising.mem
  have hrank : ∀ a, s'.list.rank a = c.shared.list.rank a := by
    intro a
    rw [hlist]
    exact rank_congr (node_setNext _ _ _ _ a).1
  have hplace : c.shared.list.rank newNode = place i.key := by
    rw [rank_eq (hlisted.ne_head hmem), hrising.key_eq]
  have hlen : level < (c.shared.list.node (f.preds level)).nexts.length := by
    rw [hlisted.lengths _ hbetween.pred_mem]
    exact Nat.lt_succ_of_le hbetween.pred_top
  have hne : newNode ≠ f.preds level := by
    intro heq
    rw [← heq] at hpred
    rcases List.mem_cons.mp hpred with hhead | hin
    · exact hlisted.ne_head hmem hhead
    · exact hnew hin
  -- the successor is on the level, the new node is not
  have hdiff : newNode ≠ (f.succs level).raw := by
    intro heq
    have hnext := hlinked.next_mem hpred
    simp only [hswap, ← heq] at hnext
    rcases List.mem_append.mp hnext with hin | htail
    · exact hnew hin
    · exact hlisted.ne_tail (List.mem_cons_of_mem _ hrising.mem) (List.mem_singleton.mp htail)
  refine hlinked.insert hpred ?_ ?_ (fun a _ ha => ?_) (fun a _ => hrank a) ?_ ?_
  · rw [hlist, next_setNext_self _ _ hlen]
  · rw [hlist, next_setNext_of_ne _ _ (.inl hne), hfit, hswap]
  · rw [hlist, next_setNext_of_ne _ _ (.inl ha)]
  · rw [hrank, hplace]
    exact hbetween.pred_lt
  · rw [hrank, hplace, hswap]
    refine lt_of_le_of_ne hbetween.le_succ fun heq => hdiff ?_
    exact hlisted.linked.eq_of_rank (List.mem_cons_of_mem _ hmem)
      (List.mem_cons_of_mem _ hbetween.succ_mem) (hplace.trans heq)

omit [Fintype ι] h in
/-- A link at level 0 adds a node that is owed on its other levels. -/
theorem Effect.level_link {i : InsertCall} {f : FindState} {newNode topLevel level : Nat}
    (hbefore : (c.threads t).rising = none) (hafter : pc' = linkFrom i f newNode topLevel 1)
    (htop : (s'.list.node newNode).topLevel = topLevel)
    (hmem : ∀ a, a ∈ s'.list.nodes ↔ a = newNode ∨ a ∈ c.shared.list.nodes)
    (hnext : ∀ a level, level ≠ 0 → s'.list.next a level = c.shared.list.next a level)
    (hzero : level ≠ 0) (hlevel : Level c level) : Level (c.set t s' pc') level := by
  refine he.level_same hgrows hlevel (fun a _ => by rw [hnext a level hzero]) fun a hon => ?_
  obtain ⟨ha, hle, hnot⟩ := hon
  rw [Config.set_shared] at ha hle
  rcases (hmem a).mp ha with rfl | ha
  · refine absurd ⟨t, 1, ?_, Nat.pos_of_ne_zero hzero⟩ hnot
    rw [Config.set_threads_self, hafter, linkFrom_rising, if_pos (by omega)]
  · have hsame := (hgrows.node a (List.mem_append_left _ (List.mem_cons_of_mem _ ha))).2
    refine ⟨ha, hsame ▸ hle, ?_⟩
    rintro ⟨u, n, hr, hn⟩
    have hu : u ≠ t := by
      rintro rfl
      cases hbefore.symm.trans hr
    exact hnot ⟨u, n, by rw [c.set_threads_of_ne _ _ hu]; exact hr, hn⟩

/-- A link above changes its own level, where it adds its node. -/
theorem Towers.level_rise {i : InsertCall} {f : FindState} {newNode topLevel start level : Nat}
    (hbefore : c.threads t = .insertUpper i f newNode topLevel start)
    (hafter : pc' = linkFrom i f newNode topLevel (start + 1))
    (hswap : c.shared.list.next (f.preds start) start = f.succs start)
    (hfit : (c.shared.list.next newNode start).raw = (f.succs start).raw)
    (hlist : s'.list = c.shared.list.setNext (f.preds start) start ⟨newNode, (f.succs start).version + 1, false⟩)
    (hnodes : s'.list.nodes = c.shared.list.nodes) (hlevel : Level c level) :
    Level (c.set t s' pc') level := by
  obtain ⟨hf, hrising⟩ : Found c.shared.list c.shared.list.nodes i.key f ∧
      Rising c.shared.list i.key newNode topLevel start := by
    have hl := h.accounts.loc t
    rwa [hbefore] at hl
  have howing : (c.threads t).rising = some (newNode, start) := by
    rw [hbefore]
    rfl
  have htop : ∀ a ∈ c.shared.list.nodes, (s'.list.node a).topLevel = (c.shared.list.node a).topLevel :=
    fun a ha => (hgrows.node a (List.mem_append_left _ (List.mem_cons_of_mem _ ha))).2
  -- what others owe they still do
  have hother : ∀ a, a ≠ newNode → Owes c level a → Owes (c.set t s' pc') level a := by
    rintro a hne ⟨u, n, hr, hn⟩
    have hu : u ≠ t := by
      rintro rfl
      cases howing.symm.trans hr
      exact hne rfl
    exact ⟨u, n, by rw [c.set_threads_of_ne _ _ hu]; exact hr, hn⟩
  by_cases heq : level = start
  · subst heq
    obtain ⟨as, hlinked, hmem⟩ := hlevel
    have hnew : newNode ∉ as := fun ha => ((hmem newNode).mp ha).2.2 ⟨t, level, howing, Nat.le_refl _⟩
    have hmax : level ≤ maxLevel := by
      have htops := h.listed.tops newNode (List.mem_cons_of_mem _ (List.mem_append_left _ hrising.mem))
      rw [hrising.top] at htops
      exact Nat.le_trans hrising.level_le htops
    have hpred : f.preds level ∈ head :: as := by
      have hplaced := h.placed t
      rw [hbefore] at hplaced
      rcases hplaced level hmax with hhead | hon
      · rw [hhead]
        exact List.mem_cons_self ..
      · exact List.mem_cons_of_mem _ ((hmem _).mpr hon)
    obtain ⟨as', hlinked', hmem'⟩ := h.link_after hf hrising hmax hlinked hpred hnew hswap hfit hlist
    refine ⟨as', hlinked', fun a => (hmem' a).trans ?_⟩
    constructor
    · rintro (rfl | ha)
      · refine ⟨hnodes ▸ hrising.mem, ?_, ?_⟩
        · rw [Config.set_shared, htop a hrising.mem, hrising.top]
          exact hrising.level_le
        · rintro ⟨u, n, hr, hn⟩
          obtain rfl : u = t := by
            by_contra hu
            rw [c.set_threads_of_ne _ _ hu] at hr
            exact hu (h.single u t a n level hr howing)
          rw [Config.set_threads_self, hafter, linkFrom_rising] at hr
          split at hr
          · cases hr
            omega
          · cases hr
      · exact he.on_set hgrows ((hmem a).mp ha)
    · rintro ⟨ha, hle, hnot⟩
      rw [Config.set_shared] at ha hle
      rw [hnodes] at ha
      by_cases hsame : a = newNode
      · exact .inl hsame
      · refine .inr ((hmem a).mpr ⟨ha, htop a ha ▸ hle, fun howes => hnot ?_⟩)
        exact hother a hsame howes
  · refine he.level_same hgrows hlevel (fun a _ => ?_) fun a hon => ?_
    · rw [hlist, next_setNext_of_ne _ _ (.inr heq)]
    · obtain ⟨ha, hle, hnot⟩ := hon
      rw [Config.set_shared] at ha hle
      rw [hnodes] at ha
      rw [htop a ha] at hle
      refine ⟨ha, hle, fun howes => hnot ?_⟩
      by_cases hnew : a = newNode
      · subst hnew
        obtain ⟨u, n, hr, hn⟩ := howes
        obtain rfl := h.single u t a n start hr howing
        cases howing.symm.trans hr
        have hmore : start + 1 ≤ topLevel := by
          rw [hrising.top] at hle
          omega
        refine ⟨u, start + 1, ?_, by omega⟩
        rw [Config.set_threads_self, hafter, linkFrom_rising, if_pos hmore]
      · exact hother a hnew howes

end Set

/-- **The step lemma**: a step that meets the condition keeps the towers. -/
theorem Towers.set (h : Towers c) {t : ι} {s' : SharedSkipList} {pc' : Pc}
    (hstep : Fitting c.shared (c.threads t) s' pc') : Towers (c.set t s' pc') := by
  obtain ⟨choice, hstep, hfits⟩ := hstep
  have hglob := h.accounts.glob
  rw [total_eq Pc.claims c t] at hglob
  have he := step_effect hglob (h.accounts.loc t) hstep hfits
  have hgrows := h.accounts.grows ⟨choice, hstep⟩
  refine ⟨h.accounts.set ⟨choice, hstep⟩, fun level hzero hle => ?_, h.single_set he, fun u => ?_⟩
  · have hlevel := h.levels level hzero hle
    have heffect := he
    cases he with
    | quiet list same =>
      refine heffect.level_same hgrows hlevel (fun a ha => list.raw a ha level) fun a hon => ?_
      obtain ⟨ha, hle, hnot⟩ := hon
      rw [Config.set_shared] at ha hle
      rw [list.nodes] at ha
      have htop := (hgrows.node a (List.mem_append_left _ (List.mem_cons_of_mem _ ha))).2
      refine ⟨ha, htop ▸ hle, ?_⟩
      rintro ⟨u, n, hr, hn⟩
      refine hnot ⟨u, n, ?_, hn⟩
      by_cases hu : u = t
      · subst hu
        rw [Config.set_threads_self, same]
        exact hr
      · rw [c.set_threads_of_ne _ _ hu]
        exact hr
    | link i f newNode topLevel before after fresh top mem above =>
      exact heffect.level_link hgrows before after top mem above hzero hlevel
    | rise i f newNode topLevel start before after swap fit list nodes =>
      exact h.level_rise heffect hgrows before after swap fit list nodes hlevel
  · have hstand : ∀ level a, Stand c level a → Stand (c.set t s' pc') level a :=
      fun level a hstand => hstand.imp_right (he.on_set hgrows)
    by_cases hu : u = t
    · subst hu
      rw [Config.set_threads_self]
      exact (h.closed.step h.listed (h.accounts.loc u) (h.placed u) hstep).mono hstand
    · rw [c.set_threads_of_ne _ _ hu]
      exact (h.placed u).mono hstand

omit [DecidableEq ι] in
theorem initial_towers : Towers (initial : Config SharedSkipList Pc ι) := by
  refine ⟨initial_accounts, fun level _ hle => ⟨[], ⟨?_, make_listed.linked.sorted⟩, fun a => ?_⟩,
    nofun, fun _ => trivial⟩
  · have hlt : level < maxLevel + 1 := Nat.lt_succ_of_le hle
    show ((List.replicate (maxLevel + 1) ({raw := tail} : MarkVersionedPtr)).getD level default).raw = tail
    rw [List.getD_eq_getElem?_getD, List.getElem?_replicate, if_pos hlt]
    rfl
  · have hnodes : make.list.nodes = [] := make_listed.nodes_eq
    refine iff_of_false List.not_mem_nil fun hon => ?_
    have ha : a ∈ make.list.nodes := hon.1
    rw [hnodes] at ha
    exact List.not_mem_nil ha

theorem Towers.reaches (h : Towers c) {c' : Config SharedSkipList Pc ι} (hr : Reaches Fitting anyStep c c') :
    Towers c' :=
  hr.invariant (fun _ _ _ _ h _ hstep => h.set hstep) h

omit [DecidableEq ι] in
/-- With no `Insert` in progress nothing is owed. -/
theorem Towers.whole (h : Towers c) (hidle : ∀ t, (c.threads t).inserting = false) {level : Nat}
    (hle : level ≤ maxLevel) :
    Chain.Linked (fun a => (c.shared.list.next a level).raw) c.shared.list.rank head tail
      (c.shared.list.nodes.filter fun a => level ≤ (c.shared.list.node a).topLevel) := by
  have hnone : ∀ a, ¬ Owes c level a := by
    rintro a ⟨t, start, hr, -⟩
    have ht := hidle t
    generalize c.threads t = pc at ht hr
    cases pc with
    | insertUpper | insertSearch => cases ht
    | _ => cases hr
  obtain ⟨as, hlinked, hmem⟩ := h.level hle
  have heq : as = c.shared.list.nodes.filter fun a => level ≤ (c.shared.list.node a).topLevel := by
    refine hlinked.eq_of_mem (h.listed.linked.inner.filter _) fun a => (hmem a).trans ?_
    rw [List.mem_filter, decide_eq_true_eq]
    exact ⟨fun hon => ⟨hon.1, hon.2.1⟩, fun ha => ⟨ha.1, ha.2, hnone a⟩⟩
  rwa [← heq]

/-- What the levels of a list are to hold: each leads from `head_` to `tail_` through the
nodes of that height, in the order of their keys. -/
def Complete (l : AtomicSkipList) (level : Nat) : Prop :=
  Chain.Path (fun a => (l.next a level).raw) tail head (l.nodes.filter fun a => level ≤ (l.node a).topLevel) ∧
    ((l.nodes.filter fun a => level ≤ (l.node a).topLevel).map fun a => (l.node a).key).Pairwise (· < ·)

theorem Complete.second {l : AtomicSkipList} {level a b : Nat} {as : List Nat} (h : Complete l level)
    (hnodes : (l.nodes.filter fun a => level ≤ (l.node a).topLevel) = a :: b :: as) :
    (l.next a level).raw = b := by
  obtain ⟨hpath, -⟩ := h
  rw [hnodes] at hpath
  exact hpath.2.1

/-- **No level loses a node** as long as every link above level 0 finds the successor its
node points to: in every state of such a run with no `Insert` in progress, each level
consists of exactly the nodes of that height, in order. -/
theorem reaches_levels (hr : Reaches Fitting anyStep initial c)
    (hidle : ∀ t, (c.threads t).inserting = false) (level : Nat) (hle : level ≤ maxLevel) :
    Complete c.shared.list level := by
  have h : Towers c := initial_towers.reaches hr
  refine ⟨(h.whole hidle hle).path, ?_⟩
  have hkeys := keys_increase h.listed
  rw [List.map_append, List.pairwise_append, List.pairwise_map] at hkeys
  rw [List.pairwise_map]
  exact hkeys.1.filter _

/-- Every step of the schedule meets the condition. -/
def FitsAlong (c : Config SharedSkipList Pc ι) : List (ι × Choice) → Prop
  | [] => True
  | (t, a) :: rest =>
    Fits a c.shared (c.threads t) ∧
      FitsAlong (c.set t (step a c.shared (c.threads t)).1 (step a c.shared (c.threads t)).2) rest

instance (c : Choice) (s : SharedSkipList) : DecidablePred (Fits c s)
  | .insertUpper _ f newNode _ level => inferInstanceAs (Decidable (c.isSpurious = false →
      s.list.next (f.preds level) level = f.succs level →
      (s.list.next newNode level).raw = (f.succs level).raw))
  | .ready | .insertFind .. | .insertUpdate .. | .insertNew .. | .insertStore .. | .insertLink ..
  | .insertSearch .. | .insertCount .. | .getFind .. | .getMarked .. | .getHandle .. | .hitLoad ..
  | .hitCas .. | .markLoad .. | .markCas .. | .markStore .. | .markCount .. => isTrue trivial

instance decidableFitsAlong (c : Config SharedSkipList Pc ι) :
    ∀ schedule, Decidable (FitsAlong c schedule)
  | [] => isTrue trivial
  | (t, a) :: rest =>
    have := decidableFitsAlong
      (c.set t (step a c.shared (c.threads t)).1 (step a c.shared (c.threads t)).2) rest
    inferInstanceAs (Decidable (_ ∧ _))

omit [Fintype ι] in
theorem reaches_fitting {schedule : List (ι × Choice)} (h : FitsAlong c schedule) :
    Reaches Fitting anyStep c (exec step c schedule) := by
  induction schedule generalizing c with
  | nil => exact .refl
  | cons move rest ih =>
    obtain ⟨t, a⟩ := move
    exact .head ⟨t, _, _, trivial, ⟨a, rfl, h.1⟩, rfl⟩ (ih h.2)

end Towers

/-- Between the two links of the node of key 10 another thread inserts this key, which takes
`loads` loads, and the search after the failed link takes `again`. -/
def overtaken (key : Int64) (loads again : Nat) : List (Fin 2 × Choice) :=
  (0, .insert 10 (some ⟨0, 1⟩)) :: (goes 0 16 ++ (0, .new 3 1) :: (goes 0 3 ++
    (1, .insert key (some ⟨1, 1⟩)) :: (goes 1 loads ++ (1, .new 4 1) :: (goes 1 5 ++
      goes 0 (1 + again + 2)))))

/-- The state it leads to, with no `Insert` in progress. -/
def caughtUp (key : Int64) (loads again : Nat) : Config SharedSkipList Pc (Fin 2) :=
  exec step initial (overtaken key loads again)

theorem reaches_caughtUp (key : Int64) (loads again : Nat) :
    Reaches (Chosen step) anyStep initial (caughtUp key loads again) :=
  reaches_exec step initial (overtaken key loads again)

theorem fitting_caughtUp {key : Int64} {loads again : Nat}
    (h : FitsAlong initial (overtaken key loads again)) :
    Reaches Fitting anyStep initial (caughtUp key loads again) := reaches_fitting h

/-- A smaller key does no harm: the new node still points past it. -/
theorem reaches_levels_overtaken : Reaches Fitting anyStep initial (caughtUp 5 16 17) ∧
    (caughtUp 5 16 17).shared.list.nodes = [4, 3] ∧ Complete (caughtUp 5 16 17).shared.list 1 := by
  have hfits : FitsAlong initial (overtaken 5 16 17) := by decide +kernel
  have hidle : ∀ t, ((caughtUp 5 16 17).threads t).inserting = false := by decide +kernel
  have hr := fitting_caughtUp hfits
  exact ⟨hr, by decide +kernel, reaches_levels hr hidle 1 (by decide)⟩

/-- The node of a larger key is lost on level 1. -/
theorem skipped : ¬ ∀ c : Config SharedSkipList Pc (Fin 2), Reaches (Chosen step) anyStep initial c →
    (∀ t, (c.threads t).inserting = false) → ∀ level ≤ maxLevel, Complete c.shared.list level := by
  intro h
  have hidle : ∀ t, ((caughtUp 20 17 16).threads t).inserting = false := by decide +kernel
  have hnodes : ((caughtUp 20 17 16).shared.list.nodes.filter fun a =>
      1 ≤ ((caughtUp 20 17 16).shared.list.node a).topLevel) = [3, 4] := by decide +kernel
  have hnext : ((caughtUp 20 17 16).shared.list.next 3 1).raw = tail := by decide +kernel
  have hlevel : Complete (caughtUp 20 17 16).shared.list 1 :=
    h _ (reaches_caughtUp 20 17 16) hidle 1 (by decide)
  have hlost := hlevel.second hnodes
  rw [hnext] at hlost
  exact absurd hlost (by decide)

end HyperCache.HashSkip.SharedSkipList
