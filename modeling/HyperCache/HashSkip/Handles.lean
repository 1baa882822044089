import HyperCache.HashSkip.Levels

/-! The handles of concurrent insertions.

`Insert` moves its handle into a new node before it links the node at level 0. When that
link fails, the node is deleted with the handle in it, and the next turn of the loop has
only null to store. As long as no such link fails, every handle stays: it is with the node
of its key, or one other `Insert` of that key has returned it (`reaches_handed`). -/
namespace HyperCache.HashSkip.SharedSkipList
open AtomicSkipList Interleaving

/-- The handle that `Insert` number `i` was called with. -/
def given (s : SharedSkipList) (i : Nat) : Option Handle := s.passed[i]?.bind Prod.snd

/-- The key that it was called with. -/
def keyOf (s : SharedSkipList) (i : Nat) : Option Int64 := s.passed[i]?.map Prod.fst

/-- What the calls of `Insert` returned. -/
def answers (s : SharedSkipList) : List (Nat × Option Handle) :=
  s.replies.filterMap fun
    | .inserted call oldHandle => some (call, oldHandle)
    | _ => none

/-- A node has the handle that call number `cur` of its address was passed, and call `j`
returned the one that call number `old j` was: each is with the node of its key, or was
returned by one other call with this key. -/
structure Handed (s : SharedSkipList) (cur old : Nat → Option Nat) : Prop where
  current : ∀ a ∈ s.list.nodes ++ [tail], ∀ i ∈ cur a,
    s.passed[i]? = some ((s.list.node a).key, (s.list.node a).handle)
  returned : ∀ j oldHandle, .inserted j oldHandle ∈ s.replies ↔
    j < s.passed.length ∧ oldHandle = (old j).bind s.given
  other : ∀ j, ∀ i ∈ old j, i ≠ j ∧ s.keyOf i = s.keyOf j
  either : ∀ i < s.passed.length,
    (∃ a ∈ s.list.nodes ++ [tail], cur a = some i) ∧ (∀ j, old j ≠ some i) ∨
    (∀ a ∈ s.list.nodes ++ [tail], cur a ≠ some i) ∧ ∃! j, old j = some i

/-- The thread deletes nothing, and inserts no null. -/
def Choice.gives : Choice → Bool
  | .insert _ handle => handle.isSome
  | .markDeleted _ => false
  | _ => true

/-- An access of such a thread. -/
abbrev Giving : SharedSkipList → Pc → SharedSkipList → Pc → Prop :=
  Chosen fun c : {c : Choice // c.gives = true} => step c.1

/-- The link at level 0 does not fail. -/
def Pc.Unbeaten (l : AtomicSkipList) : Pc → Prop
  | .insertLink _ f _ _ => l.next (f.preds 0) 0 = f.succs 0
  | _ => True

/-- A thread whose link at level 0, if it comes to it, finds the pointer the search has loaded. -/
def Unbeaten {ι : Type*} (c : Config SharedSkipList Pc ι) (t : ι) : Prop :=
  (c.threads t).Unbeaten c.shared.list

/-! ### What a position has to do -/

inductive Debt where
  | placing (call : Nat)
  | answering (call : Nat)
  deriving DecidableEq

/-- The handle to place, and the call to return from. -/
def Pc.debts : Pc → Multiset Debt
  | .insertFind i _ | .insertUpdate i _ | .insertNew i _ | .insertStore i .. | .insertLink i .. =>
    {.placing i.call} + {.answering i.call}
  | .insertUpper i .. | .insertSearch i .. | .insertCount i => {.answering i.call}
  | _ => 0

/-- The handle of a position, or of its new node, as long as it is not placed. -/
def Pc.hand (l : AtomicSkipList) : Pc → Option Handle
  | .insertFind i _ | .insertUpdate i _ | .insertNew i _ => i.handle
  | .insertStore _ _ newNode _ _ | .insertLink _ _ newNode _ => (l.node newNode).handle
  | _ => none

/-- A position that deletes nothing, and has moved its handle into its new node. -/
def Pc.Moved : Pc → Prop
  | .insertStore i .. | .insertLink i .. => i.handle = none
  | .markLoad _ | .markCas .. | .markStore _ | .markCount .. => False
  | _ => True

/-- What a position has in hand is what it was passed. -/
def Carried (s : SharedSkipList) : Pc → Prop
  | .insertFind i _ | .insertNew i _ => s.passed[i.call]? = some (i.key, i.handle)
  | .insertUpdate i node => s.passed[i.call]? = some (i.key, i.handle) ∧ (s.list.node node).key = i.key
  | .insertStore i _ newNode _ _ | .insertLink i _ newNode _ =>
    s.passed[i.call]? = some (i.key, (s.list.node newNode).handle)
  | _ => True

/-- The nodes and what they hold are the same. -/
structure Alike (l l' : AtomicSkipList) : Prop where
  nodes : l'.nodes = l.nodes
  node : ∀ a ∈ l.nodes ++ [tail],
    (l'.node a).key = (l.node a).key ∧ (l'.node a).handle = (l.node a).handle

theorem Alike.refl (l : AtomicSkipList) : Alike l l := ⟨rfl, fun _ _ => ⟨rfl, rfl⟩⟩

theorem nodes_nodup {l : AtomicSkipList} (h : Listed l l.nodes) : (l.nodes ++ [tail]).Nodup := by
  refine List.nodup_append.mpr ⟨h.nodup, List.nodup_singleton _, fun a ha b hb => ?_⟩
  rw [List.mem_singleton.mp hb]
  exact h.ne_tail (List.mem_cons_of_mem _ ha)

/-- A node is linked. -/
theorem nodes_linked {l l' : AtomicSkipList} {newNode : Nat} (h : Listed l l.nodes) (h' : Listed l' l'.nodes)
    (hfresh : newNode ∉ l.nodes ++ [tail]) (hmem : ∀ a, a ∈ l'.nodes ↔ a = newNode ∨ a ∈ l.nodes) :
    (l'.nodes ++ [tail]).Perm (newNode :: (l.nodes ++ [tail])) := by
  refine (List.perm_ext_iff_of_nodup (nodes_nodup h') ?_).mpr fun y => ?_
  · exact List.nodup_cons.mpr ⟨hfresh, nodes_nodup h⟩
  · rw [List.mem_append, hmem, or_assoc, ← List.mem_append, ← List.mem_cons]

/-- What one access does to the handles: nothing, or one of the five turns of a handle. -/
inductive Turn (s : SharedSkipList) (pc : Pc) (s' : SharedSkipList) (pc' : Pc) : Prop where
  | still (list : Alike s.list s'.list) (passed : s'.passed = s.passed)
      (answers : s'.answers = s.answers) (debts : pc'.debts = pc.debts) (hand : pc'.hand s'.list = pc.hand s.list)
  | begin (key : Int64) (handle : Handle) (before : pc.debts = 0)
      (after : pc'.debts = {.placing s.passed.length} + {.answering s.passed.length})
      (list : s'.list = s.list) (passed : s'.passed = s.passed ++ [(key, some handle)])
      (answers : s'.answers = s.answers) (taken : pc'.hand s'.list = some handle)
  | update (i : InsertCall) (node : Nat) (before : pc.debts = {.placing i.call} + {.answering i.call})
      (after : pc'.debts = 0) (mem : node ∈ s.list.nodes ++ [tail])
      (carried : Carried s pc → s.passed[i.call]? = some ((s.list.node node).key, i.handle))
      (list : s'.list = s.list.updateHandle node i.handle) (passed : s'.passed = s.passed)
      (answers : s'.answers = (i.call, (s.list.node node).handle) :: s.answers)
      (hand : pc.hand s.list = i.handle) (placed : pc'.hand s'.list = none)
  | link (i : InsertCall) (newNode : Nat) (before : pc.debts = {.placing i.call} + {.answering i.call})
      (after : pc'.debts = {.answering i.call}) (fresh : newNode ∉ s.list.nodes ++ [tail])
      (carried : Carried s pc →
        s.passed[i.call]? = some ((s.list.node newNode).key, (s.list.node newNode).handle))
      (mem : ∀ a, a ∈ s'.list.nodes ↔ a = newNode ∨ a ∈ s.list.nodes)
      (node : ∀ a, (s'.list.node a).key = (s.list.node a).key ∧
        (s'.list.node a).handle = (s.list.node a).handle)
      (passed : s'.passed = s.passed) (answers : s'.answers = s.answers)
      (hand : pc.hand s.list = (s.list.node newNode).handle) (placed : pc'.hand s'.list = none)
  | count (i : InsertCall) (before : pc.debts = {.answering i.call}) (after : pc'.debts = 0)
      (list : Alike s.list s'.list) (passed : s'.passed = s.passed)
      (answers : s'.answers = (i.call, none) :: s.answers) (placed : pc'.hand s'.list = none)
  | lost (beaten : ¬ pc.Unbeaten s.list) (list : s'.list = s.list) (passed : s'.passed = s.passed)
      (answers : s'.answers = s.answers) (gone : pc'.hand s'.list = none)

section Step
variable {s s' : SharedSkipList} {pc pc' : Pc} {c : Choice} {r : Multiset Claim}

/-- A step that leaves the list and the calls alone. -/
theorem Turn.same (hlist : s'.list = s.list) (hpassed : s'.passed = s.passed) (hanswers : s'.answers = s.answers)
    (hdebts : pc'.debts = pc.debts) (hhand : pc'.hand s.list = pc.hand s.list) : Turn s pc s' pc' :=
  .still (hlist ▸ Alike.refl _) hpassed hanswers hdebts (hlist ▸ hhand)

theorem storeFrom_hand (l : AtomicSkipList) (i : InsertCall) (f : FindState) (newNode topLevel level : Nat) :
    (storeFrom i f newNode topLevel level).hand l = (l.node newNode).handle := by
  rw [storeFrom]
  split
  · rfl
  · rfl

theorem linkFrom_hand (l : AtomicSkipList) (i : InsertCall) (f : FindState) (newNode topLevel level : Nat) :
    (linkFrom i f newNode topLevel level).hand l = none := by
  rw [linkFrom]
  split
  · rfl
  · rfl

theorem storeFrom_moved {i : InsertCall} (hi : i.handle = none) (f : FindState) (newNode topLevel level : Nat) :
    (storeFrom i f newNode topLevel level).Moved := by
  rw [storeFrom]
  split
  · exact hi
  · exact hi

theorem linkFrom_moved (i : InsertCall) (f : FindState) (newNode topLevel level : Nat) :
    (linkFrom i f newNode topLevel level).Moved := by
  rw [linkFrom]
  split
  · trivial
  · trivial

theorem storeFrom_debts (i : InsertCall) (f : FindState) (newNode topLevel level : Nat) :
    (storeFrom i f newNode topLevel level).debts = {.placing i.call} + {.answering i.call} := by
  rw [storeFrom]
  split
  · rfl
  · rfl

theorem linkFrom_debts (i : InsertCall) (f : FindState) (newNode topLevel level : Nat) :
    (linkFrom i f newNode topLevel level).debts = {.answering i.call} := by
  rw [linkFrom]
  split
  · rfl
  · rfl

theorem storeFrom_carried {i : InsertCall} {f : FindState} {newNode topLevel level : Nat}
    (h : s.passed[i.call]? = some (i.key, (s.list.node newNode).handle)) :
    Carried s (storeFrom i f newNode topLevel level) := by
  rw [storeFrom]
  split
  · exact h
  · exact h

theorem linkFrom_carried (i : InsertCall) (f : FindState) (newNode topLevel level : Nat) :
    Carried s (linkFrom i f newNode topLevel level) := by
  rw [linkFrom]
  split
  · trivial
  · trivial

theorem incrHitCount_turn (pc : Pc) {key : Int64} {node : Nat} {handle : Option Handle} {oldCount : Int16}
    (hpc : pc.debts = 0) (hhand : pc.hand s.list = none) (hstep : s.incrHitCount key node handle oldCount = (s', pc')) :
    Turn s pc s' pc' ∧ pc'.Moved ∧ Carried s' pc' := by
  rw [incrHitCount] at hstep
  split at hstep
  · cases hstep
    exact ⟨.same rfl rfl rfl hpc.symm hhand.symm, trivial, trivial⟩
  · cases hstep
    exact ⟨.same rfl rfl rfl hpc.symm hhand.symm, trivial, trivial⟩

/-- **The inversion of a step**, as far as the handles go. -/
theorem step_turn (h : Global s.list s.live (pc.claims + r)) (hl : Local s.list pc) (hmoved : pc.Moved)
    (hc : c.gives = true) (hstep : step c s pc = (s', pc')) :
    Turn s pc s' pc' ∧ pc'.Moved ∧ (Carried s pc → pc.Unbeaten s.list → Carried s' pc') := by
  have hlisted := h.listed
  have hsearch : ∀ {key : Int64} {f : FindState}, Searching s.list s.list.nodes key f →
      (∃ f', s.list.findStep key f = .inl f') ∨
        ∃ f', s.list.findStep key f = .inr f' ∧ Found s.list s.list.nodes key f' := by
    intro key f hs
    rcases findStep_spec hlisted hs with ⟨f', hfind, -⟩ | ⟨f', hfind, hf'⟩
    · exact .inl ⟨f', hfind⟩
    · exact .inr ⟨f', hfind, hf'⟩
  cases pc with
  | ready =>
    cases c with
    | insert key handle =>
      cases handle with
      | none => cases hc
      | some handle =>
        cases hstep
        exact ⟨.begin key handle rfl rfl rfl rfl rfl rfl, trivial, fun _ _ => List.getElem?_concat_length⟩
    | markDeleted node => cases hc
    | getNode | get | new | go | spurious =>
      cases hstep
      exact ⟨.same rfl rfl rfl rfl rfl, trivial, fun _ _ => trivial⟩
  | insertFind i f =>
    simp only [step] at hstep
    rcases hsearch hl with ⟨f', hfind⟩ | ⟨f', hfind, hf'⟩
    · rw [hfind] at hstep
      cases hstep
      exact ⟨.same rfl rfl rfl rfl rfl, trivial, fun hcarried _ => hcarried⟩
    · rw [hfind] at hstep
      cases hfound : f'.found with
      | true =>
        simp only [hfound, if_true] at hstep
        cases hstep
        exact ⟨.same rfl rfl rfl rfl rfl, trivial, fun hcarried _ => ⟨hcarried, hf'.found hfound⟩⟩
      | false =>
        simp only [hfound, Bool.false_eq_true, if_false] at hstep
        cases hstep
        exact ⟨.same rfl rfl rfl rfl rfl, trivial, fun hcarried _ => hcarried⟩
  | insertUpdate i node =>
    cases hstep
    exact ⟨.update i node rfl rfl hl (fun hcarried => hcarried.2 ▸ hcarried.1) rfl rfl rfl rfl rfl, trivial,
      fun _ _ => trivial⟩
  | insertNew i f =>
    cases c with
    | new address topLevel =>
      simp only [step] at hstep
      split at hstep
      · rename_i hnew
        cases hstep
        have hsame : ∀ b ∈ head :: s.list.nodes ++ [tail],
            (s.new address i.key i.handle topLevel).list.node b = s.list.node b := by
          intro b hb
          have hne : b ≠ address := by
            rintro rfl
            exact absurd (h.inUse b hb) (by rw [hnew.1.2.2]; decide)
          exact node_setNode_of_ne s.list _ hne
        have hnodes := (quiet_of_same hlisted hsame (Nat.le_max_left ..)).nodes
        have hnode : (s.new address i.key i.handle topLevel).list.node address =
            Node.make i.key i.handle topLevel := node_setNode_self ..
        refine ⟨.still ⟨hnodes, fun b hb => ?_⟩ rfl rfl (storeFrom_debts ..) ?_, storeFrom_moved rfl ..,
          fun hcarried _ => storeFrom_carried ?_⟩
        · rw [hsame b (List.mem_cons_of_mem _ hb)]
          exact ⟨rfl, rfl⟩
        · rw [storeFrom_hand, hnode]
          rfl
        · rw [hnode]
          exact hcarried
      · cases hstep
        exact ⟨.same rfl rfl rfl rfl rfl, trivial, fun hcarried _ => hcarried⟩
    | insert | getNode | get | markDeleted | go | spurious =>
      cases hstep
      exact ⟨.same rfl rfl rfl rfl rfl, trivial, fun hcarried _ => hcarried⟩
  | insertStore i f newNode topLevel level =>
    cases hstep
    have hnode := node_setNext s.list newNode level {raw := (f.succs level).raw}
    have hquiet : Quiet s.list (s.list.setNext newNode level {raw := (f.succs level).raw}) :=
      quiet_of_same hlisted (fun b hb => ?_) (Nat.le_refl _)
    have hnodes := hquiet.nodes
    · refine ⟨.still ⟨hnodes, fun b _ => ⟨(hnode b).1, (hnode b).2.2.2.1⟩⟩ rfl rfl (storeFrom_debts ..) ?_,
        storeFrom_moved hmoved .., fun hcarried _ => storeFrom_carried ?_⟩
      · rw [storeFrom_hand]
        exact (hnode newNode).2.2.2.1
      · show s.passed[i.call]? = some (i.key, _)
        rw [(hnode newNode).2.2.2.1]
        exact hcarried
    · have hne : b ≠ newNode := by
        rintro rfl
        exact h.not_owned hb (Multiset.mem_add.mpr (.inl (Multiset.mem_singleton_self _)))
      exact node_setNode_of_ne s.list _ hne
  | insertLink i f newNode topLevel =>
    obtain ⟨⟨hf, hmiss⟩, hfill⟩ := hl
    simp only [step, linkLevel] at hstep
    by_cases hun : s.list.next (f.preds 0) 0 = f.succs 0
    · rw [if_pos hun] at hstep
      cases hstep
      have hzero := hf.between 0 (Nat.zero_le _)
      have hprepared := hfill.prepared h hf hmiss
      have hnode := node_setNext s.list (f.preds 0) 0 ⟨newNode, (f.succs 0).version + 1, false⟩
      obtain ⟨as, hlinked, hmem⟩ := hlisted.linkPrepared (w := ⟨newNode, (f.succs 0).version + 1, false⟩)
        hprepared hzero.pred_mem hzero.pred_lt (by rw [hfill.stored 0 (Nat.succ_pos _), hun]) rfl
      have hfresh : newNode ∉ s.list.nodes ++ [tail] := fun hm =>
        h.not_owned (List.mem_cons_of_mem _ hm) (Multiset.mem_add.mpr (.inl (Multiset.mem_singleton_self _)))
      refine ⟨.link i newNode rfl (linkFrom_debts ..) hfresh (fun hcarried => ?_) (fun a => ?_)
        (fun a => ⟨(hnode a).1, (hnode a).2.2.2.1⟩) rfl rfl rfl (linkFrom_hand ..), linkFrom_moved ..,
        fun _ _ => linkFrom_carried ..⟩
      · rw [hfill.key_eq]
        exact hcarried
      · show a ∈ (s.list.setNext (f.preds 0) 0 _).nodes ↔ _
        rw [hlinked.nodes_eq]
        exact hmem a
    · rw [if_neg hun] at hstep
      cases hstep
      exact ⟨.lost hun rfl rfl rfl hmoved, trivial, fun _ hfits => absurd hfits hun⟩
  | insertUpper i f newNode topLevel level =>
    obtain ⟨hf, hr⟩ := hl
    simp only [step, linkLevel] at hstep
    split at hstep
    · cases hstep
      exact ⟨.same rfl rfl rfl rfl rfl, trivial, fun _ _ => trivial⟩
    · by_cases hcas : s.list.next (f.preds level) level = f.succs level
      · rw [if_pos hcas] at hstep
        cases hstep
        have hnode := node_setNext s.list (f.preds level) level ⟨newNode, (f.succs level).version + 1, false⟩
        have hnodes := (rise_listed (w := ⟨newNode, (f.succs level).version + 1, false⟩)
          hlisted hf hr rfl).nodes_eq
        exact ⟨.still ⟨hnodes, fun b _ => ⟨(hnode b).1, (hnode b).2.2.2.1⟩⟩ rfl rfl (linkFrom_debts ..)
          (linkFrom_hand ..), linkFrom_moved .., fun _ _ => linkFrom_carried ..⟩
      · rw [if_neg hcas] at hstep
        cases hstep
        exact ⟨.same rfl rfl rfl rfl rfl, trivial, fun _ _ => trivial⟩
  | insertSearch i f newNode topLevel level =>
    simp only [step] at hstep
    rcases hsearch hl.1 with ⟨f', hfind⟩ | ⟨f', hfind, -⟩
    · rw [hfind] at hstep
      cases hstep
      exact ⟨.same rfl rfl rfl rfl rfl, trivial, fun _ _ => trivial⟩
    · rw [hfind] at hstep
      cases hstep
      exact ⟨.same rfl rfl rfl rfl rfl, trivial, fun _ _ => trivial⟩
  | insertCount i =>
    cases hstep
    have hquiet : Quiet s.list {s.list with nodeNum := s.list.nodeNum + 1} :=
      quiet_of_same hlisted (fun _ _ => rfl) (Nat.le_refl _)
    have hnodes := hquiet.nodes
    exact ⟨.count i rfl rfl ⟨hnodes, fun _ _ => ⟨rfl, rfl⟩⟩ rfl rfl rfl, trivial, fun _ _ => trivial⟩
  | getFind key full f =>
    simp only [step] at hstep
    rcases hsearch hl with ⟨f', hfind⟩ | ⟨f', hfind, -⟩
    · rw [hfind] at hstep
      cases hstep
      exact ⟨.same rfl rfl rfl rfl rfl, trivial, fun _ _ => trivial⟩
    · rw [hfind] at hstep
      simp only at hstep
      split at hstep
      · cases hstep
        exact ⟨.same rfl rfl rfl rfl rfl, trivial, fun _ _ => trivial⟩
      · cases hstep
        exact ⟨.same rfl rfl (by cases full <;> rfl) rfl rfl, trivial, fun _ _ => trivial⟩
  | getMarked key full node =>
    simp only [step] at hstep
    split at hstep
    · cases hstep
      exact ⟨.same rfl rfl (by cases full <;> rfl) rfl rfl, trivial, fun _ _ => trivial⟩
    · split at hstep
      · cases hstep
        exact ⟨.same rfl rfl rfl rfl rfl, trivial, fun _ _ => trivial⟩
      · cases hstep
        exact ⟨.same rfl rfl rfl rfl rfl, trivial, fun _ _ => trivial⟩
  | getHandle key node =>
    cases hstep
    exact ⟨.same rfl rfl rfl rfl rfl, trivial, fun _ _ => trivial⟩
  | hitLoad key node handle =>
    obtain ⟨hturn, hmoved', hcarried⟩ := incrHitCount_turn (.hitLoad key node handle) rfl rfl hstep
    exact ⟨hturn, hmoved', fun _ _ => hcarried⟩
  | hitCas key node handle oldCount =>
    simp only [step] at hstep
    split at hstep
    · cases hstep
      have hnodes := (quiet_setNode (n := {s.list.node node with hitCount := oldCount + 1}) hlisted
        rfl rfl rfl fun _ => rfl).nodes
      refine ⟨.still ⟨hnodes, fun b _ => ?_⟩ rfl rfl rfl rfl, trivial, fun _ _ => trivial⟩
      by_cases hb : b = node
      · subst hb
        show ((s.list.setNode b _).node b).key = _ ∧ ((s.list.setNode b _).node b).handle = _
        rw [node_setNode_self]
        exact ⟨rfl, rfl⟩
      · show ((s.list.setNode node _).node b).key = _ ∧ ((s.list.setNode node _).node b).handle = _
        rw [node_setNode_of_ne s.list _ hb]
        exact ⟨rfl, rfl⟩
    · obtain ⟨hturn, hmoved', hcarried⟩ :=
        incrHitCount_turn (.hitCas key node handle oldCount) rfl rfl hstep
      exact ⟨hturn, hmoved', fun _ _ => hcarried⟩
  | markLoad | markCas | markStore | markCount => exact absurd hmoved id

end Step

/-! ### The ledger -/

section Lists
variable {α β : Type*} [DecidableEq α] [DecidableEq β] {f : α → Option β} {xs : List α} {x : α}

omit [DecidableEq β] in
theorem filterMap_update_of_notMem (hx : x ∉ xs) (v : Option β) :
    xs.filterMap (Function.update f x v) = xs.filterMap f := by
  refine List.filterMap_congr fun y hy => ?_
  rw [Function.update_of_ne]
  rintro rfl
  exact hx hy

omit [DecidableEq α] in
theorem count_filterMap_cons (f : α → Option β) (x : α) (xs : List α) (i : β) :
    ((x :: xs).filterMap f).count i = (f x).toList.count i + (xs.filterMap f).count i := by
  rw [List.filterMap_cons]
  cases f x with
  | none => simp
  | some y => rw [Option.toList_some, ← List.count_append, List.singleton_append]

/-- One image is replaced. -/
theorem count_filterMap_update (hnodup : xs.Nodup) (hx : x ∈ xs) (v : Option β) (i : β) :
    (xs.filterMap (Function.update f x v)).count i + (f x).toList.count i =
      (xs.filterMap f).count i + v.toList.count i := by
  have hperm := List.perm_cons_erase hx
  have hrest := filterMap_update_of_notMem (f := f) (hnodup.not_mem_erase (a := x)) v
  rw [(hperm.filterMap f).count_eq, (hperm.filterMap _).count_eq, count_filterMap_cons,
    count_filterMap_cons, hrest, Function.update_self]
  omega

/-- An image that occurs once is the image of one element. -/
theorem eq_of_count_filterMap (hnodup : xs.Nodup) {i : β} (hcount : (xs.filterMap f).count i ≤ 1) {y : α}
    (hx : x ∈ xs) (hy : y ∈ xs) (hfx : f x = some i) (hfy : f y = some i) : x = y := by
  by_contra hne
  have hmem : y ∈ xs.erase x := (hnodup.mem_erase_iff).mpr ⟨fun heq => hne heq.symm, hy⟩
  have hpos : 0 < ((xs.erase x).filterMap f).count i :=
    List.count_pos_iff.mpr (List.mem_filterMap.mpr ⟨y, hmem, hfy⟩)
  rw [((List.perm_cons_erase hx).filterMap f).count_eq, count_filterMap_cons, hfx, Option.toList_some,
    List.count_singleton_self] at hcount
  omega

end Lists

/-- `cur` and `old` account for every handle passed, with the debts `d` of all threads. -/
structure Ledger (s : SharedSkipList) (cur old : Nat → Option Nat) (d : Multiset Debt) : Prop where
  solid : ∀ p ∈ s.passed, p.2 ≠ none
  current : ∀ a ∈ s.list.nodes ++ [tail], ∀ i ∈ cur a,
    s.passed[i]? = some ((s.list.node a).key, (s.list.node a).handle)
  empty : ∀ a ∈ s.list.nodes ++ [tail], cur a = none → (s.list.node a).handle = none
  full : ∀ a ∈ s.list.nodes, cur a ≠ none
  returned : ∀ p ∈ s.answers, p.2 = (old p.1).bind s.given
  other : ∀ p ∈ s.answers, ∀ i ∈ old p.1, i ≠ p.1 ∧ s.keyOf i = s.keyOf p.1
  placed : ∀ i, ((s.list.nodes ++ [tail]).filterMap cur).count i +
    ((s.answers.map Prod.fst).filterMap old).count i + d.count (.placing i) =
      if i < s.passed.length then 1 else 0
  answered : ∀ i, (s.answers.map Prod.fst).count i + d.count (.answering i) =
    if i < s.passed.length then 1 else 0

section Ledger
variable {s s' : SharedSkipList} {cur old : Nat → Option Nat} {d : Multiset Debt} {call : Nat} {pc pc' : Pc}

theorem Ledger.cur_lt (h : Ledger s cur old d) {a i : Nat} (ha : a ∈ s.list.nodes ++ [tail])
    (hi : i ∈ cur a) : i < s.passed.length := (List.getElem?_eq_some_iff.mp (h.current a ha i hi)).1

theorem Ledger.old_lt (h : Ledger s cur old d) {p : Nat × Option Handle} (hp : p ∈ s.answers) {i : Nat}
    (hi : i ∈ old p.1) : i < s.passed.length := by
  by_contra hge
  have hplaced := h.placed i
  rw [if_neg hge] at hplaced
  have hpos : 0 < ((s.answers.map Prod.fst).filterMap old).count i :=
    List.count_pos_iff.mpr (List.mem_filterMap.mpr ⟨p.1, List.mem_map_of_mem hp, hi⟩)
  omega

theorem Ledger.answer_lt (h : Ledger s cur old d) {p : Nat × Option Handle} (hp : p ∈ s.answers) :
    p.1 < s.passed.length := by
  by_contra hge
  have hanswered := h.answered p.1
  rw [if_neg hge] at hanswered
  have hpos : 0 < (s.answers.map Prod.fst).count p.1 :=
    List.count_pos_iff.mpr (List.mem_map_of_mem hp)
  omega

/-- A call that is to return has not returned. -/
theorem Ledger.unanswered (h : Ledger s cur old d) (hmem : .answering call ∈ d) :
    call ∉ s.answers.map Prod.fst := by
  intro hm
  have hdebt := Multiset.count_pos.mpr hmem
  have hpos := List.count_pos_iff.mpr hm
  have hanswered := h.answered call
  split at hanswered <;> omega

theorem given_congr (hpassed : s'.passed = s.passed) : s'.given = s.given := by
  funext i
  rw [given, given, hpassed]

theorem keyOf_congr (hpassed : s'.passed = s.passed) : s'.keyOf = s.keyOf := by
  funext i
  rw [keyOf, keyOf, hpassed]

/-- Nothing turns. -/
theorem Ledger.still (h : Ledger s cur old d) (hlist : Alike s.list s'.list)
    (hpassed : s'.passed = s.passed) (hanswers : s'.answers = s.answers) : Ledger s' cur old d := by
  refine ⟨?_, ?_, ?_, ?_, ?_, ?_, ?_, ?_⟩
  · rw [hpassed]
    exact h.solid
  · rw [hlist.nodes, hpassed]
    intro a ha i hi
    rw [(hlist.node a ha).1, (hlist.node a ha).2]
    exact h.current a ha i hi
  · rw [hlist.nodes]
    intro a ha hnone
    rw [(hlist.node a ha).2]
    exact h.empty a ha hnone
  · rw [hlist.nodes]
    exact h.full
  · rw [hanswers, given_congr hpassed]
    exact h.returned
  · rw [hanswers, keyOf_congr hpassed]
    exact h.other
  · rw [hlist.nodes, hanswers, hpassed]
    exact h.placed
  · rw [hanswers, hpassed]
    exact h.answered

/-- A call begins. -/
theorem Ledger.begin (h : Ledger s cur old d) {key : Int64} {handle : Handle} (hlist : s'.list = s.list)
    (hpassed : s'.passed = s.passed ++ [(key, some handle)]) (hanswers : s'.answers = s.answers) :
    Ledger s' cur old ({.placing s.passed.length} + {.answering s.passed.length} + d) := by
  have hsame : ∀ i < s.passed.length, s'.passed[i]? = s.passed[i]? := fun i hi => by
    rw [hpassed, List.getElem?_append_left hi]
  have hlength : s'.passed.length = s.passed.length + 1 := by
    rw [hpassed, List.length_append, List.length_singleton]
  have hone : ∀ i, (if i < s.passed.length + 1 then 1 else 0) =
      (if i < s.passed.length then 1 else 0) + if i = s.passed.length then 1 else 0 := by
    intro i
    split_ifs <;> omega
  refine ⟨fun p hp => ?_, fun a ha i hi => ?_, ?_, ?_, fun p hp => ?_, fun p hp i hi => ?_, fun i => ?_,
    fun i => ?_⟩
  · rw [hpassed] at hp
    rcases List.mem_append.mp hp with hm | hm
    · exact h.solid p hm
    · rw [List.mem_singleton.mp hm]
      exact Option.some_ne_none handle
  · rw [hlist] at ha ⊢
    rw [hsame i (h.cur_lt ha hi)]
    exact h.current a ha i hi
  · rw [hlist]
    exact h.empty
  · rw [hlist]
    exact h.full
  · rw [hanswers] at hp
    rw [h.returned p hp]
    cases hold : old p.1 with
    | none => rfl
    | some i =>
      show s.given i = s'.given i
      rw [given, given, hsame i (h.old_lt hp hold)]
  · rw [hanswers] at hp
    rw [keyOf, keyOf, hsame i (h.old_lt hp hi), hsame p.1 (h.answer_lt hp)]
    exact h.other p hp i hi
  · rw [hlist, hanswers, hlength, hone, ← h.placed i]
    simp only [Multiset.count_add, Multiset.count_singleton, Debt.placing.injEq, reduceCtorEq, if_false]
    omega
  · rw [hanswers, hlength, hone, ← h.answered i]
    simp only [Multiset.count_add, Multiset.count_singleton, Debt.answering.injEq, reduceCtorEq, if_false]
    omega

/-- A call exchanges the handle of a node, and returns. -/
theorem Ledger.update (h : Ledger s cur old ({.placing call} + {.answering call} + d))
    (hnodup : (s.list.nodes ++ [tail]).Nodup) {node : Nat} (hmem : node ∈ s.list.nodes ++ [tail])
    {handle : Option Handle} (hcarried : s.passed[call]? = some ((s.list.node node).key, handle))
    (hlist : s'.list = s.list.updateHandle node handle)
    (hnodes : s'.list.nodes = s.list.nodes) (hpassed : s'.passed = s.passed)
    (hanswers : s'.answers = (call, (s.list.node node).handle) :: s.answers) :
    Ledger s' (Function.update cur node (some call)) (Function.update old call (cur node)) d := by
  have hself : s'.list.node node = {s.list.node node with handle := handle} := by
    rw [hlist, updateHandle, node_setNode_self]
  have hother : ∀ a, a ≠ node → s'.list.node a = s.list.node a := fun a ha => by
    rw [hlist, updateHandle, node_setNode_of_ne s.list _ ha]
  have hnew := h.unanswered (Multiset.mem_add.mpr (.inl (Multiset.mem_add.mpr (.inr
    (Multiset.mem_singleton_self _)))))
  have hnotnew : ∀ p ∈ s.answers, p.1 ≠ call := by
    rintro p hp rfl
    exact hnew (List.mem_map_of_mem hp)
  have hfree : ∀ i ∈ cur node, i ≠ call := by
    rintro i hi rfl
    have hpos : 0 < ((s.list.nodes ++ [tail]).filterMap cur).count i :=
      List.count_pos_iff.mpr (List.mem_filterMap.mpr ⟨node, hmem, hi⟩)
    have hplaced := h.placed i
    simp only [Multiset.count_add, Multiset.count_singleton_self, Multiset.count_singleton, reduceCtorEq,
      if_false] at hplaced
    split at hplaced <;> omega
  refine ⟨?_, ?_, ?_, ?_, ?_, ?_, fun i => ?_, fun i => ?_⟩
  · rw [hpassed]
    exact h.solid
  · rw [hnodes, hpassed]
    intro a ha i hi
    by_cases heq : a = node
    · subst heq
      rw [Function.update_self] at hi
      cases hi
      rw [hself]
      exact hcarried
    · rw [Function.update_of_ne heq] at hi
      rw [hother a heq]
      exact h.current a ha i hi
  · rw [hnodes]
    intro a ha hnone
    by_cases heq : a = node
    · subst heq
      rw [Function.update_self] at hnone
      cases hnone
    · rw [Function.update_of_ne heq] at hnone
      rw [hother a heq]
      exact h.empty a ha hnone
  · rw [hnodes]
    intro a ha
    by_cases heq : a = node
    · subst heq
      rw [Function.update_self]
      exact Option.some_ne_none call
    · rw [Function.update_of_ne heq]
      exact h.full a ha
  · rw [hanswers, given_congr hpassed]
    intro p hp
    rcases List.mem_cons.mp hp with rfl | hp
    · rw [Function.update_self]
      cases hcur : cur node with
      | none => exact h.empty node hmem hcur
      | some i =>
        show _ = s.given i
        rw [given, h.current node hmem i hcur]
        rfl
    · rw [Function.update_of_ne (hnotnew p hp)]
      exact h.returned p hp
  · rw [hanswers, keyOf_congr hpassed]
    intro p hp i hi
    rcases List.mem_cons.mp hp with rfl | hp
    · rw [Function.update_self] at hi
      refine ⟨hfree i hi, ?_⟩
      rw [keyOf, keyOf, h.current node hmem i hi, hcarried]
      rfl
    · rw [Function.update_of_ne (hnotnew p hp)] at hi
      exact h.other p hp i hi
  · have hcount := count_filterMap_update hnodup hmem (f := cur) (some call) i
    rw [hnodes, hanswers, hpassed, ← h.placed i, List.map_cons, count_filterMap_cons, Function.update_self,
      filterMap_update_of_notMem hnew]
    simp only [Multiset.count_add, Multiset.count_singleton, Debt.placing.injEq, reduceCtorEq, if_false]
    simp only [Option.toList_some, List.count_singleton, beq_iff_eq, @eq_comm _ call] at hcount
    omega
  · rw [hanswers, hpassed, ← h.answered i, List.map_cons, List.count_cons]
    simp only [Multiset.count_add, Multiset.count_singleton, Debt.answering.injEq, reduceCtorEq, if_false,
      beq_iff_eq, @eq_comm _ call]
    omega

/-- The link at level 0 places a handle. -/
theorem Ledger.link (h : Ledger s cur old ({.placing call} + {.answering call} + d)) {newNode : Nat}
    (hfresh : newNode ∉ s.list.nodes ++ [tail])
    (hperm : (s'.list.nodes ++ [tail]).Perm (newNode :: (s.list.nodes ++ [tail])))
    (hmem : ∀ a ∈ s'.list.nodes, a = newNode ∨ a ∈ s.list.nodes)
    (hcarried : s.passed[call]? = some ((s.list.node newNode).key, (s.list.node newNode).handle))
    (hnode : ∀ a, (s'.list.node a).key = (s.list.node a).key ∧
      (s'.list.node a).handle = (s.list.node a).handle)
    (hpassed : s'.passed = s.passed) (hanswers : s'.answers = s.answers) :
    Ledger s' (Function.update cur newNode (some call)) old ({.answering call} + d) := by
  have hcases : ∀ a ∈ s'.list.nodes ++ [tail], a = newNode ∨ a ≠ newNode ∧ a ∈ s.list.nodes ++ [tail] := by
    intro a ha
    rcases List.mem_cons.mp (hperm.mem_iff.mp ha) with heq | hm
    · exact .inl heq
    · exact .inr ⟨fun heq => hfresh (heq ▸ hm), hm⟩
  refine ⟨?_, ?_, ?_, ?_, ?_, ?_, fun i => ?_, fun i => ?_⟩
  · rw [hpassed]
    exact h.solid
  · intro a ha i hi
    rw [hpassed, (hnode a).1, (hnode a).2]
    rcases hcases a ha with rfl | ⟨hne, hm⟩
    · rw [Function.update_self] at hi
      cases hi
      exact hcarried
    · rw [Function.update_of_ne hne] at hi
      exact h.current a hm i hi
  · intro a ha hnone
    rw [(hnode a).2]
    rcases hcases a ha with rfl | ⟨hne, hm⟩
    · rw [Function.update_self] at hnone
      cases hnone
    · rw [Function.update_of_ne hne] at hnone
      exact h.empty a hm hnone
  · intro a ha
    by_cases heq : a = newNode
    · rw [heq, Function.update_self]
      exact Option.some_ne_none call
    · rw [Function.update_of_ne heq]
      exact h.full a ((hmem a ha).resolve_left heq)
  · rw [hanswers, given_congr hpassed]
    exact h.returned
  · rw [hanswers, keyOf_congr hpassed]
    exact h.other
  · rw [(hperm.filterMap _).count_eq, count_filterMap_cons, Function.update_self,
      filterMap_update_of_notMem hfresh, hanswers, hpassed, ← h.placed i]
    simp only [Multiset.count_add, Multiset.count_singleton, Debt.placing.injEq, reduceCtorEq, if_false,
      Option.toList_some, List.count_singleton, beq_iff_eq, @eq_comm _ call]
    omega
  · rw [hanswers, hpassed, ← h.answered i]
    simp only [Multiset.count_add, Multiset.count_singleton, reduceCtorEq, if_false]
    omega

/-- A call that has linked its node returns null. -/
theorem Ledger.count (h : Ledger s cur old ({.answering call} + d)) (hlist : Alike s.list s'.list)
    (hpassed : s'.passed = s.passed) (hanswers : s'.answers = (call, none) :: s.answers) :
    Ledger s' cur (Function.update old call none) d := by
  have hnew := h.unanswered (Multiset.mem_add.mpr (.inl (Multiset.mem_singleton_self _)))
  have hnotnew : ∀ p ∈ s.answers, p.1 ≠ call := by
    rintro p hp rfl
    exact hnew (List.mem_map_of_mem hp)
  refine ⟨?_, ?_, ?_, ?_, ?_, ?_, fun i => ?_, fun i => ?_⟩
  · rw [hpassed]
    exact h.solid
  · rw [hlist.nodes, hpassed]
    intro a ha i hi
    rw [(hlist.node a ha).1, (hlist.node a ha).2]
    exact h.current a ha i hi
  · rw [hlist.nodes]
    intro a ha hnone
    rw [(hlist.node a ha).2]
    exact h.empty a ha hnone
  · rw [hlist.nodes]
    exact h.full
  · rw [hanswers, given_congr hpassed]
    intro p hp
    rcases List.mem_cons.mp hp with rfl | hp
    · rw [Function.update_self]
      rfl
    · rw [Function.update_of_ne (hnotnew p hp)]
      exact h.returned p hp
  · rw [hanswers, keyOf_congr hpassed]
    intro p hp i hi
    rcases List.mem_cons.mp hp with rfl | hp
    · rw [Function.update_self] at hi
      cases hi
    · rw [Function.update_of_ne (hnotnew p hp)] at hi
      exact h.other p hp i hi
  · rw [hlist.nodes, hanswers, hpassed, ← h.placed i, List.map_cons, count_filterMap_cons,
      Function.update_self, filterMap_update_of_notMem hnew]
    simp only [Multiset.count_add, Multiset.count_singleton, reduceCtorEq, if_false, Option.toList_none,
      List.count_nil]
    omega
  · rw [hanswers, hpassed, ← h.answered i, List.map_cons, List.count_cons]
    simp only [Multiset.count_add, Multiset.count_singleton, Debt.answering.injEq, beq_iff_eq,
      @eq_comm _ call]
    omega

/-- **The step lemma**: each turn of a handle keeps the ledger. -/
theorem Ledger.turn (h : Ledger s cur old (pc.debts + d)) (ht : Turn s pc s' pc') (hcarried : Carried s pc)
    (hun : pc.Unbeaten s.list) (hlisted : Listed s.list s.list.nodes) (hlisted' : Listed s'.list s'.list.nodes) :
    ∃ cur' old', Ledger s' cur' old' (pc'.debts + d) := by
  cases ht with
  | still list passed answers debts =>
    rw [debts]
    exact ⟨cur, old, h.still list passed answers⟩
  | begin key handle before after list passed answers =>
    rw [before, Multiset.zero_add] at h
    rw [after]
    exact ⟨cur, old, h.begin list passed answers⟩
  | update i node before after mem carried list passed answers =>
    rw [before] at h
    rw [after, Multiset.zero_add]
    have hnodes : s'.list.nodes = s.list.nodes := by
      rw [list]
      exact (quiet_setNode (n := {s.list.node node with handle := i.handle}) hlisted rfl rfl rfl
        fun _ => rfl).nodes
    exact ⟨_, _, h.update (nodes_nodup hlisted) mem (carried hcarried) list hnodes passed answers⟩
  | link i newNode before after fresh carried mem node passed answers =>
    rw [before] at h
    rw [after]
    exact ⟨_, _, h.link fresh (nodes_linked hlisted hlisted' fresh mem) (fun a ha => (mem a).mp ha) (carried hcarried) node passed answers⟩
  | count i before after list passed answers =>
    rw [before] at h
    rw [after, Multiset.zero_add]
    exact ⟨_, _, h.count list passed answers⟩
  | lost beaten => exact absurd hun beaten

end Ledger

/-! ### Runs -/

section Run
variable {s s' : SharedSkipList} {pc pc' : Pc}

theorem Turn.passed_grows (ht : Turn s pc s' pc') {i : Nat} {p : Int64 × Option Handle}
    (hp : s.passed[i]? = some p) : s'.passed[i]? = some p := by
  have hlt := (List.getElem?_eq_some_iff.mp hp).1
  cases ht with
  | begin _ _ _ _ _ passed => rw [passed, List.getElem?_append_left hlt, hp]
  | still _ passed | update _ _ _ _ _ _ _ passed | link _ _ _ _ _ _ _ _ passed | count _ _ _ _ passed
  | lost _ _ passed => rw [passed, hp]

/-- Other threads leave a position its handle. -/
theorem Carried.keeps (h : Carried s pc) (hl : Local s.list pc) (hk : Keeps s.list s'.list pc.claims)
    (hgrow : ∀ {i : Nat} {p : Int64 × Option Handle}, s.passed[i]? = some p → s'.passed[i]? = some p) :
    Carried s' pc := by
  cases pc with
  | insertFind | insertNew => exact hgrow h
  | insertUpdate i node =>
    exact ⟨hgrow h.1, ((hk.grows.node node (List.mem_cons_of_mem _ hl)).1).trans h.2⟩
  | insertStore i f newNode topLevel level =>
    have hsame := hk.owned newNode (Multiset.mem_singleton_self _)
    show s'.passed[i.call]? = some (i.key, (s'.list.node newNode).handle)
    rw [hsame]
    exact hgrow h
  | insertLink i f newNode topLevel =>
    have hsame := hk.owned newNode (Multiset.mem_singleton_self _)
    show s'.passed[i.call]? = some (i.key, (s'.list.node newNode).handle)
    rw [hsame]
    exact hgrow h
  | _ => trivial

variable {ι : Type*} [Fintype ι] [DecidableEq ι] {c : Config SharedSkipList Pc ι}

/-- A configuration of threads that delete nothing. -/
structure Giving.Sound (c : Config SharedSkipList Pc ι) : Prop where
  accounts : Accounts c
  moved : ∀ t, (c.threads t).Moved

omit [DecidableEq ι] in
theorem initial_sound : Giving.Sound (initial : Config SharedSkipList Pc ι) := ⟨initial_accounts, fun _ => trivial⟩

/-- What one access of a thread is, and what the other positions keep. -/
theorem Giving.Sound.set (h : Giving.Sound c) {t : ι} (hstep : Giving c.shared (c.threads t) s' pc') :
    Giving.Sound (c.set t s' pc') ∧ Turn c.shared (c.threads t) s' pc' ∧
      (Carried c.shared (c.threads t) → Unbeaten c t → Carried s' pc') ∧
      ∀ u ≠ t, Keeps c.shared.list s'.list (c.threads u).claims := by
  obtain ⟨⟨a, ha⟩, hstep⟩ := hstep
  have hg := h.accounts.glob
  rw [total_eq Pc.claims c t] at hg
  obtain ⟨-, -, hk⟩ := step_spec hg (h.accounts.loc t) hstep
  obtain ⟨hturn, hmoved, hcarried⟩ := step_turn hg (h.accounts.loc t) (h.moved t) ha hstep
  refine ⟨⟨h.accounts.set ⟨a, hstep⟩, fun u => ?_⟩, hturn, hcarried, fun u hu => ?_⟩
  · by_cases hu : u = t
    · subst hu
      rw [Config.set_threads_self]
      exact hmoved
    · rw [c.set_threads_of_ne s' pc' hu]
      exact h.moved u
  · obtain ⟨r, hr⟩ := others_eq Pc.claims c hu
    rw [hr] at hk
    exact ⟨hk.grows, fun b hb => hk.owned b (Multiset.mem_add.mpr (.inl hb))⟩

/-- Every handle is accounted for. -/
structure Accounted (c : Config SharedSkipList Pc ι) : Prop where
  sound : Giving.Sound c
  carried : ∀ t, Carried c.shared (c.threads t)
  ledger : ∃ cur old, Ledger c.shared cur old (total Pc.debts c)

omit [DecidableEq ι] in
theorem initial_accounted : Accounted (initial : Config SharedSkipList Pc ι) := by
  have hnodes : make.list.nodes = [] := make_listed.nodes_eq
  have htotal : total Pc.debts (initial : Config SharedSkipList Pc ι) = 0 := Finset.sum_const_zero
  refine ⟨initial_sound, fun _ => trivial, fun _ => none, fun _ => none, ?_⟩
  rw [htotal, initial]
  refine ⟨fun _ h => ?_, fun _ _ _ h => ?_, fun a ha _ => ?_, fun a ha => ?_, fun _ h => ?_, fun _ h => ?_,
    fun i => ?_, fun i => ?_⟩
  · cases h
  · cases h
  · rw [hnodes, List.nil_append, List.mem_singleton] at ha
    rw [ha]
    rfl
  · rw [hnodes] at ha
    cases ha
  · cases h
  · cases h
  · rw [hnodes]
    rfl
  · rfl

theorem Accounted.set (h : Accounted c) {t : ι} (hun : Unbeaten c t)
    (hstep : Giving c.shared (c.threads t) s' pc') : Accounted (c.set t s' pc') := by
  obtain ⟨hsound, hturn, hcarried, hkeeps⟩ := h.sound.set hstep
  obtain ⟨cur, old, hledger⟩ := h.ledger
  rw [total_eq Pc.debts c t] at hledger
  refine ⟨hsound, fun u => ?_, ?_⟩
  · by_cases hu : u = t
    · subst hu
      rw [Config.set_threads_self]
      exact hcarried (h.carried u) hun
    · rw [c.set_threads_of_ne s' pc' hu]
      exact (h.carried u).keeps (h.sound.accounts.loc u) (hkeeps u hu) hturn.passed_grows
  · rw [total_set]
    exact hledger.turn hturn (h.carried t) hun h.sound.accounts.glob.listed hsound.accounts.glob.listed

/-- **The run lemma.** -/
theorem accounted_of_reaches (hr : Reaches Giving Unbeaten initial c) : Accounted c :=
  hr.invariant (fun _ _ _ _ h hun hstep => h.set hun hstep) initial_accounted

omit [DecidableEq ι] in
theorem Accounted.solid (h : Accounted c) : ∀ a ∈ c.shared.list.nodes, (c.shared.list.node a).handle ≠ none := by
  obtain ⟨cur, old, hledger⟩ := h.ledger
  intro a ha
  obtain ⟨i, hi⟩ := Option.ne_none_iff_exists'.mp (hledger.full a ha)
  have hpassed := hledger.current a (List.mem_append_left _ ha) i hi
  exact hledger.solid _ (List.mem_of_getElem? hpassed)

theorem mem_answers {j : Nat} {oldHandle : Option Handle} :
    (j, oldHandle) ∈ s.answers ↔ .inserted j oldHandle ∈ s.replies := by
  rw [answers, List.mem_filterMap]
  constructor
  · rintro ⟨r, hr, heq⟩
    cases r with
    | inserted =>
      cases heq
      exact hr
    | _ => cases heq
  · exact fun h => ⟨_, h, rfl⟩

/-- Without debts the ledger is about the nodes and the calls that have returned. -/
theorem Ledger.handed {cur old : Nat → Option Nat} (h : Ledger s cur old 0) :
    Handed s cur fun j => if j < s.passed.length then old j else none := by
  have hplaced : ∀ i < s.passed.length, ((s.list.nodes ++ [tail]).filterMap cur).count i +
      ((s.answers.map Prod.fst).filterMap old).count i = 1 := fun i hi => by
    have hi' := h.placed i
    rwa [if_pos hi] at hi'
  have hanswer : ∀ j < s.passed.length, ∃ oldHandle, (j, oldHandle) ∈ s.answers := by
    intro j hj
    have hanswered := h.answered j
    rw [if_pos hj, Multiset.count_zero] at hanswered
    have hmem : j ∈ s.answers.map Prod.fst := List.count_pos_iff.mp (by omega)
    obtain ⟨⟨j, oldHandle⟩, hp, rfl⟩ := List.mem_map.mp hmem
    exact ⟨oldHandle, hp⟩
  have honce : (s.answers.map Prod.fst).Nodup := by
    refine List.nodup_iff_count_le_one.mpr fun j => ?_
    have hanswered := h.answered j
    split at hanswered <;> omega
  have hreturned : ∀ {i j : Nat}, (if j < s.passed.length then old j else none) = some i →
      j ∈ s.answers.map Prod.fst ∧ old j = some i := by
    intro i j hj
    obtain ⟨hlt, hj⟩ := Option.ite_none_right_eq_some.mp hj
    obtain ⟨oldHandle, hp⟩ := hanswer j hlt
    exact ⟨List.mem_map_of_mem hp, hj⟩
  refine ⟨h.current, fun j oldHandle => ⟨fun hr => ?_, fun ⟨hj, heq⟩ => ?_⟩, fun j i hj => ?_, fun i hi => ?_⟩
  · have hp := mem_answers.mpr hr
    have hj := h.answer_lt hp
    refine ⟨hj, ?_⟩
    rw [if_pos hj]
    exact h.returned _ hp
  · obtain ⟨answer, hp⟩ := hanswer j hj
    rw [if_pos hj] at heq
    have hsame : answer = oldHandle := (h.returned _ hp).trans heq.symm
    exact mem_answers.mp (hsame ▸ hp)
  · obtain ⟨hmem, hold⟩ := hreturned hj
    obtain ⟨p, hp, rfl⟩ := List.mem_map.mp hmem
    exact h.other p hp i hold
  · have hone := hplaced i hi
    by_cases hcur : 0 < ((s.list.nodes ++ [tail]).filterMap cur).count i
    · left
      obtain ⟨a, ha, hai⟩ := List.mem_filterMap.mp (List.count_pos_iff.mp hcur)
      refine ⟨⟨a, ha, hai⟩, fun j hj => ?_⟩
      obtain ⟨hmem, hold⟩ := hreturned hj
      have hpos := List.count_pos_iff.mpr (List.mem_filterMap.mpr ⟨j, hmem, hold⟩)
      omega
    · right
      refine ⟨fun a ha hai => hcur (List.count_pos_iff.mpr (List.mem_filterMap.mpr ⟨a, ha, hai⟩)), ?_⟩
      obtain ⟨j, hmem, hold⟩ := List.mem_filterMap.mp (List.count_pos_iff.mp
        (show 0 < ((s.answers.map Prod.fst).filterMap old).count i by omega))
      obtain ⟨p, hp, rfl⟩ := List.mem_map.mp hmem
      refine ⟨p.1, ?_, fun k hk => ?_⟩
      · simp only [if_pos (h.answer_lt hp)]
        exact hold
      · obtain ⟨hkmem, hkold⟩ := hreturned hk
        exact eq_of_count_filterMap honce (by omega) hkmem hmem hkold hold

omit [DecidableEq ι] in
theorem Accounted.handed (h : Accounted c) (hidle : ∀ t, (c.threads t).inserting = false) :
    ∃ cur old, Handed c.shared cur old := by
  obtain ⟨cur, old, hledger⟩ := h.ledger
  have hzero : total Pc.debts c = 0 := by
    refine Finset.sum_eq_zero fun t _ => ?_
    have ht := hidle t
    generalize c.threads t = pc at ht
    cases pc <;> first | rfl | cases ht
  rw [hzero] at hledger
  exact ⟨cur, _, hledger.handed⟩

/-- **No handle is lost** while no link at level 0 fails: every node has a handle, and after
the calls each handle passed is with the node of its key, or exactly one other `Insert` of
this key has returned it. -/
theorem reaches_handed (hr : Reaches Giving Unbeaten initial c) :
    (∀ a ∈ c.shared.list.nodes, (c.shared.list.node a).handle ≠ none) ∧
      ((∀ t, (c.threads t).inserting = false) → ∃ cur old, Handed c.shared cur old) :=
  ⟨(accounted_of_reaches hr).solid, (accounted_of_reaches hr).handed⟩

end Run

instance (l : AtomicSkipList) : DecidablePred (Pc.Unbeaten l)
  | .insertLink .. => inferInstanceAs (Decidable (_ = _))
  | .ready | .insertFind .. | .insertUpdate .. | .insertNew .. | .insertStore .. | .insertUpper ..
  | .insertSearch .. | .insertCount .. | .getFind .. | .getMarked .. | .getHandle .. | .hitLoad ..
  | .hitCas .. | .markLoad .. | .markCas .. | .markStore .. | .markCount .. => .isTrue trivial

instance {ι : Type*} (c : Config SharedSkipList Pc ι) (t : ι) : Decidable (Unbeaten c t) :=
  inferInstanceAs (Decidable (Pc.Unbeaten _ _))

/-- One thread makes this many steps. -/
def walks (t : Fin 2) (steps : Nat) : List (Fin 2 × {c : Choice // c.gives = true}) :=
  List.replicate steps (t, ⟨.go, rfl⟩)

/-- An `Insert` of thread 1 replaces the handle that thread 0 has placed and not counted yet. -/
def replaced : List (Fin 2 × {c : Choice // c.gives = true}) :=
  (0, ⟨.insert 7 (some ⟨0, 1⟩), rfl⟩) :: (walks 0 16 ++ (0, ⟨.new 3 1, rfl⟩) :: (walks 0 3 ++
    (1, ⟨.insert 7 (some ⟨1, 1⟩), rfl⟩) :: (walks 1 17 ++ walks 0 2)))

theorem reaches_handed_replaced : ∃ c : Config SharedSkipList Pc (Fin 2),
    Reaches Giving Unbeaten initial c ∧ c.shared.list.nodes = [3] ∧ c.shared.replies.length = 2 ∧
    (∀ a ∈ c.shared.list.nodes, (c.shared.list.node a).handle ≠ none) ∧
      ∃ cur old, Handed c.shared cur old := by
  have hr : Reaches Giving Unbeaten initial (exec (fun c => step c.1) initial replaced) :=
    reaches_exec_guarded (by decide +kernel)
  obtain ⟨hsolid, hhanded⟩ := reaches_handed hr
  exact ⟨_, hr, by decide +kernel, by decide +kernel, hsolid, hhanded (by decide +kernel)⟩

end HyperCache.HashSkip.SharedSkipList
