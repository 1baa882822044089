import HyperCache.HashSkip.Concurrent
import HyperCache.HashSkip.Contents

/-! Level 0 of the skip list is a sorted set, whatever the threads do.

What a search has seen stays true: nodes are only ever added, and their keys and heights
do not change. So a compare-and-swap that finds the pointer a search has loaded puts the
new node between the two nodes that were neighbours then and are neighbours now; versions
and marks play no part in that. `Global` is what the memory owes to all threads together,
`Local` what each position relies on, and `Keeps` what a step leaves to the others. -/
namespace HyperCache.HashSkip.SharedSkipList
open AtomicSkipList Interleaving

/-! ### What stays true while nodes are added -/

/-- Nodes are added; those that were there have the same keys and heights. -/
structure Grows (l l' : AtomicSkipList) (as as' : List Nat) : Prop where
  mem : ∀ a ∈ as, a ∈ as'
  node : ∀ a ∈ head :: as ++ [tail],
    (l'.node a).key = (l.node a).key ∧ (l'.node a).topLevel = (l.node a).topLevel

section Grows
variable {l l' : AtomicSkipList} {as as' : List Nat} {key : Int64} {f : FindState} {a : Nat}

theorem Grows.pred (h : Grows l l' as as') (ha : a ∈ head :: as) : a ∈ head :: as' := by
  rcases List.mem_cons.mp ha with rfl | hm
  · exact List.mem_cons_self ..
  · exact List.mem_cons_of_mem _ (h.mem a hm)

theorem Grows.succ (h : Grows l l' as as') (ha : a ∈ as ++ [tail]) : a ∈ as' ++ [tail] := by
  rcases List.mem_append.mp ha with hm | hm
  · exact List.mem_append_left _ (h.mem a hm)
  · exact List.mem_append_right _ hm

theorem Grows.all (h : Grows l l' as as') (ha : a ∈ head :: as ++ [tail]) :
    a ∈ head :: as' ++ [tail] := by
  rcases List.mem_append.mp ha with hm | hm
  · exact List.mem_append_left _ (h.pred hm)
  · exact List.mem_append_right _ hm

theorem Grows.rank (h : Grows l l' as as') (ha : a ∈ head :: as ++ [tail]) : l'.rank a = l.rank a :=
  rank_congr (h.node a ha).1

theorem Grows.between (h : Grows l l' as as') {level pred : Nat} {succ : MarkVersionedPtr}
    (hb : Between l as key level pred succ) : Between l' as' key level pred succ := by
  have hpred : pred ∈ head :: as ++ [tail] := List.mem_append_left _ hb.pred_mem
  have hsucc : succ.raw ∈ head :: as ++ [tail] := List.mem_cons_of_mem _ hb.succ_mem
  refine ⟨h.pred hb.pred_mem, ?_, ?_, h.succ hb.succ_mem, ?_, ?_⟩
  · rw [h.rank hpred]
    exact hb.pred_lt
  · rw [(h.node pred hpred).2]
    exact hb.pred_top
  · rw [h.rank hsucc]
    exact hb.le_succ
  · rw [(h.node _ hsucc).2]
    exact hb.succ_top

theorem Grows.searching (h : Grows l l' as as') (hs : Searching l as key f) :
    Searching l' as' key f := by
  have hpred : f.pred ∈ head :: as ++ [tail] := List.mem_append_left _ hs.pred_mem
  refine ⟨hs.level, h.pred hs.pred_mem, ?_, ?_, fun i hi hmax => h.between (hs.above i hi hmax), ?_, ?_⟩
  · rw [h.rank hpred]
    exact hs.pred_lt
  · rw [(h.node _ hpred).2]
    exact hs.pred_top
  · intro hmissed i hi hmax
    have hmem := (hs.above i hi hmax).succ_mem
    rw [(h.node _ (List.mem_cons_of_mem _ hmem)).1]
    exact hs.missed hmissed i hi hmax
  · intro hfound
    obtain ⟨a, ha, hkey⟩ := hs.found hfound
    exact ⟨a, h.succ ha, (h.node a (List.mem_cons_of_mem _ ha)).1.trans hkey⟩

theorem Grows.found (h : Grows l l' as as') (hf : Found l as key f) : Found l' as' key f := by
  have hmem := fun i (hi : i ≤ maxLevel) =>
    List.mem_cons_of_mem head (hf.between i hi).succ_mem
  refine ⟨fun i hi => h.between (hf.between i hi), fun hmissed i hi => ?_, fun hfound => ?_⟩
  · rw [(h.node _ (hmem i hi)).1]
    exact hf.missed hmissed i hi
  · rw [(h.node _ (hmem 0 (Nat.zero_le _))).1]
    exact hf.found hfound

end Grows

/-! ### The accounts -/

inductive Claim where
  | owning (address : Nat)
  | uncounted
  deriving DecidableEq

/-- What a position claims: the node it has made, and the node it has linked but not
counted. -/
def Pc.claims : Pc → Multiset Claim
  | .insertStore _ _ newNode _ _ | .insertLink _ _ newNode _ => {.owning newNode}
  | .insertUpper .. | .insertSearch .. | .insertCount _ => {.uncounted}
  | _ => 0

/-- What the memory owes to the claims `m` of all threads. -/
structure Global (l : AtomicSkipList) (live : Nat → Bool) (m : Multiset Claim) : Prop where
  listed : Listed l l.nodes
  inUse : ∀ a ∈ head :: l.nodes ++ [tail], live a = true
  owned : ∀ a, .owning a ∈ m → live a = true ∧ a ∉ l.nodes ∧ tail < a ∧ a < l.size
  once : ∀ a, m.count (.owning a) ≤ 1
  counted : l.nodeNum + m.count .uncounted = l.nodes.length

/-- A new node, its pointers below `level` set to the successors found. -/
structure Filling (l : AtomicSkipList) (key : Int64) (f : FindState) (newNode topLevel level : Nat) :
    Prop where
  key_eq : (l.node newNode).key = key
  top : (l.node newNode).topLevel = topLevel
  top_le : topLevel ≤ maxLevel
  length : (l.node newNode).nexts.length = topLevel + 1
  unmarked : (l.node newNode).isMarked = false
  stored : ∀ i < level, (l.next newNode i).raw = (f.succs i).raw

/-- A node that is linked below `level`. -/
structure Rising (l : AtomicSkipList) (key : Int64) (newNode topLevel level : Nat) : Prop where
  mem : newNode ∈ l.nodes
  key_eq : (l.node newNode).key = key
  top : (l.node newNode).topLevel = topLevel
  level_pos : level ≠ 0
  level_le : level ≤ topLevel

/-- What a position relies on. -/
def Local (l : AtomicSkipList) : Pc → Prop
  | .insertFind i f => Searching l l.nodes i.key f
  | .insertNew i f => Found l l.nodes i.key f ∧ f.found = false
  | .insertStore i f newNode topLevel level =>
    (Found l l.nodes i.key f ∧ f.found = false) ∧ Filling l i.key f newNode topLevel level ∧
      level ≤ topLevel
  | .insertLink i f newNode topLevel =>
    (Found l l.nodes i.key f ∧ f.found = false) ∧ Filling l i.key f newNode topLevel (topLevel + 1)
  | .insertUpper i f newNode topLevel level =>
    Found l l.nodes i.key f ∧ Rising l i.key newNode topLevel level
  | .insertSearch i f newNode topLevel level =>
    Searching l l.nodes i.key f ∧ Rising l i.key newNode topLevel level
  | .getFind key _ f => Searching l l.nodes key f
  | .insertUpdate _ node | .getMarked _ _ node | .getHandle _ node | .hitLoad _ node _
  | .hitCas _ node _ _ => node ∈ l.nodes ++ [tail]
  | .markLoad node | .markCas node _ | .markStore node => node ∈ l.nodes
  | _ => True

/-- What the claims `m` keep when another thread takes the list from `l` to `l'`. -/
structure Keeps (l l' : AtomicSkipList) (m : Multiset Claim) : Prop where
  grows : Grows l l' l.nodes l'.nodes
  owned : ∀ a, .owning a ∈ m → l'.node a = l.node a

theorem Keeps.refl (l : AtomicSkipList) (m : Multiset Claim) : Keeps l l m :=
  ⟨⟨fun _ ha => ha, fun _ _ => ⟨rfl, rfl⟩⟩, fun _ _ => rfl⟩

section Keep
variable {l l' : AtomicSkipList} {m r : Multiset Claim} {live : Nat → Bool} {a : Nat}

theorem Filling.keeps {key : Int64} {f : FindState} {newNode topLevel level : Nat}
    (h : Filling l key f newNode topLevel level) (hnode : l'.node newNode = l.node newNode) :
    Filling l' key f newNode topLevel level := by
  have hnext : ∀ i, l'.next newNode i = l.next newNode i := fun i => by rw [next, next, hnode]
  refine ⟨?_, ?_, h.top_le, ?_, ?_, fun i hi => by rw [hnext, h.stored i hi]⟩
  · rw [hnode, h.key_eq]
  · rw [hnode, h.top]
  · rw [hnode, h.length]
  · rw [hnode, h.unmarked]

theorem Rising.keeps {key : Int64} {newNode topLevel level : Nat}
    (h : Rising l key newNode topLevel level) (hk : Grows l l' l.nodes l'.nodes) :
    Rising l' key newNode topLevel level := by
  obtain ⟨hkey, htop⟩ := hk.node newNode (List.mem_append_left _ (List.mem_cons_of_mem _ h.mem))
  exact ⟨hk.mem _ h.mem, hkey.trans h.key_eq, htop.trans h.top, h.level_pos, h.level_le⟩

/-- A position keeps what it relies on. -/
theorem Local.keeps {pc : Pc} (h : Local l pc) (hk : Keeps l l' pc.claims) : Local l' pc := by
  cases pc with
  | ready | insertCount | markCount => trivial
  | insertFind | getFind => exact hk.grows.searching h
  | insertNew => exact ⟨hk.grows.found h.1, h.2⟩
  | insertStore i f newNode topLevel level =>
    have hnode := hk.owned newNode (Multiset.mem_singleton_self _)
    exact ⟨⟨hk.grows.found h.1.1, h.1.2⟩, h.2.1.keeps hnode, h.2.2⟩
  | insertLink i f newNode topLevel =>
    have hnode := hk.owned newNode (Multiset.mem_singleton_self _)
    exact ⟨⟨hk.grows.found h.1.1, h.1.2⟩, h.2.keeps hnode⟩
  | insertUpper => exact ⟨hk.grows.found h.1, h.2.keeps hk.grows⟩
  | insertSearch => exact ⟨hk.grows.searching h.1, h.2.keeps hk.grows⟩
  | insertUpdate | getMarked | getHandle | hitLoad | hitCas => exact hk.grows.succ h
  | markLoad | markCas | markStore => exact hk.grows.mem _ h

/-- Nobody owns a node of the list. -/
theorem Global.not_owned (h : Global l live m) (ha : a ∈ head :: l.nodes ++ [tail]) :
    Claim.owning a ∉ m := by
  intro hm
  obtain ⟨-, hfresh, htail, -⟩ := h.owned a hm
  rcases List.mem_append.mp ha with hmem | hmem
  · rcases List.mem_cons.mp hmem with rfl | hmem
    · exact absurd htail (by decide)
    · exact hfresh hmem
  · exact Nat.ne_of_gt htail (List.mem_singleton.mp hmem)

/-- The list changes and its nodes stay. -/
theorem Global.change (h : Global l live m) (hlisted : Listed l' l.nodes) (hsize : l.size ≤ l'.size)
    (hnum : l'.nodeNum = l.nodeNum) : Global l' live m := by
  have hnodes := hlisted.nodes_eq
  refine ⟨?_, ?_, ?_, h.once, ?_⟩
  · rw [hnodes]
    exact hlisted
  · rw [hnodes]
    exact h.inUse
  · rw [hnodes]
    intro a ha
    obtain ⟨hlive, hfresh, htail, hlt⟩ := h.owned a ha
    exact ⟨hlive, hfresh, htail, Nat.lt_of_lt_of_le hlt hsize⟩
  · rw [hnodes, hnum]
    exact h.counted

/-- A position without claims. -/
theorem Global.idle (h : Global l live m) : Global l live (0 + m) := by
  rw [Multiset.zero_add]
  exact h

theorem Global.of_idle (h : Global l live (0 + m)) : Global l live m := by
  rw [Multiset.zero_add] at h
  exact h

theorem Keeps.change (hlisted : Listed l' l.nodes) (hnode : ∀ a ∈ head :: l.nodes ++ [tail],
      (l'.node a).key = (l.node a).key ∧ (l'.node a).topLevel = (l.node a).topLevel)
    (howned : ∀ a, .owning a ∈ m → l'.node a = l.node a) : Keeps l l' m := by
  refine ⟨⟨?_, hnode⟩, howned⟩
  rw [hlisted.nodes_eq]
  exact fun _ ha => ha

theorem Keeps.rest (h : Keeps l l' (m + r)) : Keeps l l' r :=
  ⟨h.grows, fun a ha => h.owned a (Multiset.mem_add.mpr (.inr ha))⟩

/-! ### What each access does to the accounts -/

/-- A node of the list changes in its handle, its hit count, its marks or its versions. -/
theorem Global.touch (h : Global l live m) (ha : a ∈ l.nodes ++ [tail]) {n : Node}
    (hkey : n.key = (l.node a).key) (htop : n.topLevel = (l.node a).topLevel)
    (hlen : n.nexts.length = (l.node a).nexts.length)
    (hraw : ∀ level, (n.next level).raw = (l.next a level).raw) :
    Global (l.setNode a n) live m ∧ Keeps l (l.setNode a n) m := by
  have hlisted := h.listed.setNode hkey htop hlen hraw
  refine ⟨h.change hlisted (Nat.le_refl _) rfl, Keeps.change hlisted (fun b _ => ?_) fun b hb => ?_⟩
  · by_cases hba : b = a
    · subst hba
      rw [node_setNode_self]
      exact ⟨hkey, htop⟩
    · rw [node_setNode_of_ne l n hba]
      exact ⟨rfl, rfl⟩
  · have hba : b ≠ a := fun heq => h.not_owned (List.mem_cons_of_mem _ ha) (heq ▸ hb)
    exact node_setNode_of_ne l n hba

theorem Global.updateHandle (h : Global l live m) (ha : a ∈ l.nodes ++ [tail]) (handle : Option Handle) :
    Global (l.updateHandle a handle) live m ∧ Keeps l (l.updateHandle a handle) m :=
  h.touch ha rfl rfl rfl fun _ => rfl

/-- A pointer that is set to where it points already. -/
theorem raw_set {level : Nat} {w : MarkVersionedPtr} (hraw : w.raw = (l.next a level).raw) (i : Nat) :
    (({l.node a with nexts := (l.node a).nexts.set level w} : Node).next i).raw = (l.next a i).raw := by
  have hnext : ((l.setNext a level w).next a i).raw = (l.next a i).raw := by
    by_cases hi : i = level
    · subst hi
      by_cases hlen : i < (l.node a).nexts.length
      · rw [next_setNext_self l w hlen, hraw]
      · rw [next, setNext, node_setNode_self, List.set_eq_of_length_le (Nat.not_lt.mp hlen)]
        rfl
    · rw [next_setNext_of_ne l w (.inr hi)]
  rw [next, setNext, node_setNode_self] at hnext
  exact hnext

/-- A pointer of a node changes, not where it points. -/
theorem Global.setMark (h : Global l live m) (ha : a ∈ l.nodes) {level : Nat} {w : MarkVersionedPtr}
    (hraw : w.raw = (l.next a level).raw) :
    Global (l.setNext a level w) live m ∧ Keeps l (l.setNext a level w) m :=
  h.touch (List.mem_append_left _ ha) rfl rfl List.length_set (raw_set hraw)

/-- `new`, at an address that is not in use. -/
theorem Global.new {s : SharedSkipList} (h : Global s.list s.live m) (hfree : s.Free a) (key : Int64)
    (handle : Option Handle) (topLevel : Nat) :
    Global (s.new a key handle topLevel).list (s.new a key handle topLevel).live ({.owning a} + m) ∧
      Keeps s.list (s.new a key handle topLevel).list m := by
  obtain ⟨hpos, -, hlive⟩ := hfree
  have hne : ∀ b, s.live b = true → b ≠ a := by
    rintro b hb rfl
    rw [hlive] at hb
    cases hb
  have hnode : ∀ b, s.live b = true → (s.new a key handle topLevel).list.node b = s.list.node b :=
    fun b hb => node_setNode_of_ne s.list _ (hne b hb)
  have hsame : ∀ b ∈ head :: s.list.nodes ++ [tail],
      (s.new a key handle topLevel).list.node b = s.list.node b := fun b hb => hnode b (h.inUse b hb)
  have hsize : s.list.size ≤ (s.new a key handle topLevel).list.size := Nat.le_max_left ..
  have hlisted : Listed (s.new a key handle topLevel).list s.list.nodes := by
    apply h.listed.congr ?_ ?_ hsize
    · intro b hb
      rw [hsame b hb]
      exact ⟨rfl, rfl, rfl⟩
    · intro b hb level
      rw [next, hsame b (List.mem_append_left _ hb), next]
  have hchange := h.change hlisted hsize rfl
  have hnodes := hlisted.nodes_eq
  have hfresh : Claim.owning a ∉ m := fun hm => hne a (h.owned a hm).1 rfl
  refine ⟨⟨hchange.listed, fun b hb => ?_, fun b hb => ?_, fun b => ?_, ?_⟩,
    Keeps.change hlisted (fun b hb => by rw [hsame b hb]; exact ⟨rfl, rfl⟩)
      fun b hb => hnode b (h.owned b hb).1⟩
  · have hb' := hchange.inUse b hb
    exact (Function.update_of_ne (hne b hb') ..).trans hb'
  · by_cases hba : b = a
    · subst hba
      refine ⟨Function.update_self .., ?_, ?_, Nat.lt_of_lt_of_le (Nat.lt_succ_self b) (Nat.le_max_right ..)⟩
      · rw [hnodes]
        intro hmem
        exact hne b (h.inUse b (List.mem_append_left _ (List.mem_cons_of_mem _ hmem))) rfl
      · have hhead := hne head (h.inUse head (List.mem_append_left _ (List.mem_cons_self ..)))
        have htail := hne tail (h.inUse tail (List.mem_append_right _ (List.mem_singleton_self _)))
        simp only [head, tail] at hhead htail ⊢
        omega
    · have hm : Claim.owning b ∈ m := by simpa [hba] using hb
      obtain ⟨hb', hrest⟩ := hchange.owned b hm
      exact ⟨(Function.update_of_ne hba ..).trans hb', hrest⟩
  · rw [Multiset.count_add, Multiset.count_singleton]
    by_cases hba : b = a
    · subst hba
      rw [Multiset.count_eq_zero.mpr hfresh]
      split <;> omega
    · rw [if_neg (by simpa using hba), Nat.zero_add]
      exact h.once b
  · rw [Multiset.count_add, Multiset.count_singleton, if_neg (by simp), Nat.zero_add]
    exact hchange.counted

/-- What one thread owns no other does. -/
theorem Global.not_both (h : Global l live ({.owning a} + m)) : Claim.owning a ∉ m := by
  intro hm
  have honce := h.once a
  have hpos := Multiset.count_pos.mpr hm
  rw [Multiset.count_add, Multiset.count_singleton_self] at honce
  omega

/-- `delete`, of a node that was not linked. -/
theorem Global.delete (h : Global l live ({.owning a} + m)) :
    Global l (Function.update live a false) m := by
  have hmem : Claim.owning a ∈ {.owning a} + m := by simp
  have hnot := h.not_both
  refine ⟨h.listed, fun b hb => ?_, fun b hb => ?_, fun b => ?_, ?_⟩
  · have hba : b ≠ a := by
      rintro rfl
      exact h.not_owned hb hmem
    rw [Function.update_of_ne hba]
    exact h.inUse b hb
  · have hba : b ≠ a := by
      rintro rfl
      exact hnot hb
    rw [Function.update_of_ne hba]
    exact h.owned b (Multiset.mem_add.mpr (.inr hb))
  · have honce := h.once b
    rw [Multiset.count_add] at honce
    omega
  · have hcounted := h.counted
    rw [Multiset.count_add, Multiset.count_singleton, if_neg (by simp), Nat.zero_add] at hcounted
    exact hcounted

/-- A store to a pointer of a new node. -/
theorem Global.fill (h : Global l live ({.owning a} + m)) (level : Nat) (w : MarkVersionedPtr) :
    Global (l.setNext a level w) live ({.owning a} + m) ∧ Keeps l (l.setNext a level w) m := by
  have hnode := node_setNext l a level w
  have hmem : Claim.owning a ∈ {.owning a} + m := by simp
  have hlisted : Listed (l.setNext a level w) l.nodes := by
    apply h.listed.congr (fun b _ => ⟨(hnode b).1, (hnode b).2.1, (hnode b).2.2.1⟩) ?_ (Nat.le_refl _)
    intro b hb i
    have hba : b ≠ a := by
      rintro rfl
      exact h.not_owned (List.mem_append_left _ hb) hmem
    rw [next_setNext_of_ne l w (.inl hba)]
  refine ⟨h.change hlisted (Nat.le_refl _) rfl,
    Keeps.change hlisted (fun b _ => ⟨(hnode b).1, (hnode b).2.1⟩) fun b hb => ?_⟩
  have hba : b ≠ a := by
    rintro rfl
    exact h.not_both hb
  exact node_setNode_of_ne l _ hba

section Link
variable {key : Int64} {f : FindState} {newNode topLevel level : Nat} {w : MarkVersionedPtr}

theorem Filling.store (h : Filling l key f newNode topLevel level) (hle : level ≤ topLevel) :
    Filling (l.setNext newNode level {raw := (f.succs level).raw}) key f newNode topLevel (level + 1) := by
  obtain ⟨hkey, htop, hlen, -, -⟩ := node_setNext l newNode level {raw := (f.succs level).raw} newNode
  have hlevel : level < (l.node newNode).nexts.length := by
    rw [h.length]
    omega
  have hself := next_setNext_self l {raw := (f.succs level).raw} hlevel
  refine ⟨hkey.trans h.key_eq, htop.trans h.top, h.top_le, hlen.trans h.length, ?_, fun i hi => ?_⟩
  · rw [Node.isMarked]
    by_cases hzero : level = 0
    · subst hzero
      exact congrArg MarkVersionedPtr.marked hself
    · have hnext : (l.setNext newNode level {raw := (f.succs level).raw}).next newNode 0 =
        l.next newNode 0 := next_setNext_of_ne l _ (.inr (Ne.symm hzero))
      exact (congrArg MarkVersionedPtr.marked hnext).trans h.unmarked
  · by_cases hi' : i = level
    · rw [hi', hself]
    · rw [next_setNext_of_ne l _ (.inr hi'), h.stored i (by omega)]

/-- The node is ready when all its pointers are set. -/
theorem Filling.prepared (hg : Global l live ({.owning newNode} + m)) (hf : Found l l.nodes key f)
    (hmiss : f.found = false) (h : Filling l key f newNode topLevel (topLevel + 1)) :
    Prepared l l.nodes newNode key topLevel := by
  obtain ⟨-, hfresh, htail, hlt⟩ := hg.owned newNode (by simp)
  refine ⟨⟨htail, hlt⟩, hfresh, fun i hi => ?_, h.key_eq, h.top, h.top_le, h.length, h.unmarked⟩
  have hmax := Nat.le_trans hi h.top_le
  have hbetween := hf.between i hmax
  rw [h.stored i (Nat.lt_succ_of_le hi)]
  exact ⟨hbetween.succ_mem, hf.lt_succ hg.listed hmiss hmax, hbetween.succ_top⟩

/-- The link at level 0, where the pointer is still the one the search has loaded. -/
theorem Global.link (h : Global l live ({.owning newNode} + m)) (hf : Found l l.nodes key f)
    (hmiss : f.found = false) (hfill : Filling l key f newNode topLevel (topLevel + 1))
    (hcas : l.next (f.preds 0) 0 = f.succs 0) (hw : w.raw = newNode) :
    Global (l.setNext (f.preds 0) 0 w) live ({.uncounted} + m) ∧
      Keeps l (l.setNext (f.preds 0) 0 w) m ∧ newNode ∈ (l.setNext (f.preds 0) 0 w).nodes := by
  have hzero := hf.between 0 (Nat.zero_le _)
  have hnode := node_setNext l (f.preds 0) 0 w
  have hprepared := hfill.prepared h hf hmiss
  obtain ⟨as, hlisted, hmem⟩ := h.listed.linkPrepared hprepared hzero.pred_mem hzero.pred_lt
    (by rw [hfill.stored 0 (Nat.succ_pos _), hcas]) hw
  have hnodes := hlisted.nodes_eq
  have hperm : as.Perm (newNode :: l.nodes) := by
    refine (List.perm_ext_iff_of_nodup hlisted.nodup ?_).mpr fun y => by rw [hmem, List.mem_cons]
    exact List.nodup_cons.mpr ⟨hprepared.fresh, h.listed.nodup⟩
  have hlive := (h.owned newNode (by simp)).1
  rw [hnodes]
  refine ⟨⟨by rw [hnodes]; exact hlisted, fun b hb => ?_, fun b hb => ?_, fun b => ?_, ?_⟩,
    ⟨⟨fun b hb => ?_, fun b _ => ⟨(hnode b).1, (hnode b).2.1⟩⟩, fun b hb => ?_⟩,
    (hmem newNode).mpr (.inl rfl)⟩
  · rw [hnodes] at hb
    by_cases hnew : b = newNode
    · rw [hnew]
      exact hlive
    · apply h.inUse b
      simp only [List.cons_append, List.mem_cons, List.mem_append, hmem] at hb ⊢
      tauto
  · rw [hnodes]
    have hb' : Claim.owning b ∈ m := by simpa using hb
    obtain ⟨hb₁, hb₂, hb₃⟩ := h.owned b (Multiset.mem_add.mpr (.inr hb'))
    refine ⟨hb₁, fun hm => ?_, hb₃⟩
    rcases (hmem b).mp hm with rfl | hm
    · exact h.not_both hb'
    · exact hb₂ hm
  · have honce := h.once b
    rw [Multiset.count_add] at honce ⊢
    rw [Multiset.count_singleton, if_neg (by simp)]
    omega
  · have hcounted := h.counted
    rw [Multiset.count_add, Multiset.count_singleton, if_neg (by simp)] at hcounted
    rw [hnodes, hperm.length_eq, Multiset.count_add, Multiset.count_singleton_self, List.length_cons]
    show l.nodeNum + _ = _
    omega
  · rw [hnodes]
    exact (hmem b).mpr (.inr hb)
  · have hne : b ≠ f.preds 0 := by
      rintro rfl
      exact h.not_owned (List.mem_append_left _ hzero.pred_mem) (Multiset.mem_add.mpr (.inr hb))
    exact node_setNode_of_ne l _ hne

theorem rise_listed (h : Listed l l.nodes) (hf : Found l l.nodes key f)
    (hr : Rising l key newNode topLevel level) (hw : w.raw = newNode) :
    Listed (l.setNext (f.preds level) level w) l.nodes := by
  have hmem : newNode ∈ l.nodes ++ [tail] := List.mem_append_left _ hr.mem
  have htop := h.tops newNode (List.mem_cons_of_mem _ hmem)
  have hle := hr.level_le
  rw [hr.top] at htop
  have hbetween := hf.between level (Nat.le_trans hle htop)
  have hrank : l.rank newNode = place key := by rw [rank_eq (h.ne_head hmem), hr.key_eq]
  exact h.linkAbove hbetween.pred_mem hr.level_pos hbetween.pred_top hr.mem
    (by rw [hrank]; exact hbetween.pred_lt) (by rw [hr.top]; exact hle) hw

/-- A link above. -/
theorem Global.rise (h : Global l live m) (hf : Found l l.nodes key f)
    (hr : Rising l key newNode topLevel level) (hw : w.raw = newNode) :
    Global (l.setNext (f.preds level) level w) live m ∧
      Keeps l (l.setNext (f.preds level) level w) m := by
  have hnode := node_setNext l (f.preds level) level w
  have hlisted := rise_listed h.listed hf hr hw
  have htop := h.listed.tops newNode (List.mem_cons_of_mem _ (List.mem_append_left _ hr.mem))
  rw [hr.top] at htop
  have hbetween := hf.between level (Nat.le_trans hr.level_le htop)
  refine ⟨h.change hlisted (Nat.le_refl _) rfl,
    Keeps.change hlisted (fun b _ => ⟨(hnode b).1, (hnode b).2.1⟩) fun b hb => ?_⟩
  have hne : b ≠ f.preds level := by
    rintro rfl
    exact h.not_owned (List.mem_append_left _ hbetween.pred_mem) hb
  exact node_setNode_of_ne l _ hne

end Link

/-- A counter changes. -/
theorem Global.counters (h : Global l live m) (l' : AtomicSkipList) (hnode : l'.node = l.node)
    (hsize : l'.size = l.size) :
    Listed l' l.nodes ∧ Keeps l l' m := by
  have hlisted : Listed l' l.nodes := by
    apply h.listed.congr ?_ ?_ (Nat.le_of_eq hsize.symm)
    · intro b _
      rw [hnode]
      exact ⟨rfl, rfl, rfl⟩
    · intro b _ level
      rw [next, hnode, next]
  refine ⟨hlisted, Keeps.change hlisted (fun b _ => ?_) fun b _ => by rw [hnode]⟩
  rw [hnode]
  exact ⟨rfl, rfl⟩

/-- A linked node is counted. -/
theorem Global.count (h : Global l live ({.uncounted} + m)) :
    Global {l with nodeNum := l.nodeNum + 1} live m ∧
      Keeps l {l with nodeNum := l.nodeNum + 1} m := by
  obtain ⟨hlisted, hkeeps⟩ := h.counters {l with nodeNum := l.nodeNum + 1} rfl rfl
  have hnodes := hlisted.nodes_eq
  refine ⟨⟨by rw [hnodes]; exact hlisted, by rw [hnodes]; exact h.inUse, fun b hb => ?_, fun b => ?_, ?_⟩,
    hkeeps.grows, fun _ _ => rfl⟩
  · rw [hnodes]
    exact h.owned b (Multiset.mem_add.mpr (.inr hb))
  · have honce := h.once b
    rw [Multiset.count_add] at honce
    omega
  · have hcounted := h.counted
    rw [Multiset.count_add, Multiset.count_singleton_self] at hcounted
    rw [hnodes]
    show l.nodeNum + 1 + _ = _
    omega

end Keep

/-! ### One step -/

section Step
variable {l : AtomicSkipList} {s s' : SharedSkipList} {pc pc' : Pc} {c : Choice} {r : Multiset Claim}
  {i : InsertCall} {f : FindState} {newNode topLevel level : Nat}

theorem storeFrom_spec (hf : Found l l.nodes i.key f ∧ f.found = false)
    (hfill : Filling l i.key f newNode topLevel level) (hle : level ≤ topLevel + 1) :
    (storeFrom i f newNode topLevel level).claims = {.owning newNode} ∧
      Local l (storeFrom i f newNode topLevel level) := by
  rw [storeFrom]
  split
  · rename_i hmore
    exact ⟨rfl, hf, hfill, hmore⟩
  · rename_i hdone
    have heq : level = topLevel + 1 := by omega
    subst heq
    exact ⟨rfl, hf, hfill⟩

theorem linkFrom_spec (hf : Found l l.nodes i.key f) (hmem : newNode ∈ l.nodes)
    (hkey : (l.node newNode).key = i.key) (htop : (l.node newNode).topLevel = topLevel)
    (hpos : level ≠ 0) : (linkFrom i f newNode topLevel level).claims = {.uncounted} ∧
      Local l (linkFrom i f newNode topLevel level) := by
  rw [linkFrom]
  split
  · rename_i hmore
    exact ⟨rfl, hf, hmem, hkey, htop, hpos, hmore⟩
  · exact ⟨rfl, trivial⟩

theorem new_filling (s : SharedSkipList) (address : Nat) (key : Int64) (handle : Option Handle)
    (f : FindState) (htop : topLevel ≤ maxLevel) :
    Filling (s.new address key handle topLevel).list key f address topLevel 0 := by
  have hnode : (s.new address key handle topLevel).list.node address = Node.make key handle topLevel :=
    node_setNode_self ..
  refine ⟨?_, ?_, htop, ?_, ?_, fun i hi => absurd hi (Nat.not_lt_zero i)⟩
  · rw [hnode, Node.make]
  · rw [hnode, Node.make]
  · rw [hnode]
    exact List.length_replicate
  · rw [hnode]
    rfl

/-- Reading the hit count leaves everything as it is. -/
theorem incrHitCount_spec {key : Int64} {node : Nat} {handle : Option Handle} {oldCount : Int16}
    (h : Global s.list s.live r) (hl : node ∈ s.list.nodes ++ [tail])
    (hstep : s.incrHitCount key node handle oldCount = (s', pc')) :
    Global s'.list s'.live (pc'.claims + r) ∧ Local s'.list pc' ∧ Keeps s.list s'.list r := by
  rw [incrHitCount] at hstep
  split at hstep
  · cases hstep
    exact ⟨h.idle, trivial, Keeps.refl _ _⟩
  · cases hstep
    exact ⟨h.idle, hl, Keeps.refl _ _⟩

/-- So does reading the mark. -/
theorem markDeleted_spec {node : Nat} {expected : MarkVersionedPtr} (h : Global s.list s.live r)
    (hl : node ∈ s.list.nodes) (hstep : s.markDeleted node expected = (s', pc')) :
    Global s'.list s'.live (pc'.claims + r) ∧ Local s'.list pc' ∧ Keeps s.list s'.list r := by
  rw [markDeleted] at hstep
  split at hstep
  · cases hstep
    exact ⟨h.idle, trivial, Keeps.refl _ _⟩
  · cases hstep
    exact ⟨h.idle, hl, Keeps.refl _ _⟩

/-- **The step lemma**: one access keeps the accounts, and what the others rely on. -/
theorem step_spec (h : Global s.list s.live (pc.claims + r)) (hl : Local s.list pc)
    (hstep : step c s pc = (s', pc')) :
    Global s'.list s'.live (pc'.claims + r) ∧ Local s'.list pc' ∧ Keeps s.list s'.list r := by
  have hstart : ∀ key, Searching s.list s.list.nodes key FindState.start := fun _ => h.listed.searching
  cases pc with
  | ready =>
    cases c with
    | insert key handle =>
      simp only [step, call] at hstep
      split at hstep
      · cases hstep
        exact ⟨h, trivial, Keeps.refl _ _⟩
      · cases hstep
        exact ⟨h, hstart key, Keeps.refl _ _⟩
    | getNode key | get key =>
      cases hstep
      exact ⟨h, hstart key, Keeps.refl _ _⟩
    | markDeleted node =>
      simp only [step, call] at hstep
      split at hstep
      · rename_i hmem
        cases hstep
        exact ⟨h, hmem, Keeps.refl _ _⟩
      · cases hstep
        exact ⟨h, trivial, Keeps.refl _ _⟩
    | new | go | spurious =>
      cases hstep
      exact ⟨h, trivial, Keeps.refl _ _⟩
  | insertFind i f =>
    simp only [step] at hstep
    rcases findStep_spec h.listed hl with ⟨f', hfind, hf', -⟩ | ⟨f', hfind, hf'⟩
    · rw [hfind] at hstep
      cases hstep
      exact ⟨h, hf', Keeps.refl _ _⟩
    · rw [hfind] at hstep
      cases hfound : f'.found with
      | true =>
        simp only [hfound, if_true] at hstep
        cases hstep
        exact ⟨h, (hf'.between 0 (Nat.zero_le _)).succ_mem, Keeps.refl _ _⟩
      | false =>
        simp only [hfound, Bool.false_eq_true, if_false] at hstep
        cases hstep
        exact ⟨h, ⟨hf', hfound⟩, Keeps.refl _ _⟩
  | insertUpdate i node =>
    cases hstep
    obtain ⟨hg, hk⟩ := h.updateHandle hl i.handle
    exact ⟨hg, trivial, hk.rest⟩
  | insertNew i f =>
    cases c with
    | new address topLevel =>
      simp only [step] at hstep
      split at hstep
      · rename_i hnew
        cases hstep
        have h := h.of_idle
        obtain ⟨hg, hk⟩ := h.new hnew.1 i.key i.handle topLevel
        obtain ⟨hclaims, hlocal⟩ := storeFrom_spec (i := {i with handle := none})
          ⟨hk.grows.found hl.1, hl.2⟩ (new_filling s address i.key i.handle f hnew.2) (Nat.zero_le _)
        rw [hclaims]
        exact ⟨hg, hlocal, hk⟩
      · cases hstep
        exact ⟨h, hl, Keeps.refl _ _⟩
    | insert | getNode | get | markDeleted | go | spurious =>
      cases hstep
      exact ⟨h, hl, Keeps.refl _ _⟩
  | insertStore i f newNode topLevel level =>
    obtain ⟨⟨hf, hmiss⟩, hfill, hle⟩ := hl
    cases hstep
    obtain ⟨hg, hk⟩ := h.fill level {raw := (f.succs level).raw}
    obtain ⟨hclaims, hlocal⟩ := storeFrom_spec ⟨hk.grows.found hf, hmiss⟩ (hfill.store hle)
      (Nat.succ_le_succ hle)
    rw [hclaims]
    exact ⟨hg, hlocal, hk⟩
  | insertLink i f newNode topLevel =>
    obtain ⟨⟨hf, hmiss⟩, hfill⟩ := hl
    simp only [step, linkLevel] at hstep
    by_cases hcas : s.list.next (f.preds 0) 0 = f.succs 0
    · rw [if_pos hcas] at hstep
      cases hstep
      obtain ⟨hg, hk, hmem⟩ := h.link (w := ⟨newNode, (f.succs 0).version + 1, false⟩) hf hmiss hfill
        hcas rfl
      obtain ⟨hkey, htop, -⟩ := node_setNext s.list (f.preds 0) 0
        ⟨newNode, (f.succs 0).version + 1, false⟩ newNode
      obtain ⟨hclaims, hlocal⟩ := linkFrom_spec (hk.grows.found hf) hmem (hkey.trans hfill.key_eq)
        (htop.trans hfill.top) Nat.one_ne_zero
      rw [hclaims]
      exact ⟨hg, hlocal, hk⟩
    · rw [if_neg hcas] at hstep
      cases hstep
      exact ⟨h.delete.idle, hstart i.key, Keeps.refl _ _⟩
  | insertUpper i f newNode topLevel level =>
    obtain ⟨hf, hr⟩ := hl
    simp only [step, linkLevel] at hstep
    split at hstep
    · cases hstep
      exact ⟨h, ⟨hstart i.key, hr⟩, Keeps.refl _ _⟩
    · by_cases hcas : s.list.next (f.preds level) level = f.succs level
      · rw [if_pos hcas] at hstep
        cases hstep
        obtain ⟨hg, hk⟩ := h.rise (w := ⟨newNode, (f.succs level).version + 1, false⟩) hf hr rfl
        have hr' := hr.keeps hk.grows
        obtain ⟨hclaims, hlocal⟩ := linkFrom_spec (hk.grows.found hf) hr'.mem hr'.key_eq hr'.top
          (Nat.succ_ne_zero level)
        rw [hclaims]
        exact ⟨hg, hlocal, hk.rest⟩
      · rw [if_neg hcas] at hstep
        cases hstep
        exact ⟨h, ⟨hstart i.key, hr⟩, Keeps.refl _ _⟩
  | insertSearch i f newNode topLevel level =>
    obtain ⟨hs, hr⟩ := hl
    simp only [step] at hstep
    rcases findStep_spec h.listed hs with ⟨f', hfind, hf', -⟩ | ⟨f', hfind, hf'⟩
    · rw [hfind] at hstep
      cases hstep
      exact ⟨h, ⟨hf', hr⟩, Keeps.refl _ _⟩
    · rw [hfind] at hstep
      cases hstep
      exact ⟨h, ⟨hf', hr⟩, Keeps.refl _ _⟩
  | insertCount i =>
    cases hstep
    obtain ⟨hg, hk⟩ := h.count
    exact ⟨hg.idle, trivial, hk⟩
  | getFind key full f =>
    simp only [step] at hstep
    rcases findStep_spec h.listed hl with ⟨f', hfind, hf', -⟩ | ⟨f', hfind, hf'⟩
    · rw [hfind] at hstep
      cases hstep
      exact ⟨h, hf', Keeps.refl _ _⟩
    · rw [hfind] at hstep
      cases hfound : f'.found with
      | true =>
        simp only [hfound, if_true] at hstep
        cases hstep
        exact ⟨h, (hf'.between 0 (Nat.zero_le _)).succ_mem, Keeps.refl _ _⟩
      | false =>
        simp only [hfound, Bool.false_eq_true, if_false] at hstep
        cases hstep
        exact ⟨h, trivial, Keeps.refl _ _⟩
  | getMarked key full node =>
    simp only [step] at hstep
    split at hstep
    · cases hstep
      exact ⟨h, trivial, Keeps.refl _ _⟩
    · split at hstep
      · cases hstep
        exact ⟨h, hl, Keeps.refl _ _⟩
      · cases hstep
        exact ⟨h, trivial, Keeps.refl _ _⟩
  | getHandle key node =>
    cases hstep
    exact ⟨h, hl, Keeps.refl _ _⟩
  | hitLoad key node handle => exact incrHitCount_spec h.of_idle hl hstep
  | hitCas key node handle oldCount =>
    have h := h.of_idle
    simp only [step] at hstep
    split at hstep
    · cases hstep
      obtain ⟨hg, hk⟩ := h.touch hl (n := {s.list.node node with hitCount := oldCount + 1}) rfl rfl rfl
        fun _ => rfl
      exact ⟨hg.idle, trivial, hk⟩
    · exact incrHitCount_spec h hl hstep
  | markLoad node => exact markDeleted_spec h.of_idle hl hstep
  | markCas node expected =>
    have h := h.of_idle
    simp only [step] at hstep
    split at hstep
    · rename_i hcas
      cases hstep
      obtain ⟨hg, hk⟩ := h.setMark (w := ⟨expected.raw, expected.version + 1, true⟩) hl
        (congrArg MarkVersionedPtr.raw hcas.1).symm
      exact ⟨hg.idle, hk.grows.mem node hl, hk⟩
    · exact markDeleted_spec h hl hstep
  | markStore node =>
    have h := h.of_idle
    obtain ⟨hg, hk⟩ := h.updateHandle (List.mem_append_left _ hl) none
    simp only [step] at hstep
    split at hstep
    · cases hstep
      exact ⟨hg.idle, trivial, hk⟩
    · cases hstep
      exact ⟨hg.idle, trivial, hk⟩
  | markCount node charge =>
    cases hstep
    have h := h.of_idle
    obtain ⟨hlisted, hk⟩ := h.counters
      {s.list with markedDeletedNum := s.list.markedDeletedNum + 1} rfl rfl
    exact ⟨(h.change hlisted (Nat.le_refl _) rfl).idle, trivial, hk⟩

end Step

/-! ### Find ends -/

/-- What a search may still have to do: nodes to pass, by their keys, and levels to go. -/
def ahead (l : AtomicSkipList) (key : Int64) (f : FindState) : Nat :=
  f.level + if f.pred = head then 2 ^ 64 else (key.toInt - (l.node f.pred).key.toInt).toNat

section Ahead
variable {l l' : AtomicSkipList} {as as' : List Nat} {key : Int64} {f f' : FindState}

theorem ahead_le (hlevel : f.level ≤ maxLevel) : ahead l key f < 2 ^ 64 + 16 := by
  have hle : f.level ≤ 15 := hlevel
  have hkey := Int64.toInt_lt key
  have hpred := Int64.le_toInt (l.node f.pred).key
  rw [ahead]
  split
  · omega
  · omega

/-- Each load of a search brings it forward. -/
theorem ahead_lt (hs' : Searching l as key f')
    (hforward : l.rank f.pred < l.rank f'.pred ∧ f'.level = f.level ∨
      f'.pred = f.pred ∧ f'.level + 1 = f.level) : ahead l key f' < ahead l key f := by
  rcases hforward with ⟨hlt, hlevel⟩ | ⟨hpred, hlevel⟩
  · have hne : f'.pred ≠ head := by
      intro heq
      have hbot : l.rank f'.pred = ⊥ := if_pos heq
      rw [hbot] at hlt
      exact not_lt_bot hlt
    have hkey := Int64.toInt_lt key
    have hpred := Int64.le_toInt (l.node f'.pred).key
    have hbefore := Int64.lt_iff_toInt_lt.mp ((rank_lt_place hne).mp hs'.pred_lt)
    rw [ahead, ahead, hlevel, if_neg hne]
    by_cases hhead : f.pred = head
    · rw [if_pos hhead]
      omega
    · rw [if_neg hhead]
      rw [rank_eq hhead, rank_eq hne, place_lt] at hlt
      have hpass := Int64.lt_iff_toInt_lt.mp hlt
      omega
  · rw [ahead, ahead, hpred]
    omega

/-- Other threads do not hold a search up. -/
theorem Grows.ahead (h : Grows l l' as as') (hs : Searching l as key f) :
    ahead l' key f = ahead l key f := by
  rw [SharedSkipList.ahead, SharedSkipList.ahead, (h.node _ (List.mem_append_left _ hs.pred_mem)).1]

end Ahead

section Search
variable {s s' : SharedSkipList} {pc pc' : Pc} {c : Choice} {r : Multiset Claim} {key : Int64}
  {f : FindState}

theorem Local.search (h : Local s.list pc) (hsearch : pc.search = some (key, f)) :
    Searching s.list s.list.nodes key f := by
  cases pc with
  | insertFind =>
    cases hsearch
    exact h
  | insertSearch =>
    cases hsearch
    exact h.1
  | getFind =>
    cases hsearch
    exact h
  | _ => cases hsearch

/-- A load of a search ends it or brings it forward. -/
theorem step_search (h : Listed s.list s.list.nodes) (hl : Local s.list pc)
    (hsearch : pc.search = some (key, f)) (hstep : step c s pc = (s', pc')) :
    pc'.search = none ∨ ∃ f', pc'.search = some (key, f') ∧ ahead s'.list key f' < ahead s.list key f := by
  have hs := hl.search hsearch
  rcases findStep_spec h hs with ⟨f', hfind, hs', hforward⟩ | ⟨f', hfind, -⟩
  · have hlt := ahead_lt hs' hforward
    right
    cases pc with
    | insertFind | insertSearch | getFind =>
      cases hsearch
      simp only [step, hfind] at hstep
      cases hstep
      exact ⟨f', rfl, hlt⟩
    | _ => cases hsearch
  · left
    cases pc with
    | insertFind =>
      cases hsearch
      simp only [step, hfind] at hstep
      cases hstep
      split <;> rfl
    | insertSearch =>
      cases hsearch
      simp only [step, hfind] at hstep
      cases hstep
      rfl
    | getFind =>
      cases hsearch
      simp only [step, hfind] at hstep
      split at hstep
      · cases hstep
        rfl
      · cases hstep
        rfl
    | _ => cases hsearch

end Search

/-- The keys of the list, `tail_` at the end, are in order. -/
theorem keys_increase {l : AtomicSkipList} (h : Listed l l.nodes) :
    ((l.nodes ++ [tail]).map fun a => (l.node a).key).Pairwise (· < ·) := by
  have hsorted := h.linked.sorted
  rw [List.cons_append, List.pairwise_cons] at hsorted
  rw [List.pairwise_map]
  refine hsorted.2.imp_of_mem fun {a b} ha hb hab => ?_
  rw [rank_eq (h.ne_head ha), rank_eq (h.ne_head hb), place_lt] at hab
  exact hab

/-! ### Runs -/

section Run
variable {ι : Type*} [Fintype ι] [DecidableEq ι] {c c' : Config SharedSkipList Pc ι}

/-- The accounts of a configuration. -/
abbrev Accounts (c : Config SharedSkipList Pc ι) : Prop :=
  Accounting Pc.claims (fun s m => Global s.list s.live m) (fun s pc => Local s.list pc) c

omit [DecidableEq ι] in
theorem initial_accounts : Accounts (initial : Config SharedSkipList Pc ι) := by
  have hnodes : make.list.nodes = [] := make_listed.nodes_eq
  have htotal : total Pc.claims (initial : Config SharedSkipList Pc ι) = 0 := Finset.sum_const_zero
  refine ⟨?_, fun _ => trivial⟩
  rw [htotal]
  refine ⟨?_, ?_, fun a ha => absurd ha (Multiset.notMem_zero _), fun a => Nat.zero_le _, ?_⟩
  · rw [initial, hnodes]
    exact make_listed
  · rw [initial, hnodes]
    show ∀ a ∈ [head] ++ [tail], make.live a = true
    decide
  · rw [initial, hnodes]
    rfl

theorem Accounts.set (h : Accounts c) {t : ι} {s' : SharedSkipList} {pc' : Pc}
    (hstep : Chosen step c.shared (c.threads t) s' pc') : Accounts (c.set t s' pc') := by
  have hany : anyStep c t := trivial
  refine Accounting.set ?_ ?_ h hany hstep
  · rintro c t s' pc' - hl ⟨a, hstep⟩ hg
    obtain ⟨hg', hl', -⟩ := step_spec hg hl hstep
    exact ⟨hg', hl'⟩
  · rintro s pc s' pc' other r hl hother ⟨a, hstep⟩ hg
    obtain ⟨-, -, hk⟩ := step_spec hg hl hstep
    exact hother.keeps ⟨hk.grows, fun a ha => hk.owned a (Multiset.mem_add.mpr (.inl ha))⟩

/-- What a step leaves as it is. -/
theorem Accounts.grows (h : Accounts c) {t : ι} {s' : SharedSkipList} {pc' : Pc}
    (hstep : Chosen step c.shared (c.threads t) s' pc') :
    Grows c.shared.list s'.list c.shared.list.nodes s'.list.nodes := by
  obtain ⟨a, hstep⟩ := hstep
  have hg := h.glob
  rw [total_eq Pc.claims c t] at hg
  exact (step_spec hg (h.loc t) hstep).2.2.grows

theorem Accounts.reaches (h : Accounts c) (hr : Reaches (Chosen step) anyStep c c') : Accounts c' :=
  hr.invariant (fun _ _ _ _ h _ hstep => h.set hstep) h

/-- **The run lemma**: no node is lost, and none changes its key. -/
theorem Accounts.kept (h : Accounts c) (hr : Reaches (Chosen step) anyStep c c') :
    Grows c.shared.list c'.shared.list c.shared.list.nodes c'.shared.list.nodes := by
  induction hr with
  | refl => exact (Keeps.refl _ 0).grows
  | tail hr hs ih =>
    obtain ⟨t, s', pc', -, hstep, rfl⟩ := hs
    have hg := (h.reaches hr).grows hstep
    refine ⟨fun a ha => hg.mem a (ih.mem a ha), fun a ha => ?_⟩
    obtain ⟨hkey, htop⟩ := ih.node a ha
    obtain ⟨hkey', htop'⟩ := hg.node a (ih.all ha)
    exact ⟨hkey'.trans hkey, htop'.trans htop⟩

/-- A thread is out of its search when it has moved often enough, whatever others do. -/
theorem Accounts.find_ends (h : Accounts c) {t : ι} {key : Int64} {f : FindState}
    (hsearch : (c.threads t).search = some (key, f)) (schedule : List (ι × Choice))
    (hturns : ahead c.shared.list key f < turns t schedule) :
    ∃ done, done <+: schedule ∧ ((exec step c done).threads t).search = none := by
  induction schedule generalizing c f with
  | nil => exact absurd hturns (Nat.not_lt_zero _)
  | cons move rest ih =>
    obtain ⟨u, a⟩ := move
    obtain ⟨s', pc', hmove⟩ : ∃ s' pc', step a c.shared (c.threads u) = (s', pc') := ⟨_, _, rfl⟩
    have hexec : ∀ done, exec step c ((u, a) :: done) = exec step (c.set u s' pc') done := fun done => by
      rw [exec, hmove]
    have hrest : ∀ f', ((c.set u s' pc').threads t).search = some (key, f') →
        ahead s'.list key f' < turns t rest →
        ∃ done, done <+: (u, a) :: rest ∧ ((exec step c done).threads t).search = none := by
      intro f' hsearch' hless
      obtain ⟨done, hprefix, hdone⟩ := ih (h.set ⟨a, hmove⟩) hsearch' hless
      exact ⟨(u, a) :: done, List.cons_prefix_cons.mpr ⟨rfl, hprefix⟩, by rw [hexec]; exact hdone⟩
    by_cases hut : u = t
    · subst hut
      have hmore : turns u ((u, a) :: rest) = turns u rest + 1 := List.count_cons_self ..
      rcases step_search h.glob.listed (h.loc u) hsearch hmove with hend | ⟨f', hsearch', hless⟩
      · refine ⟨[(u, a)], List.cons_prefix_cons.mpr ⟨rfl, List.nil_prefix⟩, ?_⟩
        rw [hexec, exec, Config.set_threads_self]
        exact hend
      · refine hrest f' ?_ (by omega)
        rw [Config.set_threads_self]
        exact hsearch'
    · have hsame : turns t ((u, a) :: rest) = turns t rest := List.count_cons_of_ne hut ..
      refine hrest f ?_ ?_
      · rw [c.set_threads_of_ne _ _ (Ne.symm hut)]
        exact hsearch
      · rw [(h.grows ⟨a, hmove⟩).ahead ((h.loc t).search hsearch), ← hsame]
        exact hturns

omit [DecidableEq ι] in
theorem Accounts.counted (h : Accounts c) (hidle : ∀ t, (c.threads t).inserting = false) :
    c.shared.list.nodeNum = c.shared.list.nodes.length := by
  have hnone : (total Pc.claims c).count .uncounted = 0 := by
    rw [total, Multiset.count_sum']
    refine Finset.sum_eq_zero fun t _ => ?_
    have ht := hidle t
    generalize c.threads t = pc at ht
    cases pc <;> first | rfl | cases ht
  have hcounted := h.glob.counted
  rw [hnone] at hcounted
  exact hcounted

/-- **Level 0 is a sorted set**, whatever the threads do: the chain from `head_` comes to
`tail_` with increasing keys, so that no key has two nodes; nodes stay on it; outside of
`Insert` they are counted; and a search ends after so many steps of its own. -/
theorem reaches_sorted (hr : Reaches (Chosen step) anyStep initial c) :
    Chain.Path (fun a => (c.shared.list.next a 0).raw) tail head c.shared.list.nodes ∧
    ((c.shared.list.nodes ++ [tail]).map fun a => (c.shared.list.node a).key).Pairwise (· < ·) ∧
    (∀ c', Reaches (Chosen step) anyStep c c' → ∀ a ∈ c.shared.list.nodes,
      a ∈ c'.shared.list.nodes ∧ (c'.shared.list.node a).key = (c.shared.list.node a).key) ∧
    ((∀ t, (c.threads t).inserting = false) →
      c.shared.list.nodeNum = c.shared.list.nodes.length) ∧
    (∀ t schedule, 2 ^ 64 + 16 ≤ turns t schedule →
      ∃ done, done <+: schedule ∧ ((exec step c done).threads t).search = none) ∧
    ∀ a ∈ c.shared.list.nodes, ∀ b ∈ c.shared.list.nodes,
      (c.shared.list.node a).key = (c.shared.list.node b).key → a = b := by
  have h : Accounts c := initial_accounts.reaches hr
  have hlisted : Listed c.shared.list c.shared.list.nodes := h.glob.listed
  refine ⟨hlisted.linked.path, keys_increase hlisted, ?_, h.counted, ?_, ?_⟩
  · intro c' hr' a ha
    have hkept := h.kept hr'
    exact ⟨hkept.mem a ha, (hkept.node a (List.mem_append_left _ (List.mem_cons_of_mem _ ha))).1⟩
  · intro t schedule hturns
    cases hsearch : (c.threads t).search with
    | none => exact ⟨[], List.nil_prefix, hsearch⟩
    | some p =>
      have hlevel := ((h.loc t).search hsearch).level
      exact h.find_ends hsearch schedule (Nat.lt_of_lt_of_le (ahead_le hlevel) hturns)
  · intro a ha b hb hkey
    exact hlisted.eq_of_key (List.mem_append_left _ ha) (List.mem_append_left _ hb) hkey

end Run

/-- One thread makes this many steps. -/
def goes (t : Fin 2) (steps : Nat) : List (Fin 2 × Choice) := List.replicate steps (t, .go)

/-- Two threads insert one key; the link of the second fails, and it updates the node of the
first. -/
def race : List (Fin 2 × Choice) :=
  (0, .insert 7 (some ⟨0, 1⟩)) :: (1, .insert 7 (some ⟨1, 1⟩)) :: (goes 0 16 ++ (goes 1 16 ++
    (0, .new 3 0) :: (1, .new 4 0) :: (0, .go) :: (1, .go) :: (0, .go) :: (1, .go) :: (goes 1 18 ++
      [(0, .go)])))

theorem reaches_sorted_race : ∃ c : Config SharedSkipList Pc (Fin 2),
    Reaches (Chosen step) anyStep initial c ∧ c.shared.list.nodes = [3] ∧
    c.shared.list.nodeNum = c.shared.list.nodes.length ∧
    ((c.shared.list.nodes ++ [tail]).map fun a => (c.shared.list.node a).key).Pairwise (· < ·) := by
  have hr := reaches_exec step (initial : Config SharedSkipList Pc (Fin 2)) race
  obtain ⟨-, hkeys, -, hcounted, -, -⟩ := reaches_sorted hr
  refine ⟨_, hr, by decide +kernel, hcounted fun t => ?_, hkeys⟩
  obtain rfl | rfl : t = 0 ∨ t = 1 := by omega
  · rfl
  · rfl

end HyperCache.HashSkip.SharedSkipList
