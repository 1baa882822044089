import HyperCache.HashSkip.Listed

/-! What a skip list holds, and what its operations do to it.

`value` is the map from keys to handles that `Get` shows: the handle of the key's node, and
nothing if that is marked. Marking a node takes its handle; `Insert` replaces the handle of
the key's node, marked or not, or links a new one. -/
namespace HyperCache.HashSkip.AtomicSkipList

theorem make_rank : make.rank head < make.rank tail := by
  rw [rank, if_pos rfl, rank, if_neg (by decide)]
  exact WithBot.bot_lt_coe _

/-- A new list has no nodes. -/
theorem make_listed : Listed make [] where
  linked := ⟨show (make.next head 0).raw = tail by decide, by simpa using make_rank⟩
  taken := fun _ h => nomatch h
  size := by decide
  lengths := by
    intro a ha
    rw [List.mem_singleton.mp ha]
    decide
  tops := by
    intro a ha
    simp only [List.cons_append, List.nil_append, List.mem_cons, List.not_mem_nil, or_false] at ha
    rcases ha with rfl | rfl <;> decide
  head_top := rfl
  tail_top := rfl
  tail_key := rfl
  forward := by
    intro a ha level hlevel
    have hhead : ∀ level, level ≤ maxLevel → make.next head level = {raw := tail} := by decide
    rw [List.mem_singleton.mp ha] at hlevel ⊢
    rw [hhead level hlevel]
    exact ⟨List.mem_singleton_self _, make_rank, hlevel⟩

/-- What a node shows. -/
def entry (l : AtomicSkipList) (a : Nat) : Option Handle :=
  if (l.node a).isMarked then none else (l.node a).handle

section Value
variable {l : AtomicSkipList} {as : List Nat} {a : Nat} {key : Int64}

theorem getNode_of_mem (h : Listed l as) (ha : a ∈ as ++ [tail]) :
    l.getNode (l.node a).key = some (if (l.node a).isMarked then none else some a) := by
  obtain ⟨s, hfind, hfound, hloaded⟩ := find_spec h (l.node a).key
  rw [getNode, hfind]
  have htrue : s.found = true := by
    by_contra hfalse
    exact hfound.absent h hloaded (Bool.eq_false_iff.mpr hfalse) ha rfl
  have hnode : (s.succs 0).raw = a :=
    h.eq_of_key (hfound.between 0 (Nat.zero_le _)).succ_mem ha (hfound.found htrue)
  simp only [Option.bind_eq_bind, Option.bind_some, htrue, hnode]
  cases (l.node a).isMarked <;> rfl

theorem getNode_of_absent (h : Listed l as) (habsent : ∀ a ∈ as ++ [tail], (l.node a).key ≠ key) :
    l.getNode key = some none := by
  obtain ⟨s, hfind, hfound, hloaded⟩ := find_spec h key
  rw [getNode, hfind]
  have hfalse : s.found = false := by
    by_contra htrue
    exact habsent _ (hfound.between 0 (Nat.zero_le _)).succ_mem
      (hfound.found (Bool.not_eq_false _ ▸ htrue))
  simp only [Option.bind_eq_bind, Option.bind_some, hfalse]
  rfl

theorem value_of_mem (h : Listed l as) (ha : a ∈ as ++ [tail]) :
    l.value (l.node a).key = l.entry a := by
  rw [value, get, getNode_of_mem h ha, entry]
  cases (l.node a).isMarked <;> rfl

theorem value_of_absent (h : Listed l as) (habsent : ∀ a ∈ as ++ [tail], (l.node a).key ≠ key) :
    l.value key = none := by
  rw [value, get, getNode_of_absent h habsent]
  rfl

/-- A key has a node or none. -/
theorem mem_or_absent (l : AtomicSkipList) (as : List Nat) (key : Int64) :
    (∃ a ∈ as ++ [tail], (l.node a).key = key) ∨ ∀ a ∈ as ++ [tail], (l.node a).key ≠ key := by
  by_cases hmem : ∃ a ∈ as ++ [tail], (l.node a).key = key
  · exact .inl hmem
  · exact .inr fun a ha hkey => hmem ⟨a, ha, hkey⟩

end Value

/-! ### Operations -/

/-- Marking keeps the shape of a node, and a marked node as it is. -/
theorem markDeleted_shape (n : Node) :
    n.markDeleted.2.key = n.key ∧ n.markDeleted.2.topLevel = n.topLevel ∧
      n.markDeleted.2.nexts.length = n.nexts.length ∧
      (∀ level, (n.markDeleted.2.next level).raw = (n.next level).raw) ∧
      (n.isMarked = true → n.markDeleted = (0, n)) ∧
      (0 < n.nexts.length → n.markDeleted.2.isMarked = true) := by
  cases hmark : n.isMarked with
  | true =>
    have hsame : n.markDeleted = (0, n) := if_pos hmark
    rw [hsame]
    exact ⟨rfl, rfl, rfl, fun _ => rfl, fun _ => rfl, fun _ => hmark⟩
  | false =>
    rw [Node.isMarked] at hmark
    rw [Node.markDeleted, if_neg (by rw [hmark]; decide)]
    refine ⟨rfl, rfl, List.length_set, fun level => ?_, Bool.noConfusion, fun hlen => ?_⟩
    · simp only [Node.next, List.getD_eq_getElem?_getD]
      by_cases hlevel : level = 0
      · subst hlevel
        by_cases hlen : 0 < n.nexts.length
        · rw [List.getElem?_set_self hlen, Option.getD_some]
        · rw [List.set_eq_of_length_le (Nat.not_lt.mp hlen)]
      · rw [List.getElem?_set_ne (Ne.symm hlevel)]
    · simp only [Node.isMarked, Node.next, List.getD_eq_getElem?_getD]
      rw [List.getElem?_set_self hlen, Option.getD_some]

theorem markNode_eq (l : AtomicSkipList) (a : Nat) :
    l.markNode a = ((l.node a).markDeleted.1, l.setNode a (l.node a).markDeleted.2) := rfl

/-- `MarkDeleted` also counts, if it took a charge. -/
theorem markDeleted_eq (l : AtomicSkipList) (a : Nat) :
    l.markDeleted a = ((l.markNode a).1, {(l.markNode a).2 with
      markedDeletedNum := l.markedDeletedNum + if (l.markNode a).1 > 0 then 1 else 0}) := by
  by_cases hpos : (l.markNode a).1 > 0
  · rw [if_pos hpos]
    exact congrArg (Prod.mk _) (if_pos hpos)
  · rw [if_neg hpos]
    exact congrArg (Prod.mk _) (if_neg hpos)

theorem markDeleted_unmarked {n : Node} (hmark : n.isMarked = false) :
    n.markDeleted.1 = (n.handle.map Handle.charge).getD 0 ∧ n.markDeleted.2.handle = none := by
  rw [Node.isMarked] at hmark
  rw [Node.markDeleted, if_neg (by rw [hmark]; decide)]
  exact ⟨rfl, rfl⟩

section Operations
variable {l : AtomicSkipList} {as : List Nat} {a : Nat}

/-- The key of a node is not that of `tail_`. -/
theorem Listed.key_ne (h : Listed l as) (ha : a ∈ as) : (l.node a).key ≠ Int64.maxValue := by
  intro heq
  have htail : a = tail := h.eq_of_key (List.mem_append_left _ ha)
    (List.mem_append_right _ (List.mem_singleton_self _)) (by rw [heq, h.tail_key])
  exact h.ne_tail (List.mem_cons_of_mem _ ha) htail

/-- Replacing a node by one with the same key, height and pointers up to the mark. -/
theorem Listed.setNode (h : Listed l as) {n : Node} (hkey : n.key = (l.node a).key)
    (htop : n.topLevel = (l.node a).topLevel) (hlen : n.nexts.length = (l.node a).nexts.length)
    (hraw : ∀ level, (n.next level).raw = (l.next a level).raw) : Listed (l.setNode a n) as := by
  apply h.congr
  · intro b _
    by_cases hb : b = a
    · subst hb
      rw [node_setNode_self]
      exact ⟨hkey, htop, hlen⟩
    · rw [node_setNode_of_ne l n hb]
      exact ⟨rfl, rfl, rfl⟩
  · intro b _ level
    by_cases hb : b = a
    · subst hb
      rw [next, node_setNode_self]
      exact hraw level
    · rw [next, node_setNode_of_ne l n hb]
      rfl
  · exact Nat.le_refl _

end Operations

/-! ### Insert -/

section Insert
variable {l l' : AtomicSkipList} {as : List Nat} {key : Int64} {s : FindState}
  {handle : Option Handle} {topLevel : Nat}

/-- Only pointers above level 0 differ. -/
structure SameBelow (l l' : AtomicSkipList) : Prop where
  node : ∀ a, (l'.node a).key = (l.node a).key ∧ (l'.node a).topLevel = (l.node a).topLevel ∧
    (l'.node a).nexts.length = (l.node a).nexts.length ∧ (l'.node a).handle = (l.node a).handle ∧
    (l'.node a).hitCount = (l.node a).hitCount
  zero : ∀ a, l'.next a 0 = l.next a 0
  counts : l'.nodeNum = l.nodeNum ∧ l'.markedDeletedNum = l.markedDeletedNum

theorem SameBelow.refl (l : AtomicSkipList) : SameBelow l l :=
  ⟨fun _ => ⟨rfl, rfl, rfl, rfl, rfl⟩, fun _ => rfl, rfl, rfl⟩

theorem SameBelow.setNext {l₀ : AtomicSkipList} (h : SameBelow l₀ l) (p : Nat) {level : Nat}
    (w : MarkVersionedPtr) (hlevel : level ≠ 0) : SameBelow l₀ (l.setNext p level w) where
  node := by
    intro a
    obtain ⟨h1, h2, h3, h4, h5⟩ := node_setNext l p level w a
    obtain ⟨g1, g2, g3, g4, g5⟩ := h.node a
    exact ⟨h1.trans g1, h2.trans g2, h3.trans g3, h4.trans g4, h5.trans g5⟩
  zero := fun a => (next_setNext_of_ne l w (.inr (Ne.symm hlevel))).trans (h.zero a)
  counts := h.counts

/-- The links above level 0 succeed at once when nobody else is at work. -/
theorem linkUpper_spec {l₀ : AtomicSkipList} {n : Nat} (fuel level : Nat) (h : Listed l as)
    (hsame : SameBelow l₀ l) (hn : n ∈ as) (hkey : (l.node n).key = key)
    (htop : (l.node n).topLevel = topLevel)
    (hpreds : ∀ i, level ≤ i → i ≤ topLevel →
      s.preds i ∈ head :: as ∧ l.rank (s.preds i) < place key ∧ i ≤ (l.node (s.preds i)).topLevel)
    (hloaded : ∀ i, level ≤ i → i ≤ topLevel → l.next (s.preds i) i = s.succs i)
    (hpos : level ≠ 0) (hfuel : topLevel + 2 ≤ fuel + level) (hle : level ≤ topLevel + 1) :
    ∃ l', linkUpper key n topLevel fuel level s l = some l' ∧ Listed l' as ∧ SameBelow l₀ l' := by
  induction fuel generalizing level l with
  | zero => omega
  | succ fuel ih =>
    by_cases hdone : topLevel < level
    · exact ⟨l, by rw [linkUpper, if_pos hdone], h, hsame⟩
    · obtain ⟨hmem, hlt, hptop⟩ := hpreds level (Nat.le_refl _) (by omega)
      have hload := hloaded level (Nat.le_refl _) (by omega)
      have hrank : l.rank n = place key := by
        rw [rank_eq (h.ne_head (List.mem_append_left _ hn)), hkey]
      have hlinked := h.linkAbove (w := ⟨n, (s.succs level).version + 1, false⟩) hmem hpos hptop hn
        (by rw [hrank]; exact hlt) (by omega) rfl
      have hnode := node_setNext l (s.preds level) level ⟨n, (s.succs level).version + 1, false⟩
      have hpreds' : ∀ i, level + 1 ≤ i → i ≤ topLevel → s.preds i ∈ head :: as ∧
          (l.setNext (s.preds level) level ⟨n, (s.succs level).version + 1, false⟩).rank (s.preds i) <
            place key ∧
          i ≤ ((l.setNext (s.preds level) level ⟨n, (s.succs level).version + 1, false⟩).node
            (s.preds i)).topLevel := by
        intro i hi himax
        rw [rank_congr (hnode (s.preds i)).1, (hnode (s.preds i)).2.1]
        exact hpreds i (by omega) himax
      have hloaded' : ∀ i, level + 1 ≤ i → i ≤ topLevel →
          (l.setNext (s.preds level) level ⟨n, (s.succs level).version + 1, false⟩).next (s.preds i) i =
            s.succs i := by
        intro i hi himax
        rw [next_setNext_of_ne _ _ (.inr (by omega))]
        exact hloaded i (by omega) himax
      obtain ⟨l', hrun, hres⟩ := ih (level + 1) hlinked (hsame.setNext _ _ hpos)
        ((hnode n).1.trans hkey) ((hnode n).2.1.trans htop) hpreds' hloaded' (by omega) (by omega)
        (by omega)
      refine ⟨l', ?_, hres⟩
      rw [linkUpper, if_neg hdone, linkLevel, if_pos hload]
      exact hrun

/-- How `l'` is `l` with the node `n` linked after `p`. -/
structure LinkedIn (l : AtomicSkipList) (as : List Nat) (p n : Nat) (key : Int64) (handle : Handle)
    (l' : AtomicSkipList) (as' : List Nat) : Prop where
  pred_mem : p ∈ head :: as
  pred_lt : l.rank p < place key
  lt_succ : place key < l.rank (l.next p 0).raw
  listed : Listed l' as'
  mem : ∀ y, y ∈ as' ↔ y = n ∨ y ∈ as
  fresh : n ∉ head :: as ++ [tail]
  new : (l'.node n).key = key ∧ (l'.node n).handle = some handle ∧ (l'.node n).isMarked = false
  node : ∀ y ∈ head :: as ++ [tail],
    (l'.node y).key = (l.node y).key ∧ (l'.node y).handle = (l.node y).handle ∧
      (l'.node y).hitCount = (l.node y).hitCount
  pred : (l'.node p).isMarked = false
  zero : ∀ y ∈ head :: as ++ [tail], y ≠ p → l'.next y 0 = l.next y 0
  nodeNum : l'.nodeNum = l.nodeNum + 1
  markedDeletedNum : l'.markedDeletedNum = l.markedDeletedNum

theorem LinkedIn.marks {p n : Nat} {handle : Handle} {as' : List Nat}
    (hin : LinkedIn l as p n key handle l' as') {y : Nat} (hy : y ∈ head :: as ++ [tail])
    (hne : y ≠ p) : (l'.node y).isMarked = (l.node y).isMarked :=
  congrArg MarkVersionedPtr.marked (hin.zero y hy hne)

theorem LinkedIn.perm (h : Listed l as) {p n : Nat} {handle : Handle} {as' : List Nat}
    (hin : LinkedIn l as p n key handle l' as') : as'.Perm (n :: as) := by
  have hnodup : (n :: as).Nodup := List.nodup_cons.mpr
    ⟨fun hm => hin.fresh (List.mem_append_left _ (List.mem_cons_of_mem _ hm)), h.nodup⟩
  refine (List.perm_ext_iff_of_nodup hin.listed.nodup hnodup).mpr fun y => ?_
  rw [hin.mem, List.mem_cons]

/-- The links of a new node, none of them in anyone's way. -/
theorem linkedIn (h : Listed l as) (hfound : Found l as key s) (hloaded : Loaded l s 0)
    (hfalse : s.found = false) (handle : Handle) (htop : topLevel ≤ maxLevel) :
    ∃ l₂ l₃ as', (l.newNode key (some handle) topLevel s.succs).2.linkLevel (s.preds 0) (s.succs 0)
        l.size 0 = (true, l₂) ∧
      linkUpper key l.size topLevel (maxLevel + 1) 1 s l₂ = some l₃ ∧
      LinkedIn l as (s.preds 0) l.size key handle {l₃ with nodeNum := l₃.nodeNum + 1} as' := by
  have hbetween := hfound.between
  have hzero := hbetween 0 (Nat.zero_le _)
  obtain ⟨l₁, hl₁⟩ : ∃ l₁, (l.newNode key (some handle) topLevel s.succs).2 = l₁ := ⟨_, rfl⟩
  have hlisted₁ : Listed l₁ as := hl₁ ▸ h.newNode
  have hprepared : Prepared l₁ as l.size key topLevel := hl₁ ▸ newNode_prepared h hfound hfalse htop
  have hold : ∀ y ∈ head :: as ++ [tail], l₁.node y = l.node y := fun y hy =>
    hl₁ ▸ node_newNode (h.ne_size hy)
  have hnew : (l₁.node l.size).handle = some handle := by
    rw [← hl₁, newNode_self]
    rfl
  have hnextnew : l₁.next l.size 0 = {raw := (s.succs 0).raw} := by
    rw [← hl₁]
    exact next_newNode (Nat.zero_le _)
  have holdnext : ∀ y ∈ head :: as, ∀ i, l₁.next y i = l.next y i := by
    intro y hy i
    rw [next, hold y (List.mem_append_left _ hy), next]
  have hpne : s.preds 0 ≠ l.size := h.ne_size (List.mem_append_left _ hzero.pred_mem)
  have hpnext : l₁.next (s.preds 0) 0 = s.succs 0 := by
    rw [holdnext _ hzero.pred_mem, hloaded 0 (Nat.le_refl _) (Nat.zero_le _)]
  have hrank : ∀ y ∈ head :: as, l₁.rank y = l.rank y := fun y hy =>
    rank_congr (congrArg Node.key (hold y (List.mem_append_left _ hy)))
  have hplen : 0 < (l₁.node (s.preds 0)).nexts.length := by
    rw [hlisted₁.lengths _ hzero.pred_mem]
    omega
  -- level 0
  obtain ⟨l₂, hl₂⟩ : ∃ l₂,
    l₁.setNext (s.preds 0) 0 ⟨l.size, (s.succs 0).version + 1, false⟩ = l₂ := ⟨_, rfl⟩
  obtain ⟨as', hlisted₂, hmem⟩ : ∃ as', Listed l₂ as' ∧ ∀ y, y ∈ as' ↔ y = l.size ∨ y ∈ as := by
    rw [← hl₂]
    apply hlisted₁.linkPrepared hprepared hzero.pred_mem
    · rw [hrank _ hzero.pred_mem]
      exact hzero.pred_lt
    · rw [hnextnew, hpnext]
    · rfl
  have hnode₂ : ∀ y, (l₂.node y).key = (l₁.node y).key ∧ (l₂.node y).topLevel = (l₁.node y).topLevel ∧
      (l₂.node y).nexts.length = (l₁.node y).nexts.length ∧
      (l₂.node y).handle = (l₁.node y).handle ∧ (l₂.node y).hitCount = (l₁.node y).hitCount :=
    fun y => hl₂ ▸ node_setNext l₁ _ _ _ y
  have hnext₂ : ∀ y i, y ≠ s.preds 0 ∨ i ≠ 0 → l₂.next y i = l₁.next y i := fun y i hne =>
    hl₂ ▸ next_setNext_of_ne l₁ _ hne
  have hpred₂ : l₂.next (s.preds 0) 0 = ⟨l.size, (s.succs 0).version + 1, false⟩ := by
    rw [← hl₂]
    exact next_setNext_self l₁ _ hplen
  -- the levels above
  have hpreds : ∀ i, 1 ≤ i → i ≤ topLevel → s.preds i ∈ head :: as' ∧
      l₂.rank (s.preds i) < place key ∧ i ≤ (l₂.node (s.preds i)).topLevel := by
    intro i _ himax
    have hb := hbetween i (Nat.le_trans himax htop)
    refine ⟨?_, ?_, ?_⟩
    · rcases List.mem_cons.mp hb.pred_mem with heq | hm
      · exact heq ▸ List.mem_cons_self ..
      · exact List.mem_cons_of_mem _ ((hmem _).mpr (.inr hm))
    · rw [rank_congr (hnode₂ _).1, hrank _ hb.pred_mem]
      exact hb.pred_lt
    · rw [(hnode₂ _).2.1, hold _ (List.mem_append_left _ hb.pred_mem)]
      exact hb.pred_top
  obtain ⟨l₃, hrun, hlisted₃, hsame⟩ := linkUpper_spec (s := s) (maxLevel + 1) 1 hlisted₂ (.refl l₂)
    ((hmem _).mpr (.inl rfl)) ((hnode₂ _).1.trans hprepared.key_eq)
    ((hnode₂ _).2.1.trans hprepared.top) hpreds
    (fun i hi himax => by
      rw [hnext₂ _ _ (.inr (by omega)),
        holdnext _ (hbetween i (Nat.le_trans himax htop)).pred_mem,
        hloaded i (Nat.zero_le _) (Nat.le_trans himax htop)])
    (by omega) (by omega) (by omega)
  have hmark : ∀ y, (l₃.node y).isMarked = (l₂.next y 0).marked := fun y =>
    congrArg MarkVersionedPtr.marked (hsame.zero y)
  have hcounts : l₂.nodeNum = l.nodeNum ∧ l₂.markedDeletedNum = l.markedDeletedNum := by
    rw [← hl₂, ← hl₁]
    exact ⟨rfl, rfl⟩
  refine ⟨l₂, l₃, as', ?_, hrun, hzero.pred_mem, hzero.pred_lt, ?_, ?_, hmem,
    fun hm => h.ne_size hm rfl, ⟨?_, ?_, ?_⟩, ?_, ?_, ?_, ?_, ?_⟩
  · rw [hl₁, linkLevel, if_pos hpnext, ← hl₂]
  · rw [hloaded 0 (Nat.le_refl _) (Nat.zero_le _)]
    exact hfound.lt_succ h hfalse (Nat.zero_le _)
  · exact hlisted₃.congr (fun _ _ => ⟨rfl, rfl, rfl⟩) (fun _ _ _ => rfl) (Nat.le_refl _)
  · rw [(hsame.node _).1, (hnode₂ _).1, hprepared.key_eq]
  · rw [(hsame.node _).2.2.2.1, (hnode₂ _).2.2.2.1, hnew]
  · rw [hmark, hnext₂ _ _ (.inl (Ne.symm hpne)), hnextnew]
  · intro y hy
    rw [(hsame.node _).1, (hsame.node _).2.2.2.1, (hsame.node _).2.2.2.2, (hnode₂ _).1,
      (hnode₂ _).2.2.2.1, (hnode₂ _).2.2.2.2, hold y hy]
    exact ⟨rfl, rfl, rfl⟩
  · rw [hmark, hpred₂]
  · intro y hy hne
    refine (hsame.zero y).trans ?_
    rw [hnext₂ _ _ (.inl hne), next, hold y hy]
    rfl
  · rw [hsame.counts.1, hcounts.1]
  · rw [hsame.counts.2, hcounts.2]

/-- **What `Insert` does**: it replaces the handle of the key's node, marked or not, or it
links a new one. -/
theorem insert_cases (h : Listed l as) (key : Int64) (handle : Handle) {topLevel : Nat}
    (htop : topLevel ≤ maxLevel) (levels : List Nat) :
    (∃ a ∈ as ++ [tail], (l.node a).key = key ∧ l.insert key (some handle) (topLevel :: levels) =
      some ((l.node a).handle, l.updateHandle a (some handle))) ∨
    (∀ a ∈ as ++ [tail], (l.node a).key ≠ key) ∧ ∃ p l' as', LinkedIn l as p l.size key handle l' as' ∧
      l.insert key (some handle) (topLevel :: levels) = some (none, l') := by
  obtain ⟨s, hfind, hfound, hloaded⟩ := find_spec h key
  have hinsert : l.insert key (some handle) (topLevel :: levels) =
    insertLoop key (topLevel :: levels) (some handle) l := if_neg (fun hnone => nomatch hnone)
  rw [hinsert, insertLoop, hfind]
  cases hs : s.found with
  | true =>
    left
    refine ⟨(s.succs 0).raw, (hfound.between 0 (Nat.zero_le _)).succ_mem, hfound.found hs, ?_⟩
    simp only [Option.bind_eq_bind, Option.bind_some, hs, if_true]
    rfl
  | false =>
    right
    obtain ⟨l₂, l₃, as', hlink, hupper, hin⟩ := linkedIn h hfound hloaded hs handle htop
    refine ⟨fun a ha => hfound.absent h hloaded hs ha, s.preds 0, _, as', hin, ?_⟩
    have hpair : l.newNode key (some handle) topLevel s.succs =
        (l.size, (l.newNode key (some handle) topLevel s.succs).2) := rfl
    simp only [Option.bind_eq_bind, Option.bind_some, hs]
    rw [hpair]
    simp only [hlink, hupper]
    rfl

theorem keyMarked_of_mem (h : Listed l as) {a : Nat} (ha : a ∈ as ++ [tail]) :
    l.keyMarked (l.node a).key = (l.node a).isMarked := by
  obtain ⟨s, hfind, hfound, hloaded⟩ := find_spec h (l.node a).key
  have htrue : s.found = true := by
    by_contra hfalse
    exact hfound.absent h hloaded (Bool.eq_false_iff.mpr hfalse) ha rfl
  have hnode : (s.succs 0).raw = a :=
    h.eq_of_key (hfound.between 0 (Nat.zero_le _)).succ_mem ha (hfound.found htrue)
  rw [keyMarked, hfind, Option.any_some, htrue, hnode, Bool.true_and]

end Insert

end HyperCache.HashSkip.AtomicSkipList
