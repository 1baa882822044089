import HyperCache.Lib.Chain
import HyperCache.Util.SkipList

/-! The ordered map holds what it should, whatever levels are drawn.

The nodes in their order, with their keys, values and heights, are a list of entries
(`Shape`): level `i` is the chain of those higher than `i`, so that the entries determine
every level. A search comes, on each level, to the last node before the key; the loops
that link and unlink a node change one pointer of each of its levels. No access fails, as
the specifications of the operations say what they return. -/
namespace HyperCache.Util.SkipList
open Chain (Path)

variable {κ ν : Type}

/-! ### The heap -/

/-- The pointer of a level, the null pointer if there is none. -/
def nextAt (l : SkipList κ ν) (level a : Nat) : Nat := ((l.node a).bind fun n => n.next[level]?).getD 0

/-- The length of `next`, zero if there is no node. -/
def height (l : SkipList κ ν) (a : Nat) : Nat := ((l.node a).map fun n => n.next.length).getD 0

/-- One pointer changed. -/
def put (l : SkipList κ ν) (a level p : Nat) : SkipList κ ν :=
  match l.node a with
  | none => l
  | some n => l.setNode a {n with next := n.next.set level p}

/-- What a node is, but for where it points. -/
def shape (l : SkipList κ ν) (a : Nat) : Option (κ × ν × Nat) :=
  (l.node a).map fun n => (n.key, n.value, n.next.length)

@[simp] theorem bind_ok {α β : Type} (a : α) (f : α → Except Fault β) :
    ((Except.ok a : Except Fault α) >>= f) = f a := rfl

section Heap
variable {l l' : SkipList κ ν} {a b level i p : Nat} {key : κ} {value : ν} {n : Node κ ν}

theorem deref_ok (h : l.node a = some n) : l.deref a = .ok n := by rw [deref, h]

theorem height_eq (h : l.node a = some n) : l.height a = n.next.length := by rw [height, h]; rfl

theorem shape_eq (h : l.node a = some n) : l.shape a = some (n.key, n.value, n.next.length) := by
  rw [shape, h]; rfl

theorem height_of_shape {h : Nat} (hs : l.shape a = some (key, value, h)) : l.height a = h := by
  rw [shape, Option.map_eq_some_iff] at hs
  obtain ⟨n, hn, heq⟩ := hs
  rw [height_eq hn]
  exact (Prod.mk.inj (Prod.mk.inj heq).2).2

theorem height_congr (h : l'.shape a = l.shape a) : l'.height a = l.height a := by
  have hmap : ∀ m : SkipList κ ν, m.height a = ((m.shape a).map fun s => s.2.2).getD 0 := fun m => by
    rw [height, shape, Option.map_map]; rfl
  rw [hmap, hmap, h]

theorem node_of_height (h : level < l.height a) : ∃ n, l.node a = some n ∧ level < n.next.length := by
  rw [height] at h
  cases hn : l.node a with
  | none =>
    rw [hn] at h
    exact absurd h (Nat.not_lt_zero _)
  | some n =>
    rw [hn] at h
    exact ⟨n, rfl, h⟩

/-- An access within the height of a node. -/
theorem next_ok (h : level < l.height a) : l.next a level = .ok (l.nextAt level a) := by
  obtain ⟨n, hn, hlen⟩ := node_of_height h
  have hget := List.getElem?_eq_getElem hlen
  rw [next, deref_ok hn, nextAt, hn, Option.bind_some, hget, Option.getD_some]
  simp only [bind, Except.bind, hget]

theorem setNext_ok (h : level < l.height a) : l.setNext a level p = .ok (l.put a level p) := by
  obtain ⟨n, hn, hlen⟩ := node_of_height h
  rw [setNext, deref_ok hn, put, hn]
  exact if_pos hlen

theorem node_setNode_self (l : SkipList κ ν) (a : Nat) (n : Node κ ν) : (l.setNode a n).node a = some n :=
  Function.update_self ..

theorem node_setNode_of_ne (l : SkipList κ ν) (n : Node κ ν) (hb : b ≠ a) :
    (l.setNode a n).node b = l.node b :=
  Function.update_of_ne hb ..

theorem node_deleteNode_of_ne (l : SkipList κ ν) (hb : b ≠ a) : (l.deleteNode a).node b = l.node b :=
  Function.update_of_ne hb ..

theorem put_size (l : SkipList κ ν) (a level p : Nat) : (l.put a level p).size = l.size := by
  rw [put]
  split <;> rfl

theorem put_curMaxLevel (l : SkipList κ ν) (a level p : Nat) :
    (l.put a level p).curMaxLevel = l.curMaxLevel := by
  rw [put]
  split <;> rfl

theorem put_shape (l : SkipList κ ν) (a level p b : Nat) : (l.put a level p).shape b = l.shape b := by
  cases hn : l.node a with
  | none => rw [put, hn]
  | some n =>
    rw [put, hn]
    by_cases hb : b = a
    · subst hb
      rw [shape, node_setNode_self, shape, hn, Option.map_some, List.length_set]
      rfl
    · rw [shape, node_setNode_of_ne l _ hb, shape]

theorem nextAt_put (h : level < l.height a) (i b : Nat) :
    (l.put a level p).nextAt i b = if i = level ∧ b = a then p else l.nextAt i b := by
  obtain ⟨n, hn, hlen⟩ := node_of_height h
  rw [put, hn]
  by_cases hb : b = a
  · subst hb
    simp only [nextAt, node_setNode_self, hn, Option.bind_some, List.getElem?_set, and_true]
    by_cases hi : i = level
    · subst hi
      rw [if_pos rfl, if_pos hlen, if_pos rfl, Option.getD_some]
    · rw [if_neg (Ne.symm hi), if_neg hi]
  · rw [if_neg fun h => hb h.2, nextAt, node_setNode_of_ne l _ hb, nextAt]

end Heap

/-! ### Entries -/

/-- A node as the map sees it. -/
structure Entry (κ ν : Type) where
  addr : Nat
  key : κ
  value : ν
  height : Nat

/-- The nodes of a level. -/
def onLevel (es : List (Entry κ ν)) (level : Nat) : List Nat :=
  (es.filter fun e => level < e.height).map Entry.addr

/-- The last node of a level, `head_` if it has none. -/
def pred (lo : List (Entry κ ν)) (level : Nat) : Nat := (onLevel lo level).getLast?.getD head

theorem onLevel_append (lo hi : List (Entry κ ν)) (level : Nat) :
    onLevel (lo ++ hi) level = onLevel lo level ++ onLevel hi level := by
  rw [onLevel, List.filter_append, List.map_append]
  rfl

theorem onLevel_cons_pos {e : Entry κ ν} (es : List (Entry κ ν)) {level : Nat} (h : level < e.height) :
    onLevel (e :: es) level = e.addr :: onLevel es level := by
  have hpos : decide (level < e.height) = true := decide_eq_true h
  simp only [onLevel, List.filter_cons, hpos, if_true, List.map_cons]

theorem onLevel_cons_neg {e : Entry κ ν} (es : List (Entry κ ν)) {level : Nat} (h : e.height ≤ level) :
    onLevel (e :: es) level = onLevel es level := by
  have hneg : decide (level < e.height) = false := decide_eq_false (Nat.not_lt.mpr h)
  simp only [onLevel, List.filter_cons, hneg, Bool.false_eq_true, if_false]

theorem mem_onLevel {es : List (Entry κ ν)} {level a : Nat} :
    a ∈ onLevel es level ↔ ∃ e ∈ es, level < e.height ∧ e.addr = a := by
  simp only [onLevel, List.mem_map, List.mem_filter, decide_eq_true_eq, and_assoc]

theorem getLast?_level (lo : List (Entry κ ν)) (level : Nat) :
    (head :: onLevel lo level).getLast? = some (pred lo level) :=
  List.getLast?_cons

theorem pred_mem (lo : List (Entry κ ν)) (level : Nat) : pred lo level ∈ head :: onLevel lo level :=
  List.mem_of_getLast? (getLast?_level lo level)

/-- A level ends at its last node. -/
theorem split_pred (lo : List (Entry κ ν)) (level : Nat) :
    ∃ before, head :: onLevel lo level = before ++ [pred lo level] :=
  List.getLast?_eq_some_iff.mp (getLast?_level lo level)

theorem split_append (lo hi : List (Entry κ ν)) (level : Nat) : ∃ before,
    head :: onLevel lo level = before ++ [pred lo level] ∧
    head :: onLevel (lo ++ hi) level = before ++ pred lo level :: onLevel hi level := by
  obtain ⟨before, heq⟩ := split_pred lo level
  refine ⟨before, heq, ?_⟩
  rw [onLevel_append, ← List.cons_append, heq, List.append_assoc]
  rfl

section Shape
variable [LinearOrder κ]

/-- The entries of a list, in the order of their keys; level `i` is the chain of those higher
than `i`. -/
structure Shape (l : SkipList κ ν) (es : List (Entry κ ν)) : Prop where
  head_height : l.height head = maxLevel
  shapes : ∀ e ∈ es, l.shape e.addr = some (e.key, e.value, e.height)
  taken : ∀ e ∈ es, head < e.addr ∧ e.addr < l.size
  heights : ∀ e ∈ es, 1 ≤ e.height ∧ e.height ≤ l.curMaxLevel
  size : head < l.size
  cur_pos : 1 ≤ l.curMaxLevel
  cur_le : l.curMaxLevel ≤ maxLevel
  sorted : es.Pairwise (·.key < ·.key)
  paths : ∀ level, level < maxLevel → Path (l.nextAt level) 0 head (onLevel es level)

variable {l l' : SkipList κ ν} {es lo hi rest : List (Entry κ ν)} {e : Entry κ ν} {key : κ} {level : Nat}

theorem Shape.node (h : Shape l es) (he : e ∈ es) : ∃ n, l.node e.addr = some n ∧ n.key = e.key ∧
    n.value = e.value ∧ n.next.length = e.height := by
  have hs := h.shapes e he
  rw [shape, Option.map_eq_some_iff] at hs
  obtain ⟨n, hn, heq⟩ := hs
  exact ⟨n, hn, (Prod.mk.inj heq).1, (Prod.mk.inj (Prod.mk.inj heq).2).1, (Prod.mk.inj (Prod.mk.inj heq).2).2⟩

theorem Shape.height (h : Shape l es) (he : e ∈ es) : l.height e.addr = e.height :=
  height_of_shape (h.shapes e he)

/-- A pointer of a level is one of a node that has it. -/
theorem Shape.lt_height (h : Shape l es) (hlevel : level < maxLevel) {a : Nat}
    (ha : a ∈ head :: onLevel es level) : level < l.height a := by
  rcases List.mem_cons.mp ha with rfl | hm
  · rw [h.head_height]
    exact hlevel
  · obtain ⟨e, he, hlt, rfl⟩ := mem_onLevel.mp hm
    rw [h.height he]
    exact hlt

/-- Entries are told apart by their addresses. -/
theorem Shape.addrs (h : Shape l es) : (es.map Entry.addr).Nodup := by
  rw [List.Nodup, List.pairwise_map]
  refine h.sorted.imp_of_mem fun {e e'} he he' hlt heq => ?_
  have hs := h.shapes e he
  rw [heq, h.shapes e' he'] at hs
  rw [(Prod.mk.inj (Option.some.inj hs)).1] at hlt
  exact lt_irrefl _ hlt

theorem Shape.length_lt (h : Shape l es) : es.length < l.size := by
  have hsub : (es.map Entry.addr).toFinset ⊆ Finset.Ico 2 l.size := by
    intro a ha
    obtain ⟨e, he, rfl⟩ := List.mem_map.mp (List.mem_toFinset.mp ha)
    exact Finset.mem_Ico.mpr (h.taken e he)
  have hcard := Finset.card_le_card hsub
  rw [List.toFinset_card_of_nodup h.addrs, Nat.card_Ico, List.length_map] at hcard
  have hsize : 1 < l.size := h.size
  omega

/-- A key splits the entries. -/
theorem exists_split (hs : es.Pairwise (·.key < ·.key)) (key : κ) : ∃ lo hi, es = lo ++ hi ∧
    (∀ e ∈ lo, e.key < key) ∧ ∀ e ∈ hi, ¬ e.key < key := by
  induction es with
  | nil => exact ⟨[], [], rfl, (fun _ h => nomatch h), (fun _ h => nomatch h)⟩
  | cons e es ih =>
    obtain ⟨hall, hrest⟩ := List.pairwise_cons.mp hs
    by_cases he : e.key < key
    · obtain ⟨lo, hi, rfl, hlo, hhi⟩ := ih hrest
      exact ⟨e :: lo, hi, rfl, List.forall_mem_cons.mpr ⟨he, hlo⟩, hhi⟩
    · refine ⟨[], e :: es, rfl, (fun _ h => nomatch h), List.forall_mem_cons.mpr ⟨he, fun x hx => ?_⟩⟩
      exact fun hlt => he (lt_trans (hall x hx) hlt)

/-! ### Searching -/

/-- Along a level, from any of its nodes. -/
theorem walk_spec {p fuel : Nat} {xs ys : List Nat} (hpath : Path (l.nextAt level) 0 p (xs ++ ys))
    (hp : level < l.height p) (hxs : ∀ a ∈ xs, a ≠ 0 ∧ level < l.height a ∧ ∃ n, l.node a = some n ∧ n.key < key)
    (hys : ∀ a ∈ ys, ∃ n, l.node a = some n ∧ ¬ n.key < key) (hfuel : xs.length < fuel) :
    l.walk key level fuel p = .ok (xs.getLast?.getD p) := by
  induction xs generalizing p fuel with
  | nil =>
    cases fuel with
    | zero => omega
    | succ fuel =>
      rw [walk, next_ok hp]
      by_cases hzero : l.nextAt level p = 0
      · exact if_pos hzero
      · cases ys with
        | nil => exact absurd hpath hzero
        | cons y ys =>
          obtain ⟨n, hn, hkey⟩ := hys y (List.mem_cons_self ..)
          refine (if_neg hzero).trans ?_
          have hnext : l.nextAt level p = y := hpath.1
          rw [hnext, deref_ok hn]
          exact if_neg hkey
  | cons x xs ih =>
    obtain ⟨hzero, hheight, n, hn, hkey⟩ := hxs x (List.mem_cons_self ..)
    have hnext : l.nextAt level p = x := hpath.1
    cases fuel with
    | zero => omega
    | succ fuel =>
      rw [walk, next_ok hp, hnext]
      refine (if_neg hzero).trans ?_
      rw [deref_ok hn]
      refine (if_pos hkey).trans ?_
      rw [ih hpath.2 hheight (fun a ha => hxs a (List.mem_cons_of_mem _ ha)) (Nat.lt_of_succ_lt_succ hfuel),
        List.getLast?_cons, Option.getD_some]

/-- On every level the search comes to the last node before the key. -/
theorem search_spec (h : Shape l (lo ++ hi)) (hlo : ∀ e ∈ lo, e.key < key) (hhi : ∀ e ∈ hi, ¬ e.key < key)
    {top p : Nat} (htop : top ≤ maxLevel) (hp : ∀ level, level < top → p ∈ head :: onLevel lo level)
    (update : Nat → Nat) : ∃ update', l.search key top p update =
        .ok (if top = 0 then p else pred lo 0, update') ∧
      (∀ level, level < top → update' level = pred lo level) ∧
      ∀ level, top ≤ level → update' level = update level := by
  induction top generalizing p update with
  | zero => exact ⟨update, rfl, (fun _ h => nomatch h), fun _ _ => rfl⟩
  | succ level ih =>
    have hlevel : level < maxLevel := htop
    have hpmem := hp level (Nat.lt_succ_self _)
    obtain ⟨before, xs, heq⟩ := List.append_of_mem hpmem
    have hpath : Path (l.nextAt level) 0 p (xs ++ onLevel hi level) := by
      have hsplit : head :: onLevel (lo ++ hi) level = before ++ p :: (xs ++ onLevel hi level) := by
        rw [onLevel_append, ← List.cons_append, heq, List.append_assoc]
        rfl
      exact (h.paths level hlevel).split hsplit
    have hmem : ∀ a ∈ xs, a ∈ onLevel lo level := by
      intro a ha
      cases before with
      | nil => exact (List.cons_eq_cons.mp heq).2 ▸ ha
      | cons b before =>
        rw [(List.cons_eq_cons.mp heq).2]
        exact List.mem_append_right _ (List.mem_cons_of_mem _ ha)
    have hlast : xs.getLast?.getD p = pred lo level := by
      have hget := getLast?_level lo level
      rw [heq, List.getLast?_append, List.getLast?_cons, Option.some_or] at hget
      exact Option.some.inj hget
    have hlen : xs.length < l.size := by
      have hle : xs.length ≤ (onLevel lo level).length := by
        have hcount := congrArg List.length heq
        rw [List.length_cons, List.length_append, List.length_cons] at hcount
        omega
      have hlt := h.length_lt
      rw [onLevel, List.length_map] at hle
      have hfilter := List.length_filter_le (fun e => decide (level < e.height)) lo
      rw [List.length_append] at hlt
      omega
    have hwalk : l.walk key level l.size p = .ok (pred lo level) := by
      rw [← hlast]
      refine walk_spec hpath (h.lt_height hlevel ?_) (fun a ha => ?_) (fun a ha => ?_) hlen
      · rw [onLevel_append]
        exact List.mem_append_left _ hpmem
      · obtain ⟨e, he, hlt, rfl⟩ := mem_onLevel.mp (hmem a ha)
        have hmemall := List.mem_append_left hi he
        obtain ⟨n, hn, hkey, -⟩ := h.node hmemall
        refine ⟨?_, ?_, n, hn, hkey ▸ hlo e he⟩
        · exact Nat.ne_of_gt (Nat.zero_lt_of_lt (h.taken e hmemall).1)
        · rw [h.height hmemall]
          exact hlt
      · obtain ⟨e, he, -, rfl⟩ := mem_onLevel.mp ha
        obtain ⟨n, hn, hkey, -⟩ := h.node (List.mem_append_right lo he)
        exact ⟨n, hn, hkey ▸ hhi e he⟩
    have hbelow : ∀ i, i < level → pred lo level ∈ head :: onLevel lo i := by
      intro i hi
      rcases List.mem_cons.mp (pred_mem lo level) with heq | hm
      · rw [heq]
        exact List.mem_cons_self ..
      · obtain ⟨e, he, hlt, haddr⟩ := mem_onLevel.mp hm
        exact List.mem_cons_of_mem _ (mem_onLevel.mpr ⟨e, he, Nat.lt_trans hi hlt, haddr⟩)
    obtain ⟨update', hsearch, hset, hkept⟩ := ih (Nat.le_of_lt hlevel) hbelow
      (Function.update update level (pred lo level))
    refine ⟨update', ?_, fun i hi => ?_, fun i hi => ?_⟩
    · rw [search, hwalk]
      refine hsearch.trans ?_
      rw [if_neg (Nat.succ_ne_zero level)]
      by_cases hzero : level = 0
      · rw [if_pos hzero, hzero]
      · rw [if_neg hzero]
    · rcases Nat.lt_succ_iff_lt_or_eq.mp hi with hlt | rfl
      · exact hset i hlt
      · rw [hkept i (Nat.le_refl _), Function.update_self]
    · rw [hkept i (Nat.le_of_succ_le hi), Function.update_of_ne (Nat.ne_of_gt hi)]

/-- **The search of every operation**: the entries before the key and the others, the last
node before it on each level, and whether the next one has the key. -/
theorem find_spec (h : Shape l es) (key : κ) : ∃ lo hi update, es = lo ++ hi ∧ (∀ e ∈ lo, e.key < key) ∧
    (∀ e ∈ hi, ¬ e.key < key) ∧ l.search key l.curMaxLevel head (fun _ => 0) = .ok (pred lo 0, update) ∧
    (∀ level, level < l.curMaxLevel → update level = pred lo level) ∧
    l.next (pred lo 0) 0 = .ok ((hi.head?.map Entry.addr).getD 0) ∧
    l.hasKey ((hi.head?.map Entry.addr).getD 0) key = .ok (decide (∃ e ∈ hi.head?, e.key = key)) := by
  obtain ⟨lo, hi, rfl, hlo, hhi⟩ := exists_split h.sorted key
  obtain ⟨update, hsearch, hset, -⟩ := search_spec h hlo hhi h.cur_le
    (fun _ _ => List.mem_cons_self ..) fun _ => 0
  rw [if_neg (Nat.ne_of_gt h.cur_pos)] at hsearch
  refine ⟨lo, hi, update, rfl, hlo, hhi, hsearch, hset, ?_, ?_⟩
  · have hpred : pred lo 0 ∈ head :: onLevel (lo ++ hi) 0 := by
      rw [onLevel_append]
      exact List.mem_append_left _ (pred_mem lo 0)
    rw [next_ok (h.lt_height (by decide) hpred)]
    obtain ⟨before, -, hsplit⟩ := split_append lo hi 0
    have hpath := (h.paths 0 (by decide)).split hsplit
    cases hi with
    | nil => exact congrArg _ hpath
    | cons e hi =>
      rw [onLevel_cons_pos hi (h.heights e (List.mem_append_right _ (List.mem_cons_self ..))).1] at hpath
      exact congrArg _ hpath.1
  · cases hi with
    | nil => rfl
    | cons e hi =>
      have he : e ∈ lo ++ e :: hi := List.mem_append_right _ (List.mem_cons_self ..)
      obtain ⟨n, hn, hkey, -⟩ := h.node he
      have hzero : e.addr ≠ 0 := Nat.ne_of_gt (Nat.zero_lt_of_lt (h.taken e he).1)
      rw [List.head?_cons, Option.map_some, Option.getD_some, hasKey, if_neg hzero, deref_ok hn]
      simp only [Option.mem_def, Option.some.injEq, exists_eq_left', ← hkey]
      rfl

/-! ### Linking and unlinking -/

/-- `l` is `l₁` with the node linked on the first levels, after its predecessors. -/
structure Linking (l₁ l : SkipList κ ν) (update : Nat → Nat) (node count : Nat) : Prop where
  shape : ∀ a, l.shape a = l₁.shape a
  size : l.size = l₁.size
  cur : l.curMaxLevel = l₁.curMaxLevel
  next : ∀ level a, l.nextAt level a =
    if level < count then
      if a = update level then node
      else if a = node then l₁.nextAt level (update level) else l₁.nextAt level a
    else l₁.nextAt level a

omit [LinearOrder κ] in
theorem linkLevel_spec {l₁ : SkipList κ ν} {update : Nat → Nat} {node count : Nat}
    (h : Linking l₁ l update node count) (hnode : count < l₁.height node)
    (hpred : count < l₁.height (update count)) :
    ∃ l', linkLevel update node l count = .ok l' ∧ Linking l₁ l' update node (count + 1) := by
  have hnode' : count < l.height node := by rw [height_congr (h.shape node)]; exact hnode
  have hpred' : count < l.height (update count) := by rw [height_congr (h.shape _)]; exact hpred
  have hsucc : l.nextAt count (update count) = l₁.nextAt count (update count) := by
    rw [h.next, if_neg (Nat.lt_irrefl _)]
  have hpred'' : count < (l.put node count (l₁.nextAt count (update count))).height (update count) := by
    rw [height_congr (put_shape ..)]
    exact hpred'
  refine ⟨(l.put node count (l₁.nextAt count (update count))).put (update count) count node, ?_, ?_⟩
  · rw [linkLevel, next_ok hpred', bind_ok, hsucc, setNext_ok hnode', bind_ok, setNext_ok hpred'']
  · refine ⟨fun a => ?_, ?_, ?_, fun level a => ?_⟩
    · rw [put_shape, put_shape, h.shape]
    · rw [put_size, put_size, h.size]
    · rw [put_curMaxLevel, put_curMaxLevel, h.cur]
    · rw [nextAt_put hpred'', nextAt_put hnode', h.next]
      by_cases hlevel : level = count
      · subst hlevel
        simp only [true_and, Nat.lt_irrefl, if_false, Nat.lt_succ_self, if_true]
      · have hlt : level < count + 1 ↔ level < count := by omega
        simp only [hlevel, false_and, if_false, hlt]

omit [LinearOrder κ] in
/-- The loop of `Insert` links a node on all its levels. -/
theorem linkLevels_spec {l₁ : SkipList κ ν} {update : Nat → Nat} {node : Nat} (count : Nat)
    (hheights : ∀ level, level < count → level < l₁.height node ∧ level < l₁.height (update level)) :
    ∃ l', (List.range count).foldlM (linkLevel update node) l₁ = .ok l' ∧
      Linking l₁ l' update node count := by
  induction count with
  | zero => exact ⟨l₁, rfl, (fun _ => rfl), rfl, rfl, fun _ _ => rfl⟩
  | succ count ih =>
    obtain ⟨l, hfold, hl⟩ := ih fun level hlevel => hheights level (Nat.lt_succ_of_lt hlevel)
    obtain ⟨hnode, hpred⟩ := hheights count (Nat.lt_succ_self _)
    obtain ⟨l', hlink, hl'⟩ := linkLevel_spec hl hnode hpred
    refine ⟨l', ?_, hl'⟩
    rw [List.range_succ, List.foldlM_append, hfold, bind_ok, List.foldlM_cons, hlink, bind_ok]
    rfl

/-- `l` is `l₁` with the node unlinked on the first levels. -/
structure Unlinking (l₁ l : SkipList κ ν) (update : Nat → Nat) (node count : Nat) : Prop where
  shape : ∀ a, l.shape a = l₁.shape a
  size : l.size = l₁.size
  cur : l.curMaxLevel = l₁.curMaxLevel
  next : ∀ level a, l.nextAt level a =
    if level < count ∧ a = update level then l₁.nextAt level node else l₁.nextAt level a

omit [LinearOrder κ] in
/-- The loop of `Erase` unlinks a node on all its levels, and stops at the next one. -/
theorem unlink_spec {l₁ : SkipList κ ν} {update : Nat → Nat} {node height rest count : Nat}
    (h : Unlinking l₁ l update node count) (hle : count ≤ height) (htop : height ≤ count + rest)
    (hheight : l₁.height node = height)
    (hheights : ∀ level, level < count + rest → level < l₁.height (update level))
    (hlinked : ∀ level, level < height → l₁.nextAt level (update level) = node)
    (hfree : ∀ level, level < count + rest → height ≤ level → l₁.nextAt level (update level) ≠ node) :
    ∃ l', unlink update node rest count l = .ok l' ∧ Unlinking l₁ l' update node height := by
  induction rest generalizing l count with
  | zero =>
    have heq : count = height := by omega
    exact ⟨l, rfl, heq ▸ h⟩
  | succ rest ih =>
    have hpred : count < l.height (update count) := by
      rw [height_congr (h.shape _)]
      exact hheights count (by omega)
    have hnext : l.nextAt count (update count) = l₁.nextAt count (update count) := by
      rw [h.next, if_neg fun hlt => Nat.lt_irrefl _ hlt.1]
    rw [unlink, next_ok hpred, hnext]
    by_cases hlt : count < height
    · have hnode : count < l.height node := by
        rw [height_congr (h.shape _), hheight]
        exact hlt
      have hsucc : l.nextAt count node = l₁.nextAt count node := by
        rw [h.next, if_neg fun hlt => Nat.lt_irrefl _ hlt.1]
      have hl' : Unlinking l₁ (l.put (update count) count (l₁.nextAt count node)) update node (count + 1) := by
        refine ⟨fun a => ?_, ?_, ?_, fun level a => ?_⟩
        · rw [put_shape, h.shape]
        · rw [put_size, h.size]
        · rw [put_curMaxLevel, h.cur]
        · rw [nextAt_put hpred, h.next]
          by_cases hlevel : level = count
          · subst hlevel
            simp only [true_and, Nat.lt_irrefl, false_and, if_false, Nat.lt_succ_self]
          · have hiff : level < count + 1 ↔ level < count := by omega
            simp only [hlevel, false_and, if_false, hiff]
      obtain ⟨l', hrun, hres⟩ := ih hl' hlt (by omega) (fun level hlevel => hheights level (by omega))
        (fun level hlevel => hfree level (by omega))
      refine ⟨l', ?_, hres⟩
      rw [bind_ok, if_neg (not_not.mpr (hlinked count hlt)), next_ok hnode, bind_ok, hsucc,
        setNext_ok hpred, bind_ok]
      exact hrun
    · have heq : count = height := by omega
      refine ⟨l, ?_, heq ▸ h⟩
      rw [bind_ok, if_pos (hfree count (by omega) (Nat.le_of_not_lt hlt))]
      rfl

/-! ### The map -/

omit [LinearOrder κ] in
theorem eq_of_key [Preorder κ] (hs : es.Pairwise (·.key < ·.key)) {e e' : Entry κ ν} (he : e ∈ es)
    (he' : e' ∈ es) (hkey : e.key = e'.key) : e = e' := by
  have hnodup : (es.map Entry.key).Nodup := by
    rw [List.Nodup, List.pairwise_map]
    exact hs.imp fun hlt => ne_of_lt hlt
  exact List.inj_on_of_nodup_map hnodup he he' hkey

/-- What the entries bind. -/
def contents (es : List (Entry κ ν)) (key : κ) : Option ν :=
  (es.find? fun e => e.key = key).map Entry.value

theorem contents_eq_some (hs : es.Pairwise (·.key < ·.key)) {value : ν} :
    contents es key = some value ↔ ∃ e ∈ es, e.key = key ∧ e.value = value := by
  rw [contents, Option.map_eq_some_iff]
  constructor
  · rintro ⟨e, hfind, hvalue⟩
    have hkey := List.find?_some hfind
    exact ⟨e, List.mem_of_find?_eq_some hfind, by simpa using hkey, hvalue⟩
  · rintro ⟨e, he, hkey, hvalue⟩
    have hsome : (es.find? fun e => e.key = key).isSome = true :=
      List.find?_isSome.mpr ⟨e, he, decide_eq_true hkey⟩
    obtain ⟨e', hfind⟩ := Option.isSome_iff_exists.mp hsome
    have hkey' : e'.key = key := by simpa using List.find?_some hfind
    have hsame : e' = e := eq_of_key hs (List.mem_of_find?_eq_some hfind) he (hkey'.trans hkey.symm)
    exact ⟨e', hfind, hsame ▸ hvalue⟩

/-- If only entries of one key differ, only its binding does. -/
theorem contents_update {es' : List (Entry κ ν)} (hs : es.Pairwise (·.key < ·.key))
    (hs' : es'.Pairwise (·.key < ·.key)) (hmem : ∀ e, e.key ≠ key → (e ∈ es' ↔ e ∈ es)) :
    contents es' = Function.update (contents es) key (contents es' key) := by
  funext k
  by_cases hk : k = key
  · rw [hk, Function.update_self]
  · rw [Function.update_of_ne hk]
    refine Option.ext fun value => ?_
    rw [contents_eq_some hs', contents_eq_some hs]
    constructor
    · rintro ⟨e, he, rfl, hvalue⟩
      exact ⟨e, (hmem e hk).mp he, rfl, hvalue⟩
    · rintro ⟨e, he, rfl, hvalue⟩
      exact ⟨e, (hmem e hk).mpr he, rfl, hvalue⟩

/-- What a key is bound to is seen at the first entry from it on. -/
theorem contents_append (hs : (lo ++ hi).Pairwise (·.key < ·.key)) (hlo : ∀ e ∈ lo, e.key < key)
    (hhi : ∀ e ∈ hi, ¬ e.key < key) :
    (∀ e ∈ hi.head?, e.key ≠ key → ∀ x ∈ lo ++ hi, x.key ≠ key) ∧ (hi = [] → ∀ x ∈ lo ++ hi, x.key ≠ key) := by
  have hlo' : ∀ x ∈ lo, x.key ≠ key := fun x hx => ne_of_lt (hlo x hx)
  constructor
  · intro e he hne x hx
    rcases List.mem_append.mp hx with hm | hm
    · exact hlo' x hm
    · cases hi with
      | nil => cases hm
      | cons b hi =>
        have heq : b = e := Option.some.inj he
        subst heq
        have hlt : key < b.key := lt_of_le_of_ne (not_lt.mp (hhi b (List.mem_cons_self ..))) (Ne.symm hne)
        rcases List.mem_cons.mp hm with rfl | hm
        · exact hne
        · have hsorted := (List.pairwise_append.mp hs).2.1
          exact ne_of_gt (lt_trans hlt ((List.pairwise_cons.mp hsorted).1 x hm))
  · rintro rfl x hx
    rw [List.append_nil] at hx
    exact hlo' x hx

theorem contents_eq_none (hs : es.Pairwise (·.key < ·.key)) (h : ∀ e ∈ es, e.key ≠ key) :
    contents es key = none := by
  rw [Option.eq_none_iff_forall_ne_some]
  intro value hvalue
  obtain ⟨e, he, hkey, -⟩ := (contents_eq_some hs).mp hvalue
  exact h e he hkey

/-- **Where an operation stands after its search**: at the entry of the key, or between the
entries before it and those after it. -/
theorem find_cases (h : Shape l es) (key : κ) : ∃ update lo hi,
    l.search key l.curMaxLevel head (fun _ => 0) = .ok (pred lo 0, update) ∧
    (∀ level, level < l.curMaxLevel → update level = pred lo level) ∧ (∀ e ∈ lo, e.key < key) ∧
    ((∃ e rest, hi = e :: rest ∧ es = lo ++ e :: rest ∧ e.key = key ∧ l.next (pred lo 0) 0 = .ok e.addr ∧
        l.hasKey e.addr key = .ok true) ∨
      es = lo ++ hi ∧ (∀ e ∈ hi, key < e.key) ∧ (∀ e ∈ es, e.key ≠ key) ∧
        ∃ a, l.next (pred lo 0) 0 = .ok a ∧ l.hasKey a key = .ok false) := by
  obtain ⟨lo, hi, update, rfl, hlo, hhi, hsearch, hset, hnext, hhas⟩ := find_spec h key
  obtain ⟨hcons, hnil⟩ := contents_append h.sorted hlo hhi
  refine ⟨update, lo, hi, hsearch, hset, hlo, ?_⟩
  cases hi with
  | nil =>
    refine .inr ⟨rfl, (fun _ h => nomatch h), hnil rfl, _, hnext, ?_⟩
    rw [hhas]
    simp
  | cons e rest =>
    rw [List.head?_cons, Option.map_some, Option.getD_some] at hnext hhas
    by_cases hkey : e.key = key
    · refine .inl ⟨e, rest, rfl, rfl, hkey, hnext, ?_⟩
      rw [hhas]
      simp [hkey]
    · have hall := hcons e rfl hkey
      refine .inr ⟨rfl, fun x hx => ?_, hall, e.addr, hnext, ?_⟩
      · exact lt_of_le_of_ne (not_lt.mp (hhi x hx)) (Ne.symm (hall x (List.mem_append_right _ hx)))
      · rw [hhas]
        simp [hkey]

/-! ### The operations -/

/-- **`Get`** returns what the key is bound to. -/
theorem get_spec (h : Shape l es) (key : κ) : l.get key = .ok (contents es key) := by
  obtain ⟨update, lo, hi, hsearch, -, -, hcases⟩ := find_cases h key
  rw [get, hsearch, bind_ok]
  rcases hcases with ⟨e, rest, rfl, rfl, hkey, hnext, hhas⟩ | ⟨rfl, -, hnone, a, hnext, hhas⟩
  · have he : e ∈ lo ++ e :: rest := List.mem_append_right _ (List.mem_cons_self ..)
    obtain ⟨n, hn, -, hvalue, -⟩ := h.node he
    have hbound : contents (lo ++ e :: rest) key = some n.value :=
      (contents_eq_some h.sorted).mpr ⟨e, he, hkey, hvalue.symm⟩
    simp only [hnext, bind_ok, hhas, if_true, deref_ok hn, hbound]
    rfl
  · simp only [hnext, bind_ok, hhas, Bool.false_eq_true, if_false, contents_eq_none h.sorted hnone]
    rfl

/-- The key has a node: its value is replaced. -/
theorem setValue_spec (h : Shape l (lo ++ e :: rest)) {n : Node κ ν} (hn : l.node e.addr = some n)
    (value : ν) : Shape (l.setNode e.addr {n with value := value}) (lo ++ {e with value := value} :: rest) := by
  have he : e ∈ lo ++ e :: rest := List.mem_append_right _ (List.mem_cons_self ..)
  have hmem : ∀ x ∈ lo ++ {e with value := value} :: rest,
      x = {e with value := value} ∨ x ∈ lo ++ e :: rest ∧ x.addr ≠ e.addr := by
    intro x hx
    have hnodup := h.addrs
    rw [List.map_append, List.map_cons, List.nodup_append, List.nodup_cons] at hnodup
    obtain ⟨-, ⟨hrest, -⟩, hcross⟩ := hnodup
    rcases List.mem_append.mp hx with hm | hm
    · refine .inr ⟨List.mem_append_left _ hm, ?_⟩
      exact hcross _ (List.mem_map_of_mem hm) _ (List.mem_cons_self ..)
    · rcases List.mem_cons.mp hm with heq | hm
      · exact .inl heq
      · refine .inr ⟨List.mem_append_right _ (List.mem_cons_of_mem _ hm), fun heq => hrest ?_⟩
        exact heq ▸ List.mem_map_of_mem hm
  have hshape : ∀ a, a ≠ e.addr → (l.setNode e.addr {n with value := value}).shape a = l.shape a := by
    intro a ha
    rw [shape, node_setNode_of_ne l _ ha, shape]
  have hnext : ∀ level a, (l.setNode e.addr {n with value := value}).nextAt level a = l.nextAt level a := by
    intro level a
    by_cases ha : a = e.addr
    · rw [ha, nextAt, node_setNode_self, nextAt, hn]
      rfl
    · rw [nextAt, node_setNode_of_ne l _ ha, nextAt]
  have hlevel : ∀ level, onLevel (lo ++ {e with value := value} :: rest) level =
      onLevel (lo ++ e :: rest) level := by
    intro level
    rw [onLevel_append, onLevel_append]
    by_cases hlt : level < e.height
    · rw [onLevel_cons_pos rest hlt, onLevel_cons_pos (e := {e with value := value}) rest hlt]
    · rw [onLevel_cons_neg rest (Nat.le_of_not_lt hlt),
        onLevel_cons_neg (e := {e with value := value}) rest (Nat.le_of_not_lt hlt)]
  refine ⟨?_, ?_, ?_, ?_, h.size, h.cur_pos, h.cur_le, ?_, ?_⟩
  · rw [height_congr (hshape head (Nat.ne_of_lt (h.taken e he).1)), h.head_height]
  · intro x hx
    rcases hmem x hx with rfl | ⟨hm, hne⟩
    · have hs := h.shapes e he
      rw [shape_eq hn] at hs
      obtain ⟨hkey, hrest⟩ := Prod.mk.inj (Option.some.inj hs)
      rw [shape_eq (node_setNode_self ..)]
      simp only [hkey, (Prod.mk.inj hrest).2]
    · rw [hshape _ hne]
      exact h.shapes x hm
  · intro x hx
    rcases hmem x hx with rfl | ⟨hm, -⟩
    · exact h.taken e he
    · exact h.taken x hm
  · intro x hx
    rcases hmem x hx with rfl | ⟨hm, -⟩
    · exact h.heights e he
    · exact h.heights x hm
  · have hkeys : (lo ++ {e with value := value} :: rest).map Entry.key = (lo ++ e :: rest).map Entry.key := by
      rw [List.map_append, List.map_cons, List.map_append, List.map_cons]
    have hs := h.sorted
    rw [← List.pairwise_map (f := Entry.key)] at hs ⊢
    rw [hkeys]
    exact hs
  · intro level hmax
    rw [hlevel]
    exact (h.paths level hmax).congr fun a _ => hnext level a

theorem Shape.nodup_level (h : Shape l es) (level : Nat) : (head :: onLevel es level).Nodup := by
  refine List.nodup_cons.mpr ⟨fun hm => ?_, ?_⟩
  · obtain ⟨e, he, -, heq⟩ := mem_onLevel.mp hm
    exact Nat.ne_of_gt (h.taken e he).1 heq
  · exact h.addrs.sublist (List.filter_sublist.map _)

/-- A node of a level is not a free address. -/
theorem Shape.ne_size (h : Shape l es) {a : Nat} (ha : a ∈ head :: onLevel es level) : a ≠ l.size := by
  rcases List.mem_cons.mp ha with rfl | hm
  · exact Nat.ne_of_lt h.size
  · obtain ⟨e, he, -, rfl⟩ := mem_onLevel.mp hm
    exact Nat.ne_of_lt (h.taken e he).2

/-- Where the last node before the key stands on its level, and that it is there only once. -/
theorem Shape.around_pred (h : Shape l (lo ++ hi)) (level : Nat) : ∃ before,
    head :: onLevel lo level = before ++ [pred lo level] ∧
    head :: onLevel (lo ++ hi) level = before ++ pred lo level :: onLevel hi level ∧
    ∀ a ∈ before ++ onLevel hi level, a ≠ pred lo level ∧ a ∈ head :: onLevel (lo ++ hi) level := by
  obtain ⟨before, hlo, hall⟩ := split_append lo hi level
  refine ⟨before, hlo, hall, fun a ha => ⟨?_, ?_⟩⟩
  · have hnodup := h.nodup_level level
    rw [hall, List.nodup_append, List.nodup_cons] at hnodup
    obtain ⟨-, ⟨hhi, -⟩, hcross⟩ := hnodup
    rintro rfl
    rcases List.mem_append.mp ha with hm | hm
    · exact hcross _ hm _ (List.mem_cons_self ..) rfl
    · exact hhi hm
  · rw [hall]
    rcases List.mem_append.mp ha with hm | hm
    · exact List.mem_append_left _ hm
    · exact List.mem_append_right _ (List.mem_cons_of_mem _ hm)

omit [LinearOrder κ] in
theorem pred_mem_append (lo hi : List (Entry κ ν)) (level : Nat) :
    pred lo level ∈ head :: onLevel (lo ++ hi) level := by
  rw [onLevel_append]
  exact List.mem_append_left _ (pred_mem lo level)

/-- Above its last level a list has only `head_`. -/
theorem grow_spec (h : Shape l (lo ++ hi)) {update : Nat → Nat}
    (hset : ∀ level, level < l.curMaxLevel → update level = pred lo level) (newLevel : Nat) :
    ∃ update', l.grow newLevel update = (update', {l with curMaxLevel := max l.curMaxLevel newLevel}) ∧
      ∀ level, level < newLevel → update' level = pred lo level := by
  have hempty : ∀ level, l.curMaxLevel ≤ level → pred lo level = head := by
    intro level hle
    have hnone : onLevel lo level = [] := by
      refine List.eq_nil_iff_forall_not_mem.mpr fun a ha => ?_
      obtain ⟨e, he, hlt, -⟩ := mem_onLevel.mp ha
      have hheight := (h.heights e (List.mem_append_left _ he)).2
      omega
    rw [pred, hnone]
    rfl
  rw [grow]
  split
  next hgrow =>
    refine ⟨_, by rw [Nat.max_eq_right (Nat.le_of_lt hgrow)], fun level hlevel => ?_⟩
    by_cases hle : l.curMaxLevel ≤ level
    · rw [if_pos ⟨hle, hlevel⟩, hempty level hle]
    · rw [if_neg fun hand => hle hand.1, hset level (Nat.lt_of_not_le hle)]
  next hgrow =>
    refine ⟨update, by rw [Nat.max_eq_left (Nat.le_of_not_lt hgrow)], fun level hlevel => ?_⟩
    exact hset level (by omega)

/-- The key has no node: one is linked on each of its levels. -/
theorem link_spec (h : Shape l (lo ++ hi)) (hlo : ∀ e ∈ lo, e.key < key) (hhi : ∀ e ∈ hi, key < e.key)
    (value : ν) (newLevel : Level) {update : Nat → Nat}
    (hset : ∀ level, level < newLevel.val → update level = pred lo level) {l₁ : SkipList κ ν}
    (hl₁ : l₁ = {({l with curMaxLevel := max l.curMaxLevel newLevel.val} : SkipList κ ν).setNode l.size
      ⟨key, value, List.replicate newLevel.val 0⟩ with size := l.size + 1}) :
    ∃ l', (List.range newLevel.val).foldlM (linkLevel update l.size) l₁ = .ok l' ∧
      Shape l' (lo ++ ⟨l.size, key, value, newLevel.val⟩ :: hi) := by
  obtain ⟨hpos, hmax⟩ := newLevel.property
  have hold : ∀ a, a ≠ l.size → l₁.node a = l.node a := fun a ha => by
    rw [hl₁]
    exact node_setNode_of_ne _ _ ha
  have hnew : l₁.shape l.size = some (key, value, newLevel.val) := by
    have hnode : l₁.node l.size = some ⟨key, value, List.replicate newLevel.val 0⟩ := by
      rw [hl₁]
      exact node_setNode_self ..
    rw [shape_eq hnode, List.length_replicate]
  have hshape : ∀ a, a ≠ l.size → l₁.shape a = l.shape a := fun a ha => by rw [shape, hold a ha, shape]
  have hnext : ∀ level a, a ≠ l.size → l₁.nextAt level a = l.nextAt level a := fun level a ha => by
    rw [nextAt, hold a ha, nextAt]
  have hpred : ∀ level, pred lo level ≠ l.size := fun level => h.ne_size (pred_mem_append lo hi level)
  have hheights : ∀ level, level < newLevel.val →
      level < l₁.height l.size ∧ level < l₁.height (update level) := by
    intro level hlevel
    rw [height_of_shape hnew, hset level hlevel, height_congr (hshape _ (hpred level))]
    exact ⟨hlevel, h.lt_height (Nat.lt_of_lt_of_le hlevel hmax) (pred_mem_append lo hi level)⟩
  obtain ⟨l', hfold, hl'⟩ := linkLevels_spec newLevel.val hheights
  refine ⟨l', hfold, ?_⟩
  have hsize : l'.size = l.size + 1 := by rw [hl'.size, hl₁]
  have hcur : l'.curMaxLevel = max l.curMaxLevel newLevel.val := by rw [hl'.cur, hl₁]; rfl
  have hmem : ∀ x ∈ lo ++ ⟨l.size, key, value, newLevel.val⟩ :: hi,
      x = ⟨l.size, key, value, newLevel.val⟩ ∨ x ∈ lo ++ hi := by
    intro x hx
    simp only [List.mem_append, List.mem_cons] at hx ⊢
    tauto
  have hne : ∀ x ∈ lo ++ hi, x.addr ≠ l.size := fun x hx => Nat.ne_of_lt (h.taken x hx).2
  refine ⟨?_, ?_, ?_, ?_, ?_, ?_, ?_, ?_, ?_⟩
  · rw [height_congr ((hl'.shape head).trans (hshape head (Nat.ne_of_lt h.size))), h.head_height]
  · intro x hx
    rw [hl'.shape]
    rcases hmem x hx with rfl | hm
    · exact hnew
    · rw [hshape _ (hne x hm)]
      exact h.shapes x hm
  · intro x hx
    rw [hsize]
    rcases hmem x hx with rfl | hm
    · exact ⟨h.size, Nat.lt_succ_self _⟩
    · exact ⟨(h.taken x hm).1, Nat.lt_succ_of_lt (h.taken x hm).2⟩
  · intro x hx
    rw [hcur]
    rcases hmem x hx with rfl | hm
    · exact ⟨hpos, Nat.le_max_right ..⟩
    · exact ⟨(h.heights x hm).1, Nat.le_trans (h.heights x hm).2 (Nat.le_max_left ..)⟩
  · rw [hsize]
    exact Nat.lt_succ_of_lt h.size
  · rw [hcur]
    exact Nat.le_trans hpos (Nat.le_max_right ..)
  · rw [hcur]
    exact Nat.max_le.mpr ⟨h.cur_le, hmax⟩
  · have hs := List.pairwise_append.mp h.sorted
    refine List.pairwise_append.mpr ⟨hs.1, List.pairwise_cons.mpr ⟨hhi, hs.2.1⟩, fun x hx y hy => ?_⟩
    rcases List.mem_cons.mp hy with rfl | hm
    · exact hlo x hx
    · exact hs.2.2 x hx y hm
  · intro level hlevel
    by_cases hlt : level < newLevel.val
    · obtain ⟨before, hbefore, hall, hothers⟩ := h.around_pred level
      have hto : l'.nextAt level (pred lo level) = l.size := by
        rw [hl'.next, if_pos hlt, hset level hlt, if_pos rfl]
      have hon : l'.nextAt level l.size = l.nextAt level (pred lo level) := by
        rw [hl'.next, if_pos hlt, hset level hlt, if_neg (Ne.symm (hpred level)), if_pos rfl]
        exact hnext level _ (hpred level)
      have hrest : ∀ y ∈ before ++ onLevel hi level, l'.nextAt level y = l.nextAt level y := by
        intro y hy
        obtain ⟨hpredne, hmemy⟩ := hothers y hy
        rw [hl'.next, if_pos hlt, hset level hlt, if_neg hpredne, if_neg (h.ne_size hmemy)]
        exact hnext level y (h.ne_size hmemy)
      obtain ⟨as', heq, hpath⟩ := (h.paths level hlevel).insert hall hto hon hrest
      have has : as' = onLevel lo level ++ l.size :: onLevel hi level := by
        have hcons : head :: as' = head :: (onLevel lo level ++ l.size :: onLevel hi level) := by
          rw [heq, ← List.cons_append, hbefore, List.append_assoc]
          rfl
        exact (List.cons_eq_cons.mp hcons).2
      rw [onLevel_append, onLevel_cons_pos hi hlt, ← has]
      exact hpath
    · have hsame : onLevel (lo ++ ⟨l.size, key, value, newLevel.val⟩ :: hi) level = onLevel (lo ++ hi) level := by
        rw [onLevel_append, onLevel_append, onLevel_cons_neg hi (Nat.le_of_not_lt hlt)]
      rw [hsame]
      refine (h.paths level hlevel).congr fun a ha => ?_
      rw [hl'.next, if_neg hlt, hnext level a (h.ne_size ha)]

/-- **`Insert`** binds the key to the value. -/
theorem insert_spec (h : Shape l es) (key : κ) (value : ν) (newLevel : Level) : ∃ l' es',
    l.insert key value newLevel = .ok l' ∧ Shape l' es' ∧
      contents es' = Function.update (contents es) key (some value) := by
  obtain ⟨update, lo, hi, hsearch, hset, hlo, hcases⟩ := find_cases h key
  rw [insert, hsearch, bind_ok]
  rcases hcases with ⟨e, rest, rfl, rfl, hkey, hnext, hhas⟩ | ⟨rfl, hhi, hnone, a, hnext, hhas⟩
  · have he : e ∈ lo ++ e :: rest := List.mem_append_right _ (List.mem_cons_self ..)
    obtain ⟨n, hn, -⟩ := h.node he
    have h' := setValue_spec h hn value
    refine ⟨_, _, ?_, h', ?_⟩
    · simp only [hnext, bind_ok, hhas, if_true, deref_ok hn]
      rfl
    · have hbound : contents (lo ++ {e with value := value} :: rest) key = some value :=
        (contents_eq_some h'.sorted).mpr
          ⟨_, List.mem_append_right _ (List.mem_cons_self ..), hkey, rfl⟩
      rw [← hbound]
      refine contents_update h.sorted h'.sorted fun x hx => ?_
      simp only [List.mem_append, List.mem_cons]
      have h1 : x ≠ e := fun heq => hx (heq ▸ hkey)
      have h2 : x ≠ {e with value := value} := fun heq => hx (heq ▸ hkey)
      tauto
  · obtain ⟨update', hgrow, hset'⟩ := grow_spec h hset newLevel.val
    obtain ⟨l', hfold, h'⟩ := link_spec h hlo hhi value newLevel hset' rfl
    refine ⟨l', _, ?_, h', ?_⟩
    · simp only [hnext, bind_ok, hhas, Bool.false_eq_true, if_false, hgrow]
      exact hfold
    · have hbound : contents (lo ++ ⟨l.size, key, value, newLevel.val⟩ :: hi) key = some value :=
        (contents_eq_some h'.sorted).mpr
          ⟨_, List.mem_append_right _ (List.mem_cons_self ..), rfl, rfl⟩
      rw [← hbound]
      refine contents_update h.sorted h'.sorted fun x hx => ?_
      simp only [List.mem_append, List.mem_cons]
      have hne : x ≠ ⟨l.size, key, value, newLevel.val⟩ := fun heq => hx (congrArg Entry.key heq)
      tauto

/-- A node is unlinked from each of its levels, and deleted. -/
theorem unlinked_spec (h : Shape l (lo ++ e :: rest)) {update : Nat → Nat}
    (hset : ∀ level, level < l.curMaxLevel → update level = pred lo level) : ∃ l',
    unlink update e.addr l.curMaxLevel 0 l = .ok l' ∧ l'.curMaxLevel = l.curMaxLevel ∧
      Shape (l'.deleteNode e.addr) (lo ++ rest) := by
  have he : e ∈ lo ++ e :: rest := List.mem_append_right _ (List.mem_cons_self ..)
  obtain ⟨-, htop⟩ := h.heights e he
  have hzero : e.addr ≠ 0 := Nat.ne_of_gt (Nat.zero_lt_of_lt (h.taken e he).1)
  have hmem : ∀ x ∈ lo ++ rest, x ∈ lo ++ e :: rest ∧ x.addr ≠ e.addr := by
    intro x hx
    have hnodup := h.addrs
    rw [List.map_append, List.map_cons, List.nodup_append, List.nodup_cons] at hnodup
    obtain ⟨-, ⟨hrest, -⟩, hcross⟩ := hnodup
    rcases List.mem_append.mp hx with hm | hm
    · exact ⟨List.mem_append_left _ hm, hcross _ (List.mem_map_of_mem hm) _ (List.mem_cons_self ..)⟩
    · exact ⟨List.mem_append_right _ (List.mem_cons_of_mem _ hm), fun heq => hrest (heq ▸ List.mem_map_of_mem hm)⟩
  have hmax : ∀ level, level < l.curMaxLevel → level < maxLevel := fun level hlevel =>
    Nat.lt_of_lt_of_le hlevel h.cur_le
  -- what follows the last node before the key
  have hpath : ∀ level, level < maxLevel → Path (l.nextAt level) 0 (pred lo level) (onLevel (e :: rest) level) := by
    intro level hlevel
    obtain ⟨before, -, hall, -⟩ := h.around_pred level
    exact (h.paths level hlevel).split hall
  have hlinked : ∀ level, level < e.height → l.nextAt level (update level) = e.addr := by
    intro level hlevel
    have hlt := Nat.lt_of_lt_of_le hlevel htop
    have hp := hpath level (hmax level hlt)
    rw [onLevel_cons_pos rest hlevel] at hp
    rw [hset level hlt]
    exact hp.1
  have hfree : ∀ level, level < 0 + l.curMaxLevel → e.height ≤ level →
      l.nextAt level (update level) ≠ e.addr := by
    intro level hlevel hle
    rw [Nat.zero_add] at hlevel
    have hp := hpath level (hmax level hlevel)
    rw [onLevel_cons_neg rest hle] at hp
    rw [hset level hlevel]
    cases hrest : onLevel rest level with
    | nil =>
      rw [hrest] at hp
      exact fun heq => hzero (heq.symm.trans hp)
    | cons x xs =>
      rw [hrest] at hp
      obtain ⟨y, hy, -, haddr⟩ := mem_onLevel.mp (hrest ▸ List.mem_cons_self .. : x ∈ onLevel rest level)
      rw [hp.1, ← haddr]
      exact (hmem y (List.mem_append_right _ hy)).2
  have hheights : ∀ level, level < 0 + l.curMaxLevel → level < l.height (update level) := by
    intro level hlevel
    rw [Nat.zero_add] at hlevel
    rw [hset level hlevel]
    exact h.lt_height (hmax level hlevel) (pred_mem_append lo (e :: rest) level)
  have hstart : Unlinking l l update e.addr 0 :=
    ⟨fun _ => rfl, rfl, rfl, fun _ _ => (if_neg fun hlt => Nat.not_lt_zero _ hlt.1).symm⟩
  obtain ⟨l', hrun, hl'⟩ := unlink_spec hstart (Nat.zero_le _) (by omega) (h.height he) hheights hlinked hfree
  refine ⟨l', hrun, hl'.cur, ?_⟩
  have hshape : ∀ a, a ≠ e.addr →
      (l'.deleteNode e.addr).shape a = l.shape a := by
    intro a ha
    rw [← hl'.shape, shape, node_deleteNode_of_ne l' ha, shape]
  have hnext : ∀ level a, a ≠ e.addr →
      (l'.deleteNode e.addr).nextAt level a =
        if level < e.height ∧ a = update level then l.nextAt level e.addr else l.nextAt level a := by
    intro level a ha
    rw [← hl'.next, nextAt, node_deleteNode_of_ne l' ha, nextAt]
  refine ⟨?_, ?_, ?_, ?_, ?_, ?_, ?_, ?_, ?_⟩
  · rw [height_congr (hshape head (Nat.ne_of_lt (h.taken e he).1)), h.head_height]
  · intro x hx
    obtain ⟨hm, hne⟩ := hmem x hx
    rw [hshape _ hne]
    exact h.shapes x hm
  · intro x hx
    rw [show (l'.deleteNode e.addr).size = l.size from hl'.size]
    exact h.taken x (hmem x hx).1
  · intro x hx
    rw [show (l'.deleteNode e.addr).curMaxLevel = l.curMaxLevel from hl'.cur]
    exact h.heights x (hmem x hx).1
  · exact hl'.size ▸ h.size
  · exact hl'.cur ▸ h.cur_pos
  · exact hl'.cur ▸ h.cur_le
  · have hs := List.pairwise_append.mp h.sorted
    refine List.pairwise_append.mpr ⟨hs.1, (List.pairwise_cons.mp hs.2.1).2, fun x hx y hy => ?_⟩
    exact hs.2.2 x hx y (List.mem_cons_of_mem _ hy)
  · intro level hlevel
    by_cases hlt : level < e.height
    · obtain ⟨before, hbefore, hall, hothers⟩ := h.around_pred level
      have hupdate := hset level (Nat.lt_of_lt_of_le hlt htop)
      rw [onLevel_cons_pos rest hlt] at hall hothers
      have hpredne : pred lo level ≠ e.addr := fun heq =>
        (hothers e.addr (List.mem_append_right _ (List.mem_cons_self ..))).1 heq.symm
      have hto : (l'.deleteNode e.addr).nextAt level
          (pred lo level) = l.nextAt level e.addr := by
        rw [hnext level _ hpredne, if_pos ⟨hlt, hupdate.symm⟩]
      have hkept : ∀ y ∈ before ++ onLevel rest level,
          (l'.deleteNode e.addr).nextAt level y =
            l.nextAt level y := by
        intro y hy
        have hmemy : y ∈ before ++ e.addr :: onLevel rest level := by
          rcases List.mem_append.mp hy with hm | hm
          · exact List.mem_append_left _ hm
          · exact List.mem_append_right _ (List.mem_cons_of_mem _ hm)
        have hne : y ≠ e.addr := by
          rintro rfl
          have hnodup := h.nodup_level level
          rw [hall, List.nodup_append, List.nodup_cons, List.nodup_cons] at hnodup
          obtain ⟨-, ⟨-, hrest, -⟩, hcross⟩ := hnodup
          rcases List.mem_append.mp hy with hm | hm
          · exact hcross _ hm _ (List.mem_cons_of_mem _ (List.mem_cons_self ..)) rfl
          · exact hrest hm
        rw [hnext level y hne, if_neg fun hand => (hothers y hmemy).1 (hand.2.trans hupdate)]
      obtain ⟨as', heq, hpath'⟩ := (h.paths level hlevel).erase hall hto hkept
      have has : as' = onLevel (lo ++ rest) level := by
        have hcons : head :: as' = head :: onLevel (lo ++ rest) level := by
          rw [heq, onLevel_append, ← List.cons_append, hbefore, List.append_assoc]
          rfl
        exact (List.cons_eq_cons.mp hcons).2
      rw [← has]
      exact hpath'
    · have hsame : onLevel (lo ++ rest) level = onLevel (lo ++ e :: rest) level := by
        rw [onLevel_append, onLevel_append, onLevel_cons_neg rest (Nat.le_of_not_lt hlt)]
      have hp := h.paths level hlevel
      rw [← hsame] at hp
      refine hp.congr fun a ha => ?_
      have hne : a ≠ e.addr := by
        rcases List.mem_cons.mp ha with rfl | hm
        · exact Nat.ne_of_lt (h.taken e he).1
        · obtain ⟨x, hx, -, rfl⟩ := mem_onLevel.mp hm
          exact (hmem x hx).2
      rw [hnext level a hne, if_neg fun hand => hlt hand.1]

/-- Levels without nodes are given up. -/
theorem shrink_spec (h : Shape l es) (top : Nat) (hpos : 1 ≤ top) (hmax : top ≤ maxLevel)
    (hheights : ∀ e ∈ es, e.height ≤ top) : ∃ c, l.shrink top = .ok {l with curMaxLevel := c} ∧
      Shape {l with curMaxLevel := c} es := by
  induction top with
  | zero => omega
  | succ level ih =>
    have hdone : Shape {l with curMaxLevel := level + 1} es := by
      refine ⟨h.head_height, h.shapes, h.taken, fun e he => ⟨(h.heights e he).1, hheights e he⟩, h.size, hpos,
        hmax, h.sorted, h.paths⟩
    rw [shrink]
    by_cases hone : level + 1 > 1
    · rw [if_pos hone, next_ok (h.lt_height hmax (List.mem_cons_self ..)), bind_ok]
      by_cases hnull : l.nextAt level head = 0
      · rw [if_pos hnull]
        refine ih (by omega) (Nat.le_of_succ_le hmax) fun e he => ?_
        by_contra hhigh
        have hmem : e.addr ∈ onLevel es level := mem_onLevel.mpr ⟨e, he, by omega, rfl⟩
        have hp := h.paths level hmax
        cases hlist : onLevel es level with
        | nil =>
          rw [hlist] at hmem
          cases hmem
        | cons a rest =>
          rw [hlist] at hp
          obtain ⟨x, hx, -, haddr⟩ := mem_onLevel.mp (hlist ▸ List.mem_cons_self .. : a ∈ onLevel es level)
          have htaken := (h.taken x hx).1
          rw [haddr, ← hp.1, hnull] at htaken
          exact Nat.not_lt_zero _ htaken
      · rw [if_neg hnull]
        exact ⟨level + 1, rfl, hdone⟩
    · rw [if_neg hone]
      exact ⟨level + 1, rfl, hdone⟩

/-- **`Erase`** unbinds the key, and tells whether it was bound. -/
theorem erase_spec (h : Shape l es) (key : κ) : ∃ l' es',
    l.erase key = .ok ((contents es key).isSome, l') ∧ Shape l' es' ∧
      contents es' = Function.update (contents es) key none := by
  obtain ⟨update, lo, hi, hsearch, hset, hlo, hcases⟩ := find_cases h key
  rw [erase, hsearch, bind_ok]
  rcases hcases with ⟨e, rest, rfl, rfl, hkey, hnext, hhas⟩ | ⟨rfl, -, hnone, a, hnext, hhas⟩
  · have he : e ∈ lo ++ e :: rest := List.mem_append_right _ (List.mem_cons_self ..)
    obtain ⟨l', hunlink, hcur, h'⟩ := unlinked_spec h hset
    obtain ⟨c, hshrink, h''⟩ := shrink_spec h' (l'.deleteNode e.addr).curMaxLevel h'.cur_pos h'.cur_le
      fun x hx => (h'.heights x hx).2
    have hbound : contents (lo ++ e :: rest) key = some e.value :=
      (contents_eq_some h.sorted).mpr ⟨e, he, hkey, rfl⟩
    have hothers : ∀ x ∈ lo ++ rest, x.key ≠ key := by
      intro x hx heq
      have hs := List.pairwise_append.mp h.sorted
      rcases List.mem_append.mp hx with hm | hm
      · exact ne_of_lt (hlo x hm) heq
      · exact ne_of_gt ((List.pairwise_cons.mp hs.2.1).1 x hm) (heq.trans hkey.symm)
    refine ⟨_, _, ?_, h'', ?_⟩
    · simp only [hnext, bind_ok, hhas, if_true, hunlink, hshrink, hbound]
      rfl
    · have hgone : contents (lo ++ rest) key = none := contents_eq_none h''.sorted hothers
      rw [← hgone]
      refine contents_update h.sorted h''.sorted fun x hx => ?_
      simp only [List.mem_append, List.mem_cons]
      have hne : x ≠ e := fun heq => hx (heq ▸ hkey)
      tauto
  · have hgone := contents_eq_none h.sorted hnone
    refine ⟨l, _, ?_, h, ?_⟩
    · simp only [hnext, bind_ok, hhas, Bool.false_eq_true, if_false, hgone]
      rfl
    · rw [← hgone, Function.update_eq_self]

/-! ### Runs -/

/-- A map that is updated by the same call, and what it returns. -/
def mapCall (m : κ → Option ν) : Call κ ν → (κ → Option ν) × Reply ν
  | .get key => (m, .got (m key))
  | .insert key value _ => (Function.update m key (some value), .inserted)
  | .erase key => (Function.update m key none, .erased (m key).isSome)

def mapRun (m : κ → Option ν) : List (Call κ ν) → List (Reply ν)
  | [] => []
  | c :: calls => (mapCall m c).2 :: mapRun (mapCall m c).1 calls

theorem make_shape [Inhabited κ] [Inhabited ν] : Shape (make : SkipList κ ν) [] := by
  have hnode : (make : SkipList κ ν).node head = some ⟨default, default, List.replicate maxLevel 0⟩ := by
    simp only [make, Function.update_self]
  refine ⟨?_, (fun _ h => nomatch h), (fun _ h => nomatch h), (fun _ h => nomatch h), Nat.lt_succ_self 1,
    Nat.le_refl 1, show 1 ≤ 16 by decide, .nil, fun level hlevel => ?_⟩
  · rw [height_eq hnode, List.length_replicate]
  · show (make : SkipList κ ν).nextAt level head = 0
    rw [nextAt, hnode, Option.bind_some, List.getElem?_replicate]
    split <;> rfl

/-- **The step lemma**: a call does and returns what it does to the map. -/
theorem call_spec (h : Shape l es) (c : Call κ ν) : ∃ l' es',
    l.call c = .ok (l', (mapCall (contents es) c).2) ∧ Shape l' es' ∧
      contents es' = (mapCall (contents es) c).1 := by
  cases c with
  | get key =>
    refine ⟨l, es, ?_, h, rfl⟩
    rw [call, get_spec h key]
    rfl
  | insert key value newLevel =>
    obtain ⟨l', es', hinsert, h', hmap⟩ := insert_spec h key value newLevel
    refine ⟨l', es', ?_, h', hmap⟩
    rw [call, hinsert]
    rfl
  | erase key =>
    obtain ⟨l', es', herase, h', hmap⟩ := erase_spec h key
    refine ⟨l', es', ?_, h', hmap⟩
    rw [call, herase]
    rfl

theorem run_spec (h : Shape l es) (calls : List (Call κ ν)) :
    ∃ l', l.run calls = .ok (l', mapRun (contents es) calls) := by
  induction calls generalizing l es with
  | nil => exact ⟨l, rfl⟩
  | cons c calls ih =>
    obtain ⟨l₁, es₁, hcall, h₁, hmap⟩ := call_spec h c
    obtain ⟨l', hrun⟩ := ih h₁
    refine ⟨l', ?_⟩
    rw [hmap] at hrun
    rw [run, hcall, bind_ok]
    simp only [hrun, bind_ok]
    rfl

/-- **The list refines a finite map, and no access fails**, for all calls, keys and values
and whatever `RandomLevel` returns. -/
theorem run_refines [Inhabited κ] [Inhabited ν] (calls : List (Call κ ν)) :
    ∃ l, make.run calls = .ok (l, mapRun (fun _ => none) calls) :=
  run_spec make_shape calls

end Shape

end HyperCache.Util.SkipList
