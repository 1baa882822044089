import HyperCache.HashSkip.CacheSteps
import HyperCache.Util.QueueSequential

/-! What a decay leaves of a bucket.

A pass meets every node once. It takes 100 hits from each that is not marked; one that has
no more is deleted, and one with few is queued for `Evict`. So the whole pass is one change
of every node of the list (`decay_spec`), and it always ends: `Evict` never marks `tail_`,
whose key no entry of the queue has. -/
namespace HyperCache.HashSkip

namespace Node

/-- The node has no hits left after a decay. -/
def expires (n : Node) : Bool := !n.isMarked && decide (n.hitCount ≤ 100)

/-- What a decay makes of a node. -/
def aged (n : Node) : Node :=
  if n.isMarked then n
  else if n.hitCount ≤ 100 then (n.decrHitCount 100).2.markDeleted.2
  else (n.decrHitCount 100).2

section Aged
variable {n : Node}

theorem decrHitCount_low (hlow : n.hitCount ≤ 100) : (n.decrHitCount 100).1 = 0 := by
  simp only [decrHitCount, if_pos hlow]
  split <;> rfl

theorem decrHitCount_high (hhigh : ¬ n.hitCount ≤ 100) :
    n.decrHitCount 100 = (n.hitCount - 100, {n with hitCount := n.hitCount - 100}) ∧
      (n.hitCount - 100).toInt = n.hitCount.toInt - 100 ∧ 0 < n.hitCount - 100 := by
  have hgt : 100 < n.hitCount.toInt := Int16.lt_iff_toInt_lt.mp (Int16.not_le.mp hhigh)
  have hmax := n.hitCount.toInt_lt
  have hcalc : (n.hitCount - 100).toInt = n.hitCount.toInt - 100 := by
    rw [Int16.toInt_sub, show (100 : Int16).toInt = 100 from rfl]
    exact Int.bmod_eq_of_le_mul_two (by omega) (by omega)
  refine ⟨?_, hcalc, ?_⟩
  · have hpos : ¬ n.hitCount ≤ 0 := fun hle => hhigh (Int16.le_trans hle (by decide))
    rw [decrHitCount, if_neg hpos]
    simp only [if_neg hhigh]
  · rw [Int16.lt_iff_toInt_lt, hcalc]
    exact Int.sub_pos_of_lt hgt

/-- Only the hit count falls. -/
theorem decrHitCount_node (n : Node) (delta : Int16) :
    ∃ hits, (n.decrHitCount delta).2 = {n with hitCount := hits} := by
  rw [decrHitCount]
  split
  · exact ⟨n.hitCount, rfl⟩
  · exact ⟨_, rfl⟩

theorem aged_marked (hmark : n.isMarked = true) : n.aged = n := if_pos hmark

theorem aged_high (hmark : n.isMarked = false) (hhigh : ¬ n.hitCount ≤ 100) :
    n.aged = {n with hitCount := n.hitCount - 100} := by
  rw [aged, if_neg (by rw [hmark]; decide), if_neg hhigh, (decrHitCount_high hhigh).1]

theorem aged_low (hmark : n.isMarked = false) (hlow : n.hitCount ≤ 100) :
    ∃ hits, n.aged = ({n with hitCount := hits} : Node).markDeleted.2 := by
  obtain ⟨hits, hnode⟩ := n.decrHitCount_node 100
  refine ⟨hits, ?_⟩
  rw [aged, if_neg (by rw [hmark]; decide), if_pos hlow, hnode]

theorem aged_shape (n : Node) : n.aged.key = n.key ∧ n.aged.topLevel = n.topLevel ∧
    n.aged.nexts.length = n.nexts.length ∧ ∀ level, (n.aged.next level).raw = (n.next level).raw := by
  cases hmark : n.isMarked with
  | true =>
    rw [aged_marked hmark]
    exact ⟨rfl, rfl, rfl, fun _ => rfl⟩
  | false =>
    by_cases hlow : n.hitCount ≤ 100
    · obtain ⟨hits, hnode⟩ := aged_low hmark hlow
      obtain ⟨hkey, htop, hlen, hraw, -⟩ := AtomicSkipList.markDeleted_shape {n with hitCount := hits}
      rw [hnode]
      exact ⟨hkey, htop, hlen, hraw⟩
    · rw [aged_high hmark hlow]
      exact ⟨rfl, rfl, rfl, fun _ => rfl⟩

/-- A node that expires is deleted, every other keeps its handle and its mark. -/
theorem aged_expires (hlen : 0 < n.nexts.length) (hexpires : n.expires = true) :
    n.aged.isMarked = true ∧ n.aged.handle = none := by
  obtain ⟨hmark, hlow⟩ := Bool.and_eq_true_iff.mp hexpires
  have hmark : n.isMarked = false := Bool.not_eq_eq_eq_not.mp hmark
  obtain ⟨hits, hnode⟩ := aged_low hmark (of_decide_eq_true hlow)
  have hmarked := (AtomicSkipList.markDeleted_shape {n with hitCount := hits}).2.2.2.2.2 hlen
  have hhandle := (AtomicSkipList.markDeleted_unmarked (n := {n with hitCount := hits}) hmark).2
  rw [hnode]
  exact ⟨hmarked, hhandle⟩

theorem aged_stays (hstays : n.expires = false) :
    n.aged.isMarked = n.isMarked ∧ n.aged.handle = n.handle := by
  cases hmark : n.isMarked with
  | true =>
    rw [aged_marked hmark]
    exact ⟨hmark, rfl⟩
  | false =>
    have hhigh : ¬ n.hitCount ≤ 100 := by
      intro hlow
      rw [expires, hmark, decide_eq_true hlow] at hstays
      cases hstays
    rw [aged_high hmark hhigh]
    exact ⟨hmark, rfl⟩

end Aged

end Node

namespace AtomicSkipList

/-- The nodes `as` have decayed. -/
def aged (l : AtomicSkipList) (as : List Nat) : AtomicSkipList :=
  {l with node := fun a => if a ∈ as then (l.node a).aged else l.node a}

section Aged
variable {l : AtomicSkipList} {as bs : List Nat} {a : Nat}

theorem aged_node_of_mem (ha : a ∈ bs) : (l.aged bs).node a = (l.node a).aged := if_pos ha

theorem aged_node_of_notMem (ha : a ∉ bs) : (l.aged bs).node a = l.node a := if_neg ha

@[simp] theorem aged_nil (l : AtomicSkipList) : l.aged [] = l := by
  rw [aged]
  simp only [List.not_mem_nil, if_false]

/-- One more node decays. -/
theorem aged_concat (ha : a ∉ bs) : l.aged (bs ++ [a]) = (l.aged bs).setNode a (l.node a).aged := by
  simp only [aged, setNode, AtomicSkipList.mk.injEq, and_self, and_true]
  funext b
  by_cases hb : b = a
  · subst hb
    rw [Function.update_self, if_pos (List.mem_append_right _ (List.mem_singleton_self _))]
  · rw [Function.update_of_ne hb]
    simp only [List.mem_append, List.mem_singleton, hb, or_false]

theorem aged_shape (l : AtomicSkipList) (bs : List Nat) (a : Nat) :
    ((l.aged bs).node a).key = (l.node a).key ∧ ((l.aged bs).node a).topLevel = (l.node a).topLevel ∧
      ((l.aged bs).node a).nexts.length = (l.node a).nexts.length ∧
      ∀ level, ((l.aged bs).next a level).raw = (l.next a level).raw := by
  by_cases ha : a ∈ bs
  · simp only [next, aged_node_of_mem ha]
    exact (l.node a).aged_shape
  · simp only [next, aged_node_of_notMem ha]
    exact ⟨trivial, trivial, trivial, fun _ => trivial⟩

theorem Formed.aged (h : Formed l as) (hsub : bs ⊆ as) : Formed (l.aged bs) as := by
  have hother : ∀ a, (a = head ∨ a = tail) → (l.aged bs).node a = l.node a := by
    intro a ha
    refine aged_node_of_notMem fun hm => ?_
    have htaken := (h.listed.taken a (hsub hm)).1
    rcases ha with rfl | rfl
    · exact absurd htaken (by decide)
    · exact absurd htaken (lt_irrefl _)
  refine ⟨h.listed.congr (fun a _ => ?_) (fun a _ level => ?_) (Nat.le_refl _), ?_, ?_, h.nodeNum⟩
  · obtain ⟨hkey, htop, hlen, -⟩ := l.aged_shape bs a
    exact ⟨hkey, htop, hlen⟩
  · exact (l.aged_shape bs a).2.2.2 level
  · rw [hother head (.inl rfl), h.head_unmarked]
  · rw [next, hother tail (.inr rfl)]
    exact h.tail_null

end Aged

/-! ### Iteration that ends -/

/-- From the nodes visited so far on. -/
theorem iterateFrom_returns {S : Type} {view : S → AtomicSkipList} {fn : Nat → S → Option (Bool × S)}
    {as : List Nat} {I : List Nat → S → Prop}
    (hlist : ∀ {visited s}, I visited s → Listed (view s) as ∧ ((view s).node tail).isMarked = false)
    (hskip : ∀ {visited a rest s}, as = visited ++ a :: rest → I visited s →
      ((view s).node a).isMarked = true → I (visited ++ [a]) s)
    (hfn : ∀ {visited a rest s}, as = visited ++ a :: rest → I visited s →
      ((view s).node a).isMarked = false → ∃ s', fn a s = some (true, s') ∧ I (visited ++ [a]) s')
    {visited before rest : List Nat} {pred fuel : Nat} {s : S} (heq : as = visited ++ rest)
    (hpred : head :: visited = before ++ [pred]) (hI : I visited s) (hfuel : rest.length < fuel) :
    ∃ s', iterateLevel view fn fuel pred s = some s' ∧ I as s' := by
  induction rest generalizing visited before pred fuel s with
  | nil =>
    rw [List.append_nil] at heq
    subst heq
    obtain ⟨hl, hmark⟩ := hlist hI
    have hnext : ((view s).next pred 0).raw = tail := hl.linked.path.split hpred
    cases fuel with
    | zero => omega
    | succ fuel =>
      rw [iterateLevel, hnext, if_neg (by decide), if_neg (by rw [hmark]; decide), if_pos rfl]
      exact ⟨s, rfl, hI⟩
  | cons a rest ih =>
    obtain ⟨hl, -⟩ := hlist hI
    have hnext : ((view s).next pred 0).raw = a := by
      have hsplit : head :: as = before ++ pred :: a :: rest := by
        rw [heq, ← List.cons_append, hpred, List.append_assoc]
        rfl
      exact (hl.linked.path.split hsplit).1
    have htaken := (hl.taken a (heq ▸ List.mem_append_right _ (List.mem_cons_self ..))).1
    have heq' : as = (visited ++ [a]) ++ rest := by rw [heq, List.append_assoc]; rfl
    have hpred' : head :: (visited ++ [a]) = (head :: visited) ++ [a] := rfl
    cases fuel with
    | zero => omega
    | succ fuel =>
      have hfuel' : rest.length < fuel := Nat.lt_of_succ_lt_succ hfuel
      rw [iterateLevel, hnext, if_neg (Nat.ne_of_gt (Nat.zero_lt_of_lt htaken))]
      cases hmark : ((view s).node a).isMarked with
      | true =>
        rw [if_pos rfl]
        exact ih heq' hpred' (hskip heq hI hmark) hfuel'
      | false =>
        obtain ⟨s₁, hcall, hI'⟩ := hfn heq hI hmark
        obtain ⟨s', hrun, hend⟩ := ih heq' hpred' hI' hfuel'
        refine ⟨s', ?_, hend⟩
        rw [if_neg Bool.false_ne_true, if_neg (Nat.ne_of_gt htaken), hcall]
        exact hrun

/-- **The rule for an `IterateLevel` that ends**: each call returns and keeps the invariant. -/
theorem iterateLevel_returns {S : Type} {view : S → AtomicSkipList} {fn : Nat → S → Option (Bool × S)}
    (as : List Nat) (I : List Nat → S → Prop)
    (hlist : ∀ {visited s}, I visited s → Listed (view s) as ∧ ((view s).node tail).isMarked = false)
    (hskip : ∀ {visited a rest s}, as = visited ++ a :: rest → I visited s →
      ((view s).node a).isMarked = true → I (visited ++ [a]) s)
    (hfn : ∀ {visited a rest s}, as = visited ++ a :: rest → I visited s →
      ((view s).node a).isMarked = false → ∃ s', fn a s = some (true, s') ∧ I (visited ++ [a]) s')
    {fuel : Nat} {s : S} (hI : I [] s) (hfuel : as.length < fuel) :
    ∃ s', iterateLevel view fn fuel head s = some s' ∧ I as s' :=
  iterateFrom_returns (I := I) hlist hskip hfn (List.nil_append as).symm (List.nil_append [head]).symm hI hfuel

end AtomicSkipList

namespace HashSkipCache
open AtomicSkipList (Formed Listed head tail)

/-! ### The queue -/

/-- The queue between calls: its entries are of nodes that a decay has met. -/
def QueueOk (q : Util.Queue LowKey) : Prop :=
  ∃ held, q.Holds 10000 held ∧ ∀ it ∈ held, it.key ≠ Int64.maxValue

section Queue
variable {q : Util.Queue LowKey} {it : LowKey}

theorem make_queueOk : QueueOk (.make 10000) :=
  ⟨[], Util.Queue.make_holds 10000, fun _ hit => absurd hit List.not_mem_nil⟩

theorem QueueOk.push (h : QueueOk q) (hkey : it.key ≠ Int64.maxValue) :
    ∃ pushed q', q.push it = some (pushed, q') ∧ QueueOk q' := by
  obtain ⟨held, hheld, hkeys⟩ := h
  rcases Nat.lt_or_eq_of_le hheld.le with hroom | hfull
  · obtain ⟨q', hpush, hq'⟩ := hheld.push hroom it
    refine ⟨true, q', hpush, _, hq', fun x hx => ?_⟩
    rcases List.mem_append.mp hx with hm | hm
    · exact hkeys x hm
    · rw [List.mem_singleton.mp hm]
      exact hkey
  · exact ⟨false, q, hheld.push_full (by decide) hfull it, held, hheld, hkeys⟩

/-- A queue that is not empty gives its oldest entry. -/
theorem QueueOk.pop (h : QueueOk q) (hsize : q.size > 0) :
    ∃ it q', q.pop = some (some it, q') ∧ QueueOk q' ∧ it.key ≠ Int64.maxValue ∧ q'.size = q.size - 1 := by
  obtain ⟨held, hheld, hkeys⟩ := h
  cases held with
  | nil =>
    rw [hheld.size] at hsize
    exact absurd hsize (by decide)
  | cons it rest =>
    obtain ⟨q', hpop, hq'⟩ := hheld.pop rfl
    refine ⟨it, q', hpop, ⟨rest, hq', fun x hx => hkeys x (List.mem_cons_of_mem _ hx)⟩,
      hkeys it (List.mem_cons_self ..), ?_⟩
    rw [hq'.size, hheld.size, List.length_cons]
    omega

end Queue

/-! ### The pass -/

/-- The charge that a decay takes from `memory_used_` for a node. -/
def lapsed (n : Node) : Int32 := if n.expires then freed (charge n.handle) else 0

section Pass
variable {c : HashSkipCache} {i a : Nat} {l : AtomicSkipList} {as : List Nat}

/-- **One node of a decay.** -/
theorem decayNode_spec (hbucket : c.buckets i = some l) (hmark : (l.node a).isMarked = false)
    (hq : QueueOk c.lowQueue) (hkey : (l.node a).key ≠ Int64.maxValue) : ∃ q num,
    decayNode i a c = some (true, {c.setBucket i
      {l.setNode a (l.node a).aged with markedDeletedNum := num} with
        lowQueue := q, memoryUsed := c.memoryUsed - (lapsed (l.node a)).toInt}) ∧ QueueOk q := by
  have hlist : c.bucket i = l := by rw [bucket, hbucket, Option.getD_some]
  have hnozero : c.memoryUsed - (0 : Int32).toInt = c.memoryUsed := Int.sub_zero _
  rw [decayNode, hlist]
  by_cases hlow : (l.node a).hitCount ≤ 100
  · obtain ⟨hits, hnode⟩ := (l.node a).decrHitCount_node 100
    have hpair : (l.node a).decrHitCount 100 = (0, {l.node a with hitCount := hits}) :=
      Prod.ext (Node.decrHitCount_low hlow) hnode
    have haged : (l.node a).aged = ({l.node a with hitCount := hits} : Node).markDeleted.2 := by
      rw [Node.aged, if_neg (by rw [hmark]; decide), if_pos hlow, hnode]
    have hexpires : (l.node a).expires = true := by rw [Node.expires, hmark, decide_eq_true hlow]; rfl
    have hcharge := (AtomicSkipList.markDeleted_unmarked (n := {l.node a with hitCount := hits}) hmark).1
    have hafter : (c.setBucket i (l.setNode a {l.node a with hitCount := hits})).bucket i =
        l.setNode a {l.node a with hitCount := hits} := by
      rw [bucket, setBucket_self, Option.getD_some]
    have htwice : ∀ l', (c.setBucket i (l.setNode a {l.node a with hitCount := hits})).setBucket i l' =
        c.setBucket i l' := fun l' => by simp only [setBucket, Function.update_idem]
    obtain ⟨num, hdeleted⟩ : ∃ num, (l.setNode a {l.node a with hitCount := hits}).markDeleted a =
        (charge (l.node a).handle, {l.setNode a (l.node a).aged with markedDeletedNum := num}) := by
      rw [AtomicSkipList.markDeleted_eq, AtomicSkipList.markNode_eq, AtomicSkipList.node_setNode_self,
        hcharge, haged]
      simp only [AtomicSkipList.setNode, Function.update_idem]
      exact ⟨_, rfl⟩
    simp only [lapsed, hexpires, if_true, freed, hpair, hafter, htwice, hdeleted]
    refine ⟨c.lowQueue, num, ?_, hq⟩
    rw [if_neg (by decide), if_neg (by decide)]
    by_cases hpos : charge (l.node a).handle > 0
    · simp only [if_pos hpos]
      rfl
    · simp only [if_neg hpos, hnozero]
      rfl
  · obtain ⟨hpair, -, hpos⟩ := Node.decrHitCount_high hlow
    have hexpires : (l.node a).expires = false := by rw [Node.expires, decide_eq_false hlow, Bool.and_false]
    rw [hpair, lapsed, hexpires, if_neg Bool.false_ne_true, hnozero, Node.aged_high hmark hlow]
    by_cases hhigh : (l.node a).hitCount - 100 > 100
    · refine ⟨c.lowQueue, l.markedDeletedNum, ?_, hq⟩
      simp only [if_pos hhigh]
      rfl
    · have hentry : (⟨i, c.bucketsGen i, (l.node a).key⟩ : LowKey).key ≠ Int64.maxValue := hkey
      obtain ⟨pushed, q, hpush, hq'⟩ := hq.push hentry
      refine ⟨q, l.markedDeletedNum, ?_, hq'⟩
      simp only [if_neg hhigh, if_pos hpos]
      exact Option.bind_eq_some_iff.mpr ⟨(pushed, q), hpush, rfl⟩

/-- **A decay** changes every node of its bucket at once, and no other bucket. -/
theorem decay_spec (h : Formed l as) (htail : (l.node tail).isMarked = false)
    (hbucket : c.buckets i = some l) (hq : QueueOk c.lowQueue) : ∃ q num,
    c.decayOneBucket i = some {c.setBucket i {l.aged as with markedDeletedNum := num} with
      lowQueue := q, memoryUsed := c.memoryUsed - (as.map fun a => (lapsed (l.node a)).toInt).sum} ∧
    QueueOk q := by
  have hlist : c.bucket i = l := by rw [bucket, hbucket, Option.getD_some]
  have hfresh : ∀ {visited a rest}, as = visited ++ a :: rest → a ∉ visited := by
    intro visited a rest heq hmem
    have hnodup := h.listed.nodup
    rw [heq, List.nodup_append] at hnodup
    exact hnodup.2.2 a hmem a (List.mem_cons_self ..) rfl
  have hsub : ∀ {visited a rest}, as = visited ++ a :: rest → visited ⊆ as := fun heq b hb =>
    heq ▸ List.mem_append_left _ hb
  have hfuel : as.length < l.size := by
    have hlen := h.listed.length_le
    omega
  have hpass : ∃ d, AtomicSkipList.iterateLevel (bucket i) (decayNode i) l.size head c = some d ∧
      (∃ q num, d = {c.setBucket i {l.aged as with markedDeletedNum := num} with
        lowQueue := q, memoryUsed := c.memoryUsed - (as.map fun a => (lapsed (l.node a)).toInt).sum} ∧
        QueueOk q) ∧ as ⊆ as := by
    refine AtomicSkipList.iterateLevel_returns as
      (fun visited d => (∃ q num, d = {c.setBucket i {l.aged visited with markedDeletedNum := num} with
        lowQueue := q
        memoryUsed := c.memoryUsed - (visited.map fun a => (lapsed (l.node a)).toInt).sum} ∧
        QueueOk q) ∧ visited ⊆ as) ?_ ?_ ?_
      ⟨⟨c.lowQueue, l.markedDeletedNum, ?_, hq⟩, List.nil_subset as⟩ hfuel
    · rintro visited d ⟨⟨q, num, rfl, -⟩, hvisited⟩
      rw [bucket, setBucket_self]
      have haged := h.aged hvisited
      have htail' : tail ∉ visited := fun hm => absurd (h.listed.taken tail (hvisited hm)).1 (lt_irrefl _)
      refine ⟨haged.listed.congr (fun a _ => ⟨rfl, rfl, rfl⟩) (fun a _ level => rfl) (Nat.le_refl _), ?_⟩
      exact (congrArg Node.isMarked (AtomicSkipList.aged_node_of_notMem htail')).trans htail
    · rintro visited a rest d heq ⟨⟨q, num, rfl, hq'⟩, hvisited⟩ hmark
      have hnode : (l.aged visited).node a = l.node a := AtomicSkipList.aged_node_of_notMem (hfresh heq)
      rw [bucket, setBucket_self] at hmark
      have hmark : (l.node a).isMarked = true := (congrArg Node.isMarked hnode).symm.trans hmark
      refine ⟨⟨q, num, ?_, hq'⟩, fun b hb => ?_⟩
      · have hself : (l.aged visited).setNode a (l.node a) = l.aged visited := by
          rw [← hnode, AtomicSkipList.setNode, Function.update_eq_self]
        rw [AtomicSkipList.aged_concat (hfresh heq), Node.aged_marked hmark, hself, List.map_append,
          List.sum_append]
        have hnothing : lapsed (l.node a) = 0 := by
          rw [lapsed, Node.expires, hmark]
          rfl
        simp [hnothing]
      · rcases List.mem_append.mp hb with hm | hm
        · exact hvisited hm
        · rw [List.mem_singleton.mp hm, heq]
          exact List.mem_append_right _ (List.mem_cons_self ..)
    · rintro visited a rest d heq ⟨⟨q, num, rfl, hq'⟩, hvisited⟩ hmark
      have hnode : (l.aged visited).node a = l.node a := AtomicSkipList.aged_node_of_notMem (hfresh heq)
      have ha : a ∈ as := heq ▸ List.mem_append_right _ (List.mem_cons_self ..)
      rw [bucket, setBucket_self] at hmark
      have hmark : (l.node a).isMarked = false := (congrArg Node.isMarked hnode).symm.trans hmark
      obtain ⟨q₁, num₁, hdecay, hq₁⟩ := decayNode_spec (a := a) (i := i)
        (c := {c.setBucket i {l.aged visited with markedDeletedNum := num} with
          lowQueue := q
          memoryUsed := c.memoryUsed - (visited.map fun a => (lapsed (l.node a)).toInt).sum})
        (setBucket_self ..) ((congrArg Node.isMarked hnode).trans hmark) hq'
        ((congrArg Node.key hnode).trans_ne (h.listed.key_ne ha))
      refine ⟨_, hdecay, ⟨q₁, num₁, ?_, hq₁⟩, fun b hb => ?_⟩
      · rw [AtomicSkipList.aged_concat (hfresh heq), List.map_append, List.sum_append]
        simp only [hnode, setBucket, Function.update_idem, AtomicSkipList.setNode, List.map_cons,
          List.map_nil, List.sum_cons, List.sum_nil, Int.add_zero, Int.sub_sub]
      · rcases List.mem_append.mp hb with hm | hm
        · exact hvisited hm
        · rw [List.mem_singleton.mp hm]
          exact ha
    · simp only [AtomicSkipList.aged_nil, List.map_nil, List.sum_nil, Int.sub_zero, setBucket]
      rw [← hbucket, Function.update_eq_self]
  obtain ⟨d, hrun, ⟨q, num, rfl, hq'⟩, -⟩ := hpass
  refine ⟨q, num, ?_, hq'⟩
  rw [decayOneBucket, if_neg (by rw [hbucket]; exact Bool.false_ne_true), hlist]
  exact hrun

end Pass

end HashSkipCache

end HyperCache.HashSkip
