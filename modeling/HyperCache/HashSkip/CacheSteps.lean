import HyperCache.HashSkip.Compaction

/-! What each step of the hash-skip cache does.

One lemma says, for each of the loops' bodies and for each call, which bucket changed and
how, and what it did to `memory_used_` and to the queue; one rule for each loop says what
it keeps. The invariants of the cache are proved from these. -/
namespace HyperCache.HashSkip

namespace AtomicSkipList

/-- `Get` finds the node of the key, unless it is marked. -/
theorem getNode_cases {l : AtomicSkipList} {as : List Nat} (h : Listed l as) (key : Int64) :
    (∃ a ∈ as ++ [tail], (l.node a).key = key ∧ (l.node a).isMarked = false ∧
      l.getNode key = some (some a)) ∨
    l.getNode key = some none ∧ ∀ a ∈ as ++ [tail], (l.node a).key = key → (l.node a).isMarked = true := by
  rcases mem_or_absent l as key with ⟨a, ha, rfl⟩ | habsent
  · have hget := getNode_of_mem h ha
    cases hmark : (l.node a).isMarked with
    | false =>
      rw [hmark] at hget
      exact .inl ⟨a, ha, rfl, hmark, hget⟩
    | true =>
      rw [hmark] at hget
      refine .inr ⟨hget, fun b hb hkey => ?_⟩
      rw [h.eq_of_key hb ha hkey, hmark]
  · exact .inr ⟨getNode_of_absent h habsent, fun a ha hkey => absurd hkey (habsent a ha)⟩

end AtomicSkipList

namespace HashSkipCache

/-- What `Evict` and `DecayOneBucket` count of a charge. -/
def freed (charge : Int32) : Int32 := if charge > 0 then charge else 0

/-- The entries of the queue, the oldest first. -/
def entries (c : HashSkipCache) : List LowKey :=
  (List.range' c.lowQueue.tail (c.lowQueue.head - c.lowQueue.tail)).map fun pos =>
    (c.lowQueue.node pos).data

/-- The entry is of the bucket's generation, and its key has an unmarked node. -/
def evictable (c : HashSkipCache) (it : LowKey) : Bool :=
  it.gen == c.bucketsGen it.bucketIndex &&
    (c.buckets it.bucketIndex).any fun l => (l.getNode it.key).any Option.isSome

section Evict
variable {c c' : HashSkipCache} {it : LowKey} {q : Util.Queue LowKey} {free need need' : Int32}

/-- The queue gives one of its entries and keeps the others. -/
theorem pop_entries (hsize : c.lowQueue.size > 0) (hpop : c.lowQueue.pop = some (some it, q)) :
    it ∈ c.entries ∧ ∀ x ∈ ({c with lowQueue := q} : HashSkipCache).entries, x ∈ c.entries := by
  have hlt : c.lowQueue.tail < c.lowQueue.head := by
    simp only [Util.Queue.size] at hsize
    split at hsize <;> omega
  rw [Util.Queue.pop] at hpop
  split at hpop
  · cases hpop
    constructor
    · refine List.mem_map.mpr ⟨c.lowQueue.tail, ?_, rfl⟩
      rw [List.mem_range'_1]
      omega
    · intro x hx
      obtain ⟨pos, hpos, rfl⟩ := List.mem_map.mp hx
      rw [List.mem_range'_1] at hpos
      simp only [Util.Queue.setNode_head, Util.Queue.setNode_tail] at hpos
      refine List.mem_map.mpr ⟨pos, ?_, ?_⟩
      · rw [List.mem_range'_1]
        omega
      · rw [Util.Queue.setNode_node]
        split
        next heq => exact congrArg (fun i => (c.lowQueue.buffer i).data) heq
        next => rfl
  · split at hpop <;> cases hpop

/-- **One entry of the queue**: nothing, or the node of its key is marked. -/
theorem evictOne_cases (hrun : c.evictOne it = some (free, c')) :
    c.evictable it = false ∧ free = 0 ∧ c' = c ∨
    ∃ l a, c.evictable it = true ∧ c.buckets it.bucketIndex = some l ∧
      l.getNode it.key = some (some a) ∧ free = freed (l.markNode a).1 ∧
      c' = {c.setBucket it.bucketIndex (l.markNode a).2 with
        memoryUsed := c.memoryUsed + (freed (l.markNode a).1).toInt} := by
  rw [evictOne] at hrun
  by_cases hgen : it.gen = c.bucketsGen it.bucketIndex
  · rw [if_neg (not_not.mpr hgen)] at hrun
    cases hbucket : c.buckets it.bucketIndex with
    | none =>
      rw [hbucket] at hrun
      cases hrun
      refine .inl ⟨?_, rfl, rfl⟩
      rw [evictable, hbucket, Option.any_none, Bool.and_false]
    | some l =>
      rw [hbucket] at hrun
      have hlive : c.evictable it = (l.getNode it.key).any Option.isSome := by
        rw [evictable, hbucket, beq_iff_eq.mpr hgen, Option.any_some, Bool.true_and]
      obtain ⟨node, hget, hrun⟩ := Option.bind_eq_some_iff.mp hrun
      rw [hget] at hlive
      cases node with
      | none =>
        cases hrun
        exact .inl ⟨hlive, rfl, rfl⟩
      | some a =>
        refine .inr ⟨l, a, hlive, rfl, hget, ?_⟩
        simp only [freed]
        by_cases hpos : (l.markNode a).1 > 0
        · simp only [if_pos hpos] at hrun ⊢
          cases hrun
          exact ⟨rfl, rfl⟩
        · simp only [if_neg hpos] at hrun ⊢
          cases hrun
          refine ⟨rfl, ?_⟩
          rw [show (0 : Int32).toInt = 0 from rfl, Int.add_zero]
          rfl
  · rw [if_pos hgen] at hrun
    cases hrun
    refine .inl ⟨?_, rfl, rfl⟩
    rw [evictable, beq_false_of_ne hgen, Bool.false_and]

/-- **The rule for the loop of `Evict`.** -/
theorem evictLoop_keeps {I : HashSkipCache → Prop}
    (hempty : ∀ {c q}, I c → c.lowQueue.pop = some (none, q) → I {c with lowQueue := q})
    (hone : ∀ {c it q free c'}, I c → c.lowQueue.size > 0 → c.lowQueue.pop = some (some it, q) →
      evictOne {c with lowQueue := q} it = some (free, c') → I c')
    {fuel : Nat} (hI : I c) (hrun : evictLoop fuel need c = some (need', c')) : I c' := by
  induction fuel generalizing need c with
  | zero => cases hrun
  | succ fuel ih =>
    rw [evictLoop] at hrun
    split at hrun
    next hmore =>
      obtain ⟨⟨it, q⟩, hpop, hrest⟩ := Option.bind_eq_some_iff.mp hrun
      cases it with
      | none => exact ih (hempty hI hpop) hrest
      | some it =>
        obtain ⟨⟨free, c₁⟩, hevict, hrest⟩ := Option.bind_eq_some_iff.mp hrest
        exact ih (hone hI hmore.2 hpop hevict) hrest
    next =>
      cases hrun
      exact hI

/-- `Evict` always says that there is room. -/
theorem evict_cases {enough : Bool} (hrun : c.evict need = some (enough, c')) : enough = true ∧
    ∃ rest, evictLoop (c.lowQueue.size.toNat + 1) need c = some (rest, c') := by
  obtain ⟨⟨rest, c₁⟩, hloop, hreturn⟩ := Option.bind_eq_some_iff.mp hrun
  cases hreturn
  exact ⟨rfl, rest, hloop⟩

end Evict

/-! ### Calls -/

section Calls
variable {c c' : HashSkipCache} {key : Int64} {handle : Option Handle} {levels : List Nat} {stored : Bool}

theorem get_cases {found : Option Handle} (hrun : c.get key = some (found, c')) :
    c.buckets (c.bucketIndex key) = none ∧ found = none ∧ c' = c ∨
    ∃ l l', c.buckets (c.bucketIndex key) = some l ∧ l.get key = some (found, l') ∧
      c' = c.setBucket (c.bucketIndex key) l' := by
  rw [get] at hrun
  cases hbucket : c.buckets (c.bucketIndex key) with
  | none =>
    rw [hbucket] at hrun
    cases hrun
    exact .inl ⟨rfl, rfl, rfl⟩
  | some l =>
    rw [hbucket] at hrun
    obtain ⟨⟨handle, l'⟩, hget, hreturn⟩ := Option.bind_eq_some_iff.mp hrun
    cases hreturn
    exact .inr ⟨l, l', rfl, hget, rfl⟩

theorem store_cases (hrun : c.store key handle levels = some (stored, c')) :
    c.buckets (c.bucketIndex key) = none ∧ stored = false ∧ c' = c ∨
    ∃ l old l', c.buckets (c.bucketIndex key) = some l ∧ l.insert key handle levels = some (old, l') ∧
      stored = true ∧ c' = {c.setBucket (c.bucketIndex key) l' with
        memoryUsed := c.memoryUsed + (charge handle - charge old).toInt} := by
  rw [store] at hrun
  cases hbucket : c.buckets (c.bucketIndex key) with
  | none =>
    rw [hbucket] at hrun
    cases hrun
    exact .inl ⟨rfl, rfl, rfl⟩
  | some l =>
    rw [hbucket] at hrun
    obtain ⟨⟨old, l'⟩, hinsert, hreturn⟩ := Option.bind_eq_some_iff.mp hrun
    cases hreturn
    refine .inr ⟨l, old, l', rfl, hinsert, rfl, ?_⟩
    cases old with
    | none =>
      have hzero : charge handle - charge none = charge handle := Int32.sub_zero _
      rw [hzero]
      rfl
    | some old => rfl

/-- **`Insert`**: it stores at once where there is room, and after `Evict` where there is none. -/
theorem insert_cases (hrun : c.insert key handle levels = some (stored, c')) :
    c.buckets (c.bucketIndex key) = none ∧ stored = false ∧ c' = c ∨
    c.memoryUsed + (charge handle).toInt ≤ c.capicity ∧ c.store key handle levels = some (stored, c') ∨
    c.memoryUsed + (charge handle).toInt > c.capicity ∧ ∃ c₁, c.evict (charge handle) = some (true, c₁) ∧
      c₁.store key handle levels = some (stored, c') := by
  rw [insert] at hrun
  split at hrun
  next hnone =>
    cases hrun
    exact .inl ⟨Option.isNone_iff_eq_none.mp hnone, rfl, rfl⟩
  next =>
    right
    split at hrun
    next hfull =>
      obtain ⟨⟨enough, c₁⟩, hevict, hrest⟩ := Option.bind_eq_some_iff.mp hrun
      obtain ⟨rfl, -⟩ := evict_cases hevict
      exact .inr ⟨hfull, c₁, hevict, hrest⟩
    next hroom => exact .inl ⟨not_lt.mp hroom, hrun⟩

/-- **A turn of compaction**: nothing, or a new bucket takes the place of the old one. -/
theorem compact_cases {i : Nat} {levels : Nat → Fin (maxLevel + 1)}
    (hrun : c.call (.compact i levels) = some c') :
    c' = c ∨ ∃ l new, c.buckets i = some l ∧ c.compactOneBucket i levels = some (some new) ∧
      c' = c.swap i new := by
  rw [call] at hrun
  obtain ⟨-, hrun⟩ := Option.ite_none_right_eq_some.mp hrun
  obtain ⟨new, hcompact, hreturn⟩ := Option.bind_eq_some_iff.mp hrun
  cases new with
  | none =>
    cases hreturn
    exact .inl rfl
  | some new =>
    cases hreturn
    cases hbucket : c.buckets i with
    | none =>
      rw [compactOneBucket, hbucket] at hcompact
      cases hcompact
    | some l => exact .inr ⟨l, new, rfl, hcompact, rfl⟩

/-- A compaction leaves no bucket as it is but a sparse one. -/
theorem compactOneBucket_isSome {i : Nat} {l : AtomicSkipList} (hbucket : c.buckets i = some l)
    {levels : Nat → Fin (maxLevel + 1)} {new : Option AtomicSkipList}
    (hcompact : c.compactOneBucket i levels = some new) : new.isSome = !sparse l := by
  rw [compactOneBucket, hbucket] at hcompact
  cases hsparse : sparse l with
  | true =>
    simp only [hsparse, if_true] at hcompact
    cases hcompact
    rfl
  | false =>
    simp only [hsparse] at hcompact
    obtain ⟨new₁, -, hreturn⟩ := Option.bind_eq_some_iff.mp hcompact
    cases hreturn
    rfl

end Calls

/-! ### Decay -/

section Decay
variable {c c' : HashSkipCache} {i a : Nat} {l : AtomicSkipList} {more : Bool}

/-- Decay changes a hit count, and only a low one falls to zero. -/
theorem decrHitCount_cases (n : Node) : ∃ hits : Int16,
    (n.decrHitCount 100).2 = {n with hitCount := hits} ∧
      ((n.decrHitCount 100).1 > 0 ∨ n.hitCount ≤ 100) := by
  rw [Node.decrHitCount]
  by_cases hzero : n.hitCount ≤ 0
  · rw [if_pos hzero]
    exact ⟨n.hitCount, rfl, .inr (Int16.le_trans hzero (by decide))⟩
  · rw [if_neg hzero]
    by_cases hlow : n.hitCount ≤ 100
    · exact ⟨_, rfl, .inr hlow⟩
    · refine ⟨_, rfl, .inl ?_⟩
      have hgt : 100 < n.hitCount.toInt := Int16.lt_iff_toInt_lt.mp (Int16.not_le.mp hlow)
      have hmax := n.hitCount.toInt_lt
      have hcalc : (n.hitCount - 100).toInt = n.hitCount.toInt - 100 := by
        rw [Int16.toInt_sub, show (100 : Int16).toInt = 100 from rfl]
        exact Int.bmod_eq_of_le_mul_two (by omega) (by omega)
      have hpos : (0 : Int16) < n.hitCount - 100 := by
        rw [Int16.lt_iff_toInt_lt, hcalc]
        exact Int.sub_pos_of_lt hgt
      simp only [if_neg hlow]
      exact hpos

/-- **One node of a decay**: its hit count falls; it may be queued, and a node without hits
is deleted. -/
theorem decayNode_cases (hbucket : c.buckets i = some l) (hrun : decayNode i a c = some (more, c')) :
    more = true ∧ ∃ hits l₁, l₁ = l.setNode a {l.node a with hitCount := hits} ∧
      ((∃ q, (q = c.lowQueue ∨ ∃ pushed, c.lowQueue.push ⟨i, c.bucketsGen i, (l.node a).key⟩ = some (pushed, q)) ∧
        c' = {c.setBucket i l₁ with lowQueue := q}) ∨
      (l.node a).hitCount ≤ 100 ∧ c' = {c.setBucket i (l₁.markDeleted a).2 with
        memoryUsed := c.memoryUsed - (freed (l₁.markDeleted a).1).toInt}) := by
  have hlist : c.bucket i = l := by rw [bucket, hbucket, Option.getD_some]
  obtain ⟨hits, hnode, hlow⟩ := decrHitCount_cases (l.node a)
  obtain ⟨count, hcount⟩ : ∃ count, ((l.node a).decrHitCount 100).1 = count := ⟨_, rfl⟩
  have hpair : (l.node a).decrHitCount 100 = (count, {l.node a with hitCount := hits}) :=
    Prod.ext hcount hnode
  rw [hcount] at hlow
  rw [decayNode, hlist, hpair] at hrun
  simp only at hrun
  have hafter : (c.setBucket i (l.setNode a {l.node a with hitCount := hits})).bucket i =
      l.setNode a {l.node a with hitCount := hits} := by
    rw [bucket, setBucket_self, Option.getD_some]
  by_cases hhigh : count > 100
  · rw [if_pos hhigh] at hrun
    cases hrun
    exact ⟨rfl, hits, _, rfl, .inl ⟨c.lowQueue, .inl rfl, rfl⟩⟩
  · rw [if_neg hhigh] at hrun
    by_cases hpos : count > 0
    · rw [if_pos hpos] at hrun
      obtain ⟨⟨pushed, q⟩, hpush, hreturn⟩ := Option.bind_eq_some_iff.mp hrun
      cases hreturn
      exact ⟨rfl, hits, _, rfl, .inl ⟨q, .inr ⟨pushed, hpush⟩, rfl⟩⟩
    · rw [if_neg hpos, hafter] at hrun
      have hle := hlow.resolve_left hpos
      have htwice : ∀ l', (c.setBucket i (l.setNode a {l.node a with hitCount := hits})).setBucket i l' =
          c.setBucket i l' := fun l' => by simp only [setBucket, Function.update_idem]
      simp only [htwice] at hrun
      by_cases hcharge : ((l.setNode a {l.node a with hitCount := hits}).markDeleted a).1 > 0
      · rw [if_pos hcharge] at hrun
        cases hrun
        refine ⟨rfl, hits, _, rfl, .inr ⟨hle, ?_⟩⟩
        rw [freed, if_pos hcharge]
        rfl
      · rw [if_neg hcharge] at hrun
        cases hrun
        refine ⟨rfl, hits, _, rfl, .inr ⟨hle, ?_⟩⟩
        rw [freed, if_neg hcharge, show (0 : Int32).toInt = 0 from rfl, Int.sub_zero]
        rfl

theorem decayOneBucket_cases (hrun : c.decayOneBucket i = some c') :
    c.buckets i = none ∧ c' = c ∨ ∃ l, c.buckets i = some l ∧
      AtomicSkipList.iterateLevel (bucket i) (decayNode i) (c.bucket i).size AtomicSkipList.head c =
        some c' := by
  rw [decayOneBucket] at hrun
  cases hbucket : c.buckets i with
  | none =>
    rw [if_pos (by rw [hbucket]; rfl)] at hrun
    cases hrun
    exact .inl ⟨rfl, rfl⟩
  | some l =>
    rw [if_neg (by rw [hbucket]; exact Bool.false_ne_true)] at hrun
    exact .inr ⟨l, rfl, hrun⟩

end Decay

/-! ### All buckets -/

section Buckets
variable {R : AtomicSkipList → Prop} {c c' : HashSkipCache} {i : Nat}

/-- What holds of all buckets still does when one is replaced. -/
theorem forall_setBucket (h : ∀ i l, c.buckets i = some l → R l) {l : AtomicSkipList} (hl : R l) :
    ∀ j m, (c.setBucket i l).buckets j = some m → R m := by
  intro j m hm
  by_cases hj : j = i
  · subst hj
    rw [setBucket_self] at hm
    cases hm
    exact hl
  · rw [setBucket_of_ne c l hj] at hm
    exact h j m hm

theorem forall_init (hmake : R AtomicSkipList.make) (capicity : Int) (bucketNum : Nat) :
    ∀ i l, (make capicity bucketNum).init.buckets i = some l → R l := by
  intro i l hl
  by_cases hi : i < bucketNum
  · have hsome : (make capicity bucketNum).init.buckets i = some AtomicSkipList.make := if_pos hi
    cases hl.symm.trans hsome
    exact hmake
  · have hnone : (make capicity bucketNum).init.buckets i = none := if_neg hi
    cases hl.symm.trans hnone

theorem get_keeps {key : Int64} {found : Option Handle} (h : ∀ i l, c.buckets i = some l → R l)
    (hget : ∀ l l', R l → l.get key = some (found, l') → R l')
    (hrun : c.get key = some (found, c')) : ∀ i l, c'.buckets i = some l → R l := by
  rcases get_cases hrun with ⟨-, -, rfl⟩ | ⟨l, l', hbucket, hfound, rfl⟩
  · exact h
  · exact forall_setBucket h (hget l l' (h _ l hbucket) hfound)

theorem compact_keeps {levels : Nat → Fin (maxLevel + 1)} (h : ∀ i l, c.buckets i = some l → R l)
    (hcompact : ∀ l new, R l → c.buckets i = some l → c.compactOneBucket i levels = some (some new) →
      R new)
    (hrun : c.call (.compact i levels) = some c') : ∀ i l, c'.buckets i = some l → R l := by
  rcases compact_cases hrun with rfl | ⟨l, new, hbucket, hnew, rfl⟩
  · exact h
  · exact forall_setBucket h (hcompact l new (h i l hbucket) hbucket hnew)

end Buckets

end HashSkipCache

end HyperCache.HashSkip
