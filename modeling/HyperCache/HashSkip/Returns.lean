import HyperCache.HashSkip.Slots
import Mathlib.Logic.Relation

/-! Every call returns.

Between calls each bucket has a list in whose `tail_` there is no mark, and no entry of the
queue has the key of `tail_` (`Ready`). So every search finds its place, every iteration
comes to `tail_`, and each turn of `Evict` takes an entry from the queue: no call of any run
loops for ever or follows a null pointer, and no `Insert` fails (`run_calls_return`). -/
namespace HyperCache.HashSkip.HashSkipCache
open AtomicSkipList (Formed Listed Usable Copied shown head tail)

/-- What the cache has for a key. -/
def slot (c : HashSkipCache) (key : Int64) : Option (Bool × Option Handle) :=
  (c.buckets (c.bucketIndex key)).bind fun l => l.slot key

def keyMarked (c : HashSkipCache) (key : Int64) : Bool := (c.slot key).any Prod.fst

/-- Some keys lose their handle and are marked. -/
def Fades (c c' : HashSkipCache) : Prop :=
  ∀ key, c'.slot key = c.slot key ∨
    (∃ handle, c.slot key = some (false, handle)) ∧ c'.slot key = some (true, none)

/-- The handle is stored under the key; other keys may lose their mark. -/
structure Stored (c : HashSkipCache) (key : Int64) (handle : Handle) (c' : HashSkipCache) : Prop where
  self : c'.slot key = some (c.keyMarked key, some handle)
  other : ∀ k ≠ key, c'.slot k = c.slot k ∨
    ∃ handle, c.slot k = some (true, handle) ∧ c'.slot k = some (false, handle)

/-- A cache of `n` buckets between calls. -/
structure Ready (n : Nat) (c : HashSkipCache) : Prop where
  positive : 0 < n
  bucketNum : c.bucketNum = n
  buckets : ∀ i < n, ∃ l, c.buckets i = some l
  lists : ∀ i l, c.buckets i = some l → ∃ as, Usable l as
  queue : QueueOk c.lowQueue

/-- One turn of `Evict`: an entry is taken from the queue, or the node of its key marked. -/
inductive EvictStep (c : HashSkipCache) : HashSkipCache → Prop
  | pop (q : Util.Queue LowKey) (hq : QueueOk q) : EvictStep c {c with lowQueue := q}
  | mark (i : Nat) (l : AtomicSkipList) (as : List Nat) (a : Nat) (hbucket : c.buckets i = some l)
      (hl : Usable l as) (ha : a ∈ as) (hmark : (l.node a).isMarked = false) :
      EvictStep c {c.setBucket i (l.markNode a).2 with
        memoryUsed := c.memoryUsed + (freed (l.markNode a).1).toInt}

abbrev Evicts : HashSkipCache → HashSkipCache → Prop := Relation.ReflTransGen EvictStep

/-- The state in which `Insert` stores: after `Evict`, if the charge does not fit. -/
def room (c : HashSkipCache) (handle : Option Handle) : Option HashSkipCache :=
  if c.memoryUsed + (charge handle).toInt > c.capicity then (c.evict (charge handle)).map Prod.snd
  else some c

section Steps
variable {n : Nat} {c c' c'' : HashSkipCache} {i : Nat} {l l' : AtomicSkipList} {as : List Nat} {key : Int64}

theorem Fades.refl (c : HashSkipCache) : Fades c c := fun _ => .inl rfl

theorem Fades.trans (h : Fades c c') (h' : Fades c' c'') : Fades c c'' := by
  intro key
  rcases h' key with hsame | ⟨⟨handle, hlive⟩, hgone⟩
  · rcases h key with hkept | ⟨hlive, hgone⟩
    · exact .inl (hsame.trans hkept)
    · exact .inr ⟨hlive, hsame.trans hgone⟩
  · rcases h key with hkept | ⟨hwas, -⟩
    · exact .inr ⟨⟨handle, hkept.symm.trans hlive⟩, hgone⟩
    · exact .inr ⟨hwas, hgone⟩

theorem slot_setBucket (key : Int64) :
    (c.setBucket i l).slot key = if c.bucketIndex key = i then l.slot key else c.slot key := by
  have hindex : (c.setBucket i l).bucketIndex key = c.bucketIndex key := rfl
  rw [slot, hindex]
  split
  next heq => rw [heq, setBucket_self, Option.bind_some]
  next hne => rw [setBucket_of_ne c l hne, slot]

theorem slot_of_bucket (hbucket : c.buckets i = some l) (hi : c.bucketIndex key = i) :
    c.slot key = l.slot key := by
  rw [slot, hi, hbucket, Option.bind_some]

/-- What fades in one bucket fades in the cache. -/
theorem Fades.setBucket (hbucket : c.buckets i = some l) (h : AtomicSkipList.Fades l l') :
    Fades c (c.setBucket i l') := by
  intro key
  rw [slot_setBucket]
  split
  next hi =>
    rw [slot_of_bucket hbucket hi]
    exact h key
  next => exact .inl rfl

theorem Ready.setBucket (h : c.Ready n) (hl : Usable l as) : (c.setBucket i l).Ready n := by
  refine ⟨h.positive, h.bucketNum, fun j hj => ?_, ?_, h.queue⟩
  · by_cases hji : j = i
    · subst hji
      exact ⟨l, setBucket_self ..⟩
    · rw [setBucket_of_ne c l hji]
      exact h.buckets j hj
  · exact forall_setBucket (R := fun l => ∃ as, Usable l as) h.lists ⟨as, hl⟩

/-- The bucket of a key is there. -/
theorem Ready.bucket (h : c.Ready n) (key : Int64) :
    ∃ l as, c.buckets (c.bucketIndex key) = some l ∧ Usable l as := by
  have hindex : c.bucketIndex key < n := by
    rw [bucketIndex, h.bucketNum]
    exact Nat.mod_lt _ h.positive
  obtain ⟨l, hbucket⟩ := h.buckets _ hindex
  obtain ⟨as, hl⟩ := h.lists _ l hbucket
  exact ⟨l, as, hbucket, hl⟩

theorem init_ready (capicity : Int) {bucketNum : Nat} (hnum : 0 < bucketNum) :
    (make capicity bucketNum).init.Ready bucketNum := by
  refine ⟨hnum, rfl, fun i hi => ⟨AtomicSkipList.make, if_pos hi⟩, ?_, make_queueOk⟩
  exact forall_init (R := fun l => ∃ as, Usable l as) ⟨[], AtomicSkipList.make_usable⟩ capicity bucketNum

theorem init_slot (capicity : Int) (bucketNum : Nat) (key : Int64) :
    shown ((make capicity bucketNum).init.slot key) = none ∧
      ∀ b handle, (make capicity bucketNum).init.slot key ≠ some (b, some handle) := by
  have hmake : shown (AtomicSkipList.make.slot key) = none ∧
      ∀ b handle, AtomicSkipList.make.slot key ≠ some (b, some handle) := by
    by_cases hkey : key = Int64.maxValue
    · have htail := AtomicSkipList.slot_of_mem AtomicSkipList.make_listed (List.mem_singleton_self tail)
      have hself : AtomicSkipList.make.slot key = some (false, none) := by
        rw [hkey]
        exact htail
      rw [hself]
      exact ⟨rfl, fun _ _ h => by cases h⟩
    · have hnone : AtomicSkipList.make.slot key = none := by
        apply AtomicSkipList.slot_of_absent AtomicSkipList.make_listed
        intro a ha
        rw [List.mem_singleton.mp ha]
        exact Ne.symm hkey
      rw [hnone]
      exact ⟨rfl, fun _ _ h => by cases h⟩
  rw [slot]
  cases hbucket : (make capicity bucketNum).init.buckets ((make capicity bucketNum).init.bucketIndex key) with
  | none => exact ⟨rfl, fun _ _ h => by cases h⟩
  | some l =>
    have hl : l = AtomicSkipList.make :=
      forall_init (R := fun l => l = AtomicSkipList.make) rfl capicity bucketNum _ l hbucket
    rw [Option.bind_some, hl]
    exact hmake

/-! ### Evict -/

theorem EvictStep.ready (h : EvictStep c c') (hc : c.Ready n) : c'.Ready n := by
  cases h with
  | pop q hq => exact ⟨hc.positive, hc.bucketNum, hc.buckets, hc.lists, hq⟩
  | mark i l as a hbucket hl ha hmark =>
    have hset := hc.setBucket (i := i) (hl.markNode ha hmark).1
    exact ⟨hset.positive, hset.bucketNum, hset.buckets, hset.lists, hset.queue⟩

theorem EvictStep.fades (h : EvictStep c c') : Fades c c' := by
  cases h with
  | pop q hq => exact .refl c
  | mark i l as a hbucket hl ha hmark => exact Fades.setBucket hbucket (hl.markNode ha hmark).2

theorem Evicts.ready (h : Evicts c c') (hc : c.Ready n) : c'.Ready n := by
  induction h with
  | refl => exact hc
  | tail _ hstep ih => exact hstep.ready ih

theorem Evicts.fades (h : Evicts c c') : Fades c c' := by
  induction h with
  | refl => exact .refl c
  | tail _ hstep ih => exact ih.trans hstep.fades

/-- One entry of the queue. -/
theorem Ready.evictOne (h : c.Ready n) {it : LowKey} (hkey : it.key ≠ Int64.maxValue) :
    ∃ free c', c.evictOne it = some (free, c') ∧ Evicts c c' ∧ c'.lowQueue = c.lowQueue := by
  have hreturns : ∃ r, c.evictOne it = some r := by
    rw [HashSkipCache.evictOne]
    split
    · exact ⟨_, rfl⟩
    · cases hbucket : c.buckets it.bucketIndex with
      | none => exact ⟨_, rfl⟩
      | some l =>
        obtain ⟨as, hl⟩ := h.lists _ l hbucket
        rcases AtomicSkipList.getNode_cases hl.formed.listed it.key with ⟨a, -, -, -, hget⟩ | ⟨hget, -⟩
        · simp only [hget, Option.bind_eq_bind, Option.bind_some]
          split <;> exact ⟨_, rfl⟩
        · simp only [hget, Option.bind_eq_bind, Option.bind_some]
          exact ⟨_, rfl⟩
  obtain ⟨⟨free, c'⟩, hrun⟩ := hreturns
  refine ⟨free, c', hrun, ?_⟩
  rcases evictOne_cases hrun with ⟨-, -, rfl⟩ | ⟨l, a, -, hbucket, hget, -, rfl⟩
  · exact ⟨.refl, rfl⟩
  · obtain ⟨as, hl⟩ := h.lists _ l hbucket
    rcases AtomicSkipList.getNode_cases hl.formed.listed it.key with
      ⟨b, hb, hbkey, hmark, hfound⟩ | ⟨hnone, -⟩
    · cases hget.symm.trans hfound
      have ha : a ∈ as := by
        rcases List.mem_append.mp hb with hm | hm
        · exact hm
        · rw [List.mem_singleton.mp hm, hl.formed.listed.tail_key] at hbkey
          exact absurd hbkey.symm hkey
      exact ⟨.single (.mark _ l as a hbucket hl ha hmark), rfl⟩
    · cases hget.symm.trans hnone

/-- The loop ends with the queue. -/
theorem Ready.evictLoop (h : c.Ready n) {fuel : Nat} (hfuel : c.lowQueue.size < fuel) (need : Int32) :
    ∃ rest c', HashSkipCache.evictLoop fuel need c = some (rest, c') ∧ Evicts c c' := by
  induction fuel generalizing c need with
  | zero =>
    obtain ⟨held, hheld, -⟩ := h.queue
    rw [hheld.size] at hfuel
    omega
  | succ fuel ih =>
    rw [HashSkipCache.evictLoop]
    by_cases hmore : need > 0 ∧ c.lowQueue.size > 0
    · rw [if_pos hmore]
      obtain ⟨it, q, hpop, hq, hkey, hsize⟩ := h.queue.pop hmore.2
      have htaken : EvictStep c {c with lowQueue := q} := .pop q hq
      obtain ⟨free, c₁, hone, hevicts, hqueue⟩ := (htaken.ready h).evictOne hkey
      have hready := hevicts.ready (htaken.ready h)
      have hsize₁ : c₁.lowQueue.size < fuel := by
        rw [hqueue, hsize]
        push_cast at hfuel
        omega
      obtain ⟨rest, c', hrest, hevicts'⟩ := ih hready hsize₁ (need - free)
      refine ⟨rest, c', ?_, .head htaken (hevicts.trans hevicts')⟩
      simp only [hpop, hone, Option.bind_eq_bind, Option.bind_some, hrest]
    · rw [if_neg hmore]
      exact ⟨need, c, rfl, .refl⟩

theorem Ready.evict (h : c.Ready n) (need : Int32) :
    ∃ c', c.evict need = some (true, c') ∧ Evicts c c' := by
  have hfuel : c.lowQueue.size < (c.lowQueue.size.toNat + 1 : Nat) := by omega
  obtain ⟨rest, c', hloop, hevicts⟩ := h.evictLoop hfuel need
  refine ⟨c', ?_, hevicts⟩
  rw [HashSkipCache.evict, hloop]
  rfl

theorem Ready.room (h : c.Ready n) (handle : Option Handle) :
    ∃ c₁, c.room handle = some c₁ ∧ Evicts c c₁ := by
  rw [HashSkipCache.room]
  split
  · obtain ⟨c₁, hevict, hevicts⟩ := h.evict (charge handle)
    exact ⟨c₁, by rw [hevict]; rfl, hevicts⟩
  · exact ⟨c, rfl, .refl⟩

/-! ### The calls -/

/-- **`Get`** returns what is shown. -/
theorem Ready.get (h : c.Ready n) (key : Int64) :
    ∃ c', c.get key = some (shown (c.slot key), c') ∧ c'.Ready n ∧ c'.slot = c.slot := by
  obtain ⟨l, as, hbucket, hl⟩ := h.bucket key
  obtain ⟨l', hget, hl', hslot⟩ := hl.get key
  refine ⟨c.setBucket (c.bucketIndex key) l', ?_, h.setBucket hl', ?_⟩
  · rw [HashSkipCache.get, hbucket, slot_of_bucket hbucket rfl]
    simp only [hget, Option.bind_eq_bind, Option.bind_some]
    rfl
  · funext k
    rw [slot_setBucket]
    split
    next hi => rw [hslot, slot_of_bucket hbucket hi]
    next => rfl

/-- What `Insert` does once there is room. -/
theorem Ready.store (h : c.Ready n) (key : Int64) (handle : Option Handle) (topLevel : Fin (maxLevel + 1)) :
    ∃ c', c.store key handle [topLevel.val] = some (true, c') ∧ c'.Ready n ∧
      match handle with
      | none => c'.slot = c.slot
      | some handle => Stored c key handle c' := by
  obtain ⟨l, as, hbucket, hl⟩ := h.bucket key
  cases handle with
  | none =>
    refine ⟨{c.setBucket (c.bucketIndex key) l with memoryUsed := c.memoryUsed + (0 : Int32).toInt}, ?_, ?_, ?_⟩
    · rw [HashSkipCache.store, hbucket]
      rfl
    · have hset := h.setBucket (i := c.bucketIndex key) hl
      exact ⟨hset.positive, hset.bucketNum, hset.buckets, hset.lists, hset.queue⟩
    · funext k
      have hself := slot_setBucket (c := c) (i := c.bucketIndex key) (l := l) k
      refine hself.trans ?_
      split
      next hi => rw [slot_of_bucket hbucket hi]
      next => rfl
  | some handle =>
    obtain ⟨old, l', as', hinsert, hl', hstored⟩ := hl.insert key handle topLevel
    refine ⟨{c.setBucket (c.bucketIndex key) l' with
      memoryUsed := c.memoryUsed + (charge (some handle) - charge old).toInt}, ?_, ?_, ?_, fun k hk => ?_⟩
    · rw [HashSkipCache.store, hbucket]
      simp only [hinsert, Option.bind_eq_bind, Option.bind_some]
      cases old with
      | none =>
        have hzero : charge (some handle) - charge none = charge (some handle) := Int32.sub_zero _
        rw [hzero]
        rfl
      | some old => rfl
    · have hset := h.setBucket (i := c.bucketIndex key) hl'
      exact ⟨hset.positive, hset.bucketNum, hset.buckets, hset.lists, hset.queue⟩
    · have hself := slot_setBucket (c := c) (i := c.bucketIndex key) (l := l') key
      rw [if_pos rfl, hstored.self, AtomicSkipList.keyMarked_eq_slot] at hself
      rw [keyMarked, slot_of_bucket hbucket rfl]
      exact hself
    · have hself := slot_setBucket (c := c) (i := c.bucketIndex key) (l := l') k
      have hrest := hstored.other k hk
      by_cases hi : c.bucketIndex k = c.bucketIndex key
      · rw [if_pos hi] at hself
        rw [slot_of_bucket hbucket hi]
        rcases hrest with hsame | ⟨x, hwas, his⟩
        · exact .inl (hself.trans hsame)
        · exact .inr ⟨x, hwas, hself.trans his⟩
      · rw [if_neg hi] at hself
        exact .inl hself

/-- **`Insert`** makes room and stores. -/
theorem Ready.insert (h : c.Ready n) (key : Int64) (handle : Option Handle) (topLevel : Fin (maxLevel + 1)) :
    ∃ c₁ c', c.room handle = some c₁ ∧ Evicts c c₁ ∧ c₁.store key handle [topLevel.val] = some (true, c') ∧
      c.insert key handle [topLevel.val] = some (true, c') := by
  obtain ⟨c₁, hroom, hevicts⟩ := h.room handle
  obtain ⟨c', hstore, -⟩ := (hevicts.ready h).store key handle topLevel
  refine ⟨c₁, c', hroom, hevicts, hstore, ?_⟩
  obtain ⟨l, as, hbucket, -⟩ := h.bucket key
  rw [HashSkipCache.insert, if_neg (by rw [hbucket]; exact Bool.false_ne_true)]
  rw [HashSkipCache.room] at hroom
  split at hroom
  next hfull =>
    obtain ⟨⟨enough, c₂⟩, hevict, heq⟩ := Option.map_eq_some_iff.mp hroom
    obtain ⟨rfl, -⟩ := evict_cases hevict
    cases heq
    rw [if_pos hfull, hevict]
    exact hstore
  next hfits =>
    cases hroom
    rw [if_neg hfits]
    exact hstore

/-- **A decay** returns. -/
theorem Ready.decay (h : c.Ready n) (i : Nat) :
    ∃ c', c.decayOneBucket i = some c' ∧ c'.Ready n ∧ Fades c c' := by
  cases hbucket : c.buckets i with
  | none =>
    refine ⟨c, ?_, h, .refl c⟩
    rw [decayOneBucket, if_pos (by rw [hbucket]; rfl)]
  | some l =>
    obtain ⟨as, hl⟩ := h.lists i l hbucket
    obtain ⟨q, num, hdecay, hq⟩ := decay_spec hl.formed hl.tail_unmarked hbucket h.queue
    obtain ⟨haged, hfades⟩ := hl.aged
    have hcounted : Usable {l.aged as with markedDeletedNum := num} as := haged.congr rfl rfl rfl
    have hset := h.setBucket (i := i) hcounted
    refine ⟨_, hdecay, ⟨hset.positive, hset.bucketNum, hset.buckets, hset.lists, hq⟩, ?_⟩
    have hsame : ({l.aged as with markedDeletedNum := num} : AtomicSkipList).slot = (l.aged as).slot :=
      AtomicSkipList.slot_congr haged.formed.listed rfl rfl
    refine Fades.setBucket hbucket fun key => ?_
    rw [hsame]
    exact hfades key

/-- A copy of a node into a new list. -/
theorem copyNode_returns (levels : Nat → Fin (maxLevel + 1)) (bucket : AtomicSkipList) (a : Nat) {bs : List Nat}
    (hl : Usable l bs) : ∃ l', copyNode levels bucket a l = some (true, l') ∧ ∃ bs', Usable l' bs' := by
  rw [copyNode]
  cases hhandle : (bucket.node a).handle with
  | none => exact ⟨l, rfl, bs, hl⟩
  | some handle =>
    obtain ⟨old, l', bs', hinsert, hl', -⟩ := hl.insert (bucket.node a).key handle (levels a)
    refine ⟨l', ?_, bs', hl'⟩
    rw [hinsert]
    rfl

/-- **A compaction** returns; a new bucket is a copy of the old one. -/
theorem Ready.compact (h : c.Ready n) (i : Nat) (levels : Nat → Fin (maxLevel + 1)) :
    ∃ result, c.compactOneBucket i levels = some result ∧ ∀ new ∈ result, ∃ l as bs,
      c.buckets i = some l ∧ Usable l as ∧ Copied l as new bs ∧ Usable new bs := by
  rw [compactOneBucket]
  cases hbucket : c.buckets i with
  | none => exact ⟨none, rfl, fun _ hnew => absurd hnew (Option.not_mem_none _)⟩
  | some l =>
    obtain ⟨as, hl⟩ := h.lists i l hbucket
    cases hsparse : sparse l with
    | true =>
      simp only [hsparse, if_true]
      exact ⟨none, rfl, fun _ hnew => absurd hnew (Option.not_mem_none _)⟩
    | false =>
      have hfuel : as.length < l.size := by
        have hlen := hl.formed.listed.length_le
        omega
      have hpass : ∃ new, AtomicSkipList.iterateLevel (fun _ => l) (copyNode levels l) l.size head
          AtomicSkipList.make = some new ∧ ∃ bs, Copied l as new bs ∧ Usable new bs := by
        refine AtomicSkipList.iterateLevel_returns as
          (fun visited new => ∃ bs, Copied l visited new bs ∧ Usable new bs) ?_ ?_ ?_
          ⟨[], AtomicSkipList.make_copied l, AtomicSkipList.make_usable⟩ hfuel
        · exact fun _ => ⟨hl.formed.listed, hl.tail_unmarked⟩
        · rintro visited a rest new - ⟨bs, hcopied, hnew⟩ hmark
          exact ⟨bs, hcopied.skip (if_pos hmark), hnew⟩
        · rintro visited a rest new heq ⟨bs, hcopied, hnew⟩ hmark
          obtain ⟨new', hcopy, bs', hnew'⟩ := copyNode_returns levels l a hnew
          obtain ⟨-, bs'', hcopied'⟩ := copyNode_copied hl.formed.listed heq hcopied hmark hcopy
          have hsame : bs' = bs'' := by
            rw [← hnew'.formed.listed.nodes_eq, hcopied'.formed.listed.nodes_eq]
          exact ⟨new', hcopy, bs'', hcopied', hsame ▸ hnew'⟩
      obtain ⟨new, hrun, bs, hcopied, hnew⟩ := hpass
      refine ⟨some new, ?_, fun x hx => ?_⟩
      · simp only [hsparse, hrun, Option.bind_eq_bind, Option.bind_some]
        rfl
      · cases hx
        exact ⟨l, as, bs, rfl, hl, hcopied, hnew⟩

end Steps

/-! ### Runs -/

/-- The threads of the cache go through its own buckets. -/
def Call.InRange (bucketNum : Nat) : Call → Prop
  | .decay i => i < bucketNum
  | .compact i _ => i < bucketNum
  | _ => True

instance (bucketNum : Nat) : DecidablePred (Call.InRange bucketNum)
  | .insert .. | .get _ => isTrue trivial
  | .decay i => inferInstanceAs (Decidable (i < bucketNum))
  | .compact i _ => inferInstanceAs (Decidable (i < bucketNum))

/-- **The step lemma**: a call returns, and leaves a cache that is ready for the next. -/
theorem Ready.call {n : Nat} {c : HashSkipCache} (h : c.Ready n) {turn : Call} (hrange : turn.InRange n) :
    ∃ c', c.call turn = some c' ∧ c'.Ready n := by
  cases turn with
  | insert key handle topLevel =>
    obtain ⟨c₁, c', -, hevicts, hstore, hinsert⟩ := h.insert key handle topLevel
    obtain ⟨c'', hstore', hready, -⟩ := (hevicts.ready h).store key handle topLevel
    cases hstore.symm.trans hstore'
    exact ⟨c', Option.map_eq_some_iff.mpr ⟨_, hinsert, rfl⟩, hready⟩
  | get key =>
    obtain ⟨c', hget, hready, -⟩ := h.get key
    exact ⟨c', Option.map_eq_some_iff.mpr ⟨_, hget, rfl⟩, hready⟩
  | decay i =>
    obtain ⟨c', hdecay, hready, -⟩ := h.decay i
    have hi : i < c.bucketNum := by rw [h.bucketNum]; exact hrange
    exact ⟨c', by rw [HashSkipCache.call, if_pos hi, hdecay], hready⟩
  | compact i levels =>
    obtain ⟨result, hcompact, hcopy⟩ := h.compact i levels
    have hi : i < c.bucketNum := by rw [h.bucketNum]; exact hrange
    rw [HashSkipCache.call, if_pos hi, hcompact]
    cases result with
    | none => exact ⟨c, rfl, h⟩
    | some new =>
      obtain ⟨l, as, bs, -, -, -, hnew⟩ := hcopy new rfl
      have hset := h.setBucket (i := i) hnew
      exact ⟨c.swap i new, rfl, hset.positive, hset.bucketNum, hset.buckets, hset.lists, hset.queue⟩

/-- So does a run of such calls. -/
theorem Ready.run {n : Nat} {c : HashSkipCache} (h : c.Ready n) {calls : List Call}
    (hcalls : ∀ call ∈ calls, call.InRange n) : ∃ c', c.run calls = some c' ∧ c'.Ready n := by
  induction calls generalizing c with
  | nil => exact ⟨c, rfl, h⟩
  | cons call calls ih =>
    obtain ⟨c₁, hcall, hc₁⟩ := h.call (hcalls call (List.mem_cons_self ..))
    obtain ⟨c', hrest, hc'⟩ := ih hc₁ fun call hmem => hcalls call (List.mem_cons_of_mem _ hmem)
    exact ⟨c', Stepwise.run_cons.mpr ⟨c₁, hcall, hrest⟩, hc'⟩

/-- **Every call of every run returns**, and every `Insert` returns true. -/
theorem run_calls_return (capicity : Int) {bucketNum : Nat} (hnum : 0 < bucketNum) (calls : List Call)
    (hcalls : ∀ call ∈ calls, call.InRange bucketNum) : ∃ c, (make capicity bucketNum).init.run calls = some c ∧
      ∀ key handle (topLevel : Fin (maxLevel + 1)), ∃ c', c.insert key handle [topLevel.val] = some (true, c') := by
  obtain ⟨c, hc, hready⟩ := (init_ready capicity hnum).run hcalls
  refine ⟨c, hc, fun key handle topLevel => ?_⟩
  obtain ⟨c₁, c', -, -, -, hinsert⟩ := hready.insert key handle topLevel
  exact ⟨c', hinsert⟩

/-- Two entries of one bucket decay, one is evicted for a third, and the bucket is compacted. -/
theorem run_calls_return_evicting : ∃ c, (make 10 2).init.run [.insert 0 (some ⟨1, 4⟩) 0, .insert 2 (some ⟨2, 4⟩) 3,
      .decay 0, .insert 4 (some ⟨3, 5⟩) 1, .get 2, .decay 0, .compact 0 (fun _ => 1)] = some c ∧
    ∀ key handle (topLevel : Fin (maxLevel + 1)), ∃ c', c.insert key handle [topLevel.val] = some (true, c') :=
  run_calls_return 10 (by decide) _ (by decide)

end HyperCache.HashSkip.HashSkipCache
