import HyperCache.HashSkip.CacheSteps

/-! Whether the cache stays within its capacity.

`Insert` stores at once what fits beside `memory_used_`, and then it still does after the
call, as no old handle has a negative charge. What does not fit goes through `Evict`, which
says that there is room whatever it found, and adds to `memory_used_` what it frees. So the
capacity holds as long as everything fits (`run_within_capacity`). -/
namespace HyperCache.HashSkip

namespace AtomicSkipList

/-- All handles in the list are in `Q`. -/
structure Holds (Q : Handle → Prop) (l : AtomicSkipList) (as : List Nat) : Prop where
  formed : Formed l as
  handles : ∀ a ∈ as ++ [tail], ∀ handle ∈ (l.node a).handle, Q handle

section Holds
variable {Q : Handle → Prop} {l l' : AtomicSkipList} {as bs : List Nat} {a : Nat}

theorem make_holds (Q : Handle → Prop) : Holds Q make [] := by
  refine ⟨make_formed, fun a ha handle hhandle => ?_⟩
  rw [List.mem_singleton.mp ha, show (make.node tail).handle = none from by decide] at hhandle
  cases hhandle

/-- A node is replaced by one of the same shape, with its handle, another one or none. -/
theorem Holds.setNode (h : Holds Q l as) (ha : a ∈ as ++ [tail]) {n : Node}
    (hkey : n.key = (l.node a).key) (htop : n.topLevel = (l.node a).topLevel)
    (hlen : n.nexts.length = (l.node a).nexts.length)
    (hraw : ∀ level, (n.next level).raw = (l.next a level).raw) (hQ : ∀ handle ∈ n.handle, Q handle) :
    Holds Q (l.setNode a n) as := by
  refine ⟨h.formed.setNode ha hkey htop hlen hraw, fun b hb => ?_⟩
  by_cases heq : b = a
  · rw [heq, node_setNode_self]
    exact hQ
  · rw [node_setNode_of_ne l _ heq]
    exact h.handles b hb

theorem Holds.setHits (h : Holds Q l as) (ha : a ∈ as ++ [tail]) (hits : Int16) :
    Holds Q (l.setNode a {l.node a with hitCount := hits}) as :=
  h.setNode ha rfl rfl rfl (fun _ => rfl) (h.handles a ha)

theorem Holds.get (h : Holds Q l as) {key : Int64} {found : Option Handle}
    (hget : l.get key = some (found, l')) : Holds Q l' as := by
  obtain ⟨node, hnode, hreturn⟩ := Option.bind_eq_some_iff.mp hget
  rcases getNode_cases h.formed.listed key with ⟨a, ha, -, -, hfound⟩ | ⟨hnone, -⟩
  · cases hnode.symm.trans hfound
    cases hreturn
    rw [Node.incrHitCount]
    split
    · exact h.setHits ha (l.node a).hitCount
    · exact h.setHits ha _
  · cases hnode.symm.trans hnone
    cases hreturn
    exact h

/-- What `Insert` returns was in the list. -/
theorem Holds.insert (h : Holds Q l as) {key : Int64} {handle : Handle} (hQ : Q handle)
    (topLevel : Fin (maxLevel + 1)) {old : Option Handle}
    (hinsert : l.insert key (some handle) [topLevel.val] = some (old, l')) :
    (∀ x ∈ old, Q x) ∧ ∃ as', Holds Q l' as' := by
  rcases insert_cases h.formed.listed key handle (Nat.le_of_lt_succ topLevel.isLt) [] with
    ⟨a, ha, -, hfound⟩ | ⟨-, p, l₁, as', hin, hlinked⟩
  · cases hfound.symm.trans hinsert
    refine ⟨h.handles a ha, as, h.setNode ha rfl rfl rfl (fun _ => rfl) fun x hx => ?_⟩
    cases hx
    exact hQ
  · cases hlinked.symm.trans hinsert
    refine ⟨(fun x hx => nomatch hx), as', hin.formed h.formed, fun a ha x hx => ?_⟩
    by_cases hnew : a = l.size
    · rw [hnew, hin.new.2.1] at hx
      cases hx
      exact hQ
    · have hmem : a ∈ as ++ [tail] := by
        rcases List.mem_append.mp ha with hm | hm
        · exact List.mem_append_left _ (((hin.mem a).mp hm).resolve_left hnew)
        · exact List.mem_append_right _ hm
      rw [(hin.node a (List.mem_cons_of_mem _ hmem)).2.1] at hx
      exact h.handles a hmem x hx

theorem Holds.markNode (h : Holds Q l as) (ha : a ∈ as ++ [tail]) : Holds Q (l.markNode a).2 as := by
  obtain ⟨hkey, htop, hlen, hraw, hsame, -⟩ := markDeleted_shape (l.node a)
  rw [markNode_eq]
  refine h.setNode ha hkey htop hlen hraw fun x hx => ?_
  cases hmark : (l.node a).isMarked with
  | true =>
    rw [hsame hmark] at hx
    exact h.handles a ha x hx
  | false =>
    rw [(markDeleted_unmarked hmark).2] at hx
    cases hx

theorem Holds.markDeleted (h : Holds Q l as) (ha : a ∈ as ++ [tail]) : Holds Q (l.markDeleted a).2 as := by
  have hmarked := h.markNode ha
  rw [markDeleted_eq]
  exact ⟨hmarked.formed.congr rfl rfl rfl, hmarked.handles⟩

theorem Holds.copied (h : Holds Q l as) (hc : Copied l as l' bs) : Holds Q l' bs := by
  refine ⟨hc.formed, fun b hb x hx => ?_⟩
  rcases List.mem_append.mp hb with hm | hm
  · obtain ⟨-, a, ha, -, hentry, -⟩ := hc.live b hm
    rw [← hentry, entry] at hx
    split at hx
    · cases hx
    · exact h.handles a (List.mem_append_left _ ha) x hx
  · rw [List.mem_singleton.mp hm, hc.tail_handle] at hx
    cases hx

end Holds

end AtomicSkipList

namespace HashSkipCache
open AtomicSkipList (Holds)

/-- All handles in the cache are in `Q`. -/
def AllHold (Q : Handle → Prop) (c : HashSkipCache) : Prop :=
  ∀ i l, c.buckets i = some l → ∃ as, Holds Q l as

/-- The handle of the call, if it has one, is in `Q`. -/
def Call.Brings (Q : Handle → Prop) : Call → Prop
  | .insert _ handle _ => ∀ x ∈ handle, Q x
  | _ => True

/-- What the call inserts fits beside `memory_used_`. -/
def Fits (c : HashSkipCache) : Call → Prop
  | .insert _ handle _ => c.memoryUsed + (charge handle).toInt ≤ c.capicity
  | _ => True

instance (c : HashSkipCache) : DecidablePred c.Fits
  | .insert .. => inferInstanceAs (Decidable (_ ≤ _))
  | .decay _ => inferInstanceAs (Decidable True)
  | .get _ => inferInstanceAs (Decidable True)
  | .compact .. => inferInstanceAs (Decidable True)

section Steps
variable {Q : Handle → Prop} {c c' : HashSkipCache} {i : Nat} {l : AtomicSkipList} {as : List Nat}

theorem AllHold.setBucket (h : c.AllHold Q) (hl : Holds Q l as) : (c.setBucket i l).AllHold Q := by
  exact forall_setBucket (R := fun l => ∃ as, Holds Q l as) h ⟨as, hl⟩

/-- One entry of the queue. -/
theorem AllHold.evictOne (h : c.AllHold Q) {it : LowKey} {free : Int32}
    (hrun : c.evictOne it = some (free, c')) : c'.AllHold Q := by
  rcases evictOne_cases hrun with ⟨-, -, rfl⟩ | ⟨l, a, -, hbucket, hget, -, rfl⟩
  · exact h
  · obtain ⟨as, hl⟩ := h _ l hbucket
    rcases AtomicSkipList.getNode_cases hl.formed.listed it.key with ⟨b, hb, -, -, hfound⟩ | ⟨hnone, -⟩
    · cases hget.symm.trans hfound
      exact h.setBucket (hl.markNode hb)
    · cases hget.symm.trans hnone

theorem AllHold.evict (h : c.AllHold Q) {need : Int32} {enough : Bool}
    (hrun : c.evict need = some (enough, c')) : c'.AllHold Q := by
  obtain ⟨-, rest, hloop⟩ := evict_cases hrun
  refine evictLoop_keeps (I := AllHold Q) (fun hd _ => hd) ?_ h hloop
  intro d it q free d' hd _ _ hone
  exact AllHold.evictOne (c := {d with lowQueue := q}) hd hone

/-- `Insert` stores what it brings, and what it replaces was there. -/
theorem AllHold.store (h : c.AllHold Q) {key : Int64} {handle : Option Handle}
    {topLevel : Fin (maxLevel + 1)} {stored : Bool} (hQ : ∀ x ∈ handle, Q x)
    (hrun : c.store key handle [topLevel.val] = some (stored, c')) : c'.AllHold Q ∧
      (stored = true → ∃ old, (∀ x ∈ old, Q x) ∧
        c'.memoryUsed = c.memoryUsed + (charge handle - charge old).toInt ∧ c'.capicity = c.capicity) := by
  rcases store_cases hrun with ⟨-, rfl, rfl⟩ | ⟨l, old, l', hbucket, hinsert, -, rfl⟩
  · exact ⟨h, fun hfalse => nomatch hfalse⟩
  · obtain ⟨as, hl⟩ := h _ l hbucket
    cases handle with
    | none =>
      cases hinsert
      exact ⟨h.setBucket hl, fun _ => ⟨none, (fun x hx => nomatch hx), rfl, rfl⟩⟩
    | some handle =>
      obtain ⟨hold, as', hl'⟩ := hl.insert (hQ handle rfl) topLevel hinsert
      exact ⟨h.setBucket hl', fun _ => ⟨old, hold, rfl, rfl⟩⟩

theorem AllHold.decay (h : c.AllHold Q) (hrun : c.decayOneBucket i = some c') : c'.AllHold Q := by
  rcases decayOneBucket_cases hrun with ⟨-, rfl⟩ | ⟨l, hbucket, hiterate⟩
  · exact h
  · obtain ⟨as, hl⟩ := h i l hbucket
    refine (AtomicSkipList.iterateLevel_keeps as (fun _ d =>
      d.AllHold Q ∧ ∃ m, d.buckets i = some m ∧ Holds Q m as) ?_ ?_ ?_
        ⟨h, l, hbucket, hl⟩ hiterate).1.1
    · rintro visited d ⟨-, m, hm, hholds⟩
      rw [bucket, hm, Option.getD_some]
      exact ⟨hholds.formed.listed, hholds.formed.tail_null⟩
    · exact fun _ hI _ => hI
    · rintro visited a rest d more d' heq ⟨hd, m, hm, hholds⟩ hmark hnode
      have ha : a ∈ as ++ [AtomicSkipList.tail] :=
        List.mem_append_left _ (heq ▸ List.mem_append_right _ (List.mem_cons_self ..))
      obtain ⟨hmore, hits, m₁, rfl, hcases⟩ := decayNode_cases hm hnode
      have hholds₁ := hholds.setHits ha hits
      refine ⟨hmore, ?_⟩
      rcases hcases with ⟨q, -, rfl⟩ | ⟨-, rfl⟩
      · exact ⟨hd.setBucket hholds₁, _, setBucket_self .., hholds₁⟩
      · exact ⟨hd.setBucket (hholds₁.markDeleted ha), _, setBucket_self .., hholds₁.markDeleted ha⟩

/-- **The step lemma**: whatever the order of calls, the cache holds what was brought. -/
theorem AllHold.call (h : c.AllHold Q) {turn : Call} (hQ : turn.Brings Q)
    (hrun : c.call turn = some c') : c'.AllHold Q := by
  cases turn with
  | insert key handle topLevel =>
    obtain ⟨⟨stored, c₁⟩, hinsert, rfl⟩ := Option.map_eq_some_iff.mp hrun
    rcases insert_cases hinsert with ⟨-, -, rfl⟩ | ⟨-, hstore⟩ | ⟨-, c₂, hevict, hstore⟩
    · exact h
    · exact (h.store hQ hstore).1
    · exact ((h.evict hevict).store hQ hstore).1
  | get key =>
    obtain ⟨⟨found, c₁⟩, hget, rfl⟩ := Option.map_eq_some_iff.mp hrun
    refine get_keeps (R := fun l => ∃ as, Holds Q l as) h ?_ hget
    rintro l l' ⟨as, hl⟩ hfound
    exact ⟨as, hl.get hfound⟩
  | decay i => exact h.decay (Option.ite_none_right_eq_some.mp hrun).2
  | compact i levels =>
    refine compact_keeps (R := fun l => ∃ as, Holds Q l as) h ?_ hrun
    rintro l new ⟨as, hl⟩ hbucket hcompact
    obtain ⟨bs, hcopied⟩ := compactOneBucket_copied hl.formed hbucket hcompact
    exact ⟨bs, hl.copied hcopied⟩

theorem init_holds (Q : Handle → Prop) (capicity : Int) (bucketNum : Nat) :
    (make capicity bucketNum).init.AllHold Q := by
  exact forall_init (R := fun l => ∃ as, Holds Q l as) ⟨[], AtomicSkipList.make_holds Q⟩ capicity bucketNum

/-- The difference of two charges, none of them negative. -/
theorem toInt_charge_sub {handle old : Option Handle} (hnew : ∀ x ∈ handle, 0 < x.charge)
    (hold : ∀ x ∈ old, 0 < x.charge) :
    (charge handle - charge old).toInt = (charge handle).toInt - (charge old).toInt ∧
      0 ≤ (charge old).toInt := by
  have hpos : ∀ {o : Option Handle}, (∀ x ∈ o, 0 < x.charge) → 0 ≤ (charge o).toInt := by
    intro o ho
    cases o with
    | none => exact Int.le_refl 0
    | some x => exact Int.le_of_lt (Int32.lt_iff_toInt_lt.mp (ho x rfl))
  have h1 := hpos hnew
  have h2 := hpos hold
  have h3 := (charge handle).toInt_lt
  have h4 := (charge old).toInt_lt
  rw [Int32.toInt_sub]
  exact ⟨Int.bmod_eq_of_le_mul_two (by omega) (by omega), h2⟩

/-- What fits is stored within the capacity. -/
theorem insert_within {key : Int64} {handle : Option Handle} {topLevel : Fin (maxLevel + 1)}
    (h : c.AllHold fun x => 0 < x.charge) (hQ : ∀ x ∈ handle, 0 < x.charge)
    (hfits : c.memoryUsed + (charge handle).toInt ≤ c.capicity)
    (hrun : c.insert key handle [topLevel.val] = some (true, c')) : c'.memoryUsed ≤ c'.capicity := by
  rcases insert_cases hrun with ⟨-, hfalse, -⟩ | ⟨-, hstore⟩ | ⟨hfull, -⟩
  · cases hfalse
  · obtain ⟨old, hold, hmemory, hcap⟩ := (h.store hQ hstore).2 rfl
    obtain ⟨hsub, hpos⟩ := toInt_charge_sub hQ hold
    rw [hmemory, hcap, hsub]
    omega
  · omega

end Steps

/-- `Evict` would empty the queue before it has freed the charge. -/
def EvictFails (c : HashSkipCache) (need : Int32) : Prop :=
  ∃ rest c', evictLoop (c.lowQueue.size.toNat + 1) need c = some (rest, c') ∧ rest > 0

/-- **The capacity is enforced as long as every insertion fits**: in every run of calls with
handles of positive charge, each of whose insertions fits beside `memory_used_`. -/
theorem run_within_capacity {capicity : Int} {bucketNum : Nat} {calls : List Call} {c c' : HashSkipCache}
    {key : Int64} {handle : Option Handle} {topLevel : Fin (maxLevel + 1)} {stored : Bool}
    (hbrings : ∀ turn ∈ calls ++ [.insert key handle topLevel],
      turn.Brings fun x => 0 < x.charge ∧ x.charge.toInt ≤ capicity)
    (hrun : (make capicity bucketNum).init.run calls = some c)
    (hfits : Stepwise.Along call Fits (make capicity bucketNum).init
      (calls ++ [.insert key handle topLevel]))
    (hinsert : c.insert key handle [topLevel.val] = some (stored, c')) :
    (stored = true → c'.memoryUsed ≤ c'.capicity) ∧
      (c.memoryUsed + (charge handle).toInt > c.capicity → c.EvictFails (charge handle) →
        stored = false ∧ c' = c) := by
  have hpositive : ∀ turn ∈ calls, turn.Brings fun x => 0 < x.charge := by
    intro turn hturn
    have hb := hbrings turn (List.mem_append_left _ hturn)
    cases turn with
    | insert key handle topLevel => exact fun x hx => (hb x hx).1
    | _ => trivial
  have hall : c.AllHold fun x => 0 < x.charge :=
    Stepwise.run_keeps (P := fun _ turn => turn.Brings fun x => 0 < x.charge)
      (fun s turn t hs hturn hcall => hs.call hturn hcall) (init_holds _ capicity bucketNum)
      (Stepwise.along_of_mem (fun turn hturn _ => hpositive turn hturn) _) hrun
  have hlast : c.memoryUsed + (charge handle).toInt ≤ c.capicity := (hfits.append hrun).1
  refine ⟨fun htrue => ?_, fun hfull => absurd hlast (not_le.mpr hfull)⟩
  subst htrue
  refine insert_within hall (fun x hx => ?_) hlast hinsert
  exact (hbrings _ (List.mem_append_right _ (List.mem_singleton_self _)) x hx).1

/-- A key is replaced where there is just room for the new handle beside the old one. -/
theorem run_within_capacity_replaced : ∃ c c' stored, (make 10 2).init.run
      [.insert 1 (some ⟨10, 4⟩) 0, .decay 1] = some c ∧
    c.insert 1 (some ⟨11, 6⟩) [0] = some (stored, c') ∧
    ((stored = true → c'.memoryUsed ≤ c'.capicity) ∧
      (c.memoryUsed + (charge (some ⟨11, 6⟩)).toInt > c.capicity → c.EvictFails (charge (some ⟨11, 6⟩)) →
        stored = false ∧ c' = c)) := by
  have hany : ((make 10 2).init.run [.insert 1 (some ⟨10, 4⟩) 0, .decay 1]).any (fun c =>
      (c.insert 1 (some ⟨11, 6⟩) [0]).isSome) = true := by
    decide +kernel
  have hfits : Stepwise.Along call Fits (make 10 2).init
      ([.insert 1 (some ⟨10, 4⟩) 0, .decay 1] ++ [.insert 1 (some ⟨11, 6⟩) 0]) := by
    decide +kernel
  have hbrings : ∀ turn ∈ [Call.insert 1 (some ⟨10, 4⟩) 0, .decay 1] ++ [.insert 1 (some ⟨11, 6⟩) 0],
      turn.Brings fun x => 0 < x.charge ∧ x.charge.toInt ≤ 10 := by
    simp only [List.cons_append, List.nil_append, List.forall_mem_cons, Call.Brings, Option.mem_def,
      Option.some.injEq, forall_eq', List.not_mem_nil, false_imp_iff, implies_true, and_true]
    decide
  obtain ⟨c, hrun, hc⟩ := (Option.any_eq_true _ _).mp hany
  obtain ⟨⟨stored, c'⟩, hinsert⟩ := Option.isSome_iff_exists.mp hc
  exact ⟨c, c', stored, hrun, hinsert, run_within_capacity hbrings hrun hfits hinsert⟩

/-- Two handles that do not fit together, and an empty queue: `Evict` says that there is room,
and the second is stored beyond the capacity. -/
theorem insert_beyond_capacity : ¬ ∀ (capicity : Int) (bucketNum : Nat) (calls : List Call)
    (c c' : HashSkipCache) (key : Int64) (handle : Option Handle) (topLevel : Fin (maxLevel + 1)),
    (∀ turn ∈ calls ++ [.insert key handle topLevel],
      turn.Brings fun x => 0 < x.charge ∧ x.charge.toInt ≤ capicity) →
    (make capicity bucketNum).init.run calls = some c →
    c.insert key handle [topLevel.val] = some (true, c') → c'.memoryUsed ≤ c'.capicity := by
  intro hclaim
  have hany : ((make 10 1).init.run [.insert 1 (some ⟨10, 6⟩) 0]).any (fun c =>
      (c.insert 2 (some ⟨20, 6⟩) [0]).any fun r => r.1 = true ∧ ¬ r.2.memoryUsed ≤ r.2.capicity) = true := by
    decide +kernel
  have hbrings : ∀ turn ∈ [Call.insert 1 (some ⟨10, 6⟩) 0] ++ [.insert 2 (some ⟨20, 6⟩) 0],
      turn.Brings fun x => 0 < x.charge ∧ x.charge.toInt ≤ 10 := by
    simp only [List.cons_append, List.nil_append, List.forall_mem_cons, Call.Brings, Option.mem_def,
      Option.some.injEq, forall_eq', List.not_mem_nil, false_imp_iff, implies_true, and_true]
    decide
  obtain ⟨c, hrun, hc⟩ := (Option.any_eq_true _ _).mp hany
  obtain ⟨⟨stored, c'⟩, hinsert, hover⟩ := (Option.any_eq_true _ _).mp hc
  rw [decide_eq_true_eq] at hover
  obtain ⟨rfl, hover⟩ := hover
  exact hover (hclaim 10 1 _ c c' 2 _ 0 hbrings hrun hinsert)

end HashSkipCache

end HyperCache.HashSkip
