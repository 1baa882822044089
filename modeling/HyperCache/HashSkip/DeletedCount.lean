import HyperCache.HashSkip.CacheSteps

/-! The number of deleted nodes that a bucket counts.

`AtomicSkipList::MarkDeleted` counts a node that it took a positive charge from. Three
things make the counter wrong: `Evict` marks its victims through `Node::MarkDeleted`, past
the counter; a node of no charge is deleted uncounted; and an insertion behind a marked
node takes its mark back. A run without these counts exactly (`run_counts_exactly`). -/
namespace HyperCache.HashSkip

namespace AtomicSkipList

/-- The counter is the number of marked nodes. -/
structure Counted (l : AtomicSkipList) (as : List Nat) : Prop where
  formed : Formed l as
  exact : l.markedDeletedNum = as.countP fun a => (l.node a).isMarked

section Counted
variable {l l' : AtomicSkipList} {as as' bs : List Nat} {a : Nat}

theorem make_counted : Counted make [] := ⟨make_formed, rfl⟩

/-- No mark changes, and the counter neither. -/
theorem Counted.congr (h : Counted l as) (hf : Formed l' as)
    (hmarks : ∀ a ∈ as, (l'.node a).isMarked = (l.node a).isMarked)
    (hnum : l'.markedDeletedNum = l.markedDeletedNum) : Counted l' as := by
  refine ⟨hf, hnum.trans (h.exact.trans (List.countP_congr fun a ha => ?_))⟩
  rw [hmarks a ha]

/-- A node's handle or hit count changes. -/
theorem Counted.setNode (h : Counted l as) (ha : a ∈ as ++ [tail]) (handle : Option Handle) (hits : Int16) :
    Counted (l.setNode a {l.node a with handle := handle, hitCount := hits}) as := by
  refine h.congr (h.formed.setNode ha rfl rfl rfl fun _ => rfl) (fun b _ => ?_) rfl
  by_cases hb : b = a
  · rw [hb, node_setNode_self]
    rfl
  · rw [node_setNode_of_ne l _ hb]

theorem Counted.get (h : Counted l as) {key : Int64} {found : Option Handle}
    (hget : l.get key = some (found, l')) : Counted l' as := by
  obtain ⟨node, hnode, hreturn⟩ := Option.bind_eq_some_iff.mp hget
  rcases getNode_cases h.formed.listed key with ⟨a, ha, -, -, hfound⟩ | ⟨hnone, -⟩
  · cases hnode.symm.trans hfound
    cases hreturn
    rw [Node.incrHitCount]
    split
    · exact h.setNode ha (l.node a).handle (l.node a).hitCount
    · exact h.setNode ha (l.node a).handle _
  · cases hnode.symm.trans hnone
    cases hreturn
    exact h

/-- An insertion that takes no mark away. -/
theorem Counted.insert (h : Counted l as) {key : Int64} {handle : Handle} (hr : ¬ l.Revives key)
    (topLevel : Fin (maxLevel + 1)) {old : Option Handle}
    (hinsert : l.insert key (some handle) [topLevel.val] = some (old, l')) : ∃ as', Counted l' as' := by
  rcases insert_cases h.formed.listed key handle (Nat.le_of_lt_succ topLevel.isLt) [] with
    ⟨a, ha, -, hfound⟩ | ⟨-, p, l₁, as', hin, hlinked⟩
  · cases hfound.symm.trans hinsert
    exact ⟨as, h.setNode ha (some handle) (l.node a).hitCount⟩
  · cases hlinked.symm.trans hinsert
    refine ⟨as', hin.formed h.formed, ?_⟩
    have hmarks : as.countP (fun a => (l'.node a).isMarked) = as.countP fun a => (l.node a).isMarked := by
      refine List.countP_congr fun a ha => ?_
      rw [hin.marks_of_tame h.formed hr (List.mem_append_left _ (List.mem_cons_of_mem _ ha))]
    rw [(hin.perm h.formed.listed).countP_eq, List.countP_cons_of_neg (by rw [hin.new.2.2]; decide),
      hmarks, hin.markedDeletedNum, h.exact]

/-- A node of positive charge is deleted, and counted. -/
theorem Counted.markDeleted (h : Counted l as) (ha : a ∈ as) (hmark : (l.node a).isMarked = false)
    (hcharge : 0 < ((l.node a).handle.map Handle.charge).getD 0) : Counted (l.markDeleted a).2 as := by
  obtain ⟨hkey, htop, hlen, hraw, -, hmarked⟩ := markDeleted_shape (l.node a)
  have hpos : 0 < (l.node a).nexts.length := by
    rw [h.formed.listed.lengths a (List.mem_cons_of_mem _ ha)]
    omega
  have hformed := h.formed.setNode (List.mem_append_left _ ha) hkey htop hlen hraw
  rw [markDeleted_eq, markNode_eq, (markDeleted_unmarked hmark).1, if_pos hcharge]
  refine ⟨hformed.congr rfl rfl rfl, ?_⟩
  have hothers : (as.erase a).countP (fun b => ((l.setNode a (l.node a).markDeleted.2).node b).isMarked) =
      (as.erase a).countP fun b => (l.node b).isMarked := by
    refine List.countP_congr fun b hb => ?_
    rw [node_setNode_of_ne l _ (h.formed.listed.nodup.mem_erase_iff.mp hb).1]
  have hperm := List.perm_cons_erase ha
  rw [hperm.countP_eq, List.countP_cons_of_pos (by rw [node_setNode_self]; exact hmarked hpos)]
  rw [hothers, h.exact, hperm.countP_eq, List.countP_cons_of_neg (by rw [hmark]; decide)]

/-- No copy is deleted. -/
theorem Copied.counted (h : Copied l as l' bs) : Counted l' bs := by
  refine ⟨h.formed, h.unmarked.trans (List.countP_eq_zero.mpr fun b hb => ?_).symm⟩
  rw [(h.live b hb).1]
  exact Bool.false_ne_true

end Counted

end AtomicSkipList

namespace HashSkipCache
open AtomicSkipList (Counted node_setNode_of_ne node_setNode_self)

/-- Every bucket counts exactly. -/
def AllCounted (c : HashSkipCache) : Prop := ∀ i l, c.buckets i = some l → ∃ as, Counted l as

/-- The call marks no node uncounted, and takes no mark away. -/
def Counts (c : HashSkipCache) : Call → Prop
  | .insert key handle _ =>
    (charge handle > 0 → c.memoryUsed + (charge handle).toInt > c.capicity →
      ∀ it ∈ c.entries, c.evictable it = false) ∧
    (handle ≠ none → ∀ l ∈ c.buckets (c.bucketIndex key), ¬ l.Revives key)
  | .decay i => ∀ l ∈ c.buckets i, ∀ a ∈ l.nodes, (l.node a).isMarked = false →
    (l.node a).hitCount ≤ 100 → charge (l.node a).handle > 0
  | _ => True

instance (c : HashSkipCache) : DecidablePred c.Counts
  | .insert .. => inferInstanceAs (Decidable (_ ∧ _))
  | .decay _ => inferInstanceAs (Decidable (∀ l ∈ _, _))
  | .get _ => inferInstanceAs (Decidable True)
  | .compact .. => inferInstanceAs (Decidable True)

section Steps
variable {c c' : HashSkipCache} {i : Nat} {l : AtomicSkipList} {as : List Nat}

theorem AllCounted.setBucket (h : c.AllCounted) (hl : Counted l as) : (c.setBucket i l).AllCounted := by
  exact forall_setBucket (R := fun l => ∃ as, Counted l as) h ⟨as, hl⟩

/-- With no entry to evict, `Evict` empties the queue and does nothing else. -/
theorem evict_idle {need : Int32} {enough : Bool}
    (hidle : need > 0 → ∀ it ∈ c.entries, c.evictable it = false)
    (hrun : c.evict need = some (enough, c')) : ∃ q, c' = {c with lowQueue := q} := by
  obtain ⟨-, rest, hloop⟩ := evict_cases hrun
  by_cases hneed : need > 0
  · have hkeeps := evictLoop_keeps (I := fun d => (∃ q, d = {c with lowQueue := q}) ∧
        ∀ it ∈ d.entries, c.evictable it = false) ?_ ?_ ⟨⟨c.lowQueue, rfl⟩, hidle hneed⟩ hloop
    · exact hkeeps.1
    · rintro d q ⟨⟨q', rfl⟩, hentries⟩ hpop
      refine ⟨⟨q, rfl⟩, ?_⟩
      rw [Util.Queue.pop] at hpop
      split at hpop
      · cases hpop
      · split at hpop
        · cases hpop
          exact hentries
        · cases hpop
    · rintro d it q free d' ⟨⟨q', rfl⟩, hentries⟩ hsize hpop hone
      obtain ⟨hit, hrest⟩ := pop_entries hsize hpop
      have hdead : ({c with lowQueue := q} : HashSkipCache).evictable it = false := hentries it hit
      rcases evictOne_cases hone with ⟨-, -, rfl⟩ | ⟨_, _, hlive, -⟩
      · exact ⟨⟨q, rfl⟩, fun x hx => hentries x (hrest x hx)⟩
      · rw [hdead] at hlive
        cases hlive
  · rw [evictLoop, if_neg fun hmore => hneed hmore.1] at hloop
    cases hloop
    exact ⟨c.lowQueue, rfl⟩

theorem AllCounted.store (h : c.AllCounted) {key : Int64} {handle : Option Handle}
    {topLevel : Fin (maxLevel + 1)} {stored : Bool}
    (hr : handle ≠ none → ∀ l ∈ c.buckets (c.bucketIndex key), ¬ l.Revives key)
    (hrun : c.store key handle [topLevel.val] = some (stored, c')) : c'.AllCounted := by
  rcases store_cases hrun with ⟨-, -, rfl⟩ | ⟨l, old, l', hbucket, hinsert, -, rfl⟩
  · exact h
  · obtain ⟨as, hl⟩ := h _ l hbucket
    cases handle with
    | none =>
      cases hinsert
      exact h.setBucket hl
    | some handle =>
      obtain ⟨as', hl'⟩ := hl.insert (hr (Option.some_ne_none _) l hbucket) topLevel hinsert
      exact h.setBucket hl'

theorem AllCounted.decay (h : c.AllCounted)
    (hcharges : ∀ l ∈ c.buckets i, ∀ a ∈ l.nodes, (l.node a).isMarked = false →
      (l.node a).hitCount ≤ 100 → charge (l.node a).handle > 0)
    (hrun : c.decayOneBucket i = some c') : c'.AllCounted := by
  rcases decayOneBucket_cases hrun with ⟨-, rfl⟩ | ⟨l, hbucket, hiterate⟩
  · exact h
  · obtain ⟨as, hl⟩ := h i l hbucket
    have hcharges := hcharges l hbucket
    rw [hl.formed.listed.nodes_eq] at hcharges
    -- the nodes not visited are those of the list that was loaded
    refine (AtomicSkipList.iterateLevel_keeps as (fun visited d =>
      d.AllCounted ∧ ∃ m, d.buckets i = some m ∧ Counted m as ∧
        ∀ a ∈ as, a ∉ visited → m.node a = l.node a) ?_ ?_ ?_
        ⟨h, l, hbucket, hl, fun _ _ _ => rfl⟩ hiterate).1.1
    · rintro visited d ⟨-, m, hm, hcounted, -⟩
      rw [bucket, hm, Option.getD_some]
      exact ⟨hcounted.formed.listed, hcounted.formed.tail_null⟩
    · rintro visited a rest d heq ⟨hd, m, hm, hcounted, hsame⟩ -
      exact ⟨hd, m, hm, hcounted, fun b hb hnot => hsame b hb fun hmem =>
        hnot (List.mem_append_left _ hmem)⟩
    · rintro visited a rest d more d' heq ⟨hd, m, hm, hcounted, hsame⟩ hmark hnode
      rw [bucket, hm, Option.getD_some] at hmark
      have ha : a ∈ as := heq ▸ List.mem_append_right _ (List.mem_cons_self ..)
      have hfresh : a ∉ visited := by
        have hnodup := hl.formed.listed.nodup
        rw [heq, List.nodup_append] at hnodup
        exact fun hmem => hnodup.2.2 a hmem a (List.mem_cons_self ..) rfl
      obtain ⟨hmore, hits, m₁, rfl, hcases⟩ := decayNode_cases hm hnode
      have hcounted₁ := hcounted.setNode (List.mem_append_left _ ha) (m.node a).handle hits
      have hsame₁ : ∀ {n : Node}, ∀ b ∈ as, b ∉ visited ++ [a] → (m.setNode a n).node b = l.node b := by
        intro n b hb hnot
        have hba : b ≠ a := fun heq => hnot (heq ▸ List.mem_append_right _ (List.mem_singleton_self _))
        rw [node_setNode_of_ne m _ hba]
        exact hsame b hb fun hmem => hnot (List.mem_append_left _ hmem)
      refine ⟨hmore, ?_⟩
      rcases hcases with ⟨q, -, rfl⟩ | ⟨hlow, rfl⟩
      · exact ⟨hd.setBucket hcounted₁, _, setBucket_self .., hcounted₁, hsame₁⟩
      · have hnode : m.node a = l.node a := hsame a ha hfresh
        have hcharge := hcharges a ha (hnode ▸ hmark) (hnode ▸ hlow)
        rw [← hnode] at hcharge
        have hdeleted := hcounted₁.markDeleted ha (by rw [node_setNode_self]; exact hmark)
          (by rw [node_setNode_self]; exact hcharge)
        refine ⟨hd.setBucket hdeleted, _, setBucket_self .., hdeleted, fun b hb hnot => ?_⟩
        have hba : b ≠ a := fun heq => hnot (heq ▸ List.mem_append_right _ (List.mem_singleton_self _))
        rw [AtomicSkipList.markDeleted_eq, AtomicSkipList.markNode_eq]
        exact (node_setNode_of_ne _ _ hba).trans (hsame₁ b hb hnot)

/-- **The step lemma.** -/
theorem AllCounted.call (h : c.AllCounted) {turn : Call} (hcounts : c.Counts turn)
    (hrun : c.call turn = some c') : c'.AllCounted := by
  cases turn with
  | insert key handle topLevel =>
    obtain ⟨⟨stored, c₁⟩, hinsert, rfl⟩ := Option.map_eq_some_iff.mp hrun
    rcases insert_cases hinsert with ⟨-, -, rfl⟩ | ⟨-, hstore⟩ | ⟨hfull, c₂, hevict, hstore⟩
    · exact h
    · exact h.store hcounts.2 hstore
    · obtain ⟨q, rfl⟩ := evict_idle (fun hneed => hcounts.1 hneed hfull) hevict
      exact AllCounted.store (c := {c with lowQueue := q}) h hcounts.2 hstore
  | get key =>
    obtain ⟨⟨found, c₁⟩, hget, rfl⟩ := Option.map_eq_some_iff.mp hrun
    refine get_keeps (R := fun l => ∃ as, Counted l as) h ?_ hget
    rintro l l' ⟨as, hl⟩ hfound
    exact ⟨as, hl.get hfound⟩
  | decay i => exact h.decay hcounts (Option.ite_none_right_eq_some.mp hrun).2
  | compact i levels =>
    refine compact_keeps (R := fun l => ∃ as, Counted l as) h ?_ hrun
    rintro l new ⟨as, hl⟩ hbucket hcompact
    obtain ⟨bs, hcopied⟩ := compactOneBucket_copied hl.formed hbucket hcompact
    exact ⟨bs, hcopied.counted⟩

theorem init_counted (capicity : Int) (bucketNum : Nat) : (make capicity bucketNum).init.AllCounted := by
  exact forall_init (R := fun l => ∃ as, Counted l as) ⟨[], AtomicSkipList.make_counted⟩ capicity bucketNum

end Steps

/-- **Deleted nodes are counted exactly** in every state of a run without an uncounted mark:
no `Evict` finds a node to mark, no node of no charge decays, and no node is linked behind
a marked one. -/
theorem run_counts_exactly {capicity : Int} {bucketNum : Nat} {calls : List Call} {c : HashSkipCache}
    (hrun : (make capicity bucketNum).init.run calls = some c)
    (hcounts : Stepwise.Along call Counts (make capicity bucketNum).init calls) {i : Nat}
    {l : AtomicSkipList} (hbucket : c.buckets i = some l) :
    l.markedDeletedNum = l.nodes.countP (fun a => (l.node a).isMarked) ∧ l.nodeNum = l.nodes.length := by
  have hall : c.AllCounted := Stepwise.run_keeps (fun s turn t hs hturn hcall => hs.call hturn hcall)
    (init_counted capicity bucketNum) hcounts hrun
  obtain ⟨as, hl⟩ := hall i l hbucket
  rw [hl.formed.listed.nodes_eq]
  exact ⟨hl.exact, hl.formed.nodeNum⟩

/-- Two nodes decay until they are deleted. -/
theorem run_counts_exactly_decayed : ∃ c l, (make 100 1).init.run
      [.insert 1 (some ⟨10, 5⟩) 0, .insert 3 (some ⟨30, 5⟩) 2, .decay 0, .decay 0] = some c ∧
    c.buckets 0 = some l ∧ l.markedDeletedNum = 2 ∧
    l.markedDeletedNum = l.nodes.countP (fun a => (l.node a).isMarked) ∧ l.nodeNum = l.nodes.length := by
  have hany : ((make 100 1).init.run [.insert 1 (some ⟨10, 5⟩) 0, .insert 3 (some ⟨30, 5⟩) 2, .decay 0,
      .decay 0]).any (fun c => (c.buckets 0).any fun l => l.markedDeletedNum = 2) = true := by
    decide +kernel
  have hcounts : Stepwise.Along call Counts (make 100 1).init [.insert 1 (some ⟨10, 5⟩) 0,
      .insert 3 (some ⟨30, 5⟩) 2, .decay 0, .decay 0] := by
    decide +kernel
  obtain ⟨c, hrun, hc⟩ := (Option.any_eq_true _ _).mp hany
  obtain ⟨l, hbucket, htwo⟩ := (Option.any_eq_true _ _).mp hc
  exact ⟨c, l, hrun, hbucket, of_decide_eq_true htwo, run_counts_exactly hrun hcounts hbucket⟩

/-- A node is queued by its decay and evicted for the next key: it is marked, and not counted. -/
theorem evict_uncounted : ¬ ∀ (capicity : Int) (bucketNum : Nat) (calls : List Call) (c : HashSkipCache)
    (i : Nat) (l : AtomicSkipList), (make capicity bucketNum).init.run calls = some c →
    c.buckets i = some l → l.markedDeletedNum = l.nodes.countP fun a => (l.node a).isMarked := by
  intro hclaim
  have hany : ((make 10 1).init.run [.insert 1 (some ⟨10, 5⟩) 0, .decay 0,
      .insert 0 (some ⟨20, 6⟩) 0]).any (fun c => (c.buckets 0).any fun l =>
        l.markedDeletedNum ≠ l.nodes.countP fun a => (l.node a).isMarked) = true := by
    decide +kernel
  obtain ⟨c, hrun, hc⟩ := (Option.any_eq_true _ _).mp hany
  obtain ⟨l, hbucket, hne⟩ := (Option.any_eq_true _ _).mp hc
  rw [decide_eq_true_eq] at hne
  exact hne (hclaim 10 1 _ c 0 l hrun hbucket)

end HashSkipCache

end HyperCache.HashSkip
