import HyperCache.HashSkip.Cache
import HyperCache.HashSkip.Marks

/-! What compaction makes of a bucket.

`IterateLevel` visits the unmarked nodes before `tail_` in their order, and `Insert` does
nothing with a null handle, so that the new list has one node for each key that `Get`
finds in the old one. But `Get` also finds a handle in `tail_` itself, the node of the
largest key: that one is not copied (`compact_rebuilds`). -/
namespace HyperCache.HashSkip

namespace AtomicSkipList

/-! ### Iteration -/

/-- From the nodes visited so far on. -/
theorem iterateFrom_keeps {S : Type} {view : S → AtomicSkipList} {fn : Nat → S → Option (Bool × S)}
    {as : List Nat} {I : List Nat → S → Prop}
    (hlist : ∀ {visited s}, I visited s → Listed (view s) as ∧ ((view s).next tail 0).raw = 0)
    (hskip : ∀ {visited a rest s}, as = visited ++ a :: rest → I visited s →
      ((view s).node a).isMarked = true → I (visited ++ [a]) s)
    (hfn : ∀ {visited a rest s more s'}, as = visited ++ a :: rest → I visited s →
      ((view s).node a).isMarked = false → fn a s = some (more, s') →
      more = true ∧ I (visited ++ [a]) s')
    {visited before rest : List Nat} {pred fuel : Nat} {s s' : S} (heq : as = visited ++ rest)
    (hpred : head :: visited = before ++ [pred]) (hI : I visited s)
    (hrun : iterateLevel view fn fuel pred s = some s') :
    I as s' ∧ ((view s').node tail).isMarked = false := by
  induction rest generalizing visited before pred fuel s with
  | nil =>
    rw [List.append_nil] at heq
    subst heq
    obtain ⟨hl, hnull⟩ := hlist hI
    have hnext : ((view s).next pred 0).raw = tail := hl.linked.path.split hpred
    cases fuel with
    | zero => cases hrun
    | succ fuel =>
      rw [iterateLevel, hnext, if_neg (by decide)] at hrun
      cases hmark : ((view s).node tail).isMarked with
      | true =>
        rw [if_pos hmark] at hrun
        cases fuel with
        | zero => cases hrun
        | succ fuel =>
          rw [iterateLevel, if_pos hnull] at hrun
          cases hrun
      | false =>
        rw [if_neg (by rw [hmark]; decide), if_pos rfl] at hrun
        cases hrun
        exact ⟨hI, hmark⟩
  | cons a rest ih =>
    obtain ⟨hl, -⟩ := hlist hI
    have ha : a ∈ as := heq ▸ List.mem_append_right _ (List.mem_cons_self ..)
    have hnext : ((view s).next pred 0).raw = a := by
      have hsplit : head :: as = before ++ pred :: a :: rest := by
        rw [heq, ← List.cons_append, hpred, List.append_assoc]
        rfl
      exact (hl.linked.path.split hsplit).1
    have htaken := (hl.taken a ha).1
    have heq' : as = (visited ++ [a]) ++ rest := by rw [heq, List.append_assoc]; rfl
    have hpred' : head :: (visited ++ [a]) = (head :: visited) ++ [a] := rfl
    cases fuel with
    | zero => cases hrun
    | succ fuel =>
      rw [iterateLevel, hnext, if_neg (Nat.ne_of_gt (Nat.zero_lt_of_lt htaken))] at hrun
      cases hmark : ((view s).node a).isMarked with
      | true =>
        rw [if_pos hmark] at hrun
        exact ih heq' hpred' (hskip heq hI hmark) hrun
      | false =>
        rw [if_neg (by rw [hmark]; decide), if_neg (Nat.ne_of_gt htaken)] at hrun
        obtain ⟨⟨more, s₁⟩, hcall, hrest⟩ := Option.bind_eq_some_iff.mp hrun
        obtain ⟨rfl, hI'⟩ := hfn heq hI hmark hcall
        exact ih heq' hpred' hI' hrest

/-- **The rule for `IterateLevel`**: what the function keeps, with the nodes visited so far,
holds of the whole list at the end. It does not come back from a marked `tail_`. -/
theorem iterateLevel_keeps {S : Type} {view : S → AtomicSkipList} {fn : Nat → S → Option (Bool × S)}
    (as : List Nat) (I : List Nat → S → Prop)
    (hlist : ∀ {visited s}, I visited s → Listed (view s) as ∧ ((view s).next tail 0).raw = 0)
    (hskip : ∀ {visited a rest s}, as = visited ++ a :: rest → I visited s →
      ((view s).node a).isMarked = true → I (visited ++ [a]) s)
    (hfn : ∀ {visited a rest s more s'}, as = visited ++ a :: rest → I visited s →
      ((view s).node a).isMarked = false → fn a s = some (more, s') →
      more = true ∧ I (visited ++ [a]) s')
    {fuel : Nat} {s s' : S} (hI : I [] s) (hrun : iterateLevel view fn fuel head s = some s') :
    I as s' ∧ ((view s').node tail).isMarked = false := by
  refine iterateFrom_keeps (s := s) (I := I) hlist hskip ?_ (List.nil_append as).symm
    (List.nil_append [head]).symm hI hrun
  exact fun heq hI hmark hcall => hfn heq hI hmark hcall

/-! ### Copies -/

/-- `new`, whose nodes are `bs`, has a copy of each live node of `l` visited so far. -/
structure Copied (l : AtomicSkipList) (visited : List Nat) (new : AtomicSkipList) (bs : List Nat) :
    Prop where
  formed : Formed new bs
  tail_handle : (new.node tail).handle = none
  live : ∀ b ∈ bs, (new.node b).isMarked = false ∧
    ∃ a ∈ visited, (l.node a).key = (new.node b).key ∧ l.entry a = (new.node b).handle ∧ l.entry a ≠ none
  copied : ∀ a ∈ visited, l.entry a ≠ none → ∃ b ∈ bs, (new.node b).key = (l.node a).key
  unmarked : new.markedDeletedNum = 0

/-- The new list shows what the old one does, has no deleted node, and exactly one node for
each key that the old one shows. -/
structure Rebuilt (l new : AtomicSkipList) : Prop where
  value : ∀ key, new.value key = l.value key
  unmarked : new.markedDeletedNum = 0
  nodup : (new.nodes.map fun b => (new.node b).key).Nodup
  mem : ∀ key, key ∈ new.nodes.map (fun b => (new.node b).key) ↔ l.value key ≠ none

section Copy
variable {l new new' : AtomicSkipList} {as bs visited rest : List Nat} {a b : Nat} {key : Int64}

theorem make_copied (l : AtomicSkipList) : Copied l [] make [] where
  formed := make_formed
  tail_handle := by decide
  live := fun _ h => nomatch h
  copied := fun _ h => nomatch h
  unmarked := rfl

theorem Copied.tail_entry (h : Copied l visited new bs) : new.entry tail = none := by
  rw [entry, h.tail_handle, ite_self]

/-- A node with nothing to show needs no copy. -/
theorem Copied.skip (h : Copied l visited new bs) (hentry : l.entry a = none) :
    Copied l (visited ++ [a]) new bs := by
  refine ⟨h.formed, h.tail_handle, fun b hb => ?_, fun x hx hshow => ?_, h.unmarked⟩
  · obtain ⟨hmark, x, hx, hrest⟩ := h.live b hb
    exact ⟨hmark, x, List.mem_append_left _ hx, hrest⟩
  · rcases List.mem_append.mp hx with hm | hm
    · exact h.copied x hm hshow
    · rw [List.mem_singleton.mp hm] at hshow
      exact absurd hentry hshow

/-- A live node is copied: its key is new, as keys are met in their order. -/
theorem Copied.insert (h : Copied l visited new bs) (hl : Listed l as) (heq : as = visited ++ a :: rest)
    (hmark : (l.node a).isMarked = false) {handle : Handle} (hhandle : (l.node a).handle = some handle)
    {topLevel : Nat} (htop : topLevel ≤ maxLevel) {old : Option Handle}
    (hinsert : new.insert (l.node a).key (some handle) [topLevel] = some (old, new')) :
    ∃ bs', Copied l (visited ++ [a]) new' bs' := by
  have ha : a ∈ as := heq ▸ List.mem_append_right _ (List.mem_cons_self ..)
  have hfresh : a ∉ visited := by
    have hnodup := hl.nodup
    rw [heq, List.nodup_append] at hnodup
    exact fun hm => hnodup.2.2 a hm a (List.mem_cons_self ..) rfl
  have hentry : l.entry a = some handle := by rw [entry, if_neg (by rw [hmark]; decide), hhandle]
  rcases insert_cases h.formed.listed (l.node a).key handle htop [] with
    ⟨b, hb, hkey, -⟩ | ⟨-, p, new₁, bs', hin, hinsert'⟩
  · exfalso
    rcases List.mem_append.mp hb with hm | hm
    · obtain ⟨-, x, hx, hxkey, -⟩ := h.live b hm
      have hxas : x ∈ as := heq ▸ List.mem_append_left _ hx
      have hxa : x = a := hl.eq_of_key (List.mem_append_left _ hxas) (List.mem_append_left _ ha)
        (hxkey.trans hkey)
      exact hfresh (hxa ▸ hx)
    · rw [List.mem_singleton.mp hm, h.formed.listed.tail_key] at hkey
      exact hl.key_ne ha hkey.symm
  · cases hinsert'.symm.trans hinsert
    have hold : ∀ b ∈ bs, b ∈ head :: bs ++ [tail] := fun b hb =>
      List.mem_append_left _ (List.mem_cons_of_mem _ hb)
    have htail : tail ∈ head :: bs ++ [tail] := List.mem_append_right _ (List.mem_singleton_self _)
    refine ⟨bs', hin.formed h.formed, ?_, fun b hb => ?_, fun x hx hshow => ?_, ?_⟩
    · rw [(hin.node tail htail).2.1, h.tail_handle]
    · rcases (hin.mem b).mp hb with rfl | hm
      · refine ⟨hin.new.2.2, a, List.mem_append_right _ (List.mem_singleton_self _), hin.new.1.symm, ?_, ?_⟩
        · rw [hentry, hin.new.2.1]
        · rw [hentry]
          exact Option.some_ne_none _
      · obtain ⟨hbmark, x, hx, hxkey, hxentry, hshow⟩ := h.live b hm
        refine ⟨?_, x, List.mem_append_left _ hx, ?_, ?_, hshow⟩
        · by_cases hp : b = p
          · rw [hp]
            exact hin.pred
          · rw [hin.marks (hold b hm) hp, hbmark]
        · rw [(hin.node b (hold b hm)).1, hxkey]
        · rw [(hin.node b (hold b hm)).2.1, hxentry]
    · rcases List.mem_append.mp hx with hm | hm
      · obtain ⟨b, hb, hbkey⟩ := h.copied x hm hshow
        exact ⟨b, (hin.mem b).mpr (.inr hb), (hin.node b (hold b hb)).1.trans hbkey⟩
      · rw [List.mem_singleton.mp hm]
        exact ⟨_, (hin.mem _).mpr (.inl rfl), hin.new.1⟩
    · rw [hin.markedDeletedNum, h.unmarked]

/-- All nodes visited: what the copy shows. -/
theorem Copied.value_eq (h : Copied l as new bs) (hl : Listed l as) (key : Int64) :
    new.value key = if key = Int64.maxValue then none else l.value key := by
  split
  next hmax =>
    rw [hmax, ← h.formed.listed.tail_key, value_of_mem h.formed.listed (List.mem_append_right _ (List.mem_singleton_self _)),
      h.tail_entry]
  next hmax =>
    rcases mem_or_absent new bs key with ⟨b, hb, rfl⟩ | habsent
    · rcases List.mem_append.mp hb with hm | hm
      · obtain ⟨hmark, a, ha, hkey, hentry, -⟩ := h.live b hm
        rw [value_of_mem h.formed.listed hb, ← hkey, value_of_mem hl (List.mem_append_left _ ha), hentry, entry,
          if_neg (by rw [hmark]; decide)]
      · rw [List.mem_singleton.mp hm, h.formed.listed.tail_key] at hmax
        exact absurd rfl hmax
    · rw [value_of_absent h.formed.listed habsent]
      rcases mem_or_absent l as key with ⟨a, ha, rfl⟩ | hnone
      · rcases List.mem_append.mp ha with hm | hm
        · rw [value_of_mem hl ha]
          by_contra hshow
          obtain ⟨b, hb, hkey⟩ := h.copied a hm (Ne.symm hshow)
          exact habsent b (List.mem_append_left _ hb) hkey
        · rw [List.mem_singleton.mp hm, hl.tail_key] at hmax
          exact absurd rfl hmax
      · rw [value_of_absent hl hnone]

/-- All nodes visited: the list is rebuilt if `tail_` has nothing to show. -/
theorem Copied.rebuilt_iff (h : Copied l as new bs) (hl : Listed l as) :
    Rebuilt l new ↔ l.value Int64.maxValue = none := by
  have hvalue := h.value_eq hl
  constructor
  · intro hr
    rw [← hr.value, hvalue, if_pos rfl]
  · intro hmax
    have hsame : ∀ key, new.value key = l.value key := by
      intro key
      rw [hvalue]
      split
      next heq => rw [heq, hmax]
      next => rfl
    have hmem : ∀ b ∈ bs, b ∈ bs ++ [tail] := fun b hb => List.mem_append_left _ hb
    refine ⟨hsame, h.unmarked, ?_, fun key => ?_⟩
    · rw [h.formed.listed.nodes_eq]
      exact List.Nodup.map_on (fun b hb b' hb' heq => h.formed.listed.eq_of_key (hmem b hb) (hmem b' hb') heq)
        h.formed.listed.nodup
    · rw [h.formed.listed.nodes_eq, List.mem_map, ← hsame]
      constructor
      · rintro ⟨b, hb, rfl⟩
        obtain ⟨hmark, a, -, -, hentry, hshow⟩ := h.live b hb
        rw [value_of_mem h.formed.listed (hmem b hb), entry, if_neg (by rw [hmark]; decide), ← hentry]
        exact hshow
      · intro hshow
        rcases mem_or_absent new bs key with ⟨b, hb, rfl⟩ | habsent
        · rcases List.mem_append.mp hb with hm | hm
          · exact ⟨b, hm, rfl⟩
          · rw [List.mem_singleton.mp hm, value_of_mem h.formed.listed (List.mem_append_right _
              (List.mem_singleton_self _)), h.tail_entry] at hshow
            exact absurd rfl hshow
        · exact absurd (value_of_absent h.formed.listed habsent) hshow

end Copy

end AtomicSkipList

/-! ### `CompactOneBucket` -/

namespace HashSkipCache
open AtomicSkipList (tail head Listed Copied Rebuilt Formed)

theorem copyNode_copied {levels : Nat → Fin (maxLevel + 1)} {l new new' : AtomicSkipList}
    {as bs visited rest : List Nat} {a : Nat} {more : Bool} (hl : Listed l as)
    (heq : as = visited ++ a :: rest) (h : Copied l visited new bs) (hmark : (l.node a).isMarked = false)
    (hrun : copyNode levels l a new = some (more, new')) :
    more = true ∧ ∃ bs', Copied l (visited ++ [a]) new' bs' := by
  obtain ⟨⟨old, new₁⟩, hinsert, hreturn⟩ := Option.bind_eq_some_iff.mp hrun
  cases hreturn
  refine ⟨rfl, ?_⟩
  cases hhandle : (l.node a).handle with
  | none =>
    rw [hhandle] at hinsert
    cases hinsert
    exact ⟨bs, h.skip (by rw [AtomicSkipList.entry, hhandle, ite_self])⟩
  | some handle =>
    rw [hhandle] at hinsert
    exact h.insert hl heq hmark hhandle (Nat.le_of_lt_succ (levels a).isLt) hinsert

/-- A new bucket has copies of all live nodes. -/
theorem compactOneBucket_copied {c : HashSkipCache} {i : Nat} {levels : Nat → Fin (maxLevel + 1)}
    {l new : AtomicSkipList} {as : List Nat} (h : Formed l as) (hbucket : c.buckets i = some l)
    (hcompact : c.compactOneBucket i levels = some (some new)) : ∃ bs, Copied l as new bs := by
  rw [compactOneBucket, hbucket] at hcompact
  cases hsparse : sparse l with
  | true =>
    simp only [hsparse, if_true] at hcompact
    cases hcompact
  | false =>
    simp only [hsparse] at hcompact
    obtain ⟨new₁, hiterate, hreturn⟩ := Option.bind_eq_some_iff.mp hcompact
    cases hreturn
    refine (AtomicSkipList.iterateLevel_keeps as (fun visited new => ∃ bs, Copied l visited new bs)
      ?_ ?_ ?_ ⟨[], AtomicSkipList.make_copied l⟩ hiterate).1
    · exact fun _ => ⟨h.listed, h.tail_null⟩
    · rintro visited a rest new - ⟨bs, hc⟩ hmark
      exact ⟨bs, hc.skip (if_pos hmark)⟩
    · rintro visited a rest new more new' heq ⟨bs, hc⟩ hmark hcopy
      exact copyNode_copied h.listed heq hc hmark hcopy

/-- **Compaction rebuilds exactly the live bucket if the largest key has no handle**: for
every bucket that calls lead to and all random levels. -/
theorem compact_rebuilds {calls : List AtomicSkipList.Call} {l : AtomicSkipList}
    (hrun : AtomicSkipList.make.run calls = some l) {c : HashSkipCache} {i : Nat}
    (hbucket : c.buckets i = some l) {levels : Nat → Fin (maxLevel + 1)} {l' : AtomicSkipList}
    (hcompact : c.compactOneBucket i levels = some (some l')) :
    Rebuilt l l' ↔ l.value Int64.maxValue = none := by
  obtain ⟨as, h⟩ := AtomicSkipList.run_onward AtomicSkipList.make_formed hrun
  obtain ⟨bs, hc⟩ := compactOneBucket_copied h.formed hbucket hcompact
  exact hc.rebuilt_iff h.formed.listed

/-- One of two keys is deleted: the other is copied. -/
theorem compact_rebuilds_deleted : ∃ l l', AtomicSkipList.make.run
      [.insert 1 (some ⟨10, 1⟩) 0, .insert 5 (some ⟨50, 1⟩) 3, .markDeleted 3] = some l ∧
    ((make 100 1).setBucket 0 l).compactOneBucket 0 (fun _ => 0) = some (some l') ∧
    (Rebuilt l l' ↔ l.value Int64.maxValue = none) := by
  have hany : (AtomicSkipList.make.run [.insert 1 (some ⟨10, 1⟩) 0, .insert 5 (some ⟨50, 1⟩) 3,
      .markDeleted 3]).any (fun l => (((make 100 1).setBucket 0 l).compactOneBucket 0 fun _ => 0).any
        Option.isSome) = true := by
    decide +kernel
  obtain ⟨l, hrun, hl⟩ := (Option.any_eq_true _ _).mp hany
  obtain ⟨new, hcompact, hnew⟩ := (Option.any_eq_true _ _).mp hl
  obtain ⟨l', rfl⟩ := Option.isSome_iff_exists.mp hnew
  exact ⟨l, l', hrun, hcompact, compact_rebuilds hrun (setBucket_self ..) hcompact⟩

/-- The largest key is inserted: its handle goes into `tail_`, and compaction leaves it behind. -/
theorem compact_loses_largest : ¬ ∀ (calls : List AtomicSkipList.Call) (l l' : AtomicSkipList)
    (c : HashSkipCache) (i : Nat) (levels : Nat → Fin (maxLevel + 1)),
    AtomicSkipList.make.run calls = some l → c.buckets i = some l →
    c.compactOneBucket i levels = some (some l') → Rebuilt l l' := by
  intro hclaim
  have hany : (AtomicSkipList.make.run [.insert Int64.maxValue (some ⟨10, 1⟩) 0]).any (fun l =>
      (((make 100 1).setBucket 0 l).compactOneBucket 0 fun _ => 0).any fun new => new.any fun l' =>
        l'.value Int64.maxValue ≠ l.value Int64.maxValue) = true := by
    decide +kernel
  obtain ⟨l, hrun, hl⟩ := (Option.any_eq_true _ _).mp hany
  obtain ⟨new, hcompact, hnew⟩ := (Option.any_eq_true _ _).mp hl
  obtain ⟨l', rfl, hlost⟩ := (Option.any_eq_true _ _).mp hnew
  rw [decide_eq_true_eq] at hlost
  exact hlost ((hclaim _ l l' _ 0 _ hrun (setBucket_self ..) hcompact).value Int64.maxValue)

end HashSkipCache

end HyperCache.HashSkip
