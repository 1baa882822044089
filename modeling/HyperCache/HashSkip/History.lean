import HyperCache.HashSkip.Returns
import HyperCache.Lib.LossyMap

/-! The hash-skip cache as a map that loses entries.

A key has one node in its bucket, marked or not, and its handle is that of the last `Insert`
of the key with a handle; one with a null pointer changes no entry. So a `Get` never finds
anything else, whatever else is called (`run_faithful`). It finds it until the key is
inserted again or its node marked, unless the `Insert` has met a marked node, or a
compaction a handle in `tail_` (`run_exact`, and for one key exactly `run_reads_iff`). -/
namespace HyperCache.HashSkip.HashSkipCache
open AtomicSkipList (shown)
open LossyMap (Event Faithful Exact Bounds after history)

/-- The keys whose nodes are marked on the way to the second state. -/
def dropped (c : HashSkipCache) (c' : Option HashSkipCache) (key : Int64) : Bool :=
  !c.keyMarked key && c'.any fun c' => c'.keyMarked key

/-- What a call does to the entries, and what it returns of them. An `Insert` of a null pointer
makes room and puts nothing. -/
def events (c : HashSkipCache) : Call → List (Event Int64 Handle)
  | .insert key handle _ => .lose (c.dropped (c.room handle)) :: handle.toList.map (Event.put key)
  | .get key => [.got key ((c.get key).bind Prod.fst)]
  | .decay i => [.lose (c.dropped (c.decayOneBucket i))]
  | .compact .. => []

/-- A handle that is stored under the key, marked or not. -/
def Shows (c : HashSkipCache) (key : Int64) (handle : Handle) : Prop :=
  ∃ marked, c.slot key = some (marked, some handle)

theorem bounds_slot (c : HashSkipCache) : Bounds c.Shows fun key => (c.slot key).bind Prod.snd := by
  rintro key handle ⟨marked, hslot⟩
  show (c.slot key).bind Prod.snd = some handle
  rw [hslot, Option.bind_some]

/-- What `Get` shows. -/
def view (c : HashSkipCache) (key : Int64) : Option Handle := shown (c.slot key)

/-- No `Insert` stores its handle in a marked node, and no compaction leaves one behind in
`tail_`. -/
def Undisturbed (c : HashSkipCache) : Call → Prop
  | .insert key handle _ => handle ≠ none → ∀ c₁ ∈ c.room handle, c₁.keyMarked key = false
  | .compact i _ => ∀ l ∈ c.buckets i, shown (l.slot Int64.maxValue) = none
  | _ => True

instance (c : HashSkipCache) : DecidablePred c.Undisturbed
  | .insert key handle _ =>
    inferInstanceAs (Decidable (handle ≠ none → ∀ c₁ ∈ c.room handle, c₁.keyMarked key = false))
  | .get _ | .decay _ => isTrue trivial
  | .compact i _ => inferInstanceAs (Decidable (∀ l ∈ c.buckets i, shown (l.slot Int64.maxValue) = none))

section Step
variable {n : Nat} {c c' : HashSkipCache} {key : Int64} {m : Int64 → Option Handle}

/-- A marked key has no handle. -/
def Bare (c : HashSkipCache) : Prop := ∀ key handle, c.slot key ≠ some (true, some handle)

/-- Exactly the keys that fade are dropped. -/
theorem Fades.dropped (h : Fades c c') (key : Int64) :
    c.dropped (some c') key = false ∧ c'.slot key = c.slot key ∨
      c.dropped (some c') key = true ∧ c'.slot key = some (true, none) := by
  rw [HashSkipCache.dropped, Option.any_some, keyMarked, keyMarked]
  rcases h key with hsame | ⟨⟨handle, hlive⟩, hgone⟩
  · rw [hsame]
    exact .inl ⟨Bool.not_and_self _, rfl⟩
  · rw [hlive, hgone]
    exact .inr ⟨rfl, rfl⟩

/-- What fades stays within what was put last. -/
theorem Fades.bounds (h : Fades c c') (hm : Bounds c.Shows m) :
    Bounds c'.Shows (Event.write m (.lose (c.dropped (some c')))) := by
  rintro key handle ⟨marked, hslot⟩
  rcases h.dropped key with ⟨hkept, hsame⟩ | ⟨-, hgone⟩
  · rw [hsame] at hslot
    exact (if_neg (by rw [hkept]; exact Bool.false_ne_true)).trans (hm key handle ⟨marked, hslot⟩)
  · cases hslot.symm.trans hgone

theorem Stored.bounds {handle : Handle} (h : Stored c key handle c') (hm : Bounds c.Shows m) :
    Bounds c'.Shows (Event.write m (.put key handle)) := by
  rintro k x ⟨marked, hslot⟩
  by_cases hk : k = key
  · subst hk
    rw [h.self] at hslot
    cases hslot
    exact Function.update_self ..
  · refine (Function.update_of_ne hk ..).trans (hm k x ?_)
    rcases h.other k hk with hsame | ⟨y, hwas, his⟩
    · exact ⟨marked, hsame.symm.trans hslot⟩
    · cases hslot.symm.trans his
      exact ⟨true, hwas⟩

theorem Fades.bare (h : Fades c c') (hbare : c.Bare) : c'.Bare := by
  intro key handle hslot
  rcases h key with hsame | ⟨-, hgone⟩
  · exact hbare key handle (hsame.symm.trans hslot)
  · cases hslot.symm.trans hgone

theorem Fades.view_eq (h : Fades c c') : c'.view = Event.write c.view (.lose (c.dropped (some c'))) := by
  funext key
  rcases h.dropped key with ⟨hkept, hsame⟩ | ⟨hlost, hgone⟩
  · refine Eq.trans ?_ (if_neg (by rw [hkept]; exact Bool.false_ne_true)).symm
    rw [view, hsame, view]
  · refine Eq.trans ?_ (if_pos hlost).symm
    rw [view, hgone]
    rfl

/-- An unmarked key is written; a mark that goes uncovers nothing. -/
theorem Stored.exact {handle : Handle} (h : Stored c key handle c') (hbare : c.Bare)
    (hmark : c.keyMarked key = false) :
    c'.Bare ∧ c'.view = Event.write c.view (.put key handle) := by
  have hself : c'.slot key = some (false, some handle) := hmark ▸ h.self
  constructor
  · intro k x hslot
    by_cases hk : k = key
    · subst hk
      cases hself.symm.trans hslot
    · rcases h.other k hk with hsame | ⟨y, -, his⟩
      · exact hbare k x (hsame.symm.trans hslot)
      · cases his.symm.trans hslot
  · funext k
    by_cases hk : k = key
    · subst hk
      rw [view, hself]
      exact (Function.update_self k (some handle) c.view).symm
    · refine Eq.trans ?_ (Function.update_of_ne hk (some handle) c.view).symm
      rcases h.other k hk with hsame | ⟨y, hwas, his⟩
      · rw [view, hsame, view]
      · rw [view, his, view, hwas]
        cases y with
        | none => rfl
        | some y => exact absurd hwas (hbare k y)

/-- What a compaction leaves of a slot: the largest key loses its handle, the others show theirs. -/
theorem swap_slot (hc : c.Ready n) {i : Nat} {levels : Nat → Fin (maxLevel + 1)} {new : AtomicSkipList}
    (hcompact : c.compactOneBucket i levels = some (some new)) (key : Int64) :
    (∀ handle, (c.swap i new).slot key = some (true, some handle) →
      c.slot key = some (true, some handle)) ∧
    shown ((c.swap i new).slot key) =
      if c.bucketIndex key = i ∧ key = Int64.maxValue then none else shown (c.slot key) := by
  obtain ⟨result, hrun, hcopy⟩ := hc.compact i levels
  cases hrun.symm.trans hcompact
  obtain ⟨l, as, bs, hbucket, hl, hcopied, -⟩ := hcopy new rfl
  obtain ⟨hunmarked, hshown⟩ := hcopied.slot_eq hl.formed.listed key
  have hswap : (c.swap i new).slot key = if c.bucketIndex key = i then new.slot key else c.slot key :=
    slot_setBucket (c := c) (i := i) (l := new) key
  rw [hswap]
  by_cases hi : c.bucketIndex key = i
  · rw [if_pos hi, hshown, slot_of_bucket hbucket hi]
    refine ⟨fun handle hslot => absurd hslot fun h => hunmarked handle h, ?_⟩
    by_cases hmax : key = Int64.maxValue
    · rw [if_pos hmax, if_pos ⟨hi, hmax⟩]
    · rw [if_neg hmax, if_neg fun hboth => hmax hboth.2]
  · rw [if_neg hi, if_neg fun hboth => hi hboth.1]
    exact ⟨fun _ hslot => hslot, rfl⟩

/-- **Each call is faithful.** -/
theorem Ready.faithful (hc : c.Ready n) {turn : Call} (hrun : c.call turn = some c') (hm : Bounds c.Shows m) :
    c'.Ready n ∧ Faithful m (c.events turn) ∧ Bounds c'.Shows (after m (c.events turn)) := by
  cases turn with
  | insert key handle topLevel =>
    obtain ⟨c₁, c₂, hroom, hevicts, hstore, hinsert⟩ := hc.insert key handle topLevel
    obtain ⟨c₃, hstore', hready, hslot⟩ := (hevicts.ready hc).store key handle topLevel
    cases hstore.symm.trans hstore'
    have hcall : c.call (.insert key handle topLevel) = some c₂ := Option.map_eq_some_iff.mpr ⟨_, hinsert, rfl⟩
    cases hcall.symm.trans hrun
    have hfaded := hevicts.fades.bounds hm
    rw [events, hroom]
    cases handle with
    | none =>
      refine ⟨hready, ⟨fun _ _ hgot => (by cases hgot), trivial⟩, fun k x hk => ?_⟩
      rw [Shows, hslot] at hk
      exact hfaded k x hk
    | some handle =>
      refine ⟨hready, ⟨fun _ _ hgot => (by cases hgot), fun _ _ hgot => (by cases hgot), trivial⟩, ?_⟩
      exact Stored.bounds hslot hfaded
  | get key =>
    obtain ⟨c₁, hget, hready, hslot⟩ := hc.get key
    have hcall : c.call (.get key) = some c₁ := Option.map_eq_some_iff.mpr ⟨_, hget, rfl⟩
    cases hcall.symm.trans hrun
    rw [events, hget]
    refine ⟨hready, ⟨fun k x hgot => ?_, trivial⟩, fun k x hk => ?_⟩
    · obtain ⟨rfl, hfound⟩ := Event.got.inj hgot
      exact hm _ x ⟨false, AtomicSkipList.shown_eq_some.mp hfound⟩
    · rw [Shows, hslot] at hk
      exact hm k x hk
  | decay i =>
    obtain ⟨-, hdecay⟩ := Option.ite_none_right_eq_some.mp hrun
    obtain ⟨c₁, hdecay', hready, hfades⟩ := hc.decay i
    cases hdecay.symm.trans hdecay'
    rw [events, hdecay]
    exact ⟨hready, ⟨fun _ _ hgot => (by cases hgot), trivial⟩, hfades.bounds hm⟩
  | compact i levels =>
    have hready : c'.Ready n := by
      obtain ⟨hi, -⟩ := Option.ite_none_right_eq_some.mp hrun
      have hrange : Call.InRange n (.compact i levels) := hc.bucketNum ▸ hi
      obtain ⟨c₁, hcall, hc₁⟩ := hc.call hrange
      cases hcall.symm.trans hrun
      exact hc₁
    refine ⟨hready, trivial, ?_⟩
    rcases compact_cases hrun with rfl | ⟨l, new, -, hnew, rfl⟩
    · exact hm
    · rintro key handle ⟨marked, hslot⟩
      obtain ⟨hmarked, hshown⟩ := swap_slot hc hnew key
      cases marked with
      | true => exact hm key handle ⟨true, hmarked handle hslot⟩
      | false =>
        rw [AtomicSkipList.shown_eq_some.mpr hslot] at hshown
        split at hshown
        · cases hshown
        · exact hm key handle ⟨false, AtomicSkipList.shown_eq_some.mp hshown.symm⟩

/-- **Each call is exact**, if nothing disturbs it. -/
theorem Ready.exact (hc : c.Ready n) (hbare : c.Bare) {turn : Call} (hturn : c.Undisturbed turn)
    (hrun : c.call turn = some c') :
    c'.Bare ∧ Exact c.view (c.events turn) ∧ c'.view = after c.view (c.events turn) := by
  cases turn with
  | insert key handle topLevel =>
    obtain ⟨c₁, c₂, hroom, hevicts, hstore, hinsert⟩ := hc.insert key handle topLevel
    obtain ⟨c₃, hstore', -, hslot⟩ := (hevicts.ready hc).store key handle topLevel
    cases hstore.symm.trans hstore'
    have hcall : c.call (.insert key handle topLevel) = some c₂ := Option.map_eq_some_iff.mpr ⟨_, hinsert, rfl⟩
    cases hcall.symm.trans hrun
    have hbare₁ := hevicts.fades.bare hbare
    have hview₁ := hevicts.fades.view_eq
    rw [events, hroom]
    cases handle with
    | none =>
      have hsame : c'.slot = c₁.slot := hslot
      refine ⟨fun k x => ?_, ⟨fun _ _ hgot => (by cases hgot), trivial⟩, ?_⟩
      · rw [hsame]
        exact hbare₁ k x
      · refine Eq.trans ?_ hview₁
        funext k
        rw [view, hsame, view]
    | some handle =>
      have hmark := hturn (Option.some_ne_none _) c₁ hroom
      obtain ⟨hbare₂, hview₂⟩ := Stored.exact hslot hbare₁ hmark
      refine ⟨hbare₂, ⟨fun _ _ hgot => (by cases hgot), fun _ _ hgot => (by cases hgot), trivial⟩, ?_⟩
      rw [hview₂, hview₁]
      rfl
  | get key =>
    obtain ⟨c₁, hget, -, hslot⟩ := hc.get key
    have hcall : c.call (.get key) = some c₁ := Option.map_eq_some_iff.mpr ⟨_, hget, rfl⟩
    cases hcall.symm.trans hrun
    rw [events, hget]
    refine ⟨fun k x => ?_, ⟨fun k found hgot => ?_, trivial⟩, ?_⟩
    · rw [hslot]
      exact hbare k x
    · obtain ⟨rfl, hfound⟩ := Event.got.inj hgot
      exact hfound
    · funext k
      rw [view, hslot]
      rfl
  | decay i =>
    obtain ⟨-, hdecay⟩ := Option.ite_none_right_eq_some.mp hrun
    obtain ⟨c₁, hdecay', -, hfades⟩ := hc.decay i
    cases hdecay.symm.trans hdecay'
    rw [events, hdecay]
    exact ⟨hfades.bare hbare, ⟨fun _ _ hgot => (by cases hgot), trivial⟩, hfades.view_eq⟩
  | compact i levels =>
    rcases compact_cases hrun with rfl | ⟨l, new, hbucket, hnew, rfl⟩
    · exact ⟨hbare, trivial, rfl⟩
    · refine ⟨fun key handle hslot => hbare key handle ((swap_slot hc hnew key).1 handle hslot), trivial, ?_⟩
      funext key
      refine (swap_slot hc hnew key).2.trans ?_
      split
      next hlargest =>
        rw [← hturn l hbucket, ← hlargest.2, ← slot_of_bucket hbucket hlargest.1]
        rfl
      next => rfl

end Step

/-! ### Runs -/

/-- A run leaves a cache that is ready for the next call. -/
theorem run_ready {capicity : Int} {bucketNum : Nat} {calls : List Call} {c : HashSkipCache} (hnum : 0 < bucketNum)
    (hrun : (make capicity bucketNum).init.run calls = some c) : c.Ready bucketNum := by
  have hstep : ∀ s turn t, s.Ready bucketNum → True → call s turn = some t → t.Ready bucketNum :=
    fun s turn t hs _ hcall => (hs.faithful hcall s.bounds_slot).1
  exact Stepwise.run_keeps hstep (init_ready capicity hnum) (Stepwise.along_of_mem (fun _ _ _ => trivial) _) hrun

/-- **No stale handle**: whatever calls a run makes, and however its decays, evictions and
compactions fall, `Get` finds nothing but the last handle, not null, that its key was inserted
with, and not what has been dropped since. -/
theorem run_faithful (capicity : Int) {bucketNum : Nat} (hnum : 0 < bucketNum) (calls : List Call) :
    Faithful (fun _ => none) (history call events (make capicity bucketNum).init calls) := by
  have hstep : ∀ (_ : Nat) c turn c' m, c.Ready bucketNum → True → call c turn = some c' → Bounds c.Shows m →
      c'.Ready bucketNum ∧ Faithful m (c.events turn) ∧ Bounds c'.Shows (after m (c.events turn)) :=
    fun _ c turn c' m hc _ hrun hm => hc.faithful hrun hm
  refine LossyMap.history_faithful (I := fun _ c => c.Ready bucketNum) hstep (init_ready capicity hnum) ?_
    (Stepwise.along_of_mem (fun _ _ _ => trivial) _)
  rintro key handle ⟨marked, hslot⟩
  exact absurd hslot ((init_slot capicity bucketNum key).2 marked handle)

/-- A bucket is decayed, an entry evicted for another, and the bucket compacted. -/
theorem run_faithful_evicting : Faithful (fun _ => none) (history call events (make 10 2).init
    [.insert 0 (some ⟨1, 4⟩) 0, .insert 2 (some ⟨2, 4⟩) 3, .decay 0, .insert 4 (some ⟨3, 5⟩) 1, .get 0,
      .decay 0, .insert 0 (some ⟨4, 1⟩) 0, .compact 0 (fun _ => 1), .get 0]) :=
  run_faithful 10 (by decide) _

/-- From a state in which no marked key has a handle. -/
theorem exact_history {n : Nat} {c : HashSkipCache} (hc : c.Ready n) (hbare : c.Bare) {calls : List Call}
    (hcalls : Stepwise.Along call Undisturbed c calls) : Exact c.view (history call events c calls) := by
  have hstep : ∀ c turn c', c.Ready n ∧ c.Bare → c.Undisturbed turn → call c turn = some c' →
      (c'.Ready n ∧ c'.Bare) ∧ Exact c.view (c.events turn) ∧ c'.view = after c.view (c.events turn) := by
    intro c turn c' hinv hturn hrun
    have hready := (hinv.1.faithful hrun c.bounds_slot).1
    obtain ⟨hbare, hexact, hafter⟩ := hinv.1.exact hinv.2 hturn hrun
    exact ⟨⟨hready, hbare⟩, hexact, hafter⟩
  exact LossyMap.history_exact hstep ⟨hc, hbare⟩ hcalls

theorem init_bare (capicity : Int) (bucketNum : Nat) : (make capicity bucketNum).init.Bare :=
  fun key handle => (init_slot capicity bucketNum key).2 true handle

/-- **What is inserted is found**: in a run in which no `Insert` of a handle meets a marked node
of its key and no compaction a handle in `tail_`, `Get` returns exactly the last handle, not
null, that its key was inserted with and that has not been dropped. -/
theorem run_exact (capicity : Int) {bucketNum : Nat} (hnum : 0 < bucketNum) (calls : List Call)
    (hcalls : Stepwise.Along call Undisturbed (make capicity bucketNum).init calls) :
    Exact (fun _ => none) (history call events (make capicity bucketNum).init calls) := by
  have hview : (make capicity bucketNum).init.view = fun _ => none := by
    funext key
    exact (init_slot capicity bucketNum key).1
  rw [← hview]
  exact exact_history (init_ready capicity hnum) (init_bare capicity bucketNum) hcalls

/-- The entry of a key that has been decayed away is replaced in a new bucket. -/
theorem run_exact_decayed : Exact (fun _ => none) (history call events (make 10 1).init
    [.insert 0 (some ⟨1, 4⟩) 0, .insert 2 (some ⟨2, 4⟩) 3, .get 0, .decay 0, .decay 0, .get 2, .compact 0 (fun _ => 1),
      .insert 2 (some ⟨3, 1⟩) 0, .get 2]) :=
  run_exact 10 (by decide) _ (by decide +kernel)

/-- **Whether an `Insert` can be read**: `Get` returns the handle if and only if the node of the
key was not marked when the handle was stored. -/
theorem run_insert_read_iff {capicity : Int} {bucketNum : Nat} {calls : List Call} {c c₁ c' : HashSkipCache}
    {key : Int64} {handle : Handle} {topLevel : Fin (maxLevel + 1)} (hnum : 0 < bucketNum)
    (hrun : (make capicity bucketNum).init.run calls = some c) (hroom : c.room (some handle) = some c₁)
    (hinsert : c.insert key (some handle) [topLevel.val] = some (true, c')) :
    (∃ last, c'.get key = some (some handle, last)) ↔ c₁.keyMarked key = false := by
  have hc := run_ready hnum hrun
  obtain ⟨c₂, c₃, hroom', hevicts, hstore, hinsert'⟩ := hc.insert key (some handle) topLevel
  cases hroom'.symm.trans hroom
  cases hinsert'.symm.trans hinsert
  obtain ⟨c₃, hstore', hready, hslot⟩ := (hevicts.ready hc).store key (some handle) topLevel
  cases hstore.symm.trans hstore'
  have hself : c'.slot key = some (c₁.keyMarked key, some handle) := Stored.self hslot
  obtain ⟨last, hget, -⟩ := hready.get key
  rw [hself] at hget
  constructor
  · rintro ⟨last', hget'⟩
    have hshown := congrArg Prod.fst (Option.some.inj (hget.symm.trans hget'))
    cases hmark : c₁.keyMarked key with
    | false => rfl
    | true =>
      rw [hmark] at hshown
      cases hshown
  · intro hmark
    rw [hmark] at hget
    exact ⟨last, hget⟩

/-- A key that has decayed away is inserted again: it stays deleted. -/
theorem run_insert_read_iff_deleted : ∃ c c', (make 10 1).init.run [.insert 1 (some ⟨1, 4⟩) 0, .decay 0, .decay 0] =
      some c ∧ c.insert 1 (some ⟨2, 4⟩) [0] = some (true, c') ∧
    ((∃ last, c'.get 1 = some (some ⟨2, 4⟩, last)) ↔ c.keyMarked 1 = false) := by
  have hany : ((make 10 1).init.run [.insert 1 (some ⟨1, 4⟩) 0, .decay 0, .decay 0]).any (fun c =>
      (c.insert 1 (some ⟨2, 4⟩) [0]).any fun r => r.1 = true ∧
        ¬ c.memoryUsed + (charge (some ⟨2, 4⟩)).toInt > c.capicity) = true := by
    decide +kernel
  obtain ⟨c, hrun, hrest⟩ := (Option.any_eq_true _ _).mp hany
  obtain ⟨⟨stored, c'⟩, hinsert, hboth⟩ := (Option.any_eq_true _ _).mp hrest
  obtain ⟨rfl, hfits⟩ := of_decide_eq_true hboth
  have hlevel : c.insert 1 (some ⟨2, 4⟩) [(0 : Fin (maxLevel + 1)).val] = some (true, c') := hinsert
  exact ⟨c, c', hrun, hinsert, run_insert_read_iff (by decide) hrun (if_neg hfits) hlevel⟩

/-- **A handle that is inserted is returned** by every `Get` of its key until the key is inserted
again or its node marked, in a run that nothing disturbs. -/
theorem run_rereads {capicity : Int} {bucketNum : Nat} {before between : List Call} {c c' c'' : HashSkipCache}
    {key : Int64} {handle : Handle} {topLevel : Fin (maxLevel + 1)} (hnum : 0 < bucketNum)
    (hcalls : Stepwise.Along call Undisturbed (make capicity bucketNum).init
      (before ++ .insert key (some handle) topLevel :: (between ++ [.get key])))
    (hbefore : (make capicity bucketNum).init.run before = some c)
    (hinsert : c.call (.insert key (some handle) topLevel) = some c')
    (hspared : Stepwise.Along call (fun c turn => ∀ e ∈ c.events turn, e.spares key = true) c' between)
    (hbetween : c'.run between = some c'') : ∃ last, c''.get key = some (some handle, last) := by
  have hrun : (make capicity bucketNum).init.run (before ++ .insert key (some handle) topLevel :: between) = some c'' :=
    Stepwise.run_append.mpr ⟨c, hbefore, Stepwise.run_cons.mpr ⟨c', hinsert, hbetween⟩⟩
  obtain ⟨last, hget, -⟩ := (run_ready hnum hrun).get key
  have hcall : call c'' (.get key) = some last := Option.map_eq_some_iff.mpr ⟨_, hget, rfl⟩
  have hexact := exact_history (init_ready capicity hnum) (init_bare capicity bucketNum) hcalls
  rw [LossyMap.history_append hbefore, LossyMap.history_cons hinsert, LossyMap.history_append hbetween,
    LossyMap.history_cons hcall] at hexact
  simp only [events, Option.toList_some, List.map_cons, List.map_nil, List.cons_append, List.nil_append] at hexact
  rw [List.append_cons] at hexact
  have hfound := hexact.kept (LossyMap.spares_of_along hspared)
  rw [hget] at hfound
  exact ⟨last, by rw [hget, ← hfound]; rfl⟩

/-- An entry is read, decayed and copied into a new bucket. -/
theorem run_rereads_compacted : ∃ c c' c'', (make 10 1).init.run [.insert 2 (some ⟨1, 4⟩) 0, .decay 0] = some c ∧
    c.call (.insert 1 (some ⟨2, 4⟩) 1) = some c' ∧
    c'.run [.get 1, .decay 0, .insert 3 (some ⟨3, 1⟩) 0, .compact 0 (fun _ => 2)] = some c'' ∧
    ∃ last, c''.get 1 = some (some ⟨2, 4⟩, last) := by
  have hcalls : Stepwise.Along call Undisturbed (make 10 1).init ([.insert 2 (some ⟨1, 4⟩) 0, .decay 0] ++
      .insert 1 (some ⟨2, 4⟩) 1 :: ([.get 1, .decay 0, .insert 3 (some ⟨3, 1⟩) 0, .compact 0 (fun _ => 2)] ++
        [.get 1])) := by
    decide +kernel
  have hany : ((make 10 1).init.run [.insert 2 (some ⟨1, 4⟩) 0, .decay 0]).any (fun c =>
      (c.call (.insert 1 (some ⟨2, 4⟩) 1)).any fun c' =>
        (c'.run [.get 1, .decay 0, .insert 3 (some ⟨3, 1⟩) 0, .compact 0 (fun _ => 2)]).isSome ∧
        Stepwise.Along call (fun c turn => ∀ e ∈ c.events turn, e.spares 1 = true) c'
          [.get 1, .decay 0, .insert 3 (some ⟨3, 1⟩) 0, .compact 0 (fun _ => 2)]) = true := by
    decide +kernel
  obtain ⟨c, hbefore, hrest⟩ := (Option.any_eq_true _ _).mp hany
  obtain ⟨c', hinsert, hboth⟩ := (Option.any_eq_true _ _).mp hrest
  obtain ⟨hsome, hspared⟩ := of_decide_eq_true hboth
  obtain ⟨c'', hbetween⟩ := Option.isSome_iff_exists.mp hsome
  exact ⟨c, c', c'', hbefore, hinsert, hbetween,
    run_rereads (by decide) hcalls hbefore hinsert hspared hbetween⟩

/-! ### Reading what was written -/

/-- No compaction rebuilds the bucket of the key, if this is the largest. -/
def Keeps (key : Int64) (c : HashSkipCache) : Call → Prop
  | .compact i _ => key = Int64.maxValue → c.bucketIndex key = i → ∀ l ∈ c.buckets i, sparse l = true
  | _ => True

instance (key : Int64) (c : HashSkipCache) : DecidablePred (c.Keeps key)
  | .insert .. | .get _ | .decay _ => isTrue trivial
  | .compact .. => inferInstanceAs (Decidable (_ → _))

/-- **The step lemma**: a call that spares the key leaves its handle readable, but for a compaction
that loses the largest key. -/
theorem Ready.kept {n : Nat} {c : HashSkipCache} (hc : c.Ready n) {key : Int64} {handle : Handle}
    (hslot : c.slot key = some (false, some handle)) {turn : Call} (hrange : turn.InRange n)
    (hspared : ∀ e ∈ c.events turn, e.spares key = true) :
    ∃ c', c.call turn = some c' ∧ c'.Ready n ∧ (c'.slot key = some (false, some handle) ↔ c.Keeps key turn) := by
  obtain ⟨c', hrun, hready⟩ := hc.call hrange
  refine ⟨c', hrun, hready, ?_⟩
  cases turn with
  | insert other stored topLevel =>
    refine iff_of_true ?_ trivial
    obtain ⟨c₁, c₂, hroom, hevicts, hstore, hinsert⟩ := hc.insert other stored topLevel
    obtain ⟨c₃, hstore', -, hslots⟩ := (hevicts.ready hc).store other stored topLevel
    cases hstore.symm.trans hstore'
    have hcall : c.call (.insert other stored topLevel) = some c₂ := Option.map_eq_some_iff.mpr ⟨_, hinsert, rfl⟩
    cases hcall.symm.trans hrun
    rw [events, hroom, List.forall_mem_cons] at hspared
    obtain ⟨hkept, hputs⟩ := hspared
    have hslot₁ : c₁.slot key = some (false, some handle) := by
      rcases hevicts.fades.dropped key with ⟨-, hsame⟩ | ⟨hgone, -⟩
      · exact hsame.trans hslot
      · exact absurd (Bool.not_eq_eq_eq_not.mp hkept) (by rw [hgone]; decide)
    cases stored with
    | none =>
      have hsame : c'.slot = c₁.slot := hslots
      rw [hsame, hslot₁]
    | some stored =>
      have hstored : Stored c₁ other stored c' := hslots
      have hne : key ≠ other := Ne.symm (of_decide_eq_true (hputs _ (List.mem_singleton_self _)))
      rcases hstored.other key hne with hsame | ⟨x, hwas, -⟩
      · rw [hsame, hslot₁]
      · cases hslot₁.symm.trans hwas
  | get other =>
    obtain ⟨c₁, hget, -, hsame⟩ := hc.get other
    have hcall : c.call (.get other) = some c₁ := Option.map_eq_some_iff.mpr ⟨_, hget, rfl⟩
    cases hcall.symm.trans hrun
    rw [hsame]
    exact iff_of_true hslot trivial
  | decay i =>
    obtain ⟨-, hdecay⟩ := Option.ite_none_right_eq_some.mp hrun
    obtain ⟨c₁, hdecay', -, hfades⟩ := hc.decay i
    cases hdecay.symm.trans hdecay'
    rw [events, hdecay, List.forall_mem_singleton] at hspared
    refine iff_of_true ?_ trivial
    rcases hfades.dropped key with ⟨-, hsame⟩ | ⟨hgone, -⟩
    · exact hsame.trans hslot
    · exact absurd (Bool.not_eq_eq_eq_not.mp hspared) (by rw [hgone]; decide)
  | compact i levels =>
    obtain ⟨hi, hcompact⟩ := Option.ite_none_right_eq_some.mp hrun
    obtain ⟨l, hbucket⟩ := hc.buckets i hrange
    obtain ⟨new, hnew, hreturn⟩ := Option.bind_eq_some_iff.mp hcompact
    have hdense := compactOneBucket_isSome hbucket hnew
    cases new with
    | none =>
      cases hreturn
      refine iff_of_true hslot fun _ _ m hm => ?_
      cases hbucket.symm.trans hm
      exact Bool.not_eq_eq_eq_not.mp hdense.symm
    | some new =>
      cases hreturn
      have hshown := (swap_slot hc hnew key).2
      rw [AtomicSkipList.shown_eq_some.mpr hslot] at hshown
      rw [← AtomicSkipList.shown_eq_some, hshown]
      by_cases hlargest : c.bucketIndex key = i ∧ key = Int64.maxValue
      · rw [if_pos hlargest]
        refine iff_of_false nofun fun hkeeps => ?_
        rw [hkeeps hlargest.2 hlargest.1 l hbucket] at hdense
        cases hdense
      · rw [if_neg hlargest]
        exact iff_of_true rfl fun hmax hindex => absurd ⟨hindex, hmax⟩ hlargest

/-- **Reading your own write**: after an `Insert`, and as long as the key is not inserted again or
its node marked, `Get` returns the handle throughout if and only if the node was not marked when
the handle was stored, and no compaction rebuilds the bucket of the largest key, if it is this. -/
theorem run_reads_iff {capicity : Int} {bucketNum : Nat} {before between : List Call} {c c₁ c' : HashSkipCache}
    {key : Int64} {handle : Handle} {topLevel : Fin (maxLevel + 1)} (hnum : 0 < bucketNum)
    (hbefore : (make capicity bucketNum).init.run before = some c) (hroom : c.room (some handle) = some c₁)
    (hinsert : c.insert key (some handle) [topLevel.val] = some (true, c'))
    (hrange : ∀ turn ∈ between, turn.InRange bucketNum)
    (hspared : Stepwise.Along call (fun c turn => ∀ e ∈ c.events turn, e.spares key = true) c' between) :
    (∀ past, past <+: between → ∃ d last, c'.run past = some d ∧ d.get key = some (some handle, last)) ↔
      c₁.keyMarked key = false ∧ Stepwise.Along call (Keeps key) c' between := by
  obtain ⟨c₂, c₃, hroom', hevicts, hstore, hinsert'⟩ := (run_ready hnum hbefore).insert key (some handle) topLevel
  cases hroom'.symm.trans hroom
  cases hinsert'.symm.trans hinsert
  obtain ⟨c₃, hstore', hready, hslot⟩ := (hevicts.ready (run_ready hnum hbefore)).store key (some handle) topLevel
  cases hstore.symm.trans hstore'
  have hself : c'.slot key = some (c₁.keyMarked key, some handle) := Stored.self hslot
  -- what the prefixes lead to, as a statement on slots
  have hreads : (∀ past, past <+: between → ∃ d last, c'.run past = some d ∧ d.get key = some (some handle, last)) ↔
      ∀ past, past <+: between → ∀ d, c'.run past = some d → d.slot key = some (false, some handle) := by
    refine forall₂_congr fun past hpast => ?_
    obtain ⟨d, hrun, hd⟩ := hready.run fun turn hturn => hrange turn (hpast.subset hturn)
    obtain ⟨last, hget, -⟩ := hd.get key
    constructor
    · rintro ⟨e, last', he, hget'⟩ e' he'
      cases hrun.symm.trans he
      cases hrun.symm.trans he'
      rw [hget] at hget'
      exact AtomicSkipList.shown_eq_some.mp (congrArg Prod.fst (Option.some.inj hget'))
    · intro hall
      rw [hall d hrun] at hget
      exact ⟨d, last, hrun, hget⟩
  have halong : Stepwise.Along call (fun c turn => turn.InRange bucketNum ∧ ∀ e ∈ c.events turn, e.spares key = true)
      c' between :=
    (Stepwise.along_of_mem (fun turn hturn _ => hrange turn hturn) _).and hspared
  have hstep : ∀ (d : HashSkipCache) (turn : Call), d.Ready bucketNum → d.slot key = some (false, some handle) →
      (turn.InRange bucketNum ∧ ∀ e ∈ d.events turn, e.spares key = true) → ∃ d', d.call turn = some d' ∧
        d'.Ready bucketNum ∧ (d'.slot key = some (false, some handle) ↔ d.Keeps key turn) :=
    fun d turn hd hslot hturn => hd.kept hslot hturn.1 hturn.2
  rw [hreads]
  constructor
  · intro hall
    have hfirst := hall [] List.nil_prefix c' rfl
    have hmark : c₁.keyMarked key = false := congrArg Prod.fst (Option.some.inj (hself.symm.trans hfirst))
    exact ⟨hmark, (Stepwise.along_iff hstep hready hfirst halong).mp hall⟩
  · rintro ⟨hmark, hkeeps⟩
    rw [hmark] at hself
    exact (Stepwise.along_iff hstep hready hself halong).mpr hkeeps

/-- An entry is read, decayed and copied into a new bucket, and its key inserted with no handle. -/
theorem run_reads_iff_compacted : ∃ c c', (make 10 1).init.run [.insert 2 (some ⟨1, 4⟩) 0, .decay 0] = some c ∧
    c.insert 1 (some ⟨2, 4⟩) [1] = some (true, c') ∧
    ∀ past, past <+: [Call.get 1, .decay 0, .insert 3 (some ⟨3, 1⟩) 0, .compact 0 (fun _ => 2), .insert 1 none 0] →
      ∃ d last, c'.run past = some d ∧ d.get 1 = some (some ⟨2, 4⟩, last) := by
  have hany : ((make 10 1).init.run [.insert 2 (some ⟨1, 4⟩) 0, .decay 0]).any (fun c =>
      (c.room (some ⟨2, 4⟩)).any fun c₁ => (c.insert 1 (some ⟨2, 4⟩) [1]).any fun r => r.1 = true ∧
        c₁.keyMarked 1 = false ∧
        Stepwise.Along call (fun c turn => ∀ e ∈ c.events turn, e.spares 1 = true) r.2
          [.get 1, .decay 0, .insert 3 (some ⟨3, 1⟩) 0, .compact 0 (fun _ => 2), .insert 1 none 0] ∧
        Stepwise.Along call (Keeps 1) r.2
          [.get 1, .decay 0, .insert 3 (some ⟨3, 1⟩) 0, .compact 0 (fun _ => 2), .insert 1 none 0]) = true := by
    decide +kernel
  obtain ⟨c, hbefore, hrest⟩ := (Option.any_eq_true _ _).mp hany
  obtain ⟨c₁, hroom, hrest⟩ := (Option.any_eq_true _ _).mp hrest
  obtain ⟨⟨stored, c'⟩, hinsert, hall⟩ := (Option.any_eq_true _ _).mp hrest
  obtain ⟨rfl, hmark, hspared, hkeeps⟩ := of_decide_eq_true hall
  have hlevel : c.insert 1 (some ⟨2, 4⟩) [(1 : Fin (maxLevel + 1)).val] = some (true, c') := hinsert
  exact ⟨c, c', hbefore, hinsert,
    (run_reads_iff (by decide) hbefore hroom hlevel (by decide) hspared).mpr ⟨hmark, hkeeps⟩⟩

/-- A key that has decayed away is inserted again: the handle cannot be read. -/
theorem insert_unread : ¬ ∀ (capicity : Int) (bucketNum : Nat) (before : List Call) (c c' : HashSkipCache) (key : Int64)
    (handle : Handle) (topLevel : Fin (maxLevel + 1)), 0 < bucketNum →
    (make capicity bucketNum).init.run before = some c → c.insert key (some handle) [topLevel.val] = some (true, c') →
    ∃ last, c'.get key = some (some handle, last) := by
  intro hclaim
  have hany : ((make 10 1).init.run [.insert 1 (some ⟨1, 4⟩) 0, .decay 0, .decay 0]).any (fun c =>
      (c.insert 1 (some ⟨2, 4⟩) [(0 : Fin (maxLevel + 1)).val]).any fun r => r.1 = true ∧
        (r.2.get 1).any fun found => found.1 = none) = true := by
    decide +kernel
  obtain ⟨c, hrun, hrest⟩ := (Option.any_eq_true _ _).mp hany
  obtain ⟨⟨stored, c'⟩, hinsert, hboth⟩ := (Option.any_eq_true _ _).mp hrest
  obtain ⟨rfl, hfound⟩ := of_decide_eq_true hboth
  obtain ⟨last, hget⟩ := hclaim 10 1 _ c c' 1 ⟨2, 4⟩ 0 (by decide) hrun hinsert
  rw [hget, Option.any_some] at hfound
  exact absurd (of_decide_eq_true hfound) (Option.some_ne_none _)

end HyperCache.HashSkip.HashSkipCache
