import HyperCache.Lib.Recency
import HyperCache.Lru.Accounts

/-! A shard follows the strict LRU policy.

What callers can see of a run is a log of events: an insertion, a hit, and the eviction of
each key an insertion has made leave. The log says when a key was last used and which
handle it was last given; that `entries_` is ordered by the one and `Get` returns the
other is proved from the log, for handles without deleters whose charges do not change. -/
namespace HyperCache.Lru
open Recency Fallible

inductive Event (Key : Type)
  | inserted (key : Key) (handle : Handle)
  | hit (key : Key)
  | evicted (key : Key)

namespace Event
variable {Key : Type} [DecidableEq Key]

/-- An access: an insertion or a hit. -/
def uses (key : Key) : Event Key → Bool
  | .inserted key' _ => key' = key
  | .hit key' => key' = key
  | .evicted _ => false

/-- The handle of the last insertion of a key, unless it was evicted since. -/
def latest (key : Key) : List (Event Key) → Option Handle
  | [] => none
  | .inserted key' handle :: log => if key' = key then some handle else latest key log
  | .hit _ :: log => latest key log
  | .evicted key' :: log => if key' = key then none else latest key log

theorem latest_evicted {keys : List Key} {log : List (Event Key)} {key : Key} :
    latest key (keys.map .evicted ++ log) = if key ∈ keys then none else latest key log := by
  induction keys with
  | nil => simp
  | cons key' keys ih =>
    simp only [List.map_cons, List.cons_append, latest, ih, List.mem_cons]
    by_cases heq : key' = key
    · simp [heq]
    · simp [heq, Ne.symm heq]

end Event

namespace LRUCacheShard
variable {Key : Type} [DecidableEq Key] {s t : LRUCacheShard Key} {key : Key} {handle : Handle}
  {log : List (Event Key)} {call : Call Key} {result : Option Handle}

/-- The keys a call has made leave the list. -/
def left (s t : LRUCacheShard Key) : List Key :=
  (s.entries.map (·.first)).filter (· ∉ t.entries.map (·.first))

/-- What a call that takes the shard from `s` to `t` adds to the log. -/
def record (s t : LRUCacheShard Key) (log : List (Event Key)) : Call Key → List (Event Key)
  | .get key => if key ∈ s.entries.map (·.first) then .hit key :: log else log
  | .insert key handle => .inserted key handle :: ((left s t).map .evicted ++ log)

/-- A run, with its log. -/
def runLogged (s : LRUCacheShard Key) (calls : List (Call Key)) :
    Except Fault (LRUCacheShard Key × List (Event Key)) :=
  calls.foldlM (fun x call => do
    let (t, _) ← x.1.step call
    return (t, record x.1 t x.2 call)) (s, [])

/-- When an entry was last used. -/
def stamp (log : List (Event Key)) (e : Element Key) : Nat := lastUse (Event.uses e.first) log

/-- What the policy asks of one call. -/
structure Strict (s : LRUCacheShard Key) (log : List (Event Key)) (call : Call Key)
    (t : LRUCacheShard Key) (result : Option Handle) : Prop where
  /-- Most recently used first. -/
  ordered : Ordered (stamp (record s t log call)) t.entries
  /-- `Get` returns what was last inserted and not evicted. -/
  found : ∀ key, call = .get key → result = Event.latest key log
  /-- A new key evicts the shortest suffix that lets both limits admit it. -/
  evicts : ∀ key handle, call = .insert key handle → key ∉ s.entries.map (·.first) →
    ∃ kept gone, Evicts (s.Admitted handle.totalCharge) s.entries kept gone ∧
      t.entries = ⟨s.nodes, key, handle⟩ :: kept
  /-- Any other call evicts nothing. -/
  retains : (∀ key handle, call = .insert key handle → key ∈ s.entries.map (·.first)) →
    (t.entries.map (·.first)).Perm (s.entries.map (·.first))

/-- The shard agrees with the log. -/
structure Logged (s : LRUCacheShard Key) (log : List (Event Key)) : Prop where
  ordered : Ordered (stamp log) s.entries
  present : ∀ e ∈ s.entries, Event.latest e.first log = some e.second
  absent : ∀ key, key ∉ s.entries.map (·.first) → Event.latest key log = none

/-! ### One call -/

theorem stamp_front (events : List (Event Key)) {ev : Event Key} {x : Element Key}
    {l : List (Element Key)} (h : Ordered (stamp log) s.entries) (hsub : l.Sublist s.entries)
    (hne : ∀ a ∈ l, a.first ≠ x.first) (hev : ∀ k, ev.uses k = decide (x.first = k))
    (hevents : ∀ ev ∈ events, ∀ k, ev.uses k = false) :
    Ordered (stamp (ev :: (events ++ log))) (x :: l) := by
  refine h.front hsub (fun a ha => ?_) fun a ha => ?_
  · have hneg : ev.uses a.first = false := by
      rw [hev]
      exact decide_eq_false (hne a ha).symm
    rw [stamp, lastUse_cons_of_neg hneg, lastUse_append fun ev hmem => hevents ev hmem _]
    rfl
  · have hpos : ev.uses x.first = true := by
      rw [hev]
      exact decide_eq_true rfl
    rw [stamp, stamp, lastUse_cons_of_pos hpos, List.length_append]
    have hle : Recency.lastUse (Event.uses a.first) log ≤ log.length := Recency.lastUse_le
    omega

/-- Both agree with the log, the accounts are right, and no entry has a deleter. -/
structure Follows (s : LRUCacheShard Key) (log : List (Event Key)) : Prop where
  accounted : Accounted s
  logged : Logged s log
  plain : ∀ e ∈ s.entries, e.second.delCb = none

theorem make_follows (o : CacheSharedOptions) : Follows (make o : LRUCacheShard Key) [] :=
  ⟨make_accounted o, ⟨.nil, nofun, fun _ _ => rfl⟩, nofun⟩

theorem Follows.miss (h : Follows s log) (hkey : key ∉ s.entries.map (·.first)) :
    ∃ t result, s.step (.get key) = .ok (t, result) ∧ Strict s log (.get key) t result ∧
      Follows t (record s t log (.get key)) := by
  have hrecord : record s s log (.get key) = log := if_neg hkey
  refine ⟨s, none, get_miss h.accounted.represents hkey, ⟨?_, ?_, nofun, fun _ => .rfl⟩, ?_⟩
  · rw [hrecord]
    exact h.logged.ordered
  · rintro key' hcall
    cases hcall
    exact (h.logged.absent key hkey).symm
  · rw [hrecord]
    exact h

/-- An entry is used: it goes to the front, perhaps with another handle. -/
theorem Logged.use (h : Logged s log) (hrep : Represents s) {e : Element Key} (e' : Element Key)
    (ev : Event Key) (he : e ∈ s.entries) (hfirst : e'.first = e.first)
    (hev : ∀ k, ev.uses k = decide (e.first = k))
    (hlatest : ∀ k, Event.latest k (ev :: log) =
      if e.first = k then some e'.second else Event.latest k log)
    (deleted : List Deletion) :
    Logged {s with deleted := deleted, entries := e' :: s.without e.node} (ev :: log) := by
  obtain ⟨hsub, hne, hperm⟩ := hrep.without he
  refine ⟨?_, fun a ha => ?_, fun k hk => ?_⟩
  · refine stamp_front [] h.ordered hsub (fun a ha => ?_) (fun k => ?_) nofun
    · exact hfirst ▸ hne a ha
    · exact hfirst ▸ hev k
  · rw [hlatest]
    rcases List.mem_cons.mp ha with rfl | ha
    · exact if_pos hfirst.symm
    · rw [if_neg (hne a ha).symm]
      exact h.present a (hsub.subset ha)
  · rw [List.map_cons, List.mem_cons, not_or] at hk
    rw [hlatest, if_neg (hfirst ▸ Ne.symm hk.1)]
    refine h.absent k fun hmem => ?_
    have := (hperm.map (·.first)).subset hmem
    rcases List.mem_cons.mp this with rfl | hmem
    · exact hk.1 hfirst.symm
    · exact hk.2 hmem

theorem Follows.hit (h : Follows s log) {e : Element Key} (he : e ∈ s.entries) :
    ∃ t result, s.step (.get e.first) = .ok (t, result) ∧
      Strict s log (.get e.first) t result ∧ Follows t (record s t log (.get e.first)) := by
  have hkey : e.first ∈ s.entries.map (·.first) := List.mem_map_of_mem he
  have hrep := h.accounted.represents
  have hlogged := h.logged.use hrep e (.hit e.first) he rfl (fun _ => rfl) (fun k => by
    by_cases hk : e.first = k
    · rw [if_pos hk, ← hk]
      exact h.logged.present e he
    · rw [if_neg hk]
      rfl) s.deleted
  have hperm := (hrep.without he).2.2
  refine ⟨_, _, get_hit hrep he, ⟨?_, ?_, nofun, fun _ => ?_⟩, ?_⟩
  · rw [record, if_pos hkey]
    exact hlogged.ordered
  · rintro key' hcall
    cases hcall
    exact (h.logged.present e he).symm
  · exact (hperm.map (·.first)).symm
  · rw [record, if_pos hkey]
    exact ⟨h.accounted.reorder e he rfl rfl rfl s.deleted, hlogged,
      fun a ha => h.plain a (hperm.symm.subset ha)⟩

theorem left_of_perm (h : (t.entries.map (·.first)).Perm (s.entries.map (·.first))) :
    left s t = [] := by
  refine List.filter_eq_nil_iff.mpr fun k hk => ?_
  simpa using h.symm.subset hk

theorem Follows.update (h : Follows s log) {e : Element Key} (he : e ∈ s.entries)
    (hsame : handle.totalCharge = e.second.totalCharge) (hdel : handle.delCb = none) :
    ∃ t result, s.step (.insert e.first handle) = .ok (t, result) ∧
      Strict s log (.insert e.first handle) t result ∧
      Follows t (record s t log (.insert e.first handle)) := by
  have hkey : e.first ∈ s.entries.map (·.first) := List.mem_map_of_mem he
  have hrep := h.accounted.represents
  have hperm := (hrep.without he).2.2
  have hlogged := h.logged.use hrep {e with second := handle}
    (.inserted e.first handle) he rfl (fun _ => rfl) (fun _ => rfl)
    (s.deleted ++ e.second.deletions true)
  have hkeys : ((({e with second := handle} : Element Key) :: s.without e.node).map
      (·.first)).Perm (s.entries.map (·.first)) := (hperm.map (·.first)).symm
  refine ⟨_, none, step_insert (insert_same hrep he hsame), ⟨?_, nofun, ?_, fun _ => hkeys⟩, ?_⟩
  · rw [record, left_of_perm hkeys]
    exact hlogged.ordered
  · rintro key' handle' hcall hnot
    cases hcall
    exact absurd hkey hnot
  · rw [record, left_of_perm hkeys]
    refine ⟨h.accounted.reorder {e with second := handle} he hsame rfl rfl _, hlogged,
      fun a ha => ?_⟩
    rcases List.mem_cons.mp ha with rfl | ha
    · exact hdel
    · exact h.plain a ((hrep.without he).1.subset ha)

/-- What leaves for a new entry are the keys behind those that are kept. -/
theorem mem_left_emplaceFront (h : Represents s) (hkey : key ∉ s.entries.map (·.first)) (m k) :
    k ∈ left s ((s.keep m).emplaceFront key handle) ↔
      k ∈ (s.entries.drop m).map (·.first) := by
  have hsplit : s.entries.map (·.first) =
      (s.entries.take m).map (·.first) ++ (s.entries.drop m).map (·.first) := by
    rw [← List.map_append, List.take_append_drop]
  have hnodup := List.nodup_append.mp (hsplit ▸ h.keys)
  rw [left, List.mem_filter, decide_eq_true_eq]
  change _ ∧ k ∉ key :: (s.entries.take m).map (·.first) ↔ _
  rw [hsplit, List.mem_append, List.mem_cons, not_or]
  constructor
  · rintro ⟨hk | hk, hne, hnot⟩
    · exact absurd hk hnot
    · exact hk
  · intro hk
    refine ⟨.inr hk, ?_, fun hk' => hnodup.2.2 k hk' k hk rfl⟩
    rintro rfl
    exact hkey (hsplit ▸ List.mem_append_right _ hk)

theorem Follows.emplace (h : Follows s log) (hkey : key ∉ s.entries.map (·.first))
    (hdel : handle.delCb = none) (hle : s.capacity ≠ 0 → handle.totalCharge ≤ s.capacity)
    (hsum : charges s.entries + handle.totalCharge.toNat < 2 ^ 64) :
    ∃ t result, s.step (.insert key handle) = .ok (t, result) ∧
      Strict s log (.insert key handle) t result ∧
      Follows t (record s t log (.insert key handle)) := by
  have hrep := h.accounted.represents
  have hwhole : ∀ e ∈ s.entries.drop (s.kept handle.totalCharge), Whole e := fun e he => by
    simp [Whole, Handle.freeData, Handle.frees, h.plain e (List.mem_of_mem_drop he)]
  have hleft : ∀ k, k ∈ left s ((s.keep (s.kept handle.totalCharge)).emplaceFront key handle) ↔
      k ∈ (s.entries.drop (s.kept handle.totalCharge)).map (·.first) :=
    mem_left_emplaceFront hrep hkey (s.kept handle.totalCharge)
  generalize ht : (s.keep (s.kept handle.totalCharge)).emplaceFront key handle = t at hleft
  have hentries : t.entries =
      ⟨s.nodes, key, handle⟩ :: s.entries.take (s.kept handle.totalCharge) := by
    rw [← ht]
    rfl
  have hne : ∀ a ∈ s.entries.take (s.kept handle.totalCharge), a.first ≠ key :=
    fun a ha heq => hkey (List.mem_map.mpr ⟨a, List.mem_of_mem_take ha, heq⟩)
  have hordered : Ordered (stamp (record s t log (.insert key handle))) t.entries := by
    rw [hentries, record]
    refine stamp_front _ h.logged.ordered (List.take_sublist ..) hne (fun _ => rfl) ?_
    intro ev hev k
    obtain ⟨k', -, rfl⟩ := List.mem_map.mp hev
    rfl
  have hstep := step_insert (insert_new_kept hrep h.accounted.usage hkey hle hsum hwhole)
  refine ⟨t, none, ht ▸ hstep, ⟨hordered, nofun, ?_, ?_⟩, ?_, ⟨hordered, ?_, ?_⟩, ?_⟩
  · rintro key' handle' hcall -
    cases hcall
    refine ⟨_, _, evicts_take kept_le (kept_admitted hle) ?_, hentries⟩
    exact fun i hi hlen => not_admitted_of_kept_lt hi hlen
  · exact fun hall => absurd (hall key handle rfl) hkey
  · exact ht ▸ h.accounted.emplace hkey hle hsum hwhole
  · intro a ha
    rw [hentries] at ha
    rw [record, Event.latest, Event.latest_evicted]
    rcases List.mem_cons.mp ha with rfl | ha
    · exact if_pos rfl
    · have hstay : a.first ∉ left s t := fun hl => by
        have hgone := of_decide_eq_true (List.mem_filter.mp hl).2
        exact hgone (hentries ▸ List.mem_map_of_mem (List.mem_cons_of_mem _ ha))
      rw [if_neg (hne a ha).symm, if_neg hstay]
      exact h.logged.present a (List.mem_of_mem_take ha)
  · intro k hk
    rw [hentries, List.map_cons, List.mem_cons, not_or] at hk
    rw [record, Event.latest, Event.latest_evicted, if_neg (Ne.symm hk.1)]
    split
    · rfl
    · next hstay =>
      refine h.logged.absent k fun hmem => hstay ((hleft k).mpr ?_)
      rw [← List.take_append_drop (s.kept handle.totalCharge) s.entries, List.map_append] at hmem
      exact (List.mem_append.mp hmem).resolve_left hk.2
  · intro a ha
    rw [hentries] at ha
    rcases List.mem_cons.mp ha with rfl | ha
    · exact hdel
    · exact h.plain a (List.mem_of_mem_take ha)

/-! ### Every run -/

/-- A call the policy is about: its handle has no deleter, it fits the capacity, it repeats
the charge of a present key, and the sum with a new key's charge stays in the word. -/
def Plain (s : LRUCacheShard Key) : Call Key → Prop
  | .get _ => True
  | .insert key handle =>
    handle.delCb = none ∧ (s.capacity ≠ 0 → handle.totalCharge ≤ s.capacity) ∧
    (∀ e ∈ s.entries, e.first = key → handle.totalCharge = e.second.totalCharge) ∧
    (key ∉ s.entries.map (·.first) →
      charges s.entries + handle.totalCharge.toNat < 2 ^ 64)

instance (s : LRUCacheShard Key) : DecidablePred (Plain s)
  | .get _ => isTrue trivial
  | .insert key handle => inferInstanceAs (Decidable (
    handle.delCb = none ∧ (s.capacity ≠ 0 → handle.totalCharge ≤ s.capacity) ∧
    (∀ e ∈ s.entries, e.first = key → handle.totalCharge = e.second.totalCharge) ∧
    (key ∉ s.entries.map (·.first) →
      charges s.entries + handle.totalCharge.toNat < 2 ^ 64)))

theorem Follows.step (h : Follows s log) (hplain : Plain s call) :
    ∃ t result, s.step call = .ok (t, result) ∧ Strict s log call t result ∧
      Follows t (record s t log call) := by
  cases call with
  | get key =>
    by_cases hkey : key ∈ s.entries.map (·.first)
    · obtain ⟨e, he, rfl⟩ := List.mem_map.mp hkey
      exact h.hit he
    · exact h.miss hkey
  | insert key handle =>
    obtain ⟨hdel, hle, hsame, hsum⟩ := hplain
    by_cases hkey : key ∈ s.entries.map (·.first)
    · obtain ⟨e, he, rfl⟩ := List.mem_map.mp hkey
      exact h.update he (hsame e he rfl) hdel
    · exact h.emplace hkey hdel hle (hsum hkey)

theorem runLogged_concat {calls : List (Call Key)} {u : LRUCacheShard Key}
    (h : s.runLogged calls = .ok (t, log)) (hstep : t.step call = .ok (u, result)) :
    s.runLogged (calls ++ [call]) = .ok (u, record t u log call) := by
  have hbind : s.runLogged (calls ++ [call]) = s.runLogged calls >>= fun x => do
      let (t, _) ← x.1.step call
      return (t, record x.1 t x.2 call) := by
    simp only [runLogged, List.foldlM_append, List.foldlM_cons, List.foldlM_nil, bind_pure]
  rw [hbind, h, ok_bind, hstep]
  rfl

theorem run_follows (o : CacheSharedOptions) (calls : List (Call Key))
    (hplain : Along Plain (make o : LRUCacheShard Key) calls) :
    ∃ s log, (make o).run calls = .ok s ∧ (make o).runLogged calls = .ok (s, log) ∧
      Follows s log := by
  induction calls using List.reverseRecOn with
  | nil => exact ⟨_, [], rfl, rfl, make_follows o⟩
  | append_singleton calls call ih =>
    replace hplain := along_concat.mp hplain
    obtain ⟨s, log, hrun, hlogged, h⟩ := ih hplain.1
    obtain ⟨t, result, hstep, -, ht⟩ := h.step (hplain.2 s hrun)
    exact ⟨t, _, run_concat.mpr ⟨s, result, hrun, hstep⟩, runLogged_concat hlogged hstep, ht⟩

/-- **A shard follows the strict LRU policy** in every call of every run of plain calls. -/
theorem run_strict (o : CacheSharedOptions) (calls : List (Call Key)) (call : Call Key)
    (hplain : Along Plain (make o : LRUCacheShard Key) (calls ++ [call])) :
    ∃ s log t result, (make o).runLogged calls = .ok (s, log) ∧
      s.step call = .ok (t, result) ∧ Strict s log call t result := by
  replace hplain := along_concat.mp hplain
  obtain ⟨s, log, hrun, hlogged, h⟩ := run_follows o calls hplain.1
  obtain ⟨t, result, hstep, hstrict, -⟩ := h.step (hplain.2 s hrun)
  exact ⟨s, log, t, result, hlogged, hstep, hstrict⟩

/-- Three entries at the limit of three: the hit saves the oldest, and the fourth evicts the
other two. -/
theorem run_strict_evicting :
    ∃ s log t result, (make ⟨10, 3, 0⟩ : LRUCacheShard Nat).runLogged
        [.insert 1 ⟨some 1, none, 4⟩, .insert 2 ⟨some 2, none, 2⟩, .insert 3 ⟨some 3, none, 3⟩,
          .get 1] = .ok (s, log) ∧
      s.step (.insert 4 ⟨some 4, none, 6⟩) = .ok (t, result) ∧
      Strict s log (.insert 4 ⟨some 4, none, 6⟩) t result :=
  run_strict ⟨10, 3, 0⟩ _ _ (by decide)

end LRUCacheShard
end HyperCache.Lru
