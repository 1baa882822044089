import HyperCache.HashSkip.History
import HyperCache.Lib.Snapshot

/-! Compaction of a bucket that other threads are at work on.

The compactor goes through the list it has loaded, copies one node after the other into a new
list, and stores that one. Meanwhile other threads insert into the list they have loaded, and
delete its nodes. One step is a load or the store of the bucket's pointer, one call on a list,
or one turn of the compactor's loop.

So what is stored is no state the bucket ever had. Each key is copied at a moment of its own,
in the order of the keys, and the new list shows what the old one did at that moment: what a
thread does to the key through the old list before it is kept, what it does afterwards is lost
(`run_snapshot`). -/
namespace HyperCache.HashSkip

/-- A call of a thread on a list. Nodes are those that `Get` and `IterateLevel` give the threads
of the cache: `tail_` is not among them. -/
inductive AtomicSkipList.Access where
  | insert (key : Int64) (handle : Option Handle) (topLevel : Fin (maxLevel + 1))
  | get (key : Int64)
  | decrHitCount (node : Nat)
  | markDeleted (node : Nat)
  | markNode (node : Nat)

namespace AtomicSkipList

/-- `none`: it does not return, or the list has no such node. -/
def access (l : AtomicSkipList) : Access → Option AtomicSkipList
  | .insert key handle topLevel => (l.insert key handle [topLevel.val]).map Prod.snd
  | .get key => (l.get key).map Prod.snd
  | .decrHitCount a => if a ∈ l.nodes then some (l.setNode a ((l.node a).decrHitCount 100).2) else none
  | .markDeleted a => if a ∈ l.nodes then some (l.markDeleted a).2 else none
  | .markNode a => if a ∈ l.nodes then some (l.markNode a).2 else none

/-- The access inserts the key, or deletes its node. -/
def Access.Touches (l : AtomicSkipList) (key : Int64) : Access → Prop
  | .insert k _ _ => k = key
  | .markDeleted a | .markNode a => (l.node a).key = key
  | _ => False

instance (l : AtomicSkipList) (key : Int64) : DecidablePred (Access.Touches l key)
  | .insert k _ _ => inferInstanceAs (Decidable (k = key))
  | .markDeleted a | .markNode a => inferInstanceAs (Decidable ((l.node a).key = key))
  | .get _ | .decrHitCount _ => isFalse id

end AtomicSkipList

/-! ### Accesses -/

namespace AtomicSkipList

/-- No node goes, and each keeps its key. -/
structure Grown (l : AtomicSkipList) (as : List Nat) (l' : AtomicSkipList) (as' : List Nat) : Prop where
  usable : Usable l' as'
  mem : ∀ a ∈ as, a ∈ as'
  key : ∀ a ∈ as, (l'.node a).key = (l.node a).key

/-- A slot is as it was, or has lost its mark. -/
def SlotKept (l l' : AtomicSkipList) (key : Int64) : Prop :=
  l'.slot key = l.slot key ∨ ∃ handle, l.slot key = some (true, handle) ∧ l'.slot key = some (false, handle)

section Access
variable {l l' : AtomicSkipList} {as : List Nat} {a : Nat} {key : Int64}

/-- One node changes, not in its key. -/
theorem Usable.grown_setNode {n : Node} (h : Usable (l.setNode a n) as) (hkey : n.key = (l.node a).key) :
    Grown l as (l.setNode a n) as := by
  refine ⟨h, fun _ hb => hb, fun b _ => ?_⟩
  by_cases hba : b = a
  · subst hba
    rw [node_setNode_self, hkey]
  · rw [node_setNode_of_ne l n hba]

theorem insert_nodes (h : Listed l as) {handle : Handle} {topLevel : Fin (maxLevel + 1)} {old : Option Handle}
    (hinsert : l.insert key (some handle) [topLevel.val] = some (old, l')) :
    ∀ a ∈ as, a ∈ l'.nodes ∧ (l'.node a).key = (l.node a).key := by
  rcases insert_cases h key handle (Nat.le_of_lt_succ topLevel.isLt) [] with
    ⟨b, hb, -, hcase⟩ | ⟨-, p, l₁, as', hin, hcase⟩
  · cases hcase.symm.trans hinsert
    have hlisted : Listed (l.updateHandle b (some handle)) as := h.setNode rfl rfl rfl fun _ => rfl
    intro a ha
    refine ⟨hlisted.nodes_eq ▸ ha, ?_⟩
    rw [updateHandle]
    by_cases hab : a = b
    · subst hab
      rw [node_setNode_self]
    · rw [node_setNode_of_ne l _ hab]
  · cases hcase.symm.trans hinsert
    intro a ha
    refine ⟨hin.listed.nodes_eq ▸ (hin.mem a).mpr (.inr ha), ?_⟩
    exact (hin.node a (List.mem_append_left _ (List.mem_cons_of_mem _ ha))).1

theorem Usable.insert_grown (h : Usable l as) (handle : Option Handle) {topLevel : Fin (maxLevel + 1)}
    {old : Option Handle} (hinsert : l.insert key handle [topLevel.val] = some (old, l')) :
    ∃ as', Grown l as l' as' ∧ ∀ k ≠ key, SlotKept l l' k := by
  cases handle with
  | none =>
    cases hinsert
    exact ⟨as, ⟨h, fun _ ha => ha, fun _ _ => rfl⟩, fun _ _ => .inl rfl⟩
  | some handle =>
    obtain ⟨old', l₁, as', hinsert', husable, hstored⟩ := h.insert key handle topLevel
    cases hinsert'.symm.trans hinsert
    have hnodes := insert_nodes h.formed.listed hinsert
    rw [husable.formed.listed.nodes_eq] at hnodes
    exact ⟨as', ⟨husable, fun a ha => (hnodes a ha).1, fun a ha => (hnodes a ha).2⟩, hstored.other⟩

theorem get_key {found : Option Handle} (hget : l.get key = some (found, l')) (a : Nat) :
    (l'.node a).key = (l.node a).key := by
  obtain ⟨node, -, hreturn⟩ := Option.bind_eq_some_iff.mp hget
  cases node with
  | none =>
    cases hreturn
    rfl
  | some b =>
    cases hreturn
    by_cases hab : a = b
    · subst hab
      rw [node_setNode_self, Node.incrHitCount]
      split <;> rfl
    · rw [node_setNode_of_ne l _ hab]

theorem Usable.markNode_grown (h : Usable l as) (ha : a ∈ as) :
    Grown l as (l.markNode a).2 as ∧ ∀ k ≠ (l.node a).key, (l.markNode a).2.slot k = l.slot k := by
  have hmem : a ∈ as ++ [tail] := List.mem_append_left _ ha
  obtain ⟨hkey, -, -, -, hsame, -⟩ := markDeleted_shape (l.node a)
  cases hmark : (l.node a).isMarked with
  | true =>
    obtain ⟨husable, hslot⟩ := h.setHits hmem (l.node a).hitCount
    rw [markNode_eq, hsame hmark]
    exact ⟨husable.grown_setNode rfl, fun k _ => congrFun hslot k⟩
  | false =>
    obtain ⟨husable, -⟩ := h.markNode ha hmark
    refine ⟨husable.grown_setNode hkey, fun k hk => ?_⟩
    rw [h.markNode_slot ha hmark, Function.update_of_ne hk]

/-- **What an access does**, on a list without a marked `tail_`. -/
theorem Usable.access (h : Usable l as) {access : Access} (hrun : l.access access = some l') :
    ∃ as', Grown l as l' as' ∧ ∀ key, ¬ access.Touches l key → SlotKept l l' key := by
  cases access with
  | insert k handle topLevel =>
    obtain ⟨⟨old, l₁⟩, hinsert, rfl⟩ := Option.map_eq_some_iff.mp hrun
    obtain ⟨as', hgrown, hkept⟩ := h.insert_grown handle hinsert
    exact ⟨as', hgrown, fun key hkey => hkept key fun heq => hkey heq.symm⟩
  | get k =>
    obtain ⟨⟨found, l₁⟩, hget, rfl⟩ := Option.map_eq_some_iff.mp hrun
    obtain ⟨l₂, hget', husable, hslot⟩ := h.get k
    cases hget'.symm.trans hget
    exact ⟨as, ⟨husable, fun _ ha => ha, fun a _ => get_key hget a⟩, fun key _ => .inl (congrFun hslot key)⟩
  | decrHitCount a =>
    obtain ⟨ha, hrun⟩ := Option.ite_none_right_eq_some.mp hrun
    cases hrun
    rw [h.formed.listed.nodes_eq] at ha
    obtain ⟨hits, hnode⟩ := (l.node a).decrHitCount_node 100
    obtain ⟨husable, hslot⟩ := h.setHits (List.mem_append_left _ ha) hits
    rw [hnode]
    exact ⟨as, husable.grown_setNode rfl, fun key _ => .inl (congrFun hslot key)⟩
  | markDeleted a =>
    obtain ⟨ha, hrun⟩ := Option.ite_none_right_eq_some.mp hrun
    cases hrun
    rw [h.formed.listed.nodes_eq] at ha
    obtain ⟨hgrown, hslot⟩ := h.markNode_grown ha
    have hcount : (l.markDeleted a).2.slot = (l.markNode a).2.slot := by
      rw [markDeleted_eq]
      exact slot_congr hgrown.usable.formed.listed rfl rfl
    refine ⟨as, ?_, fun key hkey => .inl ((congrFun hcount key).trans (hslot key fun heq => hkey heq.symm))⟩
    rw [markDeleted_eq]
    exact ⟨hgrown.usable.congr rfl rfl rfl, hgrown.mem, hgrown.key⟩
  | markNode a =>
    obtain ⟨ha, hrun⟩ := Option.ite_none_right_eq_some.mp hrun
    cases hrun
    rw [h.formed.listed.nodes_eq] at ha
    obtain ⟨hgrown, hslot⟩ := h.markNode_grown ha
    exact ⟨as, hgrown, fun key hkey => .inl (hslot key fun heq => hkey heq.symm)⟩

end Access

end AtomicSkipList

/-! ### The compactor and the others -/

open AtomicSkipList (Access Usable Listed Grown SlotKept shown head tail place)

/-- A bucket that is being compacted, and the list that each thread has loaded. -/
structure Compacting (ι : Type) where
  old : AtomicSkipList
  new : AtomicSkipList := .make
  /-- Where `IterateLevel` is. -/
  pred : Nat := head
  /-- `IterateLevel` is over. -/
  returned : Bool := false
  /-- `buckets_` has the new list. -/
  stored : Bool := false
  /-- The thread has loaded the new list. -/
  holdsNew : ι → Bool := fun _ => false

namespace Compacting

inductive Action (ι : Type) where
  | load (t : ι)
  | access (t : ι) (a : Access)
  | copy (topLevel : Fin (maxLevel + 1))
  | store

variable {ι : Type}

/-- The list in the bucket. -/
def bucket (s : Compacting ι) : AtomicSkipList := if s.stored then s.new else s.old

/-- One turn of `IterateLevel` in `CompactOneBucket`. -/
def copyNext (s : Compacting ι) (topLevel : Fin (maxLevel + 1)) : Option (Compacting ι) :=
  let curr := (s.old.next s.pred 0).raw
  if s.returned ∨ curr = 0 then none
  else if (s.old.node curr).isMarked then some {s with pred := curr}
  else if curr = tail then some {s with returned := true}
  else do
    let (more, new) ← HashSkipCache.copyNode (fun _ => topLevel) s.old curr s.new
    if more then return {s with new := new, pred := curr} else return {s with new := new, returned := true}

/-- `none`: it does not return, or it is not the compactor's turn for it. -/
def step [DecidableEq ι] (s : Compacting ι) : Action ι → Option (Compacting ι)
  | .load t => some {s with holdsNew := Function.update s.holdsNew t s.stored}
  | .access t a =>
    if s.holdsNew t then (s.new.access a).map fun new => {s with new := new}
    else (s.old.access a).map fun old => {s with old := old}
  | .copy topLevel => s.copyNext topLevel
  | .store => if s.returned && !s.stored then some {s with stored := true} else none

def run [DecidableEq ι] (s : Compacting ι) (actions : List (Action ι)) : Option (Compacting ι) := Stepwise.run step s actions

/-- The compactor is behind the place of the key. `tail_` is never copied. -/
def passed (s : Compacting ι) : Set Int64 :=
  {key | key ≠ Int64.maxValue ∧ (s.returned = true ∨ place key ≤ s.old.rank s.pred)}

/-- The action inserts or deletes the key in the new list. -/
def TouchesNew (key : Int64) (s : Compacting ι) : Action ι → Prop
  | .access t a => s.holdsNew t = true ∧ a.Touches s.new key
  | _ => False

instance (key : Int64) (s : Compacting ι) : DecidablePred (TouchesNew key s)
  | .access t a => inferInstanceAs (Decidable (s.holdsNew t = true ∧ a.Touches s.new key))
  | .load _ | .copy _ | .store => isFalse id

/-! ### One turn -/

theorem passed_lower (s : Compacting ι) : IsLowerSet s.passed := by
  rintro key key' hle ⟨hmax, hplace⟩
  refine ⟨fun heq => hmax ?_, hplace.imp_right fun h => le_trans (AtomicSkipList.place_le.mpr hle) h⟩
  rw [heq] at hle
  exact Int64.le_antisymm (Int64.le_maxValue key) hle

/-- The bucket between the compactor's load and its store. The new list has only keys that the
compactor has passed, and no marks. -/
structure Copying (s : Compacting ι) (as bs : List Nat) : Prop where
  old : Usable s.old as
  new : Usable s.new bs
  pred_mem : s.pred ∈ head :: as
  slots : ∀ key, key ≠ Int64.maxValue → s.new.slot key = none ∨
    key ∈ s.passed ∧ ∃ handle, s.new.slot key = some (false, handle)
  tail_slot : s.new.slot Int64.maxValue = some (false, none)
  stored : s.stored = false
  holdsOld : ∀ t, s.holdsNew t = false

/-- What the compactor has passed is as the old list showed it then. -/
abbrev Turn (s s' : Compacting ι) : Prop :=
  Snapshot.Turn (fun s : Compacting ι => s.old.value) (fun s => s.new.value) passed s s'

section Turn
variable {s s' : Compacting ι} {as bs : List Nat} {key : Int64} {topLevel : Fin (maxLevel + 1)}

/-- A new list has the key of `tail_` only. -/
theorem make_slot (key : Int64) : AtomicSkipList.make.slot key =
    if key = Int64.maxValue then some (false, none) else none := by
  have hkey : (AtomicSkipList.make.node tail).key = Int64.maxValue := AtomicSkipList.make_listed.tail_key
  split
  next hmax =>
    have hslot := AtomicSkipList.slot_of_mem AtomicSkipList.make_listed (List.mem_singleton_self tail)
    rw [hkey] at hslot
    rw [hmax, hslot, AtomicSkipList.make_usable.tail_unmarked]
    rfl
  next hmax =>
    refine AtomicSkipList.slot_of_absent AtomicSkipList.make_listed fun a ha heq => hmax ?_
    rw [← heq, List.mem_singleton.mp ha, hkey]

theorem start_copying {l : AtomicSkipList} (h : Usable l as) : Copying ({old := l} : Compacting ι) as [] where
  old := h
  new := AtomicSkipList.make_usable
  pred_mem := List.mem_cons_self ..
  slots := fun key hmax => .inl ((make_slot key).trans (if_neg hmax))
  tail_slot := (make_slot _).trans (if_pos rfl)
  stored := rfl
  holdsOld := fun _ => rfl

/-- Nothing is passed at the start. -/
theorem start_passed (l : AtomicSkipList) : ({old := l} : Compacting ι).passed = ∅ := by
  ext key
  refine iff_of_false ?_ id
  rintro ⟨-, hreturned | hle⟩
  · cases hreturned
  · rw [AtomicSkipList.rank, if_pos rfl] at hle
    exact absurd hle (not_le.mpr (WithBot.bot_lt_coe _))

theorem Copying.unmarked (h : Copying s as bs) (key : Int64) (handle : Option Handle) :
    s.new.slot key ≠ some (true, handle) := by
  intro hslot
  by_cases hmax : key = Int64.maxValue
  · rw [hmax, h.tail_slot] at hslot
    cases hslot
  · rcases h.slots key hmax with hnone | ⟨-, handle', hsome⟩
    · cases hnone.symm.trans hslot
    · cases hsome.symm.trans hslot

theorem Grown.rank {l l' : AtomicSkipList} {as' : List Nat} (h : Grown l as l' as') {a : Nat}
    (ha : a ∈ head :: as) : l'.rank a = l.rank a := by
  rcases List.mem_cons.mp ha with rfl | hm
  · rw [AtomicSkipList.rank, if_pos rfl, AtomicSkipList.rank, if_pos rfl]
  · exact AtomicSkipList.rank_congr (h.key a hm)

/-- What another thread does to the old list moves neither the compactor nor the copy. -/
theorem Copying.access (h : Copying s as bs) {old : AtomicSkipList} {as' : List Nat}
    (hgrown : Grown s.old as old as') :
    Copying {s with old := old} as' bs ∧ Turn s {s with old := old} := by
  have hpassed : ({s with old := old} : Compacting ι).passed = s.passed := by
    ext key
    show (_ ∧ (_ ∨ place key ≤ old.rank s.pred)) ↔ _
    rw [Grown.rank hgrown h.pred_mem]
    rfl
  refine ⟨⟨hgrown.usable, h.new, ?_, fun key hmax => ?_, h.tail_slot, h.stored, h.holdsOld⟩, ?_⟩
  · exact (List.mem_cons.mp h.pred_mem).elim (fun heq => heq ▸ List.mem_cons_self ..)
      fun hm => List.mem_cons_of_mem _ (hgrown.mem _ hm)
  · rw [hpassed]
    exact h.slots key hmax
  · refine ⟨hpassed.symm.subset, fun _ _ => rfl, fun key hkey hnot => ?_⟩
    rw [hpassed] at hkey
    exact absurd hkey hnot

theorem Copying.next (h : Copying s as bs) : (s.old.next s.pred 0).raw ∈ as ++ [tail] ∧
    s.old.rank s.pred < s.old.rank (s.old.next s.pred 0).raw := by
  obtain ⟨hmem, hlt, -⟩ := h.old.formed.listed.forward s.pred h.pred_mem 0 (Nat.zero_le _)
  exact ⟨hmem, hlt⟩

/-- No key lies between the compactor and its next node. -/
theorem Copying.slot_between (h : Copying s as bs) (hlt : s.old.rank s.pred < place key)
    (hle : place key ≤ s.old.rank (s.old.next s.pred 0).raw)
    (hne : key ≠ (s.old.node (s.old.next s.pred 0).raw).key) : s.old.slot key = none := by
  refine AtomicSkipList.slot_of_absent h.old.formed.listed fun a ha hkey => hne ?_
  rw [h.old.formed.listed.next_key h.pred_mem hlt hle ha hkey, hkey]

/-- A key that the compactor has not passed is not in the new list. -/
theorem Copying.slot_fresh (h : Copying s as bs) (hmax : key ≠ Int64.maxValue) (hnot : key ∉ s.passed) :
    s.new.slot key = none :=
  (h.slots key hmax).resolve_right fun hmem => hnot hmem.1

theorem Copying.next_fresh (h : Copying s as bs) (hreturned : s.returned = false) :
    (s.old.node (s.old.next s.pred 0).raw).key ∉ s.passed := by
  rintro ⟨-, hdone | hle⟩
  · exact Bool.false_ne_true (hreturned.symm.trans hdone)
  · obtain ⟨hmem, hlt⟩ := h.next
    rw [← AtomicSkipList.rank_eq (h.old.formed.listed.ne_head hmem)] at hle
    exact absurd hlt (not_lt.mpr hle)

/-- The compactor goes on to the next node: all that counts is what it copies of that. -/
theorem Copying.goesOn (h : Copying s as bs) (hreturned : s.returned = false) {curr : Nat}
    (hcurr : (s.old.next s.pred 0).raw = curr) (hgrows : s.passed ⊆ s'.passed)
    (hnew : ∀ key ∈ s'.passed, key ∉ s.passed → s.old.rank s.pred < place key ∧ place key ≤ s.old.rank curr)
    (hother : ∀ k ≠ (s.old.node curr).key, s'.new.slot k = s.new.slot k)
    (hself : (s.old.node curr).key ≠ Int64.maxValue →
      shown (s'.new.slot (s.old.node curr).key) = shown (s.old.slot (s.old.node curr).key))
    {bs' : List Nat} (husable : Usable s'.new bs') : Turn s s' := by
  subst hcurr
  have hcopy : ∀ key, s'.new.value key = shown (s'.new.slot key) :=
    AtomicSkipList.value_eq_slot husable.formed.listed
  refine ⟨hgrows, fun key hkey => ?_, fun key hkey hnot => ?_⟩
  · -- the next node is not passed
    have hne : key ≠ (s.old.node (s.old.next s.pred 0).raw).key := fun heq =>
      h.next_fresh hreturned (heq ▸ hkey)
    rw [hcopy, hother key hne, AtomicSkipList.value_eq_slot h.new.formed.listed]
  · obtain ⟨hlt, hle⟩ := hnew key hkey hnot
    rw [hcopy, AtomicSkipList.value_eq_slot h.old.formed.listed]
    by_cases hself' : key = (s.old.node (s.old.next s.pred 0).raw).key
    · subst hself'
      exact hself hkey.1
    · rw [hother key hself', h.slot_between hlt hle hself']
      rw [h.slot_fresh hkey.1 hnot]

/-- A node is copied into a list that has no marks and does not have its key. -/
theorem copyNode_slot {l new new' : AtomicSkipList} {levels : Nat → Fin (maxLevel + 1)} {a : Nat} {more : Bool}
    (hnew : Usable new bs) (hunmarked : ∀ key handle, new.slot key ≠ some (true, handle))
    (habsent : new.slot (l.node a).key = none)
    (hcopy : HashSkipCache.copyNode levels l a new = some (more, new')) :
    more = true ∧ (∃ bs', Usable new' bs') ∧ (∀ k ≠ (l.node a).key, new'.slot k = new.slot k) ∧
      new'.slot (l.node a).key = (l.node a).handle.map fun handle => (false, some handle) := by
  obtain ⟨⟨old, new₁⟩, hinsert, hreturn⟩ := Option.bind_eq_some_iff.mp hcopy
  cases hreturn
  cases hhandle : (l.node a).handle with
  | none =>
    rw [hhandle] at hinsert
    cases hinsert
    exact ⟨rfl, ⟨bs, hnew⟩, fun _ _ => rfl, habsent⟩
  | some handle =>
    rw [hhandle] at hinsert
    obtain ⟨old', new₂, bs', hinsert', husable, hstored⟩ := hnew.insert (l.node a).key handle (levels a)
    cases hinsert'.symm.trans hinsert
    refine ⟨rfl, ⟨bs', husable⟩, fun k hk => ?_, ?_⟩
    · exact (hstored.other k hk).resolve_right fun ⟨_, hmarked, _⟩ => hunmarked k _ hmarked
    · rw [hstored.self, AtomicSkipList.keyMarked_eq_slot, habsent]
      rfl

/-- The compactor visits the next node, of which `new` has what is shown. -/
theorem Copying.visit (h : Copying s as bs) (hreturned : s.returned = false) {curr : Nat}
    (hcurr : (s.old.next s.pred 0).raw = curr) (hmem : curr ∈ as) {new : AtomicSkipList} {bs' : List Nat}
    (husable : Usable new bs') (hother : ∀ k ≠ (s.old.node curr).key, new.slot k = s.new.slot k)
    (hself : new.slot (s.old.node curr).key = none ∨ ∃ handle, new.slot (s.old.node curr).key = some (false, handle))
    (hshown : shown (new.slot (s.old.node curr).key) = shown (s.old.slot (s.old.node curr).key)) :
    Copying {s with new := new, pred := curr} as bs' ∧ Turn s {s with new := new, pred := curr} := by
  obtain ⟨-, hlt⟩ := h.next
  rw [hcurr] at hlt
  have hmax : (s.old.node curr).key ≠ Int64.maxValue := h.old.formed.listed.key_ne hmem
  have hrank := AtomicSkipList.rank_eq (l := s.old) (h.old.formed.listed.ne_head (List.mem_append_left _ hmem))
  have hgrows : s.passed ⊆ ({s with new := new, pred := curr} : Compacting ι).passed :=
    fun key hkey => ⟨hkey.1, hkey.2.imp_right fun hle => le_trans hle (le_of_lt hlt)⟩
  refine ⟨⟨h.old, husable, List.mem_cons_of_mem _ hmem, fun key hkey => ?_, ?_, h.stored, h.holdsOld⟩, ?_⟩
  · by_cases heq : key = (s.old.node curr).key
    · subst heq
      exact hself.imp_right fun hsome => ⟨⟨hmax, .inr hrank.symm.le⟩, hsome⟩
    · rcases h.slots key hkey with hnone | ⟨hpassed, handle, hsome⟩
      · exact .inl ((hother key heq).trans hnone)
      · exact .inr ⟨hgrows hpassed, handle, (hother key heq).trans hsome⟩
  · exact (hother _ hmax.symm).trans h.tail_slot
  · refine h.goesOn hreturned hcurr hgrows (fun key hkey hnot => ?_) hother (fun _ => hshown) husable
    have hle := hkey.2.resolve_left fun hdone => Bool.false_ne_true (hreturned.symm.trans hdone)
    exact ⟨not_le.mp fun hle' => hnot ⟨hkey.1, .inr hle'⟩, hle⟩

/-- **A turn of the compactor** copies the keys up to its next node. -/
theorem Copying.copyNext (h : Copying s as bs) (hrun : s.copyNext topLevel = some s') :
    (∃ bs', Copying s' as bs') ∧ Turn s s' := by
  rw [Compacting.copyNext] at hrun
  obtain ⟨hmem, hlt⟩ := h.next
  obtain ⟨curr, hcurr⟩ : ∃ curr, (s.old.next s.pred 0).raw = curr := ⟨_, rfl⟩
  rw [hcurr] at hmem hlt
  simp only [hcurr] at hrun
  split at hrun
  · cases hrun
  next hgo =>
  have hreturned : s.returned = false := Bool.eq_false_iff.mpr fun hdone => hgo (.inl hdone)
  have hfresh := h.next_fresh hreturned
  rw [hcurr] at hfresh
  have hslot := AtomicSkipList.slot_of_mem h.old.formed.listed hmem
  split at hrun
  next hmark =>
    cases hrun
    have hcurr_mem : curr ∈ as := (List.mem_append.mp hmem).resolve_right fun hm => by
      rw [List.mem_singleton.mp hm, h.old.tail_unmarked] at hmark
      cases hmark
    have hnone := h.slot_fresh (h.old.formed.listed.key_ne hcurr_mem) hfresh
    have hvisit := h.visit hreturned hcurr hcurr_mem h.new (fun _ _ => rfl) (.inl hnone)
      (by rw [hnone, hslot, hmark]; rfl)
    exact ⟨⟨bs, hvisit.1⟩, hvisit.2⟩
  next hmark =>
  split at hrun
  next htail =>
    cases hrun
    subst htail
    have hrank : s.old.rank tail = place Int64.maxValue := by
      rw [AtomicSkipList.rank_eq (by decide), h.old.formed.listed.tail_key]
    have hgrows : s.passed ⊆ ({s with returned := true} : Compacting ι).passed :=
      fun key hkey => ⟨hkey.1, .inl rfl⟩
    refine ⟨⟨bs, h.old, h.new, h.pred_mem, fun key hmax => ?_, h.tail_slot, h.stored, h.holdsOld⟩, ?_⟩
    · exact (h.slots key hmax).imp_right fun ⟨hpassed, hsome⟩ => ⟨hgrows hpassed, hsome⟩
    · refine h.goesOn hreturned hcurr hgrows (fun key hkey hnot => ?_) (fun _ _ => rfl) (fun hne => ?_) h.new
      · refine ⟨not_le.mp fun hle => hnot ⟨hkey.1, .inr hle⟩, ?_⟩
        rw [hrank, AtomicSkipList.place_le]
        exact Int64.le_maxValue key
      · exact absurd h.old.formed.listed.tail_key hne
  next htail =>
    have hcurr_mem : curr ∈ as := (List.mem_append.mp hmem).resolve_right fun hm => htail (List.mem_singleton.mp hm)
    obtain ⟨⟨more, new⟩, hcopy, hreturn⟩ := Option.bind_eq_some_iff.mp hrun
    obtain ⟨rfl, ⟨bs', husable⟩, hother, hself⟩ := copyNode_slot h.new h.unmarked
      (h.slot_fresh (h.old.formed.listed.key_ne hcurr_mem) hfresh) hcopy
    cases hreturn
    have hvisit := h.visit hreturned hcurr hcurr_mem husable hother ?_ ?_
    · exact ⟨⟨bs', hvisit.1⟩, hvisit.2⟩
    · rw [hself]
      cases (s.old.node curr).handle with
      | none => exact .inl rfl
      | some handle => exact .inr ⟨some handle, rfl⟩
    · rw [hself, hslot, Bool.eq_false_iff.mpr hmark]
      cases (s.old.node curr).handle <;> rfl

/-- **The step lemma**: until the new list is stored. -/
theorem Copying.step [DecidableEq ι] (h : Copying s as bs) {action : Action ι} (hstore : action ≠ .store)
    (hrun : s.step action = some s') : (∃ as' bs', Copying s' as' bs') ∧ Turn s s' := by
  cases action with
  | load t =>
    cases hrun
    refine ⟨⟨as, bs, h.old, h.new, h.pred_mem, h.slots, h.tail_slot, h.stored, fun u => ?_⟩,
      Set.Subset.refl _, fun _ _ => rfl, fun _ hkey hnot => absurd hkey hnot⟩
    show Function.update s.holdsNew t s.stored u = false
    rw [h.stored]
    by_cases hu : u = t
    · rw [hu, Function.update_self]
    · rw [Function.update_of_ne hu, h.holdsOld]
  | access t a =>
    rw [Compacting.step, h.holdsOld, if_neg Bool.false_ne_true] at hrun
    obtain ⟨old, haccess, rfl⟩ := Option.map_eq_some_iff.mp hrun
    obtain ⟨as', hgrown, -⟩ := h.old.access haccess
    exact ⟨⟨as', bs, (h.access hgrown).1⟩, (h.access hgrown).2⟩
  | copy topLevel =>
    obtain ⟨⟨bs', hcopying⟩, hturn⟩ := h.copyNext hrun
    exact ⟨⟨as, bs', hcopying⟩, hturn⟩
  | store => exact absurd rfl hstore

end Turn

/-! ### Runs -/

section Run
variable [DecidableEq ι] {s s' : Compacting ι} {key : Int64}

/-- What threads leave of the new list that is in the bucket. -/
structure Stored (key : Int64) (slot : Option (Bool × Option Handle)) (s : Compacting ι) : Prop where
  new : ∃ bs, Usable s.new bs
  stored : s.stored = true
  returned : s.returned = true
  slot : s.new.slot key = slot

theorem Stored.step {slot : Option (Bool × Option Handle)} (hslot : ∀ handle, slot ≠ some (true, handle))
    (h : Stored key slot s) {action : Action ι} (huntouched : ¬ TouchesNew key s action)
    (hrun : s.step action = some s') : Stored key slot s' := by
  cases action with
  | load t =>
    cases hrun
    exact ⟨h.new, h.stored, h.returned, h.slot⟩
  | access t a =>
    rw [Compacting.step] at hrun
    split at hrun
    next hnew =>
      obtain ⟨new, haccess, rfl⟩ := Option.map_eq_some_iff.mp hrun
      obtain ⟨bs, husable⟩ := h.new
      obtain ⟨bs', hgrown, hkept⟩ := husable.access haccess
      refine ⟨⟨bs', hgrown.usable⟩, h.stored, h.returned, ?_⟩
      rcases hkept key fun htouches => huntouched ⟨hnew, htouches⟩ with hsame | ⟨handle, hmarked, -⟩
      · exact hsame.trans h.slot
      · exact absurd (h.slot.symm.trans hmarked) (hslot handle)
    next =>
      obtain ⟨old, -, rfl⟩ := Option.map_eq_some_iff.mp hrun
      exact ⟨h.new, h.stored, h.returned, h.slot⟩
  | copy topLevel =>
    rw [Compacting.step, Compacting.copyNext] at hrun
    simp only [h.returned, true_or, if_true] at hrun
    cases hrun
  | store =>
    rw [Compacting.step, h.stored, Bool.not_true, Bool.and_false, if_neg Bool.false_ne_true] at hrun
    cases hrun

/-- Nothing but `Store` puts the new list into the bucket. -/
theorem step_stored {action : Action ι} (hstore : action ≠ .store) (hrun : s.step action = some s') :
    s'.stored = s.stored := by
  cases action with
  | load t =>
    cases hrun
    rfl
  | access t a =>
    rw [Compacting.step] at hrun
    split at hrun
    · obtain ⟨new, -, rfl⟩ := Option.map_eq_some_iff.mp hrun
      rfl
    · obtain ⟨old, -, rfl⟩ := Option.map_eq_some_iff.mp hrun
      rfl
  | copy topLevel =>
    simp only [Compacting.step, Compacting.copyNext] at hrun
    split at hrun
    · cases hrun
    · split at hrun
      · cases hrun
        rfl
      · split at hrun
        · cases hrun
          rfl
        · obtain ⟨⟨more, new⟩, -, hreturn⟩ := Option.bind_eq_some_iff.mp hrun
          simp only at hreturn
          split at hreturn <;> (cases hreturn; rfl)
  | store => exact absurd rfl hstore

/-- A run that stores the new list: before that, the store, and what comes after it. -/
theorem run_stored {actions : List (Action ι)} (hstart : s.stored = false) (hrun : s.run actions = some s')
    (hend : s'.stored = true) : ∃ before after u, actions = before ++ .store :: after ∧
      (∀ action ∈ before, action ≠ .store) ∧ s.run before = some u ∧ u.returned = true ∧
      u.step .store = some {u with stored := true} ∧ ({u with stored := true} : Compacting ι).run after = some s' := by
  induction actions generalizing s with
  | nil =>
    cases hrun
    exact absurd (hstart.symm.trans hend) Bool.false_ne_true
  | cons action actions ih =>
    obtain ⟨s₁, hstep, hrest⟩ := Stepwise.run_cons.mp hrun
    by_cases hstore : action = .store
    · subst hstore
      have hstep' := hstep
      rw [Compacting.step] at hstep'
      split at hstep'
      next hready =>
        cases hstep'
        exact ⟨[], actions, s, rfl, fun _ hmem => absurd hmem List.not_mem_nil, rfl,
          (Bool.and_eq_true_iff.mp hready).1, hstep, hrest⟩
      next => cases hstep'
    · obtain ⟨before, after, u, rfl, hbefore, hrun', hreturned, hput, hafter⟩ :=
        ih ((step_stored hstore hstep).trans hstart) hrest
      refine ⟨action :: before, after, u, rfl, fun a ha => ?_, Stepwise.run_cons.mpr ⟨s₁, hstep, hrun'⟩,
        hreturned, hput, hafter⟩
      rcases List.mem_cons.mp ha with rfl | hm
      · exact hstore
      · exact hbefore a hm

/-- The turns of the compactor alone. -/
theorem run_copies (levels : Nat → Fin (maxLevel + 1)) {fuel : Nat} {new : AtomicSkipList}
    (hreturned : s.returned = false) (hiterate : AtomicSkipList.iterateLevel (fun _ => s.old)
      (HashSkipCache.copyNode levels s.old) fuel s.pred s.new = some new) :
    ∃ (turns : List (Fin (maxLevel + 1))) (pred : Nat),
      s.run (turns.map .copy) = some {s with new := new, pred := pred, returned := true} := by
  induction fuel generalizing s with
  | zero => cases hiterate
  | succ fuel ih =>
    rw [AtomicSkipList.iterateLevel] at hiterate
    have hnext : ∀ topLevel, s.step (.copy topLevel) = s.copyNext topLevel := fun _ => rfl
    simp only [Compacting.copyNext] at hnext
    have hgo : ∀ {topLevel : Fin (maxLevel + 1)} {s₁ : Compacting ι}, s.step (.copy topLevel) = some s₁ →
        (∃ (turns : List (Fin (maxLevel + 1))) (pred : Nat),
          s₁.run (turns.map .copy) = some {s with new := new, pred := pred, returned := true}) →
        ∃ (turns : List (Fin (maxLevel + 1))) (pred : Nat),
          s.run (turns.map .copy) = some {s with new := new, pred := pred, returned := true} := by
      intro topLevel s₁ hstep hturns
      obtain ⟨turns, pred, hrest⟩ := hturns
      exact ⟨topLevel :: turns, pred, Stepwise.run_cons.mpr ⟨s₁, hstep, hrest⟩⟩
    have hlevel := hnext (levels (s.old.next s.pred 0).raw)
    split at hiterate
    · cases hiterate
    next hcurr =>
    rw [if_neg fun hstop => hstop.elim (fun hdone => Bool.false_ne_true (hreturned.symm.trans hdone)) hcurr] at hlevel
    split at hiterate
    next hmark =>
      rw [if_pos hmark] at hlevel
      exact hgo hlevel (ih hreturned hiterate)
    next hmark =>
    rw [if_neg hmark] at hlevel
    split at hiterate
    next htail =>
      rw [if_pos htail] at hlevel
      cases hiterate
      exact hgo hlevel ⟨[], s.pred, rfl⟩
    next htail =>
      rw [if_neg htail] at hlevel
      obtain ⟨⟨more, new₁⟩, hcopy, hrest⟩ := Option.bind_eq_some_iff.mp hiterate
      have hcopy' : HashSkipCache.copyNode (fun _ => levels (s.old.next s.pred 0).raw) s.old
        (s.old.next s.pred 0).raw s.new = some (more, new₁) := hcopy
      rw [hcopy'] at hlevel
      cases more with
      | true => exact hgo hlevel (ih hreturned hrest)
      | false =>
        cases hrest
        exact hgo hlevel ⟨[], s.pred, rfl⟩

/-- **Without other threads**, the run is `CompactOneBucket`, and the store what `Compact` does
with its result. -/
theorem run_compactOneBucket {c : HashSkipCache} {i : Nat} {levels : Nat → Fin (maxLevel + 1)}
    {l new : AtomicSkipList} (hbucket : c.buckets i = some l)
    (hcompact : c.compactOneBucket i levels = some (some new)) :
    ∃ (turns : List (Fin (maxLevel + 1))) (s : Compacting ι),
      ({old := l} : Compacting ι).run (turns.map .copy ++ [.store]) = some s ∧
        (c.swap i new).buckets i = some s.bucket := by
  rw [HashSkipCache.compactOneBucket, hbucket] at hcompact
  simp only at hcompact
  split at hcompact
  · cases hcompact
  · obtain ⟨new₁, hiterate, hreturn⟩ := Option.bind_eq_some_iff.mp hcompact
    cases hreturn
    obtain ⟨turns, pred, hcopies⟩ := run_copies (s := ({old := l} : Compacting ι)) levels rfl hiterate
    refine ⟨turns, _, Stepwise.run_append.mpr ⟨_, hcopies, rfl⟩, ?_⟩
    exact HashSkipCache.setBucket_self ..

/-- **Compaction takes a staggered snapshot**: in every interleaving with the threads at work on
the bucket there is a moment for each key, in the order of the keys, while the compactor copies.
In the end `Get` finds what the old list showed at the moment of the key, unless a thread that
has loaded the new list has inserted or deleted the key since. -/
theorem run_snapshot {capicity : Int} {bucketNum : Nat} {calls : List HashSkipCache.Call} {c : HashSkipCache}
    {i : Nat} {l : AtomicSkipList} {actions : List (Action ι)} (hnum : 0 < bucketNum)
    (hreach : (HashSkipCache.make capicity bucketNum).init.run calls = some c) (hbucket : c.buckets i = some l)
    (hrun : ({old := l} : Compacting ι).run actions = some s) (hstored : s.stored = true) :
    ∃ moment : Int64 → Nat, (∀ key key', key' ≠ Int64.maxValue → key ≤ key' → moment key ≤ moment key') ∧
      ∀ key ≠ Int64.maxValue, moment key < actions.length ∧ ∃ u : Compacting ι,
        Snapshot.Takes step passed {old := l} actions key (moment key) u ∧
        (Stepwise.Along step (fun s action => ¬ TouchesNew key s action) {old := l} actions →
          s.bucket.value key = u.old.value key) := by
  obtain ⟨as, hl⟩ := (HashSkipCache.run_ready hnum hreach).lists i l hbucket
  obtain ⟨before, after, u, rfl, hbefore, hcopy, hreturned, hput, hafter⟩ := run_stored rfl hrun hstored
  have hstep : ∀ (s : Compacting ι) action t, (∃ as bs, Copying s as bs) → action ≠ .store →
      s.step action = some t → (∃ as bs, Copying t as bs) ∧ Turn s t :=
    fun s action t ⟨_, _, hs⟩ hstore hstep => hs.step hstore hstep
  have halong : Stepwise.Along step (fun (_ : Compacting ι) action => action ≠ .store) {old := l} before :=
    Stepwise.along_of_mem (fun action hmem _ => hbefore action hmem) _
  have hpassed : ∀ key, key ≠ Int64.maxValue → key ∈ u.passed := fun key hkey => ⟨hkey, .inl hreturned⟩
  obtain ⟨⟨as', bs, hu⟩, -⟩ := Snapshot.run_kept hstep ⟨as, [], start_copying hl⟩ halong hcopy
  obtain ⟨moment, hmono, htaken⟩ := Snapshot.run_moments hstep passed_lower ⟨as, [], start_copying hl⟩
    (start_passed l) halong hcopy
  refine ⟨moment, fun key key' hkey' hle => hmono key key' (hpassed key' hkey') hle, fun key hkey => ?_⟩
  obtain ⟨hlt, w, htakes, hvalue⟩ := htaken key (hpassed key hkey)
  refine ⟨?_, w, htakes.append hlt _, fun huntouched => ?_⟩
  · rw [List.length_append]
    exact Nat.lt_add_right _ hlt
  · have hrest := (huntouched.append hcopy).2 _ hput
    have hkeeps : ∀ (s : Compacting ι) action t, Stored key (u.new.slot key) s → ¬ TouchesNew key s action →
        s.step action = some t → Stored key (u.new.slot key) t :=
      fun s action t hs huntouched hstep => hs.step (hu.unmarked key) huntouched hstep
    have hnow : Stored key (u.new.slot key) {u with stored := true} := ⟨⟨bs, hu.new⟩, rfl, hreturned, rfl⟩
    have hkept := Stepwise.run_keeps hkeeps hnow hrest hafter
    obtain ⟨bs', husable⟩ := hkept.new
    rw [bucket, if_pos hstored, AtomicSkipList.value_eq_slot husable.formed.listed, hkept.slot, ← hvalue,
      AtomicSkipList.value_eq_slot hu.new.formed.listed]

/-- After the key 1 is copied, its handle is replaced; 5 is deleted after it is copied, 6 is
inserted and 8 deleted before they are met. -/
def racing : List (Action Bool) :=
  [.copy 0, .access true (.insert 1 (some ⟨11, 1⟩) 0), .access false (.markDeleted 5),
    .access true (.insert 6 (some ⟨60, 1⟩) 1), .copy 2, .access false (.markDeleted 4), .copy 1, .copy 0, .copy 0,
    .store]

theorem run_snapshot_racing : ∃ (c : HashSkipCache) (l : AtomicSkipList) (s : Compacting Bool),
    (HashSkipCache.make 100 1).init.run [.insert 1 (some ⟨10, 1⟩) 0, .insert 5 (some ⟨50, 1⟩) 3,
      .insert 8 (some ⟨80, 1⟩) 0] = some c ∧ c.buckets 0 = some l ∧
    ({old := l} : Compacting Bool).run racing = some s ∧ s.stored = true ∧
    (s.bucket.value 1, s.bucket.value 5, s.bucket.value 6, s.bucket.value 8) =
      (some ⟨10, 1⟩, some ⟨50, 1⟩, some ⟨60, 1⟩, none) ∧
    ∃ moment : Int64 → Nat, (∀ key key', key' ≠ Int64.maxValue → key ≤ key' → moment key ≤ moment key') ∧
      ∀ key ≠ Int64.maxValue, moment key < racing.length ∧ ∃ u : Compacting Bool,
        Snapshot.Takes step passed {old := l} racing key (moment key) u ∧
        (Stepwise.Along step (fun s action => ¬ TouchesNew key s action) {old := l} racing →
          s.bucket.value key = u.old.value key) := by
  have hany : ((HashSkipCache.make 100 1).init.run [.insert 1 (some ⟨10, 1⟩) 0, .insert 5 (some ⟨50, 1⟩) 3,
      .insert 8 (some ⟨80, 1⟩) 0]).any (fun c => (c.buckets 0).any fun l =>
        (({old := l} : Compacting Bool).run racing).any fun s => s.stored = true ∧
          (s.bucket.value 1, s.bucket.value 5, s.bucket.value 6, s.bucket.value 8) =
            (some ⟨10, 1⟩, some ⟨50, 1⟩, some ⟨60, 1⟩, none)) = true := by
    decide +kernel
  obtain ⟨c, hreach, hrest⟩ := (Option.any_eq_true _ _).mp hany
  obtain ⟨l, hbucket, hrest⟩ := (Option.any_eq_true _ _).mp hrest
  obtain ⟨s, hrun, hall⟩ := (Option.any_eq_true _ _).mp hrest
  obtain ⟨hstored, hvalues⟩ := of_decide_eq_true hall
  exact ⟨c, l, s, hreach, hbucket, hrun, hstored, hvalues, run_snapshot (by decide) hreach hbucket hrun hstored⟩

end Run

end Compacting

end HyperCache.HashSkip
