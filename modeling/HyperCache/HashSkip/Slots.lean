import HyperCache.HashSkip.Decay

/-! What a skip list has for each key: the mark and the handle of its node.

`Get` shows the handle of a key that is not marked (`value_eq_slot`). Marking a node, or
letting it decay, takes its handle (`Fades`); `Insert` writes the slot of its key, and may
take the mark of one other key away (`Stored`). Each of these calls returns on a list whose
`tail_` is not marked (`Usable`), and leaves such a list. -/
namespace HyperCache.HashSkip.AtomicSkipList

/-- The mark and the handle of the key's node, if it has one. -/
def slot (l : AtomicSkipList) (key : Int64) : Option (Bool × Option Handle) :=
  (l.find key).bind fun s =>
    if s.found then
      some ((l.node (s.succs 0).raw).isMarked, (l.node (s.succs 0).raw).handle)
    else none

/-- What `Get` shows of a slot. -/
def shown : Option (Bool × Option Handle) → Option Handle
  | some (false, handle) => handle
  | _ => none

theorem shown_eq_some {s : Option (Bool × Option Handle)} {handle : Handle} :
    shown s = some handle ↔ s = some (false, some handle) := by
  constructor
  · intro h
    rcases s with _ | ⟨_ | _, found⟩
    · cases h
    · exact congrArg (fun found => some (false, found)) h
    · cases h
  · intro h
    rw [h]
    rfl

section Slot
variable {l l' : AtomicSkipList} {as as' : List Nat} {a : Nat} {key : Int64}

theorem slot_of_mem (h : Listed l as) (ha : a ∈ as ++ [tail]) :
    l.slot (l.node a).key = some ((l.node a).isMarked, (l.node a).handle) := by
  obtain ⟨s, hfind, hfound, hloaded⟩ := find_spec h (l.node a).key
  have htrue : s.found = true := by
    by_contra hfalse
    exact hfound.absent h hloaded (Bool.eq_false_iff.mpr hfalse) ha rfl
  have hnode : (s.succs 0).raw = a :=
    h.eq_of_key (hfound.between 0 (Nat.zero_le _)).succ_mem ha (hfound.found htrue)
  rw [slot, hfind, Option.bind_some, if_pos htrue, hnode]

theorem slot_of_absent (h : Listed l as) (habsent : ∀ a ∈ as ++ [tail], (l.node a).key ≠ key) :
    l.slot key = none := by
  obtain ⟨s, hfind, hfound, hloaded⟩ := find_spec h key
  have hfalse : ¬ s.found = true := fun htrue =>
    habsent _ (hfound.between 0 (Nat.zero_le _)).succ_mem (hfound.found htrue)
  rw [slot, hfind, Option.bind_some, if_neg hfalse]

/-- `Get` shows the slot, and `keyMarked` its mark. -/
theorem value_eq_slot (h : Listed l as) (key : Int64) : l.value key = shown (l.slot key) := by
  rcases mem_or_absent l as key with ⟨a, ha, rfl⟩ | habsent
  · rw [value_of_mem h ha, slot_of_mem h ha, entry]
    cases (l.node a).isMarked <;> rfl
  · rw [value_of_absent h habsent, slot_of_absent h habsent]
    rfl

theorem keyMarked_eq_slot (l : AtomicSkipList) (key : Int64) :
    l.keyMarked key = (l.slot key).any Prod.fst := by
  rw [keyMarked, slot]
  cases l.find key with
  | none => rfl
  | some s =>
    rw [Option.any_some, Option.bind_some]
    cases s.found <;> rfl

/-- If the nodes of a list are those of another and one more, and only the slot of that one
is written. -/
theorem slot_update (h : Listed l as) (h' : Listed l' as') (ha : a ∈ as' ++ [tail])
    (hmem : ∀ y, y ∈ as' ++ [tail] ↔ y = a ∨ y ∈ as ++ [tail])
    (hkey : ∀ y, y ∈ as ++ [tail] → (l'.node y).key = (l.node y).key)
    (hsame : ∀ y, y ∈ as ++ [tail] → y ≠ a →
      (l'.node y).isMarked = (l.node y).isMarked ∧ (l'.node y).handle = (l.node y).handle) :
    l'.slot = Function.update l.slot (l'.node a).key (some ((l'.node a).isMarked, (l'.node a).handle)) := by
  funext key
  by_cases heq : key = (l'.node a).key
  · rw [heq, Function.update_self, slot_of_mem h' ha]
  · rw [Function.update_of_ne heq]
    rcases mem_or_absent l as key with ⟨y, hy, rfl⟩ | habsent
    · have hne : y ≠ a := by
        intro hya
        subst hya
        exact heq (hkey y hy).symm
      obtain ⟨hmark, hhandle⟩ := hsame y hy hne
      rw [slot_of_mem h hy, ← hkey y hy, slot_of_mem h' ((hmem y).mpr (.inr hy)), hmark, hhandle]
    · rw [slot_of_absent h habsent, slot_of_absent h']
      intro y hy hykey
      rcases (hmem y).mp hy with hya | hm
      · rw [hya] at hykey
        exact heq hykey.symm
      · exact habsent y hm ((hkey y hm).symm.trans hykey)

/-- A node is replaced by one of its shape. -/
theorem slot_setNode (h : Listed l as) (ha : a ∈ as ++ [tail]) {n : Node} (hkey : n.key = (l.node a).key)
    (htop : n.topLevel = (l.node a).topLevel) (hlen : n.nexts.length = (l.node a).nexts.length)
    (hraw : ∀ level, (n.next level).raw = (l.next a level).raw) :
    (l.setNode a n).slot = Function.update l.slot (l.node a).key (some (n.isMarked, n.handle)) := by
  have hupdate := slot_update h (h.setNode hkey htop hlen hraw) ha (fun y => ?_) (fun y _ => ?_)
    (fun y _ hy => ?_)
  · rw [hupdate, node_setNode_self, hkey]
  · constructor
    · exact .inr
    · intro hy
      exact hy.elim (fun heq => heq ▸ ha) fun hm => hm
  · by_cases hya : y = a
    · subst hya
      rw [node_setNode_self, hkey]
    · rw [node_setNode_of_ne l n hya]
  · rw [node_setNode_of_ne l n hy]
    exact ⟨rfl, rfl⟩

end Slot

/-! ### What becomes of the slots -/

/-- Some keys lose their handle and are marked. -/
def Fades (l l' : AtomicSkipList) : Prop :=
  ∀ key, l'.slot key = l.slot key ∨
    (∃ handle, l.slot key = some (false, handle)) ∧ l'.slot key = some (true, none)

/-- The handle is stored under the key; other keys may lose their mark. -/
structure Stored (l : AtomicSkipList) (key : Int64) (handle : Handle) (l' : AtomicSkipList) : Prop where
  self : l'.slot key = some (l.keyMarked key, some handle)
  other : ∀ k ≠ key, l'.slot k = l.slot k ∨
    ∃ handle, l.slot k = some (true, handle) ∧ l'.slot k = some (false, handle)

/-- A list as calls find it: no call marks `tail_`. -/
structure Usable (l : AtomicSkipList) (as : List Nat) : Prop where
  formed : Formed l as
  tail_unmarked : (l.node tail).isMarked = false

section Calls
variable {l l' : AtomicSkipList} {as as' bs : List Nat} {a : Nat} {key : Int64}

theorem make_usable : Usable make [] := ⟨make_formed, by decide⟩

theorem Usable.congr (h : Usable l as) (hnode : l'.node = l.node) (hsize : l'.size = l.size)
    (hnum : l'.nodeNum = l.nodeNum) : Usable l' as :=
  ⟨h.formed.congr hnode hsize hnum, hnode ▸ h.tail_unmarked⟩

/-- What a list has does not depend on its counters. -/
theorem slot_congr (h : Listed l as) (hnode : l'.node = l.node) (hsize : l'.size = l.size) :
    l'.slot = l.slot := by
  have h' : Listed l' as := h.congr (fun a _ => by rw [hnode]; exact ⟨rfl, rfl, rfl⟩)
    (fun a _ level => by rw [next, hnode, next]) (Nat.le_of_eq hsize.symm)
  funext key
  rcases mem_or_absent l as key with ⟨a, ha, rfl⟩ | habsent
  · have hself := slot_of_mem h' ha
    rw [hnode] at hself
    rw [hself, slot_of_mem h ha]
  · rw [slot_of_absent h habsent, slot_of_absent h']
    rw [hnode]
    exact habsent

/-- A node's hit count changes. -/
theorem Usable.setHits (h : Usable l as) (ha : a ∈ as ++ [tail]) (hits : Int16) :
    Usable (l.setNode a {l.node a with hitCount := hits}) as ∧
      (l.setNode a {l.node a with hitCount := hits}).slot = l.slot := by
  refine ⟨⟨h.formed.setNode ha rfl rfl rfl fun _ => rfl, ?_⟩, ?_⟩
  · by_cases htail : tail = a
    · subst htail
      rw [node_setNode_self]
      exact h.tail_unmarked
    · rw [node_setNode_of_ne l _ htail]
      exact h.tail_unmarked
  · rw [slot_setNode h.formed.listed ha (n := {l.node a with hitCount := hits}) rfl rfl rfl fun _ => rfl,
      Function.update_eq_self_iff]
    exact (slot_of_mem h.formed.listed ha).symm

/-- **`Get`** returns what is shown and changes no slot. -/
theorem Usable.get (h : Usable l as) (key : Int64) :
    ∃ l', l.get key = some (shown (l.slot key), l') ∧ Usable l' as ∧ l'.slot = l.slot := by
  rcases mem_or_absent l as key with ⟨a, ha, rfl⟩ | habsent
  · rw [AtomicSkipList.get, getNode_of_mem h.formed.listed ha, slot_of_mem h.formed.listed ha]
    cases (l.node a).isMarked with
    | true => exact ⟨l, rfl, h, rfl⟩
    | false =>
      refine ⟨_, rfl, ?_⟩
      rw [Node.incrHitCount]
      split
      · exact h.setHits ha (l.node a).hitCount
      · exact h.setHits ha _
  · rw [AtomicSkipList.get, getNode_of_absent h.formed.listed habsent, slot_of_absent h.formed.listed habsent]
    exact ⟨l, rfl, h, rfl⟩

/-- Marking a node takes its handle. -/
theorem Usable.markNode_slot (h : Usable l as) (ha : a ∈ as) (hmark : (l.node a).isMarked = false) :
    (l.markNode a).2.slot = Function.update l.slot (l.node a).key (some (true, none)) := by
  have hmem : a ∈ as ++ [tail] := List.mem_append_left _ ha
  have hlen : 0 < (l.node a).nexts.length := by
    rw [h.formed.listed.lengths a (List.mem_cons_of_mem _ ha)]
    omega
  obtain ⟨hkey, htop, hlength, hraw, -, hmarked⟩ := markDeleted_shape (l.node a)
  rw [markNode_eq, slot_setNode h.formed.listed hmem hkey htop hlength hraw, hmarked hlen,
    (markDeleted_unmarked hmark).2]

/-- Marking a node. -/
theorem Usable.markNode (h : Usable l as) (ha : a ∈ as) (hmark : (l.node a).isMarked = false) :
    Usable (l.markNode a).2 as ∧ Fades l (l.markNode a).2 := by
  have hmem : a ∈ as ++ [tail] := List.mem_append_left _ ha
  have hafter := h.markNode_slot ha hmark
  obtain ⟨hkey, htop, hlength, hraw, -⟩ := markDeleted_shape (l.node a)
  refine ⟨⟨?_, ?_⟩, fun key => ?_⟩
  · rw [markNode_eq]
    exact h.formed.setNode hmem hkey htop hlength hraw
  · rw [markNode_eq, node_setNode_of_ne l _ (Ne.symm (h.formed.listed.ne_tail (List.mem_cons_of_mem _ ha)))]
    exact h.tail_unmarked
  · rw [hafter]
    by_cases hk : key = (l.node a).key
    · subst hk
      rw [Function.update_self, slot_of_mem h.formed.listed hmem, hmark]
      exact .inr ⟨⟨_, rfl⟩, rfl⟩
    · rw [Function.update_of_ne hk]
      exact .inl rfl

/-- The slots of the nodes that decay. -/
theorem Usable.aged_slot (h : Usable l as) :
    Usable (l.aged as) as ∧ (∀ a ∈ as, (l.aged as).slot (l.node a).key =
      some ((l.node a).aged.isMarked, (l.node a).aged.handle)) ∧
      ∀ key, (∀ a ∈ as, (l.node a).key ≠ key) → (l.aged as).slot key = l.slot key := by
  have hformed := h.formed.aged (List.Subset.refl as)
  have htail : (l.aged as).node tail = l.node tail :=
    aged_node_of_notMem fun hm => absurd (h.formed.listed.taken tail hm).1 (lt_irrefl _)
  refine ⟨⟨hformed, htail ▸ h.tail_unmarked⟩, fun a ha => ?_, fun key hother => ?_⟩
  · rw [← (l.aged_shape as a).1, slot_of_mem hformed.listed (List.mem_append_left _ ha), aged_node_of_mem ha]
  · rcases mem_or_absent l as key with ⟨a, ha, rfl⟩ | habsent
    · rcases List.mem_append.mp ha with hm | hm
      · exact absurd rfl (hother a hm)
      · have hkey := (l.aged_shape as a).1
        rw [← hkey, slot_of_mem hformed.listed ha, hkey, slot_of_mem h.formed.listed ha, List.mem_singleton.mp hm,
          htail]
    · rw [slot_of_absent h.formed.listed habsent, slot_of_absent hformed.listed]
      intro a ha
      rw [(l.aged_shape as a).1]
      exact habsent a ha

/-- The decay of a list. -/
theorem Usable.aged (h : Usable l as) : Usable (l.aged as) as ∧ Fades l (l.aged as) := by
  obtain ⟨haged, hnodes, hothers⟩ := h.aged_slot
  refine ⟨haged, fun key => ?_⟩
  by_cases hkey : ∃ a ∈ as, (l.node a).key = key
  · obtain ⟨a, ha, rfl⟩ := hkey
    rw [hnodes a ha, slot_of_mem h.formed.listed (List.mem_append_left _ ha)]
    cases hexpires : (l.node a).expires with
    | true =>
      have hlen : 0 < (l.node a).nexts.length := by
        rw [h.formed.listed.lengths a (List.mem_cons_of_mem _ ha)]
        omega
      obtain ⟨hmarked, hhandle⟩ := Node.aged_expires hlen hexpires
      have hmark : (l.node a).isMarked = false :=
        Bool.not_eq_eq_eq_not.mp (Bool.and_eq_true_iff.mp hexpires).1
      rw [hmarked, hhandle, hmark]
      exact .inr ⟨⟨_, rfl⟩, rfl⟩
    | false =>
      obtain ⟨hmark, hhandle⟩ := Node.aged_stays hexpires
      rw [hmark, hhandle]
      exact .inl rfl
  · exact .inl (hothers key fun a ha heq => hkey ⟨a, ha, heq⟩)

/-- **`Insert`** stores the handle under its key. -/
theorem Usable.insert (h : Usable l as) (key : Int64) (handle : Handle) (topLevel : Fin (maxLevel + 1)) :
    ∃ old l' as', l.insert key (some handle) [topLevel.val] = some (old, l') ∧ Usable l' as' ∧
      Stored l key handle l' := by
  rcases insert_cases h.formed.listed key handle (Nat.le_of_lt_succ topLevel.isLt) [] with
    ⟨a, ha, rfl, hinsert⟩ | ⟨habsent, p, l', as', hin, hinsert⟩
  · have hwrite := slot_setNode h.formed.listed ha (n := {l.node a with handle := some handle})
      rfl rfl rfl fun _ => rfl
    refine ⟨_, _, as, hinsert, ⟨h.formed.setNode ha rfl rfl rfl fun _ => rfl, ?_⟩, ?_, fun k hk => ?_⟩
    · rw [updateHandle]
      by_cases htail : tail = a
      · subst htail
        rw [node_setNode_self]
        exact h.tail_unmarked
      · rw [node_setNode_of_ne l _ htail]
        exact h.tail_unmarked
    · rw [updateHandle, hwrite, Function.update_self, keyMarked_of_mem h.formed.listed ha]
      rfl
    · rw [updateHandle, hwrite, Function.update_of_ne hk]
      exact .inl rfl
  · have hunmarked : l.keyMarked key = false := by
      rw [keyMarked_eq_slot, slot_of_absent h.formed.listed habsent]
      rfl
    obtain ⟨hkey, hhandle, hmark⟩ := hin.new
    have hnew : l.size ∈ as' ++ [tail] := List.mem_append_left _ ((hin.mem _).mpr (.inl rfl))
    refine ⟨none, l', as', hinsert, ⟨hin.formed h.formed, ?_⟩, ?_, fun k hk => ?_⟩
    · rw [hin.marks (List.mem_append_right _ (List.mem_singleton_self _))
        (Ne.symm (h.formed.listed.ne_tail hin.pred_mem))]
      exact h.tail_unmarked
    · rw [← hkey, slot_of_mem hin.listed hnew, hkey, hhandle, hmark, hunmarked]
    · rcases mem_or_absent l as k with ⟨y, hy, rfl⟩ | hnone
      · have hy' : y ∈ as' ++ [tail] := by
          rcases List.mem_append.mp hy with hm | hm
          · exact List.mem_append_left _ ((hin.mem y).mpr (.inr hm))
          · exact List.mem_append_right _ hm
        obtain ⟨hykey, hyhandle, -⟩ := hin.node y (List.mem_cons_of_mem _ hy)
        rw [← hykey, slot_of_mem hin.listed hy', hykey, slot_of_mem h.formed.listed hy, hyhandle]
        by_cases hp : y = p
        · -- the new node takes the mark of the one before it away
          subst hp
          rw [hin.pred]
          cases (l.node y).isMarked with
          | true => exact .inr ⟨_, rfl, rfl⟩
          | false => exact .inl rfl
        · rw [hin.marks (List.mem_cons_of_mem _ hy) hp]
          exact .inl rfl
      · rw [slot_of_absent h.formed.listed hnone, slot_of_absent hin.listed]
        · exact .inl rfl
        · intro y hy hykey
          rcases List.mem_append.mp hy with hm | hm
          · rcases (hin.mem y).mp hm with rfl | hm
            · exact hk (hykey.symm.trans hkey)
            · exact hnone y (List.mem_append_left _ hm) ((hin.node y (List.mem_append_left _
                (List.mem_cons_of_mem _ hm))).1.symm.trans hykey)
          · exact hnone y (List.mem_append_right _ hm) ((hin.node y (List.mem_append_right _ hm)).1.symm.trans hykey)

/-- A copy has no marks, and of the slots of the old list those that are shown. -/
theorem Copied.slot_eq (h : Copied l as l' bs) (hl : Listed l as) (key : Int64) :
    (∀ handle, l'.slot key = some (true, some handle) → False) ∧
      shown (l'.slot key) = if key = Int64.maxValue then none else shown (l.slot key) := by
  constructor
  · intro handle hslot
    rcases mem_or_absent l' bs key with ⟨b, hb, rfl⟩ | habsent
    · rw [slot_of_mem h.formed.listed hb] at hslot
      obtain ⟨hmark, hhandle⟩ := Prod.ext_iff.mp (Option.some.inj hslot)
      rcases List.mem_append.mp hb with hm | hm
      · exact Bool.false_ne_true ((h.live b hm).1.symm.trans hmark)
      · rw [List.mem_singleton.mp hm, h.tail_handle] at hhandle
        cases hhandle
    · rw [slot_of_absent h.formed.listed habsent] at hslot
      cases hslot
  · rw [← value_eq_slot h.formed.listed, ← value_eq_slot hl, h.value_eq hl]

end Calls

end HyperCache.HashSkip.AtomicSkipList
