import HyperCache.HashSkip.Contents
import HyperCache.Lib.Stepwise

/-! What an insertion does to the other nodes.

`LinkLevel` writes the level-0 pointer of the new node's predecessor, and the mark of the
predecessor lives in that word: the new one has none. So `Insert` changes another node
exactly where it links one behind a marked node, which is then back without a handle
(`Revives`, `insert_frame_iff`); in a run without such an insertion marks stay and every
unmarked node has a handle.

The calls are those of a client, which gets nodes from `Get`, and so perhaps `tail_`. -/
namespace HyperCache.HashSkip

/-- A call of one thread. -/
inductive AtomicSkipList.Call where
  | insert (key : Int64) (handle : Option Handle) (topLevel : Fin (maxLevel + 1))
  | get (key : Int64)
  | markDeleted (node : Nat)
  | markNode (node : Nat)

namespace AtomicSkipList

/-- `none`: it does not return, or no client has the node. -/
def call (l : AtomicSkipList) : Call → Option AtomicSkipList
  | .insert key handle topLevel => (l.insert key handle [topLevel.val]).map Prod.snd
  | .get key => (l.get key).map Prod.snd
  | .markDeleted a => if a ∈ l.nodes ++ [tail] then some (l.markDeleted a).2 else none
  | .markNode a => if a ∈ l.nodes ++ [tail] then some (l.markNode a).2 else none

def run (l : AtomicSkipList) (calls : List Call) : Option AtomicSkipList := Stepwise.run call l calls

/-- `Insert` would link a node of the key behind a marked one. -/
def Revives (l : AtomicSkipList) (key : Int64) : Prop :=
  ∃ a ∈ l.nodes, (l.node a).isMarked = true ∧ (l.node a).key < key ∧
    key < (l.node (l.next a 0).raw).key

instance (l : AtomicSkipList) (key : Int64) : Decidable (l.Revives key) :=
  inferInstanceAs (Decidable (∃ a ∈ l.nodes, _))

/-- A node is as it was, but for its links. -/
def Kept (l l' : AtomicSkipList) (a : Nat) : Prop :=
  (l'.node a).isMarked = (l.node a).isMarked ∧ (l'.node a).handle = (l.node a).handle ∧
    (l'.node a).hitCount = (l.node a).hitCount

instance (l l' : AtomicSkipList) (a : Nat) : Decidable (l.Kept l' a) :=
  inferInstanceAs (Decidable (_ ∧ _ ∧ _))

/-- The nodes of other keys, `head_` and `tail_` among them, are as they were. -/
def OthersKept (l l' : AtomicSkipList) (key : Int64) : Prop :=
  ∀ a ∈ head :: l.nodes ++ [tail], (l.node a).key ≠ key → l.Kept l' a

instance (l l' : AtomicSkipList) (key : Int64) : Decidable (l.OthersKept l' key) :=
  inferInstanceAs (Decidable (∀ a ∈ head :: l.nodes ++ [tail], _))

/-! ### One insertion -/

section Insert
variable {l l' : AtomicSkipList} {as as' : List Nat} {p n : Nat} {key : Int64} {handle : Handle}

/-- The node before the new one's place. -/
theorem LinkedIn.eq_pred (h : Listed l as) (hin : LinkedIn l as p n key handle l' as') {a : Nat}
    (ha : a ∈ head :: as) (hlt : l.rank a < place key) (hgt : place key < l.rank (l.next a 0).raw) :
    a = p := by
  have hmem : ∀ {b}, b ∈ head :: as → b ∈ head :: as ++ [tail] := List.mem_append_left _
  apply h.linked.eq_of_rank (hmem ha) (hmem hin.pred_mem)
  apply le_antisymm
  · by_contra hle
    have hnext := h.linked.next_le hin.pred_mem (hmem ha) (not_le.mp hle)
    exact absurd (lt_of_lt_of_le hin.lt_succ hnext) (lt_asymm hlt)
  · by_contra hle
    have hnext := h.linked.next_le ha (hmem hin.pred_mem) (not_le.mp hle)
    exact absurd (lt_of_lt_of_le hgt hnext) (lt_asymm hin.pred_lt)

/-- A node is revived where it is the marked predecessor of the new one. -/
theorem LinkedIn.revives_iff (h : Listed l as) (hhead : (l.node head).isMarked = false)
    (hin : LinkedIn l as p n key handle l' as') : l.Revives key ↔ (l.node p).isMarked = true := by
  constructor
  · rintro ⟨a, ha, hmark, hlt, hgt⟩
    rw [h.nodes_eq] at ha
    have hne := h.ne_head (List.mem_append_left _ ha)
    have hmem : a ∈ head :: as := List.mem_cons_of_mem _ ha
    have hgt' : place key < l.rank (l.next a 0).raw := by
      rw [rank_eq (h.ne_head (h.linked.next_mem hmem)), place_lt]
      exact hgt
    rw [← hin.eq_pred h hmem ((rank_lt_place hne).mpr hlt) hgt']
    exact hmark
  · intro hmark
    have hp : p ∈ as := by
      rcases List.mem_cons.mp hin.pred_mem with rfl | hm
      · rw [hhead] at hmark
        cases hmark
      · exact hm
    have hlt := (rank_lt_place (h.ne_head (List.mem_append_left _ hp))).mp hin.pred_lt
    have hgt := hin.lt_succ
    rw [rank_eq (h.ne_head (h.linked.next_mem hin.pred_mem)), place_lt] at hgt
    exact ⟨p, h.nodes_eq ▸ hp, hmark, hlt, hgt⟩

theorem LinkedIn.othersKept_iff (h : Listed l as) (habsent : ∀ a ∈ as ++ [tail], (l.node a).key ≠ key)
    (hhead : (l.node head).isMarked = false) (hin : LinkedIn l as p n key handle l' as') :
    l.OthersKept l' key ↔ ¬ l.Revives key := by
  rw [hin.revives_iff h hhead, Bool.not_eq_true, OthersKept, h.nodes_eq]
  constructor
  · intro hkept
    rcases List.mem_cons.mp hin.pred_mem with heq | hm
    · rw [heq]
      exact hhead
    · have hp := hkept p (List.mem_append_left _ hin.pred_mem) (habsent p (List.mem_append_left _ hm))
      exact hp.1.symm.trans hin.pred
  · intro hmark a ha _
    refine ⟨?_, (hin.node a ha).2⟩
    by_cases hp : a = p
    · rw [hp, hin.pred, hmark]
    · exact hin.marks ha hp

/-- A key that has a node has no place between two nodes. -/
theorem not_revives_of_mem (h : Listed l as) {a : Nat} (ha : a ∈ as ++ [tail]) :
    ¬ l.Revives (l.node a).key := by
  rintro ⟨b, hb, -, hlt, hgt⟩
  rw [h.nodes_eq] at hb
  have hbmem : b ∈ head :: as := List.mem_cons_of_mem _ hb
  have hamem : a ∈ head :: as ++ [tail] := List.mem_cons_of_mem _ ha
  have hle := h.linked.next_le hbmem hamem (by
    rw [rank_eq (h.ne_head ha), rank_lt_place (h.ne_head (List.mem_append_left _ hb))]
    exact hlt)
  rw [rank_eq (h.ne_head ha), rank_eq (h.ne_head (h.linked.next_mem hbmem)), place_le] at hle
  exact absurd hgt (Int64.not_lt.mpr hle)

/-- **The frame of `Insert`**: it changes no other node unless it links one behind a marked
node. -/
theorem insert_frame_iff (h : Listed l as) (hhead : (l.node head).isMarked = false) (key : Int64)
    (handle : Handle) {topLevel : Nat} (htop : topLevel ≤ maxLevel) :
    ∃ old l', l.insert key (some handle) [topLevel] = some (old, l') ∧
      (l.OthersKept l' key ↔ ¬ l.Revives key) := by
  rcases insert_cases h key handle htop [] with
    ⟨a, ha, rfl, hinsert⟩ | ⟨habsent, p, l', as', hin, hinsert⟩
  · refine ⟨_, _, hinsert, iff_of_true ?_ (not_revives_of_mem h ha)⟩
    intro b _ hne
    have hba : b ≠ a := fun heq => hne (congrArg (fun c => (l.node c).key) heq)
    rw [Kept, updateHandle, node_setNode_of_ne l _ hba]
    exact ⟨rfl, rfl, rfl⟩
  · exact ⟨_, l', hinsert, hin.othersKept_iff h habsent hhead⟩

end Insert

/-! ### Runs -/

/-- Every unmarked node has a handle. -/
def Live (l : AtomicSkipList) (as : List Nat) : Prop :=
  ∀ a ∈ as, (l.node a).isMarked = false → (l.node a).handle ≠ none

/-- The call links no node behind a marked one. -/
def Tame (l : AtomicSkipList) : Call → Prop
  | .insert key (some _) _ => ¬ l.Revives key
  | _ => True

/-- The lists that calls lead to. -/
structure Formed (l : AtomicSkipList) (as : List Nat) : Prop where
  listed : Listed l as
  head_unmarked : (l.node head).isMarked = false
  tail_null : (l.next tail 0).raw = 0
  nodeNum : l.nodeNum = as.length

/-- What a call leaves: no node goes, and if it is tame, no mark and no handle that a live
node needs. -/
structure Onward (l : AtomicSkipList) (as : List Nat) (tame : Prop) (l' : AtomicSkipList)
    (as' : List Nat) : Prop where
  formed : Formed l' as'
  grows : ∀ a ∈ as, a ∈ as'
  marks : tame → ∀ a ∈ as ++ [tail], (l.node a).isMarked = true → (l'.node a).isMarked = true
  live : tame → Live l as → Live l' as'

section Run
variable {l l' l'' : AtomicSkipList} {as as' : List Nat} {a : Nat} {tame : Prop}

theorem make_formed : Formed make [] := ⟨make_listed, by decide, by decide, rfl⟩

theorem Onward.refl (h : Formed l as) : Onward l as tame l as :=
  ⟨h, fun _ ha => ha, fun _ _ _ hm => hm, fun _ hl => hl⟩

/-- One node that is not `head_` changes, not in its shape. -/
theorem Formed.setNode (h : Formed l as) (ha : a ∈ as ++ [tail]) {n : Node}
    (hkey : n.key = (l.node a).key) (htop : n.topLevel = (l.node a).topLevel)
    (hlen : n.nexts.length = (l.node a).nexts.length)
    (hraw : ∀ level, (n.next level).raw = (l.next a level).raw) : Formed (l.setNode a n) as := by
  refine ⟨h.listed.setNode hkey htop hlen hraw, ?_, ?_, h.nodeNum⟩
  · rw [node_setNode_of_ne l _ (Ne.symm (h.listed.ne_head ha))]
    exact h.head_unmarked
  · by_cases heq : tail = a
    · subst heq
      rw [next, node_setNode_self, hraw]
      exact h.tail_null
    · rw [next, node_setNode_of_ne l _ heq]
      exact h.tail_null

theorem Formed.congr (h : Formed l as) (hnode : l'.node = l.node) (hsize : l'.size = l.size)
    (hnum : l'.nodeNum = l.nodeNum) : Formed l' as := by
  refine ⟨h.listed.congr (fun a _ => by rw [hnode]; exact ⟨rfl, rfl, rfl⟩)
    (fun a _ level => by rw [next, hnode, next]) (Nat.le_of_eq hsize.symm), ?_, ?_, hnum.trans h.nodeNum⟩
  · rw [hnode]
    exact h.head_unmarked
  · rw [next, hnode]
    exact h.tail_null

theorem Onward.congr (h : Onward l as tame l' as') (hnode : l''.node = l'.node)
    (hsize : l''.size = l'.size) (hnum : l''.nodeNum = l'.nodeNum) : Onward l as tame l'' as' := by
  refine ⟨h.formed.congr hnode hsize hnum, h.grows, ?_, ?_⟩
  · rw [hnode]
    exact h.marks
  · intro ht hl
    rw [Live, hnode]
    exact h.live ht hl

theorem Onward.setNode (h : Formed l as) (ha : a ∈ as ++ [tail]) {n : Node}
    (hkey : n.key = (l.node a).key) (htop : n.topLevel = (l.node a).topLevel)
    (hlen : n.nexts.length = (l.node a).nexts.length)
    (hraw : ∀ level, (n.next level).raw = (l.next a level).raw)
    (hmark : (l.node a).isMarked = true → n.isMarked = true)
    (hlive : a ∈ as → n.isMarked = false → n.handle ≠ none ∨ n.handle = (l.node a).handle) :
    Onward l as tame (l.setNode a n) as := by
  refine ⟨h.setNode ha hkey htop hlen hraw, fun _ hb => hb, fun _ b _ hb => ?_, fun _ hl b hb hbmark => ?_⟩
  · by_cases heq : b = a
    · subst heq
      rw [node_setNode_self]
      exact hmark hb
    · rw [node_setNode_of_ne l _ heq]
      exact hb
  · by_cases heq : b = a
    · subst heq
      rw [node_setNode_self] at hbmark ⊢
      rcases hlive hb hbmark with hsome | hsame
      · exact hsome
      · rw [hsame]
        refine hl b hb (Bool.eq_false_iff.mpr fun hm => ?_)
        rw [hmark hm] at hbmark
        cases hbmark
    · rw [node_setNode_of_ne l _ heq] at hbmark ⊢
      exact hl b hb hbmark

theorem get_onward (tame : Prop) (h : Formed l as) (key : Int64) :
    ∃ old l', l.get key = some (old, l') ∧ Onward l as tame l' as := by
  rcases mem_or_absent l as key with ⟨a, ha, rfl⟩ | habsent
  · rw [get, getNode_of_mem h.listed ha]
    cases (l.node a).isMarked with
    | true => exact ⟨none, l, rfl, .refl h⟩
    | false =>
      refine ⟨(l.node a).handle, l.setNode a (l.node a).incrHitCount, rfl, ?_⟩
      rw [Node.incrHitCount]
      split
      · exact .setNode h ha rfl rfl rfl (fun _ => rfl) (fun hm => hm) (fun _ _ => .inr rfl)
      · exact .setNode h ha rfl rfl rfl (fun _ => rfl) (fun hm => hm) (fun _ _ => .inr rfl)
  · rw [get, getNode_of_absent h.listed habsent]
    exact ⟨none, l, rfl, .refl h⟩

theorem markNode_onward (h : Formed l as) (ha : a ∈ as ++ [tail]) :
    Onward l as tame (l.markNode a).2 as := by
  obtain ⟨hkey, htop, hlen, hraw, hsame, hmarked⟩ := markDeleted_shape (l.node a)
  rw [markNode_eq]
  refine .setNode h ha hkey htop hlen hraw (fun hm => ?_) (fun hmem hfalse => ?_)
  · rw [hsame hm]
    exact hm
  · have hpos : 0 < (l.node a).nexts.length := by
      rw [h.listed.lengths a (List.mem_cons_of_mem _ hmem)]
      omega
    rw [hmarked hpos] at hfalse
    cases hfalse

theorem LinkedIn.formed (h : Formed l as) {p n : Nat} {key : Int64} {handle : Handle}
    (hin : LinkedIn l as p n key handle l' as') : Formed l' as' := by
  refine ⟨hin.listed, ?_, ?_, ?_⟩
  · by_cases hp : head = p
    · rw [hp, hin.pred]
    · rw [hin.marks (List.mem_cons_self ..) hp, h.head_unmarked]
  · rw [hin.zero tail (List.mem_append_right _ (List.mem_singleton_self _))
      (Ne.symm (h.listed.ne_tail hin.pred_mem)), h.tail_null]
  · rw [hin.nodeNum, h.nodeNum, (hin.perm h.listed).length_eq, List.length_cons]

/-- A node that is not linked behind a marked one changes no mark. -/
theorem LinkedIn.marks_of_tame (h : Formed l as) {p n : Nat} {key : Int64} {handle : Handle}
    (hin : LinkedIn l as p n key handle l' as') (hr : ¬ l.Revives key) {y : Nat}
    (hy : y ∈ head :: as ++ [tail]) : (l'.node y).isMarked = (l.node y).isMarked := by
  by_cases hp : y = p
  · have hmark : (l.node p).isMarked = false := Bool.eq_false_iff.mpr fun hm =>
      hr ((hin.revives_iff h.listed h.head_unmarked).mpr hm)
    rw [hp, hin.pred, hmark]
  · exact hin.marks hy hp

theorem insert_onward (h : Formed l as) (key : Int64) (handle : Handle) {topLevel : Nat}
    (htop : topLevel ≤ maxLevel) :
    ∃ old l' as', l.insert key (some handle) [topLevel] = some (old, l') ∧
      Onward l as (¬ l.Revives key) l' as' := by
  rcases insert_cases h.listed key handle htop [] with
    ⟨a, ha, rfl, hinsert⟩ | ⟨-, p, l', as', hin, hinsert⟩
  · refine ⟨_, _, as, hinsert, .setNode h ha rfl rfl rfl (fun _ => rfl) (fun hm => hm) fun _ _ => ?_⟩
    exact .inl fun hnone => nomatch hnone
  · refine ⟨_, l', as', hinsert, hin.formed h, fun a ha => (hin.mem a).mpr (.inr ha), ?_, ?_⟩
    · intro hr a ha hm
      rw [hin.marks_of_tame h hr (List.mem_cons_of_mem _ ha)]
      exact hm
    · intro hr hl a ha hm
      rcases (hin.mem a).mp ha with rfl | hmem
      · rw [hin.new.2.1]
        exact Option.some_ne_none _
      · have ha' : a ∈ head :: as ++ [tail] := List.mem_cons_of_mem _ (List.mem_append_left _ hmem)
        rw [(hin.node a ha').2.1]
        exact hl a hmem ((hin.marks_of_tame h hr ha').symm.trans hm)

/-- **The step lemma**: every call goes onward. -/
theorem call_onward (h : Formed l as) {c : Call} (hcall : l.call c = some l') :
    ∃ as', Onward l as (Tame l c) l' as' := by
  cases c with
  | insert key handle topLevel =>
    cases handle with
    | none =>
      cases hcall
      exact ⟨as, .refl h⟩
    | some handle =>
      obtain ⟨old, l₁, as', hinsert, honward⟩ := insert_onward h key handle
        (Nat.le_of_lt_succ topLevel.isLt)
      rw [call, hinsert] at hcall
      cases hcall
      exact ⟨as', honward⟩
  | get key =>
    obtain ⟨old, l₁, hget, honward⟩ := get_onward (Tame l (.get key)) h key
    rw [call, hget] at hcall
    cases hcall
    exact ⟨as, honward⟩
  | markDeleted a =>
    rw [call, h.listed.nodes_eq] at hcall
    obtain ⟨ha, hcall⟩ := Option.ite_none_right_eq_some.mp hcall
    cases hcall
    rw [markDeleted_eq]
    exact ⟨as, (markNode_onward h ha).congr rfl rfl rfl⟩
  | markNode a =>
    rw [call, h.listed.nodes_eq] at hcall
    obtain ⟨ha, hcall⟩ := Option.ite_none_right_eq_some.mp hcall
    cases hcall
    exact ⟨as, markNode_onward h ha⟩

/-- **The run lemma**: calls keep a list formed; tame ones keep marks, and handles where
there is no mark. -/
theorem run_onward (h : Formed l as) {calls : List Call} (hrun : l.run calls = some l') :
    ∃ as', Onward l as (Stepwise.Along call Tame l calls) l' as' := by
  induction calls generalizing l as with
  | nil =>
    cases hrun
    exact ⟨as, .refl h⟩
  | cons c calls ih =>
    obtain ⟨l₁, hcall, hrest⟩ := Stepwise.run_cons.mp hrun
    obtain ⟨as₁, h₁⟩ := call_onward h hcall
    obtain ⟨as', h'⟩ := ih h₁.formed hrest
    refine ⟨as', h'.formed, fun a ha => h'.grows a (h₁.grows a ha), fun ht a ha hm => ?_, fun ht hl => ?_⟩
    · refine h'.marks (ht.2 l₁ hcall) a ?_ (h₁.marks ht.1 a ha hm)
      exact (List.mem_append.mp ha).elim (fun ha => List.mem_append_left _ (h₁.grows a ha))
        (List.mem_append_right _)
    · exact h'.live (ht.2 l₁ hcall) (h₁.live ht.1 hl)

end Run

/-- **An insertion leaves the other nodes alone exactly where it revives none**: in every
state that calls lead to, for every key, handle and height. Where no call of a run revives
a node, marked nodes stay marked and unmarked ones have a handle. -/
theorem run_insert_frame {calls : List Call} {l : AtomicSkipList} (hrun : make.run calls = some l) :
    (∀ key handle, ∀ topLevel : Fin (maxLevel + 1), ∃ old l',
      l.insert key (some handle) [topLevel.val] = some (old, l') ∧
      (l.OthersKept l' key ↔ ¬ l.Revives key)) ∧
    (Stepwise.Along call Tame make calls →
      (∀ a ∈ l.nodes, (l.node a).isMarked = false → (l.node a).handle ≠ none) ∧
      ∀ calls' l', l.run calls' = some l' → Stepwise.Along call Tame l calls' →
        ∀ a ∈ l.nodes, (l.node a).isMarked = true → a ∈ l'.nodes ∧ (l'.node a).isMarked = true) := by
  obtain ⟨as, h⟩ := run_onward make_formed hrun
  have hformed := h.formed
  refine ⟨fun key handle topLevel => ?_, fun htame => ⟨?_, fun calls' l' hrun' htame' a ha hm => ?_⟩⟩
  · exact insert_frame_iff hformed.listed hformed.head_unmarked key handle
      (Nat.le_of_lt_succ topLevel.isLt)
  · rw [hformed.listed.nodes_eq]
    exact h.live htame fun _ ha => nomatch ha
  · obtain ⟨as', h'⟩ := run_onward hformed hrun'
    rw [hformed.listed.nodes_eq] at ha
    rw [h'.formed.listed.nodes_eq]
    exact ⟨h'.grows a ha, h'.marks htame' a (List.mem_append_left _ ha) hm⟩

/-- Two keys are inserted, and the first of them is deleted. -/
theorem run_insert_frame_deleted : ∃ l, make.run
      [.insert 1 (some ⟨10, 1⟩) 0, .insert 5 (some ⟨50, 1⟩) 3, .markDeleted 3] = some l ∧
    ∀ key handle, ∀ topLevel : Fin (maxLevel + 1), ∃ old l',
      l.insert key (some handle) [topLevel.val] = some (old, l') ∧
      (l.OthersKept l' key ↔ ¬ l.Revives key) := by
  have hsome : (make.run [.insert 1 (some ⟨10, 1⟩) 0, .insert 5 (some ⟨50, 1⟩) 3,
      .markDeleted 3]).isSome = true := by
    decide +kernel
  obtain ⟨l, hrun⟩ := Option.isSome_iff_exists.mp hsome
  exact ⟨l, hrun, (run_insert_frame hrun).1⟩

/-- A key is inserted and deleted; the next key is linked behind its node and takes the mark
away: the node is back, without a handle. -/
theorem insert_revives : ¬ ∀ (calls : List Call) (l l' : AtomicSkipList) (key : Int64) (handle : Handle)
    (topLevel : Fin (maxLevel + 1)) (old : Option Handle), make.run calls = some l →
    l.insert key (some handle) [topLevel.val] = some (old, l') → l.OthersKept l' key := by
  intro hclaim
  have hany : (make.run [.insert 1 (some ⟨10, 1⟩) 0, .markDeleted 3]).any (fun l =>
      (l.insert 2 (some ⟨20, 1⟩) [0]).any fun r => ¬ l.OthersKept r.2 2) = true := by
    decide +kernel
  obtain ⟨l, hrun, hl⟩ := (Option.any_eq_true _ _).mp hany
  obtain ⟨⟨old, l'⟩, hinsert, hlost⟩ := (Option.any_eq_true _ _).mp hl
  rw [decide_eq_true_eq] at hlost
  exact hlost (hclaim _ l l' 2 ⟨20, 1⟩ 0 old hrun hinsert)

end AtomicSkipList

end HyperCache.HashSkip
