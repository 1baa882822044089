import HyperCache.HashSkip.History

/-! How long an entry lives that nobody asks for.

Each decay of its bucket takes 100 hits from an entry, and deletes it where no more are left.
So an entry that is neither read nor written nor evicted is still there after a number of
decays if and only if it had more hits than they take (`run_decays_away`); and as no entry
has more than 1000 hits, the tenth decay deletes it at the latest (`run_ten_decays`). -/
namespace HyperCache.HashSkip

namespace AtomicSkipList

/-- The key has a node between `head_` and `tail_`, with such a mark, handle and hit count. -/
def Has (l : AtomicSkipList) (key : Int64) (P : Bool → Option Handle → Int16 → Prop) : Prop :=
  ∃ as, Usable l as ∧ ∃ a ∈ as, (l.node a).key = key ∧
    P (l.node a).isMarked (l.node a).handle (l.node a).hitCount

section Has
variable {l l' : AtomicSkipList} {as : List Nat} {a : Nat} {key k : Int64} {P P' : Bool → Option Handle → Int16 → Prop}

theorem Has.mono (h : Has l key P) (hP : ∀ m x n, P m x n → P' m x n) : Has l key P' := by
  obtain ⟨as, hl, a, ha, hkey, hnode⟩ := h
  exact ⟨as, hl, a, ha, hkey, hP _ _ _ hnode⟩

theorem Has.slot (h : Has l key P) : ∃ m x n, l.slot key = some (m, x) ∧ P m x n := by
  obtain ⟨as, hl, a, ha, rfl, hnode⟩ := h
  exact ⟨_, _, _, slot_of_mem hl.formed.listed (List.mem_append_left _ ha), hnode⟩

/-- Another key is read. -/
theorem Has.get (h : Has l key P) (hk : k ≠ key) {found : Option Handle}
    (hget : l.get k = some (found, l')) : Has l' key P := by
  obtain ⟨as, hl, a, ha, hkey, hnode⟩ := h
  obtain ⟨l₁, hl₁, hl', -⟩ := hl.get k
  obtain ⟨-, rfl⟩ := Prod.mk.inj (Option.some.inj (hl₁.symm.trans hget))
  refine ⟨as, hl', a, ha, ?_⟩
  rw [AtomicSkipList.get] at hget
  rcases mem_or_absent l as k with ⟨b, hb, rfl⟩ | habsent
  · have hba : a ≠ b := fun heq => hk (heq ▸ hkey)
    rw [getNode_of_mem hl.formed.listed hb] at hget
    cases hmark : (l.node b).isMarked with
    | true =>
      rw [hmark] at hget
      cases hget
      exact ⟨hkey, hnode⟩
    | false =>
      rw [hmark] at hget
      cases hget
      rw [node_setNode_of_ne l _ hba]
      exact ⟨hkey, hnode⟩
  · rw [getNode_of_absent hl.formed.listed habsent] at hget
    cases hget
    exact ⟨hkey, hnode⟩

/-- Another key is written: the node may lose its mark. -/
theorem Has.insert (h : Has l key P) (hk : k ≠ key) (hP : ∀ x n, P true x n → P false x n)
    {handle : Handle} {topLevel : Fin (maxLevel + 1)} {old : Option Handle}
    (hinsert : l.insert k (some handle) [topLevel.val] = some (old, l')) : Has l' key P := by
  obtain ⟨as, hl, a, ha, hkey, hnode⟩ := h
  have hmem : a ∈ as ++ [tail] := List.mem_append_left _ ha
  obtain ⟨old', l₁, as', hinsert', hl', -⟩ := hl.insert k handle topLevel
  obtain ⟨-, rfl⟩ := Prod.mk.inj (Option.some.inj (hinsert'.symm.trans hinsert))
  rcases insert_cases hl.formed.listed k handle (Nat.le_of_lt_succ topLevel.isLt) [] with
    ⟨b, hb, hbkey, hupdate⟩ | ⟨habsent, p, l₂, as'', hin, hlink⟩
  · obtain ⟨-, rfl⟩ := Prod.mk.inj (Option.some.inj (hupdate.symm.trans hinsert))
    have hba : a ≠ b := fun heq => hk (hbkey.symm.trans (heq ▸ hkey))
    have hsame : (l.updateHandle b (some handle)).node a = l.node a := node_setNode_of_ne l _ hba
    have hnodes : Listed (l.updateHandle b (some handle)) as := hl.formed.listed.setNode rfl rfl rfl fun _ => rfl
    refine ⟨as', hl', a, ?_, ?_⟩
    · rw [← hl'.formed.listed.nodes_eq, hnodes.nodes_eq]
      exact ha
    · rw [hsame]
      exact ⟨hkey, hnode⟩
  · obtain ⟨-, rfl⟩ := Prod.mk.inj (Option.some.inj (hlink.symm.trans hinsert))
    obtain ⟨hkey', hhandle, hhits⟩ := hin.node a (List.mem_cons_of_mem _ hmem)
    refine ⟨as', hl', a, ?_, hkey'.trans hkey, ?_⟩
    · rw [← hl'.formed.listed.nodes_eq, hin.listed.nodes_eq]
      exact (hin.mem a).mpr (.inr ha)
    · rw [hhandle, hhits]
      by_cases hp : a = p
      · subst hp
        rw [hin.pred]
        cases hmark : (l.node a).isMarked with
        | false =>
          rw [hmark] at hnode
          exact hnode
        | true =>
          rw [hmark] at hnode
          exact hP _ _ hnode
      · rw [hin.marks (List.mem_cons_of_mem _ hmem) hp]
        exact hnode

/-- A node is marked: that of the key, or another one. -/
theorem Has.markNode (h : Has l key P) (hl : Usable l as) (ha : a ∈ as) (hmark : (l.node a).isMarked = false) :
    Has (l.markNode a).2 key fun m x n => P m x n ∨ m = true ∧ x = none := by
  obtain ⟨bs, hl', b, hb, hkey, hnode⟩ := h
  have hsame : bs = as := by rw [← hl'.formed.listed.nodes_eq, hl.formed.listed.nodes_eq]
  subst hsame
  refine ⟨bs, (hl.markNode ha hmark).1, b, hb, ?_⟩
  rw [markNode_eq]
  by_cases hba : b = a
  · subst hba
    have hlen : 0 < (l.node b).nexts.length := by
      rw [hl.formed.listed.lengths b (List.mem_cons_of_mem _ hb)]
      omega
    obtain ⟨hkey', -, -, -, -, hmarked⟩ := markDeleted_shape (l.node b)
    rw [node_setNode_self]
    exact ⟨hkey'.trans hkey, .inr ⟨hmarked hlen, (markDeleted_unmarked hmark).2⟩⟩
  · rw [node_setNode_of_ne l _ hba]
    exact ⟨hkey, .inl hnode⟩

theorem Has.aged (h : Has l key P) (hl : Usable l as)
    (hP : ∀ n : Node, 0 < n.nexts.length → P n.isMarked n.handle n.hitCount →
      P' n.aged.isMarked n.aged.handle n.aged.hitCount) : Has (l.aged as) key P' := by
  obtain ⟨bs, hl', b, hb, hkey, hnode⟩ := h
  have hsame : bs = as := by rw [← hl'.formed.listed.nodes_eq, hl.formed.listed.nodes_eq]
  subst hsame
  have hlen : 0 < (l.node b).nexts.length := by
    rw [hl.formed.listed.lengths b (List.mem_cons_of_mem _ hb)]
    omega
  refine ⟨bs, hl.aged.1, b, hb, ?_⟩
  rw [aged_node_of_mem hb]
  exact ⟨(l.node b).aged_shape.1.trans hkey, hP _ hlen hnode⟩

end Has

/-! ### No node has more than 1000 hits -/

def Capped (l : AtomicSkipList) : Prop := ∀ a, (l.node a).hitCount ≤ MAX_HIT_COUNT

section Capped
variable {l l' : AtomicSkipList} {key : Int64}

theorem make_capped : Capped make := by
  intro a
  by_cases hhead : a = head
  · subst hhead
    decide
  · by_cases htail : a = tail
    · subst htail
      decide
    · have hnode : make.node a = default :=
        (Function.update_of_ne hhead ..).trans (Function.update_of_ne htail ..)
      rw [hnode]
      decide

theorem Capped.setNode (h : Capped l) (a : Nat) {n : Node} (hn : n.hitCount ≤ MAX_HIT_COUNT) :
    Capped (l.setNode a n) := by
  intro b
  by_cases hb : b = a
  · subst hb
    rw [node_setNode_self]
    exact hn
  · rw [node_setNode_of_ne l n hb]
    exact h b

theorem Capped.linkLevel (h : Capped l) {pred newNode level : Nat} {expected : MarkVersionedPtr} {linked : Bool}
    (hlink : l.linkLevel pred expected newNode level = (linked, l')) : Capped l' := by
  rw [AtomicSkipList.linkLevel] at hlink
  split at hlink
  · cases hlink
    exact h.setNode pred (h pred)
  · cases hlink
    exact h

theorem Capped.linkUpper (h : Capped l) {newNode topLevel fuel level : Nat} {s : FindState}
    (hlink : linkUpper key newNode topLevel fuel level s l = some l') : Capped l' := by
  induction fuel generalizing level s l with
  | zero => cases hlink
  | succ fuel ih =>
    rw [AtomicSkipList.linkUpper] at hlink
    split at hlink
    · cases hlink
      exact h
    · cases hone : l.linkLevel (s.preds level) (s.succs level) newNode level with
      | mk linked l₁ =>
        have h₁ := h.linkLevel hone
        rw [hone] at hlink
        cases linked with
        | true => exact ih h₁ hlink
        | false =>
          obtain ⟨s', -, hrest⟩ := Option.bind_eq_some_iff.mp hlink
          exact ih h₁ hrest

theorem Capped.insertLoop (h : Capped l) {levels : List Nat} {handle old : Option Handle}
    (hinsert : insertLoop key levels handle l = some (old, l')) : Capped l' := by
  induction levels generalizing handle l with
  | nil =>
    rw [AtomicSkipList.insertLoop] at hinsert
    obtain ⟨s, -, hrest⟩ := Option.bind_eq_some_iff.mp hinsert
    split at hrest
    · cases hrest
      exact h.setNode _ (h _)
    · cases hrest
  | cons topLevel levels ih =>
    rw [AtomicSkipList.insertLoop] at hinsert
    obtain ⟨s, -, hrest⟩ := Option.bind_eq_some_iff.mp hinsert
    split at hrest
    · cases hrest
      exact h.setNode _ (h _)
    · have hnew : Capped (l.newNode key handle topLevel s.succs).2 :=
        h.setNode l.size (show (200 : Int16) ≤ MAX_HIT_COUNT by decide)
      simp only at hrest
      split at hrest
      next l₁ hlink => exact ih (hnew.linkLevel hlink) hrest
      next l₁ hlink =>
        obtain ⟨l₂, hupper, hreturn⟩ := Option.bind_eq_some_iff.mp hrest
        cases hreturn
        have hlinked : Capped l₂ := (hnew.linkLevel hlink).linkUpper hupper
        exact hlinked

theorem Capped.insert (h : Capped l) {levels : List Nat} {handle old : Option Handle}
    (hinsert : l.insert key handle levels = some (old, l')) : Capped l' := by
  rw [AtomicSkipList.insert] at hinsert
  split at hinsert
  · cases hinsert
    exact h
  · exact h.insertLoop hinsert

theorem Capped.get (h : Capped l) {found : Option Handle} (hget : l.get key = some (found, l')) : Capped l' := by
  obtain ⟨node, -, hreturn⟩ := Option.bind_eq_some_iff.mp hget
  cases node with
  | none =>
    cases hreturn
    exact h
  | some a =>
    cases hreturn
    refine h.setNode a ?_
    rw [Node.incrHitCount]
    split
    · exact h a
    next hlow =>
      have hlt := Int16.lt_iff_toInt_lt.mp (Int16.not_le.mp hlow)
      have hlow := (l.node a).hitCount.le_toInt
      rw [Int16.le_iff_toInt_le, Int16.toInt_add, show (1 : Int16).toInt = 1 from rfl]
      rw [show MAX_HIT_COUNT.toInt = 1000 from rfl] at hlt ⊢
      rw [Int.bmod_eq_of_le_mul_two (by omega) (by omega)]
      omega

theorem Capped.markNode (h : Capped l) (a : Nat) : Capped (l.markNode a).2 := by
  have hsame : (l.node a).markDeleted.2.hitCount = (l.node a).hitCount := by
    simp only [Node.markDeleted]
    split <;> rfl
  rw [markNode_eq]
  exact h.setNode a (hsame ▸ h a)

theorem Capped.markDeleted (h : Capped l) (a : Nat) : Capped (l.markDeleted a).2 := by
  have hmarked := h.markNode a
  rw [markDeleted_eq]
  exact hmarked

theorem Capped.decrHitCount (h : Capped l) (a : Nat) : Capped (l.setNode a ((l.node a).decrHitCount 100).2) := by
  refine h.setNode a ?_
  rw [Node.decrHitCount]
  split
  · exact h a
  · simp only
    split
    · decide
    next hhigh =>
      have hmax := Int16.le_iff_toInt_le.mp (h a)
      rw [Int16.le_iff_toInt_le, (Node.decrHitCount_high hhigh).2.1]
      omega

/-- What a function keeps that is called on nodes, an iteration keeps. -/
theorem iterateLevel_invariant {S : Type} {view : S → AtomicSkipList} {fn : Nat → S → Option (Bool × S)}
    {I : S → Prop} (hfn : ∀ a s more s', I s → fn a s = some (more, s') → I s') {fuel pred : Nat} {s s' : S}
    (hI : I s) (hrun : iterateLevel view fn fuel pred s = some s') : I s' := by
  induction fuel generalizing pred s with
  | zero => cases hrun
  | succ fuel ih =>
    rw [iterateLevel] at hrun
    simp only at hrun
    split at hrun
    · cases hrun
    · split at hrun
      · exact ih hI hrun
      · split at hrun
        · cases hrun
          exact hI
        · obtain ⟨⟨more, s₁⟩, hcall, hrest⟩ := Option.bind_eq_some_iff.mp hrun
          have hI₁ := hfn _ s more s₁ hI hcall
          cases more with
          | true => exact ih hI₁ hrest
          | false =>
            cases hrest
            exact hI₁

end Capped

end AtomicSkipList

namespace HashSkipCache
open AtomicSkipList (Has Usable shown)

/-- The key has such a node in its bucket. -/
def At (c : HashSkipCache) (key : Int64) (P : Bool → Option Handle → Int16 → Prop) : Prop :=
  ∃ l, c.buckets (c.bucketIndex key) = some l ∧ Has l key P

/-- The call leaves the entry of the key alone, unless it is a decay. -/
def Leaves (key : Int64) (c : HashSkipCache) : Call → Prop
  | .insert k handle _ => k ≠ key ∧ c.dropped (c.room handle) key = false
  | .get k => k ≠ key
  | .decay _ => True
  | .compact i _ => i ≠ c.bucketIndex key

instance (key : Int64) (c : HashSkipCache) : DecidablePred (c.Leaves key)
  | .insert .. => inferInstanceAs (Decidable (_ ∧ _))
  | .get k => inferInstanceAs (Decidable (k ≠ key))
  | .decay _ => isTrue trivial
  | .compact i _ => inferInstanceAs (Decidable (i ≠ c.bucketIndex key))

def Call.decays (i : Nat) : Call → Bool
  | .decay j => j == i
  | _ => false

/-- What is left of an entry that had `hits` hits after so many decays. -/
def Left (hits : Int) (handle : Handle) (passes : Nat) (m : Bool) (x : Option Handle) (n : Int16) : Prop :=
  if passes = 0 ∨ 100 * passes < hits then m = false ∧ x = some handle ∧ n.toInt = hits - 100 * passes
  else x = none

/-- One more decay. -/
theorem Left.aged {hits : Int} {handle : Handle} {passes : Nat} (n : Node) (hlen : 0 < n.nexts.length)
    (h : Left hits handle passes n.isMarked n.handle n.hitCount) :
    Left hits handle (passes + 1) n.aged.isMarked n.aged.handle n.aged.hitCount := by
  rw [Left] at h ⊢
  by_cases halive : passes = 0 ∨ 100 * passes < hits
  · rw [if_pos halive] at h
    obtain ⟨hmark, hhandle, hcount⟩ := h
    by_cases hlow : n.hitCount ≤ 100
    · have hle : n.hitCount.toInt ≤ 100 := Int16.le_iff_toInt_le.mp hlow
      have hexpires : n.expires = true := by rw [Node.expires, hmark, decide_eq_true hlow]; rfl
      rw [if_neg (by omega)]
      exact (Node.aged_expires hlen hexpires).2
    · have hgt : 100 < n.hitCount.toInt := Int16.lt_iff_toInt_lt.mp (Int16.not_le.mp hlow)
      obtain ⟨-, hcalc, -⟩ := Node.decrHitCount_high hlow
      rw [if_pos (by omega), Node.aged_high hmark hlow]
      exact ⟨hmark, hhandle, by simp only [hcalc]; omega⟩
  · rw [if_neg halive] at h
    rw [if_neg (by omega)]
    cases hexpires : n.expires with
    | true => exact (Node.aged_expires hlen hexpires).2
    | false => exact (Node.aged_stays hexpires).2.trans h

section Steps
variable {n : Nat} {c c' : HashSkipCache} {i : Nat} {l : AtomicSkipList} {key : Int64}
  {P P' : Bool → Option Handle → Int16 → Prop}

theorem At.slot (h : c.At key P) : ∃ m x n, c.slot key = some (m, x) ∧ P m x n := by
  obtain ⟨l, hbucket, hl⟩ := h
  rw [slot_of_bucket hbucket rfl]
  exact hl.slot

/-- A bucket is replaced: that of the key by one that has it, too, or another. -/
theorem At.setBucket (h : c.At key P) (hP : ∀ m x n, P m x n → P' m x n)
    (hl : c.bucketIndex key = i → Has l key P') : (c.setBucket i l).At key P' := by
  by_cases hi : c.bucketIndex key = i
  · subst hi
    exact ⟨l, setBucket_self .., hl rfl⟩
  · obtain ⟨m, hbucket, hm⟩ := h
    exact ⟨m, (setBucket_of_ne c l hi).trans hbucket, hm.mono hP⟩

/-- `Evict` marks the node, or leaves it as it is. -/
theorem Evicts.at (h : Evicts c c') (hat : c.At key P) : c'.At key fun m x n => P m x n ∨ m = true ∧ x = none := by
  induction h with
  | refl =>
    obtain ⟨l, hbucket, hl⟩ := hat
    exact ⟨l, hbucket, hl.mono fun _ _ _ => .inl⟩
  | tail _ hstep ih =>
    cases hstep with
    | pop q hq => exact ih
    | mark i l as a hbucket hl ha hmark =>
      refine ih.setBucket (fun _ _ _ h => h) fun hi => ?_
      subst hi
      obtain ⟨m, hm, hhas⟩ := ih
      cases hbucket.symm.trans hm
      exact (hhas.markNode hl ha hmark).mono fun _ _ _ hor => hor.elim id .inr

variable {hits : Int} {handle : Handle} {passes : Nat}

/-- An eviction that does not drop the key leaves what was left of its entry. -/
theorem Evicts.left (h : Evicts c c') (hat : c.At key (Left hits handle passes))
    (hkept : c.dropped (some c') key = false) : c'.At key (Left hits handle passes) := by
  obtain ⟨l, hbucket, as, hl, a, ha, hkey, hnode⟩ := h.at hat
  refine ⟨l, hbucket, as, hl, a, ha, hkey, hnode.elim id fun hdead => ?_⟩
  obtain ⟨m, x, n, hslot, hleft⟩ := hat.slot
  rw [Left] at hleft ⊢
  split at hleft
  next halive =>
    -- it was not marked before, so it has been dropped
    have hnow : c'.slot key = some (true, none) := by
      have hself := AtomicSkipList.slot_of_mem hl.formed.listed (List.mem_append_left [AtomicSkipList.tail] ha)
      rw [hkey, hdead.1, hdead.2] at hself
      exact (slot_of_bucket hbucket rfl).trans hself
    rw [dropped, Option.any_some, keyMarked, keyMarked, hslot, hnow, hleft.1] at hkept
    cases hkept
  next halive =>
    rw [if_neg halive]
    exact hdead.2

/-- **The step lemma**: a call that leaves the entry alone, or a decay. -/
theorem At.call (hat : c.At key (Left hits handle passes)) (hc : c.Ready n) {turn : Call}
    (hleaves : c.Leaves key turn) (hrun : c.call turn = some c') :
    c'.At key (Left hits handle (passes + if turn.decays (c.bucketIndex key) then 1 else 0)) := by
  cases turn with
  | insert k x topLevel =>
    obtain ⟨c₁, c₂, hroom, hevicts, hstore, hinsert⟩ := hc.insert k x topLevel
    have hcall : c.call (.insert k x topLevel) = some c₂ := Option.map_eq_some_iff.mpr ⟨_, hinsert, rfl⟩
    cases hcall.symm.trans hrun
    obtain ⟨hk, hkept⟩ := hleaves
    rw [hroom] at hkept
    have hat₁ := hevicts.left hat hkept
    rcases store_cases hstore with ⟨-, hfalse, -⟩ | ⟨l, old, l', hbucket, hins, -, rfl⟩
    · cases hfalse
    · refine At.setBucket hat₁ (fun _ _ _ h => h) fun hi => ?_
      obtain ⟨m, hm, hhas⟩ := hat₁
      rw [hi] at hm
      cases hm.symm.trans hbucket
      cases x with
      | none =>
        cases hins
        exact hhas
      | some x =>
        refine hhas.insert hk (fun y n hleft => ?_) hins
        rw [Left] at hleft ⊢
        split
        next halive =>
          rw [if_pos halive] at hleft
          cases hleft.1
        next halive =>
          rw [if_neg halive] at hleft
          exact hleft
  | get k =>
    obtain ⟨⟨found, c₁⟩, hget, rfl⟩ := Option.map_eq_some_iff.mp hrun
    rcases get_cases hget with ⟨-, -, rfl⟩ | ⟨l, l', hbucket, hfound, rfl⟩
    · exact hat
    · refine hat.setBucket (fun _ _ _ h => h) fun hi => ?_
      obtain ⟨m, hm, hhas⟩ := hat
      rw [hi] at hm
      cases hm.symm.trans hbucket
      exact hhas.get hleaves hfound
  | decay i =>
    obtain ⟨-, hdecay⟩ := Option.ite_none_right_eq_some.mp hrun
    rw [Call.decays]
    cases hbucket : c.buckets i with
    | none =>
      rw [decayOneBucket, if_pos (by rw [hbucket]; rfl)] at hdecay
      cases hdecay
      have hi : i ≠ c.bucketIndex key := by
        rintro rfl
        obtain ⟨m, hm, -⟩ := hat
        cases hbucket.symm.trans hm
      rw [beq_false_of_ne hi]
      exact hat
    | some l =>
      obtain ⟨as, hl⟩ := hc.lists i l hbucket
      obtain ⟨q, num, hspec, -⟩ := decay_spec hl.formed hl.tail_unmarked hbucket hc.queue
      cases hspec.symm.trans hdecay
      by_cases hi : c.bucketIndex key = i
      · subst hi
        rw [beq_self_eq_true, if_pos rfl]
        obtain ⟨m, hm, hhas⟩ := hat
        cases hbucket.symm.trans hm
        obtain ⟨bs, hm', hnode⟩ := hhas.aged hl fun n hlen hleft => Left.aged n hlen hleft
        exact ⟨_, setBucket_self .., bs, hm'.congr rfl rfl rfl, hnode⟩
      · rw [beq_false_of_ne (Ne.symm hi)]
        exact hat.setBucket (fun _ _ _ h => h) fun heq => absurd heq hi
  | compact i levels =>
    rcases compact_cases hrun with rfl | ⟨l, new, -, -, rfl⟩
    · exact hat
    · exact hat.setBucket (fun _ _ _ h => h) fun hi => absurd hi.symm hleaves

end Steps

/-! ### The cap -/

section Cap
variable {c c' : HashSkipCache}

/-- No node of a bucket has more than 1000 hits. -/
def AllCapped (c : HashSkipCache) : Prop := ∀ i l, c.buckets i = some l → AtomicSkipList.Capped l

theorem AllCapped.evict (h : c.AllCapped) {need : Int32} {enough : Bool} (hrun : c.evict need = some (enough, c')) :
    c'.AllCapped := by
  obtain ⟨-, rest, hloop⟩ := evict_cases hrun
  refine evictLoop_keeps (I := AllCapped) (fun hd _ => hd) ?_ h hloop
  intro d it q free d' hd _ _ hone
  rcases evictOne_cases hone with ⟨-, -, rfl⟩ | ⟨l, a, -, hbucket, -, -, rfl⟩
  · exact hd
  · exact forall_setBucket hd ((hd _ l hbucket).markNode a)

theorem AllCapped.store (h : c.AllCapped) {key : Int64} {handle : Option Handle} {levels : List Nat} {stored : Bool}
    (hrun : c.store key handle levels = some (stored, c')) : c'.AllCapped := by
  rcases store_cases hrun with ⟨-, -, rfl⟩ | ⟨l, old, l', hbucket, hinsert, -, rfl⟩
  · exact h
  · exact forall_setBucket h ((h _ l hbucket).insert hinsert)

theorem AllCapped.bucket (h : c.AllCapped) (i : Nat) : AtomicSkipList.Capped (c.bucket i) := by
  rw [HashSkipCache.bucket]
  cases hbucket : c.buckets i with
  | none => exact AtomicSkipList.make_capped
  | some l => exact h i l hbucket

theorem AllCapped.setBucket_markDeleted (h : c.AllCapped) (i a : Nat) :
    (c.setBucket i ((c.bucket i).markDeleted a).2).AllCapped :=
  forall_setBucket h ((h.bucket i).markDeleted a)

theorem AllCapped.decayNode (h : c.AllCapped) {i a : Nat} {more : Bool}
    (hrun : HashSkipCache.decayNode i a c = some (more, c')) : c'.AllCapped := by
  have hset : (c.setBucket i ((c.bucket i).setNode a (((c.bucket i).node a).decrHitCount 100).2)).AllCapped :=
    forall_setBucket h ((h.bucket i).decrHitCount a)
  have hmarked := hset.setBucket_markDeleted i a
  simp only [HashSkipCache.decayNode] at hrun
  split at hrun
  · cases hrun
    exact hset
  · split at hrun
    · obtain ⟨⟨pushed, q⟩, -, hreturn⟩ := Option.bind_eq_some_iff.mp hrun
      cases hreturn
      exact hset
    · split at hrun
      · cases hrun
        exact hmarked
      · cases hrun
        exact hmarked

theorem AllCapped.decay (h : c.AllCapped) {i : Nat} (hrun : c.decayOneBucket i = some c') : c'.AllCapped := by
  rcases decayOneBucket_cases hrun with ⟨-, rfl⟩ | ⟨l, hbucket, hiterate⟩
  · exact h
  · have hkeep : ∀ a d more d', AllCapped d → HashSkipCache.decayNode i a d = some (more, d') → AllCapped d' :=
      fun _ _ _ _ hd hnode => hd.decayNode hnode
    exact AtomicSkipList.iterateLevel_invariant hkeep h hiterate

/-- **The step lemma.** -/
theorem AllCapped.call (h : c.AllCapped) {turn : Call} (hrun : c.call turn = some c') : c'.AllCapped := by
  cases turn with
  | insert key handle topLevel =>
    obtain ⟨⟨stored, c₁⟩, hinsert, rfl⟩ := Option.map_eq_some_iff.mp hrun
    rcases insert_cases hinsert with ⟨-, -, rfl⟩ | ⟨-, hstore⟩ | ⟨-, c₂, hevict, hstore⟩
    · exact h
    · exact h.store hstore
    · exact (h.evict hevict).store hstore
  | get key =>
    obtain ⟨⟨found, c₁⟩, hget, rfl⟩ := Option.map_eq_some_iff.mp hrun
    exact get_keeps h (fun l l' hl hfound => hl.get hfound) hget
  | decay i => exact h.decay (Option.ite_none_right_eq_some.mp hrun).2
  | compact i levels =>
    refine compact_keeps h (fun l new _ hbucket hcompact => ?_) hrun
    rw [compactOneBucket, hbucket] at hcompact
    simp only at hcompact
    split at hcompact
    · cases hcompact
    · obtain ⟨new₁, hiterate, hreturn⟩ := Option.bind_eq_some_iff.mp hcompact
      cases hreturn
      refine AtomicSkipList.iterateLevel_invariant (fun a m more m' hm hcopy => ?_) AtomicSkipList.make_capped hiterate
      obtain ⟨⟨old, m₁⟩, hinsert, hreturn⟩ := Option.bind_eq_some_iff.mp hcopy
      cases hreturn
      exact hm.insert hinsert

theorem run_capped {capicity : Int} {bucketNum : Nat} {calls : List Call} {c : HashSkipCache}
    (hrun : (make capicity bucketNum).init.run calls = some c) : c.AllCapped := by
  have hstep : ∀ s turn t, AllCapped s → True → call s turn = some t → AllCapped t :=
    fun _ _ _ hs _ hcall => hs.call hcall
  exact Stepwise.run_keeps hstep (forall_init AtomicSkipList.make_capped capicity bucketNum)
    (Stepwise.along_of_mem (fun _ _ _ => trivial) _) hrun

end Cap

/-! ### Runs -/

/-- **The run lemma.** -/
theorem At.run {n : Nat} {c c' : HashSkipCache} {key : Int64} {hits : Int} {handle : Handle} {passes : Nat}
    {idle : List Call} (hat : c.At key (Left hits handle passes)) (hc : c.Ready n)
    (hidle : Stepwise.Along HashSkipCache.call (Leaves key) c idle) (hrun : c.run idle = some c') :
    c'.Ready n ∧ c'.At key (Left hits handle (passes + idle.countP (Call.decays (c.bucketIndex key)))) := by
  induction idle generalizing c passes with
  | nil =>
    cases hrun
    exact ⟨hc, hat⟩
  | cons turn idle ih =>
    obtain ⟨c₁, hcall, hrest⟩ := Stepwise.run_cons.mp hrun
    have hc₁ := (hc.faithful hcall c.bounds_slot).1
    have hindex : c₁.bucketIndex key = c.bucketIndex key := by
      rw [bucketIndex, bucketIndex, hc₁.bucketNum, hc.bucketNum]
    obtain ⟨hend, hleft⟩ := ih (hat.call hc hidle.1 hcall) hc₁ (hidle.2 c₁ hcall) hrest
    rw [hindex, Nat.add_assoc] at hleft
    rw [List.countP_cons, Nat.add_comm (List.countP _ _)]
    exact ⟨hend, hleft⟩

/-- **How long an entry lives**: after calls that neither read nor write nor evict it, and leave
its bucket in place, `Get` returns its handle if and only if no decay has met it or it had more
hits than the decays have taken. -/
theorem run_decays_away {capicity : Int} {bucketNum : Nat} {calls idle : List Call} {c c' : HashSkipCache}
    {l : AtomicSkipList} {a : Nat} {handle : Handle} (hnum : 0 < bucketNum)
    (hrun : (make capicity bucketNum).init.run calls = some c)
    (hbucket : c.buckets (c.bucketIndex (l.node a).key) = some l) (ha : a ∈ l.nodes)
    (hmark : (l.node a).isMarked = false) (hhandle : (l.node a).handle = some handle)
    (hidle : Stepwise.Along call (Leaves (l.node a).key) c idle) (hend : c.run idle = some c') :
    ∃ last, c'.get (l.node a).key = some (if idle.countP (Call.decays (c.bucketIndex (l.node a).key)) = 0 ∨
      100 * (idle.countP (Call.decays (c.bucketIndex (l.node a).key)) : Int) < (l.node a).hitCount.toInt
      then some handle else none, last) := by
  have hc := run_ready hnum hrun
  obtain ⟨as, hl⟩ := hc.lists _ l hbucket
  have hnodes := hl.formed.listed.nodes_eq
  have hat : c.At (l.node a).key (Left (l.node a).hitCount.toInt handle 0) := by
    refine ⟨l, hbucket, as, hl, a, hnodes ▸ ha, rfl, ?_⟩
    rw [Left, if_pos (.inl rfl)]
    exact ⟨hmark, hhandle, (Int.sub_zero _).symm⟩
  obtain ⟨hc', hleft⟩ := hat.run hc hidle hend
  rw [Nat.zero_add] at hleft
  obtain ⟨last, hget, -⟩ := hc'.get (l.node a).key
  obtain ⟨m, x, n, hslot, hnode⟩ := hleft.slot
  refine ⟨last, hget.trans ?_⟩
  rw [hslot]
  rw [Left] at hnode
  split at hnode
  next halive => rw [if_pos halive, hnode.1, hnode.2.1, shown]
  next hgone =>
    rw [if_neg hgone, hnode]
    cases m <;> rfl

/-- One hit keeps the entry alive over the second decay. -/
theorem run_decays_away_read : ∃ c l c', (make 10 1).init.run [.insert 0 (some ⟨1, 4⟩) 0, .get 0] = some c ∧
    c.buckets 0 = some l ∧ c.run [.decay 0, .insert 2 (some ⟨2, 4⟩) 3, .get 2, .decay 0] = some c' ∧
    ∃ last, c'.get (l.node 3).key = some (some ⟨1, 4⟩, last) := by
  have hany : ((make 10 1).init.run [.insert 0 (some ⟨1, 4⟩) 0, .get 0]).any (fun c => (c.buckets 0).any fun l =>
      (c.run [.decay 0, .insert 2 (some ⟨2, 4⟩) 3, .get 2, .decay 0]).any fun _ =>
        c.bucketIndex (l.node 3).key = 0 ∧ 3 ∈ l.nodes ∧ (l.node 3).isMarked = false ∧
        (l.node 3).handle = some ⟨1, 4⟩ ∧ (l.node 3).hitCount.toInt = 201 ∧
        Stepwise.Along call (Leaves (l.node 3).key) c [.decay 0, .insert 2 (some ⟨2, 4⟩) 3, .get 2, .decay 0]) =
      true := by
    decide +kernel
  obtain ⟨c, hrun, hrest⟩ := (Option.any_eq_true _ _).mp hany
  obtain ⟨l, hbucket, hrest⟩ := (Option.any_eq_true _ _).mp hrest
  obtain ⟨c', hend, hall⟩ := (Option.any_eq_true _ _).mp hrest
  obtain ⟨hindex, ha, hmark, hhandle, hhits, hidle⟩ := of_decide_eq_true hall
  have hlast := run_decays_away (by decide) hrun (hindex.symm ▸ hbucket) ha hmark hhandle hidle hend
  rw [hindex, hhits, if_pos (by decide)] at hlast
  exact ⟨c, l, c', hrun, hbucket, hend, hlast⟩

/-- What `Get` has returned is with a node of at most 1000 hits. -/
theorem at_of_get {n : Nat} {c c₁ : HashSkipCache} {key : Int64} {handle : Handle} (hc : c.Ready n)
    (hcapped : c.AllCapped) (hkey : key ≠ Int64.maxValue) (hget : c.get key = some (some handle, c₁)) :
    c₁.Ready n ∧ c₁.AllCapped ∧ ∃ hits ≤ 1000, c₁.At key (Left hits handle 0) := by
  obtain ⟨d, hread, hd, hsame⟩ := hc.get key
  obtain ⟨hfound, rfl⟩ := Prod.mk.inj (Option.some.inj (hread.symm.trans hget))
  have hcall : c.call (.get key) = some d := Option.map_eq_some_iff.mpr ⟨_, hget, rfl⟩
  have hslot : d.slot key = some (false, some handle) := hsame ▸ AtomicSkipList.shown_eq_some.mp hfound
  obtain ⟨l, as, hbucket, hl⟩ := hd.bucket key
  rw [slot_of_bucket hbucket rfl] at hslot
  obtain ⟨a, ha, rfl⟩ : ∃ a ∈ as, (l.node a).key = key := by
    rcases AtomicSkipList.mem_or_absent l as key with ⟨a, ha, hnode⟩ | habsent
    · rcases List.mem_append.mp ha with hmem | htail
      · exact ⟨a, hmem, hnode⟩
      · rw [List.mem_singleton.mp htail, hl.formed.listed.tail_key] at hnode
        exact absurd hnode.symm hkey
    · rw [AtomicSkipList.slot_of_absent hl.formed.listed habsent] at hslot
      cases hslot
  rw [AtomicSkipList.slot_of_mem hl.formed.listed (List.mem_append_left _ ha)] at hslot
  obtain ⟨hmark, hhandle⟩ := Prod.mk.inj (Option.some.inj hslot)
  have hcapped' := hcapped.call hcall
  refine ⟨hd, hcapped', _, Int16.le_iff_toInt_le.mp (hcapped' _ l hbucket a), l, hbucket, as, hl, a, ha, rfl, ?_⟩
  rw [Left, if_pos (.inl rfl)]
  exact ⟨hmark, hhandle, (Int.sub_zero _).symm⟩

/-- Ten decays take all that a node can have. -/
theorem At.gone {n : Nat} {c : HashSkipCache} {key : Int64} {hits : Int} {handle : Handle} {passes : Nat}
    (hat : c.At key (Left hits handle passes)) (hc : c.Ready n) (hhits : hits ≤ 1000) (hten : 10 ≤ passes) :
    ∃ last, c.get key = some (none, last) := by
  obtain ⟨last, hlast, -⟩ := hc.get key
  obtain ⟨m, x, n, hnow, hnode⟩ := hat.slot
  rw [Left, if_neg (by omega)] at hnode
  refine ⟨last, hlast.trans ?_⟩
  rw [hnow, hnode]
  cases m <;> rfl

/-- **No entry outlives ten decays**: no node has more than 1000 hits, and so what a `Get` has
returned is gone after ten decays of its bucket, if it is not read or written in between.
(`tail_`, which keeps the handle of the largest key, is no node that a decay meets.) -/
theorem run_ten_decays {capicity : Int} {bucketNum : Nat} {calls : List Call} {c : HashSkipCache}
    (hnum : 0 < bucketNum) (hrun : (make capicity bucketNum).init.run calls = some c) :
    (∀ i l, c.buckets i = some l → ∀ a, (l.node a).hitCount ≤ 1000) ∧
    ∀ (key : Int64) (handle : Handle) (c₁ c' : HashSkipCache) (idle : List Call), key ≠ Int64.maxValue →
      c.get key = some (some handle, c₁) → Stepwise.Along call (Leaves key) c₁ idle →
      10 ≤ idle.countP (Call.decays (c₁.bucketIndex key)) → c₁.run idle = some c' →
      ∃ last, c'.get key = some (none, last) := by
  have hcapped := run_capped hrun
  refine ⟨hcapped, fun key handle c₁ c' idle hkey hget hidle hten hend => ?_⟩
  obtain ⟨hd, -, hits, hhits, hat⟩ := at_of_get (run_ready hnum hrun) hcapped hkey hget
  obtain ⟨hc', hleft⟩ := hat.run hd hidle hend
  exact hleft.gone hc' hhits (Nat.le_add_left_of_le hten)

theorem run_ten_decays_idle : ∃ c c₁ c', (make 10 2).init.run [.insert 0 (some ⟨1, 4⟩) 0, .get 0] = some c ∧
    (∀ i l, c.buckets i = some l → ∀ a, (l.node a).hitCount ≤ 1000) ∧ c.get 0 = some (some ⟨1, 4⟩, c₁) ∧
    c₁.run ([.insert 1 (some ⟨2, 4⟩) 3, .get 1, .compact 1 (fun _ => 0)] ++ List.replicate 10 (.decay 0)) = some c' ∧
    ∃ last, c'.get 0 = some (none, last) := by
  have hany : ((make 10 2).init.run [.insert 0 (some ⟨1, 4⟩) 0, .get 0]).any (fun c => (c.get 0).any fun r =>
      (r.2.run ([.insert 1 (some ⟨2, 4⟩) 3, .get 1, .compact 1 (fun _ => 0)] ++ List.replicate 10 (.decay 0))).any
        fun _ => r.1 = some ⟨1, 4⟩ ∧ r.2.bucketIndex 0 = 0 ∧
          Stepwise.Along call (Leaves 0) r.2
            ([.insert 1 (some ⟨2, 4⟩) 3, .get 1, .compact 1 (fun _ => 0)] ++ List.replicate 10 (.decay 0))) = true := by
    decide +kernel
  obtain ⟨c, hrun, hrest⟩ := (Option.any_eq_true _ _).mp hany
  obtain ⟨⟨found, c₁⟩, hget, hrest⟩ := (Option.any_eq_true _ _).mp hrest
  obtain ⟨c', hend, hall⟩ := (Option.any_eq_true _ _).mp hrest
  obtain ⟨rfl, hindex, hidle⟩ := of_decide_eq_true hall
  obtain ⟨hcapped, hgone⟩ := run_ten_decays (by decide) hrun
  refine ⟨c, c₁, c', hrun, hcapped, hget, hend, hgone 0 _ c₁ c' _ (by decide) hget hidle ?_ hend⟩
  rw [hindex]
  decide

end HashSkipCache

end HyperCache.HashSkip
