import HyperCache.HashSkip.AtomicSkipList
import HyperCache.Lib.Chain
import Mathlib.Data.Finset.Interval
import Mathlib.Order.Interval.Finset.Nat
import Mathlib.Order.WithBot

/-! The shape of a skip list, and what `Find` finds in it.

Level 0 is a sorted chain from `head_` to `tail_`. Of the levels above nothing more is
needed than that their pointers lead forward, to nodes high enough: a search goes down
from wherever it is, and level 0 has every node. So `Listed` holds with any number of
threads at work, and `findStep_spec` is about one load. -/
namespace HyperCache.HashSkip.AtomicSkipList

/-- The place of a node in the order; `head_` comes before every key. -/
def rank (l : AtomicSkipList) (a : Nat) : WithBot Int :=
  if a = head then ⊥ else ((l.node a).key.toInt : Int)

/-- The place of a key. -/
def place (key : Int64) : WithBot Int := (key.toInt : Int)

/-- `as` are the nodes between `head_` and `tail_`. -/
structure Listed (l : AtomicSkipList) (as : List Nat) : Prop where
  linked : Chain.Linked (fun a => (l.next a 0).raw) l.rank head tail as
  taken : ∀ a ∈ as, tail < a ∧ a < l.size
  size : tail < l.size
  lengths : ∀ a ∈ head :: as, (l.node a).nexts.length = (l.node a).topLevel + 1
  tops : ∀ a ∈ head :: as ++ [tail], (l.node a).topLevel ≤ maxLevel
  head_top : (l.node head).topLevel = maxLevel
  tail_top : (l.node tail).topLevel = maxLevel
  tail_key : (l.node tail).key = Int64.maxValue
  forward : ∀ a ∈ head :: as, ∀ level, level ≤ (l.node a).topLevel →
    (l.next a level).raw ∈ as ++ [tail] ∧ l.rank a < l.rank (l.next a level).raw ∧
      level ≤ (l.node (l.next a level).raw).topLevel

section Order
variable {l : AtomicSkipList} {as : List Nat} {a b : Nat} {key : Int64}

theorem rank_eq (ha : a ≠ head) : l.rank a = place (l.node a).key := if_neg ha

theorem place_lt {key key' : Int64} : place key < place key' ↔ key < key' := by
  rw [place, place, WithBot.coe_lt_coe, Int64.lt_iff_toInt_lt]

theorem place_le {key key' : Int64} : place key ≤ place key' ↔ key ≤ key' := by
  rw [place, place, WithBot.coe_le_coe, Int64.le_iff_toInt_le]

theorem place_inj {key key' : Int64} : place key = place key' ↔ key = key' := by
  rw [place, place, WithBot.coe_inj, Int64.toInt_inj]

theorem rank_lt_place (ha : a ≠ head) : l.rank a < place key ↔ (l.node a).key < key := by
  rw [rank_eq ha, place_lt]

theorem Listed.ne_head (h : Listed l as) (ha : a ∈ as ++ [tail]) : a ≠ head := by
  rcases List.mem_append.mp ha with hm | hm
  · exact Nat.ne_of_gt (Nat.lt_trans (by decide) (h.taken a hm).1)
  · rw [List.mem_singleton.mp hm]
    decide

theorem Listed.ne_tail (h : Listed l as) (ha : a ∈ head :: as) : a ≠ tail := by
  rcases List.mem_cons.mp ha with rfl | hm
  · decide
  · exact Nat.ne_of_gt (h.taken a hm).1

theorem Listed.ne_null (h : Listed l as) (ha : a ∈ as ++ [tail]) : a ≠ 0 := by
  rcases List.mem_append.mp ha with hm | hm
  · exact Nat.ne_of_gt (Nat.lt_trans (by decide) (h.taken a hm).1)
  · rw [List.mem_singleton.mp hm]
    decide

/-- Nodes are told apart by their keys. -/
theorem Listed.eq_of_key (h : Listed l as) (ha : a ∈ as ++ [tail]) (hb : b ∈ as ++ [tail])
    (heq : (l.node a).key = (l.node b).key) : a = b := by
  apply h.linked.eq_of_rank (List.mem_cons_of_mem _ ha) (List.mem_cons_of_mem _ hb)
  rw [rank_eq (h.ne_head ha), rank_eq (h.ne_head hb), heq]

/-- The successor on level 0 is the first node from a key on, if the key lies after its
predecessor. -/
theorem Listed.next_key (h : Listed l as) (ha : a ∈ head :: as) (hlt : l.rank a < place key)
    (hle : place key ≤ l.rank (l.next a 0).raw) (hb : b ∈ as ++ [tail])
    (hkey : (l.node b).key = key) : (l.next a 0).raw = b := by
  have hrank : l.rank b = place key := by rw [rank_eq (h.ne_head hb), hkey]
  have hmem := h.linked.next_mem ha
  apply h.linked.eq_of_rank (List.mem_cons_of_mem _ hmem) (List.mem_cons_of_mem _ hb)
  apply le_antisymm
  · exact h.linked.next_le ha (List.mem_cons_of_mem _ hb) (by rw [hrank]; exact hlt)
  · rw [hrank]
    exact hle

end Order

/-! ### Find -/

/-- On a level, a node before the key and a node from the key on. -/
structure Between (l : AtomicSkipList) (as : List Nat) (key : Int64) (level pred : Nat)
    (succ : MarkVersionedPtr) : Prop where
  pred_mem : pred ∈ head :: as
  pred_lt : l.rank pred < place key
  pred_top : level ≤ (l.node pred).topLevel
  succ_mem : succ.raw ∈ as ++ [tail]
  le_succ : place key ≤ l.rank succ.raw
  succ_top : level ≤ (l.node succ.raw).topLevel

/-- What is known in the loop of `Find`. -/
structure Searching (l : AtomicSkipList) (as : List Nat) (key : Int64) (s : FindState) : Prop where
  level : s.level ≤ maxLevel
  pred_mem : s.pred ∈ head :: as
  pred_lt : l.rank s.pred < place key
  pred_top : s.level ≤ (l.node s.pred).topLevel
  above : ∀ level, s.level < level → level ≤ maxLevel →
    Between l as key level (s.preds level) (s.succs level)
  missed : s.found = false → ∀ level, s.level < level → level ≤ maxLevel →
    (l.node (s.succs level).raw).key ≠ key
  found : s.found = true → ∃ a ∈ as ++ [tail], (l.node a).key = key

/-- What is known when `Find` returns. -/
structure Found (l : AtomicSkipList) (as : List Nat) (key : Int64) (s : FindState) : Prop where
  between : ∀ level, level ≤ maxLevel → Between l as key level (s.preds level) (s.succs level)
  missed : s.found = false → ∀ level, level ≤ maxLevel → (l.node (s.succs level).raw).key ≠ key
  found : s.found = true → (l.node (s.succs 0).raw).key = key

section Find
variable {l : AtomicSkipList} {as : List Nat} {key : Int64} {s s' : FindState}

theorem Listed.searching (h : Listed l as) : Searching l as key FindState.start where
  level := Nat.le_refl _
  pred_mem := List.mem_cons_self ..
  pred_lt := WithBot.bot_lt_coe _
  pred_top := Nat.le_of_eq h.head_top.symm
  above := fun _ h1 h2 => absurd h1 (Nat.not_lt.mpr h2)
  missed := fun _ _ h1 h2 => absurd h1 (Nat.not_lt.mpr h2)
  found := fun h => nomatch h

/-- The load of a search leads forward. -/
theorem Searching.forward (h : Listed l as) (hs : Searching l as key s) :
    (l.next s.pred s.level).raw ∈ as ++ [tail] ∧
      l.rank s.pred < l.rank (l.next s.pred s.level).raw ∧
      s.level ≤ (l.node (l.next s.pred s.level).raw).topLevel :=
  h.forward s.pred hs.pred_mem s.level hs.pred_top

theorem Searching.between (h : Listed l as) (hs : Searching l as key s)
    (hge : ¬ (l.node (l.next s.pred s.level).raw).key < key) :
    Between l as key s.level s.pred (l.next s.pred s.level) := by
  obtain ⟨hmem, -, htop⟩ := hs.forward h
  refine ⟨hs.pred_mem, hs.pred_lt, hs.pred_top, hmem, ?_, htop⟩
  rw [← not_lt, rank_lt_place (h.ne_head hmem)]
  exact hge

/-- The level is searched: what is known of it and of those above. -/
theorem Searching.record (h : Listed l as) (hs : Searching l as key s)
    (hge : ¬ (l.node (l.next s.pred s.level).raw).key < key) {equal : Bool}
    (hequal : equal = ((l.node (l.next s.pred s.level).raw).key == key)) {level : Nat}
    (hle : s.level ≤ level) (hmax : level ≤ maxLevel) :
    Between l as key level ((s.record (l.next s.pred s.level) equal).preds level)
        ((s.record (l.next s.pred s.level) equal).succs level) ∧
      ((s.record (l.next s.pred s.level) equal).found = false →
        (l.node ((s.record (l.next s.pred s.level) equal).succs level).raw).key ≠ key) := by
  simp only [FindState.record]
  by_cases heq : level = s.level
  · subst heq
    rw [Function.update_self, Function.update_self]
    refine ⟨hs.between h hge, fun hfalse => ?_⟩
    rw [hequal, Bool.or_eq_false_iff] at hfalse
    exact ne_of_beq_false hfalse.2
  · rw [Function.update_of_ne heq, Function.update_of_ne heq]
    refine ⟨hs.above level (by omega) hmax, fun hfalse => ?_⟩
    exact hs.missed (Bool.or_eq_false_iff.mp hfalse).1 level (by omega) hmax

/-- One load keeps what the search knows and brings it forward; at the end the key is
found if a node has it. -/
theorem findStep_spec (h : Listed l as) (hs : Searching l as key s) :
    (∃ s', l.findStep key s = .inl s' ∧ Searching l as key s' ∧
      (l.rank s.pred < l.rank s'.pred ∧ s'.level = s.level ∨
        s'.pred = s.pred ∧ s'.level + 1 = s.level)) ∨
    ∃ s', l.findStep key s = .inr s' ∧ Found l as key s' := by
  obtain ⟨hmem, hlt, htop⟩ := hs.forward h
  by_cases hkey : (l.node (l.next s.pred s.level).raw).key < key
  · have hne : (l.next s.pred s.level).raw ≠ tail := by
      intro htail
      rw [htail, h.tail_key] at hkey
      exact absurd (Int64.le_maxValue key) (Int64.not_le.mpr hkey)
    have hcurr : (l.next s.pred s.level).raw ∈ as := by
      rcases List.mem_append.mp hmem with hm | hm
      · exact hm
      · exact absurd (List.mem_singleton.mp hm) hne
    have hpred := (rank_lt_place (h.ne_head hmem)).mpr hkey
    exact .inl ⟨{s with pred := (l.next s.pred s.level).raw}, if_pos hkey,
      ⟨hs.level, List.mem_cons_of_mem _ hcurr, hpred, htop, hs.above, hs.missed, hs.found⟩,
      .inl ⟨hlt, rfl⟩⟩
  · have hrecord : ∀ level, s.level ≤ level → level ≤ maxLevel → _ := fun level hle hmax =>
      hs.record h hkey rfl hle hmax
    have hfound : (s.record (l.next s.pred s.level)
        ((l.node (l.next s.pred s.level).raw).key == key)).found = true →
        ∃ a ∈ as ++ [tail], (l.node a).key = key := by
      intro htrue
      rcases Bool.or_eq_true .. ▸ htrue with hf | hf
      · exact hs.found hf
      · exact ⟨_, hmem, eq_of_beq hf⟩
    cases hlevel : s.level with
    | zero =>
      right
      refine ⟨s.record (l.next s.pred s.level) ((l.node (l.next s.pred s.level).raw).key == key), ?_, ?_⟩
      · rw [findStep, if_neg hkey]
        simp only [hlevel]
      · refine ⟨fun level hmax => (hrecord level (by omega) hmax).1,
          fun hfalse level hmax => (hrecord level (by omega) hmax).2 hfalse, fun htrue => ?_⟩
        obtain ⟨b, hb, hbkey⟩ := hfound htrue
        have hbetween := (hrecord 0 (by omega) (by omega)).1
        have hsucc : (s.record (l.next s.pred s.level)
            ((l.node (l.next s.pred s.level).raw).key == key)).succs 0 = l.next s.pred 0 := by
          simp only [FindState.record, hlevel, Function.update_self]
        have hle := hbetween.le_succ
        rw [hsucc] at hle ⊢
        rw [h.next_key hs.pred_mem hs.pred_lt hle hb hbkey]
        exact hbkey
    | succ level =>
      left
      refine ⟨{s.record (l.next s.pred s.level) ((l.node (l.next s.pred s.level).raw).key == key) with
        level := level}, ?_, ?_, .inr ⟨rfl, rfl⟩⟩
      · rw [findStep, if_neg hkey]
        simp only [hlevel]
      · have hmax := hs.level
        have htop : level ≤ (l.node s.pred).topLevel := by
          have hpred := hs.pred_top
          omega
        exact ⟨by simp only; omega, hs.pred_mem, hs.pred_lt, htop,
          fun i hi himax => (hrecord i (by simp only at hi; omega) himax).1,
          fun hfalse i hi himax => (hrecord i (by simp only at hi; omega) himax).2 hfalse, hfound⟩

/-! With one thread, what was loaded is still there. -/

/-- The pointers recorded so far are those in the list. -/
def Loaded (l : AtomicSkipList) (s : FindState) (level : Nat) : Prop :=
  ∀ i, level ≤ i → i ≤ maxLevel → l.next (s.preds i) i = s.succs i

theorem Loaded.record (hl : Loaded l s (s.level + 1)) (equal : Bool) :
    Loaded l (s.record (l.next s.pred s.level) equal) s.level := by
  intro i hi hmax
  simp only [FindState.record]
  by_cases heq : i = s.level
  · subst heq
    rw [Function.update_self, Function.update_self]
  · rw [Function.update_of_ne heq, Function.update_of_ne heq]
    exact hl i (by omega) hmax

theorem findStep_loaded (key : Int64) (hl : Loaded l s (s.level + 1)) :
    match l.findStep key s with
    | .inl s' => Loaded l s' (s'.level + 1)
    | .inr s' => Loaded l s' 0 := by
  have hrec := hl.record ((l.node (l.next s.pred s.level).raw).key == key)
  by_cases hkey : (l.node (l.next s.pred s.level).raw).key < key
  · rw [findStep, if_pos hkey]
    exact hl
  · rw [findStep, if_neg hkey]
    cases hlevel : s.level with
    | zero =>
      rw [hlevel] at hrec
      exact hrec
    | succ level =>
      rw [hlevel] at hrec
      exact hrec

theorem findLoop_spec (h : Listed l as) (fuel : Nat) (hs : Searching l as key s)
    (hl : Loaded l s (s.level + 1)) (hfuel : Chain.after l.rank as s.pred + s.level + 1 ≤ fuel) :
    ∃ s', l.findLoop key fuel s = some s' ∧ Found l as key s' ∧ Loaded l s' 0 := by
  induction fuel generalizing s with
  | zero => omega
  | succ fuel ih =>
    have hloaded := findStep_loaded key hl
    have hnull : (l.next s.pred s.level).raw ≠ 0 := h.ne_null (hs.forward h).1
    rcases findStep_spec h hs with ⟨s', hstep, hs', hforward⟩ | ⟨s', hstep, hfound⟩
    · rw [hstep] at hloaded
      have hless : Chain.after l.rank as s'.pred + s'.level + 1 ≤ fuel := by
        rcases hforward with ⟨hlt, hlevel⟩ | ⟨hpred, hlevel⟩
        · have hmem : s'.pred ∈ as := by
            rcases List.mem_cons.mp hs'.pred_mem with heq | hm
            · have hbot : l.rank s'.pred = ⊥ := if_pos heq
              rw [hbot] at hlt
              exact absurd hlt not_lt_bot
            · exact hm
          have hafter := Chain.after_lt hmem hlt
          omega
        · rw [hpred]
          omega
      obtain ⟨s'', hrun, hres⟩ := ih hs' hloaded hless
      refine ⟨s'', ?_, hres⟩
      rw [findLoop, if_neg hnull, hstep]
      exact hrun
    · rw [hstep] at hloaded
      exact ⟨s', by rw [findLoop, if_neg hnull, hstep], hfound, hloaded⟩

theorem Listed.nodup (h : Listed l as) : as.Nodup := by
  have hsorted := h.linked.sorted
  rw [List.cons_append, List.pairwise_cons, List.pairwise_append] at hsorted
  exact hsorted.2.1.imp fun hlt heq => by rw [heq] at hlt; exact lt_irrefl _ hlt

theorem Listed.length_le (h : Listed l as) : as.length + 3 ≤ l.size := by
  have hsub : as.toFinset ⊆ Finset.Ico 3 l.size := by
    intro a ha
    exact Finset.mem_Ico.mpr (h.taken a (List.mem_toFinset.mp ha))
  have hcard := Finset.card_le_card hsub
  have hsize : 2 < l.size := h.size
  rw [List.toFinset_card_of_nodup h.nodup, Nat.card_Ico] at hcard
  omega

theorem nodesFrom_eq {fuel pred : Nat} (hpath : Chain.Path (fun a => (l.next a 0).raw) tail pred as)
    (hne : ∀ a ∈ as, a ≠ tail) (hfuel : as.length < fuel) : l.nodesFrom fuel pred = as := by
  induction as generalizing fuel pred with
  | nil =>
    cases fuel with
    | zero => omega
    | succ fuel => exact if_pos hpath
  | cons a as ih =>
    cases fuel with
    | zero => omega
    | succ fuel =>
      have hnext : (l.next pred 0).raw = a := hpath.1
      have hcurr : (l.next pred 0).raw ≠ tail := hnext ▸ hne a (List.mem_cons_self ..)
      rw [nodesFrom, if_neg hcurr, hnext]
      have hrest := ih hpath.2 (fun b hb => hne b (List.mem_cons_of_mem _ hb))
        (Nat.lt_of_succ_lt_succ hfuel)
      rw [hrest]

/-- A walk along level 0 meets the nodes of the list. -/
theorem Listed.nodes_eq (h : Listed l as) : l.nodes = as := by
  have hlen := h.length_le
  exact nodesFrom_eq h.linked.path (fun a ha => h.ne_tail (List.mem_cons_of_mem _ ha)) (by omega)

/-- **`Find` returns**: the node of the key, or the places where it would go. -/
theorem find_spec (h : Listed l as) (key : Int64) :
    ∃ s, l.find key = some s ∧ Found l as key s ∧ Loaded l s 0 := by
  have hlen := h.length_le
  have hafter : Chain.after l.rank as head ≤ as.length := List.countP_le_length
  exact findLoop_spec h _ h.searching (fun i hi hmax => absurd hi (Nat.not_le.mpr (Nat.lt_succ_of_le hmax)))
    (by simp only [FindState.start]; omega)

/-- Without the key on level 0 no node has it. -/
theorem Found.absent (h : Listed l as) (hf : Found l as key s) (hl : Loaded l s 0)
    (hmiss : s.found = false) {a : Nat} (ha : a ∈ as ++ [tail]) : (l.node a).key ≠ key := by
  intro hkey
  have hbetween := hf.between 0 (Nat.zero_le _)
  have hle := hbetween.le_succ
  rw [← hl 0 (Nat.le_refl _) (Nat.zero_le _)] at hle
  have hnext := h.next_key hbetween.pred_mem hbetween.pred_lt hle ha hkey
  refine hf.missed hmiss 0 (Nat.zero_le _) ?_
  rw [← hl 0 (Nat.le_refl _) (Nat.zero_le _), hnext]
  exact hkey

/-- The successors of a missing key lie after it. -/
theorem Found.lt_succ (h : Listed l as) (hf : Found l as key s) (hmiss : s.found = false) {level : Nat}
    (hmax : level ≤ maxLevel) : place key < l.rank (s.succs level).raw := by
  have hbetween := hf.between level hmax
  refine lt_of_le_of_ne hbetween.le_succ fun heq => hf.missed hmiss level hmax ?_
  rw [rank_eq (h.ne_head hbetween.succ_mem), place_inj] at heq
  exact heq.symm

end Find

/-! ### Nodes changed and nodes linked -/

section Nodes
variable {l l' : AtomicSkipList} {as : List Nat} {a b : Nat}

@[simp] theorem node_setNode_self (l : AtomicSkipList) (a : Nat) (n : Node) :
    (l.setNode a n).node a = n :=
  Function.update_self ..

theorem node_setNode_of_ne (l : AtomicSkipList) (n : Node) (hb : b ≠ a) :
    (l.setNode a n).node b = l.node b :=
  Function.update_of_ne hb ..

theorem next_setNext_self (l : AtomicSkipList) {level : Nat} (p : MarkVersionedPtr)
    (hlen : level < (l.node a).nexts.length) : (l.setNext a level p).next a level = p := by
  simp only [next, setNext, node_setNode_self, Node.next, List.getD_eq_getElem?_getD]
  rw [List.getElem?_set_self hlen, Option.getD_some]

theorem next_setNext_of_ne (l : AtomicSkipList) {level i : Nat} (p : MarkVersionedPtr)
    (hne : b ≠ a ∨ i ≠ level) : (l.setNext a level p).next b i = l.next b i := by
  by_cases hb : b = a
  · subst hb
    simp only [next, setNext, node_setNode_self, Node.next, List.getD_eq_getElem?_getD]
    rw [List.getElem?_set_ne (by omega)]
  · rw [next, setNext, node_setNode_of_ne l _ hb, next]

/-- Linking changes nothing of a node but one pointer. -/
theorem node_setNext (l : AtomicSkipList) (a level : Nat) (p : MarkVersionedPtr) (b : Nat) :
    ((l.setNext a level p).node b).key = (l.node b).key ∧
      ((l.setNext a level p).node b).topLevel = (l.node b).topLevel ∧
      ((l.setNext a level p).node b).nexts.length = (l.node b).nexts.length ∧
      ((l.setNext a level p).node b).handle = (l.node b).handle ∧
      ((l.setNext a level p).node b).hitCount = (l.node b).hitCount := by
  by_cases hb : b = a
  · subst hb
    simp [setNext]
  · rw [setNext, node_setNode_of_ne l _ hb]
    exact ⟨rfl, rfl, rfl, rfl, rfl⟩

theorem rank_congr (hkey : (l'.node a).key = (l.node a).key) : l'.rank a = l.rank a := by
  rw [rank, rank, hkey]

/-- Marks, versions, handles, hit counts and nodes outside the list do not matter. -/
theorem Listed.congr (h : Listed l as)
    (hnode : ∀ a ∈ head :: as ++ [tail], (l'.node a).key = (l.node a).key ∧
      (l'.node a).topLevel = (l.node a).topLevel ∧
      (l'.node a).nexts.length = (l.node a).nexts.length)
    (hraw : ∀ a ∈ head :: as, ∀ level, (l'.next a level).raw = (l.next a level).raw)
    (hsize : l.size ≤ l'.size) : Listed l' as := by
  have hmem : ∀ a ∈ head :: as, a ∈ head :: as ++ [tail] := fun a ha => List.mem_append_left _ ha
  have htailmem : tail ∈ head :: as ++ [tail] := List.mem_append_right _ (List.mem_singleton_self _)
  have hrank : ∀ a ∈ head :: as ++ [tail], l'.rank a = l.rank a :=
    fun a ha => rank_congr (hnode a ha).1
  refine ⟨h.linked.congr (fun a ha => hraw a ha 0) hrank, ?_, ?_, ?_, ?_, ?_, ?_, ?_, ?_⟩
  · exact fun a ha => ⟨(h.taken a ha).1, Nat.lt_of_lt_of_le (h.taken a ha).2 hsize⟩
  · exact Nat.lt_of_lt_of_le h.size hsize
  · intro a ha
    rw [(hnode a (hmem a ha)).2.2, (hnode a (hmem a ha)).2.1, h.lengths a ha]
  · intro a ha
    rw [(hnode a ha).2.1]
    exact h.tops a ha
  · rw [(hnode head (hmem head (List.mem_cons_self ..))).2.1, h.head_top]
  · rw [(hnode tail htailmem).2.1, h.tail_top]
  · rw [(hnode tail htailmem).1, h.tail_key]
  · intro a ha level hlevel
    rw [(hnode a (hmem a ha)).2.1] at hlevel
    obtain ⟨h1, h2, h3⟩ := h.forward a ha level hlevel
    have hnext : (l.next a level).raw ∈ head :: as ++ [tail] := List.mem_cons_of_mem _ h1
    rw [hraw a ha level, hrank a (hmem a ha), hrank _ hnext, (hnode _ hnext).2.1]
    exact ⟨h1, h2, h3⟩

/-- A node goes in on level 0. -/
theorem Listed.link (h : Listed l as) {p n : Nat} {w : MarkVersionedPtr} (hp : p ∈ head :: as)
    (hn : n ∉ head :: as ++ [tail]) (htaken : tail < n ∧ n < l.size)
    (hlt : l.rank p < l.rank n) (hgt : l.rank n < l.rank (l.next p 0).raw)
    (hnext : (l.next n 0).raw = (l.next p 0).raw) (htop : (l.node n).topLevel ≤ maxLevel)
    (hlen : (l.node n).nexts.length = (l.node n).topLevel + 1)
    (hforward : ∀ level, level ≤ (l.node n).topLevel →
      (l.next n level).raw ∈ as ++ [tail] ∧ l.rank n < l.rank (l.next n level).raw ∧
        level ≤ (l.node (l.next n level).raw).topLevel)
    (hw : w.raw = n) :
    ∃ as', Listed (l.setNext p 0 w) as' ∧ ∀ y, y ∈ as' ↔ y = n ∨ y ∈ as := by
  have hpn : p ≠ n := fun heq => hn (heq ▸ List.mem_append_left _ hp)
  have hplen : 0 < (l.node p).nexts.length := by
    rw [h.lengths p hp]
    omega
  have hnode := node_setNext l p 0 w
  have hrank : ∀ a, (l.setNext p 0 w).rank a = l.rank a := fun a => rank_congr (hnode a).1
  have hpself : ((l.setNext p 0 w).next p 0).raw = n := by
    rw [next_setNext_self l w hplen, hw]
  obtain ⟨as', hlinked, hmem⟩ : ∃ as', Chain.Linked (fun a => ((l.setNext p 0 w).next a 0).raw)
      (l.setNext p 0 w).rank head tail as' ∧ ∀ y, y ∈ as' ↔ y = n ∨ y ∈ as := h.linked.insert hp hpself
    (by rw [next_setNext_of_ne l w (.inl (Ne.symm hpn)), hnext])
    (fun y _ hy => by rw [next_setNext_of_ne l w (.inl hy)]) (fun y _ => hrank y)
    (by rw [hrank]; exact hlt) (by rw [hrank]; exact hgt)
  have htails : ∀ y, y ∈ as ++ [tail] → y ∈ as' ++ [tail] := by
    intro y hy
    rcases List.mem_append.mp hy with hm | hm
    · exact List.mem_append_left _ ((hmem y).mpr (.inr hm))
    · exact List.mem_append_right _ hm
  have hheads : ∀ y, y ∈ head :: as' → y = n ∨ y ∈ head :: as := by
    intro y hy
    rcases List.mem_cons.mp hy with rfl | hm
    · exact .inr (List.mem_cons_self ..)
    · exact ((hmem y).mp hm).imp_right (List.mem_cons_of_mem _)
  refine ⟨as', ⟨hlinked, ?_, h.size, ?_, ?_, ?_, ?_, ?_, ?_⟩, hmem⟩
  · intro a ha
    rcases (hmem a).mp ha with rfl | hm
    · exact htaken
    · exact h.taken a hm
  · intro a ha
    rw [(hnode a).2.2.1, (hnode a).2.1]
    rcases hheads a ha with rfl | hm
    · exact hlen
    · exact h.lengths a hm
  · intro a ha
    rw [(hnode a).2.1]
    rcases List.mem_append.mp ha with hm | hm
    · rcases hheads a hm with rfl | hm
      · exact htop
      · exact h.tops a (List.mem_append_left _ hm)
    · exact h.tops a (List.mem_append_right _ hm)
  · rw [(hnode head).2.1, h.head_top]
  · rw [(hnode tail).2.1, h.tail_top]
  · rw [(hnode tail).1, h.tail_key]
  · intro a ha level hlevel
    rw [(hnode a).2.1] at hlevel
    by_cases hpoint : a = p ∧ level = 0
    · obtain ⟨rfl, rfl⟩ := hpoint
      rw [hpself, hrank, hrank, (hnode n).2.1]
      exact ⟨List.mem_append_left _ ((hmem n).mpr (.inl rfl)), hlt, Nat.zero_le _⟩
    · rw [next_setNext_of_ne l w (by tauto), hrank, hrank, (hnode _).2.1]
      rcases hheads a ha with rfl | hm
      · obtain ⟨h1, h2⟩ := hforward level hlevel
        exact ⟨htails _ h1, h2⟩
      · obtain ⟨h1, h2⟩ := h.forward a hm level hlevel
        exact ⟨htails _ h1, h2⟩

/-- A listed node is linked on a level above. -/
theorem Listed.linkAbove (h : Listed l as) {p n level : Nat} {w : MarkVersionedPtr}
    (hp : p ∈ head :: as) (hlevel : level ≠ 0) (hptop : level ≤ (l.node p).topLevel) (hn : n ∈ as)
    (hlt : l.rank p < l.rank n) (hntop : level ≤ (l.node n).topLevel) (hw : w.raw = n) :
    Listed (l.setNext p level w) as := by
  have hplen : level < (l.node p).nexts.length := by
    rw [h.lengths p hp]
    omega
  have hnode := node_setNext l p level w
  have hrank : ∀ a, (l.setNext p level w).rank a = l.rank a := fun a => rank_congr (hnode a).1
  have hzero : ∀ a, (l.setNext p level w).next a 0 = l.next a 0 := fun a =>
    next_setNext_of_ne l w (.inr (Ne.symm hlevel))
  refine ⟨⟨h.linked.path.congr fun a _ => by simp only [hzero], ?_⟩, h.taken, h.size, ?_, ?_, ?_, ?_,
    ?_, ?_⟩
  · refine h.linked.sorted.imp fun {x y} hxy => ?_
    rw [hrank, hrank]
    exact hxy
  · intro a ha
    rw [(hnode a).2.2.1, (hnode a).2.1, h.lengths a ha]
  · intro a ha
    rw [(hnode a).2.1]
    exact h.tops a ha
  · rw [(hnode head).2.1, h.head_top]
  · rw [(hnode tail).2.1, h.tail_top]
  · rw [(hnode tail).1, h.tail_key]
  · intro a ha i hi
    rw [(hnode a).2.1] at hi
    by_cases hpoint : a = p ∧ i = level
    · obtain ⟨rfl, rfl⟩ := hpoint
      rw [next_setNext_self l w hplen, hw, hrank, hrank, (hnode n).2.1]
      exact ⟨List.mem_append_left _ hn, hlt, hntop⟩
    · rw [next_setNext_of_ne l w (by tauto), hrank, hrank, (hnode _).2.1]
      exact h.forward a ha i hi

end Nodes

/-! ### New nodes -/

/-- A node that is about to be linked. -/
structure Prepared (l : AtomicSkipList) (as : List Nat) (n : Nat) (key : Int64) (topLevel : Nat) :
    Prop where
  taken : tail < n ∧ n < l.size
  fresh : n ∉ as
  forward : ∀ level, level ≤ topLevel → (l.next n level).raw ∈ as ++ [tail] ∧
    place key < l.rank (l.next n level).raw ∧ level ≤ (l.node (l.next n level).raw).topLevel
  key_eq : (l.node n).key = key
  top : (l.node n).topLevel = topLevel
  top_le : topLevel ≤ maxLevel
  length : (l.node n).nexts.length = topLevel + 1
  unmarked : (l.node n).isMarked = false

section NewNode
variable {l : AtomicSkipList} {as : List Nat} {key : Int64} {handle : Option Handle}
  {topLevel : Nat} {succs : Nat → MarkVersionedPtr}

theorem node_newNode {b : Nat} (hb : b ≠ l.size) :
    (l.newNode key handle topLevel succs).2.node b = l.node b :=
  Function.update_of_ne hb ..

theorem newNode_self :
    (l.newNode key handle topLevel succs).2.node l.size = {Node.make key handle topLevel with
      nexts := (List.range (topLevel + 1)).map fun level => {raw := (succs level).raw}} :=
  Function.update_self ..

theorem next_newNode {level : Nat} (hlevel : level ≤ topLevel) :
    (l.newNode key handle topLevel succs).2.next l.size level = {raw := (succs level).raw} := by
  rw [next, newNode_self]
  simp only [Node.next, List.getD_eq_getElem?_getD, List.getElem?_map]
  rw [List.getElem?_range (Nat.lt_succ_of_le hlevel), Option.map_some, Option.getD_some]

theorem Listed.ne_size (h : Listed l as) {a : Nat} (ha : a ∈ head :: as ++ [tail]) : a ≠ l.size := by
  have hsize : 2 < l.size := h.size
  rcases List.mem_append.mp ha with hm | hm
  · rcases List.mem_cons.mp hm with rfl | hm
    · exact Nat.ne_of_lt (Nat.lt_trans (by decide) hsize)
    · exact Nat.ne_of_lt (h.taken a hm).2
  · rw [List.mem_singleton.mp hm]
    exact Nat.ne_of_lt hsize

/-- A node that is not linked is not in the list. -/
theorem Listed.newNode (h : Listed l as) : Listed (l.newNode key handle topLevel succs).2 as := by
  apply h.congr
  · intro a ha
    rw [node_newNode (h.ne_size ha)]
    exact ⟨rfl, rfl, rfl⟩
  · intro a ha level
    rw [next, node_newNode (h.ne_size (List.mem_append_left _ ha))]
    rfl
  · exact Nat.le_succ _

theorem newNode_prepared (h : Listed l as) {s : FindState} (hfound : Found l as key s)
    (hfalse : s.found = false) (htop : topLevel ≤ maxLevel) :
    Prepared (l.newNode key handle topLevel s.succs).2 as l.size key topLevel where
  taken := ⟨h.size, Nat.lt_succ_self _⟩
  fresh := fun hm => Nat.lt_irrefl _ (h.taken _ hm).2
  key_eq := by rw [newNode_self]; rfl
  top := by rw [newNode_self]; rfl
  top_le := htop
  length := by rw [newNode_self]; simp
  unmarked := by
    rw [Node.isMarked]
    exact congrArg MarkVersionedPtr.marked (next_newNode (Nat.zero_le _))
  forward := by
    intro level hlevel
    have hbetween := hfound.between level (Nat.le_trans hlevel htop)
    have hne := h.ne_size (List.mem_cons_of_mem head hbetween.succ_mem)
    have hnode : (l.newNode key handle topLevel s.succs).2.node (s.succs level).raw =
      l.node (s.succs level).raw := node_newNode hne
    rw [next_newNode hlevel, rank_congr (congrArg Node.key hnode), hnode]
    exact ⟨hbetween.succ_mem, hfound.lt_succ h hfalse (Nat.le_trans hlevel htop), hbetween.succ_top⟩

/-- A prepared node goes in where its predecessor still points to its successor. -/
theorem Listed.linkPrepared (h : Listed l as) {p n : Nat} (hn : Prepared l as n key topLevel)
    (hp : p ∈ head :: as) (hlt : l.rank p < place key)
    (hnext : (l.next n 0).raw = (l.next p 0).raw) {w : MarkVersionedPtr} (hw : w.raw = n) :
    ∃ as', Listed (l.setNext p 0 w) as' ∧ ∀ y, y ∈ as' ↔ y = n ∨ y ∈ as := by
  have htaken : 2 < n := hn.taken.1
  have hnhead : n ≠ head := Nat.ne_of_gt (Nat.lt_trans (by decide) htaken)
  have hrank : l.rank n = place key := by rw [rank_eq hnhead, hn.key_eq]
  apply h.link hp ?_ hn.taken ?_ ?_ hnext ?_ ?_ ?_ hw
  · intro hm
    rcases List.mem_append.mp hm with hm | hm
    · rcases List.mem_cons.mp hm with heq | hm
      · exact hnhead heq
      · exact hn.fresh hm
    · exact Nat.ne_of_gt htaken (List.mem_singleton.mp hm)
  · rw [hrank]
    exact hlt
  · rw [hrank, ← hnext]
    exact (hn.forward 0 (Nat.zero_le _)).2.1
  · rw [hn.top]
    exact hn.top_le
  · rw [hn.top, hn.length]
  · intro level hlevel
    rw [hn.top] at hlevel
    rw [hrank]
    exact hn.forward level hlevel

end NewNode

end HyperCache.HashSkip.AtomicSkipList
