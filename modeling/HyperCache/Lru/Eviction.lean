import HyperCache.Lru.CacheShard
import Mathlib.Data.Nat.Find
import Mathlib.Data.List.Basic

/-! What the eviction loops of a shard leave.

`keep m s` is the shard after the elements behind the first `m` have been evicted. A loop
stops at the largest `m` at which its condition is false, and runs into the empty list
when there is none. -/
namespace HyperCache.Lru.LRUCacheShard

variable {Key : Type} [DecidableEq Key] {s t : LRUCacheShard Key} {m j : Nat}

/-- What evicting these elements takes off `usage_`: their charges as `FreeData` leaves
them. -/
def settled (es : List (Element Key)) : UInt64 :=
  (es.map fun e => e.second.freeData.totalCharge).sum

omit [DecidableEq Key] in
@[simp] theorem settled_nil : settled ([] : List (Element Key)) = 0 := rfl

omit [DecidableEq Key] in
@[simp] theorem settled_cons (e : Element Key) (es : List (Element Key)) :
    settled (e :: es) = e.second.freeData.totalCharge + settled es := by
  simp [settled]

/-- The shard with only the first `m` elements left. -/
def keep (m : Nat) (s : LRUCacheShard Key) : LRUCacheShard Key :=
  {s with
    entries := s.entries.take m
    map := (s.entries.drop m).foldr (fun e map => map.erase e.first) s.map
    deleted := s.deleted ++ (s.entries.drop m).reverse.flatMap (·.second.deletions false)
    usage := s.usage - settled (s.entries.drop m)}

@[simp] theorem keep_entries : (s.keep m).entries = s.entries.take m := rfl
@[simp] theorem keep_capacity : (s.keep m).capacity = s.capacity := rfl
@[simp] theorem keep_maxEntryNum : (s.keep m).maxEntryNum = s.maxEntryNum := rfl
@[simp] theorem keep_nodes : (s.keep m).nodes = s.nodes := rfl
@[simp] theorem keep_usage : (s.keep m).usage = s.usage - settled (s.entries.drop m) := rfl

omit [DecidableEq Key] in
theorem settled_append (es es' : List (Element Key)) :
    settled (es ++ es') = settled es + settled es' := by
  induction es with
  | nil => simp
  | cons e es ih =>
    simp only [List.cons_append, settled_cons, ih]
    grind

/-- Evicting twice is evicting once. -/
theorem keep_keep (hj : j ≤ m) (hm : m ≤ s.entries.length) : (s.keep m).keep j = s.keep j := by
  have hdrop : s.entries.drop j = (s.entries.take m).drop j ++ s.entries.drop m := by
    conv_lhs => rw [← List.take_append_drop m s.entries]
    exact List.drop_append_of_le_length (by rwa [List.length_take_of_le hm])
  have husage : s.usage - settled (s.entries.drop m) - settled ((s.entries.take m).drop j) =
      s.usage - settled (s.entries.drop j) := by
    rw [hdrop, settled_append]
    grind
  simp only [keep, husage, List.take_take, Nat.min_eq_left hj]
  simp only [hdrop, List.foldr_append, List.reverse_append, List.flatMap_append,
    List.append_assoc]

theorem keep_all (h : s.entries.length ≤ m) : s.keep m = s := by
  simp [keep, List.take_of_length_le h, List.drop_eq_nil_of_le h]

theorem evictLast_nil (h : s.entries = []) : s.evictLast = .error .emptyBack := by
  simp [evictLast, h]

theorem evictLast_concat {es : List (Element Key)} {last : Element Key}
    (h : s.entries = es ++ [last]) :
    s.evictLast = .ok
      {s with
        map := s.map.erase last.first
        entries := es
        deleted := s.deleted ++ last.second.deletions false
        usage := s.usage - last.second.freeData.totalCharge} := by
  simp [evictLast, h]

/-- One round of a loop. -/
theorem evictLast_keep (h : m < s.entries.length) :
    (s.keep (m + 1)).evictLast = .ok (s.keep m) := by
  have htake : (s.keep (m + 1)).entries = s.entries.take m ++ [s.entries[m]] := by
    rw [keep_entries, List.take_add_one, List.getElem?_eq_getElem h, Option.toList_some]
  have hdrop : s.entries.drop m = s.entries[m] :: s.entries.drop (m + 1) :=
    List.drop_eq_getElem_cons h
  have husage : s.usage - settled (s.entries.drop (m + 1)) -
      s.entries[m].second.freeData.totalCharge = s.usage - settled (s.entries.drop m) := by
    rw [hdrop, settled_cons]
    grind
  rw [evictLast_concat htake]
  simp only [keep, husage, hdrop, List.foldr_cons, List.reverse_cons, List.flatMap_append,
    List.flatMap_cons, List.flatMap_nil, List.append_nil, List.append_assoc]

/-- A loop stops as soon as it can. -/
theorem evictWhile_ok {tooFull : LRUCacheShard Key → Bool} (hm : m ≤ s.entries.length) (hj : j ≤ m)
    (hstop : tooFull (s.keep j) = false) (hover : ∀ i, j < i → i ≤ m → tooFull (s.keep i) = true) :
    evictWhile tooFull m (s.keep m) = .ok (s.keep j) := by
  induction m with
  | zero =>
    obtain rfl : j = 0 := by omega
    simp [evictWhile, hstop]
  | succ m ih =>
    rw [evictWhile]
    rcases Nat.eq_or_lt_of_le hj with rfl | hlt
    · simp [hstop]
    · rw [if_pos (hover (m + 1) hlt le_rfl), evictLast_keep (by omega)]
      exact ih (by omega) (by omega) fun i hi him => hover i hi (by omega)

/-- A loop that can nowhere stop takes `back()` of the empty list. -/
theorem evictWhile_error {tooFull : LRUCacheShard Key → Bool} (hm : m ≤ s.entries.length)
    (hover : ∀ i ≤ m, tooFull (s.keep i) = true) :
    evictWhile tooFull m (s.keep m) = .error .emptyBack := by
  induction m with
  | zero =>
    rw [evictWhile, if_pos (hover 0 le_rfl)]
    exact evictLast_nil (by simp)
  | succ m ih =>
    rw [evictWhile, if_pos (hover (m + 1) le_rfl), evictLast_keep (by omega)]
    exact ih (by omega) fun i hi => hover i (by omega)

/-! ### The two loops -/

/-- With the first `m` elements left, the charge limit admits `need` more. -/
def Admits (s : LRUCacheShard Key) (need : UInt64) (m : Nat) : Prop :=
  s.usage - settled (s.entries.drop m) + need ≤ s.capacity

instance (s : LRUCacheShard Key) (need : UInt64) : DecidablePred (s.Admits need) :=
  fun m => inferInstanceAs (Decidable (s.usage - settled (s.entries.drop m) + need ≤ s.capacity))

omit [DecidableEq Key] in
theorem Admits.min {need : UInt64} (h : s.Admits need m) :
    s.Admits need (min m s.entries.length) := by
  unfold Admits at h ⊢
  rwa [← List.drop_eq_drop_min]

theorem overCharge_keep (need : UInt64) :
    overCharge need (s.keep m) = false ↔ s.Admits need m :=
  decide_eq_false_iff_not.trans UInt64.not_lt

theorem overOccupancy_keep (hm : m ≤ s.entries.length) :
    overOccupancy (s.keep m) = false ↔ m < s.maxEntryNum.toUInt64.toNat := by
  simp [overOccupancy, Nat.min_eq_left hm]

theorem evictForCharge_unlimited (h : s.capacity = 0) (need : UInt64) :
    s.evictForCharge need = .ok s := if_pos h

/-- The first loop keeps the largest number of elements that admits the charge. -/
theorem evictForCharge_ok {need : UInt64} (hcap : s.capacity ≠ 0) (hm : m ≤ s.entries.length)
    (h : s.Admits need m) (hmax : ∀ i, m < i → i ≤ s.entries.length → ¬ s.Admits need i) :
    s.evictForCharge need = .ok (s.keep m) := by
  rw [evictForCharge, if_neg hcap]
  have := evictWhile_ok le_rfl hm ((overCharge_keep need).mpr h) fun i hi hlen => by
    rw [← Bool.not_eq_false, overCharge_keep]
    exact hmax i hi hlen
  rwa [keep_all le_rfl] at this

theorem evictForCharge_error {need : UInt64} (hcap : s.capacity ≠ 0)
    (h : ∀ i ≤ s.entries.length, ¬ s.Admits need i) :
    s.evictForCharge need = .error .emptyBack := by
  rw [evictForCharge, if_neg hcap]
  have := evictWhile_error (s := s) le_rfl fun i hi => by
    rw [← Bool.not_eq_false, overCharge_keep]
    exact h i hi
  rwa [keep_all le_rfl] at this

/-- The first loop evicts nothing without a limit, else it finds the largest number of
elements that admits the charge, or there is none. -/
theorem evictForCharge_cases (s : LRUCacheShard Key) (need : UInt64) :
    (s.capacity = 0 ∧ s.evictForCharge need = .ok s) ∨
    (s.capacity ≠ 0 ∧ ∃ m ≤ s.entries.length, s.Admits need m ∧
      (∀ i, m < i → i ≤ s.entries.length → ¬ s.Admits need i) ∧
      s.evictForCharge need = .ok (s.keep m)) ∨
    (s.capacity ≠ 0 ∧ (∀ i ≤ s.entries.length, ¬ s.Admits need i) ∧
      s.evictForCharge need = .error .emptyBack) := by
  by_cases hcap : s.capacity = 0
  · exact .inl ⟨hcap, evictForCharge_unlimited hcap need⟩
  by_cases hex : ∃ i ≤ s.entries.length, s.Admits need i
  · obtain ⟨i, hi, hadmits⟩ := hex
    have hle : Nat.findGreatest (s.Admits need) s.entries.length ≤ s.entries.length :=
      Nat.findGreatest_le _
    have hgreatest : s.Admits need (Nat.findGreatest (s.Admits need) s.entries.length) :=
      Nat.findGreatest_spec hi hadmits
    have hmax : ∀ i, Nat.findGreatest (s.Admits need) s.entries.length < i →
        i ≤ s.entries.length → ¬ s.Admits need i :=
      fun i hlt hlen => Nat.findGreatest_is_greatest hlt hlen
    exact .inr (.inl ⟨hcap, _, hle, hgreatest, hmax, evictForCharge_ok hcap hle hgreatest hmax⟩)
  · have hnone : ∀ i ≤ s.entries.length, ¬ s.Admits need i := by simpa using hex
    exact .inr (.inr ⟨hcap, hnone, evictForCharge_error hcap hnone⟩)

/-- Whatever the first loop does, it keeps a number of first elements. -/
theorem evictForCharge_keep {need : UInt64} (h : s.evictForCharge need = .ok t) :
    ∃ m ≤ s.entries.length, t = s.keep m := by
  rcases s.evictForCharge_cases need with
    ⟨-, hevict⟩ | ⟨-, m, hm, -, -, hevict⟩ | ⟨-, -, hevict⟩ <;> rw [hevict] at h
  · exact ⟨_, le_rfl, (Except.ok.inj h).symm.trans (keep_all le_rfl).symm⟩
  · exact ⟨m, hm, (Except.ok.inj h).symm⟩
  · cases h

omit [DecidableEq Key] in
/-- A limit that is set is positive, read as unsigned. -/
theorem limit_pos (h : s.maxEntryNum ≠ 0) : 0 < s.maxEntryNum.toUInt64.toNat := by
  refine Nat.pos_of_ne_zero fun h0 => h ?_
  have hzero : s.maxEntryNum.toUInt64 = 0 := UInt64.toNat_inj.mp h0
  rw [← s.maxEntryNum.toInt64_toUInt64, hzero]
  rfl

/-- How many elements the entry limit leaves for a new one to join. -/
def room (s : LRUCacheShard Key) : Nat :=
  if s.maxEntryNum = 0 then s.entries.length else s.maxEntryNum.toUInt64.toNat - 1

/-- The second loop never meets the empty list: a limit that is not zero admits none. -/
theorem evictForOccupancy_eq (s : LRUCacheShard Key) :
    s.evictForOccupancy = .ok (s.keep (min s.entries.length s.room)) := by
  unfold room
  by_cases h : s.maxEntryNum = 0
  · rw [if_pos h, Nat.min_self, keep_all le_rfl]
    exact if_pos h
  rw [if_neg h, evictForOccupancy, if_neg h]
  have hpos := limit_pos h
  have := evictWhile_ok (s := s) le_rfl
    (j := min s.entries.length (s.maxEntryNum.toUInt64.toNat - 1)) (Nat.min_le_left ..)
    ((overOccupancy_keep (Nat.min_le_left ..)).mpr (by omega)) fun i hi hlen => by
      rw [← Bool.not_eq_false, overOccupancy_keep hlen]
      omega
  rwa [keep_all le_rfl] at this

end HyperCache.Lru.LRUCacheShard
