import Mathlib.Data.List.Nodup
import Mathlib.Data.List.Perm.Subperm
import Mathlib.Data.List.Range
import Mathlib.Data.List.TakeWhile
import Mathlib.Data.Nat.ModEq
import Mathlib.Data.Nat.Prime.Basic

/-! Double hashing: the sequence of slots a search visits in a table of `L` slots.

`path L base inc` starts at `base % L` and steps by `inc`. With `inc` coprime to
`L` it lists every slot once and then comes back to its first (`path_nodup`,
`mem_path`, `slot_eq_start`), so a search is a walk over that list and "the
slots before `h`" is a prefix of it (`before`). `walk` is a search loop with the
three functions every open-addressing operation supplies, and `walk_spec` the
rule that reasons about it with an invariant indexed by the slots already
visited. -/
namespace Probe

section Path
variable (L base inc : Nat)

/-- The slot visited in step `j`. -/
def slot (j : Nat) : Nat := (base + j * inc) % L

/-- The slots of the first `L` steps, in order. -/
def path : List Nat := (List.range L).map (slot L base inc)

/-- The slots visited from step `j` on. -/
def pathFrom (j : Nat) : List Nat := (List.range' j (L - j)).map (slot L base inc)

/-- The slots a search visits before it comes to `h`. -/
def before (h : Nat) : List Nat := (path L base inc).takeWhile (· ≠ h)

theorem pathFrom_zero : pathFrom L base inc 0 = path L base inc := by
  rw [pathFrom, path, List.range_eq_range', Nat.sub_zero]

variable {L base inc}

theorem pathFrom_of_lt {j : Nat} (h : j < L) :
    pathFrom L base inc j = slot L base inc j :: pathFrom L base inc (j + 1) := by
  rw [pathFrom, pathFrom, show L - j = (L - (j + 1)) + 1 by omega, List.range'_succ, List.map_cons]

theorem pathFrom_isEmpty (j : Nat) : (pathFrom L base inc j).isEmpty = decide (L ≤ j) := by
  have hnil : (pathFrom L base inc j).isEmpty = true ↔ L ≤ j := by
    simp [pathFrom, Nat.sub_eq_zero_iff_le]
  by_cases h : L ≤ j
  · rw [hnil.mpr h, decide_eq_true h]
  · rw [decide_eq_false h]
    exact Bool.eq_false_iff.mpr fun he => h (hnil.mp he)

theorem slot_succ (j : Nat) : slot L base inc (j + 1) = (slot L base inc j + inc) % L := by
  rw [slot, slot, Nat.mod_add_mod, Nat.add_mul, Nat.one_mul, Nat.add_assoc]

theorem slot_lt (hL : 0 < L) (j : Nat) : slot L base inc j < L := Nat.mod_lt _ hL

/-- Two steps of one round that visit the same slot are the same step. -/
theorem slot_injective (hc : Nat.Coprime L inc) {j k : Nat} (hj : j < L) (hk : k < L)
    (h : slot L base inc j = slot L base inc k) : j = k := by
  have hmod : j * inc ≡ k * inc [MOD L] := Nat.ModEq.add_left_cancel' base h
  have := Nat.ModEq.cancel_right_of_coprime hc hmod
  rwa [Nat.ModEq, Nat.mod_eq_of_lt hj, Nat.mod_eq_of_lt hk] at this

theorem slot_period : slot L base inc L = slot L base inc 0 := by
  simp [slot]

/-- A search is back at its first slot after one round, and not before. -/
theorem slot_eq_start (hc : Nat.Coprime L inc) {j : Nat} (hj : j < L) :
    slot L base inc (j + 1) = slot L base inc 0 ↔ L ≤ j + 1 := by
  constructor
  · intro h
    by_contra hlt
    exact Nat.succ_ne_zero j (slot_injective hc (by omega) (by omega) h)
  · intro h
    rw [show j + 1 = L by omega, slot_period]

theorem path_nodup (hc : Nat.Coprime L inc) : (path L base inc).Nodup := by
  refine List.Nodup.map_on ?_ List.nodup_range
  intro j hj k hk h
  exact slot_injective hc (List.mem_range.mp hj) (List.mem_range.mp hk) h

theorem path_length : (path L base inc).length = L := by
  simp [path]

theorem path_lt {i : Nat} (h : i ∈ path L base inc) : i < L := by
  obtain ⟨j, hj, rfl⟩ := List.mem_map.mp h
  exact slot_lt (Nat.zero_lt_of_lt (List.mem_range.mp hj)) j

/-- A search visits every slot. -/
theorem mem_path (hc : Nat.Coprime L inc) {i : Nat} : i ∈ path L base inc ↔ i < L := by
  refine ⟨path_lt, fun hi => ?_⟩
  have hsub : path L base inc ⊆ List.range L := fun j hj => List.mem_range.mpr (path_lt hj)
  have hperm : (path L base inc).Perm (List.range L) := by
    refine (List.subperm_of_subset (path_nodup hc) hsub).perm_of_length_le ?_
    rw [path_length, List.length_range]
  exact hperm.mem_iff.mpr (List.mem_range.mpr hi)

/-- Where a slot splits the path, its predecessors are the part before it. -/
theorem before_of_split (hc : Nat.Coprime L inc) {pre post : List Nat} {h : Nat}
    (hsplit : path L base inc = pre ++ h :: post) : before L base inc h = pre := by
  have hn : (path L base inc).Nodup := path_nodup hc
  rw [hsplit] at hn
  have hpre : ∀ a ∈ pre, decide (a ≠ h) = true := by
    intro a ha
    refine decide_eq_true fun he => ?_
    exact (List.disjoint_of_nodup_append hn) ha (he ▸ List.mem_cons_self)
  rw [before, hsplit, List.takeWhile_append_of_pos hpre, List.takeWhile_cons_of_neg (by simp),
    List.append_nil]

theorem path_split (hc : Nat.Coprime L inc) {h : Nat} (hh : h < L) :
    ∃ post, path L base inc = before L base inc h ++ h :: post := by
  have hmem : h ∈ path L base inc := (mem_path hc).mpr hh
  obtain ⟨pre, post, hsplit⟩ := List.append_of_mem hmem
  exact ⟨post, by rw [before_of_split hc hsplit]; exact hsplit⟩

theorem before_nodup (hc : Nat.Coprime L inc) (h : Nat) : (before L base inc h).Nodup :=
  (path_nodup hc).sublist (List.takeWhile_sublist _)

theorem before_lt {i h : Nat} (hi : i ∈ before L base inc h) : i < L :=
  path_lt ((List.takeWhile_sublist _).subset hi)

theorem before_ne {i h : Nat} (hi : i ∈ before L base inc h) : i ≠ h := by
  simpa using List.mem_takeWhile_imp hi

end Path

/-- An odd step is coprime to a power of two. -/
theorem coprime_of_odd {inc : Nat} (h : inc % 2 = 1) (n : Nat) : Nat.Coprime (2 ^ n) inc :=
  Nat.Coprime.pow_left n (Nat.coprime_two_left.mpr (Nat.odd_iff.mpr h))

/-! ### The step that comes to a slot -/

section Rank

/-- The step in which a search comes to slot `h`. -/
def rank (L base inc h : Nat) : Nat := (path L base inc).idxOf h

variable {L base inc : Nat} (hc : Nat.Coprime L inc) {h i : Nat}
include hc

theorem rank_lt (hh : h < L) : rank L base inc h < L := by
  have hmem : h ∈ path L base inc := (mem_path hc).mpr hh
  have hlt := List.idxOf_lt_length_iff.mpr hmem
  rwa [path_length] at hlt

theorem slot_rank (hh : h < L) : slot L base inc (rank L base inc h) = h := by
  have hlt : (path L base inc).idxOf h < (path L base inc).length := by
    rw [path_length]
    exact rank_lt hc hh
  have hget := List.getElem_idxOf hlt
  simp only [path, List.getElem_map, List.getElem_range] at hget
  exact hget

theorem rank_slot {j : Nat} (hj : j < L) : rank L base inc (slot L base inc j) = j := by
  have hlt : slot L base inc j < L := slot_lt (by omega) j
  exact slot_injective hc (rank_lt hc hlt) hj (slot_rank hc hlt)

theorem rank_injective (hi : i < L) (hh : h < L) (heq : rank L base inc i = rank L base inc h) :
    i = h := by
  have hown : slot L base inc (rank L base inc i) = i := slot_rank hc hi
  rw [← hown, heq, slot_rank hc hh]

/-- The slots before `h` are those that come in an earlier step. -/
theorem mem_before (hh : h < L) :
    i ∈ before L base inc h ↔ rank L base inc i < rank L base inc h := by
  obtain ⟨post, hsplit⟩ : ∃ post, path L base inc = before L base inc h ++ h :: post := path_split hc hh
  have hnot : h ∉ before L base inc h := fun hm => before_ne hm rfl
  have hrank : rank L base inc h = (before L base inc h).length := by
    rw [rank, hsplit, List.idxOf_append_of_notMem hnot, List.idxOf_cons_self, Nat.add_zero]
  constructor
  · intro hm
    rw [hrank, rank, hsplit, List.idxOf_append_of_mem hm]
    exact List.idxOf_lt_length_iff.mpr hm
  · intro hlt
    by_contra hm
    rw [hrank, rank, hsplit, List.idxOf_append_of_notMem hm] at hlt
    omega

theorem rank_start (hL : 0 < L) : rank L base inc (base % L) = 0 := by
  have hslot : base % L = slot L base inc 0 := by rw [slot, Nat.zero_mul, Nat.add_zero]
  rw [hslot, rank_slot hc hL]

/-- The slot after `h` comes one step later, or the search is back at its start. -/
theorem rank_next (hh : h < L) : if (h + inc) % L = base % L then rank L base inc h + 1 = L
    else rank L base inc ((h + inc) % L) = rank L base inc h + 1 := by
  have hlt : rank L base inc h < L := rank_lt hc hh
  have hnext : (h + inc) % L = slot L base inc (rank L base inc h + 1) := by
    rw [slot_succ, slot_rank hc hh]
  have hstart : base % L = slot L base inc 0 := by rw [slot, Nat.zero_mul, Nat.add_zero]
  rw [hstart, hnext]
  split
  · next heq =>
    have hle := (slot_eq_start hc hlt).mp heq
    omega
  · next hne =>
    apply rank_slot hc
    by_contra hle
    exact hne ((slot_eq_start hc hlt).mpr (by omega))

end Rank

/-! ### Search loops -/

section Walk
variable {σ : Type*} (matchFn : Nat → σ → Option (Bool × σ)) (abortFn : Nat → σ → Option (Bool × σ))
  (updateFn : Nat → Bool → σ → Option σ)

/-- Visit the listed slots in order: stop at one that matches, or where the
search aborts, and tell the update whether the slot was the last. -/
def walk : List Nat → σ → Option (Option Nat × σ)
  | [], s => some (none, s)
  | h :: rest, s => do
    let (found, s) ← matchFn h s
    if found then return (some h, s)
    let (stop, s) ← abortFn h s
    if stop then return (none, s)
    let s ← updateFn h rest.isEmpty s
    walk rest s

/-- What visiting slot `h` does: a match, an abort, or the invariant of going on. -/
def Visit (found stopped : σ → Prop) (on : σ → Prop) (h : Nat) (isLast : Bool) (s : σ) : Prop :=
  ∃ b s₁, matchFn h s = some (b, s₁) ∧ (b = true → found s₁) ∧ (b = false →
    ∃ a s₂, abortFn h s₁ = some (a, s₂) ∧ (a = true → stopped s₂) ∧ (a = false →
      ∃ s₃, updateFn h isLast s₂ = some s₃ ∧ on s₃))

variable {matchFn abortFn updateFn}

theorem walk_from (Inv : List Nat → σ → Prop) (Post : Option Nat → σ → Prop) {path : List Nat}
    (hvisit : ∀ pre h post s, path = pre ++ h :: post → Inv pre s →
      Visit matchFn abortFn updateFn (Post (some h)) (Post none) (Inv (pre ++ [h])) h post.isEmpty s)
    (hend : ∀ s, Inv path s → Post none s) (rest pre : List Nat) (s : σ)
    (hsplit : path = pre ++ rest) (hinv : Inv pre s) :
    ∃ r s', walk matchFn abortFn updateFn rest s = some (r, s') ∧ Post r s' := by
  induction rest generalizing pre s with
  | nil => exact ⟨none, s, rfl, hend s (by rwa [hsplit, List.append_nil])⟩
  | cons h rest ih =>
    obtain ⟨b, s₁, hmatch, hfound, hmiss⟩ := hvisit pre h rest s hsplit hinv
    cases b with
    | true => exact ⟨some h, s₁, by simp [walk, hmatch], hfound rfl⟩
    | false =>
      obtain ⟨a, s₂, habort, hstop, hgo⟩ := hmiss rfl
      cases a with
      | true => exact ⟨none, s₂, by simp [walk, hmatch, habort], hstop rfl⟩
      | false =>
        obtain ⟨s₃, hupdate, hon⟩ := hgo rfl
        obtain ⟨r, s', hwalk, hpost⟩ := ih (pre ++ [h]) s₃ (by simpa using hsplit) hon
        exact ⟨r, s', by simp [walk, hmatch, habort, hupdate, hwalk], hpost⟩

/-- **The search rule.** An invariant over the slots visited so far, kept by
every visit that goes on, gives the postcondition wherever the search ends. -/
theorem walk_spec (Inv : List Nat → σ → Prop) (Post : Option Nat → σ → Prop) {path : List Nat}
    (hvisit : ∀ pre h post s, path = pre ++ h :: post → Inv pre s →
      Visit matchFn abortFn updateFn (Post (some h)) (Post none) (Inv (pre ++ [h])) h post.isEmpty s)
    (hend : ∀ s, Inv path s → Post none s) {s : σ} (hinv : Inv [] s) :
    ∃ r s', walk matchFn abortFn updateFn path s = some (r, s') ∧ Post r s' :=
  walk_from Inv Post hvisit hend path [] s rfl hinv

/-- What every function keeps on the slots of the search, the search keeps. -/
theorem walk_keeps (P : σ → Prop) {path : List Nat}
    (hmatch : ∀ h ∈ path, ∀ s b s', P s → matchFn h s = some (b, s') → P s')
    (habort : ∀ h ∈ path, ∀ s b s', P s → abortFn h s = some (b, s') → P s')
    (hupdate : ∀ h ∈ path, ∀ s b s', P s → updateFn h b s = some s' → P s')
    {s s' : σ} {r : Option Nat} (hinv : P s) (hwalk : walk matchFn abortFn updateFn path s = some (r, s')) :
    P s' := by
  induction path generalizing s with
  | nil =>
    cases hwalk
    exact hinv
  | cons h rest ih =>
    have hhead : h ∈ h :: rest := List.mem_cons_self
    rw [walk] at hwalk
    obtain ⟨⟨found, s₁⟩, hm, hwalk⟩ := Option.bind_eq_some_iff.mp hwalk
    have hs₁ := hmatch h hhead s found s₁ hinv hm
    cases found with
    | true =>
      cases hwalk
      exact hs₁
    | false =>
      obtain ⟨⟨stop, s₂⟩, ha, hwalk⟩ := Option.bind_eq_some_iff.mp hwalk
      have hs₂ := habort h hhead s₁ stop s₂ hs₁ ha
      cases stop with
      | true =>
        cases hwalk
        exact hs₂
      | false =>
        obtain ⟨s₃, hu, hwalk⟩ := Option.bind_eq_some_iff.mp hwalk
        exact ih (fun j hj => hmatch j (List.mem_cons_of_mem h hj))
          (fun j hj => habort j (List.mem_cons_of_mem h hj))
          (fun j hj => hupdate j (List.mem_cons_of_mem h hj)) (hupdate h hhead s₂ _ s₃ hs₂ hu) hwalk

omit matchFn abortFn updateFn in
/-- A search whose functions never match and never abort visits its whole path, and tells the
update at the last slot that it is the last. -/
theorem walk_never (matchFn abortFn : Nat → σ → σ) (updateFn : Nat → Bool → σ → σ)
    (slotOf : Nat → Nat) (length j : Nat) (s : σ) :
    walk (fun h s => some (false, matchFn h s)) (fun h s => some (false, abortFn h s))
        (fun h isLast s => some (updateFn h isLast s)) ((List.range' j length).map slotOf) s =
      some (none, (List.range' j length).foldl (fun s i =>
        updateFn (slotOf i) (decide (i + 1 = j + length)) (abortFn (slotOf i) (matchFn (slotOf i) s))) s) := by
  induction length generalizing j s with
  | zero => rfl
  | succ length ih =>
    have hlast : ((List.range' (j + 1) length).map slotOf).isEmpty = decide (j + 1 = j + (length + 1)) := by
      rw [Bool.eq_iff_iff, List.isEmpty_iff, List.map_eq_nil_iff, List.range'_eq_nil_iff,
        decide_eq_true_iff]
      omega
    rw [List.range'_succ, List.map_cons, walk]
    simp only [Option.bind_eq_bind, Option.bind_some, Bool.false_eq_true, if_false, hlast, ih,
      List.foldl_cons]
    rw [show j + 1 + length = j + (length + 1) by omega]

end Walk

end Probe
