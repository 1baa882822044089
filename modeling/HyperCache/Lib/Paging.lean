import Mathlib

/-! Caches that evict the least recently used key.

The keys are a list, the most recently used first. Requests move a key to the front, and a key
that is missing takes the place of the last one when the list is full. Such a cache misses at
most `n / (n - h + 1)` times as often as any cache of `h` keys, whatever that one evicts and
even if it knows all requests beforehand (`competitive`). The proof is by a potential: what the
cache has and the other has not is owed, more for keys further to the front. A cache that began
empty has as many keys as it has seen, up to the number it takes (`Cold`). -/
namespace Paging

variable {K : Type*} [DecidableEq K]

/-- One request to a list of at most `n` keys. -/
def request (n : Nat) (l : List K) (key : K) : List K :=
  if key ∈ l then key :: l.erase key
  else if l.length < n then key :: l
  else key :: l.dropLast

def misses (n : Nat) (l : List K) : List K → Nat
  | [] => 0
  | key :: keys => (if key ∈ l then 0 else 1) + misses n (request n l key) keys

theorem misses_append (n : Nat) (l keys keys' : List K) :
    misses n l (keys ++ keys') = misses n l keys + misses n (keys.foldl (request n) l) keys' := by
  induction keys generalizing l with
  | nil => exact (Nat.zero_add _).symm
  | cons key keys ih =>
    rw [List.cons_append, misses, misses, ih, List.foldl_cons, Nat.add_assoc]

/-! ### Entries with values -/

section Entries
variable {V : Type*} {l l' : List (K × V)} {key : K} {value : V}

/-- The entry of the key, if there is one, moves to the front. -/
def promote (l : List (K × V)) (key : K) : List (K × V) :=
  (l.find? (·.1 = key)).toList ++ l.filter (·.1 ≠ key)

/-- The entry of the key is replaced, or takes the place of the last one of a full list. -/
def put (full : Bool) (l : List (K × V)) (key : K) (value : V) : List (K × V) :=
  (key, value) :: if key ∈ l.map Prod.fst then l.filter (·.1 ≠ key) else if full then l.dropLast else l

theorem find?_of_mem (hl : (l.map Prod.fst).Nodup) {p : K × V} (hp : p ∈ l) : l.find? (·.1 = p.1) = some p := by
  cases hfind : l.find? (·.1 = p.1) with
  | none => exact absurd (decide_eq_true rfl) (List.find?_eq_none.mp hfind p hp)
  | some q =>
    have hkey : q.1 = p.1 := by simpa using List.find?_some hfind
    exact congrArg some (List.inj_on_of_nodup_map hl (List.mem_of_find?_eq_some hfind) hp hkey)

theorem find?_of_sublist (hsub : l.Sublist l') (hl' : (l'.map Prod.fst).Nodup) {p : K × V}
    (hfind : l.find? (·.1 = key) = some p) : l'.find? (·.1 = key) = some p := by
  have hkey : p.1 = key := by simpa using List.find?_some hfind
  have hmem := find?_of_mem hl' (hsub.subset (List.mem_of_find?_eq_some hfind))
  rwa [hkey] at hmem

theorem filter_absent (hkey : key ∉ l.map Prod.fst) : l.filter (·.1 ≠ key) = l :=
  List.filter_eq_self.mpr fun _ hp => decide_eq_true fun heq => hkey (List.mem_map.mpr ⟨_, hp, heq⟩)

theorem keys_filter (hl : (l.map Prod.fst).Nodup) (key : K) :
    (l.filter (·.1 ≠ key)).map Prod.fst = (l.map Prod.fst).erase key := by
  rw [hl.erase_eq_filter, List.filter_map]
  congr 1
  refine List.filter_congr fun p _ => ?_
  by_cases hp : p.1 = key
  · simp [hp]
  · simp [hp]

theorem promote_absent (hkey : key ∉ l.map Prod.fst) : promote l key = l := by
  have hnone : l.find? (·.1 = key) = none :=
    List.find?_eq_none.mpr fun p hp heq => hkey (List.mem_map.mpr ⟨p, hp, of_decide_eq_true heq⟩)
  rw [promote, hnone, filter_absent hkey]
  rfl

theorem promote_sublist (hsub : l.Sublist l') (hl' : (l'.map Prod.fst).Nodup) (key : K) :
    (promote l key).Sublist (promote l' key) := by
  refine List.Sublist.append ?_ (hsub.filter _)
  cases hfind : l.find? (·.1 = key) with
  | none => exact List.nil_sublist _
  | some p => rw [find?_of_sublist hsub hl' hfind]

omit [DecidableEq K] in
theorem dropLast_sublist_dropLast (hsub : l.Sublist l') : l.dropLast.Sublist l'.dropLast := by
  have htail := (List.reverse_sublist.mpr hsub).tail
  rwa [List.tail_reverse, List.tail_reverse, List.reverse_sublist] at htail

/-- A list stays within another that is full no sooner. -/
theorem put_sublist (hsub : l.Sublist l') {full full' : Bool} (hfull : full' = true → full = true) (key : K)
    (value : V) : (put full l key value).Sublist (put full' l' key value) := by
  refine List.Sublist.cons_cons _ ?_
  have hkeys : l.map Prod.fst ⊆ l'.map Prod.fst := List.map_subset _ hsub.subset
  by_cases hkey : key ∈ l.map Prod.fst
  · rw [if_pos hkey, if_pos (hkeys hkey)]
    exact hsub.filter _
  · rw [if_neg hkey]
    have hcut : (if full then l.dropLast else l).Sublist l := by
      split
      · exact List.dropLast_sublist l
      · exact List.Sublist.refl l
    by_cases hkey' : key ∈ l'.map Prod.fst
    · rw [if_pos hkey']
      refine hcut.trans ?_
      rw [← filter_absent hkey]
      exact hsub.filter _
    · rw [if_neg hkey']
      cases full' with
      | true =>
        rw [hfull rfl]
        exact dropLast_sublist_dropLast hsub
      | false => exact hcut.trans hsub

end Entries

/-! ### Caches that have only just begun

A cache that starts empty evicts nothing until it is full, and then one key for each it takes.
So how many keys it holds depends only on how many different ones it has seen. -/

section Cold
variable (takes : Nat → Prop) [DecidablePred takes]

/-- The number of keys after `n` different ones, if with `m` of them `takes m` says whether there
is room for one more. -/
def filled : Nat → Nat
  | 0 => 0
  | n + 1 => if takes (filled n) then filled n + 1 else filled n

variable {takes}

/-- A cache that holds fewer keys than it has seen is full. -/
theorem full_of_lt {n : Nat} (h : filled takes n < n) : ¬ takes (filled takes n) := by
  induction n with
  | zero => exact absurd h (Nat.lt_irrefl 0)
  | succ n ih =>
    rw [filled] at h ⊢
    split at h
    · exact absurd ‹_› (ih (Nat.lt_of_succ_lt_succ h))
    · rwa [if_neg ‹_›]

variable (takes) in
/-- A cache with these keys has seen those. -/
structure Cold (seen : Finset K) (keys : List K) : Prop where
  nodup : keys.Nodup
  sub : ∀ key ∈ keys, key ∈ seen
  length : keys.length = filled takes seen.card

variable {seen : Finset K} {keys keys' : List K} {key : K}

omit [DecidableEq K] in
theorem cold_nil : Cold takes (∅ : Finset K) [] := ⟨List.nodup_nil, nofun, rfl⟩

/-- A key that was there before and is gone has made room for another. -/
theorem Cold.full (h : Cold takes seen keys) (hseen : key ∈ seen) (hgone : key ∉ keys) :
    ¬ takes keys.length := by
  have hlt : keys.length < seen.card := by
    rw [← List.toFinset_card_of_nodup h.nodup]
    refine Finset.card_lt_card (Finset.ssubset_iff_of_subset ?_ |>.mpr ⟨key, hseen, ?_⟩)
    · exact fun k hk => h.sub k (List.mem_toFinset.mp hk)
    · exact fun hk => hgone (List.mem_toFinset.mp hk)
  rw [h.length] at hlt ⊢
  exact full_of_lt hlt

omit [DecidableEq K] in
theorem Cold.perm (h : Cold takes seen keys) (hperm : keys'.Perm keys) : Cold takes seen keys' :=
  ⟨hperm.nodup_iff.mpr h.nodup, fun k hk => h.sub k (hperm.subset hk),
    hperm.length_eq.trans h.length⟩

/-- A key that is not there is added, in the place of another if there is no room. -/
theorem Cold.miss (h : Cold takes seen keys) (hkey : key ∉ keys) (hsub : keys'.Sublist keys)
    (hlen : keys'.length + 1 = if takes keys.length then keys.length + 1 else keys.length) :
    Cold takes (insert key seen) (key :: keys') := by
  refine ⟨List.nodup_cons.mpr ⟨fun hk => hkey (hsub.subset hk), h.nodup.sublist hsub⟩, ?_, ?_⟩
  · intro k hk
    rcases List.mem_cons.mp hk with rfl | hk
    · exact Finset.mem_insert_self _ _
    · exact Finset.mem_insert_of_mem (h.sub k (hsub.subset hk))
  · rw [List.length_cons, hlen]
    by_cases hseen : key ∈ seen
    · rw [if_neg (h.full hseen hkey), Finset.insert_eq_of_mem hseen]
      exact h.length
    · rw [Finset.card_insert_of_notMem hseen, filled, h.length]

variable {V : Type*} {l : List (K × V)}

theorem Cold.promote (h : Cold takes seen (l.map Prod.fst)) (key : K) :
    Cold takes seen ((promote l key).map Prod.fst) := by
  by_cases hkey : key ∈ l.map Prod.fst
  · obtain ⟨p, hp, rfl⟩ := List.mem_map.mp hkey
    refine h.perm ?_
    rw [Paging.promote, find?_of_mem h.nodup hp, List.map_append, keys_filter h.nodup]
    exact (List.perm_cons_erase hkey).symm
  · rwa [promote_absent hkey]

theorem Cold.put (h : Cold takes seen (l.map Prod.fst)) {full : Bool} (key : K) (value : V)
    (hfull : full = true ↔ ¬ takes l.length) (hsome : full = true → l ≠ []) :
    Cold takes (insert key seen) ((put full l key value).map Prod.fst) := by
  rw [Paging.put, List.map_cons]
  by_cases hkey : key ∈ l.map Prod.fst
  · rw [if_pos hkey, keys_filter h.nodup, Finset.insert_eq_of_mem (h.sub key hkey)]
    exact h.perm (List.perm_cons_erase hkey).symm
  · rw [if_neg hkey]
    refine h.miss hkey ?_ ?_
    · split
      · exact (List.dropLast_sublist l).map Prod.fst
      · exact List.Sublist.refl _
    · rw [List.length_map, List.length_map]
      by_cases htakes : takes l.length
      · rw [if_neg fun hf => hfull.mp hf htakes, if_pos htakes]
      · have hpos := List.length_pos_iff.mpr (hsome (hfull.mpr htakes))
        rw [if_pos (hfull.mpr htakes), if_neg htakes, List.length_dropLast]
        omega

end Cold

/-! ### Any other cache -/

/-- A cache of at most `h` keys that has each requested key after its request, and fetches no
other: what it holds after each request is up to it. -/
def Serves (h : Nat) (C : Finset K) : List (K × Finset K) → Prop
  | [] => True
  | (key, C') :: rest => key ∈ C' ∧ C' ⊆ insert key C ∧ C'.card ≤ h ∧ Serves h C' rest

instance decidableServes (h : Nat) : (C : Finset K) → (schedule : List (K × Finset K)) →
    Decidable (Serves h C schedule)
  | _, [] => isTrue trivial
  | C, (key, C') :: rest =>
    have : Decidable (Serves h C' rest) := decidableServes h C' rest
    inferInstanceAs (Decidable (key ∈ C' ∧ C' ⊆ insert key C ∧ C'.card ≤ h ∧ Serves h C' rest))

def faults (C : Finset K) : List (K × Finset K) → Nat
  | [] => 0
  | (key, C') :: rest => (if key ∈ C then 0 else 1) + faults C' rest

/-! ### What is owed -/

/-- The keys that `C` has not, the first at the price `w` and each next one a unit cheaper. -/
def owed (C : Finset K) : Nat → List K → Nat
  | _, [] => 0
  | w, key :: keys => (if key ∈ C then 0 else w) + owed C (w - 1) keys

section Owed
variable {C C' : Finset K} {key : K} {w : Nat} {l : List K}

theorem owed_dropLast : owed C w l.dropLast ≤ owed C w l := by
  induction l generalizing w with
  | nil => exact Nat.le_refl 0
  | cons x xs ih =>
    cases xs with
    | nil => exact Nat.zero_le _
    | cons y ys =>
      rw [List.dropLast_cons_cons, owed, owed]
      exact Nat.add_le_add_left ih _

/-- The other cache drops keys: each costs at most the highest price. -/
theorem owed_drop : owed C' w l ≤ owed C w l + w * (l.filter (· ∈ C \ C')).length := by
  induction l generalizing w with
  | nil => exact Nat.zero_le _
  | cons x xs ih =>
    have hrest := ih (w := w - 1)
    have hprice : (w - 1) * (xs.filter (· ∈ C \ C')).length ≤ w * (xs.filter (· ∈ C \ C')).length :=
      Nat.mul_le_mul_right _ (Nat.sub_le ..)
    rw [owed, owed]
    by_cases hdrop : x ∈ C \ C'
    · obtain ⟨hin, hout⟩ := Finset.mem_sdiff.mp hdrop
      rw [List.filter_cons_of_pos (by simpa using hdrop), List.length_cons, if_pos hin, if_neg hout, Nat.mul_succ]
      omega
    · rw [List.filter_cons_of_neg (by simpa using hdrop)]
      have hkept : (if x ∈ C' then 0 else w) ≤ if x ∈ C then 0 else w := by
        by_cases hout : x ∈ C'
        · rw [if_pos hout]
          exact Nat.zero_le _
        · rw [if_neg hout, if_neg fun hin => hdrop (Finset.mem_sdiff.mpr ⟨hin, hout⟩)]
      omega

/-- A key that the other cache has moves to the front: those before it become cheaper. -/
theorem owed_erase (hkey : key ∈ C) : owed C (w - 1) (l.erase key) ≤ owed C w l := by
  induction l generalizing w with
  | nil => exact Nat.le_refl 0
  | cons x xs ih =>
    by_cases hx : x = key
    · subst hx
      rw [List.erase_cons_head, owed, if_pos hkey, Nat.zero_add]
    · have hrest := ih (w := w - 1)
      rw [List.erase_cons_tail (by simpa using hx), owed, owed]
      split <;> omega

/-- Every key becomes cheaper when a new one comes before it. -/
theorem owed_shift (hlen : l.length ≤ w) :
    owed C (w - 1) l + (l.filter (· ∉ C)).length ≤ owed C w l := by
  induction l generalizing w with
  | nil => exact Nat.le_refl 0
  | cons x xs ih =>
    rw [List.length_cons] at hlen
    have hrest := ih (w := w - 1) (by omega)
    rw [owed, owed]
    by_cases hx : x ∈ C
    · rw [List.filter_cons_of_neg (by simpa using hx), if_pos hx, if_pos hx]
      omega
    · rw [List.filter_cons_of_pos (by simpa using hx), if_neg hx, if_neg hx, List.length_cons]
      omega

end Owed

/-! ### Competitiveness -/

section Competitive
variable {n h : Nat} {C C' : Finset K} {l : List K} {key : K}

theorem request_nodup (hl : l.Nodup) (key : K) : (request n l key).Nodup := by
  rw [request]
  split
  next hmem => exact List.nodup_cons.mpr ⟨hl.not_mem_erase, hl.erase key⟩
  next hmem =>
    split
    · exact List.nodup_cons.mpr ⟨hmem, hl⟩
    · exact List.nodup_cons.mpr ⟨fun hlast => hmem (List.mem_of_mem_dropLast hlast), hl.sublist (List.dropLast_sublist l)⟩

theorem request_length (hlen : l.length ≤ n) (hpos : 0 < n) (key : K) : (request n l key).length ≤ n := by
  rw [request]
  split
  next hmem =>
    have hone := List.length_pos_of_mem hmem
    rw [List.length_cons, List.length_erase_of_mem hmem]
    omega
  next hmem =>
    split
    · exact Nat.succ_le_of_lt ‹_›
    · rw [List.length_cons, List.length_dropLast]
      omega

/-- The keys of a full list that a cache of `h` keys with another one has not. -/
theorem lacking_of_full (hl : l.Nodup) (hmem : key ∉ l) (hkey : key ∈ C) (hcard : C.card ≤ h) :
    l.length + 1 ≤ (l.filter (· ∉ C)).length + h := by
  have hshared : (l.filter (· ∈ C)).length ≤ (C.erase key).card := by
    rw [← List.toFinset_card_of_nodup (hl.filter _)]
    refine Finset.card_le_card fun x hx => ?_
    rw [List.mem_toFinset, List.mem_filter, decide_eq_true_eq] at hx
    exact Finset.mem_erase.mpr ⟨fun heq => hmem (heq ▸ hx.1), hx.2⟩
  have hone := Finset.card_erase_add_one hkey
  have hsplit := List.length_eq_length_filter_add (l := l) (· ∈ C)
  have hnot : (l.filter fun x => !decide (x ∈ C)) = l.filter (· ∉ C) :=
    List.filter_congr fun x _ => (decide_not).symm
  rw [hnot] at hsplit
  omega

/-- What is owed, what the other cache holds, and the places still free. -/
def potential (n h : Nat) (C : Finset K) (l : List K) : Nat :=
  owed C n l + n * C.card + (n + 1 - h) * (n - l.length)

/-- The other cache serves a request. -/
theorem potential_serve (hl : l.Nodup) (hsub : C' ⊆ insert key C) :
    potential n h C' l ≤ potential n h C l + n * if key ∈ C then 0 else 1 := by
  have hdrop : (l.filter (· ∈ C \ C')).length ≤ (C \ C').card := by
    rw [← List.toFinset_card_of_nodup (hl.filter _)]
    refine Finset.card_le_card fun x hx => ?_
    rw [List.mem_toFinset, List.mem_filter, decide_eq_true_eq] at hx
    exact hx.2
  have hcards : C'.card + (C \ C').card ≤ C.card + if key ∈ C then 0 else 1 := by
    have hunion : (C' ∪ C \ C').card ≤ (insert key C).card :=
      Finset.card_le_card (Finset.union_subset hsub (Finset.sdiff_subset.trans (Finset.subset_insert ..)))
    rw [Finset.card_union_of_disjoint Finset.disjoint_sdiff, Finset.card_insert_eq_ite] at hunion
    split at hunion <;> simp_all
  have howed : owed C' n l ≤ owed C n l + n * (l.filter (· ∈ C \ C')).length := owed_drop
  have hprice : n * (C'.card + (l.filter (· ∈ C \ C')).length) ≤ n * (C.card + if key ∈ C then 0 else 1) :=
    Nat.mul_le_mul_left n (by omega)
  rw [Nat.mul_add, Nat.mul_add] at hprice
  rw [potential, potential]
  omega

/-- The list serves it, too: a miss is paid by what the other cache has not, or by a free
place. -/
theorem potential_request (hl : l.Nodup) (hlen : l.length ≤ n) (hkey : key ∈ C) (hcard : C.card ≤ h) :
    ((n + 1 - h) * if key ∈ l then 0 else 1) + potential n h C (request n l key) ≤ potential n h C l := by
  rw [request, potential, potential]
  by_cases hmem : key ∈ l
  · have hone := List.length_pos_of_mem hmem
    have howed := owed_erase (w := n) (l := l) hkey
    have hsame : (key :: l.erase key).length = l.length := by
      rw [List.length_cons, List.length_erase_of_mem hmem]
      omega
    rw [if_pos hmem, if_pos hmem, hsame, owed, if_pos hkey]
    omega
  · have hshift := owed_shift (C := C) hlen
    rw [if_neg hmem, if_neg hmem, Nat.mul_one]
    by_cases hfree : l.length < n
    · have hplace : (n + 1 - h) * (n - l.length) = (n + 1 - h) + (n + 1 - h) * (n - (l.length + 1)) := by
        rw [show n - l.length = n - (l.length + 1) + 1 by omega, Nat.mul_succ, Nat.add_comm]
      rw [if_pos hfree, owed, if_pos hkey, List.length_cons, hplace]
      omega
    · have hlack := lacking_of_full hl hmem hkey hcard
      have hlast := owed_dropLast (C := C) (w := n - 1) (l := l)
      have hpos : n - l.length = 0 := by omega
      have hplace : n - (key :: l.dropLast).length = 0 := by
        rw [List.length_cons, List.length_dropLast]
        omega
      rw [if_neg hfree, owed, if_pos hkey, hplace, hpos]
      omega

/-- **The run lemma.** -/
theorem misses_le (hpos : 0 < n) {schedule : List (K × Finset K)} (hl : l.Nodup) (hlen : l.length ≤ n)
    (hserves : Serves h C schedule) :
    (n + 1 - h) * misses n l (schedule.map Prod.fst) ≤ n * faults C schedule + potential n h C l := by
  induction schedule generalizing C l with
  | nil => exact Nat.zero_le _
  | cons turn rest ih =>
    obtain ⟨key, C'⟩ := turn
    obtain ⟨hkey, hsub, hcard, hrest⟩ := hserves
    have hlater := ih (request_nodup hl key) (request_length hlen hpos key) hrest
    have hserve := potential_serve (n := n) (h := h) hl hsub
    have hrequest := potential_request hl hlen hkey hcard
    simp only [List.map_cons, misses, faults, Nat.mul_add]
    omega

/-- **Competitiveness**, from the empty list. -/
theorem competitive (hpos : 0 < n) {schedule : List (K × Finset K)} (hserves : Serves h ∅ schedule) :
    (n + 1 - h) * misses n [] (schedule.map Prod.fst) ≤ n * faults ∅ schedule + (n + 1 - h) * n := by
  have hrun := misses_le hpos List.nodup_nil (Nat.zero_le n) hserves
  rwa [potential, owed, Finset.card_empty, Nat.mul_zero, Nat.zero_add, List.length_nil,
    Nat.sub_zero] at hrun

end Competitive

end Paging
