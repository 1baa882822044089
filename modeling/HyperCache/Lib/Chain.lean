import Mathlib

/-! Sorted linked lists.

`next` is the successor function of a linked structure; `Chain` says that it leads from
`first` through the elements of a list to `last`, and that their ranks increase all the
way. The list is what proofs speak about; nothing computes it. One element can be
linked in between two neighbours, and whatever else changes elsewhere is invisible. -/
namespace Chain

variable {α : Type*} {κ : Type*} [LinearOrder κ]

/-- `next` leads from an element through the list to `last`. -/
def Path (next : α → α) (last : α) : α → List α → Prop
  | a, [] => next a = last
  | a, b :: rest => next a = b ∧ Path next last b rest

structure Linked (next : α → α) (rank : α → κ) (first last : α) (as : List α) : Prop where
  path : Path next last first as
  sorted : (first :: as ++ [last]).Pairwise (rank · < rank ·)

section Path
variable {next next' : α → α} {last a : α} {as : List α}

theorem Path.congr (h : Path next last a as) (hsame : ∀ x ∈ a :: as, next' x = next x) :
    Path next' last a as := by
  induction as generalizing a with
  | nil => exact (hsame a (List.mem_cons_self ..)).trans h
  | cons b rest ih =>
    refine ⟨(hsame a (List.mem_cons_self ..)).trans h.1, ih h.2 fun x hx => ?_⟩
    exact hsame x (List.mem_cons_of_mem a hx)

theorem Path.split (h : Path next last a as) {x : α} {before after : List α}
    (heq : a :: as = before ++ x :: after) : Path next last x after := by
  induction before generalizing a as with
  | nil =>
    cases heq
    exact h
  | cons b before ih =>
    cases as with
    | nil =>
      have hlen := congrArg List.length heq
      simp at hlen
    | cons c rest => exact ih h.2 (List.cons_eq_cons.mp heq).2

/-- A new element goes in after `x`. -/
theorem Path.insert (h : Path next last a as) {x n : α} {before after : List α}
    (heq : a :: as = before ++ x :: after) (hx : next' x = n) (hn : next' n = next x)
    (hsame : ∀ y ∈ before ++ after, next' y = next y) :
    ∃ as', a :: as' = before ++ x :: n :: after ∧ Path next' last a as' := by
  induction before generalizing a as with
  | nil =>
    cases heq
    refine ⟨n :: after, rfl, hx, ?_⟩
    cases after with
    | nil => exact hn.trans h
    | cons b rest => exact ⟨hn.trans h.1, h.2.congr hsame⟩
  | cons b before ih =>
    cases as with
    | nil =>
      have hlen := congrArg List.length heq
      simp at hlen
    | cons c rest =>
      obtain ⟨rfl, hrest⟩ := List.cons_eq_cons.mp heq
      obtain ⟨as', heq', hpath⟩ := ih h.2 hrest fun y hy => hsame y (List.mem_cons_of_mem a hy)
      exact ⟨c :: as', congrArg (a :: ·) heq', (hsame a (List.mem_cons_self ..)).trans h.1, hpath⟩

/-- The element after `x` goes out. -/
theorem Path.erase (h : Path next last a as) {x n : α} {before after : List α}
    (heq : a :: as = before ++ x :: n :: after) (hx : next' x = next n)
    (hsame : ∀ y ∈ before ++ after, next' y = next y) :
    ∃ as', a :: as' = before ++ x :: after ∧ Path next' last a as' := by
  induction before generalizing a as with
  | nil =>
    cases heq
    refine ⟨after, rfl, ?_⟩
    cases after with
    | nil => exact hx.trans h.2
    | cons b rest => exact ⟨hx.trans h.2.1, h.2.2.congr hsame⟩
  | cons b before ih =>
    cases as with
    | nil =>
      have hlen := congrArg List.length heq
      simp at hlen
    | cons c rest =>
      obtain ⟨rfl, hrest⟩ := List.cons_eq_cons.mp heq
      obtain ⟨as', heq', hpath⟩ := ih h.2 hrest fun y hy => hsame y (List.mem_cons_of_mem a hy)
      exact ⟨c :: as', congrArg (a :: ·) heq', (hsame a (List.mem_cons_self ..)).trans h.1, hpath⟩

end Path

section Linked
variable {next : α → α} {rank : α → κ} {first last : α} {as : List α}

theorem Linked.split (h : Linked next rank first last as) {x : α} (hx : x ∈ first :: as) :
    ∃ before after, first :: as = before ++ x :: after ∧
      (∀ y ∈ before, rank y < rank x) ∧ (∀ y ∈ after ++ [last], rank x < rank y) ∧
      (after ++ [last]).Pairwise (rank · < rank ·) ∧ next x ∈ (after ++ [last]).head? := by
  obtain ⟨before, after, heq⟩ := List.append_of_mem hx
  have hsorted := h.sorted
  rw [heq, List.append_assoc, List.cons_append, List.pairwise_append, List.pairwise_cons] at hsorted
  obtain ⟨-, ⟨hafter, htail⟩, hbefore⟩ := hsorted
  refine ⟨before, after, heq, fun y hy => hbefore y hy x (List.mem_cons_self ..), hafter, htail, ?_⟩
  have hpath := h.path.split heq
  cases after with
  | nil => exact congrArg some hpath.symm
  | cons b rest => exact congrArg some hpath.1.symm

theorem Linked.next_mem (h : Linked next rank first last as) {x : α} (hx : x ∈ first :: as) :
    next x ∈ as ++ [last] := by
  obtain ⟨before, after, heq, -, -, -, hnext⟩ := h.split hx
  have hmem : next x ∈ after ++ [last] := List.mem_of_mem_head? hnext
  rcases List.mem_append.mp hmem with hm | hm
  · have hsub : next x ∈ before ++ x :: after := by
      apply List.mem_append_right
      exact List.mem_cons_of_mem x hm
    cases before with
    | nil =>
      have := (List.cons_eq_cons.mp heq).2
      exact List.mem_append_left _ (this ▸ hm)
    | cons b before =>
      have htail := (List.cons_eq_cons.mp heq).2
      apply List.mem_append_left
      rw [htail]
      exact List.mem_append_right _ (List.mem_cons_of_mem x hm)
  · exact List.mem_append_right _ hm

/-- Nothing lies between an element and its successor. -/
theorem Linked.next_le (h : Linked next rank first last as) {x c : α} (hx : x ∈ first :: as)
    (hc : c ∈ first :: as ++ [last]) (hlt : rank x < rank c) : rank (next x) ≤ rank c := by
  obtain ⟨before, after, heq, hbefore, -, htail, hnext⟩ := h.split hx
  rw [heq, List.append_assoc, List.cons_append] at hc
  rcases List.mem_append.mp hc with hm | hm
  · exact absurd (hbefore c hm) (lt_asymm hlt)
  · rcases List.mem_cons.mp hm with rfl | hm
    · exact absurd hlt (lt_irrefl _)
    · cases hlist : after ++ [last] with
      | nil => rw [hlist] at hm; cases hm
      | cons b rest =>
        rw [hlist] at hnext hm htail
        cases hnext
        rcases List.mem_cons.mp hm with rfl | hm
        · exact le_rfl
        · exact le_of_lt ((List.pairwise_cons.mp htail).1 c hm)

theorem Linked.eq_of_rank (h : Linked next rank first last as) {x y : α}
    (hx : x ∈ first :: as ++ [last]) (hy : y ∈ first :: as ++ [last]) (heq : rank x = rank y) :
    x = y := by
  have hnodup : ((first :: as ++ [last]).map rank).Nodup := by
    rw [List.Nodup, List.pairwise_map]
    exact h.sorted.imp fun hlt => ne_of_lt hlt
  exact List.inj_on_of_nodup_map hnodup hx hy heq

/-- Only the elements of the chain and their ranks matter. -/
theorem Linked.congr (h : Linked next rank first last as) {next' : α → α} {rank' : α → κ}
    (hnext : ∀ x ∈ first :: as, next' x = next x)
    (hrank : ∀ x ∈ first :: as ++ [last], rank' x = rank x) : Linked next' rank' first last as := by
  refine ⟨h.path.congr hnext, h.sorted.imp_of_mem fun {x y} hx hy hxy => ?_⟩
  rw [hrank x hx, hrank y hy]
  exact hxy

theorem Linked.inner (h : Linked next rank first last as) : as.Pairwise (rank · < rank ·) := by
  have hsorted := h.sorted
  rw [List.cons_append, List.pairwise_cons, List.pairwise_append] at hsorted
  exact hsorted.2.1

/-- The elements decide the chain. -/
theorem Linked.eq_of_mem (h : Linked next rank first last as) {bs : List α}
    (hbs : bs.Pairwise (rank · < rank ·)) (hmem : ∀ x, x ∈ as ↔ x ∈ bs) : as = bs := by
  have : Std.Antisymm fun x y => rank x < rank y := ⟨fun _ _ hxy hyx => absurd hxy (lt_asymm hyx)⟩
  have : Std.Irrefl fun x y => rank x < rank y := ⟨fun _ => lt_irrefl _⟩
  exact h.inner.eq_of_mem_iff hbs hmem

/-- Linking one element in after `x`; `next` and the ranks of all others stay. -/
theorem Linked.insert (h : Linked next rank first last as) {next' : α → α} {rank' : α → κ} {x n : α}
    (hx : x ∈ first :: as) (hnext : next' x = n) (hn : next' n = next x)
    (hsame : ∀ y ∈ first :: as, y ≠ x → next' y = next y)
    (hrank : ∀ y ∈ first :: as ++ [last], rank' y = rank y) (hlt : rank x < rank' n)
    (hgt : rank' n < rank (next x)) :
    ∃ as', Linked next' rank' first last as' ∧ ∀ y, y ∈ as' ↔ y = n ∨ y ∈ as := by
  obtain ⟨before, after, heq, hbefore, hafter, htail, hhead⟩ := h.split hx
  have hne : ∀ y ∈ before ++ after, y ≠ x := by
    rintro y hy rfl
    rcases List.mem_append.mp hy with hm | hm
    · exact lt_irrefl _ (hbefore y hm)
    · exact lt_irrefl _ (hafter y (List.mem_append_left _ hm))
  have hmem : ∀ y ∈ before ++ after, y ∈ first :: as := by
    intro y hy
    rw [heq]
    rcases List.mem_append.mp hy with hm | hm
    · exact List.mem_append_left _ hm
    · exact List.mem_append_right _ (List.mem_cons_of_mem x hm)
  obtain ⟨as', heq', hpath⟩ := h.path.insert heq hnext hn fun y hy => hsame y (hmem y hy) (hne y hy)
  refine ⟨as', ⟨hpath, ?_⟩, ?_⟩
  · have hold : (before ++ x :: (after ++ [last])).Pairwise (rank' · < rank' ·) := by
      have hsorted := h.sorted
      rw [heq, List.append_assoc, List.cons_append] at hsorted
      refine hsorted.imp_of_mem fun {y z} hy hz hyz => ?_
      rw [← List.cons_append, ← List.append_assoc, ← heq] at hy hz
      rw [hrank y hy, hrank z hz]
      exact hyz
    have hbound : ∀ z ∈ after ++ [last], rank' n < rank' z := by
      intro z hz
      have hzmem : z ∈ first :: as ++ [last] := by
        rw [heq, List.append_assoc, List.cons_append]
        exact List.mem_append_right _ (List.mem_cons_of_mem x hz)
      rw [hrank z hzmem]
      exact lt_of_lt_of_le hgt (h.next_le hx hzmem (hafter z hz))
    have hxmem : x ∈ first :: as ++ [last] := List.mem_append_left _ hx
    rw [heq', List.append_assoc, List.cons_append, List.cons_append]
    rw [List.pairwise_append, List.pairwise_cons] at hold ⊢
    obtain ⟨hb, ⟨hxafter, hrest⟩, hcross⟩ := hold
    refine ⟨hb, ⟨?_, List.pairwise_cons.mpr ⟨hbound, hrest⟩⟩, ?_⟩
    · intro z hz
      rcases List.mem_cons.mp hz with rfl | hm
      · rw [hrank x hxmem]
        exact hlt
      · exact hxafter z hm
    · intro y hy z hz
      rcases List.mem_cons.mp hz with rfl | hm
      · exact hcross y hy z (List.mem_cons_self ..)
      · rcases List.mem_cons.mp hm with rfl | hm
        · refine lt_trans (hcross y hy x (List.mem_cons_self ..)) ?_
          rw [hrank x hxmem]
          exact hlt
        · exact hcross y hy z (List.mem_cons_of_mem x hm)
  · intro y
    cases before with
    | nil =>
      rw [(List.cons_eq_cons.mp heq').2, (List.cons_eq_cons.mp heq).2, List.mem_cons]
    | cons b before =>
      have h1 : as = before ++ x :: after := (List.cons_eq_cons.mp heq).2
      have h2 : as' = before ++ x :: n :: after := (List.cons_eq_cons.mp heq').2
      rw [h1, h2]
      simp only [List.mem_append, List.mem_cons]
      tauto

/-- How many elements of the list lie after `x`. -/
def after (rank : α → κ) (as : List α) (x : α) : Nat := as.countP (rank x < rank ·)

omit next first last in
theorem after_lt {x y : α} (hy : y ∈ as) (hlt : rank x < rank y) :
    after rank as y < after rank as x := by
  induction as with
  | nil => cases hy
  | cons b rest ih =>
    have hle : after rank rest y ≤ after rank rest x := by
      apply List.countP_mono_left
      intro z _ hz
      exact decide_eq_true (lt_trans hlt (of_decide_eq_true hz))
    simp only [after, List.countP_cons] at hle ih ⊢
    rcases List.mem_cons.mp hy with rfl | hm
    · rw [if_neg (by simp), if_pos (decide_eq_true hlt)]
      omega
    · have hrec := ih hm
      by_cases hb : rank y < rank b
      · rw [if_pos (decide_eq_true hb), if_pos (decide_eq_true (lt_trans hlt hb))]
        omega
      · rw [if_neg (by simpa using hb)]
        omega

end Linked

end Chain
