import Mathlib.Data.List.Basic

/-! Lists in order of last use, and what is trimmed off their end.

A log holds events, the newest first. The stamp of a thing is the position of the last
event that used it, so a list in the order of the stamps is a list in order of use: to use
an element is to move it to the front. A bounded list makes room at its end. -/
namespace Recency

variable {α ε : Type*}

section Log
variable {p : ε → Bool} {log events : List ε} {ev : ε}

/-- When an event of the kind `p` last happened; 0 is never. -/
def lastUse (p : ε → Bool) : List ε → Nat
  | [] => 0
  | ev :: log => if p ev then log.length + 1 else lastUse p log

theorem lastUse_le : lastUse p log ≤ log.length := by
  induction log with
  | nil => exact Nat.le_refl _
  | cons ev log ih =>
    rw [lastUse]
    split
    · exact Nat.le_refl _
    · exact Nat.le_succ_of_le ih

theorem lastUse_cons_of_pos (h : p ev = true) : lastUse p (ev :: log) = log.length + 1 :=
  if_pos h

theorem lastUse_cons_of_neg (h : p ev = false) : lastUse p (ev :: log) = lastUse p log :=
  if_neg (by simp [h])

theorem lastUse_append (h : ∀ ev ∈ events, p ev = false) :
    lastUse p (events ++ log) = lastUse p log := by
  induction events with
  | nil => rfl
  | cons ev events ih =>
    rw [List.cons_append, lastUse_cons_of_neg (h ev (List.mem_cons_self ..))]
    exact ih fun ev' hev => h ev' (List.mem_cons_of_mem ev hev)

end Log

/-! ### Order -/

/-- The stamps fall along the list. -/
def Ordered (stamp : α → Nat) (l : List α) : Prop := l.Pairwise fun a b => stamp b < stamp a

section Order
variable {stamp stamp' : α → Nat} {l l' : List α} {x : α}

theorem Ordered.congr (h : Ordered stamp l) (hsame : ∀ a ∈ l, stamp' a = stamp a) :
    Ordered stamp' l :=
  List.Pairwise.imp_of_mem (fun ha hb hlt => by rwa [hsame _ ha, hsame _ hb]) h

/-- Something is used, and what stays in the list stays as it was. -/
theorem Ordered.front (h : Ordered stamp l) (hsub : l'.Sublist l)
    (hsame : ∀ a ∈ l', stamp' a = stamp a) (htop : ∀ a ∈ l', stamp a < stamp' x) :
    Ordered stamp' (x :: l') := by
  refine List.Pairwise.cons (fun a ha => ?_) (Ordered.congr (List.Pairwise.sublist hsub h) hsame)
  rw [hsame a ha]
  exact htop a ha

end Order

/-! ### Trimming -/

/-- `gone` is the shortest suffix of `l` without which the list is admitted. -/
structure Evicts (admits : List α → Prop) (l kept gone : List α) : Prop where
  split : l = kept ++ gone
  admitted : admits kept
  shortest : ∀ kept' gone', l = kept' ++ gone' → admits kept' → gone.length ≤ gone'.length

theorem evicts_take {admits : List α → Prop} {l : List α} {m : Nat} (hm : m ≤ l.length)
    (h : admits (l.take m)) (hmax : ∀ i, m < i → i ≤ l.length → ¬ admits (l.take i)) :
    Evicts admits l (l.take m) (l.drop m) := by
  refine ⟨(List.take_append_drop m l).symm, h, fun kept' gone' hl hadmits => ?_⟩
  have hlen : l.length = kept'.length + gone'.length := by rw [hl, List.length_append]
  have htake : l.take kept'.length = kept' := by rw [hl, List.take_left']; rfl
  have hle : kept'.length ≤ m := by
    refine Nat.le_of_not_lt fun hlt => hmax _ hlt (by omega) ?_
    rwa [htake]
  rw [List.length_drop]
  omega

end Recency
