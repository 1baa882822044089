import HyperCache.Util.Queue
import Mathlib.Algebra.Order.Group.Multiset
import Mathlib.Data.Multiset.AddSub
import Mathlib.Data.Nat.ModEq

/-! The bounded queue is a FIFO, whatever the interleaving.

The invariant reads the ring by the position that will use each slot next: for
`n` in `[head, head + capicity)` the slot is free for `n`, or filled for the pop
of `n - capicity`, or still being written by its push. The calls between their
claim and their publication are the tokens of the accounting. A sequence number
only grows, so the one a call read before its compare-and-swap still bounds the
slot when the swap succeeds; with the position equal to `head` (or `tail`) that
bound leaves one case. -/
namespace HyperCache.Util.Queue
open Interleaving

variable {α : Type}

/-- A position claimed by a call that has not published its slot yet. -/
inductive Claim where
  | writing (pos : Nat)
  | reading (pos : Nat)
  | resetting (pos : Nat)

open Claim

/-- The claims a thread holds. -/
def claims : Pc α → Multiset Claim
  | .pushWriteData _ pos => {writing pos}
  | .pushStoreSeq pos => {writing pos}
  | .popReadData pos => {reading pos}
  | .popStoreSeq pos _ => {resetting pos}
  | _ => 0

/-- The slot that position `n` will use next. -/
inductive Slot (s : State α) (m : Multiset Claim) (n : Nat) : Prop where
  | free (seq : (s.queue.node n).seq = n) (room : n < s.queue.tail + s.queue.capicity)
      (unclaimed : ∀ k, k + s.queue.capicity = n →
        writing k ∉ m ∧ reading k ∉ m ∧ resetting k ∉ m)
  | filled (k : Nat) (lap : k + s.queue.capicity = n) (seq : (s.queue.node n).seq = k + 1)
      (data : s.pushed[k]? = some (s.queue.node n).data) (published : writing k ∉ m)
      (pending : s.queue.tail ≤ k ∨ reading k ∈ m ∨ resetting k ∈ m)
  | written (k : Nat) (lap : k + s.queue.capicity = n) (seq : (s.queue.node n).seq = k)
      (claimed : writing k ∈ m)

/-- The queue, its history and the claims in flight agree. -/
structure Global (s : State α) (m : Multiset Claim) : Prop where
  two_le : 2 ≤ s.queue.capicity
  nodup : m.Nodup
  length : s.pushed.length = s.queue.head
  tail_le : s.queue.tail ≤ s.queue.head
  head_le : s.queue.head ≤ s.queue.tail + s.queue.capicity
  writing : ∀ k, writing k ∈ m → s.queue.tail ≤ k ∧ k < s.queue.head
  popping : ∀ k, reading k ∈ m ∨ resetting k ∈ m →
    k < s.queue.tail ∧ s.queue.head ≤ k + s.queue.capicity
  exclusive : ∀ k, reading k ∈ m → resetting k ∉ m
  slot : ∀ n, s.queue.head ≤ n → n < s.queue.head + s.queue.capicity → Slot s m n
  delivered : ∀ n v, (n, v) ∈ s.delivered →
    n < s.queue.tail ∧ reading n ∉ m ∧ s.pushed[n]? = some v
  once : (s.delivered.map Prod.fst).Nodup
  all : ∀ n, n < s.queue.tail → reading n ∉ m → n ∈ s.delivered.map Prod.fst

/-- What a call knows between two of its accesses. -/
def Knows (s : State α) : Pc α → Prop
  | .pushLoadSeq _ pos => pos ≤ s.queue.head
  | .popLoadSeq pos => pos ≤ s.queue.tail
  | .pushCas _ pos => pos ≤ (s.queue.node pos).seq
  | .pushWriteData value pos => s.pushed[pos]? = some value
  | .pushStoreSeq pos => s.pushed[pos]? = some (s.queue.node pos).data
  | .popCas pos => pos + 1 ≤ (s.queue.node pos).seq
  | .popStoreSeq pos value => (pos, value) ∈ s.delivered
  | _ => True

/-! ### Positions and slots -/

theorem pos_eq {a b c : Nat} (h : a % c = b % c) (hab : a < b + c) (hba : b < a + c) : a = b := by
  rcases Nat.le_total a b with hle | hle
  · have hd := (Nat.modEq_iff_dvd' hle).mp h
    have := Nat.eq_zero_of_dvd_of_lt hd (by omega)
    omega
  · have hd := (Nat.modEq_iff_dvd' hle).mp h.symm
    have := Nat.eq_zero_of_dvd_of_lt hd (by omega)
    omega

theorem node_add_capicity (q : Queue α) (k : Nat) : q.node (k + q.capicity) = q.node k := by
  simp [node]

/-- Within one lap, a write to one position's slot leaves the others alone. -/
theorem setNode_node_of_ne (q : Queue α) {pos m : Nat} (n : Node α) (hne : m ≠ pos)
    (hm : m < pos + q.capicity) (hp : pos < m + q.capicity) : (q.setNode pos n).node m = q.node m := by
  rw [setNode_node, if_neg fun h => hne (pos_eq h hm hp)]

theorem setNode_node_self (q : Queue α) (pos : Nat) (n : Node α) :
    (q.setNode pos n).node pos = n := by
  rw [setNode_node, if_pos rfl]

/-- Some position of the window uses the slot of `pos`. -/
theorem exists_window {capicity : Nat} (h : 0 < capicity) (head pos : Nat) :
    ∃ n, head ≤ n ∧ n < head + capicity ∧ n % capicity = pos % capicity := by
  have hmod := Nat.mod_lt head h
  refine ⟨head + (pos + (capicity - head % capicity)) % capicity, Nat.le_add_right _ _, ?_, ?_⟩
  · have := Nat.mod_lt (pos + (capicity - head % capicity)) h
    omega
  · rw [Nat.add_mod_mod, ← Nat.mod_add_mod]
    rw [show head % capicity + (pos + (capicity - head % capicity)) = pos + capicity by omega,
      Nat.add_mod_right]

/-- The next user of a claimed position's slot is one lap later. -/
theorem Global.slot_of_lap {s : State α} {m : Multiset Claim} (h : Global s m) {k : Nat}
    (hk : k < s.queue.head) (hlap : s.queue.head ≤ k + s.queue.capicity) :
    Slot s m (k + s.queue.capicity) :=
  h.slot _ hlap (by omega)

theorem Global.seq_of_writing {s : State α} {m : Multiset Claim} (h : Global s m) {k : Nat}
    (hm : Claim.writing k ∈ m) : (s.queue.node k).seq = k := by
  obtain ⟨htail, hhead⟩ := h.writing k hm
  have hlap := h.head_le
  cases h.slot_of_lap hhead (by omega) with
  | free _ _ hu => exact absurd hm (hu k rfl).1
  | filled j hj _ _ hp _ => exact absurd hm ((show j = k by omega) ▸ hp)
  | written j hj hseq _ => rw [node_add_capicity] at hseq; omega

/-- Until it is reset, the slot of a claimed pop is the one its push filled. -/
theorem Global.slot_of_popping {s : State α} {m : Multiset Claim} (h : Global s m) {k : Nat}
    (hm : reading k ∈ m ∨ resetting k ∈ m) :
    (s.queue.node k).seq = k + 1 ∧ s.pushed[k]? = some (s.queue.node k).data := by
  obtain ⟨htail, hlap⟩ := h.popping k hm
  have hle := h.tail_le
  cases h.slot_of_lap (by omega) hlap with
  | free _ _ hu => exact absurd hm (not_or.mpr (hu k rfl).2)
  | filled j hj hseq hdata _ _ =>
    obtain rfl : j = k := by omega
    rw [node_add_capicity] at hseq hdata
    exact ⟨hseq, hdata⟩
  | written j hj _ hw =>
    have := (h.writing j hw).1
    omega

/-- There is room for a push that finds its slot free. -/
theorem Global.room {s : State α} {m : Multiset Claim} (h : Global s m)
    (hseq : s.queue.head ≤ (s.queue.node s.queue.head).seq) :
    s.queue.head < s.queue.tail + s.queue.capicity := by
  have htwo := h.two_le
  cases h.slot s.queue.head (Nat.le_refl _) (by omega) with
  | free _ hroom _ => exact hroom
  | filled k hk hs _ _ _ => omega
  | written k hk hs _ => omega

/-- There is a value for a pop that finds its slot filled: an empty queue's slot at `tail` has
not been pushed to in this lap. -/
theorem Global.nonempty {s : State α} {m : Multiset Claim} (h : Global s m)
    (hseq : s.queue.tail + 1 ≤ (s.queue.node s.queue.tail).seq) : s.queue.tail < s.queue.head := by
  have htwo := h.two_le
  have hle := h.tail_le
  by_contra hge
  have he : s.queue.tail = s.queue.head := by omega
  cases h.slot s.queue.tail (by omega) (by omega) with
  | free hs _ _ => omega
  | filled k hk hs _ _ _ => omega
  | written k hk hs _ => omega

/-! ### What each access does to the accounts -/

section Accesses
variable {s : State α} {r : Multiset Claim}

/-- A push claims `head`: the slot was free, and its lap moves on. -/
theorem Global.claimPush (h : Global s r) (value : α)
    (hseq : s.queue.head ≤ (s.queue.node s.queue.head).seq) :
    Global {s with
      queue := {s.queue with head := s.queue.head + 1}, pushed := s.pushed ++ [value]}
      (Claim.writing s.queue.head ::ₘ r) := by
  have htwo := h.two_le
  have hroom := h.room hseq
  have hfresh : Claim.writing s.queue.head ∉ r := fun hm => by
    have := (h.writing _ hm).2
    omega
  refine ⟨htwo, Multiset.nodup_cons.mpr ⟨hfresh, h.nodup⟩, ?_, ?_, ?_, ?_, ?_, ?_, ?_, ?_, h.once, ?_⟩
  · simp [h.length]
  · exact Nat.le_succ_of_le h.tail_le
  · exact hroom
  · intro k hk
    rcases Multiset.mem_cons.mp hk with hk | hk
    · cases hk
      exact ⟨h.tail_le, Nat.lt_succ_self _⟩
    · exact ⟨(h.writing k hk).1, Nat.lt_succ_of_lt (h.writing k hk).2⟩
  · intro k hk
    have hk' : reading k ∈ r ∨ resetting k ∈ r := by simpa using hk
    refine ⟨(h.popping k hk').1, ?_⟩
    -- the slot of a claimed pop is not free, so it is not the one just claimed
    have hne : k + s.queue.capicity ≠ s.queue.head := fun he => by
      have hs := (h.slot_of_popping hk').1
      rw [← node_add_capicity, he] at hs
      omega
    have := (h.popping k hk').2
    show s.queue.head + 1 ≤ k + s.queue.capicity
    omega
  · intro k hk
    simpa using h.exclusive k (by simpa using hk)
  · intro n hn hlt
    change s.queue.head + 1 ≤ n at hn
    change n < s.queue.head + 1 + s.queue.capicity at hlt
    by_cases hlast : n = s.queue.head + s.queue.capicity
    · refine .written s.queue.head hlast.symm ?_ (Multiset.mem_cons_self _ _)
      show (s.queue.node n).seq = s.queue.head
      rw [hlast, node_add_capicity]
      cases h.slot s.queue.head (Nat.le_refl _) (by omega) with
      | free hs _ _ => exact hs
      | filled k hk hs _ _ _ => omega
      | written k hk hs _ => omega
    · have hkne : ∀ k, k + s.queue.capicity = n → k ≠ s.queue.head := fun k hk he => by omega
      cases h.slot n (by omega) (by omega) with
      | free hs hr hu =>
        refine .free hs hr fun k hk => ?_
        simpa [hkne k hk] using hu k hk
      | filled k hk hs hd hp hpend =>
        refine .filled k hk hs ?_ (by simpa [hkne k hk] using hp) (by simpa using hpend)
        show (s.pushed ++ [value])[k]? = _
        rw [List.getElem?_append_left (by rw [h.length]; omega)]
        exact hd
      | written k hk hs hw => exact .written k hk hs (Multiset.mem_cons_of_mem hw)
  · intro n v hn
    obtain ⟨hlt, hr, hv⟩ := h.delivered n v hn
    refine ⟨hlt, by simpa using hr, ?_⟩
    show (s.pushed ++ [value])[n]? = _
    rw [List.getElem?_append_left (by rw [h.length]; exact Nat.lt_of_lt_of_le hlt h.tail_le)]
    exact hv
  · intro n hn hr
    exact h.all n hn (by simpa using hr)

/-- A node changed in place of position `pos`, sequence number included or not,
leaves the slots of the other positions of the window as they were. -/
theorem Slot.setNode {m m' : Multiset Claim} {n pos : Nat} (h : Slot s m n) (node : Node α)
    (hother : (s.queue.setNode pos node).node n = s.queue.node n)
    (hm : ∀ k, k + s.queue.capicity = n → (writing k ∈ m' ↔ writing k ∈ m) ∧
      (reading k ∈ m' ↔ reading k ∈ m) ∧ (resetting k ∈ m' ↔ resetting k ∈ m)) :
    Slot {s with queue := s.queue.setNode pos node} m' n := by
  cases h with
  | free hs hr hu =>
    refine .free ((congrArg Node.seq hother).trans hs) hr fun k hk => ?_
    obtain ⟨h1, h2, h3⟩ := hm k hk
    rw [h1, h2, h3]
    exact hu k hk
  | filled k hk hs hd hp hpend =>
    obtain ⟨h1, h2, h3⟩ := hm k hk
    refine .filled k hk ((congrArg Node.seq hother).trans hs) ?_ (by rwa [h1]) (by rwa [h2, h3])
    exact hd.trans (congrArg (fun x => some x.data) hother.symm)
  | written k hk hs hw =>
    exact .written k hk ((congrArg Node.seq hother).trans hs) ((hm k hk).1.mpr hw)

/-- The data of a claimed push: its slot's sequence number is not touched. -/
theorem Global.writeData {pos : Nat} (h : Global s (Claim.writing pos ::ₘ r)) (value : α) :
    Global {s with queue := s.queue.setNode pos {s.queue.node pos with data := value}}
      (Claim.writing pos ::ₘ r) := by
  have hclaimed := h.writing pos (Multiset.mem_cons_self _ _)
  have hseq := h.seq_of_writing (Multiset.mem_cons_self _ _)
  have hlap := h.head_le
  refine ⟨h.two_le, h.nodup, h.length, h.tail_le, h.head_le, h.writing, h.popping, h.exclusive, ?_,
    h.delivered, h.once, h.all⟩
  intro n hn hlt
  change s.queue.head ≤ n at hn
  change n < s.queue.head + s.queue.capicity at hlt
  by_cases hp : n = pos + s.queue.capicity
  · refine .written pos hp.symm ?_ (Multiset.mem_cons_self _ _)
    show ((s.queue.setNode pos {s.queue.node pos with data := value}).node n).seq = pos
    rw [setNode_node, if_pos (by rw [hp, Nat.add_mod_right])]
    exact hseq
  · refine (h.slot n hn hlt).setNode {s.queue.node pos with data := value} ?_
      fun k _ => ⟨Iff.rfl, Iff.rfl, Iff.rfl⟩
    rw [setNode_node, if_neg fun he => hp ?_]
    exact pos_eq (by rw [he, Nat.add_mod_right]) (by omega) (by omega)

/-- A push publishes its slot for the pop of the same position. -/
theorem Global.publish {pos : Nat} (h : Global s (Claim.writing pos ::ₘ r))
    (hdata : s.pushed[pos]? = some (s.queue.node pos).data) :
    Global {s with queue := s.queue.setNode pos {s.queue.node pos with seq := pos + 1}} r := by
  have hclaimed := h.writing pos (Multiset.mem_cons_self _ _)
  have hlap := h.head_le
  have hfresh := (Multiset.nodup_cons.mp h.nodup).1
  refine ⟨h.two_le, (Multiset.nodup_cons.mp h.nodup).2, h.length, h.tail_le, h.head_le, ?_, ?_, ?_,
    ?_, ?_, h.once, ?_⟩
  · exact fun k hk => h.writing k (Multiset.mem_cons_of_mem hk)
  · exact fun k hk => h.popping k (by simpa using hk)
  · exact fun k hk => by simpa using h.exclusive k (by simpa using hk)
  · intro n hn hlt
    change s.queue.head ≤ n at hn
    change n < s.queue.head + s.queue.capicity at hlt
    by_cases hp : n = pos + s.queue.capicity
    · have hself : (s.queue.setNode pos {s.queue.node pos with seq := pos + 1}).node n =
          {s.queue.node pos with seq := pos + 1} := by
        rw [setNode_node, if_pos (by rw [hp, Nat.add_mod_right])]
      refine .filled pos hp.symm (congrArg Node.seq hself) ?_ hfresh (.inl hclaimed.1)
      exact hdata.trans (congrArg (fun x => some x.data) hself.symm)
    · refine (h.slot n hn hlt).setNode _ ?_ fun k hk => ?_
      · rw [setNode_node, if_neg fun he => hp ?_]
        exact pos_eq (by rw [he, Nat.add_mod_right]) (by omega) (by omega)
      · have hne : k ≠ pos := fun he => hp (by rw [← hk, he])
        simp [hne]
  · intro n v hn
    obtain ⟨hlt, hr, hv⟩ := h.delivered n v hn
    exact ⟨hlt, by simpa using hr, hv⟩
  · exact fun n hn hr => h.all n hn (by simpa using hr)

/-- A pop claims `tail`: the slot was filled, and stays so until it is reset. -/
theorem Global.claimPop (h : Global s r)
    (hseq : s.queue.tail + 1 ≤ (s.queue.node s.queue.tail).seq) :
    Global {s with queue := {s.queue with tail := s.queue.tail + 1}}
      (reading s.queue.tail ::ₘ r) := by
  have htwo := h.two_le
  have hle := h.tail_le
  have hlap := h.head_le
  have hlt := h.nonempty hseq
  have hfresh : ∀ c, c = reading s.queue.tail ∨ c = resetting s.queue.tail → c ∉ r := by
    rintro c (rfl | rfl) hm
    · exact absurd (h.popping _ (.inl hm)).1 (Nat.lt_irrefl _)
    · exact absurd (h.popping _ (.inr hm)).1 (Nat.lt_irrefl _)
  have hfilled : Claim.writing s.queue.tail ∉ r := fun hm => by
    have := h.seq_of_writing hm
    omega
  refine ⟨htwo, Multiset.nodup_cons.mpr ⟨hfresh _ (.inl rfl), h.nodup⟩, h.length, hlt, ?_, ?_, ?_,
    ?_, ?_, ?_, h.once, ?_⟩
  · show s.queue.head ≤ s.queue.tail + 1 + s.queue.capicity
    omega
  · intro k hk
    have hk' : Claim.writing k ∈ r := by simpa using hk
    have hne : k ≠ s.queue.tail := fun he => hfilled (he ▸ hk')
    have := h.writing k hk'
    exact ⟨Nat.lt_of_le_of_ne this.1 hne.symm, this.2⟩
  · intro k hk
    show k < s.queue.tail + 1 ∧ s.queue.head ≤ k + s.queue.capicity
    by_cases he : k = s.queue.tail
    · omega
    · have := h.popping k (by simpa [he] using hk)
      omega
  · intro k hk
    by_cases he : k = s.queue.tail
    · simpa [he] using hfresh _ (.inr rfl)
    · simpa using h.exclusive k (by simpa [he] using hk)
  · intro n hn hlt'
    cases h.slot n hn hlt' with
    | free hs hr hu =>
      refine .free hs ?_ fun k hk => ?_
      · show n < s.queue.tail + 1 + s.queue.capicity
        omega
      · have hne : k ≠ s.queue.tail := fun he => by
          change k + s.queue.capicity = n at hk
          omega
        simpa [hne] using hu k hk
    | filled k hk hs hd hp hpend =>
      refine .filled k hk hs hd (by simpa using hp) ?_
      show s.queue.tail + 1 ≤ k ∨ _
      by_cases he : k = s.queue.tail
      · exact .inr (.inl (by simp [he]))
      · rcases hpend with hpend | hpend
        · exact .inl (by omega)
        · exact .inr (hpend.imp Multiset.mem_cons_of_mem Multiset.mem_cons_of_mem)
    | written k hk hs hw => exact .written k hk hs (Multiset.mem_cons_of_mem hw)
  · intro n v hn
    obtain ⟨hlt', hr, hv⟩ := h.delivered n v hn
    have hne : n ≠ s.queue.tail := Nat.ne_of_lt hlt'
    exact ⟨Nat.lt_succ_of_lt hlt', by simpa [hne] using hr, hv⟩
  · intro n hn hr
    change n < s.queue.tail + 1 at hn
    have hne : n ≠ s.queue.tail := fun he => hr (by simp [he])
    exact h.all n (by omega) (fun hm => hr (Multiset.mem_cons_of_mem hm))

/-- A pop reads its slot: what it delivers is what the push of that position wrote. -/
theorem Global.readData {pos : Nat} (h : Global s (reading pos ::ₘ r)) :
    Global {s with delivered := s.delivered ++ [(pos, (s.queue.node pos).data)]}
      (resetting pos ::ₘ r) := by
  have hclaimed := h.popping pos (.inl (Multiset.mem_cons_self _ _))
  have hdata := (h.slot_of_popping (.inl (Multiset.mem_cons_self _ _))).2
  have hfresh : reading pos ∉ r := (Multiset.nodup_cons.mp h.nodup).1
  have hnot : resetting pos ∉ r := by simpa using h.exclusive pos (Multiset.mem_cons_self _ _)
  refine ⟨h.two_le, Multiset.nodup_cons.mpr ⟨hnot, (Multiset.nodup_cons.mp h.nodup).2⟩, h.length,
    h.tail_le, h.head_le, ?_, ?_, ?_, ?_, ?_, ?_, ?_⟩
  · exact fun k hk => h.writing k (by simpa using hk)
  · intro k hk
    by_cases he : k = pos
    · exact he ▸ hclaimed
    · exact h.popping k (by simpa [he] using hk)
  · intro k hk
    have hne : k ≠ pos := fun he => hfresh (by simpa [he] using hk)
    simpa [hne] using h.exclusive k (by simpa [hne] using hk)
  · intro n hn hlt
    have hpend : ∀ k, reading k ∈ reading pos ::ₘ r ∨ resetting k ∈ reading pos ::ₘ r →
        reading k ∈ resetting pos ::ₘ r ∨ resetting k ∈ resetting pos ::ₘ r := by
      intro k hk
      by_cases he : k = pos
      · exact .inr (by simp [he])
      · simpa [he] using hk
    cases h.slot n hn hlt with
    | free hs hr hu =>
      refine .free hs hr fun k hk => ?_
      have hne : k ≠ pos := fun he => (hu k hk).2.1 (by simp [he])
      simpa [hne] using hu k hk
    | filled k hk hs hd hp hpd =>
      exact .filled k hk hs hd (by simpa using hp) (hpd.imp_right (hpend k))
    | written k hk hs hw => exact .written k hk hs (by simpa using hw)
  · intro n v hn
    rcases List.mem_append.mp hn with hn | hn
    · obtain ⟨hlt, hr, hv⟩ := h.delivered n v hn
      exact ⟨hlt, fun hm => hr (Multiset.mem_cons_of_mem (by simpa using hm)), hv⟩
    · obtain ⟨rfl, rfl⟩ := Prod.mk.injEq .. ▸ List.mem_singleton.mp hn
      exact ⟨hclaimed.1, by simpa using hfresh, hdata⟩
  · show ((s.delivered ++ [(pos, (s.queue.node pos).data)]).map Prod.fst).Nodup
    rw [List.map_append, List.map_singleton]
    refine List.nodup_append.mpr ⟨h.once, List.nodup_singleton _, ?_⟩
    rintro a ha b hb rfl
    obtain ⟨⟨n, v⟩, hn, rfl⟩ := List.mem_map.mp ha
    have he : n = pos := List.mem_singleton.mp hb
    exact (h.delivered n v hn).2.1 (by simp [he])
  · intro n hn hr
    show n ∈ (s.delivered ++ [(pos, (s.queue.node pos).data)]).map Prod.fst
    rw [List.map_append, List.mem_append]
    by_cases he : n = pos
    · exact .inr (by simp [he])
    · exact .inl (h.all n hn (by simpa [he] using hr))

/-- A pop hands its slot to the push one lap later. -/
theorem Global.reset {pos : Nat} (h : Global s (resetting pos ::ₘ r)) :
    Global {s with queue :=
      s.queue.setNode pos {s.queue.node pos with seq := pos + s.queue.capicity}} r := by
  have hclaimed := h.popping pos (.inr (Multiset.mem_cons_self _ _))
  have hle := h.tail_le
  have hfresh := (Multiset.nodup_cons.mp h.nodup).1
  refine ⟨h.two_le, (Multiset.nodup_cons.mp h.nodup).2, h.length, h.tail_le, h.head_le, ?_, ?_, ?_,
    ?_, ?_, h.once, ?_⟩
  · exact fun k hk => h.writing k (Multiset.mem_cons_of_mem hk)
  · exact fun k hk => h.popping k (hk.imp Multiset.mem_cons_of_mem Multiset.mem_cons_of_mem)
  · exact fun k hk hm =>
      h.exclusive k (Multiset.mem_cons_of_mem hk) (Multiset.mem_cons_of_mem hm)
  · intro n hn hlt
    change s.queue.head ≤ n at hn
    change n < s.queue.head + s.queue.capicity at hlt
    by_cases hp : n = pos + s.queue.capicity
    · have hself : (s.queue.setNode pos
          {s.queue.node pos with seq := pos + s.queue.capicity}).node n =
          {s.queue.node pos with seq := pos + s.queue.capicity} := by
        rw [setNode_node, if_pos (by rw [hp, Nat.add_mod_right])]
      refine .free ((congrArg Node.seq hself).trans hp.symm) ?_ fun k hk => ?_
      · show n < s.queue.tail + s.queue.capicity
        omega
      · change k + s.queue.capicity = n at hk
        obtain rfl : k = pos := by omega
        refine ⟨fun hm => ?_, fun hm => ?_, hfresh⟩
        · have := (h.writing k (Multiset.mem_cons_of_mem hm)).1
          omega
        · exact h.exclusive k (Multiset.mem_cons_of_mem hm) (Multiset.mem_cons_self _ _)
    · refine (h.slot n hn hlt).setNode _ ?_ fun k hk => ?_
      · rw [setNode_node, if_neg fun he => hp ?_]
        exact pos_eq (by rw [he, Nat.add_mod_right]) (by omega) (by omega)
      · have hne : k ≠ pos := fun he => hp (by rw [← hk, he])
        simp [hne]
  · intro n v hn
    obtain ⟨hlt, hr, hv⟩ := h.delivered n v hn
    exact ⟨hlt, by simpa using hr, hv⟩
  · exact fun n hn hr => h.all n hn (by simpa using hr)

end Accesses

/-! ### Every interleaving -/

theorem claims_call (l : Pc α) (c : Choice α) (h : claims l = 0) : claims (call l c) = 0 := by
  cases c with
  | push | pop => rfl
  | go | spurious => exact h

theorem knows_call (s : State α) (l : Pc α) (c : Choice α) (h : Knows s l) : Knows s (call l c) := by
  cases c with
  | push | pop => trivial
  | go | spurious => exact h

/-- One access keeps the accounts and leaves its call knowing what it needs next. -/
theorem access_own {s s' : State α} {l l' : Pc α} {r : Multiset Claim} (hk : Knows s l)
    (hs : Access s l s' l') (h : Global s (claims l + r)) :
    Global s' (claims l' + r) ∧ Knows s' l' := by
  obtain ⟨c, hs⟩ := hs
  have htwo := h.two_le
  cases l with
  | ready | pushReturn succ | popReturn value =>
    obtain ⟨rfl, rfl⟩ := Prod.mk.inj hs
    exact ⟨by rwa [claims_call _ c rfl], knows_call _ _ c trivial⟩
  | pushLoadHead value | popLoadTail =>
    obtain ⟨rfl, rfl⟩ := Prod.mk.inj hs
    exact ⟨h, Nat.le_refl _⟩
  | pushLoadSeq value pos =>
    simp only [step] at hs
    split at hs
    · obtain ⟨rfl, rfl⟩ := Prod.mk.inj hs
      exact ⟨h, show pos ≤ (s.queue.node pos).seq by omega⟩
    · split at hs <;> (obtain ⟨rfl, rfl⟩ := Prod.mk.inj hs; exact ⟨h, trivial⟩)
  | popLoadSeq pos =>
    simp only [step] at hs
    split at hs
    · obtain ⟨rfl, rfl⟩ := Prod.mk.inj hs
      exact ⟨h, show pos + 1 ≤ (s.queue.node pos).seq by omega⟩
    · split at hs <;> (obtain ⟨rfl, rfl⟩ := Prod.mk.inj hs; exact ⟨h, trivial⟩)
  | pushCas value pos =>
    simp only [step] at hs
    split at hs
    case isTrue hcas =>
      obtain ⟨rfl, -⟩ := hcas
      obtain ⟨rfl, rfl⟩ := Prod.mk.inj hs
      simp only [claims, zero_add] at h
      refine ⟨by simpa only [claims, Multiset.singleton_add] using h.claimPush value hk, ?_⟩
      show (s.pushed ++ [value])[s.queue.head]? = some value
      rw [← h.length, List.getElem?_concat_length]
    case isFalse =>
      obtain ⟨rfl, rfl⟩ := Prod.mk.inj hs
      exact ⟨h, Nat.le_refl _⟩
  | popCas pos =>
    simp only [step] at hs
    split at hs
    case isTrue hcas =>
      obtain ⟨rfl, -⟩ := hcas
      obtain ⟨rfl, rfl⟩ := Prod.mk.inj hs
      simp only [claims, zero_add] at h
      exact ⟨by simpa only [claims, Multiset.singleton_add] using h.claimPop hk, trivial⟩
    case isFalse =>
      obtain ⟨rfl, rfl⟩ := Prod.mk.inj hs
      exact ⟨h, Nat.le_refl _⟩
  | pushWriteData value pos =>
    obtain ⟨rfl, rfl⟩ := Prod.mk.inj hs
    simp only [claims, Multiset.singleton_add] at h ⊢
    refine ⟨h.writeData value, ?_⟩
    show s.pushed[pos]? = some ((s.queue.setNode pos _).node pos).data
    rw [setNode_node_self]
    exact hk
  | pushStoreSeq pos =>
    obtain ⟨rfl, rfl⟩ := Prod.mk.inj hs
    simp only [claims, Multiset.singleton_add, zero_add] at h ⊢
    exact ⟨h.publish hk, trivial⟩
  | popReadData pos =>
    obtain ⟨rfl, rfl⟩ := Prod.mk.inj hs
    simp only [claims, Multiset.singleton_add] at h ⊢
    exact ⟨h.readData, List.mem_append_right _ (List.mem_singleton.mpr rfl)⟩
  | popStoreSeq pos value =>
    obtain ⟨rfl, rfl⟩ := Prod.mk.inj hs
    simp only [claims, Multiset.singleton_add, zero_add] at h ⊢
    exact ⟨h.reset, trivial⟩

/-- What an access changes, as seen by the other calls: positions and sequence
numbers only grow, the history is only extended, and data is written under a claim. -/
structure Later (s s' : State α) (l : Pc α) : Prop where
  head : s.queue.head ≤ s'.queue.head
  tail : s.queue.tail ≤ s'.queue.tail
  seq : ∀ pos, (s.queue.node pos).seq ≤ (s'.queue.node pos).seq
  pushed : ∃ xs, s'.pushed = s.pushed ++ xs
  delivered : ∃ xs, s'.delivered = s.delivered ++ xs
  data : ∀ pos, (∀ k, Claim.writing k ∈ claims l → k % s.queue.capicity ≠ pos % s.queue.capicity) →
    (s'.queue.node pos).data = (s.queue.node pos).data

theorem Later.refl (s : State α) (l : Pc α) : Later s s l :=
  ⟨Nat.le_refl _, Nat.le_refl _, fun _ => Nat.le_refl _, ⟨[], by simp⟩, ⟨[], by simp⟩,
    fun _ _ => rfl⟩

/-- Only the sequence number of one slot has grown. -/
theorem later_setSeq (s : State α) (l : Pc α) {pos seq : Nat} (h : (s.queue.node pos).seq ≤ seq) :
    Later s {s with queue := s.queue.setNode pos {s.queue.node pos with seq := seq}} l := by
  have hnode : ∀ p, (s.queue.setNode pos {s.queue.node pos with seq := seq}).node p =
      if p % s.queue.capicity = pos % s.queue.capicity then {s.queue.node pos with seq := seq}
      else s.queue.node p := fun p => setNode_node _ _ _ _
  have hsame : ∀ p, p % s.queue.capicity = pos % s.queue.capicity →
      s.queue.node p = s.queue.node pos := fun p hp => by simp only [node, hp]
  refine ⟨Nat.le_refl _, Nat.le_refl _, fun p => ?_, ⟨[], by simp⟩, ⟨[], by simp⟩, fun p _ => ?_⟩
  · show _ ≤ ((s.queue.setNode pos _).node p).seq
    rw [hnode]
    split
    · next hp => rw [hsame p hp]; exact h
    · exact Nat.le_refl _
  · show ((s.queue.setNode pos _).node p).data = _
    rw [hnode]
    split
    · next hp => rw [hsame p hp]
    · rfl

theorem access_later {s s' : State α} {l l' : Pc α} {r : Multiset Claim} (hs : Access s l s' l')
    (h : Global s (claims l + r)) : Later s s' l := by
  obtain ⟨c, hs⟩ := hs
  cases l with
  | ready | pushReturn | popReturn | pushLoadHead | popLoadTail =>
    obtain ⟨rfl, rfl⟩ := Prod.mk.inj hs
    exact Later.refl _ _
  | pushLoadSeq | popLoadSeq =>
    simp only [step] at hs
    split at hs
    · obtain ⟨rfl, rfl⟩ := Prod.mk.inj hs
      exact Later.refl _ _
    · split at hs <;> (obtain ⟨rfl, rfl⟩ := Prod.mk.inj hs; exact Later.refl _ _)
  | pushCas value pos =>
    simp only [step] at hs
    split at hs <;> obtain ⟨rfl, rfl⟩ := Prod.mk.inj hs
    · rename_i hcas
      exact ⟨hcas.1 ▸ Nat.le_succ _, Nat.le_refl _, fun _ => Nat.le_refl _, ⟨[value], rfl⟩,
        ⟨[], by simp⟩, fun _ _ => rfl⟩
    · exact Later.refl _ _
  | popCas pos =>
    simp only [step] at hs
    split at hs <;> obtain ⟨rfl, rfl⟩ := Prod.mk.inj hs
    · rename_i hcas
      exact ⟨Nat.le_refl _, hcas.1 ▸ Nat.le_succ _, fun _ => Nat.le_refl _, ⟨[], by simp⟩, ⟨[], by simp⟩,
        fun _ _ => rfl⟩
    · exact Later.refl _ _
  | pushWriteData value pos =>
    obtain ⟨rfl, rfl⟩ := Prod.mk.inj hs
    refine ⟨Nat.le_refl _, Nat.le_refl _, fun p => ?_, ⟨[], by simp⟩, ⟨[], by simp⟩,
      fun p hp => ?_⟩
    · show _ ≤ ((s.queue.setNode pos _).node p).seq
      rw [setNode_node]
      split
      · next he => simp only [node, he]; exact Nat.le_refl _
      · exact Nat.le_refl _
    · show ((s.queue.setNode pos _).node p).data = _
      rw [setNode_node, if_neg fun he => hp pos (by simp [claims]) he.symm]
  | pushStoreSeq pos =>
    obtain ⟨rfl, rfl⟩ := Prod.mk.inj hs
    have hseq := h.seq_of_writing (k := pos) (by simp [claims])
    exact later_setSeq s _ (by omega)
  | popReadData pos =>
    obtain ⟨rfl, rfl⟩ := Prod.mk.inj hs
    exact ⟨Nat.le_refl _, Nat.le_refl _, fun _ => Nat.le_refl _, ⟨[], by simp⟩, ⟨_, rfl⟩,
      fun _ _ => rfl⟩
  | popStoreSeq pos value =>
    obtain ⟨rfl, rfl⟩ := Prod.mk.inj hs
    have hseq := (h.slot_of_popping (k := pos) (by simp [claims])).1
    have htwo := h.two_le
    exact later_setSeq s _ (by omega)

/-- No access of one call makes another forget. -/
theorem access_other {s s' : State α} {l l' m : Pc α} {r : Multiset Claim} (hm : Knows s m)
    (hs : Access s l s' l') (h : Global s (claims l + (claims m + r))) : Knows s' m := by
  have hlater := access_later hs h
  obtain ⟨xs, hxs⟩ := hlater.pushed
  have hpushed : ∀ {k : Nat} {v : α}, s.pushed[k]? = some v → s'.pushed[k]? = some v := by
    intro k v hv
    rw [hxs, List.getElem?_append_left (List.getElem?_eq_some_iff.mp hv).1]
    exact hv
  cases m with
  | pushLoadSeq value pos => exact Nat.le_trans hm hlater.head
  | popLoadSeq pos => exact Nat.le_trans hm hlater.tail
  | pushCas value pos => exact Nat.le_trans hm (hlater.seq pos)
  | popCas pos => exact Nat.le_trans hm (hlater.seq pos)
  | pushWriteData value pos => exact hpushed hm
  | pushStoreSeq pos =>
    show s'.pushed[pos]? = some (s'.queue.node pos).data
    rw [hlater.data pos ?_]
    · exact hpushed hm
    · -- two claimed positions of one slot would be one position claimed twice
      intro k hk he
      have hkr := h.writing k (Multiset.mem_add.mpr (.inl hk))
      have hpr := h.writing pos (by simp [claims])
      have hlap := h.head_le
      obtain rfl : k = pos := pos_eq he (by omega) (by omega)
      exact Multiset.disjoint_left.mp (Multiset.nodup_add.mp h.nodup).2.2 hk (by simp [claims])
  | popStoreSeq pos value =>
    obtain ⟨ys, hys⟩ := hlater.delivered
    show (pos, value) ∈ s'.delivered
    rw [hys]
    exact List.mem_append_left _ hm
  | _ => trivial

theorem start_global [Inhabited α] (ι : Type) {capicity : Nat} (h : 2 ≤ capicity) :
    Global (start (α := α) ι capicity).shared 0 := by
  refine ⟨h, Multiset.nodup_zero, rfl, Nat.le_refl _, Nat.zero_le _, ?_, ?_, ?_, ?_, ?_,
    List.nodup_nil, ?_⟩
  · simp
  · simp
  · simp
  · intro n _ hn
    have hn' : n < capicity := by simpa [start, make] using hn
    refine .free ?_ (by simpa [start, make] using hn') (by simp)
    show n % capicity = n
    exact Nat.mod_eq_of_lt hn'
  · simp [start]
  · intro n hn
    exact absurd hn (Nat.not_lt_zero n)

/-- The accounts of every reachable configuration. -/
theorem accounts {ι : Type} [Fintype ι] [DecidableEq ι] [Inhabited α] {capicity : Nat}
    (h : 2 ≤ capicity) {c : Config (State α) (Pc α) ι}
    (hr : Reaches Access anyStep (start ι capicity) c) : Accounting claims Global Knows c := by
  refine Accounting.reaches ?_ ?_ ?_ hr
  · exact fun c t s' l' _ hk hs hg => access_own hk hs hg
  · exact fun s l s' l' m r _ hm hs hg => access_other hm hs hg
  · refine ⟨?_, fun _ => trivial⟩
    have htotal : total claims (start (α := α) ι capicity) = 0 := by
      simp [total, start, claims]
    rw [htotal]
    exact start_global ι h

/-! ### The queue as a FIFO -/

/-- What the queue is for. Position `n` belongs to the push that claimed it,
whose value is `pushed[n]`, and to the pop that claims it. -/
structure Fifo {ι : Type} (capicity : Nat) (c : Config (State α) (Pc α) ι) : Prop where
  bounded : (0 : Int) ≤ (c.shared.queue.head : Int) - c.shared.queue.tail ∧
    (c.shared.queue.head : Int) - c.shared.queue.tail ≤ capicity
  /-- A slot is written only after every earlier value in it has been read. -/
  undisturbed : ∀ t value pos, c.threads t = .pushWriteData value pos → ∀ n, n < pos →
    n % capicity = pos % capicity → n ∈ c.shared.delivered.map Prod.fst
  /-- Each position below `head` was claimed by one push, the one that writes its value. -/
  claimed : c.shared.pushed.length = c.shared.queue.head
  written : ∀ t value pos, c.threads t = .pushWriteData value pos →
    c.shared.pushed[pos]? = some value
  exclusive : ∀ t u, t ≠ u → ∀ k ∈ claims (c.threads t), k ∉ claims (c.threads u)
  /-- Each position below `tail` has been delivered once or is about to be. -/
  popped : ∀ n, n < c.shared.queue.tail ↔
    n ∈ c.shared.delivered.map Prod.fst ∨ ∃ t, c.threads t = .popReadData n
  once : (c.shared.delivered.map Prod.fst).Nodup
  delivered : ∀ n value, (n, value) ∈ c.shared.delivered → c.shared.pushed[n]? = some value
  returned : ∀ t pos value, c.threads t = .popStoreSeq pos value →
    (pos, value) ∈ c.shared.delivered
  /-- A value pushed and not yet claimed by a pop is in its slot. -/
  kept : ∀ n, c.shared.queue.tail ≤ n → n < c.shared.queue.head →
    (∃ t, writing n ∈ claims (c.threads t)) ∨
      (c.shared.queue.node n).seq = n + 1 ∧
        c.shared.pushed[n]? = some (c.shared.queue.node n).data
  /-- Below 2^62 operations no position, sequence number or next lap leaves `int64_t`. -/
  fits : c.shared.pushed.length < 2 ^ 62 → capicity ≤ 2 ^ 62 →
    c.shared.queue.tail + capicity < 2 ^ 63 ∧ c.shared.queue.head + 1 < 2 ^ 63 ∧
      ∀ pos, (c.shared.queue.node pos).seq < 2 ^ 63

theorem mem_total {ι : Type} [Fintype ι] [DecidableEq ι] {c : Config (State α) (Pc α) ι}
    {k : Claim} : k ∈ total claims c ↔ ∃ t, k ∈ claims (c.threads t) := by
  simp [total, Multiset.mem_sum]

theorem reading_mem {l : Pc α} {n : Nat} : reading n ∈ claims l ↔ l = .popReadData n := by
  cases l <;> simp [claims, eq_comm]

/-- Every slot's sequence number is that of some position of the window. -/
theorem Global.seq_lt {s : State α} {m : Multiset Claim} (h : Global s m) (pos : Nat) :
    (s.queue.node pos).seq < s.queue.head + s.queue.capicity := by
  have hcap := h.two_le
  obtain ⟨n, hn, hlt, hmod⟩ := exists_window (show 0 < s.queue.capicity by omega) s.queue.head pos
  have hnode : s.queue.node pos = s.queue.node n := by simp only [node, hmod]
  rw [hnode]
  cases h.slot n hn hlt with
  | free hs _ _ => omega
  | filled k hk hs _ _ _ => omega
  | written k hk hs _ => omega

theorem node_capicity_step {s s' : State α} {l l' : Pc α} (hs : Access s l s' l') :
    s'.queue.capicity = s.queue.capicity := by
  obtain ⟨c, hs⟩ := hs
  cases l <;> simp only [step] at hs <;> (try split at hs) <;> (try split at hs) <;>
    (obtain ⟨rfl, -⟩ := Prod.mk.inj hs; rfl)

theorem capicity_reaches {ι : Type} [DecidableEq ι] [Inhabited α] {capicity : Nat}
    {c : Config (State α) (Pc α) ι} (hr : Reaches Access anyStep (start ι capicity) c) :
    c.shared.queue.capicity = capicity :=
  hr.invariant (P := fun c => c.shared.queue.capicity = capicity)
    (fun _ _ _ _ h _ hs => (node_capicity_step hs).trans h) rfl

/-- **Whatever the interleaving, the queue is a bounded FIFO**: every pop
delivers what the push of its position wrote, each position once. -/
theorem reaches_fifo {ι : Type} [Fintype ι] [DecidableEq ι] [Inhabited α] {capicity : Nat}
    (h : 2 ≤ capicity) {c : Config (State α) (Pc α) ι}
    (hr : Reaches Access anyStep (start ι capicity) c) : Fifo capicity c := by
  have hcap := capicity_reaches hr
  have hacc := accounts h hr
  have hg := hacc.glob
  have hlap := hg.head_le
  have hle := hg.tail_le
  rw [hcap] at hlap
  refine ⟨by omega, ?_, hg.length, ?_, ?_, ?_, hg.once, ?_, ?_, ?_, ?_⟩
  · intro t value pos ht n hn hmod
    have hw : writing pos ∈ total claims c := mem_total.mpr ⟨t, by simp [ht, claims]⟩
    have hpos := hg.writing pos hw
    have hfar : n + capicity ≤ pos := by
      by_contra hnear
      exact absurd (pos_eq hmod (by omega) (by omega)) (Nat.ne_of_lt hn)
    refine hg.all n (by omega) fun hr => ?_
    have := (hg.popping n (.inl hr)).2
    rw [hcap] at this
    omega
  · intro t value pos ht
    have := hacc.loc t
    rw [ht] at this
    exact this
  · intro t u hne k ht hu
    have hn := hg.nodup
    rw [total_eq claims c t] at hn
    obtain ⟨r, hr⟩ := others_eq claims c hne.symm
    rw [hr] at hn
    exact Multiset.disjoint_left.mp (Multiset.nodup_add.mp hn).2.2 ht (Multiset.mem_add.mpr (.inl hu))
  · intro n
    constructor
    · intro hn
      by_cases hread : reading n ∈ total claims c
      · obtain ⟨t, ht⟩ := mem_total.mp hread
        exact .inr ⟨t, reading_mem.mp ht⟩
      · exact .inl (hg.all n hn hread)
    · rintro (hn | ⟨t, ht⟩)
      · obtain ⟨⟨k, v⟩, hk, rfl⟩ := List.mem_map.mp hn
        exact (hg.delivered k v hk).1
      · exact (hg.popping n (.inl (mem_total.mpr ⟨t, reading_mem.mpr ht⟩))).1
  · exact fun n value hn => (hg.delivered n value hn).2.2
  · intro t pos value ht
    have := hacc.loc t
    rw [ht] at this
    exact this
  · intro n htail hhead
    by_cases hw : writing n ∈ total claims c
    · exact .inl (mem_total.mp hw)
    · refine .inr ?_
      cases hg.slot_of_lap hhead (by rw [hcap]; omega) with
      | free _ hroom _ => omega
      | filled k hk hs hd _ _ =>
        obtain rfl : k = n := by omega
        rw [node_add_capicity] at hs hd
        exact ⟨hs, hd⟩
      | written k hk _ hw' => exact absurd ((show k = n by omega) ▸ hw') hw
  · intro hops hbig
    rw [hg.length] at hops
    refine ⟨by omega, by omega, fun pos => ?_⟩
    have := hg.seq_lt pos
    rw [hcap] at this
    omega

end HyperCache.Util.Queue
