import HyperCache.Clock.Tokens

/-! The reference protocol of the clock cache under any number of threads.

The tie of words and tokens breaks in two ways, and the conditions exclude these: the
exchange of `FinishSlotInsert` or `MarkEmpty` drops a reference that an `Erase` still
undoes (`Undisturbed`), and `HitIncr` leaves its field (`Fitting`). Then in every run
the reference field is exact, a slot marked empty is not visible until it is published
again, and no data is freed under a handle (`reaches_protocol`). A hit count that runs
over into the hit bit above it does no harm to the tie, where the references left on
slots stay that much smaller (`HitsFit`). -/
namespace HyperCache.Clock
open Interleaving ClockCache

/-- The access of `HitIncr`, if it is one, stays within the hit field. -/
def Fitting (m : Memory) : Pc → Prop
  | .lookup _ current .hit => hitCount (m.metaWord current.toNat) + 1 < 2 ^ 30
  | .lookup _ current (.hitSub overflow) => overflow ≤ hitCount (m.metaWord current.toNat)
  | _ => True

section Runs
variable {ι : Type} [Fintype ι]

abbrev ClockConfig (ι : Type) := Config Memory Pc ι

/-- The references held on slot `i`: handles not yet released, and increments that a
running call must still undo or return. -/
def references (c : ClockConfig ι) (i : Nat) : Nat :=
  c.shared.handles.count i + ∑ t, (c.threads t).pending i

/-- Fewer than 2^30 references on a slot at a time. -/
def Few (c : ClockConfig ι) (t : ι) : Prop :=
  ∀ i ∈ (c.threads t).taking, references c i + 1 < 2 ^ 30

/-- The reference that the next access may leave on a slot without an entry does not
carry into its state. -/
def Uncarried (c : ClockConfig ι) (t : ι) : Prop :=
  ∀ i ∈ (c.threads t).taking,
    c.shared.left i + ∑ u, (c.threads u).tokens.count (.stray i) + 1 < 2 ^ 61

/-- No word is overwritten while an `Erase` is still to undo a reference it took on
that slot when it held no entry. -/
def Undisturbed (c : ClockConfig ι) (t : ι) : Prop :=
  ∀ i ∈ (c.threads t).overwriting, ∀ u, .stray i ∉ (c.threads u).tokens

/-- The steps that keep the protocol. -/
structure Orderly (c : ClockConfig ι) (t : ι) : Prop where
  few : Few c t
  uncarried : Uncarried c t
  undisturbed : Undisturbed c t
  fitting : Fitting c.shared (c.threads t)

/-- What the protocol promises of a state. -/
structure Protocol (c : ClockConfig ι) : Prop where
  counted : ∀ i, i < c.shared.cache.length.toNat →
    state (c.shared.metaWord i) = kStateVisible ∨ state (c.shared.metaWord i) = kStateInvisible →
    refCount (c.shared.metaWord i) = references c i
  published : ∀ i, i < c.shared.cache.length.toNat →
    state (c.shared.metaWord i) = kStateVisible → c.shared.published i = true
  unread : ∀ t, ∀ i ∈ (c.threads t).freeing, c.shared.handles.count i = 0

end Runs

/-! ### Positions -/

/-- What a position knows: its slots are in the table, and the words it read. -/
def Knows (n : Nat) : Pc → Prop
  | .lookup _ current slot => current.toNat < n ∧ ∀ overflow, slot = .hitSub overflow → 0 < overflow
  | .release h => h < n
  | .chargeCas f | .evictPointer f | .evictDelta f | .evictLoad f | .evictNext f | .evictStore f =>
    0 ≤ f.hitDecrDelta
  | .evictLower f metaWord =>
    0 ≤ f.hitDecrDelta ∧ state metaWord = kStateVisible ∧ refCount metaWord = 0
  | .evictTake f metaWord => 0 ≤ f.hitDecrDelta ∧
    (state metaWord = kStateVisible ∨ state metaWord = kStateInvisible) ∧ refCount metaWord = 0
  | .evictOwn f h | .evictRollback f h _ _ | .evictFree f h | .evictMark f h =>
    0 ≤ f.hitDecrDelta ∧ h.toNat < n
  | .insertOr _ current | .insertWrite _ current | .insertPublish _ current | .insertRef _ current
  | .insertKey _ current | .insertUndo _ current _ => current.toNat < n
  | .eraseRef _ current | .eraseKey _ current | .eraseAnd _ current | .eraseOwn _ current
  | .eraseFree _ current _ | .eraseMark _ current _ | .eraseUndo _ current
  | .eraseUndoNone _ current => current.toNat < n
  | .eraseCas _ current oldMeta => current.toNat < n ∧ refCount oldMeta ≤ 1
  | _ => True

/-- A position without tokens. -/
structure Clear (n : Nat) (pc : Pc) : Prop where
  tokens : pc.tokens = 0
  knows : Knows n pc

section Local
variable {n : Nat} {c : ClockCache} (hlen : c.length.toNat = n) (hn : 0 < n)
include hlen hn

theorem modLength_lt (x : UInt64) : (c.modLength x).toNat < n := by
  rw [modLength, UInt64.toNat_mod, hlen]
  exact Nat.mod_lt _ hn

theorem firstSlot_lt (k : UniqueId64x2) : (firstSlot c k).toNat < n := modLength_lt hlen hn _

theorem nextSlot_lt (k : UniqueId64x2) (current : UInt64) : (nextSlot c k current).toNat < n :=
  modLength_lt hlen hn _

theorem clear_lookupNext (k : UniqueId64x2) (current : UInt64) : Clear n (lookupNext c k current) := by
  rw [lookupNext]
  split
  · exact ⟨rfl, trivial⟩
  · exact ⟨rfl, nextSlot_lt hlen hn _ _, fun _ ho => by cases ho⟩

theorem clear_eraseEnd (f : EraseFrame) : Clear n (eraseEnd c f) := by
  rw [eraseEnd]
  split
  · exact ⟨rfl, trivial⟩
  · split
    · exact ⟨rfl, firstSlot_lt hlen hn _⟩
    · exact ⟨rfl, trivial⟩

theorem clear_eraseNext (f : EraseFrame) (current : UInt64) : Clear n (eraseNext c f current) := by
  rw [eraseNext]
  split
  · exact clear_eraseEnd hlen hn f
  · exact ⟨rfl, nextSlot_lt hlen hn _ _⟩

omit hlen hn in
theorem clear_eraseRollbackAt (f : EraseFrame) (h current : UInt64) :
    Clear n (eraseRollbackAt f h current) := by
  rw [eraseRollbackAt]
  split <;> exact ⟨rfl, trivial⟩

theorem clear_insertEnd (f : InsertFrame) (alreadyMatches : Bool) :
    Clear n (insertEnd c f alreadyMatches) := by
  rw [insertEnd]
  split
  · exact ⟨rfl, firstSlot_lt hlen hn _⟩
  · exact ⟨rfl, trivial⟩

theorem clear_insertRollbackAt (f : InsertFrame) (h current : UInt64) (alreadyMatches : Bool) :
    Clear n (insertRollbackAt c f h current alreadyMatches) := by
  rw [insertRollbackAt]
  split
  · exact clear_insertEnd hlen hn f alreadyMatches
  · exact ⟨rfl, trivial⟩

theorem clear_insertNext (f : InsertFrame) (current : UInt64) (alreadyMatches : Bool) :
    Clear n (insertNext c f current alreadyMatches) := by
  unfold insertNext
  simp only
  split
  · exact clear_insertRollbackAt hlen hn ..
  · split
    · exact clear_insertRollbackAt hlen hn ..
    · exact ⟨rfl, trivial⟩

theorem clear_insertStart (handle : Handle) : Clear n (insertStart c handle) :=
  ⟨rfl, firstSlot_lt hlen hn _⟩

theorem clear_chargeDone {f : EvictFrame} (hf : 0 ≤ f.hitDecrDelta) : Clear n (chargeDone c f) := by
  rw [chargeDone]
  split
  · exact ⟨rfl, hf⟩
  · exact clear_insertStart hlen hn f.handle

theorem clear_chargeTry (handle : Handle) (needEvictForOccupancy : Bool) (oldUsage : UInt64) :
    Clear n (chargeTry c handle needEvictForOccupancy oldUsage) := by
  have hdelta : (0 : Int) ≤ 1 := by decide
  unfold chargeTry
  simp only
  split
  · exact clear_chargeDone hlen hn hdelta
  · exact ⟨rfl, hdelta⟩

omit hlen hn in
theorem clear_evictSlotDone {f : EvictFrame} (hf : 0 ≤ f.hitDecrDelta) :
    Clear n (evictSlotDone f) := by
  unfold evictSlotDone
  split
  · exact ⟨rfl, hf⟩
  · split
    · exact ⟨rfl, hf⟩
    · split
      · exact ⟨rfl, hf⟩
      · split <;> exact ⟨rfl, hf⟩

omit hlen hn in
theorem clear_evictTest {f : EvictFrame} (hf : 0 ≤ f.hitDecrDelta) {w : UInt64}
    (hw : state w &&& kStateShareableBit ≠ 0 → state w = kStateVisible ∨ state w = kStateInvisible) :
    Clear n (evictTest f w) := by
  unfold evictTest
  split
  · exact clear_evictSlotDone hf
  · next hs =>
    split
    · exact clear_evictSlotDone hf
    · next hr =>
      have hzero : refCount w = 0 := by
        have hnonneg : 0 ≤ refCount w := Int.natCast_nonneg _
        omega
      split
      · next hv => exact ⟨rfl, hf, hv.1, hzero⟩
      · exact ⟨rfl, hf, hw hs, hzero⟩

theorem clear_settleTest (f : EvictFrame) : Clear n (settleTest c f) := by
  rw [settleTest]
  split
  · exact ⟨rfl, trivial⟩
  · split
    · exact ⟨rfl, trivial⟩
    · exact clear_insertStart hlen hn f.handle

end Local

/-! ### Steps -/

/-- What a step must keep, with the tokens `o` of the other threads. -/
def Holds (carry : Bool) (n : Nat) (o : Multiset Token) (r : Memory × Pc) : Prop :=
  Protected carry n r.1 (r.2.tokens + o) ∧ Knows n r.2

/-- Room for one more reference on slot `i`. -/
def Room (carry : Bool) (m : Memory) (M : Multiset Token) (i : Nat) : Prop :=
  (held m M i).refs + (held m M i).strays + 1 < 2 ^ 30 ∧
    2 ^ 60 * carry.toNat + (held m M i).left + (held m M i).strays + 1 < 2 ^ 61

/-- `Fitting`, but for a hit count that may carry into the hit bit. -/
def HitsFit (carry : Bool) (m : Memory) : Pc → Prop
  | .lookup _ current .hit => HitFits carry (m.metaWord current.toNat)
  | .lookup _ current (.hitSub overflow) => overflow ≤ hitCount (m.metaWord current.toNat)
  | _ => True

theorem Fitting.hitsFit {m : Memory} {pc : Pc} (h : Fitting m pc) : HitsFit false m pc := by
  unfold HitsFit
  split
  · exact .inl h
  · exact h
  · trivial

section Steps
variable {carry : Bool} {n : Nat} {m : Memory} {o : Multiset Token} {choice : Choice}

theorem Clear.holds {pc : Pc} (hc : Clear n pc) (h : Protected carry n m (0 + o)) : Holds carry n o (m, pc) := by
  refine ⟨?_, hc.knows⟩
  rw [hc.tokens]
  exact h

/-- A word is loaded from the table. -/
theorem Protected.shareable {M : Multiset Token} (h : Protected carry n m M) {i : Nat} (hi : i < n)
    (hs : state (m.metaWord i) &&& kStateShareableBit ≠ 0) :
    state (m.metaWord i) = kStateVisible ∨ state (m.metaWord i) = kStateInvisible := by
  rcases (h.slots i hi).agrees with ⟨st, bit, hits, he⟩ | ⟨st, bit, hb⟩
  · have hstate : state (m.metaWord i) = UInt64.ofNat st := (h.slots i hi).state_entry he
    rcases he.shared with rfl | ⟨rfl, -⟩
    · exact .inr hstate
    · exact .inl hstate
  · have hstate : state (m.metaWord i) = UInt64.ofNat st := (h.slots i hi).state_bare hb
    rw [hstate] at hs
    rcases hb.owned with ⟨rfl, -⟩ | ⟨rfl, -⟩ <;> exact absurd (by decide) hs

theorem lookup_holds {k : UniqueId64x2} {current : UInt64} {slot : SlotPc}
    (h : Protected carry n m ((Pc.lookup k current slot).tokens + o))
    (hk : Knows n (.lookup k current slot))
    (hroom : slot = .ref → Room carry m (0 + o) current.toNat)
    (hfit : HitsFit carry m (.lookup k current slot)) : Holds carry n o (step choice m (.lookup k current slot)) := by
  have hi := hk.1
  cases slot with
  | ref =>
    obtain ⟨hfew, hbare⟩ := hroom rfl
    simp only [step_lookupRef]
    split
    · next hv => exact ⟨h.take hi (.inl hv) hfew, hi, fun _ ho => by cases ho⟩
    · next hv =>
      split
      · next hinv => exact ⟨h.take hi (.inr hinv) hfew, hi, fun _ ho => by cases ho⟩
      · next hinv => exact ⟨h.leave hi hv hinv hbare, trivial⟩
  | key =>
    have hsame : m.setSlot current.toNat (m.cache.slot current.toNat) = m := by
      rw [Memory.setSlot, setSlot_slot m.cache (by rw [h.size]; exact hi)]
    simp only [step, lookupAccess, hsame]
    split
    · exact ⟨h, hi, fun _ ho => by cases ho⟩
    · exact ⟨h, hi, fun _ ho => by cases ho⟩
  | hit =>
    have hhit := h.hit hi hfit
    simp only [step_lookupHit]
    split
    · next hpos =>
      refine ⟨hhit, hi, fun overflow ho => ?_⟩
      cases ho
      exact hpos
    · exact ⟨hhit.giveHandle hi, trivial⟩
  | hitSub overflow => exact ⟨(h.hitSub hi (hk.2 _ rfl) hfit).giveHandle hi, trivial⟩
  | undo => exact ⟨h.drop hi, trivial⟩

/-- A thread outside any call. -/
theorem call_holds {pc : Pc} (hpc : pc.tokens = 0) (hknows : Knows n pc) (h : Protected carry n m (0 + o)) :
    Holds carry n o (callStep m pc choice) := by
  have hstay : Holds carry n o (m, pc) := Clear.holds ⟨hpc, hknows⟩ h
  cases choice with
  | lookup k => exact ⟨h, firstSlot_lt h.length h.pos k, fun _ ho => by cases ho⟩
  | release i =>
    rw [callStep]
    split
    · next hm => exact ⟨h.takeHandle hm, h.handles i hm⟩
    · exact hstay
  | insert handle => exact ⟨h, trivial⟩
  | erase k => exact ⟨h, firstSlot_lt h.length h.pos k⟩
  | go => exact hstay
  | spurious => exact hstay

/-- An access to the counters only. -/
theorem Protected.counters {M : Multiset Token} (h : Protected carry n m M) {c : ClockCache}
    (hlength : c.length = m.cache.length) (harray : c.array = m.cache.array)
    (hdelta : 0 ≤ c.hitDecrDelta) : Protected carry n {m with cache := c} M :=
  h.same hlength (congrArg List.length harray) hdelta rfl
    (fun j => by rw [Memory.metaWord, Memory.metaWord, slot, slot, harray]) rfl rfl

theorem word_setSlot {i : Nat} {s : HandleImpl} (h : s.metaWord = m.metaWord i) (j : Nat) :
    (m.setSlot i s).metaWord j = m.metaWord j := by
  show ((m.cache.setSlot i s).slot j).metaWord = _
  by_cases hi : i < m.cache.array.length
  · rw [slot_setSlot m.cache j s hi]
    split
    · next hj => rw [h, hj]
    · rfl
  · rw [ClockCache.setSlot, List.set_eq_of_length_le (Nat.le_of_not_lt hi)]
    rfl

/-- An access to the data of a slot, its word apart. -/
theorem Protected.data {M : Multiset Token} (h : Protected carry n m M) (i : Nat) {s : HandleImpl}
    (hs : s.metaWord = m.metaWord i) : Protected carry n (m.setSlot i s) M :=
  h.same rfl (setSlot_size m.cache i s) h.delta rfl (word_setSlot hs) rfl rfl

theorem Protected.displace {M : Multiset Token} (h : Protected carry n m M) (i : Nat) (count : UInt32) :
    Protected carry n (m.displace i count) M :=
  h.data i rfl

theorem Protected.freeData {M : Multiset Token} (h : Protected carry n m M) (i : Nat) :
    Protected carry n (m.freeData i) M := by
  unfold Memory.freeData ClockCache.freeData
  simp only
  split
  · exact (h.data i (s := {m.cache.slot i with value := 0}) rfl).counters rfl rfl h.delta
  · exact h

theorem insertOr_holds {f : InsertFrame} {current : UInt64} (h : Protected carry n m (0 + o))
    (hi : current.toNat < n) : Holds carry n o (step choice m (.insertOr f current)) := by
  have hlen := h.length
  simp only [step]
  split
  · next he => exact ⟨h.occupy hi he, hi⟩
  · next he =>
    have hkept := h.occupied hi he
    split
    · exact (clear_insertNext hlen h.pos f current false).holds hkept
    · exact ⟨hkept, hi⟩

theorem insertRef_holds {f : InsertFrame} {current : UInt64} (h : Protected carry n m (0 + o))
    (hi : current.toNat < n) (hroom : Room carry m (0 + o) current.toNat) :
    Holds carry n o (step choice m (.insertRef f current)) := by
  simp only [step]
  split
  · next hv => exact ⟨h.take hi (.inl hv) hroom.1, hi⟩
  · next hv =>
    split
    · next hinv => exact ⟨h.take hi (.inr hinv) hroom.1, hi⟩
    · next hinv =>
      exact (clear_insertNext h.length h.pos f current false).holds (h.leave hi hv hinv hroom.2)

theorem eraseRef_holds {f : EraseFrame} {current : UInt64} (h : Protected carry n m (0 + o))
    (hi : current.toNat < n) (hroom : Room carry m (0 + o) current.toNat) :
    Holds carry n o (step choice m (.eraseRef f current)) := by
  simp only [step]
  split
  · next hv => exact ⟨h.take hi (.inl hv) hroom.1, hi⟩
  · next hv =>
    split
    · next hinv => exact ⟨h.take hi (.inr hinv) hroom.1, hi⟩
    · next hinv => exact ⟨h.takeStray hi hv hinv hroom.1 hroom.2, hi⟩

theorem eraseTry_holds {f : EraseFrame} {current oldMeta : UInt64}
    (h : Protected carry n m ({.ref current.toNat} + o)) (hi : current.toNat < n) :
    Holds carry n o (m, eraseTry f current oldMeta) := by
  unfold eraseTry
  split
  · exact ⟨h, hi⟩
  · next hone => exact ⟨h, hi, by omega⟩

theorem eraseCas_holds {f : EraseFrame} {current oldMeta : UInt64}
    (h : Protected carry n m ({.ref current.toNat} + o)) (hi : current.toNat < n)
    (hone : refCount oldMeta ≤ 1) : Holds carry n o (step choice m (.eraseCas f current oldMeta)) := by
  simp only [step]
  split
  · next hcas =>
    rw [← hcas.1] at hone
    exact ⟨h.eraseOwn hi hone, hi⟩
  · exact eraseTry_holds h hi

theorem evictLower_holds {f : EvictFrame} {w : UInt64} (h : Protected carry n m (0 + o))
    (hk : Knows n (.evictLower f w)) : Holds carry n o (step choice m (.evictLower f w)) := by
  obtain ⟨hf, hv, hzero⟩ := hk
  simp only [step]
  split
  · next hcas =>
    have hkept : Protected carry n (m.setMeta (f.slot m.cache).toNat (lowered w f.hitDecrDelta)) (0 + o) := by
      rw [← hcas] at hv hzero ⊢
      exact h.lower (modLength_lt h.length h.pos _) hv hzero hf
    exact (clear_evictSlotDone hf).holds hkept
  · exact (clear_evictSlotDone hf).holds h

theorem evictTake_holds {f : EvictFrame} {w : UInt64} (h : Protected carry n m (0 + o))
    (hk : Knows n (.evictTake f w)) : Holds carry n o (step choice m (.evictTake f w)) := by
  obtain ⟨hf, he, hzero⟩ := hk
  have hi : (f.slot m.cache).toNat < n := modLength_lt h.length h.pos _
  simp only [step]
  split
  · next hcas =>
    refine ⟨?_, hf, hi⟩
    show Protected carry n (m.setMeta (f.slot m.cache).toNat
      ((kStateConstruction <<< kStateShift) ||| (w &&& kHitBitMask))) _
    rw [← hcas] at he hzero ⊢
    exact h.handOwn hi he hzero
  · exact (clear_evictSlotDone hf).holds h

theorem evictRollbackAt_holds {f : EvictFrame} {h : UInt64} {k : UniqueId64x2} {current : UInt64}
    (hp : Protected carry n m ({.own h.toNat} + o)) (hf : 0 ≤ f.hitDecrDelta) (hi : h.toNat < n) :
    Holds carry n o (m, evictRollbackAt f h k current) := by
  unfold evictRollbackAt
  split <;> exact ⟨hp, hf, hi⟩

theorem evictNext_holds {f : EvictFrame} (h : Protected carry n m (0 + o)) (hf : 0 ≤ f.hitDecrDelta) :
    Holds carry n o (step choice m (.evictNext f)) := by
  refine ⟨h.counters rfl rfl h.delta, ?_⟩
  simp only [step]
  split
  · show 0 ≤ newHitDecrDelta _ _
    unfold newHitDecrDelta
    omega
  · exact hf

theorem markEmpty_eq (m : Memory) (i : Nat) : m.markEmpty i = {m.setMeta i 0 with
    left := Function.update m.left i 0, published := Function.update m.published i false} := rfl

/-- **One access keeps the protocol.** -/
theorem step_holds {pc : Pc} (h : Protected carry n m (pc.tokens + o)) (hk : Knows n pc)
    (hroom : ∀ i, pc.taking = some i → i < n → Room carry m (pc.tokens + o) i)
    (hund : ∀ i, pc.overwriting = some i → (.stray i : Token) ∉ o) (hfit : HitsFit carry m pc) :
    Holds carry n o (step choice m pc) := by
  have hlen := h.length
  have hn := h.pos
  cases pc with
  | ready => exact call_holds rfl hk h
  | lookup k current slot =>
    apply lookup_holds h hk ?_ hfit
    rintro rfl
    exact hroom _ rfl hk.1
  | lookupAbort k current =>
    simp only [step]
    split
    · exact ⟨h, trivial⟩
    · exact (clear_lookupNext hlen hn k current).holds h
  | lookupReturn e => exact call_holds rfl hk h
  | release i => exact ⟨h.drop hk, trivial⟩
  | insertOccupancy handle => exact ⟨h.counters rfl rfl h.delta, trivial⟩
  | chargeLoad handle need => exact (clear_chargeTry hlen hn ..).holds h
  | chargeCas f =>
    simp only [step]
    split
    · exact (clear_chargeDone hlen hn hk).holds (h.counters rfl rfl h.delta)
    · exact (clear_chargeTry hlen hn ..).holds h
  | evictPointer f => exact ⟨h.counters rfl rfl h.delta, hk⟩
  | evictDelta f => exact ⟨h, h.delta⟩
  | evictLoad f => exact (clear_evictTest hk (h.shareable (modLength_lt hlen hn _))).holds h
  | evictLower f w => exact evictLower_holds h hk
  | evictTake f w => exact evictTake_holds h hk
  | evictOwn f i => exact evictRollbackAt_holds h hk.1 hk.2
  | evictRollback f i k current => exact evictRollbackAt_holds (h.displace ..) hk.1 hk.2
  | evictFree f i => exact ⟨h.freeData i.toNat, hk⟩
  | evictMark f i =>
    apply (clear_evictSlotDone hk.1).holds
    rw [markEmpty_eq]
    exact h.release hk.2 (hund _ rfl) SlotOk.empty
  | evictNext f => exact evictNext_holds h hk
  | evictStore f => exact ⟨h.counters rfl rfl hk, trivial⟩
  | settleOccupancy f => exact (clear_settleTest hlen hn f).holds (h.counters rfl rfl h.delta)
  | settleUsage f charge room =>
    simp only [step]
    cases room with
    | true => exact (clear_insertStart hlen hn f.handle).holds (h.counters rfl rfl h.delta)
    | false => exact ⟨h.counters rfl rfl h.delta, trivial⟩
  | insertGiveUp => exact ⟨h.counters rfl rfl h.delta, trivial⟩
  | insertOr f current => exact insertOr_holds h hk
  | insertWrite f current => exact ⟨h.data current.toNat rfl, hk⟩
  | insertPublish f current =>
    exact ⟨h.release hk (hund _ rfl) SlotOk.visible, trivial⟩
  | insertRef f current => exact insertRef_holds h hk (hroom _ rfl hk)
  | insertKey f current => exact ⟨h, hk⟩
  | insertUndo f current already => exact (clear_insertNext hlen hn ..).holds (h.drop hk)
  | insertDisplace f current => exact ⟨h.displace .., nextSlot_lt hlen hn _ _⟩
  | insertRollback f i current already =>
    exact (clear_insertRollbackAt hlen hn ..).holds (h.displace ..)
  | insertFailOccupancy handle => exact ⟨h.counters rfl rfl h.delta, trivial⟩
  | insertFailUsage handle => exact ⟨h.counters rfl rfl h.delta, trivial⟩
  | insertReturn succ => exact call_holds rfl hk h
  | eraseRef f current => exact eraseRef_holds h hk (hroom _ rfl hk)
  | eraseKey f current =>
    simp only [step]
    split
    · exact ⟨h, hk⟩
    · exact ⟨h, hk⟩
  | eraseAnd f current => exact eraseTry_holds (h.hide hk) hk
  | eraseCas f current old => exact eraseCas_holds h hk.1 hk.2
  | eraseOwn f current => exact ⟨h, hk⟩
  | eraseFree f current charge => exact ⟨h.freeData current.toNat, hk⟩
  | eraseMark f current charge =>
    refine ⟨?_, trivial⟩
    show Protected carry n (m.markEmpty current.toNat) _
    rw [markEmpty_eq]
    exact h.release hk (hund _ rfl) SlotOk.empty
  | eraseOccupancy f current charge => exact ⟨h.counters rfl rfl h.delta, trivial⟩
  | eraseUsage f current charge => exact (clear_eraseRollbackAt ..).holds (h.counters rfl rfl h.delta)
  | eraseRollback f i current => exact (clear_eraseRollbackAt ..).holds (h.displace ..)
  | eraseUndo f current => exact ⟨h.drop hk, trivial⟩
  | eraseUndoNone f current => exact ⟨h.dropStray hk, trivial⟩
  | eraseAbort f current =>
    simp only [step]
    split
    · exact (clear_eraseEnd hlen hn f).holds h
    · exact (clear_eraseNext hlen hn f current).holds h
  | eraseReturn succ => exact call_holds rfl hk h

end Steps

/-! ### Runs -/

section Runs
variable {ι : Type} [Fintype ι]

theorem references_eq (c : ClockConfig ι) (i : Nat) :
    references c i = (held c.shared (total Pc.tokens c) i).refs +
      (held c.shared (total Pc.tokens c) i).strays := by
  simp only [references, Pc.pending, held, total, Multiset.count_sum', Finset.sum_add_distrib]
  rw [Nat.add_assoc]

variable [DecidableEq ι]

/-- What the tie of words and tokens asks of a step. -/
structure Allowed (carry : Bool) (c : ClockConfig ι) (t : ι) : Prop where
  room : ∀ i, (c.threads t).taking = some i → Room carry c.shared (total Pc.tokens c) i
  undisturbed : ∀ i, (c.threads t).overwriting = some i → (.stray i : Token) ∉ others Pc.tokens c t
  fit : HitsFit carry c.shared (c.threads t)

theorem Orderly.allowed {c : ClockConfig ι} {t : ι} (h : Orderly c t) : Allowed false c t where
  room := by
    intro i hi
    have hbare := h.uncarried i hi
    rw [← Multiset.count_sum'] at hbare
    refine ⟨?_, ?_⟩
    · rw [← references_eq]
      exact h.few i hi
    · rw [Bool.toNat_false, Nat.mul_zero, Nat.zero_add]
      exact hbare
  undisturbed := by
    intro i hi hm
    obtain ⟨u, -, hu⟩ := Multiset.mem_sum.mp hm
    exact h.undisturbed i hi u hu
  fit := h.fitting.hitsFit

theorem start_metaWord (options : ClockCacheOptions) (i : Nat) :
    (Memory.start options).metaWord i = 0 := by
  show ((ClockCache.make options).slot i).metaWord = 0
  rw [make_slot]
  rfl

theorem start_protected {carry : Bool} {options : ClockCacheOptions} (hpos : 0 < options.length.toNat) :
    Protected carry options.length.toNat (Memory.start options) 0 where
  length := congrArg UInt64.toNat (make_length hpos)
  size := List.length_replicate
  pos := hpos
  delta := by
    show (0 : Int) ≤ 1
    decide
  handles := fun _ h => nomatch h
  slots := by
    intro i _
    have hempty : held (Memory.start options) 0 i = ⟨0, 0, 0, 0, 0, false⟩ := by
      apply Held.ext <;> try rfl
      exact start_metaWord options i
    rw [hempty]
    exact SlotOk.empty

/-- The words agree with the tokens, and every position knows what it should. -/
abbrev Accounted (carry : Bool) (n : Nat) (c : ClockConfig ι) : Prop :=
  Accounting Pc.tokens (Protected carry n) (fun _ => Knows n) c

/-- One step keeps the words in agreement with the tokens. -/
theorem accounted_set {carry : Bool} {n : Nat} {c : ClockConfig ι} {t : ι} {m : Memory} {pc : Pc}
    (h : Accounted carry n c) (hok : Allowed carry c t) (hs : Access c.shared (c.threads t) m pc) :
    Accounted carry n (c.set t m pc) := by
  have own : ∀ (c : ClockConfig ι) t m pc, Allowed carry c t → Knows n (c.threads t) →
      Access c.shared (c.threads t) m pc →
      Protected carry n c.shared ((c.threads t).tokens + others Pc.tokens c t) →
      Protected carry n m (pc.tokens + others Pc.tokens c t) ∧ Knows n pc := by
    rintro c t m pc hok hk ⟨choice, hstep⟩ hg
    have hnext : Holds _ _ _ (step choice c.shared (c.threads t)) := step_holds hg hk
      (fun i hi _ => by rw [← total_eq]; exact hok.room i hi) hok.undisturbed hok.fit
    rw [hstep] at hnext
    exact hnext
  exact h.set own (fun _ _ _ _ _ _ _ hm _ _ => hm) hok hs

omit [DecidableEq ι] in
theorem start_accounted {carry : Bool} {options : ClockCacheOptions}
    (hpos : 0 < options.length.toNat) : Accounted carry options.length.toNat (⟨Memory.start options, fun _ => .ready⟩ : ClockConfig ι) := by
  refine ⟨?_, fun _ => trivial⟩
  have hzero : total Pc.tokens (⟨Memory.start options, fun _ => .ready⟩ : ClockConfig ι) = 0 :=
    Finset.sum_const_zero
  rw [hzero]
  exact start_protected hpos

/-- The words agree with the tokens in every orderly run. -/
theorem accounted_of_reaches {options : ClockCacheOptions} (hpos : 0 < options.length.toNat)
    {c : ClockConfig ι} (hr : Reaches Access Orderly ⟨Memory.start options, fun _ => .ready⟩ c) :
    Accounted false options.length.toNat c :=
  hr.invariant (fun _ _ _ _ h hok hs => accounted_set h hok.allowed hs) (start_accounted hpos)

/-- A thread about to run `FreeData` owns the slot. -/
theorem freeing_owns {pc : Pc} {i : Nat} (h : pc.freeing = some i) : pc.tokens = {.own i} := by
  unfold Pc.freeing at h
  split at h
  · cases h
    rfl
  · cases h
    rfl
  · cases h

omit [DecidableEq ι] in
theorem protocol_of_accounts {carry : Bool} {n : Nat} {c : ClockConfig ι}
    (h : Accounted carry n c) : Protocol c where
  counted := by
    intro i hi hshared
    rw [h.glob.length] at hi
    have hslot := h.glob.slots i hi
    obtain ⟨st, bit, hits, he⟩ := hslot.isEntry (.inr hshared)
    rw [references_eq, he.strays]
    exact hslot.refCount_entry he
  published := by
    intro i hi hv
    rw [h.glob.length] at hi
    have hslot := h.glob.slots i hi
    obtain ⟨st, bit, hits, he⟩ := hslot.isEntry (.inr (.inl hv))
    rcases he.shared with rfl | ⟨-, hp⟩
    · exact absurd ((hslot.state_entry he).symm.trans hv) (by decide)
    · exact hp
  unread := by
    intro t i hi
    have hn : i < n := by
      have hk := h.loc t
      unfold Pc.freeing at hi
      split at hi
      · next heq =>
        cases hi
        rw [heq] at hk
        exact hk.2
      · next heq =>
        cases hi
        rw [heq] at hk
        exact hk
      · cases hi
    have hown : 0 < (held c.shared (total Pc.tokens c) i).owners := by
      have hmem : (.own i : Token) ∈ total Pc.tokens c := by
        apply Multiset.mem_sum.mpr
        refine ⟨t, Finset.mem_univ t, ?_⟩
        rw [freeing_owns hi]
        exact Multiset.mem_singleton_self _
      exact Multiset.count_pos.mpr hmem
    have hrefs := ((h.glob.slots i hn).owner hown).1
    simp only [held] at hrefs
    omega

/-- **The reference protocol** holds wherever a run of orderly steps leads. -/
theorem reaches_protocol {options : ClockCacheOptions} (hpos : 0 < options.length.toNat)
    {c : ClockConfig ι} (hr : Reaches Access Orderly ⟨Memory.start options, fun _ => .ready⟩ c) :
    Protocol c :=
  protocol_of_accounts (accounted_of_reaches hpos hr)

end Runs

/-! ### Two threads -/

instance decidableFitting (m : Memory) : (pc : Pc) → Decidable (Fitting m pc)
  | .lookup _ _ .hit | .lookup _ _ (.hitSub _) => by unfold Fitting; infer_instance
  | .lookup _ _ .ref | .lookup _ _ .key | .lookup _ _ .undo => .isTrue trivial
  | _ => by unfold Fitting; split <;> infer_instance

instance decidableFew {ι : Type} [Fintype ι] (c : ClockConfig ι) (t : ι) : Decidable (Few c t) :=
  inferInstanceAs (Decidable (∀ i ∈ (c.threads t).taking, _))

instance decidableOrderly {ι : Type} [Fintype ι] (c : ClockConfig ι) (t : ι) :
    Decidable (Orderly c t) :=
  have : Decidable (Uncarried c t) := inferInstanceAs (Decidable (∀ i ∈ (c.threads t).taking, _))
  have : Decidable (Undisturbed c t) :=
    inferInstanceAs (Decidable (∀ i ∈ (c.threads t).overwriting, ∀ _, _ ∉ _))
  decidable_of_iff (Few c t ∧ Uncarried c t ∧ Undisturbed c t ∧ Fitting c.shared (c.threads t))
    ⟨fun ⟨h1, h2, h3, h4⟩ => ⟨h1, h2, h3, h4⟩, fun ⟨h1, h2, h3, h4⟩ => ⟨h1, h2, h3, h4⟩⟩

def twoSlots : ClockConfig (Fin 2) := ⟨Memory.start ⟨10, 2, 0, 2, 1⟩, fun _ => .ready⟩

/-- A lookup of the key meets its erase. -/
def meeting : List (Fin 2 × Choice) :=
  (1, .insert ⟨7, 0, (2, 0), 1⟩) :: List.replicate 6 (1, .go) ++
    [(0, .lookup (2, 0)), (1, .erase (2, 0)), (0, .go), (1, .go), (1, .go), (1, .go), (0, .go)]

theorem reaches_protocol_meeting : Protocol (exec step twoSlots meeting) :=
  reaches_protocol (by decide) (reaches_exec_guarded (by decide +kernel))

/-- An erase takes a reference on an empty slot; an insertion publishes an entry there;
the erase undoes its reference. -/
def stray : List (Fin 2 × Choice) :=
  [(0, .erase (2, 0)), (0, .go), (1, .insert ⟨7, 0, (2, 0), 1⟩)] ++ List.replicate 6 (1, .go) ++ [(0, .go)]

theorem stray_not_protocol : ¬ ∀ (T : Nat) (options : ClockCacheOptions), 0 < options.length.toNat →
    ∀ c : ClockConfig (Fin T), Reaches Access Few ⟨Memory.start options, fun _ => .ready⟩ c →
      Protocol c := by
  intro h
  have hprotocol := h 2 ⟨10, 2, 0, 2, 1⟩ (by decide) (exec step twoSlots stray)
    (reaches_exec_guarded (by decide +kernel))
  have hcounted := hprotocol.counted 0 (by decide +kernel) (.inl (by decide +kernel))
  revert hcounted
  decide +kernel

end HyperCache.Clock
