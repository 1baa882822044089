import HyperCache.Clock.Freshness
import HyperCache.Clock.Shards
import HyperCache.Lib.LossyMap
import HyperCache.Util.MurmurHash

/-! Keys of the sharded clock cache.

The table knows a key by the 128 bits of its hash only. What a lookup finds was inserted with
the same hash, and not erased since (`Good.shows`). With the default hash function and keys of
one length of at most 16 bytes the hashes of different keys differ, so it was inserted with the
very same bytes (`run_lookup_inserted`), and in a smooth run it is what was inserted last
(`run_keys_faithful`). -/
namespace HyperCache.Clock

namespace Session
open ClockCache

/-- An entry visible with the key holds the value. -/
def Shows (s : Session) (k : UniqueId64x2) (value : ObjectPtr) : Prop :=
  ∃ i, i < s.cache.length.toNat ∧ VisibleWith k (s.cache.slot i) ∧ (s.cache.slot i).value = value

theorem Shows.fades {s s' : Session} {k : UniqueId64x2} {value : ObjectPtr} (h : s'.Shows k value)
    (hlen : s'.cache.length = s.cache.length) (hfades : Fades s.cache s'.cache) : s.Shows k value := by
  obtain ⟨i, hi, hv, rfl⟩ := h
  obtain ⟨hv', hh⟩ := hfades i k hv
  exact ⟨i, hlen ▸ hi, hv', (congrArg Handle.value hh).symm⟩

section Step
variable {n lookups inserts : Nat} {s s' : Session} (h : Valid n lookups inserts s)
  (hlim : lookups + inserts + 1 < 2 ^ 30)
include h hlim

/-- **The step lemma**: what is there after a call was there before it and has not been erased,
or it has just been inserted. Where a smooth insertion has succeeded, nothing else is there. -/
theorem Valid.shows {call : Call} (hcall : s.call call = some s') {k : UniqueId64x2} {value : ObjectPtr}
    (hshows : s'.Shows k value) :
    (s.Shows k value ∧ call ≠ .erase k ∧ (s.Smooth call → s'.latest k = s.latest k)) ∨
      (∃ handle, call = .insert handle ∧ handle.hashedKey = k ∧ handle.value = value ∧
        s'.latest = Function.update s.latest k (some value)) := by
  obtain ⟨l, m, -, h'⟩ := h.call hlim hcall
  have hlen : s'.cache.length = s.cache.length := by
    rw [← UInt64.toNat_inj, h'.table.length, h.table.length]
  cases call with
  | insert handle =>
    obtain ⟨-, ok, hlatest, hins⟩ := h.insert hlim hcall
    cases ok with
    | false =>
      refine .inl ⟨hshows.fades hlen (hins.failed rfl), Call.noConfusion, fun _ => ?_⟩
      rw [hlatest, if_neg Bool.false_ne_true]
    | true =>
      obtain ⟨i, c, hi, hfades, hadded, hnone⟩ := hins.placed rfl
      rw [if_pos rfl] at hlatest
      obtain ⟨j, hj, hv, rfl⟩ := hshows
      by_cases hji : j = i
      · subst hji
        have hk : handle.hashedKey = k := (congrArg Handle.hashedKey hadded.entry).symm.trans hv.2
        have hvalue := congrArg Handle.value hadded.entry
        exact .inr ⟨handle, rfl, hk, hvalue.symm, by rw [hlatest, hk, hvalue]⟩
      · obtain ⟨hw, hh⟩ := hadded.other j hji
        have hvc : VisibleWith k (c.slot j) := ⟨hw ▸ hv.1, (congrArg Handle.hashedKey hh).symm.trans hv.2⟩
        obtain ⟨hv', hh'⟩ := hfades j k hvc
        refine .inl ⟨⟨j, hlen ▸ hj, hv', (congrArg Handle.value (hh.trans hh')).symm⟩, Call.noConfusion,
          fun hsmooth => ?_⟩
        have hk : k ≠ handle.hashedKey := by
          intro hk
          rw [hk] at hvc
          exact hnone (fun c hreserve => hsmooth (true, c) hreserve rfl) j (hlen ▸ hj) hvc
        rw [hlatest, Function.update_of_ne hk]
  | lookup k' =>
    obtain ⟨-, hlatest, r, hd⟩ := h.lookup hlim hcall
    exact .inl ⟨hshows.fades hlen hd.fades, Call.noConfusion, fun _ => by rw [hlatest]⟩
  | release i =>
    obtain ⟨-, hlatest, hfades⟩ := h.release hlim hcall
    exact .inl ⟨hshows.fades hlen hfades, Call.noConfusion, fun _ => by rw [hlatest]⟩
  | erase k' =>
    obtain ⟨-, hlatest, hfades, hgone⟩ := h.erase hlim hcall
    have hk : k ≠ k' := by
      rintro rfl
      obtain ⟨j, hj, hv, -⟩ := hshows
      exact hgone j (hlen ▸ hj) hv
    refine .inl ⟨hshows.fades hlen hfades, fun heq => hk (Call.erase.inj heq).symm, fun _ => ?_⟩
    rw [hlatest, Function.update_of_ne hk]

end Step

end Session

namespace CacheSession
open Fallible

variable {Key : Type} {size : Nat} [NeZero size] {hashKey : Key → UniqueId64x2} {s s' : CacheSession size} {r : Bool}

/-- What a call leaves of the shard it goes to; the others stay as they are. -/
theorem step_route {call : CacheCall Key size} (hstep : s.step hashKey call = .ok (s', r)) :
    ∃ t, (s.shard (route hashKey call).1).call (route hashKey call).2 = some t ∧
      s'.shard = Function.update s.shard (route hashKey call).1 t.bare := by
  have hcall := s.shard_call hashKey call
  rw [CacheSession.call, hstep] at hcall
  obtain ⟨t', ht, hupdate⟩ := Option.map_eq_some_iff.mp hcall.symm
  obtain ⟨t, hshard, rfl⟩ := Option.map_eq_some_iff.mp ht
  exact ⟨t, hshard, hupdate.symm⟩

/-- Whether an insertion has succeeded is what the shard says. -/
theorem step_insert {key : Key} {handle : Handle} (hstep : s.step hashKey (.insert key handle) = .ok (s', r))
    {t : Session} (ht : (s.shard (Cache.index size (hashKey key))).call
      (.insert {handle with hashedKey := hashKey key}) = some t) :
    t.latest = if r then Function.update (fun _ => none) (hashKey key) (some handle.value) else fun _ => none := by
  obtain ⟨⟨succ, c⟩, hinsert, hcall⟩ := Option.bind_eq_some_iff.mp ht
  cases hcall
  have hinsert' : (s.cache.shards (Cache.index size (hashKey key))).insert {handle with hashedKey := hashKey key} =
      some (succ, c) := hinsert
  simp only [step, Cache.insert, hinsert'] at hstep
  cases hstep
  rfl

/-- Every shard is valid, after so many calls. -/
def AllValid (n used : Nat) (s : CacheSession size) : Prop :=
  ∀ i, ∃ lookups inserts, lookups + inserts ≤ used ∧ (s.shard i).Valid n lookups inserts

omit [NeZero size] in
theorem AllValid.start {o : CacheOptions} {n : Nat} (hlen : (o.length / o.shardNum).toNat = 2 ^ n) :
    AllValid n 0 (start o) := fun _ => ⟨0, 0, Nat.le_refl 0, Session.Valid.start hlen⟩

section Step
variable {n used : Nat} (h : AllValid n used s) (hlim : used + 1 < 2 ^ 30)
include h hlim

theorem AllValid.step {call : CacheCall Key size} (hstep : s.step hashKey call = .ok (s', r)) :
    AllValid n (used + 1) s' := by
  obtain ⟨t, hcall, hshards⟩ := step_route hstep
  intro j
  rw [hshards]
  by_cases hj : j = (route hashKey call).1
  · subst hj
    obtain ⟨l, m, hle, hvalid⟩ := h (route hashKey call).1
    obtain ⟨l', m', hle', hvalid'⟩ := hvalid.call (by omega) hcall
    rw [Function.update_self]
    exact ⟨l', m', by omega, hvalid'.table, hvalid'.held, hvalid'.inTable, hvalid'.population, hvalid'.delta,
      hvalid'.occupancy, hvalid'.usage⟩
  · obtain ⟨l, m, hle, hvalid⟩ := h j
    rw [Function.update_of_ne hj]
    exact ⟨l, m, by omega, hvalid⟩

end Step

theorem AllValid.run {n used : Nat} (h : AllValid n used s) {calls : List (CacheCall Key size)}
    (hlim : used + calls.length < 2 ^ 30) (hrun : Fallible.run (CacheSession.step hashKey) s calls = .ok s') :
    AllValid n (used + calls.length) s' := by
  induction calls generalizing s used with
  | nil =>
    cases hrun
    exact h
  | cons call calls ih =>
    rw [List.length_cons] at hlim ⊢
    obtain ⟨r, hstep, hrest⟩ := run_cons.mp hrun
    have h' := ih (h.step (by omega) hstep) (by omega) hrest
    rwa [Nat.add_right_comm, Nat.add_assoc] at h'

/-- The shard of the key shows the value for it. -/
def Shows (s : CacheSession size) (k : UniqueId64x2) (value : ObjectPtr) : Prop :=
  (s.shard (Cache.index size k)).Shows k value

/-- The call is smooth for the shard it goes to. -/
def Smooth (hashKey : Key → UniqueId64x2) (s : CacheSession size) (call : CacheCall Key size) : Prop :=
  (s.shard (route hashKey call).1).Smooth (route hashKey call).2

instance (s : CacheSession size) : DecidablePred (s.Smooth hashKey) := fun call =>
  inferInstanceAs (Decidable ((s.shard (route hashKey call).1).Smooth (route hashKey call).2))

section Step
variable {n used : Nat} (h : AllValid n used s) (hlim : used + 1 < 2 ^ 30)
include h hlim

/-- **The step lemma**, for the shards together. -/
theorem AllValid.shows {call : CacheCall Key size} (hstep : s.step hashKey call = .ok (s', r)) {k : UniqueId64x2}
    {value : ObjectPtr} (hshows : s'.Shows k value) :
    (s.Shows k value ∧ call ≠ .erase k ∧
      (s.Smooth hashKey call → ∀ key handle, call = .insert key handle → hashKey key = k → r = false)) ∨
    ∃ key handle, call = .insert key handle ∧ hashKey key = k ∧ handle.value = value ∧ r = true := by
  obtain ⟨t, hcall, hshards⟩ := step_route hstep
  rw [Shows, hshards] at hshows
  by_cases hi : Cache.index size k = (route hashKey call).1
  · rw [hi, Function.update_self] at hshows
    obtain ⟨l, m, hle, hvalid⟩ := h (route hashKey call).1
    have hshows' : t.Shows k value := hshows
    rcases hvalid.shows (by omega) hcall hshows' with ⟨hold, hne, hsmooth⟩ | ⟨handle', heq, hk, hvalue, hlatest⟩
    · have hold' : s.Shows k value := by
        rw [Shows, hi]
        exact hold
      refine .inl ⟨hold', fun herase => hne (herase ▸ rfl), fun hs key handle hinsert hkey => ?_⟩
      subst hinsert
      have hnone := (congrFun (step_insert hstep hcall) k).symm.trans (hsmooth hs)
      cases r with
      | false => rfl
      | true =>
        rw [if_pos rfl, hkey, Function.update_self] at hnone
        cases hnone
    · cases call with
      | insert key handle =>
        cases heq
        refine .inr ⟨key, handle, rfl, hk, hvalue, ?_⟩
        have hsome := (congrFun (step_insert hstep hcall) k).symm.trans (congrFun hlatest k)
        cases r with
        | false =>
          rw [Function.update_self] at hsome
          cases hsome
        | true => rfl
      | lookup key => cases heq
      | release p => cases heq
      | erase k' => cases heq
  · rw [Function.update_of_ne hi] at hshows
    refine .inl ⟨hshows, fun herase => hi (herase ▸ rfl), fun _ key handle hinsert hkey => ?_⟩
    subst hinsert
    exact absurd (congrArg (Cache.index size) hkey.symm) hi


/-- What a lookup returns is shown. -/
theorem AllValid.found {key : Key} {p : HandlePtr size} {c : Cache size}
    (hlookup : s.cache.lookup hashKey key = some (some p, c)) :
    s.Shows (hashKey key) ((c.shards p.shard).slot p.slot).value := by
  obtain ⟨l, m, hle, hvalid⟩ := h (Cache.index size (hashKey key))
  obtain ⟨⟨e, d⟩, hshard, hreturn⟩ := Option.bind_eq_some_iff.mp hlookup
  have hpop := hvalid.population
  obtain ⟨e', d', hspec, hd⟩ := ClockCache.lookup_spec hvalid.table (by omega)
    (Nat.lt_of_le_of_lt hpop (by omega)) (hashKey key)
  have hspec' : (s.cache.shards (Cache.index size (hashKey key))).lookup (hashKey key) = some (e', d') := hspec
  obtain ⟨rfl, rfl⟩ := Prod.mk.inj (Option.some.inj (hshard.symm.trans hspec'))
  cases e with
  | none => cases hreturn
  | some i =>
    cases hreturn
    obtain ⟨hi, hv⟩ := hd.found i rfl
    refine ⟨i, hi, hv, ?_⟩
    simp only [Cache.store, Function.update_self]
    exact (congrArg Handle.value (hd.same.handle i)).symm

end Step

/-! ### Where a value comes from -/

/-- One of the calls, an insertion that returned true, has given the key the value, and no
later one erases it. -/
def Given (hashKey : Key → UniqueId64x2) (s : CacheSession size) (calls : List (CacheCall Key size))
    (k : UniqueId64x2) (value : ObjectPtr) : Prop :=
  ∃ before key handle after t t', calls = before ++ .insert key handle :: after ∧ hashKey key = k ∧
    handle.value = value ∧ run (step hashKey) s before = .ok t ∧
    t.step hashKey (.insert key handle) = .ok (t', true) ∧ .erase k ∉ after

omit s' in
theorem Given.later {calls : List (CacheCall Key size)} {k : UniqueId64x2} {value : ObjectPtr}
    (h : Given hashKey s calls k value) {call : CacheCall Key size} (hcall : call ≠ .erase k) :
    Given hashKey s (calls ++ [call]) k value := by
  obtain ⟨before, key, handle, after, t, t', rfl, hk, hvalue, hrun, hinsert, hafter⟩ := h
  refine ⟨before, key, handle, after ++ [call], t, t', ?_, hk, hvalue, hrun, hinsert, fun herase => ?_⟩
  · rw [List.append_assoc, List.cons_append]
  · rcases List.mem_append.mp herase with hmem | hmem
    · exact hafter hmem
    · exact hcall (List.mem_singleton.mp hmem).symm

/-- **The run lemma**: what is shown at the end was given. -/
theorem AllValid.given {n : Nat} (h : AllValid n 0 s) (hempty : ∀ k value, ¬ s.Shows k value)
    (calls : List (CacheCall Key size)) (hlim : calls.length < 2 ^ 30)
    (hrun : Fallible.run (CacheSession.step hashKey) s calls = .ok s') {k : UniqueId64x2} {value : ObjectPtr}
    (hshows : s'.Shows k value) : Given hashKey s calls k value := by
  induction calls using List.reverseRecOn generalizing s' with
  | nil =>
    cases hrun
    exact absurd hshows (hempty k value)
  | append_singleton calls call ih =>
    rw [List.length_append, List.length_singleton] at hlim
    obtain ⟨t, r, hbefore, hstep⟩ := run_concat.mp hrun
    have ht := h.run (by omega) hbefore
    rw [Nat.zero_add] at ht
    rcases ht.shows hlim hstep hshows with ⟨hold, hne, -⟩ | ⟨key, handle, rfl, hk, hvalue, rfl⟩
    · exact (ih (by omega) hbefore hold).later hne
    · exact ⟨calls, key, handle, [], t, s', rfl, hk, hvalue, hbefore, hstep, List.not_mem_nil⟩

omit [NeZero size] in
theorem start_empty (o : CacheOptions) (k : UniqueId64x2) (value : ObjectPtr) : ¬ (start o).Shows k value := by
  rintro ⟨i, -, hv, -⟩
  rw [show ((start o).shard (Cache.index o.shardNum.toNat k)).cache.slot i = default from ClockCache.make_slot i] at hv
  exact absurd hv.1 (by decide)

/-! ### The default hash function -/

end CacheSession

/-- `DefaultHashKeyFn`. -/
def defaultHashKeyFn (key : List UInt8) (seed : UInt32) : UniqueId64x2 := Util.murmurHash3_x64_128 key seed

/-- `HashKey` of a key of `keySize` bytes. The hash function takes the seed as an unsigned one. -/
def Cache.hashKey (hashKeyFn : List UInt8 → UInt32 → UniqueId64x2) (hashSeed : Int32) {keySize : Nat}
    (key : List.Vector UInt8 keySize) : UniqueId64x2 := hashKeyFn key.toList hashSeed.toUInt32

theorem Cache.hashKey_injective {keySize : Nat} (hsize : keySize ≤ 16) (hashSeed : Int32) :
    Function.Injective (Cache.hashKey defaultHashKeyFn hashSeed : List.Vector UInt8 keySize → UniqueId64x2) := by
  intro key key' h
  have hlen : key.toList.length = key'.toList.length := key.toList_length.trans key'.toList_length.symm
  exact List.Vector.eq _ _ (Util.murmurHash3_injective hlen (key.toList_length.trans_le hsize) _ h)

namespace CacheSession
open Fallible LossyMap

/-- **A lookup finds a value of its own key**: with the default hash function and keys of one
length of at most 16 bytes, what `Lookup` returns was inserted with the same bytes, and the key
was not erased after it. -/
theorem run_lookup_inserted {keySize : Nat} (hsize : keySize ≤ 16) (hashSeed : Int32) (o : CacheOptions) {n : Nat}
    (hlen : (o.length / o.shardNum).toNat = 2 ^ n)
    {calls : List (CacheCall (List.Vector UInt8 keySize) o.shardNum.toNat)} (hcalls : calls.length + 1 < 2 ^ 30)
    {s : CacheSession o.shardNum.toNat}
    (hrun : run (step (Cache.hashKey defaultHashKeyFn hashSeed)) (start o) calls = .ok s)
    {key : List.Vector UInt8 keySize} {p : HandlePtr o.shardNum.toNat} {c : Cache o.shardNum.toNat}
    (hlookup : s.cache.lookup (Cache.hashKey defaultHashKeyFn hashSeed) key = some (some p, c)) :
    ∃ before handle after t t', calls = before ++ .insert key handle :: after ∧
      handle.value = ((c.shards p.shard).slot p.slot).value ∧
      run (step (Cache.hashKey defaultHashKeyFn hashSeed)) (start o) before = .ok t ∧
      t.step (Cache.hashKey defaultHashKeyFn hashSeed) (.insert key handle) = .ok (t', true) ∧
      .erase (Cache.hashKey defaultHashKeyFn hashSeed key) ∉ after := by
  have hvalid := (AllValid.start hlen).run (by omega) hrun
  have hshows := hvalid.found (by omega) hlookup
  obtain ⟨before, key', handle, after, t, t', hsplit, hk, hvalue, hbefore, hinsert, hafter⟩ :=
    (AllValid.start hlen).given (start_empty o) calls (by omega) hrun hshows
  cases Cache.hashKey_injective hsize hashSeed hk
  exact ⟨before, handle, after, t, t', hsplit, hvalue, hbefore, hinsert, hafter⟩

/-- Two keys of two bytes. -/
def pairCalls : List (CacheCall (List.Vector UInt8 2) twoShards.shardNum.toNat) :=
  [.insert ⟨[1, 2], rfl⟩ ⟨10, 1, (0, 0), 1⟩, .insert ⟨[2, 1], rfl⟩ ⟨20, 1, (0, 0), 1⟩,
    .erase (defaultHashKeyFn [1, 2] 0xfffffffe), .insert ⟨[1, 2], rfl⟩ ⟨30, 1, (0, 0), 1⟩, .lookup ⟨[1, 2], rfl⟩]

theorem run_lookup_inserted_pair : ∃ s p c, run (step (Cache.hashKey defaultHashKeyFn (-2))) (start twoShards)
    pairCalls = .ok s ∧
    s.cache.lookup (Cache.hashKey defaultHashKeyFn (-2)) ⟨[1, 2], rfl⟩ = some (some p, c) ∧
    ∃ before handle after t t', pairCalls = before ++ .insert ⟨[1, 2], rfl⟩ handle :: after ∧
      handle.value = ((c.shards p.shard).slot p.slot).value ∧
      run (step (Cache.hashKey defaultHashKeyFn (-2))) (start twoShards) before = .ok t ∧
      t.step (Cache.hashKey defaultHashKeyFn (-2)) (.insert ⟨[1, 2], rfl⟩ handle) = .ok (t', true) ∧
      .erase (Cache.hashKey defaultHashKeyFn (-2) (⟨[1, 2], rfl⟩ : List.Vector UInt8 2)) ∉ after := by
  have hany : (run (step (Cache.hashKey defaultHashKeyFn (-2))) (start twoShards) pairCalls).toOption.any (fun s =>
      (s.cache.lookup (Cache.hashKey defaultHashKeyFn (-2)) (⟨[1, 2], rfl⟩ : List.Vector UInt8 2)).any
        fun r => r.1.isSome) = true := by
    decide +kernel
  obtain ⟨s, hsome, hs⟩ := (Option.any_eq_true _ _).mp hany
  obtain ⟨⟨e, c⟩, hlookup, he⟩ := (Option.any_eq_true _ _).mp hs
  obtain ⟨p, rfl⟩ := Option.isSome_iff_exists.mp he
  have hrun : run (step (Cache.hashKey defaultHashKeyFn (-2))) (start twoShards) pairCalls = .ok s :=
    ok_of_toOption hsome
  exact ⟨s, p, c, hrun, hlookup, run_lookup_inserted (n := 2) (by decide) (-2) twoShards (by decide) (by decide)
    hrun hlookup⟩

/-! ### Smooth runs -/

section Events
variable {Key : Type} {size : Nat} [NeZero size] (hashKey : Key → UniqueId64x2)

/-- What a call shows of the cache as a map. -/
def events (s : CacheSession size) : CacheCall Key size → List (Event Key ObjectPtr)
  | .insert key handle =>
    match s.step hashKey (.insert key handle) with
    | .ok (_, true) => [.put key handle.value]
    | _ => []
  | .lookup key =>
    match s.cache.lookup hashKey key with
    | some (e, c) => [.got key (e.map fun p => ((c.shards p.shard).slot p.slot).value)]
    | none => []
  | .release _ => []
  | .erase k => [.lose fun key => hashKey key = k]

variable {hashKey} {s s' : CacheSession size} {r : Bool} [DecidableEq Key] {m : Key → Option ObjectPtr}
  {n used : Nat} (h : AllValid n used s) (hlim : used + 1 < 2 ^ 30)
include h hlim

/-- A smooth call keeps what is shown within what was put last. -/
theorem AllValid.bounds (hinj : Function.Injective hashKey) {call : CacheCall Key size}
    (hsmooth : s.Smooth hashKey call) (hstep : s.step hashKey call = .ok (s', r))
    (hm : Bounds (fun key => s.Shows (hashKey key)) m) :
    Bounds (fun key => s'.Shows (hashKey key)) (after m (s.events hashKey call)) := by
  intro key value hshows
  rcases h.shows hlim hstep hshows with ⟨hold, hne, hfailed⟩ | ⟨key', handle, rfl, hk, rfl, rfl⟩
  · rw [← hm key value hold]
    refine after_of_spares fun e he => ?_
    cases call with
    | insert key' handle =>
      simp only [events, hstep] at he
      cases r with
      | false => cases he
      | true =>
        cases List.mem_singleton.mp he
        refine decide_eq_true fun heq => ?_
        cases hfailed hsmooth key' handle rfl (congrArg hashKey heq)
    | lookup key' =>
      rw [events] at he
      split at he
      · cases List.mem_singleton.mp he
        rfl
      · cases he
    | release p => cases he
    | erase k =>
      cases List.mem_singleton.mp he
      have hother : hashKey key ≠ k := fun heq => hne (heq ▸ rfl)
      exact Bool.not_eq_eq_eq_not.mpr (decide_eq_false hother)
  · cases hinj hk
    simp only [events, hstep]
    exact Function.update_self ..

theorem AllValid.faithful {call : CacheCall Key size} (hm : Bounds (fun key => s.Shows (hashKey key)) m) :
    Faithful m (s.events hashKey call) := by
  cases call with
  | insert key handle =>
    rw [events]
    split
    · exact ⟨fun _ _ hgot => (by cases hgot), trivial⟩
    · trivial
  | lookup key =>
    rw [events]
    split
    next e c hlookup =>
      refine ⟨fun key' value hgot => ?_, trivial⟩
      cases e with
      | none => cases hgot
      | some p =>
        cases hgot
        exact hm key _ (h.found hlim hlookup)
    next => trivial
  | release p => trivial
  | erase k => exact ⟨fun _ _ hgot => (by cases hgot), trivial⟩

omit h hlim in
/-- **The run lemma**, whatever the hash function, if it takes no two keys for one. -/
theorem keys_faithful (hinj : Function.Injective hashKey) (h : AllValid n 0 s)
    (hempty : ∀ k value, ¬ s.Shows k value) {calls : List (CacheCall Key size)} (hlim : calls.length < 2 ^ 30)
    (hsmooth : Stepwise.Along (CacheSession.call hashKey) (Smooth hashKey) s calls) :
    Faithful (fun _ => none) (history (CacheSession.call hashKey) (events hashKey) s calls) := by
  have hstep : ∀ left (t : CacheSession size) turn t' (m : Key → Option ObjectPtr),
      (∃ used, used + (left + 1) < 2 ^ 30 ∧ t.AllValid n used) → t.Smooth hashKey turn →
      t.call hashKey turn = some t' → Bounds (fun key => t.Shows (hashKey key)) m →
      (∃ used, used + left < 2 ^ 30 ∧ t'.AllValid n used) ∧ Faithful m (t.events hashKey turn) ∧
        Bounds (fun key => t'.Shows (hashKey key)) (after m (t.events hashKey turn)) := by
    rintro left t turn t' m ⟨used, hused, hvalid⟩ hturn hcall hm
    obtain ⟨⟨t', r⟩, hok, rfl⟩ := Option.map_eq_some_iff.mp hcall
    have hresult : t.step hashKey turn = .ok (t', r) := by
      cases hresult : t.step hashKey turn with
      | error fault =>
        rw [hresult] at hok
        cases hok
      | ok result =>
        rw [hresult] at hok
        cases hok
        rfl
    exact ⟨⟨used + 1, by omega, hvalid.step (by omega) hresult⟩, hvalid.faithful (by omega) hm,
      hvalid.bounds (by omega) hinj hturn hresult hm⟩
  exact history_faithful (I := fun left s => ∃ used, used + left < 2 ^ 30 ∧ s.AllValid n used) hstep
    ⟨0, by omega, h⟩ (fun key value hshows => absurd hshows (hempty _ value)) hsmooth

end Events

/-- **No stale value in a smooth run of the sharded cache**: with the default hash function and
keys of one length of at most 16 bytes, `Lookup` finds nothing but what the key was last
inserted with, not erased since. -/
theorem run_keys_faithful {keySize : Nat} (hsize : keySize ≤ 16) (hashSeed : Int32) (o : CacheOptions) {n : Nat}
    (hlen : (o.length / o.shardNum).toNat = 2 ^ n)
    (calls : List (CacheCall (List.Vector UInt8 keySize) o.shardNum.toNat)) (hcalls : calls.length < 2 ^ 30)
    (hsmooth : Stepwise.Along (call (Cache.hashKey defaultHashKeyFn hashSeed))
      (Smooth (Cache.hashKey defaultHashKeyFn hashSeed)) (start o) calls) :
    Faithful (fun _ => none) (history (call (Cache.hashKey defaultHashKeyFn hashSeed))
      (events (Cache.hashKey defaultHashKeyFn hashSeed)) (start o) calls) :=
  keys_faithful (Cache.hashKey_injective hsize hashSeed) (AllValid.start hlen) (start_empty o) hcalls hsmooth

theorem run_keys_faithful_pair : Faithful (fun _ => none) (history (call (Cache.hashKey defaultHashKeyFn (-2)))
    (events (Cache.hashKey defaultHashKeyFn (-2))) (start twoShards) pairCalls) :=
  run_keys_faithful (n := 2) (by decide) (-2) twoShards (by decide) pairCalls (by decide) (by decide +kernel)

end CacheSession

end HyperCache.Clock
