import HyperCache.Clock.ClockCache

/-! A client of the clock cache.

A session is the cache with what its client has done: the handles it was given
and has not released, and for each key the value of the last `Insert` that
returned true, forgotten when the key is erased. `Session.call` refuses, with
`none`, to release a handle the client does not hold. -/
namespace HyperCache.Clock

inductive Call where
  | insert (handle : Handle)
  | lookup (hashedKey : UniqueId64x2)
  | release (h : Nat)
  | erase (hashedKey : UniqueId64x2)

structure Session where
  cache : ClockCache
  /-- The slots of the handles returned by `Lookup` and not released. -/
  held : List Nat
  /-- The value each key was last inserted with, if not erased since. -/
  latest : UniqueId64x2 → Option ObjectPtr

namespace Session

def start (options : ClockCacheOptions) : Session := ⟨ClockCache.make options, [], fun _ => none⟩

def call (s : Session) : Call → Option Session
  | .insert handle => do
    let (succ, c) ← s.cache.insert handle
    let latest := if succ then Function.update s.latest handle.hashedKey (some handle.value)
      else s.latest
    return {s with cache := c, latest := latest}
  | .lookup hashedKey => do
    let (e, c) ← s.cache.lookup hashedKey
    return {s with cache := c, held := e.toList ++ s.held}
  | .release h =>
    if h ∈ s.held then some {s with cache := (s.cache.release h).2, held := s.held.erase h}
    else none
  | .erase hashedKey => do
    let (_, c) ← s.cache.erase hashedKey
    return {s with cache := c, latest := Function.update s.latest hashedKey none}

def run (s : Session) (calls : List Call) : Option Session := calls.foldlM call s

end Session

end HyperCache.Clock
