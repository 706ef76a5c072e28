import Lectern.Basic

/-!
# The rate limiter

In-memory fixed-window counters keyed by client address and bucket name
(`state.cpp`).  Times are readings of the steady clock in nanoseconds; the
counter is the 32-bit one of the source.
-/

namespace Lectern

def seconds (n : Int) : Int := n * 1000000000

structure Bucket where
  count : UInt32
  start : Int
  deriving DecidableEq, Repr

/-- `buckets_`, a map from (client address, bucket name). -/
structure RateLimiter where
  buckets : List ((Str × Str) × Bucket)
  deriving Repr

namespace RateLimiter

/-- Longest window any caller uses. -/
def cMaxWindow : Int := seconds (60 * 60)

def bucket? (limiter : RateLimiter) (key : Str × Str) : Option Bucket :=
  limiter.buckets.lookup key

/-- True when the bucket already reached `max` hits inside `window`. -/
def fIsLimited (limiter : RateLimiter) (ip kind : Str) (max : UInt32) (window now : Int) : Bool :=
  match limiter.bucket? (ip, kind) with
  | none => false
  | some bucket => if now - bucket.start ≥ window then false else bucket.count ≥ max

/-- Drop every bucket older than the longest window. -/
def sweep (limiter : RateLimiter) (now : Int) : RateLimiter :=
  ⟨limiter.buckets.filter (fun entry => ¬ now - entry.2.start ≥ cMaxWindow)⟩

/-- Records one hit, starting a fresh window if the previous one expired. -/
def fRecord (limiter : RateLimiter) (ip kind : Str) (window now : Int) : RateLimiter :=
  let swept := limiter.sweep now
  let bucket := (swept.bucket? (ip, kind)).getD ⟨0, 0⟩
  let bucket := if bucket.count = 0 ∨ now - bucket.start ≥ window then ⟨0, now⟩ else bucket
  ⟨((ip, kind), { bucket with count := bucket.count + 1 }) ::
    swept.buckets.filter (fun entry => entry.1 ≠ (ip, kind))⟩

end RateLimiter

end Lectern
