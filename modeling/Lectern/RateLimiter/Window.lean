import Lectern.RateLimiter.Eviction
import Lectern.Threads.Pool

/-!
# The limit under concurrent handlers

A handler checks the limit in one critical section and counts its hit, if it
does, in a later one.  Any number of other handlers may run in between, so a
bucket can pass its limit; by how much is bounded by the handlers in flight.

`Shared.windows` remembers what the code forgets: how many hits every bucket
window of the throttled key got.  The invariant (`Fits`) ties the newest of
these to the bucket's counter and says that once the counter is at the limit,
the hits counted and the handlers that may still count one fit the bound
together.
-/

namespace Lectern

open Threads

namespace RateLimiter

/-- One use of the limiter: what it counts, up to which limit, per window. -/
structure Throttle where
  ip : Str
  kind : Str
  max : UInt32
  window : Int

/-- What the handlers share: the limiter, the last reading of the clock, and
the hits of every bucket window of the throttled key, newest first. -/
structure Shared where
  limiter : RateLimiter
  clock : Int
  windows : List Nat

inductive Job where
  | check
  | record
  deriving DecidableEq, Repr

/-- A handler of the throttle, or a call on another key. -/
inductive Arrival where
  | handler
  | other (call : Call)
  deriving Repr

/-- A step at a time of the clock, or a handler that ends without recording. -/
inductive Choice where
  | at (now : Int)
  | leave
  deriving Repr

namespace Throttle

variable (h : Throttle)

def key : Str × Str := (h.ip, h.kind)

def limited (s : Shared) (now : Int) : Bool :=
  s.limiter.fIsLimited h.ip h.kind h.max h.window now

/-- The bucket a hit finds, after the sweep. -/
def found (s : Shared) (now : Int) : Option Bucket :=
  (s.limiter.bucket? h.key).filter (survives now)

/-- The hits per window after one more: the first of a new window, or one more
of the current one. -/
def countHit (s : Shared) (now : Int) : List Nat :=
  if opens (h.found s now) h.window now then 1 :: s.windows
  else s.windows.modifyHead (· + 1)

def recordHit (s : Shared) (now : Int) : Shared :=
  ⟨s.limiter.fRecord h.ip h.kind h.window now, now, h.countHit s now⟩

def machine : Machine Shared Job Arrival Choice where
  enter arrival _ s :=
    match arrival with
    | .handler => some (s, [.check])
    | .other call =>
        if call.key ≠ h.key ∧ s.clock ≤ call.time then
          some ({ s with limiter := s.limiter.after call, clock := call.time }, [])
        else none
  perform choice _ job s :=
    match job, choice with
    | .check, .at now =>
        if s.clock ≤ now then
          some ({ s with clock := now }, if h.limited s now then [] else [.record])
        else none
    | .record, .at now => if s.clock ≤ now then some (h.recordHit s now, []) else none
    | .record, .leave => some (s, [])
    | .check, .leave => none

end Throttle

/-- The handlers between their check and their hit. -/
def inFlight (p : Pool Shared Job) : Nat := p.jobs.countP (fun job => job = .record)

/-- The action leaves at most `T` handlers in flight. -/
def AtMost (h : Throttle) (T : Nat) (a : Action Arrival Choice) (p : Pool Shared Job) : Prop :=
  ∀ p', h.machine.step a p = some p' → inFlight p' ≤ T

instance (h : Throttle) (T : Nat) (a : Action Arrival Choice) (p : Pool Shared Job) :
    Decidable (AtMost h T a p) :=
  match hstep : h.machine.step a p with
  | some p' =>
      decidable_of_iff (inFlight p' ≤ T) (by simp [AtMost, hstep])
  | none => isTrue (by simp [AtMost, hstep])

/-- A server that has just started. -/
def Fresh (p : Pool Shared Job) : Prop :=
  p.state.limiter = empty ∧ p.state.windows = [] ∧ p.threads = []

/-! ## The invariant -/

section Invariant

variable (h : Throttle) (T : Nat)

/-- The most hits one bucket window may get. -/
def ceiling : Nat := h.max.toNat - 1 + T

/-- The newest window's hits are what the bucket counts, modulo its 32 bits,
and at the limit they leave room for the handlers in flight. -/
structure Counts (s : Shared) (flying : Nat) (bucket : Bucket) (n : Nat) : Prop where
  pos : 1 ≤ n
  fits : n ≤ 2 ^ 32
  count : bucket.count.toNat = n % 2 ^ 32
  room : s.clock - bucket.start < h.window → h.max.toNat ≤ n →
    n + flying ≤ ceiling h T ∨ 2 ^ 32 ≤ ceiling h T

structure Fits (s : Shared) (flying : Nat) : Prop where
  keyed : s.limiter.Keyed
  flying_le : flying ≤ T
  windows_le : ∀ n ∈ s.windows, n ≤ ceiling h T
  current : ∀ bucket, s.limiter.bucket? h.key = some bucket →
    ∃ n older, s.windows = n :: older ∧ Counts h T s flying bucket n

end Invariant

section Steps

variable {h : Throttle} {T : Nat} {s : Shared} {flying : Nat}

/-- A later reading of the clock and fewer handlers in flight only help. -/
theorem Counts.later {bucket : Bucket} {n flying' : Nat} {s' : Shared}
    (hc : Counts h T s flying bucket n) (hclock : s.clock ≤ s'.clock) (hfly : flying' ≤ flying) :
    Counts h T s' flying' bucket n := by
  refine ⟨hc.pos, hc.fits, hc.count, ?_⟩
  intro hlive hmax
  have hroom := hc.room (by omega) hmax
  omega

/-- A call on another key sweeps this one's bucket or leaves it. -/
theorem Fits.other (hs : Fits h T s flying) {call : Call} (hkey : call.key ≠ h.key)
    (hclock : s.clock ≤ call.time) :
    Fits h T { s with limiter := s.limiter.after call, clock := call.time } flying := by
  have hbucket : ∀ bucket, (s.limiter.after call).bucket? h.key = some bucket →
      s.limiter.bucket? h.key = some bucket := by
    intro bucket hb
    cases call with
    | fIsLimited ip kind max window now => exact hb
    | fRecord ip kind window now =>
        have hne : h.key ≠ (ip, kind) := fun heq => hkey heq.symm
        rw [after, bucket?_fRecord hs.keyed, if_neg hne] at hb
        exact (Option.filter_eq_some_iff.mp hb).1
  refine ⟨?_, hs.flying_le, hs.windows_le, ?_⟩
  · cases call with
    | fIsLimited ip kind max window now => exact hs.keyed
    | fRecord ip kind window now => exact hs.keyed.fRecord ip kind window now
  · intro bucket hb
    obtain ⟨n, older, hwindows, hcounts⟩ := hs.current bucket (hbucket bucket hb)
    exact ⟨n, older, hwindows, hcounts.later hclock (Nat.le_refl _)⟩

/-- A check that refuses lets nobody in. -/
theorem Fits.refuse (hs : Fits h T s flying) {now : Int} (hclock : s.clock ≤ now) :
    Fits h T { s with clock := now } flying := by
  refine ⟨hs.keyed, hs.flying_le, hs.windows_le, ?_⟩
  intro bucket hb
  obtain ⟨n, older, hwindows, hcounts⟩ := hs.current bucket hb
  exact ⟨n, older, hwindows, hcounts.later hclock (Nat.le_refl _)⟩

/-- A check that passes lets one in: the bucket is below its limit, expired or
has wrapped around. -/
theorem Fits.pass (hs : Fits h T s flying) {now : Int}
    (hpass : h.limited s now = false) (hfly : flying + 1 ≤ T) :
    Fits h T { s with clock := now } (flying + 1) := by
  refine ⟨hs.keyed, hfly, hs.windows_le, ?_⟩
  intro bucket hb
  obtain ⟨n, older, hwindows, hcounts⟩ := hs.current bucket hb
  refine ⟨n, older, hwindows, hcounts.pos, hcounts.fits, hcounts.count, ?_⟩
  intro hlive hmax
  -- A live bucket at its limit passes the check only when its counter wrapped.
  have hbelow : ¬ h.max ≤ bucket.count := by
    intro hcount
    have hlimited : h.limited s now = true := by
      rw [Throttle.limited, fIsLimited_eq, limited_eq_true_iff]
      exact ⟨bucket, hb, hlive, hcount⟩
    rw [hpass] at hlimited
    cases hlimited
  rw [UInt32.le_iff_toNat_le, hcounts.count] at hbelow
  have hle := hs.windows_le n (hwindows ▸ List.mem_cons_self)
  have hfits := hcounts.fits
  right
  omega

/-- Leaving without a hit. -/
theorem Fits.leave (hs : Fits h T s (flying + 1)) : Fits h T s flying := by
  refine ⟨hs.keyed, Nat.le_of_succ_le hs.flying_le, hs.windows_le, ?_⟩
  intro bucket hb
  obtain ⟨n, older, hwindows, hcounts⟩ := hs.current bucket hb
  exact ⟨n, older, hwindows, hcounts.later (Int.le_refl _) (Nat.le_succ _)⟩

theorem bucket?_recordHit (hs : s.limiter.Keyed) (now : Int) :
    (h.recordHit s now).limiter.bucket? h.key = some (hit (h.found s now) h.window now) := by
  have hrecord := bucket?_fRecord hs h.ip h.kind h.window now h.key
  rw [if_pos (show h.key = (h.ip, h.kind) from rfl)] at hrecord
  exact hrecord

/-- A hit in a fresh window. -/
theorem Fits.open_ (hs : Fits h T s (flying + 1)) {now : Int}
    (hopens : opens (h.found s now) h.window now = true) :
    Fits h T (h.recordHit s now) flying := by
  have hfly := hs.flying_le
  have hwindows : (h.recordHit s now).windows = 1 :: s.windows := if_pos hopens
  refine ⟨hs.keyed.fRecord .., by omega, ?_, ?_⟩
  · intro n hn
    rw [hwindows] at hn
    rcases List.mem_cons.mp hn with rfl | hn
    · unfold ceiling
      omega
    · exact hs.windows_le n hn
  · intro bucket hb
    rw [bucket?_recordHit hs.keyed, hit_of_opens hopens, Option.some.injEq] at hb
    subst hb
    refine ⟨1, s.windows, hwindows, Nat.le_refl _, by decide, rfl, ?_⟩
    intro _ _
    left
    unfold ceiling
    omega

/-- The bucket a hit continues is the one in the map, neither expired nor
wrapped around. -/
theorem found_of_not_opens {now : Int} (hopens : ¬ opens (h.found s now) h.window now = true) :
    ∃ bucket, s.limiter.bucket? h.key = some bucket ∧ h.found s now = some bucket ∧
      bucket.count ≠ 0 ∧ now - bucket.start < h.window := by
  cases hfound : h.found s now with
  | none => simp [hfound, opens] at hopens
  | some bucket =>
      have hin : s.limiter.bucket? h.key = some bucket :=
        (Option.filter_eq_some_iff.mp hfound).1
      simp only [hfound, opens, Bool.not_eq_true, decide_eq_false_iff_not, not_or] at hopens
      exact ⟨bucket, hin, rfl, hopens.1, by omega⟩

/-- One more in 32 bits. -/
theorem toNat_succ {count : UInt32} {n : Nat} (hcount : count.toNat = n % 2 ^ 32) :
    (count + 1).toNat = (n + 1) % 2 ^ 32 := by
  rw [UInt32.toNat_add, hcount]
  show (n % 2 ^ 32 + 1) % 2 ^ 32 = (n + 1) % 2 ^ 32
  omega

/-- A hit in the current window. -/
theorem Fits.continue_ (hs : Fits h T s (flying + 1)) (hmax : 1 ≤ h.max.toNat) {now : Int}
    (hclock : s.clock ≤ now) (hopens : ¬ opens (h.found s now) h.window now = true) :
    Fits h T (h.recordHit s now) flying := by
  obtain ⟨bucket, hin, hfound, hcount, hlive⟩ := found_of_not_opens hopens
  obtain ⟨n, older, hwindows, hcounts⟩ := hs.current bucket hin
  have hfly := hs.flying_le
  have hfits := hcounts.fits
  have hnot : n ≠ 2 ^ 32 := by
    rintro rfl
    apply hcount
    rw [← UInt32.toNat_inj, hcounts.count]
    rfl
  have hroom : h.max.toNat ≤ n → n + (flying + 1) ≤ ceiling h T ∨ 2 ^ 32 ≤ ceiling h T :=
    hcounts.room (by omega)
  have hceiling : ceiling h T = h.max.toNat - 1 + T := rfl
  have hafter : (h.recordHit s now).windows = (n + 1) :: older := by
    have hsame : h.countHit s now = s.windows.modifyHead (· + 1) := if_neg hopens
    rw [Throttle.recordHit, hsame, hwindows]
    rfl
  refine ⟨hs.keyed.fRecord .., by omega, ?_, ?_⟩
  · intro m hm
    rw [hafter] at hm
    rcases List.mem_cons.mp hm with rfl | hm
    · omega
    · exact hs.windows_le m (hwindows ▸ List.mem_cons_of_mem _ hm)
  · intro bucket' hb
    rw [bucket?_recordHit hs.keyed, hfound,
      hit_of_not_opens (by simpa [hfound] using hopens), Option.some.injEq] at hb
    subst hb
    refine ⟨n + 1, older, hafter, by omega, by omega, toNat_succ hcounts.count, ?_⟩
    intro _ _
    omega

theorem Fits.record (hs : Fits h T s (flying + 1)) (hmax : 1 ≤ h.max.toNat) {now : Int}
    (hclock : s.clock ≤ now) : Fits h T (h.recordHit s now) flying := by
  by_cases hopens : opens (h.found s now) h.window now = true
  · exact hs.open_ hopens
  · exact hs.continue_ hmax hclock hopens

end Steps

/-! ## Runs -/

section Runs

variable {h : Throttle} {T : Nat} {a : Action Arrival Choice} {p p' : Pool Shared Job}

/-- **What one action does** to the state and to the handlers in flight. -/
inductive Move (h : Throttle) (p p' : Pool Shared Job) : Prop
  | arrive (hstate : p'.state = p.state) (hfly : inFlight p' = inFlight p)
  | other (call : Call) (hkey : call.key ≠ h.key) (hclock : p.state.clock ≤ call.time)
      (hstate : p'.state = ⟨p.state.limiter.after call, call.time, p.state.windows⟩)
      (hfly : inFlight p' = inFlight p)
  | refuse (now : Int) (hclock : p.state.clock ≤ now)
      (hstate : p'.state = { p.state with clock := now }) (hfly : inFlight p' = inFlight p)
  | pass (now : Int) (hclock : p.state.clock ≤ now) (hpass : h.limited p.state now = false)
      (hstate : p'.state = { p.state with clock := now }) (hfly : inFlight p' = inFlight p + 1)
  | record (now : Int) (hclock : p.state.clock ≤ now) (hstate : p'.state = h.recordHit p.state now)
      (hfly : inFlight p' + 1 = inFlight p)
  | leave (hstate : p'.state = p.state) (hfly : inFlight p' + 1 = inFlight p)

theorem inFlight_enter (p : Pool Shared Job) (s : Shared) {jobs : List Job}
    (hjobs : jobs.countP (fun job => job = .record) = 0) :
    inFlight ⟨s, p.threads ++ [jobs]⟩ = inFlight p := by
  unfold inFlight
  rw [Machine.countP_enter, hjobs, Nat.add_zero]

theorem move_of_step (hstep : h.machine.step a p = some p') : Move h p p' := by
  rcases Machine.step_cases hstep with
    ⟨arrival, s, jobs, _, henter, rfl⟩ |
    ⟨before, job, rest, after, choice, s, jobs, _, hthreads, hperform, rfl⟩
  · cases arrival with
    | handler =>
        cases henter
        exact .arrive rfl (inFlight_enter p _ rfl)
    | other call =>
        simp only [Throttle.machine] at henter
        split at henter
        · rename_i hguard
          cases henter
          exact .other call hguard.1 hguard.2 rfl (inFlight_enter p _ rfl)
        · cases henter
  · have hcount := Machine.countP_run (fun job => decide (job = Job.record)) hthreads s jobs
    cases job with
    | check =>
        cases choice with
        | leave => cases hperform
        | «at» now =>
            simp only [Throttle.machine] at hperform
            split at hperform
            · rename_i hclock
              simp only [Option.some.injEq, Prod.mk.injEq] at hperform
              obtain ⟨hs, hjobs⟩ := hperform
              cases hlimited : h.limited p.state now with
              | true =>
                  rw [hlimited, if_pos rfl] at hjobs
                  rw [← hjobs] at hcount ⊢
                  exact .refuse now hclock hs.symm (by simpa [inFlight] using hcount)
              | false =>
                  rw [hlimited, if_neg Bool.false_ne_true] at hjobs
                  rw [← hjobs] at hcount ⊢
                  exact .pass now hclock hlimited hs.symm (by simpa [inFlight] using hcount)
            · cases hperform
    | record =>
        cases choice with
        | leave =>
            cases hperform
            exact .leave rfl (by simpa [inFlight] using hcount)
        | «at» now =>
            simp only [Throttle.machine] at hperform
            split at hperform
            · rename_i hclock
              simp only [Option.some.injEq, Prod.mk.injEq] at hperform
              obtain ⟨hs, hjobs⟩ := hperform
              rw [← hjobs] at hcount ⊢
              exact .record now hclock hs.symm (by simpa [inFlight] using hcount)
            · cases hperform

theorem Fits.move (hmax : 1 ≤ h.max.toNat) (hs : Fits h T p.state (inFlight p))
    (hmove : Move h p p') (hT : inFlight p' ≤ T) : Fits h T p'.state (inFlight p') := by
  cases hmove with
  | arrive hstate hfly =>
      rw [hstate, hfly]
      exact hs
  | other call hkey hclock hstate hfly =>
      rw [hstate, hfly]
      exact hs.other hkey hclock
  | refuse now hclock hstate hfly =>
      rw [hstate, hfly]
      exact hs.refuse hclock
  | pass now hclock hpass hstate hfly =>
      rw [hstate, hfly]
      exact hs.pass hpass (hfly ▸ hT)
  | record now hclock hstate hfly =>
      rw [← hfly] at hs
      rw [hstate]
      exact hs.record hmax hclock
  | leave hstate hfly =>
      rw [← hfly] at hs
      rw [hstate]
      exact hs.leave

theorem fits_fresh (hp : Fresh p) : Fits h T p.state (inFlight p) := by
  obtain ⟨hlimiter, hwindows, hthreads⟩ := hp
  have hfly : inFlight p = 0 := by simp [inFlight, Pool.jobs, hthreads]
  refine ⟨hlimiter ▸ keyed_empty, hfly ▸ Nat.zero_le T, ?_, ?_⟩
  · simp [hwindows]
  · intro bucket hb
    rw [hlimiter, bucket?_empty] at hb
    cases hb

theorem fits_reachable (hmax : 1 ≤ h.max.toNat)
    (hp : Machine.Reachable h.machine (AtMost h T) Fresh p) : Fits h T p.state (inFlight p) := by
  refine hp.invariant (fun q hq => fits_fresh hq) ?_
  intro a q q' hq hok hstep
  exact hq.move hmax (move_of_step hstep) (hok q' hstep)

/-- From the moment a bucket is at its limit: its window is over, or it is still
there and still at the limit. -/
def Blocked (h : Throttle) (start : Int) (s : Shared) : Prop :=
  start + h.window ≤ s.clock ∨
    ∃ bucket, s.limiter.bucket? h.key = some bucket ∧ bucket.start = start ∧ h.max ≤ bucket.count

/-- A bucket whose window is not over survives every sweep. -/
theorem filter_survives_of_live (hwindow : h.window ≤ cMaxWindow) {bucket : Bucket} {now : Int}
    (hlive : now < bucket.start + h.window) :
    (some bucket).filter (survives now) = some bucket := by
  have hage : now - bucket.start < cMaxWindow := by omega
  simp [Option.filter, survives, hage]

/-- A hit on a bucket at its limit keeps it there, as long as its counter does
not wrap around. -/
theorem Blocked.record (hmax : 1 ≤ h.max.toNat) (hwindow : h.window ≤ cMaxWindow) {start : Int}
    {s : Shared} {flying : Nat} (hb : Blocked h start s) (hs : Fits h T s (flying + 1)) {now : Int}
    (hclock : s.clock ≤ now) (hafter : Fits h T (h.recordHit s now) flying)
    (hnarrow : ceiling h T < 2 ^ 32) : Blocked h start (h.recordHit s now) := by
  by_cases hover : start + h.window ≤ now
  · exact Or.inl hover
  · rcases hb with hpast | ⟨bucket, hin, rfl, hcount⟩
    · exact absurd (Int.le_trans hpast hclock) hover
    · have hfound : h.found s now = some bucket := by
        rw [Throttle.found, hin]
        exact filter_survives_of_live hwindow (by omega)
      have hopens : opens (some bucket) h.window now = false := by
        have hlive : ¬ now - bucket.start ≥ h.window := by omega
        have hzero : bucket.count ≠ 0 := by
          rintro hzero
          rw [hzero, UInt32.le_iff_toNat_le] at hcount
          exact absurd (Nat.le_trans hmax hcount) (by decide)
        simp [opens, hlive, hzero]
      have hbucket := bucket?_recordHit (h := h) hs.keyed now
      rw [hfound, hit_of_not_opens hopens] at hbucket
      right
      refine ⟨_, hbucket, rfl, ?_⟩
      -- Both counters are the true numbers of hits, so the new one is larger.
      obtain ⟨n, older, hwindows, hn⟩ := hs.current bucket hin
      obtain ⟨m, _, hwindows', hm⟩ := hafter.current _ hbucket
      have hle := hs.windows_le n (hwindows ▸ List.mem_cons_self)
      have hle' := hafter.windows_le m (hwindows' ▸ List.mem_cons_self)
      have hsucc := toNat_succ hn.count
      have hwrap : (n + 1) % 2 ^ 32 = m % 2 ^ 32 := hsucc.symm.trans hm.count
      have hpos := hm.pos
      have hnat := hn.count
      rw [UInt32.le_iff_toNat_le] at hcount ⊢
      show h.max.toNat ≤ (bucket.count + 1).toNat
      omega

theorem Blocked.move (hmax : 1 ≤ h.max.toNat) (hwindow : h.window ≤ cMaxWindow) {start : Int}
    (hb : Blocked h start p.state) (hs : Fits h T p.state (inFlight p)) (hmove : Move h p p')
    (hT : inFlight p' ≤ T) (hnarrow : ceiling h T < 2 ^ 32) : Blocked h start p'.state := by
  have hafter := hs.move hmax hmove hT
  cases hmove with
  | arrive hstate hfly =>
      rw [hstate]
      exact hb
  | other call hkey hclock hstate hfly =>
      rw [hstate]
      by_cases hover : start + h.window ≤ call.time
      · exact Or.inl hover
      · rcases hb with hpast | ⟨bucket, hin, rfl, hcount⟩
        · exact absurd (Int.le_trans hpast hclock) hover
        · refine Or.inr ⟨bucket, ?_, rfl, hcount⟩
          cases call with
          | fIsLimited ip kind max window now => exact hin
          | fRecord ip kind window now =>
              have hne : h.key ≠ (ip, kind) := fun heq => hkey heq.symm
              show (p.state.limiter.fRecord ip kind window now).bucket? h.key = some bucket
              rw [bucket?_fRecord hs.keyed, if_neg hne, hin]
              exact filter_survives_of_live hwindow (by simpa [Call.time] using hover)
  | refuse now hclock hstate hfly =>
      rw [hstate]
      exact hb.imp_left (fun hpast => Int.le_trans hpast hclock)
  | pass now hclock hpass hstate hfly =>
      rw [hstate]
      exact hb.imp_left (fun hpast => Int.le_trans hpast hclock)
  | record now hclock hstate hfly =>
      rw [← hfly] at hs
      rw [hstate] at hafter ⊢
      exact hb.record hmax hwindow hs hclock hafter hnarrow
  | leave hstate hfly =>
      rw [hstate]
      exact hb

theorem Blocked.limited {start : Int} {s : Shared} (hb : Blocked h start s) {now : Int}
    (hclock : s.clock ≤ now) (hwithin : now < start + h.window) : h.limited s now = true := by
  rcases hb with hpast | ⟨bucket, hin, rfl, hcount⟩
  · omega
  · rw [Throttle.limited, fIsLimited_eq, limited_eq_true_iff]
    exact ⟨bucket, hin, by omega, hcount⟩

/-- **The limit under concurrency.**  With at most `T` handlers in flight, no
bucket window gets more than `max - 1 + T` hits, in any interleaving with each
other and with calls on other keys.  When that many fit into the 32-bit
counter, the counter is exact, and once a check has refused, every later check
before the end of that bucket's window refuses too. -/
theorem hits_bounded (h : Throttle) (hmax : 1 ≤ h.max.toNat) (hwindow : h.window ≤ cMaxWindow)
    (T : Nat) {p : Pool Shared Job} (hp : Machine.Reachable h.machine (AtMost h T) Fresh p) :
    (∀ n ∈ p.state.windows, n ≤ h.max.toNat - 1 + T) ∧
    (h.max.toNat - 1 + T < 2 ^ 32 →
      (∀ bucket, p.state.limiter.bucket? h.key = some bucket →
        p.state.windows.head? = some bucket.count.toNat) ∧
      ∀ now, p.state.clock ≤ now →
        p.state.limiter.fIsLimited h.ip h.kind h.max h.window now = true →
        ∃ bucket, p.state.limiter.bucket? h.key = some bucket ∧
          ∀ p', Machine.Reachable h.machine (AtMost h T) (fun q => q = p) p' →
            ∀ later, p'.state.clock ≤ later → later < bucket.start + h.window →
              p'.state.limiter.fIsLimited h.ip h.kind h.max h.window later = true) := by
  have hfits := fits_reachable hmax hp
  refine ⟨hfits.windows_le, fun hnarrow => ⟨?_, ?_⟩⟩
  · intro bucket hb
    obtain ⟨n, older, hwindows, hcounts⟩ := hfits.current bucket hb
    have hle : n ≤ ceiling h T := hfits.windows_le n (hwindows ▸ List.mem_cons_self)
    have hlt : n < 2 ^ 32 := Nat.lt_of_le_of_lt hle hnarrow
    rw [hwindows, hcounts.count, Nat.mod_eq_of_lt hlt]
    rfl
  · intro now _ hlimited
    rw [fIsLimited_eq, limited_eq_true_iff] at hlimited
    obtain ⟨bucket, hin, _, hcount⟩ := hlimited
    refine ⟨bucket, hin, fun p' hp' later hlater hwithin => ?_⟩
    have hboth : Fits h T p'.state (inFlight p') ∧ Blocked h bucket.start p'.state := by
      refine hp'.invariant
        (I := fun q => Fits h T q.state (inFlight q) ∧ Blocked h bucket.start q.state) ?_ ?_
      · rintro q rfl
        exact ⟨hfits, Or.inr ⟨bucket, hin, rfl, hcount⟩⟩
      · intro a q q' hq hok hstep
        have hmove := move_of_step hstep
        have hT := hok q' hstep
        exact ⟨hq.1.move hmax hmove hT, hq.2.move hmax hwindow hq.1 hmove hT hnarrow⟩
    exact hboth.2.limited hlater hwithin

end Runs

/-- One attempt an hour. -/
def oneAnHour : Throttle := ⟨str "a", str "login-fail", 1, cMaxWindow⟩

/-- Two handlers check before either counts. -/
def bothAdmitted : Pool Shared Job :=
  (oneAnHour.machine.execAllowed (AtMost oneAnHour 2)
    [.enter .handler, .enter .handler, .run 0 (.at 0), .run 1 (.at 0), .run 0 (.at 1),
      .run 1 (.at 2)] ⟨⟨empty, 0, []⟩, []⟩).getD ⟨⟨empty, 0, []⟩, []⟩

/-- The bucket gets two hits at a limit of one, and blocks from then on. -/
theorem hits_bounded_bothAdmitted :
    bothAdmitted.state.windows = [2] ∧ (∀ n ∈ bothAdmitted.state.windows, n ≤ 2) ∧
      ∃ bucket, bothAdmitted.state.limiter.bucket? (str "a", str "login-fail") = some bucket ∧
        ∀ later, 2 ≤ later → later < bucket.start + cMaxWindow →
          bothAdmitted.state.limiter.fIsLimited (str "a") (str "login-fail") 1 cMaxWindow later =
            true := by
  have hp : Machine.Reachable oneAnHour.machine (AtMost oneAnHour 2) Fresh bothAdmitted :=
    Machine.Reachable.execAllowed_getD (.start ⟨rfl, rfl, rfl⟩)
  obtain ⟨hwindows, hexact⟩ := hits_bounded oneAnHour (by decide) (Int.le_refl _) 2 hp
  obtain ⟨_, hblocks⟩ := hexact (by decide)
  obtain ⟨bucket, hin, hlater⟩ := hblocks 2 (by decide +kernel) (by decide +kernel)
  refine ⟨by decide +kernel, hwindows, bucket, hin, ?_⟩
  intro later hclock hwithin
  exact hlater bothAdmitted (.start rfl) later hclock hwithin

end RateLimiter

end Lectern
