import Lectern.RateLimiter.Buckets

/-!
# Eviction cannot be observed

The abstract limiter keeps a bucket per key for ever.  A run of calls on it and
on the code's are compared step by step: the code's map has the same bucket, or
it has dropped one that every check and every hit treats as expired
(`Agrees`).  Windows may be as long as the age at which buckets are dropped.
-/

namespace Lectern

namespace RateLimiter

/-! ## Calls -/

inductive Call where
  | fIsLimited (ip kind : Str) (max : UInt32) (window now : Int)
  | fRecord (ip kind : Str) (window now : Int)
  deriving DecidableEq, Repr

namespace Call

def key : Call → Str × Str
  | fIsLimited ip kind .. => (ip, kind)
  | fRecord ip kind .. => (ip, kind)

def window : Call → Int
  | fIsLimited _ _ _ window _ => window
  | fRecord _ _ window _ => window

def time : Call → Int
  | fIsLimited _ _ _ _ now => now
  | fRecord _ _ _ now => now

end Call

/-- The limiter after a call. -/
def after (limiter : RateLimiter) : Call → RateLimiter
  | .fIsLimited .. => limiter
  | .fRecord ip kind window now => limiter.fRecord ip kind window now

/-- What a call answers: a check its verdict, under the key it asked about. -/
def answer (limiter : RateLimiter) : Call → List ((Str × Str) × Bool)
  | .fIsLimited ip kind max window now =>
      [((ip, kind), limiter.fIsLimited ip kind max window now)]
  | .fRecord .. => []

/-- The answers of a run of calls. -/
def answers : RateLimiter → List Call → List ((Str × Str) × Bool)
  | _, [] => []
  | limiter, call :: calls => limiter.answer call ++ answers (limiter.after call) calls

/-! ## The limiter that never evicts -/

/-- A bucket for every key that was ever hit. -/
abbrev Forever := Str × Str → Option Bucket

namespace Forever

def after (all : Forever) : Call → Forever
  | .fIsLimited .. => all
  | .fRecord ip kind window now => fun key =>
      if key = (ip, kind) then some (hit (all (ip, kind)) window now) else all key

theorem after_fRecord (all : Forever) (ip kind : Str) (window now : Int) (key : Str × Str) :
    all.after (.fRecord ip kind window now) key =
      if key = (ip, kind) then some (hit (all (ip, kind)) window now) else all key := rfl

def answer (all : Forever) : Call → List ((Str × Str) × Bool)
  | .fIsLimited ip kind max window now =>
      [((ip, kind), limited (all (ip, kind)) max window now)]
  | .fRecord .. => []

def answers : Forever → List Call → List ((Str × Str) × Bool)
  | _, [] => []
  | all, call :: calls => all.answer call ++ answers (all.after call) calls

/-- The answers about one key depend on its own calls only. -/
theorem answers_filter (key : Str × Str) (calls : List Call) (all own : Forever)
    (h : all key = own key) :
    (all.answers calls).filter (fun a => a.1 = key) =
      own.answers (calls.filter (fun call => call.key = key)) := by
  induction calls generalizing all own with
  | nil => rfl
  | cons call calls ih =>
      rw [answers, List.filter_append]
      by_cases hkey : call.key = key
      · have hanswer : (all.answer call).filter (fun a => a.1 = key) = own.answer call := by
          cases call with
          | fIsLimited ip kind max window now =>
              have hself : (ip, kind) = key := hkey
              simp [answer, hself, h]
          | fRecord ip kind window now => rfl
        have hafter : all.after call key = own.after call key := by
          cases call with
          | fIsLimited ip kind max window now => exact h
          | fRecord ip kind window now =>
              have hself : (ip, kind) = key := hkey
              simp [after, hself, h]
        have hkept : (call :: calls).filter (fun c => c.key = key) =
            call :: calls.filter (fun c => c.key = key) := by
          simp [hkey]
        rw [hkept, answers, hanswer, ih _ _ hafter]
      · have hanswer : (all.answer call).filter (fun a => a.1 = key) = [] := by
          cases call with
          | fIsLimited ip kind max window now =>
              have hother : (ip, kind) ≠ key := hkey
              simp [answer, hother]
          | fRecord ip kind window now => rfl
        have hafter : all.after call key = own key := by
          cases call with
          | fIsLimited ip kind max window now => exact h
          | fRecord ip kind window now =>
              have hother : key ≠ (ip, kind) := fun heq => hkey heq.symm
              simp [after, hother, h]
        have hdropped : (call :: calls).filter (fun c => c.key = key) =
            calls.filter (fun c => c.key = key) := by
          simp [hkey]
        rw [hdropped, hanswer, List.nil_append, ih _ _ hafter]

end Forever

/-! ## The simulation -/

/-- What the code's map may have lost by the time `now`. -/
def Lost (now : Int) (found : Option Bucket) : Prop :=
  ∃ bucket, found = some bucket ∧ now - bucket.start ≥ cMaxWindow

/-- Key by key the two limiters have the same bucket, or the code has evicted
it. -/
structure Agrees (now : Int) (limiter : RateLimiter) (all : Forever) : Prop where
  keyed : limiter.Keyed
  same : ∀ key, limiter.bucket? key = all key ∨ limiter.bucket? key = none ∧ Lost now (all key)

theorem agrees_empty (now : Int) : Agrees now empty (fun _ => none) :=
  ⟨keyed_empty, fun _ => Or.inl rfl⟩

theorem Agrees.later {now later : Int} {limiter : RateLimiter} {all : Forever}
    (h : Agrees now limiter all) (hlater : now ≤ later) : Agrees later limiter all := by
  refine ⟨h.keyed, fun key => (h.same key).imp_right ?_⟩
  rintro ⟨hnone, bucket, hfound, hage⟩
  exact ⟨hnone, bucket, hfound, by omega⟩

/-- A lost bucket is treated like none at all. -/
theorem limited_of_lost {now window : Int} {found : Option Bucket} (hwindow : window ≤ cMaxWindow)
    (h : Lost now found) (max : UInt32) : limited found max window now = false := by
  obtain ⟨bucket, rfl, hage⟩ := h
  have hold : now - bucket.start ≥ window := by omega
  simp [limited, hold]

theorem hit_of_lost {now window : Int} {found : Option Bucket} (hwindow : window ≤ cMaxWindow)
    (h : Lost now found) : hit found window now = hit none window now := by
  obtain ⟨bucket, rfl, hage⟩ := h
  have hopens : opens (some bucket) window now = true := by
    have hold : now - bucket.start ≥ window := by omega
    simp [opens, hold]
  rw [hit_of_opens hopens, hit_of_opens rfl]

/-- What a sweep leaves of a bucket, it leaves whole. -/
theorem filter_survives (now : Int) (found : Option Bucket) :
    found.filter (survives now) = found ∨
      found.filter (survives now) = none ∧ Lost now found := by
  cases found with
  | none => exact Or.inl rfl
  | some bucket =>
      by_cases hage : now - bucket.start < cMaxWindow
      · left
        simp [Option.filter, survives, hage]
      · right
        refine ⟨?_, bucket, rfl, by omega⟩
        simp [Option.filter, survives, hage]

theorem Agrees.swept {now : Int} {limiter : RateLimiter} {all : Forever}
    (h : Agrees now limiter all) (key : Str × Str) :
    (limiter.bucket? key).filter (survives now) = all key ∨
      (limiter.bucket? key).filter (survives now) = none ∧ Lost now (all key) := by
  rcases h.same key with hsame | ⟨hnone, hlost⟩
  · rw [hsame]
    exact filter_survives now (all key)
  · rw [hnone]
    exact Or.inr ⟨rfl, hlost⟩

/-- One call: the same answer, and the limiters still agree. -/
theorem Agrees.call {limiter : RateLimiter} {all : Forever} {call : Call}
    (h : Agrees call.time limiter all) (hwindow : call.window ≤ cMaxWindow) :
    limiter.answer call = all.answer call ∧
      Agrees call.time (limiter.after call) (all.after call) := by
  cases call with
  | fIsLimited ip kind max window now =>
      refine ⟨?_, h⟩
      simp only [Call.time, Call.window] at h hwindow
      have hsame : limited (limiter.bucket? (ip, kind)) max window now =
          limited (all (ip, kind)) max window now := by
        rcases h.same (ip, kind) with hsame | ⟨hnone, hlost⟩
        · rw [hsame]
        · rw [hnone, limited_of_lost hwindow hlost]
          rfl
      rw [answer, Forever.answer, fIsLimited_eq, hsame]
  | fRecord ip kind window now =>
      refine ⟨rfl, h.keyed.fRecord ip kind window now, ?_⟩
      intro key
      simp only [Call.time, Call.window] at h hwindow ⊢
      rw [after, bucket?_fRecord h.keyed, Forever.after_fRecord]
      by_cases hkey : key = (ip, kind)
      · have hhit : hit ((limiter.bucket? (ip, kind)).filter (survives now)) window now =
            hit (all (ip, kind)) window now := by
          rcases h.swept (ip, kind) with hsame | ⟨hnone, hlost⟩
          · rw [hsame]
          · rw [hnone, hit_of_lost hwindow hlost]
        left
        rw [if_pos hkey, if_pos hkey, hhit]
      · rw [if_neg hkey, if_neg hkey]
        exact h.swept key

/-- A run: the same answers throughout. -/
theorem Agrees.run {calls : List Call} {limiter : RateLimiter} {all : Forever} {now : Int}
    (h : Agrees now limiter all) (hnow : ∀ call ∈ calls, now ≤ call.time)
    (hclock : calls.Pairwise (fun a b => a.time ≤ b.time))
    (hwindows : ∀ call ∈ calls, call.window ≤ cMaxWindow) :
    limiter.answers calls = all.answers calls := by
  induction calls generalizing limiter all now with
  | nil => rfl
  | cons call calls ih =>
      obtain ⟨hfirst, hrest⟩ := List.pairwise_cons.mp hclock
      have hlater := h.later (hnow call List.mem_cons_self)
      obtain ⟨hanswer, hafter⟩ := hlater.call (hwindows call List.mem_cons_self)
      have htail := ih hafter hfirst hrest
        (fun c hc => hwindows c (List.mem_cons_of_mem _ hc))
      rw [answers, Forever.answers, hanswer, htail]

/-- The code answers like the limiter that never evicts. -/
theorem answers_eq_forever {calls : List Call}
    (hclock : calls.Pairwise (fun a b => a.time ≤ b.time))
    (hwindows : ∀ call ∈ calls, call.window ≤ cMaxWindow) :
    empty.answers calls = Forever.answers (fun _ => none) calls := by
  cases calls with
  | nil => rfl
  | cons call calls =>
      have hfirst := (List.pairwise_cons.mp hclock).1
      refine (agrees_empty call.time).run ?_ hclock hwindows
      intro c hc
      rcases List.mem_cons.mp hc with rfl | hc
      · exact Int.le_refl _
      · exact hfirst c hc

/-- **Eviction is unobservable.**  Over any run of calls with windows of at most
an hour and a clock that does not go back, a limiter that sweeps answers every
check as one that keeps every bucket for ever; so what it answers about one key
is what it would answer had no other key ever been used. -/
theorem eviction_unobservable (windowOf : Str × Str → Int) (calls : List Call)
    (hclock : calls.Pairwise (fun a b => a.time ≤ b.time))
    (hfixed : ∀ call ∈ calls, call.window = windowOf call.key)
    (hmax : ∀ key, windowOf key ≤ cMaxWindow) :
    empty.answers calls = Forever.answers (fun _ => none) calls ∧
    ∀ key, (empty.answers calls).filter (fun a => a.1 = key) =
      empty.answers (calls.filter (fun call => call.key = key)) := by
  have hwindows : ∀ call ∈ calls, call.window ≤ cMaxWindow := fun call hcall =>
    hfixed call hcall ▸ hmax call.key
  refine ⟨answers_eq_forever hclock hwindows, fun key => ?_⟩
  have hown := answers_eq_forever (hclock.filter (fun call => call.key = key))
    (fun call hcall => hwindows call (List.mem_of_mem_filter hcall))
  rw [answers_eq_forever hclock hwindows, hown]
  exact Forever.answers_filter key calls _ _ rfl

/-- Two hits an hour apart: at the second the first bucket is exactly as old as
the longest window. -/
def hourApart : List Call :=
  [.fRecord (str "a") (str "register") cMaxWindow 0,
    .fIsLimited (str "a") (str "register") 1 cMaxWindow (cMaxWindow - 1),
    .fRecord (str "b") (str "register") cMaxWindow cMaxWindow,
    .fIsLimited (str "a") (str "register") 1 cMaxWindow cMaxWindow]

theorem eviction_unobservable_hourApart :
    empty.answers hourApart = Forever.answers (fun _ => none) hourApart ∧
      empty.answers hourApart =
        [((str "a", str "register"), true), ((str "a", str "register"), false)] :=
  ⟨(eviction_unobservable (fun _ => cMaxWindow) hourApart (by decide) (by decide)
    (fun _ => Int.le_refl _)).1, by decide⟩

end RateLimiter

end Lectern
