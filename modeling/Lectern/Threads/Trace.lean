import Lectern.Threads.Pool

/-!
# Observed runs

An observer looks at every action before it is done and writes down what it
sees, the latest first.  What it writes is not part of the state, so the same
machine can be observed in several ways.
-/

namespace Threads

namespace Machine

variable {σ J E C O : Type}

/-- The pools of a run, with what the observer has written down on the way. -/
inductive Observed (m : Machine σ J E C) (see : Action E C → Pool σ J → List O)
    (ok : Action E C → Pool σ J → Prop) (start : Pool σ J → Prop) : Pool σ J → List O → Prop
  | start {p : Pool σ J} (h : start p) : Observed m see ok start p []
  | step {p p' : Pool σ J} {seen : List O} (a : Action E C)
      (hp : Observed m see ok start p seen) (hok : ok a p) (h : m.step a p = some p') :
      Observed m see ok start p' (see a p ++ seen)

variable {m : Machine σ J E C} {see : Action E C → Pool σ J → List O}
  {ok : Action E C → Pool σ J → Prop} {start : Pool σ J → Prop} {p : Pool σ J} {seen : List O}

/-- Observing does not disturb. -/
theorem Observed.reachable (h : Observed m see ok start p seen) : Reachable m ok start p := by
  induction h with
  | start hp => exact .start hp
  | step a _ hok hstep ih => exact .step a ih hok hstep

/-- What holds at the start with nothing written down, and is preserved by every
allowed action together with what is seen of it, holds along the run. -/
theorem Observed.invariant {I : Pool σ J → List O → Prop} (hstart : ∀ p, start p → I p [])
    (hstep : ∀ a p p' seen, Reachable m ok start p → I p seen → ok a p → m.step a p = some p' →
      I p' (see a p ++ seen))
    (h : Observed m see ok start p seen) : I p seen := by
  induction h with
  | start hp => exact hstart _ hp
  | step a hp hok hstep' ih => exact hstep a _ _ _ hp.reachable ih hok hstep'

/-- Do the actions one after the other, each where it is allowed, and observe. -/
def execSeen (m : Machine σ J E C) (see : Action E C → Pool σ J → List O)
    (ok : Action E C → Pool σ J → Prop) [∀ a p, Decidable (ok a p)] :
    List (Action E C) → Pool σ J → List O → Option (Pool σ J × List O)
  | [], p, seen => some (p, seen)
  | a :: as, p, seen =>
      if ok a p then
        (m.step a p).bind (fun p' => m.execSeen see ok as p' (see a p ++ seen))
      else none

theorem Observed.execSeen [∀ a p, Decidable (ok a p)] {as : List (Action E C)} {p' : Pool σ J}
    {seen' : List O} (hp : Observed m see ok start p seen)
    (h : m.execSeen see ok as p seen = some (p', seen')) : Observed m see ok start p' seen' := by
  induction as generalizing p seen with
  | nil =>
      cases h
      exact hp
  | cons a as ih =>
      rw [Machine.execSeen] at h
      by_cases hok : ok a p
      · rw [if_pos hok] at h
        obtain ⟨q, hstep, hrest⟩ := Option.bind_eq_some_iff.mp h
        exact ih (.step a hp hok hstep) hrest
      · rw [if_neg hok] at h
        cases h

theorem Observed.execSeen_getD [∀ a p, Decidable (ok a p)] {as : List (Action E C)}
    (hp : Observed m see ok start p seen) :
    Observed m see ok start ((m.execSeen see ok as p seen).getD (p, seen)).1
      ((m.execSeen see ok as p seen).getD (p, seen)).2 := by
  cases h : m.execSeen see ok as p seen with
  | none => exact hp
  | some found => exact hp.execSeen h

end Machine

end Threads
