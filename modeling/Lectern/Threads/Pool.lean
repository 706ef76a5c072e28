import Mathlib.Data.List.Basic
import Mathlib.Data.List.Count
import Mathlib.Tactic.Common

/-!
# Threads over a shared state

A machine has a state that its threads share.  A thread is the list of jobs it
still has to do.  One action either starts a thread or lets one thread do its
next job; a job changes the state and may put further jobs in its own place.
What a job finds and what else decides its outcome (a fault, an answer from
outside) is given by the action, so an arbitrary list of actions is an
arbitrary interleaving.

Facts about runs are proved from facts about single actions: `step_cases` says
everything an action does, `Reachable.invariant` carries an invariant along.
-/

namespace Threads

/-- A shared state and the jobs its threads still have to do.  Threads keep
their number; a thread that is done has no jobs. -/
structure Pool (σ J : Type) where
  state : σ
  threads : List (List J)

/-- Starting a thread with number `i` and doing a job in thread `i`; `none`
when this is not possible now. -/
structure Machine (σ J E C : Type) where
  enter : E → Nat → σ → Option (σ × List J)
  perform : C → Nat → J → σ → Option (σ × List J)

inductive Action (E C : Type) where
  | enter (e : E)
  | run (i : Nat) (c : C)
  deriving Repr

variable {σ J E C : Type}

namespace Pool

/-- All jobs that are still to do. -/
def jobs (p : Pool σ J) : List J := p.threads.flatten

/-- The thread has been started and has nothing left to do. -/
def Done (p : Pool σ J) (i : Nat) : Prop := p.threads[i]? = some []

theorem mem_jobs {p : Pool σ J} {job : J} :
    job ∈ p.jobs ↔ ∃ (i : Nat) (t : List J), p.threads[i]? = some t ∧ job ∈ t := by
  unfold jobs
  rw [List.mem_flatten]
  constructor
  · rintro ⟨t, ht, hjob⟩
    obtain ⟨i, hi⟩ := List.getElem?_of_mem ht
    exact ⟨i, t, hi, hjob⟩
  · rintro ⟨i, t, hi, hjob⟩
    exact ⟨t, List.mem_of_getElem? hi, hjob⟩

end Pool

namespace Machine

variable (m : Machine σ J E C)

def step : Action E C → Pool σ J → Option (Pool σ J)
  | .enter e, p =>
      (m.enter e p.threads.length p.state).map (fun (s, jobs) => ⟨s, p.threads ++ [jobs]⟩)
  | .run i c, p =>
      match p.threads[i]? with
      | some (job :: rest) =>
          (m.perform c i job p.state).map (fun (s, jobs) => ⟨s, p.threads.set i (jobs ++ rest)⟩)
      | _ => none

/-- Do the actions one after the other. -/
def exec : List (Action E C) → Pool σ J → Option (Pool σ J)
  | [], p => some p
  | a :: as, p => (m.step a p).bind (exec as)

variable {m}

/-- **What one action does**: it appends a thread, or it replaces the first job
of one thread. -/
theorem step_cases {a : Action E C} {p p' : Pool σ J} (h : m.step a p = some p') :
    (∃ e s jobs, a = .enter e ∧ m.enter e p.threads.length p.state = some (s, jobs) ∧
      p' = ⟨s, p.threads ++ [jobs]⟩) ∨
    ∃ before job rest after c s jobs, a = .run before.length c ∧
      p.threads = before ++ (job :: rest) :: after ∧
      m.perform c before.length job p.state = some (s, jobs) ∧
      p' = ⟨s, before ++ (jobs ++ rest) :: after⟩ := by
  cases a with
  | enter e =>
      obtain ⟨⟨s, jobs⟩, hsome, hp⟩ := Option.map_eq_some_iff.mp h
      exact Or.inl ⟨e, s, jobs, rfl, hsome, hp.symm⟩
  | run i c =>
      simp only [step] at h
      cases hthread : p.threads[i]? with
      | none => simp [hthread] at h
      | some t =>
          cases t with
          | nil => simp [hthread] at h
          | cons job rest =>
              simp only [hthread] at h
              obtain ⟨⟨s, jobs⟩, hsome, hp⟩ := Option.map_eq_some_iff.mp h
              obtain ⟨hi, hget⟩ := List.getElem?_eq_some_iff.mp hthread
              have hlength : (p.threads.take i).length = i := by
                rw [List.length_take]
                omega
              have hsplit : p.threads =
                  p.threads.take i ++ (job :: rest) :: p.threads.drop (i + 1) := by
                rw [← hget, List.getElem_cons_drop hi, List.take_append_drop]
              refine Or.inr ⟨p.threads.take i, job, rest, p.threads.drop (i + 1), c, s, jobs, ?_,
                hsplit, ?_, ?_⟩
              · rw [hlength]
              · rw [hlength]
                exact hsome
              · rw [← hp, List.set_eq_take_append_cons_drop, if_pos hi]

/-- Of two threads that nothing joins, one does its first job. -/
theorem step_of_pair {m : Machine σ J Empty C} {a : Action Empty C} {p p' : Pool σ J}
    {first second : List J} (hthreads : p.threads = [first, second])
    (h : m.step a p = some p') :
    (∃ job rest c s jobs, a = .run 0 c ∧ first = job :: rest ∧
      m.perform c 0 job p.state = some (s, jobs) ∧ p' = ⟨s, [jobs ++ rest, second]⟩) ∨
    ∃ job rest c s jobs, a = .run 1 c ∧ second = job :: rest ∧
      m.perform c 1 job p.state = some (s, jobs) ∧ p' = ⟨s, [first, jobs ++ rest]⟩ := by
  rcases step_cases h with ⟨e, _⟩ |
    ⟨before, job, rest, after, c, s, jobs, ha, hsplit, hperform, hp'⟩
  · exact e.elim
  · rw [hthreads] at hsplit
    cases before with
    | nil =>
        obtain ⟨hfirst, hafter⟩ := List.cons.inj hsplit
        rw [← hafter] at hp'
        exact Or.inl ⟨job, rest, c, s, jobs, ha, hfirst, hperform, hp'⟩
    | cons other before =>
        obtain ⟨hother, htail⟩ := List.cons.inj hsplit
        cases before with
        | nil =>
            obtain ⟨hsecond, hafter⟩ := List.cons.inj htail
            rw [← hother, ← hafter] at hp'
            exact Or.inr ⟨job, rest, c, s, jobs, ha, hsecond, hperform, hp'⟩
        | cons third before =>
            obtain ⟨_, hnil⟩ := List.cons.inj htail
            simp at hnil

/-! ## Runs -/

/-- The pools some list of actions leads to from a starting one, each action
one that `ok` allows in the pool it finds. -/
inductive Reachable (m : Machine σ J E C) (ok : Action E C → Pool σ J → Prop)
    (start : Pool σ J → Prop) : Pool σ J → Prop
  | start {p : Pool σ J} (h : start p) : Reachable m ok start p
  | step {p p' : Pool σ J} (a : Action E C) (hp : Reachable m ok start p) (hok : ok a p)
      (h : m.step a p = some p') : Reachable m ok start p'

variable {ok : Action E C → Pool σ J → Prop} {start I : Pool σ J → Prop}

/-- What holds at the start and is preserved by every allowed action holds in
every reachable pool. -/
theorem Reachable.invariant (hstart : ∀ p, start p → I p)
    (hstep : ∀ a p p', I p → ok a p → m.step a p = some p' → I p') {p : Pool σ J}
    (h : Reachable m ok start p) : I p := by
  induction h with
  | start hp => exact hstart _ hp
  | step a _ hok hstep' ih => exact hstep a _ _ ih hok hstep'

/-- Allowing more actions and more starts reaches more pools. -/
theorem Reachable.mono {ok' : Action E C → Pool σ J → Prop} {start' : Pool σ J → Prop}
    (hok : ∀ a p, ok a p → ok' a p) (hstart : ∀ p, start p → start' p) {p : Pool σ J}
    (h : Reachable m ok start p) : Reachable m ok' start' p := by
  induction h with
  | start hp => exact .start (hstart _ hp)
  | step a _ hallowed hstep ih => exact .step a ih (hok _ _ hallowed) hstep

/-- Where an invariant is known, only the pools that satisfy it matter. -/
theorem Reachable.allowed {ok' : Action E C → Pool σ J → Prop}
    (hinv : ∀ p, Reachable m ok start p → I p) (hok : ∀ a p, I p → ok a p → ok' a p)
    {p : Pool σ J} (h : Reachable m ok start p) : Reachable m ok' start p := by
  induction h with
  | start hp => exact .start hp
  | step a hp hallowed hstep ih => exact .step a ih (hok a _ (hinv _ hp) hallowed) hstep

theorem Reachable.exec {as : List (Action E C)} {p p' : Pool σ J}
    (hok : ∀ a p, a ∈ as → ok a p) (hp : Reachable m ok start p) (h : m.exec as p = some p') :
    Reachable m ok start p' := by
  induction as generalizing p with
  | nil =>
      cases h
      exact hp
  | cons a as ih =>
      obtain ⟨q, hstep, hrest⟩ := Option.bind_eq_some_iff.mp h
      have hq := Reachable.step a hp (hok a p List.mem_cons_self) hstep
      exact ih (fun b r hb => hok b r (List.mem_cons_of_mem _ hb)) hq hrest

/-- Do the actions one after the other, each only where it is allowed. -/
def execAllowed (m : Machine σ J E C) (ok : Action E C → Pool σ J → Prop)
    [∀ a p, Decidable (ok a p)] : List (Action E C) → Pool σ J → Option (Pool σ J)
  | [], p => some p
  | a :: as, p => if ok a p then (m.step a p).bind (m.execAllowed ok as) else none

theorem Reachable.execAllowed [∀ a p, Decidable (ok a p)] {as : List (Action E C)}
    {p p' : Pool σ J} (hp : Reachable m ok start p) (h : m.execAllowed ok as p = some p') :
    Reachable m ok start p' := by
  induction as generalizing p with
  | nil =>
      cases h
      exact hp
  | cons a as ih =>
      rw [Machine.execAllowed] at h
      by_cases hok : ok a p
      · rw [if_pos hok] at h
        obtain ⟨q, hstep, hrest⟩ := Option.bind_eq_some_iff.mp h
        exact ih (.step a hp hok hstep) hrest
      · rw [if_neg hok] at h
        cases h

/-- Where the actions lead, or where they started when one is not allowed. -/
theorem Reachable.execAllowed_getD [∀ a p, Decidable (ok a p)] {as : List (Action E C)}
    {p : Pool σ J} (hp : Reachable m ok start p) :
    Reachable m ok start ((m.execAllowed ok as p).getD p) := by
  cases h : m.execAllowed ok as p with
  | none => exact hp
  | some p' => exact hp.execAllowed h

/-- Where a list of actions that can be done leads. -/
theorem Reachable.exec_getD {as : List (Action E C)} {p : Pool σ J}
    (hok : ∀ a p, a ∈ as → ok a p) (hp : Reachable m ok start p)
    (hsome : (m.exec as p).isSome = true) : Reachable m ok start ((m.exec as p).getD p) := by
  obtain ⟨p', h⟩ := Option.isSome_iff_exists.mp hsome
  rw [h]
  exact hp.exec hok h

/-! ## A thread that runs alone -/

/-- The jobs of one thread done to the end, every one at the same choice. -/
inductive Solo (m : Machine σ J E C) (c : C) : List J → σ → σ → Prop
  | done (s : σ) : Solo m c [] s s
  | step {job : J} {jobs rest : List J} {s s₁ s' : σ}
      (hperform : m.perform c 0 job s = some (s₁, jobs)) (hrest : Solo m c (jobs ++ rest) s₁ s') :
      Solo m c (job :: rest) s s'

theorem Solo.last {m : Machine σ J E C} {c : C} {job : J} {s s' : σ}
    (h : m.perform c 0 job s = some (s', [])) : Solo m c [job] s s' :=
  .step h (.done s')

/-- Such a thread is a run of the pool that holds it only. -/
theorem Solo.exec {m : Machine σ J E C} {c : C} {jobs : List J} {s s' : σ}
    (h : Solo m c jobs s s') :
    ∃ n, m.exec (List.replicate n (.run 0 c)) ⟨s, [jobs]⟩ = some ⟨s', [[]]⟩ := by
  induction h with
  | done s => exact ⟨0, rfl⟩
  | step hperform _ ih =>
      obtain ⟨n, hn⟩ := ih
      refine ⟨n + 1, ?_⟩
      rw [List.replicate_succ, Machine.exec, Machine.step]
      simp only [List.getElem?_cons_zero, hperform, Option.map_some, Option.bind_some,
        List.set_cons_zero]
      exact hn

/-- Up to `n` steps of a handler that goes on with a next job or answers. -/
def alone {A : Type} (step : J → σ → σ × (J ⊕ A)) : Nat → J → σ → σ × Option A
  | 0, _, s => (s, none)
  | n + 1, job, s =>
      match step job s with
      | (s, .inl next) => alone step n next s
      | (s, .inr answer) => (s, some answer)

section Alone

variable {A : Type} {step : J → σ → σ × (J ⊕ A)} {n : Nat} {job next : J} {s s' : σ}

theorem alone_inl (h : step job s = (s', .inl next)) :
    alone step (n + 1) job s = alone step n next s' := by
  rw [alone, h]

theorem alone_inr {answer : A} (h : step job s = (s', .inr answer)) :
    alone step (n + 1) job s = (s', some answer) := by
  rw [alone, h]

end Alone

/-! ## Rules for invariants -/

/-- The job a thread is about to do. -/
theorem mem_head {p : Pool σ J} {before after : List (List J)} {job : J} {rest : List J}
    (hthreads : p.threads = before ++ (job :: rest) :: after) : job ∈ p.jobs := by
  unfold Pool.jobs
  rw [hthreads]
  simp

/-- The jobs after a thread was started. -/
theorem mem_enter {p : Pool σ J} {s : σ} {jobs : List J} {job : J}
    (h : job ∈ (Pool.mk s (p.threads ++ [jobs])).jobs) : job ∈ jobs ∨ job ∈ p.jobs := by
  unfold Pool.jobs at h ⊢
  rw [List.flatten_append, List.mem_append, List.flatten_singleton] at h
  exact h.symm

/-- The jobs after one was done. -/
theorem mem_run {p : Pool σ J} {before after : List (List J)} {job : J} {rest : List J}
    (hthreads : p.threads = before ++ (job :: rest) :: after) {s : σ} {jobs : List J} {other : J}
    (h : other ∈ (Pool.mk s (before ++ (jobs ++ rest) :: after)).jobs) :
    other ∈ jobs ∨ other ∈ p.jobs := by
  unfold Pool.jobs at h ⊢
  rw [hthreads]
  simp only [List.flatten_append, List.flatten_cons, List.mem_append, List.mem_cons] at h ⊢
  rcases h with h | (h | h) | h
  · exact Or.inr (Or.inl h)
  · exact Or.inl h
  · exact Or.inr (Or.inr (Or.inl (Or.inr h)))
  · exact Or.inr (Or.inr (Or.inr h))

/-- **Counting jobs**: starting a thread adds its jobs. -/
theorem countP_enter (q : J → Bool) (p : Pool σ J) (s : σ) (jobs : List J) :
    (Pool.mk s (p.threads ++ [jobs])).jobs.countP q = p.jobs.countP q + jobs.countP q := by
  unfold Pool.jobs
  rw [List.flatten_append, List.countP_append]
  simp

/-- Doing a job takes it away and adds what it brings. -/
theorem countP_run (q : J → Bool) {p : Pool σ J} {before after : List (List J)} {job : J}
    {rest : List J} (h : p.threads = before ++ (job :: rest) :: after) (s : σ) (jobs : List J) :
    (Pool.mk s (before ++ (jobs ++ rest) :: after)).jobs.countP q + [job].countP q =
      p.jobs.countP q + jobs.countP q := by
  unfold Pool.jobs
  rw [h]
  simp only [List.flatten_append, List.flatten_cons, List.countP_append, List.countP_cons,
    List.countP_nil]
  omega

/-- A job that does not count, done, brings those that count. -/
theorem countP_run_of_not (q : J → Bool) {p : Pool σ J} {before after : List (List J)} {job : J}
    {rest : List J} (h : p.threads = before ++ (job :: rest) :: after) (hjob : q job = false)
    (s : σ) (jobs : List J) :
    (Pool.mk s (before ++ (jobs ++ rest) :: after)).jobs.countP q =
      p.jobs.countP q + jobs.countP q := by
  have hcounts := countP_run q h s jobs
  rwa [List.countP_singleton, hjob, if_neg Bool.false_ne_true, Nat.add_zero] at hcounts

/-- The thread that was changed. -/
theorem thread_self (before after : List (List J)) (t : List J) :
    (before ++ t :: after)[before.length]? = some t := by
  rw [List.getElem?_append_right (Nat.le_refl _), Nat.sub_self]
  rfl

/-- Every other thread is as it was. -/
theorem thread_other {before after : List (List J)} {i : Nat} (hi : i ≠ before.length)
    (t t' : List J) : (before ++ t' :: after)[i]? = (before ++ t :: after)[i]? := by
  by_cases hlt : i < before.length
  · rw [List.getElem?_append_left hlt, List.getElem?_append_left hlt]
  · rw [List.getElem?_append_right (by omega), List.getElem?_append_right (by omega)]
    obtain ⟨n, hn⟩ : ∃ n, i - before.length = n + 1 := ⟨i - before.length - 1, by omega⟩
    rw [hn]
    rfl

/-- A thread that was there before one was started. -/
theorem thread_enter {threads : List (List J)} {i : Nat} {t : List J} (h : threads[i]? = some t)
    (jobs : List J) : (threads ++ [jobs])[i]? = some t := by
  obtain ⟨hi, _⟩ := List.getElem?_eq_some_iff.mp h
  rw [List.getElem?_append_left hi]
  exact h

/-- The thread that was started. -/
theorem thread_new (threads : List (List J)) (jobs : List J) :
    (threads ++ [jobs])[threads.length]? = some jobs :=
  thread_self threads [] jobs

end Machine

end Threads
