import Lectern.Threads.Held
import Lectern.Threads.Trace

/-!
# Jobs and events of a run

What is known of a thread's jobs is known from the events of the run so far: a
job is put there by a step that left an event.  `jobs_enter` and `jobs_run`
carry such facts along; `Each` says of every event of a run what was there
before it.
-/

namespace Threads

variable {σ J E C O : Type}

/-! ## Facts about the jobs of each thread -/

/-- `F i job` holds of every job of thread `i`. -/
def ForJobs (F : Nat → J → Prop) (threads : List (List J)) : Prop :=
  ∀ i t, threads[i]? = some t → ∀ job ∈ t, F i job

section Jobs

variable {F F' : Nat → J → Prop}

theorem forJobs_nil : ForJobs F [] := by
  intro i t ht
  simp at ht

theorem ForJobs.head {p : Pool σ J} (h : ForJobs F p.threads) {before after : List (List J)}
    {job : J} {rest : List J} (hthreads : p.threads = before ++ (job :: rest) :: after) :
    F before.length job := by
  refine h before.length (job :: rest) ?_ job List.mem_cons_self
  rw [hthreads]
  exact Machine.thread_self before after (job :: rest)

/-- A thread is started. -/
theorem ForJobs.enter {threads : List (List J)} (h : ForJobs F threads)
    (hmono : ∀ i job, i < threads.length → F i job → F' i job) {jobs : List J}
    (hnew : ∀ job ∈ jobs, F' threads.length job) : ForJobs F' (threads ++ [jobs]) := by
  intro i t ht job hjob
  rcases Machine.thread_enter_cases ht with hold | ⟨rfl, rfl⟩
  · exact hmono i job (List.getElem?_eq_some_iff.mp hold).1 (h i t hold job hjob)
  · exact hnew job hjob

/-- A thread does a job. -/
theorem ForJobs.run {threads before after : List (List J)} (h : ForJobs F threads) {job : J}
    {rest : List J} (hthreads : threads = before ++ (job :: rest) :: after)
    (hmono : ∀ i job, F i job → F' i job) {jobs : List J}
    (hnew : ∀ job ∈ jobs, F' before.length job) :
    ForJobs F' (before ++ (jobs ++ rest) :: after) := by
  intro i t ht job' hjob'
  rcases Machine.thread_run_cases (job :: rest) ht with ⟨_, hother⟩ | ⟨rfl, rfl⟩
  · rw [← hthreads] at hother
    exact hmono i job' (h i t hother job' hjob')
  · rcases List.mem_append.mp hjob' with hjob' | hjob'
    · exact hnew job' hjob'
    · have hthread : threads[before.length]? = some (job :: rest) := by
        rw [hthreads]
        exact Machine.thread_self before after (job :: rest)
      exact hmono _ job' (h _ _ hthread job' (List.mem_cons_of_mem _ hjob'))

theorem ForJobs.of_mem {p : Pool σ J} (h : ForJobs F p.threads) {job : J} (hjob : job ∈ p.jobs) :
    ∃ i, F i job := by
  obtain ⟨i, t, ht, hmem⟩ := Pool.mem_jobs.mp hjob
  exact ⟨i, h i t ht job hmem⟩

theorem ForJobs.withMem {p : Pool σ J} (h : ForJobs F p.threads) :
    ForJobs (fun i job => job ∈ p.jobs ∧ F i job) p.threads :=
  fun i t ht job hjob => ⟨Pool.mem_jobs.mpr ⟨i, t, ht, hjob⟩, h i t ht job hjob⟩

end Jobs

/-- A job that brings no more than it had leaves no more to be given back. -/
theorem Machine.held_subperm {β : Type} {gives : J → Option β} {p : Pool σ J}
    {before after : List (List J)} {job : J} {rest jobs : List J}
    (hthreads : p.threads = before ++ (job :: rest) :: after)
    (hfewer : (jobs.filterMap gives).Sublist (gives job).toList) (s : σ) :
    ((Pool.mk s (before ++ (jobs ++ rest) :: after)).held gives).Subperm (p.held gives) := by
  obtain ⟨others, hwas, his⟩ := Machine.held_run gives hthreads s jobs
  exact his.subperm.trans ((hfewer.append_right others).subperm.trans hwas.symm.subperm)

/-! ## Facts about each event -/

/-- `Q e older` holds of every event and those before it, the latest first. -/
def Each (Q : O → List O → Prop) : List O → Prop
  | [] => True
  | e :: older => Q e older ∧ Each Q older

/-- Events that draw the same are the same, where nothing is drawn twice. -/
theorem eq_of_nodup_filterMap {α β : Type} {f : α → Option β} {l : List α}
    (h : (l.filterMap f).Nodup) {a b : α} (ha : a ∈ l) (hb : b ∈ l) {x : β} (hax : f a = some x)
    (hbx : f b = some x) : a = b := by
  induction l with
  | nil => cases ha
  | cons c l ih =>
      have hrest : (l.filterMap f).Nodup := h.sublist ((List.sublist_cons_self c l).filterMap f)
      have hapart {d : α} (hd : d ∈ l) (hdx : f d = some x) (hcx : f c = some x) : False := by
        rw [List.filterMap_cons_some hcx] at h
        exact (List.nodup_cons.mp h).1 (List.mem_filterMap.mpr ⟨d, hd, hdx⟩)
      rcases List.mem_cons.mp ha with rfl | hmemA
      · rcases List.mem_cons.mp hb with rfl | hmemB
        · rfl
        · exact (hapart hmemB hbx hax).elim
      · rcases List.mem_cons.mp hb with rfl | hmemB
        · exact (hapart hmemA hax hbx).elim
        · exact ih hrest hmemA hmemB

section Events

variable {Q : O → List O → Prop} {seen new : List O}

theorem Each.append (h : Each Q seen)
    (hnew : ∀ later e earlier, new = later ++ e :: earlier → Q e (earlier ++ seen)) :
    Each Q (new ++ seen) := by
  induction new with
  | nil => exact h
  | cons e new ih =>
      refine ⟨hnew [] e new rfl, ih ?_⟩
      intro later e' earlier hsplit
      exact hnew (e :: later) e' earlier (by rw [hsplit]; rfl)

theorem Each.apply (h : Each Q seen) {newer older : List O} {e : O}
    (hsplit : seen = newer ++ e :: older) : Q e older := by
  induction newer generalizing seen with
  | nil =>
      rw [hsplit] at h
      exact h.1
  | cons e' newer ih =>
      rw [hsplit] at h
      exact ih h.2 rfl

end Events

end Threads
