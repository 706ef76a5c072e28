import Lectern.Threads.Pool
import Mathlib.Algebra.Order.Group.Multiset
import Mathlib.Data.List.Nodup
import Mathlib.Tactic.Abel

/-!
# What threads hold

A thread that has taken something keeps the job that gives it back until it has
done that job, whatever comes in between.  So what the threads hold can be read
off their jobs, and one step changes it by what its own job gives back and what
the jobs it brings will.
-/

namespace Threads

variable {σ J E C β : Type}

namespace Pool

/-- What the jobs of all threads are going to give back. -/
def held (gives : J → Option β) (p : Pool σ J) : List β := p.jobs.filterMap gives

theorem mem_held {gives : J → Option β} {p : Pool σ J} {b : β} :
    b ∈ p.held gives ↔ ∃ job ∈ p.jobs, gives job = some b := List.mem_filterMap

theorem held_of_done {gives : J → Option β} {p : Pool σ J} (h : ∀ t ∈ p.threads, t = []) :
    p.held gives = [] := by
  have hjobs : p.jobs = [] := List.flatten_eq_nil_iff.mpr h
  unfold held
  rw [hjobs]
  rfl

/-- Where every thread holds at most as many of the one kind as of the other, so
do all of them together. -/
theorem held_length_le {γ : Type} {gives : J → Option β} {gives' : J → Option γ} {p : Pool σ J}
    (h : ∀ t ∈ p.threads, (t.filterMap gives).length ≤ (t.filterMap gives').length) :
    (p.held gives).length ≤ (p.held gives').length := by
  unfold held jobs
  generalize p.threads = threads at h ⊢
  induction threads with
  | nil => exact Nat.le_refl 0
  | cons t threads ih =>
      have hhead := h t List.mem_cons_self
      have htail := ih (fun t' ht' => h t' (List.mem_cons_of_mem t ht'))
      rw [List.flatten_cons, List.filterMap_append, List.filterMap_append, List.length_append,
        List.length_append]
      exact Nat.add_le_add hhead htail

end Pool

namespace Machine

/-- A new thread holds what its jobs give back. -/
theorem held_enter (gives : J → Option β) (p : Pool σ J) (s : σ) (jobs : List J) :
    ((Pool.mk s (p.threads ++ [jobs])).held gives).Perm
      (jobs.filterMap gives ++ p.held gives) := by
  unfold Pool.held Pool.jobs
  rw [List.flatten_append, List.flatten_singleton, List.filterMap_append]
  exact List.perm_append_comm

/-- **One step**: what the job gives back is held no longer, what its new jobs
give back is held from now on, and everything else stays as it is. -/
theorem held_run (gives : J → Option β) {p : Pool σ J} {before after : List (List J)} {job : J}
    {rest : List J} (h : p.threads = before ++ (job :: rest) :: after) (s : σ) (jobs : List J) :
    ∃ others, (p.held gives).Perm ((gives job).toList ++ others) ∧
      ((Pool.mk s (before ++ (jobs ++ rest) :: after)).held gives).Perm
        (jobs.filterMap gives ++ others) := by
  refine ⟨(before.flatten ++ (rest ++ after.flatten)).filterMap gives, ?_, ?_⟩
  · unfold Pool.held Pool.jobs
    rw [h, List.flatten_append, List.flatten_cons]
    have hjob : (job :: rest).filterMap gives = (gives job).toList ++ rest.filterMap gives := by
      rw [List.filterMap_cons]
      cases gives job <;> rfl
    simp only [List.filterMap_append, hjob, ← List.append_assoc]
    exact (List.perm_append_comm.append_right _).append_right _
  · unfold Pool.held Pool.jobs
    rw [List.flatten_append, List.flatten_cons]
    simp only [List.filterMap_append, ← List.append_assoc]
    exact (List.perm_append_comm.append_right _).append_right _

/-- The threads after one was started. -/
theorem thread_enter_cases {threads : List (List J)} {jobs t : List J} {i : Nat}
    (h : (threads ++ [jobs])[i]? = some t) :
    threads[i]? = some t ∨ i = threads.length ∧ t = jobs := by
  rcases Nat.lt_trichotomy i threads.length with hlt | rfl | hlt
  · exact Or.inl ((List.getElem?_append_left hlt).symm.trans h)
  · rw [thread_new] at h
    exact Or.inr ⟨rfl, (Option.some.inj h).symm⟩
  · rw [List.getElem?_eq_none (by simp; omega)] at h
    cases h

/-- The threads after one did a job. -/
theorem thread_run_cases {before after : List (List J)} (old : List J) {jobs t : List J} {i : Nat}
    (h : (before ++ jobs :: after)[i]? = some t) :
    i ≠ before.length ∧ (before ++ old :: after)[i]? = some t ∨ i = before.length ∧ t = jobs := by
  by_cases hi : i = before.length
  · subst hi
    rw [thread_self] at h
    exact Or.inr ⟨rfl, (Option.some.inj h).symm⟩
  · exact Or.inl ⟨hi, (thread_other hi _ _).trans h⟩

section Inventory

variable {gives : J → Option β} {p : Pool σ J} {inventory inventory' lost new : List β}

/-- **Inventory, a new thread**: what there is, is held by a thread or lost. -/
theorem inventory_enter (h : inventory.Perm (p.held gives ++ lost)) (s : σ) {jobs : List J}
    (hnothing : jobs.filterMap gives = []) :
    inventory.Perm ((Pool.mk s (p.threads ++ [jobs])).held gives ++ lost) := by
  have hheld := held_enter gives p s jobs
  rw [hnothing, List.nil_append] at hheld
  exact h.trans (hheld.symm.append_right lost)

/-- **Inventory, one step**: it is kept when the step adds what its new jobs give
back, takes away what the job gives back, and loses what it fails to. -/
theorem inventory_run {before after : List (List J)} {job : J} {rest : List J}
    (hthreads : p.threads = before ++ (job :: rest) :: after)
    (h : inventory.Perm (p.held gives ++ lost)) (s : σ) {jobs : List J}
    (hstep : (inventory' ++ (gives job).toList).Perm
      (jobs.filterMap gives ++ (new ++ inventory))) :
    inventory'.Perm
      ((Pool.mk s (before ++ (jobs ++ rest) :: after)).held gives ++ (new ++ lost)) := by
  obtain ⟨others, hold, hnew⟩ := held_run gives hthreads s jobs
  have hwas : (new ++ inventory).Perm (others ++ (new ++ lost) ++ (gives job).toList) := by
    have hfirst := (h.trans (hold.append_right lost)).append_left new
    refine hfirst.trans ?_
    rw [← Multiset.coe_eq_coe]
    simp only [← Multiset.coe_add]
    abel
  have hall : (inventory' ++ (gives job).toList).Perm
      ((jobs.filterMap gives ++ others) ++ (new ++ lost) ++ (gives job).toList) := by
    refine hstep.trans ((hwas.append_left _).trans ?_)
    simp only [List.append_assoc]
    exact List.Perm.refl _
  exact ((List.perm_append_right_iff _).mp hall).trans (hnew.symm.append_right _)

end Inventory

/-- What is held once is held by one thread. -/
theorem held_apart {gives : J → Option β} {p : Pool σ J} (hnodup : (p.held gives).Nodup)
    {i j : Nat} {t t' : List J} (hi : p.threads[i]? = some t) (hj : p.threads[j]? = some t')
    {b : β} (hb : b ∈ t.filterMap gives) (hb' : b ∈ t'.filterMap gives) : i = j := by
  unfold Pool.held Pool.jobs at hnodup
  rw [List.filterMap_flatten, List.nodup_flatten] at hnodup
  have hpairs := List.pairwise_iff_getElem.mp hnodup.2
  have hat {k : Nat} {t : List J} (hk : p.threads[k]? = some t) :
      ∃ hlt : k < (p.threads.map (List.filterMap gives)).length,
        (p.threads.map (List.filterMap gives))[k] = t.filterMap gives := by
    obtain ⟨hlt, hget⟩ := List.getElem?_eq_some_iff.mp hk
    refine ⟨by rwa [List.length_map], ?_⟩
    rw [List.getElem_map, hget]
  obtain ⟨hilt, higet⟩ := hat hi
  obtain ⟨hjlt, hjget⟩ := hat hj
  rcases Nat.lt_trichotomy i j with hlt | heq | hlt
  · have hdisjoint := hpairs i j hilt hjlt hlt
    rw [higet, hjget] at hdisjoint
    exact absurd hb' (hdisjoint hb)
  · exact heq
  · have hdisjoint := hpairs j i hjlt hilt hlt
    rw [higet, hjget] at hdisjoint
    exact absurd hb (hdisjoint hb')

end Machine

end Threads
