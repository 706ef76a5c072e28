import Lectern.Concurrent.Commit
import Mathlib.Data.List.Permutation

/-!
# Concurrent requests and one order of them

Requests on one workspace whose steps are interleaved in any way are compared
with the same requests handled one after the other, in the order in which they
changed the disk.  The disk shows the same after every step.  The rows lag
behind: a key whose row some request still has to write may have any row, and
is settled by the last step on it, provided that step agrees with the disk.

Nothing in the server sees to that, and nothing sees to it that what a request
found out still holds when it changes the disk.  `Undisturbed` states both as a
condition on each step.
-/

namespace Lectern.Concurrent

open FileTree Threads

variable {limits : Limits} {w₀ : Workspace}

/-! ## The condition on a step -/

/-- A step on the row of a key agrees with what is on the disk now, or the row
has another step to come. -/
def RowAgrees (p : Pool Shared Job) : Job → Prop
  | .record key _ => p.state.workspace.root.fileAt (pathOf key) = none ∨
      2 ≤ p.jobs.countP (Job.touches key)
  | .clear key => p.state.workspace.root.fileAt (pathOf key) ≠ none ∨
      2 ≤ p.jobs.countP (Job.touches key)
  | _ => True

instance (p : Pool Shared Job) (job : Job) : Decidable (RowAgrees p job) :=
  match job with
  | .record .. | .clear .. => by
      dsimp only [RowAgrees]
      infer_instance
  | .requireFile .. | .checkQuota .. | .write .. | .makeFolder .. | .collect .. | .removeAll ..
  | .remove .. | .look .. | .rename .. | .answer .. => isTrue trivial

/-- The step relies on nothing that another request has changed meanwhile. -/
def Undisturbed (limits : Limits) : Action Mutation Unit → Pool Shared Job → Prop
  | .enter _, _ => True
  | .run i _, p =>
      match p.threads[i]? with
      | some (job :: _) => Current limits p.state.workspace.root job ∧ RowAgrees p job
      | _ => True

instance (limits : Limits) (a : Action Mutation Unit) (p : Pool Shared Job) :
    Decidable (Undisturbed limits a p) := by
  unfold Undisturbed
  split
  · infer_instance
  · split <;> infer_instance

/-! ## The requests in order -/

/-- Every request of the order succeeds in its place and loses no file. -/
def Explained (limits : Limits) (w₀ : Workspace) (order : List Mutation) : Prop :=
  ∀ before m, before ++ [m] <+: order →
    Succeeds limits m (runs limits before w₀) ∧ LosesNone (runs limits before w₀) m

theorem explained_nil : Explained limits w₀ [] := by
  intro before m hpre
  have hlength := hpre.length_le
  simp at hlength

theorem Explained.concat {order : List Mutation} (h : Explained limits w₀ order) {m : Mutation}
    (hok : Succeeds limits m (runs limits order w₀))
    (hnone : LosesNone (runs limits order w₀) m) : Explained limits w₀ (order ++ [m]) := by
  intro before m' hpre
  rcases List.prefix_concat_iff.mp hpre with heq | hpre
  · obtain ⟨rfl, hm⟩ := List.append_inj' heq rfl
    rw [List.singleton_inj.mp hm]
    exact ⟨hok, hnone⟩
  · exact h before m' hpre

/-- **A file of some moment is accounted for at the end.** -/
theorem Explained.accounted (hw₀ : Sound w₀) {order : List Mutation}
    (h : Explained limits w₀ order) {before : List Mutation} (hpre : before <+: order)
    {q : List Str} (hq : (runs limits before w₀).root.fileAt q ≠ none) :
    Accounted (runs limits order w₀) q := by
  obtain ⟨later, rfl⟩ := hpre
  have hvalid : ValidPath q := by
    obtain ⟨c, hc⟩ := Option.ne_none_iff_exists'.mp hq
    exact (sound_runs limits before hw₀).names.validPath hc
  induction later using List.reverseRecOn with
  | nil =>
      rw [List.append_nil]
      exact Or.inl hq
  | append_singleton later m ih =>
      rw [← List.append_assoc] at h ⊢
      obtain ⟨hok, hnone⟩ := h (before ++ later) m List.prefix_rfl
      rw [runs_concat]
      refine accounted_run (sound_runs limits _ hw₀) hok hnone hvalid (ih ?_)
      intro earlier m' hpre
      exact h earlier m' (hpre.trans (List.prefix_append _ [m]))

/-! ## What holds of every state -/

/-- The job answers the request OK. -/
def Job.answers (m : Mutation) : Job → Bool
  | .answer m' => m' = m
  | _ => false

/-- The workspace after the requests carried out so far, one after the other. -/
abbrev inOrder (limits : Limits) (w₀ : Workspace) (p : Pool Shared Job) : Workspace :=
  runs limits p.state.carriedOut w₀

/-- A state and what its requests, handled in order, leave. -/
structure Agrees (limits : Limits) (w₀ : Workspace) (p : Pool Shared Job) : Prop where
  same : Tree.Same p.state.workspace.root (inOrder limits w₀ p).root
  rows : ∀ key, p.jobs.countP (Job.touches key) = 0 →
    (Tombstoned p.state.workspace key ↔ Tombstoned (inOrder limits w₀ p) key)
  stems : ∀ job ∈ p.jobs, Stems limits job
  owed : ∀ job ∈ p.jobs, ∀ key ∈ job.keys, Owed (inOrder limits w₀ p) key
  answers : ∀ m, p.state.carriedOut.count m =
    p.state.answered.count m + p.jobs.countP (Job.answers m)
  explained : Explained limits w₀ p.state.carriedOut

theorem agrees_idle (limits : Limits) (w₀ : Workspace) : Agrees limits w₀ (idle w₀) where
  same := Tree.Same.refl _
  rows := fun _ _ => Iff.rfl
  stems := List.forall_mem_nil _
  owed := List.forall_mem_nil _
  answers := fun _ => rfl
  explained := explained_nil

/-- The job neither writes a row nor answers. -/
def Job.Silent (job : Job) : Prop :=
  (∀ key, job.touches key = false) ∧ ∀ m, job.answers m = false

theorem countP_touches {jobs : List Job} (h : ∀ job ∈ jobs, job.Silent) (key : Str) :
    jobs.countP (Job.touches key) = 0 := by
  apply List.countP_eq_zero.mpr
  intro job hjob
  rw [(h job hjob).1 key]
  exact Bool.false_ne_true

theorem countP_answers {jobs : List Job} (h : ∀ job ∈ jobs, job.Silent) (m : Mutation) :
    jobs.countP (Job.answers m) = 0 := by
  apply List.countP_eq_zero.mpr
  intro job hjob
  rw [(h job hjob).2 m]
  exact Bool.false_ne_true

theorem stems_isRow {job : Job} (h : job.isRow = true) : Stems limits job := by
  cases job <;> trivial

theorem answers_isRow {job : Job} (h : job.isRow = true) (m : Mutation) :
    job.answers m = false := by
  cases job <;> first | rfl | cases h

/-- A handler that gets past its checks of the request starts with one step on
the disk. -/
theorem firstJobs_cases (limits : Limits) (m : Mutation) :
    firstJobs limits m = [] ∨
      ∃ job, firstJobs limits m = [job] ∧ job.Silent ∧ Stems limits job ∧ job.keys = [] := by
  cases m with
  | putFile path content hex =>
      simp only [firstJobs]
      cases hrel : fSafeRelPath path with
      | error e => exact Or.inl rfl
      | ok rel =>
          by_cases hlarge : content.length > limits.maxWorkFileBytes
          · exact Or.inl (if_pos hlarge)
          · refine Or.inr ⟨_, if_neg hlarge, ⟨fun _ => rfl, fun _ => rfl⟩, ?_, rfl⟩
            exact Or.inl ⟨path, rfl, hrel, Nat.le_of_not_lt hlarge⟩
  | createFolder relPath =>
      simp only [firstJobs]
      cases hrel : fSafeRelPath relPath with
      | error e => exact Or.inl rfl
      | ok rel => exact Or.inr ⟨_, rfl, ⟨fun _ => rfl, fun _ => rfl⟩, ⟨relPath, rfl, hrel⟩, rfl⟩
  | deleteEntry path isDir now =>
      simp only [firstJobs]
      cases hrel : fSafeRelPath path with
      | error e => exact Or.inl rfl
      | ok rel =>
          cases isDir with
          | true => exact Or.inr ⟨_, rfl, ⟨fun _ => rfl, fun _ => rfl⟩, ⟨path, rfl, hrel⟩, rfl⟩
          | false => exact Or.inr ⟨_, rfl, ⟨fun _ => rfl, fun _ => rfl⟩, ⟨path, rfl, hrel⟩, rfl⟩
  | moveEntry src dst now =>
      simp only [firstJobs]
      cases hfrom : fSafeRelPath src with
      | error e => exact Or.inl rfl
      | ok fromKey =>
          cases hto : fSafeRelPath dst with
          | error e => exact Or.inl rfl
          | ok toKey =>
              exact Or.inr ⟨_, rfl, ⟨fun _ => rfl, fun _ => rfl⟩, ⟨src, dst, rfl, hfrom, hto⟩, rfl⟩
  | writeThrough access content hex =>
      simp only [firstJobs]
      by_cases hperm : access.permission.rank < Perm.edit.rank
      · exact Or.inl (if_pos hperm)
      · rw [if_neg hperm]
        by_cases hwork : (!fIsWorkFile access.relPath) = true
        · exact Or.inl (if_pos hwork)
        · rw [if_neg hwork]
          cases hrel : fSafeRelPath access.relPath with
          | error e => exact Or.inl rfl
          | ok rel =>
              refine Or.inr ⟨_, rfl, ⟨fun _ => rfl, fun _ => rfl⟩, ⟨Or.inr ?_, trivial⟩, rfl⟩
              exact ⟨access, rfl, hrel, hperm, by simpa using hwork⟩

theorem firstJobs_silent (limits : Limits) (m : Mutation) :
    ∀ job ∈ firstJobs limits m, job.Silent ∧ Stems limits job ∧ job.keys = [] := by
  intro job hjob
  rcases firstJobs_cases limits m with hnil | ⟨first, hfirst, hall⟩
  · rw [hnil] at hjob
    cases hjob
  · rw [hfirst] at hjob
    rw [List.mem_singleton.mp hjob]
    exact hall

section step

variable {p : Pool Shared Job} {before after : List (List Job)} {job : Job} {rest : List Job}

theorem agrees_enter (h : Agrees limits w₀ p) (m : Mutation) :
    Agrees limits w₀ ⟨p.state, p.threads ++ [firstJobs limits m]⟩ := by
  have hfirst := firstJobs_silent limits m
  refine ⟨h.same, ?_, ?_, ?_, ?_, h.explained⟩
  · intro key hcount
    rw [Machine.countP_enter] at hcount
    exact h.rows key (by omega)
  · intro job hjob
    rcases Machine.mem_enter hjob with hjob | hjob
    · exact (hfirst job hjob).2.1
    · exact h.stems job hjob
  · intro job hjob key hkey
    rcases Machine.mem_enter hjob with hjob | hjob
    · rw [(hfirst job hjob).2.2] at hkey
      cases hkey
    · exact h.owed job hjob key hkey
  · intro m'
    rw [Machine.countP_enter, countP_answers (fun job hjob => (hfirst job hjob).1)]
    exact h.answers m'

/-- A step that changes nothing a path shows. -/
theorem agrees_quiet (h : Agrees limits w₀ p)
    (hthreads : p.threads = before ++ (job :: rest) :: after) (hjob : job.Silent) {root : Disk}
    {jobs : List Job} (hroot : Tree.Same root p.state.workspace.root)
    (hnew : ∀ new ∈ jobs, new.Silent ∧ Stems limits new ∧
      ∀ key ∈ new.keys, Owed (inOrder limits w₀ p) key) :
    Agrees limits w₀ ⟨p.state.withRoot root, before ++ (jobs ++ rest) :: after⟩ := by
  have hsilent : ∀ new ∈ jobs, new.Silent := fun new hmem => (hnew new hmem).1
  refine ⟨hroot.trans h.same, ?_, ?_, ?_, ?_, h.explained⟩
  · intro key hcount
    rw [Machine.countP_run_of_not _ hthreads (hjob.1 key), countP_touches hsilent] at hcount
    exact h.rows key hcount
  · intro new hmem
    rcases Machine.mem_run hthreads hmem with hmem | hmem
    · exact (hnew new hmem).2.1
    · exact h.stems new hmem
  · intro new hmem
    rcases Machine.mem_run hthreads hmem with hmem | hmem
    · exact (hnew new hmem).2.2
    · exact h.owed new hmem
  · intro m
    rw [Machine.countP_run_of_not _ hthreads (hjob.2 m), countP_answers hsilent]
    exact h.answers m

/-- A step that only looks. -/
theorem agrees_look (h : Agrees limits w₀ p)
    (hthreads : p.threads = before ++ (job :: rest) :: after) (hjob : job.Silent)
    {jobs : List Job} (hnew : ∀ new ∈ jobs, new.Silent ∧ Stems limits new ∧
      ∀ key ∈ new.keys, Owed (inOrder limits w₀ p) key) :
    Agrees limits w₀ ⟨p.state, before ++ (jobs ++ rest) :: after⟩ :=
  agrees_quiet h hthreads hjob (Tree.Same.refl _) hnew

/-- **The step that carries a request out.** -/
theorem agrees_carryOut (hw₀ : Sound w₀) (h : Agrees limits w₀ p)
    (hthreads : p.threads = before ++ (job :: rest) :: after) (hjob : job.Silent) {root : Disk}
    {m : Mutation} {rows : List Job} (hcarried : Carried limits (inOrder limits w₀ p) m root rows) :
    Agrees limits w₀
      ⟨p.state.carryOut m root, before ++ ((rows ++ [.answer m]) ++ rest) :: after⟩ := by
  have hnext (s : Shared) (threads : List (List Job)) (hs : s = p.state.carryOut m root) :
      inOrder limits w₀ ⟨s, threads⟩ = (m.run limits (inOrder limits w₀ p)).1 := by
    rw [hs]
    exact runs_concat limits p.state.carriedOut m w₀
  have hsound := sound_runs limits p.state.carriedOut hw₀
  refine ⟨?_, ?_, ?_, ?_, ?_, h.explained.concat hcarried.succeeds hcarried.losesNone⟩
  · rw [hnext _ _ rfl]
    exact hcarried.same
  · intro key hcount
    rw [Machine.countP_run_of_not _ hthreads (hjob.1 key), List.countP_append] at hcount
    have hrows : rows.countP (Job.touches key) = 0 := by omega
    rw [hnext _ _ rfl]
    have hothers := hcarried.others key (by simpa using List.countP_eq_zero.mp hrows)
    exact (h.rows key (by omega)).trans hothers.symm
  · intro new hnew
    rcases Machine.mem_run hthreads hnew with hnew | hnew
    · rcases List.mem_append.mp hnew with hnew | hnew
      · exact stems_isRow (hcarried.isRow new hnew)
      · rw [List.mem_singleton.mp hnew]
        trivial
    · exact h.stems new hnew
  · intro new hnew key hkey
    rw [hnext _ _ rfl]
    rcases Machine.mem_run hthreads hnew with hnew | hnew
    · rcases List.mem_append.mp hnew with hnew | hnew
      · exact hcarried.owed new hnew key hkey
      · rw [List.mem_singleton.mp hnew] at hkey
        cases hkey
    · obtain ⟨q, hq, hqk, haccounted⟩ := h.owed new hnew key hkey
      exact ⟨q, hq, hqk,
        accounted_run hsound hcarried.succeeds hcarried.losesNone hq haccounted⟩
  · intro m'
    have hrows : rows.countP (Job.answers m') = 0 := by
      apply List.countP_eq_zero.mpr
      intro new hnew
      rw [answers_isRow (hcarried.isRow new hnew)]
      exact Bool.false_ne_true
    have hbefore := h.answers m'
    rw [Machine.countP_run_of_not _ hthreads (hjob.2 m'), List.countP_append, hrows]
    change (p.state.carriedOut ++ [m]).count m' = p.state.answered.count m' + _
    rw [List.count_append, hbefore]
    simp only [List.count_singleton, List.countP_singleton, Job.answers, beq_iff_eq,
      decide_eq_true_eq]
    omega

/-- A step on the row of one key, which is settled if no other is to come. -/
theorem agrees_row (h : Agrees limits w₀ p)
    (hthreads : p.threads = before ++ (job :: rest) :: after) {key : Str} {w : Workspace}
    (hkeys : ∀ k, job.touches k = decide (key = k)) (hanswers : ∀ m, job.answers m = false)
    (hroot : w.root = p.state.workspace.root)
    (hothers : ∀ k, k ≠ key → (Tombstoned w k ↔ Tombstoned p.state.workspace k))
    (hsettled : (Tombstoned w key ↔ Tombstoned (inOrder limits w₀ p) key) ∨
      2 ≤ p.jobs.countP (Job.touches key)) :
    Agrees limits w₀ ⟨{ p.state with workspace := w }, before ++ ([] ++ rest) :: after⟩ := by
  refine ⟨?_, ?_, ?_, ?_, ?_, h.explained⟩
  · rw [hroot]
    exact h.same
  · intro k hcount
    have hcounts := Machine.countP_run (Job.touches k) hthreads { p.state with workspace := w } []
    rw [hcount, List.countP_singleton, hkeys, List.countP_nil] at hcounts
    by_cases hk : k = key
    · subst hk
      rw [decide_eq_true rfl, if_pos rfl] at hcounts
      rcases hsettled with hsettled | hpending
      · exact hsettled
      · omega
    · rw [decide_eq_false (Ne.symm hk), if_neg Bool.false_ne_true] at hcounts
      exact (hothers k hk).trans (h.rows k (by omega))
  · intro new hnew
    rcases Machine.mem_run hthreads hnew with hnew | hnew
    · cases hnew
    · exact h.stems new hnew
  · intro new hnew
    rcases Machine.mem_run hthreads hnew with hnew | hnew
    · cases hnew
    · exact h.owed new hnew
  · intro m
    rw [Machine.countP_run_of_not _ hthreads (hanswers m)]
    exact h.answers m

theorem agrees_record (h : Agrees limits w₀ p) {key : Str} {now : Int}
    (hthreads : p.threads = before ++ (.record key now :: rest) :: after)
    (hagrees : RowAgrees p (.record key now)) :
    Agrees limits w₀ ⟨{ p.state with workspace := fRecordTombstone p.state.workspace key now },
      before ++ ([] ++ rest) :: after⟩ := by
  apply agrees_row h hthreads (fun _ => rfl) (fun _ => rfl) (root_fRecordTombstone _ _ _)
  · intro k hk
    rw [tombstoned_fRecordTombstone]
    exact or_iff_right hk
  · rcases hagrees with hgone | hpending
    · left
      rw [tombstoned_fRecordTombstone, eq_self_iff_true, true_or, true_iff]
      obtain ⟨q, hq, rfl, hlive | hdead⟩ :=
        h.owed _ (Machine.mem_head hthreads) key List.mem_cons_self
      · rw [pathOf_keyOf hq, h.same.fileAt] at hgone
        exact absurd hgone hlive
      · exact hdead
    · exact Or.inr hpending

theorem agrees_clear (hw₀ : Sound w₀) (h : Agrees limits w₀ p) {key : Str}
    (hthreads : p.threads = before ++ (.clear key :: rest) :: after)
    (hagrees : RowAgrees p (.clear key)) :
    Agrees limits w₀ ⟨{ p.state with workspace := fClearTombstone p.state.workspace key },
      before ++ ([] ++ rest) :: after⟩ := by
  apply agrees_row h hthreads (fun _ => rfl) (fun _ => rfl) (root_fClearTombstone _ _)
  · intro k hk
    rw [tombstoned_fClearTombstone]
    exact and_iff_right hk
  · rcases hagrees with hlive | hpending
    · left
      rw [tombstoned_fClearTombstone, ne_eq, eq_self_iff_true, not_true, false_and, false_iff]
      obtain ⟨q, hq, rfl, _⟩ := h.owed _ (Machine.mem_head hthreads) key List.mem_cons_self
      rw [pathOf_keyOf hq, h.same.fileAt] at hlive
      obtain ⟨c, hc⟩ := Option.ne_none_iff_exists'.mp hlive
      exact (sound_runs limits _ hw₀).live q c hc
    · exact Or.inr hpending

theorem agrees_answer (h : Agrees limits w₀ p) {m : Mutation}
    (hthreads : p.threads = before ++ (.answer m :: rest) :: after) :
    Agrees limits w₀ ⟨{ p.state with answered := p.state.answered ++ [m] },
      before ++ ([] ++ rest) :: after⟩ := by
  refine ⟨h.same, ?_, ?_, ?_, ?_, h.explained⟩
  · intro key hcount
    rw [Machine.countP_run_of_not _ hthreads rfl] at hcount
    exact h.rows key hcount
  · intro new hnew
    rcases Machine.mem_run hthreads hnew with hnew | hnew
    · cases hnew
    · exact h.stems new hnew
  · intro new hnew
    rcases Machine.mem_run hthreads hnew with hnew | hnew
    · cases hnew
    · exact h.owed new hnew
  · intro m'
    have hcounts := Machine.countP_run (Job.answers m') hthreads
      { p.state with answered := p.state.answered ++ [m] } []
    have hbefore := h.answers m'
    change p.state.carriedOut.count m' = (p.state.answered ++ [m]).count m' + _
    rw [List.count_append, hbefore]
    simp only [List.count_singleton, List.countP_singleton, Job.answers, beq_iff_eq,
      decide_eq_true_eq, List.countP_nil] at hcounts ⊢
    omega

/-- What is collected now is owed: those files are live. -/
theorem owed_collected (hw₀ : Sound w₀) (h : Agrees limits w₀ p) {rel : Str}
    (hrel : fSafeRelPath rel = .ok rel) {key : Str}
    (hkey : key ∈ fCollectFilesUnder p.state.workspace.root (pathOf rel) rel) :
    Owed (inOrder limits w₀ p) key := by
  obtain ⟨r, c, _, hr, rfl⟩ := (mem_inside hrel key).mp hkey
  rw [h.same.fileAt] at hr
  refine ⟨_, (sound_runs limits _ hw₀).names.validPath hr, rfl, Or.inl ?_⟩
  rw [hr]
  exact Option.some_ne_none c

/-- **What one step does to the comparison.** -/
theorem agrees_perform (hw₀ : Sound w₀) (h : Agrees limits w₀ p)
    (hthreads : p.threads = before ++ (job :: rest) :: after)
    (hcurrent : Current limits p.state.workspace.root job) (hagrees : RowAgrees p job) :
    Agrees limits w₀ ⟨(perform limits p.state job).1,
      before ++ ((perform limits p.state job).2 ++ rest) :: after⟩ := by
  have hsound := sound_runs limits p.state.carriedOut hw₀
  have hstems := h.stems job (Machine.mem_head hthreads)
  have howed := h.owed job (Machine.mem_head hthreads)
  cases job with
  | requireFile m rel content hex =>
      have hjob : (Job.requireFile m rel content hex).Silent := ⟨fun _ => rfl, fun _ => rfl⟩
      simp only [perform]
      split
      · exact agrees_look h hthreads hjob (List.forall_mem_nil _)
      · apply agrees_look h hthreads hjob
        intro new hnew
        rw [List.mem_singleton.mp hnew]
        exact ⟨⟨fun _ => rfl, fun _ => rfl⟩, hstems.1, List.forall_mem_nil _⟩
  | checkQuota m rel content hex =>
      have hjob : (Job.checkQuota m rel content hex).Silent := ⟨fun _ => rfl, fun _ => rfl⟩
      simp only [perform]
      split
      · exact agrees_look h hthreads hjob (List.forall_mem_nil _)
      · apply agrees_look h hthreads hjob
        intro new hnew
        rw [List.mem_singleton.mp hnew]
        exact ⟨⟨fun _ => rfl, fun _ => rfl⟩, hstems, List.forall_mem_nil _⟩
  | write m rel content hex =>
      have hjob : (Job.write m rel content hex).Silent := ⟨fun _ => rfl, fun _ => rfl⟩
      simp only [perform]
      split <;> rename_i root hwrite
      · have hvalid : ValidPath (pathOf rel) := by
          rcases hstems with ⟨path, _, hrel, _⟩ | ⟨access, _, hrel, _⟩
          · exact (fSafeRelPath_ok hrel).1
          · exact (fSafeRelPath_ok hrel).1
        exact agrees_quiet h hthreads hjob (refused_write hvalid.1 hcurrent.2.2 hwrite)
          (List.forall_mem_nil _)
      · exact agrees_carryOut hw₀ h hthreads hjob (carried_write h.same hstems hcurrent hwrite)
  | makeFolder m rel =>
      have hjob : (Job.makeFolder m rel).Silent := ⟨fun _ => rfl, fun _ => rfl⟩
      obtain ⟨relPath, rfl, hrel⟩ := hstems
      simp only [perform]
      split <;> rename_i hmk
      · exact agrees_look h hthreads hjob (List.forall_mem_nil _)
      · exact agrees_carryOut hw₀ h hthreads hjob (carried_makeFolder h.same hrel hmk)
  | collect m rel now =>
      obtain ⟨path, rfl, hrel⟩ := hstems
      apply agrees_look h hthreads ⟨fun _ => rfl, fun _ => rfl⟩
      intro new hnew
      rw [List.mem_singleton.mp hnew]
      refine ⟨⟨fun _ => rfl, fun _ => rfl⟩, ⟨path, rfl, hrel⟩, ?_⟩
      exact fun key hkey => owed_collected hw₀ h (fSafeRelPath_fixed hrel) hkey
  | removeAll m rel inside now =>
      have hjob : (Job.removeAll m rel inside now).Silent := ⟨fun _ => rfl, fun _ => rfl⟩
      obtain ⟨path, rfl, hrel⟩ := hstems
      simp only [perform]
      split <;> rename_i hrem
      · exact agrees_look h hthreads hjob (List.forall_mem_nil _)
      · exact agrees_carryOut hw₀ h hthreads hjob
          (carried_removeAll hsound h.same hrel hcurrent howed hrem)
  | remove m rel now =>
      have hjob : (Job.remove m rel now).Silent := ⟨fun _ => rfl, fun _ => rfl⟩
      obtain ⟨path, rfl, hrel⟩ := hstems
      simp only [perform]
      split <;> rename_i hrem
      · exact agrees_look h hthreads hjob (List.forall_mem_nil _)
      · exact agrees_carryOut hw₀ h hthreads hjob (carried_remove h.same hrel hrem)
  | look m fromKey toKey now =>
      apply agrees_look h hthreads ⟨fun _ => rfl, fun _ => rfl⟩
      intro new hnew
      rw [List.mem_singleton.mp hnew]
      exact ⟨⟨fun _ => rfl, fun _ => rfl⟩, hstems, List.forall_mem_nil _⟩
  | rename m fromKey toKey moved now =>
      have hjob : (Job.rename m fromKey toKey moved now).Silent :=
        ⟨fun _ => rfl, fun _ => rfl⟩
      obtain ⟨src, dst, rfl, hfrom, hto⟩ := hstems
      simp only [perform]
      split <;> rename_i hren
      · exact agrees_quiet h hthreads hjob (refused_rename hcurrent hren)
          (List.forall_mem_nil _)
      · exact agrees_carryOut hw₀ h hthreads hjob
          (carried_rename hsound h.same hfrom hto hcurrent hren)
  | record key now => exact agrees_record h hthreads hagrees
  | clear key => exact agrees_clear hw₀ h hthreads hagrees
  | answer m => exact agrees_answer h hthreads

end step

/-- **In every undisturbed run** the state agrees with its requests in order. -/
theorem agrees_reachable (hw₀ : Sound w₀) {p : Pool Shared Job}
    (hp : Machine.Reachable (requests limits) (Undisturbed limits) (fun p => p = idle w₀) p) :
    Agrees limits w₀ p := by
  refine hp.invariant ?_ ?_
  · intro p hstart
    rw [hstart]
    exact agrees_idle limits w₀
  · intro a p p' h hok hstep
    rcases Machine.step_cases hstep with ⟨m, s, jobs, rfl, henter, rfl⟩ |
      ⟨before, job, rest, after, c, s, jobs, rfl, hthreads, hperform, rfl⟩
    · cases henter
      exact agrees_enter h m
    · have hdone : perform limits p.state job = (s, jobs) := Option.some.inj hperform
      have hhead : p.threads[before.length]? = some (job :: rest) := by
        rw [hthreads]
        exact Machine.thread_self before after (job :: rest)
      simp only [Undisturbed, hhead] at hok
      have hafter := agrees_perform hw₀ h hthreads hok.1 hok.2
      rwa [hdone] at hafter

/-! ## Serializability -/

/-- The requests, handled one after the other in this order, all succeed and
leave these files and these rows. -/
structure Serializes (limits : Limits) (w₀ w : Workspace) (order : List Mutation) : Prop where
  succeed : ∀ before m, before ++ [m] <+: order → Succeeds limits m (runs limits before w₀)
  files : ∀ q, w.root.fileAt q = (runs limits order w₀).root.fileAt q
  rows : ∀ key, Tombstoned w key ↔ Tombstoned (runs limits order w₀) key

theorem Agrees.perm {p : Pool Shared Job} (h : Agrees limits w₀ p) (hdone : AllDone p) :
    p.state.carriedOut.Perm p.state.answered := by
  apply List.perm_iff_count.mpr
  intro m
  have hcount := h.answers m
  rwa [hdone, List.countP_nil, Nat.add_zero] at hcount

theorem Agrees.serializes {p : Pool Shared Job} (h : Agrees limits w₀ p) (hdone : AllDone p) :
    Serializes limits w₀ p.state.workspace p.state.carriedOut where
  succeed := fun before m hpre => (h.explained before m hpre).1
  files := h.same.fileAt
  rows := fun key => h.rows key (by rw [hdone, List.countP_nil])

/-- A shared write that succeeds finds the file it writes. -/
theorem found_writeThrough {access : Access} {content hex : Str} {w : Workspace}
    (hok : Succeeds limits (.writeThrough access content hex) w) :
    ∃ rel, fSafeRelPath access.relPath = .ok rel ∧ w.root.fileAt (pathOf rel) ≠ none := by
  obtain ⟨paths, hok⟩ := hok
  rw [Mutation.run] at hok
  rcases fWriteThrough_cases limits access content hex w with
    ⟨e, he⟩ | ⟨rel, hrel, _, _, ⟨c, hc⟩, _⟩
  · rw [he] at hok
    cases hok
  · refine ⟨rel, hrel, ?_⟩
    rw [Tree.fileAt_eq_some_iff.mpr hc]
    exact Option.some_ne_none c

/-- **Serializability of files and tombstones.**  When all requests of an
undisturbed run have been answered, the files and rows are those that some
order of the requests answered OK leaves, each of them succeeding in its place.
No live file has a row, what was a file at some moment of that order is live or
has a row, and no shared write of it creates a file. -/
theorem serializable (limits : Limits) (w₀ : Workspace) (hw₀ : Sound w₀) (p : Pool Shared Job)
    (hp : Machine.Reachable (requests limits) (Undisturbed limits) (fun p => p = idle w₀) p)
    (hdone : AllDone p) :
    ∃ order : List Mutation, order.Perm p.state.answered ∧
      Serializes limits w₀ p.state.workspace order ∧
      (∀ q c, p.state.workspace.root.fileAt q = some c →
        ¬ Tombstoned p.state.workspace (keyOf q)) ∧
      (∀ before q, before <+: order → (runs limits before w₀).root.fileAt q ≠ none →
        Accounted p.state.workspace q) ∧
      ∀ before access content hex, before ++ [.writeThrough access content hex] <+: order →
        ∃ rel, fSafeRelPath access.relPath = .ok rel ∧
          (runs limits before w₀).root.fileAt (pathOf rel) ≠ none := by
  have h := agrees_reachable hw₀ hp
  have hserial := h.serializes hdone
  refine ⟨p.state.carriedOut, h.perm hdone, hserial, ?_, ?_, ?_⟩
  · intro q c hq
    rw [hserial.rows]
    rw [hserial.files] at hq
    exact (sound_runs limits _ hw₀).live q c hq
  · intro before q hpre hq
    rcases h.explained.accounted hw₀ hpre hq with hlive | hdead
    · left
      rwa [hserial.files]
    · exact Or.inr ((hserial.rows _).mpr hdead)
  · intro before access content hex hpre
    exact found_writeThrough (h.explained before _ hpre).1

/-! ## Two runs -/

/-- A workspace with one file, and nothing in it deleted. -/
def oneFile : Workspace :=
  runs ⟨0, 100⟩ [.putFile (str "a.mdp") (str "one") (str "00")] Workspace.empty

def rewriteA : Mutation := .putFile (str "a.mdp") (str "two") (str "01")

def deleteA : Mutation := .deleteEntry (str "a.mdp") false 1

def createB : Mutation := .putFile (str "b.mdp") (str "b") (str "02")

/-- One file is created while another is deleted, step by step in turns. -/
def createWhileDeleting : List (Action Mutation Unit) :=
  [.enter createB, .enter deleteA, .run 0 (), .run 1 (), .run 0 (), .run 1 (), .run 0 (),
    .run 1 (), .run 0 ()]

/-- A file is deleted and written again before the delete records its row. -/
def rewriteWhileDeleting : List (Action Mutation Unit) :=
  [.enter deleteA, .run 0 (), .enter rewriteA, .run 1 (), .run 1 (), .run 1 (), .run 1 (),
    .run 0 (), .run 0 ()]

theorem sound_oneFile : Sound oneFile := sound_runs _ _ Sound.empty

/-- The two requests that did not disturb each other are in one order. -/
theorem serializable_createWhileDeleting :
    ∃ p, (requests ⟨0, 100⟩).execAllowed (Undisturbed ⟨0, 100⟩) createWhileDeleting
        (idle oneFile) = some p ∧
      ∃ order : List Mutation, order.Perm p.state.answered ∧
        Serializes ⟨0, 100⟩ oneFile p.state.workspace order := by
  have hsome : ((requests ⟨0, 100⟩).execAllowed (Undisturbed ⟨0, 100⟩) createWhileDeleting
      (idle oneFile)).any (fun p => p.jobs.isEmpty) = true := by decide +kernel
  obtain ⟨p, hp, hdone⟩ := (Option.any_eq_true _ _).mp hsome
  have hstart : Machine.Reachable (requests ⟨0, 100⟩) (Undisturbed ⟨0, 100⟩)
      (fun p => p = idle oneFile) (idle oneFile) := .start rfl
  obtain ⟨order, hperm, hserial, _⟩ :=
    serializable ⟨0, 100⟩ oneFile sound_oneFile p (hstart.execAllowed hp) (List.isEmpty_iff.mp hdone)
  exact ⟨p, hp, order, hperm, hserial⟩

/-- **A file written again while it is deleted is live and has a row**, and no
order of the two requests leaves that. -/
theorem not_serializable_rewriteWhileDeleting :
    ∃ p, (requests ⟨0, 100⟩).exec rewriteWhileDeleting (idle oneFile) = some p ∧
      AllDone p ∧ p.state.answered = [rewriteA, deleteA] ∧
      p.state.workspace.root.fileAt [str "a.mdp"] = some (str "two") ∧
      Tombstoned p.state.workspace (str "a.mdp") ∧
      ∀ order : List Mutation, order.Perm p.state.answered →
        ¬ Serializes ⟨0, 100⟩ oneFile p.state.workspace order := by
  have hsome : ((requests ⟨0, 100⟩).exec rewriteWhileDeleting (idle oneFile)).any
      (fun p => p.jobs.isEmpty && decide (p.state.answered = [rewriteA, deleteA]) &&
        decide (p.state.workspace.root.fileAt [str "a.mdp"] = some (str "two")) &&
        decide (Tombstoned p.state.workspace (str "a.mdp"))) = true := by decide +kernel
  obtain ⟨p, hp, hall⟩ := (Option.any_eq_true _ _).mp hsome
  simp only [Bool.and_eq_true, decide_eq_true_eq, List.isEmpty_iff] at hall
  obtain ⟨⟨⟨hdone, hanswered⟩, hfile⟩, hdead⟩ := hall
  refine ⟨p, hp, hdone, hanswered, hfile, hdead, ?_⟩
  intro order hperm hserial
  rw [hanswered] at hperm
  have hfiles := hserial.files [str "a.mdp"]
  have hrows := (hserial.rows (str "a.mdp")).mp hdead
  rw [hfile] at hfiles
  rcases List.perm_pair.mp hperm with rfl | rfl
  · revert hfiles
    decide +kernel
  · revert hrows
    decide +kernel

end Lectern.Concurrent
