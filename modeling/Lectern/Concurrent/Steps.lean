import Lectern.Deletion
import Lectern.Threads.Pool

/-!
# Requests on one workspace, step by step

The handlers that change a workspace run on a pool of threads and take no lock
for the workspace.  Each goes through its steps (a check of the disk, a change
of the disk, the rows of `deleted_files`, the answer), and the steps of several
requests come in any order.

A job is one step together with what the handler has found out before it.  The
disk is changed in one step per request, and that is where the request is
logged as carried out; a request that is refused or that throws has no jobs
left.
-/

namespace Lectern.Concurrent

open FileTree Threads

/-- One step of a handler.  Steps that lead to the change of the disk name the
request they belong to. -/
inductive Job where
  | requireFile (m : Mutation) (rel content hex : Str)
  | checkQuota (m : Mutation) (rel content hex : Str)
  | write (m : Mutation) (rel content hex : Str)
  | makeFolder (m : Mutation) (rel : Str)
  | collect (m : Mutation) (rel : Str) (now : Int)
  | removeAll (m : Mutation) (rel : Str) (inside : List Str) (now : Int)
  | remove (m : Mutation) (rel : Str) (now : Int)
  | look (m : Mutation) (fromKey toKey : Str) (now : Int)
  | rename (m : Mutation) (fromKey toKey : Str) (moved : List Str) (now : Int)
  | record (key : Str) (now : Int)
  | clear (key : Str)
  | answer (m : Mutation)
  deriving DecidableEq, Repr

/-- What the threads share: the workspace, and the requests in the order in
which they changed the disk and in the order in which they were answered OK. -/
structure Shared where
  workspace : Workspace
  carriedOut : List Mutation
  answered : List Mutation

/-- Only the disk changes. -/
def Shared.withRoot (s : Shared) (root : Disk) : Shared :=
  { s with workspace := { s.workspace with root := root } }

/-- The disk changes on behalf of a request that is now carried out. -/
def Shared.carryOut (s : Shared) (m : Mutation) (root : Disk) : Shared :=
  { s.withRoot root with carriedOut := s.carriedOut ++ [m] }

/-! ## The handlers -/

/-- What a handler does before its first look at the disk. -/
def firstJobs (limits : Limits) : Mutation → List Job
  | .putFile path content hex =>
      match fSafeRelPath path with
      | .error _ => []
      | .ok rel =>
          if content.length > limits.maxWorkFileBytes then []
          else [.checkQuota (.putFile path content hex) rel content hex]
  | .createFolder relPath =>
      match fSafeRelPath relPath with
      | .error _ => []
      | .ok rel => [.makeFolder (.createFolder relPath) rel]
  | .deleteEntry path isDir now =>
      match fSafeRelPath path with
      | .error _ => []
      | .ok rel =>
          if isDir then [.collect (.deleteEntry path isDir now) rel now]
          else [.remove (.deleteEntry path isDir now) rel now]
  | .moveEntry src dst now =>
      match fSafeRelPath src with
      | .error _ => []
      | .ok fromKey =>
          match fSafeRelPath dst with
          | .error _ => []
          | .ok toKey => [.look (.moveEntry src dst now) fromKey toKey now]
  | .writeThrough access content hex =>
      if access.permission.rank < Perm.edit.rank then []
      else if !fIsWorkFile access.relPath then []
      else
        match fSafeRelPath access.relPath with
        | .error _ => []
        | .ok rel => [.requireFile (.writeThrough access content hex) rel content hex]

/-- The rows after a write: the owner's PUT clears its key, a shared write
leaves the rows alone. -/
def writeRows : Mutation → Str → List Job
  | .writeThrough _ _ _, _ => []
  | _, rel => [.clear rel]

/-- The loop of the delete handler. -/
def deleteRows (inside : List Str) (now : Int) : List Job :=
  inside.map (fun fileRel => .record fileRel now)

/-- The loop of the move handler. -/
def moveRows (fromKey toKey : Str) (moved : List Str) (now : Int) : List Job :=
  moved.flatMap (fun fileRel => [.record fileRel now, .clear (movedKey fromKey toKey fileRel)])

/-- Do one job: the state it leaves and the jobs that follow it. -/
def perform (limits : Limits) (s : Shared) : Job → Shared × List Job
  | .requireFile m rel content hex =>
      let (regular, ec) := isRegularFile s.workspace.root (pathOf rel)
      if !regular || ec then (s, []) else (s, [.checkQuota m rel content hex])
  | .checkQuota m rel content hex =>
      match fCheckQuota limits.workspaceQuotaBytes s.workspace.root (pathOf rel)
          (fileSize content) with
      | .error _ => (s, [])
      | .ok () => (s, [.write m rel content hex])
  | .write m rel content hex =>
      match fWriteFileAtomic s.workspace.root (pathOf rel) hex content with
      | (root, false) => (s.withRoot root, [])
      | (root, true) => (s.carryOut m root, writeRows m rel ++ [.answer m])
  | .makeFolder m rel =>
      match s.workspace.root.mkdirs (pathOf rel) with
      | none => (s, [])
      | some root => (s.carryOut m root, [.answer m])
  | .collect m rel now =>
      (s, [.removeAll m rel (fCollectFilesUnder s.workspace.root (pathOf rel) rel) now])
  | .removeAll m rel inside now =>
      match s.workspace.root.removeAll (pathOf rel) with
      | none => (s, [])
      | some root => (s.carryOut m root, deleteRows inside now ++ [.answer m])
  | .remove m rel now =>
      match s.workspace.root.remove (pathOf rel) with
      | none => (s, [])
      | some root => (s.carryOut m root, [.record rel now, .answer m])
  | .look m fromKey toKey now =>
      (s, [.rename m fromKey toKey (movedFiles s.workspace.root fromKey) now])
  | .rename m fromKey toKey moved now =>
      let root := withParents s.workspace.root (pathOf toKey)
      match root.rename (pathOf fromKey) (pathOf toKey) with
      | none => (s.withRoot root, [])
      | some root => (s.carryOut m root, moveRows fromKey toKey moved now ++ [.answer m])
  | .record key now => ({ s with workspace := fRecordTombstone s.workspace key now }, [])
  | .clear key => ({ s with workspace := fClearTombstone s.workspace key }, [])
  | .answer m => ({ s with answered := s.answered ++ [m] }, [])

/-- Requests arrive at any time and the threads take their steps in any order. -/
def requests (limits : Limits) : Machine Shared Job Mutation Unit where
  enter := fun m _ s => some (s, firstJobs limits m)
  perform := fun _ _ job s => some (perform limits s job)

/-- Nothing has arrived yet. -/
def idle (w : Workspace) : Pool Shared Job := ⟨⟨w, [], []⟩, []⟩

/-- Every request has been answered, OK or not. -/
def AllDone (p : Pool Shared Job) : Prop := p.jobs = []

/-! ## One request alone -/

/-- The only thread there is does its jobs one after the other. -/
def Ends (limits : Limits) (p q : Pool Shared Job) : Prop :=
  ∃ n, (requests limits).exec (List.replicate n (.run 0 ())) p = some q

/-- What a request that returned `out` leaves: the workspace, and its name in
both logs if it was answered OK. -/
def Shared.handled (s : Shared) (m : Mutation) (out : Workspace × Answer) : Shared :=
  match out with
  | (w, .ok _) => ⟨w, s.carriedOut ++ [m], s.answered ++ [m]⟩
  | (w, .error _) => { s with workspace := w }

variable {limits : Limits}

theorem ends_now (s : Shared) : Ends limits ⟨s, [[]]⟩ ⟨s, [[]]⟩ := ⟨0, rfl⟩

theorem ends_step {s : Shared} {job : Job} {rest : List Job} {q : Pool Shared Job}
    (h : Ends limits ⟨(perform limits s job).1, [(perform limits s job).2 ++ rest]⟩ q) :
    Ends limits ⟨s, [job :: rest]⟩ q := by
  obtain ⟨n, hn⟩ := h
  exact ⟨n + 1, hn⟩

/-- A step no other job waits behind. -/
theorem ends_last {s : Shared} {job : Job} {q : Pool Shared Job}
    (h : Ends limits ⟨(perform limits s job).1, [(perform limits s job).2]⟩ q) :
    Ends limits ⟨s, [[job]]⟩ q := by
  apply ends_step
  rw [List.append_nil]
  exact h

theorem ends_answer (m : Mutation) (s : Shared) :
    Ends limits ⟨s, [[.answer m]]⟩ ⟨{ s with answered := s.answered ++ [m] }, [[]]⟩ :=
  ends_step (ends_now _)

theorem ends_deleteRows (inside : List Str) (now : Int) {rest : List Job} {q : Pool Shared Job}
    {s : Shared}
    (h : Ends limits ⟨{ s with workspace := recordAll inside now s.workspace }, [rest]⟩ q) :
    Ends limits ⟨s, [deleteRows inside now ++ rest]⟩ q := by
  induction inside generalizing s with
  | nil => exact h
  | cons key inside ih =>
      apply ends_step
      apply ih
      exact h

theorem ends_moveRows (fromKey toKey : Str) (moved : List Str) (now : Int) {rest : List Job}
    {q : Pool Shared Job} {s : Shared}
    (h : Ends limits
      ⟨{ s with workspace := moveAll fromKey toKey moved now s.workspace }, [rest]⟩ q) :
    Ends limits ⟨s, [moveRows fromKey toKey moved now ++ rest]⟩ q := by
  induction moved generalizing s with
  | nil => exact h
  | cons key moved ih =>
      apply ends_step
      apply ends_step
      apply ih
      exact h

/-- The check of the quota, the write, and what follows it. -/
theorem ends_checked (limits : Limits) (m : Mutation) (rel content hex : Str) (s : Shared)
    (finish : Disk → Workspace) (announced : List Str)
    (hfinish : ∀ root, Ends limits ⟨s.carryOut m root, [writeRows m rel ++ [.answer m]]⟩
      ⟨⟨finish root, s.carriedOut ++ [m], s.answered ++ [m]⟩, [[]]⟩) :
    Ends limits ⟨s, [[.checkQuota m rel content hex]]⟩
      ⟨s.handled m
        (match fCheckQuota limits.workspaceQuotaBytes s.workspace.root (pathOf rel)
            (fileSize content) with
          | .error e => (s.workspace, .error e)
          | .ok () =>
              match fWriteFileAtomic s.workspace.root (pathOf rel) hex content with
              | (root, false) => ({ s.workspace with root := root }, .error internalError)
              | (root, true) => (finish root, .ok announced)), [[]]⟩ := by
  apply ends_last
  cases hquota : fCheckQuota limits.workspaceQuotaBytes s.workspace.root (pathOf rel)
      (fileSize content) with
  | error e =>
      simp only [perform, hquota]
      exact ends_now s
  | ok _ =>
      simp only [perform, hquota]
      apply ends_last
      obtain ⟨root, returned, hwrite⟩ : ∃ root returned,
          fWriteFileAtomic s.workspace.root (pathOf rel) hex content = (root, returned) :=
        ⟨_, _, rfl⟩
      cases returned with
      | false =>
          simp only [perform, hwrite]
          exact ends_now _
      | true =>
          simp only [perform, hwrite]
          exact hfinish root

/-- **The steps of one request, taken one after the other, are its handler.** -/
theorem ends_handled (m : Mutation) (s : Shared) :
    Ends limits ⟨s, [firstJobs limits m]⟩ ⟨s.handled m (m.run limits s.workspace), [[]]⟩ := by
  cases m with
  | putFile path content hex =>
      simp only [firstJobs, Mutation.run, putFile]
      cases hrel : fSafeRelPath path with
      | error e => exact ends_now s
      | ok rel =>
          by_cases hlarge : content.length > limits.maxWorkFileBytes
          · simp only [if_pos hlarge]
            exact ends_now s
          · simp only [if_neg hlarge]
            exact ends_checked limits _ rel content hex s
              (fun root => fClearTombstone { s.workspace with root := root } rel) [rel]
              (fun root => ends_step (ends_answer _ _))
  | createFolder relPath =>
      simp only [firstJobs, Mutation.run, createFolder]
      cases hrel : fSafeRelPath relPath with
      | error e => exact ends_now s
      | ok rel =>
          apply ends_last
          cases hmk : s.workspace.root.mkdirs (pathOf rel) with
          | none =>
              simp only [perform, hmk]
              exact ends_now s
          | some root =>
              simp only [perform, hmk]
              exact ends_answer _ _
  | deleteEntry path isDir now =>
      simp only [firstJobs, Mutation.run, deleteEntry]
      cases hrel : fSafeRelPath path with
      | error e => exact ends_now s
      | ok rel =>
          cases isDir with
          | true =>
              apply ends_last
              apply ends_last
              cases hrem : s.workspace.root.removeAll (pathOf rel) with
              | none =>
                  simp only [perform, hrem]
                  exact ends_now s
              | some root =>
                  simp only [perform, hrem]
                  apply ends_deleteRows
                  exact ends_answer _ _
          | false =>
              apply ends_last
              cases hrem : s.workspace.root.remove (pathOf rel) with
              | none =>
                  simp only [perform, hrem]
                  exact ends_now s
              | some root =>
                  simp only [perform, hrem]
                  apply ends_step
                  exact ends_answer _ _
  | moveEntry src dst now =>
      simp only [firstJobs, Mutation.run, moveEntry]
      cases hfrom : fSafeRelPath src with
      | error e => exact ends_now s
      | ok fromKey =>
          cases hto : fSafeRelPath dst with
          | error e => exact ends_now s
          | ok toKey =>
              apply ends_last
              apply ends_last
              simp only [perform]
              cases hren : (withParents s.workspace.root (pathOf toKey)).rename (pathOf fromKey)
                  (pathOf toKey) with
              | none =>
                  unfold withParents at hren ⊢
                  simp only [hren]
                  exact ends_now _
              | some root =>
                  unfold withParents at hren
                  simp only [hren]
                  apply ends_moveRows
                  exact ends_answer _ _
  | writeThrough access content hex =>
      simp only [firstJobs, Mutation.run, fWriteThrough, fOwnerFullPath]
      by_cases hperm : access.permission.rank < Perm.edit.rank
      · simp only [if_pos hperm]
        exact ends_now s
      · simp only [if_neg hperm]
        by_cases hwork : (!fIsWorkFile access.relPath) = true
        · simp only [if_pos hwork]
          exact ends_now s
        · simp only [if_neg hwork]
          cases hrel : fSafeRelPath access.relPath with
          | error e => exact ends_now s
          | ok rel =>
              apply ends_last
              simp only [perform]
              by_cases hreg : (!(isRegularFile s.workspace.root (pathOf rel)).1 ||
                  (isRegularFile s.workspace.root (pathOf rel)).2) = true
              · simp only [if_pos hreg]
                exact ends_now s
              · simp only [if_neg hreg]
                exact ends_checked limits _ rel content hex s
                  (fun root => { s.workspace with root := root }) [access.relPath]
                  (fun root => ends_answer _ _)

end Lectern.Concurrent
