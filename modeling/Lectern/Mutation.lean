import Lectern.AtomicWrite
import Lectern.Share
import Lectern.Tombstones

/-!
# Requests that change a workspace

The five ways a request changes the files of one owner: the owner's own PUT,
folder creation, delete and move, and a PUT through a share or a link, which
arrives here as the access it resolved to.  `Mutation.run` is the handler;
`runs` executes requests one after the other.

Each handler gets one inversion lemma that says everything it can do.  The
facts about whole runs use these and never open a handler again.
-/

namespace Lectern

open FileTree

inductive Mutation where
  | putFile (path content hex : Str)
  | createFolder (relPath : Str)
  | deleteEntry (path : Str) (isDir : Bool) (now : Int)
  | moveEntry (src dst : Str) (now : Int)
  | writeThrough (access : Access) (content hex : Str)
  deriving DecidableEq, Repr

/-- Execute one request. -/
def Mutation.run (limits : Limits) : Mutation → Workspace → Workspace × Answer
  | .putFile path content hex => Lectern.putFile limits path content hex
  | .createFolder relPath => Lectern.createFolder relPath
  | .deleteEntry path isDir now => Lectern.deleteEntry path isDir now
  | .moveEntry src dst now => Lectern.moveEntry src dst now
  | .writeThrough access content hex => fWriteThrough limits access content hex

/-- Execute requests one after the other. -/
def runs (limits : Limits) (ms : List Mutation) (w : Workspace) : Workspace :=
  ms.foldl (fun w m => (m.run limits w).1) w

@[simp] theorem runs_nil (limits : Limits) (w : Workspace) : runs limits [] w = w := rfl

theorem runs_concat (limits : Limits) (ms : List Mutation) (m : Mutation) (w : Workspace) :
    runs limits (ms ++ [m]) w = (m.run limits (runs limits ms w)).1 := by
  unfold runs
  rw [List.foldl_append]
  rfl

/-- **Runs preserve what every request preserves.** -/
theorem runs_induction {P : Workspace → Prop} {limits : Limits}
    (hstep : ∀ (m : Mutation) w, P w → P (m.run limits w).1) (ms : List Mutation) {w : Workspace} (hw : P w) :
    P (runs limits ms w) := by
  induction ms generalizing w with
  | nil => exact hw
  | cons m ms ih => exact ih (hstep m w hw)

/-! ## What a handler can do -/

/-- What a handler answers once its checks have passed: an internal error when
the write throws, otherwise the finished workspace and the announced paths. -/
def Wrote (w : Workspace) (rel content hex : Str) (out : Workspace × Answer)
    (finish : Disk → Workspace) (announced : List Str) : Prop :=
  ∃ root,
    fWriteFileAtomic w.root (pathOf rel) hex content = (root, false) ∧
        out = ({ w with root := root }, .error internalError) ∨
      fWriteFileAtomic w.root (pathOf rel) hex content = (root, true) ∧
        out = (finish root, .ok announced)

theorem putFile_cases (limits : Limits) (path content hex : Str) (w : Workspace) :
    (∃ e, putFile limits path content hex w = (w, .error e)) ∨
    ∃ rel, fSafeRelPath path = .ok rel ∧ content.length ≤ limits.maxWorkFileBytes ∧
      fCheckQuota limits.workspaceQuotaBytes w.root (pathOf rel) (fileSize content) = .ok () ∧
      Wrote w rel content hex (putFile limits path content hex w)
        (fun root => fClearTombstone { w with root := root } rel) [rel] := by
  unfold putFile
  cases hrel : fSafeRelPath path with
  | error e => exact Or.inl ⟨e, rfl⟩
  | ok rel =>
      simp only
      by_cases hsize : content.length > limits.maxWorkFileBytes
      · rw [if_pos hsize]
        exact Or.inl ⟨_, rfl⟩
      · rw [if_neg hsize]
        cases hquota :
            fCheckQuota limits.workspaceQuotaBytes w.root (pathOf rel) (fileSize content) with
        | error e => exact Or.inl ⟨e, rfl⟩
        | ok u =>
            refine Or.inr ⟨rel, rfl, by omega, hquota, ?_⟩
            obtain ⟨root, returned, hwrite⟩ : ∃ root returned,
                fWriteFileAtomic w.root (pathOf rel) hex content = (root, returned) := ⟨_, _, rfl⟩
            refine ⟨root, ?_⟩
            rw [hwrite]
            cases returned with
            | false => exact Or.inl ⟨rfl, rfl⟩
            | true => exact Or.inr ⟨rfl, rfl⟩

/-- The shared write only ever touches an existing file of the owner. -/
theorem fWriteThrough_cases (limits : Limits) (access : Access) (content hex : Str)
    (w : Workspace) :
    (∃ e, fWriteThrough limits access content hex w = (w, .error e)) ∨
    ∃ rel, fSafeRelPath access.relPath = .ok rel ∧ access.permission = .edit ∧
      fIsWorkFile access.relPath = true ∧ (∃ c, w.root.entryAt (pathOf rel) = some (.file c)) ∧
      fCheckQuota limits.workspaceQuotaBytes w.root (pathOf rel) (fileSize content) = .ok () ∧
      Wrote w rel content hex (fWriteThrough limits access content hex w)
        (fun root => { w with root := root }) [access.relPath] := by
  unfold fWriteThrough
  by_cases hperm : access.permission.rank < Perm.edit.rank
  · rw [if_pos hperm]
    exact Or.inl ⟨_, rfl⟩
  · rw [if_neg hperm]
    by_cases hwork : (!fIsWorkFile access.relPath) = true
    · rw [if_pos hwork]
      exact Or.inl ⟨_, rfl⟩
    · rw [if_neg hwork]
      cases hrel : fSafeRelPath access.relPath with
      | error e =>
          simp only [fOwnerFullPath, hrel]
          exact Or.inl ⟨e, rfl⟩
      | ok rel =>
          simp only [fOwnerFullPath, hrel]
          by_cases hreg : (!(isRegularFile w.root (pathOf rel)).1 ||
              (isRegularFile w.root (pathOf rel)).2) = true
          · rw [if_pos hreg]
            exact Or.inl ⟨_, rfl⟩
          · rw [if_neg hreg]
            cases hquota :
                fCheckQuota limits.workspaceQuotaBytes w.root (pathOf rel) (fileSize content) with
            | error e => exact Or.inl ⟨e, rfl⟩
            | ok u =>
                have hedit : access.permission = .edit := by
                  cases hp : access.permission <;> simp_all [Perm.rank]
                have hfile : ∃ c, w.root.entryAt (pathOf rel) = some (.file c) := by
                  unfold isRegularFile at hreg
                  split at hreg <;> simp_all
                refine Or.inr ⟨rel, rfl, hedit, by simpa using hwork, hfile, hquota, ?_⟩
                obtain ⟨root, returned, hwrite⟩ : ∃ root returned,
                    fWriteFileAtomic w.root (pathOf rel) hex content = (root, returned) :=
                  ⟨_, _, rfl⟩
                refine ⟨root, ?_⟩
                rw [hwrite]
                cases returned with
                | false => exact Or.inl ⟨rfl, rfl⟩
                | true => exact Or.inr ⟨rfl, rfl⟩

theorem createFolder_cases (relPath : Str) (w : Workspace) :
    (∃ e, createFolder relPath w = (w, .error e)) ∨
    ∃ rel root, fSafeRelPath relPath = .ok rel ∧ w.root.mkdirs (pathOf rel) = some root ∧
      createFolder relPath w = ({ w with root := root }, .ok []) := by
  unfold createFolder
  cases hrel : fSafeRelPath relPath with
  | error e => exact Or.inl ⟨e, rfl⟩
  | ok rel =>
      cases hmk : w.root.mkdirs (pathOf rel) with
      | none =>
          refine Or.inl ⟨.fInternal (str "Not a directory"), ?_⟩
          simp only [hmk]
      | some root =>
          refine Or.inr ⟨rel, root, rfl, hmk, ?_⟩
          simp only [hmk]

/-- A delete either leaves the workspace alone or removes the entry and
records: the collected files for a folder, the path itself otherwise. -/
theorem deleteEntry_cases (path : Str) (isDir : Bool) (now : Int) (w : Workspace) :
    (∃ e, deleteEntry path isDir now w = (w, .error e)) ∨
    ∃ rel root, fSafeRelPath path = .ok rel ∧
      (isDir = true ∧ w.root.removeAll (pathOf rel) = some root ∧
          deleteEntry path isDir now w =
            (recordAll (fCollectFilesUnder w.root (pathOf rel) rel) now { w with root := root },
              .ok []) ∨
        isDir = false ∧ w.root.remove (pathOf rel) = some root ∧
          deleteEntry path isDir now w =
            (fRecordTombstone { w with root := root } rel now, .ok [rel])) := by
  unfold deleteEntry
  cases hrel : fSafeRelPath path with
  | error e => exact Or.inl ⟨e, rfl⟩
  | ok rel =>
      cases isDir with
      | true =>
          simp only [if_true]
          cases hrem : w.root.removeAll (pathOf rel) with
          | none => exact Or.inl ⟨_, rfl⟩
          | some root => exact Or.inr ⟨rel, root, rfl, Or.inl ⟨trivial, hrem, rfl⟩⟩
      | false =>
          simp only [Bool.false_eq_true, if_false]
          cases hrem : w.root.remove (pathOf rel) with
          | none => exact Or.inl ⟨_, rfl⟩
          | some root => exact Or.inr ⟨rel, root, rfl, Or.inr ⟨trivial, hrem, rfl⟩⟩

/-- The files a move relocates, by key. -/
def movedFiles (root : Disk) (fromKey : Str) : List Str :=
  if (isDirectory root (pathOf fromKey)).1 then fCollectFilesUnder root (pathOf fromKey) fromKey
  else [fromKey]

/-- The disk a move renames on: the destination's parents are created, unless a
file is in the way. -/
def withParents (root : Disk) (path : List Str) : Disk :=
  (root.mkdirs path.dropLast).getD root

/-- What a move announces: nothing in particular for a folder. -/
def movedPaths (root : Disk) (fromKey toKey : Str) : List Str :=
  if (isDirectory root (pathOf fromKey)).1 then [] else [fromKey, toKey]

/-- A refused move may have created the destination's parents; one that is
carried out renames and moves the tombstones along. -/
theorem moveEntry_cases (src dst : Str) (now : Int) (w : Workspace) :
    (∃ e, moveEntry src dst now w = (w, .error e)) ∨
    ∃ fromKey toKey, fSafeRelPath src = .ok fromKey ∧ fSafeRelPath dst = .ok toKey ∧
      ((withParents w.root (pathOf toKey)).rename (pathOf fromKey) (pathOf toKey) = none ∧
          moveEntry src dst now w =
            ({ w with root := withParents w.root (pathOf toKey) }, .error .fNotFound) ∨
        ∃ root,
          (withParents w.root (pathOf toKey)).rename (pathOf fromKey) (pathOf toKey) = some root ∧
          moveEntry src dst now w =
            (moveAll fromKey toKey (movedFiles w.root fromKey) now { w with root := root },
              .ok (movedPaths w.root fromKey toKey))) := by
  unfold moveEntry
  cases hfrom : fSafeRelPath src with
  | error e => exact Or.inl ⟨e, rfl⟩
  | ok fromKey =>
      cases hto : fSafeRelPath dst with
      | error e => exact Or.inl ⟨e, rfl⟩
      | ok toKey =>
          refine Or.inr ⟨fromKey, toKey, rfl, rfl, ?_⟩
          cases hren :
              (withParents w.root (pathOf toKey)).rename (pathOf fromKey) (pathOf toKey) with
          | none =>
              refine Or.inl ⟨rfl, ?_⟩
              unfold withParents at hren
              simp only [hren]
              rfl
          | some root =>
              refine Or.inr ⟨root, rfl, ?_⟩
              unfold withParents at hren
              simp only [hren]
              rfl

end Lectern
