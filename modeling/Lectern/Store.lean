import Lectern.FileTree.Contents
import Lectern.Relocation
import Lectern.Runs
import Lectern.Sync.Requests

/-!
# The server as a store of files

Seen from outside, the server holds a file content for each owner and path, and
a request that is answered with success makes one change to it: a PUT by any
door writes, a delete unlinks or clears a folder, a move relocates.  A refused
request changes nothing, whatever folders it may have created on its way.

`Request.done` reads the change off a request and its answer, and
`store_refines` says that the disks of a whole run are that log replayed.
-/

namespace Lectern

open FileTree Sync

/-- What every file of every owner holds. -/
def Server.files (s : Server) : Store Str Str Str := fun owner => (s.workspaces owner).root.fileAt

/-- The change a request asks for. -/
def Mutation.change : Mutation → Option (Change Str Str)
  | .putFile path content _ =>
      (fSafeRelPath path).toOption.map (fun rel => .write (pathOf rel) content)
  | .createFolder _ => none
  | .deleteEntry path isDir _ =>
      (fSafeRelPath path).toOption.map (fun rel =>
        if isDir then .removeBelow (pathOf rel) else .unlink (pathOf rel))
  | .moveEntry src dst _ =>
      match fSafeRelPath src, fSafeRelPath dst with
      | .ok fromKey, .ok toKey => some (.move (pathOf fromKey) (pathOf toKey))
      | _, _ => none
  | .writeThrough access content _ =>
      (fSafeRelPath access.relPath).toOption.map (fun rel => .write (pathOf rel) content)

/-- What an answered request has done. -/
def Mutation.done (m : Mutation) : Answer → List (Change Str Str)
  | .ok _ => m.change.toList
  | .error _ => []

namespace Sync

/-- The changes of an answered request, with the owner of the files. -/
def Request.done (cfg : Config) (s : Server) (r : Request) : List (Str × Change Str Str) :=
  match r.mutation s with
  | some (owner, m) =>
      (m.done (m.run cfg.limits (s.workspaces owner)).2).map (fun c => (owner, c))
  | none => []

/-- No file has the temporary name the request draws. -/
def Request.Fresh (s : Server) (r : Request) : Prop :=
  ∀ owner m p, r.mutation s = some (owner, m) → m.Temporary p → s.files owner p = none

/-- Serve requests one after the other. -/
def served (cfg : Config) : List Request → Server → Server :=
  Runs.run (fun r s => (serve cfg r s).1)

/-- The log of a run. -/
def journal (cfg : Config) : List Request → Server → List (Str × Change Str Str)
  | [], _ => []
  | r :: rs, s => r.done cfg s ++ journal cfg rs (serve cfg r s).1

def AllFresh (cfg : Config) : List Request → Server → Prop
  | [], _ => True
  | r :: rs, s => r.Fresh s ∧ AllFresh cfg rs (serve cfg r s).1

end Sync

/-! ## One request -/

section Mutations

variable {limits : Limits} {w : Workspace}

/-- A write, by its outcome. -/
theorem fileAt_wrote {rel content hex : Str} (hrel : fSafeRelPath rel = .ok rel)
    (hfresh : w.root.fileAt (tempPath (pathOf rel) hex) = none) {finish : Disk → Workspace}
    (hfinish : ∀ root, (finish root).root = root) {announced : List Str}
    {out : Workspace × Answer} (h : Wrote w rel content hex out finish announced) :
    (∃ e, out.2 = .error e) ∧ out.1.root.fileAt = w.root.fileAt ∨
      out.2 = .ok announced ∧
        out.1.root.fileAt = (Change.write (pathOf rel) content).apply w.root.fileAt := by
  have hp := (keyOf_pathOf hrel).1.1
  obtain ⟨root, ⟨hwrite, hout⟩ | ⟨hwrite, hout⟩⟩ := h
  · refine Or.inl ⟨⟨internalError, by rw [hout]⟩, ?_⟩
    rw [hout]
    funext q
    rcases fWriteFileAtomic_fail hp hwrite with hsame | ⟨_, hat⟩
    · exact Tree.fileAt_congr (hsame q)
    · by_cases hq : q = tempPath (pathOf rel) hex
      · have hgone := hat q
        rw [if_pos hq] at hgone
        show root.fileAt q = _
        rw [hq, hfresh, ← hq, Tree.fileAt, hgone]
      · have hsame := hat q
        rw [if_neg hq] at hsame
        exact Tree.fileAt_congr hsame
  · refine Or.inr ⟨by rw [hout], ?_⟩
    rw [hout]
    funext q
    show (finish root).root.fileAt q = if q = pathOf rel then some content else w.root.fileAt q
    rw [hfinish, fileAt_fWriteFileAtomic_ok hp hwrite]
    by_cases hq : q = pathOf rel
    · rw [if_pos hq, if_pos hq]
    · rw [if_neg hq, if_neg hq]
      by_cases htemp : q = tempPath (pathOf rel) hex
      · rw [if_pos htemp, htemp, hfresh]
      · rw [if_neg htemp]

/-- The files after a rename and what came before it. -/
theorem fileAt_renamed {root : Disk} {src dst : List Str}
    (h : (withParents w.root dst).rename src dst = some root) :
    root.fileAt = (Change.move src dst).apply w.root.fileAt := by
  funext q
  rw [Change.apply_moved]
  by_cases hne : src = dst
  · rw [if_pos hne]
    subst hne
    rw [Tree.rename_self h, fileAt_withParents]
  · rw [if_neg hne, fileAt_move hne h]

/-- **What a request does to the files**: the change it asks for when it is
answered with success, and nothing otherwise. -/
theorem fileAt_run (m : Mutation) (hfresh : ∀ p, m.Temporary p → w.root.fileAt p = none) :
    (m.run limits w).1.root.fileAt =
      (m.done (m.run limits w).2).foldl (fun files c => c.apply files) w.root.fileAt := by
  cases m with
  | putFile path content hex =>
      change (putFile limits path content hex w).1.root.fileAt =
        (Mutation.done _ (putFile limits path content hex w).2).foldl _ _
      rcases putFile_cases limits path content hex w with ⟨e, he⟩ | ⟨rel, hrel, _, _, hwrote⟩
      · rw [he]
        rfl
      · have hnone := hfresh _ ⟨rel, hrel, rfl⟩
        rcases fileAt_wrote (fSafeRelPath_fixed hrel) hnone (fun _ => rfl) hwrote with
          ⟨⟨e, he⟩, hsame⟩ | ⟨hok, hchanged⟩
        · rw [he, hsame]
          rfl
        · rw [hok, hchanged]
          simp [Mutation.done, Mutation.change, hrel, Except.toOption]
  | createFolder relPath =>
      change (createFolder relPath w).1.root.fileAt =
        (Mutation.done _ (createFolder relPath w).2).foldl _ _
      rcases createFolder_cases relPath w with ⟨e, he⟩ | ⟨rel, root, _, hmk, hout⟩
      · rw [he]
        rfl
      · rw [hout]
        exact funext (Tree.fileAt_mkdirs hmk)
  | deleteEntry path isDir now =>
      change (deleteEntry path isDir now w).1.root.fileAt =
        (Mutation.done _ (deleteEntry path isDir now w).2).foldl _ _
      rcases deleteEntry_cases path isDir now w with
        ⟨e, he⟩ | ⟨rel, root, hrel, ⟨hdir, hremove, hout⟩ | ⟨hdir, hremove, hout⟩⟩
      · rw [he]
        rfl
      · rw [hout, root_recordAll]
        subst hdir
        simp only [Mutation.done, Mutation.change, hrel, Except.toOption, Option.map_some, if_true,
          Option.toList_some, List.foldl_cons, List.foldl_nil]
        exact funext (Tree.fileAt_removeAll hremove)
      · rw [hout, root_fRecordTombstone]
        subst hdir
        simp only [Mutation.done, Mutation.change, hrel, Except.toOption, Option.map_some,
          Bool.false_eq_true, if_false, Option.toList_some, List.foldl_cons, List.foldl_nil]
        funext q
        show root.fileAt q = if q = pathOf rel then none else w.root.fileAt q
        by_cases hq : q = pathOf rel
        · rw [if_pos hq, Tree.fileAt, Tree.entryAt_remove hremove, if_pos hq]
        · rw [if_neg hq]
          exact Tree.fileAt_congr (by rw [Tree.entryAt_remove hremove, if_neg hq])
  | moveEntry src dst now =>
      change (moveEntry src dst now w).1.root.fileAt =
        (Mutation.done _ (moveEntry src dst now w).2).foldl _ _
      rcases moveEntry_cases src dst now w with
        ⟨e, he⟩ | ⟨fromKey, toKey, hfrom, hto, ⟨_, hout⟩ | ⟨root, hrename, hout⟩⟩
      · rw [he]
        rfl
      · rw [hout]
        exact funext (fileAt_withParents w.root (pathOf toKey))
      · rw [hout, root_moveAll]
        simp only [Mutation.done, Mutation.change, hfrom, hto, Option.toList_some, List.foldl_cons,
          List.foldl_nil]
        exact fileAt_renamed hrename
  | writeThrough access content hex =>
      change (fWriteThrough limits access content hex w).1.root.fileAt =
        (Mutation.done _ (fWriteThrough limits access content hex w).2).foldl _ _
      rcases fWriteThrough_cases limits access content hex w with
        ⟨e, he⟩ | ⟨rel, hrel, _, _, _, _, hwrote⟩
      · rw [he]
        rfl
      · have hnone := hfresh _ ⟨rel, hrel, rfl⟩
        rcases fileAt_wrote (fSafeRelPath_fixed hrel) hnone (fun _ => rfl) hwrote with
          ⟨⟨e, he⟩, hsame⟩ | ⟨hok, hchanged⟩
        · rw [he, hsame]
          rfl
        · rw [hok, hchanged]
          simp [Mutation.done, Mutation.change, hrel, Except.toOption]

end Mutations

/-! ## Whole runs -/

namespace Sync

theorem fst_change (limits : Limits) (owner : Str) (m : Mutation) (device : Str) (s : Server) :
    (change limits owner m device s).1 =
      s.setWorkspace owner (m.run limits (s.workspaces owner)).1 := by
  unfold change
  split <;> rename_i h <;> rw [h]

/-- A request the hub is not told about changes no file. -/
theorem workspaces_handle {cfg : Config} {caller : Option Str} {req : ShareRequest} {s : Server}
    (h : sharedWrite caller s req = none) :
    (handle cfg caller req s).1.workspaces = s.workspaces := by
  have he := effect_of cfg caller req s
  cases req with
  | putLinkFile token path content hex =>
      change Option.map _ (fResolveLinkAccess s.db token path).toOption = none at h
      change (putLinkFile cfg.limits token path content hex s).1.workspaces = s.workspaces
      unfold putLinkFile
      cases hresolve : fResolveLinkAccess s.db token path with
      | error e => rfl
      | ok a =>
          rw [hresolve] at h
          cases h
  | putSharedFile share path content hex =>
      change Option.map _ (sharedAccess caller share path s).toOption = none at h
      change (putSharedFile cfg.limits caller share path content hex s).1.workspaces = s.workspaces
      unfold putSharedFile
      cases hresolve : sharedAccess caller share path s with
      | error e => rfl
      | ok a =>
          rw [hresolve] at h
          cases h
  | _ =>
      generalize (handle cfg caller _ s).1 = s' at he ⊢
      cases he <;> rfl

/-- Serving a request changes at most the workspace of its mutation. -/
theorem serve_cases (cfg : Config) (r : Request) (s : Server) :
    (∃ owner m, r.mutation s = some (owner, m) ∧
      (serve cfg r s).1 = s.setWorkspace owner (m.run cfg.limits (s.workspaces owner)).1) ∨
    r.mutation s = none ∧ (serve cfg r s).1.workspaces = s.workspaces := by
  cases hm : r.mutation s with
  | some found =>
      obtain ⟨owner, m⟩ := found
      refine Or.inl ⟨owner, m, rfl, ?_⟩
      unfold serve
      rw [hm]
      exact fst_change cfg.limits owner m r.device s
  | none =>
      refine Or.inr ⟨rfl, ?_⟩
      unfold serve
      rw [hm]
      cases r with
      | share caller req device =>
          cases hwrite : sharedWrite caller s req with
          | none => exact workspaces_handle hwrite
          | some write =>
              simp [Request.mutation, hwrite] at hm
      | _ => rfl

/-- The tables change by the effect of a share request only. -/
theorem serve_effect (cfg : Config) (r : Request) (s : Server) :
    (serve cfg r s).1.db = s.db ∨
      ∃ caller req device, r = .share caller req device ∧
        Effect cfg caller s req (serve cfg r s).1 := by
  rcases serve_cases cfg r s with ⟨owner, m, _, hserve⟩ | ⟨hm, _⟩
  · rw [hserve]
    exact Or.inl rfl
  · cases r with
    | share caller req device =>
        refine Or.inr ⟨caller, req, device, rfl, ?_⟩
        rw [serve_share]
        exact effect_of cfg caller req s
    | _ => cases hm

/-- **One request**: the files afterwards are those before with its changes
made. -/
theorem files_serve (cfg : Config) {r : Request} {s : Server} (hfresh : r.Fresh s) :
    (serve cfg r s).1.files = s.files.replay (r.done cfg s) := by
  funext o
  rcases serve_cases cfg r s with ⟨owner, m, hm, hserve⟩ | ⟨hm, hsame⟩
  · have hrun := @fileAt_run cfg.limits _ m (fun p hp => hfresh owner m p hm hp)
    unfold Request.done
    rw [hm, hserve, Store.replay_of_owner]
    unfold Server.files
    rw [workspaces_setWorkspace]
    by_cases ho : o = owner
    · subst ho
      rw [if_pos rfl, if_pos rfl, hrun]
    · rw [if_neg ho, if_neg ho]
  · unfold Server.files Request.done
    rw [hm, hsame]
    rfl

theorem files_served (cfg : Config) {rs : List Request} {s : Server}
    (hfresh : AllFresh cfg rs s) :
    (served cfg rs s).files = s.files.replay (journal cfg rs s) := by
  induction rs generalizing s with
  | nil => rfl
  | cons r rs ih =>
      have hlater := ih hfresh.2
      rw [files_serve cfg hfresh.1] at hlater
      rw [served, Runs.run_cons, ← served, hlater, journal, Store.replay_append]

/-- **The server is a store.**  After any run of requests, through whatever
doors, every file of every owner holds what replaying the successful requests
on the files before makes it hold; and its content was there before or was
written to the same owner's files by one of the requests. -/
theorem store_refines (cfg : Config) (rs : List Request) (s : Server)
    (hfresh : AllFresh cfg rs s) :
    (served cfg rs s).files = s.files.replay (journal cfg rs s) ∧
      ∀ owner q content, (served cfg rs s).files owner q = some content →
        (∃ p, s.files owner p = some content) ∨ ∃ p, (owner, .write p content) ∈ journal cfg rs s := by
  have hfiles := files_served cfg hfresh
  refine ⟨hfiles, ?_⟩
  intro owner q content hq
  rw [hfiles] at hq
  exact Store.replay_origin hq

/-- Bob writes through the shared folder, and Ann creates another one. -/
def bobWrites : Request :=
  .share (some (str "bob")) (.putSharedFile (str "s1") (str "x.mdp") (str "two") (str "ff")) []

def annCreates : Request := .createFolder (str "ann") (str "plans") []

theorem allFresh_bobWrites : AllFresh plainConfig [bobWrites, annCreates] sharedDocs := by
  refine ⟨?_, ?_, trivial⟩
  · intro owner m p hm htemp
    have hmutation : bobWrites.mutation sharedDocs = some (str "ann",
        .writeThrough ⟨str "ann", str "docs/x.mdp", true, .edit⟩ (str "two") (str "ff")) := by
      decide +kernel
    rw [hmutation] at hm
    cases hm
    obtain ⟨rel, hrel, rfl⟩ := htemp
    have hkey : fSafeRelPath (str "docs/x.mdp") = .ok (str "docs/x.mdp") := by decide +kernel
    cases hkey.symm.trans hrel
    decide +kernel
  · intro owner m p hm htemp
    cases hm
    exact htemp.elim

theorem store_refines_bobWrites :
    (served plainConfig [bobWrites, annCreates] sharedDocs).files =
      sharedDocs.files.replay (journal plainConfig [bobWrites, annCreates] sharedDocs) :=
  (store_refines plainConfig [bobWrites, annCreates] sharedDocs allFresh_bobWrites).1

end Sync

end Lectern
