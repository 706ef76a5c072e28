import Lectern.RateLimiter
import Lectern.Workspace

/-!
# Shares, links and comments

The tables of `shares`, `share_links`, `comments` and `users`, and the way a
request reaches another user's workspace: a share id or a link token resolves
to an `Access` (whose workspace, which path, at what level), and the shared
read and write go through it.  The definitions follow `share.cpp`.

The caller of a request is the account its credentials name, if any; a link
works without one.
-/

namespace Lectern

open FileTree

/-! ## Permissions -/

inductive Perm where
  | view
  | comment
  | edit
  deriving DecidableEq, Repr

/-- Ordered as in the source: `View = 0`, `Comment = 1`, `Edit = 2`. -/
def Perm.rank : Perm → Nat
  | .view => 0
  | .comment => 1
  | .edit => 2

def fParsePerm (value : Str) : Option Perm :=
  if value = str "view" then some .view
  else if value = str "comment" then some .comment
  else if value = str "edit" then some .edit
  else none

def fPermStr : Perm → Str
  | .view => str "view"
  | .comment => str "comment"
  | .edit => str "edit"

def fPermFromDb (value : Str) : Except AppError Perm :=
  match fParsePerm value with
  | some perm => .ok perm
  | none => .error (.fInternal (str "bad permission in db"))

/-! ## Tables -/

structure UserRow where
  id : Str
  email : Str
  deriving DecidableEq, Repr

structure ShareRow where
  id : Str
  ownerId : Str
  granteeId : Str
  relPath : Str
  isDir : Bool
  permission : Str
  createdAt : Int
  deriving DecidableEq, Repr

structure LinkRow where
  id : Str
  ownerId : Str
  relPath : Str
  isDir : Bool
  permission : Str
  createdAt : Int
  deriving DecidableEq, Repr

structure CommentRow where
  id : Str
  ownerId : Str
  relPath : Str
  authorId : Option Str
  body : Str
  createdAt : Int
  anchor : Option Str
  deriving DecidableEq, Repr

structure Db where
  users : List UserRow
  shares : List ShareRow
  links : List LinkRow
  comments : List CommentRow
  deriving DecidableEq, Repr

/-- Everything a request can read or change. -/
structure Server where
  db : Db
  workspaces : Str → Workspace
  authLimiter : RateLimiter

def Server.setWorkspace (s : Server) (user : Str) (w : Workspace) : Server :=
  { s with workspaces := Function.update s.workspaces user w }

theorem workspaces_setWorkspace (s : Server) (user : Str) (w : Workspace) (o : Str) :
    (s.setWorkspace user w).workspaces o = if o = user then w else s.workspaces o := by
  unfold Server.setWorkspace
  by_cases ho : o = user
  · subst ho
    simp
  · simp [ho]

/-! ## Resolving access -/

/-- Resolved access: whose workspace, which path inside it, at what level. -/
structure Access where
  ownerId : Str
  relPath : Str
  isDir : Bool
  permission : Perm
  deriving DecidableEq, Repr

def fLoadShare (db : Db) (shareId : Str) : Except AppError ShareRow :=
  match db.shares.find? (fun row => row.id = shareId) with
  | some row => .ok row
  | none => .error .fNotFound

def fLoadLink (db : Db) (token : Str) : Except AppError LinkRow :=
  match db.links.find? (fun row => row.id = token) with
  | some row => .ok row
  | none => .error .fNotFound

/-- Joins the optional sub path safely under the shared root. -/
def fEffectivePath (sharedRoot : Str) (isDir : Bool) (subPath notAFolderMessage : Str) :
    Except AppError Str :=
  if subPath = [] then .ok sharedRoot
  else if !isDir then .error (.fBadRequest notAFolderMessage)
  else
    match fSafeRelPath subPath with
    | .error e => .error e
    | .ok sub => .ok (sharedRoot ++ slash :: sub)

/-- The last two columns of an access: the path, then the level. -/
def access (ownerId relPath : Str) (isDir : Bool) (permission subPath message : Str) :
    Except AppError Access :=
  match fEffectivePath relPath isDir subPath message with
  | .error e => .error e
  | .ok path =>
      match fPermFromDb permission with
      | .error e => .error e
      | .ok perm => .ok ⟨ownerId, path, isDir, perm⟩

def fResolveShareAccess (db : Db) (userId shareId subPath : Str) : Except AppError Access :=
  match fLoadShare db shareId with
  | .error e => .error e
  | .ok share =>
      if share.granteeId ≠ userId then .error .fNotFound
      else
        access share.ownerId share.relPath share.isDir share.permission subPath
          (str "not a folder share")

def fResolveLinkAccess (db : Db) (token subPath : Str) : Except AppError Access :=
  match fLoadLink db token with
  | .error e => .error e
  | .ok link =>
      access link.ownerId link.relPath link.isDir link.permission subPath
        (str "not a folder link")

/-- Where a path of the owner's workspace lies on disk; validated again. -/
def fOwnerFullPath (rel : Str) : Except AppError (List Str) :=
  match fSafeRelPath rel with
  | .error e => .error e
  | .ok key => .ok (pathOf key)

def notAWorkFile : AppError := .fBadRequest (str "not a work file")

def fReadThrough (s : Server) (access : Access) : Except AppError Str :=
  if !fIsWorkFile access.relPath then .error notAWorkFile
  else
    match fOwnerFullPath access.relPath with
    | .error e => .error e
    | .ok full =>
        match fReadFile (s.workspaces access.ownerId).root full with
        | none => .error .fNotFound
        | some content => .ok content

/-- Shared write of a work file: an existing one, within the owner's quota.
`w` is the owner's workspace. -/
def fWriteThrough (limits : Limits) (access : Access) (content hex : Str) (w : Workspace) :
    Workspace × Answer :=
  if access.permission.rank < Perm.edit.rank then (w, .error .fForbidden)
  else if !fIsWorkFile access.relPath then (w, .error notAWorkFile)
  else
    match fOwnerFullPath access.relPath with
    | .error e => (w, .error e)
    | .ok full =>
        let (regular, ec) := isRegularFile w.root full
        if !regular || ec then (w, .error .fNotFound)
        else
          match fCheckQuota limits.workspaceQuotaBytes w.root full (fileSize content) with
          | .error e => (w, .error e)
          | .ok () =>
              match fWriteFileAtomic w.root full hex content with
              | (root, false) => ({ w with root := root }, .error internalError)
              | (root, true) => ({ w with root := root }, .ok [access.relPath])

/-- Confirms the entry the owner is about to share actually exists. -/
def fRequireEntryExists (w : Workspace) (rel : Str) (isDir : Bool) : Except AppError Unit :=
  let (directory, ecDir) := isDirectory w.root (pathOf rel)
  let (regular, ecFile) := isRegularFile w.root (pathOf rel)
  if isDir && (!directory || ecDir) then .error (.fBadRequest (str "no such folder"))
  else if !isDir && (!regular || ecFile) then .error (.fBadRequest (str "no such file"))
  else .ok ()

/-! ## Comment targets -/

/-- The three mutually exclusive ways a comments request names its file. -/
structure CommentTarget where
  path : Str
  share : Str
  link : Str
  subPath : Str
  deriving DecidableEq, Repr

def fTargetFromBody (body : Json) : CommentTarget :=
  ⟨fJsonStringOr body (str "path"), fJsonStringOr body (str "share"),
    fJsonStringOr body (str "link"), fJsonStringOr body (str "subPath")⟩

/-- The owner and path of an access, when its level suffices. -/
def requireLevel (need : Perm) (resolved : Except AppError Access) : Except AppError (Str × Str) :=
  match resolved with
  | .error e => .error e
  | .ok access =>
      if access.permission.rank < need.rank then .error .fForbidden
      else .ok (access.ownerId, access.relPath)

/-- Which file a comments request is about, and whether the caller may see or
post at the required level. -/
def fResolveCommentTarget (db : Db) (userId : Option Str) (target : CommentTarget)
    (need : Perm) : Except AppError (Str × Str) :=
  if target.link ≠ [] then requireLevel need (fResolveLinkAccess db target.link target.subPath)
  else
    match userId with
    | none => .error .fUnauthorized
    | some user =>
        if target.share ≠ [] then
          requireLevel need (fResolveShareAccess db user target.share target.subPath)
        else
          match fSafeRelPath target.path with
          | .error e => .error e
          | .ok rel => .ok (user, rel)

/-- Resolves a sync-socket `watch` request to the owner workspace and the path
inside it; `userId` is empty for an anonymous connection. -/
def fResolveWatch (db : Db) (userId : Str) (request : Json) : Option (Str × Str) :=
  let subPath := request.fStringField (str "path")
  let link := request.fStringField (str "link")
  let shareId := request.fStringField (str "share")
  let resolved : Except AppError Access :=
    if link ≠ [] then fResolveLinkAccess db link subPath
    else if shareId ≠ [] ∧ userId ≠ [] then fResolveShareAccess db userId shareId subPath
    else .error .fNotFound
  match resolved with
  | .ok access => some (access.ownerId, access.relPath)
  | .error _ => none

end Lectern
