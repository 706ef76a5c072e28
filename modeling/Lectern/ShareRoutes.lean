import Lectern.Share

/-!
# The share, link and comment endpoints

One definition per handler of `share.cpp`, with the checks in the order of the
source.  A request carries what the handler reads of it, and the values the
server draws while answering: fresh ids, the random part of a temporary name,
the clock.  `caller` is the account the credentials name; without one, an
endpoint that needs an account answers `unauthorized`.

A body that is not JSON and one that is not an object get the same answer, so
both are a `Json` value that is not an object.
-/

namespace Lectern

open FileTree

/-- Settings and what the disk reports beyond names and bytes. -/
structure Config where
  limits : Limits
  probe : Probe

/-- The body of a successful answer. -/
inductive Body where
  | empty
  | text (content : Str)
  | json (value : Json)
  deriving Repr

abbrev Response := Except AppError Body

/-- `fJsonResponse`: serialising text that is not UTF-8 throws. -/
def fJsonResponse (value : Json) : Response :=
  if value.dumps then .ok (.json value) else .error internalError

/-- `fCurrentUserIdWithHeaders`. -/
def fCurrentUser (caller : Option Str) : Except AppError Str :=
  match caller with
  | some user => .ok user
  | none => .error .fUnauthorized

def fJsonBody (body : Json) : Except AppError Json :=
  if body.isObject then .ok body else .error (.fBadRequest (str "expected a JSON object body"))

def cMaxCommentLen : Nat := 4000

def cMaxAnchorLen : Nat := 2000

def cCommentLimit : UInt32 := 20

def cCommentWindow : Int := seconds (10 * 60)

/-! ## Rows -/

def emailOf (db : Db) (user : Str) : Option Str :=
  (db.users.find? (fun row => row.id = user)).map UserRow.email

/-- Pair every row with an account's email; rows without one drop out of the
join. -/
def joinEmail {α : Type} (db : Db) (userOf : α → Str) (rows : List α) : List (α × Str) :=
  rows.filterMap (fun row => (emailOf db (userOf row)).map (fun email => (row, email)))

/-- `ORDER BY`, equal keys in table order. -/
def orderBy {α β : Type} [LE β] [DecidableLE β] (key : α → β) (rows : List α) : List α :=
  rows.mergeSort (fun a b => decide (key a ≤ key b))

/-! ## Owner endpoints: shares -/

/-- `GET /api/shares`. -/
def getShares (caller : Option Str) (path : Str) (s : Server) : Response := do
  let ownerId ← fCurrentUser caller
  let rel ← fSafeRelPath (← fRequiredQuery path (str "path"))
  let rows := s.db.shares.filter (fun row => row.ownerId = ownerId ∧ row.relPath = rel)
  let rows := orderBy Prod.snd (joinEmail s.db ShareRow.granteeId rows)
  fJsonResponse (.array (rows.map (fun (row, email) => .object
    [(str "id", .string row.id), (str "relPath", .string row.relPath),
      (str "isDir", .bool row.isDir), (str "permission", .string row.permission),
      (str "email", .string email)])))

def badPermission : AppError := .fBadRequest (str "permission must be view, comment or edit")

/-- The checks shared by the two endpoints that create a share or a link: the
level, the path and whether it is a folder. -/
def newEntry (s : Server) (ownerId : Str) (body : Json) : Except AppError (Perm × Str × Bool) := do
  let body ← fJsonBody body
  let some perm := fParsePerm (← fJsonString body (str "permission")) | .error badPermission
  let rel ← fSafeRelPath (← fJsonString body (str "relPath"))
  let isDir := fJsonBool body (str "isDir")
  fRequireEntryExists (s.workspaces ownerId) rel isDir
  pure (perm, rel, isDir)

/-- The upsert: re-sharing the same entry with the same person updates the
level and keeps the row.  A fresh id that is taken violates the primary key. -/
def upsertShare (db : Db) (row : ShareRow) : Except AppError Db :=
  let same (old : ShareRow) : Bool :=
    old.ownerId = row.ownerId ∧ old.granteeId = row.granteeId ∧ old.relPath = row.relPath
  if db.shares.any same then
    .ok { db with shares := db.shares.map (fun old =>
      if same old then { old with permission := row.permission, isDir := row.isDir } else old) }
  else if db.shares.any (fun old => old.id = row.id) then
    .error (sqliteStepFailed (str "UNIQUE constraint failed: shares.id"))
  else .ok { db with shares := db.shares ++ [row] }

/-- `POST /api/shares`. -/
def postShares (caller : Option Str) (body : Json) (id : Str) (now : Int) (s : Server) :
    Server × Response :=
  let checked : Except AppError (Str × Perm × Str × Bool × UserRow) := do
    let ownerId ← fCurrentUser caller
    let (perm, rel, isDir) ← newEntry s ownerId body
    let email := fToLower (fTrim (← fJsonString body (str "email")))
    let some grantee := s.db.users.find? (fun row => row.email = email)
      | .error (.fBadRequest (str "no account with that email"))
    if grantee.id = ownerId then
      .error (.fBadRequest (str "that's you " ++ [0xE2, 0x80, 0x94] ++ str " no need to share"))
    else pure (ownerId, perm, rel, isDir, grantee)
  match checked with
  | .error e => (s, .error e)
  | .ok (ownerId, perm, rel, isDir, grantee) =>
      match upsertShare s.db ⟨id, ownerId, grantee.id, rel, isDir, fPermStr perm, now⟩ with
      | .error e => (s, .error e)
      | .ok db =>
          let actual := db.shares.find? (fun row =>
            row.ownerId = ownerId ∧ row.granteeId = grantee.id ∧ row.relPath = rel)
          let answer : Response :=
            match actual with
            | none => .error (.fInternal (str "share row vanished"))
            | some row => fJsonResponse (.object
                [(str "id", .string row.id), (str "relPath", .string rel),
                  (str "isDir", .bool isDir), (str "email", .string grantee.email),
                  (str "permission", .string (fPermStr perm))])
          ({ s with db := db }, answer)

/-- `DELETE /api/shares/{id}`: either side can end a share. -/
def deleteShare (caller : Option Str) (shareId : Str) (s : Server) : Server × Response :=
  match fCurrentUser caller with
  | .error e => (s, .error e)
  | .ok user =>
      let ended (row : ShareRow) : Bool :=
        row.id = shareId ∧ (row.ownerId = user ∨ row.granteeId = user)
      if s.db.shares.any ended then
        ({ s with db := { s.db with shares := s.db.shares.filter (fun row => !ended row) } },
          .ok .empty)
      else (s, .error .fNotFound)

/-! ## Owner endpoints: links -/

/-- `GET /api/links`. -/
def getLinks (caller : Option Str) (path : Str) (s : Server) : Response := do
  let ownerId ← fCurrentUser caller
  let rel ← fSafeRelPath (← fRequiredQuery path (str "path"))
  let rows := s.db.links.filter (fun row => row.ownerId = ownerId ∧ row.relPath = rel)
  fJsonResponse (.array ((orderBy LinkRow.createdAt rows).map (fun row => .object
    [(str "id", .string row.id), (str "relPath", .string row.relPath),
      (str "isDir", .bool row.isDir), (str "permission", .string row.permission)])))

/-- `POST /api/links`. -/
def postLinks (caller : Option Str) (body : Json) (id : Str) (now : Int) (s : Server) :
    Server × Response :=
  let checked : Except AppError (Str × Perm × Str × Bool) := do
    let ownerId ← fCurrentUser caller
    let (perm, rel, isDir) ← newEntry s ownerId body
    pure (ownerId, perm, rel, isDir)
  match checked with
  | .error e => (s, .error e)
  | .ok (ownerId, perm, rel, isDir) =>
      if s.db.links.any (fun row => row.id = id) then
        (s, .error (sqliteStepFailed (str "UNIQUE constraint failed: share_links.id")))
      else
        ({ s with db := { s.db with
            links := s.db.links ++ [⟨id, ownerId, rel, isDir, fPermStr perm, now⟩] } },
          fJsonResponse (.object
            [(str "id", .string id), (str "relPath", .string rel), (str "isDir", .bool isDir),
              (str "permission", .string (fPermStr perm))]))

/-- `DELETE /api/links/{id}`. -/
def deleteLink (caller : Option Str) (linkId : Str) (s : Server) : Server × Response :=
  match fCurrentUser caller with
  | .error e => (s, .error e)
  | .ok ownerId =>
      let ended (row : LinkRow) : Bool := row.id = linkId ∧ row.ownerId = ownerId
      if s.db.links.any ended then
        ({ s with db := { s.db with links := s.db.links.filter (fun row => !ended row) } },
          .ok .empty)
      else (s, .error .fNotFound)

/-! ## Reaching a shared entry -/

/-- Whether the shared entry is still there. -/
def entryExists (s : Server) (ownerId rel : Str) (isDir : Bool) : Except AppError Bool := do
  let full ← fOwnerFullPath rel
  let root := (s.workspaces ownerId).root
  let (found, ec) := if isDir then isDirectory root full else isRegularFile root full
  pure (found && !ec)

/-- `GET /api/link/{token}`. -/
def linkInfo (token : Str) (s : Server) : Response := do
  let link ← fLoadLink s.db token
  let some ownerEmail := emailOf s.db link.ownerId | .error .fNotFound
  let found ← entryExists s link.ownerId link.relPath link.isDir
  fJsonResponse (.object
    [(str "name", .string (fBasenameOf link.relPath)), (str "isDir", .bool link.isDir),
      (str "permission", .string link.permission), (str "ownerEmail", .string ownerEmail),
      (str "exists", .bool found)])

/-- The listing behind an access. -/
def listThrough (probe : Probe) (notAFolder : Str) (s : Server) (access : Access) : Response :=
  if !access.isDir then .error (.fBadRequest notAFolder)
  else
    match fOwnerFullPath access.relPath with
    | .error e => .error e
    | .ok full =>
        match (s.workspaces access.ownerId).root.get? full with
        | some (.dir dir) =>
            match fWalkWorkDir probe dir full [] with
            | .error e => .error e
            | .ok value => fJsonResponse value
        | _ => .error .fNotFound

/-- The change-detection poll behind an access. -/
def statThrough (probe : Probe) (s : Server) (access : Access) : Response :=
  if !fIsWorkFile access.relPath then .error notAWorkFile
  else
    match fOwnerFullPath access.relPath with
    | .error e => .error e
    | .ok full =>
        match fStatFile probe (s.workspaces access.ownerId).root full with
        | .error e => .error e
        | .ok value => fJsonResponse value

def readThrough (s : Server) (access : Access) : Response :=
  match fReadThrough s access with
  | .error e => .error e
  | .ok content => .ok (.text content)

/-- A write behind an access lands in the owner's workspace. -/
def writeThrough (limits : Limits) (content hex : Str) (s : Server) (access : Access) :
    Server × Response :=
  match fWriteThrough limits access content hex (s.workspaces access.ownerId) with
  | (w, .error e) => (s.setWorkspace access.ownerId w, .error e)
  | (w, .ok _) => (s.setWorkspace access.ownerId w, .ok .empty)

/-! ## Link endpoints -/

/-- `GET /api/link/{token}/list`. -/
def linkList (probe : Probe) (token path : Str) (s : Server) : Response :=
  fResolveLinkAccess s.db token path >>= listThrough probe (str "not a folder link") s

/-- `GET /api/link/{token}/file`. -/
def getLinkFile (token path : Str) (s : Server) : Response :=
  fResolveLinkAccess s.db token path >>= readThrough s

/-- `PUT /api/link/{token}/file`. -/
def putLinkFile (limits : Limits) (token path content hex : Str) (s : Server) :
    Server × Response :=
  match fResolveLinkAccess s.db token path with
  | .error e => (s, .error e)
  | .ok access => writeThrough limits content hex s access

/-- `GET /api/link/{token}/stat`. -/
def linkStat (probe : Probe) (token path : Str) (s : Server) : Response :=
  fResolveLinkAccess s.db token path >>= statThrough probe s

/-! ## Grantee endpoints -/

/-- `GET /api/shared`. -/
def shared (caller : Option Str) (s : Server) : Response := do
  let user ← fCurrentUser caller
  let rows := s.db.shares.filter (fun row => row.granteeId = user)
  let rows := orderBy (fun entry => entry.2) (orderBy (fun entry => entry.1.relPath)
    (joinEmail s.db ShareRow.ownerId rows))
  let items ← rows.mapM (fun (row, ownerEmail) => do
    let found ← entryExists s row.ownerId row.relPath row.isDir
    pure (Json.object
      [(str "shareId", .string row.id), (str "ownerEmail", .string ownerEmail),
        (str "name", .string (fBasenameOf row.relPath)), (str "isDir", .bool row.isDir),
        (str "permission", .string row.permission), (str "exists", .bool found)]))
  fJsonResponse (.array items)

/-- The account, the share and the sub path of a `/api/shared/*` request. -/
def sharedAccess (caller : Option Str) (share path : Str) (s : Server) :
    Except AppError Access := do
  let user ← fCurrentUser caller
  let share ← fRequiredQuery share (str "share")
  fResolveShareAccess s.db user share path

/-- `GET /api/shared/list`. -/
def sharedList (probe : Probe) (caller : Option Str) (share path : Str) (s : Server) : Response :=
  sharedAccess caller share path s >>= listThrough probe (str "not a folder share") s

/-- `GET /api/shared/file`. -/
def getSharedFile (caller : Option Str) (share path : Str) (s : Server) : Response :=
  sharedAccess caller share path s >>= readThrough s

/-- `PUT /api/shared/file`. -/
def putSharedFile (limits : Limits) (caller : Option Str) (share path content hex : Str)
    (s : Server) : Server × Response :=
  match sharedAccess caller share path s with
  | .error e => (s, .error e)
  | .ok access => writeThrough limits content hex s access

/-- `GET /api/shared/stat`. -/
def sharedStat (probe : Probe) (caller : Option Str) (share path : Str) (s : Server) : Response :=
  sharedAccess caller share path s >>= statThrough probe s

/-! ## Comments -/

def optional (value : Option Str) : Json :=
  match value with
  | some s => .string s
  | none => .null

def workFilesOnly : AppError :=
  .fBadRequest (str "comments are only available on work files")

/-- The thread of one file as a caller sees it. -/
def commentThread (db : Db) (caller : Option Str) (ownerId relPath : Str) : Json :=
  let rows := db.comments.filter (fun row => row.ownerId = ownerId ∧ row.relPath = relPath)
  .array ((orderBy CommentRow.createdAt rows).map (fun row => .object
    [(str "id", .string row.id), (str "authorEmail", optional (row.authorId.bind (emailOf db))),
      (str "body", .string row.body), (str "createdAt", .int row.createdAt),
      (str "mine", .bool (row.authorId.isSome && decide (row.authorId = caller))),
      (str "anchor", optional row.anchor)]))

/-- `GET /api/comments`. -/
def getComments (caller : Option Str) (target : CommentTarget) (s : Server) : Response := do
  let (ownerId, relPath) ← fResolveCommentTarget s.db caller target .view
  if !fIsWorkFile relPath then .error workFilesOnly
  else fJsonResponse (commentThread s.db caller ownerId relPath)

/-- What an insertion needs once the target is known. -/
structure NewComment where
  ownerId : Str
  relPath : Str
  text : Str
  anchor : Option Str
  deriving DecidableEq, Repr

/-- The checks of `POST /api/comments` after the rate limit. -/
def checkComment (caller : Option Str) (body : Json) (s : Server) : Except AppError NewComment := do
  let (ownerId, relPath) ← fResolveCommentTarget s.db caller (fTargetFromBody body) .comment
  if !fIsWorkFile relPath then .error workFilesOnly
  else
    let text := fTrim (← fJsonString body (str "body"))
    if text = [] then .error (.fBadRequest (str "empty comment"))
    else if text.length > cMaxCommentLen then .error (.fBadRequest (str "comment too long"))
    else
      let anchorText := fJsonStringOr body (str "anchor")
      let anchor := if anchorText = [] then none else some anchorText
      if anchorText.length > cMaxAnchorLen then .error (.fBadRequest (str "anchor too large"))
      else
        let full ← fOwnerFullPath relPath
        let (regular, ec) := isRegularFile (s.workspaces ownerId).root full
        if !regular || ec then .error .fNotFound
        else pure ⟨ownerId, relPath, text, anchor⟩

/-- `POST /api/comments`; `ip` and `tick` are the client address and the steady
clock the limiter uses. -/
def postComments (caller : Option Str) (body : Json) (ip id : Str) (tick now : Int) (s : Server) :
    Server × Response :=
  match fJsonBody body with
  | .error e => (s, .error e)
  | .ok body =>
      let limited := caller = none ∧
        s.authLimiter.fIsLimited ip (str "anon-comment") cCommentLimit cCommentWindow tick
      if limited then (s, .error .fTooManyRequests)
      else
        let s := if caller = none then
            { s with authLimiter :=
                s.authLimiter.fRecord ip (str "anon-comment") cCommentWindow tick }
          else s
        match checkComment caller body s with
        | .error e => (s, .error e)
        | .ok new =>
            if s.db.comments.any (fun row => row.id = id) then
              (s, .error (sqliteStepFailed (str "UNIQUE constraint failed: comments.id")))
            else
              ({ s with db := { s.db with comments := s.db.comments ++
                  [⟨id, new.ownerId, new.relPath, caller, new.text, now, new.anchor⟩] } },
                fJsonResponse (.object
                  [(str "id", .string id),
                    (str "authorEmail", optional (caller.bind (emailOf s.db))),
                    (str "body", .string new.text), (str "createdAt", .int now),
                    (str "mine", .bool caller.isSome), (str "anchor", optional new.anchor)]))

/-- `DELETE /api/comments/{id}`: the author or the file's owner. -/
def deleteComment (caller : Option Str) (commentId : Str) (s : Server) : Server × Response :=
  match fCurrentUser caller with
  | .error e => (s, .error e)
  | .ok user =>
      let gone (row : CommentRow) : Bool :=
        row.id = commentId ∧ (row.authorId = some user ∨ row.ownerId = user)
      if s.db.comments.any gone then
        ({ s with db := { s.db with comments := s.db.comments.filter (fun row => !gone row) } },
          .ok .empty)
      else (s, .error .fNotFound)

/-! ## The routes -/

inductive ShareRequest where
  | getShares (path : Str)
  | postShares (body : Json) (id : Str) (now : Int)
  | deleteShare (shareId : Str)
  | getLinks (path : Str)
  | postLinks (body : Json) (id : Str) (now : Int)
  | deleteLink (linkId : Str)
  | linkInfo (token : Str)
  | linkList (token path : Str)
  | getLinkFile (token path : Str)
  | putLinkFile (token path content hex : Str)
  | linkStat (token path : Str)
  | shared
  | sharedList (share path : Str)
  | getSharedFile (share path : Str)
  | putSharedFile (share path content hex : Str)
  | sharedStat (share path : Str)
  | getComments (target : CommentTarget)
  | postComments (body : Json) (ip id : Str) (tick now : Int)
  | deleteComment (commentId : Str)

/-- Answer one request. -/
def handle (cfg : Config) (caller : Option Str) (req : ShareRequest) (s : Server) :
    Server × Response :=
  match req with
  | .getShares path => (s, Lectern.getShares caller path s)
  | .postShares body id now => Lectern.postShares caller body id now s
  | .deleteShare shareId => Lectern.deleteShare caller shareId s
  | .getLinks path => (s, Lectern.getLinks caller path s)
  | .postLinks body id now => Lectern.postLinks caller body id now s
  | .deleteLink linkId => Lectern.deleteLink caller linkId s
  | .linkInfo token => (s, Lectern.linkInfo token s)
  | .linkList token path => (s, Lectern.linkList cfg.probe token path s)
  | .getLinkFile token path => (s, Lectern.getLinkFile token path s)
  | .putLinkFile token path content hex =>
      Lectern.putLinkFile cfg.limits token path content hex s
  | .linkStat token path => (s, Lectern.linkStat cfg.probe token path s)
  | .shared => (s, Lectern.shared caller s)
  | .sharedList share path => (s, Lectern.sharedList cfg.probe caller share path s)
  | .getSharedFile share path => (s, Lectern.getSharedFile caller share path s)
  | .putSharedFile share path content hex =>
      Lectern.putSharedFile cfg.limits caller share path content hex s
  | .sharedStat share path => (s, Lectern.sharedStat cfg.probe caller share path s)
  | .getComments target => (s, Lectern.getComments caller target s)
  | .postComments body ip id tick now => Lectern.postComments caller body ip id tick now s
  | .deleteComment commentId => Lectern.deleteComment caller commentId s

end Lectern
