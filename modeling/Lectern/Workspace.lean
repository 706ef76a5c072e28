import Lectern.FileTree.Posix
import Lectern.Json
import Lectern.RelPath

/-!
# One user's workspace

A workspace is the directory tree below `workspaces_dir / user_id` together
with the rows of `deleted_files` for that user.  The definitions follow
`workspace.cpp` and the atomic write of `util.cpp`, handler by handler.

Database statements succeed and a disk operation fails exactly when POSIX says
so.  A handler returns the workspace it leaves behind even when it throws,
since a failed request may have created folders; the answer of a successful
mutation is the path list it hands to `fNotifyChanges`.
-/

namespace Lectern

open FileTree

/-- The directory tree of a workspace: names and file bytes. -/
abbrev Disk := Tree Str Str

/-- A row of `deleted_files` for one user. -/
structure DeletedFile where
  relPath : Str
  deletedAt : Int
  deriving DecidableEq, Repr

structure Workspace where
  root : Disk
  deletedFiles : List DeletedFile

/-- A workspace nothing has been written to. -/
def Workspace.empty : Workspace := ⟨Tree.empty, []⟩

/-- Settings read once at startup. -/
structure Limits where
  workspaceQuotaBytes : UInt64
  maxWorkFileBytes : Nat

/-- What a mutation answers: the announced paths, or the error. -/
abbrev Answer := Except AppError (List Str)

/-! ## Tombstones -/

/-- `INSERT ... ON CONFLICT DO UPDATE SET deleted_at`. -/
def fRecordTombstone (w : Workspace) (relPath : Str) (now : Int) : Workspace :=
  if w.deletedFiles.any (fun row => row.relPath = relPath) then
    { w with deletedFiles := w.deletedFiles.map (fun row =>
        if row.relPath = relPath then ⟨relPath, now⟩ else row) }
  else { w with deletedFiles := w.deletedFiles ++ [⟨relPath, now⟩] }

def fClearTombstone (w : Workspace) (relPath : Str) : Workspace :=
  { w with deletedFiles := w.deletedFiles.filter (fun row => row.relPath ≠ relPath) }

/-- The entries of a directory and below, as keys; directories are entered, not
listed. -/
def collectFiles : Dir Str Str → Str → List Str
  | .nil, _ => []
  | .file name _ rest, relPrefix =>
      (if relPrefix = [] then name else relPrefix ++ slash :: name) :: collectFiles rest relPrefix
  | .dir name sub rest, relPrefix =>
      collectFiles sub (if relPrefix = [] then name else relPrefix ++ slash :: name) ++
        collectFiles rest relPrefix

/-- Every file under a directory.  Opening anything else fails, and nothing is
collected. -/
def fCollectFilesUnder (root : Disk) (dir : List Str) (relPrefix : Str) : List Str :=
  match root.get? dir with
  | some (.dir sub) => collectFiles sub relPrefix
  | _ => []

/-! ## Status queries -/

/-- `is_regular_file(p, ec)`: the answer, and whether `ec` is set.  A missing
path sets it. -/
def isRegularFile (root : Disk) (path : List Str) : Bool × Bool :=
  match root.entryAt path with
  | some (.file _) => (true, false)
  | some .dir => (false, false)
  | none => (false, true)

/-- `is_directory(p, ec)`, likewise. -/
def isDirectory (root : Disk) (path : List Str) : Bool × Bool :=
  match root.entryAt path with
  | some (.file _) => (false, false)
  | some .dir => (true, false)
  | none => (false, true)

def fileSize (content : Str) : UInt64 := UInt64.ofNat content.length

/-- `file_size(p, ec)` of a regular file. -/
def fileSizeAt (root : Disk) (path : List Str) : UInt64 :=
  match root.fileAt path with
  | some content => fileSize content
  | none => 0

/-- The recursive walk, adding up 64-bit sizes. -/
def dirSizeBytes : Dir Str Str → UInt64
  | .nil => 0
  | .file _ content rest => fileSize content + dirSizeBytes rest
  | .dir _ sub rest => dirSizeBytes sub + dirSizeBytes rest

def fDirSizeBytes (root : Disk) : UInt64 := dirSizeBytes root.root

/-- The decimal digits of a number. -/
def decimal (n : Nat) : Str := str (toString n)

def quotaMessage (quota : UInt64) : Str :=
  str "workspace is full (" ++ decimal (quota / (1024 * 1024)).toNat ++ str " MB max) " ++
    [0xE2, 0x80, 0x94] ++ str " delete something first"

def fCheckQuota (quota : UInt64) (root : Disk) (target : List Str) (incomingLen : UInt64) :
    Except AppError Unit :=
  if quota = 0 then .ok ()
  else
    let (regular, ec) := isRegularFile root target
    let existingLen := if regular then fileSizeAt root target else 0
    if ec || incomingLen ≤ existingLen then .ok ()
    else
      let projected := fDirSizeBytes root - existingLen + incomingLen
      if projected > quota then .error (.fBadRequest (quotaMessage quota))
      else .ok ()

/-- `fReadFile`.  A directory can be opened for reading on POSIX and yields no
bytes; a missing path cannot. -/
def fReadFile (root : Disk) (path : List Str) : Option Str :=
  match root.entryAt path with
  | some (.file content) => some content
  | some .dir => some []
  | none => none

/-! ## The atomic write -/

/-- The sibling a file is written to before it is renamed into place; `hex` is
the random part. -/
def tempName (name hex : Str) : Str := name ++ dot :: hex ++ str ".tmp"

def tempPath (path : List Str) (hex : Str) : List Str :=
  path.dropLast ++ [tempName (path.getLastD []) hex]

/-- `fWriteFileAtomic`: the disk it leaves, and whether it returned (rather
than threw).  Failing to create the parents is ignored; the open then fails. -/
def fWriteFileAtomic (disk : Disk) (path : List Str) (hex content : Str) : Disk × Bool :=
  let temp := tempPath path hex
  let disk := (disk.mkdirs path.dropLast).getD disk
  match disk.writeFile temp content with
  | none => (disk, false)
  | some disk =>
      match disk.rename temp path with
      | some disk => (disk, true)
      | none =>
          let disk := (disk.remove path).getD disk
          match disk.rename temp path with
          | some disk => (disk, true)
          | none => ((disk.remove temp).getD disk, false)

/-- What `fGuard` answers to an exception that is not an `AppError`. -/
def internalError : AppError := .fInternal (str "internal server error")

/-- What `Db` throws when a statement violates a constraint. -/
def sqliteStepFailed (errmsg : Str) : AppError :=
  .fInternal (str "sqlite step failed: " ++ errmsg)

/-! ## Handlers -/

def tooLargeMessage (limits : Limits) : Str :=
  str "file is too large (" ++ decimal (limits.maxWorkFileBytes / (1024 * 1024)) ++
    str " MB max)"

/-- `PUT /api/workspace/file`. -/
def putFile (limits : Limits) (path content hex : Str) (w : Workspace) : Workspace × Answer :=
  match fSafeRelPath path with
  | .error e => (w, .error e)
  | .ok rel =>
      if content.length > limits.maxWorkFileBytes then
        (w, .error (.fBadRequest (tooLargeMessage limits)))
      else
        match fCheckQuota limits.workspaceQuotaBytes w.root (pathOf rel) (fileSize content) with
        | .error e => (w, .error e)
        | .ok () =>
            match fWriteFileAtomic w.root (pathOf rel) hex content with
            | (root, false) => ({ w with root := root }, .error internalError)
            | (root, true) => (fClearTombstone { w with root := root } rel, .ok [rel])

/-- `POST /api/workspace/folder`. -/
def createFolder (relPath : Str) (w : Workspace) : Workspace × Answer :=
  match fSafeRelPath relPath with
  | .error e => (w, .error e)
  | .ok rel =>
      match w.root.mkdirs (pathOf rel) with
      | none => (w, .error (.fInternal (str "Not a directory")))
      | some root => ({ w with root := root }, .ok [])

/-- `DELETE /api/workspace/entry`. -/
def deleteEntry (path : Str) (isDir : Bool) (now : Int) (w : Workspace) : Workspace × Answer :=
  match fSafeRelPath path with
  | .error e => (w, .error e)
  | .ok rel =>
      if isDir then
        let inside := fCollectFilesUnder w.root (pathOf rel) rel
        match w.root.removeAll (pathOf rel) with
        | none => (w, .error .fNotFound)
        | some root =>
            (inside.foldl (fun w fileRel => fRecordTombstone w fileRel now)
              { w with root := root }, .ok [])
      else
        match w.root.remove (pathOf rel) with
        | none => (w, .error .fNotFound)
        | some root => (fRecordTombstone { w with root := root } rel now, .ok [rel])

/-- The tombstones of one moved file: the old path is gone, the new one live. -/
def moveTombstones (fromKey toKey : Str) (now : Int) (w : Workspace) (fileRel : Str) : Workspace :=
  fClearTombstone (fRecordTombstone w fileRel now) (toKey ++ fileRel.drop fromKey.length)

/-- `POST /api/workspace/move`. -/
def moveEntry (src dst : Str) (now : Int) (w : Workspace) : Workspace × Answer :=
  match fSafeRelPath src with
  | .error e => (w, .error e)
  | .ok fromKey =>
      match fSafeRelPath dst with
      | .error e => (w, .error e)
      | .ok toKey =>
          let wasDir := (isDirectory w.root (pathOf fromKey)).1
          let movedFiles :=
            if wasDir then fCollectFilesUnder w.root (pathOf fromKey) fromKey else [fromKey]
          let root := (w.root.mkdirs (pathOf toKey).dropLast).getD w.root
          match root.rename (pathOf fromKey) (pathOf toKey) with
          | none => ({ w with root := root }, .error .fNotFound)
          | some root =>
              (movedFiles.foldl (moveTombstones fromKey toKey now) { w with root := root },
                .ok (if wasDir then [] else [fromKey, toKey]))

/-! ## Work files -/

def cWorkFileExtensions : List Str :=
  [str "mdp", str "mds", str "mdg", str "mdn", str "mdl", str "mdc", str "mde", str "mdb",
    str "mdd"]

def fIsWorkFile (relPath : Str) : Bool := cWorkFileExtensions.contains (fExtensionOf relPath)

/-! ## Listings -/

/-- What the walk asks about a file beyond its bytes: the modification time
the disk reports at its path, and the digest of its content; and about a
directory, whether it can be opened by its path. -/
structure Probe where
  fModifiedMs : List Str → Nat
  fSha256File : Str → Str
  opens : List Str → Bool

/-- One row of a listing before sorting. -/
structure ListEntry where
  name : Str
  isDir : Bool
  value : Json

def listingValue (name relPath : Str) (isDir : Bool) (modified : Nat) (hash : Str)
    (children : List Json) : Json :=
  .object [(str "name", .string name), (str "relPath", .string relPath),
    (str "isDir", .bool isDir), (str "modified", .int modified), (str "hash", .string hash),
    (str "children", .array children)]

/-- Directories first, then by lowercased name. -/
def entryLess (a b : ListEntry) : Bool :=
  if a.isDir ≠ b.isDir then a.isDir else decide (fToLower a.name < fToLower b.name)

def sortEntries (entries : List ListEntry) : List ListEntry :=
  entries.mergeSort (fun a b => !entryLess b a)

/-- The entries the loop of `fWalkWorkDir` collects in one directory and, inside
their values, in those below; dotfiles are left out.  A directory that cannot be
opened ends the walk. -/
def collectEntries (probe : Probe) :
    Dir Str Str → List Str → Str → Except AppError (List ListEntry)
  | .nil, _, _ => .ok []
  | .file name content rest, at_, relPrefix =>
      if name.head? = some dot then collectEntries probe rest at_ relPrefix
      else do
        let relPath := if relPrefix = [] then name else relPrefix ++ slash :: name
        let later ← collectEntries probe rest at_ relPrefix
        .ok (⟨name, false, listingValue name relPath false (probe.fModifiedMs (at_ ++ [name]))
          (probe.fSha256File content) []⟩ :: later)
  | .dir name sub rest, at_, relPrefix =>
      if !probe.opens (at_ ++ [name]) then .error .fNotFound
      else do
        let relPath := if relPrefix = [] then name else relPrefix ++ slash :: name
        let children ← collectEntries probe sub (at_ ++ [name]) relPath
        let later ← collectEntries probe rest at_ relPrefix
        .ok (⟨name, true, listingValue name relPath true 0 []
          ((sortEntries children).map ListEntry.value)⟩ :: later)

/-- `at_` is where the directory is. -/
def fWalkWorkDir (probe : Probe) (dir : Dir Str Str) (at_ : List Str) (relPrefix : Str) :
    Except AppError Json :=
  if !probe.opens at_ then .error .fNotFound
  else do
    let entries ← collectEntries probe dir at_ relPrefix
    .ok (.array ((sortEntries entries).map ListEntry.value))

/-! ### A walk that opens every directory -/

/-- What the walk collects when nothing stops it. -/
def walkEntries (probe : Probe) : Dir Str Str → List Str → Str → List ListEntry
  | .nil, _, _ => []
  | .file name content rest, at_, relPrefix =>
      if name.head? = some dot then walkEntries probe rest at_ relPrefix
      else
        let relPath := if relPrefix = [] then name else relPrefix ++ slash :: name
        ⟨name, false, listingValue name relPath false (probe.fModifiedMs (at_ ++ [name]))
            (probe.fSha256File content) []⟩ :: walkEntries probe rest at_ relPrefix
  | .dir name sub rest, at_, relPrefix =>
      let relPath := if relPrefix = [] then name else relPrefix ++ slash :: name
      ⟨name, true, listingValue name relPath true 0 []
          ((sortEntries (walkEntries probe sub (at_ ++ [name]) relPath)).map ListEntry.value)⟩ ::
        walkEntries probe rest at_ relPrefix

/-- The listing of a directory. -/
def listing (probe : Probe) (dir : Dir Str Str) (at_ : List Str) (relPrefix : Str) : Json :=
  .array ((sortEntries (walkEntries probe dir at_ relPrefix)).map ListEntry.value)

/-- Every directory below can be opened. -/
def opensBelow (probe : Probe) : Dir Str Str → List Str → Bool
  | .nil, _ => true
  | .file _ _ rest, at_ => opensBelow probe rest at_
  | .dir name sub rest, at_ =>
      probe.opens (at_ ++ [name]) && opensBelow probe sub (at_ ++ [name]) &&
        opensBelow probe rest at_

/-- The directory and every one below it can be opened. -/
def opensAll (probe : Probe) (dir : Dir Str Str) (at_ : List Str) : Bool :=
  probe.opens at_ && opensBelow probe dir at_

theorem collectEntries_eq (probe : Probe) (dir : Dir Str Str) (at_ : List Str) (relPrefix : Str) :
    collectEntries probe dir at_ relPrefix =
      if opensBelow probe dir at_ then .ok (walkEntries probe dir at_ relPrefix)
      else .error .fNotFound := by
  induction dir generalizing at_ relPrefix with
  | nil => rfl
  | file name content rest ih =>
      rw [collectEntries, walkEntries, opensBelow, ih]
      by_cases hdot : name.head? = some dot
      · rw [if_pos hdot, if_pos hdot]
      · rw [if_neg hdot, if_neg hdot]
        cases opensBelow probe rest at_ <;> rfl
  | dir name sub rest ihsub ihrest =>
      rw [collectEntries, walkEntries, opensBelow]
      cases probe.opens (at_ ++ [name]) with
      | false => rfl
      | true =>
          simp only [ihsub, ihrest]
          cases opensBelow probe sub (at_ ++ [name]) with
          | false => rfl
          | true => cases opensBelow probe rest at_ <;> rfl

/-- **The walk answers the listing**, unless some directory cannot be opened. -/
theorem fWalkWorkDir_eq (probe : Probe) (dir : Dir Str Str) (at_ : List Str) (relPrefix : Str) :
    fWalkWorkDir probe dir at_ relPrefix =
      if opensAll probe dir at_ then .ok (listing probe dir at_ relPrefix)
      else .error .fNotFound := by
  rw [fWalkWorkDir, collectEntries_eq, opensAll]
  cases probe.opens at_ with
  | false => rfl
  | true => cases opensBelow probe dir at_ <;> rfl

theorem fWalkWorkDir_ok {probe : Probe} {dir : Dir Str Str} {at_ : List Str} {relPrefix : Str}
    {value : Json} (h : fWalkWorkDir probe dir at_ relPrefix = .ok value) :
    value = listing probe dir at_ relPrefix := by
  rw [fWalkWorkDir_eq] at h
  split at h
  · exact (Except.ok.inj h).symm
  · cases h

def fStatFile (probe : Probe) (root : Disk) (path : List Str) : Except AppError Json :=
  match root.fileAt path with
  | none => .error .fNotFound
  | some content =>
      .ok (.object [(str "modified", .int (probe.fModifiedMs path)),
        (str "hash", .string (probe.fSha256File content))])

end Lectern
