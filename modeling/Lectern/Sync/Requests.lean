import Lectern.ShareEffects
import Lectern.Sync.Machine

/-!
# Requests that announce changes

The requests of the server as the hub sees them.  Each of the five that change
a workspace does so in one step and, when it succeeds, announces the paths its
handler hands to `fNotifyChanges`; the other share, link and comment endpoints
announce nothing.

`announced_changes` compares the announced list with the disk: it is empty, or
it names every file that changed.
-/

namespace Lectern

open FileTree

/-- The temporary file a write draws a name for. -/
def Mutation.Temporary : Mutation → List Str → Prop
  | .putFile path _ hex, p => ∃ rel, fSafeRelPath path = .ok rel ∧ p = tempPath (pathOf rel) hex
  | .writeThrough access _ hex, p =>
      ∃ rel, fSafeRelPath access.relPath = .ok rel ∧ p = tempPath (pathOf rel) hex
  | _, _ => False

/-- A write that was answered announces the one file it changed. -/
theorem announced_write {w : Workspace} {rel content hex : Str} (hrel : fSafeRelPath rel = .ok rel)
    {finish : Disk → Workspace} (hfinish : ∀ root, (finish root).root = root) {w' : Workspace}
    {paths announced : List Str}
    (h : Wrote w rel content hex (w', .ok paths) finish announced) {p : List Str}
    (hchanged : w'.root.fileAt p ≠ w.root.fileAt p) (htemp : p ≠ tempPath (pathOf rel) hex) :
    paths = announced ∧ keyOf p = rel := by
  obtain ⟨hvalid, hkey⟩ := keyOf_pathOf hrel
  obtain ⟨root, ⟨_, hout⟩ | ⟨hwrite, hout⟩⟩ := h
  · cases hout
  · cases hout
    refine ⟨rfl, ?_⟩
    rw [hfinish, fileAt_fWriteFileAtomic_ok hvalid.1 hwrite] at hchanged
    by_cases hp : p = pathOf rel
    · rw [hp, hkey]
    · rw [if_neg hp, if_neg htemp] at hchanged
      exact absurd rfl hchanged

/-- What one unlink changes is the name it takes away. -/
theorem changed_by_remove {root root' : Disk} {path p : List Str}
    (h : root.remove path = some root') (hchanged : root'.fileAt p ≠ root.fileAt p) : p = path := by
  by_contra hp
  refine hchanged ?_
  rw [Tree.fileAt, Tree.fileAt, Tree.entryAt_remove h, if_neg hp]

/-- A source that is there and no folder is a file. -/
theorem file_of_not_isDirectory {root : Disk} {p : List Str}
    (hdir : ¬ (isDirectory root p).1 = true) (hthere : root.entryAt p ≠ none) :
    ∃ c, root.entryAt p = some (.file c) := by
  unfold isDirectory at hdir
  cases hat : root.entryAt p with
  | none => exact absurd hat hthere
  | some entry =>
      cases entry with
      | file c => exact ⟨c, rfl⟩
      | dir => simp [hat] at hdir

/-- What moving a file changes is the file at its two ends: nothing lies below
the source, nor below the destination. -/
theorem changed_by_rename {w : Workspace} {root : Disk} {src dst p : List Str} {c : Str}
    (hne : src ≠ dst) (h : (withParents w.root dst).rename src dst = some root)
    (hfile : w.root.entryAt src = some (.file c)) (hchanged : root.fileAt p ≠ w.root.fileAt p) :
    p = src ∨ p = dst := by
  rw [fileAt_move hne h] at hchanged
  have hbelow {r : List Str} (hr : r ≠ []) : w.root.fileAt (src ++ r) = none := by
    have hnone : w.root.entryAt (src ++ r) = none := Dir.entryAt_below_file hfile hr
    rw [Tree.fileAt, hnone]
  by_cases hp : dst <+: p
  · obtain ⟨r, rfl⟩ := hp
    by_cases hr : r = []
    · exact Or.inr (by rw [hr, List.append_nil])
    · refine absurd ?_ hchanged
      have hold : (withParents w.root dst).entryAt (dst ++ r) = none :=
        Tree.rename_below_target hne h hr
      rw [if_pos (List.prefix_append _ _), List.drop_left, hbelow hr,
        ← fileAt_withParents w.root dst (dst ++ r), Tree.fileAt, hold]
  · rw [if_neg hp] at hchanged
    by_cases hq : src <+: p
    · obtain ⟨r, rfl⟩ := hq
      by_cases hr : r = []
      · exact Or.inl (by rw [hr, List.append_nil])
      · refine absurd ?_ hchanged
        rw [if_pos (List.prefix_append _ _), hbelow hr]
    · rw [if_neg hq] at hchanged
      exact absurd rfl hchanged

/-- **What a request announces**: an empty list, or one that names every file
the request changed, its own temporary file aside. -/
theorem announced_changes {limits : Limits} {m : Mutation} {w w' : Workspace} {paths : List Str}
    (haccess : ∀ access content hex, m = .writeThrough access content hex →
      fSafeRelPath access.relPath = .ok access.relPath)
    (h : m.run limits w = (w', .ok paths)) {p : List Str}
    (hchanged : w'.root.fileAt p ≠ w.root.fileAt p) (htemp : ¬ m.Temporary p) :
    paths = [] ∨ keyOf p ∈ paths := by
  cases m with
  | putFile path content hex =>
      rcases putFile_cases limits path content hex w with ⟨e, he⟩ | ⟨rel, hrel, _, _, hwrote⟩
      · cases he.symm.trans h
      · have hfixed := fSafeRelPath_fixed hrel
        change putFile limits path content hex w = _ at h
        rw [h] at hwrote
        obtain ⟨hpaths, hkey⟩ := announced_write hfixed (fun _ => rfl) hwrote hchanged
          (fun hp => htemp ⟨rel, hrel, hp⟩)
        exact Or.inr (by rw [hpaths, hkey]; exact List.mem_singleton_self rel)
  | writeThrough access content hex =>
      have hfixed := haccess access content hex rfl
      rcases fWriteThrough_cases limits access content hex w with
        ⟨e, he⟩ | ⟨rel, hrel, _, _, _, _, hwrote⟩
      · cases he.symm.trans h
      · have hsame : access.relPath = rel := Except.ok.inj (hfixed.symm.trans hrel)
        change fWriteThrough limits access content hex w = _ at h
        rw [h] at hwrote
        obtain ⟨hpaths, hkey⟩ := announced_write (hsame ▸ hfixed) (fun _ => rfl) hwrote hchanged
          (fun hp => htemp ⟨rel, hrel, hp⟩)
        exact Or.inr (by rw [hpaths, hkey, hsame]; exact List.mem_singleton_self rel)
  | createFolder relPath =>
      rcases createFolder_cases relPath w with ⟨e, he⟩ | ⟨rel, root, _, _, hout⟩
      · cases he.symm.trans h
      · cases hout.symm.trans h
        exact Or.inl rfl
  | deleteEntry path isDir now =>
      rcases deleteEntry_cases path isDir now w with
        ⟨e, he⟩ | ⟨rel, root, hrel, ⟨_, _, hout⟩ | ⟨_, hremove, hout⟩⟩
      · cases he.symm.trans h
      · cases hout.symm.trans h
        exact Or.inl rfl
      · cases hout.symm.trans h
        obtain ⟨hvalid, hkey⟩ := keyOf_pathOf (fSafeRelPath_fixed hrel)
        rw [root_fRecordTombstone] at hchanged
        rw [changed_by_remove hremove hchanged, hkey]
        exact Or.inr (List.mem_singleton_self rel)
  | moveEntry src dst now =>
      rcases moveEntry_cases src dst now w with
        ⟨e, he⟩ | ⟨fromKey, toKey, hfrom, hto, ⟨_, hout⟩ | ⟨root, hrename, hout⟩⟩
      · cases he.symm.trans h
      · cases hout.symm.trans h
      · cases hout.symm.trans h
        obtain ⟨hfromValid, hfromKey⟩ := keyOf_pathOf (fSafeRelPath_fixed hfrom)
        obtain ⟨htoValid, htoKey⟩ := keyOf_pathOf (fSafeRelPath_fixed hto)
        unfold movedPaths
        by_cases hdir : (isDirectory w.root (pathOf fromKey)).1 = true
        · rw [if_pos hdir]
          exact Or.inl rfl
        · rw [if_neg hdir]
          refine Or.inr ?_
          rw [root_moveAll] at hchanged
          by_cases hne : pathOf fromKey = pathOf toKey
          · rw [hne] at hrename
            rw [Tree.rename_self hrename, fileAt_withParents] at hchanged
            exact absurd rfl hchanged
          · obtain ⟨_, hthere⟩ := source_withParents htoValid.1 hrename
            obtain ⟨c, hfile⟩ := file_of_not_isDirectory hdir hthere
            rcases changed_by_rename hne hrename hfile hchanged with rfl | rfl
            · rw [hfromKey]
              simp
            · rw [htoKey]
              simp

namespace Sync

/-! ## The requests -/

inductive Request where
  | putFile (user path content hex device : Str)
  | createFolder (user relPath device : Str)
  | deleteEntry (user path : Str) (isDir : Bool) (now : Int) (device : Str)
  | moveEntry (user src dst : Str) (now : Int) (device : Str)
  | share (caller : Option Str) (req : ShareRequest) (device : Str)

/-- The `X-Lectern-Device` header. -/
def Request.device : Request → Str
  | .putFile _ _ _ _ device => device
  | .createFolder _ _ device => device
  | .deleteEntry _ _ _ _ device => device
  | .moveEntry _ _ _ _ device => device
  | .share _ _ device => device

/-- The write a shared PUT resolves to. -/
def sharedWrite (caller : Option Str) (s : Server) : ShareRequest → Option (Access × Str × Str)
  | .putLinkFile token path content hex =>
      (fResolveLinkAccess s.db token path).toOption.map (fun a => (a, content, hex))
  | .putSharedFile share path content hex =>
      (sharedAccess caller share path s).toOption.map (fun a => (a, content, hex))
  | _ => none

/-- Whose workspace a request changes, and how. -/
def Request.mutation (s : Server) : Request → Option (Str × Mutation)
  | .putFile user path content hex _ => some (user, .putFile path content hex)
  | .createFolder user relPath _ => some (user, .createFolder relPath)
  | .deleteEntry user path isDir now _ => some (user, .deleteEntry path isDir now)
  | .moveEntry user src dst now _ => some (user, .moveEntry src dst now)
  | .share caller req _ =>
      (sharedWrite caller s req).map (fun (a, content, hex) =>
        (a.ownerId, .writeThrough a content hex))

/-- Change a workspace and, when the handler succeeds, announce its paths. -/
def change (limits : Limits) (owner : Str) (m : Mutation) (device : Str) (s : Server) :
    Server × Option Announcement :=
  match m.run limits (s.workspaces owner) with
  | (w, .ok paths) => (s.setWorkspace owner w, some ⟨owner, paths, device⟩)
  | (w, .error _) => (s.setWorkspace owner w, none)

/-- Serve one request. -/
def serve (cfg : Config) (r : Request) (s : Server) : Server × Option Announcement :=
  match r.mutation s with
  | some (owner, m) => change cfg.limits owner m r.device s
  | none =>
      match r with
      | .share caller req _ => ((handle cfg caller req s).1, none)
      | _ => (s, none)

/-- The hub's surroundings in the server: watches are resolved from the tables. -/
def service (cfg : Config) (parse : Str → Option Json) : Service Server Request where
  parse := parse
  resolve s userId frame := fResolveWatch s.db userId frame
  serve := serve cfg

/-- What an announcement says about its request. -/
theorem serve_announces {cfg : Config} {r : Request} {s : Server} {a : Announcement}
    (h : (serve cfg r s).2 = some a) :
    ∃ m w paths, r.mutation s = some (a.ownerId, m) ∧
      m.run cfg.limits (s.workspaces a.ownerId) = (w, .ok paths) ∧ a.paths = paths ∧
      a.originDevice = r.device ∧ (serve cfg r s).1 = s.setWorkspace a.ownerId w := by
  unfold serve at h ⊢
  cases hm : r.mutation s with
  | none =>
      rw [hm] at h
      cases r <;> cases h
  | some found =>
      obtain ⟨owner, m⟩ := found
      rw [hm] at h
      dsimp only at h ⊢
      unfold change at h ⊢
      rcases hrun : m.run cfg.limits (s.workspaces owner) with ⟨w, answer⟩
      rw [hrun] at h
      cases answer with
      | error e => cases h
      | ok paths =>
          cases h
          exact ⟨m, w, paths, rfl, hrun, rfl, rfl, rfl⟩

/-- **A change that succeeds is announced**, for the workspace it changed and with
the device its request named. -/
theorem announces_of_run {cfg : Config} {r : Request} {s : Server} {owner : Str} {m : Mutation}
    {paths : List Str} (hm : r.mutation s = some (owner, m))
    (hrun : (m.run cfg.limits (s.workspaces owner)).2 = .ok paths) :
    (serve cfg r s).2 = some ⟨owner, paths, r.device⟩ := by
  unfold serve
  rw [hm]
  dsimp only
  unfold change
  rcases hboth : m.run cfg.limits (s.workspaces owner) with ⟨w, answer⟩
  rw [hboth] at hrun
  cases hrun
  rfl

/-- A share request changes the server as its handler does. -/
theorem serve_share (cfg : Config) (caller : Option Str) (req : ShareRequest) (device : Str)
    (s : Server) : (serve cfg (.share caller req device) s).1 = (handle cfg caller req s).1 := by
  have hchange (a : Access) (content hex : Str) :
      (change cfg.limits a.ownerId (.writeThrough a content hex) device s).1 =
        (writeThrough cfg.limits content hex s a).1 := by
    rw [fst_writeThrough]
    unfold change
    split
    · rename_i w paths hrun
      change fWriteThrough cfg.limits a content hex (s.workspaces a.ownerId) = _ at hrun
      rw [hrun]
    · rename_i w e hrun
      change fWriteThrough cfg.limits a content hex (s.workspaces a.ownerId) = _ at hrun
      rw [hrun]
  cases req with
  | putLinkFile token path content hex =>
      unfold serve Request.mutation sharedWrite handle putLinkFile
      dsimp only
      cases fResolveLinkAccess s.db token path with
      | error e => rfl
      | ok a => exact hchange a content hex
  | putSharedFile share path content hex =>
      unfold serve Request.mutation sharedWrite handle putSharedFile
      dsimp only
      cases sharedAccess caller share path s with
      | error e => rfl
      | ok a => exact hchange a content hex
  | _ => rfl

end Sync

end Lectern
