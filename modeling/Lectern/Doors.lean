import Lectern.SharedKeys
import Lectern.Store

/-!
# Every door to a file

A file is read and polled by its owner, through shares and through links.  Each
of these reads what the store holds at the path it opens, so what one door
writes every other door reads, until a later change touches that very file.
-/

namespace Lectern

open FileTree Sync

/-! ## Reading -/

/-- `GET /api/workspace/file`. -/
def getFile (caller : Option Str) (path : Str) (s : Server) : Response := do
  let user ← fCurrentUser caller
  let rel ← fSafeRelPath (← fRequiredQuery path (str "path"))
  match fReadFile (s.workspaces user).root (pathOf rel) with
  | none => .error .fNotFound
  | some content => .ok (.text content)

/-- `GET /api/workspace/stat`. -/
def getStat (probe : Probe) (caller : Option Str) (path : Str) (s : Server) : Response := do
  let user ← fCurrentUser caller
  let rel ← fSafeRelPath (← fRequiredQuery path (str "path"))
  fJsonResponse (← fStatFile probe (s.workspaces user).root (pathOf rel))

/-- The GET that reads what a route names. -/
def Route.read (caller : Option Str) (s : Server) : Route → Response
  | .own path => getFile caller path s
  | .share id sub => getSharedFile caller id sub s
  | .link token sub => getLinkFile token sub s

/-- The poll of what a route names. -/
def Route.stat (probe : Probe) (caller : Option Str) (s : Server) : Route → Response
  | .own path => getStat probe caller path s
  | .share id sub => sharedStat probe caller id sub s
  | .link token sub => linkStat probe token sub s

/-- Shares and links serve work files only; owners read everything. -/
def Route.Serves (route : Route) (p : List Str) : Prop :=
  (∃ path, route = .own path) ∨ fIsWorkFile (keyOf p) = true

/-- What the poll answers for a file. -/
def statValue (probe : Probe) (p : List Str) (content : Str) : Json :=
  .object [(str "modified", .int (probe.fModifiedMs p)),
    (str "hash", .string (probe.fSha256File content))]

theorem fReadFile_file {root : Disk} {p : List Str} {content : Str}
    (h : root.fileAt p = some content) : fReadFile root p = some content := by
  unfold fReadFile
  rw [Tree.fileAt_eq_some_iff.mp h]

theorem fStatFile_file (probe : Probe) {root : Disk} {p : List Str} {content : Str}
    (h : root.fileAt p = some content) :
    fStatFile probe root p = .ok (statValue probe p content) := by
  unfold fStatFile
  rw [h]
  rfl

/-- What an access of a stored share or link reads. -/
theorem readThrough_file {s : Server} {a : Access} {content : Str}
    (hfixed : fSafeRelPath a.relPath = .ok a.relPath) (hwork : fIsWorkFile a.relPath = true)
    (hfile : s.files a.ownerId (pathOf a.relPath) = some content) (probe : Probe) :
    readThrough s a = .ok (.text content) ∧
      statThrough probe s a = fJsonResponse (statValue probe (pathOf a.relPath) content) := by
  have hread := fReadFile_file hfile
  have hstat := fStatFile_file probe hfile
  constructor
  · unfold readThrough fReadThrough
    rw [hwork, fOwnerFullPath_fixed hfixed]
    simp only [Bool.not_true, Bool.false_eq_true, if_false, hread]
  · unfold statThrough
    rw [hwork, fOwnerFullPath_fixed hfixed]
    simp only [Bool.not_true, Bool.false_eq_true, if_false, hstat]

/-- **Every door reads the file it opens.** -/
theorem read_of_opens {s : Server} (hdb : StoredPaths s.db) (probe : Probe) {caller : Option Str}
    {route : Route} {owner : Str} {p : List Str} {content : Str}
    (hopens : route.Opens s.db caller owner p) (hserves : route.Serves p)
    (hfile : s.files owner p = some content) :
    route.read caller s = .ok (.text content) ∧
      route.stat probe caller s = fJsonResponse (statValue probe p content) := by
  rcases hopens with ⟨path, k, rfl, rfl, hk, rfl⟩ | ⟨a, ha, rfl, hfull⟩
  · have hpath : path ≠ [] := by
      rintro rfl
      cases hk
    have hquery : fRequiredQuery path (str "path") = .ok path := if_neg hpath
    constructor
    · show getFile (some owner) path s = _
      unfold getFile
      simp only [fCurrentUser, hquery, hk, bind, Except.bind, fReadFile_file hfile]
    · show getStat probe (some owner) path s = _
      unfold getStat
      simp only [fCurrentUser, hquery, hk, bind, Except.bind, fStatFile_file probe hfile]
  · have hfixed := fixed_of_resolves hdb ha
    rw [fOwnerFullPath_fixed hfixed, Except.ok.injEq] at hfull
    subst hfull
    have hwork : fIsWorkFile a.relPath = true := by
      rcases hserves with ⟨path, rfl⟩ | hwork
      · exact ha.elim
      · rwa [(keyOf_pathOf hfixed).2] at hwork
    have hthrough := readThrough_file hfixed hwork hfile probe
    cases route with
    | own path => exact ha.elim
    | share id sub =>
        obtain ⟨hid, user, rfl, hresolve⟩ := ha
        have haccess : sharedAccess (some user) id sub s = .ok a := by
          unfold sharedAccess
          have hquery : fRequiredQuery id (str "share") = .ok id := if_neg hid
          simp only [fCurrentUser, hquery, hresolve, bind, Except.bind]
        constructor
        · show getSharedFile (some user) id sub s = _
          unfold getSharedFile
          rw [haccess]
          exact hthrough.1
        · show sharedStat probe (some user) id sub s = _
          unfold sharedStat
          rw [haccess]
          exact hthrough.2
    | link token sub =>
        constructor
        · show getLinkFile token sub s = _
          unfold getLinkFile
          rw [ha.2]
          exact hthrough.1
        · show linkStat probe token sub s = _
          unfold linkStat
          rw [ha.2]
          exact hthrough.2

namespace Sync

theorem Reachable.serve {cfg : Config} {s : Server} (hs : Reachable cfg s) (r : Request) :
    Reachable cfg (serve cfg r s).1 := by
  cases r with
  | share caller req device =>
      rw [serve_share]
      exact .request caller req hs
  | putFile user path content hex device =>
      exact (fst_change cfg.limits user (.putFile path content hex) device s) ▸ .mutation user _ hs
  | createFolder user relPath device =>
      exact (fst_change cfg.limits user (.createFolder relPath) device s) ▸ .mutation user _ hs
  | deleteEntry user path isDir now device =>
      exact (fst_change cfg.limits user (.deleteEntry path isDir now) device s) ▸ .mutation user _ hs
  | moveEntry user src dst now device =>
      exact (fst_change cfg.limits user (.moveEntry src dst now) device s) ▸ .mutation user _ hs

theorem Reachable.served {cfg : Config} {s : Server} (hs : Reachable cfg s) (rs : List Request) :
    Reachable cfg (served cfg rs s) :=
  Runs.run_induction (P := Reachable cfg) (fun r _ _ hr => Reachable.serve hr r) hs

/-- An answered request makes one change at most. -/
theorem done_eq {cfg : Config} {r : Request} {s : Server} {e : Str × Change Str Str}
    (h : e ∈ r.done cfg s) : r.done cfg s = [e] := by
  unfold Request.done at h ⊢
  cases hm : r.mutation s with
  | none =>
      rw [hm] at h
      cases h
  | some found =>
      obtain ⟨owner, m⟩ := found
      rw [hm] at h
      dsimp only at h ⊢
      cases hout : (m.run cfg.limits (s.workspaces owner)).2 with
      | error e' =>
          rw [hout] at h
          cases h
      | ok paths =>
          rw [hout] at h
          unfold Mutation.done at h ⊢
          cases hchange : m.change with
          | none =>
              rw [hchange] at h
              cases h
          | some c =>
              rw [hchange] at h
              rw [List.mem_singleton.mp h]
              rfl

/-- A request put this content at this path: it wrote it there, or it moved it
there. -/
def Request.Puts (cfg : Config) (s : Server) (r : Request) (owner : Str) (p : List Str)
    (content : Str) : Prop :=
  (owner, .write p content) ∈ r.done cfg s ∨
    ∃ src dst t, (owner, .move src dst) ∈ r.done cfg s ∧ p = dst ++ t ∧
      s.files owner (src ++ t) = some content

/-- **What one door writes every door reads.**  Once a request has put a content
at a path, and until a later one touches that path, whoever opens the path by
whichever route gets this content, and its digest from the poll. -/
theorem written_read (cfg : Config) (s : Server) (hs : Reachable cfg s) (r : Request)
    (rs : List Request) (hfresh : AllFresh cfg (r :: rs) s) (owner : Str) (p : List Str)
    (content : Str) (hputs : r.Puts cfg s owner p content)
    (hlater : Store.Untouched (journal cfg rs (serve cfg r s).1) owner p) (caller : Option Str)
    (route : Route) (hopens : route.Opens (served cfg (r :: rs) s).db caller owner p)
    (hserves : route.Serves p) :
    route.read caller (served cfg (r :: rs) s) = .ok (.text content) ∧
      route.stat cfg.probe caller (served cfg (r :: rs) s) =
        fJsonResponse (statValue cfg.probe p content) := by
  refine read_of_opens (reachable_inv (Reachable.served hs (r :: rs))).1 cfg.probe hopens hserves ?_
  rw [files_served cfg hfresh, journal]
  rcases hputs with hwrite | ⟨src, dst, t, hmove, rfl, hsource⟩
  · rw [done_eq hwrite]
    exact Store.replay_write content hlater s.files
  · rw [done_eq hmove]
    exact (Store.replay_move hlater s.files).trans hsource

theorem written_read_bobWrites :
    getFile (some (str "ann")) (str "./docs//x.mdp")
      (served plainConfig [bobWrites, annCreates] sharedDocs) = .ok (.text (str "two")) :=
  (written_read plainConfig sharedDocs reachable_sharedDocs bobWrites [annCreates]
    allFresh_bobWrites (str "ann") [str "docs", str "x.mdp"] (str "two")
    (Or.inl (by decide +kernel)) (by decide +kernel) (some (str "ann")) (.own (str "./docs//x.mdp"))
    (Or.inl ⟨_, str "docs/x.mdp", rfl, rfl, by decide +kernel, by decide +kernel⟩)
    (Or.inl ⟨_, rfl⟩)).1

end Sync

end Lectern
