import Lectern.LiveFiles
import Lectern.ShareRoutes

/-!
# What the share tables grant

A row of `shares` or `share_links` is a grant: an owner, a root inside the
owner's workspace, and a level.  A request presents a grant by naming a share
whose grantee is the caller, or a link.  Every access the endpoints resolve
comes from such a row, at the row's level and at or below its root.

The tables are filled by the POST handlers only, so in every reachable server
the stored roots are keys.
-/

namespace Lectern

open FileTree

/-- What a row grants. -/
structure Grant where
  ownerId : Str
  relPath : Str
  isDir : Bool
  permission : Str
  deriving DecidableEq, Repr

def ShareRow.grant (row : ShareRow) : Grant :=
  ⟨row.ownerId, row.relPath, row.isDir, row.permission⟩

def LinkRow.grant (row : LinkRow) : Grant :=
  ⟨row.ownerId, row.relPath, row.isDir, row.permission⟩

/-- The key is the root of the grant or, for a folder, lies strictly below it. -/
def Grant.Covers (g : Grant) (key : Str) : Prop :=
  key = g.relPath ∨ g.isDir = true ∧ ∃ t, t ≠ [] ∧ pathOf key = pathOf g.relPath ++ t

/-- The grant is at one of the given levels. -/
def Grant.AtLeast (g : Grant) (need : Perm) : Prop :=
  ∃ perm, fParsePerm g.permission = some perm ∧ need.rank ≤ perm.rank

/-- The caller names an existing share granted to it. -/
def PresentedShare (db : Db) (caller : Option Str) (id : Str) (g : Grant) : Prop :=
  ∃ row ∈ db.shares, row.id = id ∧ caller = some row.granteeId ∧ row.grant = g

/-- The caller names an existing link. -/
def PresentedLink (db : Db) (token : Str) (g : Grant) : Prop :=
  ∃ row ∈ db.links, row.id = token ∧ row.grant = g

/-! ## Resolving -/

theorem fLoadShare_ok {db : Db} {id : Str} {row : ShareRow} (h : fLoadShare db id = .ok row) :
    row ∈ db.shares ∧ row.id = id := by
  unfold fLoadShare at h
  split at h
  · rename_i row' hfind
    cases h
    exact ⟨List.mem_of_find?_eq_some hfind, by simpa using List.find?_some hfind⟩
  · cases h

theorem fLoadLink_ok {db : Db} {token : Str} {row : LinkRow} (h : fLoadLink db token = .ok row) :
    row ∈ db.links ∧ row.id = token := by
  unfold fLoadLink at h
  split at h
  · rename_i row' hfind
    cases h
    exact ⟨List.mem_of_find?_eq_some hfind, by simpa using List.find?_some hfind⟩
  · cases h

/-- **What a shared root and a sub path join to**: the root, or for a folder a
key strictly below it. -/
theorem fEffectivePath_ok {root sub message k : Str} {isDir : Bool}
    (hroot : fSafeRelPath root = .ok root) (h : fEffectivePath root isDir sub message = .ok k) :
    fSafeRelPath k = .ok k ∧
      (sub = [] ∧ k = root ∨
        sub ≠ [] ∧ isDir = true ∧ Accepted sub ∧
          pathOf k = pathOf root ++ cleanSegments sub ∧ cleanSegments sub ≠ []) := by
  unfold fEffectivePath at h
  by_cases hsub : sub = []
  · rw [if_pos hsub] at h
    cases h
    exact ⟨hroot, Or.inl ⟨hsub, rfl⟩⟩
  · rw [if_neg hsub] at h
    cases isDir with
    | false => cases h
    | true =>
        cases hsafe : fSafeRelPath sub with
        | error e => simp [hsafe] at h
        | ok sub' =>
            simp only [hsafe, Bool.not_true, Bool.false_eq_true, if_false] at h
            cases h
            obtain ⟨hvalid, hkey⟩ := keyOf_pathOf hroot
            obtain ⟨hvalid', hkey', hclean⟩ := fSafeRelPath_ok hsafe
            have haccepted := ((fSafeRelPath_eq_ok_iff sub sub').mp hsafe).1
            have hboth : ValidPath (pathOf root ++ pathOf sub') := by
              refine ⟨by simp [hvalid.1], ?_⟩
              intro n hn
              rcases List.mem_append.mp hn with hn | hn
              · exact hvalid.2 n hn
              · exact hvalid'.2 n hn
            have hjoin : root ++ slash :: sub' = keyOf (pathOf root ++ pathOf sub') := by
              rw [keyOf_append hvalid.1 hvalid'.1, hkey, hkey']
            rw [hjoin]
            refine ⟨fSafeRelPath_keyOf hboth, Or.inr ⟨hsub, rfl, haccepted, ?_, ?_⟩⟩
            · rw [pathOf_keyOf hboth, hclean]
            · exact hclean ▸ hvalid'.1

theorem covers_of_fEffectivePath {g : Grant} {sub message k : Str}
    (hroot : fSafeRelPath g.relPath = .ok g.relPath)
    (h : fEffectivePath g.relPath g.isDir sub message = .ok k) : g.Covers k := by
  rcases (fEffectivePath_ok hroot h).2 with ⟨_, hk⟩ | ⟨_, hdir, _, hpath, hne⟩
  · exact Or.inl hk
  · exact Or.inr ⟨hdir, _, hne, hpath⟩

/-- What an access is made from. -/
theorem access_ok {ownerId relPath permission sub message : Str} {isDir : Bool} {a : Access}
    (h : access ownerId relPath isDir permission sub message = .ok a) :
    a.ownerId = ownerId ∧ a.isDir = isDir ∧ fParsePerm permission = some a.permission ∧
      fEffectivePath relPath isDir sub message = .ok a.relPath := by
  unfold access at h
  cases hpath : fEffectivePath relPath isDir sub message with
  | error e => simp [hpath] at h
  | ok path =>
      cases hperm : fParsePerm permission with
      | none => simp [hpath, fPermFromDb, hperm] at h
      | some perm =>
          simp only [hpath, fPermFromDb, hperm] at h
          cases h
          exact ⟨rfl, rfl, rfl, rfl⟩

/-- A share resolves for its grantee only. -/
theorem fResolveShareAccess_ok {db : Db} {user id sub : Str} {a : Access}
    (h : fResolveShareAccess db user id sub = .ok a) :
    ∃ row ∈ db.shares, row.id = id ∧ row.granteeId = user ∧ a.ownerId = row.ownerId ∧
      a.isDir = row.isDir ∧ fParsePerm row.permission = some a.permission ∧
      fEffectivePath row.relPath row.isDir sub (str "not a folder share") = .ok a.relPath := by
  unfold fResolveShareAccess at h
  cases hload : fLoadShare db id with
  | error e => simp [hload] at h
  | ok row =>
      simp only [hload] at h
      by_cases hgrantee : row.granteeId = user
      · rw [if_neg (by simpa using hgrantee)] at h
        obtain ⟨hmem, hid⟩ := fLoadShare_ok hload
        obtain ⟨howner, hdir, hperm, hpath⟩ := access_ok h
        exact ⟨row, hmem, hid, hgrantee, howner, hdir, hperm, hpath⟩
      · rw [if_pos hgrantee] at h
        cases h

theorem fResolveLinkAccess_ok {db : Db} {token sub : Str} {a : Access}
    (h : fResolveLinkAccess db token sub = .ok a) :
    ∃ row ∈ db.links, row.id = token ∧ a.ownerId = row.ownerId ∧
      a.isDir = row.isDir ∧ fParsePerm row.permission = some a.permission ∧
      fEffectivePath row.relPath row.isDir sub (str "not a folder link") = .ok a.relPath := by
  unfold fResolveLinkAccess at h
  cases hload : fLoadLink db token with
  | error e => simp [hload] at h
  | ok row =>
      simp only [hload] at h
      obtain ⟨hmem, hid⟩ := fLoadLink_ok hload
      obtain ⟨howner, hdir, hperm, hpath⟩ := access_ok h
      exact ⟨row, hmem, hid, howner, hdir, hperm, hpath⟩

/-! ## Reachable servers -/

/-- Every stored root is a key. -/
structure StoredPaths (db : Db) : Prop where
  shares : ∀ row ∈ db.shares, fSafeRelPath row.relPath = .ok row.relPath
  links : ∀ row ∈ db.links, fSafeRelPath row.relPath = .ok row.relPath

/-- The states a server goes through: from empty tables and workspaces, by the
requests of this file, by the owners' own requests, and by whatever touches
neither shares, links nor workspaces. -/
inductive Reachable (cfg : Config) : Server → Prop where
  | start (s : Server) (hshares : s.db.shares = []) (hlinks : s.db.links = [])
      (hempty : ∀ user, s.workspaces user = Workspace.empty) : Reachable cfg s
  | request {s : Server} (caller : Option Str) (req : ShareRequest) (hs : Reachable cfg s) :
      Reachable cfg (handle cfg caller req s).1
  | mutation {s : Server} (user : Str) (m : Mutation) (hs : Reachable cfg s) :
      Reachable cfg (s.setWorkspace user (m.run cfg.limits (s.workspaces user)).1)
  | elsewhere {s : Server} (s' : Server) (hs : Reachable cfg s)
      (hshares : s'.db.shares = s.db.shares) (hlinks : s'.db.links = s.db.links)
      (hsame : s'.workspaces = s.workspaces) : Reachable cfg s'

theorem fJsonBody_ok {body fields : Json} (h : fJsonBody body = .ok fields) : fields = body := by
  unfold fJsonBody at h
  split at h
  · cases h
    rfl
  · cases h

/-- The path a POST stores has been through `fSafeRelPath`. -/
theorem newEntry_ok {s : Server} {ownerId : Str} {body : Json} {perm : Perm} {rel : Str}
    {isDir : Bool} (h : newEntry s ownerId body = .ok (perm, rel, isDir)) :
    fSafeRelPath rel = .ok rel := by
  unfold newEntry at h
  cases hbody : fJsonBody body with
  | error e => simp [hbody, bind, Except.bind] at h
  | ok fields =>
      cases hpermission : fJsonString fields (str "permission") with
      | error e => simp [hbody, hpermission, bind, Except.bind] at h
      | ok permission =>
          cases hparse : fParsePerm permission with
          | none => simp [hbody, hpermission, hparse, bind, Except.bind] at h
          | some perm' =>
              cases hpath : fJsonString fields (str "relPath") with
              | error e => simp [hbody, hpermission, hparse, hpath, bind, Except.bind] at h
              | ok path =>
                  cases hsafe : fSafeRelPath path with
                  | error e =>
                      simp [hbody, hpermission, hparse, hpath, hsafe, bind, Except.bind] at h
                  | ok key =>
                      simp only [hbody, hpermission, hparse, hpath, hsafe, bind, Except.bind] at h
                      split at h
                      · cases h
                      · cases h
                        exact fSafeRelPath_fixed hsafe

/-- Sharing an entry again keeps its row, and an upsert the other tables. -/
theorem upsertShare_keeps {db db' : Db} {row : ShareRow} (h : upsertShare db row = .ok db') :
    db'.links = db.links ∧ db'.comments = db.comments ∧ db'.users = db.users ∧
      ∀ old ∈ db.shares, ∃ new ∈ db'.shares, new.id = old.id ∧ new.granteeId = old.granteeId ∧
        new.ownerId = old.ownerId ∧ new.relPath = old.relPath := by
  unfold upsertShare at h
  dsimp only at h
  split at h
  · cases h
    refine ⟨rfl, rfl, rfl, ?_⟩
    intro old hold
    refine ⟨_, List.mem_map_of_mem hold, ?_⟩
    split
    · exact ⟨rfl, rfl, rfl, rfl⟩
    · exact ⟨rfl, rfl, rfl, rfl⟩
  · split at h
    · cases h
    · cases h
      refine ⟨rfl, rfl, rfl, ?_⟩
      intro old hold
      exact ⟨old, List.mem_append_left _ hold, rfl, rfl, rfl, rfl⟩

theorem upsertShare_paths {db db' : Db} {row : ShareRow} (hdb : StoredPaths db)
    (hrow : fSafeRelPath row.relPath = .ok row.relPath) (h : upsertShare db row = .ok db') :
    StoredPaths db' := by
  unfold upsertShare at h
  dsimp only at h
  split at h
  · cases h
    refine ⟨?_, hdb.links⟩
    intro old hold
    obtain ⟨before, hmem, rfl⟩ := List.mem_map.mp hold
    split
    · exact hdb.shares before hmem
    · exact hdb.shares before hmem
  · split at h
    · cases h
    · cases h
      refine ⟨?_, hdb.links⟩
      intro old hold
      rcases List.mem_append.mp hold with hold | hold
      · exact hdb.shares old hold
      · rw [List.mem_singleton.mp hold]
        exact hrow

end Lectern
