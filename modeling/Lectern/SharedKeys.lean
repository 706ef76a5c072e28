import Lectern.Listing
import Lectern.ShareEffects

/-!
# One key per file

A file is opened on disk, commented on, announced and watched under strings
that different endpoints build in different ways: the owner's from a query
parameter, a grantee's from the root stored with the share and a sub path of
its own.  They agree.  Whatever the spelling, the string is the key of the path
that is opened, so threads are not split and no notification is lost.

A listing closes the circle: a row below a shared folder, put behind the sub
path that was listed, leads through the same share to the file it named.
-/

namespace Lectern

open FileTree

/-! ## Confinement -/

/-- Every accepted spelling of the segments of a key gives that key. -/
theorem fSafeRelPath_spelling {k q : Str} (hk : fSafeRelPath k = .ok k) (hq : Accepted q)
    (h : cleanSegments q = pathOf k) : fSafeRelPath q = .ok k := by
  rw [fSafeRelPath_eq_ok_iff, h, (keyOf_pathOf hk).2]
  exact ⟨hq, rfl⟩

/-- What `fEffectivePath` may return: the root, or a key strictly below it. -/
structure Confined (root : Str) (isDir : Bool) (k : Str) : Prop where
  fixed : fSafeRelPath k = .ok k
  below : k = root ∨ isDir = true ∧ ∃ t, t ≠ [] ∧ pathOf k = pathOf root ++ t
  spelling : ∀ q, Accepted q → cleanSegments q = pathOf k → fSafeRelPath q = .ok k

theorem confined_fEffectivePath {root sub message k : Str} {isDir : Bool}
    (hroot : fSafeRelPath root = .ok root) (h : fEffectivePath root isDir sub message = .ok k) :
    Confined root isDir k := by
  obtain ⟨hfixed, hcases⟩ := fEffectivePath_ok hroot h
  refine ⟨hfixed, ?_, fun q hq hsame => fSafeRelPath_spelling hfixed hq hsame⟩
  rcases hcases with ⟨_, hk⟩ | ⟨_, hdir, _, hpath, hne⟩
  · exact Or.inl hk
  · exact Or.inr ⟨hdir, _, hne, hpath⟩

/-! ## Ways to a file -/

/-- The three ways a request names a file. -/
inductive Route where
  | own (path : Str)
  | share (id sub : Str)
  | link (token sub : Str)
  deriving DecidableEq, Repr

/-- The access a share or link route resolves to. -/
def Route.Resolves (db : Db) (caller : Option Str) : Route → Access → Prop
  | .own _, _ => False
  | .share id sub, a => id ≠ [] ∧ ∃ user, caller = some user ∧
      fResolveShareAccess db user id sub = .ok a
  | .link token sub, a => token ≠ [] ∧ fResolveLinkAccess db token sub = .ok a

/-- The path on disk, inside the owner's workspace, that the route opens. -/
def Route.Opens (db : Db) (caller : Option Str) (route : Route) (owner : Str) (p : List Str) :
    Prop :=
  (∃ path k, route = .own path ∧ caller = some owner ∧ fSafeRelPath path = .ok k ∧ p = pathOf k) ∨
    ∃ a, route.Resolves db caller a ∧ a.ownerId = owner ∧ fOwnerFullPath a.relPath = .ok p

/-- How a comments request names the route. -/
def Route.target : Route → CommentTarget
  | .own path => ⟨path, [], [], []⟩
  | .share id sub => ⟨[], id, [], sub⟩
  | .link token sub => ⟨[], [], token, sub⟩

/-- A `watch` frame that names the route. -/
def Route.Frame (frame : Json) : Route → Prop
  | .own _ => False
  | .share id sub => frame.fStringField (str "link") = [] ∧
      frame.fStringField (str "share") = id ∧ frame.fStringField (str "path") = sub
  | .link token sub => frame.fStringField (str "link") = token ∧
      frame.fStringField (str "path") = sub

/-- A PUT by the route is answered OK and announces these paths. -/
def Route.Announces (limits : Limits) (db : Db) (caller : Option Str) (route : Route)
    (announced : List Str) : Prop :=
  (∃ path content hex w, route = .own path ∧
      (putFile limits path content hex w).2 = .ok announced) ∨
    ∃ a content hex w, route.Resolves db caller a ∧
      (fWriteThrough limits a content hex w).2 = .ok announced

/-- The key of `p` names the file in the comment table, in notifications and in
watches. -/
structure OneKey (db : Db) (caller : Option Str) (route : Route) (owner : Str) (p : List Str) :
    Prop where
  valid : ValidPath p
  comments : fResolveCommentTarget db caller route.target .view = .ok (owner, keyOf p)
  announced : ∀ limits announced, route.Announces limits db caller announced →
    announced = [keyOf p]
  watched : ∀ frame, route.Frame frame → caller ≠ some [] →
    fResolveWatch db (caller.getD []) frame = some (owner, keyOf p)

/-- An access of a reachable server carries a key. -/
theorem fixed_of_resolves {db : Db} (hdb : StoredPaths db) {caller : Option Str} {route : Route}
    {a : Access} (h : route.Resolves db caller a) : fSafeRelPath a.relPath = .ok a.relPath := by
  cases route with
  | own path => exact h.elim
  | share id sub =>
      obtain ⟨_, user, _, hresolve⟩ := h
      obtain ⟨row, hrow, _, _, _, _, _, hpath⟩ := fResolveShareAccess_ok hresolve
      exact (fEffectivePath_ok (hdb.shares row hrow) hpath).1
  | link token sub =>
      obtain ⟨row, hrow, _, _, _, _, hpath⟩ := fResolveLinkAccess_ok h.2
      exact (fEffectivePath_ok (hdb.links row hrow) hpath).1

/-- A route resolves to one access. -/
theorem resolves_unique {db : Db} {caller : Option Str} {route : Route} {a a' : Access}
    (h : route.Resolves db caller a) (h' : route.Resolves db caller a') : a' = a := by
  cases route with
  | own path => exact h.elim
  | share id sub =>
      obtain ⟨_, user, hcaller, hresolve⟩ := h
      obtain ⟨_, user', hcaller', hresolve'⟩ := h'
      rw [hcaller, Option.some.injEq] at hcaller'
      rw [← hcaller', hresolve, Except.ok.injEq] at hresolve'
      exact hresolve'.symm
  | link token sub =>
      have hresolve := h.2
      rw [h'.2, Except.ok.injEq] at hresolve
      exact hresolve

theorem fOwnerFullPath_fixed {k : Str} (hk : fSafeRelPath k = .ok k) :
    fOwnerFullPath k = .ok (pathOf k) := by
  unfold fOwnerFullPath
  rw [hk]

theorem requireLevel_view (a : Access) :
    requireLevel .view (.ok a) = .ok (a.ownerId, a.relPath) := by
  unfold requireLevel
  exact if_neg (Nat.not_lt_zero _)

theorem comments_of_resolves {db : Db} {caller : Option Str} {route : Route} {a : Access}
    (h : route.Resolves db caller a) :
    fResolveCommentTarget db caller route.target .view = .ok (a.ownerId, a.relPath) := by
  cases route with
  | own path => exact h.elim
  | share id sub =>
      obtain ⟨hid, user, rfl, hresolve⟩ := h
      unfold fResolveCommentTarget Route.target
      simp only [ne_eq, not_true_eq_false, if_false, hid, not_false_eq_true, if_true, hresolve]
      exact requireLevel_view a
  | link token sub =>
      obtain ⟨htoken, hresolve⟩ := h
      unfold fResolveCommentTarget Route.target
      simp only [ne_eq, htoken, not_false_eq_true, if_true, hresolve]
      exact requireLevel_view a

theorem watched_of_resolves {db : Db} {caller : Option Str} {route : Route} {a : Access}
    (h : route.Resolves db caller a) {frame : Json} (hframe : route.Frame frame)
    (hcaller : caller ≠ some []) :
    fResolveWatch db (caller.getD []) frame = some (a.ownerId, a.relPath) := by
  cases route with
  | own path => exact h.elim
  | share id sub =>
      obtain ⟨hid, user, rfl, hresolve⟩ := h
      obtain ⟨hlink, hshare, hpath⟩ := hframe
      have huser : user ≠ [] := fun hnil => hcaller (hnil ▸ rfl)
      unfold fResolveWatch
      simp only [hlink, hshare, hpath, ne_eq, not_true_eq_false, if_false, hid, huser,
        not_false_eq_true, and_self, if_true, Option.getD_some, hresolve]
  | link token sub =>
      obtain ⟨htoken, hresolve⟩ := h
      obtain ⟨hlink, hpath⟩ := hframe
      unfold fResolveWatch
      simp only [hlink, hpath, ne_eq, htoken, not_false_eq_true, if_true, hresolve]

theorem announced_fWriteThrough {limits : Limits} {a : Access} {content hex : Str} {w : Workspace}
    {announced : List Str} (h : (fWriteThrough limits a content hex w).2 = .ok announced) :
    announced = [a.relPath] := by
  rcases fWriteThrough_cases limits a content hex w with
    ⟨e, he⟩ | ⟨rel, _, _, _, _, _, root, ⟨_, hout⟩ | ⟨_, hout⟩⟩
  · rw [he] at h
    cases h
  · rw [hout] at h
    cases h
  · rw [hout] at h
    cases h
    rfl

theorem announced_putFile {limits : Limits} {path content hex k : Str} {w : Workspace}
    {announced : List Str} (hk : fSafeRelPath path = .ok k)
    (h : (putFile limits path content hex w).2 = .ok announced) : announced = [k] := by
  rcases putFile_cases limits path content hex w with
    ⟨e, he⟩ | ⟨rel, hrel, _, _, root, ⟨_, hout⟩ | ⟨_, hout⟩⟩
  · rw [he] at h
    cases h
  · rw [hout] at h
    cases h
  · rw [hout] at h
    cases h
    rw [hk] at hrel
    cases hrel
    rfl

/-- Whichever way a file is reached, its strings are the key of its path. -/
theorem oneKey_of_opens {db : Db} (hdb : StoredPaths db) {caller : Option Str} {route : Route}
    {owner : Str} {p : List Str} (h : route.Opens db caller owner p) :
    OneKey db caller route owner p := by
  rcases h with ⟨path, k, rfl, rfl, hk, rfl⟩ | ⟨a, ha, rfl, hfull⟩
  · obtain ⟨hvalid, hkey⟩ := keyOf_pathOf (fSafeRelPath_fixed hk)
    refine ⟨hvalid, ?_, ?_, fun frame hframe => hframe.elim⟩
    · unfold fResolveCommentTarget Route.target
      simp only [ne_eq, not_true_eq_false, if_false, hk, hkey]
    · intro limits announced hann
      rw [hkey]
      rcases hann with ⟨path', content, hex, w, hroute, hout⟩ | ⟨a, _, _, _, ha, _⟩
      · cases hroute
        exact announced_putFile hk hout
      · exact ha.elim
  · have hfixed := fixed_of_resolves hdb ha
    rw [fOwnerFullPath_fixed hfixed, Except.ok.injEq] at hfull
    subst hfull
    obtain ⟨hvalid, hkey⟩ := keyOf_pathOf hfixed
    refine ⟨hvalid, ?_, ?_, ?_⟩
    · rw [hkey]
      exact comments_of_resolves ha
    · intro limits announced hann
      rw [hkey]
      rcases hann with ⟨path, content, hex, w, rfl, _⟩ | ⟨a', content, hex, w, ha', hout⟩
      · exact ha.elim
      · rw [announced_fWriteThrough hout, resolves_unique ha ha']
    · intro frame hframe hcaller
      rw [hkey]
      exact watched_of_resolves ha hframe hcaller

/-! ## From a listing back to the file -/

/-- A listed path put behind the sub path that was listed. -/
def behind (sub relPath : Str) : Str := if sub = [] then relPath else sub ++ slash :: relPath

/-- A key put behind an accepted string is accepted, and its names come last. -/
theorem fSafeRelPath_behind {sub : Str} {t : List Str} (hsub : sub = [] ∨ Accepted sub)
    (ht : ValidPath t) :
    fSafeRelPath (behind sub (keyOf t)) = .ok (keyOf (cleanSegments sub ++ t)) := by
  unfold behind
  by_cases hnil : sub = []
  · rw [if_pos hnil, hnil]
    have : cleanSegments [] = [] := by decide
    rw [this, List.nil_append]
    exact fSafeRelPath_keyOf ht
  · rw [if_neg hnil]
    obtain ⟨hhead, hzero, hgood, _⟩ := hsub.resolve_left hnil
    obtain ⟨_, hzero', hgood', _⟩ := accepted_keyOf ht
    have hslash : isSeparator slash = true := rfl
    have hsplit : (sub ++ slash :: keyOf t).splitOnP isSeparator =
        sub.splitOnP isSeparator ++ (keyOf t).splitOnP isSeparator :=
      List.splitOnP_append_cons sub (keyOf t) hslash
    have hclean : cleanSegments (sub ++ slash :: keyOf t) = cleanSegments sub ++ t := by
      unfold cleanSegments
      rw [hsplit, List.filter_append]
      exact congrArg _ (cleanSegments_keyOf ht)
    rw [fSafeRelPath_eq_ok_iff, hclean]
    refine ⟨⟨?_, ?_, ?_, ?_⟩, rfl⟩
    · obtain ⟨c, cs, rfl⟩ := List.exists_cons_of_ne_nil hnil
      exact hhead
    · intro h
      rcases List.mem_append.mp h with h | h
      · exact hzero h
      · rcases List.mem_cons.mp h with h | h
        · exact absurd h (by decide)
        · exact hzero' h
    · rw [hsplit]
      intro n hn
      rcases List.mem_append.mp hn with hn | hn
      · exact hgood n hn
      · exact hgood' n hn
    · rw [hclean]
      simp [ht.1]

/-- Behind the listed sub path, a listed key resolves to the listed entry. -/
theorem fEffectivePath_behind {root sub message k : Str} {t : List Str}
    (hroot : fSafeRelPath root = .ok root) (h : fEffectivePath root true sub message = .ok k)
    (ht : ValidPath t) :
    fEffectivePath root true (behind sub (keyOf t)) message = .ok (keyOf (pathOf k ++ t)) := by
  obtain ⟨hvalid, hkey⟩ := keyOf_pathOf hroot
  obtain ⟨_, hcases⟩ := fEffectivePath_ok hroot h
  have hsub : sub = [] ∨ Accepted sub := by
    rcases hcases with ⟨hnil, _⟩ | ⟨_, _, hacc, _⟩
    · exact Or.inl hnil
    · exact Or.inr hacc
  have hsafe := fSafeRelPath_behind hsub ht
  have hne : behind sub (keyOf t) ≠ [] := by
    intro hnil
    rw [hnil] at hsafe
    cases hsafe
  have hpath : pathOf k = pathOf root ++ cleanSegments sub := by
    rcases hcases with ⟨rfl, rfl⟩ | ⟨_, _, _, hpath, _⟩
    · have : cleanSegments [] = [] := by decide
      rw [this, List.append_nil]
    · exact hpath
  unfold fEffectivePath
  rw [if_neg hne]
  simp only [Bool.not_true, Bool.false_eq_true, if_false, hsafe]
  rw [hpath, List.append_assoc, keyOf_append hvalid.1 (by simp [ht.1]), hkey]

/-- What a listing behind an access lists: a folder of the owner. -/
theorem listThrough_ok {probe : Probe} {message : Str} {s : Server} {a : Access} {v : Json}
    (ha : fSafeRelPath a.relPath = .ok a.relPath)
    (h : listThrough probe message s a = .ok (.json v)) :
    a.isDir = true ∧ ∃ d, (s.workspaces a.ownerId).root.get? (pathOf a.relPath) = some (.dir d) ∧
      v = listing probe d (pathOf a.relPath) [] := by
  unfold listThrough at h
  cases hdir : a.isDir with
  | false => simp [hdir] at h
  | true =>
      simp only [hdir, Bool.not_true, Bool.false_eq_true, if_false, fOwnerFullPath_fixed ha] at h
      cases hget : (s.workspaces a.ownerId).root.get? (pathOf a.relPath) with
      | none => simp [hget] at h
      | some x =>
          cases x with
          | file c => simp [hget] at h
          | dir d =>
              simp only [hget, fJsonResponse] at h
              cases hwalk : fWalkWorkDir probe d (pathOf a.relPath) [] with
              | error e => simp [hwalk] at h
              | ok value =>
                  simp only [hwalk] at h
                  split at h
                  · cases h
                    exact ⟨rfl, d, rfl, fWalkWorkDir_ok hwalk⟩
                  · cases h

/-- What a listed row of an access leads to. -/
theorem listed_through {probe : Probe} {message : Str} {s : Server} {a : Access} {v : Json}
    {relPath : Str} {isDir : Bool} (hs : ∀ user, Sound (s.workspaces user))
    (ha : fSafeRelPath a.relPath = .ok a.relPath)
    (h : listThrough probe message s a = .ok (.json v)) (hlisted : Listed v relPath isDir) :
    a.isDir = true ∧ ∃ t, ValidPath t ∧ relPath = keyOf t ∧
      HasKind ((s.workspaces a.ownerId).root.entryAt (pathOf a.relPath ++ t)) isDir := by
  obtain ⟨hdir, d, hget, rfl⟩ := listThrough_ok ha h
  have hat (t : List Str) :
      (s.workspaces a.ownerId).root.entryAt (pathOf a.relPath ++ t) = d.entryAt t := by
    have := Dir.entryAt_append (s.workspaces a.ownerId).root.root (pathOf a.relPath) t
    rw [show (s.workspaces a.ownerId).root.root.get? (pathOf a.relPath) = _ from hget] at this
    exact this
  have hd : d.Distinct := Node.Distinct.get? (x := .dir (s.workspaces a.ownerId).root.root)
    (s.workspaces a.ownerId).root.distinct hget
  have hvalid (t : List Str) (ht : d.entryAt t ≠ none) : ∀ n ∈ t, ValidName n := by
    intro n hn
    exact (hs a.ownerId).names _ (hat t ▸ ht) n (List.mem_append_right _ hn)
  obtain ⟨t, htne, hpath, hkind⟩ := listed_listing probe hd
    (fun t ht hmem => (hvalid t ht [] hmem).1 rfl) hlisted
  exact ⟨hdir, t, ⟨htne, hvalid t hkind.ne_none⟩, hpath, hat t ▸ hkind⟩

/-- The row of a listing leads back: through `resolve`, behind the listed sub
path, to an access to the listed entry of the same owner. -/
def LeadsBack (s : Server) (resolve : Str → Except AppError Access) (sub relPath : Str)
    (isDir : Bool) : Prop :=
  ∃ a a' t, resolve sub = .ok a ∧ resolve (behind sub relPath) = .ok a' ∧
    a'.ownerId = a.ownerId ∧ ValidPath t ∧ relPath = keyOf t ∧
    a'.relPath = keyOf (pathOf a.relPath ++ t) ∧
    HasKind ((s.workspaces a.ownerId).root.entryAt (pathOf a.relPath ++ t)) isDir

/-- Resolving the row of a listing, whatever table the access came from. -/
theorem access_behind {ownerId root permission message sub : Str} {a : Access} {t : List Str}
    (hroot : fSafeRelPath root = .ok root)
    (h : access ownerId root true permission sub message = .ok a) (ht : ValidPath t) :
    access ownerId root true permission (behind sub (keyOf t)) message =
      .ok { a with relPath := keyOf (pathOf a.relPath ++ t) } := by
  obtain ⟨howner, hdir, hperm, hpath⟩ := access_ok h
  unfold access
  rw [fEffectivePath_behind hroot hpath ht]
  simp only [fPermFromDb, hperm]
  cases a
  simp_all

theorem leadsBack_share {probe : Probe} {caller : Option Str} {share sub : Str} {s : Server}
    {v : Json} {relPath : Str} {isDir : Bool} (hdb : StoredPaths s.db)
    (hs : ∀ user, Sound (s.workspaces user))
    (h : sharedList probe caller share sub s = .ok (.json v)) (hlisted : Listed v relPath isDir) :
    LeadsBack s (fun sub => sharedAccess caller share sub s) sub relPath isDir := by
  unfold sharedList at h
  cases ha : sharedAccess caller share sub s with
  | error e => simp [ha, bind, Except.bind] at h
  | ok a =>
      simp only [ha, bind, Except.bind] at h
      obtain ⟨user, hcaller, hshare, hresolve⟩ := sharedAccess_ok ha
      have hfixed := fixed_of_resolves hdb
        (show (Route.share share sub).Resolves s.db caller a from ⟨hshare, user, hcaller, hresolve⟩)
      obtain ⟨hdir, t, ht, rfl, hkind⟩ := listed_through hs hfixed h hlisted
      refine ⟨a, { a with relPath := keyOf (pathOf a.relPath ++ t) }, t, ha, ?_, rfl, ht, rfl, rfl,
        hkind⟩
      have hgoal : fResolveShareAccess s.db user share (behind sub (keyOf t)) =
          .ok { a with relPath := keyOf (pathOf a.relPath ++ t) } := by
        unfold fResolveShareAccess at hresolve ⊢
        cases hload : fLoadShare s.db share with
        | error e => simp [hload] at hresolve
        | ok row =>
            simp only [hload] at hresolve ⊢
            by_cases hgrantee : row.granteeId ≠ user
            · rw [if_pos hgrantee] at hresolve
              cases hresolve
            · rw [if_neg hgrantee] at hresolve ⊢
              have hrowdir : row.isDir = true := by
                rw [← (access_ok hresolve).2.1, hdir]
              rw [hrowdir] at hresolve ⊢
              exact access_behind (hdb.shares row (fLoadShare_ok hload).1) hresolve ht
      unfold sharedAccess fCurrentUser fRequiredQuery
      simp only [hcaller, hshare, if_false, bind, Except.bind]
      exact hgoal

theorem leadsBack_link {probe : Probe} {token sub : Str} {s : Server}
    {v : Json} {relPath : Str} {isDir : Bool} (hdb : StoredPaths s.db)
    (hs : ∀ user, Sound (s.workspaces user))
    (h : linkList probe token sub s = .ok (.json v)) (hlisted : Listed v relPath isDir) :
    LeadsBack s (fResolveLinkAccess s.db token) sub relPath isDir := by
  unfold linkList at h
  cases ha : fResolveLinkAccess s.db token sub with
  | error e => simp [ha, bind, Except.bind] at h
  | ok a =>
      simp only [ha, bind, Except.bind] at h
      obtain ⟨row, hrow, _, _, _, _, hpath⟩ := fResolveLinkAccess_ok ha
      have hfixed := (fEffectivePath_ok (hdb.links row hrow) hpath).1
      obtain ⟨hdir, t, ht, rfl, hkind⟩ := listed_through hs hfixed h hlisted
      refine ⟨a, { a with relPath := keyOf (pathOf a.relPath ++ t) }, t, ha, ?_, rfl, ht, rfl, rfl,
        hkind⟩
      unfold fResolveLinkAccess at ha ⊢
      cases hload : fLoadLink s.db token with
      | error e => simp [hload] at ha
      | ok row =>
          simp only [hload] at ha ⊢
          have hrowdir : row.isDir = true := by
            rw [← (access_ok ha).2.1, hdir]
          rw [hrowdir] at ha ⊢
          exact access_behind (hdb.links row (fLoadLink_ok hload).1) ha ht

/-- **Confinement and one key per file.**  In every reachable server a shared
root and a sub path join to a key at or below the root or are refused; every
way to a file uses the key of its path; and every listed row leads back through
the share or link it was listed by. -/
theorem one_key_per_file (cfg : Config) (s : Server) (hs : Reachable cfg s) :
    (∀ root isDir sub message, fSafeRelPath root = .ok root →
      (∃ e, fEffectivePath root isDir sub message = .error e) ∨
        ∃ k, fEffectivePath root isDir sub message = .ok k ∧ Confined root isDir k) ∧
    (∀ caller route owner p, Route.Opens s.db caller route owner p →
      OneKey s.db caller route owner p) ∧
    (∀ caller share sub v relPath isDir, sharedList cfg.probe caller share sub s = .ok (.json v) →
      Listed v relPath isDir →
      LeadsBack s (fun sub => sharedAccess caller share sub s) sub relPath isDir) ∧
    ∀ token sub v relPath isDir, linkList cfg.probe token sub s = .ok (.json v) →
      Listed v relPath isDir →
      LeadsBack s (fResolveLinkAccess s.db token) sub relPath isDir := by
  obtain ⟨hdb, hsound⟩ := reachable_inv hs
  refine ⟨?_, ?_, ?_, ?_⟩
  · intro root isDir sub message hroot
    cases h : fEffectivePath root isDir sub message with
    | error e => exact Or.inl ⟨e, rfl⟩
    | ok k => exact Or.inr ⟨k, rfl, confined_fEffectivePath hroot h⟩
  · intro caller route owner p h
    exact oneKey_of_opens hdb h
  · intro caller share sub v relPath isDir h hlisted
    exact leadsBack_share hdb hsound h hlisted
  · intro token sub v relPath isDir h hlisted
    exact leadsBack_link hdb hsound h hlisted

/-- Bob opens Ann's file through the shared folder. -/
theorem one_key_per_file_sharedDocs :
    OneKey sharedDocs.db (some (str "bob")) (.share (str "s1") (str "./x.mdp")) (str "ann")
      [str "docs", str "x.mdp"] :=
  (one_key_per_file plainConfig sharedDocs reachable_sharedDocs).2.1 _ _ _ _
    (Or.inr ⟨⟨str "ann", str "docs/x.mdp", true, .edit⟩,
      ⟨by decide, str "bob", rfl, by rfl⟩, rfl, by rfl⟩)

end Lectern
