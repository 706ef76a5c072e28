import Lectern.Authorization

/-!
# What a request can learn

`Unseen` says that a server's comments and workspaces are exchanged for others
without touching anything the caller has a claim to; `answer_unseen` says that
the caller gets the same answer.  `foreign_share` compares a share id in the
wrong hands with one that is not there.
-/

namespace Lectern

open FileTree

/-- The same server with other comments and other workspaces. -/
def Server.swap (s : Server) (comments : List CommentRow) (workspaces : Str → Workspace) : Server :=
  { s with db := { s.db with comments := comments }, workspaces := workspaces }

def inThread (owner key : Str) (row : CommentRow) : Bool := row.ownerId = owner ∧ row.relPath = key

def hasId (id : Str) (row : CommentRow) : Bool := row.id = id

/-- What a caller may delete. -/
def deletable (user id : Str) (row : CommentRow) : Bool :=
  row.id = id ∧ (row.authorId = some user ∨ row.ownerId = user)

/-- Nothing the caller has a claim to is exchanged: not its own workspace, not
what lies at or below a presented root, no thread it may read, no comment it
may delete.  Which comment ids are taken is no secret. -/
structure Unseen (s : Server) (caller : Option Str) (req : ShareRequest)
    (comments : List CommentRow) (workspaces : Str → Workspace) : Prop where
  own : ∀ o, caller = some o → workspaces o = s.workspaces o
  granted : ∀ g, Presents s.db caller req g →
    (workspaces g.ownerId).root.get? (pathOf g.relPath) =
      (s.workspaces g.ownerId).root.get? (pathOf g.relPath)
  threads : ∀ o k, Claim s.db caller req o k →
    comments.filter (inThread o k) = s.db.comments.filter (inThread o k)
  ids : ∀ id, comments.any (hasId id) = s.db.comments.any (hasId id)
  mine : ∀ user id, caller = some user →
    comments.any (deletable user id) = s.db.comments.any (deletable user id)

variable {s : Server} {caller : Option Str} {req : ShareRequest} {comments : List CommentRow}
  {workspaces : Str → Workspace}

/-- What the caller has a claim to looks the same. -/
theorem Unseen.get?_eq (h : Unseen s caller req comments workspaces) {owner key : Str}
    (hclaim : Claim s.db caller req owner key) :
    (workspaces owner).root.get? (pathOf key) = (s.workspaces owner).root.get? (pathOf key) := by
  rcases hclaim with hown | ⟨g, hpresents, rfl, hcovers⟩
  · rw [h.own owner hown]
  · have hroot := h.granted g hpresents
    rcases hcovers with rfl | ⟨_, t, _, hpath⟩
    · exact hroot
    · rw [hpath]
      have happend (w : Workspace) : w.root.get? (pathOf g.relPath ++ t) =
          (w.root.get? (pathOf g.relPath)).bind (fun x => x.get? t) :=
        Node.get?_append (.dir w.root.root) _ t
      rw [happend, happend, hroot]

theorem Unseen.entryAt_eq (h : Unseen s caller req comments workspaces) {owner key : Str}
    (hclaim : Claim s.db caller req owner key) :
    (workspaces owner).root.entryAt (pathOf key) = (s.workspaces owner).root.entryAt (pathOf key) :=
  congrArg (Option.map Node.entry) (h.get?_eq hclaim)

/-! ## Behind an access -/

theorem readThrough_unseen (h : Unseen s caller req comments workspaces) {a : Access}
    (ha : fSafeRelPath a.relPath = .ok a.relPath)
    (hclaim : Claim s.db caller req a.ownerId a.relPath) :
    readThrough (s.swap comments workspaces) a = readThrough s a := by
  have hat := h.entryAt_eq hclaim
  unfold readThrough fReadThrough fOwnerFullPath fReadFile
  simp only [ha, Server.swap, hat]

theorem statThrough_unseen (probe : Probe) (h : Unseen s caller req comments workspaces)
    {a : Access} (ha : fSafeRelPath a.relPath = .ok a.relPath)
    (hclaim : Claim s.db caller req a.ownerId a.relPath) :
    statThrough probe (s.swap comments workspaces) a = statThrough probe s a := by
  have hfile : (workspaces a.ownerId).root.fileAt (pathOf a.relPath) =
      (s.workspaces a.ownerId).root.fileAt (pathOf a.relPath) :=
    Tree.fileAt_congr (h.entryAt_eq hclaim)
  unfold statThrough fOwnerFullPath fStatFile
  simp only [ha, Server.swap, hfile]

theorem listThrough_unseen (probe : Probe) (message : Str)
    (h : Unseen s caller req comments workspaces)
    {a : Access} (ha : fSafeRelPath a.relPath = .ok a.relPath)
    (hclaim : Claim s.db caller req a.ownerId a.relPath) :
    listThrough probe message (s.swap comments workspaces) a = listThrough probe message s a := by
  have hget := h.get?_eq hclaim
  unfold listThrough fOwnerFullPath
  simp only [ha, Server.swap, hget]

theorem entryExists_unseen (h : Unseen s caller req comments workspaces) {owner key : Str}
    (hkey : fSafeRelPath key = .ok key) (hclaim : Claim s.db caller req owner key)
    (isDir : Bool) :
    entryExists (s.swap comments workspaces) owner key isDir = entryExists s owner key isDir := by
  have hat := h.entryAt_eq hclaim
  unfold entryExists fOwnerFullPath isDirectory isRegularFile
  simp only [hkey, Server.swap, bind, Except.bind, hat]

/-- A resolved access is one the caller has a claim to. -/
theorem claim_of_presents {db : Db} {a : Access} (h : Presented db caller req a) :
    Claim db caller req a.ownerId a.relPath := by
  obtain ⟨_, g, hpresents, howner, hcovers, _⟩ := h
  exact Or.inr ⟨g, hpresents, howner, hcovers⟩

/-- An endpoint that resolves a link and looks behind it. -/
theorem link_unseen (hdb : StoredPaths s.db) {token sub : Str} (hreq : req.CarriesLink token)
    {look : Server → Access → Response}
    (hlook : ∀ a, fSafeRelPath a.relPath = .ok a.relPath →
      Claim s.db caller req a.ownerId a.relPath →
      look (s.swap comments workspaces) a = look s a) :
    (fResolveLinkAccess (s.swap comments workspaces).db token sub >>=
        look (s.swap comments workspaces)) =
      (fResolveLinkAccess s.db token sub >>= look s) := by
  have hsame : fResolveLinkAccess (s.swap comments workspaces).db token sub =
      fResolveLinkAccess s.db token sub := rfl
  rw [hsame]
  cases hres : fResolveLinkAccess s.db token sub with
  | error e => rfl
  | ok a =>
      have hpresents : Presented s.db caller req a := presents_link hdb hreq hres
      exact hlook a hpresents.1 (claim_of_presents hpresents)

/-- An endpoint that resolves a share and looks behind it. -/
theorem share_unseen (hdb : StoredPaths s.db) {share sub : Str} (hreq : req.CarriesShare share)
    {look : Server → Access → Response}
    (hlook : ∀ a, fSafeRelPath a.relPath = .ok a.relPath →
      Claim s.db caller req a.ownerId a.relPath →
      look (s.swap comments workspaces) a = look s a) :
    (sharedAccess caller share sub (s.swap comments workspaces) >>=
        look (s.swap comments workspaces)) =
      (sharedAccess caller share sub s >>= look s) := by
  have hsame : sharedAccess caller share sub (s.swap comments workspaces) =
      sharedAccess caller share sub s := rfl
  rw [hsame]
  cases hres : sharedAccess caller share sub s with
  | error e => rfl
  | ok a =>
      obtain ⟨user, hcaller, _, hresolve⟩ := sharedAccess_ok hres
      have hpresents := presents_share hdb hcaller hreq hresolve
      exact hlook a hpresents.1 (claim_of_presents hpresents)

/-! ## The owner's endpoints -/

theorem newEntry_unseen (h : Unseen s caller req comments workspaces) {user : Str}
    (hcaller : caller = some user) (body : Json) :
    newEntry (s.swap comments workspaces) user body = newEntry s user body := by
  unfold newEntry
  simp only [Server.swap, h.own user hcaller]

theorem upsertShare_swap (db : Db) (row : ShareRow) (comments : List CommentRow) :
    upsertShare { db with comments := comments } row =
      (upsertShare db row).map (fun db => { db with comments := comments }) := by
  unfold upsertShare
  dsimp only
  split
  · rfl
  · split <;> rfl

theorem postShares_unseen (h : Unseen s caller req comments workspaces) (body : Json) (id : Str)
    (now : Int) :
    (postShares caller body id now (s.swap comments workspaces)).2 =
      (postShares caller body id now s).2 := by
  cases hcaller : caller with
  | none => rfl
  | some user =>
      have hentry := newEntry_unseen h hcaller body
      have hswap (row : ShareRow) : upsertShare (s.swap comments workspaces).db row =
          (upsertShare s.db row).map (fun db => { db with comments := comments }) :=
        upsertShare_swap s.db row comments
      have husers : (s.swap comments workspaces).db.users = s.db.users := rfl
      unfold postShares
      simp only [fCurrentUser, bind, Except.bind, hentry, hswap, husers]
      split
      · rfl
      · rename_i ownerId perm rel isDir grantee _
        cases upsertShare s.db ⟨id, ownerId, grantee.id, rel, isDir, fPermStr perm, now⟩ with
        | error e => rfl
        | ok db => rfl

theorem postLinks_unseen (h : Unseen s caller req comments workspaces) (body : Json) (id : Str)
    (now : Int) :
    (postLinks caller body id now (s.swap comments workspaces)).2 =
      (postLinks caller body id now s).2 := by
  cases hcaller : caller with
  | none => rfl
  | some user =>
      have hentry := newEntry_unseen h hcaller body
      have hlinks : (s.swap comments workspaces).db.links = s.db.links := rfl
      unfold postLinks
      simp only [fCurrentUser, bind, Except.bind, hentry, hlinks]
      split
      · rfl
      · split <;> rfl

/-! ## The overview -/

theorem mapM_congr {α β ε : Type} {f g : α → Except ε β} {xs : List α}
    (h : ∀ x ∈ xs, f x = g x) : xs.mapM f = xs.mapM g := by
  induction xs with
  | nil => rfl
  | cons x xs ih =>
      rw [List.mapM_cons, List.mapM_cons, h x List.mem_cons_self,
        ih (fun y hy => h y (List.mem_cons_of_mem _ hy))]

theorem mem_joinEmail {α : Type} {db : Db} {userOf : α → Str} {rows : List α} {row : α}
    {email : Str} (h : (row, email) ∈ joinEmail db userOf rows) : row ∈ rows := by
  obtain ⟨row', hmem, hsome⟩ := List.mem_filterMap.mp h
  obtain ⟨_, _, heq⟩ := Option.map_eq_some_iff.mp hsome
  cases heq
  exact hmem

/-- The shares of an account are grants it presents. -/
theorem claim_of_overview {db : Db} {user : Str} {row : ShareRow}
    (hrow : row ∈ db.shares.filter (fun row => row.granteeId = user)) :
    row ∈ db.shares ∧ Claim db (some user) .shared row.ownerId row.relPath := by
  obtain ⟨hmem, hgrantee⟩ := List.mem_filter.mp hrow
  have hgrantee : row.granteeId = user := by simpa using hgrantee
  refine ⟨hmem, Or.inr ⟨row.grant, Or.inl ⟨row.id, trivial, row, hmem, rfl, ?_, rfl⟩, rfl,
    Or.inl rfl⟩⟩
  rw [hgrantee]

theorem shared_unseen (hdb : StoredPaths s.db)
    (h : Unseen s caller .shared comments workspaces) :
    shared caller (s.swap comments workspaces) = shared caller s := by
  cases hcaller : caller with
  | none => rfl
  | some user =>
      rw [hcaller] at h
      have hrows : joinEmail (s.swap comments workspaces).db ShareRow.ownerId
          ((s.swap comments workspaces).db.shares.filter (fun row => row.granteeId = user)) =
          joinEmail s.db ShareRow.ownerId
            (s.db.shares.filter (fun row => row.granteeId = user)) := rfl
      unfold shared
      simp only [fCurrentUser, bind, Except.bind, hrows]
      rw [mapM_congr]
      rintro ⟨row, email⟩ hentry
      have hjoined := mem_joinEmail (List.mem_mergeSort.mp (List.mem_mergeSort.mp hentry))
      obtain ⟨hrow, hclaim⟩ := claim_of_overview hjoined
      dsimp only
      rw [entryExists_unseen h (hdb.shares row hrow) hclaim]

/-! ## Links -/

theorem linkInfo_unseen (hdb : StoredPaths s.db) {token : Str}
    (h : Unseen s caller (.linkInfo token) comments workspaces) :
    linkInfo token (s.swap comments workspaces) = linkInfo token s := by
  have hload : fLoadLink (s.swap comments workspaces).db token = fLoadLink s.db token := rfl
  have hemail (user : Str) : emailOf (s.swap comments workspaces).db user = emailOf s.db user := rfl
  unfold linkInfo
  rw [hload]
  cases hlink : fLoadLink s.db token with
  | error e => rfl
  | ok row =>
      obtain ⟨hrow, hid⟩ := fLoadLink_ok hlink
      have hclaim : Claim s.db caller (.linkInfo token) row.ownerId row.relPath :=
        Or.inr ⟨row.grant, Or.inr ⟨token, rfl, row, hrow, hid, rfl⟩, rfl, Or.inl rfl⟩
      simp only [bind, Except.bind, hemail]
      rw [entryExists_unseen h (hdb.links row hrow) hclaim]

/-! ## Comments -/

/-- The target of a comments request does not depend on what was exchanged. -/
theorem fResolveCommentTarget_swap (s : Server) (comments : List CommentRow)
    (workspaces : Str → Workspace) (caller : Option Str) (target : CommentTarget) (need : Perm) :
    fResolveCommentTarget (s.swap comments workspaces).db caller target need =
      fResolveCommentTarget s.db caller target need := rfl

theorem claim_of_target {target : CommentTarget} {need : Perm} {owner key : Str}
    (hdb : StoredPaths s.db) (hshare : req.CarriesShare target.share)
    (hlink : req.CarriesLink target.link)
    (h : fResolveCommentTarget s.db caller target need = .ok (owner, key)) :
    fSafeRelPath key = .ok key ∧ Claim s.db caller req owner key := by
  obtain ⟨hkey, hclaim⟩ := fResolveCommentTarget_ok hdb hshare hlink h
  refine ⟨hkey, ?_⟩
  rcases hclaim with hown | ⟨g, hpresents, howner, hcovers, _⟩
  · exact Or.inl hown
  · exact Or.inr ⟨g, hpresents, howner, hcovers⟩

theorem commentThread_unseen (h : Unseen s caller req comments workspaces) {owner key : Str}
    (hclaim : Claim s.db caller req owner key) :
    commentThread (s.swap comments workspaces).db caller owner key =
      commentThread s.db caller owner key := by
  have hthread : comments.filter (fun row => row.ownerId = owner ∧ row.relPath = key) =
      s.db.comments.filter (fun row => row.ownerId = owner ∧ row.relPath = key) :=
    h.threads owner key hclaim
  have hemail (user : Str) : emailOf (s.swap comments workspaces).db user = emailOf s.db user := rfl
  have hcomments : (s.swap comments workspaces).db.comments = comments := rfl
  unfold commentThread
  simp only [hcomments, hthread]
  rfl

theorem getComments_unseen (hdb : StoredPaths s.db) {target : CommentTarget}
    (h : Unseen s caller (.getComments target) comments workspaces) :
    getComments caller target (s.swap comments workspaces) = getComments caller target s := by
  unfold getComments
  rw [fResolveCommentTarget_swap]
  cases hres : fResolveCommentTarget s.db caller target .view with
  | error e => rfl
  | ok found =>
      obtain ⟨owner, key⟩ := found
      have hshare : (ShareRequest.getComments target).CarriesShare target.share := rfl
      have hclaim := claim_of_target hdb hshare rfl hres
      simp only [bind, Except.bind, commentThread_unseen h hclaim.2]

theorem checkComment_unseen (hdb : StoredPaths s.db) {body : Json}
    (h : Unseen s caller req comments workspaces)
    (hshare : req.CarriesShare (fTargetFromBody body).share)
    (hlink : req.CarriesLink (fTargetFromBody body).link) :
    checkComment caller body (s.swap comments workspaces) = checkComment caller body s := by
  unfold checkComment
  rw [fResolveCommentTarget_swap]
  cases hres : fResolveCommentTarget s.db caller (fTargetFromBody body) .comment with
  | error e => rfl
  | ok found =>
      obtain ⟨owner, key⟩ := found
      obtain ⟨hkey, hclaim⟩ := claim_of_target hdb hshare hlink hres
      have hat := h.entryAt_eq hclaim
      have hregular : isRegularFile (workspaces owner).root (pathOf key) =
          isRegularFile (s.workspaces owner).root (pathOf key) := by
        unfold isRegularFile
        rw [hat]
      have hfull : fOwnerFullPath key = .ok (pathOf key) := by
        unfold fOwnerFullPath
        rw [hkey]
      have hworkspaces : (s.swap comments workspaces).workspaces = workspaces := rfl
      simp only [bind, Except.bind, hfull, hworkspaces, hregular]

/-- Two servers answer a new comment alike when its checks come out alike. -/
theorem postComments_congr {s s' : Server} {body : Json} {ip id : Str} {tick now : Int}
    (hlimiter : s'.authLimiter = s.authLimiter)
    (husers : s'.db.users = s.db.users)
    (htaken : s'.db.comments.any (hasId id) = s.db.comments.any (hasId id))
    (hcheck : checkComment caller body s' = checkComment caller body s) :
    (postComments caller body ip id tick now s').2 =
      (postComments caller body ip id tick now s).2 := by
  have htaken' : s'.db.comments.any (fun row => decide (row.id = id)) =
      s.db.comments.any (fun row => decide (row.id = id)) := htaken
  have hemail : emailOf s'.db = emailOf s.db := by
    funext user
    unfold emailOf
    rw [husers]
  unfold postComments
  cases hobject : fJsonBody body with
  | error e => rfl
  | ok fields =>
      obtain rfl := fJsonBody_ok hobject
      dsimp only
      rw [hlimiter]
      by_cases hlimited : caller = none ∧ s.authLimiter.fIsLimited ip (str "anon-comment")
          cCommentLimit cCommentWindow tick
      · rw [if_pos hlimited, if_pos hlimited]
      · rw [if_neg hlimited, if_neg hlimited]
        -- An anonymous attempt is counted first; the checks do not look at the count.
        have hcounted (limiter : RateLimiter) :
            checkComment caller fields { s' with authLimiter := limiter } =
              checkComment caller fields { s with authLimiter := limiter } := hcheck
        by_cases hnone : caller = none
        · rw [if_pos hnone, if_pos hnone, hcounted]
          split
          · rfl
          · dsimp only
            rw [htaken', hemail]
            split <;> rfl
        · rw [if_neg hnone, if_neg hnone, hcheck]
          split
          · rfl
          · rw [htaken', hemail]
            split <;> rfl

theorem postComments_unseen (hdb : StoredPaths s.db) {body : Json} {ip id : Str} {tick now : Int}
    (h : Unseen s caller (.postComments body ip id tick now) comments workspaces) :
    (postComments caller body ip id tick now (s.swap comments workspaces)).2 =
      (postComments caller body ip id tick now s).2 :=
  postComments_congr rfl rfl (h.ids id) (checkComment_unseen hdb h rfl rfl)

theorem deleteComment_unseen (h : Unseen s caller req comments workspaces) (id : Str) :
    (deleteComment caller id (s.swap comments workspaces)).2 = (deleteComment caller id s).2 := by
  cases hcaller : caller with
  | none => rfl
  | some user =>
      have hmine : comments.any (fun row =>
            row.id = id ∧ (row.authorId = some user ∨ row.ownerId = user)) =
          s.db.comments.any (fun row =>
            row.id = id ∧ (row.authorId = some user ∨ row.ownerId = user)) :=
        h.mine user id hcaller
      have hcomments : (s.swap comments workspaces).db.comments = comments := rfl
      unfold deleteComment
      simp only [fCurrentUser, hcomments, hmine]
      split <;> rfl

/-! ## All endpoints -/

/-- **A request learns nothing about what its caller has no claim to.**  A PUT
is left out: its quota check counts the bytes of the whole workspace. -/
theorem answer_unseen {cfg : Config} (hdb : StoredPaths s.db) (hput : req.isPut = false)
    (h : Unseen s caller req comments workspaces) :
    (handle cfg caller req (s.swap comments workspaces)).2 = (handle cfg caller req s).2 := by
  cases req with
  | getShares path => rfl
  | postShares body id now => exact postShares_unseen h body id now
  | deleteShare shareId =>
      have hshares : (s.swap comments workspaces).db.shares = s.db.shares := rfl
      unfold handle deleteShare
      rw [hshares]
      dsimp only
      split
      · rfl
      · split <;> rfl
  | getLinks path => rfl
  | postLinks body id now => exact postLinks_unseen h body id now
  | deleteLink linkId =>
      have hlinks : (s.swap comments workspaces).db.links = s.db.links := rfl
      unfold handle deleteLink
      rw [hlinks]
      dsimp only
      split
      · rfl
      · split <;> rfl
  | linkInfo token => exact linkInfo_unseen hdb h
  | linkList token path =>
      have hreq : (ShareRequest.linkList token path).CarriesLink token := rfl
      exact link_unseen hdb hreq (fun a ha hclaim => listThrough_unseen _ _ h ha hclaim)
  | getLinkFile token path =>
      have hreq : (ShareRequest.getLinkFile token path).CarriesLink token := rfl
      exact link_unseen hdb hreq (fun a ha hclaim => readThrough_unseen h ha hclaim)
  | putLinkFile token path content hex => cases hput
  | linkStat token path =>
      have hreq : (ShareRequest.linkStat token path).CarriesLink token := rfl
      exact link_unseen hdb hreq (fun a ha hclaim => statThrough_unseen _ h ha hclaim)
  | shared => exact shared_unseen hdb h
  | sharedList share path =>
      have hreq : (ShareRequest.sharedList share path).CarriesShare share := rfl
      exact share_unseen hdb hreq (fun a ha hclaim => listThrough_unseen _ _ h ha hclaim)
  | getSharedFile share path =>
      have hreq : (ShareRequest.getSharedFile share path).CarriesShare share := rfl
      exact share_unseen hdb hreq (fun a ha hclaim => readThrough_unseen h ha hclaim)
  | putSharedFile share path content hex => cases hput
  | sharedStat share path =>
      have hreq : (ShareRequest.sharedStat share path).CarriesShare share := rfl
      exact share_unseen hdb hreq (fun a ha hclaim => statThrough_unseen _ h ha hclaim)
  | getComments target => exact getComments_unseen hdb h
  | postComments body ip id tick now => exact postComments_unseen hdb h
  | deleteComment commentId => exact deleteComment_unseen h commentId

/-- A successful PUT answers with an empty body. -/
theorem answer_put {cfg : Config} (hput : req.isPut = true) {body : Body}
    (h : (handle cfg caller req s).2 = .ok body) : body = .empty := by
  have hwrite {content hex : Str} {a : Access}
      (h : (writeThrough cfg.limits content hex s a).2 = .ok body) : body = .empty := by
    unfold writeThrough at h
    split at h
    · cases h
    · cases h
      rfl
  cases req with
  | putLinkFile token path content hex =>
      unfold handle putLinkFile at h
      dsimp only at h
      split at h
      · cases h
      · exact hwrite h
  | putSharedFile share path content hex =>
      unfold handle putSharedFile at h
      dsimp only at h
      split at h
      · cases h
      · exact hwrite h
  | _ => cases hput

/-! ## A share id in the wrong hands -/

/-- The same server without the rows of one share id. -/
def Server.withoutShare (s : Server) (id : Str) : Server :=
  { s with db := { s.db with shares := s.db.shares.filter (fun row => row.id ≠ id) } }

theorem fResolveShareAccess_foreign {user id : Str}
    (h : ∀ row ∈ s.db.shares, row.id = id → row.granteeId ≠ user) (sub : Str) :
    fResolveShareAccess s.db user id sub = .error .fNotFound := by
  unfold fResolveShareAccess
  cases hload : fLoadShare s.db id with
  | error e =>
      unfold fLoadShare at hload
      split at hload
      · cases hload
      · cases hload
        rfl
  | ok row =>
      obtain ⟨hrow, hid⟩ := fLoadShare_ok hload
      dsimp only
      rw [if_pos (h row hrow hid)]

/-- A foreign share id and one that is not there resolve alike. -/
theorem fResolveShareAccess_withoutShare {user id : Str}
    (h : ∀ row ∈ s.db.shares, row.id = id → row.granteeId ≠ user) (sub : Str) :
    fResolveShareAccess (s.withoutShare id).db user id sub =
      fResolveShareAccess s.db user id sub := by
  rw [fResolveShareAccess_foreign h, fResolveShareAccess_foreign]
  intro row hrow hid
  obtain ⟨_, hkept⟩ := List.mem_filter.mp hrow
  exact absurd hid (by simpa using hkept)

theorem sharedAccess_withoutShare {id : Str}
    (h : ∀ row ∈ s.db.shares, row.id = id → caller ≠ some row.granteeId) (sub : Str) :
    sharedAccess caller id sub (s.withoutShare id) = sharedAccess caller id sub s := by
  cases hcaller : caller with
  | none => rfl
  | some user =>
      have hforeign : ∀ row ∈ s.db.shares, row.id = id → row.granteeId ≠ user := by
        intro row hrow hid hgrantee
        exact h row hrow hid (by rw [hcaller, hgrantee])
      unfold sharedAccess fRequiredQuery
      by_cases hid : id = []
      · simp only [fCurrentUser, bind, Except.bind, if_pos hid]
      · simp only [fCurrentUser, bind, Except.bind, if_neg hid,
          fResolveShareAccess_withoutShare hforeign]

theorem fResolveCommentTarget_withoutShare {target : CommentTarget}
    (h : ∀ row ∈ s.db.shares, row.id = target.share → caller ≠ some row.granteeId) (need : Perm) :
    fResolveCommentTarget (s.withoutShare target.share).db caller target need =
      fResolveCommentTarget s.db caller target need := by
  unfold fResolveCommentTarget
  by_cases hlink : target.link ≠ []
  · rw [if_pos hlink, if_pos hlink]
    rfl
  · rw [if_neg hlink, if_neg hlink]
    cases hcaller : caller with
    | none => rfl
    | some user =>
        have hforeign : ∀ row ∈ s.db.shares, row.id = target.share → row.granteeId ≠ user := by
          intro row hrow hid hgrantee
          exact h row hrow hid (by rw [hcaller, hgrantee])
        dsimp only
        rw [fResolveShareAccess_withoutShare hforeign]

/-- A write behind an access does not look at the share table. -/
theorem writeThrough_withoutShare (limits : Limits) (content hex id : Str) (a : Access) :
    (writeThrough limits content hex s a).2 =
      (writeThrough limits content hex (s.withoutShare id) a).2 := by
  have hworkspaces : (s.withoutShare id).workspaces = s.workspaces := rfl
  unfold writeThrough
  rw [hworkspaces]
  split <;> rfl

theorem checkComment_withoutShare {body : Json}
    (h : ∀ row ∈ s.db.shares, row.id = (fTargetFromBody body).share →
      caller ≠ some row.granteeId) :
    checkComment caller body (s.withoutShare (fTargetFromBody body).share) =
      checkComment caller body s := by
  unfold checkComment
  rw [fResolveCommentTarget_withoutShare h]
  rfl

/-- **A share id in the wrong hands** is answered like one that is not there. -/
theorem foreign_share {cfg : Config} {id : Str} (hreq : req.CarriesShare id)
    (hshared : req ≠ .shared)
    (h : ∀ row ∈ s.db.shares, row.id = id → caller ≠ some row.granteeId) :
    (handle cfg caller req s).2 = (handle cfg caller req (s.withoutShare id)).2 := by
  cases req with
  | shared => exact absurd rfl hshared
  | sharedList share path =>
      cases hreq
      have hsame := sharedAccess_withoutShare h path
      unfold handle
      dsimp only
      unfold sharedList
      rw [hsame]
      rfl
  | getSharedFile share path =>
      cases hreq
      have hsame := sharedAccess_withoutShare h path
      unfold handle
      dsimp only
      unfold getSharedFile
      rw [hsame]
      rfl
  | putSharedFile share path content hex =>
      cases hreq
      have hsame := sharedAccess_withoutShare h path
      unfold handle
      dsimp only
      unfold putSharedFile
      rw [hsame]
      split
      · rfl
      · exact writeThrough_withoutShare _ _ _ _ _
  | sharedStat share path =>
      cases hreq
      have hsame := sharedAccess_withoutShare h path
      unfold handle
      dsimp only
      unfold sharedStat
      rw [hsame]
      rfl
  | getComments target =>
      cases hreq
      have hsame := fResolveCommentTarget_withoutShare h .view
      unfold handle
      dsimp only
      unfold getComments
      rw [hsame]
      rfl
  | postComments body ip id' tick now =>
      cases hreq
      have hcheck := checkComment_withoutShare h
      symm
      apply postComments_congr
      · rfl
      · rfl
      · rfl
      · exact hcheck
  | _ => exact hreq.elim

/-! ## The law -/

/-- **Authorization of shared access**, for every reachable server, caller and
request: changed bytes come from a presented edit grant on the changed path; a
new comment is the caller's, on its own file or under a presented comment or
edit grant; what the caller has no claim to does not show in the answer; and a
share id in the wrong hands is answered like one that is not there. -/
theorem shared_access_authorized (cfg : Config) (s : Server) (hs : Reachable cfg s)
    (caller : Option Str) (req : ShareRequest) :
    (∀ o p, (((handle cfg caller req s).1.workspaces o).root.fileAt p ≠
        (s.workspaces o).root.fileAt p) → MayWrite s caller req o p) ∧
    (∀ row ∈ (handle cfg caller req s).1.db.comments, row ∉ s.db.comments →
      MayComment s caller req row) ∧
    (∀ comments workspaces, req.isPut = false → Unseen s caller req comments workspaces →
      (handle cfg caller req (s.swap comments workspaces)).2 = (handle cfg caller req s).2) ∧
    (∀ body, req.isPut = true → (handle cfg caller req s).2 = .ok body → body = .empty) ∧
    (∀ id, req.CarriesShare id → req ≠ .shared →
      (∀ row ∈ s.db.shares, row.id = id → caller ≠ some row.granteeId) →
      (handle cfg caller req s).2 = (handle cfg caller req (s.withoutShare id)).2) := by
  have hdb := (reachable_inv hs).1
  have heffect := effect_of cfg caller req s
  refine ⟨?_, ?_, ?_, ?_, ?_⟩
  · intro o p hchanged
    exact mayWrite_of_effect hdb heffect hchanged
  · intro row hrow hnew
    exact mayComment_of_effect hdb heffect hrow hnew
  · intro comments workspaces hput hunseen
    exact answer_unseen hdb hput hunseen
  · intro body hput hanswer
    exact answer_put hput hanswer
  · intro id hreq hshared hforeign
    exact foreign_share hreq hshared hforeign

/-- Bob writes the file Ann shares with him; the law speaks about that change. -/
theorem shared_access_authorized_sharedDocs :
    let req := ShareRequest.putSharedFile (str "s1") (str "x.mdp") (str "two") (str "00")
    MayWrite sharedDocs (some (str "bob")) req (str "ann") [str "docs", str "x.mdp"] := by
  have hlaw := shared_access_authorized plainConfig sharedDocs reachable_sharedDocs
    (some (str "bob")) (.putSharedFile (str "s1") (str "x.mdp") (str "two") (str "00"))
  apply hlaw.1
  decide

end Lectern
