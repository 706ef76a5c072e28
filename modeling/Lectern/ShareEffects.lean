import Lectern.ShareTables

/-!
# What a share, link or comment request changes

`Effect` lists what the endpoints can do to the server, with the checks that
were passed on the way; `effect_of` shows that nothing else happens.  The
invariants of reachable servers and the authorization law are case analyses
over it.
-/

namespace Lectern

open FileTree

/-- What a request leaves behind. -/
inductive Effect (cfg : Config) (caller : Option Str) (s : Server) : ShareRequest → Server → Prop
  | nothing (req : ShareRequest) : Effect cfg caller s req s
  | share (body : Json) (id : Str) (now : Int) (row : ShareRow) (db : Db)
      (howner : caller = some row.ownerId)
      (hpath : fSafeRelPath row.relPath = .ok row.relPath)
      (hdb : upsertShare s.db row = .ok db) :
      Effect cfg caller s (.postShares body id now) { s with db := db }
  | unshare (shareId : Str) (kept : ShareRow → Bool) :
      Effect cfg caller s (.deleteShare shareId)
        { s with db := { s.db with shares := s.db.shares.filter kept } }
  | link (body : Json) (id : Str) (now : Int) (row : LinkRow)
      (howner : caller = some row.ownerId)
      (hpath : fSafeRelPath row.relPath = .ok row.relPath) :
      Effect cfg caller s (.postLinks body id now)
        { s with db := { s.db with links := s.db.links ++ [row] } }
  | unlink (linkId : Str) (kept : LinkRow → Bool) :
      Effect cfg caller s (.deleteLink linkId)
        { s with db := { s.db with links := s.db.links.filter kept } }
  | writeLink (token path content hex : Str) (a : Access)
      (ha : fResolveLinkAccess s.db token path = .ok a) :
      Effect cfg caller s (.putLinkFile token path content hex)
        (s.setWorkspace a.ownerId
          (fWriteThrough cfg.limits a content hex (s.workspaces a.ownerId)).1)
  | writeShare (share path content hex user : Str) (a : Access) (hcaller : caller = some user)
      (ha : fResolveShareAccess s.db user share path = .ok a) :
      Effect cfg caller s (.putSharedFile share path content hex)
        (s.setWorkspace a.ownerId
          (fWriteThrough cfg.limits a content hex (s.workspaces a.ownerId)).1)
  | count (body : Json) (ip id : Str) (tick now : Int) (limiter : RateLimiter) :
      Effect cfg caller s (.postComments body ip id tick now) { s with authLimiter := limiter }
  | comment (body : Json) (ip id : Str) (tick now : Int) (limiter : RateLimiter)
      (new : NewComment) (hnew : checkComment caller body s = .ok new) :
      Effect cfg caller s (.postComments body ip id tick now)
        { s with authLimiter := limiter, db := { s.db with comments := s.db.comments ++
          [⟨id, new.ownerId, new.relPath, caller, new.text, now, new.anchor⟩] } }
  | uncomment (commentId : Str) (kept : CommentRow → Bool) :
      Effect cfg caller s (.deleteComment commentId)
        { s with db := { s.db with comments := s.db.comments.filter kept } }

/-! ## Nothing else happens -/

theorem fCurrentUser_ok {caller : Option Str} {user : Str} (h : fCurrentUser caller = .ok user) :
    caller = some user := by
  unfold fCurrentUser at h
  split at h
  · cases h
    rfl
  · cases h

theorem sharedAccess_ok {caller : Option Str} {share path : Str} {s : Server} {a : Access}
    (h : sharedAccess caller share path s = .ok a) :
    ∃ user, caller = some user ∧ share ≠ [] ∧ fResolveShareAccess s.db user share path = .ok a := by
  unfold sharedAccess at h
  cases huser : fCurrentUser caller with
  | error e => simp [huser, bind, Except.bind] at h
  | ok user =>
      unfold fRequiredQuery at h
      by_cases hshare : share = []
      · simp [huser, hshare, bind, Except.bind] at h
      · simp only [huser, hshare, if_false, bind, Except.bind] at h
        exact ⟨user, fCurrentUser_ok huser, hshare, h⟩

theorem effect_postShares (cfg : Config) (caller : Option Str) (body : Json) (id : Str) (now : Int)
    (s : Server) :
    Effect cfg caller s (.postShares body id now) (postShares caller body id now s).1 := by
  unfold postShares
  dsimp only
  split
  · exact .nothing _
  · rename_i ownerId perm rel isDir grantee hchecked
    cases huser : fCurrentUser caller with
    | error e => simp [huser, bind, Except.bind] at hchecked
    | ok user =>
        cases hentry : newEntry s user body with
        | error e => simp [huser, hentry, bind, Except.bind] at hchecked
        | ok entry =>
            obtain ⟨perm', rel', isDir'⟩ := entry
            have hpath := newEntry_ok hentry
            have hsame : user = ownerId ∧ rel' = rel := by
              simp only [huser, hentry, bind, Except.bind] at hchecked
              repeat' split at hchecked
              all_goals cases hchecked
              exact ⟨rfl, rfl⟩
            obtain ⟨rfl, rfl⟩ := hsame
            split
            · exact .nothing _
            · rename_i db hdb
              exact .share body id now _ db (fCurrentUser_ok huser) hpath hdb

theorem effect_postLinks (cfg : Config) (caller : Option Str) (body : Json) (id : Str) (now : Int)
    (s : Server) :
    Effect cfg caller s (.postLinks body id now) (postLinks caller body id now s).1 := by
  unfold postLinks
  dsimp only
  split
  · exact .nothing _
  · rename_i ownerId perm rel isDir hchecked
    cases huser : fCurrentUser caller with
    | error e => simp [huser, bind, Except.bind] at hchecked
    | ok user =>
        cases hentry : newEntry s user body with
        | error e => simp [huser, hentry, bind, Except.bind] at hchecked
        | ok entry =>
            obtain ⟨perm', rel', isDir'⟩ := entry
            simp only [huser, hentry, bind, Except.bind, pure, Except.pure] at hchecked
            cases hchecked
            split
            · exact .nothing _
            · exact .link body id now _ (fCurrentUser_ok huser) (newEntry_ok hentry)

theorem fst_writeThrough (limits : Limits) (content hex : Str) (s : Server) (a : Access) :
    (writeThrough limits content hex s a).1 =
      s.setWorkspace a.ownerId (fWriteThrough limits a content hex (s.workspaces a.ownerId)).1 := by
  unfold writeThrough
  split <;> rename_i h <;> rw [h]

theorem effect_postComments (cfg : Config) (caller : Option Str) (body : Json) (ip id : Str)
    (tick now : Int) (s : Server) :
    Effect cfg caller s (.postComments body ip id tick now)
      (postComments caller body ip id tick now s).1 := by
  unfold postComments
  split
  · exact .nothing _
  · rename_i fields hbody
    have hfields : fields = body := by
      unfold fJsonBody at hbody
      split at hbody <;> cases hbody
      rfl
    subst hfields
    dsimp only
    split
    · exact .nothing _
    · -- The limiter is the only part of the server that changed so far.
      obtain ⟨limiter, hlimiter⟩ : ∃ limiter, (if caller = none then
          { s with authLimiter :=
            s.authLimiter.fRecord ip (str "anon-comment") cCommentWindow tick }
          else s) = { s with authLimiter := limiter } := by
        by_cases hnone : caller = none
        · exact ⟨_, by rw [if_pos hnone]⟩
        · exact ⟨s.authLimiter, by rw [if_neg hnone]⟩
      rw [hlimiter]
      split
      · exact .count fields ip id tick now limiter
      · rename_i new hnew
        split
        · exact .count fields ip id tick now limiter
        · exact .comment fields ip id tick now limiter new hnew

/-- **Every request has one of the listed effects.** -/
theorem effect_of (cfg : Config) (caller : Option Str) (req : ShareRequest) (s : Server) :
    Effect cfg caller s req (handle cfg caller req s).1 := by
  cases req with
  | getShares path => exact .nothing _
  | postShares body id now => exact effect_postShares cfg caller body id now s
  | deleteShare shareId =>
      unfold handle deleteShare
      dsimp only
      split
      · exact .nothing _
      · split
        · exact .unshare shareId _
        · exact .nothing _
  | getLinks path => exact .nothing _
  | postLinks body id now => exact effect_postLinks cfg caller body id now s
  | deleteLink linkId =>
      unfold handle deleteLink
      dsimp only
      split
      · exact .nothing _
      · split
        · exact .unlink linkId _
        · exact .nothing _
  | linkInfo token => exact .nothing _
  | linkList token path => exact .nothing _
  | getLinkFile token path => exact .nothing _
  | putLinkFile token path content hex =>
      unfold handle putLinkFile
      dsimp only
      split
      · exact .nothing _
      · rename_i a ha
        rw [fst_writeThrough]
        exact .writeLink token path content hex a ha
  | linkStat token path => exact .nothing _
  | shared => exact .nothing _
  | sharedList share path => exact .nothing _
  | getSharedFile share path => exact .nothing _
  | putSharedFile share path content hex =>
      unfold handle putSharedFile
      dsimp only
      split
      · exact .nothing _
      · rename_i a ha
        obtain ⟨user, hcaller, _, hresolve⟩ := sharedAccess_ok ha
        rw [fst_writeThrough]
        exact .writeShare share path content hex user a hcaller hresolve
  | sharedStat share path => exact .nothing _
  | getComments target => exact .nothing _
  | postComments body ip id tick now => exact effect_postComments cfg caller body ip id tick now s
  | deleteComment commentId =>
      unfold handle deleteComment
      dsimp only
      split
      · exact .nothing _
      · split
        · exact .uncomment commentId _
        · exact .nothing _

/-! ## Invariants of reachable servers -/

theorem Effect.storedPaths {cfg : Config} {caller : Option Str} {s s' : Server}
    {req : ShareRequest} (he : Effect cfg caller s req s') (hs : StoredPaths s.db) :
    StoredPaths s'.db := by
  cases he with
  | nothing => exact hs
  | share body id now row db howner hpath hdb => exact upsertShare_paths hs hpath hdb
  | unshare shareId kept =>
      exact ⟨fun row hrow => hs.shares row (List.mem_of_mem_filter hrow), hs.links⟩
  | link body id now row howner hpath =>
      refine ⟨hs.shares, ?_⟩
      intro old hold
      rcases List.mem_append.mp hold with hold | hold
      · exact hs.links old hold
      · rw [List.mem_singleton.mp hold]
        exact hpath
  | unlink linkId kept =>
      exact ⟨hs.shares, fun row hrow => hs.links row (List.mem_of_mem_filter hrow)⟩
  | writeLink => exact ⟨hs.shares, hs.links⟩
  | writeShare => exact ⟨hs.shares, hs.links⟩
  | count => exact hs
  | comment => exact ⟨hs.shares, hs.links⟩
  | uncomment => exact ⟨hs.shares, hs.links⟩

theorem sound_setWorkspace {s : Server} (hs : ∀ user, Sound (s.workspaces user)) {user : Str}
    {w : Workspace} (hw : Sound w) : ∀ u, Sound ((s.setWorkspace user w).workspaces u) := by
  intro u
  unfold Server.setWorkspace
  by_cases hu : u = user
  · subst hu
    simpa using hw
  · simpa [hu] using hs u

theorem Effect.sound {cfg : Config} {caller : Option Str} {s s' : Server} {req : ShareRequest}
    (he : Effect cfg caller s req s') (hs : ∀ user, Sound (s.workspaces user)) :
    ∀ user, Sound (s'.workspaces user) := by
  cases he with
  | nothing => exact hs
  | share => exact hs
  | unshare => exact hs
  | link => exact hs
  | unlink => exact hs
  | writeLink => exact sound_setWorkspace hs (sound_fWriteThrough (hs _) _ _ _)
  | writeShare => exact sound_setWorkspace hs (sound_fWriteThrough (hs _) _ _ _)
  | count => exact hs
  | comment => exact hs
  | uncomment => exact hs

/-- **Reachable servers** store keys as roots and have sound workspaces. -/
theorem reachable_inv {cfg : Config} {s : Server} (hs : Reachable cfg s) :
    StoredPaths s.db ∧ ∀ user, Sound (s.workspaces user) := by
  induction hs with
  | start s hshares hlinks hempty =>
      refine ⟨⟨?_, ?_⟩, fun user => hempty user ▸ Sound.empty⟩
      · intro row hrow
        rw [hshares] at hrow
        cases hrow
      · intro row hrow
        rw [hlinks] at hrow
        cases hrow
  | request caller req hs ih =>
      exact ⟨(effect_of cfg caller req _).storedPaths ih.1, (effect_of cfg caller req _).sound ih.2⟩
  | mutation user m hs ih =>
      exact ⟨⟨ih.1.shares, ih.1.links⟩, sound_setWorkspace ih.2 (sound_run m (ih.2 user))⟩
  | elsewhere s' hs hshares hlinks hsame ih =>
      refine ⟨⟨hshares ▸ ih.1.shares, hlinks ▸ ih.1.links⟩, hsame ▸ ih.2⟩

/-! ## A server with one share -/

/-- No quota, small files, and a disk without clocks or digests. -/
def plainConfig : Config := ⟨⟨0, 100⟩, ⟨fun _ => 0, fun _ => [], fun _ => true⟩⟩

/-- Two accounts and nothing else. -/
def twoAccounts : Server where
  db := ⟨[⟨str "ann", str "ann@x.org"⟩, ⟨str "bob", str "bob@x.org"⟩], [], [], []⟩
  workspaces := fun _ => Workspace.empty
  authLimiter := ⟨[]⟩

def shareDocs : ShareRequest :=
  .postShares (.object [(str "permission", .string (str "edit")),
    (str "relPath", .string (str "docs")), (str "isDir", .bool true),
    (str "email", .string (str "bob@x.org"))]) (str "s1") 1

/-- Ann has written `docs/x.mdp` and shares `docs` with Bob. -/
def sharedDocs : Server :=
  let s := twoAccounts.setWorkspace (str "ann")
    ((Mutation.putFile (str "docs/x.mdp") (str "one") (str "00")).run plainConfig.limits
      (twoAccounts.workspaces (str "ann"))).1
  (handle plainConfig (some (str "ann")) shareDocs s).1

theorem reachable_sharedDocs : Reachable plainConfig sharedDocs :=
  .request _ shareDocs (.mutation _ _ (.start twoAccounts rfl rfl (fun _ => rfl)))

example : sharedDocs.db.shares.map ShareRow.relPath = [str "docs"] := by decide

end Lectern
