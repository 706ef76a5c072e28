import Mathlib.Data.List.DropRight
import Lectern.Disclosure
import Lectern.Grants
import Lectern.ListableNames

/-!
# One thread per file

Comments are rows of one table; a POST adds one, a DELETE by its author or by
the file's owner takes one away, and nothing else touches them.  So a comment
is there exactly when it was posted and has not been deleted since, and everyone
who can open the file, by whatever route, is shown the same comments in the
same order.
-/

namespace Lectern

open FileTree Sync

/-! ## Texts -/

theorem isSpace_ascii {c : UInt8} (hc : isSpace c = true) : c < 0x80 := by
  unfold isSpace at hc
  rw [Bool.or_eq_true, Bool.and_eq_true, beq_iff_eq, decide_eq_true_eq, decide_eq_true_eq] at hc
  rcases hc with rfl | ⟨_, hc⟩
  · decide
  · exact UInt8.lt_of_le_of_lt hc (by decide)

theorem validUtf8_dropWhile {s : Str} (h : validUtf8 s = true) :
    validUtf8 (s.dropWhile isSpace) = true := by
  induction s with
  | nil => rfl
  | cons c s ih =>
      rw [List.dropWhile_cons]
      by_cases hc : isSpace c = true
      · rw [if_pos hc]
        have hrest := validUtf8_split (isSpace_ascii hc) [] s
        rw [List.nil_append, h] at hrest
        exact ih (Bool.and_eq_true_iff.mp hrest.symm).2
      · rw [if_neg hc]
        exact h

theorem validUtf8_rdropWhile {s : Str} (h : validUtf8 s = true) :
    validUtf8 (s.rdropWhile isSpace) = true := by
  induction s using List.reverseRecOn with
  | nil => rfl
  | append_singleton s c ih =>
      rw [List.rdropWhile_concat]
      by_cases hc : isSpace c = true
      · rw [if_pos hc]
        have hrest := validUtf8_split (isSpace_ascii hc) s []
        rw [h] at hrest
        exact ih (Bool.and_eq_true_iff.mp hrest.symm).1
      · rw [if_neg hc]
        exact h

/-- Trimming cuts no character. -/
theorem validUtf8_fTrim {s : Str} (h : validUtf8 s = true) : validUtf8 (fTrim s) = true :=
  validUtf8_rdropWhile (validUtf8_dropWhile h)

theorem validUtf8_fJsonString {body : Json} {key text : Str} (hbody : body.dumps = true)
    (h : fJsonString body key = .ok text) : validUtf8 text = true := by
  have hfield := validUtf8_fStringField hbody key
  unfold fJsonString at h
  unfold Json.fStringField at hfield
  cases hfound : (body.find? key).bind Json.string? with
  | none =>
      rw [hfound] at h
      cases h
  | some found =>
      rw [hfound] at h hfield
      cases h
      exact hfield

/-- What can be shown of the comments: their texts serialise, and their ids
tell them apart. -/
structure SoundThreads (db : Db) : Prop where
  emails : ∀ user ∈ db.users, validUtf8 user.email = true
  texts : ∀ row ∈ db.comments, validUtf8 row.id = true ∧ validUtf8 row.body = true ∧
    ∀ anchor ∈ row.anchor, validUtf8 anchor = true
  ids : (db.comments.map CommentRow.id).Nodup

theorem validUtf8_emailOf {db : Db} (hdb : SoundThreads db) {user email : Str}
    (h : emailOf db user = some email) : validUtf8 email = true := by
  unfold emailOf at h
  obtain ⟨row, hrow, rfl⟩ := Option.map_eq_some_iff.mp h
  exact hdb.emails row (List.mem_of_find?_eq_some hrow)

/-- One comment as a caller sees it. -/
def commentValue (db : Db) (caller : Option Str) (row : CommentRow) : Json :=
  .object
    [(str "id", .string row.id), (str "authorEmail", optional (row.authorId.bind (emailOf db))),
      (str "body", .string row.body), (str "createdAt", .int row.createdAt),
      (str "mine", .bool (row.authorId.isSome && decide (row.authorId = caller))),
      (str "anchor", optional row.anchor)]

theorem dumps_optional {value : Option Str} (h : ∀ s ∈ value, validUtf8 s = true) :
    (optional value).dumps = true := by
  cases value with
  | none => rfl
  | some s =>
      have hs := h s rfl
      rwa [optional, Json.dumps]

theorem dumps_author {db : Db} (hdb : SoundThreads db) (author : Option Str) :
    (optional (author.bind (emailOf db))).dumps = true := by
  refine dumps_optional ?_
  intro email hemail
  obtain ⟨user, _, hfound⟩ := Option.bind_eq_some_iff.mp hemail
  exact validUtf8_emailOf hdb hfound

theorem dumps_commentValue {db : Db} (hdb : SoundThreads db) (caller : Option Str)
    {row : CommentRow} (hid : validUtf8 row.id = true) (hbody : validUtf8 row.body = true)
    (hanchor : ∀ anchor ∈ row.anchor, validUtf8 anchor = true) :
    (commentValue db caller row).dumps = true := by
  have hauthor := dumps_author hdb row.authorId
  have hnote := dumps_optional hanchor
  have hkeys : validUtf8 (str "id") = true ∧ validUtf8 (str "authorEmail") = true ∧
      validUtf8 (str "body") = true ∧ validUtf8 (str "createdAt") = true ∧
      validUtf8 (str "mine") = true ∧ validUtf8 (str "anchor") = true := by
    refine ⟨?_, ?_, ?_, ?_, ?_, ?_⟩ <;> exact validUtf8_of_ascii (by decide +kernel)
  obtain ⟨hkeyId, hkeyAuthor, hkeyBody, hkeyTime, hkeyMine, hkeyAnchor⟩ := hkeys
  unfold commentValue
  simp only [Json.dumps, dumpsFields, hkeyId, hkeyAuthor, hkeyBody, hkeyTime, hkeyMine,
    hkeyAnchor, hid, hbody, hauthor, hnote, Bool.and_true]

/-- The rows of a thread, in the order they are shown. -/
def threadRows (db : Db) (owner key : Str) : List CommentRow :=
  orderBy CommentRow.createdAt
    (db.comments.filter (fun row => row.ownerId = owner ∧ row.relPath = key))

theorem commentThread_eq (db : Db) (caller : Option Str) (owner key : Str) :
    commentThread db caller owner key =
      .array ((threadRows db owner key).map (commentValue db caller)) := rfl

theorem perm_threadRows (db : Db) (owner key : Str) :
    (threadRows db owner key).Perm
      (db.comments.filter (fun row => row.ownerId = owner ∧ row.relPath = key)) :=
  List.mergeSort_perm _ _

theorem mem_threadRows {db : Db} {owner key : Str} {row : CommentRow} :
    row ∈ threadRows db owner key ↔
      row ∈ db.comments ∧ row.ownerId = owner ∧ row.relPath = key := by
  rw [(perm_threadRows db owner key).mem_iff, List.mem_filter, decide_eq_true_eq]

theorem sorted_threadRows (db : Db) (owner key : Str) :
    (threadRows db owner key).Pairwise (fun a b => a.createdAt ≤ b.createdAt) := by
  have hsorted := @List.pairwise_mergeSort _ (fun a b => decide (a.createdAt ≤ b.createdAt))
    (fun a b c hab hbc => by
      rw [decide_eq_true_eq] at hab hbc ⊢
      exact hab.trans hbc)
    (fun a b => by
      rw [Bool.or_eq_true, decide_eq_true_eq, decide_eq_true_eq]
      exact le_total a.createdAt b.createdAt)
    (db.comments.filter (fun row => row.ownerId = owner ∧ row.relPath = key))
  exact hsorted.imp (fun h => of_decide_eq_true h)

theorem nodup_threadRows {db : Db} (hdb : SoundThreads db) (owner key : Str) :
    ((threadRows db owner key).map CommentRow.id).Nodup := by
  rw [((perm_threadRows db owner key).map CommentRow.id).nodup_iff]
  exact hdb.ids.sublist (List.filter_sublist.map CommentRow.id)

/-- **A sound thread is always answered.** -/
theorem getComments_answers {s : Server} (hdb : SoundThreads s.db) {caller : Option Str}
    {target : CommentTarget} {owner key : Str}
    (htarget : fResolveCommentTarget s.db caller target .view = .ok (owner, key))
    (hwork : fIsWorkFile key = true) :
    getComments caller target s =
      .ok (.json (.array ((threadRows s.db owner key).map (commentValue s.db caller)))) := by
  have hdumps : (Json.array ((threadRows s.db owner key).map (commentValue s.db caller))).dumps =
      true := by
    rw [Json.dumps, dumpsAll_eq, List.all_eq_true]
    intro value hvalue
    obtain ⟨row, hrow, rfl⟩ := List.mem_map.mp hvalue
    obtain ⟨hid, hbody, hanchor⟩ := hdb.texts row (mem_threadRows.mp hrow).1
    exact dumps_commentValue hdb caller hid hbody hanchor
  unfold getComments
  simp only [htarget, hwork, bind, Except.bind, Bool.not_true, Bool.false_eq_true, if_false]
  rw [commentThread_eq, fJsonResponse, if_pos hdumps]

/-! ## Posting -/

/-- The row a checked comment becomes. -/
def NewComment.row (new : NewComment) (caller : Option Str) (id : Str) (now : Int) : CommentRow :=
  ⟨id, new.ownerId, new.relPath, caller, new.text, now, new.anchor⟩

/-- A POST is refused and adds nothing, or it adds its row and answers with it. -/
theorem postComments_cases (caller : Option Str) (body : Json) (ip id : Str) (tick now : Int)
    (s : Server) :
    (∃ e, (postComments caller body ip id tick now s).2 = .error e) ∧
        (postComments caller body ip id tick now s).1.db = s.db ∨
      ∃ new, checkComment caller body s = .ok new ∧ (∀ row ∈ s.db.comments, row.id ≠ id) ∧
        (postComments caller body ip id tick now s).1.db =
          { s.db with comments := s.db.comments ++ [new.row caller id now] } ∧
        (postComments caller body ip id tick now s).2 =
          fJsonResponse (commentValue s.db caller (new.row caller id now)) := by
  unfold postComments
  split
  · exact Or.inl ⟨⟨_, rfl⟩, rfl⟩
  · rename_i fields hbody
    have hfields := fJsonBody_ok hbody
    subst hfields
    dsimp only
    split
    · exact Or.inl ⟨⟨_, rfl⟩, rfl⟩
    · obtain ⟨limiter, hlimiter⟩ : ∃ limiter, (if caller = none then
          { s with authLimiter :=
            s.authLimiter.fRecord ip (str "anon-comment") cCommentWindow tick }
          else s) = { s with authLimiter := limiter } := by
        by_cases hnone : caller = none
        · exact ⟨_, by rw [if_pos hnone]⟩
        · exact ⟨s.authLimiter, by rw [if_neg hnone]⟩
      rw [hlimiter]
      -- The checks do not look at the limiter.
      have hcheck : checkComment caller fields { s with authLimiter := limiter } =
          checkComment caller fields s := rfl
      rw [hcheck]
      split
      · exact Or.inl ⟨⟨_, rfl⟩, rfl⟩
      · rename_i new hnew
        split
        · exact Or.inl ⟨⟨_, rfl⟩, rfl⟩
        · rename_i hfresh
          refine Or.inr ⟨new, hnew, ?_, rfl, ?_⟩
          · intro row hrow hid
            exact hfresh (List.any_eq_true.mpr ⟨row, hrow, by simp [hid]⟩)
          · simp [commentValue, NewComment.row]

/-- The body of a POST names a route: by a link if it has one, else by a share,
else by a path of the caller's own. -/
def Route.Named (body : Json) : Route → Prop
  | .own path => body.fStringField (str "link") = [] ∧ body.fStringField (str "share") = [] ∧
      body.fStringField (str "path") = path
  | .share id sub => body.fStringField (str "link") = [] ∧ body.fStringField (str "share") = id ∧
      body.fStringField (str "subPath") = sub
  | .link token sub => body.fStringField (str "link") = token ∧
      body.fStringField (str "subPath") = sub

/-- The route is the owner's own, or one of at least this level. -/
def Route.AtLeast (db : Db) (caller : Option Str) (need : Perm) (route : Route) : Prop :=
  ∀ a, route.Resolves db caller a → need.rank ≤ a.permission.rank

/-- The row is the comment the body asks for: on the file that the named route
opens for commenting, by the caller, with the text trimmed. -/
structure Commented (db : Db) (caller : Option Str) (body : Json) (row : CommentRow) : Prop where
  place : ∃ route p, Route.Named body route ∧ route.Opens db caller row.ownerId p ∧
    route.AtLeast db caller .comment ∧ row.relPath = keyOf p
  text : ∃ text, body.find? (str "body") = some (.string text) ∧ row.body = fTrim text
  anchor : row.anchor = if body.fStringField (str "anchor") = [] then none
    else some (body.fStringField (str "anchor"))
  author : row.authorId = caller

theorem checkComment_fields {caller : Option Str} {body : Json} {s : Server} {new : NewComment}
    (h : checkComment caller body s = .ok new) :
    (∃ text, fJsonString body (str "body") = .ok text ∧ new.text = fTrim text) ∧
      new.anchor = if body.fStringField (str "anchor") = [] then none
        else some (body.fStringField (str "anchor")) := by
  have hfield : fJsonStringOr body (str "anchor") = body.fStringField (str "anchor") := rfl
  unfold checkComment at h
  cases hres : fResolveCommentTarget s.db caller (fTargetFromBody body) .comment with
  | error e => simp [hres, bind, Except.bind] at h
  | ok target =>
      cases htext : fJsonString body (str "body") with
      | error e =>
          simp only [hres, htext, bind, Except.bind] at h
          split at h <;> cases h
      | ok text =>
          simp only [hres, htext, hfield, bind, Except.bind, pure, Except.pure] at h
          repeat' split at h
          all_goals cases h
          · exact ⟨⟨text, rfl, rfl⟩, (if_pos ‹_›).symm⟩
          · exact ⟨⟨text, rfl, rfl⟩, (if_neg ‹_›).symm⟩

/-- The target of a POST is the file of the route its body names. -/
theorem named_of_target {db : Db} (hpaths : StoredPaths db) {caller : Option Str} {body : Json}
    {need : Perm} {owner key : Str}
    (h : fResolveCommentTarget db caller (fTargetFromBody body) need = .ok (owner, key)) :
    ∃ route p, Route.Named body route ∧ route.Opens db caller owner p ∧
      route.AtLeast db caller need ∧ key = keyOf p := by
  have hresolved {route : Route} {a : Access} (ha : route.Resolves db caller a)
      (hlevel : need.rank ≤ a.permission.rank) :
      route.Opens db caller a.ownerId (pathOf a.relPath) ∧ route.AtLeast db caller need ∧
        a.relPath = keyOf (pathOf a.relPath) := by
    have hfixed := fixed_of_resolves hpaths ha
    refine ⟨Or.inr ⟨a, ha, rfl, fOwnerFullPath_fixed hfixed⟩, ?_, (keyOf_pathOf hfixed).2.symm⟩
    intro a' ha'
    rw [resolves_unique ha ha']
    exact hlevel
  unfold fResolveCommentTarget at h
  by_cases hlink : (fTargetFromBody body).link = []
  · rw [if_neg (not_not.mpr hlink)] at h
    cases caller with
    | none => cases h
    | some user =>
        dsimp only at h
        by_cases hshare : (fTargetFromBody body).share = []
        · rw [if_neg (not_not.mpr hshare)] at h
          cases hsafe : fSafeRelPath (fTargetFromBody body).path with
          | error e => simp [hsafe] at h
          | ok rel =>
              simp only [hsafe, Except.ok.injEq, Prod.mk.injEq] at h
              obtain ⟨rfl, rfl⟩ := h
              refine ⟨.own (fTargetFromBody body).path, pathOf rel, ⟨hlink, hshare, rfl⟩,
                Or.inl ⟨_, rel, rfl, rfl, hsafe, rfl⟩, fun a ha => ha.elim, ?_⟩
              exact (keyOf_pathOf (fSafeRelPath_fixed hsafe)).2.symm
        · rw [if_pos hshare] at h
          obtain ⟨a, ha, hlevel, rfl, rfl⟩ := requireLevel_ok h
          exact ⟨.share _ _, _, ⟨hlink, rfl, rfl⟩, hresolved ⟨hshare, user, rfl, ha⟩ hlevel⟩
  · rw [if_pos hlink] at h
    obtain ⟨a, ha, hlevel, rfl, rfl⟩ := requireLevel_ok h
    exact ⟨.link _ _, _, ⟨rfl, rfl⟩, hresolved ⟨hlink, ha⟩ hlevel⟩

/-- **A checked comment** is the one its body asks for. -/
theorem commented_of_check {s : Server} (hpaths : StoredPaths s.db) {caller : Option Str}
    {body : Json} {new : NewComment} (h : checkComment caller body s = .ok new) (id : Str)
    (now : Int) : Commented s.db caller body (new.row caller id now) := by
  obtain ⟨⟨text, htext, htrim⟩, hanchor⟩ := checkComment_fields h
  exact ⟨named_of_target hpaths (checkComment_ok h),
    ⟨text, fJsonString_eq_ok_iff.mp htext, htrim⟩, hanchor, rfl⟩

/-- A body names one route that opens anything. -/
theorem Route.Named.unique {db : Db} {caller : Option Str} {body : Json} {route route' : Route}
    {owner owner' : Str} {p p' : List Str} (h : route.Named body) (h' : route'.Named body)
    (hopens : route.Opens db caller owner p) (hopens' : route'.Opens db caller owner' p') :
    route = route' := by
  have hlink {token sub : Str} {owner : Str} {p : List Str}
      (hopens : (Route.link token sub).Opens db caller owner p) : token ≠ [] := by
    rcases hopens with ⟨_, _, heq, _⟩ | ⟨a, ha, _⟩
    · cases heq
    · exact ha.1
  have hshare {id sub : Str} {owner : Str} {p : List Str}
      (hopens : (Route.share id sub).Opens db caller owner p) : id ≠ [] := by
    rcases hopens with ⟨_, _, heq, _⟩ | ⟨a, ha, _⟩
    · cases heq
    · exact ha.1
  cases route with
  | own path =>
      obtain ⟨hnolink, hnoshare, rfl⟩ := h
      cases route' with
      | own path' => rw [h'.2.2]
      | share id sub => exact absurd (h'.2.1.symm.trans hnoshare) (hshare hopens')
      | link token sub => exact absurd (h'.1.symm.trans hnolink) (hlink hopens')
  | share id sub =>
      obtain ⟨hnolink, rfl, rfl⟩ := h
      cases route' with
      | own path' => exact absurd h'.2.1 (hshare hopens)
      | share id' sub' => rw [h'.2.1, h'.2.2]
      | link token sub => exact absurd (h'.1.symm.trans hnolink) (hlink hopens')
  | link token sub =>
      obtain ⟨rfl, rfl⟩ := h
      cases route' with
      | own path' => exact absurd h'.1 (hlink hopens)
      | share id' sub' => exact absurd h'.1 (hlink hopens)
      | link token' sub' => rw [h'.1, h'.2]

theorem Route.Opens.unique {db : Db} {caller : Option Str} {route : Route} {owner owner' : Str}
    {p p' : List Str} (h : route.Opens db caller owner p) (h' : route.Opens db caller owner' p') :
    owner = owner' ∧ p = p' := by
  rcases h with ⟨path, k, rfl, rfl, hk, rfl⟩ | ⟨a, ha, rfl, hfull⟩
  · rcases h' with ⟨path', k', heq, howner, hk', rfl⟩ | ⟨a', ha', _⟩
    · cases heq
      cases howner
      cases hk.symm.trans hk'
      exact ⟨rfl, rfl⟩
    · exact ha'.elim
  · rcases h' with ⟨path', k', rfl, _⟩ | ⟨a', ha', rfl, hfull'⟩
    · exact ha.elim
    · cases resolves_unique ha ha'
      cases hfull.symm.trans hfull'
      exact ⟨rfl, rfl⟩

/-- A body asks for one comment. -/
theorem Commented.unique {db : Db} {caller : Option Str} {body : Json} {row row' : CommentRow}
    (h : Commented db caller body row) (h' : Commented db caller body row')
    (hid : row.id = row'.id) (hdate : row.createdAt = row'.createdAt) : row = row' := by
  obtain ⟨⟨route, p, hnamed, hopens, _, hpath⟩, ⟨text, htext, hbody⟩, hanchor, hauthor⟩ := h
  obtain ⟨⟨route', p', hnamed', hopens', _, hpath'⟩, ⟨text', htext', hbody'⟩, hanchor', hauthor'⟩ :=
    h'
  cases hnamed.unique hnamed' hopens hopens'
  obtain ⟨howner, rfl⟩ := hopens.unique hopens'
  cases htext.symm.trans htext'
  cases row
  cases row'
  simp only [CommentRow.mk.injEq]
  exact ⟨hid, howner, hpath.trans hpath'.symm, hauthor.trans hauthor'.symm,
    hbody.trans hbody'.symm, hdate, hanchor.trans hanchor'.symm⟩

/-- Its texts come from the parsed body. -/
theorem Commented.texts {db : Db} {caller : Option Str} {body : Json} {row : CommentRow}
    (h : Commented db caller body row) (hbody : body.dumps = true) :
    validUtf8 row.body = true ∧ ∀ anchor ∈ row.anchor, validUtf8 anchor = true := by
  obtain ⟨text, htext, hrow⟩ := h.text
  refine ⟨?_, ?_⟩
  · rw [hrow]
    exact validUtf8_fTrim (validUtf8_fJsonString hbody (fJsonString_eq_ok_iff.mpr htext))
  · intro anchor hanchor
    rw [h.anchor] at hanchor
    split at hanchor
    · cases hanchor
    · cases hanchor
      exact validUtf8_fStringField hbody (str "anchor")

/-! ## What a request does to the comments -/

namespace Sync

/-- The request is answered with success, and this row is the comment its body
asks for. -/
def Request.Posts (s : Server) (row : CommentRow) : Request → Prop
  | .share caller (.postComments body ip id tick now) _ =>
      (∃ answer, (Lectern.postComments caller body ip id tick now s).2 = .ok answer) ∧
        Commented s.db caller body row ∧ row.id = id ∧ row.createdAt = now
  | _ => False

/-- The request deletes this row: it names its id, and the caller is its author
or the file's owner. -/
def Request.Deletes (row : CommentRow) : Request → Prop
  | .share caller (.deleteComment id) _ => ∃ user, caller = some user ∧ deletable user id row = true
  | _ => False

/-- What the JSON parser hands over is text, and so is a drawn id. -/
def Request.Parsed : Request → Prop
  | .share _ (.postComments body _ id _ _) _ => body.dumps = true ∧ validUtf8 id = true
  | _ => True

/-- Neither a POST nor a DELETE of a comment. -/
def Request.Uncommented : Request → Prop
  | .share _ (.postComments ..) _ => False
  | .share _ (.deleteComment _) _ => False
  | _ => True

/-- No other request touches the comments. -/
theorem comments_kept (cfg : Config) {r : Request} (hr : r.Uncommented) (s : Server) :
    (serve cfg r s).1.db.comments = s.db.comments := by
  rcases serve_effect cfg r s with hsame | ⟨caller, req, device, rfl, he⟩
  · rw [hsame]
  · generalize (serve cfg (.share caller req device) s).1 = s' at he ⊢
    cases he with
    | share body id now row db howner hpath hdb => exact (upsertShare_keeps hdb).2.1
    | count | comment | uncomment => exact hr.elim
    | nothing | unshare | link | unlink | writeLink | writeShare => rfl

theorem users_serve (cfg : Config) (r : Request) (s : Server) :
    (serve cfg r s).1.db.users = s.db.users := by
  rcases serve_effect cfg r s with hsame | ⟨caller, req, device, rfl, he⟩
  · rw [hsame]
  · generalize (serve cfg (.share caller req device) s).1 = s' at he ⊢
    cases he with
    | share body id now row db howner hpath hdb => exact (upsertShare_keeps hdb).2.2.1
    | _ => rfl

theorem comments_deleteComment (user id : Str) (s : Server) :
    (deleteComment (some user) id s).1.db.comments =
      s.db.comments.filter (fun row => !deletable user id row) := by
  unfold deleteComment fCurrentUser
  dsimp only
  split
  · rfl
  · rename_i hany
    exact (filter_of_not_any hany).symm

/-- A DELETE takes away what its caller may delete. -/
theorem mem_deleteComment {caller : Option Str} {id : Str} {s : Server} {row : CommentRow} :
    row ∈ (deleteComment caller id s).1.db.comments ↔
      row ∈ s.db.comments ∧ ¬ ∃ user, caller = some user ∧ deletable user id row = true := by
  cases caller with
  | none => simp [deleteComment, fCurrentUser]
  | some user =>
      rw [comments_deleteComment, List.mem_filter, Bool.not_eq_true', ← Bool.not_eq_true]
      simp only [Option.some.injEq, exists_eq_left']

/-- Text that serialises is answered with success. -/
theorem answered_of_texts {s : Server} (hdb : SoundThreads s.db) {caller : Option Str} {id : Str}
    {now : Int} {new : NewComment} (hid : validUtf8 id = true)
    (htexts : validUtf8 new.text = true ∧ ∀ anchor ∈ new.anchor, validUtf8 anchor = true) :
    fJsonResponse (commentValue s.db caller (new.row caller id now)) =
      .ok (.json (commentValue s.db caller (new.row caller id now))) :=
  if_pos (dumps_commentValue hdb caller hid htexts.1 htexts.2)

/-- **One request**: the comments afterwards are those it posts and those it
does not delete. -/
theorem mem_comments_serve (cfg : Config) {r : Request} {s : Server} (hdb : SoundThreads s.db)
    (hpaths : StoredPaths s.db) (hparsed : r.Parsed) (row : CommentRow) :
    row ∈ (serve cfg r s).1.db.comments ↔
      r.Posts s row ∨ row ∈ s.db.comments ∧ ¬ r.Deletes row := by
  have hother (hr : r.Uncommented) (hposts : ¬ r.Posts s row) (hdeletes : ¬ r.Deletes row) :
      row ∈ (serve cfg r s).1.db.comments ↔
        r.Posts s row ∨ row ∈ s.db.comments ∧ ¬ r.Deletes row := by
    rw [comments_kept cfg hr s]
    simp [hposts, hdeletes]
  cases r with
  | share caller req device =>
      cases req with
      | postComments body ip id tick now =>
          rw [serve_share]
          change row ∈ (postComments caller body ip id tick now s).1.db.comments ↔
            ((∃ answer, (postComments caller body ip id tick now s).2 = .ok answer) ∧
              Commented s.db caller body row ∧ row.id = id ∧ row.createdAt = now) ∨
              row ∈ s.db.comments ∧ ¬ False
          rcases postComments_cases caller body ip id tick now s with
            ⟨⟨e, he⟩, hsame⟩ | ⟨new, hnew, _, hrow, hanswer⟩
          · rw [he, hsame]
            simp
          · have hcommented := commented_of_check hpaths hnew id now
            have hasked : Commented s.db caller body row ∧ row.id = id ∧ row.createdAt = now ↔
                row = new.row caller id now := by
              constructor
              · rintro ⟨hthis, hid, hdate⟩
                exact hthis.unique hcommented hid hdate
              · rintro rfl
                exact ⟨hcommented, rfl, rfl⟩
            rw [hrow, hanswer, answered_of_texts hdb hparsed.2 (hcommented.texts hparsed.1), hasked]
            simp [or_comm]
      | deleteComment id =>
          rw [serve_share]
          exact mem_deleteComment.trans (by simp [Request.Posts, Request.Deletes])
      | _ => exact hother trivial id id
  | _ => exact hother trivial id id

/-- No two comments ever share an id. -/
theorem ids_serve (cfg : Config) (r : Request) {s : Server}
    (hids : (s.db.comments.map CommentRow.id).Nodup) :
    ((serve cfg r s).1.db.comments.map CommentRow.id).Nodup := by
  have hother (hr : r.Uncommented) : ((serve cfg r s).1.db.comments.map CommentRow.id).Nodup := by
    rw [comments_kept cfg hr s]
    exact hids
  cases r with
  | share caller req device =>
      cases req with
      | postComments body ip id tick now =>
          rw [serve_share]
          change ((postComments caller body ip id tick now s).1.db.comments.map _).Nodup
          rcases postComments_cases caller body ip id tick now s with
            ⟨_, hsame⟩ | ⟨new, _, hfresh, hrow, _⟩
          · rw [hsame]
            exact hids
          · rw [hrow]
            exact nodup_map_concat hids hfresh
      | deleteComment id =>
          rw [serve_share]
          change ((deleteComment caller id s).1.db.comments.map _).Nodup
          cases caller with
          | none => exact hids
          | some user =>
              rw [comments_deleteComment]
              exact hids.sublist (List.filter_sublist.map CommentRow.id)
      | _ => exact hother trivial
  | _ => exact hother trivial

/-- The comments of a sound server stay sound. -/
theorem soundThreads_serve (cfg : Config) {r : Request} {s : Server} (hdb : SoundThreads s.db)
    (hpaths : StoredPaths s.db) (hparsed : r.Parsed) : SoundThreads (serve cfg r s).1.db := by
  refine ⟨(users_serve cfg r s).symm ▸ hdb.emails, ?_, ids_serve cfg r hdb.ids⟩
  intro row hrow
  rcases (mem_comments_serve cfg hdb hpaths hparsed row).mp hrow with hposts | ⟨hold, _⟩
  · cases r with
    | share caller req device =>
        cases req with
        | postComments body ip id tick now =>
            obtain ⟨_, hcommented, rfl, _⟩ := hposts
            exact ⟨hparsed.2, hcommented.texts hparsed.1⟩
        | _ => exact hposts.elim
    | _ => exact hposts.elim
  · exact hdb.texts row hold

/-! ## Threads over runs -/

/-- The comment was there or was posted, and nobody has deleted it since. -/
def Remains (cfg : Config) (rs : List Request) (s : Server) (row : CommentRow) : Prop :=
  Runs.Standing (fun r s => (serve cfg r s).1) (fun s => row ∈ s.db.comments)
    (fun s r => r.Posts s row) (fun _ r => r.Deletes row) rs s

/-- A reachable server with sound comments. -/
def Tidy (cfg : Config) (s : Server) : Prop := Reachable cfg s ∧ SoundThreads s.db

theorem Tidy.serve {cfg : Config} {r : Request} {s : Server} (hs : Tidy cfg s)
    (hparsed : r.Parsed) : Tidy cfg (serve cfg r s).1 :=
  ⟨Reachable.serve hs.1 r, soundThreads_serve cfg hs.2 (reachable_inv hs.1).1 hparsed⟩

theorem tidy_served {cfg : Config} {rs : List Request} {s : Server} (hs : Tidy cfg s)
    (hparsed : ∀ r ∈ rs, r.Parsed) : Tidy cfg (served cfg rs s) :=
  Runs.run_induction (P := Tidy cfg) (fun r hr _ h => h.serve (hparsed r hr)) hs

theorem mem_comments_served (cfg : Config) {rs : List Request} {s : Server} (hs : Tidy cfg s)
    (hparsed : ∀ r ∈ rs, r.Parsed) (row : CommentRow) :
    row ∈ (served cfg rs s).db.comments ↔ Remains cfg rs s row :=
  Runs.run_iff (P := fun s : Server => row ∈ s.db.comments) (I := Tidy cfg)
    (fun r hr _ h => h.serve (hparsed r hr))
    (fun r hr _ h => mem_comments_serve cfg h.2 (reachable_inv h.1).1 (hparsed r hr) row) hs

/-- **One thread.**  After any run of requests, whoever opens a work file, by
whichever route, is shown the same comments in the same order: those posted
by a way that opens this file for commenting and not deleted since by their
author or the file's owner, each once, the oldest first. -/
theorem one_thread (cfg : Config) (s : Server) (hs : Reachable cfg s) (hdb : SoundThreads s.db)
    (rs : List Request) (hparsed : ∀ r ∈ rs, r.Parsed) (owner : Str) (p : List Str)
    (hwork : fIsWorkFile (keyOf p) = true) :
    ∃ rows : List CommentRow, (rows.map CommentRow.id).Nodup ∧
      rows.Pairwise (fun a b => a.createdAt ≤ b.createdAt) ∧
      (∀ row, row ∈ rows ↔
        Remains cfg rs s row ∧ row.ownerId = owner ∧ row.relPath = keyOf p) ∧
      ∀ (caller : Option Str) (route : Route), route.Opens (served cfg rs s).db caller owner p →
        getComments caller route.target (served cfg rs s) =
          .ok (.json (.array (rows.map (commentValue (served cfg rs s).db caller)))) := by
  have htidy := tidy_served ⟨hs, hdb⟩ hparsed
  have hsound := htidy.2
  have hpaths := (reachable_inv htidy.1).1
  refine ⟨threadRows (served cfg rs s).db owner (keyOf p), nodup_threadRows hsound _ _,
    sorted_threadRows _ _ _, ?_, ?_⟩
  · intro row
    rw [mem_threadRows, mem_comments_served cfg ⟨hs, hdb⟩ hparsed]
  · intro caller route hopens
    exact getComments_answers hsound (oneKey_of_opens hpaths hopens).comments hwork

/-- Bob comments on the shared file. -/
def bobComments : Request :=
  .share (some (str "bob")) (.postComments (.object [(str "share", .string (str "s1")),
    (str "subPath", .string (str "x.mdp")), (str "body", .string (str " nice "))])
    [] (str "c1") 0 5) []

theorem soundThreads_sharedDocs : SoundThreads sharedDocs.db := by
  have hcomments : sharedDocs.db.comments = [] := by decide +kernel
  have hemails : ∀ user ∈ sharedDocs.db.users, ∀ c ∈ user.email, c < 0x80 := by decide +kernel
  refine ⟨fun user huser => validUtf8_of_ascii (hemails user huser), ?_, ?_⟩
  · intro row hrow
    rw [hcomments] at hrow
    cases hrow
  · rw [hcomments]
    exact List.nodup_nil

def bobCommented : Server := served plainConfig [bobComments] sharedDocs

/-- The row his comment becomes. -/
def bobComment : CommentRow :=
  ⟨str "c1", str "ann", str "docs/x.mdp", some (str "bob"), str "nice", 5, none⟩

/-- Ann by her own path and Bob through the share are shown his comment. -/
theorem one_thread_bobComments :
    getComments (some (str "ann")) (Route.own (str "docs/x.mdp")).target bobCommented =
        .ok (.json (.array [commentValue bobCommented.db (some (str "ann")) bobComment])) ∧
      getComments (some (str "bob")) (Route.share (str "s1") (str "x.mdp")).target bobCommented =
        .ok (.json (.array [commentValue bobCommented.db (some (str "bob")) bobComment])) := by
  have hparsed : ∀ r ∈ [bobComments], r.Parsed := by
    intro r hr
    rw [List.mem_singleton.mp hr]
    exact ⟨by decide +kernel, validUtf8_of_ascii (by decide +kernel)⟩
  have hkey : keyOf [str "docs", str "x.mdp"] = str "docs/x.mdp" := by decide +kernel
  have hcomments : (served plainConfig [bobComments] sharedDocs).db.comments = [bobComment] := by
    decide +kernel
  obtain ⟨rows, hids, _, hmem, hshown⟩ := one_thread plainConfig sharedDocs reachable_sharedDocs
    soundThreads_sharedDocs [bobComments] hparsed (str "ann") [str "docs", str "x.mdp"]
    (by decide +kernel)
  have hrows : rows = [bobComment] := by
    refine List.perm_singleton.mp ((List.perm_ext_iff_of_nodup hids.of_map
      (List.nodup_singleton _)).mpr ?_)
    intro row
    rw [hmem, hkey, ← mem_comments_served plainConfig ⟨reachable_sharedDocs,
      soundThreads_sharedDocs⟩ hparsed, hcomments, List.mem_singleton, and_iff_left_of_imp]
    rintro rfl
    exact ⟨rfl, rfl⟩
  rw [hrows] at hshown
  have hann : (Route.own (str "docs/x.mdp")).Opens bobCommented.db (some (str "ann")) (str "ann")
      [str "docs", str "x.mdp"] :=
    Or.inl ⟨_, str "docs/x.mdp", rfl, rfl, by decide +kernel, by decide +kernel⟩
  have hbob : (Route.share (str "s1") (str "x.mdp")).Opens bobCommented.db (some (str "bob"))
      (str "ann") [str "docs", str "x.mdp"] :=
    Or.inr ⟨⟨str "ann", str "docs/x.mdp", true, .edit⟩,
      ⟨by decide, str "bob", rfl, by decide +kernel⟩, rfl, by decide +kernel⟩
  exact ⟨hshown _ _ hann, hshown _ _ hbob⟩

end Sync

end Lectern
