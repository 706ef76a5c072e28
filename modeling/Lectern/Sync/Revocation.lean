import Lectern.Sync.Delivery

/-!
# Revocation and the sync socket

A watch is resolved against the share and link tables once, when it arrives;
what it was granted stays with the connection.  Ending a share or a link
changes the tables only, so a watcher goes on hearing about files it may no
longer see (`revoked_watcher_told`).

As long as nobody ends a share or link that some watcher relies on, every
frame a watcher is sent is backed by a row that is still there
(`watchers_backed`).
-/

namespace Lectern.Sync

open FileTree Threads

/-- The tables grant what the watch frame asked for: the link or share it names
is there, belongs to the owner, for a share is the user's, and its root covers
the path. -/
def Grants (db : Db) (userId : Str) (request : Json) (owner path : Str) : Prop :=
  let link := request.fStringField (str "link")
  let share := request.fStringField (str "share")
  (link ≠ [] ∧ ∃ row ∈ db.links, row.id = link ∧ row.ownerId = owner ∧
      fMatchesPrefix path row.relPath = true) ∨
    link = [] ∧ ∃ row ∈ db.shares, row.id = share ∧ row.granteeId = userId ∧ row.ownerId = owner ∧
      fMatchesPrefix path row.relPath = true

/-! ## Prefixes -/

theorem fMatchesPrefix_iff {path pathPrefix : Str} :
    fMatchesPrefix path pathPrefix = true ↔
      path = pathPrefix ∨ ∃ rest, path = pathPrefix ++ slash :: rest := by
  unfold fMatchesPrefix
  rw [Bool.or_eq_true, decide_eq_true_eq, List.isPrefixOf_iff_prefix]
  constructor
  · rintro (h | ⟨rest, h⟩)
    · exact Or.inl h
    · exact Or.inr ⟨rest, by simpa using h.symm⟩
  · rintro (h | ⟨rest, h⟩)
    · exact Or.inl h
    · exact Or.inr ⟨rest, by simpa using h.symm⟩

/-- Below what lies below a root is below the root. -/
theorem fMatchesPrefix_trans {path middle root : Str} (h : fMatchesPrefix path middle = true)
    (hroot : fMatchesPrefix middle root = true) : fMatchesPrefix path root = true := by
  rw [fMatchesPrefix_iff] at h hroot ⊢
  rcases h with rfl | ⟨rest, rfl⟩
  · exact hroot
  · rcases hroot with rfl | ⟨rest', rfl⟩
    · exact Or.inr ⟨rest, rfl⟩
    · exact Or.inr ⟨rest' ++ slash :: rest, by simp⟩

theorem Grants.below {db : Db} {userId : Str} {request : Json} {owner path middle : Str}
    (h : Grants db userId request owner middle) (hpath : fMatchesPrefix path middle = true) :
    Grants db userId request owner path := by
  rcases h with ⟨hlink, row, hrow, hid, howner, hroot⟩ |
    ⟨hlink, row, hrow, hid, hgrantee, howner, hroot⟩
  · exact Or.inl ⟨hlink, row, hrow, hid, howner, fMatchesPrefix_trans hpath hroot⟩
  · exact Or.inr ⟨hlink, row, hrow, hid, hgrantee, howner, fMatchesPrefix_trans hpath hroot⟩

/-- A sub path joined to a root lies at or below it. -/
theorem matches_fEffectivePath {root sub message path : Str} {isDir : Bool}
    (h : fEffectivePath root isDir sub message = .ok path) : fMatchesPrefix path root = true := by
  rw [fMatchesPrefix_iff]
  unfold fEffectivePath at h
  split at h
  · cases h
    exact Or.inl rfl
  · split at h
    · cases h
    · split at h
      · cases h
      · cases h
        exact Or.inr ⟨_, rfl⟩

/-- **A watch is resolved from a row that grants it.** -/
theorem grants_fResolveWatch {db : Db} {userId : Str} {request : Json} {owner path : Str}
    (h : fResolveWatch db userId request = some (owner, path)) :
    Grants db userId request owner path := by
  unfold fResolveWatch at h
  dsimp only at h
  unfold Grants
  dsimp only
  by_cases hlink : request.fStringField (str "link") = []
  · rw [if_neg (by simpa using hlink)] at h
    refine Or.inr ⟨hlink, ?_⟩
    split at h
    · rename_i a hresolved
      cases h
      split at hresolved
      · obtain ⟨row, hrow, hid, hgrantee, howner, _, _, hpath⟩ := fResolveShareAccess_ok hresolved
        exact ⟨row, hrow, hid, hgrantee, howner.symm, matches_fEffectivePath hpath⟩
      · cases hresolved
    · cases h
  · rw [if_pos hlink] at h
    refine Or.inl ⟨hlink, ?_⟩
    split at h
    · rename_i a hresolved
      cases h
      obtain ⟨row, hrow, hid, howner, _, _, hpath⟩ := fResolveLinkAccess_ok hresolved
      exact ⟨row, hrow, hid, howner.symm, matches_fEffectivePath hpath⟩
    · cases h

/-! ## Ending a share or a link -/

/-- The request is a DELETE that ends the share or link the watch frame named. -/
def Revokes (s : Server) (request : Json) : Request → Prop
  | .share caller (.deleteShare id) _ =>
      request.fStringField (str "link") = [] ∧ request.fStringField (str "share") = id ∧
        ∃ row ∈ s.db.shares, row.id = id ∧
          (caller = some row.ownerId ∨ caller = some row.granteeId)
  | .share caller (.deleteLink id) _ =>
      request.fStringField (str "link") = id ∧ id ≠ [] ∧
        ∃ row ∈ s.db.links, row.id = id ∧ caller = some row.ownerId
  | _ => False

/-- Rows that are still there still grant. -/
theorem Grants.mono {db db' : Db} {userId : Str} {request : Json} {owner path : Str}
    (h : Grants db userId request owner path)
    (hlinks : ∀ row ∈ db.links, row.id = request.fStringField (str "link") → row.id ≠ [] →
      row ∈ db'.links)
    (hshares : ∀ row ∈ db.shares, row.id = request.fStringField (str "share") →
      request.fStringField (str "link") = [] → ∃ row' ∈ db'.shares, row'.id = row.id ∧
        row'.granteeId = row.granteeId ∧ row'.ownerId = row.ownerId ∧
        row'.relPath = row.relPath) : Grants db' userId request owner path := by
  rcases h with ⟨hlink, row, hrow, hid, howner, hroot⟩ |
    ⟨hlink, row, hrow, hid, hgrantee, howner, hroot⟩
  · exact Or.inl ⟨hlink, row, hlinks row hrow hid (hid ▸ hlink), hid, howner, hroot⟩
  · obtain ⟨row', hrow', hid', hgrantee', howner', hpath'⟩ := hshares row hrow hid hlink
    refine Or.inr ⟨hlink, row', hrow', ?_, ?_, ?_, ?_⟩
    · rw [hid', hid]
    · rw [hgrantee', hgrantee]
    · rw [howner', howner]
    · rw [hpath']
      exact hroot

/-- No other endpoint takes a row away. -/
theorem grants_effect {cfg : Config} {caller : Option Str} {s s' : Server} {req : ShareRequest}
    (he : Effect cfg caller s req s') (hshare : ∀ id, req ≠ .deleteShare id)
    (hlink : ∀ id, req ≠ .deleteLink id) {userId : Str} {request : Json} {owner path : Str}
    (h : Grants s.db userId request owner path) : Grants s'.db userId request owner path := by
  cases he with
  | nothing => exact h
  | share body id now row db howner hpath hdb =>
      obtain ⟨hlinks, _, _, hshares⟩ := upsertShare_keeps hdb
      exact h.mono (fun row hrow _ _ => hlinks.symm ▸ hrow)
        (fun row hrow _ _ => hshares row hrow)
  | unshare id kept => exact absurd rfl (hshare id)
  | link =>
      exact h.mono (fun row hrow _ _ => List.mem_append_left _ hrow)
        (fun row hrow _ _ => ⟨row, hrow, rfl, rfl, rfl, rfl⟩)
  | unlink id kept => exact absurd rfl (hlink id)
  | writeLink => exact h
  | writeShare => exact h
  | count => exact h
  | comment => exact h
  | uncomment => exact h

/-- **A request takes back nothing but what it revokes.** -/
theorem grants_serve {cfg : Config} {s : Server} {r : Request} {userId : Str} {request : Json}
    {owner path : Str} (h : Grants s.db userId request owner path)
    (hkeep : ¬ Revokes s request r) : Grants (serve cfg r s).1.db userId request owner path := by
  cases r with
  | share caller req device =>
      rw [serve_share]
      cases req with
      | deleteShare id =>
          unfold handle deleteShare
          dsimp only
          cases hcaller : fCurrentUser caller with
          | error e => exact h
          | ok user =>
              dsimp only
              split
              · refine h.mono (fun row hrow _ _ => hrow) ?_
                intro row hrow hid hlink
                refine ⟨row, List.mem_filter.mpr ⟨hrow, ?_⟩, rfl, rfl, rfl, rfl⟩
                -- A row the caller could end would have been the one the watch relies on.
                rw [Bool.not_eq_true', decide_eq_false_iff_not]
                intro hended
                refine hkeep ⟨hlink, hid.symm.trans hended.1, row, hrow, hended.1, ?_⟩
                rw [fCurrentUser_ok hcaller]
                exact hended.2.imp (fun hsame => by rw [hsame]) (fun hsame => by rw [hsame])
              · exact h
      | deleteLink id =>
          unfold handle deleteLink
          dsimp only
          cases hcaller : fCurrentUser caller with
          | error e => exact h
          | ok user =>
              dsimp only
              split
              · refine h.mono ?_ (fun row hrow _ _ => ⟨row, hrow, rfl, rfl, rfl, rfl⟩)
                intro row hrow hid hne
                refine List.mem_filter.mpr ⟨hrow, ?_⟩
                rw [Bool.not_eq_true', decide_eq_false_iff_not]
                intro hended
                refine hkeep ⟨hid.symm.trans hended.1, hended.1 ▸ hne, row, hrow, hended.1, ?_⟩
                rw [fCurrentUser_ok hcaller, hended.2]
              · exact h
      | _ =>
          refine grants_effect (effect_of cfg caller _ s) ?_ ?_ h
          · intro id hreq
            cases hreq
          · intro id hreq
            cases hreq
  | _ =>
      rw [db_serve_own (by intro caller req device hr; cases hr)]
      exact h

/-! ## What a watcher may hear -/

/-- The watch that made the connection hear of the path was granted through a
row that is still there. -/
def Covered (db : Db) (why : Notice) (path : Str) : Prop :=
  ∃ watch ∈ why.seen.watches, watch.owner = why.owner ∧
    Grants db why.seen.userId watch.request why.owner path

/-- A frame for connection `c`: it is for the account of the connection, and
somebody else's device may hear of every path it names. -/
def Frame.Backed (s : Sys Server Request) (c : Nat) : Frame → Prop
  | .requestChanges => True
  | .changes paths why =>
      (∃ j, .added c why.seen.userId j ∈ s.log) ∧
        (ownersDevice why.seen why.owner = false →
          (∃ path, Covered s.env.db why path) ∧ ∀ path ∈ paths, Covered s.env.db why path)

def Job.Backed (s : Sys Server Request) : Job Request → Prop
  | .resolve c userId _ => ∃ j, .added c userId j ∈ s.log
  | .follow c (some (owner, path)) request =>
      (∃ userId j, .added c userId j ∈ s.log) ∧
        ∀ conn, s.hub.find c = some conn → ownersDevice conn owner = false →
          Grants s.env.db conn.userId request owner path
  | .track c frame => frame.Backed s c
  | .send c _ frame => frame.Backed s c
  | _ => True

/-- A watch frame that somebody else's device still profits from: it is
followed, or about to be, or frames on its account are on the way. -/
inductive ReliesOn (p : Pool (Sys Server Request) (Job Request)) (request : Json) : Prop
  | installed (c : Nat) (conn : Connection) (watch : Watch)
      (hfind : p.state.hub.find c = some conn) (hwatch : watch ∈ conn.watches)
      (hother : ownersDevice conn watch.owner = false) (hrequest : watch.request = request)
  | resolved (c : Nat) (conn : Connection) (owner path : Str)
      (hjob : .follow c (some (owner, path)) request ∈ p.jobs)
      (hfind : p.state.hub.find c = some conn) (hother : ownersDevice conn owner = false)
  | announced (c : Nat) (paths : List Str) (why : Notice) (watch : Watch)
      (hjob : .track c (.changes paths why) ∈ p.jobs ∨
        ∃ id, .send c id (.changes paths why) ∈ p.jobs)
      (hwatch : watch ∈ why.seen.watches) (howner : watch.owner = why.owner)
      (hother : ownersDevice why.seen why.owner = false) (hrequest : watch.request = request)

/-- The action does not end a share or link that is relied on. -/
def Spares : Action (Entry Request) Bool → Pool (Sys Server Request) (Job Request) → Prop
  | .run i _, p => ∀ r rest, p.threads[i]? = some (.serve r :: rest) →
      ∀ request, ReliesOn p request → ¬ Revokes p.state.env request r
  | .enter _, _ => True

/-- What holds as long as every action spares what is relied on. -/
structure Backs (p : Pool (Sys Server Request) (Job Request)) : Prop where
  users : Users p.state
  added : ∀ c conn, p.state.hub.find c = some conn → ∃ j, .added c conn.userId j ∈ p.state.log
  watches : ∀ c conn watch, p.state.hub.find c = some conn → watch ∈ conn.watches →
    ownersDevice conn watch.owner = false →
    Grants p.state.env.db conn.userId watch.request watch.owner watch.pathPrefix
  jobs : ∀ job ∈ p.jobs, job.Backed p.state

/-- What an action that spares leaves to the jobs and watches that stay. -/
structure Keeps (p : Pool (Sys Server Request) (Job Request)) (s' : Sys Server Request) :
    Prop where
  log : ∀ e ∈ p.state.log, e ∈ s'.log
  grants : ∀ request, ReliesOn p request → ∀ userId owner path,
    Grants p.state.env.db userId request owner path → Grants s'.env.db userId request owner path
  found : ∀ c userId j conn', .added c userId j ∈ p.state.log → s'.hub.find c = some conn' →
    ∃ conn, p.state.hub.find c = some conn ∧ conn.userId = conn'.userId

section

variable {p : Pool (Sys Server Request) (Job Request)} {s' : Sys Server Request}

theorem ownersDevice_congr {conn conn' : Connection} (h : conn.userId = conn'.userId)
    (owner : Str) : ownersDevice conn owner = ownersDevice conn' owner := by
  unfold ownersDevice
  rw [h]

/-- A frame on its way stays backed. -/
theorem Frame.Backed.keep (hkeeps : Keeps p s') {c : Nat} {frame : Frame}
    (hjob : .track c frame ∈ p.jobs ∨ ∃ id, .send c id frame ∈ p.jobs)
    (h : frame.Backed p.state c) : frame.Backed s' c := by
  cases frame with
  | requestChanges => trivial
  | changes paths why =>
      obtain ⟨⟨j, hadded⟩, hbacked⟩ := h
      refine ⟨⟨j, hkeeps.log _ hadded⟩, ?_⟩
      intro hother
      have hkeep (path : Str) (hpath : Covered p.state.env.db why path) :
          Covered s'.env.db why path := by
        obtain ⟨watch, hwatch, howner, hgrants⟩ := hpath
        exact ⟨watch, hwatch, howner, hkeeps.grants _
          (.announced c paths why watch hjob hwatch howner hother rfl) _ _ _ hgrants⟩
      obtain ⟨⟨path, hpath⟩, hall⟩ := hbacked hother
      exact ⟨⟨path, hkeep path hpath⟩, fun path hpath => hkeep path (hall path hpath)⟩

/-- A job that stays is backed as before. -/
theorem Job.Backed.keep (hkeeps : Keeps p s') {job : Job Request} (hjob : job ∈ p.jobs)
    (h : job.Backed p.state) : job.Backed s' := by
  cases job with
  | resolve c userId frame =>
      obtain ⟨j, hadded⟩ := h
      exact ⟨j, hkeeps.log _ hadded⟩
  | follow c target request =>
      cases target with
      | none => trivial
      | some target =>
          obtain ⟨owner, path⟩ := target
          obtain ⟨⟨userId, j, hadded⟩, hgrants⟩ := h
          refine ⟨⟨userId, j, hkeeps.log _ hadded⟩, ?_⟩
          intro conn' hfind' hother
          obtain ⟨conn, hfind, huser⟩ := hkeeps.found c userId j conn' hadded hfind'
          rw [← ownersDevice_congr huser] at hother
          rw [← huser]
          exact hkeeps.grants _ (.resolved c conn owner path hjob hfind hother) _ _ _
            (hgrants conn hfind hother)
  | track c frame => exact Frame.Backed.keep hkeeps (Or.inl hjob) h
  | send c id frame => exact Frame.Backed.keep hkeeps (Or.inr ⟨id, hjob⟩) h
  | _ => trivial

/-! ## The paths a watcher is told -/

theorem mem_addVisible {visible paths : List Str} {watch : Watch} {path : Str}
    (h : path ∈ addVisible visible watch paths) :
    path ∈ visible ∨ fMatchesPrefix path watch.pathPrefix = true := by
  unfold addVisible at h
  induction paths generalizing visible with
  | nil => exact Or.inl h
  | cons first rest ih =>
      rw [List.foldl_cons] at h
      rcases ih h with hmem | hmatch
      · split at hmem
        · rename_i hfirst
          rcases List.mem_append.mp hmem with hold | hnew
          · exact Or.inl hold
          · rw [List.mem_singleton.mp hnew]
            exact Or.inr (Bool.and_eq_true_iff.mp hfirst).1
        · exact Or.inl hmem
      · exact Or.inr hmatch

/-- Every path a watcher may see is covered by one of its watches. -/
theorem mem_watched {conn : Connection} {owner : Str} {paths : List Str} {path : Str}
    (h : path ∈ watched conn owner paths) :
    ∃ watch ∈ conn.watches, watch.owner = owner ∧ fMatchesPrefix path watch.pathPrefix = true := by
  have hfold (watches : List Watch) (visible : List Str)
      (h : path ∈ watches.foldl (fun visible watch =>
        if watch.owner = owner then addVisible visible watch paths else visible) visible) :
      path ∈ visible ∨ ∃ watch ∈ watches, watch.owner = owner ∧
        fMatchesPrefix path watch.pathPrefix = true := by
    induction watches generalizing visible with
    | nil => exact Or.inl h
    | cons watch rest ih =>
        rw [List.foldl_cons] at h
        rcases ih _ h with hmem | ⟨watch', hwatch', hcovers⟩
        · split at hmem
          · rename_i howner
            rcases mem_addVisible hmem with hold | hmatch
            · exact Or.inl hold
            · exact Or.inr ⟨watch, List.mem_cons_self, howner, hmatch⟩
          · exact Or.inl hmem
        · exact Or.inr ⟨watch', List.mem_cons_of_mem _ hwatch', hcovers⟩
  rcases hfold conn.watches [] h with hnil | hcovered
  · cases hnil
  · exact hcovered

/-- **What somebody else's device is told** is made of watched paths, and it is
told only when there are some. -/
theorem announced_other {conn : Connection} {owner originDevice : Str} {paths told : List Str}
    (hother : ownersDevice conn owner = false)
    (h : announced conn owner paths originDevice = some told) :
    (∃ path, path ∈ watched conn owner paths) ∧ ∀ path ∈ told, path ∈ watched conn owner paths := by
  unfold announced at h
  rw [hother] at h
  split at h
  · cases h
  · simp only [Bool.false_eq_true, if_false, Bool.not_false, and_true] at h
    split at h
    · cases h
    · rename_i hsome
      obtain ⟨path, hpath⟩ := List.exists_mem_of_ne_nil _ hsome
      refine ⟨⟨path, hpath⟩, ?_⟩
      intro path hpath
      cases h
      split at hpath
      · exact hpath
      · cases hpath

/-! ## What one action keeps -/

variable {cfg : Config} {parse : Str → Option Json} {i : Nat} {jobs : List (Job Request)}

/-- The frames of a notification are backed by the watches it saw. -/
theorem Backs.notify (h : Backs p) {a : Announcement} {returns : Bool}
    (hperform : perform (service cfg parse) returns i (.notify a) p.state = (s', jobs)) :
    ∀ job ∈ jobs, job.Backed s' := by
  cases hperform
  intro job hjob
  obtain ⟨⟨c, frame⟩, hframe, rfl⟩ := List.mem_map.mp hjob
  obtain ⟨⟨c', conn⟩, hentry, htold⟩ := List.mem_filterMap.mp hframe
  obtain ⟨told, hannounced, hsame⟩ := Option.map_eq_some_iff.mp htold
  cases hsame
  have hfind := Hub.find_of_mem hentry
  obtain ⟨j, hadded⟩ := h.added c' conn hfind
  refine ⟨⟨j, List.mem_cons_of_mem _ hadded⟩, ?_⟩
  intro hother
  obtain ⟨⟨path, hpath⟩, htoldPaths⟩ := announced_other hother hannounced
  have hcovered {path : Str} (hpath : path ∈ watched conn a.ownerId a.paths) :
      Covered p.state.env.db ⟨a.ownerId, conn⟩ path := by
    obtain ⟨watch, hwatch, howner, hmatch⟩ := mem_watched hpath
    have hgrants := h.watches c' conn watch hfind hwatch (by rw [howner]; exact hother)
    rw [howner] at hgrants
    exact ⟨watch, hwatch, howner, hgrants.below hmatch⟩
  exact ⟨⟨path, hcovered hpath⟩, fun path hpath => hcovered (htoldPaths path hpath)⟩

theorem backed_answer (s : Sys Server Request) (c : Nat) (kind : Reply) (frame : Json) :
    ∀ job ∈ answer c kind frame, job.Backed s := by
  intro job hjob
  unfold answer at hjob
  dsimp only at hjob
  split at hjob
  · cases hjob
  · rw [List.mem_singleton.mp hjob]
    trivial

/-- The jobs a backed job puts in its place are backed. -/
theorem Backs.replaced (h : Backs p) {returns : Bool} {job : Job Request}
    (hjob : job.Backed p.state)
    (hperform : perform (service cfg parse) returns i job p.state = (s', jobs)) :
    ∀ new ∈ jobs, new.Backed s' := by
  cases job with
  | handle c frame =>
      unfold perform at hperform
      dsimp only at hperform
      cases hfind : p.state.hub.find c with
      | none =>
          rw [hfind] at hperform
          cases hperform
          intro new hnew
          cases hnew
      | some conn =>
          obtain ⟨j, hadded⟩ := h.added c conn hfind
          rw [hfind] at hperform
          cases hperform
          intro new hnew
          unfold afterHandle at hnew
          dsimp only at hnew
          split at hnew
          · cases hnew
          · split at hnew
            · exact backed_answer _ c .ack frame new hnew
            · split at hnew
              · rw [List.mem_singleton.mp hnew]
                refine ⟨j, ?_⟩
                split
                · exact List.mem_cons_of_mem _ hadded
                · exact hadded
              · split at hnew
                · rw [List.mem_singleton.mp hnew]
                  trivial
                · cases hnew
  | resolve c userId frame =>
      obtain ⟨j, hadded⟩ := hjob
      unfold perform at hperform
      dsimp only at hperform
      cases hresolve : fResolveWatch p.state.env.db userId frame with
      | none =>
          rw [show (service cfg parse).resolve p.state.env userId frame = none from hresolve]
            at hperform
          cases hperform
          exact backed_answer _ c .nack frame
      | some target =>
          rw [show (service cfg parse).resolve p.state.env userId frame = some target from hresolve]
            at hperform
          cases hperform
          intro new hnew
          rw [List.mem_singleton.mp hnew]
          obtain ⟨owner, path⟩ := target
          refine ⟨⟨userId, j, hadded⟩, ?_⟩
          intro conn hfind _
          rw [h.users c userId j conn hadded hfind]
          exact grants_fResolveWatch hresolve
  | follow c target frame =>
      unfold perform at hperform
      dsimp only at hperform
      split at hperform
      · cases hperform
        intro new hnew
        cases hnew
      · cases hperform
        exact backed_answer _ c .ack frame
  | track c frame =>
      unfold perform at hperform
      dsimp only at hperform
      split at hperform
      · cases hperform
        intro new hnew
        cases hnew
      · cases hperform
        intro new hnew
        rcases List.mem_cons.mp hnew with rfl | hnew
        · cases frame with
          | requestChanges => trivial
          | changes paths why =>
              obtain ⟨⟨j, hadded⟩, hbacked⟩ := hjob
              exact ⟨⟨j, List.mem_cons_of_mem _ hadded⟩, hbacked⟩
        · rw [List.mem_singleton.mp hnew]
          trivial
  | serve r =>
      cases hperform
      intro new hnew
      split at hnew
      · rw [List.mem_singleton.mp hnew]
        trivial
      · cases hnew
  | notify a => exact h.notify hperform
  | _ =>
      cases hperform
      intro new hnew
      cases hnew

/-- An action that spares what is relied on keeps it. -/
theorem keeps_perform {before after : List (List (Job Request))} {job : Job Request}
    {rest : List (Job Request)} {returns : Bool}
    (hthreads : p.threads = before ++ (job :: rest) :: after)
    (hspares : Spares (.run before.length returns) p)
    (hperform : perform (service cfg parse) returns before.length job p.state = (s', jobs)) :
    Keeps p s' := by
  obtain ⟨extra, hlog, _, _⟩ := log_perform hperform
  refine ⟨?_, ?_, ?_⟩
  · intro e he
    rw [hlog]
    exact List.mem_append_right _ he
  · intro request hrelies userId owner path hgrants
    rcases env_perform hperform with hsame | ⟨r, rfl, henv⟩
    · rw [hsame]
      exact hgrants
    · rw [henv]
      have hhead : p.threads[before.length]? = some (.serve r :: rest) := by
        rw [hthreads]
        exact Machine.thread_self _ _ _
      exact grants_serve hgrants (hspares r rest hhead request hrelies)
  · intro c userId j conn' _ hfind
    obtain ⟨conn, hfind', huser, _⟩ := find_perform hperform hfind
    exact ⟨conn, hfind', huser⟩

theorem keeps_enter {e : Entry Request} (hids : FreshIds (ledger p))
    (henter : enter (service cfg parse) e i p.state = some (s', jobs)) : Keeps p s' := by
  obtain ⟨extra, hlog, _, _⟩ := log_enter henter
  refine ⟨?_, ?_, ?_⟩
  · intro event hevent
    rw [hlog]
    exact List.mem_append_right _ hevent
  · intro request _ userId owner path hgrants
    rw [env_enter henter]
    exact hgrants
  · intro c userId j conn' hadded hfind
    rcases find_enter henter hfind with ⟨conn, hfind', huser, _⟩ | ⟨_, hc, _⟩
    · exact ⟨conn, hfind', huser⟩
    · have hlt := hids.added_lt c (List.mem_filterMap.mpr ⟨_, hadded, rfl⟩)
      change c < p.state.hub.nextConnection at hlt
      omega

theorem Backs.perform (h : Backs p) {before after : List (List (Job Request))}
    {job : Job Request} {rest : List (Job Request)} {returns : Bool}
    (hthreads : p.threads = before ++ (job :: rest) :: after)
    (hspares : Spares (.run before.length returns) p)
    (hperform : perform (service cfg parse) returns before.length job p.state = (s', jobs)) :
    Backs ⟨s', before ++ (jobs ++ rest) :: after⟩ := by
  have hkeeps := keeps_perform hthreads hspares hperform
  have hold : ∀ other ∈ p.jobs, other.Backed s' :=
    fun other hother => Job.Backed.keep hkeeps hother (h.jobs other hother)
  unfold Pool.jobs at hold
  rw [hthreads] at hold
  have hjob : job ∈ p.jobs := by
    unfold Pool.jobs
    rw [hthreads]
    simp
  refine ⟨h.users.perform hperform, ?_, ?_, ?_⟩
  · intro c conn' hfind
    obtain ⟨conn, hfind', huser, _⟩ := find_perform hperform hfind
    obtain ⟨j, hadded⟩ := h.added c conn hfind'
    rw [← huser]
    exact ⟨j, hkeeps.log _ hadded⟩
  · intro c conn' watch hfind hwatch hother
    obtain ⟨conn, hfind', huser, hsame | ⟨target, request, rfl, hinstalled⟩⟩ :=
      find_perform hperform hfind
    · rw [hsame] at hwatch
      rw [← ownersDevice_congr huser] at hother
      rw [← huser]
      exact hkeeps.grants _ (.installed c conn watch hfind' hwatch hother rfl) _ _ _
        (h.watches c conn watch hfind' hwatch hother)
    · rw [hinstalled] at hwatch
      cases target with
      | none => cases hwatch
      | some target =>
          obtain ⟨owner, path⟩ := target
          rw [List.mem_singleton.mp hwatch] at hother ⊢
          rw [← ownersDevice_congr huser] at hother
          rw [← huser]
          exact hkeeps.grants _ (.resolved c conn owner path hjob hfind' hother) _ _ _
            ((h.jobs _ hjob).2 conn hfind' hother)
  · intro other hother
    have hnew := h.replaced (h.jobs job hjob) hperform
    simp only [Pool.jobs, List.flatten_append, List.flatten_cons, List.mem_append] at hother
    rcases hother with hother | (hother | hother) | hother
    · exact hold other (by simp [hother])
    · exact hnew other hother
    · exact hold other (by simp [hother])
    · exact hold other (by simp [hother])

theorem Backs.enter (hids : FreshIds (ledger p)) (h : Backs p) {e : Entry Request}
    (henter : enter (service cfg parse) e p.threads.length p.state = some (s', jobs)) :
    Backs ⟨s', p.threads ++ [jobs]⟩ := by
  have hkeeps := keeps_enter hids henter
  refine ⟨h.users.enter (fun c userId j hmem => hids.added_lt c
    (List.mem_filterMap.mpr ⟨_, hmem, rfl⟩)) henter, ?_, ?_, ?_⟩
  · intro c conn' hfind
    rcases find_enter henter hfind with ⟨conn, hfind', huser, _⟩ | ⟨rfl, hc, _⟩
    · obtain ⟨j, hadded⟩ := h.added c conn hfind'
      rw [← huser]
      exact ⟨j, hkeeps.log _ hadded⟩
    · cases henter
      exact ⟨p.threads.length, hc ▸ List.mem_cons_self⟩
  · intro c conn' watch hfind hwatch hother
    rcases find_enter henter hfind with ⟨conn, hfind', huser, hsame⟩ | ⟨_, _, hnone⟩
    · rw [hsame] at hwatch
      rw [← ownersDevice_congr huser] at hother
      rw [env_enter henter, ← huser]
      exact h.watches c conn watch hfind' hwatch hother
    · rw [hnone] at hwatch
      cases hwatch
  · intro job hjob
    simp only [Pool.jobs, List.flatten_append, List.mem_append, List.flatten_cons,
      List.flatten_nil, List.append_nil] at hjob
    rcases hjob with hold | hnew
    · exact Job.Backed.keep hkeeps hold (h.jobs job hold)
    · -- A new thread begins with a frame to look at, a request, or a catch-up.
      cases e with
      | connect userId =>
          cases henter
          split at hnew
          · cases hnew
          · rw [List.mem_singleton.mp hnew]
            trivial
      | disconnect c =>
          cases henter
          cases hnew
      | message c text =>
          unfold Sync.enter at henter
          dsimp only at henter
          split at henter
          · cases henter
            split at hnew
            · rw [List.mem_singleton.mp hnew]
              trivial
            · cases hnew
          · cases henter
            cases hnew
      | fire c id =>
          unfold Sync.enter at henter
          dsimp only at henter
          split at henter
          · split at henter
            · cases henter
              rw [List.mem_singleton.mp hnew]
              trivial
            · cases henter
              cases hnew
          · cases henter
      | request r =>
          cases henter
          rw [List.mem_singleton.mp hnew]
          trivial

end

/-! ## Runs -/

/-- **Watches and frames stay backed**, in every run that spares what is relied
on. -/
theorem backs_of_reachable {cfg : Config} {parse : Str → Option Json}
    {p : Pool (Sys Server Request) (Job Request)}
    (hp : Machine.Reachable (machine (service cfg parse)) Spares (Boots cfg) p) : Backs p := by
  induction hp with
  | start hboots =>
      obtain ⟨⟨hthreads, hhub, _, hlog⟩, _⟩ := hboots
      have hnone (c : Nat) : Hub.start.find c = none := rfl
      refine ⟨?_, ?_, ?_, ?_⟩
      · intro c userId j conn hadded
        rw [hlog] at hadded
        cases hadded
      · intro c conn hfind
        rw [hhub, hnone] at hfind
        cases hfind
      · intro c conn watch hfind
        rw [hhub, hnone] at hfind
        cases hfind
      · intro job hjob
        unfold Pool.jobs at hjob
        rw [hthreads] at hjob
        cases hjob
  | step action hp hspares hstep ih =>
      have hids := (accounted_of_reachable (hp.mono (fun _ _ h => h) (fun _ h => h.1))).ids
      rcases Machine.step_cases hstep with ⟨e, s, jobs, rfl, henter, rfl⟩ |
        ⟨before, job, rest, after, returns, s, jobs, rfl, hthreads, hperform, rfl⟩
      · exact ih.enter hids henter
      · exact ih.perform hthreads hspares (Option.some.inj hperform)

/-- **What watchers are sent is backed by the tables.**  Take any run in which
no DELETE ends a share or link that a watcher relies on at that moment.
Whenever a changes frame is about to be sent to a connection that is not the
owner's, a share of the connection's account, or a link, that one of its
watches was granted through is still there; one that covers the path, for every
path the frame names. -/
theorem watchers_backed (cfg : Config) (parse : Str → Option Json)
    (p : Pool (Sys Server Request) (Job Request))
    (hp : Machine.Reachable (machine (service cfg parse)) Spares (Boots cfg) p)
    (i c : Nat) (id : Str) (paths : List Str) (why : Notice) (rest : List (Job Request))
    (hsend : p.threads[i]? = some (.send c id (.changes paths why) :: rest))
    (hother : ownersDevice why.seen why.owner = false) :
    (∃ j, .added c why.seen.userId j ∈ p.state.log) ∧
      (∃ path, Covered p.state.env.db why path) ∧
      ∀ path ∈ paths, Covered p.state.env.db why path := by
  have hjob : .send c id (.changes paths why) ∈ p.jobs :=
    Pool.mem_jobs.mpr ⟨i, _, hsend, List.mem_cons_self⟩
  obtain ⟨hadded, hbacked⟩ := (backs_of_reachable hp).jobs _ hjob
  exact ⟨hadded, hbacked hother⟩

/-! ### Runs in which nobody ends a share or a link -/

/-- The request is not a DELETE of a share or link. -/
def Request.Lasting : Request → Bool
  | .share _ (.deleteShare _) _ => false
  | .share _ (.deleteLink _) _ => false
  | _ => true

def Peaceful : Action (Entry Request) Bool → Pool (Sys Server Request) (Job Request) → Prop
  | .enter (.request r), _ => r.Lasting = true
  | _, _ => True

theorem Request.Lasting.spares {r : Request} (h : r.Lasting = true) (s : Server) (request : Json) :
    ¬ Revokes s request r := by
  intro hrevokes
  unfold Revokes at hrevokes
  split at hrevokes
  · cases h
  · cases h
  · exact hrevokes

/-- Only lasting requests are ever served. -/
theorem lasting_of_reachable {cfg : Config} {parse : Str → Option Json}
    {start : Pool (Sys Server Request) (Job Request) → Prop} (hstart : ∀ p, start p → Fresh p)
    {p : Pool (Sys Server Request) (Job Request)}
    (hp : Machine.Reachable (machine (service cfg parse)) Peaceful start p) :
    ∀ job ∈ p.jobs, ∀ r, job = .serve r → r.Lasting = true := by
  apply hp.invariant (I := fun p => ∀ job ∈ p.jobs, ∀ r, job = .serve r → r.Lasting = true)
  · intro p hstarted job hjob
    unfold Pool.jobs at hjob
    rw [(hstart p hstarted).1] at hjob
    cases hjob
  · intro action p p' h hpeaceful hstep
    rcases Machine.step_cases hstep with ⟨e, s, jobs, rfl, henter, rfl⟩ |
      ⟨before, job, rest, after, returns, s, jobs, rfl, hthreads, hperform, rfl⟩
    · intro job hjob r hr
      simp only [Pool.jobs, List.flatten_append, List.mem_append, List.flatten_cons,
        List.flatten_nil, List.append_nil] at hjob
      rcases hjob with hold | hnew
      · exact h job hold r hr
      · rw [hr] at hnew
        rw [serve_mem_enter henter hnew] at hpeaceful
        exact hpeaceful
    · intro job' hjob' r hr
      unfold Pool.jobs at h
      rw [hthreads] at h
      simp only [Pool.jobs, List.flatten_append, List.flatten_cons, List.mem_append] at hjob'
      rcases hjob' with hjob' | (hjob' | hjob') | hjob'
      · exact h job' (by simp [hjob']) r hr
      · rw [hr] at hjob'
        exact absurd hjob' (serve_not_mem_perform (Option.some.inj hperform))
      · exact h job' (by simp [hjob']) r hr
      · exact h job' (by simp [hjob']) r hr

/-- Such a run spares everything that is relied on. -/
theorem spares_of_peaceful {cfg : Config} {parse : Str → Option Json}
    {p : Pool (Sys Server Request) (Job Request)}
    (hp : Machine.Reachable (machine (service cfg parse)) Peaceful (Boots cfg) p) :
    Machine.Reachable (machine (service cfg parse)) Spares (Boots cfg) p := by
  apply hp.allowed (fun p hp => lasting_of_reachable (fun _ hboots => hboots.1) hp)
  intro action p hlasting _
  cases action with
  | enter e => trivial
  | run i returns =>
      intro r rest hhead request _
      have hmem : .serve r ∈ p.jobs := Pool.mem_jobs.mpr ⟨i, _, hhead, List.mem_cons_self⟩
      exact Request.Lasting.spares (hlasting _ hmem r rfl) p.state.env request

/-! ### Bob watches, Ann writes -/

/-- `"type":"watch"` for the file `x.mdp` of the share `s1`, between braces. -/
def watchText : Str :=
  str "\x7b\"id\":\"w1\",\"path\":\"x.mdp\",\"share\":\"s1\",\"type\":\"watch\"\x7d"

def watchFrame : Json :=
  .object [(str "id", .string (str "w1")), (str "path", .string (str "x.mdp")),
    (str "share", .string (str "s1")), (str "type", .string (str "watch"))]

def watchService : Service Server Request :=
  service plainConfig (fun text => if text = watchText then some watchFrame else none)

/-- Bob connects and follows the shared file. -/
def bobWatches : List (Action (Entry Request) Bool) :=
  [.enter (.connect (str "bob")), .run 0 true, .run 0 true, .run 0 true,
    .enter (.message 1 watchText), .run 1 true, .run 1 true, .run 1 true, .run 1 true]

/-- Ann writes the file; the notification has a frame ready. -/
def annRewrites (i : Nat) : List (Action (Entry Request) Bool) :=
  [.enter (.request (.putFile (str "ann") (str "docs/x.mdp") (str "two") (str "00") (str "phone"))),
    .run i true, .run i true, .run i true]

def annUnshares (i : Nat) : List (Action (Entry Request) Bool) :=
  [.enter (.request (.share (some (str "ann")) (.deleteShare (str "s1")) [])), .run i true]

/-- Where a run of the sample server leads. -/
def runOf (as : List (Action (Entry Request) Bool)) : Pool (Sys Server Request) (Job Request) :=
  ((machine watchService).exec as atRest).getD atRest

/-- The next job sends the file's name to a device that is not Ann's. -/
def namesFile : Job Request → Bool
  | .send _ _ (.changes paths why) =>
      paths = [str "docs/x.mdp"] && !ownersDevice why.seen why.owner
  | _ => false

/-- A job that names the file, taken apart. -/
theorem of_namesFile {job : Job Request} (h : namesFile job = true) :
    ∃ c id why, job = .send c id (.changes [str "docs/x.mdp"] why) ∧
      ownersDevice why.seen why.owner = false := by
  unfold namesFile at h
  split at h
  · rename_i c id paths why
    rw [Bool.and_eq_true, decide_eq_true_eq, Bool.not_eq_true'] at h
    exact ⟨c, id, why, by rw [h.1], h.2⟩
  · cases h

/-- Such a job is next in thread `i`. -/
def namesFileNext (p : Pool (Sys Server Request) (Job Request)) (i : Nat) : Bool :=
  match p.threads[i]? with
  | some (job :: _) => namesFile job
  | _ => false

theorem of_namesFileNext {p : Pool (Sys Server Request) (Job Request)} {i : Nat}
    (h : namesFileNext p i = true) :
    ∃ c id why rest, p.threads[i]? = some (.send c id (.changes [str "docs/x.mdp"] why) :: rest) ∧
      ownersDevice why.seen why.owner = false := by
  unfold namesFileNext at h
  split at h
  · rename_i job rest hthread
    obtain ⟨c, id, why, rfl, hother⟩ := of_namesFile h
    exact ⟨c, id, why, rest, hthread, hother⟩
  · cases h

/-- The action starts no DELETE of a share or link. -/
def peaceful : Action (Entry Request) Bool → Bool
  | .enter (.request r) => r.Lasting
  | _ => true

/-- Bob's share is there and Ann's write is about to be told to him. -/
def bobHears : Pool (Sys Server Request) (Job Request) := runOf (bobWatches ++ annRewrites 2)

/-- Ann has ended the share before she writes. -/
def bobOverhears : Pool (Sys Server Request) (Job Request) :=
  runOf (bobWatches ++ annUnshares 2 ++ annRewrites 3)

/-- While Bob watches his share, Ann's write is told to him through it. -/
theorem watchers_backed_bobHears :
    ∃ c id why rest,
      bobHears.threads[2]? = some (.send c id (.changes [str "docs/x.mdp"] why) :: rest) ∧
        (∃ j, .added c why.seen.userId j ∈ bobHears.state.log) ∧
        Covered bobHears.state.env.db why (str "docs/x.mdp") := by
  have hnext : namesFileNext bobHears 2 = true := by decide +kernel
  have hreachable : Machine.Reachable (machine watchService) Peaceful (Boots plainConfig)
      bobHears := by
    unfold bobHears runOf
    refine Machine.Reachable.exec_getD ?_ (.start boots_atRest) (by decide +kernel)
    intro a p ha
    have hall : (bobWatches ++ annRewrites 2).all peaceful = true := by decide
    have hthis := List.all_eq_true.mp hall a ha
    unfold peaceful at hthis
    split at hthis
    · exact hthis
    · rename_i hother
      unfold Peaceful
      split
      · rename_i r
        exact absurd rfl (hother r)
      · trivial
  generalize bobHears = p at *
  obtain ⟨c, id, why, rest, hthread, hother⟩ := of_namesFileNext hnext
  obtain ⟨hadded, _, hcovered⟩ := watchers_backed plainConfig _ p
    (spares_of_peaceful hreachable) 2 c id _ why rest hthread hother
  exact ⟨c, id, why, rest, hthread, hadded, hcovered _ (List.mem_singleton_self _)⟩

/-- **After Ann has ended the share, Bob is still told** that she changed a file
in it, although no share or link is left. -/
theorem revoked_watcher_told :
    Machine.Reachable (machine watchService) Calm (Boots plainConfig) bobOverhears ∧
      ∃ c id why rest,
        bobOverhears.threads[3]? = some (.send c id (.changes [str "docs/x.mdp"] why) :: rest) ∧
        ownersDevice why.seen why.owner = false ∧
        ∀ path, ¬ Covered bobOverhears.state.env.db why path := by
  have hnext : namesFileNext bobOverhears 3 = true := by
    decide +kernel
  have hgone : bobOverhears.state.env.db.shares.length = 0 ∧
      bobOverhears.state.env.db.links.length = 0 := by
    decide +kernel
  have hreachable : Machine.Reachable (machine watchService) Calm (Boots plainConfig)
      bobOverhears := by
    unfold bobOverhears runOf
    refine Machine.Reachable.exec_getD ?_ (.start boots_atRest) (by decide +kernel)
    exact fun a p ha => calm_of_all (by decide) ha p
  generalize bobOverhears = p at *
  obtain ⟨c, id, why, rest, hthread, hother⟩ := of_namesFileNext hnext
  refine ⟨hreachable, c, id, why, rest, hthread, hother, ?_⟩
  intro path hcovered
  have hshares := List.length_eq_zero_iff.mp hgone.1
  have hlinks := List.length_eq_zero_iff.mp hgone.2
  obtain ⟨watch, _, _, ⟨_, row, hrow, _⟩ | ⟨_, row, hrow, _⟩⟩ := hcovered
  · rw [hlinks] at hrow
    cases hrow
  · rw [hshares] at hrow
    cases hrow

end Lectern.Sync
