import Lectern.Sync.Requests

/-!
# One size ceiling on every write route

Three routes put a body into a workspace: the owner's own PUT, a PUT through a
share and a PUT through a link.  The global body limit of the HTTP server is
larger than `MAX_WORK_FILE_BYTES`, so the handlers have to enforce the ceiling
on a file, and only the owner's does.

`one_ceiling_iff` says on which sequences of requests the three agree: those in
which no shared body above the ceiling passes the other checks of
`fWriteThrough`.
-/

namespace Lectern

open FileTree

/-! ## When a write returns -/

/-- Over an existing file the atomic write fails only when a directory has the
name of its temporary sibling. -/
theorem fWriteFileAtomic_over {disk : Disk} {path : List Str} {hex content c : Str}
    (hp : path ≠ []) (hfile : disk.entryAt path = some (.file c)) :
    (fWriteFileAtomic disk path hex content).2 = true ↔
      disk.entryAt (tempPath path hex) ≠ some .dir := by
  -- The parents of a file are directories already.
  have habove : ∀ q, q <+: path.dropLast → disk.entryAt q = some .dir := by
    intro q hq
    obtain ⟨r, hr⟩ := hq.trans (List.dropLast_prefix path)
    have hne : r ≠ [] := by
      intro hnil
      rw [hnil, List.append_nil] at hr
      exact not_prefix_parent hp (hr ▸ hq)
    refine Dir.entryAt_parent_dir (d := disk.root) hne ?_
    rw [hr, show disk.root.entryAt path = _ from hfile]
    simp
  have hmade : (disk.mkdirs path.dropLast).isSome := by
    apply Tree.mkdirs_isSome.mpr
    intro q hq found hfound
    rw [habove q hq] at hfound
    cases hfound
  obtain ⟨made, hmk⟩ := Option.isSome_iff_exists.mp hmade
  rw [fWriteFileAtomic_eq]
  cases hwrite : writeTemp disk path hex content with
  | none =>
      have hrefused : ¬ (made.writeFile (tempPath path hex) content).isSome := by
        unfold writeTemp at hwrite
        rw [hmk, Option.getD_some] at hwrite
        simp [hwrite]
      rw [Tree.writeFile_isSome (tempPath_ne_nil path hex), dropLast_tempPath,
        Tree.entryAt_mkdirs hmk, if_pos List.prefix_rfl, Tree.entryAt_mkdirs hmk,
        if_neg (not_tempPath_above_parent path hex)] at hrefused
      constructor
      · intro hfalse
        cases hfalse
      · intro hfree
        exact absurd ⟨rfl, hfree⟩ hrefused
  | some written =>
      obtain ⟨_, hfree, hat⟩ := writeTemp_some hwrite
      have htemp := hat (tempPath path hex)
      rw [if_pos rfl] at htemp
      constructor
      · intro _
        exact hfree
      · intro _
        rcases place_eq hp htemp with ⟨hplaced, _⟩ | ⟨_, hdir, _⟩
        · exact hplaced
        · rw [hat path, if_neg (tempPath_ne path hex).symm, if_neg (not_prefix_parent hp), hfile]
            at hdir
          cases hdir

/-- The checks a shared write makes, and a temporary sibling that can be
opened. -/
def SharedWriteOk (limits : Limits) (access : Access) (content hex : Str) (w : Workspace) : Prop :=
  access.permission = .edit ∧ fIsWorkFile access.relPath = true ∧
    ∃ rel, fSafeRelPath access.relPath = .ok rel ∧
      (∃ c, w.root.entryAt (pathOf rel) = some (.file c)) ∧
      fCheckQuota limits.workspaceQuotaBytes w.root (pathOf rel) (fileSize content) = .ok () ∧
      w.root.entryAt (tempPath (pathOf rel) hex) ≠ some .dir

/-- **A shared write succeeds** exactly when these hold; the length of the
content is not among them. -/
theorem fWriteThrough_ok_iff {limits : Limits} {access : Access} {content hex : Str}
    {w : Workspace} :
    (∃ w' paths, fWriteThrough limits access content hex w = (w', .ok paths)) ↔
      SharedWriteOk limits access content hex w := by
  constructor
  · intro ⟨w', paths, h⟩
    rcases fWriteThrough_cases limits access content hex w with
      ⟨e, he⟩ | ⟨rel, hrel, hedit, hwork, ⟨c, hc⟩, hquota, root, ⟨_, hout⟩ | ⟨hwrite, _⟩⟩
    · cases he.symm.trans h
    · cases hout.symm.trans h
    · have hp := (fSafeRelPath_ok hrel).1.1
      have hreturned : (fWriteFileAtomic w.root (pathOf rel) hex content).2 = true := by
        rw [hwrite]
      exact ⟨hedit, hwork, rel, hrel, ⟨c, hc⟩, hquota, (fWriteFileAtomic_over hp hc).mp hreturned⟩
  · intro ⟨hedit, hwork, rel, hrel, ⟨c, hc⟩, hquota, hfree⟩
    have hp := (fSafeRelPath_ok hrel).1.1
    have hreturned : (fWriteFileAtomic w.root (pathOf rel) hex content).2 = true :=
      (fWriteFileAtomic_over hp hc).mpr hfree
    have hregular : isRegularFile w.root (pathOf rel) = (true, false) := by
      unfold isRegularFile
      rw [hc]
    refine ⟨{ w with root := (fWriteFileAtomic w.root (pathOf rel) hex content).1 },
      [access.relPath], ?_⟩
    unfold fWriteThrough
    rw [hedit, if_neg (by decide), hwork, if_neg (by decide)]
    simp only [fOwnerFullPath, hrel, hregular, hquota]
    rw [if_neg (by decide), show fWriteFileAtomic w.root (pathOf rel) hex content =
      ((fWriteFileAtomic w.root (pathOf rel) hex content).1, true) from Prod.ext rfl hreturned]

/-- What the owner's PUT answers to a body above the ceiling. -/
def fTooLarge (limits : Limits) : AppError := .fBadRequest (tooLargeMessage limits)

/-- The quota check never answers that a file is too large. -/
theorem fCheckQuota_ne_tooLarge (limits : Limits) (root : Disk) (target : List Str) (n : UInt64) :
    fCheckQuota limits.workspaceQuotaBytes root target n ≠ .error (fTooLarge limits) := by
  have hmessage : quotaMessage limits.workspaceQuotaBytes ≠ tooLargeMessage limits := by
    intro h
    have htake := congrArg (List.take 1) h
    revert htake
    unfold quotaMessage tooLargeMessage
    simp [str]
  intro h
  unfold fCheckQuota at h
  by_cases hzero : limits.workspaceQuotaBytes = 0
  · rw [if_pos hzero] at h
    cases h
  · rw [if_neg hzero] at h
    dsimp only at h
    generalize (if (isRegularFile root target).1 = true then fileSizeAt root target else 0) =
      existing at h
    split at h
    · cases h
    · split at h
      · exact hmessage (congrArg AppError.message (Except.error.inj h))
      · cases h

/-- **The owner's PUT** refuses a body as too large exactly above the ceiling,
wherever the path is one. -/
theorem putFile_tooLarge_iff {limits : Limits} {path content hex rel : Str} {w : Workspace}
    (hrel : fSafeRelPath path = .ok rel) :
    (putFile limits path content hex w).2 = .error (fTooLarge limits) ↔
      limits.maxWorkFileBytes < content.length := by
  unfold putFile
  rw [hrel]
  dsimp only
  by_cases hsize : content.length > limits.maxWorkFileBytes
  · rw [if_pos hsize]
    exact ⟨fun _ => hsize, fun _ => rfl⟩
  · rw [if_neg hsize]
    refine ⟨fun h => absurd h ?_, fun h => absurd h hsize⟩
    cases hquota :
        fCheckQuota limits.workspaceQuotaBytes w.root (pathOf rel) (fileSize content) with
    | error e =>
        intro h
        refine fCheckQuota_ne_tooLarge limits w.root (pathOf rel) (fileSize content) ?_
        rw [hquota, show e = fTooLarge limits from Except.error.inj h]
    | ok u =>
        obtain ⟨root, returned, hwrite⟩ : ∃ root returned,
            fWriteFileAtomic w.root (pathOf rel) hex content = (root, returned) := ⟨_, _, rfl⟩
        dsimp only
        rw [hwrite]
        cases returned with
        | false =>
            intro h
            have hstatus : 500 = 400 := congrArg AppError.status (Except.error.inj h)
            omega
        | true =>
            intro h
            cases h

namespace Sync

/-! ## The three routes -/

/-- A PUT of a file; `hex` is the random part of its temporary name. -/
inductive Put where
  | own (user path content hex device : Str)
  | shared (caller : Option Str) (share path content hex device : Str)
  | link (caller : Option Str) (token path content hex device : Str)

def Put.request : Put → Request
  | .own user path content hex device => .putFile user path content hex device
  | .shared caller share path content hex device =>
      .share caller (.putSharedFile share path content hex) device
  | .link caller token path content hex device =>
      .share caller (.putLinkFile token path content hex) device

def Put.content : Put → Str
  | .own _ _ content _ _ => content
  | .shared _ _ _ content _ _ => content
  | .link _ _ _ content _ _ => content

def Put.hex : Put → Str
  | .own _ _ _ hex _ => hex
  | .shared _ _ _ _ hex _ => hex
  | .link _ _ _ _ hex _ => hex

/-- What a share or link PUT resolves to. -/
def Put.access (s : Server) : Put → Option Access
  | .own .. => none
  | .shared caller share path _ _ _ => (sharedAccess caller share path s).toOption
  | .link _ token path _ _ _ => (fResolveLinkAccess s.db token path).toOption

/-- Whose file a PUT addresses, and its path there. -/
def Put.target (s : Server) : Put → Option (Str × Str)
  | .own user path _ _ _ => some (user, path)
  | put => (put.access s).map (fun a => (a.ownerId, a.relPath))

/-- Serve PUTs one after the other. -/
def serveAll (cfg : Config) (puts : List Put) (s : Server) : Server :=
  puts.foldl (fun s put => (serve cfg put.request s).1) s

/-- `setClientMaxBodySize`: the largest body the HTTP server lets through. -/
def clientMaxBodySize (limits : Limits) : Nat :=
  max (50 * 1024 * 1024) (limits.maxWorkFileBytes + 1024 * 1024)

theorem serveAll_concat (cfg : Config) (puts : List Put) (put : Put) (s : Server) :
    serveAll cfg (puts ++ [put]) s = (serve cfg put.request (serveAll cfg puts s)).1 := by
  unfold serveAll
  rw [List.foldl_append]
  rfl

/-- A PUT changes one workspace, or resolves to none. -/
theorem Put.mutation_cases (put : Put) (s : Server) :
    (∃ user path, put.target s = some (user, path) ∧ put.access s = none ∧
        put.request.mutation s = some (user, .putFile path put.content put.hex)) ∨
      (∃ a, put.access s = some a ∧ put.target s = some (a.ownerId, a.relPath) ∧
        put.request.mutation s = some (a.ownerId, .writeThrough a put.content put.hex)) ∨
      put.access s = none ∧ put.target s = none ∧ put.request.mutation s = none := by
  cases put with
  | own user path content hex device => exact Or.inl ⟨user, path, rfl, rfl, rfl⟩
  | shared caller share path content hex device =>
      unfold Put.target Put.access Put.request Request.mutation sharedWrite
      dsimp only
      cases sharedAccess caller share path s with
      | error e => exact Or.inr (Or.inr ⟨rfl, rfl, rfl⟩)
      | ok a => exact Or.inr (Or.inl ⟨a, rfl, rfl, rfl⟩)
  | link caller token path content hex device =>
      unfold Put.target Put.access Put.request Request.mutation sharedWrite
      dsimp only
      cases fResolveLinkAccess s.db token path with
      | error e => exact Or.inr (Or.inr ⟨rfl, rfl, rfl⟩)
      | ok a => exact Or.inr (Or.inl ⟨a, rfl, rfl, rfl⟩)

theorem Put.mutation_of_access {put : Put} {s : Server} {a : Access} (ha : put.access s = some a) :
    put.target s = some (a.ownerId, a.relPath) ∧
      put.request.mutation s = some (a.ownerId, .writeThrough a put.content put.hex) := by
  rcases put.mutation_cases s with
    ⟨_, _, _, hnone, _⟩ | ⟨found, hfound, htarget, hm⟩ | ⟨hnone, _, _⟩
  · rw [hnone] at ha
    cases ha
  · have hsame : found = a := Option.some.inj (hfound.symm.trans ha)
    rw [hsame] at htarget hm
    exact ⟨htarget, hm⟩
  · rw [hnone] at ha
    cases ha

/-- A request that changes a workspace succeeds when its handler does. -/
theorem serve_isSome_iff {cfg : Config} {r : Request} {s : Server} {owner : Str} {m : Mutation}
    (hm : r.mutation s = some (owner, m)) :
    (serve cfg r s).2 ≠ none ↔ ∃ w paths, m.run cfg.limits (s.workspaces owner) = (w, .ok paths) := by
  unfold serve
  rw [hm]
  dsimp only
  unfold change
  rcases hrun : m.run cfg.limits (s.workspaces owner) with ⟨w, answer⟩
  cases answer with
  | ok paths => simp
  | error e => simp

/-- A request that changes a workspace leaves what its handler leaves. -/
theorem fst_serve {cfg : Config} {r : Request} {s : Server} {owner : Str} {m : Mutation}
    (hm : r.mutation s = some (owner, m)) :
    (serve cfg r s).1 = s.setWorkspace owner (m.run cfg.limits (s.workspaces owner)).1 := by
  unfold serve
  rw [hm]
  dsimp only
  unfold change
  rcases hrun : m.run cfg.limits (s.workspaces owner) with ⟨w, answer⟩
  cases answer with
  | ok paths => rfl
  | error e => rfl

/-- A PUT that resolves to no workspace leaves the server alone. -/
theorem serve_unresolved {cfg : Config} {put : Put} {s : Server}
    (hm : put.request.mutation s = none) : serve cfg put.request s = (s, none) := by
  cases put with
  | own user path content hex device => cases hm
  | shared caller share path content hex device =>
      unfold serve
      rw [hm]
      unfold Put.request Request.mutation sharedWrite at hm
      dsimp only at hm
      dsimp only [Put.request]
      unfold handle putSharedFile
      dsimp only
      cases hacc : sharedAccess caller share path s with
      | error e => rfl
      | ok a =>
          rw [hacc] at hm
          cases hm
  | link caller token path content hex device =>
      unfold serve
      rw [hm]
      unfold Put.request Request.mutation sharedWrite at hm
      dsimp only at hm
      dsimp only [Put.request]
      unfold handle putLinkFile
      dsimp only
      cases hacc : fResolveLinkAccess s.db token path with
      | error e => rfl
      | ok a =>
          rw [hacc] at hm
          cases hm

/-! ## The files a request leaves -/

/-- A write leaves the files that were there and, when it returns, its content. -/
theorem file_wrote {w : Workspace} {rel content hex : Str} (hp : pathOf rel ≠ [])
    {finish : Disk → Workspace} (hfinish : ∀ root, (finish root).root = root)
    {out : Workspace × Answer} {announced : List Str}
    (h : Wrote w rel content hex out finish announced) {q : List Str} {c : Str}
    (hq : out.1.root.fileAt q = some c) :
    w.root.fileAt q = some c ∨ c = content ∧ out.2 = .ok announced := by
  obtain ⟨root, ⟨hwrite, hout⟩ | ⟨hwrite, hout⟩⟩ := h
  · left
    rw [hout] at hq
    exact fileAt_fWriteFileAtomic_fail hp hwrite hq
  · rw [hout] at hq
    dsimp only at hq
    rw [hfinish, fileAt_fWriteFileAtomic_ok hp hwrite] at hq
    by_cases hat : q = pathOf rel
    · rw [if_pos hat] at hq
      right
      refine ⟨(Option.some.inj hq).symm, ?_⟩
      rw [hout]
    · rw [if_neg hat] at hq
      by_cases htemp : q = tempPath (pathOf rel) hex
      · rw [if_pos htemp] at hq
        cases hq
      · rw [if_neg htemp] at hq
        exact Or.inl hq

/-- The owner's PUT leaves nothing above the ceiling that was not there. -/
theorem file_putFile {limits : Limits} {path content hex : Str} {w : Workspace} {q : List Str}
    {c : Str} (hq : (putFile limits path content hex w).1.root.fileAt q = some c) :
    w.root.fileAt q = some c ∨ c.length ≤ limits.maxWorkFileBytes := by
  rcases putFile_cases limits path content hex w with ⟨e, he⟩ | ⟨rel, hrel, hsize, _, hwrote⟩
  · rw [he] at hq
    exact Or.inl hq
  · rcases file_wrote (fSafeRelPath_ok hrel).1.1 (fun _ => rfl) hwrote hq with hold | ⟨hnew, _⟩
    · exact Or.inl hold
    · rw [hnew]
      exact Or.inr hsize

/-- A shared PUT leaves the files that were there and, when it succeeds, its
content. -/
theorem file_fWriteThrough {limits : Limits} {a : Access} {content hex : Str} {w : Workspace}
    {q : List Str} {c : Str}
    (hq : (fWriteThrough limits a content hex w).1.root.fileAt q = some c) :
    w.root.fileAt q = some c ∨ c = content ∧ SharedWriteOk limits a content hex w := by
  rcases fWriteThrough_cases limits a content hex w with
    ⟨e, he⟩ | ⟨rel, hrel, _, _, _, _, hwrote⟩
  · rw [he] at hq
    exact Or.inl hq
  · rcases file_wrote (fSafeRelPath_ok hrel).1.1 (fun _ => rfl) hwrote hq with
      hold | ⟨hnew, hanswer⟩
    · exact Or.inl hold
    · exact Or.inr ⟨hnew, fWriteThrough_ok_iff.mp ⟨_, _, Prod.ext rfl hanswer⟩⟩

/-! ## One ceiling -/

/-- The owner's own PUT of this body to the file the request addresses is
answered "file is too large". -/
def OwnerRefuses (cfg : Config) (s : Server) (put : Put) : Prop :=
  ∃ owner path, put.target s = some (owner, path) ∧
    (putFile cfg.limits path put.content put.hex (s.workspaces owner)).2 =
      .error (fTooLarge cfg.limits)

/-- The sequence leaves no file above the ceiling that was not there, and
refuses whatever the owner's own PUT refuses as too large. -/
def OneCeiling (cfg : Config) (s : Server) (puts : List Put) : Prop :=
  (∀ user q c, ((serveAll cfg puts s).workspaces user).root.fileAt q = some c →
    (s.workspaces user).root.fileAt q = some c ∨ c.length ≤ cfg.limits.maxWorkFileBytes) ∧
  ∀ before put after, puts = before ++ put :: after →
    OwnerRefuses cfg (serveAll cfg before s) put →
      (serve cfg put.request (serveAll cfg before s)).2 = none

/-- Every PUT of a sequence is let through by the HTTP server and succeeds. -/
def AllServed (cfg : Config) (s : Server) (puts : List Put) : Prop :=
  ∀ before put after, puts = before ++ put :: after →
    put.content.length ≤ clientMaxBodySize cfg.limits ∧
      (serve cfg put.request (serveAll cfg before s)).2 ≠ none

/-- A share or link PUT above the ceiling fails another check of
`fWriteThrough`. -/
def Put.Capped (cfg : Config) (s : Server) (put : Put) : Prop :=
  ∀ a, put.access s = some a →
    SharedWriteOk cfg.limits a put.content put.hex (s.workspaces a.ownerId) →
      put.content.length ≤ cfg.limits.maxWorkFileBytes

/-- Every PUT of a sequence is capped where it is served. -/
def AllCapped (cfg : Config) (s : Server) (puts : List Put) : Prop :=
  ∀ before put after, puts = before ++ put :: after → put.Capped cfg (serveAll cfg before s)

/-- **A capped PUT** leaves no file above the ceiling that was not there. -/
theorem file_serve {cfg : Config} {s : Server} {put : Put} (hcapped : put.Capped cfg s) {user : Str}
    {q : List Str} {c : Str}
    (hq : ((serve cfg put.request s).1.workspaces user).root.fileAt q = some c) :
    (s.workspaces user).root.fileAt q = some c ∨ c.length ≤ cfg.limits.maxWorkFileBytes := by
  rcases put.mutation_cases s with ⟨owner, path, _, _, hm⟩ | ⟨a, ha, _, hm⟩ | ⟨_, _, hm⟩
  · rw [fst_serve hm, workspaces_setWorkspace] at hq
    by_cases huser : user = owner
    · rw [if_pos huser] at hq
      rw [huser]
      exact file_putFile hq
    · rw [if_neg huser] at hq
      exact Or.inl hq
  · rw [fst_serve hm, workspaces_setWorkspace] at hq
    by_cases huser : user = a.ownerId
    · rw [if_pos huser] at hq
      rw [huser]
      rcases file_fWriteThrough hq with hold | ⟨hnew, hok⟩
      · exact Or.inl hold
      · rw [hnew]
        exact Or.inr (hcapped a ha hok)
    · rw [if_neg huser] at hq
      exact Or.inl hq
  · rw [serve_unresolved hm] at hq
    exact Or.inl hq

/-- The files along a sequence. -/
theorem file_serveAll {cfg : Config} {s : Server} {puts : List Put}
    (hcapped : AllCapped cfg s puts) {user : Str} {q : List Str} {c : Str}
    (hq : ((serveAll cfg puts s).workspaces user).root.fileAt q = some c) :
    (s.workspaces user).root.fileAt q = some c ∨ c.length ≤ cfg.limits.maxWorkFileBytes := by
  induction puts using List.reverseRecOn with
  | nil => exact Or.inl hq
  | append_singleton puts put ih =>
      have hbefore : AllCapped cfg s puts := by
        intro before earlier after hsplit
        apply hcapped before earlier (after ++ [put])
        rw [hsplit, List.append_assoc, List.cons_append]
      rw [serveAll_concat] at hq
      rcases file_serve (hcapped puts put [] rfl) hq with hold | hle
      · exact ih hbefore hold
      · exact Or.inr hle

/-- Above the ceiling the owner's own PUT of a shared file is refused. -/
theorem ownerRefuses_of_above {cfg : Config} {s : Server} {put : Put} {a : Access} {rel : Str}
    (ha : put.access s = some a) (hrel : fSafeRelPath a.relPath = .ok rel)
    (hsize : cfg.limits.maxWorkFileBytes < put.content.length) : OwnerRefuses cfg s put := by
  obtain ⟨htarget, _⟩ := Put.mutation_of_access ha
  exact ⟨a.ownerId, a.relPath, htarget, (putFile_tooLarge_iff hrel).mpr hsize⟩

/-- A capped PUT is refused where the owner's own would be. -/
theorem refused_of_capped {cfg : Config} {s : Server} {put : Put} (hcapped : put.Capped cfg s)
    (hrefuses : OwnerRefuses cfg s put) : (serve cfg put.request s).2 = none := by
  obtain ⟨owner, path, htarget, hanswer⟩ := hrefuses
  by_contra hsome
  rcases put.mutation_cases s with ⟨user, path', htarget', _, hm⟩ | ⟨a, ha, htarget', hm⟩ | ⟨_, hnone, _⟩
  · obtain ⟨w, paths, hrun⟩ := (serve_isSome_iff hm).mp hsome
    have hsame : (user, path') = (owner, path) := Option.some.inj (htarget'.symm.trans htarget)
    obtain ⟨howner, hpath⟩ := Prod.mk.inj hsame
    change putFile cfg.limits path' put.content put.hex (s.workspaces user) = _ at hrun
    rw [← howner, ← hpath, hrun] at hanswer
    cases hanswer
  · obtain ⟨w, paths, hrun⟩ := (serve_isSome_iff hm).mp hsome
    have hsame : (a.ownerId, a.relPath) = (owner, path) :=
      Option.some.inj (htarget'.symm.trans htarget)
    obtain ⟨howner, hpath⟩ := Prod.mk.inj hsame
    have hok : SharedWriteOk cfg.limits a put.content put.hex (s.workspaces a.ownerId) :=
      fWriteThrough_ok_iff.mp ⟨w, paths, hrun⟩
    have hle := hcapped a ha hok
    obtain ⟨_, _, rel, hrel, _⟩ := hok
    rw [← hpath] at hanswer
    have hsize := (putFile_tooLarge_iff hrel).mp hanswer
    omega
  · rw [hnone] at htarget
    cases htarget

/-- **The three routes enforce one ceiling** on exactly the sequences in which
every share or link PUT above it fails another check. -/
theorem one_ceiling_iff (cfg : Config) (s : Server) (puts : List Put) :
    OneCeiling cfg s puts ↔ AllCapped cfg s puts := by
  constructor
  · intro ⟨_, hrefuses⟩ before put after hsplit a ha hok
    by_contra hlarge
    obtain ⟨_, _, rel, hrel, _⟩ := id hok
    have howner := ownerRefuses_of_above ha hrel (Nat.lt_of_not_le hlarge)
    have hrefused := hrefuses before put after hsplit howner
    obtain ⟨_, hm⟩ := Put.mutation_of_access ha
    exact (serve_isSome_iff hm).mpr (fWriteThrough_ok_iff.mpr hok) hrefused
  · intro hcapped
    refine ⟨fun user q c hq => file_serveAll hcapped hq, ?_⟩
    intro before put after hsplit hrefuses
    exact refused_of_capped (hcapped before put after hsplit) hrefuses

/-! ## A body between the two limits -/

/-- Bob writes one byte more than the ceiling into Ann's shared file. -/
def bobPutsLarge : Put :=
  .shared (some (str "bob")) (str "s1") (str "x.mdp") (List.replicate 101 97) (str "01")
    (str "phone")

/-- **The ceiling is not one**: the HTTP server lets the body through, and so
does the share. -/
theorem one_ceiling_broken :
    ¬ ∀ s, Reachable plainConfig s → ∀ puts, AllServed plainConfig s puts →
      OneCeiling plainConfig s puts := by
  intro hall
  have hserved : (serve plainConfig bobPutsLarge.request sharedDocs).2.isSome = true := by
    decide +kernel
  have hleft : ((serveAll plainConfig [bobPutsLarge] sharedDocs).workspaces (str "ann")).root.fileAt
      [str "docs", str "x.mdp"] = some (List.replicate 101 97) := by
    decide +kernel
  have hold : (sharedDocs.workspaces (str "ann")).root.fileAt [str "docs", str "x.mdp"] =
      some (str "one") := by
    decide +kernel
  have hpasses : AllServed plainConfig sharedDocs [bobPutsLarge] := by
    intro before put after hsplit
    cases before with
    | nil =>
        obtain ⟨hput, _⟩ := List.cons.inj hsplit
        rw [← hput]
        refine ⟨by decide +kernel, ?_⟩
        intro hnone
        rw [show serveAll plainConfig [] sharedDocs = sharedDocs from rfl] at hnone
        rw [hnone] at hserved
        cases hserved
    | cons first before =>
        have hlen := congrArg List.length hsplit
        simp at hlen
  rcases (hall sharedDocs reachable_sharedDocs [bobPutsLarge] hpasses).1 _ _ _ hleft with
    hthere | hle
  · rw [hold] at hthere
    have hlen := congrArg (Option.map List.length) hthere
    revert hlen
    decide +kernel
  · revert hle
    decide +kernel

end Sync

end Lectern
