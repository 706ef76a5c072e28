import Lectern.ShareRoutes
import Lectern.Threads.Events

/-!
# The download page

`downloads.cpp`: the listing of the latest release is asked of GitHub and kept
for five minutes.  Every request runs in a thread of its own, and a thread looks
at what is kept, asks, and stores in three separate steps, so that several may
be asking at the same time.

Whatever the order of their steps, a listing that is answered was stored less
than five minutes before and is the view of what GitHub then replied; and
nobody sets out to ask while a listing is that young.
-/

namespace Lectern.Downloads

open Threads

/-! ## The view of a release -/

/-- What GitHub replied; without a release when it was not JSON. -/
structure Reply where
  status : Int
  release : Option Json

/-- `value("size", 0)`: the fallback where there is none, a cast of a number,
and otherwise it throws.  A float is cast to `truncated`. -/
def sizeOf (truncated : UInt64) (asset : Json) : Option Json :=
  match asset.find? (str "size") with
  | none => some (.int 0)
  | some (.int n) => some (.int (n % 2 ^ 64))
  | some .float => some (.int truncated.toNat)
  | some _ => none

/-- The id and the name of an asset that is listed. -/
def listed? (asset : Json) : Option (Int × Str) :=
  match asset.find? (str "id"), (asset.find? (str "name")).bind Json.string? with
  | some (.int id), some name => if 0 ≤ id then some (id, name) else none
  | _, _ => none

def assetView (id : Int) (name : Str) (size : Json) : Json :=
  .object [(str "id", .int id), (str "name", .string name), (str "size", size)]

/-- The assets of the view; `none` where one throws. -/
def assetsView (truncated : Json → UInt64) : List Json → Option (List Json)
  | [] => some []
  | asset :: assets =>
      match listed? asset with
      | none => assetsView truncated assets
      | some (id, name) =>
          match sizeOf (truncated asset) asset with
          | none => none
          | some size => (assetsView truncated assets).map (assetView id name size :: ·)

def assetsOf (release : Json) : List Json :=
  match release.find? (str "assets") with
  | some (.array assets) => assets
  | _ => []

def releaseView (truncated : Json → UInt64) (release : Json) : Option Json := do
  let assets ← assetsView truncated (assetsOf release)
  let tagName ← release.valueString (str "tag_name") []
  let publishedAt ← release.valueString (str "published_at") []
  return .object [(str "tagName", .string tagName), (str "publishedAt", .string publishedAt),
    (str "assets", .array assets)]

/-- What the handler makes of a reply. -/
def Reply.view (truncated : Json → UInt64) (reply : Reply) : Except AppError Json :=
  if reply.status < 200 ∨ 300 ≤ reply.status then .error .fNotFound
  else
    match reply.release with
    | none => .error (.fInternal (str "malformed GitHub response"))
    | some release =>
        match releaseView truncated release with
        | none => .error internalError
        | some view => .ok view

/-! ## `Releases` -/

structure Releases where
  repo : Str
  token : Option Str
  cache : Option Json
  cachedAt : Int

def cCacheTtl : Int := seconds 300

/-- The listing that is kept, while it is fresh. -/
def Releases.fCached (r : Releases) (now : Int) : Option Json :=
  match r.cache with
  | none => none
  | some view => if now - r.cachedAt ≥ cCacheTtl then none else some view

def Releases.fStore (r : Releases) (view : Json) (now : Int) : Releases :=
  { r with cache := some view, cachedAt := now }

/-- A request to GitHub. -/
structure Query where
  url : Str
  accept : Str
  authorization : Option Str
  deriving DecidableEq, Repr

def fGithubQuery (r : Releases) (path accept : Str) : Query :=
  ⟨str "https://api.github.com/repos/" ++ r.repo ++ path, accept,
    r.token.map (fun token => str "Bearer " ++ token)⟩

def latestQuery (r : Releases) : Query :=
  fGithubQuery r (str "/releases/latest") (str "application/vnd.github+json")

/-! ## `GET /api/downloads/latest` -/

/-- What the threads share; `clock` is the last reading of the steady clock. -/
structure Shelf where
  releases : Releases
  clock : Int

inductive Job where
  | look
  | ask
  | store (view : Json)

/-- A step at a time of the clock, or the reply that GitHub gives. -/
inductive Choice where
  | at (now : Int)
  | reply (reply : Reply) (truncated : Json → UInt64)

def listing : Machine Shelf Job Unit Choice where
  enter _ _ s := some (s, [.look])
  perform choice _ job s :=
    match job, choice with
    | .look, .at now =>
        if s.clock ≤ now then
          some ({ s with clock := now }, if (s.releases.fCached now).isSome then [] else [.ask])
        else none
    | .ask, .reply reply truncated =>
        match reply.view truncated with
        | .error _ => some (s, [])
        | .ok view => some (s, [.store view])
    | .store view, .at now =>
        if s.clock ≤ now then some (⟨s.releases.fStore view now, now⟩, []) else none
    | _, _ => none

/-- What is noticed of a run: who finds nothing fresh and asks what, what GitHub
replies, what is stored, and what is answered. -/
inductive Noticed where
  | asks (thread : Nat) (now : Int) (query : Query)
  | replied (thread : Nat) (reply : Reply) (truncated : Json → UInt64)
  | stored (thread : Nat) (now : Int) (view : Json)
  | answered (thread : Nat) (now : Int) (answer : Response)

def notice (a : Action Unit Choice) (p : Pool Shelf Job) : List Noticed :=
  match a with
  | .enter _ => []
  | .run i choice =>
      match (p.threads[i]?).bind List.head?, choice with
      | some .look, .at now =>
          match p.state.releases.fCached now with
          | some view => [.answered i now (fJsonResponse view)]
          | none => [.asks i now (latestQuery p.state.releases)]
      | some .ask, .reply reply truncated =>
          match reply.view truncated with
          | .error e => [.answered i p.state.clock (.error e), .replied i reply truncated]
          | .ok _ => [.replied i reply truncated]
      | some (.store view), .at now =>
          [.answered i now (fJsonResponse view), .stored i now view]
      | _, _ => []

/-- A server that has just started. -/
def Empty (p : Pool Shelf Job) : Prop := p.state.releases.cache = none ∧ p.threads = []

/-! ## Runs -/

/-- The view of something GitHub replied to the thread. -/
def Comes (seen : List Noticed) (i : Nat) (view : Json) : Prop :=
  ∃ reply truncated, .replied i reply truncated ∈ seen ∧ reply.view truncated = .ok view

theorem Comes.mono {seen seen' : List Noticed} {i : Nat} {view : Json} (h : Comes seen i view)
    (hsub : seen ⊆ seen') : Comes seen' i view := by
  obtain ⟨reply, truncated, hreplied, hview⟩ := h
  exact ⟨reply, truncated, hsub hreplied, hview⟩

/-- The listing was the last to be stored, and not long ago. -/
def Young (older : List Noticed) (now : Int) (view : Json) : Prop :=
  ∃ i t, .stored i t view ∈ older ∧ now - t < cCacheTtl ∧ Comes older i view ∧
    ∀ i' t' view', .stored i' t' view' ∈ older → t' ≤ t

/-- What is so of every event when it comes. -/
def Sound : Noticed → List Noticed → Prop
  | .asks _ now _, older => ∀ i t view, .stored i t view ∈ older → cCacheTtl ≤ now - t
  | .answered i now answer, older =>
      (∃ view, answer = fJsonResponse view ∧ Young older now view) ∨
      ∃ reply truncated e, .replied i reply truncated ∈ older ∧ reply.view truncated = .error e ∧
        answer = .error e
  | _, _ => True

/-- Everything that is known of a run. -/
structure Shelved (p : Pool Shelf Job) (seen : List Noticed) : Prop where
  kept : ∀ view, p.state.releases.cache = some view →
    ∃ i, .stored i p.state.releases.cachedAt view ∈ seen
  latest : ∀ i t view, .stored i t view ∈ seen →
    p.state.releases.cache.isSome = true ∧ t ≤ p.state.releases.cachedAt
  clock : p.state.releases.cache.isSome = true → p.state.releases.cachedAt ≤ p.state.clock
  views : ∀ i t view, .stored i t view ∈ seen → Comes seen i view
  jobs : ForJobs (fun i job => ∀ view, job = .store view → Comes seen i view) p.threads
  each : Each Sound seen

section Steps

variable {p : Pool Shelf Job} {seen : List Noticed}

theorem shelved_empty (h : Empty p) : Shelved p [] := by
  obtain ⟨hcache, hthreads⟩ := h
  refine ⟨?_, by simp, ?_, by simp, ?_, trivial⟩
  · intro view hview
    rw [hcache] at hview
    cases hview
  · intro hsome
    rw [hcache] at hsome
    cases hsome
  · rw [hthreads]
    exact forJobs_nil

/-- A step that stores nothing. -/
theorem Shelved.quiet (hp : Shelved p seen) {clock : Int} {threads : List (List Job)}
    {new : List Noticed} (hclock : p.state.clock ≤ clock)
    (hnone : ∀ i t view, .stored i t view ∉ new)
    (hjobs : ForJobs (fun i job => ∀ view, job = .store view → Comes (new ++ seen) i view) threads)
    (heach : Each Sound (new ++ seen)) :
    Shelved ⟨{ p.state with clock := clock }, threads⟩ (new ++ seen) := by
  have hold {i : Nat} {t : Int} {view : Json} (h : .stored i t view ∈ new ++ seen) :
      .stored i t view ∈ seen := (List.mem_append.mp h).resolve_left (hnone i t view)
  have hsub : seen ⊆ new ++ seen := List.subset_append_right _ _
  refine ⟨?_, ?_, ?_, ?_, hjobs, heach⟩
  · intro view hview
    obtain ⟨i, hstored⟩ := hp.kept view hview
    exact ⟨i, hsub hstored⟩
  · exact fun i t view h => hp.latest i t view (hold h)
  · exact fun hsome => (hp.clock hsome).trans hclock
  · exact fun i t view h => (hp.views i t view (hold h)).mono hsub

/-- What is fresh is young. -/
theorem Shelved.young (hp : Shelved p seen) {now : Int} {view : Json}
    (hcached : p.state.releases.fCached now = some view) : Young seen now view := by
  unfold Releases.fCached at hcached
  split at hcached
  · cases hcached
  · rename_i kept hcache
    split at hcached
    · cases hcached
    · rename_i hage
      cases hcached
      obtain ⟨i, hstored⟩ := hp.kept view hcache
      exact ⟨i, p.state.releases.cachedAt, hstored, not_le.mp hage, hp.views _ _ _ hstored,
        fun i' t' view' h => (hp.latest i' t' view' h).2⟩

/-- Where nothing is fresh, nothing is young. -/
theorem Shelved.old (hp : Shelved p seen) {now : Int}
    (hcached : p.state.releases.fCached now = none) {i : Nat} {t : Int} {view : Json}
    (hstored : .stored i t view ∈ seen) : cCacheTtl ≤ now - t := by
  obtain ⟨hsome, hlatest⟩ := hp.latest i t view hstored
  obtain ⟨kept, hcache⟩ := Option.isSome_iff_exists.mp hsome
  unfold Releases.fCached at hcached
  rw [hcache] at hcached
  dsimp only at hcached
  split at hcached
  · rename_i hage
    omega
  · cases hcached

/-- A listing is stored and answered. -/
theorem Shelved.store (hp : Shelved p seen) {before after : List (List Job)} {view : Json}
    {rest : List Job} {now : Int} (hthreads : p.threads = before ++ (.store view :: rest) :: after)
    (hnow : p.state.clock ≤ now) :
    Shelved ⟨⟨p.state.releases.fStore view now, now⟩, before ++ ([] ++ rest) :: after⟩
      (.answered before.length now (fJsonResponse view) ::
        .stored before.length now view :: seen) := by
  have hcomes : Comes seen before.length view := hp.jobs.head hthreads view rfl
  have hnew {i : Nat} {t : Int} {view' : Json}
      (h : .stored i t view' ∈ Noticed.stored before.length now view :: seen) :
      i = before.length ∧ t = now ∧ view' = view ∨ .stored i t view' ∈ seen :=
    (List.mem_cons.mp h).imp_left (fun heq => by cases heq; exact ⟨rfl, rfl, rfl⟩)
  have hlatest : ∀ i t view', .stored i t view' ∈ Noticed.stored before.length now view :: seen →
      t ≤ now := by
    intro i t view' h
    rcases hnew h with ⟨_, rfl, _⟩ | hold
    · exact le_refl _
    · obtain ⟨hsome, hle⟩ := hp.latest i t view' hold
      exact hle.trans ((hp.clock hsome).trans hnow)
  have hsub : seen ⊆ .answered before.length now (fJsonResponse view) ::
      .stored before.length now view :: seen :=
    fun _ h => List.mem_cons_of_mem _ (List.mem_cons_of_mem _ h)
  have hskip {i : Nat} {t : Int} {view' : Json} (h : .stored i t view' ∈
      Noticed.answered before.length now (fJsonResponse view) ::
        .stored before.length now view :: seen) :
      .stored i t view' ∈ Noticed.stored before.length now view :: seen :=
    (List.mem_cons.mp h).resolve_left (by simp)
  refine ⟨?_, ?_, fun _ => le_refl _, ?_, ?_, ?_, trivial, hp.each⟩
  · intro view' hview
    cases hview
    exact ⟨before.length, List.mem_cons_of_mem _ List.mem_cons_self⟩
  · exact fun i t view' h => ⟨rfl, hlatest i t view' (hskip h)⟩
  · intro i t view' h
    rcases hnew (hskip h) with ⟨rfl, _, rfl⟩ | hold
    · exact hcomes.mono hsub
    · exact (hp.views i t view' hold).mono hsub
  · exact hp.jobs.run hthreads (fun i job hjob view' heq => (hjob view' heq).mono hsub) (by simp)
  · refine Or.inl ⟨view, rfl, before.length, now, List.mem_cons_self, ?_,
      hcomes.mono (List.subset_cons_self _ _), hlatest⟩
    rw [sub_self]
    decide

theorem Shelved.perform (hp : Shelved p seen) {before after : List (List Job)} {job : Job}
    {rest jobs : List Job} {choice : Choice} {s : Shelf}
    (hthreads : p.threads = before ++ (job :: rest) :: after)
    (hperform : listing.perform choice before.length job p.state = some (s, jobs)) :
    Shelved ⟨s, before ++ (jobs ++ rest) :: after⟩
      (notice (.run before.length choice) p ++ seen) := by
  have hhead : (p.threads[before.length]?).bind List.head? = some job := by
    rw [hthreads, Machine.thread_self]
    rfl
  have hgoes {new : List Noticed}
      (hjobs : ∀ job ∈ jobs, ∀ view, job = .store view → Comes (new ++ seen) before.length view) :
      ForJobs (fun i job => ∀ view, job = .store view → Comes (new ++ seen) i view)
        (before ++ (jobs ++ rest) :: after) :=
    hp.jobs.run hthreads
      (fun i job hjob view heq => (hjob view heq).mono (List.subset_append_right _ _)) hjobs
  cases job with
  | look =>
      cases choice with
      | reply => cases hperform
      | «at» now =>
          simp only [listing] at hperform
          split at hperform
          · rename_i hnow
            cases hcached : p.state.releases.fCached now with
            | some view =>
                rw [hcached] at hperform
                cases hperform
                have hnotice : notice (.run before.length (.at now)) p =
                    [.answered before.length now (fJsonResponse view)] := by
                  simp only [notice, hhead, hcached]
                rw [hnotice]
                exact hp.quiet hnow (by simp) (hgoes (by simp))
                  ⟨Or.inl ⟨view, rfl, hp.young hcached⟩, hp.each⟩
            | none =>
                rw [hcached] at hperform
                cases hperform
                have hnotice : notice (.run before.length (.at now)) p =
                    [.asks before.length now (latestQuery p.state.releases)] := by
                  simp only [notice, hhead, hcached]
                rw [hnotice]
                exact hp.quiet hnow (by simp) (hgoes (by simp))
                  ⟨fun i t view hstored => hp.old hcached hstored, hp.each⟩
          · cases hperform
  | ask =>
      cases choice with
      | «at» => cases hperform
      | reply reply truncated =>
          simp only [listing] at hperform
          cases hview : reply.view truncated with
          | error e =>
              rw [hview] at hperform
              cases hperform
              have hnotice : notice (.run before.length (.reply reply truncated)) p =
                  [.answered before.length p.state.clock (.error e),
                    .replied before.length reply truncated] := by
                simp only [notice, hhead, hview]
              rw [hnotice]
              refine hp.quiet (le_refl _) (by simp) (hgoes (by simp)) ⟨Or.inr ?_, trivial, hp.each⟩
              exact ⟨reply, truncated, e, List.mem_cons_self, hview, rfl⟩
          | ok view =>
              rw [hview] at hperform
              cases hperform
              have hnotice : notice (.run before.length (.reply reply truncated)) p =
                  [.replied before.length reply truncated] := by
                simp only [notice, hhead, hview]
              rw [hnotice]
              refine hp.quiet (le_refl _) (by simp) (hgoes ?_) ⟨trivial, hp.each⟩
              intro job hjob view' heq
              cases List.mem_singleton.mp hjob
              cases heq
              exact ⟨reply, truncated, List.mem_cons_self, hview⟩
  | store view =>
      cases choice with
      | reply => cases hperform
      | «at» now =>
          simp only [listing] at hperform
          split at hperform
          · rename_i hnow
            cases hperform
            have hnotice : notice (.run before.length (.at now)) p =
                [.answered before.length now (fJsonResponse view),
                  .stored before.length now view] := by
              simp only [notice, hhead]
            rw [hnotice]
            exact hp.store hthreads hnow
          · cases hperform

/-- **Along every run.** -/
theorem shelved (h : listing.Observed notice (fun _ _ => True) Empty p seen) : Shelved p seen := by
  refine Machine.Observed.invariant (fun p hp => shelved_empty hp) ?_ h
  intro a p p' seen _ hp _ hstep
  rcases Machine.step_cases hstep with
    ⟨_, s, jobs, rfl, henter, rfl⟩ |
    ⟨before, job, rest, after, choice, s, jobs, rfl, hthreads, hperform, rfl⟩
  · cases henter
    suffices hall : Shelved ⟨p.state, p.threads ++ [[.look]]⟩ ([] ++ seen) from hall
    exact hp.quiet (le_refl _) (by simp) (hp.jobs.enter (fun _ _ _ h => h) (by simp)) hp.each
  · exact hp.perform hthreads hperform

end Steps

/-- **The listing is fresh and GitHub's own.**  Whatever is answered is a listing
that was stored less than five minutes before, is the latest stored, and is the
view of a reply to the thread that stored it; or it is the error that GitHub's
reply to this very thread amounts to.  And whoever sets out to ask GitHub finds
that everything was stored five minutes before or earlier. -/
theorem listing_fresh {p : Pool Shelf Job} {seen : List Noticed}
    (h : listing.Observed notice (fun _ _ => True) Empty p seen) :
    (∀ newer i now answer older, seen = newer ++ .answered i now answer :: older →
      (∃ view, answer = fJsonResponse view ∧
        ∃ j t, .stored j t view ∈ older ∧ now - t < cCacheTtl ∧
          (∃ reply truncated, .replied j reply truncated ∈ older ∧
            reply.view truncated = .ok view) ∧
          ∀ j' t' view', .stored j' t' view' ∈ older → t' ≤ t) ∨
      ∃ reply truncated e, .replied i reply truncated ∈ older ∧
        reply.view truncated = .error e ∧ answer = .error e) ∧
    ∀ newer i now query older, seen = newer ++ .asks i now query :: older →
      ∀ j t view, .stored j t view ∈ older → cCacheTtl ≤ now - t := by
  have heach := (shelved h).each
  constructor
  · intro newer i now answer older hsplit
    exact heach.apply hsplit
  · intro newer i now query older hsplit
    exact heach.apply hsplit

/-! ## Three visitors -/

def lectern : Releases := ⟨str "Decumano/OfficeSuite", none, none, 0⟩

def oneRelease : Json :=
  .object [(str "tag_name", .string (str "v1")), (str "published_at", .string (str "may")),
    (str "assets", .array [.object [(str "id", .int 7), (str "name", .string (str "a.zip"))]])]

def oneReleaseView : Json :=
  .object [(str "tagName", .string (str "v1")), (str "publishedAt", .string (str "may")),
    (str "assets", .array [assetView 7 (str "a.zip") (.int 0)])]

/-- The second visitor comes four minutes after the first has stored; the third
six. -/
def threeVisitors : List (Action Unit Choice) :=
  [.enter (), .enter (), .enter (), .run 0 (.at 0), .run 0 (.reply ⟨200, oneRelease⟩ (fun _ => 0)),
    .run 0 (.at (seconds 1)), .run 1 (.at (seconds 241)), .run 2 (.at (seconds 361))]

def visited : Pool Shelf Job × List Noticed :=
  (listing.execSeen notice (fun _ _ => True) threeVisitors ⟨⟨lectern, 0⟩, []⟩ []).getD
    (⟨⟨lectern, 0⟩, []⟩, [])

/-- The second is answered what the first has stored, the third has to ask. -/
theorem listing_fresh_threeVisitors :
    (∃ j t, .stored j t oneReleaseView ∈ visited.2.drop 2 ∧ seconds 241 - t < cCacheTtl) ∧
      ∀ j t view, .stored j t view ∈ visited.2.drop 1 → cCacheTtl ≤ seconds 361 - t := by
  have h : listing.Observed notice (fun _ _ => True) Empty visited.1 visited.2 :=
    Machine.Observed.execSeen_getD (.start ⟨rfl, rfl⟩)
  obtain ⟨hanswered, hasks⟩ := listing_fresh h
  refine ⟨?_, hasks [] 2 (seconds 361) (latestQuery lectern) (visited.2.drop 1) rfl⟩
  have hdumps : oneReleaseView.dumps = true := by decide +kernel
  have hbody : fJsonResponse oneReleaseView = .ok (.json oneReleaseView) := if_pos hdumps
  rcases hanswered (visited.2.take 1) 1 (seconds 241) (fJsonResponse oneReleaseView)
    (visited.2.drop 2) rfl with ⟨view, hview, j, t, hstored, hyoung, _⟩ | ⟨_, _, _, _, _, hanswer⟩
  · have hsame : view = oneReleaseView := by
      rw [hbody] at hview
      unfold fJsonResponse at hview
      split at hview
      · cases hview
        rfl
      · cases hview
    exact ⟨j, t, hsame ▸ hstored, hyoung⟩
  · rw [hbody] at hanswer
    cases hanswer

end Lectern.Downloads
