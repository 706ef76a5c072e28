import Lectern.Minting
import Lectern.Sync.Revocation
import Lectern.Text.Word

/-!
# Who is behind a socket

A socket is opened in two calls: the handshake's credentials are looked up, and
some time later the hub adds a connection for the account they named.  Logins,
logouts and the rest of the server go on in between.

The hub never asks again.  So what a connection is told rests on the handshake
it came from, and `sockets_answer_for` says what that handshake has presented:
nothing at all, or the token or the cookie of the account, from a page of this
host if from a page.
-/

namespace Lectern.Sync

open Text Threads

/-! ## `fOriginAllowed` -/

def schemeEnd : Str := str "://"

def fOriginAllowed (origin host : Str) : Bool :=
  if origin = [] then true
  else
    let originHost :=
      match cutWord schemeEnd origin with
      | some (_, rest) => rest
      | none => origin
    fToLower originHost = fToLower host

/-- The header is that of a page of this host: after the first scheme end, or
where there is none, it names the host. -/
def OfHost (host origin : Str) : Prop :=
  (∃ scheme originHost, origin = scheme ++ schemeEnd ++ originHost ∧
      (∀ pre post, origin = pre ++ schemeEnd ++ post → scheme.length ≤ pre.length) ∧
      fToLower originHost = fToLower host) ∨
    ¬ schemeEnd <:+: origin ∧ fToLower origin = fToLower host

/-- **A page of another host** is refused. -/
theorem fOriginAllowed_iff (origin host : Str) :
    fOriginAllowed origin host = true ↔ origin = [] ∨ OfHost host origin := by
  unfold fOriginAllowed
  by_cases hnone : origin = []
  · rw [if_pos hnone]
    exact iff_of_true rfl (Or.inl hnone)
  · rw [if_neg hnone, or_iff_right hnone]
    unfold OfHost
    cases hcut : cutWord schemeEnd origin with
    | none =>
        have hno := cutWord_eq_none_iff.mp hcut
        rw [decide_eq_true_iff]
        constructor
        · exact fun hsame => Or.inr ⟨hno, hsame⟩
        · rintro (⟨scheme, originHost, horigin, _⟩ | ⟨_, hsame⟩)
          · exact absurd ⟨scheme, originHost, horigin.symm⟩ hno
          · exact hsame
    | some cut =>
        obtain ⟨scheme, originHost⟩ := cut
        obtain ⟨horigin, hfirst⟩ := cutWord_eq_some_iff.mp hcut
        rw [decide_eq_true_iff]
        constructor
        · exact fun hsame => Or.inl ⟨scheme, originHost, horigin, hfirst, hsame⟩
        · rintro (⟨scheme', originHost', horigin', hfirst', hsame⟩ | ⟨hno, _⟩)
          · have hother := cutWord_eq_some_iff.mpr ⟨horigin', hfirst'⟩
            rw [hcut] at hother
            cases hother
            exact hsame
          · exact absurd ⟨scheme, originHost, horigin.symm⟩ hno

/-! ## `handleNewConnection` -/

structure Handshake where
  origin : Str
  host : Str
  authorization : Str
  cookie : Str

/-- `fOptionalUserId`. -/
def fOptionalUserId (site : Session.Site) (authorization cookie : Str) (now : Int)
    (tables : Tables) : Tables × Option Str :=
  match Auth.fCurrentUserIdWithHeaders site authorization cookie now tables with
  | (tables, .ok user) => (tables, some user)
  | (tables, .error _) => (tables, none)

/-- The account to add a connection for, or `none` where the socket is shut. -/
def handleNewConnection (site : Session.Site) (h : Handshake) (now : Int) (tables : Tables) :
    Tables × Option Str :=
  let offered := h.authorization ≠ [] ∨ h.cookie ≠ []
  match fOptionalUserId site h.authorization h.cookie now tables with
  | (tables, user) =>
      if !fOriginAllowed h.origin h.host ∨ offered ∧ user = none then (tables, none)
      else (tables, some (user.getD []))

/-- A handshake that was let through: the tables it found, and the account. -/
structure Admission where
  handshake : Handshake
  tables : Tables
  now : Int
  userId : Str

/-- The server with its sockets: those that are let through and not added yet,
and where each connection comes from. -/
structure Front where
  pool : Pool (Sys Server Request) (Job Request)
  auth : Auth.AuthState
  waiting : List Admission
  admitted : List (Nat × Admission)

inductive Front.Action where
  | check (h : Handshake) (now : Int)
  | add (k : Nat)
  | auth (r : Auth.Request)
  | hub (a : Threads.Action (Entry Request) Bool)

/-- Nobody else adds connections. -/
def addsNone : Threads.Action (Entry Request) Bool → Bool
  | .enter (.connect _) => false
  | _ => true

def Front.step (env : Auth.Env) (cfg : Config) (parse : Str → Option Json) :
    Front.Action → Front → Option Front
  | .check h now, f =>
      match handleNewConnection env.site h now f.auth.tables with
      | (tables, user) =>
          let admission := user.map (fun userId => ⟨h, f.auth.tables, now, userId⟩)
          some { f with
            auth := { f.auth with tables := tables }
            waiting := f.waiting ++ admission.toList }
  | .add k, f =>
      match f.waiting[k]? with
      | none => none
      | some a =>
          ((machine (service cfg parse)).step (.enter (.connect a.userId)) f.pool).map (fun pool =>
            { f with
              pool := pool
              waiting := f.waiting.eraseIdx k
              admitted := (f.pool.state.hub.nextConnection, a) :: f.admitted })
  | .auth r, f => some { f with auth := Auth.serve env r f.auth }
  | .hub a, f =>
      if addsNone a then
        ((machine (service cfg parse)).step a f.pool).map (fun pool => { f with pool := pool })
      else none

/-- Runs whose actions on the hub `ok` allows. -/
inductive Front.Reachable (env : Auth.Env) (cfg : Config) (parse : Str → Option Json)
    (ok : Threads.Action (Entry Request) Bool → Pool (Sys Server Request) (Job Request) → Prop) :
    Front → Prop
  | start {f : Front} (hboots : Boots cfg f.pool) (hauth : Auth.Reachable env f.auth)
      (hwaiting : f.waiting = []) (hadmitted : f.admitted = []) : Front.Reachable env cfg parse ok f
  | step {f f' : Front} (a : Front.Action) (hf : Front.Reachable env cfg parse ok f)
      (hok : ∀ b, a = .hub b → ok b f.pool) (h : Front.step env cfg parse a f = some f') :
      Front.Reachable env cfg parse ok f'

/-! ## What a handshake has presented -/

/-- It offered nothing, and is nobody's; or it has named its account: by a token
of the account, or without a `Bearer` header by the cookie of a live session. -/
def Admission.Presents (site : Session.Site) (a : Admission) : Prop :=
  a.userId = [] ∧ a.handshake.authorization = [] ∧ a.handshake.cookie = [] ∨
    (∃ account ∈ a.tables.users, account.id = a.userId ∧
      a.handshake.authorization = Auth.cBearer ++ account.apiToken) ∨
    fStartsWith a.handshake.authorization Auth.cBearer = false ∧
      Auth.Authenticates site a.tables a.handshake.cookie a.now a.userId

/-- Let through at some moment of the run. -/
structure Admission.Good (env : Auth.Env) (a : Admission) : Prop where
  origin : a.handshake.origin = [] ∨ OfHost a.handshake.host a.handshake.origin
  presents : a.Presents env.site
  moment : ∃ s, Auth.Reachable env s ∧ s.tables = a.tables

theorem fOptionalUserId_eq (site : Session.Site) (authorization cookie : Str) (now : Int)
    (tables : Tables) :
    fOptionalUserId site authorization cookie now tables =
      ((Auth.fCurrentUserIdWithHeaders site authorization cookie now tables).1,
        (Auth.fCurrentUserIdWithHeaders site authorization cookie now tables).2.toOption) := by
  unfold fOptionalUserId
  split <;> rename_i hcurrent <;> rw [hcurrent] <;> rfl

/-- Who is named is named by what the handshake has presented. -/
theorem presents_of_named {site : Session.Site} {h : Handshake} {tables : Tables} {now : Int}
    {user : Str}
    (hok : (Auth.fCurrentUserIdWithHeaders site h.authorization h.cookie now tables).2 =
      .ok user) : Admission.Presents site ⟨h, tables, now, user⟩ := by
  right
  by_cases hbearer : fStartsWith h.authorization Auth.cBearer = true
  · rcases Auth.bearer_cases site h.cookie now tables hbearer with
      ⟨_, hout⟩ | ⟨account, haccount, htoken, hout⟩
    · rw [hout] at hok
      cases hok
    · rw [hout] at hok
      cases hok
      exact Or.inl ⟨account, haccount, rfl, htoken⟩
  · rw [Bool.not_eq_true] at hbearer
    exact Or.inr ⟨hbearer, Auth.cookie_authenticates hbearer hok⟩

theorem good_of_handleNewConnection {env : Auth.Env} {h : Handshake} {now : Int}
    {s : Auth.AuthState} (hs : Auth.Reachable env s) {userId : Str}
    (hadmits : (handleNewConnection env.site h now s.tables).2 = some userId) :
    Admission.Good env ⟨h, s.tables, now, userId⟩ := by
  unfold handleNewConnection at hadmits
  rw [fOptionalUserId_eq] at hadmits
  dsimp only at hadmits
  split at hadmits
  · cases hadmits
  · rename_i hopen
    rw [not_or, not_and_or, Bool.not_eq_true', Bool.not_eq_false] at hopen
    obtain ⟨horigin, hcredentials⟩ := hopen
    cases hadmits
    refine ⟨(fOriginAllowed_iff h.origin h.host).mp horigin, ?_, s, hs, rfl⟩
    cases hcurrent :
        (Auth.fCurrentUserIdWithHeaders env.site h.authorization h.cookie now s.tables).2 with
    | ok user => exact presents_of_named hcurrent
    | error e =>
        rw [hcurrent] at hcredentials
        have hnothing : ¬ (h.authorization ≠ [] ∨ h.cookie ≠ []) :=
          hcredentials.resolve_right (fun hne => hne rfl)
        rw [not_or, not_not, not_not] at hnothing
        exact Or.inl ⟨rfl, hnothing⟩

/-- The handshake leaves the tables as the question whose request it is does. -/
theorem tables_handleNewConnection (env : Auth.Env) (h : Handshake) (now : Int)
    (s : Auth.AuthState) :
    { s with tables := (handleNewConnection env.site h now s.tables).1 } =
      Auth.serve env (.identify h.authorization h.cookie now) s := by
  unfold handleNewConnection
  rw [fOptionalUserId_eq]
  dsimp only
  split <;> rfl

/-- What the action does on the hub is allowed. -/
def Front.allowed
    (ok : Threads.Action (Entry Request) Bool → Pool (Sys Server Request) (Job Request) → Bool)
    (f : Front) : Front.Action → Bool
  | .hub b => ok b f.pool
  | _ => true

/-- Do the actions one after the other, each where it is allowed. -/
def Front.exec (env : Auth.Env) (cfg : Config) (parse : Str → Option Json)
    (ok : Threads.Action (Entry Request) Bool → Pool (Sys Server Request) (Job Request) → Bool) :
    List Front.Action → Front → Option Front
  | [], f => some f
  | a :: as, f =>
      if f.allowed ok a then
        (Front.step env cfg parse a f).bind (Front.exec env cfg parse ok as)
      else none

theorem Front.Reachable.exec {env : Auth.Env} {cfg : Config} {parse : Str → Option Json}
    {ok : Threads.Action (Entry Request) Bool → Pool (Sys Server Request) (Job Request) → Bool}
    {as : List Front.Action} {f f' : Front}
    (hf : Front.Reachable env cfg parse (fun a p => ok a p = true) f)
    (h : Front.exec env cfg parse ok as f = some f') :
    Front.Reachable env cfg parse (fun a p => ok a p = true) f' := by
  induction as generalizing f with
  | nil =>
      cases h
      exact hf
  | cons a as ih =>
      unfold Front.exec at h
      split at h
      · rename_i hallowed
        obtain ⟨g, hstep, hrest⟩ := Option.bind_eq_some_iff.mp h
        refine ih (.step a hf ?_ hstep) hrest
        rintro b rfl
        exact hallowed
      · cases h

/-! ## Runs -/

/-- What is known of the sockets. -/
structure Kept (env : Auth.Env) (f : Front) : Prop where
  auth : Auth.Reachable env f.auth
  waiting : ∀ a ∈ f.waiting, a.Good env
  admitted : ∀ c a, (c, a) ∈ f.admitted → a.Good env
  connections : ∀ c conn, f.pool.state.hub.find c = some conn →
    ∃ a, (c, a) ∈ f.admitted ∧ a.userId = conn.userId
  added : ∀ c userId j, .added c userId j ∈ f.pool.state.log →
    ∃ a, (c, a) ∈ f.admitted ∧ a.userId = userId

section Runs

variable {env : Auth.Env} {cfg : Config} {parse : Str → Option Json} {f : Front}
  {pool : Pool (Sys Server Request) (Job Request)}

/-- An action on the hub that adds no connection. -/
theorem Kept.hub (hf : Kept env f) {a : Threads.Action (Entry Request) Bool}
    (hnone : addsNone a = true) (hstep : (machine (service cfg parse)).step a f.pool = some pool) :
    Kept env { f with pool := pool } := by
  refine ⟨hf.auth, hf.waiting, hf.admitted, ?_, ?_⟩
  · intro c conn hfind
    rcases Machine.step_cases hstep with ⟨e, s, jobs, rfl, henter, rfl⟩ |
      ⟨before, job, rest, after, returns, s, jobs, rfl, _, hperform, rfl⟩
    · rcases find_enter henter hfind with ⟨conn', hfind', huser, _⟩ | ⟨rfl, _⟩
      · rw [← huser]
        exact hf.connections c conn' hfind'
      · cases hnone
    · obtain ⟨conn', hfind', huser, _⟩ := find_perform (Option.some.inj hperform) hfind
      rw [← huser]
      exact hf.connections c conn' hfind'
  · intro c userId j hadded
    rcases Machine.step_cases hstep with ⟨e, s, jobs, rfl, henter, rfl⟩ |
      ⟨before, job, rest, after, returns, s, jobs, rfl, _, hperform, rfl⟩
    · obtain ⟨extra, hlog, _, hconnect⟩ := log_enter henter
      change .added c userId j ∈ s.log at hadded
      rw [hlog] at hadded
      rcases List.mem_append.mp hadded with hnew | hold
      · obtain ⟨rfl, _⟩ := hconnect c userId j hnew
        cases hnone
      · exact hf.added c userId j hold
    · obtain ⟨extra, hlog, hquiet, _⟩ := log_perform (Option.some.inj hperform)
      change .added c userId j ∈ s.log at hadded
      rw [hlog] at hadded
      rcases List.mem_append.mp hadded with hnew | hold
      · exact absurd hnew (hquiet c userId j)
      · exact hf.added c userId j hold

/-- A connection is added for a handshake that was let through. -/
theorem Kept.add (hf : Kept env f) {a : Admission} (ha : a.Good env) {waiting : List Admission}
    (hwaiting : ∀ b ∈ waiting, b ∈ f.waiting)
    (hstep : (machine (service cfg parse)).step (.enter (.connect a.userId)) f.pool = some pool) :
    Kept env ⟨pool, f.auth, waiting, (f.pool.state.hub.nextConnection, a) :: f.admitted⟩ := by
  rcases Machine.step_cases hstep with ⟨e, s, jobs, heq, henter, rfl⟩ |
    ⟨before, job, rest, after, returns, s, jobs, heq, _⟩
  · cases heq
    have henter : enter (service cfg parse) (.connect a.userId) f.pool.threads.length
        f.pool.state = some (s, jobs) := henter
    refine ⟨hf.auth, fun b hb => hf.waiting b (hwaiting b hb), ?_, ?_, ?_⟩
    · intro c b hb
      rcases List.mem_cons.mp hb with hnew | hold
      · cases hnew
        exact ha
      · exact hf.admitted c b hold
    · intro c conn hfind
      rcases find_enter henter hfind with ⟨conn', hfind', huser, _⟩ | ⟨hconnect, hc, _⟩
      · obtain ⟨b, hb, hsame⟩ := hf.connections c conn' hfind'
        exact ⟨b, List.mem_cons_of_mem _ hb, hsame.trans huser⟩
      · exact ⟨a, hc ▸ List.mem_cons_self, Entry.connect.inj hconnect⟩
    · intro c userId j hadded
      obtain ⟨extra, hlog, _, hconnect⟩ := log_enter henter
      change .added c userId j ∈ s.log at hadded
      rw [hlog] at hadded
      rcases List.mem_append.mp hadded with hnew | hold
      · obtain ⟨heq, rfl, _⟩ := hconnect c userId j hnew
        cases heq
        exact ⟨a, List.mem_cons_self, rfl⟩
      · obtain ⟨b, hb, hsame⟩ := hf.added c userId j hold
        exact ⟨b, List.mem_cons_of_mem _ hb, hsame⟩
  · cases heq

theorem Kept.step (hf : Kept env f) {a : Front.Action} {f' : Front}
    (h : Front.step env cfg parse a f = some f') : Kept env f' := by
  cases a with
  | check handshake now =>
      unfold Front.step at h
      dsimp only at h
      cases h
      refine ⟨?_, ?_, hf.admitted, hf.connections, hf.added⟩
      · have hserved := hf.auth.step (.identify handshake.authorization handshake.cookie now)
        rw [← tables_handleNewConnection] at hserved
        exact hserved
      · intro a ha
        rcases List.mem_append.mp ha with hold | hnew
        · exact hf.waiting a hold
        · obtain ⟨userId, hadmits, rfl⟩ := Option.map_eq_some_iff.mp (Option.mem_toList.mp hnew)
          exact good_of_handleNewConnection hf.auth hadmits
  | add k =>
      unfold Front.step at h
      dsimp only at h
      split at h
      · cases h
      · rename_i a hget
        obtain ⟨pool, hstep, rfl⟩ := Option.map_eq_some_iff.mp h
        exact hf.add (hf.waiting a (List.mem_of_getElem? hget))
          (fun b hb => List.mem_of_mem_eraseIdx hb) hstep
  | auth r =>
      cases h
      exact ⟨hf.auth.step r, hf.waiting, hf.admitted, hf.connections, hf.added⟩
  | hub a =>
      unfold Front.step at h
      dsimp only at h
      split at h
      · rename_i hnone
        obtain ⟨pool, hstep, rfl⟩ := Option.map_eq_some_iff.mp h
        exact hf.hub hnone hstep
      · cases h

variable {ok : Threads.Action (Entry Request) Bool → Pool (Sys Server Request) (Job Request) → Prop}

/-- **Along every run.** -/
theorem kept (h : Front.Reachable env cfg parse ok f) : Kept env f := by
  induction h with
  | start hboots hauth hwaiting hadmitted =>
      obtain ⟨⟨_, hhub, _, hlog⟩, _⟩ := hboots
      refine ⟨hauth, ?_, ?_, ?_, ?_⟩
      · rw [hwaiting]
        intro a ha
        cases ha
      · rw [hadmitted]
        intro c a ha
        cases ha
      · intro c conn hfind
        rw [hhub] at hfind
        cases hfind
      · intro c userId j hadded
        rw [hlog] at hadded
        cases hadded
  | step a _ _ hstep ih => exact ih.step hstep

/-- To the hub it is a run of its own. -/
theorem pool_reachable (hconnect : ∀ userId p, ok (.enter (.connect userId)) p)
    (h : Front.Reachable env cfg parse ok f) :
    Machine.Reachable (machine (service cfg parse)) ok (Boots cfg) f.pool := by
  induction h with
  | start hboots _ _ _ => exact .start hboots
  | @step f f' a _ hok hstep ih =>
      cases a with
      | check handshake now =>
          unfold Front.step at hstep
          dsimp only at hstep
          cases hstep
          exact ih
      | add k =>
          unfold Front.step at hstep
          dsimp only at hstep
          split at hstep
          · cases hstep
          · obtain ⟨pool, hpool, rfl⟩ := Option.map_eq_some_iff.mp hstep
            exact .step _ ih (hconnect _ _) hpool
      | auth r =>
          cases hstep
          exact ih
      | hub a =>
          unfold Front.step at hstep
          dsimp only at hstep
          split at hstep
          · obtain ⟨pool, hpool, rfl⟩ := Option.map_eq_some_iff.mp hstep
            exact .step _ ih (hok a rfl) hpool
          · cases hstep

end Runs

/-- **The server knows who is behind a socket.**  In every run, each connection
of the hub comes from a handshake that was let through: from no page or a page
of this host, and having presented the credentials of the connection's account,
or none at all for a connection that is nobody's.  Where no share or link is
ended that a watcher relies on, so does each changes frame that is about to be
sent, and the account behind it is the owner's or a row that is there grants it
what the frame names. -/
theorem sockets_answer_for (env : Auth.Env) (cfg : Config) (parse : Str → Option Json)
    {ok : Threads.Action (Entry Request) Bool → Pool (Sys Server Request) (Job Request) → Prop}
    {f : Front} (h : Front.Reachable env cfg parse ok f) :
    (∀ c conn, f.pool.state.hub.find c = some conn →
      ∃ a, (c, a) ∈ f.admitted ∧ a.userId = conn.userId ∧ a.Good env) ∧
    ((∀ userId p, ok (.enter (.connect userId)) p) → (∀ a p, ok a p → Spares a p) →
      ∀ (i c : Nat) (id : Str) (paths : List Str) (why : Notice) (rest : List (Job Request)),
        f.pool.threads[i]? = some (.send c id (.changes paths why) :: rest) →
          ∃ a, (c, a) ∈ f.admitted ∧ a.userId = why.seen.userId ∧ a.Good env ∧
            (a.userId = why.owner ∧ why.owner ≠ [] ∨
              (∃ path, Covered f.pool.state.env.db why path) ∧
                ∀ path ∈ paths, Covered f.pool.state.env.db why path)) := by
  have hf := kept h
  refine ⟨?_, ?_⟩
  · intro c conn hfind
    obtain ⟨a, ha, hsame⟩ := hf.connections c conn hfind
    exact ⟨a, ha, hsame, hf.admitted c a ha⟩
  · intro hconnect hspares i c id paths why rest hsend
    have hreachable := (pool_reachable hconnect h).mono hspares (fun _ hboots => hboots)
    have hjob : .send c id (.changes paths why) ∈ f.pool.jobs :=
      Pool.mem_jobs.mpr ⟨i, _, hsend, List.mem_cons_self⟩
    obtain ⟨⟨j, hadded⟩, hbacked⟩ := (backs_of_reachable hreachable).jobs _ hjob
    obtain ⟨a, ha, hsame⟩ := hf.added c _ j hadded
    refine ⟨a, ha, hsame, hf.admitted c a ha, ?_⟩
    cases howner : ownersDevice why.seen why.owner with
    | true =>
        left
        unfold ownersDevice at howner
        rw [Bool.and_eq_true, decide_eq_true_iff, decide_eq_true_iff] at howner
        obtain ⟨hne, heq⟩ := howner
        exact ⟨hsame.trans heq, heq ▸ hne⟩
    | false => exact Or.inr (hbacked howner)

/-! ### Ann listens to her own files -/

/-- The step does not serve a DELETE of a share or link. -/
def sparing (a : Threads.Action (Entry Request) Bool)
    (p : Pool (Sys Server Request) (Job Request)) : Bool :=
  match a with
  | .enter _ => true
  | .run i _ =>
      match p.threads[i]? with
      | some (.serve r :: _) => r.Lasting
      | _ => true

theorem spares_of_sparing {a : Threads.Action (Entry Request) Bool}
    {p : Pool (Sys Server Request) (Job Request)} (h : sparing a p = true) : Spares a p := by
  cases a with
  | enter e => trivial
  | run i returns =>
      intro r rest hhead request _
      unfold sparing at h
      dsimp only at h
      rw [hhead] at h
      exact Request.Lasting.spares h p.state.env request

def annToken : Str := fUuidV4 (Vector.replicate 16 1)

def annHandshake : Handshake :=
  ⟨str "https://Lectern.example", str "lectern.example", Auth.cBearer ++ annToken, []⟩

/-- She signs in, opens a socket and writes a file. -/
def annListens : List Front.Action :=
  [.auth (.login (str "a") Auth.annSignsIn (Auth.drawsOf 1) 0 0), .check annHandshake 0,
    .add 0, .hub (.run 0 true), .hub (.run 0 true), .hub (.run 0 true)] ++
    (annRewrites 1).map Front.Action.hub

def closedDoors : Front := ⟨atRest, Auth.annMigrated, [], []⟩

def annListening : Front :=
  (Front.exec Auth.trusting plainConfig (fun _ => none) sparing annListens closedDoors).getD
    closedDoors

theorem reachable_annListening :
    Front.Reachable Auth.trusting plainConfig (fun _ => none) (fun a p => sparing a p = true)
      annListening := by
  have hsome : (Front.exec Auth.trusting plainConfig (fun _ => none) sparing annListens
      closedDoors).isSome = true := by decide +kernel
  have hstart : Front.Reachable Auth.trusting plainConfig (fun _ => none)
      (fun a p => sparing a p = true) closedDoors :=
    .start boots_atRest (.start [Auth.ann] (by decide) (by decide)) rfl rfl
  obtain ⟨f, hf⟩ := Option.isSome_iff_exists.mp hsome
  have hlistening : annListening = f := by rw [annListening, hf, Option.getD_some]
  rw [hlistening]
  exact hstart.exec hf

/-- A changes frame of Ann's files for her own connection. -/
def tellsAnn : Job Request → Bool
  | .send c _ (.changes _ why) => c = 1 && why.owner = str "ann" && why.seen.userId = str "ann"
  | _ => false

/-- The frame about to be sent is for a socket that has presented her token. -/
theorem sockets_answer_for_annListening :
    ∃ a, (1, a) ∈ annListening.admitted ∧ a.userId = str "ann" ∧ a.Good Auth.trusting := by
  have hnext : ((annListening.pool.threads[1]?).bind List.head?).any tellsAnn = true := by
    decide +kernel
  cases hthread : annListening.pool.threads[1]? with
  | none =>
      rw [hthread] at hnext
      cases hnext
  | some t =>
      rw [hthread] at hnext
      cases t with
      | nil => cases hnext
      | cons job rest =>
          change tellsAnn job = true at hnext
          unfold tellsAnn at hnext
          split at hnext
          · rename_i c id paths why
            rw [Bool.and_eq_true, Bool.and_eq_true, decide_eq_true_iff, decide_eq_true_iff,
              decide_eq_true_iff] at hnext
            obtain ⟨⟨rfl, _⟩, huser⟩ := hnext
            obtain ⟨a, ha, hsame, hgood, _⟩ :=
              (sockets_answer_for Auth.trusting plainConfig _ reachable_annListening).2
                (fun _ _ => rfl) (fun _ _ => spares_of_sparing) 1 1 id paths why rest hthread
            exact ⟨a, ha, hsame.trans huser, hgood⟩
          · cases hnext

end Lectern.Sync
