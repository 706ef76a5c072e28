import Lectern.Auth
import Lectern.Threads.Pool

/-!
# Logins that run at the same time

A login reads the account's row, verifies the password, gives the account an
API token if the row had none, and starts a session; each of these is a
database call of its own, and other logins come in between.  The `UPDATE` that
stores a new token does not look at what is stored by then, so of two logins
that both read the empty token the second replaces what the first answers.

A run in which no `UPDATE` does that keeps every answered token valid
(`tokens_stay_valid`).
-/

namespace Lectern

namespace Auth

open Threads RateLimiter

/-! ## The steps of a login -/

/-- What logins share, and the (account, token) pairs they have answered. -/
structure Logins where
  auth : AuthState
  handed : List (Str × Str)

/-- What a login has still to do. -/
inductive LoginJob where
  | check (ip : Str) (body : Json) (draws : Draws)
  | lookup (ip : Str) (creds : Credentials) (draws : Draws)
  | record (ip : Str)
  | mint (user : Account) (draws : Draws)
  | session (user : Account) (apiToken : Str) (draws : Draws)

/-- The clocks at one step: the steady one of the limiter, the system's. -/
structure Clocks where
  tick : Int
  now : Int
  deriving Repr

inductive Caller where
  | login (ip : Str) (body : Json) (draws : Draws)
  | other (r : Request)

def isLogin : Request → Bool
  | .login .. => true
  | _ => false

/-- One step of `POST /api/auth/login`: it goes on or answers. -/
def loginStep (env : Env) (clocks : Clocks) (job : LoginJob) (s : AuthState) :
    AuthState × (LoginJob ⊕ SignedIn) :=
  match job with
  | .check ip body draws =>
      if s.authLimiter.fIsLimited ip (str "login-fail") cLoginFailLimit cLoginFailWindow
          clocks.tick then (s, .inr (.error .fTooManyRequests))
      else
        match fCredentialsFrom body with
        | .error e => (s, .inr (.error e))
        | .ok creds => (s, .inl (.lookup ip creds draws))
  | .lookup ip creds draws =>
      let email := fToLower (fTrim creds.email)
      match s.tables.users.find? (fun user => user.email = email) with
      | none => (s, .inl (.record ip))
      | some user =>
          if !fVerifyPassword env creds.password user.passwordHash then (s, .inl (.record ip))
          else if user.apiToken = [] then (s, .inl (.mint user draws))
          else (s, .inl (.session user user.apiToken draws))
  | .record ip =>
      ({ s with authLimiter :=
        s.authLimiter.fRecord ip (str "login-fail") cLoginFailWindow clocks.tick },
        .inr (.error .fUnauthorized))
  | .mint user draws =>
      let apiToken := fUuidV4 draws.apiToken
      match s.tables.setApiToken user.id apiToken with
      | .error e => (s, .inr (.error e))
      | .ok tables => ({ s with tables := tables }, .inl (.session user apiToken draws))
  | .session user apiToken draws =>
      let (s, answer) := signIn env user.id user.email apiToken draws.session clocks.now s
      (s, .inr answer)

/-- **What one step does**, with what it has found. -/
inductive Took (env : Env) (clocks : Clocks) (s : AuthState) :
    LoginJob → AuthState → LoginJob ⊕ SignedIn → Prop
  | limited {ip : Str} {body : Json} {draws : Draws}
      (hlimited : s.authLimiter.fIsLimited ip (str "login-fail") cLoginFailLimit cLoginFailWindow
        clocks.tick = true) :
      Took env clocks s (.check ip body draws) s (.inr (.error .fTooManyRequests))
  | malformed {ip : Str} {body : Json} {draws : Draws} {e : AppError}
      (hcreds : fCredentialsFrom body = .error e) :
      Took env clocks s (.check ip body draws) s (.inr (.error e))
  | read {ip : Str} {body : Json} {draws : Draws} {creds : Credentials}
      (hfree : s.authLimiter.fIsLimited ip (str "login-fail") cLoginFailLimit cLoginFailWindow
        clocks.tick = false)
      (hcreds : fCredentialsFrom body = .ok creds) :
      Took env clocks s (.check ip body draws) s (.inl (.lookup ip creds draws))
  | wrong {ip : Str} {creds : Credentials} {draws : Draws} :
      Took env clocks s (.lookup ip creds draws) s (.inl (.record ip))
  | tokenless {ip : Str} {creds : Credentials} {draws : Draws} {user : Account}
      (huser : user ∈ s.tables.users) (hempty : user.apiToken = []) :
      Took env clocks s (.lookup ip creds draws) s (.inl (.mint user draws))
  | right {ip : Str} {creds : Credentials} {draws : Draws} {user : Account}
      (huser : user ∈ s.tables.users) (hne : user.apiToken ≠ []) :
      Took env clocks s (.lookup ip creds draws) s (.inl (.session user user.apiToken draws))
  | counted {ip : Str} {limiter : RateLimiter}
      (hlimiter : s.authLimiter.fRecord ip (str "login-fail") cLoginFailWindow clocks.tick =
        limiter) :
      Took env clocks s (.record ip) { s with authLimiter := limiter }
        (.inr (.error .fUnauthorized))
  | clash {user : Account} {draws : Draws} {e : AppError}
      (hset : s.tables.setApiToken user.id (fUuidV4 draws.apiToken) = .error e) :
      Took env clocks s (.mint user draws) s (.inr (.error e))
  | minted {user : Account} {draws : Draws} {tables : Tables}
      (hset : s.tables.setApiToken user.id (fUuidV4 draws.apiToken) = .ok tables) :
      Took env clocks s (.mint user draws) { s with tables := tables }
        (.inl (.session user (fUuidV4 draws.apiToken) draws))
  | signed {user : Account} {apiToken : Str} {draws : Draws} :
      Took env clocks s (.session user apiToken draws)
        (signIn env user.id user.email apiToken draws.session clocks.now s).1
        (.inr (signIn env user.id user.email apiToken draws.session clocks.now s).2)

theorem took_loginStep (env : Env) (clocks : Clocks) (job : LoginJob) (s : AuthState) :
    Took env clocks s job (loginStep env clocks job s).1 (loginStep env clocks job s).2 := by
  cases job with
  | check ip body draws =>
      unfold loginStep
      dsimp only
      split
      · rename_i hlimited
        exact .limited hlimited
      · rename_i hfree
        split
        · rename_i hcreds
          exact .malformed hcreds
        · rename_i hcreds
          exact .read (Bool.not_eq_true _ ▸ hfree) hcreds
  | lookup ip creds draws =>
      unfold loginStep
      dsimp only
      split
      · exact .wrong
      · rename_i hfind
        have huser := List.mem_of_find?_eq_some hfind
        split
        · exact .wrong
        · split
          · rename_i hempty
            exact .tokenless huser hempty
          · rename_i hne
            exact .right huser hne
  | record ip => exact .counted rfl
  | mint user draws =>
      unfold loginStep
      dsimp only
      split
      · rename_i hset
        exact .clash hset
      · rename_i hset
        exact .minted hset
  | session user apiToken draws => exact .signed

/-- What a login hands out with its answer. -/
def handsOut (job : LoginJob) (answer : SignedIn) : List (Str × Str) :=
  match job, answer with
  | .session user apiToken _, .ok _ => [(user.id, apiToken)]
  | _, _ => []

/-- `POST /api/auth/login`, one step after the other, among other requests. -/
def logins (env : Env) : Machine Logins LoginJob Caller Clocks where
  enter caller _ s :=
    match caller with
    | .login ip body draws => some (s, [.check ip body draws])
    | .other r => if isLogin r then none else some ({ s with auth := serve env r s.auth }, [])
  perform clocks _ job s :=
    match loginStep env clocks job s.auth with
    | (auth, .inl next) => some ({ s with auth := auth }, [next])
    | (auth, .inr answer) => some (⟨auth, s.handed ++ handsOut job answer⟩, [])

/-- A login goes on, or answers and hands out what it answers. -/
theorem perform_logins {env : Env} {clocks : Clocks} {i : Nat} {job : LoginJob}
    {jobs : List LoginJob} {s s' : Logins}
    (h : (logins env).perform clocks i job s = some (s', jobs)) :
    (∃ next, Took env clocks s.auth job s'.auth (.inl next) ∧ s'.handed = s.handed ∧
        jobs = [next]) ∨
      ∃ answer, Took env clocks s.auth job s'.auth (.inr answer) ∧
        s'.handed = s.handed ++ handsOut job answer ∧ jobs = [] := by
  have htook := took_loginStep env clocks job s.auth
  simp only [logins] at h
  split at h <;> rename_i hstep <;> rw [hstep] at htook <;> cases h
  · exact Or.inl ⟨_, htook, rfl, rfl⟩
  · exact Or.inr ⟨_, htook, rfl, rfl⟩

/-- What a login hands out is the token its answer carries. -/
def Hands (handed : List (Str × Str)) (answer : SignedIn) : Prop :=
  match answer with
  | .error _ => handed = []
  | .ok (body, _) => ∃ id email apiToken, handed = [(id, apiToken)] ∧
      fJsonResponse (.object [(str "id", .string id), (str "email", .string email),
        (str "apiToken", .string apiToken)]) = .ok body

theorem signIn_body {env : Env} {id email apiToken : Str} {session : Vector UInt8 32} {now : Int}
    {s s' : AuthState} {body : Body} {cookie : Session.Cookie}
    (h : signIn env id email apiToken session now s = (s', .ok (body, cookie))) :
    fJsonResponse (.object [(str "id", .string id), (str "email", .string email),
      (str "apiToken", .string apiToken)]) = .ok body := by
  unfold signIn at h
  split at h
  · cases h
  · rename_i body' hbody
    split at h
    · cases h
    · cases h
      exact hbody

theorem Took.hands {env : Env} {clocks : Clocks} {s s' : AuthState} {job : LoginJob}
    {answer : SignedIn} (h : Took env clocks s job s' (.inr answer)) :
    Hands (handsOut job answer) answer := by
  cases h with
  | limited hlimited => exact rfl
  | malformed hcreds => exact rfl
  | counted hlimiter => exact rfl
  | clash hset => exact rfl
  | @signed user apiToken draws =>
      cases hsign : signIn env user.id user.email apiToken draws.session clocks.now s with
      | mk s' answer =>
          cases answer with
          | error e => exact rfl
          | ok answer => exact ⟨user.id, user.email, apiToken, rfl, signIn_body hsign⟩

/-- Only the token of a session that is started is handed out. -/
theorem mem_handsOut {job : LoginJob} {answer : SignedIn} {pair : Str × Str}
    (h : pair ∈ handsOut job answer) :
    ∃ user apiToken draws, job = .session user apiToken draws ∧ pair = (user.id, apiToken) := by
  unfold handsOut at h
  split at h
  · exact ⟨_, _, _, rfl, List.mem_singleton.mp h⟩
  · cases h

/-- An answer leaves the accounts alone. -/
theorem Took.users {env : Env} {clocks : Clocks} {s s' : AuthState} {job : LoginJob}
    {answer : SignedIn} (h : Took env clocks s job s' (.inr answer)) :
    s'.tables.users = s.tables.users := by
  cases h with
  | limited hlimited => rfl
  | malformed hcreds => rfl
  | counted hlimiter => rfl
  | clash hset => rfl
  | signed => exact users_signIn env _ _ _ _ clocks.now s

/-- **A login that nothing interrupts** does what the handler does. -/
theorem alone_loginStep (env : Env) (ip : Str) (body : Json) (draws : Draws) (clocks : Clocks)
    (s : AuthState) :
    Machine.alone (loginStep env clocks) 4 (.check ip body draws) s =
      ((login env ip body draws clocks.tick clocks.now s).1,
        some (login env ip body draws clocks.tick clocks.now s).2) := by
  unfold login
  split
  · rename_i hlimited
    exact Machine.alone_inr (if_pos hlimited)
  · rename_i hlimited
    split
    · rename_i hcreds
      refine Machine.alone_inr ?_
      simp only [loginStep, hcreds]
      exact if_neg hlimited
    · rename_i creds hcreds
      have hcheck : loginStep env clocks (.check ip body draws) s =
          (s, .inl (.lookup ip creds draws)) := by
        simp only [loginStep, hcreds]
        exact if_neg hlimited
      rw [Machine.alone_inl hcheck]
      dsimp only
      split
      · rename_i hfind
        have hlookup : loginStep env clocks (.lookup ip creds draws) s =
            (s, .inl (.record ip)) := by
          simp only [loginStep, hfind]
        exact (Machine.alone_inl hlookup).trans (Machine.alone_inr rfl)
      · rename_i user hfind
        split
        · rename_i hverify
          have hlookup : loginStep env clocks (.lookup ip creds draws) s =
              (s, .inl (.record ip)) := by
            simp only [loginStep, hfind]
            exact if_pos hverify
          exact (Machine.alone_inl hlookup).trans (Machine.alone_inr rfl)
        · rename_i hverify
          split
          · rename_i hempty
            have hlookup : loginStep env clocks (.lookup ip creds draws) s =
                (s, .inl (.mint user draws)) := by
              simp only [loginStep, hfind]
              rw [if_neg hverify, if_pos hempty]
            refine (Machine.alone_inl hlookup).trans ?_
            split
            · rename_i hset
              refine Machine.alone_inr ?_
              simp only [loginStep, hset]
            · rename_i tables hset
              have hmint : loginStep env clocks (.mint user draws) s =
                  ({ s with tables := tables },
                    .inl (.session user (fUuidV4 draws.apiToken) draws)) := by
                simp only [loginStep, hset]
              exact (Machine.alone_inl hmint).trans (Machine.alone_inr rfl)
          · rename_i hempty
            have hlookup : loginStep env clocks (.lookup ip creds draws) s =
                (s, .inl (.session user user.apiToken draws)) := by
              simp only [loginStep, hfind]
              rw [if_neg hverify, if_neg hempty]
            exact (Machine.alone_inl hlookup).trans (Machine.alone_inr rfl)

/-! ## Tokens handed out -/

/-- The account's row has this token. -/
def Holds (tables : Tables) (id token : Str) : Prop :=
  ∃ account ∈ tables.users, account.id = id ∧ account.apiToken = token

/-- The server after some requests, before any of the logins. -/
def Started (env : Env) (p : Pool Logins LoginJob) : Prop :=
  Reachable env p.state.auth ∧ p.state.handed = [] ∧ p.threads = []

/-- The action is an `UPDATE` that succeeds and finds that the account has been
given another token since its login read the empty one. -/
def Replaces (a : Action Caller Clocks) (p : Pool Logins LoginJob) (id token : Str) : Prop :=
  ∃ i clocks user draws rest, a = .run i clocks ∧
    p.threads[i]? = some (.mint user draws :: rest) ∧ user.id = id ∧
    Holds p.state.auth.tables id token ∧ token ≠ [] ∧ token ≠ fUuidV4 draws.apiToken ∧
    ∀ other ∈ p.state.auth.tables.users, other.id ≠ id → other.apiToken ≠ fUuidV4 draws.apiToken

def MintsOnce (a : Action Caller Clocks) (p : Pool Logins LoginJob) : Prop :=
  ∀ id token, ¬ Replaces a p id token

/-- What is asked of an action, row by row. -/
def RowsAllow (a : Action Caller Clocks) (p : Pool Logins LoginJob) : Prop :=
  match a with
  | .enter _ => True
  | .run i _ =>
      match p.threads[i]? with
      | some (.mint user draws :: _) =>
          ∀ account ∈ p.state.auth.tables.users, account.id = user.id →
            account.apiToken = [] ∨ account.apiToken = fUuidV4 draws.apiToken ∨
            ∃ other ∈ p.state.auth.tables.users, other.id ≠ user.id ∧
              other.apiToken = fUuidV4 draws.apiToken
      | _ => True

instance (a : Action Caller Clocks) (p : Pool Logins LoginJob) : Decidable (RowsAllow a p) := by
  unfold RowsAllow
  split
  · infer_instance
  · split <;> infer_instance

theorem mintsOnce_iff (a : Action Caller Clocks) (p : Pool Logins LoginJob) :
    MintsOnce a p ↔ RowsAllow a p := by
  unfold RowsAllow
  cases a with
  | enter caller =>
      refine iff_of_true ?_ trivial
      rintro id token ⟨i, clocks, user, draws, rest, hrun, _⟩
      cases hrun
  | run i clocks =>
      dsimp only
      split
      · rename_i user draws rest hthread
        constructor
        · intro hok account haccount hid
          by_contra hno
          simp only [not_or, not_exists, not_and] at hno
          obtain ⟨hne, hnew, hother⟩ := hno
          exact hok user.id account.apiToken ⟨i, clocks, user, draws, rest, rfl, hthread, rfl,
            ⟨account, haccount, hid, rfl⟩, hne, hnew, hother⟩
        · rintro hrows id token ⟨i', clocks', user', draws', rest', hrun, hthread', hid,
            ⟨account, haccount, hid', htoken⟩, hne, hnew, hunique⟩
          cases hrun
          rw [hthread, Option.some.injEq, List.cons.injEq, LoginJob.mint.injEq] at hthread'
          obtain ⟨⟨rfl, rfl⟩, _⟩ := hthread'
          rcases hrows account haccount (hid'.trans hid.symm) with
            hempty | hsame | ⟨other, hother, hother', htoken'⟩
          · exact hne (htoken ▸ hempty)
          · exact hnew (htoken ▸ hsame)
          · exact hunique other hother (hid ▸ hother') htoken'
      · rename_i hthread
        refine iff_of_true ?_ trivial
        rintro id token ⟨i', clocks', user, draws, rest, hrun, hthread', _⟩
        cases hrun
        exact hthread user draws rest hthread'

instance (a : Action Caller Clocks) (p : Pool Logins LoginJob) : Decidable (MintsOnce a p) :=
  decidable_of_iff' _ (mintsOnce_iff a p)

/-- What a login past its `UPDATE` is going to answer is stored. -/
def LoginJob.Backed (tables : Tables) : LoginJob → Prop
  | .session user apiToken _ => apiToken ≠ [] ∧ Holds tables user.id apiToken
  | .mint user _ => ∃ account ∈ tables.users, account.id = user.id
  | _ => True

structure Kept (p : Pool Logins LoginJob) : Prop where
  distinct : Distinct p.state.auth.tables.users
  handed : ∀ pair ∈ p.state.handed, pair.2 ≠ [] ∧ Holds p.state.auth.tables pair.1 pair.2
  jobs : ∀ job ∈ p.jobs, job.Backed p.state.auth.tables

/-! ### The tables -/

theorem users_serve_other {env : Env} {r : Request} (hr : isLogin r = false) (s : AuthState) :
    s.tables.users <+: (serve env r s).tables.users := by
  cases r with
  | login => cases hr
  | register ip body draws tick createdAt now =>
      change s.tables.users <+: (register env ip body draws tick createdAt now s).1.tables.users
      rcases register_cases env ip body draws tick createdAt now s with
        hsame | ⟨user, tables, _, hinsert, hsame⟩
      · rw [hsame]
      · rw [hsame, (insertUser_ok hinsert).1]
        exact List.prefix_append _ _
  | logout cookie =>
      change s.tables.users <+: (Session.fDestroy env.site cookie s.tables).1.users
      rw [Session.users_fDestroy]
  | identify authorization cookie now =>
      change s.tables.users <+:
        (fCurrentUserIdWithHeaders env.site authorization cookie now s.tables).1.users
      rw [users_fCurrentUserIdWithHeaders]
  | purge now => exact List.prefix_refl _

theorem Holds.mono {tables tables' : Tables} {id token : Str} (h : Holds tables id token)
    (husers : tables.users ⊆ tables'.users) : Holds tables' id token := by
  obtain ⟨account, haccount, hrow⟩ := h
  exact ⟨account, husers haccount, hrow⟩

theorem LoginJob.Backed.mono {tables tables' : Tables} {job : LoginJob} (h : job.Backed tables)
    (husers : tables.users ⊆ tables'.users) : job.Backed tables' := by
  cases job with
  | session user apiToken draws => exact ⟨h.1, h.2.mono husers⟩
  | mint user draws =>
      obtain ⟨account, haccount, hid⟩ := h
      exact ⟨account, husers haccount, hid⟩
  | _ => trivial

section Mint

variable {tables tables' : Tables} {id new : Str}

/-- An `UPDATE` keeps every row it does not replace. -/
theorem Holds.setApiToken (hset : tables.setApiToken id new = .ok tables') {other token : Str}
    (h : Holds tables other token) (hkeep : other = id → token = new) :
    Holds tables' other token := by
  obtain ⟨account, haccount, hid, htoken⟩ := h
  unfold Holds
  rw [(setApiToken_ok hset).1]
  refine ⟨_, List.mem_map_of_mem haccount, ?_⟩
  by_cases hown : account.id = id
  · rw [if_pos hown]
    exact ⟨hid, (hkeep (hid.symm.trans hown)).symm⟩
  · rw [if_neg hown]
    exact ⟨hid, htoken⟩

theorem exists_setApiToken (hset : tables.setApiToken id new = .ok tables') {other : Str}
    (h : ∃ account ∈ tables.users, account.id = other) :
    ∃ account ∈ tables'.users, account.id = other := by
  obtain ⟨account, haccount, hid⟩ := h
  rw [(setApiToken_ok hset).1]
  refine ⟨_, List.mem_map_of_mem haccount, ?_⟩
  split
  · exact hid
  · exact hid

theorem holds_setApiToken (hset : tables.setApiToken id new = .ok tables')
    (h : ∃ account ∈ tables.users, account.id = id) : Holds tables' id new := by
  obtain ⟨account, haccount, hid⟩ := h
  unfold Holds
  rw [(setApiToken_ok hset).1]
  refine ⟨_, List.mem_map_of_mem haccount, ?_⟩
  rw [if_pos hid]
  exact ⟨hid, rfl⟩

/-- Whatever the account had before is gone. -/
theorem not_holds_setApiToken (hset : tables.setApiToken id new = .ok tables') {token : Str}
    (hne : token ≠ new) : ¬ Holds tables' id token := by
  rintro ⟨account, haccount, hid, htoken⟩
  rw [(setApiToken_ok hset).1] at haccount
  obtain ⟨old, _, hnew⟩ := List.mem_map.mp haccount
  by_cases hown : old.id = id
  · rw [if_pos hown] at hnew
    rw [← hnew] at htoken
    exact hne htoken.symm
  · rw [if_neg hown] at hnew
    rw [← hnew] at hid
    exact hown hid

end Mint

/-! ### Runs -/

section Runs

variable {env : Env} {p p' : Pool Logins LoginJob} {a : Action Caller Clocks}

/-- A step that changes no row: what was handed out stays, and so do the jobs. -/
theorem Kept.grow (hp : Kept p) (hdistinct : Distinct p'.state.auth.tables.users)
    (husers : p.state.auth.tables.users ⊆ p'.state.auth.tables.users)
    (hhanded : ∀ pair ∈ p'.state.handed, pair ∈ p.state.handed ∨
      pair.2 ≠ [] ∧ Holds p.state.auth.tables pair.1 pair.2)
    (hjobs : ∀ job ∈ p'.jobs, job ∈ p.jobs ∨ job.Backed p.state.auth.tables) : Kept p' := by
  refine ⟨hdistinct, ?_, ?_⟩
  · intro pair hpair
    have hold : pair.2 ≠ [] ∧ Holds p.state.auth.tables pair.1 pair.2 := by
      rcases hhanded pair hpair with hpair | hnew
      · exact hp.handed pair hpair
      · exact hnew
    exact ⟨hold.1, hold.2.mono husers⟩
  · intro job hjob
    have hold : job.Backed p.state.auth.tables := by
      rcases hjobs job hjob with hjob | hnew
      · exact hp.jobs job hjob
      · exact hnew
    exact hold.mono husers

/-- The `UPDATE` of a login, where it replaces nothing. -/
theorem Kept.mint (hp : Kept p) {i : Nat} {clocks : Clocks} {user : Account} {draws : Draws}
    {rest : List LoginJob} {tables : Tables}
    (hok : MintsOnce (.run i clocks) p) (hthread : p.threads[i]? = some (.mint user draws :: rest))
    (hjob : LoginJob.mint user draws ∈ p.jobs)
    (hset : p.state.auth.tables.setApiToken user.id (fUuidV4 draws.apiToken) = .ok tables)
    (hstate : p'.state = ⟨{ p.state.auth with tables := tables }, p.state.handed⟩)
    (hjobs : ∀ job ∈ p'.jobs, job ∈ p.jobs ∨
      job = .session user (fUuidV4 draws.apiToken) draws) : Kept p' := by
  have hkeep : ∀ id token, token ≠ [] → Holds p.state.auth.tables id token →
      id = user.id → token = fUuidV4 draws.apiToken := by
    intro id token hne hholds hid
    by_contra hnew
    refine hok id token
      ⟨i, clocks, user, draws, rest, rfl, hthread, hid.symm, hholds, hne, hnew, ?_⟩
    intro other hother hother'
    exact (setApiToken_ok hset).2 (fUuidV4_ne_nil _) other hother (hid ▸ hother')
  have hauth : p'.state.auth.tables = tables := by rw [hstate]
  refine ⟨?_, ?_, ?_⟩
  · rw [hauth]
    exact hp.distinct.setApiToken hset
  · intro pair hpair
    rw [hstate] at hpair
    obtain ⟨hne, hholds⟩ := hp.handed pair hpair
    rw [hauth]
    exact ⟨hne, hholds.setApiToken hset (hkeep _ _ hne hholds)⟩
  · intro job hjob'
    rw [hauth]
    rcases hjobs job hjob' with hold | rfl
    · have hbacked := hp.jobs job hold
      cases job with
      | session user' apiToken draws' =>
          obtain ⟨hne, hholds⟩ := hbacked
          exact ⟨hne, hholds.setApiToken hset (hkeep _ _ hne hholds)⟩
      | mint user' draws' => exact exists_setApiToken hset hbacked
      | _ => trivial
    · exact ⟨fUuidV4_ne_nil _, holds_setApiToken hset (hp.jobs _ hjob)⟩

/-- The row a login goes on with is backed by the table it was read from. -/
theorem backed_lookup {tables : Tables} {user : Account} (huser : user ∈ tables.users)
    (draws : Draws) :
    (LoginJob.mint user draws).Backed tables ∧
      (user.apiToken ≠ [] → (LoginJob.session user user.apiToken draws).Backed tables) :=
  ⟨⟨user, huser, rfl⟩, fun hne => ⟨hne, user, huser, rfl, rfl⟩⟩

/-- A request comes in: a login has read nothing yet, and the others replace no
token. -/
theorem Kept.enter (hp : Kept p) {caller : Caller} {s : Logins} {jobs : List LoginJob}
    (henter : (logins env).enter caller p.threads.length p.state = some (s, jobs)) :
    Kept ⟨s, p.threads ++ [jobs]⟩ := by
  cases caller with
  | login ip body draws =>
      cases henter
      refine hp.grow hp.distinct (fun _ h => h) (fun _ h => Or.inl h) ?_
      intro job hjob
      rcases Machine.mem_enter hjob with hnew | hold
      · rw [List.mem_singleton.mp hnew]
        exact Or.inr trivial
      · exact Or.inl hold
  | other r =>
      simp only [logins] at henter
      cases hr : isLogin r with
      | true =>
          rw [hr, if_pos rfl] at henter
          cases henter
      | false =>
          rw [hr, if_neg Bool.false_ne_true] at henter
          cases henter
          refine hp.grow (distinct_serve hp.distinct r)
            (users_serve_other hr p.state.auth).subset (fun _ h => Or.inl h) ?_
          intro job hjob
          exact (Machine.mem_enter hjob).symm.imp_right (fun h => nomatch h)

/-- A login takes its next step. -/
theorem Kept.perform (hp : Kept p) {before after : List (List LoginJob)} {job : LoginJob}
    {rest jobs : List LoginJob} {clocks : Clocks} {s : Logins}
    (hok : MintsOnce (.run before.length clocks) p)
    (hthreads : p.threads = before ++ (job :: rest) :: after)
    (hperform : (logins env).perform clocks before.length job p.state = some (s, jobs)) :
    Kept ⟨s, before ++ (jobs ++ rest) :: after⟩ := by
  have hthread : p.threads[before.length]? = some (job :: rest) := by
    rw [hthreads]
    exact Machine.thread_self before after (job :: rest)
  have hjob : job ∈ p.jobs := Machine.mem_head hthreads
  have hmem : ∀ other ∈ (Pool.mk s (before ++ (jobs ++ rest) :: after)).jobs,
      other ∈ p.jobs ∨ other ∈ jobs := fun other h => (Machine.mem_run hthreads h).symm
  obtain ⟨auth, handed⟩ := s
  rcases perform_logins hperform with ⟨next, htook, hsame, rfl⟩ | ⟨answer, htook, hmore, rfl⟩
  · cases hsame
    -- A step that leaves the tables alone and goes on with a backed job.
    have hquiet (hbacked : next.Backed p.state.auth.tables) :
        Kept ⟨p.state, before ++ ([next] ++ rest) :: after⟩ := by
      refine hp.grow hp.distinct (fun _ h => h) (fun _ h => Or.inl h) ?_
      intro other h
      rcases Machine.mem_run hthreads h with hnew | hold
      · rw [List.mem_singleton.mp hnew]
        exact Or.inr hbacked
      · exact Or.inl hold
    cases htook with
    | read hfree hcreds => exact hquiet trivial
    | wrong => exact hquiet trivial
    | @tokenless ip creds draws user huser hempty => exact hquiet (backed_lookup huser draws).1
    | @right ip creds draws user huser hne => exact hquiet ((backed_lookup huser draws).2 hne)
    | minted hset =>
        refine hp.mint hok hthread hjob hset rfl ?_
        exact fun other h => (hmem other h).imp_right List.mem_singleton.mp
  · cases hmore
    have husers := htook.users
    refine hp.grow (husers ▸ hp.distinct) (fun _ h => husers ▸ h) ?_
      (fun other h => (hmem other h).imp_right (fun h => nomatch h))
    intro pair hpair
    rcases List.mem_append.mp hpair with hold | hnew
    · exact Or.inl hold
    · obtain ⟨user, apiToken, draws, rfl, rfl⟩ := mem_handsOut hnew
      exact Or.inr (hp.jobs _ hjob)

/-- **One step** that replaces no token keeps every token handed out. -/
theorem Kept.step (hp : Kept p) (hok : MintsOnce a p)
    (hstep : (logins env).step a p = some p') : Kept p' := by
  rcases Machine.step_cases hstep with
    ⟨caller, s, jobs, _, henter, heq⟩ |
    ⟨before, job, rest, after, clocks, s, jobs, ha, hthreads, hperform, heq⟩
  · rw [heq]
    exact hp.enter henter
  · rw [heq]
    exact hp.perform (ha ▸ hok) hthreads hperform

theorem kept_of_reachable (hp : Machine.Reachable (logins env) MintsOnce (Started env) p) :
    Kept p := by
  refine hp.invariant ?_ (fun a q q' hq hok hstep => hq.step hok hstep)
  rintro q ⟨hreachable, hhanded, hthreads⟩
  refine ⟨hreachable.distinct, ?_, ?_⟩
  · rw [hhanded]
    exact List.forall_mem_nil _
  · unfold Pool.jobs
    rw [hthreads]
    exact List.forall_mem_nil _

/-- A stored token names its account. -/
theorem bearer_names {tables : Tables} (hd : Distinct tables.users) {id token : Str}
    (hne : token ≠ []) (hholds : Holds tables id token) (site : Session.Site) (cookie : Str)
    (now : Int) :
    fCurrentUserIdWithHeaders site (cBearer ++ token) cookie now tables = (tables, .ok id) := by
  obtain ⟨account, haccount, hid, htoken⟩ := hholds
  have hbearer : fStartsWith (cBearer ++ token) cBearer = true := by
    rw [fStartsWith_cBearer, List.drop_left]
  rcases bearer_cases site cookie now tables hbearer with ⟨hnone, _⟩ | ⟨other, hother, hsame, hout⟩
  · exact absurd (htoken ▸ rfl) (hnone account haccount)
  · have htokens : other.apiToken = account.apiToken := by
      rw [htoken]
      exact (List.append_cancel_left hsame).symm
    have heq := hd.tokens other hother account haccount htokens (by rw [htokens, htoken]; exact hne)
    rw [hout, heq, hid]

/-- An `UPDATE` that replaces a token leaves its holder with a dead one. -/
theorem replaced {id token : Str} (hreplaces : Replaces a p id token)
    (hstep : (logins env).step a p = some p') :
    p'.state.handed = p.state.handed ∧ ¬ Holds p'.state.auth.tables id token := by
  obtain ⟨i, clocks, user, draws, rest, rfl, hthread, rfl, _, _, hne, hunique⟩ := hreplaces
  simp only [Machine.step, hthread, logins, loginStep] at hstep
  have hset : ∃ tables,
      p.state.auth.tables.setApiToken user.id (fUuidV4 draws.apiToken) = .ok tables := by
    unfold Tables.setApiToken
    rw [if_neg]
    · exact ⟨_, rfl⟩
    · rintro ⟨_, hany⟩
      obtain ⟨other, hother, hsame⟩ := List.any_eq_true.mp hany
      have hboth : other.id ≠ user.id ∧ other.apiToken = fUuidV4 draws.apiToken := by
        simpa using hsame
      exact hunique other hother hboth.1 hboth.2
  obtain ⟨tables, hset⟩ := hset
  simp only [hset, Option.map_some, Option.some.injEq] at hstep
  rw [← hstep]
  exact ⟨rfl, not_holds_setApiToken hset hne⟩

/-- What an action answers. -/
def answerOf (env : Env) (a : Action Caller Clocks) (p : Pool Logins LoginJob) : Option SignedIn :=
  match a with
  | .enter _ => none
  | .run i clocks =>
      match p.threads[i]? with
      | some (job :: _) => (loginStep env clocks job p.state.auth).2.getRight?
      | _ => none

/-- What is handed out is what is answered. -/
def HandsOver (answer : Option SignedIn) (handed handed' : List (Str × Str)) : Prop :=
  match answer with
  | none => handed' = handed
  | some answer => ∃ new, handed' = handed ++ new ∧ Hands new answer

/-- The tokens handed out are those of the answers. -/
theorem handsOver_step (hstep : (logins env).step a p = some p') :
    HandsOver (answerOf env a p) p.state.handed p'.state.handed := by
  rcases Machine.step_cases hstep with
    ⟨caller, s, jobs, rfl, henter, rfl⟩ |
    ⟨before, job, rest, after, clocks, s, jobs, rfl, hthreads, hperform, rfl⟩
  · cases caller with
    | login ip body draws =>
        cases henter
        exact rfl
    | other r =>
        simp only [logins] at henter
        split at henter
        · cases henter
        · cases henter
          exact rfl
  · have hthread : p.threads[before.length]? = some (job :: rest) := by
      rw [hthreads]
      exact Machine.thread_self before after (job :: rest)
    have hanswer : answerOf env (.run before.length clocks) p =
        (loginStep env clocks job p.state.auth).2.getRight? := by
      simp only [answerOf, hthread]
    have htook := took_loginStep env clocks job p.state.auth
    rw [hanswer]
    simp only [logins] at hperform
    split at hperform <;> rename_i hlogin <;> rw [hlogin] at htook ⊢ <;> cases hperform
    · exact rfl
    · exact ⟨_, rfl, htook.hands⟩

/-- **Tokens handed out stay valid** in every run in which no login's `UPDATE`
finds that its account has been given another token meanwhile: each is the
account's stored token, in every state, and names the account.  They are the
tokens of the answers.  An `UPDATE` that does find one leaves every login that
answered it with a dead token. -/
theorem tokens_stay_valid (env : Env) {p : Pool Logins LoginJob}
    (hp : Machine.Reachable (logins env) MintsOnce (Started env) p) :
    (∀ id token, (id, token) ∈ p.state.handed →
      Holds p.state.auth.tables id token ∧
      (∀ account ∈ p.state.auth.tables.users, account.id = id → account.apiToken = token) ∧
      ∀ cookie now, fCurrentUserIdWithHeaders env.site (cBearer ++ token) cookie now
        p.state.auth.tables = (p.state.auth.tables, .ok id)) ∧
    (∀ a p', (logins env).step a p = some p' →
      HandsOver (answerOf env a p) p.state.handed p'.state.handed) ∧
    ∀ a p' id token, (logins env).step a p = some p' → Replaces a p id token →
      (id, token) ∈ p.state.handed →
      (id, token) ∈ p'.state.handed ∧ ¬ Holds p'.state.auth.tables id token := by
  have hkept := kept_of_reachable hp
  refine ⟨?_, fun a p' => handsOver_step, ?_⟩
  · intro id token hpair
    obtain ⟨hne, hholds⟩ := hkept.handed (id, token) hpair
    refine ⟨hholds, ?_,
      fun cookie now => bearer_names hkept.distinct hne hholds env.site cookie now⟩
    intro account haccount hid
    obtain ⟨holder, hholder, hid', htoken⟩ := hholds
    rw [hkept.distinct.ids account haccount holder hholder (hid.trans hid'.symm)]
    exact htoken
  · intro a p' id token hstep hreplaces hpair
    obtain ⟨hsame, hdead⟩ := replaced hreplaces hstep
    exact ⟨hsame ▸ hpair, hdead⟩

end Runs

/-! ## Two logins of an account from before the tokens -/

def annAtRest : Pool Logins LoginJob := ⟨⟨annMigrated, []⟩, []⟩

theorem started_annAtRest : Started trusting annAtRest :=
  ⟨.start [ann] (by decide) (by decide), rfl, rfl⟩

/-- Each device is one thread; the steps come in the order given. -/
def twoDevices (order : List Nat) : List (Action Caller Clocks) :=
  [.enter (.login (str "a") annSignsIn (drawsOf 1)),
    .enter (.login (str "a") annSignsIn (drawsOf 2))] ++ order.map (fun i => .run i ⟨0, 0⟩)

/-- One device signs in after the other. -/
def annTwice : Pool Logins LoginJob :=
  ((logins trusting).execAllowed MintsOnce (twoDevices [0, 0, 0, 0, 1, 1, 1]) annAtRest).getD
    annAtRest

/-- Both devices are given the same token, and it is hers. -/
theorem tokens_stay_valid_annTwice :
    annTwice.state.handed.length = 2 ∧
      ∀ pair ∈ annTwice.state.handed, Holds annTwice.state.auth.tables pair.1 pair.2 := by
  have hp : Machine.Reachable (logins trusting) MintsOnce (Started trusting) annTwice :=
    Machine.Reachable.execAllowed_getD (.start started_annAtRest)
  refine ⟨by decide +kernel, fun pair hpair => ?_⟩
  exact ((tokens_stay_valid trusting hp).1 pair.1 pair.2 hpair).1

/-- The devices read her empty token before either stores one. -/
def annInterleaved : Pool Logins LoginJob :=
  ((logins trusting).exec (twoDevices [0, 0, 1, 1, 0, 1, 0, 1]) annAtRest).getD annAtRest

/-- **A token is lost**: both logins are done and have answered, and what the
first answered is not her token any more. -/
theorem token_replaced :
    ¬ ∀ env p, Machine.Reachable (logins env) (fun _ _ => True) (Started env) p →
      (∀ thread ∈ p.threads, thread = []) →
      ∀ pair ∈ p.state.handed, Holds p.state.auth.tables pair.1 pair.2 := by
  intro hall
  have hp : Machine.Reachable (logins trusting) (fun _ _ => True) (Started trusting)
      annInterleaved :=
    Machine.Reachable.exec_getD (fun _ _ _ => trivial) (.start started_annAtRest)
      (by decide +kernel)
  have hdone : ∀ thread ∈ annInterleaved.threads, thread.length = 0 := by decide +kernel
  have hholds := hall trusting annInterleaved hp
    (fun thread h => List.length_eq_zero_iff.mp (hdone thread h))
    (str "ann", fUuidV4 (Vector.replicate 16 1)) (by decide +kernel)
  have hdead : ¬ ∃ account ∈ annInterleaved.state.auth.tables.users, account.id = str "ann" ∧
      account.apiToken = fUuidV4 (Vector.replicate 16 1) := by decide +kernel
  exact hdead hholds

end Auth

end Lectern
