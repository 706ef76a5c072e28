import Lectern.Minting
import Lectern.Threads.Events

/-!
# Registrations that run at the same time

A registration looks whether its email is taken and inserts the account in a
later call; between the two another registration of the same email may do both.
Then the `UNIQUE` constraint refuses the second insertion, and its caller gets
an error.  So of all registrations of an email at most one succeeds, whatever
the order of their steps, and what it answered is good from then on: the account
keeps its id and its token, and signs in under every spelling of the email.

Logins run here too, one step after the other: one that read an account without
a token stores a new one, and it must not be that of a registration.
-/

namespace Lectern

namespace Auth

open Threads RateLimiter

/-! ## The steps of a registration -/

/-- What a registration has still to do. -/
inductive RegisterJob where
  | check (ip : Str) (body : Json) (draws : Draws)
  | record (ip : Str) (body : Json) (draws : Draws)
  | lookup (email : Str) (draws : Draws)
  | insert (email passwordHash : Str) (draws : Draws)
  | session (row : Account) (draws : Draws)

/-- One step of `POST /api/auth/register`: it goes on or answers. -/
def registerStep (env : Env) (clocks : Clocks) (job : RegisterJob) (s : AuthState) :
    AuthState × (RegisterJob ⊕ SignedIn) :=
  match job with
  | .check ip body draws =>
      if s.authLimiter.fIsLimited ip (str "register") cRegisterLimit cRegisterWindow clocks.tick then
        (s, .inr (.error .fTooManyRequests))
      else (s, .inl (.record ip body draws))
  | .record ip body draws =>
      let s := { s with authLimiter :=
        s.authLimiter.fRecord ip (str "register") cRegisterWindow clocks.tick }
      match fCredentialsFrom body with
      | .error e => (s, .inr (.error e))
      | .ok creds =>
          let email := fToLower (fTrim creds.email)
          if !fIsValidEmail email then (s, .inr (.error (.fBadRequest (str "invalid email"))))
          else if creds.password.length < 8 then
            (s, .inr (.error (.fBadRequest (str "password must be at least 8 characters"))))
          else (s, .inl (.lookup email draws))
  | .lookup email draws =>
      if s.tables.users.any (fun user => user.email = email) then
        (s, .inr (.error (.fConflict (str "email already registered"))))
      else
        match draws.passwordHash with
        | none => (s, .inr (.error internalError))
        | some passwordHash => (s, .inl (.insert email passwordHash draws))
  | .insert email passwordHash draws =>
      let row : Account :=
        ⟨fUuidV4 draws.id, email, passwordHash, clocks.now, fUuidV4 draws.apiToken⟩
      match s.tables.insertUser row with
      | .error e => (s, .inr (.error e))
      | .ok tables => ({ s with tables := tables }, .inl (.session row draws))
  | .session row draws =>
      let (s, answer) := signIn env row.id row.email row.apiToken draws.session clocks.now s
      (s, .inr answer)

/-- An email that is free is taken to the insertion. -/
theorem registerStep_lookup {env : Env} {clocks : Clocks} {email passwordHash : Str}
    {draws : Draws} {s : AuthState}
    (hfree : ¬ s.tables.users.any (fun user => user.email = email) = true)
    (hhash : draws.passwordHash = some passwordHash) :
    registerStep env clocks (.lookup email draws) s =
      (s, .inl (.insert email passwordHash draws)) := by
  simp only [registerStep, hhash]
  exact if_neg hfree

/-- **A registration that nothing interrupts** does what the handler does. -/
theorem alone_registerStep (env : Env) (ip : Str) (body : Json) (draws : Draws) (clocks : Clocks)
    (s : AuthState) :
    Machine.alone (registerStep env clocks) 5 (.check ip body draws) s =
      ((register env ip body draws clocks.tick clocks.now clocks.now s).1,
        some (register env ip body draws clocks.tick clocks.now clocks.now s).2) := by
  unfold register
  split
  · rename_i hlimited
    exact Machine.alone_inr (if_pos hlimited)
  · rename_i hlimited
    have hcheck : registerStep env clocks (.check ip body draws) s =
        (s, .inl (.record ip body draws)) := if_neg hlimited
    rw [Machine.alone_inl hcheck]
    dsimp only
    split
    · rename_i hcreds
      refine Machine.alone_inr ?_
      simp only [registerStep, hcreds]
    · rename_i creds hcreds
      split
      · rename_i hemail
        refine Machine.alone_inr ?_
        simp only [registerStep, hcreds]
        exact if_pos hemail
      · rename_i hemail
        split
        · rename_i hshort
          refine Machine.alone_inr ?_
          simp only [registerStep, hcreds]
          rw [if_neg hemail, if_pos hshort]
        · rename_i hshort
          have hrecord : registerStep env clocks (.record ip body draws) s =
              ({ s with authLimiter :=
                s.authLimiter.fRecord ip (str "register") cRegisterWindow clocks.tick },
                .inl (.lookup (fToLower (fTrim creds.email)) draws)) := by
            simp only [registerStep, hcreds]
            rw [if_neg hemail, if_neg hshort]
          rw [Machine.alone_inl hrecord]
          split
          · rename_i htaken
            exact Machine.alone_inr (if_pos htaken)
          · rename_i htaken
            split
            · rename_i hhash
              refine Machine.alone_inr ?_
              simp only [registerStep, hhash]
              exact if_neg htaken
            · rename_i passwordHash hhash
              refine Eq.trans (Machine.alone_inl (registerStep_lookup ?_ hhash)) ?_
              · exact htaken
              split
              · rename_i hinsert
                refine Machine.alone_inr ?_
                simp only [registerStep, hinsert]
              · rename_i tables hinsert
                simp only [Machine.alone, registerStep, hinsert]

/-! ## Registrations and logins among other requests -/

inductive AccountJob where
  | login (job : LoginJob)
  | register (job : RegisterJob)

inductive Visitor where
  | login (ip : Str) (body : Json) (draws : Draws)
  | register (ip : Str) (body : Json) (draws : Draws)
  | other (r : Request)

def isRegister : Request → Bool
  | .register .. => true
  | _ => false

def accounts (env : Env) : Machine Logins AccountJob Visitor Clocks where
  enter visitor _ s :=
    match visitor with
    | .login ip body draws => some (s, [.login (.check ip body draws)])
    | .register ip body draws => some (s, [.register (.check ip body draws)])
    | .other r =>
        if isLogin r || isRegister r then none
        else some ({ s with auth := serve env r s.auth }, [])
  perform clocks i job s :=
    match job with
    | .login job =>
        ((logins env).perform clocks i job s).map (fun (s, jobs) => (s, jobs.map .login))
    | .register job =>
        match registerStep env clocks job s.auth with
        | (auth, .inl job) => some ({ s with auth := auth }, [.register job])
        | (auth, .inr _) => some ({ s with auth := auth }, [])

/-- What is heard of the registrations. -/
inductive Heard where
  | asked (thread : Nat) (body : Json)
  | inserted (thread : Nat) (row : Account)
  | answered (thread : Nat) (answer : SignedIn)

def hear (env : Env) (a : Action Visitor Clocks) (p : Pool Logins AccountJob) : List Heard :=
  match a with
  | .enter (.register _ body _) => [.asked p.threads.length body]
  | .enter _ => []
  | .run i clocks =>
      match p.threads[i]? with
      | some (.register job :: _) =>
          match (registerStep env clocks job p.state.auth).2 with
          | .inl (.session row _) => [.inserted i row]
          | .inl _ => []
          | .inr answer => [.answered i answer]
      | _ => []

/-- The server after some requests, before any that run at the same time. -/
def Opened (env : Env) (p : Pool Logins AccountJob) : Prop :=
  Reachable env p.state.auth ∧ p.threads = []

/-- The answer of a registration and of a login. -/
def accountBody (row : Account) : Except AppError Body :=
  fJsonResponse (.object [(str "id", .string row.id), (str "email", .string row.email),
    (str "apiToken", .string row.apiToken)])

/-! ### What the steps do to the accounts -/

/-- No two accounts share an email. -/
def Emails (users : List Account) : Prop :=
  ∀ a ∈ users, ∀ b ∈ users, a.email = b.email → a = b

theorem insertUser_email {tables tables' : Tables} {user : Account}
    (h : tables.insertUser user = .ok tables') : ∀ old ∈ tables.users, old.email ≠ user.email := by
  unfold Tables.insertUser at h
  split at h
  · cases h
  · split at h
    · cases h
    · rename_i hemail
      simpa using hemail

theorem Emails.insertUser {tables tables' : Tables} {user : Account} (he : Emails tables.users)
    (h : tables.insertUser user = .ok tables') : Emails tables'.users := by
  have hfresh := insertUser_email h
  unfold Emails
  rw [(insertUser_ok h).1]
  refine forall_pair_append he ?_ (fun _ => rfl)
  intro a ha
  exact ⟨fun hsame => absurd hsame (hfresh a ha), fun hsame => absurd hsame.symm (hfresh a ha)⟩

theorem Emails.setApiToken {tables tables' : Tables} {id apiToken : Str}
    (he : Emails tables.users) (h : tables.setApiToken id apiToken = .ok tables') :
    Emails tables'.users := by
  unfold Emails
  rw [(setApiToken_ok h).1]
  have hemail (user : Account) :
      (if user.id = id then { user with apiToken := apiToken } else user).email = user.email := by
    split <;> rfl
  intro a' ha b' hb hsame
  obtain ⟨a, holdA, rfl⟩ := List.mem_map.mp ha
  obtain ⟨b, holdB, rfl⟩ := List.mem_map.mp hb
  rw [hemail, hemail] at hsame
  rw [he a holdA b holdB hsame]

/-- **Along every run** emails are apart. -/
theorem Reachable.emails {env : Env} {s : AuthState} (hs : Reachable env s) :
    Emails s.tables.users := by
  induction hs with
  | start legacy hids hemails =>
      intro a ha b hb hsame
      obtain ⟨old, hold, rfl⟩ := List.mem_map.mp ha
      obtain ⟨old', hold', rfl⟩ := List.mem_map.mp hb
      rw [List.inj_on_of_nodup_map hemails hold hold' hsame]
  | @step s r hs ih =>
      cases r with
      | register ip body draws tick createdAt now =>
          change Emails (register env ip body draws tick createdAt now s).1.tables.users
          rcases register_cases env ip body draws tick createdAt now s with
            hsame | ⟨user, tables, _, hinsert, hsame⟩
          · rw [hsame]
            exact ih
          · rw [hsame]
            exact ih.insertUser hinsert
      | login ip body draws tick now =>
          change Emails (login env ip body draws tick now s).1.tables.users
          rcases login_cases env ip body draws tick now s with hsame | ⟨id, tables, hset, hsame⟩
          · rw [hsame]
            exact ih
          · rw [hsame]
            exact ih.setApiToken hset
      | logout cookie =>
          change Emails (Session.fDestroy env.site cookie s.tables).1.users
          rw [Session.users_fDestroy]
          exact ih
      | identify authorization cookie now =>
          change Emails
            (fCurrentUserIdWithHeaders env.site authorization cookie now s.tables).1.users
          rw [users_fCurrentUserIdWithHeaders]
          exact ih
      | purge now => exact ih

/-- Requests that neither sign in nor register leave the accounts alone. -/
theorem users_serve_rest {env : Env} {r : Request} (hlogin : isLogin r = false)
    (hregister : isRegister r = false) (s : AuthState) :
    (serve env r s).tables.users = s.tables.users := by
  cases r with
  | login => cases hlogin
  | register => cases hregister
  | logout cookie => exact Session.users_fDestroy env.site cookie s.tables
  | identify authorization cookie now =>
      exact users_fCurrentUserIdWithHeaders env.site authorization cookie now s.tables
  | purge now => rfl

/-- A step of a login: it leaves the accounts alone and is going to give a token
only to one that has none, or it gives it. -/
theorem login_perform {env : Env} {clocks : Clocks} {i : Nat} {job : LoginJob}
    {jobs : List LoginJob} {s s' : Logins}
    (h : (logins env).perform clocks i job s = some (s', jobs)) :
    s'.auth.tables.users = s.auth.tables.users ∧
        (∀ user draws, .mint user draws ∈ jobs →
          user ∈ s.auth.tables.users ∧ user.apiToken = []) ∨
      ∃ user draws tables, job = .mint user draws ∧
        s.auth.tables.setApiToken user.id (fUuidV4 draws.apiToken) = .ok tables ∧
        s'.auth.tables = tables ∧ ∀ user draws, LoginJob.mint user draws ∉ jobs := by
  obtain ⟨auth, handed⟩ := s'
  rcases perform_logins h with ⟨next, htook, _, rfl⟩ | ⟨answer, htook, _, rfl⟩
  · cases htook with
    | read hfree hcreds => exact Or.inl ⟨rfl, by simp⟩
    | wrong => exact Or.inl ⟨rfl, by simp⟩
    | tokenless huser hempty =>
        refine Or.inl ⟨rfl, ?_⟩
        intro user' draws' hmem
        cases List.mem_singleton.mp hmem
        exact ⟨huser, hempty⟩
    | right huser hne => exact Or.inl ⟨rfl, by simp⟩
    | minted hset => exact Or.inr ⟨_, _, _, rfl, hset, rfl, by simp⟩
  · exact Or.inl ⟨htook.users, by simp⟩

/-- A step of a registration: it leaves the accounts alone and inserts none, or
it inserts its own, with a token. -/
theorem registerStep_cases (env : Env) (clocks : Clocks) (job : RegisterJob) (s : AuthState) :
    (registerStep env clocks job s).1.tables.users = s.tables.users ∧
        (∀ row draws, (registerStep env clocks job s).2 ≠ .inl (.session row draws)) ∨
      ∃ row draws, row.apiToken ≠ [] ∧
        s.tables.insertUser row = .ok (registerStep env clocks job s).1.tables ∧
        (registerStep env clocks job s).2 = .inl (.session row draws) := by
  cases job with
  | check ip body draws =>
      left
      unfold registerStep
      dsimp only
      split <;> exact ⟨rfl, by simp⟩
  | record ip body draws =>
      left
      unfold registerStep
      dsimp only
      split
      · exact ⟨rfl, by simp⟩
      · split
        · exact ⟨rfl, by simp⟩
        · split <;> exact ⟨rfl, by simp⟩
  | lookup email draws =>
      left
      unfold registerStep
      dsimp only
      split
      · exact ⟨rfl, by simp⟩
      · split <;> exact ⟨rfl, by simp⟩
  | insert email passwordHash draws =>
      cases hinsert : s.tables.insertUser
          ⟨fUuidV4 draws.id, email, passwordHash, clocks.now, fUuidV4 draws.apiToken⟩ with
      | error e =>
          left
          simp only [registerStep, hinsert]
          exact ⟨trivial, by simp⟩
      | ok tables =>
          right
          refine ⟨⟨fUuidV4 draws.id, email, passwordHash, clocks.now, fUuidV4 draws.apiToken⟩,
            draws, fUuidV4_ne_nil draws.apiToken, ?_, ?_⟩
          · simp only [registerStep, hinsert]
          · simp only [registerStep, hinsert]
  | session row draws =>
      left
      exact ⟨users_signIn _ _ _ _ _ _ _, by simp [registerStep]⟩

/-- A registration that succeeds answers with the account it has inserted. -/
theorem registerStep_ok {env : Env} {clocks : Clocks} {job : RegisterJob} {s : AuthState}
    {body : Body} {cookie : Session.Cookie}
    (h : (registerStep env clocks job s).2 = .inr (.ok (body, cookie))) :
    ∃ row draws, job = .session row draws ∧ accountBody row = .ok body := by
  cases job with
  | check ip body draws =>
      unfold registerStep at h
      dsimp only at h
      split at h <;> cases h
  | record ip body draws =>
      unfold registerStep at h
      dsimp only at h
      split at h
      · cases h
      · split at h
        · cases h
        · split at h <;> cases h
  | lookup email draws =>
      unfold registerStep at h
      dsimp only at h
      split at h
      · cases h
      · split at h <;> cases h
  | insert email passwordHash draws =>
      unfold registerStep at h
      dsimp only at h
      split at h <;> cases h
  | session row draws =>
      refine ⟨row, draws, rfl, ?_⟩
      have hsign : signIn env row.id row.email row.apiToken draws.session clocks.now s =
          ((registerStep env clocks (.session row draws) s).1, .ok (body, cookie)) :=
        Prod.ext rfl (Sum.inr.inj h)
      exact signIn_body hsign

/-! ## Runs -/

/-- Everything that is known of a run of registrations and logins. -/
structure Entered (p : Pool Logins AccountJob) (heard : List Heard) : Prop where
  distinct : Distinct p.state.auth.tables.users
  emails : Emails p.state.auth.tables.users
  rows : ∀ i row, .inserted i row ∈ heard → row ∈ p.state.auth.tables.users ∧ row.apiToken ≠ []
  once : ∀ i j row, .inserted i row ∈ heard → .inserted j row ∈ heard → i = j
  -- A token that is on its way is that of an account no registration inserted.
  mints : ∀ user draws, AccountJob.login (.mint user draws) ∈ p.jobs →
    (∃ old ∈ p.state.auth.tables.users, old.id = user.id) ∧
      ∀ i row, .inserted i row ∈ heard → row.id ≠ user.id
  sessions : ∀ i t, p.threads[i]? = some t → ∀ row draws,
    AccountJob.register (.session row draws) ∈ t → .inserted i row ∈ heard
  answered : ∀ i body cookie, .answered i (.ok (body, cookie)) ∈ heard →
    ∃ row, .inserted i row ∈ heard ∧ accountBody row = .ok body

section Steps

variable {env : Env} {p : Pool Logins AccountJob} {heard : List Heard}

theorem entered_opened (h : Opened env p) : Entered p [] := by
  obtain ⟨hreachable, hthreads⟩ := h
  refine ⟨hreachable.distinct, hreachable.emails, by simp, by simp, ?_, ?_, by simp⟩
  · simp [Pool.jobs, hthreads]
  · simp [hthreads]

/-- A step that inserts no account and changes none. -/
theorem Entered.quiet (hp : Entered p heard) {s : Logins} {threads : List (List AccountJob)}
    {answers : List Heard} (husers : s.auth.tables.users = p.state.auth.tables.users)
    (hnone : ∀ i row, .inserted i row ∉ answers)
    (hmints : ∀ user draws, AccountJob.login (.mint user draws) ∈ (Pool.mk s threads).jobs →
      AccountJob.login (.mint user draws) ∈ p.jobs ∨
        user ∈ p.state.auth.tables.users ∧ user.apiToken = [])
    (hsessions : ∀ i t, threads[i]? = some t → ∀ row draws,
      AccountJob.register (.session row draws) ∈ t → .inserted i row ∈ heard)
    (hanswers : ∀ i body cookie, .answered i (.ok (body, cookie)) ∈ answers →
      ∃ row, .inserted i row ∈ heard ∧ accountBody row = .ok body) :
    Entered ⟨s, threads⟩ (answers ++ heard) := by
  have hold {i : Nat} {row : Account} (h : .inserted i row ∈ answers ++ heard) :
      .inserted i row ∈ heard := (List.mem_append.mp h).resolve_left (hnone i row)
  refine ⟨?_, ?_, ?_, ?_, ?_, ?_, ?_⟩
  · exact husers.symm ▸ hp.distinct
  · exact husers.symm ▸ hp.emails
  · intro i row hrow
    exact husers.symm ▸ hp.rows i row (hold hrow)
  · exact fun i j row hi hj => hp.once i j row (hold hi) (hold hj)
  · intro user draws hjob
    show (∃ old ∈ s.auth.tables.users, old.id = user.id) ∧ _
    rw [husers]
    rcases hmints user draws hjob with hbefore | ⟨huser, hempty⟩
    · obtain ⟨hexists, hother⟩ := hp.mints user draws hbefore
      exact ⟨hexists, fun i row hrow => hother i row (hold hrow)⟩
    · refine ⟨⟨user, huser, rfl⟩, ?_⟩
      intro i row hrow hid
      obtain ⟨hmem, htoken⟩ := hp.rows i row (hold hrow)
      rw [hp.distinct.ids row hmem user huser hid] at htoken
      exact htoken hempty
  · exact fun i t ht row draws hjob => List.mem_append_right _ (hsessions i t ht row draws hjob)
  · intro i body cookie hanswer
    rcases List.mem_append.mp hanswer with hnew | hbefore
    · obtain ⟨row, hrow, hbody⟩ := hanswers i body cookie hnew
      exact ⟨row, List.mem_append_right _ hrow, hbody⟩
    · obtain ⟨row, hrow, hbody⟩ := hp.answered i body cookie hbefore
      exact ⟨row, List.mem_append_right _ hrow, hbody⟩

/-- Nothing of the sessions changes where a thread goes on with other jobs. -/
theorem sessions_run (hp : Entered p heard) {before after : List (List AccountJob)}
    {job : AccountJob} {rest : List AccountJob}
    (hthreads : p.threads = before ++ (job :: rest) :: after) (jobs : List AccountJob)
    (hjobs : ∀ row draws, AccountJob.register (.session row draws) ∉ jobs) :
    ∀ i t, (before ++ (jobs ++ rest) :: after)[i]? = some t → ∀ row draws,
      AccountJob.register (.session row draws) ∈ t → .inserted i row ∈ heard := by
  intro i t ht row draws hjob
  rcases Machine.thread_run_cases (job :: rest) ht with ⟨_, hother⟩ | ⟨rfl, rfl⟩
  · rw [← hthreads] at hother
    exact hp.sessions i t hother row draws hjob
  · have hthread : p.threads[before.length]? = some (job :: rest) := by
      rw [hthreads]
      exact Machine.thread_self before after (job :: rest)
    refine hp.sessions _ _ hthread row draws (List.mem_cons_of_mem _ ?_)
    exact (List.mem_append.mp hjob).resolve_left (hjobs row draws)

theorem Entered.enter (hp : Entered p heard) {visitor : Visitor} {s : Logins}
    {jobs : List AccountJob}
    (henter : (accounts env).enter visitor p.threads.length p.state = some (s, jobs)) :
    Entered ⟨s, p.threads ++ [jobs]⟩ (hear env (.enter visitor) p ++ heard) := by
  have hasked {event : Heard} (h : event ∈ hear env (.enter visitor) p) :
      ∃ i body, event = .asked i body := by
    cases visitor with
    | register ip body draws => exact ⟨_, body, List.mem_singleton.mp h⟩
    | login ip body draws => cases h
    | other r => cases h
  have hquiet (husers : s.auth.tables.users = p.state.auth.tables.users)
      (hlogin : ∀ user draws, AccountJob.login (.mint user draws) ∉ jobs)
      (hregister : ∀ row draws, AccountJob.register (.session row draws) ∉ jobs) :
      Entered ⟨s, p.threads ++ [jobs]⟩ (hear env (.enter visitor) p ++ heard) := by
    refine hp.quiet husers ?_ ?_ ?_ ?_
    · intro i row hrow
      obtain ⟨_, _, heq⟩ := hasked hrow
      cases heq
    · intro user draws hjob
      exact Or.inl ((Machine.mem_enter hjob).resolve_left (hlogin user draws))
    · intro i t ht row draws hjob
      rcases Machine.thread_enter_cases ht with hold | ⟨_, rfl⟩
      · exact hp.sessions i t hold row draws hjob
      · exact absurd hjob (hregister row draws)
    · intro i body cookie hanswer
      obtain ⟨_, _, heq⟩ := hasked hanswer
      cases heq
  cases visitor with
  | login ip body draws =>
      cases henter
      exact hquiet rfl (by simp) (by simp)
  | register ip body draws =>
      cases henter
      exact hquiet rfl (by simp) (by simp)
  | other r =>
      simp only [accounts] at henter
      split at henter
      · cases henter
      · rename_i hother
        rw [Bool.or_eq_true, not_or, Bool.not_eq_true, Bool.not_eq_true] at hother
        cases henter
        exact hquiet (users_serve_rest hother.1 hother.2 _) (by simp) (by simp)

/-- The `UPDATE` of a login. -/
theorem Entered.mint (hp : Entered p heard) {user : Account} {draws : Draws} {s : Logins}
    {tables : Tables} {threads : List (List AccountJob)}
    (hjob : AccountJob.login (.mint user draws) ∈ p.jobs)
    (hset : p.state.auth.tables.setApiToken user.id (fUuidV4 draws.apiToken) = .ok tables)
    (htables : s.auth.tables = tables)
    (hmints : ∀ user draws, AccountJob.login (.mint user draws) ∈ (Pool.mk s threads).jobs →
      AccountJob.login (.mint user draws) ∈ p.jobs)
    (hsessions : ∀ i t, threads[i]? = some t → ∀ row draws,
      AccountJob.register (.session row draws) ∈ t → .inserted i row ∈ heard) :
    Entered ⟨s, threads⟩ heard := by
  refine ⟨?_, ?_, ?_, hp.once, ?_, hsessions, hp.answered⟩
  · exact htables.symm ▸ hp.distinct.setApiToken hset
  · exact htables.symm ▸ hp.emails.setApiToken hset
  · intro i row hrow
    obtain ⟨hmem, htoken⟩ := hp.rows i row hrow
    refine ⟨?_, htoken⟩
    show row ∈ s.auth.tables.users
    rw [htables, (setApiToken_ok hset).1]
    refine List.mem_map.mpr ⟨row, hmem, ?_⟩
    rw [if_neg ((hp.mints user draws hjob).2 i row hrow)]
  · intro user' draws' hjob'
    obtain ⟨hexists, hother⟩ := hp.mints user' draws' (hmints user' draws' hjob')
    exact ⟨htables.symm ▸ exists_setApiToken hset hexists, hother⟩

/-- The insertion of a registration. -/
theorem Entered.insert (hp : Entered p heard) {i : Nat} {row : Account} {s : Logins}
    {threads : List (List AccountJob)} (htoken : row.apiToken ≠ [])
    (hinsert : p.state.auth.tables.insertUser row = .ok s.auth.tables)
    (hmints : ∀ user draws, AccountJob.login (.mint user draws) ∈ (Pool.mk s threads).jobs →
      AccountJob.login (.mint user draws) ∈ p.jobs)
    (hsessions : ∀ j t, threads[j]? = some t → ∀ row' draws,
      AccountJob.register (.session row' draws) ∈ t →
        .inserted j row' ∈ heard ∨ j = i ∧ row' = row) :
    Entered ⟨s, threads⟩ (.inserted i row :: heard) := by
  have hrows := (insertUser_ok hinsert).1
  have hfresh := (insertUser_ok hinsert).2.1
  have hnew {j : Nat} {row' : Account} (h : .inserted j row' ∈ Heard.inserted i row :: heard) :
      j = i ∧ row' = row ∨ .inserted j row' ∈ heard :=
    (List.mem_cons.mp h).imp_left (fun heq => by cases heq; exact ⟨rfl, rfl⟩)
  -- The row is none of those inserted before.
  have hapart {j : Nat} (h : .inserted j row ∈ heard) : False :=
    hfresh row (hp.rows j row h).1 rfl
  refine ⟨hp.distinct.insertUser hinsert, hp.emails.insertUser hinsert, ?_, ?_, ?_, ?_, ?_⟩
  · intro j row' hrow'
    show row' ∈ s.auth.tables.users ∧ _
    rw [hrows]
    rcases hnew hrow' with ⟨_, rfl⟩ | hold
    · exact ⟨List.mem_append_right _ List.mem_cons_self, htoken⟩
    · exact ⟨List.mem_append_left _ (hp.rows j row' hold).1, (hp.rows j row' hold).2⟩
  · intro j k row' hj hk
    rcases hnew hj with ⟨rfl, rfl⟩ | holdJ
    · rcases hnew hk with ⟨rfl, _⟩ | holdK
      · rfl
      · exact (hapart holdK).elim
    · rcases hnew hk with ⟨rfl, rfl⟩ | holdK
      · exact (hapart holdJ).elim
      · exact hp.once j k row' holdJ holdK
  · intro user draws hjob
    obtain ⟨⟨old, hold, hid⟩, hother⟩ := hp.mints user draws (hmints user draws hjob)
    refine ⟨⟨old, ?_, hid⟩, ?_⟩
    · show old ∈ s.auth.tables.users
      rw [hrows]
      exact List.mem_append_left _ hold
    · intro j row' hrow'
      rcases hnew hrow' with ⟨_, rfl⟩ | hbefore
      · exact hid ▸ (hfresh old hold).symm
      · exact hother j row' hbefore
  · intro j t ht row' draws hjob
    rcases hsessions j t ht row' draws hjob with hbefore | ⟨rfl, rfl⟩
    · exact List.mem_cons_of_mem _ hbefore
    · exact List.mem_cons_self
  · intro j body cookie hanswer
    obtain ⟨row', hrow', hbody⟩ := hp.answered j body cookie
      ((List.mem_cons.mp hanswer).resolve_left (by simp))
    exact ⟨row', List.mem_cons_of_mem _ hrow', hbody⟩

section Perform

variable {before after : List (List AccountJob)} {rest : List AccountJob} {clocks : Clocks}

/-- One step of a login. -/
theorem Entered.login (hp : Entered p heard) {job : LoginJob} {jobs : List LoginJob} {s : Logins}
    (hthreads : p.threads = before ++ (.login job :: rest) :: after)
    (hlogin : (logins env).perform clocks before.length job p.state = some (s, jobs)) :
    Entered ⟨s, before ++ (jobs.map .login ++ rest) :: after⟩ heard := by
  have hsessions : ∀ i t, (before ++ (jobs.map .login ++ rest) :: after)[i]? = some t →
      ∀ row draws, AccountJob.register (.session row draws) ∈ t → .inserted i row ∈ heard :=
    sessions_run hp hthreads _ (by simp)
  have hmem {user : Account} {draws : Draws} (h : AccountJob.login (.mint user draws) ∈
      (Pool.mk s (before ++ (jobs.map .login ++ rest) :: after)).jobs) :
      .mint user draws ∈ jobs ∨ AccountJob.login (.mint user draws) ∈ p.jobs := by
    refine (Machine.mem_run hthreads h).imp_left ?_
    intro hnew
    obtain ⟨_, hnew, heq⟩ := List.mem_map.mp hnew
    cases heq
    exact hnew
  rcases login_perform hlogin with
    ⟨husers, hmint⟩ | ⟨user, draws, tables, rfl, hset, htables, hmint⟩
  · suffices hall : Entered ⟨s, before ++ (jobs.map .login ++ rest) :: after⟩ ([] ++ heard)
      from hall
    refine hp.quiet husers (by simp) ?_ hsessions (by simp)
    exact fun user draws h => (hmem h).symm.imp_right (hmint user draws)
  · refine hp.mint (Machine.mem_head hthreads) hset htables ?_ hsessions
    exact fun user' draws' h => (hmem h).resolve_left (hmint user' draws')

variable {job : RegisterJob} {auth : AuthState}

/-- The jobs a registration goes on with give nobody a token. -/
theorem mints_register (hthreads : p.threads = before ++ (.register job :: rest) :: after)
    {s : Logins} (jobs : List AccountJob)
    (hnone : ∀ user draws, AccountJob.login (.mint user draws) ∉ jobs) (user : Account)
    (draws : Draws) (h : AccountJob.login (.mint user draws) ∈
      (Pool.mk s (before ++ (jobs ++ rest) :: after)).jobs) :
    AccountJob.login (.mint user draws) ∈ p.jobs :=
  (Machine.mem_run hthreads h).resolve_left (hnone user draws)

/-- A registration goes on. -/
theorem Entered.goes_on (hp : Entered p heard) {next : RegisterJob}
    (hthreads : p.threads = before ++ (.register job :: rest) :: after)
    (hstep : registerStep env clocks job p.state.auth = (auth, .inl next)) :
    Entered ⟨{ p.state with auth := auth }, before ++ (.register next :: rest) :: after⟩
      (hear env (.run before.length clocks) p ++ heard) := by
  have hthread : p.threads[before.length]? = some (.register job :: rest) := by
    rw [hthreads]
    exact Machine.thread_self before after (.register job :: rest)
  have hcases := registerStep_cases env clocks job p.state.auth
  rw [hstep] at hcases
  rcases hcases with ⟨husers, hnone⟩ | ⟨row, draws, htoken, hinsert, hnext⟩
  · have hhear : hear env (.run before.length clocks) p = [] := by
      simp only [hear, hthread, hstep]
      split
      · rename_i row draws heq
        exact absurd heq (hnone row draws)
      · rfl
      · rename_i heq
        cases heq
    rw [hhear]
    refine hp.quiet husers (by simp)
      (fun user draws h => Or.inl (mints_register hthreads [.register next] (by simp) user draws h))
      (sessions_run hp hthreads [.register next] ?_) (by simp)
    intro row draws h
    cases List.mem_singleton.mp h
    exact hnone row draws rfl
  · cases hnext
    have hhear : hear env (.run before.length clocks) p = [.inserted before.length row] := by
      simp only [hear, hthread, hstep]
    rw [hhear]
    refine hp.insert htoken hinsert
      (mints_register hthreads [.register (.session row draws)] (by simp)) ?_
    intro j t ht row' draws' h
    rcases Machine.thread_run_cases (.register job :: rest) ht with
      ⟨_, hother⟩ | ⟨rfl, rfl⟩
    · rw [← hthreads] at hother
      exact Or.inl (hp.sessions j t hother row' draws' h)
    · rcases List.mem_cons.mp h with heq | h
      · cases heq
        exact Or.inr ⟨rfl, rfl⟩
      · exact Or.inl (hp.sessions _ _ hthread row' draws' (List.mem_cons_of_mem _ h))

/-- A registration answers. -/
theorem Entered.answers (hp : Entered p heard) {answer : SignedIn}
    (hthreads : p.threads = before ++ (.register job :: rest) :: after)
    (hstep : registerStep env clocks job p.state.auth = (auth, .inr answer)) :
    Entered ⟨{ p.state with auth := auth }, before ++ rest :: after⟩
      (hear env (.run before.length clocks) p ++ heard) := by
  have hthread : p.threads[before.length]? = some (.register job :: rest) := by
    rw [hthreads]
    exact Machine.thread_self before after (.register job :: rest)
  have hhear : hear env (.run before.length clocks) p = [.answered before.length answer] := by
    simp only [hear, hthread, hstep]
  have hcases := registerStep_cases env clocks job p.state.auth
  rw [hstep] at hcases
  have husers : auth.tables.users = p.state.auth.tables.users := by
    rcases hcases with ⟨husers, _⟩ | ⟨row, draws, _, _, hnext⟩
    · exact husers
    · cases hnext
  rw [hhear]
  refine hp.quiet husers (by simp)
    (fun user draws h => Or.inl (mints_register hthreads [] (by simp) user draws h))
    (sessions_run hp hthreads [] (by simp)) ?_
  intro i body cookie hanswer
  cases List.mem_singleton.mp hanswer
  obtain ⟨row, draws, rfl, hbody⟩ := registerStep_ok (congrArg Prod.snd hstep)
  exact ⟨row, hp.sessions _ _ hthread row draws List.mem_cons_self, hbody⟩

/-- One step of a login or a registration. -/
theorem Entered.perform (hp : Entered p heard) {job : AccountJob} {jobs : List AccountJob}
    {s : Logins} (hthreads : p.threads = before ++ (job :: rest) :: after)
    (hperform : (accounts env).perform clocks before.length job p.state = some (s, jobs)) :
    Entered ⟨s, before ++ (jobs ++ rest) :: after⟩
      (hear env (.run before.length clocks) p ++ heard) := by
  cases job with
  | login job =>
      have hthread : p.threads[before.length]? = some (.login job :: rest) := by
        rw [hthreads]
        exact Machine.thread_self before after (.login job :: rest)
      have hhear : hear env (.run before.length clocks) p = [] := by
        simp [hear, hthread]
      obtain ⟨⟨s', jobs'⟩, hlogin, heq⟩ := Option.map_eq_some_iff.mp hperform
      cases heq
      rw [hhear]
      exact hp.login hthreads hlogin
  | register job =>
      cases hstep : registerStep env clocks job p.state.auth with
      | mk auth outcome =>
          cases outcome with
          | inl next =>
              simp only [accounts, hstep] at hperform
              cases hperform
              exact hp.goes_on hthreads hstep
          | inr answer =>
              simp only [accounts, hstep] at hperform
              cases hperform
              exact hp.answers hthreads hstep

end Perform

/-- **Along every run.** -/
theorem entered (h : (accounts env).Observed (hear env) (fun _ _ => True) (Opened env) p heard) :
    Entered p heard := by
  refine Machine.Observed.invariant (fun p hp => entered_opened hp) ?_ h
  intro a p p' heard _ hp _ hstep
  rcases Machine.step_cases hstep with
    ⟨visitor, s, jobs, rfl, henter, rfl⟩ |
    ⟨before, job, rest, after, clocks, s, jobs, rfl, hthreads, hperform, rfl⟩
  · exact hp.enter henter
  · exact hp.perform hthreads hperform

end Steps

/-! ## The emails that were sent -/

/-- The body asks for an account of this email. -/
def Submits (body : Json) (email : Str) : Prop :=
  ∃ creds, fCredentialsFrom body = .ok creds ∧ email = fToLower (fTrim creds.email)

/-- The registration is one of this body. -/
def RegisterJob.Of (body : Json) : RegisterJob → Prop
  | .check _ sent _ => sent = body
  | .record _ sent _ => sent = body
  | .lookup email _ => Submits body email
  | .insert email _ _ => Submits body email
  | .session row _ => Submits body row.email

theorem RegisterJob.Of.step {env : Env} {clocks : Clocks} {body : Json} {job next : RegisterJob}
    {s s' : AuthState} (h : job.Of body)
    (hstep : registerStep env clocks job s = (s', .inl next)) : next.Of body := by
  cases job with
  | check ip sent draws =>
      unfold registerStep at hstep
      dsimp only at hstep
      split at hstep <;> cases hstep
      exact h
  | record ip sent draws =>
      unfold registerStep at hstep
      dsimp only at hstep
      split at hstep
      · cases hstep
      · rename_i creds hcreds
        split at hstep
        · cases hstep
        · split at hstep <;> cases hstep
          exact ⟨creds, h ▸ hcreds, rfl⟩
  | lookup email draws =>
      unfold registerStep at hstep
      dsimp only at hstep
      split at hstep
      · cases hstep
      · split at hstep <;> cases hstep
        exact h
  | insert email passwordHash draws =>
      unfold registerStep at hstep
      dsimp only at hstep
      split at hstep <;> cases hstep
      exact h
  | session row draws => cases hstep

/-- Every registration works on the body it was sent. -/
structure Sent (p : Pool Logins AccountJob) (heard : List Heard) : Prop where
  jobs : ForJobs (fun i job => ∀ job', job = AccountJob.register job' →
    ∃ body, .asked i body ∈ heard ∧ job'.Of body) p.threads
  rows : ∀ i row, .inserted i row ∈ heard → ∃ body, .asked i body ∈ heard ∧ Submits body row.email

section Sent

variable {env : Env} {p : Pool Logins AccountJob} {heard : List Heard}

theorem Sent.enter (hp : Sent p heard) {visitor : Visitor} {s : Logins} {jobs : List AccountJob}
    (henter : (accounts env).enter visitor p.threads.length p.state = some (s, jobs)) :
    Sent ⟨s, p.threads ++ [jobs]⟩ (hear env (.enter visitor) p ++ heard) := by
  have hmore {i : Nat} {job : RegisterJob}
      (h : ∃ body, .asked i body ∈ heard ∧ job.Of body) :
      ∃ body, .asked i body ∈ hear env (.enter visitor) p ++ heard ∧ job.Of body := by
    obtain ⟨body, hasked, hof⟩ := h
    exact ⟨body, List.mem_append_right _ hasked, hof⟩
  refine ⟨hp.jobs.enter (fun i job _ hjob job' heq => hmore (hjob job' heq)) ?_, ?_⟩
  · intro job hjob job' heq
    cases visitor with
    | login ip body draws =>
        cases henter
        cases List.mem_singleton.mp hjob
        cases heq
    | register ip body draws =>
        cases henter
        cases List.mem_singleton.mp hjob
        cases heq
        exact ⟨body, List.mem_cons_self, rfl⟩
    | other r =>
        simp only [accounts] at henter
        split at henter
        · cases henter
        · cases henter
          cases hjob
  · intro i row hrow
    have hold : .inserted i row ∈ heard := by
      refine (List.mem_append.mp hrow).resolve_left ?_
      cases visitor with
      | login ip body draws => exact List.not_mem_nil
      | register ip body draws => simp [hear]
      | other r => exact List.not_mem_nil
    obtain ⟨body, hasked, hsubmits⟩ := hp.rows i row hold
    exact ⟨body, List.mem_append_right _ hasked, hsubmits⟩

theorem Sent.perform (hp : Sent p heard) {before after : List (List AccountJob)}
    {job : AccountJob} {rest jobs : List AccountJob} {clocks : Clocks} {s : Logins}
    (hthreads : p.threads = before ++ (job :: rest) :: after)
    (hperform : (accounts env).perform clocks before.length job p.state = some (s, jobs)) :
    Sent ⟨s, before ++ (jobs ++ rest) :: after⟩
      (hear env (.run before.length clocks) p ++ heard) := by
  have hthread : p.threads[before.length]? = some (job :: rest) := by
    rw [hthreads]
    exact Machine.thread_self before after (job :: rest)
  have hmore {i : Nat} {P : Json → Prop} (h : ∃ body, .asked i body ∈ heard ∧ P body) :
      ∃ body, .asked i body ∈ hear env (.run before.length clocks) p ++ heard ∧ P body := by
    obtain ⟨body, hasked, hP⟩ := h
    exact ⟨body, List.mem_append_right _ hasked, hP⟩
  have hcame := hp.jobs.head hthreads
  refine ⟨hp.jobs.run hthreads (fun i other hother job' heq => hmore (hother job' heq)) ?_, ?_⟩
  · intro other hother next heq
    subst heq
    cases job with
    | login job =>
        obtain ⟨⟨s', jobs'⟩, _, heq⟩ := Option.map_eq_some_iff.mp hperform
        cases heq
        obtain ⟨_, _, heq⟩ := List.mem_map.mp hother
        cases heq
    | register job =>
        obtain ⟨body, hasked, hof⟩ := hcame job rfl
        simp only [accounts] at hperform
        split at hperform <;> rename_i hstep <;> cases hperform
        · cases List.mem_singleton.mp hother
          exact ⟨body, List.mem_append_right _ hasked, hof.step hstep⟩
        · cases hother
  · intro i row hrow
    rcases List.mem_append.mp hrow with hnew | hold
    · cases job with
      | login job =>
          simp [hear, hthread] at hnew
      | register job =>
          obtain ⟨body, hasked, hof⟩ := hcame job rfl
          simp only [hear, hthread] at hnew
          split at hnew
          · rename_i hnext
            cases List.mem_singleton.mp hnew
            exact ⟨body, List.mem_append_right _ hasked, hof.step (Prod.ext rfl hnext)⟩
          · cases hnew
          · cases List.mem_singleton.mp hnew
    · exact hmore (hp.rows i row hold)

theorem sent (h : (accounts env).Observed (hear env) (fun _ _ => True) (Opened env) p heard) :
    Sent p heard := by
  refine Machine.Observed.invariant ?_ ?_ h
  · rintro p ⟨_, hthreads⟩
    refine ⟨?_, by simp⟩
    rw [hthreads]
    exact forJobs_nil
  · intro a p p' heard _ hp _ hstep
    rcases Machine.step_cases hstep with
      ⟨visitor, s, jobs, rfl, henter, rfl⟩ |
      ⟨before, job, rest, after, clocks, s, jobs, rfl, hthreads, hperform, rfl⟩
    · exact hp.enter henter
    · exact hp.perform hthreads hperform

end Sent

/-- **One account per email**, whatever the order of the steps of registrations
and logins: a registration that succeeds answers with the account it inserted,
that account is there from then on as it was inserted, under the email that was
sent, and no other registration inserts one of its email. -/
theorem one_account_per_email (env : Env) {p : Pool Logins AccountJob} {heard : List Heard}
    (h : (accounts env).Observed (hear env) (fun _ _ => True) (Opened env) p heard) :
    (∀ i body cookie, .answered i (.ok (body, cookie)) ∈ heard →
      ∃ row, .inserted i row ∈ heard ∧ accountBody row = .ok body) ∧
    (∀ i row, .inserted i row ∈ heard → row ∈ p.state.auth.tables.users ∧
      (∃ body, .asked i body ∈ heard ∧ Submits body row.email) ∧
      ∀ j row', .inserted j row' ∈ heard → row'.email = row.email → j = i ∧ row' = row) ∧
    ∀ a ∈ p.state.auth.tables.users, ∀ b ∈ p.state.auth.tables.users,
      a.email = b.email → a = b := by
  have hp := entered h
  refine ⟨hp.answered, ?_, hp.emails⟩
  intro i row hrow
  obtain ⟨hmem, _⟩ := hp.rows i row hrow
  refine ⟨hmem, (sent h).rows i row hrow, ?_⟩
  intro j row' hrow' hsame
  have heq := hp.emails row' (hp.rows j row' hrow').1 row hmem hsame
  exact ⟨hp.once j i row (heq ▸ hrow') hrow, heq⟩

/-- **A registered account signs in**, in every state after its insertion: a
login with any spelling of its email gets to the password, and with the right
one answers with the id and the token that registration answered; and the token
names the account. -/
theorem registered_signs_in (env : Env) {p : Pool Logins AccountJob} {heard : List Heard}
    (h : (accounts env).Observed (hear env) (fun _ _ => True) (Opened env) p heard) {i : Nat}
    {row : Account} (hrow : .inserted i row ∈ heard) {body : Json} {creds : Credentials}
    (hcreds : fCredentialsFrom body = .ok creds) (hemail : fToLower (fTrim creds.email) = row.email)
    (ip cookie : Str) (draws : Draws) (tick now : Int)
    (hfree : p.state.auth.authLimiter.fIsLimited ip (str "login-fail") cLoginFailLimit
      cLoginFailWindow tick = false) :
    login env ip body draws tick now p.state.auth =
        (if fVerifyPassword env creds.password row.passwordHash then
          signIn env row.id row.email row.apiToken draws.session now p.state.auth
        else ({ p.state.auth with authLimiter :=
          p.state.auth.authLimiter.fRecord ip (str "login-fail") cLoginFailWindow tick },
          .error .fUnauthorized)) ∧
      fCurrentUserIdWithHeaders env.site (cBearer ++ row.apiToken) cookie now p.state.auth.tables =
        (p.state.auth.tables, .ok row.id) := by
  have hp := entered h
  obtain ⟨hmem, htoken⟩ := hp.rows i row hrow
  have hfind : p.state.auth.tables.users.find? (fun user => user.email = row.email) = some row := by
    cases hfound : p.state.auth.tables.users.find? (fun user => user.email = row.email) with
    | none => exact absurd rfl (of_decide_eq_false
        (Bool.eq_false_iff.mpr (List.find?_eq_none.mp hfound row hmem)))
    | some user =>
        have hsame : user.email = row.email := by simpa using List.find?_some hfound
        rw [hp.emails user (List.mem_of_find?_eq_some hfound) row hmem hsame]
  refine ⟨?_, bearer_names hp.distinct htoken ⟨row, hmem, rfl, rfl⟩ env.site cookie now⟩
  unfold login
  rw [if_neg (by rw [hfree]; decide), hcreds]
  dsimp only
  rw [hemail, hfind]
  dsimp only
  cases fVerifyPassword env creds.password row.passwordHash with
  | true => rw [if_neg (by decide), if_neg htoken, if_pos rfl]
  | false => rw [if_pos (by decide), if_neg (by decide)]

/-! ## Two registrations of one email -/

def annRegisters (email : String) : Json :=
  .object [(str "email", .string (str email)), (str "password", .string (str "secret pass"))]

/-- Registration stores a hash here. -/
def registerDraws (n : UInt8) : Draws := { drawsOf n with passwordHash := some (str "hash") }

def noAccounts : Pool Logins AccountJob := ⟨⟨⟨migrated [], ⟨[]⟩⟩, []⟩, []⟩

/-- Both look before either inserts. -/
def bothLook : List (Action Visitor Clocks) :=
  [.enter (.register (str "a") (annRegisters "Ann@x.org") (registerDraws 1)),
    .enter (.register (str "b") (annRegisters " ann@x.org") (registerDraws 2))] ++
    [0, 1, 0, 1, 0, 1, 0, 1, 0].map (fun i => .run i ⟨0, 0⟩)

def bothLooked : Pool Logins AccountJob × List Heard :=
  ((accounts trusting).execSeen (hear trusting) (fun _ _ => True) bothLook noAccounts []).getD
    (noAccounts, [])

theorem observed_bothLooked :
    (accounts trusting).Observed (hear trusting) (fun _ _ => True) (Opened trusting)
      bothLooked.1 bothLooked.2 :=
  Machine.Observed.execSeen_getD (.start ⟨.start [] (by decide) (by decide), rfl⟩)

/-- Ann's account, as the first of the two inserts it. -/
def annRegistered : Account :=
  ⟨fUuidV4 (Vector.replicate 16 1), str "ann@x.org", str "hash", 0, fUuidV4 (Vector.replicate 16 1)⟩

/-- The insertions, the latest first. -/
def insertions (heard : List Heard) : List (Nat × Account) :=
  heard.filterMap (fun event =>
    match event with
    | .inserted i row => some (i, row)
    | .asked .. | .answered .. => none)

theorem inserted_bothLooked : .inserted 0 annRegistered ∈ bothLooked.2 := by
  have hall : insertions bothLooked.2 = [(0, annRegistered)] := by decide +kernel
  have hmem : (0, annRegistered) ∈ insertions bothLooked.2 := by
    rw [hall]
    exact List.mem_cons_self
  obtain ⟨event, hevent, heq⟩ := List.mem_filterMap.mp hmem
  cases event <;> cases heq
  exact hevent

/-- One of the two gets the account. -/
theorem one_account_per_email_bothLooked :
    annRegistered ∈ bothLooked.1.state.auth.tables.users ∧
      ∀ j row, .inserted j row ∈ bothLooked.2 → row.email = str "ann@x.org" →
        j = 0 ∧ row = annRegistered :=
  have hrow := (one_account_per_email trusting observed_bothLooked).2.1 0 annRegistered
    inserted_bothLooked
  ⟨hrow.1, hrow.2.2⟩

/-- She signs in afterwards, in capitals. -/
theorem registered_signs_in_bothLooked :
    fCurrentUserIdWithHeaders trusting.site (cBearer ++ annRegistered.apiToken) [] 0
        bothLooked.1.state.auth.tables =
      (bothLooked.1.state.auth.tables, .ok annRegistered.id) := by
  have hcreds : fCredentialsFrom (annRegisters "ANN@X.ORG") =
      .ok ⟨str "ANN@X.ORG", str "secret pass"⟩ := rfl
  exact (registered_signs_in trusting observed_bothLooked inserted_bothLooked hcreds
    (by decide +kernel) (str "a") [] (drawsOf 3) 0 0 (by decide +kernel)).2

end Auth

end Lectern
