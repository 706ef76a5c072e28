import Mathlib.Data.List.Nodup
import Lectern.RateLimiter
import Lectern.Session.Table
import Lectern.ShareRoutes

/-!
# Accounts and credentials

`auth.cpp`: registration, login and logout over the tables of the migrations,
and `fCurrentUserIdWithHeaders`, which decides whose request it is from an
`Authorization` header and a cookie.

Passwords are hashed by libsodium: the hash that registration stores is drawn
with the request, and the verification is a parameter.  An account from before
migration 0002 has the empty API token until its next login.
-/

namespace Lectern

/-! ## `util.cpp` -/

def dash : UInt8 := 45

def fUuidV4 (random : Vector UInt8 16) : Str :=
  let bytes := (random.set 6 ((random[6] &&& 0x0f) ||| 0x40)).set 8 ((random[8] &&& 0x3f) ||| 0x80)
  let hex := fToHex bytes.toList
  hex.take 8 ++ dash :: (hex.drop 8).take 4 ++ dash :: (hex.drop 12).take 4 ++
    dash :: (hex.drop 16).take 4 ++ dash :: (hex.drop 20).take 12

theorem fUuidV4_ne_nil (random : Vector UInt8 16) : fUuidV4 random ≠ [] := by
  unfold fUuidV4
  simp

/-- `crypto_pwhash_STRBYTES`. -/
def cPwhashStrBytes : Nat := 128

/-! ## Tables -/

/-- `id` is a primary key, `email` unique, and so is `api_token` where it is not
empty. -/
def Tables.insertUser (tables : Tables) (user : Account) : Except AppError Tables :=
  if tables.users.any (fun old => old.id = user.id) then
    .error (sqliteStepFailed (str "UNIQUE constraint failed: users.id"))
  else if tables.users.any (fun old => old.email = user.email) then
    .error (sqliteStepFailed (str "UNIQUE constraint failed: users.email"))
  else if user.apiToken ≠ [] ∧ tables.users.any (fun old => old.apiToken = user.apiToken) then
    .error (sqliteStepFailed (str "UNIQUE constraint failed: users.api_token"))
  else .ok { tables with users := tables.users ++ [user] }

/-- `UPDATE users SET api_token = ? WHERE id = ?`. -/
def Tables.setApiToken (tables : Tables) (id apiToken : Str) : Except AppError Tables :=
  if apiToken ≠ [] ∧ tables.users.any (fun old => old.id ≠ id ∧ old.apiToken = apiToken) then
    .error (sqliteStepFailed (str "UNIQUE constraint failed: users.api_token"))
  else .ok { tables with users := tables.users.map (fun user =>
    if user.id = id then { user with apiToken := apiToken } else user) }

namespace Auth

open RateLimiter Session

/-! ## `auth.cpp` -/

def cLoginFailLimit : UInt32 := 10

def cLoginFailWindow : Int := seconds (15 * 60)

def cRegisterLimit : UInt32 := 20

def cRegisterWindow : Int := seconds (60 * 60)

/-- What the handlers read of the process; `pwhashVerify` is libsodium's check
of a stored hash. -/
structure Env where
  site : Site
  pwhashVerify : Str → Str → Bool

/-- What the handlers change. -/
structure AuthState where
  tables : Tables
  authLimiter : RateLimiter

def fVerifyPassword (env : Env) (password phc : Str) : Bool :=
  if phc = [] ∨ phc.length ≥ cPwhashStrBytes then false else env.pwhashVerify phc password

structure Credentials where
  email : Str
  password : Str
  deriving DecidableEq, Repr

def fCredentialsFrom (body : Json) : Except AppError Credentials := do
  let body ← fJsonBody body
  return ⟨← fJsonString body (str "email"), ← fJsonString body (str "password")⟩

/-- A byte that only ever shows up in attacks. -/
def isBadEmailByte (c : UInt8) : Bool :=
  isSpace c || c == 60 || c == 62 || c == 34 || c == 39 || c == 96 || c == 92 || c == 0

def atSign : UInt8 := 64

def fIsValidEmail (email : Str) : Bool :=
  if email.length < 3 ∨ email.length > 254 then false
  else if email.any isBadEmailByte then false
  else
    match email.findIdx? (fun c => c == atSign) with
    | none => false
    | some i =>
        let here := email.take i
        let domain := email.drop (i + 1)
        if domain.any (fun c => c == atSign) then false
        else !here.isEmpty && domain.any (fun c => c == dot) && domain.head? ≠ some dot &&
          domain.getLast? ≠ some dot

/-- `fCurrentUserId`: the session's user, or nobody. -/
def fCurrentUserId (site : Site) (cookie : Str) (now : Int) (tables : Tables) :
    Tables × Except AppError Str :=
  match Session.fCurrentUserId site cookie now tables with
  | (tables, none) => (tables, .error .fUnauthorized)
  | (tables, some id) => (tables, .ok id)

def cBearer : Str := str "Bearer "

/-- Whose request it is.  A `Bearer` header decides alone: the cookie is not
looked at. -/
def fCurrentUserIdWithHeaders (site : Site) (authorization cookie : Str) (now : Int)
    (tables : Tables) : Tables × Except AppError Str :=
  if fStartsWith authorization cBearer then
    let token := authorization.drop cBearer.length
    match tables.users.find? (fun user => user.apiToken = token) with
    | none => (tables, .error .fUnauthorized)
    | some user => (tables, .ok user.id)
  else fCurrentUserId site cookie now tables

/-- What registration and login draw: the bytes of the ids, and the stored hash,
which cannot be made when memory is short. -/
structure Draws where
  id : Vector UInt8 16
  apiToken : Vector UInt8 16
  session : Vector UInt8 32
  passwordHash : Option Str

/-- The answer of registration and login, and the cookie it sets. -/
abbrev SignedIn := Except AppError (Body × Cookie)

/-- Answer with the account, then start its session. -/
def signIn (env : Env) (id email apiToken : Str) (session : Vector UInt8 32) (now : Int)
    (s : AuthState) : AuthState × SignedIn :=
  match fJsonResponse (.object [(str "id", .string id), (str "email", .string email),
      (str "apiToken", .string apiToken)]) with
  | .error e => (s, .error e)
  | .ok body =>
      match fStart env.site id session now s.tables with
      | (tables, .error e) => ({ s with tables := tables }, .error e)
      | (tables, .ok cookie) => ({ s with tables := tables }, .ok (body, cookie))

/-- `POST /api/auth/register`; `tick` is the steady clock. -/
def register (env : Env) (ip : Str) (body : Json) (draws : Draws) (tick createdAt now : Int)
    (s : AuthState) : AuthState × SignedIn :=
  if s.authLimiter.fIsLimited ip (str "register") cRegisterLimit cRegisterWindow tick then
    (s, .error .fTooManyRequests)
  else
    let s := { s with authLimiter :=
      s.authLimiter.fRecord ip (str "register") cRegisterWindow tick }
    match fCredentialsFrom body with
    | .error e => (s, .error e)
    | .ok creds =>
        let email := fToLower (fTrim creds.email)
        if !fIsValidEmail email then (s, .error (.fBadRequest (str "invalid email")))
        else if creds.password.length < 8 then
          (s, .error (.fBadRequest (str "password must be at least 8 characters")))
        else if s.tables.users.any (fun user => user.email = email) then
          (s, .error (.fConflict (str "email already registered")))
        else
          match draws.passwordHash with
          | none => (s, .error internalError)
          | some passwordHash =>
              let id := fUuidV4 draws.id
              let apiToken := fUuidV4 draws.apiToken
              match s.tables.insertUser ⟨id, email, passwordHash, createdAt, apiToken⟩ with
              | .error e => (s, .error e)
              | .ok tables =>
                  signIn env id email apiToken draws.session now { s with tables := tables }

/-- `POST /api/auth/login`.  An account without a token gets one here. -/
def login (env : Env) (ip : Str) (body : Json) (draws : Draws) (tick now : Int) (s : AuthState) :
    AuthState × SignedIn :=
  if s.authLimiter.fIsLimited ip (str "login-fail") cLoginFailLimit cLoginFailWindow tick then
    (s, .error .fTooManyRequests)
  else
    match fCredentialsFrom body with
    | .error e => (s, .error e)
    | .ok creds =>
        let email := fToLower (fTrim creds.email)
        let failed := { s with authLimiter :=
          s.authLimiter.fRecord ip (str "login-fail") cLoginFailWindow tick }
        match s.tables.users.find? (fun user => user.email = email) with
        | none => (failed, .error .fUnauthorized)
        | some user =>
            if !fVerifyPassword env creds.password user.passwordHash then
              (failed, .error .fUnauthorized)
            else if user.apiToken = [] then
              let apiToken := fUuidV4 draws.apiToken
              match s.tables.setApiToken user.id apiToken with
              | .error e => (s, .error e)
              | .ok tables =>
                  signIn env user.id user.email apiToken draws.session now { s with tables := tables }
            else signIn env user.id user.email user.apiToken draws.session now s

/-- `POST /api/auth/logout`. -/
def logout (env : Env) (cookie : Str) (s : AuthState) : AuthState × Cookie :=
  match fDestroy env.site cookie s.tables with
  | (tables, cleared) => ({ s with tables := tables }, cleared)

/-! ## The tables over whole runs -/

/-- A row of `users` before migration 0002. -/
structure LegacyUser where
  id : Str
  email : Str
  passwordHash : Str
  createdAt : Int
  deriving DecidableEq, Repr

/-- Migration 0002: the new column has the default `''`. -/
def addApiToken (user : LegacyUser) : Account :=
  ⟨user.id, user.email, user.passwordHash, user.createdAt, []⟩

/-- The tables once the migrations ran. -/
def migrated (legacy : List LegacyUser) : Tables := ⟨legacy.map addApiToken, []⟩

inductive Request where
  | register (ip : Str) (body : Json) (draws : Draws) (tick createdAt now : Int)
  | login (ip : Str) (body : Json) (draws : Draws) (tick now : Int)
  | logout (cookie : Str)
  | identify (authorization cookie : Str) (now : Int)
  | purge (now : Int)

/-- Serve one request. -/
def serve (env : Env) (r : Request) (s : AuthState) : AuthState :=
  match r with
  | .register ip body draws tick createdAt now =>
      (register env ip body draws tick createdAt now s).1
  | .login ip body draws tick now => (login env ip body draws tick now s).1
  | .logout cookie => (logout env cookie s).1
  | .identify authorization cookie now =>
      { s with tables :=
        (fCurrentUserIdWithHeaders env.site authorization cookie now s.tables).1 }
  | .purge now => { s with tables := fPurgeExpired now s.tables }

/-- The states the migrations and any requests lead to. -/
inductive Reachable (env : Env) : AuthState → Prop
  | start (legacy : List LegacyUser) (hids : (legacy.map LegacyUser.id).Nodup)
      (hemails : (legacy.map LegacyUser.email).Nodup) :
      Reachable env ⟨migrated legacy, ⟨[]⟩⟩
  | step {s : AuthState} (r : Request) (hs : Reachable env s) : Reachable env (serve env r s)

/-- No two accounts share an id, nor a token that is one. -/
structure Distinct (users : List Account) : Prop where
  ids : ∀ a ∈ users, ∀ b ∈ users, a.id = b.id → a = b
  tokens : ∀ a ∈ users, ∀ b ∈ users, a.apiToken = b.apiToken → a.apiToken ≠ [] → a = b

/-- An account that is added is appended, and its id and token are new. -/
theorem insertUser_ok {tables tables' : Tables} {user : Account}
    (h : tables.insertUser user = .ok tables') :
    tables'.users = tables.users ++ [user] ∧
      (∀ old ∈ tables.users, old.id ≠ user.id) ∧
      (user.apiToken ≠ [] → ∀ old ∈ tables.users, old.apiToken ≠ user.apiToken) := by
  unfold Tables.insertUser at h
  by_cases hid : (tables.users.any (fun old => old.id = user.id)) = true
  · rw [if_pos hid] at h
    cases h
  · by_cases hemail : (tables.users.any (fun old => old.email = user.email)) = true
    · rw [if_neg hid, if_pos hemail] at h
      cases h
    · by_cases htoken : user.apiToken ≠ [] ∧
          (tables.users.any (fun old => old.apiToken = user.apiToken)) = true
      · rw [if_neg hid, if_neg hemail, if_pos htoken] at h
        cases h
      · rw [if_neg hid, if_neg hemail, if_neg htoken] at h
        cases h
        refine ⟨rfl, by simpa using hid, ?_⟩
        intro hne old hold hsame
        apply htoken
        exact ⟨hne, List.any_eq_true.mpr ⟨old, hold, by simpa using hsame⟩⟩

/-- A token that is given is one no other account has. -/
theorem setApiToken_ok {tables tables' : Tables} {id apiToken : Str}
    (h : tables.setApiToken id apiToken = .ok tables') :
    tables'.users = tables.users.map (fun user =>
        if user.id = id then { user with apiToken := apiToken } else user) ∧
      (apiToken ≠ [] → ∀ old ∈ tables.users, old.id ≠ id → old.apiToken ≠ apiToken) := by
  unfold Tables.setApiToken at h
  split at h
  · cases h
  · rename_i hguard
    cases h
    refine ⟨rfl, ?_⟩
    intro hne old hold hid hsame
    apply hguard
    exact ⟨hne, List.any_eq_true.mpr ⟨old, hold, by simpa using ⟨hid, hsame⟩⟩⟩

/-- What is true of two old accounts, and of an old one and the new, is true of
any two. -/
theorem forall_pair_append {users : List Account} {user : Account} {q : Account → Account → Prop}
    (hold : ∀ a ∈ users, ∀ b ∈ users, q a b) (hnew : ∀ a ∈ users, q a user ∧ q user a)
    (hself : q user user) : ∀ a ∈ users ++ [user], ∀ b ∈ users ++ [user], q a b := by
  intro a ha b hb
  rw [List.mem_append, List.mem_singleton] at ha hb
  rcases ha with ha | ha
  · rcases hb with hb | hb
    · exact hold a ha b hb
    · rw [hb]
      exact (hnew a ha).1
  · rw [ha]
    rcases hb with hb | hb
    · exact (hnew b hb).2
    · rw [hb]
      exact hself

theorem Distinct.insertUser {tables tables' : Tables} {user : Account} (hd : Distinct tables.users)
    (h : tables.insertUser user = .ok tables') : Distinct tables'.users := by
  obtain ⟨husers, hfreshId, hfreshToken⟩ := insertUser_ok h
  rw [husers]
  constructor
  · refine forall_pair_append hd.ids ?_ (fun _ => rfl)
    intro a ha
    exact ⟨fun hsame => absurd hsame (hfreshId a ha),
      fun hsame => absurd hsame.symm (hfreshId a ha)⟩
  · refine forall_pair_append hd.tokens ?_ (fun _ _ => rfl)
    intro a ha
    exact ⟨fun hsame hne => absurd hsame (hfreshToken (hsame ▸ hne) a ha),
      fun hsame hne => absurd hsame.symm (hfreshToken hne a ha)⟩

theorem Distinct.setApiToken {tables tables' : Tables} {id apiToken : Str}
    (hd : Distinct tables.users) (h : tables.setApiToken id apiToken = .ok tables') :
    Distinct tables'.users := by
  obtain ⟨husers, hfresh⟩ := setApiToken_ok h
  rw [husers]
  constructor
  · intro a' ha b' hb hsame
    obtain ⟨a, ha, ha'⟩ := List.mem_map.mp ha
    obtain ⟨b, hb, hb'⟩ := List.mem_map.mp hb
    have hida : a'.id = a.id := by
      rw [← ha']
      split <;> rfl
    have hidb : b'.id = b.id := by
      rw [← hb']
      split <;> rfl
    rw [← ha', ← hb', hd.ids a ha b hb (by rw [← hida, ← hidb, hsame])]
  · intro a' ha b' hb hsame hne
    obtain ⟨a, ha, ha'⟩ := List.mem_map.mp ha
    obtain ⟨b, hb, hb'⟩ := List.mem_map.mp hb
    rw [← ha', ← hb'] at hsame
    rw [← ha'] at hne
    rw [← ha', ← hb']
    by_cases hida : a.id = id
    · rw [if_pos hida] at hsame hne
      by_cases hidb : b.id = id
      · rw [hd.ids a ha b hb (hida.trans hidb.symm)]
      · rw [if_neg hidb] at hsame
        exact absurd hsame.symm (hfresh hne b hb hidb)
    · rw [if_neg hida] at hsame hne
      by_cases hidb : b.id = id
      · rw [if_pos hidb] at hsame
        have hnew : a.apiToken = apiToken := hsame
        exact absurd hsame (hfresh (hnew ▸ hne) a ha hida)
      · rw [if_neg hidb] at hsame
        rw [hd.tokens a ha b hb hsame hne]

/-- Signing in leaves the accounts alone. -/
theorem users_signIn (env : Env) (id email apiToken : Str) (session : Vector UInt8 32) (now : Int)
    (s : AuthState) :
    (signIn env id email apiToken session now s).1.tables.users = s.tables.users := by
  unfold signIn
  split
  · rfl
  · have husers := users_fStart env.site id session now s.tables
    split <;> rename_i hstart <;> rw [hstart] at husers <;> exact husers

/-- What registration does to the accounts. -/
theorem register_cases (env : Env) (ip : Str) (body : Json) (draws : Draws)
    (tick createdAt now : Int) (s : AuthState) :
    (register env ip body draws tick createdAt now s).1.tables.users = s.tables.users ∨
    ∃ user tables, user.apiToken = fUuidV4 draws.apiToken ∧
      s.tables.insertUser user = .ok tables ∧
      (register env ip body draws tick createdAt now s).1.tables.users = tables.users := by
  unfold register
  split
  · exact Or.inl rfl
  · dsimp only
    split
    · exact Or.inl rfl
    · split
      · exact Or.inl rfl
      · split
        · exact Or.inl rfl
        · split
          · exact Or.inl rfl
          · split
            · exact Or.inl rfl
            · split
              · exact Or.inl rfl
              · rename_i tables hinsert
                exact Or.inr ⟨_, tables, rfl, hinsert, users_signIn _ _ _ _ _ _ _⟩

/-- What login does to the accounts: at most it gives one of them a token. -/
theorem login_cases (env : Env) (ip : Str) (body : Json) (draws : Draws) (tick now : Int)
    (s : AuthState) :
    (login env ip body draws tick now s).1.tables.users = s.tables.users ∨
    ∃ id tables, s.tables.setApiToken id (fUuidV4 draws.apiToken) = .ok tables ∧
      (login env ip body draws tick now s).1.tables.users = tables.users := by
  unfold login
  split
  · exact Or.inl rfl
  · split
    · exact Or.inl rfl
    · dsimp only
      split
      · exact Or.inl rfl
      · split
        · exact Or.inl rfl
        · split
          · split
            · exact Or.inl rfl
            · rename_i tables hset
              exact Or.inr ⟨_, tables, hset, users_signIn _ _ _ _ _ _ _⟩
          · exact Or.inl (users_signIn _ _ _ _ _ _ _)

/-- Identifying a caller leaves the accounts alone. -/
theorem users_fCurrentUserIdWithHeaders (site : Site) (authorization cookie : Str) (now : Int)
    (tables : Tables) :
    (fCurrentUserIdWithHeaders site authorization cookie now tables).1.users = tables.users := by
  unfold fCurrentUserIdWithHeaders
  split
  · dsimp only
    split <;> rfl
  · have husers := users_fCurrentUserId site cookie now tables
    unfold fCurrentUserId
    split <;> rename_i hread <;> rw [hread] at husers <;> exact husers

/-- **One request** keeps ids and tokens apart. -/
theorem distinct_serve {env : Env} {s : AuthState} (hd : Distinct s.tables.users) (r : Request) :
    Distinct (serve env r s).tables.users := by
  cases r with
  | register ip body draws tick createdAt now =>
      change Distinct (register env ip body draws tick createdAt now s).1.tables.users
      rcases register_cases env ip body draws tick createdAt now s with
        hsame | ⟨user, tables, _, hinsert, hsame⟩
      · rw [hsame]
        exact hd
      · rw [hsame]
        exact hd.insertUser hinsert
  | login ip body draws tick now =>
      change Distinct (login env ip body draws tick now s).1.tables.users
      rcases login_cases env ip body draws tick now s with hsame | ⟨id, tables, hset, hsame⟩
      · rw [hsame]
        exact hd
      · rw [hsame]
        exact hd.setApiToken hset
  | logout cookie =>
      change Distinct (fDestroy env.site cookie s.tables).1.users
      rw [users_fDestroy]
      exact hd
  | identify authorization cookie now =>
      change Distinct
        (fCurrentUserIdWithHeaders env.site authorization cookie now s.tables).1.users
      rw [users_fCurrentUserIdWithHeaders]
      exact hd
  | purge now => exact hd

/-- **Along every run** ids and tokens are apart. -/
theorem Reachable.distinct {env : Env} {s : AuthState} (hs : Reachable env s) :
    Distinct s.tables.users := by
  induction hs with
  | start legacy hids hemails =>
      constructor
      · intro a ha b hb hsame
        obtain ⟨old, hold, ha⟩ := List.mem_map.mp ha
        obtain ⟨old', hold', hb⟩ := List.mem_map.mp hb
        rw [← ha, ← hb] at hsame ⊢
        rw [List.inj_on_of_nodup_map hids hold hold' hsame]
      · intro a ha b hb hsame hne
        obtain ⟨old, _, ha⟩ := List.mem_map.mp ha
        rw [← ha] at hne
        exact absurd rfl hne
  | step r hs ih => exact distinct_serve ih r

/-! ## Credentials -/

/-- The token is the user's own, and nobody else's. -/
def Owns (tables : Tables) (user token : Str) : Prop :=
  ∃ account ∈ tables.users, account.id = user ∧ account.apiToken = token ∧
    ∀ other ∈ tables.users, other.id = user ∨ other.apiToken = token → other = account

/-- The cookie is one of a session of the user that has not expired. -/
def Authenticates (site : Site) (tables : Tables) (cookie : Str) (now : Int) (user : Str) : Prop :=
  ∃ row ∈ tables.sessions, fIdFromCookie site cookie = some row.id ∧ row.userId = user ∧
    now < row.expiresAt

/-- **Sound credentials**: only a user's own token, or without a `Bearer` header
a cookie of a live session, makes a request that user's; a `Bearer` header that
names no account is refused, and the cookie is left alone. -/
def CredentialsSound (site : Site) (tables : Tables) (authorization cookie : Str) (now : Int) :
    Prop :=
  (∀ user, (fCurrentUserIdWithHeaders site authorization cookie now tables).2 = .ok user →
    (∃ token, token ≠ [] ∧ Owns tables user token ∧ authorization = cBearer ++ token) ∨
      fStartsWith authorization cBearer = false ∧ Authenticates site tables cookie now user) ∧
  (fStartsWith authorization cBearer = true →
    (∀ account ∈ tables.users, authorization ≠ cBearer ++ account.apiToken) →
      fCurrentUserIdWithHeaders site authorization cookie now tables =
        (tables, .error .fUnauthorized))

theorem fStartsWith_cBearer {authorization : Str} :
    fStartsWith authorization cBearer = true ↔
      authorization = cBearer ++ authorization.drop cBearer.length := by
  unfold fStartsWith
  rw [List.isPrefixOf_iff_prefix, List.prefix_iff_eq_append]
  exact eq_comm

/-- What a `Bearer` header is answered. -/
theorem bearer_cases (site : Site) {authorization : Str} (cookie : Str) (now : Int)
    (tables : Tables) (hbearer : fStartsWith authorization cBearer = true) :
    (∀ account ∈ tables.users, authorization ≠ cBearer ++ account.apiToken) ∧
      fCurrentUserIdWithHeaders site authorization cookie now tables =
        (tables, .error .fUnauthorized) ∨
    ∃ account ∈ tables.users, authorization = cBearer ++ account.apiToken ∧
      fCurrentUserIdWithHeaders site authorization cookie now tables =
        (tables, .ok account.id) := by
  have hsplit := fStartsWith_cBearer.mp hbearer
  unfold fCurrentUserIdWithHeaders
  rw [if_pos hbearer]
  dsimp only
  cases hfind :
      tables.users.find? (fun user => user.apiToken = authorization.drop cBearer.length) with
  | none =>
      left
      refine ⟨?_, rfl⟩
      intro account haccount hsame
      have hno := List.find?_eq_none.mp hfind account haccount
      apply hno
      rw [hsame, List.drop_left]
      simp
  | some account =>
      right
      have htoken : account.apiToken = authorization.drop cBearer.length := by
        simpa using List.find?_some hfind
      refine ⟨account, List.mem_of_find?_eq_some hfind, ?_, rfl⟩
      rw [htoken]
      exact hsplit

/-- Without a `Bearer` header the cookie decides. -/
theorem cookie_authenticates {site : Site} {authorization cookie : Str} {now : Int}
    {tables : Tables} (hbearer : fStartsWith authorization cBearer = false) {user : Str}
    (h : (fCurrentUserIdWithHeaders site authorization cookie now tables).2 = .ok user) :
    Authenticates site tables cookie now user := by
  unfold fCurrentUserIdWithHeaders fCurrentUserId at h
  rw [if_neg (by rw [hbearer]; decide)] at h
  rcases fCurrentUserId_cases site cookie now tables with
    ⟨hout, _⟩ | ⟨row, hrow, hread, ⟨_, hout⟩ | ⟨hvalid, hout⟩⟩
  · rw [hout] at h
    cases h
  · rw [hout] at h
    cases h
  · rw [hout] at h
    cases h
    exact ⟨row, hrow, hread, rfl, hvalid⟩

/-- With distinct ids and tokens, credentials are sound unless the header is the
bare prefix and some account has no token. -/
theorem Distinct.sound {tables : Tables} (hd : Distinct tables.users) {site : Site}
    {authorization cookie : Str} {now : Int}
    (hcondition : ¬ (authorization = cBearer ∧ ∃ account ∈ tables.users, account.apiToken = [])) :
    CredentialsSound site tables authorization cookie now := by
  constructor
  · intro user hok
    cases hbearer : fStartsWith authorization cBearer with
    | false => exact Or.inr ⟨rfl, cookie_authenticates hbearer hok⟩
    | true =>
        left
        rcases bearer_cases site cookie now tables hbearer with
          ⟨_, hout⟩ | ⟨account, haccount, htoken, hout⟩
        · rw [hout] at hok
          cases hok
        · rw [hout] at hok
          cases hok
          have hne : account.apiToken ≠ [] := by
            intro hempty
            apply hcondition
            rw [hempty, List.append_nil] at htoken
            exact ⟨htoken, account, haccount, hempty⟩
          refine ⟨account.apiToken, hne, ⟨account, haccount, rfl, rfl, ?_⟩, htoken⟩
          intro other hother hsame
          rcases hsame with hid | htokens
          · exact hd.ids other hother account haccount hid
          · exact hd.tokens other hother account haccount htokens (htokens ▸ hne)
  · intro hbearer hnone
    rcases bearer_cases site cookie now tables hbearer with
      ⟨_, hout⟩ | ⟨account, haccount, htoken, _⟩
    · exact hout
    · exact absurd htoken (hnone account haccount)

/-- **Credentials are sound** exactly when the header is not the bare prefix
while some account has no token yet. -/
theorem credentials_sound_iff (env : Env) (s : AuthState) (hs : Reachable env s)
    (authorization cookie : Str) (now : Int) :
    CredentialsSound env.site s.tables authorization cookie now ↔
      ¬ (authorization = cBearer ∧ ∃ account ∈ s.tables.users, account.apiToken = []) := by
  have hd := hs.distinct
  constructor
  · intro hsound ⟨hheader, legacy, hlegacy, hempty⟩
    have hbearer : fStartsWith authorization cBearer = true := by
      rw [hheader]
      decide
    rcases bearer_cases env.site cookie now s.tables hbearer with
      ⟨hnone, _⟩ | ⟨account, _, _, hout⟩
    · apply hnone legacy hlegacy
      rw [hempty, List.append_nil]
      exact hheader
    · rcases hsound.1 account.id (by rw [hout]) with ⟨token, hne, _, htoken⟩ | ⟨hno, _⟩
      · rw [hheader] at htoken
        exact hne (List.append_right_eq_self.mp htoken.symm)
      · rw [hbearer] at hno
        cases hno
  · intro hcondition
    exact hd.sound hcondition

/-- No request leaves an account without a token that had one, or adds one. -/
theorem tokenless_serve {env : Env} {s : AuthState} {r : Request} {account : Account}
    (h : account ∈ (serve env r s).tables.users) (hempty : account.apiToken = []) :
    account ∈ s.tables.users := by
  cases r with
  | register ip body draws tick createdAt now =>
      change account ∈ (register env ip body draws tick createdAt now s).1.tables.users at h
      rcases register_cases env ip body draws tick createdAt now s with
        hsame | ⟨user, tables, htoken, hinsert, hsame⟩
      · rw [hsame] at h
        exact h
      · rw [hsame, (insertUser_ok hinsert).1, List.mem_append, List.mem_singleton] at h
        rcases h with hold | hnew
        · exact hold
        · rw [← hnew, hempty] at htoken
          exact absurd htoken.symm (fUuidV4_ne_nil draws.apiToken)
  | login ip body draws tick now =>
      change account ∈ (login env ip body draws tick now s).1.tables.users at h
      rcases login_cases env ip body draws tick now s with hsame | ⟨id, tables, hset, hsame⟩
      · rw [hsame] at h
        exact h
      · rw [hsame, (setApiToken_ok hset).1] at h
        obtain ⟨old, hold, hnew⟩ := List.mem_map.mp h
        by_cases hid : old.id = id
        · rw [if_pos hid] at hnew
          rw [← hnew] at hempty
          exact absurd hempty (fUuidV4_ne_nil draws.apiToken)
        · rw [if_neg hid] at hnew
          rw [← hnew]
          exact hold
  | logout cookie =>
      change account ∈ (fDestroy env.site cookie s.tables).1.users at h
      rwa [users_fDestroy] at h
  | identify authorization cookie now =>
      change account ∈
        (fCurrentUserIdWithHeaders env.site authorization cookie now s.tables).1.users at h
      rwa [users_fCurrentUserIdWithHeaders] at h
  | purge now => exact h

/-- Where every account has a token, credentials stay sound whatever happens. -/
theorem credentials_sound_of_tokens {env : Env} {s : AuthState} (hs : Reachable env s)
    (htokens : ∀ account ∈ s.tables.users, account.apiToken ≠ []) (requests : List Request)
    (authorization cookie : Str) (now : Int) :
    CredentialsSound env.site (requests.foldl (fun s r => serve env r s) s).tables authorization
      cookie now := by
  have hrun : Reachable env (requests.foldl (fun s r => serve env r s) s) ∧
      ∀ account ∈ (requests.foldl (fun s r => serve env r s) s).tables.users,
        account.apiToken ≠ [] := by
    induction requests generalizing s with
    | nil => exact ⟨hs, htokens⟩
    | cons r requests ih =>
        refine ih (.step r hs) ?_
        intro account haccount hempty
        exact htokens account (tokenless_serve haccount hempty) hempty
  apply hrun.1.distinct.sound
  intro ⟨_, account, haccount, hempty⟩
  exact hrun.2 account haccount hempty

/-! ## An account from before the tokens -/

/-- Ann's account is older than migration 0002. -/
def ann : LegacyUser := ⟨str "ann", str "ann@x.org", str "hash", 0⟩

def annMigrated : AuthState := ⟨migrated [ann], ⟨[]⟩⟩

/-- Every password is right. -/
def trusting : Env := ⟨⟨[], false, fun _ _ => []⟩, fun _ _ => true⟩

def annSignsIn : Json :=
  .object [(str "email", .string (str "ann@x.org")), (str "password", .string (str "secret"))]

/-- What one of her devices draws. -/
def drawsOf (n : UInt8) : Draws :=
  ⟨Vector.replicate 16 n, Vector.replicate 16 n, Vector.replicate 32 n, none⟩

theorem reachable_annMigrated : Reachable trusting annMigrated :=
  .start [ann] (by decide) (by decide)

/-- She signs in and is given a token. -/
def annSignedIn : AuthState :=
  serve trusting (.login (str "a") annSignsIn (drawsOf 1) 0 0) annMigrated

/-- A header with the token that her login gave her. -/
def annBearer : Str := cBearer ++ fUuidV4 (drawsOf 1).apiToken

/-- It names Ann, and so it carries a token that is hers alone. -/
theorem credentials_sound_iff_annSignedIn :
    (fCurrentUserIdWithHeaders trusting.site annBearer [] 0 annSignedIn.tables).2 =
        .ok (str "ann") ∧
      ∃ token, token ≠ [] ∧ Owns annSignedIn.tables (str "ann") token ∧
        annBearer = cBearer ++ token := by
  have hnamed : (fCurrentUserIdWithHeaders trusting.site annBearer [] 0 annSignedIn.tables).2 =
      .ok (str "ann") := by
    decide +kernel
  have hbare : ¬ (annBearer = cBearer ∧ ∃ account ∈ annSignedIn.tables.users,
      account.apiToken = []) := by
    rintro ⟨heq, _⟩
    exact absurd heq (by decide +kernel)
  have hbearer : fStartsWith annBearer cBearer = true := by decide +kernel
  have hsound := (credentials_sound_iff trusting annSignedIn (.step _ reachable_annMigrated)
    annBearer [] 0).mpr hbare
  refine ⟨hnamed, (hsound.1 (str "ann") hnamed).resolve_right ?_⟩
  rintro ⟨hno, _⟩
  rw [hbearer] at hno
  cases hno

/-- **The bare prefix is a credential**: it names the first account that has no
token yet. -/
theorem credentials_unsound :
    ¬ ∀ env s, Reachable env s → ∀ authorization cookie now,
      CredentialsSound env.site s.tables authorization cookie now := by
  intro hall
  have hsound := hall trusting annMigrated reachable_annMigrated cBearer [] 0
  have hnamed : (fCurrentUserIdWithHeaders trusting.site cBearer [] 0 annMigrated.tables).2 =
      .ok (str "ann") := rfl
  rcases hsound.1 (str "ann") hnamed with ⟨token, hne, _, htoken⟩ | ⟨hno, _⟩
  · exact hne (List.append_right_eq_self.mp htoken.symm)
  · exact absurd hno (by decide)

end Auth

end Lectern
