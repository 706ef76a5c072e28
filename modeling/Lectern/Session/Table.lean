import Lectern.Sliding
import Lectern.Workspace

/-!
# Cookie sessions

`session.cpp` over the `users` and `sessions` tables of the migrations.  A
cookie carries the session id and, when a `SESSION_SECRET` is set, its MAC; a
successful read pushes the expiry of its row out again.

The MAC is a parameter, and so are the random bytes of an id.  Times are
readings of the system clock in seconds.
-/

namespace Lectern

/-! ## `util.cpp` -/

def hexDigit (n : UInt8) : UInt8 := (str "0123456789abcdef").getD n.toNat 0

def fToHex (data : List UInt8) : Str :=
  data.flatMap (fun (byte : UInt8) => [hexDigit (byte >>> 4), hexDigit (byte &&& 15)])

def fRandomHex {count : Nat} (random : Vector UInt8 count) : Str := fToHex random.toList

def fConstantTimeEquals (a b : Str) : Bool :=
  if a.length ≠ b.length then false else a == b

theorem fConstantTimeEquals_iff {a b : Str} : fConstantTimeEquals a b = true ↔ a = b := by
  unfold fConstantTimeEquals
  constructor
  · intro h
    split at h
    · cases h
    · exact beq_iff_eq.mp h
  · intro h
    rw [h]
    simp

theorem hexDigit_mem (n : UInt8) (hn : n < 16) : hexDigit n ∈ str "0123456789abcdef" := by
  unfold hexDigit
  have hlt : n.toNat < (str "0123456789abcdef").length := UInt8.lt_iff_toNat_lt.mp hn
  rw [List.getD_eq_getElem?_getD, List.getElem?_eq_getElem hlt]
  exact List.getElem_mem hlt

theorem fToHex_mem {data : List UInt8} {c : UInt8} (hc : c ∈ fToHex data) :
    c ∈ str "0123456789abcdef" := by
  obtain ⟨byte, _, hdigit⟩ := List.mem_flatMap.mp hc
  have hhigh : byte >>> 4 < 16 := by
    rw [UInt8.lt_iff_toNat_lt, UInt8.toNat_shiftRight]
    have hbyte := byte.toNat_lt
    rw [show (4 : UInt8).toNat % 8 = 4 from rfl, Nat.shiftRight_eq_div_pow]
    change byte.toNat / 2 ^ 4 < 16
    omega
  have hlow : byte &&& 15 < 16 := by
    rw [UInt8.lt_iff_toNat_lt, UInt8.toNat_and]
    exact Nat.lt_succ_of_le Nat.and_le_right
  rcases List.mem_cons.mp hdigit with hfirst | hsecond
  · rw [hfirst]
    exact hexDigit_mem _ hhigh
  · rw [List.mem_singleton.mp hsecond]
    exact hexDigit_mem _ hlow

/-- A random id has no dot. -/
theorem dot_not_mem_fRandomHex {count : Nat} (random : Vector UInt8 count) :
    dot ∉ fRandomHex random := by
  intro hdot
  have hdigit := fToHex_mem hdot
  revert hdigit
  decide

theorem fRandomHex_ne_nil {count : Nat} (random : Vector UInt8 (count + 1)) :
    fRandomHex random ≠ [] := by
  intro hnil
  have hlen : (fRandomHex random).length = 2 * (count + 1) := by
    unfold fRandomHex fToHex
    rw [List.length_flatMap]
    simp [Nat.mul_comm]
  rw [hnil, List.length_nil] at hlen
  omega

/-! ## Tables -/

/-- A row of `users`. -/
structure Account where
  id : Str
  email : Str
  passwordHash : Str
  createdAt : Int
  apiToken : Str
  deriving DecidableEq, Repr

/-- A row of `sessions`. -/
structure SessionRow where
  id : Str
  userId : Str
  expiresAt : Int
  deriving DecidableEq, Repr

structure Tables where
  users : List Account
  sessions : List SessionRow
  deriving DecidableEq, Repr

/-- The session row's id is a primary key, and its user has to exist. -/
def Tables.insertSession (tables : Tables) (row : SessionRow) : Except AppError Tables :=
  if tables.sessions.any (fun old => old.id = row.id) then
    .error (sqliteStepFailed (str "UNIQUE constraint failed: sessions.id"))
  else if tables.users.all (fun user => user.id ≠ row.userId) then
    .error (sqliteStepFailed (str "FOREIGN KEY constraint failed"))
  else .ok { tables with sessions := tables.sessions ++ [row] }

namespace Session

/-! ## `session.cpp` -/

def cCookieName : Str := str "lectern_session"

/-- Sessions expire this long after they were last used. -/
def cInactivityDays : Int := 30

def cInactivitySeconds : Int := cInactivityDays * 24 * 60 * 60

/-- What sessions read of the process: the configuration, and HMAC-SHA256 under
a hash of the secret, in hex. -/
structure Site where
  sessionSecret : Str
  cookieSecure : Bool
  hmac : Str → Str → Str

inductive SameSite where
  | lax
  | strict
  | none
  deriving DecidableEq, Repr

structure Cookie where
  name : Str
  value : Str
  path : Str
  httpOnly : Bool
  secure : Bool
  sameSite : SameSite
  maxAge : Int
  deriving DecidableEq, Repr

def fSign (site : Site) (sessionId : Str) : Str := site.hmac site.sessionSecret sessionId

/-- The session id of a cookie, unless it is missing, malformed or forged. -/
def fIdFromCookie (site : Site) (raw : Str) : Option Str :=
  if raw = [] then none
  else
    let signedCookies := site.sessionSecret ≠ []
    match raw.findIdx? (fun c => c == dot) with
    | none => if signedCookies then none else some raw
    | some at_ =>
        let id := raw.take at_
        if ¬ signedCookies then some id
        else
          let mac := raw.drop (at_ + 1)
          if id = [] ∨ !fConstantTimeEquals mac (fSign site id) then none else some id

def fMakeCookie (site : Site) (value : Str) (maxAgeSeconds : Int) : Cookie :=
  ⟨cCookieName, value, str "/", true, site.cookieSecure, .strict, maxAgeSeconds⟩

/-- The user of the caller's valid session; reading it renews it. -/
def fCurrentUserId (site : Site) (raw : Str) (now : Int) (tables : Tables) :
    Tables × Option Str :=
  match fIdFromCookie site raw with
  | none => (tables, none)
  | some id =>
      match tables.sessions.find? (fun row => row.id = id) with
      | none => (tables, none)
      | some row =>
          if row.expiresAt ≤ now then
            ({ tables with sessions := tables.sessions.filter (fun row => row.id ≠ id) }, none)
          else
            ({ tables with sessions := tables.sessions.map (fun row =>
                if row.id = id then { row with expiresAt := now + cInactivitySeconds } else row) },
              some row.userId)

/-- The value a session's cookie carries. -/
def cookieValue (site : Site) (id : Str) : Str :=
  if site.sessionSecret = [] then id else id ++ dot :: fSign site id

/-- Create a session; `random` are the bytes its id is made of. -/
def fStart (site : Site) (userId : Str) (random : Vector UInt8 32) (now : Int) (tables : Tables) :
    Tables × Except AppError Cookie :=
  let id := fRandomHex random
  match tables.insertSession ⟨id, userId, now + cInactivitySeconds⟩ with
  | .error e => (tables, .error e)
  | .ok tables => (tables, .ok (fMakeCookie site (cookieValue site id) cInactivitySeconds))

/-- Delete the caller's session; the cookie that is returned clears it. -/
def fDestroy (site : Site) (raw : Str) (tables : Tables) : Tables × Cookie :=
  match fIdFromCookie site raw with
  | none => (tables, fMakeCookie site [] 0)
  | some id =>
      ({ tables with sessions := tables.sessions.filter (fun row => row.id ≠ id) },
        fMakeCookie site [] 0)

def fPurgeExpired (now : Int) (tables : Tables) : Tables :=
  { tables with sessions := tables.sessions.filter (fun row => ¬ row.expiresAt ≤ now) }

/-! ## What a call can do -/

/-- Everything a read can do: find no row, delete one that has expired, or renew
one and name its user. -/
theorem fCurrentUserId_cases (site : Site) (raw : Str) (now : Int) (tables : Tables) :
    (fCurrentUserId site raw now tables = (tables, none) ∧
      ∀ row ∈ tables.sessions, fIdFromCookie site raw ≠ some row.id) ∨
    ∃ row ∈ tables.sessions, fIdFromCookie site raw = some row.id ∧
      (row.expiresAt ≤ now ∧ fCurrentUserId site raw now tables =
          ({ tables with sessions := tables.sessions.filter (fun old => old.id ≠ row.id) }, none) ∨
        now < row.expiresAt ∧ fCurrentUserId site raw now tables =
          ({ tables with sessions := tables.sessions.map (fun old =>
              if old.id = row.id then { old with expiresAt := now + cInactivitySeconds }
              else old) }, some row.userId)) := by
  unfold fCurrentUserId
  cases hid : fIdFromCookie site raw with
  | none =>
      left
      refine ⟨rfl, ?_⟩
      intro row _ hsome
      cases hsome
  | some id =>
      dsimp only
      cases hfind : tables.sessions.find? (fun row => row.id = id) with
      | none =>
          left
          refine ⟨rfl, ?_⟩
          intro row hrow hsame
          have hno := List.find?_eq_none.mp hfind row hrow
          exact hno (by simpa using (Option.some.inj hsame).symm)
      | some row =>
          right
          have hrow := List.mem_of_find?_eq_some hfind
          have hsame : row.id = id := by simpa using List.find?_some hfind
          rw [← hsame]
          refine ⟨row, hrow, rfl, ?_⟩
          dsimp only
          by_cases hexpired : row.expiresAt ≤ now
          · rw [if_pos hexpired]
            exact Or.inl ⟨hexpired, rfl⟩
          · rw [if_neg hexpired]
            exact Or.inr ⟨by omega, rfl⟩

/-! Sessions never touch the accounts. -/

theorem users_insertSession {tables tables' : Tables} {row : SessionRow}
    (hinsert : tables.insertSession row = .ok tables') : tables'.users = tables.users := by
  unfold Tables.insertSession at hinsert
  split at hinsert
  · cases hinsert
  · split at hinsert
    · cases hinsert
    · cases hinsert
      rfl

theorem users_fStart (site : Site) (userId : Str) (random : Vector UInt8 32) (now : Int)
    (tables : Tables) : (fStart site userId random now tables).1.users = tables.users := by
  unfold fStart
  dsimp only
  cases hinsert : tables.insertSession ⟨fRandomHex random, userId, now + cInactivitySeconds⟩ with
  | error e => rfl
  | ok tables' => exact users_insertSession hinsert

theorem users_fCurrentUserId (site : Site) (raw : Str) (now : Int) (tables : Tables) :
    (fCurrentUserId site raw now tables).1.users = tables.users := by
  rcases fCurrentUserId_cases site raw now tables with
    ⟨hout, _⟩ | ⟨row, _, _, ⟨_, hout⟩ | ⟨_, hout⟩⟩
  · rw [hout]
  · rw [hout]
  · rw [hout]

theorem users_fDestroy (site : Site) (raw : Str) (tables : Tables) :
    (fDestroy site raw tables).1.users = tables.users := by
  unfold fDestroy
  cases fIdFromCookie site raw with
  | none => rfl
  | some id => rfl

end Session

end Lectern
