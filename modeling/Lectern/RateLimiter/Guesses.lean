import Lectern.Dotenv
import Lectern.FixedWindow
import Lectern.RateLimiter.Callers
import Lectern.Registration
import Lectern.Threads.Events

/-!
# Guessing passwords

A failed login is counted under the address of the client.  Behind a proxy that
is trusted the address is the last entry of `X-Forwarded-For`, the one the proxy
has appended; of any other peer the header is ignored.  So whatever a client
puts into the header, its failures are its own: in any quarter of an hour, no
matter where it begins, at most two windows of them are answered 401 rather
than 429, and a window has room for the limit and for the logins that are in
flight.
-/

namespace Lectern

open Threads Auth FixedWindow

namespace RateLimiter

/-! ## `AppState::fClientIp` -/

def comma : UInt8 := 44

/-- What stands after the last comma, or everything. -/
def lastEntry (s : Str) : Str := (s.reverse.takeWhile (fun c => c != comma)).reverse

def fClientIp (trustedProxies : List Str) (peer forwarded : Str) : Str :=
  if peer ∉ trustedProxies then peer
  else if forwarded = [] then peer
  else
    let last := fTrim (lastEntry forwarded)
    if last = [] then peer else last

/-- A client, and the proxy it comes through, if any. -/
structure Client where
  ip : Str
  proxy : Option Str

/-- The peer of the connection. -/
def Client.peer (c : Client) : Str := c.proxy.getD c.ip

/-- The `X-Forwarded-For` that arrives when the client sends `sent`: a proxy
appends the address the request came from. -/
def Client.forwarded (c : Client) (sent : Str) : Str :=
  match c.proxy with
  | none => sent
  | some _ => if sent = [] then c.ip else sent ++ str ", " ++ c.ip

/-- It connects itself, and no proxy has its address, or through a trusted proxy,
which writes its address as one. -/
def Client.Placed (trustedProxies : List Str) (c : Client) : Prop :=
  match c.proxy with
  | none => c.ip ∉ trustedProxies
  | some proxy => proxy ∈ trustedProxies ∧ c.ip ≠ [] ∧
      ∀ byte ∈ c.ip, isSpace byte = false ∧ byte ≠ comma

instance (trustedProxies : List Str) (c : Client) : Decidable (c.Placed trustedProxies) :=
  match hproxy : c.proxy with
  | none => decidable_of_iff (c.ip ∉ trustedProxies) (by simp [Client.Placed, hproxy])
  | some proxy =>
      decidable_of_iff (proxy ∈ trustedProxies ∧ c.ip ≠ [] ∧
          c.ip.all (fun byte => !isSpace byte && byte != comma) = true)
        (by simp [Client.Placed, hproxy])

theorem lastEntry_append {ip : Str} (hip : ∀ byte ∈ ip, byte ≠ comma) (before : Str) :
    lastEntry (before ++ comma :: ip) = ip := by
  unfold lastEntry
  have hall : ∀ byte ∈ ip.reverse, (byte != comma) = true := by
    intro byte hbyte
    rw [bne_iff_ne]
    exact hip byte (List.mem_reverse.mp hbyte)
  rw [List.reverse_append, List.reverse_cons, List.append_assoc,
    List.takeWhile_append_of_pos hall, List.cons_append, List.takeWhile_cons_of_neg (by decide),
    List.append_nil, List.reverse_reverse]

theorem lastEntry_self {ip : Str} (hip : ∀ byte ∈ ip, byte ≠ comma) : lastEntry ip = ip := by
  unfold lastEntry
  rw [List.takeWhile_eq_self_iff.mpr, List.reverse_reverse]
  intro byte hbyte
  rw [bne_iff_ne]
  exact hip byte (List.mem_reverse.mp hbyte)

/-- **The header cannot lie**: the address of a client does not depend on what it
sends. -/
theorem fClientIp_placed {trustedProxies : List Str} {c : Client} (h : c.Placed trustedProxies)
    (sent : Str) : fClientIp trustedProxies c.peer (c.forwarded sent) = c.ip := by
  unfold fClientIp Client.peer Client.forwarded
  unfold Client.Placed at h
  cases hproxy : c.proxy with
  | none =>
      rw [hproxy] at h
      exact if_pos h
  | some proxy =>
      rw [hproxy] at h
      obtain ⟨htrusted, hne, hplain⟩ := h
      have hcomma : ∀ byte ∈ c.ip, byte ≠ comma := fun byte hbyte => (hplain byte hbyte).2
      have htrim : fTrim c.ip = c.ip :=
        fTrim_of_trimmed ⟨fun byte hbyte => (hplain byte (List.mem_of_mem_head? hbyte)).1,
          fun byte hbyte => (hplain byte (List.mem_of_mem_getLast? hbyte)).1⟩
      have hlast :
          fTrim (lastEntry (if sent = [] then c.ip else sent ++ str ", " ++ c.ip)) = c.ip := by
        by_cases hsent : sent = []
        · rw [if_pos hsent, lastEntry_self hcomma, htrim]
        · rw [if_neg hsent]
          have hblank : ∀ byte ∈ (32 : UInt8) :: c.ip, byte ≠ comma := by
            intro byte hbyte
            rcases List.mem_cons.mp hbyte with rfl | hbyte
            · decide
            · exact hcomma byte hbyte
          have hsplit : sent ++ str ", " ++ c.ip = sent ++ comma :: 32 :: c.ip := by
            rw [List.append_assoc]
            rfl
          rw [hsplit, lastEntry_append hblank]
          exact htrim
      dsimp only [Option.getD_some]
      rw [if_neg (not_not.mpr htrusted), hlast, if_neg hne, if_neg]
      by_cases hsent : sent = []
      · rw [if_pos hsent]
        exact hne
      · rw [if_neg hsent]
        simp [hsent]

/-! ## The bucket and the windows of its hits -/

/-- The windows that a key's hits fell into.  The bucket is the newest of them,
or that one is over. -/
structure Watched (h : Throttle) (T : Nat) (limiter : RateLimiter) (clock : Int) (flying : Nat)
    (windows : List (Int × List Int)) : Prop where
  fits : Fits h T ⟨limiter, clock, windows.map (fun w => w.2.length)⟩ flying
  fixed : Windows h.window (ceiling h T) windows
  newest : ∀ bucket, limiter.bucket? h.key = some bucket →
    bucket.start ≤ clock ∧ ∃ hits older, windows = (bucket.start, hits) :: older
  expired : limiter.bucket? h.key = none → ∀ w ∈ windows.head?, w.1 + h.window ≤ clock

section Watched

variable {h : Throttle} {T flying : Nat} {limiter : RateLimiter} {clock now : Int}
  {windows : List (Int × List Int)}

theorem watched_empty (h : Throttle) (T : Nat) (clock : Int) : Watched h T empty clock 0 [] := by
  refine ⟨⟨keyed_empty, Nat.zero_le T, by simp, ?_⟩, .nil, ?_, by simp⟩
  · intro bucket hbucket
    cases hbucket
  · intro bucket hbucket
    cases hbucket

theorem Watched.later (hw : Watched h T limiter clock flying windows) (hclock : clock ≤ now)
    {flying' : Nat} (hflying : flying' ≤ flying) :
    Watched h T limiter now flying' windows := by
  refine ⟨⟨hw.fits.keyed, Nat.le_trans hflying hw.fits.flying_le, hw.fits.windows_le, ?_⟩,
    hw.fixed, ?_, ?_⟩
  · intro bucket hbucket
    obtain ⟨n, older, hn, hcounts⟩ := hw.fits.current bucket hbucket
    exact ⟨n, older, hn, hcounts.later hclock hflying⟩
  · intro bucket hbucket
    obtain ⟨hstart, hnewest⟩ := hw.newest bucket hbucket
    exact ⟨Int.le_trans hstart hclock, hnewest⟩
  · intro hnone w hhead
    exact Int.le_trans (hw.expired hnone w hhead) hclock

/-- A check that passes. -/
theorem Watched.pass (hw : Watched h T limiter clock flying windows) (hclock : clock ≤ now)
    (hpass : limiter.fIsLimited h.ip h.kind h.max h.window now = false) (hfly : flying + 1 ≤ T) :
    Watched h T limiter now (flying + 1) windows := by
  have hlater := hw.later hclock (Nat.le_refl flying)
  exact ⟨hw.fits.pass hpass hfly, hlater.fixed, hlater.newest, hlater.expired⟩

/-- A bucket that a sweep drops is over. -/
theorem Watched.swept (hw : Watched h T limiter clock flying windows) (hclock : clock ≤ now)
    (hwindow : h.window ≤ cMaxWindow)
    (hgone : (limiter.bucket? h.key).filter (survives now) = none) :
    ∀ w ∈ windows.head?, w.1 + h.window ≤ now := by
  cases hbucket : limiter.bucket? h.key with
  | none => exact (hw.later hclock (Nat.le_refl flying)).expired hbucket
  | some bucket =>
      obtain ⟨_, hits, older, rfl⟩ := hw.newest bucket hbucket
      have hage : cMaxWindow ≤ now - bucket.start := by
        simpa [hbucket, survives] using hgone
      intro w hhead
      cases hhead
      show bucket.start + h.window ≤ now
      omega

/-- A hit of another key. -/
theorem Watched.other (hw : Watched h T limiter clock flying windows) (hclock : clock ≤ now)
    (hwindow : h.window ≤ cMaxWindow) {ip kind : Str} (hkey : (ip, kind) ≠ h.key)
    (window : Int) :
    Watched h T (limiter.fRecord ip kind window now) now flying windows := by
  have hbucket : (limiter.fRecord ip kind window now).bucket? h.key =
      (limiter.bucket? h.key).filter (survives now) := by
    rw [bucket?_fRecord hw.fits.keyed]
    exact if_neg (fun heq => hkey heq.symm)
  have hcall : (Call.fRecord ip kind window now).key ≠ h.key := hkey
  refine ⟨hw.fits.other hcall hclock, hw.fixed, ?_, ?_⟩
  · intro bucket hsome
    rw [hbucket] at hsome
    have hlater := hw.later hclock (Nat.le_refl flying)
    exact hlater.newest bucket (Option.filter_eq_some_iff.mp hsome).1
  · intro hnone
    rw [hbucket] at hnone
    exact hw.swept hclock hwindow hnone

/-- A hit that starts a window finds the last one over. -/
theorem Watched.expired_of_opens (hw : Watched h T limiter clock flying windows)
    (hclock : clock ≤ now) (hwindow : h.window ≤ cMaxWindow) (hsmall : ceiling h T < 2 ^ 32)
    (hopens : opens ((limiter.bucket? h.key).filter (survives now)) h.window now = true) :
    ∀ w ∈ windows.head?, w.1 + h.window ≤ now := by
  cases hkept : (limiter.bucket? h.key).filter (survives now) with
  | none => exact hw.swept hclock hwindow hkept
  | some bucket =>
      have hbucket := (Option.filter_eq_some_iff.mp hkept).1
      obtain ⟨_, hits, older, rfl⟩ := hw.newest bucket hbucket
      obtain ⟨n, rest, hwindows, hcounts⟩ := hw.fits.current bucket hbucket
      -- The counter has not wrapped around, so it is not zero.
      have hn : n ≤ ceiling h T :=
        hw.fits.windows_le n (by rw [hwindows]; exact List.mem_cons_self)
      have hcount : bucket.count ≠ 0 := by
        intro hzero
        have hmod := hcounts.count
        have hpos := hcounts.pos
        rw [hzero, Nat.mod_eq_of_lt (by omega)] at hmod
        rw [← hmod] at hpos
        exact absurd hpos (by decide)
      rw [hkept] at hopens
      have hage : bucket.count = 0 ∨ now - bucket.start ≥ h.window := by
        simpa [opens] using hopens
      have hover := hage.resolve_left hcount
      intro w hhead
      cases hhead
      show bucket.start + h.window ≤ now
      omega

/-- **A hit** is one more of the newest window, or starts the next. -/
theorem Watched.record (hw : Watched h T limiter clock (flying + 1) windows)
    (hclock : clock ≤ now) (hpos : 0 < h.window) (hwindow : h.window ≤ cMaxWindow)
    (hmax : 1 ≤ h.max.toNat) (hsmall : ceiling h T < 2 ^ 32) :
    ∃ windows', Watched h T (limiter.fRecord h.ip h.kind h.window now) now flying windows' ∧
      hitsOf windows' = now :: hitsOf windows := by
  have hfits := hw.fits.record hmax hclock
  have hbucket := bucket?_recordHit hw.fits.keyed (h := h) now
  have hfull : 1 ≤ ceiling h T := by
    have hfly := hw.fits.flying_le
    unfold ceiling
    omega
  by_cases hopens : opens (h.found ⟨limiter, clock, windows.map (fun w => w.2.length)⟩ now)
      h.window now = true
  · have hover := hw.expired_of_opens hclock hwindow hsmall hopens
    rw [hit_of_opens hopens] at hbucket
    have hsame : h.countHit ⟨limiter, clock, windows.map (fun w => w.2.length)⟩ now =
        ((now, [now]) :: windows).map (fun w => w.2.length) := if_pos hopens
    refine ⟨(now, [now]) :: windows,
      ⟨?_, hw.fixed.next hpos hfull hover, ?_, ?_⟩, rfl⟩
    · rw [← hsame]
      exact hfits
    · intro bucket hsome
      cases hbucket.symm.trans hsome
      exact ⟨Int.le_refl now, [now], windows, rfl⟩
    · intro hnone
      cases hbucket.symm.trans hnone
  · obtain ⟨bucket, hthere, hfound, _, hlive⟩ := found_of_not_opens hopens
    obtain ⟨hstart, hits, older, rfl⟩ := hw.newest bucket hthere
    have hnot : opens (some bucket) h.window now = false := by
      rw [hfound] at hopens
      exact Bool.eq_false_iff.mpr hopens
    rw [hfound, hit_of_not_opens hnot] at hbucket
    have hsame : h.countHit ⟨limiter, clock,
          ((bucket.start, hits) :: older).map (fun w => w.2.length)⟩ now =
        ((bucket.start, now :: hits) :: older).map (fun w => w.2.length) := if_neg hopens
    have hroom : hits.length + 1 ≤ ceiling h T := by
      refine hfits.windows_le (hits.length + 1) ?_
      show hits.length + 1 ∈ h.countHit _ now
      rw [hsame]
      exact List.mem_cons_self
    refine ⟨(bucket.start, now :: hits) :: older,
      ⟨?_, hw.fixed.join (Int.le_trans hstart hclock) (by omega) hroom, ?_, ?_⟩, rfl⟩
    · rw [← hsame]
      exact hfits
    · intro bucket' hsome
      cases hbucket.symm.trans hsome
      exact ⟨Int.le_trans hstart hclock, now :: hits, older, rfl⟩
    · intro hnone
      cases hbucket.symm.trans hnone

/-- **Any span as long as a window.** -/
theorem Watched.sliding (hw : Watched h T limiter clock flying windows) (hpos : 0 < h.window)
    (t : Int) : (hitsOf windows).countP (within h.window t) ≤ 2 * ceiling h T :=
  hw.fixed.sliding (Int.le_of_lt hpos) t

/-- **Only its own**: a key that is limited has been hit `max` times within the
last window. -/
theorem Watched.limited (hw : Watched h T limiter clock flying windows)
    (hsmall : ceiling h T < 2 ^ 32)
    (hlimited : limiter.fIsLimited h.ip h.kind h.max h.window now = true) :
    h.max.toNat ≤ (hitsOf windows).countP (fun t => now - h.window < t) := by
  rw [fIsLimited_eq, limited_eq_true_iff] at hlimited
  obtain ⟨bucket, hbucket, hlive, hcount⟩ := hlimited
  obtain ⟨_, hits, older, rfl⟩ := hw.newest bucket hbucket
  obtain ⟨n, rest, hwindows, hcounts⟩ := hw.fits.current bucket hbucket
  have hn : n = hits.length := (List.cons.inj hwindows).1.symm
  have hle : n ≤ ceiling h T := hw.fits.windows_le n (by rw [hwindows]; exact List.mem_cons_self)
  have hmax : h.max.toNat ≤ hits.length := by
    have hmod := hcounts.count
    rw [Nat.mod_eq_of_lt (by omega)] at hmod
    rw [UInt32.le_iff_toNat_le] at hcount
    omega
  have hall : hits.countP (fun t => now - h.window < t) = hits.length := by
    rw [List.countP_eq_length]
    intro t ht
    cases hw.fixed with
    | cons hrange _ _ _ =>
        have hstart := (hrange t ht).1
        exact decide_eq_true (by omega)
  rw [hitsOf_cons, List.countP_append, hall]
  exact Nat.le_trans hmax (Nat.le_add_right _ _)

end Watched

/-! ## The server and its guests -/

/-- What the handlers share, and the last reading of the clock. -/
structure Served where
  logins : Logins
  clock : Int

def Served.limiter (s : Served) : RateLimiter := s.logins.auth.authLimiter

/-- The three callers of the limiter, each with what its client has put into the
header, and the other requests.  Of an anonymous comment only the hit matters. -/
inductive Guest where
  | login (client : Client) (sent : Str) (body : Json) (draws : Draws)
  | register (client : Client) (sent : Str) (body : Json) (draws : Draws)
  | comment (client : Client) (sent : Str) (tick : Int)
  | other (r : Request)

/-- The address the server takes a client for. -/
def Client.takenFor (trustedProxies : List Str) (client : Client) (sent : Str) : Str :=
  fClientIp trustedProxies client.peer (client.forwarded sent)

def guests (env : Env) (trustedProxies : List Str) : Machine Served AccountJob Guest Clocks where
  enter guest thread s :=
    match guest with
    | .login client sent body draws =>
        some (s, [.login (.check (client.takenFor trustedProxies sent) body draws)])
    | .register client sent body draws =>
        some (s, [.register (.check (client.takenFor trustedProxies sent) body draws)])
    | .comment client sent tick =>
        if s.clock ≤ tick then
          let limiter := s.limiter.fRecord (client.takenFor trustedProxies sent)
            (str "anon-comment") cCommentWindow tick
          let auth := { s.logins.auth with authLimiter := limiter }
          some (⟨{ s.logins with auth := auth }, tick⟩, [])
        else none
    | .other r =>
        ((accounts env).enter (.other r) thread s.logins).map
          (fun (logins, jobs) => (⟨logins, s.clock⟩, jobs))
  perform clocks thread job s :=
    if s.clock ≤ clocks.tick then
      ((accounts env).perform clocks thread job s.logins).map
        (fun (logins, jobs) => (⟨logins, clocks.tick⟩, jobs))
    else none

/-- Who came to log in, and who was answered 401 at which time. -/
inductive Sight where
  | came (thread : Nat) (client : Client)
  | refused (thread : Nat) (tick : Int)

def watch (env : Env) (a : Action Guest Clocks) (p : Pool Served AccountJob) : List Sight :=
  match a with
  | .enter (.login client _ _ _) => [.came p.threads.length client]
  | .enter _ => []
  | .run i clocks =>
      match p.threads[i]? with
      | some (.login job :: _) =>
          match (loginStep env clocks job p.state.logins.auth).2 with
          | .inr (.error e) => if e.status = 401 then [.refused i clocks.tick] else []
          | _ => []
      | _ => []

/-- The address of the client that started a thread. -/
def cameFrom (thread : Nat) : List Sight → Option Str
  | [] => none
  | .came i client :: older => if i = thread then some client.ip else cameFrom thread older
  | .refused .. :: older => cameFrom thread older

/-- The times at which logins of clients of an address were answered 401. -/
def refusals (ip : Str) : List Sight → List Int
  | [] => []
  | .came .. :: older => refusals ip older
  | .refused thread tick :: older =>
      if cameFrom thread older = some ip then tick :: refusals ip older else refusals ip older

/-- A login between its check and its answer. -/
def flies (job : AccountJob) : Bool :=
  match job with
  | .login (.lookup ..) => true
  | .login (.record _) => true
  | _ => false

def loginsInFlight (p : Pool Served AccountJob) : Nat := p.jobs.countP flies

/-- Who logs in connects itself or through a trusted proxy. -/
def ComesPlaced (trustedProxies : List Str) : Action Guest Clocks → Prop
  | .enter (.login client _ _ _) => client.Placed trustedProxies
  | _ => True

instance (trustedProxies : List Str) (a : Action Guest Clocks) :
    Decidable (ComesPlaced trustedProxies a) :=
  match a with
  | .enter (.login client _ _ _) => inferInstanceAs (Decidable (client.Placed trustedProxies))
  | .enter (.register ..) | .enter (.comment ..) | .enter (.other ..) => isTrue trivial
  | .run .. => isTrue trivial

/-- At most `T` logins are in flight after the action. -/
def Allowed (env : Env) (trustedProxies : List Str) (T : Nat) (a : Action Guest Clocks)
    (p : Pool Served AccountJob) : Prop :=
  ComesPlaced trustedProxies a ∧
    ∀ p', (guests env trustedProxies).step a p = some p' → loginsInFlight p' ≤ T

instance (env : Env) (trustedProxies : List Str) (T : Nat) (a : Action Guest Clocks)
    (p : Pool Served AccountJob) : Decidable (Allowed env trustedProxies T a p) :=
  match hstep : (guests env trustedProxies).step a p with
  | some p' =>
      decidable_of_iff (ComesPlaced trustedProxies a ∧ loginsInFlight p' ≤ T)
        (by simp [Allowed, hstep])
  | none => decidable_of_iff (ComesPlaced trustedProxies a) (by simp [Allowed, hstep])

/-- The server has just started. -/
def Launched (p : Pool Served AccountJob) : Prop := p.state.limiter = empty ∧ p.threads = []

/-! ### What a login answers -/

theorem status_fCredentialsFrom {body : Json} {e : AppError}
    (h : fCredentialsFrom body = .error e) : e.status = 400 := by
  have hstring {object : Json} {key : Str} {e : AppError} (h : fJsonString object key = .error e) :
      e.status = 400 := by
    unfold fJsonString at h
    split at h <;> cases h
    rfl
  unfold fCredentialsFrom fJsonBody at h
  split at h
  · simp only [bind, Except.bind] at h
    split at h
    · rename_i hemail
      cases h
      exact hstring hemail
    · split at h
      · rename_i hpassword
        cases h
        exact hstring hpassword
      · cases h
  · cases h
    rfl

theorem status_signIn {env : Env} {id email apiToken : Str} {session : Vector UInt8 32} {now : Int}
    {s : AuthState} {e : AppError} (h : (signIn env id email apiToken session now s).2 = .error e) :
    e.status = 500 := by
  have hbody {value : Json} {e : AppError} (h : fJsonResponse value = .error e) :
      e.status = 500 := by
    unfold fJsonResponse at h
    split at h <;> cases h
    rfl
  have hstart {userId : Str} {tables tables' : Tables} {e : AppError}
      (h : Session.fStart env.site userId session now tables = (tables', .error e)) :
      e.status = 500 := by
    simp only [Session.fStart, Tables.insertSession] at h
    split at h
    · rename_i hinsert
      split at hinsert
      · cases hinsert
        cases h
        rfl
      · split at hinsert <;> cases hinsert
        cases h
        rfl
    · cases h
  unfold signIn at h
  split at h
  · rename_i herror
    cases h
    exact hbody herror
  · split at h
    · rename_i herror
      cases h
      exact hstart herror
    · cases h

/-- **What a login is told**: only a failure that is counted is answered 401, and
only a check that finds the address limited is answered 429. -/
theorem status_of_took {env : Env} {clocks : Clocks} {s s' : AuthState} {job : LoginJob}
    {e : AppError} (h : Took env clocks s job s' (.inr (.error e))) :
    (e.status = 401 → ∃ ip, job = .record ip) ∧
      (e.status = 429 → ∃ ip body draws, job = .check ip body draws ∧
        s.authLimiter.fIsLimited ip (str "login-fail") cLoginFailLimit cLoginFailWindow
          clocks.tick = true) := by
  generalize houtcome : (Sum.inr (.error e) : LoginJob ⊕ SignedIn) = outcome at h
  cases h with
  | limited hlimited =>
      cases houtcome
      exact ⟨fun h => (by cases h), fun _ => ⟨_, _, _, rfl, hlimited⟩⟩
  | malformed hcreds =>
      cases houtcome
      rw [status_fCredentialsFrom hcreds]
      exact ⟨fun h => (by cases h), fun h => (by cases h)⟩
  | read => cases houtcome
  | wrong => cases houtcome
  | tokenless => cases houtcome
  | right => cases houtcome
  | counted hlimiter =>
      cases houtcome
      exact ⟨fun _ => ⟨_, rfl⟩, fun h => (by cases h)⟩
  | clash hset =>
      cases houtcome
      unfold Tables.setApiToken at hset
      split at hset <;> cases hset
      exact ⟨fun h => (by cases h), fun h => (by cases h)⟩
  | minted => cases houtcome
  | signed =>
      rw [status_signIn (Sum.inr.inj houtcome).symm]
      exact ⟨fun h => (by cases h), fun h => (by cases h)⟩

theorem watch_record {env : Env} {p : Pool Served AccountJob} {i : Nat} {ip : Str}
    {rest : List AccountJob} (hthread : p.threads[i]? = some (.login (.record ip) :: rest))
    (clocks : Clocks) : watch env (.run i clocks) p = [.refused i clocks.tick] := by
  simp only [watch, hthread, loginStep]
  exact if_pos rfl

theorem watch_quiet (env : Env) {p : Pool Served AccountJob} {i : Nat} {job : AccountJob}
    {rest : List AccountJob} (hthread : p.threads[i]? = some (job :: rest))
    (hjob : ∀ ip, job ≠ .login (.record ip)) (clocks : Clocks) :
    watch env (.run i clocks) p = [] := by
  cases job with
  | register job => simp only [watch, hthread]
  | login job =>
      have htook := took_loginStep env clocks job p.state.logins.auth
      simp only [watch, hthread]
      split
      · rename_i e hanswer
        rw [hanswer] at htook
        refine if_neg ?_
        intro hstatus
        obtain ⟨ip, rfl⟩ := (status_of_took htook).1 hstatus
        exact hjob ip rfl
      · rfl

/-! ### What one step does to the limiter -/

/-- The address a job of a login carries. -/
def addressOf (job : AccountJob) : Option Str :=
  match job with
  | .login (.check ip _ _) => some ip
  | .login (.lookup ip _ _) => some ip
  | .login (.record ip) => some ip
  | _ => none

/-- The login of an address between its check and its answer. -/
def fliesFrom (ip : Str) (job : AccountJob) : Bool := flies job && addressOf job = some ip

/-- **What a step does** to the limiter and to the logins in flight. -/
inductive Turn (tick : Int) (limiter : RateLimiter) :
    AccountJob → RateLimiter → List AccountJob → Prop
  | pass {ip : Str} {body : Json} {creds : Credentials} {draws : Draws}
      (hpass : limiter.fIsLimited ip (str "login-fail") cLoginFailLimit cLoginFailWindow tick =
        false) :
      Turn tick limiter (.login (.check ip body draws)) limiter [.login (.lookup ip creds draws)]
  | wrong {ip : Str} {creds : Credentials} {draws : Draws} :
      Turn tick limiter (.login (.lookup ip creds draws)) limiter [.login (.record ip)]
  | refuse {ip : Str} :
      Turn tick limiter (.login (.record ip))
        (limiter.fRecord ip (str "login-fail") cLoginFailWindow tick) []
  | register {ip : Str} {body : Json} {draws : Draws} {jobs : List AccountJob}
      (hnone : ∀ job ∈ jobs, addressOf job = none) :
      Turn tick limiter (.register (.record ip body draws))
        (limiter.fRecord ip (str "register") cRegisterWindow tick) jobs
  | still {job : AccountJob} {jobs : List AccountJob} (hjob : ∀ ip, job ≠ .login (.record ip))
      (hnone : ∀ job ∈ jobs, addressOf job = none) : Turn tick limiter job limiter jobs

theorem turn_login {env : Env} {clocks : Clocks} {i : Nat} {job : LoginJob}
    {jobs : List LoginJob} {s s' : Logins}
    (h : (logins env).perform clocks i job s = some (s', jobs)) :
    Turn clocks.tick s.auth.authLimiter (.login job) s'.auth.authLimiter
      (jobs.map .login) := by
  obtain ⟨auth, handed⟩ := s'
  rcases perform_logins h with ⟨next, htook, _, rfl⟩ | ⟨answer, htook, _, rfl⟩
  · cases htook with
    | read hfree hcreds => exact .pass hfree
    | wrong => exact .wrong
    | tokenless huser hempty => exact .still (by simp) (by simp [addressOf])
    | right huser hne => exact .still (by simp) (by simp [addressOf])
    | minted hset => exact .still (by simp) (by simp [addressOf])
  · cases htook with
    | limited hlimited => exact .still (by simp) (by simp)
    | malformed hcreds => exact .still (by simp) (by simp)
    | counted hlimiter => exact hlimiter ▸ .refuse
    | clash hset => exact .still (by simp) (by simp)
    | @signed user apiToken draws =>
        have hlimiter := signIn_authLimiter env user.id user.email apiToken draws.session clocks.now
          s.auth
        exact hlimiter.symm ▸ .still (by simp) (by simp)

theorem turn_register (env : Env) (clocks : Clocks) (job : RegisterJob) (s : AuthState)
    (jobs : List AccountJob)
    (hjobs : ∀ other ∈ jobs, ∃ next, other = .register next) :
    Turn clocks.tick s.authLimiter (.register job) (registerStep env clocks job s).1.authLimiter
      jobs := by
  have hnone : ∀ other ∈ jobs, addressOf other = none := by
    intro other hother
    obtain ⟨next, rfl⟩ := hjobs other hother
    rfl
  cases job with
  | check ip body draws =>
      unfold registerStep
      dsimp only
      split <;> exact .still (by simp) hnone
  | record ip body draws =>
      unfold registerStep
      dsimp only
      split
      · exact .register hnone
      · split
        · exact .register hnone
        · split <;> exact .register hnone
  | lookup email draws =>
      unfold registerStep
      dsimp only
      split
      · exact .still (by simp) hnone
      · split <;> exact .still (by simp) hnone
  | insert email passwordHash draws =>
      unfold registerStep
      dsimp only
      split <;> exact .still (by simp) hnone
  | session row draws =>
      have hlimiter := signIn_authLimiter env row.id row.email row.apiToken draws.session
        clocks.now s
      exact hlimiter.symm ▸ .still (by simp) hnone

theorem turn_of_perform {env : Env} {clocks : Clocks} {i : Nat} {job : AccountJob}
    {jobs : List AccountJob} {s s' : Logins}
    (h : (accounts env).perform clocks i job s = some (s', jobs)) :
    Turn clocks.tick s.auth.authLimiter job s'.auth.authLimiter jobs := by
  cases job with
  | login job =>
      obtain ⟨⟨s', jobs⟩, hlogin, heq⟩ := Option.map_eq_some_iff.mp h
      cases heq
      exact turn_login hlogin
  | register job =>
      have hturn := turn_register env clocks job s.auth
      simp only [accounts] at h
      split at h <;> rename_i hstep <;> rw [hstep] at hturn <;> cases h <;>
        exact hturn _ (by simp)

/-- A job passes its address on, and brings no other. -/
theorem Turn.address {tick : Int} {limiter limiter' : RateLimiter} {job : AccountJob}
    {jobs : List AccountJob} (h : Turn tick limiter job limiter' jobs) {other : AccountJob}
    (hother : other ∈ jobs) {address : Str} (haddr : addressOf other = some address) :
    addressOf job = some address := by
  cases h with
  | pass hpass =>
      cases List.mem_singleton.mp hother
      exact haddr
  | wrong =>
      cases List.mem_singleton.mp hother
      exact haddr
  | refuse => cases hother
  | register hnone =>
      rw [hnone other hother] at haddr
      cases haddr
  | still _ hnone =>
      rw [hnone other hother] at haddr
      cases haddr

/-! ### Along a run -/

/-- What is known of one address. -/
structure Guarded (T : Nat) (ip : Str) (p : Pool Served AccountJob) (seen : List Sight) : Prop where
  jobs : ForJobs (fun i job => ∀ address, addressOf job = some address →
    cameFrom i seen = some address) p.threads
  windows : ∃ windows, Watched (loginFail ip) T p.state.limiter p.state.clock
    (p.jobs.countP (fliesFrom ip)) windows ∧ hitsOf windows = refusals ip seen

theorem fliesFrom_of_none (ip : Str) {job : AccountJob} (h : addressOf job = none) :
    fliesFrom ip job = false := by
  simp [fliesFrom, h]

theorem countP_fliesFrom_of_none (ip : Str) {jobs : List AccountJob}
    (h : ∀ job ∈ jobs, addressOf job = none) : jobs.countP (fliesFrom ip) = 0 := by
  rw [List.countP_eq_zero]
  intro job hjob
  rw [fliesFrom_of_none ip (h job hjob)]
  decide

theorem countP_fliesFrom_le (ip : Str) (p : Pool Served AccountJob) :
    p.jobs.countP (fliesFrom ip) ≤ loginsInFlight p := by
  refine List.countP_mono_left ?_
  intro job _ hjob
  exact (Bool.and_eq_true_iff.mp hjob).1

section Steps

variable {env : Env} {trustedProxies : List Str} {T : Nat} {ip : Str}
  {p : Pool Served AccountJob} {seen : List Sight}

theorem guarded_launched (h : Launched p) (T : Nat) (ip : Str) : Guarded T ip p [] := by
  obtain ⟨hlimiter, hthreads⟩ := h
  have hjobs : p.jobs = [] := by
    unfold Pool.jobs
    rw [hthreads]
    rfl
  refine ⟨?_, [], ?_, rfl⟩
  · rw [hthreads]
    exact forJobs_nil
  · rw [hlimiter, hjobs]
    exact watched_empty (loginFail ip) T p.state.clock

/-- A guest comes in. -/
theorem Guarded.enter (hp : Guarded T ip p seen) {guest : Guest} {s : Served}
    {jobs : List AccountJob}
    (hplaced : ComesPlaced trustedProxies (.enter guest))
    (henter : (guests env trustedProxies).enter guest p.threads.length p.state = some (s, jobs)) :
    Guarded T ip ⟨s, p.threads ++ [jobs]⟩ (watch env (.enter guest) p ++ seen) := by
  obtain ⟨hjobs, windows, hwatched, hhits⟩ := hp
  have hcount (hnew : jobs.countP (fliesFrom ip) = 0) :
      (Pool.mk s (p.threads ++ [jobs])).jobs.countP (fliesFrom ip) =
        p.jobs.countP (fliesFrom ip) := by
    rw [Machine.countP_enter, hnew, Nat.add_zero]
  cases guest with
  | login client sent body draws =>
      cases henter
      have haddress : client.takenFor trustedProxies sent = client.ip :=
        fClientIp_placed hplaced sent
      refine ⟨hjobs.enter ?_ ?_, windows, ?_, hhits⟩
      · intro i job hi hjob address haddr
        show (if p.threads.length = i then some client.ip else cameFrom i seen) = some address
        rw [if_neg (by omega)]
        exact hjob address haddr
      · intro job hjob address haddr
        cases List.mem_singleton.mp hjob
        cases haddr
        rw [haddress]
        exact if_pos rfl
      · rw [hcount rfl]
        exact hwatched
  | register client sent body draws =>
      cases henter
      refine ⟨hjobs.enter (fun _ _ _ h => h) (by simp [addressOf]), windows, ?_, hhits⟩
      rw [hcount rfl]
      exact hwatched
  | comment client sent tick =>
      simp only [guests] at henter
      split at henter
      · rename_i hclock
        cases henter
        refine ⟨hjobs.enter (fun _ _ _ h => h) (by simp), windows, ?_, hhits⟩
        rw [hcount rfl]
        have hkey : (client.takenFor trustedProxies sent, str "anon-comment") ≠
            (loginFail ip).key := by
          intro heq
          have hkind : str "anon-comment" = str "login-fail" := congrArg Prod.snd heq
          exact absurd hkind (by decide)
        exact hwatched.other hclock (throttles_admissible ip _ List.mem_cons_self).2 hkey _
      · cases henter
  | other r =>
      simp only [guests, accounts] at henter
      split at henter
      · cases henter
      · rename_i hother
        rw [Bool.or_eq_true, not_or, Bool.not_eq_true, Bool.not_eq_true] at hother
        cases henter
        refine ⟨hjobs.enter (fun _ _ _ h => h) (by simp), windows, ?_, hhits⟩
        rw [hcount rfl]
        have hlimiter : (serve env r p.state.logins.auth).authLimiter = p.state.limiter := by
          cases r with
          | login => cases hother.1
          | register => cases hother.2
          | logout cookie => rfl
          | identify authorization cookie now => rfl
          | purge now => rfl
        show Watched _ _ (serve env r p.state.logins.auth).authLimiter _ _ _
        rw [hlimiter]
        exact hwatched

/-- Steps bring nobody. -/
theorem cameFrom_watch (env : Env) (i j : Nat) (clocks : Clocks) (p : Pool Served AccountJob)
    (seen : List Sight) : cameFrom i (watch env (.run j clocks) p ++ seen) = cameFrom i seen := by
  simp only [watch]
  split
  · split
    · split <;> rfl
    · rfl
  · rfl

/-- The hits of the address after a step. -/
theorem Turn.watched (hT : cLoginFailLimit.toNat - 1 + T < 2 ^ 32)
    {windows : List (Int × List Int)} {flying' : Nat} {limiter' : RateLimiter}
    {job : AccountJob} {rest jobs : List AccountJob} {i : Nat} {clocks : Clocks}
    (hturn : Turn clocks.tick p.state.limiter job limiter' jobs)
    (hthread : p.threads[i]? = some (job :: rest)) (hclock : p.state.clock ≤ clocks.tick)
    (hwatched : Watched (loginFail ip) T p.state.limiter p.state.clock
      (p.jobs.countP (fliesFrom ip)) windows)
    (hhits : hitsOf windows = refusals ip seen)
    (hcame : ∀ address, addressOf job = some address → cameFrom i seen = some address)
    (hcount : flying' + [job].countP (fliesFrom ip) =
      p.jobs.countP (fliesFrom ip) + jobs.countP (fliesFrom ip))
    (hfly : flying' ≤ T) :
    ∃ windows', Watched (loginFail ip) T limiter' clocks.tick flying' windows' ∧
      hitsOf windows' = refusals ip (watch env (.run i clocks) p ++ seen) := by
  obtain ⟨hmax, hwindow⟩ := throttles_admissible ip _ List.mem_cons_self
  have hquiet (hjob : ∀ address, job ≠ .login (.record address)) :
      watch env (.run i clocks) p = [] := watch_quiet env hthread hjob clocks
  cases hturn with
  | @pass address body creds draws hpass =>
      rw [hquiet (by simp)]
      have hjobs : [AccountJob.login (.check address body draws)].countP (fliesFrom ip) = 0 := rfl
      by_cases hsame : address = ip
      · subst hsame
        have hnew : [AccountJob.login (.lookup address creds draws)].countP
            (fliesFrom address) = 1 := by simp [fliesFrom, flies, addressOf]
        rw [hjobs, hnew, Nat.add_zero] at hcount
        rw [hcount] at hfly ⊢
        exact ⟨windows, hwatched.pass hclock hpass hfly, hhits⟩
      · have hnew :
            [AccountJob.login (.lookup address creds draws)].countP (fliesFrom ip) = 0 := by
          simp [fliesFrom, flies, addressOf, hsame]
        rw [hjobs, hnew] at hcount
        exact ⟨windows, hwatched.later hclock (by omega), hhits⟩
  | @wrong address creds draws =>
      rw [hquiet (by simp)]
      have hjobs : [AccountJob.login (.lookup address creds draws)].countP (fliesFrom ip) =
          [AccountJob.login (.record address)].countP (fliesFrom ip) := by
        simp [fliesFrom, flies, addressOf]
      exact ⟨windows, hwatched.later hclock (by omega), hhits⟩
  | @refuse address =>
      rw [watch_record hthread]
      show ∃ windows', _ ∧ hitsOf windows' = if cameFrom i seen = some ip then _ else _
      rw [hcame address rfl]
      by_cases hsame : address = ip
      · subst hsame
        have hjobs : [AccountJob.login (.record address)].countP (fliesFrom address) = 1 := by
          simp [fliesFrom, flies, addressOf]
        rw [hjobs, List.countP_nil] at hcount
        have hbefore : p.jobs.countP (fliesFrom address) = flying' + 1 := hcount.symm
        rw [hbefore] at hwatched
        rw [if_pos rfl]
        show ∃ windows', _ ∧ hitsOf windows' = clocks.tick :: refusals address seen
        rw [← hhits]
        exact hwatched.record hclock (by decide : 0 < cLoginFailWindow) hwindow hmax hT
      · have hjobs : [AccountJob.login (.record address)].countP (fliesFrom ip) = 0 := by
          simp [fliesFrom, flies, addressOf, hsame]
        rw [hjobs, List.countP_nil] at hcount
        rw [if_neg (fun heq => hsame (Option.some.inj heq))]
        have hkey : (address, str "login-fail") ≠ (loginFail ip).key :=
          fun heq => hsame (congrArg Prod.fst heq)
        exact ⟨windows, (hwatched.other hclock hwindow hkey _).later (Int.le_refl _) (by omega),
          hhits⟩
  | @register address body draws jobs hnone =>
      rw [hquiet (by simp)]
      rw [countP_fliesFrom_of_none ip hnone] at hcount
      have hkey : (address, str "register") ≠ (loginFail ip).key := by
        intro heq
        have hkind : str "register" = str "login-fail" := congrArg Prod.snd heq
        exact absurd hkind (by decide)
      exact ⟨windows, (hwatched.other hclock hwindow hkey _).later (Int.le_refl _) (by omega),
        hhits⟩
  | still hjob hnone =>
      rw [hquiet hjob]
      rw [countP_fliesFrom_of_none ip hnone] at hcount
      exact ⟨windows, hwatched.later hclock (by omega), hhits⟩

/-- A handler takes a step. -/
theorem Guarded.perform (hp : Guarded T ip p seen) (hT : cLoginFailLimit.toNat - 1 + T < 2 ^ 32)
    {before after : List (List AccountJob)} {job : AccountJob} {rest jobs : List AccountJob}
    {clocks : Clocks} {s : Served} (hthreads : p.threads = before ++ (job :: rest) :: after)
    (hperform : (guests env trustedProxies).perform clocks before.length job p.state =
      some (s, jobs))
    (hcrowd : loginsInFlight ⟨s, before ++ (jobs ++ rest) :: after⟩ ≤ T) :
    Guarded T ip ⟨s, before ++ (jobs ++ rest) :: after⟩
      (watch env (.run before.length clocks) p ++ seen) := by
  obtain ⟨hjobs, windows, hwatched, hhits⟩ := hp
  have hthread : p.threads[before.length]? = some (job :: rest) := by
    rw [hthreads]
    exact Machine.thread_self before after (job :: rest)
  have hcame := hjobs.head hthreads
  have hcount := Machine.countP_run (fliesFrom ip) hthreads s jobs
  have hfly := Nat.le_trans (countP_fliesFrom_le ip _) hcrowd
  simp only [guests] at hperform
  split at hperform
  · rename_i hclock
    obtain ⟨⟨logins, jobs⟩, hstep, heq⟩ := Option.map_eq_some_iff.mp hperform
    cases heq
    have hturn : Turn clocks.tick p.state.limiter job logins.auth.authLimiter jobs :=
      turn_of_perform hstep
    refine ⟨hjobs.run hthreads ?_ ?_,
      hturn.watched hT hthread hclock hwatched hhits hcame hcount hfly⟩
    · intro i other hother address haddr
      rw [cameFrom_watch]
      exact hother address haddr
    · intro other hother address haddr
      rw [cameFrom_watch]
      exact hcame address (hturn.address hother haddr)
  · cases hperform

/-- **Along every run.** -/
theorem guarded (hT : cLoginFailLimit.toNat - 1 + T < 2 ^ 32)
    (h : (guests env trustedProxies).Observed (watch env) (Allowed env trustedProxies T) Launched p
      seen)
    (ip : Str) : Guarded T ip p seen := by
  refine Machine.Observed.invariant (fun p hp => guarded_launched hp T ip) ?_ h
  intro a p p' seen _ hp hok hstep
  obtain ⟨hplaced, hcrowd⟩ := hok
  have hcrowd' := hcrowd p' hstep
  rcases Machine.step_cases hstep with
    ⟨guest, s, jobs, rfl, henter, rfl⟩ |
    ⟨before, job, rest, after, clocks, s, jobs, rfl, hthreads, hperform, rfl⟩
  · exact hp.enter hplaced henter
  · exact hp.perform hT hthreads hperform hcrowd'

end Steps

/-- **Guesses are bounded**: in any quarter of an hour, and whatever they and
others send meanwhile, the clients of an address are answered 401 no more often
than the limit and the logins in flight allow in two windows. -/
theorem guesses_bounded (env : Env) (trustedProxies : List Str) {T : Nat}
    (hT : cLoginFailLimit.toNat - 1 + T < 2 ^ 32) {p : Pool Served AccountJob} {seen : List Sight}
    (h : (guests env trustedProxies).Observed (watch env) (Allowed env trustedProxies T) Launched p
      seen)
    (ip : Str) (t : Int) :
    (refusals ip seen).countP (within cLoginFailWindow t) ≤
      2 * (cLoginFailLimit.toNat - 1 + T) := by
  obtain ⟨windows, hwatched, hhits⟩ := (guarded hT h ip).windows
  rw [← hhits]
  exact hwatched.sliding (by decide : 0 < cLoginFailWindow) t

/-! ### Ann behind a proxy -/

def proxy : Str := str "10.0.0.1"

def annBehind : Client := ⟨str "203.0.113.7", some proxy⟩

/-- One guess after the other, a second apart, each under another forged header. -/
def annGuesses (n : Nat) : List (Action Guest Clocks) :=
  (List.range n).flatMap (fun i =>
    [.enter (.login annBehind (str "192.0.2." ++ decimal i) (annRegisters "ann@x.org")
        (drawsOf 1)),
      .run i ⟨seconds i, 0⟩, .run i ⟨seconds i, 0⟩, .run i ⟨seconds i, 0⟩])

def launched : Pool Served AccountJob := ⟨⟨⟨⟨migrated [], ⟨[]⟩⟩, []⟩, 0⟩, []⟩

def annGuessed : Pool Served AccountJob × List Sight :=
  ((guests trusting [proxy]).execSeen (watch trusting) (Allowed trusting [proxy] 1)
    (annGuesses 10) launched []).getD (launched, [])

theorem observed_annGuessed :
    (guests trusting [proxy]).Observed (watch trusting) (Allowed trusting [proxy] 1) Launched
      annGuessed.1 annGuessed.2 := Machine.Observed.execSeen_getD (.start ⟨rfl, rfl⟩)

theorem guesses_bounded_annGuessed :
    (refusals annBehind.ip annGuessed.2).length = 10 ∧
      (refusals annBehind.ip annGuessed.2).countP (within cLoginFailWindow 0) ≤ 20 :=
  ⟨by decide +kernel,
    guesses_bounded trusting [proxy] (by decide) observed_annGuessed annBehind.ip 0⟩

/-- **Throttled for its own failures**: a login that is answered 429 comes from an
address whose clients were answered 401 as often as the limit says within the
last quarter of an hour. -/
theorem throttled_own (env : Env) (trustedProxies : List Str) {T : Nat}
    (hT : cLoginFailLimit.toNat - 1 + T < 2 ^ 32) {p : Pool Served AccountJob} {seen : List Sight}
    (h : (guests env trustedProxies).Observed (watch env) (Allowed env trustedProxies T) Launched p
      seen)
    {i : Nat} {job : LoginJob} {rest : List AccountJob}
    (hthread : p.threads[i]? = some (.login job :: rest)) {clocks : Clocks} {e : AppError}
    (hanswer : (loginStep env clocks job p.state.logins.auth).2 = .inr (.error e))
    (hthrottled : e.status = 429) :
    ∃ ip, cameFrom i seen = some ip ∧ cLoginFailLimit.toNat ≤
      (refusals ip seen).countP (fun t => clocks.tick - cLoginFailWindow < t) := by
  have htook := took_loginStep env clocks job p.state.logins.auth
  rw [hanswer] at htook
  obtain ⟨ip, body, draws, rfl, hlimited⟩ := (status_of_took htook).2 hthrottled
  obtain ⟨hjobs, windows, hwatched, hhits⟩ := guarded hT h ip
  refine ⟨ip, hjobs i _ hthread _ List.mem_cons_self ip rfl, ?_⟩
  rw [← hhits]
  exact hwatched.limited hT hlimited

/-- Her eleventh guess. -/
def annReturns : Pool Served AccountJob × List Sight :=
  ((guests trusting [proxy]).execSeen (watch trusting) (Allowed trusting [proxy] 1)
    (annGuesses 10 ++ [.enter (.login annBehind (str "192.0.2.99") (annRegisters "ann@x.org")
      (drawsOf 1))]) launched []).getD (launched, [])

theorem observed_annReturns :
    (guests trusting [proxy]).Observed (watch trusting) (Allowed trusting [proxy] 1) Launched
      annReturns.1 annReturns.2 := Machine.Observed.execSeen_getD (.start ⟨rfl, rfl⟩)

/-- What the next step of a login is answered with. -/
def toldAt (p : Pool Served AccountJob) (i : Nat) (clocks : Clocks) : Option Nat :=
  match p.threads[i]? with
  | some (.login job :: _) =>
      match (loginStep trusting clocks job p.state.logins.auth).2 with
      | .inr (.error e) => some e.status
      | _ => none
  | _ => none

/-- It is turned away, under yet another header, and she has been told ten times. -/
theorem throttled_own_annReturns :
    toldAt annReturns.1 10 ⟨seconds 10, 0⟩ = some 429 ∧
      10 ≤ (refusals annBehind.ip annReturns.2).countP
        (fun t => seconds 10 - cLoginFailWindow < t) := by
  have htold : toldAt annReturns.1 10 ⟨seconds 10, 0⟩ = some 429 := by decide +kernel
  have hcame : cameFrom 10 annReturns.2 = some annBehind.ip := by decide +kernel
  refine ⟨htold, ?_⟩
  unfold toldAt at htold
  split at htold
  · rename_i job rest hthread
    split at htold
    · rename_i e hanswer
      obtain ⟨ip, hip, hle⟩ := throttled_own trusting [proxy] (by decide) observed_annReturns
        hthread hanswer (Option.some.inj htold)
      rw [hcame] at hip
      cases hip
      exact hle
    · cases htold
  · cases htold

end RateLimiter

end Lectern
