import Lectern.Sync.Requests
import Lectern.Sync.Silence
import Lectern.Sync.Steps

/-!
# No lost update for the owner's devices

A request changes the disk, then notifies; a new connection is inserted, then
asked to catch up.  However these steps and those of all other threads are
ordered, a device of the owner that is registered when both are through has
been sent, after the disk change, a frame that makes it look at the changed
files, unless it is the device that made the request.

The invariant `Handled` says where a registered device stands once the change
is on disk: the notification has yet to look at the connections, or the device
was passed over as the origin, or it has been told, or a job that will tell it
is on the way, in the notification's thread or in that of its own `fAdd`.
-/

namespace Lectern.Sync

open FileTree Threads

variable {ε R : Type}

/-- A frame that makes a device look at every announced path. -/
def Frame.Looks (a : Announcement) : Frame → Prop
  | .requestChanges => True
  | .changes paths _ => paths = [] ∨ paths = a.paths

/-- A job that tells the device, if the device is registered by then. -/
def Job.Tells (c : Nat) (a : Announcement) : Job R → Prop
  | .track c' frame => c' = c ∧ frame.Looks a
  | .send c' id frame => c' = c ∧ (∃ n, id = frameId n) ∧ frame.Looks a
  | _ => False

/-- Such a job is ahead in thread `i`. -/
def Coming (threads : List (List (Job R))) (i c : Nat) (a : Announcement) : Prop :=
  ∃ t, threads[i]? = some t ∧ ∃ job ∈ t, job.Tells c a

/-- The device has been sent such a frame. -/
def Told (events : List (Event ε R)) (c : Nat) (a : Announcement) : Prop :=
  ∃ id frame, .sent c id frame ∈ events ∧ frame.Looks a

/-- The notification passed the connection over as the request's own device. -/
def Skipped (events : List (Event ε R)) (i c : Nat) (a : Announcement) : Prop :=
  ∃ connections conn, .notified i a connections ∈ events ∧ (c, conn) ∈ connections ∧
    a.originDevice ≠ [] ∧ conn.device = a.originDevice

/-- Where the devices of the owner stand after the change was made by thread
`i`; `later` is what has happened since. -/
def Handled (p : Pool (Sys ε R) (Job R)) (i : Nat) (a : Announcement)
    (later : List (Event ε R)) : Prop :=
  (∃ t, p.threads[i]? = some t ∧ .notify a ∈ t) ∨
  ∀ c j conn, .added c a.ownerId j ∈ p.state.log → p.state.hub.find c = some conn →
    Skipped later i c a ∨ Told later c a ∨ Coming p.threads i c a ∨ Coming p.threads j c a

theorem Told.mono {events events' : List (Event ε R)} (hsub : ∀ e ∈ events, e ∈ events') {c : Nat}
    {a : Announcement} (h : Told events c a) : Told events' c a := by
  obtain ⟨id, frame, hsent, hlooks⟩ := h
  exact ⟨id, frame, hsub _ hsent, hlooks⟩

theorem Skipped.mono {events events' : List (Event ε R)} (hsub : ∀ e ∈ events, e ∈ events')
    {i c : Nat} {a : Announcement} (h : Skipped events i c a) : Skipped events' i c a := by
  obtain ⟨connections, conn, hnotified, hrest⟩ := h
  exact ⟨connections, conn, hsub _ hnotified, hrest⟩

/-! ## Frames that can be serialised -/

theorem validUtf8_frameId (n : Nat) : validUtf8 (frameId n) = true := by
  apply validUtf8_of_ascii
  intro c hc
  rcases List.mem_append.mp hc with hs | hdigit
  · rw [List.mem_singleton.mp hs]
    decide
  · unfold decimal at hdigit
    split at hdigit
    · rw [List.mem_singleton.mp hdigit]
      decide
    · obtain ⟨d, hd, rfl⟩ := List.mem_map.mp hdigit
      have hlt : d < 10 := Nat.digits_lt_base (by omega) (List.mem_reverse.mp hd)
      rw [UInt8.lt_iff_toNat_lt, UInt8.toNat_ofNat']
      change (48 + d) % 256 < 128
      omega

theorem validUtf8_words : validUtf8 (str "id") = true ∧ validUtf8 (str "type") = true ∧
    validUtf8 (str "paths") = true ∧ validUtf8 (str "changes") = true ∧
    validUtf8 (str "request_changes") = true := by
  refine ⟨?_, ?_, ?_, ?_, ?_⟩ <;> exact validUtf8_of_ascii (by decide +kernel)

/-- A frame of valid paths can be serialised. -/
theorem dumps_json {id : Str} (hid : validUtf8 id = true) {frame : Frame}
    (h : ∀ paths why, frame = .changes paths why → ∀ path ∈ paths, validUtf8 path = true) :
    (frame.json id).dumps = true := by
  obtain ⟨hidKey, htype, hpathsKey, hchanges, hrequest⟩ := validUtf8_words
  cases frame with
  | requestChanges =>
      simp only [Frame.json, Json.dumps, dumpsFields, hidKey, hid, htype, hrequest, Bool.and_self]
  | changes paths why =>
      have hpaths : dumpsAll (paths.map .string) = true := by
        rw [dumpsAll_eq, List.all_map, List.all_eq_true]
        intro path hpath
        change (Json.string path).dumps = true
        rw [Json.dumps]
        exact h paths why rfl path hpath
      simp only [Frame.json, Json.dumps, dumpsFields, hidKey, hid, htype, hpathsKey, hchanges,
        hpaths, Bool.and_self]

theorem dumps_of_looks {a : Announcement} (ha : ∀ path ∈ a.paths, validUtf8 path = true)
    {frame : Frame} (h : frame.Looks a) (n : Nat) : (frame.json (frameId n)).dumps = true := by
  apply dumps_json (validUtf8_frameId n)
  intro paths why hframe path hpath
  rw [hframe] at h
  rcases h with rfl | rfl
  · cases hpath
  · exact ha path hpath

section

variable {svc : Service ε R} {s s' : Sys ε R} {i : Nat} {jobs : List (Job R)}

/-! ## Where the devices stand -/

/-- What the notification does about a device of the owner. -/
theorem announced_owner {conn : Connection} {ownerId : Str} (hne : ownerId ≠ [])
    (howner : conn.userId = ownerId) (paths : List Str) (originDevice : Str) :
    announced conn ownerId paths originDevice =
      if originDevice ≠ [] ∧ conn.device = originDevice then none
      else some (if paths.length ≤ cMaxPathsPerFrame then paths else []) := by
  have hdevice : ownersDevice conn ownerId = true := by
    unfold ownersDevice
    simp [howner, hne]
  unfold announced
  simp only [hdevice, if_true, Bool.not_true, Bool.false_eq_true, and_false, if_false]

variable {p : Pool (Sys ε R) (Job R)} {a : Announcement}

/-- A job that is ahead stays ahead until it has told the device. -/
theorem coming_perform (ha : ∀ path ∈ a.paths, validUtf8 path = true) {job : Job R}
    {before after : List (List (Job R))} {rest : List (Job R)}
    (hthreads : p.threads = before ++ (job :: rest) :: after)
    (h : perform svc true before.length job p.state = (s', jobs)) {c : Nat} {conn' : Connection}
    (hfind : s'.hub.find c = some conn') {k : Nat} (hcoming : Coming p.threads k c a) :
    Coming (before ++ (jobs ++ rest) :: after) k c a ∨
      ∃ id frame, s'.log = .sent c id frame :: p.state.log ∧ frame.Looks a := by
  obtain ⟨t, ht, job', hjob', htells⟩ := hcoming
  rw [hthreads] at ht
  by_cases hk : k = before.length
  · rw [hk, Machine.thread_self, Option.some.injEq] at ht
    subst ht hk
    rcases List.mem_cons.mp hjob' with rfl | hrest
    · cases job' with
      | track c' frame =>
          obtain ⟨rfl, hlooks⟩ := htells
          unfold perform at h
          dsimp only at h
          cases htrack : p.state.hub.fSendTracked c' with
          | none =>
              -- The connection is gone, so there is nobody left to tell.
              rw [htrack] at h
              cases h
              unfold Hub.fSendTracked at htrack
              rw [hfind] at htrack
              cases htrack
          | some drawn =>
              obtain ⟨hub, id⟩ := drawn
              obtain ⟨_, hid, _⟩ := Hub.fSendTracked_some htrack
              rw [htrack] at h
              cases h
              exact Or.inl ⟨_, Machine.thread_self _ _ _, .send c' id frame, by simp, rfl,
                ⟨_, hid⟩, hlooks⟩
      | send c' id frame =>
          obtain ⟨rfl, ⟨n, rfl⟩, hlooks⟩ := htells
          unfold perform at h
          dsimp only at h
          rw [dumps_of_looks ha hlooks n] at h
          cases h
          exact Or.inr ⟨frameId n, frame, rfl, hlooks⟩
      | _ => exact htells.elim
    · exact Or.inl ⟨_, Machine.thread_self _ _ _, job', List.mem_append_right _ hrest, htells⟩
  · rw [Machine.thread_other hk (jobs ++ rest)] at ht
    exact Or.inl ⟨t, ht, job', hjob', htells⟩

/-- The notification deals with every registered device of the owner. -/
theorem coming_notify (hne : a.ownerId ≠ []) {returns : Bool}
    (h : perform svc returns i (.notify a) s = (s', jobs)) {c : Nat} {conn : Connection}
    (hfind : s.hub.find c = some conn) (howner : conn.userId = a.ownerId) :
    (∃ connections, s'.log = .notified i a connections :: s.log ∧ (c, conn) ∈ connections ∧
        a.originDevice ≠ [] ∧ conn.device = a.originDevice) ∨
      ∃ job ∈ jobs, job.Tells c a := by
  have hmem := (Hub.lt_of_find hfind).1
  have hannounced := announced_owner hne howner a.paths a.originDevice
  cases h
  by_cases hskip : a.originDevice ≠ [] ∧ conn.device = a.originDevice
  · exact Or.inl ⟨s.hub.connections, rfl, hmem, hskip⟩
  · rw [if_neg hskip] at hannounced
    refine Or.inr ⟨.track c (.changes (if a.paths.length ≤ cMaxPathsPerFrame then a.paths else [])
      ⟨a.ownerId, conn⟩), ?_, rfl, ?_⟩
    · refine List.mem_map.mpr ⟨(c, _), List.mem_filterMap.mpr ⟨(c, conn), hmem, ?_⟩, rfl⟩
      rw [hannounced]
      rfl
    · by_cases hmany : a.paths.length ≤ cMaxPathsPerFrame
      · rw [if_pos hmany]
        exact Or.inr rfl
      · rw [if_neg hmany]
        exact Or.inl rfl

/-- Two ways to split a longer history at an event. -/
theorem append_split {α : Type} {extra log later earlier : List α} {x : α}
    (h : extra ++ log = later ++ x :: earlier) :
    (∃ later', later = extra ++ later' ∧ log = later' ++ x :: earlier) ∨
      ∃ between, extra = later ++ x :: between := by
  rcases List.append_eq_append_iff.mp h with ⟨later', hlater, hlog⟩ | ⟨between, hextra, hrest⟩
  · exact Or.inl ⟨later', hlater, hlog⟩
  · cases between with
    | nil => exact Or.inl ⟨[], by simpa using hextra.symm, by simpa using hrest.symm⟩
    | cons y between =>
        cases hrest
        exact Or.inr ⟨between, hextra⟩

theorem append_single {α : Type} {extra log : List α} {x : α} (h : extra ++ log = x :: log) :
    extra = [x] := by
  have hboth : extra ++ log = [x] ++ log := h
  exact List.append_cancel_right hboth

/-- What the run keeps: a connection belongs to the account it was added for,
and every announced change is handled. -/
structure Delivers (svc : Service ε R) (p : Pool (Sys ε R) (Job R)) : Prop where
  users : Users p.state
  handled : ∀ later i r before earlier a, p.state.log = later ++ .served i r before :: earlier →
    (svc.serve r before).2 = some a → a.ownerId ≠ [] →
    (∀ path ∈ a.paths, validUtf8 path = true) → Handled p i a later

theorem Delivers.enter (hids : FreshIds (ledger p)) (h : Delivers svc p) {e : Entry R}
    (henter : enter svc e p.threads.length p.state = some (s', jobs)) :
    Delivers svc ⟨s', p.threads ++ [jobs]⟩ := by
  obtain ⟨extra, hlog, hserved, hadded⟩ := log_enter henter
  have hold {c : Nat} {userId : Str} {j : Nat} (hmem : .added c userId j ∈ p.state.log) :
      c ≠ p.state.hub.nextConnection := by
    have hlt := hids.added_lt c (List.mem_filterMap.mpr ⟨_, hmem, rfl⟩)
    change c < p.state.hub.nextConnection at hlt
    omega
  refine ⟨h.users.enter (fun c userId j hmem => hids.added_lt c
    (List.mem_filterMap.mpr ⟨_, hmem, rfl⟩)) henter, ?_⟩
  intro later i r before earlier a hsplit ha hne hvalid
  change s'.log = _ at hsplit
  rw [hlog] at hsplit
  rcases append_split hsplit with ⟨later', rfl, hsplit'⟩ | ⟨between, hextra⟩
  · rcases h.handled later' i r before earlier a hsplit' ha hne hvalid with
      ⟨t, ht, hnotify⟩ | hdevices
    · exact Or.inl ⟨t, Machine.thread_enter ht _, hnotify⟩
    · refine Or.inr ?_
      intro c j conn' hmem hfind
      change .added c a.ownerId j ∈ s'.log at hmem
      rw [hlog] at hmem
      rcases List.mem_append.mp hmem with hnew | hmem
      · -- The connection is new: its own `fAdd` will ask it to catch up.
        obtain ⟨rfl, rfl, rfl⟩ := hadded c a.ownerId j hnew
        refine Or.inr (Or.inr (Or.inr ⟨jobs, Machine.thread_new _ _,
          .track p.state.hub.nextConnection .requestChanges, ?_, rfl, trivial⟩))
        cases henter
        rw [if_neg hne]
        exact List.mem_singleton_self _
      · rcases find_enter henter hfind with ⟨conn, hfind', _⟩ | ⟨_, hc, _⟩
        · have hkeep {k : Nat} (hcoming : Coming p.threads k c a) :
              Coming (p.threads ++ [jobs]) k c a := by
            obtain ⟨t, ht, hjob⟩ := hcoming
            exact ⟨t, Machine.thread_enter ht _, hjob⟩
          rcases hdevices c j conn hmem hfind' with hskip | htold | hi | hj
          · exact Or.inl (hskip.mono (fun _ => List.mem_append_right _))
          · exact Or.inr (Or.inl (htold.mono (fun _ => List.mem_append_right _)))
          · exact Or.inr (Or.inr (Or.inl (hkeep hi)))
          · exact Or.inr (Or.inr (Or.inr (hkeep hj)))
        · exact absurd hc (hold hmem)
  · exact absurd (by rw [hextra]; simp) (hserved i r before)

theorem Delivers.perform (h : Delivers svc p) {job : Job R} {before after : List (List (Job R))}
    {rest : List (Job R)} (hthreads : p.threads = before ++ (job :: rest) :: after)
    (hperform : perform svc true before.length job p.state = (s', jobs)) :
    Delivers svc ⟨s', before ++ (jobs ++ rest) :: after⟩ := by
  obtain ⟨extra, hlog, hadded, hserved⟩ := log_perform hperform
  refine ⟨h.users.perform hperform, ?_⟩
  intro later i r env earlier a hsplit ha hne hvalid
  change s'.log = _ at hsplit
  rw [hlog] at hsplit
  rcases append_split hsplit with ⟨later', rfl, hsplit'⟩ | ⟨between, hextra⟩
  · rcases h.handled later' i r env earlier a hsplit' ha hne hvalid with
      ⟨t, ht, hnotify⟩ | hdevices
    · rw [hthreads] at ht
      by_cases hi : i = before.length
      · rw [hi, Machine.thread_self, Option.some.injEq] at ht
        subst ht hi
        rcases List.mem_cons.mp hnotify with rfl | hrest
        · -- The notification looks at the connections now.
          refine Or.inr ?_
          intro c j conn' hmem hfind
          change .added c a.ownerId j ∈ s'.log at hmem
          rw [hlog] at hmem
          have hmem : .added c a.ownerId j ∈ p.state.log := by
            rcases List.mem_append.mp hmem with hnew | hmem
            · exact absurd hnew (hadded c _ j)
            · exact hmem
          obtain ⟨conn, hfind', huser, _⟩ := find_perform hperform hfind
          have howner := h.users c a.ownerId j conn hmem hfind'
          rcases coming_notify hne hperform hfind' howner with
            ⟨connections, hnoted, hin, horigin⟩ | ⟨job, hjob, htells⟩
          · have hextra := append_single (hlog.symm.trans hnoted)
            refine Or.inl ⟨connections, conn, ?_, hin, horigin⟩
            rw [hextra]
            simp
          · exact Or.inr (Or.inr (Or.inl ⟨_, Machine.thread_self _ _ _, job,
              List.mem_append_left _ hjob, htells⟩))
        · exact Or.inl ⟨_, Machine.thread_self _ _ _, List.mem_append_right _ hrest⟩
      · rw [Machine.thread_other hi (jobs ++ rest)] at ht
        exact Or.inl ⟨t, ht, hnotify⟩
    · refine Or.inr ?_
      intro c j conn' hmem hfind
      change .added c a.ownerId j ∈ s'.log at hmem
      rw [hlog] at hmem
      have hmem : .added c a.ownerId j ∈ p.state.log := by
        rcases List.mem_append.mp hmem with hnew | hmem
        · exact absurd hnew (hadded c _ j)
        · exact hmem
      obtain ⟨conn, hfind', _, _⟩ := find_perform hperform hfind
      have hstep {k : Nat} (hcoming : Coming p.threads k c a) :
          Told (extra ++ later') c a ∨ Coming (before ++ (jobs ++ rest) :: after) k c a := by
        rcases coming_perform hvalid hthreads hperform hfind hcoming with
          hahead | ⟨id, frame, hsent, hlooks⟩
        · exact Or.inr hahead
        · have hextra := append_single (hlog.symm.trans hsent)
          refine Or.inl ⟨id, frame, ?_, hlooks⟩
          rw [hextra]
          simp
      rcases hdevices c j conn hmem hfind' with hskip | htold | hi | hj
      · exact Or.inl (hskip.mono (fun _ => List.mem_append_right _))
      · exact Or.inr (Or.inl (htold.mono (fun _ => List.mem_append_right _)))
      · rcases hstep hi with htold | hahead
        · exact Or.inr (Or.inl htold)
        · exact Or.inr (Or.inr (Or.inl hahead))
      · rcases hstep hj with htold | hahead
        · exact Or.inr (Or.inl htold)
        · exact Or.inr (Or.inr (Or.inr hahead))
  · -- The request has just been served: its announcement is next in its thread.
    obtain ⟨rfl, rfl, rfl, hone⟩ := hserved i r env (by rw [hextra]; simp)
    cases hperform
    refine Or.inl ⟨_, Machine.thread_self _ _ _, List.mem_append_left _ ?_⟩
    rw [ha]
    exact List.mem_singleton_self _

end

/-! ## Runs -/

/-- Sends return normally. -/
def Calm : Action (Entry R) Bool → Pool (Sys ε R) (Job R) → Prop
  | .run _ returns, _ => returns = true
  | .enter _, _ => True

theorem Fresh.delivers (svc : Service ε R) {p : Pool (Sys ε R) (Job R)} (hp : Fresh p) :
    Delivers svc p := by
  obtain ⟨_, _, _, hlog⟩ := hp
  refine ⟨?_, ?_⟩
  · intro c userId j conn hmem
    rw [hlog] at hmem
    cases hmem
  · intro later i r before earlier a hsplit
    rw [hlog] at hsplit
    simp at hsplit

/-- **Every announced change is handled, in every run.** -/
theorem delivers_of_reachable {svc : Service ε R} {p : Pool (Sys ε R) (Job R)}
    (hp : Machine.Reachable (machine svc) Calm Fresh p) : Delivers svc p := by
  induction hp with
  | start hfresh => exact hfresh.delivers svc
  | step action hp hcalm hstep ih =>
      have hids := (accounted_of_reachable hp).ids
      rcases Machine.step_cases hstep with ⟨e, s, jobs, rfl, henter, rfl⟩ |
        ⟨before, job, rest, after, returns, s, jobs, rfl, hthreads, hperform, rfl⟩
      · exact ih.enter hids henter
      · obtain rfl : returns = true := hcalm
        exact ih.perform hthreads (Option.some.inj hperform)

/-- A device of the owner that is still there when its own `fAdd` and the
notification are through has been told, unless it was passed over. -/
theorem told_of_done {svc : Service ε R} {p : Pool (Sys ε R) (Job R)}
    (hp : Machine.Reachable (machine svc) Calm Fresh p) {later earlier : List (Event ε R)} {i : Nat}
    {r : R} {before : ε} {a : Announcement}
    (hserved : p.state.log = later ++ .served i r before :: earlier)
    (ha : (svc.serve r before).2 = some a) (hne : a.ownerId ≠ [])
    (hvalid : ∀ path ∈ a.paths, validUtf8 path = true) {c j : Nat} {conn : Connection}
    (hadded : .added c a.ownerId j ∈ p.state.log) (hfind : p.state.hub.find c = some conn)
    (hi : p.Done i) (hj : p.Done j) : Skipped later i c a ∨ Told later c a := by
  have hdone {k : Nat} (hk : p.Done k) : ¬ Coming p.threads k c a := by
    rintro ⟨t, ht, job, hjob, _⟩
    cases (show p.threads[k]? = some [] from hk).symm.trans ht
    cases hjob
  rcases (delivers_of_reachable hp).handled later i r before earlier a hserved ha hne hvalid with
    ⟨t, ht, hnotify⟩ | hdevices
  · cases (show p.threads[i]? = some [] from hi).symm.trans ht
    cases hnotify
  · rcases hdevices c j conn hadded hfind with hskip | htold | hahead | hahead
    · exact Or.inl hskip
    · exact Or.inr htold
    · exact absurd hahead (hdone hi)
    · exact absurd hahead (hdone hj)

/-! ## The server's requests -/

/-- A frame that makes a device look at the file. -/
def Frame.Covers (path : List Str) : Frame → Prop
  | .requestChanges => True
  | .changes paths _ => paths = [] ∨ keyOf path ∈ paths

/-- The files a request changed, its own temporary file aside. -/
def Request.Changed (cfg : Config) (r : Request) (before : Server) (path : List Str) : Prop :=
  ∃ owner m, r.mutation before = some (owner, m) ∧ ¬ m.Temporary path ∧
    ((serve cfg r before).1.workspaces owner).root.fileAt path ≠
      (before.workspaces owner).root.fileAt path

theorem sharedWrite_fixed {caller : Option Str} {s : Server} (hdb : StoredPaths s.db)
    {req : ShareRequest} {a : Access} {content hex : Str}
    (h : sharedWrite caller s req = some (a, content, hex)) :
    fSafeRelPath a.relPath = .ok a.relPath := by
  cases req with
  | putLinkFile token path content' hex' =>
      unfold sharedWrite at h
      obtain ⟨a', ha', hsame⟩ := Option.map_eq_some_iff.mp h
      cases hsame
      cases hres : fResolveLinkAccess s.db token path with
      | error e => simp [hres, Except.toOption] at ha'
      | ok a'' =>
          simp only [hres, Except.toOption, Option.some.injEq] at ha'
          subst ha'
          obtain ⟨row, hrow, _, _, _, _, hpath⟩ := fResolveLinkAccess_ok hres
          exact (fEffectivePath_ok (hdb.links row hrow) hpath).1
  | putSharedFile share path content' hex' =>
      unfold sharedWrite at h
      obtain ⟨a', ha', hsame⟩ := Option.map_eq_some_iff.mp h
      cases hsame
      cases hres : sharedAccess caller share path s with
      | error e => simp [hres, Except.toOption] at ha'
      | ok a'' =>
          simp only [hres, Except.toOption, Option.some.injEq] at ha'
          subst ha'
          obtain ⟨user, _, _, hresolve⟩ := sharedAccess_ok hres
          obtain ⟨row, hrow, _, _, _, _, _, hpath⟩ := fResolveShareAccess_ok hresolve
          exact (fEffectivePath_ok (hdb.shares row hrow) hpath).1
  | _ => cases h

/-- What a request announces covers what it changed. -/
theorem covers_of_looks {cfg : Config} {r : Request} {before : Server} (hdb : StoredPaths before.db)
    {a : Announcement} (ha : (serve cfg r before).2 = some a) {frame : Frame}
    (hlooks : frame.Looks a) {path : List Str} (hchanged : r.Changed cfg before path) :
    frame.Covers path := by
  obtain ⟨m, w, paths, hm, hrun, hpaths, _, hserve⟩ := serve_announces ha
  obtain ⟨owner, m', hm', htemp, hdiffers⟩ := hchanged
  cases hm.symm.trans hm'
  have haccess : ∀ access content hex, m = .writeThrough access content hex →
      fSafeRelPath access.relPath = .ok access.relPath := by
    rintro access content hex rfl
    cases r with
    | share caller req device =>
        unfold Request.mutation at hm
        obtain ⟨⟨a', content', hex'⟩, hwrite, hsame⟩ := Option.map_eq_some_iff.mp hm
        obtain ⟨_, hmutation⟩ := Prod.mk.inj hsame
        cases hmutation
        exact sharedWrite_fixed hdb hwrite
    | _ => cases hm
  rw [hserve, workspaces_setWorkspace, if_pos rfl] at hdiffers
  have hannounced := announced_changes haccess hrun hdiffers htemp
  cases frame with
  | requestChanges => trivial
  | changes listed why =>
      rcases hlooks with hempty | hsame
      · exact Or.inl hempty
      · rw [hpaths] at hsame
        rw [hsame]
        exact hannounced

/-- An owner's own request leaves the tables alone. -/
theorem db_serve_own {cfg : Config} {r : Request} {s : Server}
    (h : ∀ caller req device, r ≠ .share caller req device) : (serve cfg r s).1.db = s.db := by
  have hchange (owner : Str) (m : Mutation) (device : Str) :
      (change cfg.limits owner m device s).1.db = s.db := by
    unfold change
    split <;> rfl
  cases r with
  | share caller req device => exact absurd rfl (h caller req device)
  | _ =>
      unfold serve Request.mutation
      dsimp only
      rw [hchange]

/-- The tables of the server keep storing keys. -/
theorem storedPaths_serve {cfg : Config} {r : Request} {s : Server} (hdb : StoredPaths s.db) :
    StoredPaths (serve cfg r s).1.db := by
  cases r with
  | share caller req device =>
      rw [serve_share]
      exact (effect_of cfg caller req s).storedPaths hdb
  | _ =>
      rw [db_serve_own (by intro caller req device hr; cases hr)]
      exact hdb

/-- The server starts in a reachable state, with nobody connected. -/
def Boots (cfg : Config) (p : Pool (Sys Server Request) (Job Request)) : Prop :=
  Fresh p ∧ Reachable cfg p.state.env

section

variable {cfg : Config} {parse : Str → Option Json} {p : Pool (Sys Server Request) (Job Request)}
  {ok : Action (Entry Request) Bool → Pool (Sys Server Request) (Job Request) → Prop}

/-- Along a run, every server a request found stored keys. -/
theorem stored_of_reachable
    (hp : Machine.Reachable (machine (service cfg parse)) ok (Boots cfg) p) :
    StoredPaths p.state.env.db ∧
      ∀ i r before, .served i r before ∈ p.state.log → StoredPaths before.db := by
  apply hp.invariant (I := fun p => StoredPaths p.state.env.db ∧
    ∀ i r before, .served i r before ∈ p.state.log → StoredPaths before.db)
  · intro p hboots
    refine ⟨(reachable_inv hboots.2).1, ?_⟩
    intro i r before hserved
    rw [hboots.1.2.2.2] at hserved
    cases hserved
  · intro action p p' h _ hstep
    rcases Machine.step_cases hstep with ⟨e, s, jobs, rfl, henter, rfl⟩ |
      ⟨before, job, rest, after, returns, s, jobs, rfl, hthreads, hperform, rfl⟩
    · obtain ⟨extra, hlog, hnone, _⟩ := log_enter henter
      dsimp only
      refine ⟨env_enter henter ▸ h.1, ?_⟩
      intro i r before hserved
      rw [hlog] at hserved
      rcases List.mem_append.mp hserved with hnew | hold
      · exact absurd hnew (hnone i r before)
      · exact h.2 i r before hold
    · obtain ⟨extra, hlog, _, hone⟩ := log_perform (Option.some.inj hperform)
      dsimp only
      refine ⟨?_, ?_⟩
      · rcases env_perform (Option.some.inj hperform) with hsame | ⟨r, _, henv⟩
        · rw [hsame]
          exact h.1
        · rw [henv]
          exact storedPaths_serve h.1
      · intro i r env hserved
        rw [hlog] at hserved
        rcases List.mem_append.mp hserved with hnew | hold
        · obtain ⟨_, _, rfl, _⟩ := hone i r env hnew
          exact h.1
        · exact h.2 i r env hold

end

/-- **No lost update for the owner's devices.**  Take any run in which sends
return normally.  Once a request has changed a workspace, with valid paths, and
returned from its notification, every device of the owner that is still
registered, whose own `fAdd` has returned, and that the notification did not see
as the device the request named, has been sent since the change a frame that
makes it look at every changed file. -/
theorem no_lost_update (cfg : Config) (parse : Str → Option Json)
    (p : Pool (Sys Server Request) (Job Request))
    (hp : Machine.Reachable (machine (service cfg parse)) Calm (Boots cfg) p)
    (i : Nat) (r : Request) (before : Server) (later earlier : List (Event Server Request))
    (hserved : p.state.log = later ++ .served i r before :: earlier)
    (owner : Str) (m : Mutation) (paths : List Str)
    (hmutation : r.mutation before = some (owner, m))
    (hsuccess : (m.run cfg.limits (before.workspaces owner)).2 = .ok paths)
    (hvalid : ∀ path ∈ paths, validUtf8 path = true)
    (c j : Nat) (conn : Connection) (hne : owner ≠ [])
    (hadded : .added c owner j ∈ p.state.log) (hfind : p.state.hub.find c = some conn)
    (hi : p.Done i) (hj : p.Done j)
    (horigin : ∀ connections seen, .notified i ⟨owner, paths, r.device⟩ connections ∈ later →
      (c, seen) ∈ connections → ¬ (r.device ≠ [] ∧ seen.device = r.device)) :
    ∃ id frame, .sent c id frame ∈ later ∧
      ∀ path, r.Changed cfg before path → frame.Covers path := by
  have hfresh := hp.mono (fun _ _ h => h) (fun _ h => h.1)
  have hdb := (stored_of_reachable hp).2 i r before (by rw [hserved]; simp)
  have hannounced := announces_of_run hmutation hsuccess
  rcases told_of_done hfresh hserved hannounced hne hvalid hadded hfind hi hj with
    ⟨connections, seen, hnotified, hseen, hnamed, hdevice⟩ | ⟨id, frame, hsent, hlooks⟩
  · exact absurd ⟨hnamed, hdevice⟩ (horigin connections seen hnotified hseen)
  · exact ⟨id, frame, hsent, fun path hchanged => covers_of_looks hdb hannounced hlooks hchanged⟩

/-! ### A run -/

/-- Ann's device connects and is asked to catch up; then Ann writes a file. -/
def annWrites : List (Action (Entry Request) Bool) :=
  [.enter (.connect (str "ann")), .run 0 true, .run 0 true, .run 0 true,
    .enter (.request (.putFile (str "ann") (str "a.mdp") (str "one") (str "00") (str "phone"))),
    .run 1 true, .run 1 true, .run 1 true, .run 1 true, .run 1 true]

def plainService : Service Server Request := service plainConfig (fun _ => none)

def atRest : Pool (Sys Server Request) (Job Request) := ⟨⟨sharedDocs, Hub.start, [], []⟩, []⟩

def annWrote : Pool (Sys Server Request) (Job Request) :=
  ((machine plainService).exec annWrites atRest).getD atRest

/-- Actions all of whose sends return. -/
theorem calm_of_all {as : List (Action (Entry Request) Bool)}
    (hall : as.all (fun a => match a with
      | .run _ returns => returns
      | .enter _ => true) = true) {a : Action (Entry Request) Bool} (ha : a ∈ as)
    (p : Pool (Sys Server Request) (Job Request)) : Calm a p := by
  have hthis := List.all_eq_true.mp hall a ha
  cases a with
  | enter e => trivial
  | run i returns => exact hthis

theorem boots_atRest : Boots plainConfig atRest := ⟨⟨rfl, rfl, rfl, rfl⟩, reachable_sharedDocs⟩

theorem reachable_annWrote :
    Machine.Reachable (machine plainService) Calm (Boots plainConfig) annWrote := by
  refine Machine.Reachable.exec_getD ?_ (.start boots_atRest) (by decide +kernel)
  exact fun a p ha => calm_of_all (by decide) ha p

/-- The event serves, in thread 1, a write to `a.mdp` that changes the file and
is announced to Ann's devices. -/
def servesAnn : Event Server Request → Bool
  | .served i (.putFile user path content hex device) before =>
      let r := Request.putFile user path content hex device
      i = 1 && user = str "ann" && path = str "a.mdp" && device = str "phone" &&
        (serve plainConfig r before).2 = some ⟨str "ann", [str "a.mdp"], str "phone"⟩ &&
        ((serve plainConfig r before).1.workspaces user).root.fileAt [str "a.mdp"] ≠
          (before.workspaces user).root.fileAt [str "a.mdp"]
  | _ => false

/-- The event adds Ann's device in thread 0. -/
def addsAnn : Event Server Request → Bool
  | .added c userId j => c = 1 && userId = str "ann" && j = 0
  | _ => false

/-- No connection the event saw has a device name. -/
def nameless : Event Server Request → Bool
  | .notified _ _ connections => connections.all (fun entry => entry.2.device = [])
  | _ => true

theorem annWrote_checks : annWrote.state.log.any servesAnn = true ∧
    annWrote.state.log.any addsAnn = true ∧ annWrote.state.log.all nameless = true ∧
    (annWrote.state.hub.find 1).isSome = true ∧ annWrote.threads.map List.length = [0, 0] := by
  decide +kernel

/-- A thread of length zero is done. -/
theorem done_of_length {σ J : Type} {p : Pool σ J} {i : Nat}
    (h : (p.threads.map List.length)[i]? = some 0) : p.Done i := by
  rw [List.getElem?_map] at h
  obtain ⟨t, ht, hlength⟩ := Option.map_eq_some_iff.mp h
  unfold Pool.Done
  rw [ht, List.length_eq_zero_iff.mp hlength]

/-- Ann's device has been sent a frame that makes it look at the new file. -/
theorem no_lost_update_annWrote :
    ∃ id frame, .sent 1 id frame ∈ annWrote.state.log ∧ frame.Covers [str "a.mdp"] := by
  obtain ⟨hserves, hadds, hnameless, hthere, hdone⟩ := annWrote_checks
  have hreachable := reachable_annWrote
  generalize annWrote = p at *
  obtain ⟨served, hmem, hserves⟩ := List.any_eq_true.mp hserves
  obtain ⟨added, hadded, hadds⟩ := List.any_eq_true.mp hadds
  obtain ⟨conn, hfind⟩ := Option.isSome_iff_exists.mp hthere
  obtain ⟨later, earlier, hsplit⟩ := List.append_of_mem hmem
  have hlater {e : Event Server Request} (he : e ∈ later) : e ∈ p.state.log := by
    rw [hsplit]
    exact List.mem_append_left _ he
  cases added with
  | added c userId j =>
      simp only [addsAnn, Bool.and_eq_true, decide_eq_true_eq] at hadds
      obtain ⟨⟨rfl, rfl⟩, rfl⟩ := hadds
      cases served with
      | served i r before =>
          cases r with
          | putFile user path content hex device =>
              simp only [servesAnn, Bool.and_eq_true, decide_eq_true_eq] at hserves
              obtain ⟨⟨⟨⟨⟨rfl, rfl⟩, rfl⟩, rfl⟩, hsuccess⟩, hchanged⟩ := hserves
              obtain ⟨m, w, paths, hmutation, hrun, rfl, -, -⟩ := serve_announces hsuccess
              have hvalid : ∀ path ∈ [str "a.mdp"], validUtf8 path = true := by
                intro path hpath
                rw [List.mem_singleton.mp hpath]
                exact validUtf8_of_ascii (by decide +kernel)
              have horigin : ∀ connections seen,
                  .notified 1 ⟨str "ann", [str "a.mdp"], str "phone"⟩ connections ∈ later →
                  (1, seen) ∈ connections →
                    ¬ (str "phone" ≠ [] ∧ seen.device = str "phone") := by
                rintro connections seen hnotified hseen ⟨-, hdevice⟩
                have hall := List.all_eq_true.mp hnameless _ (hlater hnotified)
                have hnone := List.all_eq_true.mp hall _ hseen
                rw [decide_eq_true_eq.mp hnone] at hdevice
                cases hdevice
              have hkey : fSafeRelPath (str "a.mdp") = .ok (str "a.mdp") := by decide
              have hpath : pathOf (str "a.mdp") = [str "a.mdp"] := by decide
              obtain ⟨id, frame, hsent, hcovers⟩ := no_lost_update plainConfig (fun _ => none) p
                hreachable 1 _ before later earlier hsplit (str "ann") m _ hmutation
                (congrArg Prod.snd hrun) hvalid 1 0 conn (by decide) hadded hfind
                (done_of_length (by rw [hdone]; rfl)) (done_of_length (by rw [hdone]; rfl)) horigin
              refine ⟨id, frame, hlater hsent, hcovers _ ⟨_, _, rfl, ?_, hchanged⟩⟩
              rintro ⟨rel, hrel, htemp⟩
              cases hkey.symm.trans hrel
              rw [hpath] at htemp
              exact tempPath_ne _ _ htemp.symm
          | _ => cases hserves
      | _ => cases hserves
  | _ => cases hadds

end Lectern.Sync
