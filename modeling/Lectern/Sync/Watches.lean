import Lectern.Sync.Frames
import Lectern.Sync.Notification

/-!
# What a connection follows

A watch or unwatch frame of a connection is decided once: the resolver refuses
the watch, or what the frame was granted (nothing, for an unwatch) is to be
followed from then on.  As long as no watch is refused while the connection
follows something, what it follows is what the last decision says, however the
frames are interleaved with each other and with the rest of the hub.  A refusal
leaves the old watch in place, and that is all that goes wrong.
-/

namespace Lectern.Sync

open Threads

variable {ε R : Type}

/-! ## Decisions -/

/-- What became of a watch or unwatch frame, with the state it was decided in. -/
structure Decision (ε R : Type) where
  found : Sys ε R
  verdict : Verdict
  frame : Json

/-- What the last of a thread's steps decides about its frame. -/
def ruling (svc : Service ε R) (c : Nat) (frame : Json) (earlier : List (Look ε R))
    (last : Look ε R) : Option Verdict :=
  match verdict svc c frame earlier with
  | none => verdict svc c frame (earlier ++ [last])
  | some _ => none

/-- What a step of thread `i` decides, when the thread received a frame of
connection `c`. -/
def decision (svc : Service ε R) (c i : Nat) (earlier : List (Nat × Moment ε R))
    (last : Look ε R) : Option (Decision ε R) :=
  match heard i earlier with
  | none => none
  | some (c', text) =>
      if c' = c then
        (svc.parse text).bind (fun frame =>
          (ruling svc c frame (looks i earlier) last).map
            (fun verdict => ⟨last.found, verdict, frame⟩))
      else none

/-- **The decisions about the frames of connection `c`**, the latest first. -/
def decisions (svc : Service ε R) (c : Nat) : List (Nat × Moment ε R) → List (Decision ε R)
  | [] => []
  | (_, .received _ _) :: earlier => decisions svc c earlier
  | (i, .stepped last) :: earlier =>
      (decision svc c i earlier last).toList ++ decisions svc c earlier

/-- What the last decision lets the connection follow. -/
def followed : List (Decision ε R) → List Watch
  | [] => []
  | d :: _ =>
      match d.verdict with
      | .follows (some (owner, path)) => [⟨owner, path, d.frame⟩]
      | .follows none => []
      | .refused => []

/-- A watch of `c` was refused only while `c` followed nothing. -/
def RefusedIdle (c : Nat) (ds : List (Decision ε R)) : Prop :=
  ∀ d ∈ ds, d.verdict = .refused → ∀ conn ∈ d.found.hub.find c, conn.watches.length = 0

/-- The connection has been added at some time. -/
def Added (log : List (Event ε R)) (c : Nat) : Prop := ∃ userId thread, .added c userId thread ∈ log

theorem Added.append {log : List (Event ε R)} {c : Nat} (h : Added log c)
    (extra : List (Event ε R)) : Added (extra ++ log) c := by
  obtain ⟨userId, thread, hadded⟩ := h
  exact ⟨userId, thread, List.mem_append_right _ hadded⟩

/-- A registered connection has been added. -/
theorem added_of_find {p : Pool (Sys ε R) (Job R)} (h : Accounted (ledger p)) {c : Nat}
    {conn : Connection} (hfind : p.state.hub.find c = some conn) : Added p.state.log c := by
  have hregistered := (h.log.open_iff c).mp ⟨_, unanswered_of_find hfind⟩
  obtain ⟨e, he, userId, thread, rfl⟩ := hregistered.exists
  exact ⟨userId, thread, he⟩

/-! ## What a step decides -/

variable {svc : Service ε R} {s s' : Sys ε R} {i : Nat} {jobs : List (Job R)} {c : Nat}
  {text : Str} {steps : List (Look ε R)} {job : Job R} {rest : List (Job R)}

/-- Nothing is decided twice. -/
theorem ruling_of_verdict {frame : Json} {v : Verdict} (h : verdict svc c frame steps = some v)
    (last : Look ε R) : ruling svc c frame steps last = none := by
  unfold ruling
  rw [h]

/-- A frame that follows nothing is not decided about. -/
theorem ruling_other {frame : Json}
    (htype : frame.fStringField (str "type") ∈ [str "hello", str "ping", str "changes"])
    (steps : List (Look ε R)) (last : Look ε R) : ruling svc c frame steps last = none := by
  have hnamed (type : Str) (hne : type ≠ [])
      (hnot : type ∉ [str "hello", str "ping", str "changes"]) : namedType frame ≠ some type := by
    intro hsome
    rw [(namedType_eq_some_iff hne).mp hsome] at htype
    exact hnot htype
  have hnone (steps : List (Look ε R)) : verdict svc c frame steps = none :=
    verdict_other steps (hnamed _ (by decide) (by decide)) (hnamed _ (by decide) (by decide))
  unfold ruling
  rw [hnone, hnone]

/-- The step that installs a watch decides about it. -/
theorem Installing.ruling {frame : Json} {target : Option (Str × Str)}
    (h : Installing svc c frame target steps) (last : Look ε R) :
    ruling svc c frame steps last =
      if (last.found.hub.find c).isSome then some (.follows target) else none := by
  have hnone : Sync.verdict svc c frame steps = none := by
    have hverdict := h.verdict []
    rwa [List.append_nil] at hverdict
  unfold Sync.ruling
  rw [hnone, h.verdict]
  rfl

/-- What doing a job decides: asking the resolver decides a refusal, following
decides what is followed, and nothing else decides. -/
inductive Rules (svc : Service ε R) (c : Nat) (frame : Json) (last : Look ε R) :
    Job R → Option Verdict → Prop
  | asks (userId : Str) :
      Rules svc c frame last (.resolve c userId frame)
        (if svc.resolve last.found.env userId frame = none then some .refused else none)
  | follows (target : Option (Str × Str)) :
      Rules svc c frame last (.follow c target frame)
        (if (last.found.hub.find c).isSome then some (.follows target) else none)
  | quiet {job : Job R} (hjob : ∀ c' target frame', job ≠ .follow c' target frame') :
      Rules svc c frame last job none

/-- **What a step decides** is what its job decides. -/
theorem Handling.rules (h : Handling svc c text steps (job :: rest)) (last : Look ε R) :
    ∃ frame, svc.parse text = some frame ∧
      Rules svc c frame last job (ruling svc c frame steps last) := by
  have hreply {frame : Json} (kind : Reply) (id : Str)
      (hnone : ruling svc c frame steps last = none) :
      Rules svc c frame last (.reply c kind id) (ruling svc c frame steps last) := by
    rw [hnone]
    exact .quiet (fun _ _ _ hfollow => nomatch hfollow)
  generalize hleft : job :: rest = left at h
  cases h with
  | start frame hparse =>
      cases hleft
      have hnone : ruling svc c frame [] last = none := by
        change verdict svc c frame [last] = none
        exact verdict_first last
      refine ⟨frame, hparse, ?_⟩
      rw [hnone]
      exact .quiet (fun _ _ _ hfollow => nomatch hfollow)
  | found frame hparse hfound =>
      refine ⟨frame, hparse, ?_⟩
      obtain ⟨rfl, ⟨_, htype, rfl⟩ | ⟨htype, rfl⟩ | ⟨htype, rfl⟩⟩ := afterHandle_eq hleft.symm
      · exact hreply .ack _ (ruling_other htype _ last)
      · rename_i conn first
        have hnamed := (namedType_eq_some_iff (by decide)).mpr htype
        have hruling : ruling svc c frame [first] last =
            if svc.resolve last.found.env conn.userId frame = none then some .refused
            else none := by
          unfold ruling
          rw [verdict_first]
          dsimp only
          rw [List.singleton_append, verdict_watch [] hfound.1 hnamed]
          cases svc.resolve last.found.env conn.userId frame with
          | none => rfl
          | some target => rfl
        rw [hruling]
        exact .asks conn.userId
      · rw [(Installing.unwatch htype hfound).ruling last]
        exact .follows none
  | refused frame hparse htype hfound hrefused hquiet =>
      obtain ⟨_, rfl, _⟩ := answer_eq hleft.symm
      have hnamed := (namedType_eq_some_iff (by decide)).mpr htype
      refine ⟨frame, hparse, hreply .nack _ (ruling_of_verdict (v := .refused) ?_ last)⟩
      rw [verdict_watch [] hfound.1 hnamed, hrefused]
  | granted frame hparse hinstalling =>
      cases hleft
      refine ⟨frame, hparse, ?_⟩
      rw [hinstalling.ruling last]
      exact .follows _
  | updated frame hparse hacking =>
      obtain ⟨_, rfl, _⟩ := answer_eq hleft.symm
      refine ⟨frame, hparse, hreply .ack _ ?_⟩
      cases hacking with
      | heard htype hfound => exact ruling_other htype _ last
      | @installed target _ _ h hthere _ =>
          refine ruling_of_verdict (v := .follows target) ?_ last
          rw [h.verdict]
          exact if_pos hthere
  | _ => cases hleft

/-! ## What the run keeps -/

/-- The connection follows what the last decision says, and no step found a
connection registered that was never added. -/
structure Follows (svc : Service ε R) (c : Nat) (p : Pool (Sys ε R) (Job R))
    (trace : List (Nat × Moment ε R)) : Prop where
  watches : ∀ conn, p.state.hub.find c = some conn →
    conn.watches = followed (decisions svc c trace)
  added : ∀ i look, (i, .stepped look) ∈ trace → ∀ conn, look.found.hub.find c = some conn →
    Added p.state.log c

variable {p : Pool (Sys ε R) (Job R)} {trace : List (Nat × Moment ε R)}

/-- Where something was decided, the connection had been found. -/
theorem find_of_verdict {frame : Json} {v : Verdict} (h : verdict svc c frame steps = some v) :
    ∃ first ∈ steps, ∃ conn, first.found.hub.find c = some conn := by
  unfold verdict at h
  split at h
  · cases h
  · rename_i first later
    split at h
    · cases h
    · rename_i conn hfind
      exact ⟨first, List.mem_cons_self, conn, hfind⟩

theorem mem_of_looks {look : Look ε R} (h : look ∈ looks i trace) : (i, .stepped look) ∈ trace := by
  obtain ⟨⟨j, moment⟩, hmem, hlook⟩ := List.mem_filterMap.mp (List.mem_reverse.mp h)
  cases moment with
  | received c text => cases hlook
  | stepped look' =>
      change (if j = i then some look' else none) = some look at hlook
      split at hlook
      · rename_i hi
        cases hlook
        exact hi ▸ hmem
      · cases hlook

/-- A decision was made about a connection some step had found. -/
theorem find_of_decision {last : Look ε R} {d : Decision ε R}
    (h : decision svc c i trace last = some d) :
    ∃ look ∈ looks i trace ++ [last], ∃ conn, look.found.hub.find c = some conn := by
  unfold decision at h
  split at h
  · cases h
  · split at h
    · obtain ⟨frame, _, hruling⟩ := Option.bind_eq_some_iff.mp h
      obtain ⟨verdict, hverdict, _⟩ := Option.map_eq_some_iff.mp hruling
      unfold ruling at hverdict
      split at hverdict
      · exact find_of_verdict hverdict
      · cases hverdict
    · cases h

theorem decisions_eq_nil (h : ∀ i look, (i, .stepped look) ∈ trace →
    look.found.hub.find c = none) : decisions svc c trace = [] := by
  induction trace with
  | nil => rfl
  | cons n earlier ih =>
      have hrest := ih (fun i look hmem => h i look (List.mem_cons_of_mem _ hmem))
      obtain ⟨i, moment⟩ := n
      cases moment with
      | received c' text => exact hrest
      | stepped last =>
          cases hdecision : decision svc c i earlier last with
          | none =>
              unfold decisions
              rw [hdecision, hrest]
              rfl
          | some d =>
              obtain ⟨look, hlook, conn, hfind⟩ := find_of_decision hdecision
              have hmem : (i, Moment.stepped look) ∈ (i, .stepped last) :: earlier := by
                rcases List.mem_append.mp hlook with hold | hnew
                · exact List.mem_cons_of_mem _ (mem_of_looks hold)
                · rw [List.mem_singleton.mp hnew]
                  exact List.mem_cons_self
              rw [h i look hmem] at hfind
              cases hfind

theorem decisions_enter (svc : Service ε R) (c : Nat) (e : Entry R)
    (p : Pool (Sys ε R) (Job R)) (trace : List (Nat × Moment ε R)) :
    decisions svc c (observe svc (.enter e) p ++ trace) = decisions svc c trace := by
  cases e <;> rfl

theorem Follows.enter (hids : FreshIds (ledger p)) (h : Follows svc c p trace) {e : Entry R}
    (henter : enter svc e p.threads.length p.state = some (s', jobs)) :
    Follows svc c ⟨s', p.threads ++ [jobs]⟩ (observe svc (.enter e) p ++ trace) := by
  obtain ⟨extra, hlog, _, _⟩ := log_enter henter
  refine ⟨?_, ?_⟩
  · intro conn' hfind
    rw [decisions_enter]
    rcases find_enter henter hfind with ⟨conn, hfind', _, hsame⟩ | ⟨_, hnew, hnone⟩
    · rw [hsame]
      exact h.watches conn hfind'
    · -- The connection is new, so no step has found it and nothing was decided about it.
      rw [hnone, decisions_eq_nil]
      · rfl
      · intro i look hmem
        cases hold : look.found.hub.find c with
        | none => rfl
        | some conn =>
            obtain ⟨userId, thread, hadded⟩ := h.added i look hmem conn hold
            have hlt := hids.added_lt c (List.mem_filterMap.mpr ⟨_, hadded, rfl⟩)
            change c < p.state.hub.nextConnection at hlt
            omega
  · intro i look hmem conn hfind
    have hold : (i, .stepped look) ∈ trace := by
      rcases List.mem_append.mp hmem with hnew | hold
      · cases e <;> simp [observe] at hnew
      · exact hold
    have hadded := h.added i look hold conn hfind
    change Added s'.log c
    rw [hlog]
    exact hadded.append extra

/-- The decision of a step whose thread received a frame of `c`. -/
theorem decision_of_heard (hheard : heard i trace = some (c, text)) {frame : Json}
    (hparse : svc.parse text = some frame) (last : Look ε R) :
    decision svc c i trace last =
      (ruling svc c frame (looks i trace) last).map (fun v => ⟨last.found, v, frame⟩) := by
  unfold decision
  rw [hheard]
  dsimp only
  rw [if_pos rfl, hparse, Option.bind_some]

/-- Installing a watch leaves that one only. -/
theorem watches_follow {target : Option (Str × Str)} {frame : Json} {returns : Bool}
    (hperform : perform svc returns i (.follow c target frame) s = (s', jobs))
    {conn conn' : Connection} (hfind : s.hub.find c = some conn)
    (hfind' : s'.hub.find c = some conn') : conn'.watches = Hub.installed target frame := by
  unfold perform at hperform
  simp only [hfind] at hperform
  cases hperform
  change (s.hub.follow c target frame).find c = some conn' at hfind'
  unfold Hub.follow at hfind'
  rw [Hub.find_update, if_pos rfl, hfind, Option.map_some, Option.some.injEq] at hfind'
  rw [← hfind']

theorem followed_follows (s : Sys ε R) (target : Option (Str × Str)) (frame : Json)
    (ds : List (Decision ε R)) :
    followed (⟨s, .follows target, frame⟩ :: ds) = Hub.installed target frame := by
  cases target <;> rfl

/-- **A step of a thread of `c`** leaves the connection following what the last
decision says. -/
theorem Rules.followed {frame : Json} {conn conn' : Connection} {returns : Bool} {last : Look ε R}
    {v : Option Verdict} (h : Rules svc c frame last job v) (hfound : last.found = s)
    (hperform : perform svc returns i job s = (s', jobs)) (hfind' : s'.hub.find c = some conn')
    (hfind : s.hub.find c = some conn) (hrewatched : Rewatched job c conn conn')
    {ds : List (Decision ε R)} (hold : conn.watches = followed ds)
    (hidle : v = some .refused → conn.watches.length = 0) :
    conn'.watches = Sync.followed ((v.map (fun v => ⟨last.found, v, frame⟩)).toList ++ ds) := by
  cases h with
  | asks userId =>
      have hsame : conn'.watches = conn.watches := by
        rcases hrewatched with hsame | ⟨_, _, hfollow, _⟩
        · exact hsame
        · cases hfollow
      rw [hsame]
      by_cases hrefused : svc.resolve last.found.env userId frame = none
      · rw [if_pos hrefused] at hidle ⊢
        exact List.length_eq_zero_iff.mp (hidle rfl)
      · rw [if_neg hrefused]
        exact hold
  | follows target =>
      have hthere : (last.found.hub.find c).isSome = true := by
        rw [hfound, hfind]
        rfl
      rw [if_pos hthere, watches_follow hperform hfind hfind']
      exact (followed_follows _ target frame ds).symm
  | quiet hjob =>
      rcases hrewatched with hsame | ⟨target, frame', hfollow, _⟩
      · rw [hsame]
        exact hold
      · exact absurd hfollow (hjob c target frame')

/-- A watch is installed by a thread of its own connection. -/
theorem Handling.follow {c' : Nat} {target : Option (Str × Str)} {frame : Json}
    (h : Handling svc c text steps (.follow c' target frame :: rest)) (last : Look ε R) :
    c' = c := by
  obtain ⟨frame', _, hrules⟩ := h.rules last
  generalize ruling svc c frame' steps last = v at hrules
  cases hrules with
  | follows => rfl
  | quiet hjob => exact absurd rfl (hjob c' target frame)

theorem heard_of_received (h : (i, .received c text) ∈ trace) :
    ∃ c' text', heard i trace = some (c', text') := by
  have hmem : (c, text) ∈ trace.filterMap (textOf i) :=
    List.mem_filterMap.mpr ⟨(i, .received c text), h, if_pos rfl⟩
  unfold heard
  cases hlist : trace.filterMap (textOf i) with
  | nil =>
      rw [hlist] at hmem
      cases hmem
  | cons first _ => exact ⟨first.1, first.2, rfl⟩

theorem Follows.perform (hkept : Accounted (ledger p)) (hattending : Attending svc p trace)
    (h : Follows svc c p trace) {before after : List (List (Job R))} {returns : Bool}
    (hthreads : p.threads = before ++ (job :: rest) :: after)
    (hperform : perform svc returns before.length job p.state = (s', jobs))
    (hidle : RefusedIdle c (decisions svc c
      ((before.length, .stepped (p.state.look s' returns)) :: trace))) :
    Follows svc c ⟨s', before ++ (jobs ++ rest) :: after⟩
      ((before.length, .stepped (p.state.look s' returns)) :: trace) := by
  obtain ⟨extra, hlog, _, _⟩ := log_perform hperform
  have hself : p.threads[before.length]? = some (job :: rest) := by
    rw [hthreads]
    exact Machine.thread_self _ _ _
  have hadded (hold : Added p.state.log c) : Added s'.log c := by
    rw [hlog]
    exact hold.append extra
  have hstage {c' : Nat} {text : Str} (hheard : heard before.length trace = some (c', text)) :
      Handling svc c' text (looks before.length trace) (job :: rest) := by
    obtain ⟨left, hthread, hstage⟩ := hattending.stages _ c' text (received_of_heard hheard)
    cases hself.symm.trans hthread
    exact hstage
  unfold decisions at hidle
  refine ⟨?_, ?_⟩
  · intro conn' hfind'
    obtain ⟨conn, hfind, _, hrewatched⟩ := find_perform hperform hfind'
    have hold := h.watches conn hfind
    unfold decisions
    by_cases hmine : ∃ text, heard before.length trace = some (c, text)
    · obtain ⟨text, hheard⟩ := hmine
      obtain ⟨frame, hparse, hrules⟩ := (hstage hheard).rules (p.state.look s' returns)
      rw [decision_of_heard hheard hparse] at hidle ⊢
      refine hrules.followed rfl hperform hfind' hfind hrewatched hold ?_
      intro hrefused
      rw [hrefused] at hidle
      exact hidle ⟨p.state, .refused, frame⟩ List.mem_cons_self rfl conn hfind
    · have hnone : decision svc c before.length trace (p.state.look s' returns) = none := by
        unfold decision
        split
        · rfl
        · rename_i c' text hheard
          have hother : c' ≠ c := by
            rintro rfl
            exact hmine ⟨text, hheard⟩
          exact if_neg hother
      rw [hnone]
      rcases hrewatched with hsame | ⟨target, frame, rfl, _⟩
      · rw [hsame]
        exact hold
      · -- A thread that installs a watch of `c` received a frame of `c`.
        obtain ⟨c₁, text₁, hreceived⟩ :=
          hattending.handles _ _ hself _ List.mem_cons_self trivial
        obtain ⟨c', text, hheard⟩ := heard_of_received hreceived
        have hc := (hstage hheard).follow (p.state.look s' returns)
        exact absurd ⟨text, hc ▸ hheard⟩ hmine
  · intro i look hmem conn hfind
    rcases List.mem_cons.mp hmem with hsame | hold
    · cases hsame
      exact hadded (added_of_find hkept hfind)
    · exact hadded (h.added i look hold conn hfind)

/-- A connection that follows nothing is told of no change but in its own
account's workspace. -/
theorem announced_idle {conn : Connection} (hidle : conn.watches = []) {ownerId : Str}
    (hother : ¬ conn.Owns ownerId) (paths : List Str) (originDevice : Str) :
    announced conn ownerId paths originDevice = none := by
  have hone : conn.watches.length ≤ 1 := by
    rw [hidle]
    exact Nat.zero_le 1
  have hnone : paths.filter (conn.covers ownerId) = [] := by
    rw [List.filter_eq_nil_iff]
    intro path _
    simp [Connection.covers, hidle]
  rw [announced_eq_due hone]
  unfold due
  rw [if_pos (show ¬ conn.Owns ownerId ∧ paths.filter (conn.covers ownerId) = [] from
    ⟨hother, hnone⟩), ite_self]

/-- **Every run** in which a watch of `c` is refused only while `c` follows nothing
keeps to the last decision. -/
theorem follows_of_observed
    (hp : Machine.Observed (machine svc) (observe svc) (fun _ _ => True) Fresh p trace)
    (hidle : RefusedIdle c (decisions svc c trace)) : Follows svc c p trace := by
  have hboth : Attending svc p trace ∧
      (RefusedIdle c (decisions svc c trace) → Follows svc c p trace) := by
    apply hp.invariant
    · intro p hfresh
      refine ⟨attending_of_observed (fun _ h => h) (.start hfresh), fun _ => ⟨?_, ?_⟩⟩
      · intro conn hfind
        rw [hfresh.2.1] at hfind
        cases hfind
      · intro i look hmem
        cases hmem
    · intro a p p' trace hreachable ⟨hattending, h⟩ _ hstep
      have hkept := accounted_of_reachable hreachable
      rcases Machine.step_cases hstep with ⟨e, s, jobs, rfl, henter, rfl⟩ |
        ⟨before, job, rest, after, returns, s, jobs, rfl, hthreads, hperform, rfl⟩
      · refine ⟨hattending.enter henter, fun hidle => ?_⟩
        rw [decisions_enter] at hidle
        exact (h hidle).enter hkept.ids henter
      · have hperform := Option.some.inj hperform
        refine ⟨hattending.perform hthreads hperform, fun hidle => ?_⟩
        rw [observe_run hthreads hperform] at hidle ⊢
        have hearlier : RefusedIdle c (decisions svc c trace) :=
          fun d hd => hidle d (List.mem_append_right _ hd)
        exact (h hearlier).perform hkept hattending hthreads hperform hidle
  exact hboth.2 hidle

/-! ## Every watch and unwatch is decided -/

/-- A thread receives one text, and what becomes of its frame is among the
decisions. -/
structure Settled (svc : Service ε R) (c : Nat) (trace : List (Nat × Moment ε R)) : Prop where
  heard : ∀ i c' text, (i, .received c' text) ∈ trace → heard i trace = some (c', text)
  decided : ∀ i text frame v, (i, .received c text) ∈ trace → svc.parse text = some frame →
    verdict svc c frame (looks i trace) = some v →
    ∃ d ∈ decisions svc c trace, d.verdict = v ∧ d.frame = frame

theorem Settled.enter (hattending : Attending svc p trace) (h : Settled svc c trace)
    (e : Entry R) : Settled svc c (observe svc (.enter e) p ++ trace) := by
  cases e with
  | message c' text =>
      have hother {i c₁ : Nat} {text₁ : Str} (hold : (i, .received c₁ text₁) ∈ trace) :
          p.threads.length ≠ i := by
        have hlt := hattending.started _ hold
        exact (Nat.ne_of_lt hlt).symm
      refine ⟨?_, ?_⟩
      · intro i c₁ text₁ hmem
        rcases List.mem_cons.mp hmem with hsame | hold
        · cases hsame
          exact heard_received _ _ _ _
        · exact (heard_other (hother hold) _ _).trans (h.heard i c₁ text₁ hold)
      · intro i text₁ frame v hmem hparse hverdict
        rcases List.mem_cons.mp hmem with hsame | hold
        · cases hsame
          change verdict svc c frame (looks p.threads.length trace) = some v at hverdict
          rw [looks_fresh hattending.started] at hverdict
          cases hverdict
        · exact h.decided i text₁ frame v hold hparse hverdict
  | _ => exact h

theorem Settled.stepped (h : Settled svc c trace) (j : Nat) (last : Look ε R) :
    Settled svc c ((j, .stepped last) :: trace) := by
  have hreceived {i c' : Nat} {text : Str}
      (hmem : (i, .received c' text) ∈ (j, Moment.stepped last) :: trace) :
      (i, .received c' text) ∈ trace := by
    rcases List.mem_cons.mp hmem with hsame | hold
    · cases hsame
    · exact hold
  refine ⟨?_, ?_⟩
  · intro i c' text hmem
    rw [heard_stepped]
    exact h.heard i c' text (hreceived hmem)
  · intro i text frame v hmem hparse hverdict
    have hold := hreceived hmem
    have hearlier (hbefore : verdict svc c frame (looks i trace) = some v) :
        ∃ d ∈ decisions svc c ((j, .stepped last) :: trace), d.verdict = v ∧ d.frame = frame := by
      obtain ⟨d, hd, hboth⟩ := h.decided i text frame v hold hparse hbefore
      exact ⟨d, List.mem_append_right _ hd, hboth⟩
    by_cases hi : j = i
    · subst hi
      rw [looks_self] at hverdict
      cases hbefore : verdict svc c frame (looks j trace) with
      | some v' =>
          rw [verdict_append hbefore] at hverdict
          exact hearlier (hbefore.trans hverdict)
      | none =>
          -- This step decides.
          have hruling : ruling svc c frame (looks j trace) last = some v := by
            unfold ruling
            rw [hbefore]
            exact hverdict
          have hdecision := decision_of_heard (h.heard j c text hold) hparse last
          rw [hruling, Option.map_some] at hdecision
          refine ⟨⟨last.found, v, frame⟩, ?_, rfl, rfl⟩
          unfold decisions
          rw [hdecision]
          exact List.mem_cons_self
    · rw [looks_other hi] at hverdict
      exact hearlier hverdict

theorem settled_of_observed {start : Pool (Sys ε R) (Job R) → Prop}
    (hstart : ∀ p, start p → Fresh p)
    (hp : Machine.Observed (machine svc) (observe svc) (fun _ _ => True) start p trace) :
    Attending svc p trace ∧ Settled svc c trace := by
  apply hp.invariant
  · intro p hp
    refine ⟨attending_of_observed hstart (.start hp), ?_, ?_⟩
    · intro i c' text hmem
      cases hmem
    · intro i text frame v hmem
      cases hmem
  · rintro a p p' trace _ ⟨hattending, h⟩ _ hstep
    rcases Machine.step_cases hstep with ⟨e, s, jobs, rfl, henter, rfl⟩ |
      ⟨before, job, rest, after, returns, s, jobs, rfl, hthreads, hperform, rfl⟩
    · exact ⟨hattending.enter henter, h.enter hattending e⟩
    · have hperform := Option.some.inj hperform
      refine ⟨hattending.perform hthreads hperform, ?_⟩
      rw [observe_run hthreads hperform]
      exact h.stepped _ _

/-- A thread that is done with a watch or an unwatch has found out what becomes of
it, if it found the connection registered all the time. -/
theorem Handling.decided {frame : Json} (h : Handling svc c text steps [])
    (hparse : svc.parse text = some frame) (hobject : frame.isObject = true)
    (htype : namedType frame = some (str "watch") ∨ namedType frame = some (str "unwatch"))
    (hthere : ∀ look ∈ steps, (look.found.hub.find c).isSome = true) :
    ∃ v, verdict svc c frame steps = some v := by
  have hasks : frame.fStringField (str "type") = str "watch" ∨
      frame.fStringField (str "type") = str "unwatch" :=
    htype.imp (namedType_eq_some_iff (by decide)).mp (namedType_eq_some_iff (by decide)).mp
  have hlost {look : Look ε R} (hmem : look ∈ steps) (hnone : look.found.hub.find c = none) :
      False := by
    have hsome := hthere look hmem
    rw [hnone] at hsome
    cases hsome
  have hacked {frame' : Json} {steps' : List (Look ε R)}
      (hparse' : svc.parse text = some frame') (hacking : Acking svc c frame' steps') :
      ∃ v, verdict svc c frame steps' = some v := by
    cases hparse.symm.trans hparse'
    cases hacking with
    | heard hother hfound =>
        rcases hasks with hwatch | hunwatch
        · exact absurd hother (by rw [hwatch]; decide)
        · exact absurd hother (by rw [hunwatch]; decide)
    | @installed target _ last hinstalling hlast _ =>
        refine ⟨.follows target, ?_⟩
        rw [hinstalling.verdict]
        exact if_pos hlast
  have hrefusal {conn : Connection} {first second : Look ε R} (hfound : Found c conn first)
      (htype' : frame.fStringField (str "type") = str "watch")
      (hrefused : svc.resolve second.found.env conn.userId frame = none)
      (later : List (Look ε R)) :
      ∃ v, verdict svc c frame (first :: second :: later) = some v := by
    have hwatch := (namedType_eq_some_iff (by decide)).mpr htype'
    refine ⟨.refused, ?_⟩
    rw [verdict_watch later hfound.1 hwatch, hrefused]
  generalize hleft : ([] : List (Job R)) = left at h
  cases h with
  | ignored hnot =>
      rw [hnot frame hparse] at hobject
      cases hobject
  | missing frame' hparse' hnone _ => exact (hlost List.mem_cons_self hnone).elim
  | found frame' hparse' hfound =>
      cases hparse.symm.trans hparse'
      unfold afterHandle at hleft
      dsimp only at hleft
      rcases hasks with hwatch | hunwatch
      · rw [hwatch, if_neg (by decide), if_neg (by decide), if_pos rfl] at hleft
        cases hleft
      · rw [hunwatch, if_neg (by decide), if_neg (by decide), if_neg (by decide),
          if_pos rfl] at hleft
        cases hleft
  | refused frame' hparse' htype' hfound hrefused _ =>
      cases hparse.symm.trans hparse'
      exact hrefusal hfound htype' hrefused []
  | gone frame' hparse' hinstalling hgone _ =>
      exact (hlost (List.mem_append_right _ List.mem_cons_self) hgone).elim
  | updated frame' hparse' hacking => exact hacked hparse' hacking
  | acked frame' hparse' _ hacking _ =>
      obtain ⟨v, hverdict⟩ := hacked hparse' hacking
      exact ⟨v, verdict_append hverdict _⟩
  | nacked frame' hparse' _ htype' hfound hrefused _ _ =>
      cases hparse.symm.trans hparse'
      exact hrefusal hfound htype' hrefused _
  | _ => cases hleft

/-- **The last decision says what is followed.**  Take any run in which a watch
of connection `c` is refused only while `c` follows nothing.  At every moment, as
long as `c` is registered, it follows at most one path, the one granted to the
last watch or unwatch frame that was decided; when that frame was granted
nothing, a notification tells `c` of changes in its own account's workspace only;
and every watch or unwatch frame is decided by the end of its thread, if the
thread found `c` registered all the time. -/
theorem follows_last_decision (svc : Service ε R) (c : Nat) (p : Pool (Sys ε R) (Job R))
    (trace : List (Nat × Moment ε R))
    (hp : Machine.Observed (machine svc) (observe svc) (fun _ _ => True) Fresh p trace)
    (hidle : RefusedIdle c (decisions svc c trace))
    (conn : Connection) (hfind : p.state.hub.find c = some conn) :
    conn.watches = followed (decisions svc c trace) ∧ conn.watches.length ≤ 1 ∧
      (followed (decisions svc c trace) = [] →
        ∀ ownerId paths originDevice, ¬ conn.Owns ownerId →
          announced conn ownerId paths originDevice = none) ∧
      ∀ i text frame, (i, .received c text) ∈ trace → svc.parse text = some frame →
        frame.isObject = true →
        namedType frame = some (str "watch") ∨ namedType frame = some (str "unwatch") →
        p.Done i → (∀ look ∈ looks i trace, (look.found.hub.find c).isSome = true) →
        ∃ d ∈ decisions svc c trace, d.frame = frame ∧
          verdict svc c frame (looks i trace) = some d.verdict := by
  have hfollows := follows_of_observed hp hidle
  have hwatches := hfollows.watches conn hfind
  have hrun : Run svc p := hp.reachable.mono (fun _ _ _ => trivial) (fun _ hfresh => hfresh)
  refine ⟨hwatches, one_watch hrun c conn hfind, ?_, ?_⟩
  · intro hnone ownerId paths originDevice hother
    exact announced_idle (hwatches.trans hnone) hother paths originDevice
  · intro i text frame hreceived hparse hobject htype hdone hthere
    obtain ⟨hattending, hsettled⟩ := settled_of_observed (c := c) (fun _ h => h) hp
    obtain ⟨left, hthread, hstage⟩ := hattending.stages i c text hreceived
    cases hdone.symm.trans hthread
    obtain ⟨v, hverdict⟩ := hstage.decided hparse hobject htype hthere
    obtain ⟨d, hd, rfl, rfl⟩ := hsettled.decided i text frame v hreceived hparse hverdict
    exact ⟨d, hd, rfl, hverdict⟩

/-! ### Bob watches one file, then asks for another -/

/-- `"type":"watch"` for a share that is not there, between braces. -/
def strayText : Str :=
  str "\x7b\"id\":\"w2\",\"path\":\"x.mdp\",\"share\":\"s9\",\"type\":\"watch\"\x7d"

def strayFrame : Json :=
  .object [(str "id", .string (str "w2")), (str "path", .string (str "x.mdp")),
    (str "share", .string (str "s9")), (str "type", .string (str "watch"))]

def strayService : Service Server Request :=
  service plainConfig (fun text =>
    if text = watchText then some watchFrame
    else if text = strayText then some strayFrame
    else none)

/-- Bob is refused while he follows nothing, then granted a file. -/
def bobFollows : Pool (Sys Server Request) (Job Request) × List (Nat × Moment Server Request) :=
  ((machine strayService).execSeen (observe strayService) (fun _ _ => True)
    ([.enter (.connect (str "bob")), .enter (.message 1 strayText), .run 1 true, .run 1 true,
      .run 1 true, .enter (.message 1 watchText), .run 2 true, .run 2 true, .run 2 true])
    atRest []).getD (atRest, [])

/-- He follows what he was granted. -/
theorem follows_last_decision_bobFollows :
    ∃ conn, bobFollows.1.state.hub.find 1 = some conn ∧
      (decisions strayService 1 bobFollows.2).map Decision.verdict =
        [.follows (some (str "ann", str "docs/x.mdp")), .refused] ∧
      conn.watches.length = 1 ∧
      conn.watches = followed (decisions strayService 1 bobFollows.2) := by
  have hchecks : (bobFollows.1.state.hub.find 1).any (fun conn => conn.watches.length = 1) = true ∧
      (decisions strayService 1 bobFollows.2).map Decision.verdict =
        [.follows (some (str "ann", str "docs/x.mdp")), .refused] ∧
      (decisions strayService 1 bobFollows.2).all (fun d =>
        (d.found.hub.find 1).all (fun conn => conn.watches.length = 0)) = true := by
    decide +kernel
  have hobserved : Machine.Observed (machine strayService) (observe strayService)
      (fun _ _ => True) Fresh bobFollows.1 bobFollows.2 :=
    Machine.Observed.execSeen_getD (.start ⟨rfl, rfl, rfl, rfl⟩)
  generalize bobFollows = run at *
  obtain ⟨hfind, hverdicts, hall⟩ := hchecks
  obtain ⟨conn, hfind, hone⟩ := (Option.any_eq_true _ _).mp hfind
  have hidle : RefusedIdle 1 (decisions strayService 1 run.2) := by
    intro d hd _ conn hconn
    have hthis := List.all_eq_true.mp hall d hd
    rw [Option.mem_def.mp hconn] at hthis
    exact of_decide_eq_true hthis
  exact ⟨conn, hfind, hverdicts, of_decide_eq_true hone,
    (follows_last_decision strayService 1 run.1 run.2 hobserved hidle conn hfind).1⟩

/-- Bob is granted a file, then refused. -/
def bobClings : Pool (Sys Server Request) (Job Request) × List (Nat × Moment Server Request) :=
  ((machine strayService).execSeen (observe strayService) (fun _ _ => True)
    (bobWatches ++ [.enter (.message 1 strayText), .run 2 true, .run 2 true, .run 2 true])
    atRest []).getD (atRest, [])

/-- **After a refusal Bob still follows the file he was granted before.** -/
theorem refused_still_follows :
    ¬ ∀ p trace, Machine.Observed (machine strayService) (observe strayService)
        (fun _ _ => True) (Boots plainConfig) p trace →
      ∀ conn, p.state.hub.find 1 = some conn →
        conn.watches = followed (decisions strayService 1 trace) := by
  intro hall
  have hobserved : Machine.Observed (machine strayService) (observe strayService)
      (fun _ _ => True) (Boots plainConfig) bobClings.1 bobClings.2 :=
    Machine.Observed.execSeen_getD (.start boots_atRest)
  have hchecks : (bobClings.1.state.hub.find 1).any (fun conn => conn.watches.length = 1) = true ∧
      (followed (decisions strayService 1 bobClings.2)).length = 0 := by
    decide +kernel
  obtain ⟨conn, hfind, hone⟩ := (Option.any_eq_true _ _).mp hchecks.1
  have hsame := hall _ _ hobserved conn hfind
  rw [decide_eq_true_eq, hsame, hchecks.2] at hone
  cases hone

end Lectern.Sync
