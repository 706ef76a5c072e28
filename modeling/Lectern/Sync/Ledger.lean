import Lectern.Sync.Machine
import Mathlib.Logic.Function.Basic

/-!
# The account of unanswered frames

What acknowledgements and timers are about, without the rest of the hub: for
each open connection the frames it has not answered, the timers, and how many
timers are about to be scheduled and peers about to be closed.  `Move` lists
what can happen to this account, and `move_of_step` shows that every step of
the hub is one of these moves.
-/

namespace Lectern.Sync

open Threads

variable {ε R : Type}

/-! ## The abstract account -/

structure Ledger (ε R : Type) where
  unanswered : Nat → Option (Finset Str)
  nextConnection : Nat
  nextFrame : Nat
  timers : List (Nat × Str)
  log : List (Event ε R)
  scheduling : Nat → Str → Nat
  closing : Nat → Nat

/-- Events the account does not depend on. -/
def Event.Quiet : Event ε R → Prop
  | .sent _ _ _ => True
  | .replied _ _ _ => True
  | .served _ _ _ => True
  | .notified _ _ _ => True
  | _ => False

/-- What can happen to the account. -/
inductive Move (l : Ledger ε R) : Ledger ε R → Prop
  | still : Move l l
  | quiet (e : Event ε R) (he : e.Quiet) : Move l { l with log := e :: l.log }
  | connect (userId : Str) (thread : Nat) :
      Move l { l with
        unanswered := Function.update l.unanswered l.nextConnection (some ∅)
        nextConnection := l.nextConnection + 1
        log := .added l.nextConnection userId thread :: l.log }
  | remove (c : Nat) :
      Move l { l with
        unanswered := Function.update l.unanswered c none
        log := .removed c :: l.log }
  | ack (c : Nat) (id : Str) (frames : Finset Str) (hopen : l.unanswered c = some frames) :
      Move l { l with
        unanswered := Function.update l.unanswered c (some (frames.erase id))
        log := .acked c id :: l.log }
  | track (c : Nat) (frames : Finset Str) (hopen : l.unanswered c = some frames)
      (scheduling : Nat → Str → Nat)
      (hscheduling : ∀ c' id', scheduling c' id' =
        l.scheduling c' id' + if c' = c ∧ id' = frameId l.nextFrame then 1 else 0) :
      Move l { l with
        unanswered := Function.update l.unanswered c (some (insert (frameId l.nextFrame) frames))
        nextFrame := l.nextFrame + 1
        log := .issued c (frameId l.nextFrame) :: l.log
        scheduling := scheduling }
  | schedule (c : Nat) (id : Str) (scheduling : Nat → Str → Nat)
      (hscheduling : ∀ c' id', l.scheduling c' id' =
        scheduling c' id' + if c' = c ∧ id' = id then 1 else 0) :
      Move l { l with timers := (c, id) :: l.timers, scheduling := scheduling }
  | expire (c : Nat) (id : Str) (frames : Finset Str) (htimer : (c, id) ∈ l.timers)
      (hopen : l.unanswered c = some frames) (hid : id ∈ frames) (closing : Nat → Nat)
      (hclosing : ∀ c', closing c' = l.closing c' + if c' = c then 1 else 0) :
      Move l { l with
        unanswered := Function.update l.unanswered c none
        timers := l.timers.erase (c, id)
        log := .dropped c :: .fired c id :: l.log
        closing := closing }
  | stale (c : Nat) (id : Str) (htimer : (c, id) ∈ l.timers)
      (hanswered : ∀ frames, l.unanswered c = some frames → id ∉ frames) :
      Move l { l with timers := l.timers.erase (c, id), log := .fired c id :: l.log }
  | close (c : Nat) (closing : Nat → Nat)
      (hclosing : ∀ c', l.closing c' = closing c' + if c' = c then 1 else 0) :
      Move l { l with log := .closed c :: l.log, closing := closing }

/-! ## The account of the hub -/

def Hub.unanswered (h : Hub) (c : Nat) : Option (Finset Str) :=
  (h.find c).map Connection.pending

/-- The job schedules the timer of this frame. -/
def Job.schedules (c : Nat) (id : Str) : Job R → Bool
  | .schedule c' id' => c' = c && id' = id
  | _ => false

/-- The job closes this peer. -/
def Job.closes (c : Nat) : Job R → Bool
  | .close c' => c' = c
  | _ => false

def ledger (p : Pool (Sys ε R) (Job R)) : Ledger ε R where
  unanswered := p.state.hub.unanswered
  nextConnection := p.state.hub.nextConnection
  nextFrame := p.state.hub.nextFrame
  timers := p.state.timers
  log := p.state.log
  scheduling c id := p.jobs.countP (Job.schedules c id)
  closing c := p.jobs.countP (Job.closes c)

theorem unanswered_of_find {p : Pool (Sys ε R) (Job R)} {c : Nat} {conn : Connection}
    (hfind : p.state.hub.find c = some conn) : (ledger p).unanswered c = some conn.pending := by
  show (p.state.hub.find c).map Connection.pending = _
  rw [hfind]
  rfl

theorem unanswered_fAdd (h : Hub) (userId : Str) :
    (h.fAdd userId).unanswered = Function.update h.unanswered h.nextConnection (some ∅) := by
  funext c
  unfold Hub.unanswered
  rw [Hub.find_fAdd, Function.update_apply]
  by_cases hc : c = h.nextConnection
  · rw [if_pos hc, if_pos hc]
    rfl
  · rw [if_neg hc, if_neg hc]

theorem unanswered_erase (h : Hub) (c : Nat) :
    (h.erase c).unanswered = Function.update h.unanswered c none := by
  funext c'
  unfold Hub.unanswered
  rw [Hub.find_erase, Function.update_apply]
  by_cases hc : c' = c
  · rw [if_pos hc, if_pos hc]
    rfl
  · rw [if_neg hc, if_neg hc]

theorem unanswered_update (h : Hub) (c : Nat) (f : Connection → Connection) {conn : Connection}
    (hfind : h.find c = some conn) :
    (h.update c f).unanswered = Function.update h.unanswered c (some (f conn).pending) := by
  funext c'
  unfold Hub.unanswered
  rw [Hub.find_update, Function.update_apply]
  by_cases hc : c' = c
  · rw [if_pos hc, if_pos hc, hc, hfind]
    rfl
  · rw [if_neg hc, if_neg hc]

/-- Updates that leave the pending set alone. -/
theorem unanswered_update_same (h : Hub) (c : Nat) {f : Connection → Connection}
    (hf : ∀ conn, (f conn).pending = conn.pending) : (h.update c f).unanswered = h.unanswered := by
  funext c'
  unfold Hub.unanswered
  rw [Hub.find_update]
  by_cases hc : c' = c
  · rw [if_pos hc, Option.map_map]
    congr 1
    funext conn
    exact hf conn
  · rw [if_neg hc]

/-! ## Every step is a move -/

section

variable {svc : Service ε R} {p : Pool (Sys ε R) (Job R)}

theorem countP_answer (q : Job R → Bool) (hq : ∀ c kind id, q (.reply c kind id) = false) (c : Nat)
    (kind : Reply) (frame : Json) : (answer c kind frame).countP q = 0 := by
  unfold answer
  dsimp only
  split
  · rfl
  · simp [hq]

theorem countP_afterHandle (q : Job R → Bool) (hreply : ∀ c kind id, q (.reply c kind id) = false)
    (hresolve : ∀ c userId frame, q (.resolve c userId frame) = false)
    (hfollow : ∀ c target frame, q (.follow c target frame) = false) (c : Nat) (userId : Str)
    (frame : Json) : (afterHandle c userId frame).countP q = 0 := by
  unfold afterHandle
  dsimp only
  split
  · rfl
  · split
    · exact countP_answer q hreply c .ack frame
    · split
      · simp [hresolve]
      · split
        · simp [hfollow]
        · rfl

/-- Reach the account of a pool by a move, field by field. -/
theorem Move.reach {l l' : Ledger ε R} (h : Move l l') {p' : Pool (Sys ε R) (Job R)}
    (hunanswered : p'.state.hub.unanswered = l'.unanswered)
    (hconnection : p'.state.hub.nextConnection = l'.nextConnection)
    (hframe : p'.state.hub.nextFrame = l'.nextFrame) (htimers : p'.state.timers = l'.timers)
    (hlog : p'.state.log = l'.log)
    (hscheduling : ∀ c id, p'.jobs.countP (Job.schedules c id) = l'.scheduling c id)
    (hclosing : ∀ c, p'.jobs.countP (Job.closes c) = l'.closing c) : Move l (ledger p') := by
  have hsame : ledger p' = l' := by
    unfold ledger
    rw [hunanswered, hconnection, hframe, htimers, hlog]
    simp only [hscheduling, hclosing]
  rw [hsame]
  exact h

/-- Jobs that neither schedule a timer nor close a peer. -/
def Plain (jobs : List (Job R)) : Prop :=
  (∀ c id, jobs.countP (Job.schedules c id) = 0) ∧ ∀ c, jobs.countP (Job.closes c) = 0

theorem plain_answer (c : Nat) (kind : Reply) (frame : Json) :
    Plain (answer (R := R) c kind frame) :=
  ⟨fun _ _ => countP_answer _ (fun _ _ _ => rfl) _ _ _,
    fun _ => countP_answer _ (fun _ _ _ => rfl) _ _ _⟩

theorem plain_afterHandle (c : Nat) (userId : Str) (frame : Json) :
    Plain (afterHandle (R := R) c userId frame) :=
  ⟨fun _ _ => countP_afterHandle _ (fun _ _ _ => rfl) (fun _ _ _ => rfl) (fun _ _ _ => rfl) _ _ _,
    fun _ => countP_afterHandle _ (fun _ _ _ => rfl) (fun _ _ _ => rfl) (fun _ _ _ => rfl) _ _ _⟩

theorem plain_nil : Plain ([] : List (Job R)) := ⟨fun _ _ => rfl, fun _ => rfl⟩

/-- A thread of plain jobs leaves the two counts. -/
theorem Move.enter {l' : Ledger ε R} (h : Move (ledger p) l') {s : Sys ε R} {jobs : List (Job R)}
    (hplain : Plain jobs)
    (hunanswered : s.hub.unanswered = l'.unanswered)
    (hconnection : s.hub.nextConnection = l'.nextConnection)
    (hframe : s.hub.nextFrame = l'.nextFrame) (htimers : s.timers = l'.timers)
    (hlog : s.log = l'.log) (hscheduling : l'.scheduling = (ledger p).scheduling)
    (hclosing : l'.closing = (ledger p).closing) :
    Move (ledger p) (ledger ⟨s, p.threads ++ [jobs]⟩) := by
  apply h.reach hunanswered hconnection hframe htimers hlog
  · intro c id
    rw [Machine.countP_enter, hplain.1, hscheduling]
    rfl
  · intro c
    rw [Machine.countP_enter, hplain.2, hclosing]
    rfl

/-- So does a plain job with plain successors. -/
theorem Move.perform {l' : Ledger ε R} (h : Move (ledger p) l') {s : Sys ε R} {job : Job R}
    {before after : List (List (Job R))} {rest jobs : List (Job R)}
    (hthreads : p.threads = before ++ (job :: rest) :: after)
    (hjob : Plain [job]) (hplain : Plain jobs)
    (hunanswered : s.hub.unanswered = l'.unanswered)
    (hconnection : s.hub.nextConnection = l'.nextConnection)
    (hframe : s.hub.nextFrame = l'.nextFrame) (htimers : s.timers = l'.timers)
    (hlog : s.log = l'.log) (hscheduling : l'.scheduling = (ledger p).scheduling)
    (hclosing : l'.closing = (ledger p).closing) :
    Move (ledger p) (ledger ⟨s, before ++ (jobs ++ rest) :: after⟩) := by
  apply h.reach hunanswered hconnection hframe htimers hlog
  · intro c id
    have hcount := Machine.countP_run (Job.schedules c id) hthreads s jobs
    rw [hjob.1, hplain.1] at hcount
    rw [hscheduling]
    exact hcount
  · intro c
    have hcount := Machine.countP_run (Job.closes c) hthreads s jobs
    rw [hjob.2, hplain.2] at hcount
    rw [hclosing]
    exact hcount

/-- Starting a thread is a move. -/
theorem move_of_enter {e : Entry R} {i : Nat} {s : Sys ε R} {jobs : List (Job R)}
    (h : enter svc e i p.state = some (s, jobs)) :
    Move (ledger p) (ledger ⟨s, p.threads ++ [jobs]⟩) := by
  cases e with
  | connect userId =>
      have hplain : Plain (R := R) (if userId = [] then []
          else [.track p.state.hub.nextConnection .requestChanges]) := by
        split
        · exact plain_nil
        · exact ⟨fun _ _ => rfl, fun _ => rfl⟩
      cases h
      exact (Move.connect userId i).enter hplain (unanswered_fAdd _ _) rfl rfl rfl rfl rfl rfl
  | disconnect c =>
      cases h
      exact (Move.remove c).enter plain_nil (unanswered_erase _ _) rfl rfl rfl rfl rfl rfl
  | message c text =>
      have hplain (frame : Json) :
          Plain (R := R) (if frame.isObject then [.handle c frame] else []) := by
        split
        · exact ⟨fun _ _ => rfl, fun _ => rfl⟩
        · exact plain_nil
      unfold enter at h
      dsimp only at h
      cases hparse : svc.parse text with
      | none =>
          rw [hparse] at h
          cases h
          exact Move.still.enter plain_nil rfl rfl rfl rfl rfl rfl rfl
      | some frame =>
          rw [hparse] at h
          cases h
          exact Move.still.enter (hplain frame) rfl rfl rfl rfl rfl rfl rfl
  | fire c id =>
      unfold enter at h
      dsimp only at h
      by_cases htimer : (c, id) ∈ p.state.timers
      · rw [if_pos htimer] at h
        cases hexpire : p.state.hub.fExpire c id with
        | none =>
            have hanswered : ∀ frames, (ledger p).unanswered c = some frames → id ∉ frames := by
              intro frames hopen
              obtain ⟨conn, hfind, rfl⟩ := Option.map_eq_some_iff.mp hopen
              exact Hub.fExpire_none hexpire hfind
            simp only [Sys.note, hexpire] at h
            cases h
            exact (Move.stale c id htimer hanswered).enter plain_nil rfl rfl rfl rfl rfl rfl rfl
        | some hub =>
            obtain ⟨⟨conn, hfind, hid⟩, rfl⟩ := Hub.fExpire_some hexpire
            have hopen := unanswered_of_find hfind
            have hclosing (c' : Nat) : (ledger p).closing c' + [Job.close (R := R) c].countP
                (Job.closes c') = (ledger p).closing c' + if c' = c then 1 else 0 := by
              by_cases hc : c' = c
              · simp [Job.closes, hc]
              · simp [Job.closes, hc, Ne.symm hc]
            simp only [Sys.note, hexpire] at h
            cases h
            refine (Move.expire c id conn.pending htimer hopen hid _ hclosing).reach
              (unanswered_erase _ _) rfl rfl rfl rfl ?_ ?_
            · intro c' id'
              rw [Machine.countP_enter]
              rfl
            · intro c'
              rw [Machine.countP_enter]
              rfl
      · rw [if_neg htimer] at h
        cases h
  | request r =>
      cases h
      exact Move.still.enter ⟨fun _ _ => rfl, fun _ => rfl⟩ rfl rfl rfl rfl rfl rfl rfl

theorem unanswered_fHandle {h : Hub} {c : Nat} {conn : Connection} (frame : Json)
    (hfind : h.find c = some conn) :
    (h.fHandle c frame).unanswered =
      if frame.fStringField (str "type") = str "ack" then
        Function.update h.unanswered c
          (some (conn.pending.erase (frame.fStringField (str "id"))))
      else h.unanswered := by
  unfold Hub.fHandle
  dsimp only
  by_cases hack : frame.fStringField (str "type") = str "ack"
  · rw [if_pos hack, if_pos hack, unanswered_update _ _ _ hfind]
  · rw [if_neg hack, if_neg hack]
    split
    · exact unanswered_update_same _ _ (fun _ => rfl)
    · rfl

/-- A frame changes neither counter. -/
theorem counters_fHandle (h : Hub) (c : Nat) (frame : Json) :
    (h.fHandle c frame).nextConnection = h.nextConnection ∧
      (h.fHandle c frame).nextFrame = h.nextFrame := by
  unfold Hub.fHandle
  dsimp only
  split
  · exact ⟨rfl, rfl⟩
  · split
    · exact ⟨rfl, rfl⟩
    · exact ⟨rfl, rfl⟩

theorem plain_singleton {job : Job R} (hschedules : ∀ c id, job.schedules c id = false)
    (hcloses : ∀ c, job.closes c = false) : Plain [job] := by
  refine ⟨fun c id => ?_, fun c => ?_⟩
  · simp [hschedules]
  · simp [hcloses]

theorem plain_notify (targets : List (Nat × Frame)) :
    Plain (targets.map (fun entry => Job.track (R := R) entry.1 entry.2)) := by
  refine ⟨fun c id => ?_, fun c => ?_⟩
  · rw [List.countP_map, List.countP_eq_zero]
    intro entry _
    simp [Job.schedules]
  · rw [List.countP_map, List.countP_eq_zero]
    intro entry _
    simp [Job.closes]

/-- A frame is handled. -/
theorem move_of_handle {c : Nat} {frame : Json} {before after : List (List (Job R))}
    {rest jobs : List (Job R)} {s : Sys ε R} {returns : Bool}
    (hthreads : p.threads = before ++ (.handle c frame :: rest) :: after)
    (h : perform svc returns before.length (.handle c frame) p.state = (s, jobs)) :
    Move (ledger p) (ledger ⟨s, before ++ (jobs ++ rest) :: after⟩) := by
  have hjob : Plain [Job.handle (R := R) c frame] :=
    plain_singleton (fun _ _ => rfl) (fun _ => rfl)
  unfold perform at h
  dsimp only at h
  cases hfind : p.state.hub.find c with
  | none =>
      rw [hfind] at h
      cases h
      exact Move.still.perform hthreads hjob plain_nil rfl rfl rfl rfl rfl rfl rfl
  | some conn =>
      obtain ⟨hconnection, hframe⟩ := counters_fHandle p.state.hub c frame
      have hplain := plain_afterHandle (R := R) c conn.userId frame
      have hopen := unanswered_of_find hfind
      have hunanswered := unanswered_fHandle frame hfind
      rw [hfind] at h
      by_cases hack : frame.fStringField (str "type") = str "ack"
      · rw [if_pos hack] at hunanswered
        simp only [if_pos hack] at h
        cases h
        exact (Move.ack c _ conn.pending hopen).perform hthreads hjob hplain hunanswered
          hconnection hframe rfl rfl rfl rfl
      · rw [if_neg hack] at hunanswered
        simp only [if_neg hack] at h
        cases h
        exact Move.still.perform hthreads hjob hplain hunanswered hconnection hframe rfl rfl rfl rfl

/-- A tracked frame draws an id. -/
theorem move_of_track {c : Nat} {frame : Frame} {before after : List (List (Job R))}
    {rest jobs : List (Job R)} {s : Sys ε R} {returns : Bool}
    (hthreads : p.threads = before ++ (.track c frame :: rest) :: after)
    (h : perform svc returns before.length (.track c frame) p.state = (s, jobs)) :
    Move (ledger p) (ledger ⟨s, before ++ (jobs ++ rest) :: after⟩) := by
  have hjob : Plain [Job.track (R := R) c frame] :=
    plain_singleton (fun _ _ => rfl) (fun _ => rfl)
  unfold perform at h
  dsimp only at h
  cases htrack : p.state.hub.fSendTracked c with
  | none =>
      rw [htrack] at h
      cases h
      exact Move.still.perform hthreads hjob plain_nil rfl rfl rfl rfl rfl rfl rfl
  | some drawn =>
      obtain ⟨hub, id⟩ := drawn
      obtain ⟨⟨conn, hfind⟩, hid, hframe, hconnection, hfinds⟩ := Hub.fSendTracked_some htrack
      have hopen := unanswered_of_find hfind
      have hunanswered : hub.unanswered =
          Function.update p.state.hub.unanswered c (some (insert id conn.pending)) := by
        funext c'
        unfold Hub.unanswered
        rw [hfinds, Function.update_apply]
        by_cases hc : c' = c
        · rw [if_pos hc, if_pos hc, hc, hfind]
          rfl
        · rw [if_neg hc, if_neg hc]
      rw [htrack] at h
      cases h
      subst hid
      have hscheduling (c' : Nat) (id' : Str) :
          (ledger p).scheduling c' id' + [Job.send (R := R) c (frameId p.state.hub.nextFrame) frame,
            .schedule c (frameId p.state.hub.nextFrame)].countP (Job.schedules c' id') =
          (ledger p).scheduling c' id' +
            if c' = c ∧ id' = frameId (ledger p).nextFrame then 1 else 0 := by
        have hnext : (ledger p).nextFrame = p.state.hub.nextFrame := rfl
        rw [hnext]
        by_cases hc : c' = c ∧ id' = frameId p.state.hub.nextFrame
        · simp [Job.schedules, hc.1, hc.2]
        · rw [if_neg hc]
          have hno : ¬ (c = c' ∧ frameId p.state.hub.nextFrame = id') :=
            fun h => hc ⟨h.1.symm, h.2.symm⟩
          simp [Job.schedules, hno]
      refine (Move.track c conn.pending hopen _ hscheduling).reach hunanswered hconnection hframe
        rfl rfl ?_ ?_
      · intro c' id'
        have hcount := Machine.countP_run (Job.schedules c' id') hthreads
          ((p.state.setHub hub).note (.issued c (frameId p.state.hub.nextFrame)))
          [.send c (frameId p.state.hub.nextFrame) frame,
            .schedule c (frameId p.state.hub.nextFrame)]
        rw [hjob.1] at hcount
        exact hcount
      · intro c'
        have hcount := Machine.countP_run (Job.closes c') hthreads
          ((p.state.setHub hub).note (.issued c (frameId p.state.hub.nextFrame)))
          [.send c (frameId p.state.hub.nextFrame) frame,
            .schedule c (frameId p.state.hub.nextFrame)]
        rw [hjob.2] at hcount
        exact hcount

/-- A timer is scheduled. -/
theorem move_of_schedule {c : Nat} {id : Str} {before after : List (List (Job R))}
    {rest : List (Job R)}
    (hthreads : p.threads = before ++ (.schedule c id :: rest) :: after) :
    Move (ledger p) (ledger ⟨{ p.state with timers := (c, id) :: p.state.timers },
      before ++ ([] ++ rest) :: after⟩) := by
  have hcount (c' : Nat) (id' : Str) := Machine.countP_run (Job.schedules c' id') hthreads
    { p.state with timers := (c, id) :: p.state.timers } []
  have hone (c' : Nat) (id' : Str) : [Job.schedule (R := R) c id].countP (Job.schedules c' id') =
      if c' = c ∧ id' = id then 1 else 0 := by
    by_cases hc : c' = c ∧ id' = id
    · simp [Job.schedules, hc.1, hc.2]
    · rw [if_neg hc]
      have hno : ¬ (c = c' ∧ id = id') := fun h => hc ⟨h.1.symm, h.2.symm⟩
      simp [Job.schedules, hno]
  refine (Move.schedule c id (fun c' id' => List.countP (Job.schedules c' id')
    (Pool.mk _ (before ++ ([] ++ rest) :: after)).jobs) ?_).reach rfl rfl rfl rfl rfl
    (fun c' id' => rfl) ?_
  · intro c' id'
    have hsame := hcount c' id'
    rw [hone] at hsame
    exact hsame.symm
  · intro c'
    exact Machine.countP_run (Job.closes c') hthreads
      { p.state with timers := (c, id) :: p.state.timers } []

/-- A peer is closed. -/
theorem move_of_close {c : Nat} {before after : List (List (Job R))} {rest : List (Job R)}
    (hthreads : p.threads = before ++ (.close c :: rest) :: after) :
    Move (ledger p) (ledger ⟨p.state.note (.closed c), before ++ ([] ++ rest) :: after⟩) := by
  have hone (c' : Nat) : [Job.close (R := R) c].countP (Job.closes c') =
      if c' = c then 1 else 0 := by
    by_cases hc : c' = c
    · simp [Job.closes, hc]
    · simp [Job.closes, hc, Ne.symm hc]
  refine (Move.close c (fun c' => List.countP (Job.closes c')
    (Pool.mk _ (before ++ ([] ++ rest) :: after)).jobs) ?_).reach rfl rfl rfl rfl rfl ?_
    (fun c' => rfl)
  · intro c'
    have hsame := Machine.countP_run (Job.closes c') hthreads (p.state.note (.closed c)) []
    rw [hone] at hsame
    exact hsame.symm
  · intro c' id'
    exact Machine.countP_run (Job.schedules c' id') hthreads (p.state.note (.closed c)) []

/-- Doing a job is a move. -/
theorem move_of_perform {returns : Bool} {job : Job R} {before after : List (List (Job R))}
    {rest jobs : List (Job R)} {s : Sys ε R}
    (hthreads : p.threads = before ++ (job :: rest) :: after)
    (h : perform svc returns before.length job p.state = (s, jobs)) :
    Move (ledger p) (ledger ⟨s, before ++ (jobs ++ rest) :: after⟩) := by
  cases job with
  | handle c frame => exact move_of_handle hthreads h
  | resolve c userId frame =>
      have hjob : Plain [Job.resolve (R := R) c userId frame] :=
        plain_singleton (fun _ _ => rfl) (fun _ => rfl)
      unfold perform at h
      dsimp only at h
      split at h
      · cases h
        exact Move.still.perform hthreads hjob (plain_answer _ _ _) rfl rfl rfl rfl rfl rfl rfl
      · cases h
        exact Move.still.perform hthreads hjob (plain_singleton (fun _ _ => rfl) (fun _ => rfl))
          rfl rfl rfl rfl rfl rfl rfl
  | follow c target frame =>
      have hjob : Plain [Job.follow (R := R) c target frame] :=
        plain_singleton (fun _ _ => rfl) (fun _ => rfl)
      unfold perform at h
      dsimp only at h
      split at h
      · cases h
        exact Move.still.perform hthreads hjob plain_nil rfl rfl rfl rfl rfl rfl rfl
      · cases h
        exact Move.still.perform hthreads hjob (plain_answer _ _ _)
          (unanswered_update_same _ _ (fun _ => rfl)) rfl rfl rfl rfl rfl rfl
  | reply c kind id =>
      have hjob : Plain [Job.reply (R := R) c kind id] :=
        plain_singleton (fun _ _ => rfl) (fun _ => rfl)
      unfold perform at h
      dsimp only at h
      split at h
      · cases h
        exact (Move.quiet (.replied c kind id) trivial).perform hthreads hjob plain_nil
          rfl rfl rfl rfl rfl rfl rfl
      · cases h
        exact Move.still.perform hthreads hjob plain_nil rfl rfl rfl rfl rfl rfl rfl
  | track c frame => exact move_of_track hthreads h
  | send c id frame =>
      have hjob : Plain [Job.send (R := R) c id frame] :=
        plain_singleton (fun _ _ => rfl) (fun _ => rfl)
      unfold perform at h
      dsimp only at h
      split at h
      · cases h
        exact (Move.quiet (.sent c id frame) trivial).perform hthreads hjob plain_nil
          rfl rfl rfl rfl rfl rfl rfl
      · cases h
        exact Move.still.perform hthreads hjob plain_nil rfl rfl rfl rfl rfl rfl rfl
  | schedule c id =>
      cases h
      exact move_of_schedule hthreads
  | close c =>
      cases h
      exact move_of_close hthreads
  | serve r =>
      have hjob : Plain [Job.serve r] := plain_singleton (fun _ _ => rfl) (fun _ => rfl)
      obtain ⟨env, announcement, hserve⟩ : ∃ env announcement,
          svc.serve r p.state.env = (env, announcement) := ⟨_, _, rfl⟩
      simp only [perform, hserve] at h
      cases announcement with
      | none =>
          cases h
          exact (Move.quiet (.served before.length r p.state.env) trivial).perform hthreads hjob
            plain_nil rfl rfl rfl rfl rfl rfl rfl
      | some a =>
          cases h
          exact (Move.quiet (.served before.length r p.state.env) trivial).perform hthreads hjob
            (plain_singleton (fun _ _ => rfl) (fun _ => rfl)) rfl rfl rfl rfl rfl rfl rfl
  | notify a =>
      have hjob : Plain [Job.notify (R := R) a] := plain_singleton (fun _ _ => rfl) (fun _ => rfl)
      cases h
      exact (Move.quiet (.notified before.length a p.state.hub.connections) trivial).perform hthreads
        hjob (plain_notify _) rfl rfl rfl rfl rfl rfl rfl

/-- **Every step of the hub is a move of the account.** -/
theorem move_of_step {a : Action (Entry R) Bool} {p' : Pool (Sys ε R) (Job R)}
    (h : (machine svc).step a p = some p') : Move (ledger p) (ledger p') := by
  rcases Machine.step_cases h with ⟨e, s, jobs, rfl, henter, rfl⟩ |
    ⟨before, job, rest, after, c, s, jobs, rfl, hthreads, hperform, rfl⟩
  · exact move_of_enter henter
  · exact move_of_perform hthreads (Option.some.inj hperform)

end

end Lectern.Sync
