import Mathlib.Data.List.Infix
import Lectern.Export.LockDown

/-!
# Replies and the commands they answer

The render thread and the socket thread both draw ids from one counter, and the
socket thread files every reply under its id.  As long as the browser answers
only what it was sent, a call returns what the reply to its own command carries or
throws, and `Page.navigate` is sent only after scripts were switched off and the
interception switched on (`replies_matched`).

The log of a session has the latest event first, so what happened before an
event is the rest of a suffix that it heads.
-/

namespace Lectern.Export

open Threads

/-! ## Reading the log -/

/-- The message carries the id of a command. -/
def IsReply (id : Nat) (frame : Json) : Prop := frame.find? (str "id") = some (.int id)

/-- The command was sent, and then the message was received as its reply. -/
def Replied (log : List Event) (id : Nat) (command : Command) (response : Json) : Prop :=
  ∃ earlier, (.received response :: earlier) <:+ log ∧ .sent id command ∈ earlier ∧
    IsReply id response

/-- The id of a command that was sent. -/
def Event.sentId : Event → Option Nat
  | .sent id _ => some id
  | _ => none

/-- Every call that returned was answered by a reply to the command with its
id. -/
def Matched (log : List Event) : Prop :=
  ∀ id response earlier, (.returned id response :: earlier) <:+ log →
    ∃ command, Replied earlier id command response

/-- The browser has carried out the command of a stage. -/
def Confirmed (url : Str) (log : List Event) (stage : Stage) : Prop :=
  ∃ id response, Replied log id (stage.command url) response ∧
    response.find? (str "error") = none

/-- A navigation is sent only once the browser has switched scripts off and the
interception on for its session. -/
def LockedFirst (url : Str) (log : List Event) : Prop :=
  ∀ id command earlier, (.sent id command :: earlier) <:+ log →
    command.method = str "Page.navigate" →
      Confirmed url earlier (.disableScripts command.sessionId) ∧
        Confirmed url earlier (.enableFetch command.sessionId)

theorem Replied.cons {log : List Event} {id : Nat} {command : Command} {response : Json}
    (h : Replied log id command response) (event : Event) :
    Replied (event :: log) id command response := by
  obtain ⟨earlier, hsuffix, hsent, hreply⟩ := h
  exact ⟨earlier, hsuffix.trans (List.suffix_cons event log), hsent, hreply⟩

theorem Replied.sent {log : List Event} {id : Nat} {command : Command} {response : Json}
    (h : Replied log id command response) : .sent id command ∈ log := by
  obtain ⟨earlier, hsuffix, hsent, _⟩ := h
  exact hsuffix.subset (List.mem_cons_of_mem _ hsent)

theorem Confirmed.cons {url : Str} {log : List Event} {stage : Stage}
    (h : Confirmed url log stage) (event : Event) : Confirmed url (event :: log) stage := by
  obtain ⟨id, response, hreplied, hok⟩ := h
  exact ⟨id, response, hreplied.cons event, hok⟩

theorem Matched.cons {log : List Event} {event : Event} (h : Matched log)
    (hevent : ∀ id response, event = .returned id response →
      ∃ command, Replied log id command response) : Matched (event :: log) := by
  intro id response earlier hsuffix
  rcases List.suffix_cons_iff.mp hsuffix with hhere | hbefore
  · obtain ⟨hsame, hlog⟩ := List.cons.inj hhere
    rw [hlog]
    exact hevent id response hsame.symm
  · exact h id response earlier hbefore

theorem LockedFirst.cons {url : Str} {log : List Event} {event : Event} (h : LockedFirst url log)
    (hevent : ∀ id command, event = .sent id command → command.method = str "Page.navigate" →
      Confirmed url log (.disableScripts command.sessionId) ∧
        Confirmed url log (.enableFetch command.sessionId)) : LockedFirst url (event :: log) := by
  intro id command earlier hsuffix hnavigate
  rcases List.suffix_cons_iff.mp hsuffix with hhere | hbefore
  · obtain ⟨hsame, hlog⟩ := List.cons.inj hhere
    rw [hlog]
    exact hevent id command hsame.symm hnavigate
  · exact h id command earlier hbefore hnavigate

/-- Where no id is used twice, an id names one command. -/
theorem sent_unique {log : List Event} (hids : (log.filterMap Event.sentId).Nodup) {id : Nat}
    {command command' : Command} (h : .sent id command ∈ log) (h' : .sent id command' ∈ log) :
    command' = command := by
  induction log with
  | nil => cases h
  | cons event log ih =>
      have hrest : (log.filterMap Event.sentId).Nodup :=
        hids.sublist ((List.sublist_cons_self event log).filterMap Event.sentId)
      have htwice (first second : Command) (hfirst : event = .sent id first) :
          .sent id second ∉ log := by
        intro hin
        rw [hfirst] at hids
        exact (List.nodup_cons.mp hids).1 (List.mem_filterMap.mpr ⟨_, hin, rfl⟩)
      rcases List.mem_cons.mp h with hhere | hbefore
      · rcases List.mem_cons.mp h' with hhere' | hbefore'
        · rw [← hhere] at hhere'
          cases hhere'
          rfl
        · exact absurd hbefore' (htwice command command' hhere.symm)
      · rcases List.mem_cons.mp h' with hhere' | hbefore'
        · exact absurd hbefore (htwice command' command hhere'.symm)
        · exact ih hrest hbefore hbefore'

/-- Where no id is used twice, a reply is a reply to one command. -/
theorem Replied.unique {log : List Event} (hids : (log.filterMap Event.sentId).Nodup)
    {id id' : Nat} {command command' : Command} {response : Json}
    (h : Replied log id command response) (h' : Replied log id' command' response) :
    id' = id ∧ command' = command := by
  have hsame : id' = id := by
    obtain ⟨_, _, _, hreply⟩ := h
    obtain ⟨_, _, _, hreply'⟩ := h'
    unfold IsReply at hreply hreply'
    rw [hreply] at hreply'
    have hint : (id : Int) = id' := by simpa using hreply'
    omega
  rw [hsame] at h'
  exact ⟨hsame, sent_unique hids h.sent h'.sent⟩

/-! ## What a step does -/

variable {parse : Str → Option Json} {url : Str} {choice : Choice} {s s' : Session}
  {jobs : List Job}

/-- **A message** is dropped, or it is logged, and then it is filed as a reply,
noted as an event, or taken up as a paused request. -/
theorem fOnMessage_effect (parse : Str → Option Json) (text : Str) (s : Session) :
    fOnMessage parse text s = (s, []) ∨
    ∃ frame, parse text = some frame ∧
      (fOnMessage parse text s).1.log = .received frame :: s.log ∧
      (fOnMessage parse text s).1.nextId = s.nextId ∧
      ((∃ id, frame.find? (str "id") = some (.int id) ∧
          (fOnMessage parse text s).2 = [] ∧
          (fOnMessage parse text s).1.seenEvents = s.seenEvents ∧
          (fOnMessage parse text s).1.responses =
            fun n => if n = toInt id then some frame else s.responses n) ∨
        (fOnMessage parse text s).1.responses = s.responses ∧
        ((fOnMessage parse text s).2 = [] ∨ ∃ e, (fOnMessage parse text s).2 = [.answer e]) ∧
        ((fOnMessage parse text s).1.seenEvents = s.seenEvents ∨
          ∃ method, (∀ id, frame.find? (str "id") ≠ some (.int id)) ∧
            frame.valueString (str "method") [] = some method ∧
            (fOnMessage parse text s).1.seenEvents = insert method s.seenEvents)) := by
  unfold fOnMessage
  cases parse text with
  | none => exact Or.inl rfl
  | some frame =>
      dsimp only
      by_cases hobject : frame.isObject = true
      · rw [if_pos hobject]
        right
        refine ⟨frame, rfl, ?_⟩
        unfold fHandleMessage
        split
        · rename_i id hid
          exact ⟨rfl, rfl, Or.inl ⟨id, hid, rfl, rfl, rfl⟩⟩
        · rename_i hid
          split
          · exact ⟨rfl, rfl, Or.inr ⟨rfl, Or.inl rfl, Or.inl rfl⟩⟩
          · rename_i method hmethod
            split
            · split
              · exact ⟨rfl, rfl, Or.inr ⟨rfl, Or.inl rfl, Or.inl rfl⟩⟩
              · rename_i e he
                exact ⟨rfl, rfl, Or.inr ⟨rfl, Or.inr ⟨e, rfl⟩, Or.inl rfl⟩⟩
            · refine ⟨rfl, rfl, Or.inr ⟨rfl, Or.inl rfl, Or.inr ⟨method, ?_, hmethod, rfl⟩⟩⟩
              intro id hfind
              exact hid id hfind
      · rw [if_neg hobject]
        exact Or.inl rfl

/-- A message leads to an answer at most. -/
theorem fOnMessage_jobs (parse : Str → Option Json) (text : Str) (s : Session) {job : Job}
    (hjob : job ∈ (fOnMessage parse text s).2) : ∃ e, job = .answer e := by
  rcases fOnMessage_effect parse text s with hnone | ⟨_, _, _, _, ⟨_, _, hjobs, _⟩ | ⟨_, hjobs, _⟩⟩
  · rw [hnone] at hjob
    cases hjob
  · rw [hjobs] at hjob
    cases hjob
  · rcases hjobs with hjobs | ⟨e, hjobs⟩
    · rw [hjobs] at hjob
      cases hjob
    · rw [hjobs] at hjob
      exact ⟨e, List.mem_singleton.mp hjob⟩

theorem serves_fOnMessage (parse : Str → Option Json) (text : Str) (s : Session) :
    ∀ job ∈ (fOnMessage parse text s).2 ++ [.receive], ¬ job.Renders := by
  intro job hjob
  rcases List.mem_append.mp hjob with hnew | hreceive
  · obtain ⟨e, hanswer⟩ := fOnMessage_jobs parse text s hnew
    rw [hanswer]
    exact fun hrenders => hrenders
  · rw [List.mem_singleton.mp hreceive]
    exact fun hrenders => hrenders

/-- A state that differs from `s` at most in whether the connection is closed and
how the render ended. -/
def Quiet (s s' : Session) : Prop :=
  s'.nextId = s.nextId ∧ s'.responses = s.responses ∧ s'.seenEvents = s.seenEvents ∧ s'.log = s.log

/-- What the script does with the reply to a stage. -/
def Follows (url : Str) (stage : Stage) (response : Json) (jobs : List Job) : Prop :=
  jobs = [] ∨ ∃ result, fCallResult (stage.command url).method response = .ok result ∧
    ((∃ next, stage.next result = .ok (.call next) ∧ jobs = [.call next]) ∨
      ∃ sessionId, stage.next result = .ok (.load sessionId) ∧ jobs = [.awaitLoad sessionId])

/-- The session once a call has taken its reply. -/
def Session.take (s : Session) (id : Nat) (response : Json) : Session :=
  ({ s with responses := fun n => if n = id then none else s.responses n }).note
    (.returned id response)

/-- Everything a step of the render thread can do. -/
inductive Rendered (url : Str) (s : Session) : Job → Session → List Job → Prop
  | ended {job : Job} {s' : Session} (h : Quiet s s') : Rendered url s job s' []
  | draw (stage : Stage) :
      Rendered url s (.call stage) { s with nextId := s.nextId + 1 } [.transmit s.nextId stage]
  | send (id : Nat) (stage : Stage) :
      Rendered url s (.transmit id stage) (s.note (.sent id (stage.command url)))
        [.await id stage]
  | take {id : Nat} {stage : Stage} {response : Json} {s' : Session} {jobs : List Job}
      (hfiled : s.responses id = some response) (h : Quiet (s.take id response) s')
      (hnext : Follows url stage response jobs) : Rendered url s (.await id stage) s' jobs
  | loaded (sessionId : Str) (hseen : str "Page.loadEventFired" ∈ s.seenEvents) :
      Rendered url s (.awaitLoad sessionId) s [.call (.printToPdf sessionId)]

theorem Session.quiet_fail (s : Session) (e : AppError) : Quiet s (s.fail e).1 :=
  ⟨rfl, rfl, rfl, rfl⟩

theorem follows_proceed (url : Str) (s : Session) (stage : Stage) (response : Json) :
    Quiet s (s.proceed (fCallResult (stage.command url).method response >>= stage.next)).1 ∧
      Follows url stage response
        (s.proceed (fCallResult (stage.command url).method response >>= stage.next)).2 := by
  cases hresult : fCallResult (stage.command url).method response with
  | error e => exact ⟨s.quiet_fail e, Or.inl rfl⟩
  | ok result =>
      change Quiet s (s.proceed (stage.next result)).1 ∧
        Follows url stage response (s.proceed (stage.next result)).2
      cases hnext : stage.next result with
      | error e => exact ⟨s.quiet_fail e, Or.inl rfl⟩
      | ok step =>
          cases step with
          | call next =>
              exact ⟨⟨rfl, rfl, rfl, rfl⟩,
                Or.inr ⟨result, hresult, Or.inl ⟨next, hnext, rfl⟩⟩⟩
          | load sessionId =>
              exact ⟨⟨rfl, rfl, rfl, rfl⟩,
                Or.inr ⟨result, hresult, Or.inr ⟨sessionId, hnext, rfl⟩⟩⟩
          | done data => exact ⟨⟨rfl, rfl, rfl, rfl⟩, Or.inl rfl⟩

/-- **A step of the render thread** is one of these. -/
theorem rendered_of_perform {job : Job} (hjob : job.Renders)
    (h : perform parse url choice job s = some (s', jobs)) : Rendered url s job s' jobs := by
  unfold perform at h
  cases job with
  | call stage =>
      cases h
      exact .draw stage
  | transmit id stage =>
      dsimp only at h
      split at h
      · split at h
        · cases h
          exact .ended (s.quiet_fail _)
        · split at h
          · cases h
            exact .ended (s.quiet_fail _)
          · cases h
            exact .send id stage
      · cases h
  | await id stage =>
      dsimp only at h
      split at h
      · rename_i response hresponse
        obtain ⟨hquiet, hfollows⟩ := follows_proceed url (s.take id response) stage response
        have hafter := Option.some.inj h
        unfold Session.take at hquiet hfollows
        rw [hafter] at hquiet hfollows
        exact .take hresponse hquiet hfollows
      · split at h
        · cases h
          exact .ended (s.quiet_fail _)
        · cases h
      · cases h
        exact .ended (s.quiet_fail _)
      · cases h
  | awaitLoad sessionId =>
      dsimp only at h
      split at h
      · split at h
        · rename_i hseen
          cases h
          exact .loaded sessionId hseen
        · split at h
          · cases h
            exact .ended (s.quiet_fail _)
          · cases h
      · split at h
        · cases h
        · cases h
          exact .ended (s.quiet_fail _)
      · cases h
  | _ => exact hjob.elim

/-- Everything a step of the socket thread can do. -/
inductive Served (parse : Str → Option Json) (s : Session) :
    Choice → Job → Session → List Job → Prop
  | message (text : Str) :
      Served parse s (.deliver text) .receive (fOnMessage parse text s).1
        ((fOnMessage parse text s).2 ++ [.receive])
  | quiet {choice : Choice} {job : Job} {s' : Session} (h : Quiet s s') :
      Served parse s choice job s' []
  | draw (choice : Choice) (e : Paused) :
      Served parse s choice (.answer e) { s with nextId := s.nextId + 1 } [.respond s.nextId e]
  | send (choice : Choice) (id : Nat) (e : Paused) :
      Served parse s choice (.respond id e) (s.note (.sent id e.response)) []

/-- **A step of the socket thread** is one of these. -/
theorem served_of_perform {job : Job} (hjob : ¬ job.Renders)
    (h : perform parse url choice job s = some (s', jobs)) : Served parse s choice job s' jobs := by
  unfold perform at h
  cases job with
  | receive =>
      dsimp only at h
      split at h
      · cases h
      · split at h
        · cases h
          exact .message _
        · cases h
          exact .quiet ⟨rfl, rfl, rfl, rfl⟩
        · cases h
  | answer e =>
      cases h
      exact .draw choice e
  | respond id e =>
      dsimp only at h
      split at h
      · cases h
        split
        · exact .send _ id e
        · exact .quiet ⟨rfl, rfl, rfl, rfl⟩
      · cases h
  | _ => exact absurd trivial hjob

/-! ## Ids -/

/-- The id a job has drawn and not yet sent. -/
def Job.drawnId : Job → Option Nat
  | .transmit id _ => some id
  | .respond id _ => some id
  | _ => none

theorem drawnId_fOnMessage (parse : Str → Option Json) (text : Str) (s : Session) :
    ((fOnMessage parse text s).2 ++ [Job.receive]).filterMap Job.drawnId = [] := by
  apply List.filterMap_eq_nil_iff.mpr
  intro job hjob
  rcases List.mem_append.mp hjob with hnew | hreceive
  · obtain ⟨e, hanswer⟩ := fOnMessage_jobs parse text s hnew
    rw [hanswer]
    rfl
  · rw [List.mem_singleton.mp hreceive]
    rfl

/-- The ids drawn: by the two threads, and under what was sent. -/
def drawnIds (render socket : List Job) (log : List Event) : List Nat :=
  render.filterMap Job.drawnId ++ socket.filterMap Job.drawnId ++ log.filterMap Event.sentId

/-- Ids drawn once each from a counter that has come to `n`. -/
def Drawn (n : Nat) (ids : List Nat) : Prop := ids.Nodup ∧ ∀ id ∈ ids, id < n

theorem Drawn.perm {n : Nat} {ids ids' : List Nat} (h : Drawn n ids) (hperm : ids'.Perm ids) :
    Drawn n ids' := by
  refine ⟨hperm.nodup_iff.mpr h.1, ?_⟩
  intro id hid
  exact h.2 id (hperm.mem_iff.mp hid)

theorem Drawn.sublist {n : Nat} {ids ids' : List Nat} (h : Drawn n ids) (hsub : ids'.Sublist ids) :
    Drawn n ids' := by
  refine ⟨h.1.sublist hsub, ?_⟩
  intro id hid
  exact h.2 id (hsub.subset hid)

theorem Drawn.next {n : Nat} {ids : List Nat} (h : Drawn n ids) : Drawn (n + 1) (n :: ids) := by
  constructor
  · rw [List.nodup_cons]
    refine ⟨?_, h.1⟩
    intro hin
    have hlt := h.2 n hin
    omega
  · intro id hid
    rcases List.mem_cons.mp hid with hnew | hold
    · omega
    · have hlt := h.2 id hold
      omega

/-! ## What holds along a run -/

/-- If the message has an id, it is that of a command that was sent. -/
def Prompted (log : List Event) (frame : Json) : Prop :=
  match frame.find? (str "id") with
  | some (.int n) => ∃ event ∈ log, event.sentId.map Int.ofNat = some n
  | _ => True

instance (log : List Event) (frame : Json) : Decidable (Prompted log frame) := by
  unfold Prompted
  split <;> infer_instance

/-- The browser sends a message with the id of a command only after that command
was sent. -/
def Prompts (parse : Str → Option Json) : Action Empty Choice → Pool Session Job → Prop
  | .run _ (.deliver text), p => ∀ frame ∈ parse text, Prompted p.state.log frame
  | _, _ => True

instance (parse : Str → Option Json) (a : Action Empty Choice) (p : Pool Session Job) :
    Decidable (Prompts parse a p) := by
  unfold Prompts
  split <;> infer_instance

/-- The browser keeps to that, and the counter of ids, an `int`, has not run
out. -/
def Faithful (parse : Str → Option Json) (a : Action Empty Choice) (p : Pool Session Job) : Prop :=
  Prompts parse a p ∧ p.state.nextId < 2 ^ 31

instance (parse : Str → Option Json) (a : Action Empty Choice) (p : Pool Session Job) :
    Decidable (Faithful parse a p) :=
  inferInstanceAs (Decidable (_ ∧ _))

theorem Prompted.sent {log : List Event} {frame : Json} (h : Prompted log frame) {n : Int}
    (hid : frame.find? (str "id") = some (.int n)) :
    ∃ (id : Nat) (command : Command), n = id ∧ .sent id command ∈ log := by
  unfold Prompted at h
  rw [hid] at h
  obtain ⟨event, hevent, hsame⟩ := h
  cases event with
  | sent id command => exact ⟨id, command, (Option.some.inj hsame).symm, hevent⟩
  | received frame => cases hsame
  | returned id response => cases hsame

/-- What has been confirmed before a stage is reached. -/
def Ready (url : Str) (log : List Event) : Stage → Prop
  | .enableFetch sessionId => Confirmed url log (.disableScripts sessionId)
  | .enablePage sessionId | .navigate sessionId =>
      Confirmed url log (.disableScripts sessionId) ∧ Confirmed url log (.enableFetch sessionId)
  | _ => True

/-- Where the render thread is. -/
inductive Script (url : Str) (log : List Event) : List Job → Prop
  | ended : Script url log []
  | call {stage : Stage} (h : Ready url log stage) : Script url log [.call stage]
  | transmit (id : Nat) {stage : Stage} (h : Ready url log stage) :
      Script url log [.transmit id stage]
  | await {id : Nat} {stage : Stage} (h : Ready url log stage)
      (hsent : .sent id (stage.command url) ∈ log) : Script url log [.await id stage]
  | load (sessionId : Str) : Script url log [.awaitLoad sessionId]

/-- The session of two threads: ids are drawn once, every reply on file is one
to a command that was sent, and the log is in order. -/
structure Traced (url : Str) (p : Pool Session Job) (render socket : List Job) : Prop where
  threads : p.threads = [render, socket]
  script : Script url p.state.log render
  serves : ∀ job ∈ socket, ¬ job.Renders
  drawn : Drawn p.state.nextId (drawnIds render socket p.state.log)
  counts : p.state.nextId ≤ 2 ^ 31
  filed : ∀ n frame, p.state.responses n = some frame →
    ∃ (id : Nat) (command : Command), n = id ∧ Replied p.state.log id command frame
  matched : Matched p.state.log
  first : LockedFirst url p.state.log

theorem Ready.cons {log : List Event} {stage : Stage} (h : Ready url log stage) (event : Event) :
    Ready url (event :: log) stage := by
  cases stage with
  | enableFetch sessionId => exact Confirmed.cons h event
  | enablePage sessionId => exact ⟨h.1.cons event, h.2.cons event⟩
  | navigate sessionId => exact ⟨h.1.cons event, h.2.cons event⟩
  | _ => trivial

theorem Script.cons {log : List Event} {render : List Job} (h : Script url log render)
    (event : Event) : Script url (event :: log) render := by
  cases h with
  | ended => exact .ended
  | call h => exact .call (h.cons event)
  | transmit id h => exact .transmit id (h.cons event)
  | await h hsent => exact .await (h.cons event) (List.mem_cons_of_mem _ hsent)
  | load sessionId => exact .load sessionId

theorem Script.renders {log : List Event} {render : List Job} (h : Script url log render) :
    ∀ job ∈ render, job.Renders := by
  intro job hjob
  cases h with
  | ended => cases hjob
  | _ =>
      rw [List.mem_singleton.mp hjob]
      trivial

/-- A call that succeeded was answered without an error. -/
theorem ok_of_fCallResult {method : Str} {response result : Json}
    (h : fCallResult method response = .ok result) : response.find? (str "error") = none := by
  unfold fCallResult at h
  split at h
  · split at h
    · cases h
    · cases h
  · assumption

/-- **The order of the script**: which call follows which. -/
theorem next_call {stage next : Stage} {result : Json} (h : stage.next result = .ok (.call next)) :
    (∃ targetId, stage = .createTarget ∧ next = .attachToTarget targetId) ∨
    (∃ targetId sessionId, stage = .attachToTarget targetId ∧ next = .disableScripts sessionId) ∨
    ∃ sessionId, stage = .disableScripts sessionId ∧ next = .enableFetch sessionId ∨
      stage = .enableFetch sessionId ∧ next = .enablePage sessionId ∨
      stage = .enablePage sessionId ∧ next = .navigate sessionId := by
  cases stage with
  | createTarget =>
      unfold Stage.next at h
      dsimp only at h
      cases htarget : required result (str "targetId") (str "the PDF renderer opened no page") with
      | error e =>
          rw [htarget] at h
          cases h
      | ok targetId =>
          rw [htarget] at h
          cases h
          exact Or.inl ⟨targetId, rfl, rfl⟩
  | attachToTarget targetId =>
      unfold Stage.next at h
      dsimp only at h
      cases hattached : required result (str "sessionId")
          (str "could not attach to the rendered page") with
      | error e =>
          rw [hattached] at h
          cases h
      | ok sessionId =>
          rw [hattached] at h
          cases h
          exact Or.inr (Or.inl ⟨targetId, sessionId, rfl, rfl⟩)
  | disableScripts sessionId =>
      cases h
      exact Or.inr (Or.inr ⟨sessionId, Or.inl ⟨rfl, rfl⟩⟩)
  | enableFetch sessionId =>
      cases h
      exact Or.inr (Or.inr ⟨sessionId, Or.inr (Or.inl ⟨rfl, rfl⟩)⟩)
  | enablePage sessionId =>
      cases h
      exact Or.inr (Or.inr ⟨sessionId, Or.inr (Or.inr ⟨rfl, rfl⟩)⟩)
  | navigate sessionId => cases h
  | printToPdf sessionId =>
      unfold Stage.next at h
      dsimp only at h
      split at h
      · cases h
      · cases h

/-- Once a stage is confirmed the next one is ready. -/
theorem ready_next {log : List Event} {stage next : Stage} {result : Json}
    (hready : Ready url log stage) (hdone : Confirmed url log stage)
    (h : stage.next result = .ok (.call next)) : Ready url log next := by
  rcases next_call h with ⟨_, _, hnext⟩ | ⟨_, _, _, hnext⟩ |
    ⟨sessionId, ⟨hstage, hnext⟩ | ⟨hstage, hnext⟩ | ⟨hstage, hnext⟩⟩
  · rw [hnext]
    trivial
  · rw [hnext]
    trivial
  · rw [hstage] at hdone
    rw [hnext]
    exact hdone
  · rw [hstage] at hready hdone
    rw [hnext]
    exact ⟨hready, hdone⟩
  · rw [hstage] at hready
    rw [hnext]
    exact hready

/-- Only the stage of the navigation sends one. -/
theorem navigate_of_method {stage : Stage}
    (h : (stage.command url).method = str "Page.navigate") :
    ∃ sessionId, stage = .navigate sessionId := by
  cases stage with
  | navigate sessionId => exact ⟨sessionId, rfl⟩
  | _ =>
      unfold Stage.command at h
      dsimp only at h
      exact absurd h (by decide)

/-- The answer to a paused request is no command of the script. -/
theorem response_method (e : Paused) :
    e.response.method = str "Fetch.continueRequest" ∨
      e.response.method = str "Fetch.failRequest" := by
  unfold Paused.response
  split
  · exact Or.inl rfl
  · exact Or.inr rfl

variable {p p' : Pool Session Job} {render socket : List Job}

theorem Traced.sentIds (h : Traced url p render socket) :
    (p.state.log.filterMap Event.sentId).Nodup :=
  (h.drawn.sublist (List.sublist_append_right _ _)).1

/-- The reply on file for a command that was sent is one to that command. -/
theorem Traced.replied (h : Traced url p render socket) {id : Nat} {command : Command}
    {response : Json} (hsent : .sent id command ∈ p.state.log)
    (hfiled : p.state.responses id = some response) : Replied p.state.log id command response := by
  obtain ⟨id', command', hsame, hreplied⟩ := h.filed id response hfiled
  have hid : id = id' := by omega
  rw [← hid] at hreplied
  rw [sent_unique h.sentIds hreplied.sent hsent]
  exact hreplied

/-- Every reply on file is one to a command that was sent. -/
def Filed (log : List Event) (responses : Int → Option Json) : Prop :=
  ∀ n frame, responses n = some frame →
    ∃ (id : Nat) (command : Command), n = id ∧ Replied log id command frame

theorem Filed.cons {log : List Event} {responses : Int → Option Json} (h : Filed log responses)
    (event : Event) : Filed (event :: log) responses := by
  intro n frame hfiled
  obtain ⟨id, command, hn, hreplied⟩ := h n frame hfiled
  exact ⟨id, command, hn, hreplied.cons event⟩

/-- A reply that is taken is no longer on file. -/
theorem Filed.erase {log : List Event} {responses : Int → Option Json} (h : Filed log responses)
    (id : Int) : Filed log (fun n => if n = id then none else responses n) := by
  intro n frame hfiled
  dsimp only at hfiled
  split at hfiled
  · cases hfiled
  · exact h n frame hfiled

/-- A step that logs nothing and draws no id keeps the session traced. -/
theorem Traced.quiet (h : Traced url p render socket) {s' : Session} (hquiet : Quiet p.state s')
    {render' socket' : List Job} (hscript : Script url p.state.log render')
    (hserves : ∀ job ∈ socket', ¬ job.Renders)
    (hdrawn : (drawnIds render' socket' p.state.log).Sublist
      (drawnIds render socket p.state.log)) :
    Traced url ⟨s', [render', socket']⟩ render' socket' := by
  obtain ⟨hnext, hresponses, _, hlog⟩ := hquiet
  refine ⟨rfl, ?_, hserves, ?_, ?_, ?_, ?_, ?_⟩
  · rw [hlog]
    exact hscript
  · rw [hnext, hlog]
    exact h.drawn.sublist hdrawn
  · rw [hnext]
    exact h.counts
  · rw [hresponses, hlog]
    exact h.filed
  · rw [hlog]
    exact h.matched
  · rw [hlog]
    exact h.first

theorem drawnIds_drop (render : List Job) (job : Job) (rest : List Job) (log : List Event) :
    (drawnIds render rest log).Sublist (drawnIds render (job :: rest) log) := by
  unfold drawnIds
  exact ((List.Sublist.refl _).append
    ((List.sublist_cons_self job rest).filterMap Job.drawnId)).append (List.Sublist.refl _)

/-- A message is filed under the id of a command that was sent. -/
theorem Traced.filed_message (h : Traced url p render socket) (hcounts : p.state.nextId < 2 ^ 31)
    {frame : Json} (hprompted : Prompted p.state.log frame) {id : Int}
    (hid : frame.find? (str "id") = some (.int id)) :
    Filed (.received frame :: p.state.log)
      (fun n => if n = toInt id then some frame else p.state.responses n) := by
  intro n filed hfiled
  dsimp only at hfiled
  split at hfiled
  · rename_i hn
    cases hfiled
    obtain ⟨sentId, command, hsame, hsent⟩ := hprompted.sent hid
    have hlt : sentId < p.state.nextId := by
      apply h.drawn.2
      unfold drawnIds
      rw [List.mem_append]
      exact Or.inr (List.mem_filterMap.mpr ⟨_, hsent, rfl⟩)
    -- The id was drawn from an `int`, so reading it back as one keeps it.
    have hint : toInt id = sentId := by
      unfold toInt
      rw [hsame]
      exact Int.bmod_eq_of_le (by omega) (by omega)
    refine ⟨sentId, command, hn.trans hint, p.state.log, List.suffix_rfl, hsent, ?_⟩
    unfold IsReply
    rw [hid, hsame]
  · exact Filed.cons h.filed _ n filed hfiled

/-- **A step of the render thread** keeps the session traced. -/
theorem Traced.render_step {job : Job} (h : Traced url p [job] socket)
    (hcounts : p.state.nextId < 2 ^ 31)
    {s' : Session} {jobs : List Job} (hstep : Rendered url p.state job s' jobs) :
    Traced url ⟨s', [jobs, socket]⟩ jobs socket := by
  have hscript := h.script
  have hdrawn := h.drawn
  cases hstep with
  | ended hquiet =>
      apply h.quiet hquiet .ended h.serves
      unfold drawnIds
      rw [List.filterMap_nil, List.nil_append, List.append_assoc]
      exact List.sublist_append_right _ _
  | draw stage =>
      cases hscript with
      | call hready =>
          refine ⟨rfl, .transmit _ hready, h.serves, ?_, ?_, h.filed, h.matched, h.first⟩
          · exact hdrawn.next
          · change p.state.nextId + 1 ≤ 2 ^ 31
            omega
  | send id stage =>
      cases hscript with
      | transmit _ hready =>
          refine ⟨rfl, .await (hready.cons _) List.mem_cons_self, h.serves, ?_, h.counts,
            Filed.cons h.filed _, ?_, ?_⟩
          · apply hdrawn.perm
            exact List.perm_middle
          · apply h.matched.cons
            intro id' response hsame
            cases hsame
          · apply h.first.cons
            intro id' command hsame hnavigate
            cases hsame
            obtain ⟨sessionId, hstage⟩ := navigate_of_method hnavigate
            rw [hstage] at hready ⊢
            exact hready
  | take hfiled hquiet hnext =>
      rename_i id stage response
      obtain ⟨hnextId, hresponses, _, hlog⟩ := hquiet
      cases hscript with
      | await hready hsent =>
          have hreplied := h.replied hsent hfiled
          have hlog' : s'.log = .returned id response :: p.state.log := hlog
          refine ⟨rfl, ?_, h.serves, ?_, ?_, ?_, ?_, ?_⟩
          · rcases hnext with hnone | ⟨result, hok, ⟨next, hcall, hjobs⟩ | ⟨sessionId, _, hjobs⟩⟩
            · rw [hnone]
              exact .ended
            · rw [hjobs, hlog']
              have hdone : Confirmed url p.state.log stage :=
                ⟨id, response, hreplied, ok_of_fCallResult hok⟩
              exact .call ((ready_next hready hdone hcall).cons _)
            · rw [hjobs]
              exact .load sessionId
          · rw [hnextId, hlog']
            have hids : jobs.filterMap Job.drawnId = [] := by
              rcases hnext with hnone | ⟨_, _, ⟨_, _, hjobs⟩ | ⟨_, _, hjobs⟩⟩
              · rw [hnone]
                rfl
              · rw [hjobs]
                rfl
              · rw [hjobs]
                rfl
            unfold drawnIds
            rw [hids]
            exact hdrawn
          · rw [hnextId]
            exact h.counts
          · rw [hresponses, hlog']
            exact (Filed.erase h.filed id).cons _
          · rw [hlog']
            apply h.matched.cons
            intro id' response' hsame
            cases hsame
            exact ⟨_, hreplied⟩
          · rw [hlog']
            apply h.first.cons
            intro id' command hsame
            cases hsame
  | loaded sessionId hseen =>
      cases hscript with
      | load _ =>
          exact ⟨rfl, .call trivial, h.serves, hdrawn, h.counts, h.filed, h.matched, h.first⟩

/-- **A step of the socket thread** keeps the session traced. -/
theorem Traced.socket_step {job : Job} {rest : List Job} (h : Traced url p render (job :: rest))
    {choice : Choice} (hfaithful : Faithful parse (.run 1 choice) p) {s' : Session}
    {jobs : List Job} (hstep : Served parse p.state choice job s' jobs) :
    Traced url ⟨s', [render, jobs ++ rest]⟩ render (jobs ++ rest) := by
  have hdrawn := h.drawn
  have hcounts := hfaithful.2
  have hrest : ∀ other ∈ rest, ¬ other.Renders :=
    fun other hother => h.serves other (List.mem_cons_of_mem _ hother)
  have hdrop := drawnIds_drop render job rest p.state.log
  cases hstep with
  | message text =>
      have hids : drawnIds render ((fOnMessage parse text p.state).2 ++ [.receive] ++ rest)
          p.state.log = drawnIds render rest p.state.log := by
        unfold drawnIds
        rw [List.filterMap_append, drawnId_fOnMessage, List.nil_append]
      rcases fOnMessage_effect parse text p.state with hnone | ⟨frame, hparse, hlog, hnext, heffect⟩
      · rw [hnone]
        exact { h with threads := rfl }
      · refine ⟨rfl, ?_, ?_, ?_, ?_, ?_, ?_, ?_⟩
        · rw [hlog]
          exact h.script.cons _
        · intro other hother
          rcases List.mem_append.mp hother with hnew | hold
          · exact serves_fOnMessage parse text p.state other hnew
          · exact hrest other hold
        · rw [hnext, hlog]
          change Drawn p.state.nextId (drawnIds render _ p.state.log)
          rw [hids]
          exact hdrawn.sublist hdrop
        · rw [hnext]
          exact h.counts
        · rw [hlog]
          rcases heffect with ⟨id, hid, _, _, hresponses⟩ | ⟨hresponses, _⟩
          · rw [hresponses]
            exact h.filed_message hcounts (hfaithful.1 frame hparse) hid
          · rw [hresponses]
            exact Filed.cons h.filed _
        · rw [hlog]
          apply h.matched.cons
          intro id response hsame
          cases hsame
        · rw [hlog]
          apply h.first.cons
          intro id command hsame
          cases hsame
  | quiet hquiet => exact h.quiet hquiet h.script hrest hdrop
  | draw choice e =>
      refine ⟨rfl, h.script, ?_, ?_, ?_, h.filed, h.matched, h.first⟩
      · intro other hother
        rcases List.mem_cons.mp hother with hnew | hold
        · rw [hnew]
          exact fun hrenders => hrenders
        · exact hrest other hold
      · apply (hdrawn.sublist hdrop).next.perm
        unfold drawnIds
        rw [List.append_assoc, List.append_assoc]
        exact List.perm_middle
      · change p.state.nextId + 1 ≤ 2 ^ 31
        omega
  | send choice id e =>
      refine ⟨rfl, h.script.cons _, hrest, ?_, h.counts, Filed.cons h.filed _, ?_, ?_⟩
      · apply hdrawn.perm
        rw [List.perm_iff_count]
        intro n
        unfold drawnIds
        simp only [Session.note, List.nil_append, List.filterMap_cons, Job.drawnId, Event.sentId,
          List.count_append, List.count_cons]
        omega
      · apply h.matched.cons
        intro id' response hsame
        cases hsame
      · apply h.first.cons
        intro id' command hsame hnavigate
        cases hsame
        rcases response_method e with hcontinue | hfail
        · rw [hcontinue] at hnavigate
          exact absurd hnavigate (by decide)
        · rw [hfail] at hnavigate
          exact absurd hnavigate (by decide)

theorem Traced.step (h : Traced url p render socket) {a : Action Empty Choice}
    (hfaithful : Faithful parse a p) (hstep : (machine parse url).step a p = some p') :
    ∃ render' socket', Traced url p' render' socket' := by
  rcases Machine.step_of_pair h.threads hstep with
    ⟨job, rest, choice, s, jobs, ha, hrender, hperform, hp'⟩ |
    ⟨job, rest, choice, s, jobs, ha, hsocket, hperform, hp'⟩
  · have hjob := h.script.renders job (hrender ▸ List.mem_cons_self)
    have hrest : rest = [] := by
      have hscript := h.script
      rw [hrender] at hscript
      cases hscript <;> rfl
    rw [hrender, hrest] at h
    rw [hp', hrest, List.append_nil]
    exact ⟨jobs, socket, h.render_step hfaithful.2 (rendered_of_perform hjob hperform)⟩
  · rw [hsocket] at h
    have hjob := h.serves job List.mem_cons_self
    rw [ha] at hfaithful
    rw [hp']
    exact ⟨render, jobs ++ rest, h.socket_step hfaithful (served_of_perform hjob hperform)⟩

/-- **Every reachable session** is traced. -/
theorem traced_of_reachable
    (hp : Machine.Reachable (machine parse url) (Faithful parse) Starts p) :
    ∃ render socket, Traced url p render socket := by
  apply hp.invariant (I := fun p => ∃ render socket, Traced url p render socket)
  · intro p hstart
    rw [hstart]
    refine ⟨_, _, rfl, .call trivial, ?_, ⟨List.nodup_nil, ?_⟩, ?_, ?_, ?_, ?_⟩
    · intro job hjob
      rw [List.mem_singleton.mp hjob]
      exact fun hrenders => hrenders
    · intro id hid
      cases hid
    · change 1 ≤ 2 ^ 31
      omega
    · intro n frame hfiled
      cases hfiled
    · intro id response earlier hsuffix
      exact absurd (List.suffix_nil.mp hsuffix) (List.cons_ne_nil _ _)
    · intro id command earlier hsuffix
      exact absurd (List.suffix_nil.mp hsuffix) (List.cons_ne_nil _ _)
  · intro a p p' h hfaithful hstep
    obtain ⟨render, socket, h⟩ := h
    exact h.step hfaithful hstep

/-! ## What the calls return -/

/-- What a reply carries back to a call. -/
structure Carries (response result : Json) : Prop where
  accepted : response.find? (str "error") = none
  result : result = (response.find? (str "result")).getD (.object [])

/-- From `p` to `p'` the render thread goes on with a step of the script. -/
def GoesOn (p p' : Pool Session Job) : Step → Prop
  | .call next => p'.threads[0]? = some [.call next] ∧ p'.state.outcome = p.state.outcome
  | .load sessionId =>
      p'.threads[0]? = some [.awaitLoad sessionId] ∧ p'.state.outcome = p.state.outcome
  | .done data => p'.threads[0]? = some [] ∧ p'.state.outcome = some (.ok data)

/-- With the step from `p` to `p'` the call of a stage comes to its end: it
returns what the reply to its own command carries, and the script goes on with
that; or it throws, and the render is over. -/
inductive Returns (url : Str) (p p' : Pool Session Job) (id : Nat) (stage : Stage) : Prop
  | value {response result : Json} {step : Step}
      (own : Replied p.state.log id (stage.command url) response)
      (only : ∀ id' command', Replied p.state.log id' command' response →
        id' = id ∧ command' = stage.command url)
      (carried : Carries response result) (hnext : stage.next result = .ok step)
      (goes : GoesOn p p' step)
  | threw {e : AppError} (ended : p'.threads[0]? = some [])
      (outcome : p'.state.outcome = some (.error e))

/-- A render that brought a page took it from the reply to its own print
command. -/
def Printed (url : Str) (p : Pool Session Job) : Prop :=
  ∀ data, p.state.outcome = some (.ok data) → ∃ id sessionId response result,
    Replied p.state.log id ((Stage.printToPdf sessionId).command url) response ∧
      Carries response result ∧ Reads result (str "data") data

theorem carries_of_fCallResult {method : Str} {response result : Json}
    (h : fCallResult method response = .ok result) : Carries response result := by
  refine ⟨ok_of_fCallResult h, ?_⟩
  unfold fCallResult at h
  rw [ok_of_fCallResult h] at h
  exact (Except.ok.inj h).symm

/-- **The end of a call**: it throws, or it goes on with what the reply on file
carries. -/
theorem await_cases {id : Nat} {stage : Stage}
    (h : perform parse url choice (.await id stage) s = some (s', jobs)) :
    (∃ e, (s', jobs) = ({ s' with outcome := some (.error e) }, [])) ∨
    ∃ response result step, s.responses id = some response ∧ Carries response result ∧
      stage.next result = .ok step ∧ (s', jobs) = (s.take id response).proceed (.ok step) := by
  unfold perform at h
  dsimp only at h
  split at h
  · rename_i response hresponse
    cases hresult : fCallResult (stage.command url).method response with
    | error e =>
        rw [hresult] at h
        cases h
        exact Or.inl ⟨e, rfl⟩
    | ok result =>
        rw [hresult] at h
        cases hnext : stage.next result with
        | error e =>
            have hafter : (s.take id response).proceed (stage.next result) = (s', jobs) :=
              Option.some.inj h
            rw [hnext] at hafter
            cases hafter
            exact Or.inl ⟨e, rfl⟩
        | ok step =>
            have hafter : (s.take id response).proceed (stage.next result) = (s', jobs) :=
              Option.some.inj h
            rw [hnext] at hafter
            exact Or.inr ⟨response, result, step, hresponse, carries_of_fCallResult hresult, hnext,
              hafter.symm⟩
  · split at h
    · cases h
      exact Or.inl ⟨_, rfl⟩
    · cases h
  · cases h
    exact Or.inl ⟨_, rfl⟩
  · cases h

/-- The step that brings the page is the end of the print call. -/
theorem done_of_next {stage : Stage} {result : Json} {data : Str}
    (h : stage.next result = .ok (.done data)) :
    ∃ sessionId, stage = .printToPdf sessionId ∧ Reads result (str "data") data := by
  cases stage with
  | createTarget =>
      unfold Stage.next at h
      dsimp only at h
      cases htarget : required result (str "targetId") (str "the PDF renderer opened no page") <;>
        rw [htarget] at h <;> cases h
  | attachToTarget targetId =>
      unfold Stage.next at h
      dsimp only at h
      cases hattached : required result (str "sessionId")
        (str "could not attach to the rendered page") <;> rw [hattached] at h <;> cases h
  | printToPdf sessionId =>
      unfold Stage.next at h
      dsimp only at h
      split at h
      · cases h
      · rename_i printed hprinted
        cases h
        exact ⟨sessionId, rfl, (valueString_eq_some_iff.mp hprinted).2⟩
  | _ => cases h

theorem outcome_fOnMessage (parse : Str → Option Json) (text : Str) (s : Session) :
    (fOnMessage parse text s).1.outcome = s.outcome := by
  unfold fOnMessage
  split
  · rfl
  · split
    · exact (fHandleMessage_keeps _ _).2
    · rfl

/-- Only the end of a call brings a page. -/
theorem perform_outcome {job : Job} (h : perform parse url choice job s = some (s', jobs)) :
    s'.outcome = s.outcome ∨ (∃ e, s'.outcome = some (.error e)) ∨
      ∃ id stage, job = .await id stage := by
  unfold perform at h
  cases job with
  | call stage =>
      cases h
      exact Or.inl rfl
  | transmit id stage =>
      dsimp only at h
      split at h
      · split at h
        · cases h
          exact Or.inr (Or.inl ⟨_, rfl⟩)
        · split at h
          · cases h
            exact Or.inr (Or.inl ⟨_, rfl⟩)
          · cases h
            exact Or.inl rfl
      · cases h
  | await id stage => exact Or.inr (Or.inr ⟨id, stage, rfl⟩)
  | awaitLoad sessionId =>
      dsimp only at h
      split at h
      · split at h
        · cases h
          exact Or.inl rfl
        · split at h
          · cases h
            exact Or.inr (Or.inl ⟨_, rfl⟩)
          · cases h
      · split at h
        · cases h
        · cases h
          exact Or.inr (Or.inl ⟨_, rfl⟩)
      · cases h
  | receive =>
      dsimp only at h
      split at h
      · cases h
      · split at h
        · cases h
          exact Or.inl (outcome_fOnMessage parse _ s)
        · cases h
          exact Or.inl rfl
        · cases h
  | answer e =>
      cases h
      exact Or.inl rfl
  | respond id e =>
      dsimp only at h
      split at h
      · cases h
        split
        · exact Or.inl rfl
        · exact Or.inl rfl
      · cases h

theorem Replied.mono {log log' : List Event} {id : Nat} {command : Command} {response : Json}
    (h : Replied log id command response) (hlog : log <:+ log') :
    Replied log' id command response := by
  obtain ⟨earlier, hsuffix, hsent, hreply⟩ := h
  exact ⟨earlier, hsuffix.trans hlog, hsent, hreply⟩

/-- The log only grows. -/
theorem log_of_perform {job : Job} (h : perform parse url choice job s = some (s', jobs)) :
    s.log <:+ s'.log := by
  by_cases hjob : job.Renders
  · cases rendered_of_perform hjob h with
    | ended hquiet => exact hquiet.2.2.2 ▸ List.suffix_rfl
    | draw stage => exact List.suffix_rfl
    | send id stage => exact List.suffix_cons _ _
    | take hfiled hquiet hnext => exact hquiet.2.2.2 ▸ List.suffix_cons _ _
    | loaded sessionId hseen => exact List.suffix_rfl
  · cases served_of_perform hjob h with
    | message text =>
        rcases fOnMessage_effect parse text s with hnone | ⟨frame, _, hlog, _⟩
        · rw [hnone]
        · rw [hlog]
          exact List.suffix_cons _ _
    | quiet hquiet => exact hquiet.2.2.2 ▸ List.suffix_rfl
    | draw choice e => exact List.suffix_rfl
    | send choice id e => exact List.suffix_cons _ _

/-- **The end of a call**, as the pool sees it. -/
theorem Traced.returns (h : Traced url p render socket) {id : Nat} {stage : Stage}
    (hrender : render = [.await id stage])
    (hperform : perform parse url choice (.await id stage) p.state = some (s', jobs)) :
    Returns url p ⟨s', [jobs, socket]⟩ id stage := by
  rcases await_cases hperform with
    ⟨e, hthrew⟩ | ⟨response, result, step, hfiled, hcarries, hnext, hafter⟩
  · obtain ⟨hs, hjobs⟩ := Prod.mk.inj hthrew
    rw [hs, hjobs]
    exact .threw rfl rfl
  · have hscript := h.script
    rw [hrender] at hscript
    cases hscript with
    | await _ hsent =>
        have hreplied := h.replied hsent hfiled
        refine .value hreplied (fun _ _ hother => hreplied.unique h.sentIds hother) hcarries
          hnext ?_
        obtain ⟨hs, hjobs⟩ := Prod.mk.inj hafter
        rw [hs, hjobs]
        cases step with
        | call next => exact ⟨rfl, rfl⟩
        | load sessionId => exact ⟨rfl, rfl⟩
        | done data => exact ⟨rfl, rfl⟩

/-- A step that leaves the outcome alone or throws keeps the page where it came
from. -/
theorem Printed.step (h : Printed url p) (hlog : p.state.log <:+ p'.state.log)
    (houtcome : p'.state.outcome = p.state.outcome ∨ ∃ e, p'.state.outcome = some (.error e)) :
    Printed url p' := by
  intro data hdata
  rcases houtcome with hsame | ⟨e, herror⟩
  · obtain ⟨id, sessionId, response, result, hreplied, hcarries, hread⟩ := h data (hsame ▸ hdata)
    exact ⟨id, sessionId, response, result, hreplied.mono hlog, hcarries, hread⟩
  · rw [herror] at hdata
    cases hdata

/-- **A page is brought** by the end of the print call. -/
theorem Printed.returns (h : Printed url p) (hlog : p.state.log <:+ p'.state.log) {id : Nat}
    {stage : Stage} (hreturns : Returns url p p' id stage) : Printed url p' := by
  cases hreturns with
  | threw ended outcome => exact h.step hlog (Or.inr ⟨_, outcome⟩)
  | value own only carried hnext goes =>
      rename_i response result step
      cases step with
      | call next => exact h.step hlog (Or.inl goes.2)
      | load sessionId => exact h.step hlog (Or.inl goes.2)
      | done page =>
          intro data hdata
          have hpage : page = data := Except.ok.inj (Option.some.inj (goes.2.symm.trans hdata))
          obtain ⟨sessionId, hstage, hread⟩ := done_of_next hnext
          rw [hstage] at own
          exact ⟨id, sessionId, response, result, own.mono hlog, carried, hpage ▸ hread⟩

/-- A step at the end of a call returns. -/
theorem Traced.returns_step (h : Traced url p render socket) {id : Nat} {stage : Stage}
    (hrender : render = [.await id stage])
    (hstep : (machine parse url).step (.run 0 choice) p = some p') :
    Returns url p p' id stage := by
  rcases Machine.step_of_pair h.threads hstep with
    ⟨job, rest, c, s, jobs, ha, hfirst, hperform, hp'⟩ | ⟨job, rest, c, s, jobs, ha, _⟩
  · rw [hrender] at hfirst
    obtain ⟨rfl, rfl⟩ := List.cons.inj hfirst
    have hdone : perform parse url c (.await id stage) p.state = some (s, jobs) := hperform
    rw [hp', List.append_nil]
    exact h.returns hrender hdone
  · cases ha

/-- **A step** keeps the page where it came from. -/
theorem Traced.printed_step (h : Traced url p render socket) (hprinted : Printed url p)
    {a : Action Empty Choice} (hstep : (machine parse url).step a p = some p') :
    Printed url p' := by
  rcases Machine.step_of_pair h.threads hstep with
    ⟨job, rest, c, s, jobs, rfl, hrender, hperform, hp'⟩ |
    ⟨job, rest, c, s, jobs, rfl, hsocket, hperform, hp'⟩
  · have hdone : perform parse url c job p.state = some (s, jobs) := hperform
    have hlog : p.state.log <:+ p'.state.log := hp' ▸ log_of_perform hdone
    rcases perform_outcome hdone with hsame | herror | ⟨id, stage, hjob⟩
    · exact hprinted.step hlog (Or.inl (hp' ▸ hsame))
    · exact hprinted.step hlog (Or.inr (hp' ▸ herror))
    · have hscript := h.script
      rw [hrender, hjob] at hscript
      cases hscript
      exact hprinted.returns hlog (h.returns_step (hjob ▸ hrender) hstep)
  · have hdone : perform parse url c job p.state = some (s, jobs) := hperform
    have hlog : p.state.log <:+ p'.state.log := hp' ▸ log_of_perform hdone
    rcases perform_outcome hdone with hsame | herror | ⟨id, stage, hjob⟩
    · exact hprinted.step hlog (Or.inl (hp' ▸ hsame))
    · exact hprinted.step hlog (Or.inr (hp' ▸ herror))
    · have hserves := h.serves job (hsocket ▸ List.mem_cons_self)
      rw [hjob] at hserves
      exact absurd trivial hserves

/-- **Every page** was brought by the reply to its print command. -/
theorem printed_of_reachable
    (hp : Machine.Reachable (machine parse url) (Faithful parse) Starts p) : Printed url p := by
  induction hp with
  | start hstart =>
      intro data hdata
      rw [hstart] at hdata
      cases hdata
  | step a hp _ hstep ih =>
      obtain ⟨render, socket, h⟩ := traced_of_reachable hp
      exact h.printed_step ih hstep

/-- **Replies match commands.**  Take any run in which the browser answers only
commands that were sent.  No id is used for two commands; every call that
returned was answered by a reply to the one command with its id; a call that
ends now returns what the reply to its own command carries, a reply to no other
command, or throws; the page a render brings is what the reply to its print
command carries; and `Page.navigate` was sent only after the browser had
confirmed, for that session, that scripts are off and the interception is on. -/
theorem replies_matched (parse : Str → Option Json) (url : Str) (p : Pool Session Job)
    (hp : Machine.Reachable (machine parse url) (Faithful parse) Starts p) :
    (p.state.log.filterMap Event.sentId).Nodup ∧ Matched p.state.log ∧
      (∀ id stage choice p', p.threads[0]? = some [.await id stage] →
        (machine parse url).step (.run 0 choice) p = some p' → Returns url p p' id stage) ∧
      Printed url p ∧ LockedFirst url p.state.log := by
  obtain ⟨render, socket, h⟩ := traced_of_reachable hp
  refine ⟨h.sentIds, h.matched, ?_, printed_of_reachable hp, h.first⟩
  intro id stage choice p' hthread hstep
  rw [h.threads] at hthread
  exact h.returns_step (Option.some.inj hthread) hstep

/-! ### A render whose replies come late -/

def lateTexts : List (Str × Json) := replies ++ [reply 6 "6" nothing (.object []), asksDocument]

def parseLate (text : Str) : Option Json :=
  (lateTexts.find? (fun entry => entry.1 = text)).map Prod.snd

/-- The text of the reply to command `n`. -/
def replyText (n : Nat) : Str := ((lateTexts.map Prod.fst)[n - 1]?).getD []

/-- Draw an id, send, get the reply and take it. -/
def callOnce (n : Nat) : List (Action Empty Choice) :=
  [.run 0 .wake, .run 0 (.connected true), .run 1 (.deliver (replyText n)), .run 0 .wake]

/-- Between drawing id 2 and sending it the session answers a paused request
under id 3; the reply to that and a second reply to command 1 come before the
reply to command 2. -/
def lateVisit : List (Action Empty Choice) :=
  callOnce 1 ++
    [.run 0 .wake, .run 1 (.deliver asksDocument.1), .run 1 .wake, .run 1 (.connected true),
      .run 0 (.connected true), .run 1 (.deliver (replyText 3)),
      .run 1 (.deliver (replyText 1)), .run 1 (.deliver (replyText 2)), .run 0 .wake] ++
    callOnce 4 ++ callOnce 5 ++ callOnce 6 ++ [.run 0 .wake, .run 0 (.connected true)]

def lateReplies : Pool Session Job :=
  ((machine parseLate (fileUrl htmlFile)).execAllowed (Faithful parseLate) lateVisit started).getD
    started

/-- The navigation of this render is the seventh command. -/
theorem replies_matched_lateReplies :
    lateReplies.state.log.filterMap Event.sentId = [7, 6, 5, 4, 2, 3, 1] ∧
      Matched lateReplies.state.log ∧ LockedFirst (fileUrl htmlFile) lateReplies.state.log := by
  have hsent : lateReplies.state.log.filterMap Event.sentId = [7, 6, 5, 4, 2, 3, 1] := by
    decide +kernel
  have hreachable : Machine.Reachable (machine parseLate (fileUrl htmlFile)) (Faithful parseLate)
      Starts lateReplies :=
    Machine.Reachable.execAllowed_getD (.start rfl)
  generalize lateReplies = p at *
  obtain ⟨_, hmatched, _, _, hfirst⟩ := replies_matched parseLate (fileUrl htmlFile) p hreachable
  exact ⟨hsent, hmatched, hfirst⟩

end Lectern.Export
