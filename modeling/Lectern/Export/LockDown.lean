import Lectern.Export.Session

/-!
# The request lock of a render

Every request the page makes is paused and answered by the session.  The lock
promises to let through the document being rendered and `data:` URIs only; the
code lets every `file://` URL through.

Each paused request is answered once, with its own id and in order
(`Answering`), and the promise is kept exactly in those runs in which no page
asks for a `file://` URL other than the document (`export_locked_down`).
-/

namespace Lectern.Export

open Threads

/-! ## Requests and answers -/

/-- The field is that string, or it is missing and the string is empty. -/
def Reads (object : Json) (key value : Str) : Prop :=
  object.find? key = some (.string value) ∨ object.find? key = none ∧ value = []

/-- The message is an event that pauses a request: no reply, with the method of
the event, the id of the request and its URL. -/
structure IsPaused (frame : Json) (e : Paused) : Prop where
  object : frame.isObject = true
  noReply : ∀ n, frame.find? (str "id") ≠ some (.int n)
  method : frame.find? (str "method") = some (.string (str "Fetch.requestPaused"))
  params : ∃ params, frame.find? (str "params") = some params ∧ params.isObject = true ∧
    Reads params (str "requestId") e.requestId ∧
    ((∃ request, params.find? (str "request") = some request ∧ request.isObject = true ∧
        Reads request (str "url") e.url) ∨
      params.find? (str "request") = none ∧ e.url = [])
  session : Reads frame (str "sessionId") e.sessionId

/-- The requests that the messages pause: one for each event, in their order. -/
inductive Requested : List Json → List Paused → Prop
  | nil : Requested [] []
  | paused {frame : Json} {e : Paused} {frames : List Json} {requests : List Paused}
      (h : IsPaused frame e) (rest : Requested frames requests) :
      Requested (frame :: frames) (e :: requests)
  | other {frame : Json} {frames : List Json} {requests : List Paused}
      (h : ∀ e, ¬ IsPaused frame e) (rest : Requested frames requests) :
      Requested (frame :: frames) requests

/-- The messages received, the first one first. -/
def received (log : List Event) : List Json :=
  log.reverse.filterMap (fun event =>
    match event with
    | .received frame => some frame
    | _ => none)

/-- The command answers a paused request. -/
def Command.isAnswer (c : Command) : Bool :=
  c.method = str "Fetch.continueRequest" || c.method = str "Fetch.failRequest"

/-- The answers sent, the first one first. -/
def answers (log : List Event) : List Command :=
  log.reverse.filterMap (fun event =>
    match event with
    | .sent _ command => if command.isAnswer then some command else none
    | _ => none)

/-- What the lock lets through: the document being rendered and `data:` URIs. -/
def Permitted (fileUrl url : Str) : Prop := url = fileUrl ∨ fStartsWith url (str "data:") = true

/-- The answer the lock promises. -/
structure Answers (fileUrl : Str) (e : Paused) (c : Command) : Prop where
  own : c.params.find? (str "requestId") = some (.string e.requestId)
  continues : c.method = str "Fetch.continueRequest" → Permitted fileUrl e.url
  fails : ¬ Permitted fileUrl e.url → c.method = str "Fetch.failRequest"

/-- **The lock holds**: every paused request has been answered once, as
promised. -/
def Locked (fileUrl : Str) (log : List Event) : Prop :=
  ∃ requests, Requested (received log) requests ∧
    List.Forall₂ (Answers fileUrl) requests (answers log)

/-! ## The requests the session takes up -/

/-- The paused request the session reads off a message. -/
def pausedEvent (frame : Json) : Option Paused :=
  match frame.find? (str "id"), frame.valueString (str "method") [] with
  | some (.int _), _ => none
  | _, some method => if method = str "Fetch.requestPaused" then fPausedRequest frame else none
  | _, none => none

/-- The paused requests, as the session reads them. -/
def paused (log : List Event) : List Paused := (received log).filterMap pausedEvent

theorem valueString_eq_some_iff {object : Json} {key value : Str} :
    object.valueString key [] = some value ↔ object.isObject = true ∧ Reads object key value := by
  cases object with
  | object fields =>
      unfold Json.valueString Reads
      cases hfind : (Json.object fields).find? key with
      | none =>
          dsimp only
          constructor
          · intro h
            exact ⟨rfl, Or.inr ⟨rfl, (Option.some.inj h).symm⟩⟩
          · rintro ⟨-, hvalue | ⟨-, rfl⟩⟩
            · cases hvalue
            · rfl
      | some field =>
          dsimp only
          constructor
          · intro h
            cases field with
            | string s =>
                cases h
                exact ⟨rfl, Or.inl rfl⟩
            | _ => cases h
          · rintro ⟨-, hvalue | ⟨hnone, -⟩⟩
            · cases hvalue
              rfl
            · cases hnone
  | _ =>
      constructor
      · intro h
        cases h
      · rintro ⟨h, -⟩
        cases h

theorem pausedEvent_of_method {frame : Json} {method : Str}
    (hid : ∀ n, frame.find? (str "id") ≠ some (.int n))
    (hmethod : frame.valueString (str "method") [] = some method) : pausedEvent frame =
      if method = str "Fetch.requestPaused" then fPausedRequest frame else none := by
  unfold pausedEvent
  rw [hmethod]
  cases hfind : frame.find? (str "id") with
  | none => rfl
  | some value =>
      cases value with
      | int n => exact absurd hfind (hid n)
      | _ => rfl

theorem pausedUrl_eq_some_iff {params : Json} {url : Str} :
    pausedUrl params = some url ↔
      (∃ request, params.find? (str "request") = some request ∧ request.isObject = true ∧
          Reads request (str "url") url) ∨
        params.find? (str "request") = none ∧ url = [] := by
  unfold pausedUrl
  cases hfind : params.find? (str "request") with
  | none =>
      constructor
      · intro h
        exact Or.inr ⟨rfl, (Option.some.inj h).symm⟩
      · rintro (⟨request, hrequest, -⟩ | ⟨-, rfl⟩)
        · cases hrequest
        · rfl
  | some request =>
      dsimp only
      rw [valueString_eq_some_iff]
      constructor
      · intro h
        exact Or.inl ⟨request, rfl, h⟩
      · rintro (⟨other, hother, h⟩ | ⟨hnone, -⟩)
        · cases hother
          exact h
        · cases hnone

theorem fPausedRequest_eq_some_iff {frame : Json} {e : Paused} :
    fPausedRequest frame = some e ↔
      ∃ params, frame.find? (str "params") = some params ∧
        params.valueString (str "requestId") [] = some e.requestId ∧
        pausedUrl params = some e.url ∧
        frame.valueString (str "sessionId") [] = some e.sessionId := by
  unfold fPausedRequest
  constructor
  · intro h
    obtain ⟨params, hparams, h⟩ := Option.bind_eq_some_iff.mp h
    obtain ⟨requestId, hrequestId, h⟩ := Option.bind_eq_some_iff.mp h
    obtain ⟨url, hurl, h⟩ := Option.bind_eq_some_iff.mp h
    obtain ⟨sessionId, hsessionId, h⟩ := Option.bind_eq_some_iff.mp h
    cases h
    exact ⟨params, hparams, hrequestId, hurl, hsessionId⟩
  · rintro ⟨params, hparams, hrequestId, hurl, hsessionId⟩
    simp only [Option.bind_eq_bind, hparams, hrequestId, hurl, hsessionId, Option.bind_some]

/-- **The session takes up the paused requests**, each with its own id and URL,
and nothing else. -/
theorem pausedEvent_eq_some_iff {frame : Json} {e : Paused} :
    pausedEvent frame = some e ↔ IsPaused frame e := by
  constructor
  · intro h
    unfold pausedEvent at h
    split at h
    · cases h
    · rename_i method hmethod hnoReply
      split at h
      · rename_i hpaused
        rw [hpaused] at hmethod
        obtain ⟨hobject, hfield | ⟨-, hempty⟩⟩ := valueString_eq_some_iff.mp hmethod
        · obtain ⟨params, hparams, hrequestId, hurl, hsession⟩ := fPausedRequest_eq_some_iff.mp h
          obtain ⟨hparamsObject, hrequestId⟩ := valueString_eq_some_iff.mp hrequestId
          exact ⟨hobject, fun n hn => hnoReply n hn, hfield,
            ⟨params, hparams, hparamsObject, hrequestId, pausedUrl_eq_some_iff.mp hurl⟩,
            (valueString_eq_some_iff.mp hsession).2⟩
        · exact absurd hempty (by decide)
      · cases h
    · cases h
  · intro h
    obtain ⟨params, hparams, hparamsObject, hrequestId, hurl⟩ := h.params
    have hmethod := valueString_eq_some_iff.mpr ⟨h.object, Or.inl h.method⟩
    rw [pausedEvent_of_method h.noReply hmethod, if_pos rfl, fPausedRequest_eq_some_iff]
    exact ⟨params, hparams, valueString_eq_some_iff.mpr ⟨hparamsObject, hrequestId⟩,
      pausedUrl_eq_some_iff.mpr hurl, valueString_eq_some_iff.mpr ⟨h.object, h.session⟩⟩

theorem requested_iff {frames : List Json} {requests : List Paused} :
    Requested frames requests ↔ frames.filterMap pausedEvent = requests := by
  constructor
  · intro h
    induction h with
    | nil => rfl
    | paused hpaused _ ih =>
        rw [List.filterMap_cons_some (pausedEvent_eq_some_iff.mpr hpaused), ih]
    | other hnot _ ih =>
        rename_i frame _ _ _
        have hnone : pausedEvent frame = none :=
          Option.eq_none_iff_forall_ne_some.mpr
            (fun e he => hnot e (pausedEvent_eq_some_iff.mp he))
        rw [List.filterMap_cons_none hnone, ih]
  · rintro rfl
    induction frames with
    | nil => exact .nil
    | cons frame frames ih =>
        cases hevent : pausedEvent frame with
        | none =>
            rw [List.filterMap_cons_none hevent]
            refine .other (fun e he => ?_) ih
            rw [pausedEvent_eq_some_iff.mpr he] at hevent
            cases hevent
        | some e =>
            rw [List.filterMap_cons_some hevent]
            exact .paused (pausedEvent_eq_some_iff.mp hevent) ih

/-- The lock, on the requests the session takes up. -/
theorem locked_iff {fileUrl : Str} {log : List Event} :
    Locked fileUrl log ↔ List.Forall₂ (Answers fileUrl) (paused log) (answers log) := by
  constructor
  · rintro ⟨requests, hrequests, hanswers⟩
    unfold paused
    rw [requested_iff.mp hrequests]
    exact hanswers
  · intro h
    exact ⟨paused log, requested_iff.mpr rfl, h⟩

theorem mem_paused {log : List Event} {e : Paused} :
    e ∈ paused log ↔ ∃ frame ∈ received log, IsPaused frame e := by
  unfold paused
  rw [List.mem_filterMap]
  simp only [pausedEvent_eq_some_iff]

/-! ## The log -/

theorem received_received (frame : Json) (log : List Event) :
    received (.received frame :: log) = received log ++ [frame] := by
  unfold received
  rw [List.reverse_cons, List.filterMap_append]
  rfl

theorem received_sent (id : Nat) (command : Command) (log : List Event) :
    received (.sent id command :: log) = received log := by
  unfold received
  rw [List.reverse_cons, List.filterMap_append]
  exact List.append_nil _

theorem received_returned (id : Nat) (response : Json) (log : List Event) :
    received (.returned id response :: log) = received log := by
  unfold received
  rw [List.reverse_cons, List.filterMap_append]
  exact List.append_nil _

theorem paused_received (frame : Json) (log : List Event) :
    paused (.received frame :: log) = paused log ++ (pausedEvent frame).toList := by
  unfold paused
  rw [received_received, List.filterMap_append]
  cases h : pausedEvent frame <;> simp [h]

theorem paused_sent (id : Nat) (command : Command) (log : List Event) :
    paused (.sent id command :: log) = paused log := by
  unfold paused
  rw [received_sent]

theorem paused_returned (id : Nat) (response : Json) (log : List Event) :
    paused (.returned id response :: log) = paused log := by
  unfold paused
  rw [received_returned]

theorem answers_received (frame : Json) (log : List Event) :
    answers (.received frame :: log) = answers log := by
  unfold answers
  rw [List.reverse_cons, List.filterMap_append]
  simp

theorem answers_sent (id : Nat) (command : Command) (log : List Event) :
    answers (.sent id command :: log) =
      answers log ++ if command.isAnswer then [command] else [] := by
  unfold answers
  rw [List.reverse_cons, List.filterMap_append]
  cases h : command.isAnswer <;> simp [h]

theorem answers_returned (id : Nat) (response : Json) (log : List Event) :
    answers (.returned id response :: log) = answers log := by
  unfold answers
  rw [List.reverse_cons, List.filterMap_append]
  simp

/-! ## The answers of the session -/

theorem isAnswer_response (e : Paused) : e.response.isAnswer = true := by
  unfold Paused.response Command.isAnswer
  split <;> simp

/-- The script never answers a paused request. -/
theorem not_isAnswer_command (fileUrl : Str) (stage : Stage) :
    (stage.command fileUrl).isAnswer = false := by
  cases stage <;> rfl

theorem file_not_data {url : Str} (h : fStartsWith url (str "file://") = true) :
    fStartsWith url (str "data:") = false := by
  unfold fStartsWith at h ⊢
  rw [List.isPrefixOf_iff_prefix] at h
  obtain ⟨rest, rfl⟩ := h
  rfl

/-- **The answer is the promised one** exactly when the URL is not that of
another file. -/
theorem answers_response_iff (fileUrl : Str) (e : Paused) :
    Answers fileUrl e e.response ↔
      (fStartsWith e.url (str "file://") = true → e.url = fileUrl) := by
  have hmethods : str "Fetch.failRequest" ≠ str "Fetch.continueRequest" := by decide
  constructor
  · intro h hfile
    have hallowed : allowed e.url = true := by
      unfold allowed
      rw [hfile, Bool.true_or]
    have hmethod : e.response.method = str "Fetch.continueRequest" := by
      unfold Paused.response
      rw [if_pos hallowed]
    rcases h.continues hmethod with hsame | hdata
    · exact hsame
    · rw [file_not_data hfile] at hdata
      cases hdata
  · intro h
    have hpermitted (hallowed : allowed e.url = true) : Permitted fileUrl e.url := by
      unfold allowed at hallowed
      rcases Bool.or_eq_true_iff.mp hallowed with hfile | hdata
      · exact Or.inl (h hfile)
      · exact Or.inr hdata
    unfold Paused.response
    by_cases hallowed : allowed e.url = true
    · rw [if_pos hallowed]
      refine ⟨rfl, fun _ => hpermitted hallowed, ?_⟩
      intro hnot
      exact absurd (hpermitted hallowed) hnot
    · rw [if_neg hallowed]
      refine ⟨rfl, ?_, fun _ => rfl⟩
      intro hmethod
      exact absurd hmethod hmethods

/-! ## Answers can be serialised -/

/-- A field of a value that can be serialised can be serialised. -/
theorem dumps_find? {frame value : Json} {key : Str} (h : frame.dumps = true)
    (hfind : frame.find? key = some value) : value.dumps = true := by
  cases frame with
  | object fields =>
      unfold Json.find? at hfind
      unfold Json.dumps at h
      obtain ⟨field, hfield, rfl⟩ := Option.map_eq_some_iff.mp hfind
      have hmem := List.mem_of_find?_eq_some hfield
      clear hfield hfind
      induction fields with
      | nil => cases hmem
      | cons first rest ih =>
          unfold dumpsFields at h
          rw [Bool.and_eq_true, Bool.and_eq_true] at h
          rcases List.mem_cons.mp hmem with rfl | hrest
          · exact h.1.2
          · exact ih h.2 hrest
  | _ => cases hfind

theorem validUtf8_valueString {frame : Json} {key value : Str} (h : frame.dumps = true)
    (hvalue : frame.valueString key [] = some value) : validUtf8 value = true := by
  unfold Json.valueString at hvalue
  split at hvalue
  · split at hvalue
    · cases hvalue
      rfl
    · rename_i field hfind
      have hfield := dumps_find? h hfind
      cases field with
      | string s =>
          cases hvalue
          exact hfield
      | _ => cases hvalue
  · cases hvalue

/-- The ids of a paused request are valid text. -/
theorem valid_fPausedRequest {frame : Json} {e : Paused} (h : frame.dumps = true)
    (he : fPausedRequest frame = some e) :
    validUtf8 e.requestId = true ∧ validUtf8 e.sessionId = true := by
  obtain ⟨params, hparams, hrequestId, _, hsessionId⟩ := fPausedRequest_eq_some_iff.mp he
  exact ⟨validUtf8_valueString (dumps_find? h hparams) hrequestId,
    validUtf8_valueString h hsessionId⟩

theorem validUtf8_fields : validUtf8 (str "id") = true ∧ validUtf8 (str "method") = true ∧
    validUtf8 (str "params") = true ∧ validUtf8 (str "sessionId") = true ∧
    validUtf8 (str "requestId") = true ∧ validUtf8 (str "errorReason") = true := by
  refine ⟨?_, ?_, ?_, ?_, ?_, ?_⟩ <;> exact validUtf8_of_ascii (by decide +kernel)

theorem validUtf8_methods : validUtf8 (str "Fetch.continueRequest") = true ∧
    validUtf8 (str "Fetch.failRequest") = true ∧ validUtf8 (str "BlockedByClient") = true := by
  refine ⟨?_, ?_, ?_⟩ <;> exact validUtf8_of_ascii (by decide +kernel)

/-- **An answer with valid ids can be serialised.** -/
theorem dumps_response {e : Paused} (hrequest : validUtf8 e.requestId = true)
    (hsession : validUtf8 e.sessionId = true) (id : Nat) : (e.response.json id).dumps = true := by
  obtain ⟨hid, hmethod, hparams, hsessionKey, hrequestKey, hreasonKey⟩ := validUtf8_fields
  obtain ⟨hcontinue, hfail, hreason⟩ := validUtf8_methods
  have hcommand : e.response.params.dumps = true ∧ validUtf8 e.response.method = true ∧
      e.response.sessionId = e.sessionId := by
    unfold Paused.response
    split
    · refine ⟨?_, hcontinue, rfl⟩
      simp only [Json.dumps, dumpsFields, hrequestKey, hrequest, Bool.and_self]
    · refine ⟨?_, hfail, rfl⟩
      simp only [Json.dumps, dumpsFields, hrequestKey, hrequest, hreasonKey, hreason, Bool.and_self]
  obtain ⟨hdumps, hvalid, hsame⟩ := hcommand
  unfold Command.json
  split
  · simp only [Json.dumps, dumpsFields, hid, hmethod, hparams, hvalid, hdumps, Bool.and_self]
  · simp only [Json.dumps, List.cons_append, List.nil_append, dumpsFields, hid, hmethod, hparams,
      hvalid, hdumps, hsessionKey, hsame, hsession, Bool.and_self]

/-! ## What a step does to the two lists -/

variable {parse : Str → Option Json} {url : Str} {choice : Choice} {s s' : Session}
  {jobs : List Job}

/-- Jobs of the render thread. -/
def Job.Renders : Job → Prop
  | .call _ | .transmit _ _ | .await _ _ | .awaitLoad _ => True
  | .receive | .answer _ | .respond _ _ => False

/-- A state in which nothing was paused or answered since `s`. -/
def Untouched (s s' : Session) : Prop :=
  paused s'.log = paused s.log ∧ answers s'.log = answers s.log

theorem Session.fail_untouched (s : Session) (e : AppError) :
    Untouched s (s.fail e).1 ∧ ∀ job ∈ (s.fail e).2, job.Renders := by
  refine ⟨⟨rfl, rfl⟩, ?_⟩
  intro job hjob
  cases hjob

theorem Session.proceed_untouched (s : Session) (step : Except AppError Step) :
    Untouched s (s.proceed step).1 ∧ ∀ job ∈ (s.proceed step).2, job.Renders := by
  unfold Session.proceed
  split
  · refine ⟨⟨rfl, rfl⟩, ?_⟩
    intro job hjob
    rw [List.mem_singleton.mp hjob]
    trivial
  · refine ⟨⟨rfl, rfl⟩, ?_⟩
    intro job hjob
    rw [List.mem_singleton.mp hjob]
    trivial
  · refine ⟨⟨rfl, rfl⟩, ?_⟩
    intro job hjob
    cases hjob
  · exact s.fail_untouched _

/-- **The render thread** neither pauses nor answers. -/
theorem untouched_render {job : Job} (hjob : job.Renders)
    (h : perform parse url choice job s = some (s', jobs)) :
    Untouched s s' ∧ ∀ new ∈ jobs, new.Renders := by
  have hsingle (new : Job) (hnew : new.Renders) : ∀ other ∈ [new], other.Renders := by
    intro other hother
    rw [List.mem_singleton.mp hother]
    exact hnew
  unfold perform at h
  cases job with
  | call stage =>
      cases h
      exact ⟨⟨rfl, rfl⟩, hsingle _ trivial⟩
  | transmit id stage =>
      dsimp only at h
      split at h
      · split at h
        · cases h
          exact s.fail_untouched _
        · split at h
          · cases h
            exact s.fail_untouched _
          · cases h
            refine ⟨⟨paused_sent _ _ _, ?_⟩, hsingle _ trivial⟩
            change answers (.sent id (stage.command url) :: s.log) = _
            rw [answers_sent, not_isAnswer_command]
            exact List.append_nil _
      · cases h
  | await id stage =>
      dsimp only at h
      split at h
      · rename_i response hresponse
        have hafter := Option.some.inj h
        obtain ⟨⟨hpaused, hanswers⟩, hjobs⟩ := Session.proceed_untouched
          (Session.note { s with responses := fun n => if n = id then none else s.responses n }
            (.returned id response)) (fCallResult (stage.command url).method response >>= stage.next)
        rw [hafter] at hpaused hanswers hjobs
        exact ⟨⟨hpaused.trans (paused_returned _ _ _), hanswers.trans (answers_returned _ _ _)⟩,
          hjobs⟩
      · split at h
        · cases h
          exact s.fail_untouched _
        · cases h
      · cases h
        exact s.fail_untouched _
      · cases h
  | awaitLoad sessionId =>
      dsimp only at h
      split at h
      · split at h
        · cases h
          exact ⟨⟨rfl, rfl⟩, hsingle _ trivial⟩
        · split at h
          · cases h
            exact s.fail_untouched _
          · cases h
      · split at h
        · cases h
        · cases h
          exact s.fail_untouched _
      · cases h
  | _ => exact hjob.elim

theorem fHandleMessage_keeps (frame : Json) (s : Session) :
    (fHandleMessage frame s).1.log = s.log ∧ (fHandleMessage frame s).1.outcome = s.outcome := by
  unfold fHandleMessage
  split
  · exact ⟨rfl, rfl⟩
  · split
    · exact ⟨rfl, rfl⟩
    · split
      · split <;> exact ⟨rfl, rfl⟩
      · exact ⟨rfl, rfl⟩

/-- A text that is an object is a message received, and nothing else is. -/
theorem received_fOnMessage (parse : Str → Option Json) (text : Str) (s : Session) :
    received (fOnMessage parse text s).1.log =
      received s.log ++ ((parse text).filter Json.isObject).toList := by
  unfold fOnMessage
  cases parse text with
  | none => exact (List.append_nil _).symm
  | some frame =>
      dsimp only
      rw [Option.filter_some]
      by_cases hobject : frame.isObject = true
      · rw [if_pos hobject, if_pos hobject, (fHandleMessage_keeps frame _).1]
        exact received_received frame s.log
      · rw [if_neg hobject, if_neg hobject]
        exact (List.append_nil _).symm

/-- **A message** pauses at most one request, and then answers it next. -/
theorem fOnMessage_cases (hparse : ∀ text frame, parse text = some frame → frame.dumps = true)
    (text : Str) (s : Session) :
    answers (fOnMessage parse text s).1.log = answers s.log ∧
      (fOnMessage parse text s).1.outcome = s.outcome ∧
      ((fOnMessage parse text s).2 = [] ∧ paused (fOnMessage parse text s).1.log = paused s.log ∨
        ∃ e, (fOnMessage parse text s).2 = [.answer e] ∧
          paused (fOnMessage parse text s).1.log = paused s.log ++ [e] ∧
          validUtf8 e.requestId = true ∧ validUtf8 e.sessionId = true) := by
  unfold fOnMessage
  cases htext : parse text with
  | none => exact ⟨rfl, rfl, Or.inl ⟨rfl, rfl⟩⟩
  | some frame =>
      have hdumps := hparse text frame htext
      dsimp only
      split
      · have hnone (hpaused : pausedEvent frame = none) :
            paused (s.note (.received frame)).log = paused s.log := by
          change paused (.received frame :: s.log) = _
          rw [paused_received, hpaused]
          exact List.append_nil _
        have hanswers : answers (s.note (.received frame)).log = answers s.log :=
          answers_received frame s.log
        unfold fHandleMessage
        split
        · rename_i id hid
          refine ⟨hanswers, rfl, Or.inl ⟨rfl, hnone ?_⟩⟩
          unfold pausedEvent
          rw [hid]
        · rename_i hid
          split
          · rename_i hmethod
            refine ⟨hanswers, rfl, Or.inl ⟨rfl, hnone ?_⟩⟩
            unfold pausedEvent
            rw [hmethod]
            split
            · rfl
            · contradiction
            · rfl
          · rename_i method hmethod
            have hevent := pausedEvent_of_method (fun n hn => hid n hn) hmethod
            split
            · rename_i hpaused
              rw [if_pos hpaused] at hevent
              cases he : fPausedRequest frame with
              | none =>
                  refine ⟨hanswers, rfl, Or.inl ⟨rfl, hnone ?_⟩⟩
                  rw [hevent, he]
              | some e =>
                  refine ⟨hanswers, rfl, Or.inr ⟨e, rfl, ?_, valid_fPausedRequest hdumps he⟩⟩
                  change paused (.received frame :: s.log) = _
                  rw [paused_received, hevent, he]
                  rfl
            · rename_i hpaused
              rw [if_neg hpaused] at hevent
              exact ⟨hanswers, rfl, Or.inl ⟨rfl, hnone hevent⟩⟩
      · exact ⟨rfl, rfl, Or.inl ⟨rfl, rfl⟩⟩

/-! ## Runs -/

/-- The connection to the browser stays up. -/
def Up : Action Empty Choice → Pool Session Job → Prop
  | .run _ (.connected up), _ => up = true
  | .run _ .close, _ => False
  | _, _ => True

/-- Where the socket thread is, and the request it has yet to answer. -/
inductive Waiting : List Job → List Paused → Prop
  | idle : Waiting [.receive] []
  | drawing (e : Paused) : Waiting [.answer e, .receive] [e]
  | sending (id : Nat) (e : Paused) : Waiting [.respond id e, .receive] [e]

/-- What holds while the connection stays up: all paused requests but the
pending one have been answered, in order. -/
structure Answering (p : Pool Session Job) (render socket : List Job) (pending : List Paused) :
    Prop where
  threads : p.threads = [render, socket]
  renders : ∀ job ∈ render, job.Renders
  waiting : Waiting socket pending
  answered : ∃ done, paused p.state.log = done ++ pending ∧
    answers p.state.log = done.map Paused.response
  valid : ∀ e ∈ pending, validUtf8 e.requestId = true ∧ validUtf8 e.sessionId = true

/-- A request whose answer is sent is pending no longer. -/
theorem answered_sent {s : Session} {done : List Paused} {e : Paused}
    (hpaused : paused s.log = done ++ [e]) (hanswers : answers s.log = done.map Paused.response)
    (id : Nat) :
    paused (s.note (.sent id e.response)).log = (done ++ [e]) ++ [] ∧
      answers (s.note (.sent id e.response)).log = (done ++ [e]).map Paused.response := by
  constructor
  · change paused (.sent id e.response :: s.log) = _
    rw [paused_sent, hpaused, List.append_nil]
  · change answers (.sent id e.response :: s.log) = _
    rw [answers_sent, isAnswer_response, hanswers, List.map_append]
    rfl

variable {p p' : Pool Session Job} {render socket : List Job} {pending : List Paused}

/-- **A step of the socket thread** takes up a request or answers it. -/
theorem Answering.socket_step
    (hparse : ∀ text frame, parse text = some frame → frame.dumps = true)
    (h : Answering p render socket pending) {job : Job} {rest : List Job}
    (hsocket : socket = job :: rest) (hup : Up (.run 1 choice) p)
    (hperform : perform parse url choice job p.state = some (s', jobs)) :
    ∃ pending', Answering ⟨s', [render, jobs ++ rest]⟩ render (jobs ++ rest) pending' := by
  obtain ⟨done, hpaused, hanswers⟩ := h.answered
  have hvalid := h.valid
  have hwaiting := h.waiting
  rw [hsocket] at hwaiting
  unfold perform at hperform
  cases hwaiting with
  | idle =>
      dsimp only at hperform
      split at hperform
      · cases hperform
      · split at hperform
        · rename_i text
          cases hperform
          rw [List.append_nil] at hpaused
          obtain ⟨hsame, _, ⟨hjobs, hnone⟩ | ⟨e, hjobs, hone, hids⟩⟩ :=
            fOnMessage_cases hparse text p.state
          · refine ⟨[], rfl, h.renders, ?_, ⟨done, ?_, hsame.trans hanswers⟩, ?_⟩
            · rw [hjobs]
              exact Waiting.idle
            · exact hnone.trans (hpaused.trans (List.append_nil done).symm)
            · intro e he
              cases he
          · refine ⟨[e], rfl, h.renders, ?_, ⟨done, ?_, hsame.trans hanswers⟩, ?_⟩
            · rw [hjobs]
              exact Waiting.drawing e
            · rw [hone, hpaused]
            · intro e' he'
              rw [List.mem_singleton.mp he']
              exact hids
        · exact hup.elim
        · cases hperform
  | drawing e =>
      cases hperform
      exact ⟨[e], rfl, h.renders, Waiting.sending _ e, ⟨done, hpaused, hanswers⟩, hvalid⟩
  | sending id e =>
      dsimp only at hperform
      split at hperform
      · rename_i up
        have hconnected : up = true := hup
        obtain ⟨hrequest, hsession⟩ := hvalid e (List.mem_singleton_self e)
        rw [dumps_response hrequest hsession id, hconnected] at hperform
        cases hperform
        obtain ⟨hpaused', hanswers'⟩ := answered_sent hpaused hanswers id
        refine ⟨[], rfl, h.renders, Waiting.idle, ⟨done ++ [e], hpaused', hanswers'⟩, ?_⟩
        intro e he
        cases he
      · cases hperform

theorem answering_step (hparse : ∀ text frame, parse text = some frame → frame.dumps = true)
    (h : Answering p render socket pending) {a : Action Empty Choice} (hup : Up a p)
    (hstep : (machine parse url).step a p = some p') :
    ∃ render' socket' pending', Answering p' render' socket' pending' := by
  rcases Machine.step_of_pair h.threads hstep with
    ⟨job, rest, choice, s, jobs, ha, hrender, hperform, hp'⟩ |
    ⟨job, rest, choice, s, jobs, ha, hsocket, hperform, hp'⟩
  · have hmem : ∀ other ∈ job :: rest, other.Renders := hrender ▸ h.renders
    obtain ⟨⟨hpaused, hanswers⟩, hjobs⟩ :=
      untouched_render (hmem job List.mem_cons_self) hperform
    obtain ⟨done, hdone, hsent⟩ := h.answered
    rw [hp']
    refine ⟨jobs ++ rest, socket, pending, rfl, ?_, h.waiting,
      ⟨done, hpaused.trans hdone, hanswers.trans hsent⟩, h.valid⟩
    intro other hother
    rcases List.mem_append.mp hother with hnew | hold
    · exact hjobs other hnew
    · exact hmem other (List.mem_cons_of_mem _ hold)
  · rw [ha] at hup
    obtain ⟨pending', hnext⟩ := h.socket_step hparse hsocket hup hperform
    rw [hp']
    exact ⟨render, _, pending', hnext⟩

/-- **Every reachable session answers what was paused**, in order. -/
theorem answering_of_reachable
    (hparse : ∀ text frame, parse text = some frame → frame.dumps = true)
    (hp : Machine.Reachable (machine parse url) Up Starts p) :
    ∃ render socket pending, Answering p render socket pending := by
  apply hp.invariant (I := fun p => ∃ render socket pending, Answering p render socket pending)
  · intro p hstart
    rw [hstart]
    refine ⟨_, _, [], rfl, ?_, Waiting.idle, ⟨[], rfl, rfl⟩, ?_⟩
    · intro job hjob
      rw [List.mem_singleton.mp hjob]
      trivial
    · intro e he
      cases he
  · intro a p p' h hup hstep
    obtain ⟨render, socket, pending, h⟩ := h
    exact answering_step hparse h hup hstep

/-- A step of the socket thread alone. -/
theorem step_socket {render rest : List Job} {job : Job} {s : Session}
    (hperform : perform parse url choice job s = some (s', jobs)) :
    (machine parse url).step (.run 1 choice) ⟨s, [render, job :: rest]⟩ =
      some ⟨s', [render, jobs ++ rest]⟩ := by
  have hthread : [render, job :: rest][1]? = some (job :: rest) := rfl
  have hmachine : (machine parse url).perform choice 1 job s = some (s', jobs) := hperform
  simp only [Machine.step, hthread, hmachine, Option.map_some]
  rfl

theorem perform_respond {e : Paused} (hrequest : validUtf8 e.requestId = true)
    (hsession : validUtf8 e.sessionId = true) (id : Nat) (s : Session) :
    perform parse url (.connected true) (.respond id e) s =
      some (s.note (.sent id e.response), []) := by
  unfold perform
  dsimp only
  rw [dumps_response hrequest hsession id]
  rfl

/-- **The pending request gets its answer** by steps of the socket thread
alone. -/
theorem Answering.finish (h : Answering p render socket pending) :
    ∃ as q, (∀ a ∈ as, a = .run 1 (.connected true)) ∧
      (machine parse url).exec as p = some q ∧ q.threads[1]? = some [.receive] ∧
      received q.state.log = received p.state.log := by
  obtain ⟨state, threads⟩ := p
  have hthreads : threads = [render, socket] := h.threads
  subst hthreads
  have hvalid := h.valid
  have hsend {e : Paused} (he : e ∈ pending) (id : Nat) (s : Session) :
      (machine parse url).step (.run 1 (.connected true)) ⟨s, [render, [.respond id e, .receive]]⟩ =
        some ⟨s.note (.sent id e.response), [render, [.receive]]⟩ :=
    step_socket (perform_respond (hvalid e he).1 (hvalid e he).2 id s)
  cases h.waiting with
  | idle => exact ⟨[], _, by simp, rfl, rfl, rfl⟩
  | drawing e =>
      let drawn : Session := { state with nextId := state.nextId + 1 }
      have hperform : perform parse url (.connected true) (.answer e) state =
          some (drawn, [.respond state.nextId e]) := rfl
      have hdraw : (machine parse url).step (.run 1 (.connected true))
          ⟨state, [render, [.answer e, .receive]]⟩ =
            some ⟨drawn, [render, [.respond state.nextId e, .receive]]⟩ := step_socket hperform
      refine ⟨[.run 1 (.connected true), .run 1 (.connected true)],
        ⟨drawn.note (.sent state.nextId e.response), [render, [.receive]]⟩, by simp, ?_, rfl,
        received_sent state.nextId e.response state.log⟩
      unfold Machine.exec
      rw [hdraw, Option.bind_some]
      unfold Machine.exec
      rw [hsend (List.mem_singleton_self e), Option.bind_some]
      rfl
  | sending id e =>
      refine ⟨[.run 1 (.connected true)],
        ⟨state.note (.sent id e.response), [render, [.receive]]⟩, by simp, ?_, rfl,
        received_sent id e.response state.log⟩
      unfold Machine.exec
      rw [hsend (List.mem_singleton_self e), Option.bind_some]
      rfl

/-- Until the render is over, a session that waits for a message takes any. -/
theorem Answering.deliver {render : List Job} {pending : List Paused}
    (h : Answering p render [.receive] pending) (hgoing : p.state.outcome = none) (text : Str) :
    ∃ p', (machine parse url).step (.run 1 (.deliver text)) p = some p' ∧
      received p'.state.log =
        received p.state.log ++ ((parse text).filter Json.isObject).toList := by
  obtain ⟨state, threads⟩ := p
  cases h.threads
  have hperform : perform parse url (.deliver text) .receive state =
      some ((fOnMessage parse text state).1, (fOnMessage parse text state).2 ++ [.receive]) := by
    have hgoing : state.outcome.isSome = false := congrArg Option.isSome hgoing
    change (if state.outcome.isSome = true then none else _) = _
    rw [hgoing]
    rfl
  exact ⟨_, step_socket hperform, received_fOnMessage parse text state⟩

/-- **The lock of a render.**  Take any run in which the connection stays up.
Whenever the socket thread waits for a message, every paused request has been
answered once and as promised, exactly if no message received paused a request
for a `file://` URL other than the document; then, as long as the render goes on,
it takes any message that comes; and when it does not wait, its own next steps
answer what is pending. -/
theorem export_locked_down (parse : Str → Option Json)
    (hparse : ∀ text frame, parse text = some frame → frame.dumps = true) (htmlFile : Str)
    (p : Pool Session Job)
    (hp : Machine.Reachable (machine parse (fileUrl htmlFile)) Up Starts p) :
    (p.threads[1]? = some [.receive] →
      (Locked (fileUrl htmlFile) p.state.log ↔
        ∀ frame ∈ received p.state.log, ∀ e, IsPaused frame e →
          fStartsWith e.url (str "file://") = true → e.url = fileUrl htmlFile)) ∧
      (p.threads[1]? = some [.receive] → p.state.outcome = none → ∀ text,
        ∃ p', (machine parse (fileUrl htmlFile)).step (.run 1 (.deliver text)) p = some p' ∧
          received p'.state.log =
            received p.state.log ++ ((parse text).filter Json.isObject).toList) ∧
      ∃ as q, (∀ a ∈ as, a = .run 1 (.connected true)) ∧
        (machine parse (fileUrl htmlFile)).exec as p = some q ∧
        q.threads[1]? = some [.receive] ∧ received q.state.log = received p.state.log := by
  obtain ⟨render, socket, pending, h⟩ := answering_of_reachable hparse hp
  refine ⟨?_, ?_, h.finish⟩
  · intro hidle
    obtain ⟨done, hpaused, hanswers⟩ := h.answered
    have hwaiting := h.waiting
    rw [h.threads] at hidle
    cases Option.some.inj hidle
    cases hwaiting
    rw [List.append_nil] at hpaused
    rw [locked_iff, hpaused, hanswers, List.forall₂_map_right_iff, List.forall₂_same, ← hpaused]
    constructor
    · intro hall frame hframe e he
      have hmem := mem_paused.mpr ⟨frame, hframe, he⟩
      exact (answers_response_iff (fileUrl htmlFile) e).mp (hall e hmem)
    · intro hall e he
      obtain ⟨frame, hframe, hpausedFrame⟩ := mem_paused.mp he
      exact (answers_response_iff (fileUrl htmlFile) e).mpr (hall frame hframe e hpausedFrame)
  · intro hidle hgoing text
    rw [h.threads] at hidle
    cases Option.some.inj hidle
    exact h.deliver hgoing text

/-! ### Two pages -/

/-- An object with one field, as the browser writes it. -/
def fieldText (key value : Str) : Str := str "\x7b\"" ++ key ++ str "\":" ++ value ++ str "\x7d"

def quoted (value : Str) : Str := str "\"" ++ value ++ str "\""

/-- The reply to command `n`, in text and parsed. -/
def reply (n : Nat) (digit : String) (text : Str) (result : Json) : Str × Json :=
  (str "\x7b\"id\":" ++ str digit ++ str ",\"result\":" ++ text ++ str "\x7d",
    .object [(str "id", .int n), (str "result", result)])

def nothing : Str := str "\x7b\x7d"

/-- The replies up to the navigation. -/
def replies : List (Str × Json) :=
  [reply 1 "1" (fieldText (str "targetId") (quoted (str "T")))
      (.object [(str "targetId", .string (str "T"))]),
    reply 2 "2" (fieldText (str "sessionId") (quoted (str "S")))
      (.object [(str "sessionId", .string (str "S"))]),
    reply 3 "3" nothing (.object []), reply 4 "4" nothing (.object []),
    reply 5 "5" nothing (.object [])]

/-- The page asks for a URL. -/
def asks (requestId url : Str) : Str × Json :=
  (str "\x7b\"method\":\"Fetch.requestPaused\",\"params\":\x7b\"request\":" ++
      fieldText (str "url") (quoted url) ++ str ",\"requestId\":" ++ quoted requestId ++
      str "\x7d,\"sessionId\":\"S\"\x7d",
    .object [(str "method", .string (str "Fetch.requestPaused")),
      (str "params", .object [(str "request", .object [(str "url", .string url)]),
        (str "requestId", .string requestId)]),
      (str "sessionId", .string (str "S"))])

def htmlFile : Str := str "/tmp/lectern-export-0/export.html"

def asksDocument : Str × Json := asks (str "r1") (fileUrl htmlFile)

def asksHost : Str × Json := asks (str "r2") (str "http://10.0.0.1/")

def asksPasswd : Str × Json := asks (str "r2") (str "file:///etc/passwd")

/-- The parser on these messages. -/
def parseTexts (text : Str) : Option Json :=
  ((replies ++ [asksDocument, asksHost, asksPasswd]).find? (fun entry => entry.1 = text)).map
    Prod.snd

/-- Render up to the navigation, then let the page ask. -/
def visit (requests : List (Str × Json)) : List (Action Empty Choice) :=
  replies.flatMap (fun entry => [.run 0 .wake, .run 0 (.connected true),
      .run 1 (.deliver entry.1), .run 0 .wake]) ++
    [.run 0 .wake, .run 0 (.connected true)] ++
    requests.flatMap (fun entry => [.run 1 (.deliver entry.1), .run 1 .wake,
      .run 1 (.connected true)])

def started : Pool Session Job := ⟨Session.start, [[.call .createTarget], [.receive]]⟩

/-- A page with an image on another host. -/
def hostPage : Pool Session Job :=
  ((machine parseTexts (fileUrl htmlFile)).exec (visit [asksDocument, asksHost])
    started).getD started

/-- A page with a system file in a frame. -/
def passwdPage : Pool Session Job :=
  ((machine parseTexts (fileUrl htmlFile)).exec (visit [asksDocument, asksPasswd]) started).getD
    started

theorem dumps_parseTexts (text : Str) (frame : Json) (h : parseTexts text = some frame) :
    frame.dumps = true := by
  have hall : (replies ++ [asksDocument, asksHost, asksPasswd]).all
      (fun entry => entry.2.dumps) = true := by
    decide +kernel
  obtain ⟨entry, hentry, rfl⟩ := Option.map_eq_some_iff.mp h
  exact List.all_eq_true.mp hall entry (List.mem_of_find?_eq_some hentry)

/-- The connection is up in this action. -/
def staysUp : Action Empty Choice → Bool
  | .run _ (.connected up) => up
  | .run _ .close => false
  | _ => true

theorem up_of_all {as : List (Action Empty Choice)} (hall : as.all staysUp = true)
    {a : Action Empty Choice} (ha : a ∈ as) (p : Pool Session Job) : Up a p := by
  have hthis := List.all_eq_true.mp hall a ha
  cases a with
  | enter e => exact e.elim
  | run i choice =>
      cases choice with
      | connected up => exact hthis
      | close => cases hthis
      | _ => trivial

theorem reachable_hostPage :
    Machine.Reachable (machine parseTexts (fileUrl htmlFile)) Up Starts hostPage := by
  refine Machine.Reachable.exec_getD ?_ (.start rfl) (by decide +kernel)
  exact fun a p ha => up_of_all (by decide) ha p

theorem reachable_passwdPage :
    Machine.Reachable (machine parseTexts (fileUrl htmlFile)) Up Starts passwdPage := by
  refine Machine.Reachable.exec_getD ?_ (.start rfl) (by decide +kernel)
  exact fun a p ha => up_of_all (by decide) ha p

/-- The socket thread waits for a message. -/
def waits (p : Pool Session Job) : Bool :=
  match p.threads[1]? with
  | some [Job.receive] => true
  | _ => false

theorem of_waits {p : Pool Session Job} (h : waits p = true) : p.threads[1]? = some [.receive] := by
  unfold waits at h
  split at h
  · rename_i hthread
    exact hthread
  · cases h

/-- The page with the image has been locked down. -/
theorem export_locked_down_hostPage :
    (answers hostPage.state.log).length = 2 ∧ Locked (fileUrl htmlFile) hostPage.state.log := by
  obtain ⟨hwaits, hlength, hfiles⟩ : waits hostPage = true ∧
      (answers hostPage.state.log).length = 2 ∧ (paused hostPage.state.log).all (fun e =>
        !fStartsWith e.url (str "file://") || e.url = fileUrl htmlFile) = true := by
    decide +kernel
  have hreachable := reachable_hostPage
  generalize hostPage = p at *
  obtain ⟨hlocked, _⟩ := export_locked_down parseTexts dumps_parseTexts htmlFile p hreachable
  refine ⟨hlength, (hlocked (of_waits hwaits)).mpr ?_⟩
  intro frame hframe e he hfile
  have hthis := List.all_eq_true.mp hfiles e (mem_paused.mpr ⟨frame, hframe, he⟩)
  rw [hfile] at hthis
  simpa using hthis

/-- **A page is let through to a system file**: the request for `/etc/passwd`
is continued. -/
theorem passwdPage_not_locked :
    Machine.Reachable (machine parseTexts (fileUrl htmlFile)) Up Starts passwdPage ∧
      passwdPage.threads[1]? = some [.receive] ∧
      ¬ Locked (fileUrl htmlFile) passwdPage.state.log := by
  obtain ⟨hwaits, hpasswd⟩ : waits passwdPage = true ∧
      ((paused passwdPage.state.log).zip (answers passwdPage.state.log)).any
        (fun entry => entry.1.url = str "file:///etc/passwd" &&
          entry.2.method = str "Fetch.continueRequest") = true := by
    decide +kernel
  have hreachable := reachable_passwdPage
  generalize passwdPage = p at *
  refine ⟨hreachable, of_waits hwaits, ?_⟩
  intro hlocked
  obtain ⟨⟨e, c⟩, hzip, hentry⟩ := List.any_eq_true.mp hpasswd
  rw [Bool.and_eq_true, decide_eq_true_eq, decide_eq_true_eq] at hentry
  have hanswers : Answers (fileUrl htmlFile) e c :=
    (List.forall₂_iff_zip.mp (locked_iff.mp hlocked)).2 hzip
  rcases hanswers.continues hentry.2 with hsame | hdata
  · rw [hentry.1] at hsame
    revert hsame
    decide
  · rw [hentry.1] at hdata
    revert hdata
    decide

end Lectern.Export
