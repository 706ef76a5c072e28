import Lectern.Json
import Lectern.Threads.Pool
import Lectern.Workspace
import Mathlib.Algebra.Group.Int.Defs
import Mathlib.Data.Finset.Insert

/-!
# A render over the DevTools protocol

`CdpSession` and the script of `fRenderPdf` that drives it.  Two threads share
the session: the render thread sends commands and waits for replies, the socket
thread takes the browser's messages one after the other and answers paused
requests itself.  Each is cut where the other can get in between: drawing an
id, sending, waiting.

What the browser sends, whether the connection is up when a command is sent
and which waits time out is up to the actions of a run.  Command ids are
natural numbers; a render that exhausts `int` is left out.
-/

namespace Lectern.Export

open Threads

/-- A command without its id. -/
structure Command where
  method : Str
  params : Json
  sessionId : Str

/-- The message `fSend` builds. -/
def Command.json (id : Nat) (c : Command) : Json :=
  let fields := [(str "id", .int id), (str "method", .string c.method), (str "params", c.params)]
  .object (if c.sessionId = [] then fields else fields ++ [(str "sessionId", .string c.sessionId)])

/-! ## The script -/

/-- `file_url`: a leading slash would double up after the scheme. -/
def fileUrl (htmlFile : Str) : Str :=
  str "file:///" ++ (if htmlFile.head? = some slash then htmlFile.tail else htmlFile)

/-- The calls of `fRenderPdf`, with what earlier replies brought. -/
inductive Stage where
  | createTarget
  | attachToTarget (targetId : Str)
  | disableScripts (sessionId : Str)
  | enableFetch (sessionId : Str)
  | enablePage (sessionId : Str)
  | navigate (sessionId : Str)
  | printToPdf (sessionId : Str)

def Stage.command (fileUrl : Str) : Stage → Command
  | .createTarget =>
      ⟨str "Target.createTarget", .object [(str "url", .string (str "about:blank"))], []⟩
  | .attachToTarget targetId =>
      ⟨str "Target.attachToTarget",
        .object [(str "flatten", .bool true), (str "targetId", .string targetId)], []⟩
  | .disableScripts sessionId =>
      ⟨str "Emulation.setScriptExecutionDisabled", .object [(str "value", .bool true)], sessionId⟩
  | .enableFetch sessionId => ⟨str "Fetch.enable", .object [], sessionId⟩
  | .enablePage sessionId => ⟨str "Page.enable", .object [], sessionId⟩
  | .navigate sessionId =>
      ⟨str "Page.navigate", .object [(str "url", .string fileUrl)], sessionId⟩
  | .printToPdf sessionId =>
      ⟨str "Page.printToPDF", .object [(str "displayHeaderFooter", .bool false),
        (str "preferCSSPageSize", .bool true), (str "printBackground", .bool true)], sessionId⟩

/-- What the script does after a call has returned; `done` brings the printed
page, still in base64. -/
inductive Step where
  | call (stage : Stage)
  | load (sessionId : Str)
  | done (data : Str)

/-- A string of a reply the script cannot do without. -/
def required (result : Json) (key message : Str) : Except AppError Str :=
  match result.valueString key [] with
  | none => .error internalError
  | some value => if value = [] then .error (.fInternal message) else .ok value

def Stage.next : Stage → Json → Except AppError Step
  | .createTarget, target => do
      let targetId ← required target (str "targetId") (str "the PDF renderer opened no page")
      pure (.call (.attachToTarget targetId))
  | .attachToTarget _, attached => do
      let sessionId ← required attached (str "sessionId")
        (str "could not attach to the rendered page")
      pure (.call (.disableScripts sessionId))
  | .disableScripts sessionId, _ => pure (.call (.enableFetch sessionId))
  | .enableFetch sessionId, _ => pure (.call (.enablePage sessionId))
  | .enablePage sessionId, _ => pure (.call (.navigate sessionId))
  | .navigate sessionId, _ => pure (.load sessionId)
  | .printToPdf _, printed =>
      match printed.valueString (str "data") [] with
      | none => .error internalError
      | some data => pure (.done data)

/-- The end of `fCall`: what the reply to a command says. -/
def fCallResult (method : Str) (response : Json) : Except AppError Json :=
  match response.find? (str "error") with
  | some error =>
      match error.valueString (str "message") (str "unknown error") with
      | some message =>
          .error (.fInternal (str "PDF renderer rejected " ++ method ++ str ": " ++ message))
      | none => .error internalError
  | none => .ok ((response.find? (str "result")).getD (.object []))

/-! ## Paused requests -/

structure Paused where
  requestId : Str
  url : Str
  sessionId : Str

/-- The URL of the request in an event's `params`. -/
def pausedUrl (params : Json) : Option Str :=
  match params.find? (str "request") with
  | some request => request.valueString (str "url") []
  | none => some []

/-- What `fHandlePausedRequest` reads off an event; `none` when reading throws.
An event without `params` is undefined in the source and counted here too. -/
def fPausedRequest (event : Json) : Option Paused := do
  let params ← event.find? (str "params")
  let requestId ← params.valueString (str "requestId") []
  let url ← pausedUrl params
  let sessionId ← event.valueString (str "sessionId") []
  some ⟨requestId, url, sessionId⟩

def allowed (url : Str) : Bool :=
  fStartsWith url (str "file://") || fStartsWith url (str "data:")

/-- The command that answers a paused request. -/
def Paused.response (e : Paused) : Command :=
  if allowed e.url then
    ⟨str "Fetch.continueRequest", .object [(str "requestId", .string e.requestId)], e.sessionId⟩
  else
    ⟨str "Fetch.failRequest", .object [(str "errorReason", .string (str "BlockedByClient")),
      (str "requestId", .string e.requestId)], e.sessionId⟩

/-! ## The session -/

/-- What has happened. -/
inductive Event where
  | received (frame : Json)
  | sent (id : Nat) (command : Command)
  | returned (id : Nat) (response : Json)

/-- `CdpSession`, the outcome of the render once there is one, and a log, the
latest first, that nothing reads. -/
structure Session where
  nextId : Nat
  closed : Bool
  responses : Int → Option Json
  seenEvents : Finset Str
  outcome : Option (Except AppError Str)
  log : List Event

def Session.start : Session := ⟨1, false, fun _ => none, ∅, none, []⟩

def Session.note (s : Session) (event : Event) : Session := { s with log := event :: s.log }

/-- The next steps of a thread: of the render thread, of the socket thread. -/
inductive Job where
  | call (stage : Stage)
  | transmit (id : Nat) (stage : Stage)
  | await (id : Nat) (stage : Stage)
  | awaitLoad (sessionId : Str)
  | receive
  | answer (e : Paused)
  | respond (id : Nat) (e : Paused)

/-- What decides how a step goes. -/
inductive Choice where
  | connected (up : Bool)
  | deliver (text : Str)
  | close
  | wake
  | timeout

/-- An exception ends the render. -/
def Session.fail (s : Session) (e : AppError) : Session × List Job :=
  ({ s with outcome := some (.error e) }, [])

def Session.proceed (s : Session) : Except AppError Step → Session × List Job
  | .ok (.call stage) => (s, [.call stage])
  | .ok (.load sessionId) => (s, [.awaitLoad sessionId])
  | .ok (.done data) => ({ s with outcome := some (.ok data) }, [])
  | .error e => s.fail e

/-- `get<int>()`. -/
def toInt (n : Int) : Int := n.bmod (2 ^ 32)

/-- `fHandleMessage` on an object. -/
def fHandleMessage (frame : Json) (s : Session) : Session × List Job :=
  match frame.find? (str "id") with
  | some (.int id) =>
      ({ s with responses := fun n => if n = toInt id then some frame else s.responses n }, [])
  | _ =>
      match frame.valueString (str "method") [] with
      | none => (s, [])
      | some method =>
          if method = str "Fetch.requestPaused" then
            match fPausedRequest frame with
            | none => (s, [])
            | some e => (s, [.answer e])
          else ({ s with seenEvents := insert method s.seenEvents }, [])

/-- `fOnMessage`: text that is no JSON object is dropped. -/
def fOnMessage (parse : Str → Option Json) (text : Str) (s : Session) : Session × List Job :=
  match parse text with
  | none => (s, [])
  | some frame => if frame.isObject then fHandleMessage frame (s.note (.received frame)) else (s, [])

def perform (parse : Str → Option Json) (fileUrl : Str) (choice : Choice) :
    Job → Session → Option (Session × List Job)
  | .call stage, s => some ({ s with nextId := s.nextId + 1 }, [.transmit s.nextId stage])
  | .transmit id stage, s =>
      match choice with
      | .connected up =>
          let command := stage.command fileUrl
          if !(command.json id).dumps then some (s.fail internalError)
          else if !up then some (s.fail (.fInternal (str "PDF renderer connection is gone")))
          else some (s.note (.sent id command), [.await id stage])
      | _ => none
  | .await id stage, s =>
      match choice, s.responses id with
      | .wake, some response =>
          let s := { s with responses := fun n => if n = id then none else s.responses n }
          let result := fCallResult (stage.command fileUrl).method response
          some ((s.note (.returned id response)).proceed (result >>= stage.next))
      | .wake, none =>
          if s.closed then some (s.fail (.fInternal (str "PDF renderer stopped responding")))
          else none
      | .timeout, none => some (s.fail (.fInternal (str "PDF renderer stopped responding")))
      | _, _ => none
  | .awaitLoad sessionId, s =>
      let seen := str "Page.loadEventFired" ∈ s.seenEvents
      match choice with
      | .wake =>
          if seen then some (s, [.call (.printToPdf sessionId)])
          else if s.closed then some (s.fail (.fInternal (str "the page never finished loading")))
          else none
      | .timeout =>
          if seen then none
          else some (s.fail (.fInternal (str "the page never finished loading")))
      | _ => none
  | .receive, s =>
      -- The session is gone once the render is over.
      if s.outcome.isSome then none
      else
        match choice with
        | .deliver text =>
            let (s, jobs) := fOnMessage parse text s
            some (s, jobs ++ [.receive])
        | .close => some ({ s with closed := true }, [])
        | _ => none
  | .answer e, s => some ({ s with nextId := s.nextId + 1 }, [.respond s.nextId e])
  | .respond id e, s =>
      match choice with
      | .connected up =>
          some (if (e.response.json id).dumps && up then s.note (.sent id e.response) else s, [])
      | _ => none

/-- The two threads; no thread is started later. -/
def machine (parse : Str → Option Json) (fileUrl : Str) : Machine Session Job Empty Choice where
  enter e := e.elim
  perform choice _ := perform parse fileUrl choice

/-- The connection is up and nothing has been sent yet. -/
def Starts (p : Pool Session Job) : Prop :=
  p = ⟨Session.start, [[.call .createTarget], [.receive]]⟩

end Lectern.Export
