import Lectern.Sync.Hub
import Lectern.Threads.History
import Lectern.Threads.Pool

/-!
# The hub at work

Every call of the hub runs in a thread of its own, cut where other threads can
get in between: each locked part, each send, the scheduling of a timer, the
call of the resolver.  A timer is a task the scheduler holds; it may fire at any
time after it was scheduled.  The rest of the server is behind a `Service`: a
request changes it in one step and, when it succeeds, announces a change.

Every step notes what it did in a log, the latest first.  No step reads it.
-/

namespace Lectern.Sync

open Threads

/-- A change to announce: `fNotifyChanges`. -/
structure Announcement where
  ownerId : Str
  paths : List Str
  originDevice : Str
  deriving DecidableEq, Repr

/-- What the hub is given and what else the server does: the JSON parser, the
watch resolver, the requests. -/
structure Service (ε R : Type) where
  parse : Str → Option Json
  resolve : ε → Str → Json → Option (Str × Str)
  serve : R → ε → ε × Option Announcement

/-- The next steps of a thread. -/
inductive Job (R : Type) where
  | handle (c : Nat) (frame : Json)
  | resolve (c : Nat) (userId : Str) (frame : Json)
  | follow (c : Nat) (target : Option (Str × Str)) (frame : Json)
  | reply (c : Nat) (kind : Reply) (id : Str)
  | track (c : Nat) (frame : Frame)
  | send (c : Nat) (id : Str) (frame : Frame)
  | schedule (c : Nat) (id : Str)
  | close (c : Nat)
  | serve (r : R)
  | notify (a : Announcement)

/-- What has happened, with the thread where it matters. -/
inductive Event (ε R : Type) where
  | added (c : Nat) (userId : Str) (thread : Nat)
  | removed (c : Nat)
  | issued (c : Nat) (id : Str)
  | sent (c : Nat) (id : Str) (frame : Frame)
  | replied (c : Nat) (kind : Reply) (id : Str)
  | acked (c : Nat) (id : Str)
  | fired (c : Nat) (id : Str)
  | dropped (c : Nat)
  | closed (c : Nat)
  | served (thread : Nat) (r : R) (before : ε)
  | notified (thread : Nat) (a : Announcement) (connections : List (Nat × Connection))

/-- The hub, the rest of the server, and the tasks the scheduler holds. -/
structure Sys (ε R : Type) where
  env : ε
  hub : Hub
  timers : List (Nat × Str)
  log : List (Event ε R)

variable {ε R : Type}

namespace Sys

def note (s : Sys ε R) (event : Event ε R) : Sys ε R := { s with log := event :: s.log }

def setHub (s : Sys ε R) (hub : Hub) : Sys ε R := { s with hub := hub }

end Sys

/-- What reaches the server from outside. -/
inductive Entry (R : Type) where
  | connect (userId : Str)
  | disconnect (c : Nat)
  | message (c : Nat) (text : Str)
  | fire (c : Nat) (id : Str)
  | request (r : R)

/-- A reply is only sent to a frame that has an id. -/
def answer (c : Nat) (kind : Reply) (frame : Json) : List (Job R) :=
  let id := frame.fStringField (str "id")
  if id = [] then [] else [.reply c kind id]

/-- `fHandle` after its first locked part. -/
def afterHandle (c : Nat) (userId : Str) (frame : Json) : List (Job R) :=
  let type := frame.fStringField (str "type")
  if type = str "ack" then []
  else if type = str "hello" ∨ type = str "ping" ∨ type = str "changes" then answer c .ack frame
  else if type = str "watch" then [.resolve c userId frame]
  else if type = str "unwatch" then [.follow c none frame]
  else []

/-- Start a thread. -/
def enter (svc : Service ε R) : Entry R → Nat → Sys ε R → Option (Sys ε R × List (Job R))
  | .connect userId, i, s =>
      some ((s.setHub (s.hub.fAdd userId)).note (.added s.hub.nextConnection userId i),
        if userId = [] then [] else [.track s.hub.nextConnection .requestChanges])
  | .disconnect c, _, s => some ((s.setHub (s.hub.fRemove c)).note (.removed c), [])
  | .message c text, _, s =>
      match svc.parse text with
      | some frame => some (s, if frame.isObject then [.handle c frame] else [])
      | none => some (s, [])
  | .fire c id, _, s =>
      if (c, id) ∈ s.timers then
        let s := { s with timers := s.timers.erase (c, id) }.note (.fired c id)
        match s.hub.fExpire c id with
        | some hub => some ((s.setHub hub).note (.dropped c), [.close c])
        | none => some (s, [])
      else none
  | .request r, _, s => some (s, [.serve r])

/-- Do a job in thread `i`; `returns` says whether a send returns normally. -/
def perform (svc : Service ε R) (returns : Bool) (i : Nat) :
    Job R → Sys ε R → Sys ε R × List (Job R)
  | .handle c frame, s =>
      match s.hub.find c with
      | none => (s, [])
      | some conn =>
          let s := s.setHub (s.hub.fHandle c frame)
          (if frame.fStringField (str "type") = str "ack" then
              s.note (.acked c (frame.fStringField (str "id"))) else s,
            afterHandle c conn.userId frame)
  | .resolve c userId frame, s =>
      match svc.resolve s.env userId frame with
      | none => (s, answer c .nack frame)
      | some target => (s, [.follow c (some target) frame])
  | .follow c target frame, s =>
      match s.hub.find c with
      | none => (s, [])
      | some _ => (s.setHub (s.hub.follow c target frame), answer c .ack frame)
  | .reply c kind id, s =>
      (if validUtf8 id && returns then s.note (.replied c kind id) else s, [])
  | .track c frame, s =>
      match s.hub.fSendTracked c with
      | none => (s, [])
      | some (hub, id) => ((s.setHub hub).note (.issued c id), [.send c id frame, .schedule c id])
  | .send c id frame, s =>
      (if (frame.json id).dumps && returns then s.note (.sent c id frame) else s, [])
  | .schedule c id, s => ({ s with timers := (c, id) :: s.timers }, [])
  | .close c, s => (s.note (.closed c), [])
  | .serve r, s =>
      let (env, announcement) := svc.serve r s.env
      ({ s with env := env }.note (.served i r s.env),
        match announcement with
        | some a => [.notify a]
        | none => [])
  | .notify a, s =>
      (s.note (.notified i a s.hub.connections),
        (s.hub.fNotify a.ownerId a.paths a.originDevice).map (fun entry => .track entry.1 entry.2))

/-- The hub and everything that calls it. -/
def machine (svc : Service ε R) : Machine (Sys ε R) (Job R) (Entry R) Bool where
  enter := enter svc
  perform returns i job s := some (perform svc returns i job s)

/-- Before anything has happened. -/
def Fresh (p : Pool (Sys ε R) (Job R)) : Prop :=
  p.threads = [] ∧ p.state.hub = Hub.start ∧ p.state.timers = [] ∧ p.state.log = []

end Lectern.Sync
