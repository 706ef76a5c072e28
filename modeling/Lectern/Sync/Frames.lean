import Lectern.Sync.WellBehaved
import Lectern.Threads.Trace

/-!
# The thread of a text frame

A text frame is handled by a thread of its own: it is parsed, its connection is
looked up, a watch is resolved, the watch is installed if the connection is
still there, and a reply is sent.  An observer writes down which thread received
which text and, for every step of a thread, the state the step found and the
replies it sent.  What becomes of a frame can be read off that (`verdict`): from
the frame's type, from what the resolver says in the state it was asked in, and
from whether the connection was registered.

`Handling` ties the steps a thread has made to the jobs it has left.
-/

namespace Lectern.Sync

open Threads

variable {ε R : Type}

/-! ## The observer -/

/-- The reply an event sends, if it sends one. -/
def Event.reply? : Event ε R → Option (Nat × Reply × Str)
  | .replied c kind id => some (c, kind, id)
  | _ => none

/-- One step of a thread: the state it found, whether a send returned, and the
replies sent. -/
structure Look (ε R : Type) where
  found : Sys ε R
  returns : Bool
  replies : List (Nat × Reply × Str)

inductive Moment (ε R : Type) where
  | received (c : Nat) (text : Str)
  | stepped (look : Look ε R)

/-- The replies among what the second log has more. -/
def newReplies (log log' : List (Event ε R)) : List (Nat × Reply × Str) :=
  (log'.take (log'.length - log.length)).filterMap Event.reply?

/-- What the observer sees of an action, and in which thread. -/
def observe (svc : Service ε R) :
    Action (Entry R) Bool → Pool (Sys ε R) (Job R) → List (Nat × Moment ε R)
  | .enter (.message c text), p => [(p.threads.length, .received c text)]
  | .enter _, _ => []
  | .run i returns, p =>
      match (machine svc).step (.run i returns) p with
      | some p' => [(i, .stepped ⟨p.state, returns, newReplies p.state.log p'.state.log⟩)]
      | none => []

/-- The step a thread made, if the moment is one of its steps. -/
def lookOf (i : Nat) (n : Nat × Moment ε R) : Option (Look ε R) :=
  match n.2 with
  | .stepped look => if n.1 = i then some look else none
  | .received _ _ => none

/-- The text a thread received, if the moment is that. -/
def textOf (i : Nat) (n : Nat × Moment ε R) : Option (Nat × Str) :=
  match n.2 with
  | .received c text => if n.1 = i then some (c, text) else none
  | .stepped _ => none

/-- The steps of one thread, the first one first. -/
def looks (i : Nat) (trace : List (Nat × Moment ε R)) : List (Look ε R) :=
  (trace.filterMap (lookOf i)).reverse

/-- The text one thread received. -/
def heard (i : Nat) (trace : List (Nat × Moment ε R)) : Option (Nat × Str) :=
  (trace.filterMap (textOf i)).head?

theorem received_of_heard {i c : Nat} {text : Str} {trace : List (Nat × Moment ε R)}
    (h : heard i trace = some (c, text)) : (i, .received c text) ∈ trace := by
  obtain ⟨⟨j, moment⟩, hmem, htext⟩ := List.mem_filterMap.mp (List.mem_of_head? h)
  cases moment with
  | received c' text' =>
      change (if j = i then some (c', text') else none) = some (c, text) at htext
      split at htext
      · rename_i hi
        cases htext
        exact hi ▸ hmem
      · cases htext
  | stepped look => cases htext

/-! ## What becomes of a frame -/

/-- The type a frame names. -/
def namedType (frame : Json) : Option Str :=
  match frame.find? (str "type") with
  | some (.string type) => some type
  | _ => none

/-- Connection `c` is registered when the next step is made. -/
def registered (c : Nat) : List (Look ε R) → Bool
  | [] => false
  | look :: _ => (look.found.hub.find c).isSome

/-- What becomes of a watch or an unwatch. -/
inductive Verdict where
  | refused
  | follows (target : Option (Str × Str))
  deriving DecidableEq, Repr

/-- **What becomes of a watch or unwatch frame** of connection `c`, by the steps
made so far.  The first one looks up the connection.  For a watch the second one
asks the resolver, for the account of the connection; a watch that is granted,
and an unwatch, is installed by the next step if the connection is still
registered. -/
def verdict (svc : Service ε R) (c : Nat) (frame : Json) : List (Look ε R) → Option Verdict
  | [] => none
  | first :: later =>
      match first.found.hub.find c with
      | none => none
      | some conn =>
          if namedType frame = some (str "watch") then
            match later with
            | [] => none
            | second :: later =>
                match svc.resolve second.found.env conn.userId frame with
                | none => some .refused
                | some target =>
                    if registered c later then some (.follows (some target)) else none
          else if namedType frame = some (str "unwatch") then
            if registered c later then some (.follows none) else none
          else none

section

variable {svc : Service ε R} {c : Nat} {frame : Json}

theorem verdict_watch {first second : Look ε R} {conn : Connection} (later : List (Look ε R))
    (hfind : first.found.hub.find c = some conn) (htype : namedType frame = some (str "watch")) :
    verdict svc c frame (first :: second :: later) =
      match svc.resolve second.found.env conn.userId frame with
      | none => some .refused
      | some target => if registered c later then some (.follows (some target)) else none := by
  unfold verdict
  dsimp only
  rw [hfind]
  dsimp only
  rw [if_pos htype]

theorem verdict_unwatch {first : Look ε R} {conn : Connection} (later : List (Look ε R))
    (hfind : first.found.hub.find c = some conn) (htype : namedType frame = some (str "unwatch")) :
    verdict svc c frame (first :: later) =
      if registered c later then some (.follows none) else none := by
  have hnot : namedType frame ≠ some (str "watch") := by
    rw [htype]
    decide
  unfold verdict
  dsimp only
  rw [hfind]
  dsimp only
  rw [if_neg hnot, if_pos htype]

/-- Nothing becomes of a frame before its second step. -/
theorem verdict_first (first : Look ε R) : verdict svc c frame [first] = none := by
  unfold verdict
  dsimp only
  split
  · rfl
  · split
    · rfl
    · split <;> rfl

/-- Other frames follow nothing and are not refused. -/
theorem verdict_other (steps : List (Look ε R)) (hwatch : namedType frame ≠ some (str "watch"))
    (hunwatch : namedType frame ≠ some (str "unwatch")) : verdict svc c frame steps = none := by
  unfold verdict
  split
  · rfl
  · split
    · rfl
    · rw [if_neg hwatch, if_neg hunwatch]

/-- What became of a frame stays so. -/
theorem verdict_append {steps : List (Look ε R)} {v : Verdict}
    (h : verdict svc c frame steps = some v)
    (later : List (Look ε R)) : verdict svc c frame (steps ++ later) = some v := by
  have hinstalled (rest : List (Look ε R)) (w : Verdict)
      (hw : (if registered c rest then some w else none) = some v) :
      (if registered c (rest ++ later) then some w else none) = some v := by
    cases rest with
    | nil => cases hw
    | cons look rest => exact hw
  cases steps with
  | nil => cases h
  | cons first rest =>
      unfold verdict at h ⊢
      rw [List.cons_append]
      dsimp only at h ⊢
      cases hfind : first.found.hub.find c with
      | none =>
          rw [hfind] at h
          cases h
      | some conn =>
          rw [hfind] at h
          dsimp only at h ⊢
          by_cases hwatch : namedType frame = some (str "watch")
          · rw [if_pos hwatch] at h ⊢
            cases rest with
            | nil => cases h
            | cons second rest =>
                dsimp only [List.cons_append] at h ⊢
                cases hresolve : svc.resolve second.found.env conn.userId frame with
                | none => rwa [hresolve] at h
                | some target =>
                    rw [hresolve] at h
                    exact hinstalled rest _ h
          · rw [if_neg hwatch] at h ⊢
            by_cases hunwatch : namedType frame = some (str "unwatch")
            · rw [if_pos hunwatch] at h ⊢
              exact hinstalled rest _ h
            · rw [if_neg hunwatch] at h
              cases h

end

/-- The handler's reading of a field is the type the frame names. -/
theorem namedType_eq_some_iff {frame : Json} {type : Str} (hne : type ≠ []) :
    namedType frame = some type ↔ frame.fStringField (str "type") = type := by
  unfold namedType Json.fStringField
  cases frame.find? (str "type") with
  | none =>
      constructor
      · intro h
        cases h
      · intro h
        exact absurd h.symm hne
  | some field =>
      cases field with
      | string s =>
          constructor
          · intro h
            exact Option.some.inj h
          · intro h
            exact congrArg some h
      | _ =>
          constructor
          · intro h
            cases h
          · intro h
            exact absurd h.symm hne

/-! ## Stages -/

/-- The first step has found the connection. -/
def Found (c : Nat) (conn : Connection) (first : Look ε R) : Prop :=
  first.found.hub.find c = some conn ∧ first.replies = []

/-- The watch of the frame is about to be installed. -/
inductive Installing (svc : Service ε R) (c : Nat) (frame : Json) :
    Option (Str × Str) → List (Look ε R) → Prop
  | watch {conn : Connection} {first second : Look ε R} {target : Str × Str}
      (htype : frame.fStringField (str "type") = str "watch") (hfound : Found c conn first)
      (hgranted : svc.resolve second.found.env conn.userId frame = some target)
      (hquiet : second.replies = []) : Installing svc c frame (some target) [first, second]
  | unwatch {conn : Connection} {first : Look ε R}
      (htype : frame.fStringField (str "type") = str "unwatch") (hfound : Found c conn first) :
      Installing svc c frame none [first]

/-- The frame is about to be acknowledged. -/
inductive Acking (svc : Service ε R) (c : Nat) (frame : Json) : List (Look ε R) → Prop
  | heard {conn : Connection} {first : Look ε R}
      (htype : frame.fStringField (str "type") ∈ [str "hello", str "ping", str "changes"])
      (hfound : Found c conn first) : Acking svc c frame [first]
  | installed {target : Option (Str × Str)} {steps : List (Look ε R)} {last : Look ε R}
      (h : Installing svc c frame target steps) (hthere : (last.found.hub.find c).isSome = true)
      (hquiet : last.replies = []) : Acking svc c frame (steps ++ [last])

/-- The reply a step sends, unless its send fails. -/
def Sends (c : Nat) (kind : Reply) (frame : Json) (last : Look ε R) : Prop :=
  last.replies =
    if validUtf8 (frame.fStringField (str "id")) && last.returns then
      [(c, kind, frame.fStringField (str "id"))]
    else []

/-- **How a text is handled**: the steps made so far and the jobs that are left. -/
inductive Handling (svc : Service ε R) (c : Nat) (text : Str) :
    List (Look ε R) → List (Job R) → Prop
  | ignored (h : ∀ frame, svc.parse text = some frame → frame.isObject = false) :
      Handling svc c text [] []
  | start (frame : Json) (hparse : svc.parse text = some frame) :
      Handling svc c text [] [.handle c frame]
  | missing (frame : Json) (hparse : svc.parse text = some frame) {first : Look ε R}
      (hnone : first.found.hub.find c = none) (hquiet : first.replies = []) :
      Handling svc c text [first] []
  | found (frame : Json) (hparse : svc.parse text = some frame) {conn : Connection}
      {first : Look ε R} (hfound : Found c conn first) :
      Handling svc c text [first] (afterHandle c conn.userId frame)
  | refused (frame : Json) (hparse : svc.parse text = some frame)
      (htype : frame.fStringField (str "type") = str "watch") {conn : Connection}
      {first second : Look ε R} (hfound : Found c conn first)
      (hrefused : svc.resolve second.found.env conn.userId frame = none)
      (hquiet : second.replies = []) :
      Handling svc c text [first, second] (answer c .nack frame)
  | granted (frame : Json) (hparse : svc.parse text = some frame) {target : Str × Str}
      {steps : List (Look ε R)} (h : Installing svc c frame (some target) steps) :
      Handling svc c text steps [.follow c (some target) frame]
  | gone (frame : Json) (hparse : svc.parse text = some frame) {target : Option (Str × Str)}
      {steps : List (Look ε R)} {last : Look ε R} (h : Installing svc c frame target steps)
      (hgone : last.found.hub.find c = none) (hquiet : last.replies = []) :
      Handling svc c text (steps ++ [last]) []
  | updated (frame : Json) (hparse : svc.parse text = some frame) {steps : List (Look ε R)}
      (h : Acking svc c frame steps) : Handling svc c text steps (answer c .ack frame)
  | acked (frame : Json) (hparse : svc.parse text = some frame)
      (hid : frame.fStringField (str "id") ≠ []) {steps : List (Look ε R)} {last : Look ε R}
      (h : Acking svc c frame steps) (hsends : Sends c .ack frame last) :
      Handling svc c text (steps ++ [last]) []
  | nacked (frame : Json) (hparse : svc.parse text = some frame)
      (hid : frame.fStringField (str "id") ≠ [])
      (htype : frame.fStringField (str "type") = str "watch") {conn : Connection}
      {first second last : Look ε R} (hfound : Found c conn first)
      (hrefused : svc.resolve second.found.env conn.userId frame = none)
      (hquiet : second.replies = []) (hsends : Sends c .nack frame last) :
      Handling svc c text [first, second, last] []

/-- What becomes of a frame that is about to be installed. -/
theorem Installing.verdict {svc : Service ε R} {c : Nat} {frame : Json}
    {target : Option (Str × Str)} {steps : List (Look ε R)}
    (h : Installing svc c frame target steps) (later : List (Look ε R)) :
    verdict svc c frame (steps ++ later) =
      if registered c later then some (.follows target) else none := by
  cases h with
  | watch htype hfound hgranted _ =>
      have hnamed := (namedType_eq_some_iff (by decide)).mpr htype
      rw [List.cons_append, List.cons_append, List.nil_append,
        verdict_watch later hfound.1 hnamed, hgranted]
  | unwatch htype hfound =>
      have hnamed := (namedType_eq_some_iff (by decide)).mpr htype
      exact verdict_unwatch later hfound.1 hnamed

theorem Installing.type {svc : Service ε R} {c : Nat} {frame : Json}
    {target : Option (Str × Str)} {steps : List (Look ε R)}
    (h : Installing svc c frame target steps) :
    frame.fStringField (str "type") = str "watch" ∨
      frame.fStringField (str "type") = str "unwatch" := by
  cases h with
  | watch htype _ _ _ => exact Or.inl htype
  | unwatch htype _ => exact Or.inr htype

/-- The jobs of an answer. -/
theorem answer_eq {c : Nat} {kind : Reply} {frame : Json} {job : Job R} {rest : List (Job R)}
    (h : answer c kind frame = job :: rest) :
    frame.fStringField (str "id") ≠ [] ∧ job = .reply c kind (frame.fStringField (str "id")) ∧
      rest = [] := by
  unfold answer at h
  dsimp only at h
  split at h
  · cases h
  · rename_i hid
    cases h
    exact ⟨hid, rfl, rfl⟩

/-- The jobs after the first part of a frame: a reply, a watch to resolve, or an
unwatch. -/
theorem afterHandle_eq {c : Nat} {userId : Str} {frame : Json} {job : Job R} {rest : List (Job R)}
    (h : afterHandle c userId frame = job :: rest) :
    rest = [] ∧
      ((frame.fStringField (str "id") ≠ [] ∧
          frame.fStringField (str "type") ∈ [str "hello", str "ping", str "changes"] ∧
          job = .reply c .ack (frame.fStringField (str "id"))) ∨
        (frame.fStringField (str "type") = str "watch" ∧ job = .resolve c userId frame) ∨
        (frame.fStringField (str "type") = str "unwatch" ∧ job = .follow c none frame)) := by
  unfold afterHandle at h
  dsimp only at h
  split at h
  · cases h
  · split at h
    · rename_i htype
      obtain ⟨hid, rfl, rfl⟩ := answer_eq h
      exact ⟨rfl, Or.inl ⟨hid, by simpa using htype, rfl⟩⟩
    · split at h
      · rename_i htype
        cases h
        exact ⟨rfl, Or.inr (Or.inl ⟨htype, rfl⟩)⟩
      · split at h
        · rename_i htype
          cases h
          exact ⟨rfl, Or.inr (Or.inr ⟨htype, rfl⟩)⟩
        · cases h

/-! ## Steps -/

theorem newReplies_append (extra log : List (Event ε R)) :
    newReplies log (extra ++ log) = extra.filterMap Event.reply? := by
  unfold newReplies
  rw [List.length_append, Nat.add_sub_cancel, List.take_left]

theorem newReplies_self (log : List (Event ε R)) : newReplies log log = [] :=
  newReplies_append [] log

variable {svc : Service ε R} {c : Nat} {text : Str} {steps : List (Look ε R)} {job : Job R}
  {rest jobs : List (Job R)} {returns : Bool} {i : Nat} {s s' : Sys ε R}

/-- The step from `s` to `s'`, as the observer sees it. -/
def Sys.look (s s' : Sys ε R) (returns : Bool) : Look ε R :=
  ⟨s, returns, newReplies s.log s'.log⟩

/-- A step that logs nothing replies nothing. -/
theorem look_quiet (returns : Bool) (hlog : s'.log = s.log) :
    (s.look s' returns).replies = [] := by
  change newReplies s.log s'.log = []
  rw [hlog]
  exact newReplies_self _

/-- The step that replies. -/
theorem sends_perform {kind : Reply} {frame : Json}
    (hperform : perform svc returns i (.reply c kind (frame.fStringField (str "id"))) s =
      (s', jobs)) : jobs = [] ∧ Sends c kind frame (s.look s' returns) := by
  unfold perform at hperform
  dsimp only at hperform
  obtain ⟨hs, hjobs⟩ := Prod.mk.inj hperform
  refine ⟨hjobs.symm, ?_⟩
  change newReplies s.log s'.log = _
  rw [← hs]
  change _ = if validUtf8 (frame.fStringField (str "id")) && returns then _ else _
  split
  · exact newReplies_append [.replied c kind (frame.fStringField (str "id"))] s.log
  · exact newReplies_self _

/-- The step that looks up the connection. -/
theorem find_handle {frame : Json}
    (hperform : perform svc returns i (.handle c frame) s = (s', jobs)) :
    (s.look s' returns).replies = [] ∧
      ((s.hub.find c = none ∧ jobs = []) ∨
        ∃ conn, s.hub.find c = some conn ∧ jobs = afterHandle c conn.userId frame) := by
  unfold perform at hperform
  dsimp only at hperform
  cases hfind : s.hub.find c with
  | none =>
      rw [hfind] at hperform
      cases hperform
      exact ⟨look_quiet returns rfl, Or.inl ⟨rfl, rfl⟩⟩
  | some conn =>
      rw [hfind] at hperform
      cases hperform
      refine ⟨?_, Or.inr ⟨conn, rfl, rfl⟩⟩
      split
      · exact newReplies_append [.acked c (frame.fStringField (str "id"))] s.log
      · exact look_quiet returns rfl

/-- The step that asks the resolver. -/
theorem resolved_perform {userId : Str} {frame : Json}
    (hperform : perform svc returns i (.resolve c userId frame) s = (s', jobs)) :
    (s.look s' returns).replies = [] ∧
      ((svc.resolve s.env userId frame = none ∧ jobs = answer c .nack frame) ∨
        ∃ target, svc.resolve s.env userId frame = some target ∧
          jobs = [.follow c (some target) frame]) := by
  unfold perform at hperform
  dsimp only at hperform
  cases hresolve : svc.resolve s.env userId frame with
  | none =>
      rw [hresolve] at hperform
      cases hperform
      exact ⟨look_quiet returns rfl, Or.inl ⟨rfl, rfl⟩⟩
  | some target =>
      rw [hresolve] at hperform
      cases hperform
      exact ⟨look_quiet returns rfl, Or.inr ⟨target, rfl, rfl⟩⟩

/-- The watch is installed, or its connection is gone. -/
theorem Handling.install {frame : Json} (hparse : svc.parse text = some frame)
    {target : Option (Str × Str)} (h : Installing svc c frame target steps)
    (hperform : perform svc returns i (.follow c target frame) s = (s', jobs)) :
    Handling svc c text (steps ++ [s.look s' returns]) jobs := by
  unfold Sync.perform at hperform
  dsimp only at hperform
  cases hfind : s.hub.find c with
  | none =>
      rw [hfind] at hperform
      cases hperform
      exact .gone frame hparse h hfind (look_quiet returns rfl)
  | some conn =>
      rw [hfind] at hperform
      cases hperform
      refine .updated frame hparse (.installed h ?_ (look_quiet returns rfl))
      change (s.hub.find c).isSome = true
      rw [hfind]
      rfl

/-- **Doing the next job** leads to the next stage. -/
theorem Handling.perform (h : Handling svc c text steps (job :: rest))
    (hperform : perform svc returns i job s = (s', jobs)) :
    Handling svc c text (steps ++ [s.look s' returns]) (jobs ++ rest) := by
  generalize hleft : job :: rest = left at h
  cases h with
  | start frame hparse =>
      cases hleft
      rw [List.append_nil, List.nil_append]
      obtain ⟨hquiet, ⟨hnone, rfl⟩ | ⟨conn, hfind, rfl⟩⟩ := find_handle hperform
      · exact .missing frame hparse hnone hquiet
      · exact .found frame hparse ⟨hfind, hquiet⟩
  | found frame hparse hfound =>
      obtain ⟨rfl, ⟨hid, htype, rfl⟩ | ⟨htype, rfl⟩ | ⟨htype, rfl⟩⟩ := afterHandle_eq hleft.symm
      · obtain ⟨rfl, hsends⟩ := sends_perform hperform
        exact .acked frame hparse hid (.heard htype hfound) hsends
      · rw [List.append_nil]
        obtain ⟨hquiet, ⟨hrefused, rfl⟩ | ⟨target, hgranted, rfl⟩⟩ := resolved_perform hperform
        · exact .refused frame hparse htype hfound hrefused hquiet
        · exact .granted frame hparse (.watch htype hfound hgranted hquiet)
      · rw [List.append_nil]
        exact .install hparse (.unwatch htype hfound) hperform
  | refused frame hparse htype hfound hrefused hquiet =>
      obtain ⟨hid, rfl, rfl⟩ := answer_eq hleft.symm
      obtain ⟨rfl, hsends⟩ := sends_perform hperform
      exact .nacked frame hparse hid htype hfound hrefused hquiet hsends
  | granted frame hparse hinstalling =>
      cases hleft
      rw [List.append_nil]
      exact .install hparse hinstalling hperform
  | updated frame hparse hacking =>
      obtain ⟨hid, rfl, rfl⟩ := answer_eq hleft.symm
      obtain ⟨rfl, hsends⟩ := sends_perform hperform
      exact .acked frame hparse hid hacking hsends
  | _ => cases hleft

/-! ## Only these threads reply -/

/-- The jobs of the thread of a text frame. -/
def Job.Handles : Job R → Prop
  | .handle _ _ | .resolve _ _ _ | .follow _ _ _ | .reply _ _ _ => True
  | _ => False

/-- Any other job replies nothing and leads to no such job. -/
theorem not_handles_perform (hperform : perform svc returns i job s = (s', jobs))
    (hjob : ¬ job.Handles) :
    (s.look s' returns).replies = [] ∧ ∀ other ∈ jobs, ¬ other.Handles := by
  unfold perform at hperform
  cases job with
  | track c' frame =>
      dsimp only at hperform
      split at hperform
      · cases hperform
        refine ⟨look_quiet returns rfl, ?_⟩
        intro other hother
        cases hother
      · rename_i hub id htrack
        cases hperform
        refine ⟨newReplies_append [.issued c' id] s.log, ?_⟩
        intro other hother
        rcases List.mem_cons.mp hother with rfl | hother
        · exact fun hhandles => hhandles
        · rw [List.mem_singleton.mp hother]
          exact fun hhandles => hhandles
  | send c' id frame =>
      dsimp only at hperform
      obtain ⟨hs, hjobs⟩ := Prod.mk.inj hperform
      rw [← hs, ← hjobs]
      refine ⟨?_, ?_⟩
      · split
        · exact newReplies_append [.sent c' id frame] s.log
        · exact look_quiet returns rfl
      · intro other hother
        cases hother
  | schedule c' id =>
      cases hperform
      refine ⟨look_quiet returns rfl, ?_⟩
      intro other hother
      cases hother
  | close c' =>
      cases hperform
      refine ⟨newReplies_append [.closed c'] s.log, ?_⟩
      intro other hother
      cases hother
  | serve r =>
      cases hperform
      refine ⟨newReplies_append [.served i r s.env] s.log, ?_⟩
      intro other hother
      split at hother
      · rw [List.mem_singleton.mp hother]
        exact fun hhandles => hhandles
      · cases hother
  | notify a =>
      cases hperform
      refine ⟨newReplies_append [.notified i a s.hub.connections] s.log, ?_⟩
      intro other hother
      obtain ⟨entry, _, rfl⟩ := List.mem_map.mp hother
      exact fun hhandles => hhandles
  | _ => exact absurd trivial hjob

/-- Nothing that enters replies, and only a text leads to such a job. -/
theorem handles_enter {e : Entry R} (henter : enter svc e i s = some (s', jobs)) :
    s'.log.filterMap Event.reply? = s.log.filterMap Event.reply? ∧
      ∀ job ∈ jobs, job.Handles → ∃ c text, e = .message c text := by
  unfold enter at henter
  cases e with
  | connect userId =>
      cases henter
      refine ⟨rfl, ?_⟩
      intro job hjob hhandles
      split at hjob
      · cases hjob
      · rw [List.mem_singleton.mp hjob] at hhandles
        exact hhandles.elim
  | disconnect c' =>
      cases henter
      refine ⟨rfl, ?_⟩
      intro job hjob
      cases hjob
  | message c' text =>
      refine ⟨?_, fun _ _ _ => ⟨c', text, rfl⟩⟩
      dsimp only at henter
      split at henter <;> cases henter <;> rfl
  | fire c' id =>
      dsimp only at henter
      split at henter
      · split at henter
        · cases henter
          refine ⟨rfl, ?_⟩
          intro job hjob hhandles
          rw [List.mem_singleton.mp hjob] at hhandles
          exact hhandles.elim
        · cases henter
          refine ⟨rfl, ?_⟩
          intro job hjob
          cases hjob
      · cases henter
  | request r =>
      cases henter
      refine ⟨rfl, ?_⟩
      intro job hjob hhandles
      rw [List.mem_singleton.mp hjob] at hhandles
      exact hhandles.elim

/-! ## Runs -/

/-- The replies the observer has seen. -/
def Moment.replies : Moment ε R → List (Nat × Reply × Str)
  | .received _ _ => []
  | .stepped look => look.replies

/-- Every thread that received a text is at some stage of handling it, no other
thread does any such work, and the replies seen are those of the log. -/
structure Attending (svc : Service ε R) (p : Pool (Sys ε R) (Job R))
    (trace : List (Nat × Moment ε R)) : Prop where
  started : ∀ n ∈ trace, n.1 < p.threads.length
  stages : ∀ i c text, (i, .received c text) ∈ trace →
    ∃ jobs, p.threads[i]? = some jobs ∧ Handling svc c text (looks i trace) jobs
  handles : ∀ i jobs, p.threads[i]? = some jobs → ∀ job ∈ jobs, job.Handles →
    ∃ c text, (i, .received c text) ∈ trace
  prompted : ∀ i look, (i, .stepped look) ∈ trace → look.replies ≠ [] →
    ∃ c text, (i, .received c text) ∈ trace
  logged : p.state.log.filterMap Event.reply? = trace.flatMap (fun n => n.2.replies)

theorem looks_self (i : Nat) (look : Look ε R) (trace : List (Nat × Moment ε R)) :
    looks i ((i, .stepped look) :: trace) = looks i trace ++ [look] := by
  have hlook : lookOf i (i, .stepped look) = some look := if_pos rfl
  unfold looks
  rw [List.filterMap_cons_some hlook, List.reverse_cons]

theorem looks_other {i j : Nat} (h : j ≠ i) (look : Look ε R) (trace : List (Nat × Moment ε R)) :
    looks i ((j, .stepped look) :: trace) = looks i trace := by
  have hlook : lookOf i (j, .stepped look) = none := if_neg h
  unfold looks
  rw [List.filterMap_cons_none hlook]

/-- A thread that has not been started has made no step. -/
theorem looks_fresh {trace : List (Nat × Moment ε R)} {i : Nat} (h : ∀ n ∈ trace, n.1 < i) :
    looks i trace = [] := by
  unfold looks
  rw [List.reverse_eq_nil_iff, List.filterMap_eq_nil_iff]
  intro n hn
  have hlt := h n hn
  unfold lookOf
  split
  · rw [if_neg (Nat.ne_of_lt hlt)]
  · rfl

theorem heard_received (i c : Nat) (text : Str) (trace : List (Nat × Moment ε R)) :
    heard i ((i, .received c text) :: trace) = some (c, text) := by
  have htext : textOf i (i, (.received c text : Moment ε R)) = some (c, text) := if_pos rfl
  unfold heard
  rw [List.filterMap_cons_some htext, List.head?_cons]

theorem heard_other {j : Nat} (h : j ≠ i) (moment : Moment ε R)
    (trace : List (Nat × Moment ε R)) : heard i ((j, moment) :: trace) = heard i trace := by
  have htext : textOf i (j, moment) = none := by
    cases moment with
    | received c text => exact if_neg h
    | stepped look => rfl
  unfold heard
  rw [List.filterMap_cons_none htext]

theorem heard_stepped (i j : Nat) (look : Look ε R) (trace : List (Nat × Moment ε R)) :
    heard i ((j, .stepped look) :: trace) = heard i trace := by
  have htext : textOf i (j, .stepped look) = none := rfl
  unfold heard
  rw [List.filterMap_cons_none htext]

variable {p : Pool (Sys ε R) (Job R)} {trace : List (Nat × Moment ε R)}

/-- The stage of a text that has just been received. -/
theorem handling_received (henter : enter svc (.message c text) i s = some (s', jobs)) :
    Handling svc c text [] jobs := by
  unfold enter at henter
  dsimp only at henter
  cases hparse : svc.parse text with
  | none =>
      rw [hparse] at henter
      cases henter
      exact .ignored (fun frame hframe => nomatch hparse.symm.trans hframe)
  | some frame =>
      rw [hparse] at henter
      cases henter
      by_cases hobject : frame.isObject = true
      · rw [if_pos hobject]
        exact .start frame hparse
      · rw [if_neg hobject]
        refine .ignored (fun frame' hframe' => ?_)
        cases hparse.symm.trans hframe'
        exact Bool.eq_false_of_not_eq_true hobject

/-- What is observed of a text that enters, and of anything else that does. -/
theorem Attending.enter (h : Attending svc p trace) {e : Entry R}
    (henter : enter svc e p.threads.length p.state = some (s', jobs)) :
    Attending svc ⟨s', p.threads ++ [jobs]⟩ (observe svc (.enter e) p ++ trace) := by
  obtain ⟨hlog, hhandles⟩ := handles_enter henter
  have hlt {n : Nat × Moment ε R} (hn : n ∈ trace) : n.1 < (p.threads ++ [jobs]).length := by
    have hlt := h.started n hn
    rw [List.length_append]
    omega
  have hseen (new : List (Nat × Moment ε R)) {i c : Nat} {text : Str}
      (hreceived : (i, .received c text) ∈ trace) : (i, .received c text) ∈ new ++ trace :=
    List.mem_append_right _ hreceived
  have hstage {i c : Nat} {text : Str} (hreceived : (i, .received c text) ∈ trace) :
      ∃ left, (p.threads ++ [jobs])[i]? = some left ∧ Handling svc c text (looks i trace) left := by
    obtain ⟨left, hthread, hleft⟩ := h.stages i c text hreceived
    exact ⟨left, Machine.thread_enter hthread _, hleft⟩
  have hthreads {i : Nat} {left : List (Job R)} (hthread : (p.threads ++ [jobs])[i]? = some left) :
      p.threads[i]? = some left ∨ i = p.threads.length ∧ left = jobs := by
    rcases Nat.lt_or_ge i p.threads.length with hold | hnew
    · rw [List.getElem?_append_left hold] at hthread
      exact Or.inl hthread
    · rw [List.getElem?_append_right hnew] at hthread
      obtain ⟨hindex, hjobs⟩ := List.getElem?_eq_some_iff.mp hthread
      rw [List.length_singleton] at hindex
      refine Or.inr ⟨by omega, ?_⟩
      rw [← hjobs]
      simp
  cases e with
  | message c text =>
      refine ⟨?_, ?_, ?_, ?_, hlog.trans h.logged⟩
      · intro n hn
        rcases List.mem_cons.mp hn with rfl | hn
        · rw [List.length_append]
          exact Nat.lt_succ_self _
        · exact hlt hn
      · intro i c' text' hreceived
        rcases List.mem_cons.mp hreceived with hsame | hreceived
        · cases hsame
          refine ⟨jobs, Machine.thread_new _ _, ?_⟩
          change Handling svc c text (looks p.threads.length trace) jobs
          rw [looks_fresh h.started]
          exact handling_received henter
        · exact hstage hreceived
      · intro i left hthread job hjob hhandle
        rcases hthreads hthread with hold | ⟨rfl, rfl⟩
        · obtain ⟨c', text', hreceived⟩ := h.handles i left hold job hjob hhandle
          exact ⟨c', text', hseen _ hreceived⟩
        · exact ⟨c, text, List.mem_cons_self⟩
      · intro i look hstepped hreplies
        rcases List.mem_cons.mp hstepped with hsame | hstepped
        · cases hsame
        · obtain ⟨c', text', hreceived⟩ := h.prompted i look hstepped hreplies
          exact ⟨c', text', hseen _ hreceived⟩
  | _ =>
      refine ⟨fun n hn => hlt hn, fun i c text hreceived => hstage hreceived, ?_, h.prompted,
        hlog.trans h.logged⟩
      intro i left hthread job hjob hhandle
      rcases hthreads hthread with hold | ⟨_, rfl⟩
      · exact h.handles i left hold job hjob hhandle
      · obtain ⟨_, _, hmessage⟩ := hhandles job hjob hhandle
        cases hmessage

theorem observe_run {before after : List (List (Job R))}
    (hthreads : p.threads = before ++ (job :: rest) :: after)
    (hperform : perform svc returns before.length job p.state = (s', jobs)) :
    observe svc (.run before.length returns) p =
      [(before.length, .stepped (p.state.look s' returns))] := by
  have hthread : p.threads[before.length]? = some (job :: rest) := by
    rw [hthreads]
    exact Machine.thread_self _ _ _
  have hstep : (machine svc).step (.run before.length returns) p =
      some ⟨s', p.threads.set before.length (jobs ++ rest)⟩ := by
    simp only [Machine.step, hthread, machine, hperform, Option.map_some]
  unfold observe
  dsimp only
  rw [hstep]
  rfl

theorem Attending.perform (h : Attending svc p trace) {before after : List (List (Job R))}
    (hthreads : p.threads = before ++ (job :: rest) :: after)
    (hperform : perform svc returns before.length job p.state = (s', jobs)) :
    Attending svc ⟨s', before ++ (jobs ++ rest) :: after⟩
      (observe svc (.run before.length returns) p ++ trace) := by
  rw [observe_run hthreads hperform]
  have hself : p.threads[before.length]? = some (job :: rest) := by
    rw [hthreads]
    exact Machine.thread_self _ _ _
  have hother {i : Nat} (hi : i ≠ before.length) :
      (before ++ (jobs ++ rest) :: after)[i]? = p.threads[i]? := by
    rw [hthreads]
    exact Machine.thread_other hi _ _
  have hseen {i c : Nat} {text : Str} (hreceived : (i, .received c text) ∈ trace) :
      (i, Moment.received c text) ∈
        (before.length, Moment.stepped (p.state.look s' returns)) :: trace :=
    List.mem_cons_of_mem _ hreceived
  refine ⟨?_, ?_, ?_, ?_, ?_⟩
  · have hlength : (before ++ (jobs ++ rest) :: after).length = p.threads.length := by
      rw [hthreads, List.length_append, List.length_append]
      rfl
    intro n hn
    rw [hlength]
    rcases List.mem_cons.mp hn with rfl | hold
    · rw [hthreads, List.length_append, List.length_cons]
      omega
    · exact h.started n hold
  · intro i c text hmem
    rcases List.mem_cons.mp hmem with hsame | hreceived
    · cases hsame
    · obtain ⟨left, hthread, hstage⟩ := h.stages i c text hreceived
      by_cases hi : i = before.length
      · subst hi
        cases hself.symm.trans hthread
        change ∃ jobs, _ ∧ Handling svc c text (looks before.length (_ :: trace)) jobs
        rw [looks_self]
        exact ⟨_, Machine.thread_self _ _ _, hstage.perform hperform⟩
      · change ∃ jobs, _ ∧ Handling svc c text (looks i (_ :: trace)) jobs
        rw [looks_other (Ne.symm hi)]
        exact ⟨left, (hother hi).trans hthread, hstage⟩
  · intro i left hthread other hmem hhandle
    by_cases hi : i = before.length
    · subst hi
      rw [Machine.thread_self] at hthread
      cases hthread
      have hreceived : ∃ c text, (before.length, .received c text) ∈ trace := by
        rcases List.mem_append.mp hmem with hnew | hold
        · refine h.handles _ _ hself job List.mem_cons_self (Classical.not_not.mp fun hjob => ?_)
          exact (not_handles_perform hperform hjob).2 other hnew hhandle
        · exact h.handles _ _ hself other (List.mem_cons_of_mem _ hold) hhandle
      obtain ⟨c, text, hreceived⟩ := hreceived
      exact ⟨c, text, hseen hreceived⟩
    · obtain ⟨c, text, hreceived⟩ := h.handles i left ((hother hi).symm.trans hthread) other hmem
        hhandle
      exact ⟨c, text, hseen hreceived⟩
  · intro i look hmem hreplies
    rcases List.mem_cons.mp hmem with hsame | hold
    · cases hsame
      have hjob : job.Handles :=
        Classical.not_not.mp fun hjob => hreplies (not_handles_perform hperform hjob).1
      obtain ⟨c, text, hreceived⟩ := h.handles _ _ hself job List.mem_cons_self hjob
      exact ⟨c, text, hseen hreceived⟩
    · obtain ⟨c, text, hreceived⟩ := h.prompted i look hold hreplies
      exact ⟨c, text, hseen hreceived⟩
  · obtain ⟨extra, hlog, _⟩ := log_perform hperform
    have hnew : (p.state.look s' returns).replies = extra.filterMap Event.reply? := by
      change newReplies p.state.log s'.log = _
      rw [hlog]
      exact newReplies_append extra p.state.log
    change s'.log.filterMap Event.reply? = _ ++ trace.flatMap _
    rw [hlog, List.filterMap_append, h.logged]
    exact congrArg (· ++ _) hnew.symm

/-- **Every run attends to its texts.** -/
theorem attending_of_observed {start : Pool (Sys ε R) (Job R) → Prop}
    (hstart : ∀ p, start p → Fresh p)
    (hp : Machine.Observed (machine svc) (observe svc) (fun _ _ => True) start p trace) :
    Attending svc p trace := by
  apply hp.invariant
  · intro p hp
    obtain ⟨hthreads, _, _, hlog⟩ := hstart p hp
    refine ⟨?_, ?_, ?_, ?_, ?_⟩
    · intro n hn
      cases hn
    · intro i c text hmem
      cases hmem
    · intro i jobs hthread
      rw [hthreads] at hthread
      cases hthread
    · intro i look hmem
      cases hmem
    · rw [hlog]
      rfl
  · intro a p p' trace _ h _ hstep
    rcases Machine.step_cases hstep with ⟨e, s, jobs, rfl, henter, rfl⟩ |
      ⟨before, job, rest, after, returns, s, jobs, rfl, hthreads, hperform, rfl⟩
    · exact h.enter henter
    · exact h.perform hthreads (Option.some.inj hperform)

end Lectern.Sync
