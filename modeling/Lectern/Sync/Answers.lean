import Lectern.Sync.Frames

/-!
# Every request is answered once

What a text is to be answered is said by the text itself, by whether its
connection was registered, and by what the resolver said of its frame
(`expected`).  A thread that has handled a text has sent that, unless its send
failed, and no other thread replies (`answered_once`).
-/

namespace Lectern.Sync

open Threads

variable {ε R : Type}

/-! ## What is asked and what is due -/

/-- The frames a client waits for an answer to. -/
def requestTypes : List Str :=
  [str "hello", str "ping", str "changes", str "watch", str "unwatch"]

/-- The type and the id of a frame that is to be answered. -/
def request? (frame : Json) : Option (Str × Str) :=
  match frame.find? (str "type"), frame.find? (str "id") with
  | some (.string type), some (.string id) =>
      if type ∈ requestTypes ∧ id ≠ [] then some (type, id) else none
  | _, _ => none

/-- **The reply a text is due**, by the steps its thread has made: none, unless the
text asks for one and its connection was registered; for a watch or an unwatch
what became of it; and else an acknowledgement. -/
def expected (svc : Service ε R) (c : Nat) (text : Str) (steps : List (Look ε R)) :
    List (Nat × Reply × Str) :=
  match svc.parse text with
  | none => []
  | some frame =>
      match request? frame with
      | none => []
      | some (type, id) =>
          if type = str "watch" ∨ type = str "unwatch" then
            match verdict svc c frame steps with
            | none => []
            | some .refused => [(c, .nack, id)]
            | some (.follows _) => [(c, .ack, id)]
          else if registered c steps then [(c, .ack, id)]
          else []

/-- What is due has been sent, or the send failed. -/
def Answered (svc : Service ε R) (c : Nat) (text : Str) (steps : List (Look ε R)) : Prop :=
  steps.flatMap Look.replies = expected svc c text steps ∨
    steps.flatMap Look.replies = [] ∧ ∃ last, steps.getLast? = some last ∧ last.returns = false

/-! ## What is replied -/

theorem request?_eq (frame : Json) :
    request? frame =
      if frame.fStringField (str "type") ∈ requestTypes ∧ frame.fStringField (str "id") ≠ [] then
        some (frame.fStringField (str "type"), frame.fStringField (str "id"))
      else none := by
  have hempty : [] ∉ requestTypes := by decide
  unfold request? Json.fStringField
  cases frame.find? (str "type") with
  | none => simp [hempty]
  | some type =>
      cases type with
      | string type =>
          cases frame.find? (str "id") with
          | none => simp
          | some id =>
              cases id with
              | string id => rfl
              | _ => simp [Json.string?]
      | _ => simp [Json.string?, hempty]

/-- A request that is found leaves a reply to send, a watch to resolve or a watch
to install. -/
theorem afterHandle_ne_nil {frame : Json}
    (htype : frame.fStringField (str "type") ∈ requestTypes)
    (hid : frame.fStringField (str "id") ≠ []) (c : Nat) (userId : Str) :
    afterHandle (R := R) c userId frame ≠ [] := by
  have hanswer : answer (R := R) c .ack frame ≠ [] := by
    unfold answer
    dsimp only
    rw [if_neg hid]
    exact List.cons_ne_nil _ _
  unfold afterHandle
  dsimp only
  generalize frame.fStringField (str "type") = type at htype
  simp only [requestTypes, List.mem_cons, List.not_mem_nil, or_false] at htype
  rcases htype with rfl | rfl | rfl | rfl | rfl
  · exact hanswer
  · exact hanswer
  · exact hanswer
  · exact List.cons_ne_nil _ _
  · exact List.cons_ne_nil _ _

/-- Nothing is due to a text that asks for nothing. -/
theorem expected_none {svc : Service ε R} {c : Nat} {text : Str}
    (h : ∀ frame, svc.parse text = some frame →
      ¬ (frame.fStringField (str "type") ∈ requestTypes ∧ frame.fStringField (str "id") ≠ []))
    (steps : List (Look ε R)) : expected svc c text steps = [] := by
  unfold expected
  cases hparse : svc.parse text with
  | none => rfl
  | some frame =>
      dsimp only
      rw [request?_eq, if_neg (h frame hparse)]

variable {svc : Service ε R} {c : Nat} {text : Str} {steps : List (Look ε R)} {job : Job R}
  {rest : List (Job R)}

/-- What is due to a text that asks. -/
theorem expected_some {frame : Json} (hparse : svc.parse text = some frame)
    (htype : frame.fStringField (str "type") ∈ requestTypes)
    (hid : frame.fStringField (str "id") ≠ []) (steps : List (Look ε R)) :
    expected svc c text steps =
      if frame.fStringField (str "type") = str "watch" ∨
          frame.fStringField (str "type") = str "unwatch" then
        match verdict svc c frame steps with
        | none => []
        | some .refused => [(c, .nack, frame.fStringField (str "id"))]
        | some (.follows _) => [(c, .ack, frame.fStringField (str "id"))]
      else if registered c steps then [(c, .ack, frame.fStringField (str "id"))]
      else [] := by
  unfold expected
  rw [hparse]
  dsimp only
  rw [request?_eq, if_pos ⟨htype, hid⟩]

/-- No reply has been sent yet. -/
theorem Installing.quiet {frame : Json} {target : Option (Str × Str)}
    (h : Installing svc c frame target steps) : steps.flatMap Look.replies = [] := by
  cases h with
  | watch _ hfound _ hquiet =>
      rw [List.flatMap_cons, List.flatMap_singleton, hfound.2, hquiet]
      rfl
  | unwatch _ hfound => rw [List.flatMap_singleton, hfound.2]

theorem Acking.quiet {frame : Json} (h : Acking svc c frame steps) :
    steps.flatMap Look.replies = [] := by
  cases h with
  | heard _ hfound => rw [List.flatMap_singleton, hfound.2]
  | installed h _ hquiet =>
      rw [List.flatMap_append, h.quiet, List.flatMap_singleton, hquiet, List.append_nil]

/-- A frame that is about to be acknowledged is due an acknowledgement. -/
theorem Acking.due {frame : Json} (hparse : svc.parse text = some frame)
    (h : Acking svc c frame steps) (hid : frame.fStringField (str "id") ≠ []) (last : Look ε R) :
    expected svc c text (steps ++ [last]) = [(c, .ack, frame.fStringField (str "id"))] := by
  cases h with
  | heard htype hfound =>
      have hrequest : frame.fStringField (str "type") ∈ requestTypes := by
        simp only [requestTypes, List.mem_cons, List.not_mem_nil, or_false] at htype ⊢
        tauto
      have hother : ¬ (frame.fStringField (str "type") = str "watch" ∨
          frame.fStringField (str "type") = str "unwatch") := by
        rintro (hwatch | hunwatch)
        · rw [hwatch] at htype
          exact absurd htype (by decide)
        · rw [hunwatch] at htype
          exact absurd htype (by decide)
      rw [expected_some hparse hrequest hid, if_neg hother, if_pos]
      change (_ : Option Connection).isSome = true
      rw [hfound.1]
      rfl
  | installed h hthere _ =>
      have hrequest : frame.fStringField (str "type") ∈ requestTypes := by
        rcases h.type with htype | htype <;> rw [htype] <;> decide
      have hregistered (later : List (Look ε R)) : registered c (_ :: later) = true := hthere
      rw [expected_some hparse hrequest hid, if_pos h.type, List.append_assoc, h.verdict]
      rw [List.singleton_append, hregistered, if_pos rfl]

/-- The reply is sent with the last step, or its send fails. -/
theorem answered_of_sends {frame : Json} {kind : Reply} {last : Look ε R}
    (hvalid : validUtf8 (frame.fStringField (str "id")) = true)
    (hquiet : steps.flatMap Look.replies = []) (hsends : Sends c kind frame last)
    (hdue : expected svc c text (steps ++ [last]) =
      [(c, kind, frame.fStringField (str "id"))]) :
    Answered svc c text (steps ++ [last]) := by
  have hreplies : (steps ++ [last]).flatMap Look.replies = last.replies := by
    rw [List.flatMap_append, hquiet, List.flatMap_singleton, List.nil_append]
  unfold Sends at hsends
  rw [hvalid, Bool.true_and] at hsends
  unfold Answered
  rw [hreplies, hsends, hdue]
  cases hreturns : last.returns with
  | true => exact Or.inl rfl
  | false => exact Or.inr ⟨rfl, last, List.getLast?_concat, hreturns⟩

/-- Without an id there is nothing to answer. -/
theorem id_of_answer_nil {kind : Reply} {frame : Json}
    (h : ([] : List (Job R)) = answer c kind frame) : frame.fStringField (str "id") = [] := by
  by_contra hid
  unfold answer at h
  dsimp only at h
  rw [if_neg hid] at h
  cases h

/-- **A text that has been handled** has been answered as it was due. -/
theorem Handling.outcome (hdumps : ∀ frame, svc.parse text = some frame → frame.dumps = true)
    (h : Handling svc c text steps ([] : List (Job R))) : Answered svc c text steps := by
  have hvalid {frame : Json} (hparse : svc.parse text = some frame) :=
    validUtf8_fStringField (hdumps frame hparse) (str "id")
  have hnone {frame : Json} (hparse : svc.parse text = some frame)
      (hask : ¬ (frame.fStringField (str "type") ∈ requestTypes ∧
        frame.fStringField (str "id") ≠ [])) (steps : List (Look ε R)) :
      expected svc c text steps = [] := by
    refine expected_none (fun frame' hparse' => ?_) steps
    cases hparse.symm.trans hparse'
    exact hask
  generalize hleft : ([] : List (Job R)) = left at h
  cases h with
  | ignored hobject =>
      refine Or.inl (expected_none (fun frame hparse => ?_) []).symm
      have hfield : frame.fStringField (str "type") = [] := by
        have hframe := hobject frame hparse
        cases frame with
        | object fields => cases hframe
        | _ => rfl
      rw [hfield]
      intro hask
      exact absurd hask.1 (by decide)
  | missing frame hparse hgone hquiet =>
      refine Or.inl ?_
      rw [List.flatMap_singleton, hquiet]
      by_cases hask : frame.fStringField (str "type") ∈ requestTypes ∧
          frame.fStringField (str "id") ≠ []
      · have hnot : registered c [_] = false := congrArg Option.isSome hgone
        rw [expected_some hparse hask.1 hask.2, verdict_first, hnot]
        split <;> rfl
      · exact (hnone hparse hask _).symm
  | found frame hparse hfound =>
      refine Or.inl ?_
      rw [List.flatMap_singleton, hfound.2, hnone hparse]
      intro ⟨htype, hid⟩
      exact afterHandle_ne_nil htype hid c _ hleft.symm
  | refused frame hparse htype hfound hrefused hquiet =>
      refine Or.inl ?_
      rw [List.flatMap_cons, List.flatMap_singleton, hfound.2, hquiet, hnone hparse]
      · rfl
      · intro ⟨_, hid⟩
        exact hid (id_of_answer_nil hleft)
  | gone frame hparse hinstalling hgone hquiet =>
      refine Or.inl ?_
      rw [List.flatMap_append, hinstalling.quiet, List.flatMap_singleton, hquiet]
      by_cases hask : frame.fStringField (str "type") ∈ requestTypes ∧
          frame.fStringField (str "id") ≠ []
      · have hnot : registered c [_] = false := congrArg Option.isSome hgone
        rw [expected_some hparse hask.1 hask.2, if_pos hinstalling.type, hinstalling.verdict, hnot]
        rfl
      · exact (hnone hparse hask _).symm
  | updated frame hparse hacking =>
      refine Or.inl ?_
      rw [hacking.quiet, hnone hparse]
      intro ⟨_, hid⟩
      exact hid (id_of_answer_nil hleft)
  | acked frame hparse hid hacking hsends =>
      exact answered_of_sends (hvalid hparse) hacking.quiet hsends (hacking.due hparse hid _)
  | nacked frame hparse hid htype hfound hrefused hquiet hsends =>
      rename_i first second last
      have hnamed := (namedType_eq_some_iff (by decide)).mpr htype
      have hsteps : [first, second].flatMap Look.replies = [] := by
        rw [List.flatMap_cons, List.flatMap_singleton, hfound.2, hquiet]
        rfl
      have hrequest : frame.fStringField (str "type") ∈ requestTypes := by
        rw [htype]
        decide
      have hdue : expected svc c text ([first, second] ++ [last]) =
          [(c, .nack, frame.fStringField (str "id"))] := by
        rw [expected_some hparse hrequest hid, if_pos (Or.inl htype), List.cons_append,
          List.cons_append, verdict_watch _ hfound.1 hnamed, hrefused]
      exact answered_of_sends (hvalid hparse) hsteps hsends hdue
  | _ => cases hleft

/-- At most four steps are made for a text. -/
theorem Handling.length_le {left : List (Job R)} (h : Handling svc c text steps left) :
    steps.length ≤ 4 := by
  have hinstalling {frame : Json} {target : Option (Str × Str)} {steps : List (Look ε R)}
      (h : Installing svc c frame target steps) : steps.length ≤ 2 := by
    cases h with
    | watch => exact Nat.le_refl 2
    | unwatch => exact Nat.le_succ 1
  have hacking {frame : Json} {steps : List (Look ε R)} (h : Acking svc c frame steps) :
      steps.length ≤ 3 := by
    cases h with
    | heard => exact Nat.le_add_left 1 2
    | installed h =>
        have hle := hinstalling h
        rw [List.length_append, List.length_singleton]
        omega
  cases h with
  | granted frame hparse h =>
      have hle := hinstalling h
      omega
  | gone frame hparse h =>
      have hle := hinstalling h
      rw [List.length_append, List.length_singleton]
      omega
  | updated frame hparse h =>
      have hle := hacking h
      omega
  | acked frame hparse hid h =>
      have hle := hacking h
      rw [List.length_append, List.length_singleton]
      omega
  | _ =>
      simp only [List.length_cons, List.length_nil]
      omega

/-- A frame that is none of hello, ack, watch and unwatch changes nothing in the hub. -/
theorem Handling.hub (h : Handling svc c text steps (job :: rest))
    (hquiet : ∀ frame, svc.parse text = some frame → frame.fStringField (str "type") ∉
      [str "hello", str "ack", str "watch", str "unwatch"]) (returns : Bool) (i : Nat)
    (s : Sys ε R) : (Sync.perform svc returns i job s).1.hub = s.hub := by
  have hreply (kind : Reply) (id : Str) :
      (Sync.perform svc returns i (.reply c kind id) s).1.hub = s.hub := by
    unfold Sync.perform
    dsimp only
    split <;> rfl
  generalize hleft : job :: rest = left at h
  cases h with
  | start frame hparse =>
      cases hleft
      have htype := hquiet frame hparse
      simp only [List.mem_cons, List.not_mem_nil, or_false, not_or] at htype
      obtain ⟨hhello, hack, _⟩ := htype
      unfold Sync.perform
      dsimp only
      split
      · rfl
      · rw [if_neg hack]
        show Hub.fHandle c frame s.hub = s.hub
        unfold Hub.fHandle
        dsimp only
        rw [if_neg hack, if_neg hhello]
  | found frame hparse hfound =>
      have htype := hquiet frame hparse
      rcases (afterHandle_eq hleft.symm).2 with ⟨_, _, rfl⟩ | ⟨hwatch, _⟩ | ⟨hunwatch, _⟩
      · exact hreply _ _
      · exact absurd (by simp [hwatch]) htype
      · exact absurd (by simp [hunwatch]) htype
  | refused frame hparse hwatch => exact absurd (by simp [hwatch]) (hquiet frame hparse)
  | granted frame hparse hinstalling =>
      rcases hinstalling.type with hwatch | hunwatch
      · exact absurd (by simp [hwatch]) (hquiet frame hparse)
      · exact absurd (by simp [hunwatch]) (hquiet frame hparse)
  | updated frame hparse hacking =>
      obtain ⟨_, rfl, _⟩ := answer_eq hleft.symm
      exact hreply _ _
  | _ => cases hleft

/-- A thread that is done with a request has looked up its connection. -/
theorem Handling.looked (h : Handling svc c text steps []) {frame : Json}
    (hparse : svc.parse text = some frame) (hrequest : request? frame ≠ none) : steps ≠ [] := by
  generalize hleft : ([] : List (Job R)) = left at h
  cases h with
  | ignored hnot =>
      have hobject := hnot frame hparse
      refine absurd ?_ hrequest
      unfold request?
      cases frame with
      | object fields => cases hobject
      | _ => rfl
  | start => cases hleft
  | granted => cases hleft
  | updated _ _ hacking =>
      cases hacking with
      | heard => exact List.cons_ne_nil _ _
      | installed => exact List.append_ne_nil_of_right_ne_nil _ (List.cons_ne_nil _ _)
  | gone => exact List.append_ne_nil_of_right_ne_nil _ (List.cons_ne_nil _ _)
  | acked => exact List.append_ne_nil_of_right_ne_nil _ (List.cons_ne_nil _ _)
  | _ => exact List.cons_ne_nil _ _

/-- **Every request is answered once.**  The parser yields values that can be
serialised.  Take any run and any text some thread received on connection `c`.
The thread is never stuck and makes at most four steps; when it is done, it has
sent the reply the text is due (see `expected`), to `c` only and with the id of
the frame, or that send failed, and if the text is a request it has looked up
its connection.  A frame that is none of hello, ack, watch and
unwatch changes nothing in the hub, receiving a text never fails, and every reply
in the log was sent by a thread that received a text. -/
theorem answered_once (svc : Service ε R)
    (hdumps : ∀ text frame, svc.parse text = some frame → frame.dumps = true)
    (p : Pool (Sys ε R) (Job R)) (trace : List (Nat × Moment ε R))
    (hp : Machine.Observed (machine svc) (observe svc) (fun _ _ => True) Fresh p trace) :
    (∀ i c text, (i, .received c text) ∈ trace →
      (p.Done i → Answered svc c text (looks i trace) ∧
        ∀ frame, svc.parse text = some frame → request? frame ≠ none → looks i trace ≠ []) ∧
      (looks i trace).length ≤ 4 ∧
      ∀ job rest returns, p.threads[i]? = some (job :: rest) →
        ∃ p', (machine svc).step (.run i returns) p = some p' ∧
          ((∀ frame, svc.parse text = some frame → frame.fStringField (str "type") ∉
              [str "hello", str "ack", str "watch", str "unwatch"]) →
            p'.state.hub = p.state.hub)) ∧
    (∀ c text, ∃ p', (machine svc).step (.enter (.message c text)) p = some p' ∧
      p'.state = p.state) ∧
    p.state.log.filterMap Event.reply? = trace.flatMap (fun n => n.2.replies) ∧
    ∀ i look, (i, .stepped look) ∈ trace → look.replies ≠ [] →
      ∃ c text, (i, .received c text) ∈ trace := by
  have hattending : Attending svc p trace := attending_of_observed (fun _ h => h) hp
  refine ⟨?_, ?_, hattending.logged, hattending.prompted⟩
  · intro i c text hreceived
    obtain ⟨left, hthread, hstage⟩ := hattending.stages i c text hreceived
    refine ⟨?_, hstage.length_le, ?_⟩
    · intro hdone
      cases hdone.symm.trans hthread
      exact ⟨hstage.outcome (hdumps text), fun _ => hstage.looked⟩
    · intro job rest returns hnext
      cases hthread.symm.trans hnext
      have hstep : (machine svc).step (.run i returns) p =
          some ⟨(perform svc returns i job p.state).1,
            p.threads.set i ((perform svc returns i job p.state).2 ++ rest)⟩ := by
        simp only [Machine.step, hnext, machine, Option.map_some]
      exact ⟨_, hstep, fun hquiet => hstage.hub hquiet returns i p.state⟩
  · intro c text
    have henter : ∃ jobs, enter svc (.message c text) p.threads.length p.state =
        some (p.state, jobs) := by
      unfold enter
      dsimp only
      cases svc.parse text with
      | none => exact ⟨_, rfl⟩
      | some frame => exact ⟨_, rfl⟩
    obtain ⟨jobs, henter⟩ := henter
    refine ⟨⟨p.state, p.threads ++ [jobs]⟩, ?_, rfl⟩
    simp only [Machine.step, machine, henter, Option.map_some]

/-! ### Two runs -/

def pingText : Str := str "\x7b\"id\":\"p1\",\"type\":\"ping\"\x7d"

def unwatchText : Str := str "\x7b\"id\":\"u1\",\"type\":\"unwatch\"\x7d"

def pingFrame : Json :=
  .object [(str "id", .string (str "p1")), (str "type", .string (str "ping"))]

def unwatchFrame : Json :=
  .object [(str "id", .string (str "u1")), (str "type", .string (str "unwatch"))]

def pingService : Service Server Request :=
  service plainConfig (fun text =>
    if text = pingText then some pingFrame
    else if text = unwatchText then some unwatchFrame
    else none)

theorem dumps_pingService (text : Str) (frame : Json)
    (h : pingService.parse text = some frame) : frame.dumps = true := by
  change (if text = pingText then some pingFrame
    else if text = unwatchText then some unwatchFrame else none) = some frame at h
  split at h
  · cases h
    decide +kernel
  · split at h
    · cases h
      decide +kernel
    · cases h

/-- Where a run of this server leads, and what is observed on the way. -/
def seenOf (as : List (Action (Entry Request) Bool)) :
    Pool (Sys Server Request) (Job Request) × List (Nat × Moment Server Request) :=
  ((machine pingService).execSeen (observe pingService) (fun _ _ => True) as atRest []).getD
    (atRest, [])

/-- Ann's device sends a ping. -/
def annPings := seenOf
  [.enter (.connect (str "ann")), .enter (.message 1 pingText), .run 1 true, .run 1 true]

/-- It is acknowledged. -/
theorem answered_once_annPings :
    (looks 1 annPings.2).flatMap Look.replies = [(1, .ack, str "p1")] := by
  have hobserved : Machine.Observed (machine pingService) (observe pingService) (fun _ _ => True)
      Fresh annPings.1 annPings.2 :=
    Machine.Observed.execSeen_getD (.start ⟨rfl, rfl, rfl, rfl⟩)
  have hchecks : heard 1 annPings.2 = some (1, pingText) ∧
      annPings.1.threads.map List.length = [1, 0] ∧
      (looks 1 annPings.2).all Look.returns = true ∧
      expected pingService 1 pingText (looks 1 annPings.2) = [(1, .ack, str "p1")] := by
    decide +kernel
  generalize annPings = run at *
  obtain ⟨hheard, hthreads, hreturns, hexpected⟩ := hchecks
  have hdone : run.1.Done 1 := done_of_length (by rw [hthreads]; rfl)
  have hanswered := (((answered_once pingService dumps_pingService run.1 run.2 hobserved).1 1 1
    pingText (received_of_heard hheard)).1 hdone).1
  rcases hanswered with hsent | ⟨_, last, hlast, hfailed⟩
  · exact hsent.trans hexpected
  · have hthis := List.all_eq_true.mp hreturns last (List.mem_of_getLast? hlast)
    rw [hfailed] at hthis
    cases hthis

/-- Ann's device sends an unwatch, and is gone before its watch is cleared. -/
def annLeaves := seenOf
  [.enter (.connect (str "ann")), .enter (.message 1 unwatchText), .run 1 true,
    .enter (.disconnect 1), .run 1 true]

/-- **An unwatch may go without a reply**, although no resolver is called for it and
no send fails: its connection was registered when the frame was looked at and
removed before the watch was cleared. -/
theorem unwatch_unanswered :
    Machine.Observed (machine pingService) (observe pingService) (fun _ _ => True)
        (Boots plainConfig) annLeaves.1 annLeaves.2 ∧
      heard 1 annLeaves.2 = some (1, unwatchText) ∧ annLeaves.1.Done 1 ∧
      (pingService.parse unwatchText).bind request? = some (str "unwatch", str "u1") ∧
      registered 1 (looks 1 annLeaves.2) = true ∧
      (looks 1 annLeaves.2).all Look.returns = true ∧
      (looks 1 annLeaves.2).flatMap Look.replies = [] := by
  have hobserved : Machine.Observed (machine pingService) (observe pingService) (fun _ _ => True)
      (Boots plainConfig) annLeaves.1 annLeaves.2 :=
    Machine.Observed.execSeen_getD (.start boots_atRest)
  have hdone : annLeaves.1.threads.map List.length = [1, 0, 0] := by decide +kernel
  refine ⟨hobserved, by decide +kernel, done_of_length (by rw [hdone]; rfl), by decide +kernel,
    by decide +kernel, by decide +kernel, by decide +kernel⟩

end Lectern.Sync
