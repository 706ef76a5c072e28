import Lectern.Export.Replies

/-!
# Printing waits for the page

`fRenderPdf` waits for `Page.loadEventFired` between the navigation and the
print, but the session keeps the names of all events it has ever seen, without
saying when: the load of the initial blank page ends the wait as well.

When no load event comes before the navigation was sent, the page is printed
only after it was loaded (`printed_after_load`).
-/

namespace Lectern.Export

open Threads

/-! ## Load events -/

/-- The message announces that a page has loaded. -/
def isLoad (frame : Json) : Bool :=
  match frame.find? (str "id") with
  | some (.int _) => false
  | _ => frame.valueString (str "method") [] = some (str "Page.loadEventFired")

/-- A command of this method has been sent. -/
def Sent (log : List Event) (method : Str) : Prop :=
  ∃ event ∈ log, match event with
    | .sent _ command => command.method = method
    | _ => False

instance (log : List Event) (method : Str) : Decidable (Sent log method) :=
  have : DecidablePred (fun event : Event => match event with
      | .sent _ command => command.method = method
      | _ => False) := by
    intro event
    cases event <;> infer_instance
  List.decidableBEx _ log

/-- A page has loaded since the navigation was sent. -/
def Loaded (log : List Event) : Prop :=
  ∃ frame before, (.received frame :: before) <:+ log ∧ isLoad frame = true ∧
    Sent before (str "Page.navigate")

/-- **Printed after the load**: `Page.printToPDF` is sent only after a load event
that was received after `Page.navigate` was sent. -/
def PrintedAfterLoad (log : List Event) : Prop :=
  ∀ id command earlier, (.sent id command :: earlier) <:+ log →
    command.method = str "Page.printToPDF" → Loaded earlier

theorem Loaded.cons {log : List Event} (h : Loaded log) (event : Event) : Loaded (event :: log) := by
  obtain ⟨frame, before, hsuffix, hload, hsent⟩ := h
  exact ⟨frame, before, hsuffix.trans (List.suffix_cons event log), hload, hsent⟩

theorem PrintedAfterLoad.cons {log : List Event} {event : Event} (h : PrintedAfterLoad log)
    (hevent : ∀ id command, event = .sent id command →
      command.method = str "Page.printToPDF" → Loaded log) : PrintedAfterLoad (event :: log) := by
  intro id command earlier hsuffix hprint
  rcases List.suffix_cons_iff.mp hsuffix with hhere | hbefore
  · obtain ⟨hsame, hlog⟩ := List.cons.inj hhere
    rw [hlog]
    exact hevent id command hsame.symm hprint
  · exact h id command earlier hbefore hprint

theorem not_loaded_nil : ¬ Loaded [] := by
  intro ⟨frame, before, hsuffix, _⟩
  exact absurd (List.suffix_nil.mp hsuffix) (List.cons_ne_nil _ _)

theorem loaded_cons {event : Event} {log : List Event} :
    Loaded (event :: log) ↔
      (∃ frame, event = .received frame ∧ isLoad frame = true ∧ Sent log (str "Page.navigate")) ∨
        Loaded log := by
  constructor
  · intro ⟨frame, before, hsuffix, hload, hsent⟩
    rcases List.suffix_cons_iff.mp hsuffix with hhere | hbefore
    · obtain ⟨hsame, hlog⟩ := List.cons.inj hhere
      rw [hlog] at hsent
      exact Or.inl ⟨frame, hsame.symm, hload, hsent⟩
    · exact Or.inr ⟨frame, before, hbefore, hload, hsent⟩
  · intro h
    rcases h with ⟨frame, hsame, hload, hsent⟩ | hbefore
    · rw [hsame]
      exact ⟨frame, log, List.suffix_rfl, hload, hsent⟩
    · exact hbefore.cons event

instance decidableLoaded : (log : List Event) → Decidable (Loaded log)
  | [] => isFalse not_loaded_nil
  | event :: log =>
      have := decidableLoaded log
      have : Decidable (∃ frame, event = .received frame ∧ isLoad frame = true ∧
          Sent log (str "Page.navigate")) :=
        match event with
        | .received frame =>
            decidable_of_iff (isLoad frame = true ∧ Sent log (str "Page.navigate"))
              ⟨fun h => ⟨frame, rfl, h⟩, fun ⟨_, hsame, h⟩ => Event.received.inj hsame ▸ h⟩
        | .sent _ _ => isFalse (fun ⟨_, hsame, _⟩ => nomatch hsame)
        | .returned _ _ => isFalse (fun ⟨_, hsame, _⟩ => nomatch hsame)
      decidable_of_iff _ loaded_cons.symm

/-! ## The print -/

/-- The job belongs to the print. -/
def Job.prints : Job → Bool
  | .call (.printToPdf _) => true
  | .transmit _ (.printToPdf _) => true
  | .await _ (.printToPdf _) => true
  | _ => false

theorem prints_of_method {url : Str} {stage : Stage} (id : Nat)
    (h : (stage.command url).method = str "Page.printToPDF") :
    (Job.transmit id stage).prints = true := by
  cases stage with
  | printToPdf sessionId => rfl
  | _ =>
      unfold Stage.command at h
      dsimp only at h
      exact absurd h (by decide)

/-- No reply leads to the print: only the wait for the load does. -/
theorem next_not_prints {stage next : Stage} {result : Json}
    (h : stage.next result = .ok (.call next)) : (Job.call next).prints = false := by
  rcases next_call h with ⟨_, _, hnext⟩ | ⟨_, _, _, hnext⟩ |
    ⟨sessionId, ⟨_, hnext⟩ | ⟨_, hnext⟩ | ⟨_, hnext⟩⟩
  · rw [hnext]
    rfl
  · rw [hnext]
    rfl
  · rw [hnext]
    rfl
  · rw [hnext]
    rfl
  · rw [hnext]
    rfl

/-! ## Runs -/

/-- A load event comes only once a command of this method was sent. -/
def LoadsAfter (method : Str) (parse : Str → Option Json) : Action Empty Choice →
    Pool Session Job → Prop
  | .run _ (.deliver text), p =>
      ∀ frame ∈ parse text, isLoad frame = true → Sent p.state.log method
  | _, _ => True

instance (method : Str) (parse : Str → Option Json) (a : Action Empty Choice)
    (p : Pool Session Job) : Decidable (LoadsAfter method parse a p) :=
  match a with
  | .run _ (.deliver _) => by
      dsimp only [LoadsAfter]
      infer_instance
  | .run _ (.connected _) | .run _ .close | .run _ .wake | .run _ .timeout => isTrue trivial

/-- The session of two threads: what the wait has seen, and what the print may
rely on, is a load since the navigation. -/
structure Loading (p : Pool Session Job) (render socket : List Job) : Prop where
  threads : p.threads = [render, socket]
  renders : ∀ job ∈ render, job.Renders
  serves : ∀ job ∈ socket, ¬ job.Renders
  seen : str "Page.loadEventFired" ∈ p.state.seenEvents → Loaded p.state.log
  ready : ∀ job ∈ render, job.prints = true → Loaded p.state.log
  printed : PrintedAfterLoad p.state.log

variable {parse : Str → Option Json} {url : Str} {p p' : Pool Session Job}
  {render socket : List Job}

/-- **A step of the render thread** prints only after the load. -/
theorem Loading.render_step {job : Job} {rest : List Job} (h : Loading p (job :: rest) socket)
    {s' : Session} {jobs : List Job} (hstep : Rendered url p.state job s' jobs) :
    Loading ⟨s', [jobs ++ rest, socket]⟩ (jobs ++ rest) socket := by
  have hrest : ∀ other ∈ rest, other.Renders :=
    fun other hother => h.renders other (List.mem_cons_of_mem _ hother)
  have hready : ∀ other ∈ rest, other.prints = true → Loaded p.state.log :=
    fun other hother => h.ready other (List.mem_cons_of_mem _ hother)
  have hsingle {q : Job → Prop} {new : Job} (hnew : q new) (hold : ∀ other ∈ rest, q other) :
      ∀ other ∈ [new] ++ rest, q other := by
    intro other hother
    rcases List.mem_cons.mp hother with hsame | hin
    · rw [hsame]
      exact hnew
    · exact hold other hin
  cases hstep with
  | ended hquiet =>
      obtain ⟨_, _, hseen, hlog⟩ := hquiet
      refine ⟨rfl, hrest, h.serves, ?_, ?_, ?_⟩
      · rw [hseen, hlog]
        exact h.seen
      · rw [hlog]
        exact hready
      · rw [hlog]
        exact h.printed
  | draw stage =>
      refine ⟨rfl, hsingle trivial hrest, h.serves, h.seen, hsingle ?_ hready, h.printed⟩
      intro hprints
      apply h.ready (.call stage) List.mem_cons_self
      cases stage with
      | printToPdf sessionId => rfl
      | _ => cases hprints
  | send id stage =>
      refine ⟨rfl, hsingle trivial hrest, h.serves, fun hseen => (h.seen hseen).cons _,
        hsingle ?_ (fun other hother hprints => (hready other hother hprints).cons _), ?_⟩
      · intro hprints
        apply Loaded.cons
        apply h.ready (.transmit id stage) List.mem_cons_self
        cases stage with
        | printToPdf sessionId => rfl
        | _ => cases hprints
      · apply h.printed.cons
        intro id' command hsame hprint
        cases hsame
        exact h.ready _ List.mem_cons_self (prints_of_method id hprint)
  | take hfiled hquiet hnext =>
      rename_i id stage response
      obtain ⟨_, _, hseen, hlog⟩ := hquiet
      have hlog' : s'.log = .returned id response :: p.state.log := hlog
      have hjobs : ∀ new ∈ jobs, new.Renders ∧ new.prints = false := by
        intro new hnew
        rcases hnext with hnone | ⟨_, _, ⟨next, hcall, hjobs⟩ | ⟨sessionId, _, hjobs⟩⟩
        · rw [hnone] at hnew
          cases hnew
        · rw [hjobs, List.mem_singleton] at hnew
          rw [hnew]
          exact ⟨trivial, next_not_prints hcall⟩
        · rw [hjobs, List.mem_singleton] at hnew
          rw [hnew]
          exact ⟨trivial, rfl⟩
      refine ⟨rfl, ?_, h.serves, ?_, ?_, ?_⟩
      · intro other hother
        rcases List.mem_append.mp hother with hnew | hold
        · exact (hjobs other hnew).1
        · exact hrest other hold
      · rw [hseen, hlog']
        exact fun hin => (h.seen hin).cons _
      · rw [hlog']
        intro other hother hprints
        rcases List.mem_append.mp hother with hnew | hold
        · rw [(hjobs other hnew).2] at hprints
          cases hprints
        · exact (hready other hold hprints).cons _
      · rw [hlog']
        apply h.printed.cons
        intro id' command hsame
        cases hsame
  | loaded sessionId hseen =>
      exact ⟨rfl, hsingle trivial hrest, h.serves, h.seen, hsingle (fun _ => h.seen hseen) hready,
        h.printed⟩

/-- **A message** that is a load event comes after the navigation. -/
theorem seen_fOnMessage {text : Str} {s : Session}
    (hseen : str "Page.loadEventFired" ∈ s.seenEvents → Loaded s.log)
    (hafter : ∀ frame ∈ parse text, isLoad frame = true → Sent s.log (str "Page.navigate")) :
    str "Page.loadEventFired" ∈ (fOnMessage parse text s).1.seenEvents →
      Loaded (fOnMessage parse text s).1.log := by
  rcases fOnMessage_effect parse text s with hnone | ⟨frame, hparse, hlog, _, heffect⟩
  · rw [hnone]
    exact hseen
  · rw [hlog]
    have hkept (hsame : (fOnMessage parse text s).1.seenEvents = s.seenEvents) :
        str "Page.loadEventFired" ∈ (fOnMessage parse text s).1.seenEvents →
          Loaded (.received frame :: s.log) := by
      rw [hsame]
      exact fun hin => (hseen hin).cons _
    rcases heffect with ⟨_, _, _, hsame, _⟩ | ⟨_, _, hsame | ⟨method, hid, hmethod, hinsert⟩⟩
    · exact hkept hsame
    · exact hkept hsame
    · intro hin
      rw [hinsert] at hin
      rcases Finset.mem_insert.mp hin with hthis | hold
      · have hload : isLoad frame = true := by
          unfold isLoad
          split
          · rename_i n hfind
            exact absurd hfind (hid n)
          · rw [hmethod, ← hthis]
            simp
        exact ⟨frame, s.log, List.suffix_rfl, hload, hafter frame hparse hload⟩
      · exact (hseen hold).cons _

/-- **A step of the socket thread** notes loads since the navigation only. -/
theorem Loading.socket_step {job : Job} {rest : List Job} (h : Loading p render (job :: rest))
    {choice : Choice} (hafter : LoadsAfter (str "Page.navigate") parse (.run 1 choice) p)
    {s' : Session} {jobs : List Job} (hstep : Served parse p.state choice job s' jobs) :
    Loading ⟨s', [render, jobs ++ rest]⟩ render (jobs ++ rest) := by
  have hrest : ∀ other ∈ rest, ¬ other.Renders :=
    fun other hother => h.serves other (List.mem_cons_of_mem _ hother)
  cases hstep with
  | message text =>
      have hseen := seen_fOnMessage h.seen hafter
      rcases fOnMessage_effect parse text p.state with hnone | ⟨frame, _, hlog, _⟩
      · rw [hnone]
        exact { h with threads := rfl }
      · refine ⟨rfl, h.renders, ?_, hseen, ?_, ?_⟩
        · intro other hother
          rcases List.mem_append.mp hother with hnew | hold
          · exact serves_fOnMessage parse text p.state other hnew
          · exact hrest other hold
        · rw [hlog]
          exact fun other hother hprints => (h.ready other hother hprints).cons _
        · rw [hlog]
          apply h.printed.cons
          intro id command hsame
          cases hsame
  | quiet hquiet =>
      obtain ⟨_, _, hseen, hlog⟩ := hquiet
      refine ⟨rfl, h.renders, hrest, ?_, ?_, ?_⟩
      · rw [hseen, hlog]
        exact h.seen
      · rw [hlog]
        exact h.ready
      · rw [hlog]
        exact h.printed
  | draw choice e =>
      refine ⟨rfl, h.renders, ?_, h.seen, h.ready, h.printed⟩
      intro other hother
      rcases List.mem_cons.mp hother with hnew | hold
      · rw [hnew]
        exact fun hrenders => hrenders
      · exact hrest other hold
  | send choice id e =>
      refine ⟨rfl, h.renders, hrest, fun hseen => (h.seen hseen).cons _,
        fun other hother hprints => (h.ready other hother hprints).cons _, ?_⟩
      apply h.printed.cons
      intro id' command hsame hprint
      cases hsame
      rcases response_method e with hcontinue | hfail
      · rw [hcontinue] at hprint
        exact absurd hprint (by decide)
      · rw [hfail] at hprint
        exact absurd hprint (by decide)

theorem Loading.step (h : Loading p render socket) {a : Action Empty Choice}
    (hafter : LoadsAfter (str "Page.navigate") parse a p)
    (hstep : (machine parse url).step a p = some p') :
    ∃ render' socket', Loading p' render' socket' := by
  rcases Machine.step_of_pair h.threads hstep with
    ⟨job, rest, choice, s, jobs, ha, hrender, hperform, hp'⟩ |
    ⟨job, rest, choice, s, jobs, ha, hsocket, hperform, hp'⟩
  · rw [hrender] at h
    have hjob := h.renders job List.mem_cons_self
    rw [hp']
    exact ⟨jobs ++ rest, socket, h.render_step (rendered_of_perform hjob hperform)⟩
  · rw [hsocket] at h
    have hjob := h.serves job List.mem_cons_self
    rw [ha] at hafter
    rw [hp']
    exact ⟨render, jobs ++ rest, h.socket_step hafter (served_of_perform hjob hperform)⟩

/-- **The page is printed after it was loaded** in every run in which no load
event comes before the navigation was sent. -/
theorem printed_after_load (parse : Str → Option Json) (url : Str) (p : Pool Session Job)
    (hp : Machine.Reachable (machine parse url) (LoadsAfter (str "Page.navigate") parse) Starts p) :
    PrintedAfterLoad p.state.log := by
  have hinvariant : ∃ render socket, Loading p render socket := by
    apply hp.invariant (I := fun p => ∃ render socket, Loading p render socket)
    · intro p hstart
      rw [hstart]
      refine ⟨[.call .createTarget], [.receive], rfl, ?_, ?_, ?_, ?_, ?_⟩
      · intro job hjob
        rw [List.mem_singleton.mp hjob]
        trivial
      · intro job hjob
        rw [List.mem_singleton.mp hjob]
        exact fun hrenders => hrenders
      · intro hseen
        cases hseen
      · intro job hjob hprints
        rw [List.mem_singleton.mp hjob] at hprints
        cases hprints
      · intro id command earlier hsuffix
        exact absurd (List.suffix_nil.mp hsuffix) (List.cons_ne_nil _ _)
    · intro a p p' h hafter hstep
      obtain ⟨render, socket, h⟩ := h
      exact h.step hafter hstep
  obtain ⟨render, socket, h⟩ := hinvariant
  exact h.printed

/-! ### Two loads -/

/-- The load event of a page. -/
def loadText : Str :=
  str "\x7b\"method\":\"Page.loadEventFired\",\"params\":\x7b\"timestamp\":1\x7d,\"sessionId\":\"S\"\x7d"

def loadFrame : Json :=
  .object [(str "method", .string (str "Page.loadEventFired")),
    (str "params", .object [(str "timestamp", .int 1)]), (str "sessionId", .string (str "S"))]

def parseLoads (text : Str) : Option Json :=
  if text = loadText then some loadFrame else parseLate text

/-- Wait for the load, then draw an id for the print and send it. -/
def waitAndPrint : List (Action Empty Choice) :=
  [.run 0 .wake, .run 0 .wake, .run 0 (.connected true)]

/-- The document loads after the navigation was answered. -/
def orderlyPrint : Pool Session Job :=
  ((machine parseLoads (fileUrl htmlFile)).execAllowed
    (LoadsAfter (str "Page.navigate") parseLoads)
    (callOnce 1 ++ callOnce 2 ++ callOnce 3 ++ callOnce 4 ++ callOnce 5 ++ callOnce 6 ++
      [.run 1 (.deliver loadText)] ++ waitAndPrint) started).getD started

/-- In an orderly render the print is the seventh command, and comes after the
load. -/
theorem printed_after_load_orderlyPrint :
    orderlyPrint.state.log.filterMap Event.sentId = [7, 6, 5, 4, 3, 2, 1] ∧
      PrintedAfterLoad orderlyPrint.state.log := by
  have hsent : orderlyPrint.state.log.filterMap Event.sentId = [7, 6, 5, 4, 3, 2, 1] := by
    decide +kernel
  have hreachable : Machine.Reachable (machine parseLoads (fileUrl htmlFile))
      (LoadsAfter (str "Page.navigate") parseLoads) Starts orderlyPrint :=
    Machine.Reachable.execAllowed_getD (.start rfl)
  generalize orderlyPrint = p at *
  exact ⟨hsent, printed_after_load parseLoads (fileUrl htmlFile) p hreachable⟩

/-- A faithful browser that sends load events once the page domain is enabled. -/
def LoadsWhenEnabled (parse : Str → Option Json) (a : Action Empty Choice) (p : Pool Session Job) :
    Prop :=
  Faithful parse a p ∧ LoadsAfter (str "Page.enable") parse a p

instance (parse : Str → Option Json) (a : Action Empty Choice) (p : Pool Session Job) :
    Decidable (LoadsWhenEnabled parse a p) :=
  inferInstanceAs (Decidable (_ ∧ _))

/-- The blank page finishes loading between `Page.enable` and its reply; the
document never does. -/
def earlyPrint : Pool Session Job :=
  ((machine parseLoads (fileUrl htmlFile)).execAllowed (LoadsWhenEnabled parseLoads)
    (callOnce 1 ++ callOnce 2 ++ callOnce 3 ++ callOnce 4 ++
      [.run 0 .wake, .run 0 (.connected true), .run 1 (.deliver loadText),
        .run 1 (.deliver (replyText 5)), .run 0 .wake] ++
      callOnce 6 ++ waitAndPrint) started).getD started

/-- The last thing done is a print, before any load. -/
def printsUnloaded : List Event → Bool
  | .sent _ command :: earlier =>
      decide (command.method = str "Page.printToPDF") && !decide (Loaded earlier)
  | _ => false

theorem of_printsUnloaded {log : List Event} (h : printsUnloaded log = true) :
    ∃ id command earlier, log = .sent id command :: earlier ∧
      command.method = str "Page.printToPDF" ∧ ¬ Loaded earlier := by
  unfold printsUnloaded at h
  split at h
  · rename_i id command earlier
    rw [Bool.and_eq_true, decide_eq_true_eq, Bool.not_eq_true', decide_eq_false_iff_not] at h
    exact ⟨id, command, earlier, rfl, h⟩
  · cases h

/-- **A page is printed that never loaded**: the load of the blank page ends the
wait. -/
theorem printed_too_early :
    ¬ ∀ parse url p, Machine.Reachable (machine parse url) (LoadsWhenEnabled parse) Starts p →
      PrintedAfterLoad p.state.log := by
  intro hall
  have hlast : printsUnloaded earlyPrint.state.log = true := by decide +kernel
  have hreachable : Machine.Reachable (machine parseLoads (fileUrl htmlFile))
      (LoadsWhenEnabled parseLoads) Starts earlyPrint :=
    Machine.Reachable.execAllowed_getD (.start rfl)
  generalize earlyPrint = p at *
  have hprinted := hall parseLoads (fileUrl htmlFile) p hreachable
  obtain ⟨id, command, earlier, hlog, hmethod, hunloaded⟩ := of_printsUnloaded hlast
  rw [hlog] at hprinted
  exact hunloaded (hprinted id command earlier List.suffix_rfl hmethod)

end Lectern.Export
