import Lectern.Sync.Revocation
import Lectern.Sync.WellBehaved
import Mathlib.Logic.Relation

/-!
# One notification

What `fNotify` does when nothing gets in between: it picks the connections, then
sends each its frame.  `due` says what it is for, in terms of path segments:
nothing for the device that made the change, every path for the owner's other
devices, and for everybody else the paths at or below the one they watch, each
once; a list of more than a hundred is left out altogether.

In every state the hub can reach, each connection is handed what is due to it,
as long as the paths listed are valid UTF-8; and somebody else's connection is
handed the same for two lists that agree on what it watches.
-/

namespace Lectern.Sync

open Threads

/-! ## What is due -/

/-- The names a path is made of, at its slashes. -/
def segments (path : Str) : List Str := path.splitOn slash

/-- The connection watches, in this workspace, the path or something above it. -/
def Connection.covers (conn : Connection) (ownerId path : Str) : Bool :=
  conn.watches.any (fun watch =>
    watch.owner = ownerId && (segments watch.pathPrefix).isPrefixOf (segments path))

/-- The connection is one of the owner's devices. -/
def Connection.Owns (conn : Connection) (ownerId : Str) : Prop :=
  conn.userId ≠ [] ∧ conn.userId = ownerId

instance (conn : Connection) (ownerId : Str) : Decidable (conn.Owns ownerId) := by
  unfold Connection.Owns
  infer_instance

/-- The paths that concern a connection. -/
def concerns (conn : Connection) (ownerId : Str) (paths : List Str) : List Str :=
  if conn.Owns ownerId then paths else (paths.filter (conn.covers ownerId)).eraseDups

/-- The whole list, or nothing when it is long. -/
def capped (list : List Str) : List Str := if list.length > 100 then [] else list

/-- The list a connection is due, if it is due a frame at all. -/
def due (conn : Connection) (ownerId : Str) (paths : List Str) (originDevice : Str) :
    Option (List Str) :=
  if originDevice ≠ [] ∧ conn.device = originDevice then none
  else if ¬ conn.Owns ownerId ∧ paths.filter (conn.covers ownerId) = [] then none
  else some (capped (concerns conn ownerId paths))

/-- A `changes` frame on the wire, its id left out. -/
def changesFrame (list : List Str) : Json :=
  .object [(str "id", .string []), (str "paths", .array (list.map .string)),
    (str "type", .string (str "changes"))]

/-! ## The call -/

/-- A frame a peer is handed. -/
structure Handover where
  connection : Nat
  id : Str
  frame : Frame

namespace Hub

/-- `fSendTracked`, with nothing in between. -/
def sendAlone (c : Nat) (frame : Frame) (h : Hub) : Hub × List Handover :=
  match h.fSendTracked c with
  | none => (h, [])
  | some (hub, id) => (hub, if (frame.json id).dumps then [⟨c, id, frame⟩] else [])

/-- Send one frame after the other. -/
def sendAll : List (Nat × Frame) → Hub → Hub × List Handover
  | [], h => (h, [])
  | entry :: rest, h =>
      let (hub, handed) := h.sendAlone entry.1 entry.2
      let (hub, others) := sendAll rest hub
      (hub, handed ++ others)

/-- `fNotify`, with nothing in between. -/
def notifyAlone (ownerId : Str) (paths : List Str) (originDevice : Str) (h : Hub) :
    Hub × List Handover :=
  sendAll (h.fNotify ownerId paths originDevice) h

end Hub

/-- The frames a connection is handed, up to their ids. -/
def received (c : Nat) (handed : List Handover) : List Json :=
  (handed.filter (fun d => d.connection = c)).map (fun d => d.frame.json [])

/-- Every connection is handed what it is due, and nothing else. -/
def Exact (h : Hub) (ownerId : Str) (paths : List Str) (originDevice : Str) : Prop :=
  ∀ c, received c (h.notifyAlone ownerId paths originDevice).2 =
    (((h.find c).bind (fun conn => due conn ownerId paths originDevice)).map changesFrame).toList

/-- Every path to be listed is valid UTF-8. -/
def Listable (h : Hub) (ownerId : Str) (paths : List Str) (originDevice : Str) : Prop :=
  ∀ c conn, h.find c = some conn → ¬ (originDevice ≠ [] ∧ conn.device = originDevice) →
    (concerns conn ownerId paths).length ≤ 100 →
    ∀ path ∈ concerns conn ownerId paths, validUtf8 path = true

/-! ## Prefixes and segments -/

/-- **The byte test is the segment order.** -/
theorem fMatchesPrefix_eq (path pathPrefix : Str) :
    fMatchesPrefix path pathPrefix = (segments pathPrefix).isPrefixOf (segments path) := by
  rw [Bool.eq_iff_iff, fMatchesPrefix_iff, List.isPrefixOf_iff_prefix]
  have hjoin (s : Str) : keyOf (segments s) = s := List.intercalate_splitOn slash
  constructor
  · intro h
    rcases h with rfl | ⟨rest, rfl⟩
    · exact List.prefix_rfl
    · have hsplit : segments (pathPrefix ++ slash :: rest) = segments pathPrefix ++ segments rest :=
        List.splitOn_append_cons_self _ _
      rw [hsplit]
      exact List.prefix_append _ _
  · intro h
    obtain ⟨tail, htail⟩ := h
    by_cases hempty : tail = []
    · refine Or.inl ?_
      rw [hempty, List.append_nil] at htail
      rw [← hjoin path, ← htail, hjoin]
    · refine Or.inr ⟨keyOf tail, ?_⟩
      have hne : segments pathPrefix ≠ [] := List.splitOn_ne_nil _ _
      rw [← hjoin path, ← htail, keyOf_append hne hempty, hjoin]

/-- Appending what is not listed yet leaves each path once, in order. -/
theorem addVisible_eq (watch : Watch) (visible paths : List Str) :
    addVisible visible watch paths = visible ++
      (paths.filter (fun path =>
        fMatchesPrefix path watch.pathPrefix && !visible.contains path)).eraseDups := by
  unfold addVisible
  induction paths generalizing visible with
  | nil => simp
  | cons path rest ih =>
      rw [List.foldl_cons, ih, List.filter_cons]
      by_cases hnew : (fMatchesPrefix path watch.pathPrefix && !visible.contains path) = true
      · rw [if_pos hnew, if_pos hnew, List.eraseDups_cons, List.filter_filter, List.append_assoc,
          List.singleton_append]
        congr 3
        apply List.filter_congr
        intro other _
        rw [Bool.eq_iff_iff]
        simp only [Bool.and_eq_true, Bool.not_eq_true', List.contains_eq_mem, List.mem_append,
          List.mem_singleton, decide_eq_false_iff_not, beq_eq_false_iff_ne, not_or]
        tauto
      · rw [if_neg hnew, if_neg hnew]

/-- A connection with at most one watch sees each covered path once. -/
theorem watched_eq {conn : Connection} (hone : conn.watches.length ≤ 1) (ownerId : Str)
    (paths : List Str) :
    watched conn ownerId paths = (paths.filter (conn.covers ownerId)).eraseDups := by
  have hcovers : conn.covers ownerId = fun path => conn.watches.any (fun watch =>
      watch.owner = ownerId && (segments watch.pathPrefix).isPrefixOf (segments path)) := rfl
  unfold watched
  rw [hcovers]
  cases hwatches : conn.watches with
  | nil => simp
  | cons watch rest =>
      have hrest : rest = [] := by
        rw [← List.length_eq_zero_iff]
        rw [hwatches, List.length_cons] at hone
        omega
      by_cases howner : watch.owner = ownerId
      · simp [hrest, howner, addVisible_eq, fMatchesPrefix_eq]
      · simp [hrest, howner]

theorem eraseDups_eq_nil {list : List Str} : list.eraseDups = [] ↔ list = [] := by
  cases list with
  | nil => simp
  | cons path rest => simp [List.eraseDups_cons]

/-- **What the code tells a connection is what it is due.** -/
theorem announced_eq_due {conn : Connection} (hone : conn.watches.length ≤ 1) (ownerId : Str)
    (paths : List Str) (originDevice : Str) :
    announced conn ownerId paths originDevice = due conn ownerId paths originDevice := by
  have hcap (list : List Str) :
      (if list.length ≤ cMaxPathsPerFrame then list else []) = capped list := by
    unfold capped cMaxPathsPerFrame
    by_cases hlong : list.length > 100
    · rw [if_neg (by omega), if_pos hlong]
    · rw [if_pos (by omega), if_neg hlong]
  have howns : ownersDevice conn ownerId = true ↔ conn.Owns ownerId := by
    unfold ownersDevice Connection.Owns
    simp
  unfold announced due
  dsimp only
  rw [hcap]
  by_cases hskip : originDevice ≠ [] ∧ conn.device = originDevice
  · rw [if_pos hskip, if_pos hskip]
  · rw [if_neg hskip, if_neg hskip]
    by_cases hown : conn.Owns ownerId
    · simp [howns.mpr hown, hown, concerns]
    · have hother : ownersDevice conn ownerId = false := by simpa [hown] using howns
      simp [hother, hown, concerns, watched_eq hone, eraseDups_eq_nil]

/-! ## What a peer is handed -/

theorem dumps_iff (frame : Frame) {id : Str} (hid : validUtf8 id = true) :
    (frame.json id).dumps = true ↔ frame.Utf8 := by
  refine ⟨?_, fun h => h.dumps hid⟩
  cases frame with
  | requestChanges => exact fun _ => trivial
  | changes paths why =>
      intro h path hpath
      simp only [Frame.json, Json.dumps, dumpsFields, dumpsAll_eq, Bool.and_eq_true,
        List.all_eq_true] at h
      have hdumps := h.2.1.2 (.string path) (List.mem_map_of_mem hpath)
      rwa [Json.dumps] at hdumps

instance (frame : Frame) : Decidable frame.Utf8 := by
  unfold Frame.Utf8
  split <;> infer_instance

/-- Frames to registered connections reach them when they can be serialised. -/
theorem received_sendAll (c : Nat) (entries : List (Nat × Frame)) (h : Hub)
    (hfind : ∀ entry ∈ entries, (h.find entry.1).isSome = true) :
    received c (h.sendAll entries).2 =
      (entries.filter (fun entry => entry.1 = c ∧ entry.2.Utf8)).map
        (fun entry => entry.2.json []) := by
  induction entries generalizing h with
  | nil => rfl
  | cons entry rest ih =>
      obtain ⟨conn, hconn⟩ := Option.isSome_iff_exists.mp (hfind entry List.mem_cons_self)
      obtain ⟨⟨hub, id⟩, htrack⟩ : ∃ drawn, h.fSendTracked entry.1 = some drawn := by
        unfold Hub.fSendTracked
        rw [hconn]
        exact ⟨_, rfl⟩
      obtain ⟨_, hid, _, _, hfinds⟩ := Hub.fSendTracked_some htrack
      have hrest := ih hub (by
        intro other hother
        rw [hfinds]
        split
        · rw [Option.isSome_map]
          exact hfind other (List.mem_cons_of_mem _ hother)
        · exact hfind other (List.mem_cons_of_mem _ hother))
      have hutf8 := dumps_iff entry.2 (hid ▸ validUtf8_frameId h.nextFrame)
      unfold Hub.sendAll Hub.sendAlone
      rw [htrack]
      dsimp only
      unfold received at hrest ⊢
      rw [List.filter_append, List.map_append, hrest, List.filter_cons]
      by_cases hgood : entry.2.Utf8
      · by_cases hc : entry.1 = c
        · simp [hutf8.mpr hgood, hgood, hc]
        · simp [hutf8.mpr hgood, hc]
      · simp [hutf8, hgood]

/-- The entry under a key that occurs once. -/
theorem filter_key {α : Type} {entries : List (Nat × α)}
    (hkeys : (entries.map Prod.fst).Pairwise (· < ·)) (c : Nat) :
    entries.filter (fun entry => entry.1 = c) =
      (entries.find? (fun entry => entry.1 = c)).toList := by
  induction entries with
  | nil => rfl
  | cons entry rest ih =>
      rw [List.map_cons, List.pairwise_cons] at hkeys
      rw [List.filter_cons, List.find?_cons]
      by_cases hc : entry.1 = c
      · have hnone : rest.filter (fun other => other.1 = c) = [] := by
          rw [List.filter_eq_nil_iff]
          intro other hother hsame
          have hlt := hkeys.1 other.1 (List.mem_map_of_mem hother)
          have hkey : other.1 = c := of_decide_eq_true hsame
          omega
        simp [hc, hnone]
      · simp [hc, ih hkeys.2]

/-- The entry of a connection in a notification. -/
theorem filter_fNotify (h : Hub) (c : Nat) (ownerId : Str) (paths : List Str)
    (originDevice : Str) :
    (h.fNotify ownerId paths originDevice).filter (fun entry => entry.1 = c) =
      ((h.find c).bind (fun conn => (announced conn ownerId paths originDevice).map
        (fun visible => (c, Frame.changes visible ⟨ownerId, conn⟩)))).toList := by
  have hkeys : (h.connections.map Prod.fst).Pairwise (· < ·) :=
    (List.pairwise_append.mp h.ordered).1
  have hfilter := filter_key hkeys c
  unfold Hub.fNotify Hub.find
  have hsame : (fun entry : Nat × Connection =>
      ((announced entry.2 ownerId paths originDevice).map (fun visible =>
        (entry.1, Frame.changes visible ⟨ownerId, entry.2⟩))).filter
          (fun entry => decide (entry.1 = c))) =
      fun entry => if decide (entry.1 = c) = true then
        (announced entry.2 ownerId paths originDevice).map (fun visible =>
          (entry.1, Frame.changes visible ⟨ownerId, entry.2⟩)) else none := by
    funext entry
    cases announced entry.2 ownerId paths originDevice with
    | none => simp
    | some visible =>
        by_cases hc : entry.1 = c
        · simp [hc]
        · simp [hc]
  rw [List.filter_filterMap, hsame, ← List.filterMap_filter, hfilter]
  cases hfind : h.connections.find? (fun entry => decide (entry.1 = c)) with
  | none => rfl
  | some entry =>
      have hc : entry.1 = c := by simpa using List.find?_some hfind
      simp only [Option.toList_some, List.filterMap_cons, List.filterMap_nil, Option.map_some,
        Option.bind_some, hc]
      cases announced entry.2 ownerId paths originDevice <;> rfl

/-- **What a connection is handed**: what it is due, if that can be serialised. -/
theorem received_notifyAlone (h : Hub)
    (hone : ∀ c conn, h.find c = some conn → conn.watches.length ≤ 1) (c : Nat) (ownerId : Str)
    (paths : List Str) (originDevice : Str) :
    received c (h.notifyAlone ownerId paths originDevice).2 =
      ((((h.find c).bind (fun conn => due conn ownerId paths originDevice)).filter
        (fun list => ∀ path ∈ list, validUtf8 path = true)).map changesFrame).toList := by
  have hregistered : ∀ entry ∈ h.fNotify ownerId paths originDevice,
      (h.find entry.1).isSome = true := by
    intro entry hentry
    obtain ⟨⟨c', conn⟩, hconn, hsome⟩ := List.mem_filterMap.mp hentry
    obtain ⟨visible, _, rfl⟩ := Option.map_eq_some_iff.mp hsome
    rw [Hub.find_of_mem hconn]
    rfl
  have hsplit : (h.fNotify ownerId paths originDevice).filter
      (fun entry => entry.1 = c ∧ entry.2.Utf8) =
      ((h.fNotify ownerId paths originDevice).filter (fun entry => entry.1 = c)).filter
        (fun entry => entry.2.Utf8) := by
    rw [List.filter_filter]
    apply List.filter_congr
    intro entry _
    rw [Bool.decide_and, Bool.and_comm]
  unfold Hub.notifyAlone
  rw [received_sendAll c _ h hregistered, hsplit, filter_fNotify]
  cases hfind : h.find c with
  | none => rfl
  | some conn =>
      simp only [Option.bind_some, announced_eq_due (hone c conn hfind)]
      cases due conn ownerId paths originDevice with
      | none => rfl
      | some list =>
          have hutf8 : (Frame.changes list ⟨ownerId, conn⟩).Utf8 ↔
              ∀ path ∈ list, validUtf8 path = true := Iff.rfl
          simp only [Option.map_some, Option.toList_some, List.filter_cons, List.filter_nil,
            Option.filter_some, hutf8]
          by_cases hall : ∀ path ∈ list, validUtf8 path = true
          · rw [if_pos (decide_eq_true hall), if_pos (decide_eq_true hall)]
            rfl
          · rw [if_neg (by simpa using hall), if_neg (by simpa using hall)]
            rfl

/-! ## The call in the machine -/

/-- The frame an event handed to a peer. -/
def Event.handover {ε R : Type} : Event ε R → Option Handover
  | .sent c id frame => some ⟨c, id, frame⟩
  | _ => none

section

variable {ε R : Type} {svc : Service ε R} {p : Pool (Sys ε R) (Job R)} {i : Nat}

/-- Thread `i` goes on alone, and its sends return. -/
def Alone (svc : Service ε R) (i : Nat) :
    Pool (Sys ε R) (Job R) → Pool (Sys ε R) (Job R) → Prop :=
  Relation.ReflTransGen (fun p p' => (machine svc).step (.run i true) p = some p')

/-- The thread does its next job. -/
theorem step_next (svc : Service ε R) {job : Job R} {rest : List (Job R)}
    (hthread : p.threads[i]? = some (job :: rest)) :
    ∃ q, (machine svc).step (.run i true) p = some q ∧
      q.state = (perform svc true i job p.state).1 ∧
      q.threads[i]? = some ((perform svc true i job p.state).2 ++ rest) := by
  obtain ⟨hi, _⟩ := List.getElem?_eq_some_iff.mp hthread
  refine ⟨⟨_, p.threads.set i ((perform svc true i job p.state).2 ++ rest)⟩, ?_, rfl,
    List.getElem?_set_self hi⟩
  simp only [Machine.step, hthread, machine, Option.map_some]

/-- Sending alone is the three jobs of each frame, done in a row. -/
theorem alone_sendAll (entries : List (Nat × Frame)) {rest : List (Job R)}
    (hthread : p.threads[i]? =
      some (entries.map (fun entry => Job.track entry.1 entry.2) ++ rest)) :
    ∃ p', Alone svc i p p' ∧ p'.threads[i]? = some rest ∧
      p'.state.hub = (p.state.hub.sendAll entries).1 ∧
      p'.state.log.filterMap Event.handover =
        (p.state.hub.sendAll entries).2.reverse ++ p.state.log.filterMap Event.handover := by
  induction entries generalizing p with
  | nil => exact ⟨p, .refl, hthread, rfl, rfl⟩
  | cons entry entries ih =>
      obtain ⟨c, frame⟩ := entry
      rw [List.map_cons, List.cons_append] at hthread
      obtain ⟨q, hstep, hstate, hnext⟩ := step_next svc hthread
      unfold perform at hstate hnext
      unfold Hub.sendAll Hub.sendAlone
      cases htrack : p.state.hub.fSendTracked c with
      | none =>
          simp only [htrack, List.nil_append] at hstate hnext
          obtain ⟨p', halone, hdone, hhub, hlog⟩ := ih hnext
          rw [hstate] at hhub hlog
          exact ⟨p', .head hstep halone, hdone, hhub, hlog⟩
      | some drawn =>
          obtain ⟨hub, id⟩ := drawn
          simp only [htrack] at hstate hnext
          obtain ⟨q₂, hstep₂, hstate₂, hnext₂⟩ := step_next svc hnext
          obtain ⟨q₃, hstep₃, hstate₃, hnext₃⟩ := step_next svc hnext₂
          obtain ⟨p', halone, hdone, hhub, hlog⟩ := ih hnext₃
          have hhub₃ : q₃.state.hub = hub := by
            rw [hstate₃, perform, hstate₂, perform, hstate]
            dsimp only
            split <;> rfl
          have hlog₃ : q₃.state.log.filterMap Event.handover =
              (if (frame.json id).dumps then [⟨c, id, frame⟩] else []) ++
                p.state.log.filterMap Event.handover := by
            rw [hstate₃, perform, hstate₂, perform, hstate, Bool.and_true]
            dsimp only
            split <;> rfl
          rw [hhub₃] at hhub hlog
          refine ⟨p', .head hstep (.head hstep₂ (.head hstep₃ halone)), hdone, hhub, ?_⟩
          rw [hlog, hlog₃]
          dsimp only
          rw [List.reverse_append, List.append_assoc]
          congr 1
          split <;> rfl

/-- **The call is the notification's thread, running alone.** -/
theorem alone_notifyAlone {a : Announcement} {rest : List (Job R)}
    (hthread : p.threads[i]? = some (.notify a :: rest)) :
    ∃ p', Alone svc i p p' ∧ p'.threads[i]? = some rest ∧
      p'.state.hub = (p.state.hub.notifyAlone a.ownerId a.paths a.originDevice).1 ∧
      p'.state.log.filterMap Event.handover =
        (p.state.hub.notifyAlone a.ownerId a.paths a.originDevice).2.reverse ++
          p.state.log.filterMap Event.handover := by
  obtain ⟨q, hstep, hstate, hnext⟩ := step_next svc hthread
  obtain ⟨p', halone, hdone, hhub, hlog⟩ := alone_sendAll _ hnext
  rw [hstate] at hhub hlog
  exact ⟨p', .head hstep halone, hdone, hhub, hlog⟩

end

/-! ## Exactly what is due -/

/-- A connection follows at most one path. -/
theorem one_watch {ε R : Type} {svc : Service ε R} {p : Pool (Sys ε R) (Job R)}
    (hp : Run svc p) (c : Nat) (conn : Connection) (hfind : p.state.hub.find c = some conn) :
    conn.watches.length ≤ 1 := by
  have hinv : ∀ c conn, p.state.hub.find c = some conn → conn.watches.length ≤ 1 := by
    apply hp.invariant (I := fun p =>
      ∀ c conn, p.state.hub.find c = some conn → conn.watches.length ≤ 1)
    · intro p hfresh c conn hfind
      rw [hfresh.2.1] at hfind
      cases hfind
    · intro a p p' h _ hstep c conn' hfind
      rcases Machine.step_cases hstep with ⟨e, s, jobs, rfl, henter, rfl⟩ |
        ⟨before, job, rest, after, returns, s, jobs, rfl, hthreads, hperform, rfl⟩
      · rcases find_enter henter hfind with ⟨conn, hfind', _, hsame⟩ | ⟨_, _, hnone⟩
        · rw [hsame]
          exact h c conn hfind'
        · rw [hnone]
          exact Nat.zero_le 1
      · obtain ⟨conn, hfind', _, hsame | ⟨target, frame, _, hnew⟩⟩ :=
          find_perform (Option.some.inj hperform) hfind
        · rw [hsame]
          exact h c conn hfind'
        · rw [hnew]
          cases target with
          | none => exact Nat.zero_le 1
          | some target => exact Nat.le_refl 1
  exact hinv c conn hfind

theorem mem_capped {list : List Str} {path : Str} :
    path ∈ capped list ↔ list.length ≤ 100 ∧ path ∈ list := by
  unfold capped
  by_cases hlong : list.length > 100
  · rw [if_pos hlong]
    simp [Nat.not_le.mpr hlong]
  · rw [if_neg hlong]
    simp [Nat.not_lt.mp hlong]

/-- A path that concerns a connection makes it due a frame. -/
theorem due_of_mem {conn : Connection} {ownerId path originDevice : Str} {paths : List Str}
    (hskip : ¬ (originDevice ≠ [] ∧ conn.device = originDevice))
    (hpath : path ∈ concerns conn ownerId paths) :
    due conn ownerId paths originDevice = some (capped (concerns conn ownerId paths)) := by
  unfold due
  rw [if_neg hskip, if_neg]
  intro hnone
  unfold concerns at hpath
  rw [if_neg hnone.1, hnone.2] at hpath
  cases hpath

theorem due_some {conn : Connection} {ownerId originDevice : Str} {paths list : List Str}
    (h : due conn ownerId paths originDevice = some list) :
    ¬ (originDevice ≠ [] ∧ conn.device = originDevice) ∧
      list = capped (concerns conn ownerId paths) := by
  unfold due at h
  split at h
  · cases h
  · rename_i hskip
    split at h
    · cases h
    · cases h
      exact ⟨hskip, rfl⟩

/-- What is due to somebody else depends on what it watches. -/
theorem due_congr {conn : Connection} {ownerId : Str} {paths paths' : List Str}
    (hother : ¬ conn.Owns ownerId)
    (hsame : paths.filter (conn.covers ownerId) = paths'.filter (conn.covers ownerId))
    (originDevice : Str) :
    due conn ownerId paths originDevice = due conn ownerId paths' originDevice := by
  unfold due concerns
  rw [if_neg hother, if_neg hother, hsame]

/-- **One notification, exactly.**  In every state the hub can reach, for every
owner, list of paths and origin device: each connection is handed what it is due
and nothing else if and only if every path to be listed is valid UTF-8; and a
connection that is not the owner's is handed the same frames, up to their ids,
for any two lists that agree on the paths it watches. -/
theorem exact_iff_listable {ε R : Type} (svc : Service ε R) (p : Pool (Sys ε R) (Job R))
    (hp : Run svc p) (ownerId : Str) (paths : List Str) (originDevice : Str) :
    (Exact p.state.hub ownerId paths originDevice ↔
      Listable p.state.hub ownerId paths originDevice) ∧
    ∀ c conn paths', p.state.hub.find c = some conn → ¬ conn.Owns ownerId →
      paths.filter (conn.covers ownerId) = paths'.filter (conn.covers ownerId) →
      received c (p.state.hub.notifyAlone ownerId paths originDevice).2 =
        received c (p.state.hub.notifyAlone ownerId paths' originDevice).2 := by
  have hreceived := received_notifyAlone p.state.hub (one_watch hp)
  refine ⟨⟨?_, ?_⟩, ?_⟩
  · intro hexact c conn hfind hskip hshort path hpath
    have hdue := due_of_mem hskip hpath
    have hsame := hexact c
    rw [hreceived, hfind, Option.bind_some, hdue, Option.filter_some] at hsame
    by_contra hbad
    rw [if_neg] at hsame
    · simp at hsame
    · intro hall
      exact hbad (of_decide_eq_true hall path (mem_capped.mpr ⟨hshort, hpath⟩))
  · intro hlistable c
    rw [hreceived]
    cases hlist : (p.state.hub.find c).bind (fun conn => due conn ownerId paths originDevice) with
    | none => rfl
    | some list =>
        obtain ⟨conn, hfind, hdue⟩ := Option.bind_eq_some_iff.mp hlist
        obtain ⟨hskip, rfl⟩ := due_some hdue
        rw [Option.filter_some, if_pos]
        apply decide_eq_true
        intro path hpath
        obtain ⟨hshort, hmem⟩ := mem_capped.mp hpath
        exact hlistable c conn hfind hskip hshort path hmem
  · intro c conn paths' hfind hother hsame
    rw [hreceived, hreceived, hfind, Option.bind_some, Option.bind_some,
      due_congr hother hsame originDevice]

/-! ### Bob watches, Ann is connected too -/

/-- Bob follows the shared file, and Ann's device is connected. -/
def bothConnected : Pool (Sys Server Request) (Job Request) :=
  runOf (bobWatches ++ [.enter (.connect (str "ann"))])

theorem run_bothConnected : Run watchService bothConnected := by
  unfold bothConnected runOf
  exact Machine.Reachable.exec_getD (fun _ _ _ => trivial) (.start ⟨rfl, rfl, rfl, rfl⟩)
    (by decide +kernel)

/-- Both are told of the file, and Bob is told the same when Ann changes another
file with it. -/
theorem exact_iff_listable_bothConnected :
    Exact bothConnected.state.hub (str "ann") [str "docs/x.mdp"] (str "phone") ∧
      received 1 (bothConnected.state.hub.notifyAlone (str "ann") [str "docs/x.mdp"] []).2 =
        received 1 (bothConnected.state.hub.notifyAlone (str "ann")
          [str "diary.mdp", str "docs/x.mdp"] []).2 := by
  have hchecks : ((bothConnected.state.hub.find 1).any (fun conn =>
      !decide (conn.Owns (str "ann")) &&
        [str "docs/x.mdp"].filter (conn.covers (str "ann")) =
          [str "diary.mdp", str "docs/x.mdp"].filter (conn.covers (str "ann")))) = true := by
    decide +kernel
  have hrun := run_bothConnected
  generalize bothConnected = p at *
  refine ⟨((exact_iff_listable watchService p hrun _ _ _).1).mpr ?_, ?_⟩
  · intro c conn _ _ _ path hpath
    have hmem : path ∈ [str "docs/x.mdp"] := by
      unfold concerns at hpath
      split at hpath
      · exact hpath
      · exact (List.mem_filter.mp (List.mem_eraseDups.mp hpath)).1
    rw [List.mem_singleton.mp hmem]
    exact validUtf8_of_ascii (by decide +kernel)
  · obtain ⟨conn, hfind, hchecks⟩ := (Option.any_eq_true _ _).mp hchecks
    simp only [Bool.and_eq_true, Bool.not_eq_true', decide_eq_false_iff_not,
      decide_eq_true_eq] at hchecks
    exact (exact_iff_listable watchService p hrun _ _ _).2 1 conn _ hfind hchecks.1 hchecks.2

/-- **A name that is not valid UTF-8 is told to nobody.** -/
theorem not_exact_badName :
    ¬ ∀ p, Run watchService p → ∀ ownerId paths originDevice, ownerId ≠ [] →
      (∀ path ∈ paths, fSafeRelPath path = .ok path) →
      Exact p.state.hub ownerId paths originDevice := by
  intro hall
  have hexact := hall _ run_bothConnected (str "ann") [[0xFF]] [] (by decide) (by decide) 2
  have hnone : (received 2
      (bothConnected.state.hub.notifyAlone (str "ann") [[0xFF]] []).2).length = 0 := by
    decide +kernel
  have hone : (((bothConnected.state.hub.find 2).bind
      (fun conn => due conn (str "ann") [[0xFF]] [])).map changesFrame).toList.length = 1 := by
    decide +kernel
  rw [hexact, hone] at hnone
  omega

end Lectern.Sync
