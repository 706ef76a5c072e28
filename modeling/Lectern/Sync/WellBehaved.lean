import Lectern.Sync.Delivery

/-!
# A peer that answers

A peer does its part when its sends return and it acknowledges every frame it is
handed before the timer of that frame fires.  As long as every path list that
is about to be told to such a connection can be serialised, the hub neither
drops nor closes it: a frame the hub remembers as unanswered has been handed
over by the time its timer is scheduled.

`InOrder` says that of one thread, `Orderly` of the whole run.  A path that is
not valid UTF-8 breaks it: the frame is remembered, never sent, and its timer
drops the peer.
-/

namespace Lectern.Sync

open Threads

variable {ε R : Type}

/-! ## What the peer does -/

def Event.isSent (c : Nat) (id : Str) : Event ε R → Bool
  | .sent c' id' _ => c' = c && id' = id
  | _ => false

def Event.isAcked (c : Nat) (id : Str) : Event ε R → Bool
  | .acked c' id' => c' = c && id' = id
  | _ => false

/-- The frame has reached the peer. -/
def Handed (log : List (Event ε R)) (c : Nat) (id : Str) : Prop :=
  ∃ e ∈ log, e.isSent c id = true

/-- Its acknowledgement has arrived since. -/
def Acknowledged (log : List (Event ε R)) (c : Nat) (id : Str) : Prop :=
  Since (fun e => e.isAcked c id = true) (fun e => e.isSent c id = true) log

instance (log : List (Event ε R)) (c : Nat) (id : Str) : Decidable (Handed log c id) := by
  unfold Handed
  infer_instance

instance (log : List (Event ε R)) (c : Nat) (id : Str) : Decidable (Acknowledged log c id) := by
  unfold Acknowledged
  infer_instance

/-- The job calls `fSend` of this peer. -/
def Job.sendsTo (c : Nat) : Job R → Bool
  | .send c' _ _ => c' = c
  | .reply c' _ _ => c' = c
  | _ => false

/-- The job thread `i` does next. -/
def nextJob (p : Pool (Sys ε R) (Job R)) (i : Nat) : Option (Job R) :=
  p.threads[i]?.bind List.head?

/-- The peer of `c` does its part: `fSend` returns, and while `c` is registered
its timers fire for acknowledged frames only, as far as they were handed over. -/
def Answers (c : Nat) : Action (Entry R) Bool → Pool (Sys ε R) (Job R) → Prop
  | .run i returns, p => ∀ job ∈ nextJob p i, job.sendsTo c = true → returns = true
  | .enter (.fire c' id), p => c' = c → (p.state.hub.find c).isSome = true →
      Handed p.state.log c id → Acknowledged p.state.log c id
  | .enter _, _ => True

/-- What a notification is about to list to `c` is valid UTF-8. -/
def Serialisable (c : Nat) : Action (Entry R) Bool → Pool (Sys ε R) (Job R) → Prop
  | .run i _, p =>
      match nextJob p i with
      | some (.notify a) =>
          ∀ conn ∈ p.state.hub.find c,
            ∀ path ∈ (announced conn a.ownerId a.paths a.originDevice).getD [],
              validUtf8 path = true
      | _ => True
  | .enter _, _ => True

instance (c : Nat) (a : Action (Entry R) Bool) (p : Pool (Sys ε R) (Job R)) :
    Decidable (Answers c a p) := by
  unfold Answers
  split <;> infer_instance

instance (c : Nat) (a : Action (Entry R) Bool) (p : Pool (Sys ε R) (Job R)) :
    Decidable (Serialisable c a p) := by
  unfold Serialisable
  split
  · split <;> infer_instance
  · infer_instance

/-! ## Frames in the log -/

@[simp] theorem handed_cons {e : Event ε R} {log : List (Event ε R)} {c : Nat} {id : Str} :
    Handed (e :: log) c id ↔ e.isSent c id = true ∨ Handed log c id := by
  unfold Handed
  simp only [List.mem_cons, exists_eq_or_imp]

theorem Handed.mono {log log' : List (Event ε R)} (hsub : ∀ e ∈ log, e ∈ log') {c : Nat}
    {id : Str} (h : Handed log c id) : Handed log' c id := by
  obtain ⟨e, he, hsent⟩ := h
  exact ⟨e, hsub e he, hsent⟩

/-- Every frame was issued before it was handed to connection `c`. -/
def IssuedFirst (c : Nat) : List (Event ε R) → Prop
  | [] => True
  | e :: earlier =>
      (∀ id, e.isSent c id = true → .issued c id ∈ earlier) ∧ IssuedFirst c earlier

theorem IssuedFirst.issued {c : Nat} {id : Str} {log : List (Event ε R)} (h : IssuedFirst c log)
    (hhanded : Handed log c id) : .issued c id ∈ log := by
  induction log with
  | nil =>
      obtain ⟨e, he, _⟩ := hhanded
      cases he
  | cons e log ih =>
      rcases handed_cons.mp hhanded with hsent | hhanded
      · exact List.mem_cons_of_mem _ (h.1 id hsent)
      · exact List.mem_cons_of_mem _ (ih h.2 hhanded)

/-- **An acknowledged frame is answered**: it was issued once, before it was
handed over. -/
theorem not_unanswered {c : Nat} {id : Str} {log : List (Event ε R)} (h : IssuedFirst c log)
    (hnodup : (log.filterMap Event.issuedId).Nodup) (hhanded : Handed log c id)
    (hacked : Acknowledged log c id) : ¬ Unanswered log c id := by
  induction log with
  | nil => exact absurd hacked not_since_nil
  | cons e log ih =>
      intro hunanswered
      rcases since_cons.mp hacked with he | ⟨hnot, hacked⟩
      · cases e with
        | acked c' id' =>
            simp only [Event.isAcked, Bool.and_eq_true, decide_eq_true_eq] at he
            obtain ⟨rfl, rfl⟩ := he
            simp at hunanswered
        | _ => cases he
      · have hbefore := (handed_cons.mp hhanded).resolve_left hnot
        rcases unanswered_cons.mp hunanswered with rfl | ⟨_, hunanswered⟩
        · -- It would have been issued twice.
          have hissued := h.2.issued hbefore
          refine (List.nodup_cons.mp hnodup).1 ?_
          exact List.mem_filterMap.mpr ⟨_, hissued, rfl⟩
        · have hrest : (log.filterMap Event.issuedId).Nodup :=
            hnodup.sublist ((List.sublist_cons_self e log).filterMap _)
          exact ih h.2 hrest hbefore hacked hunanswered

/-! ## The order within a thread -/

/-- Nothing in the frame stops `dump()`. -/
def Frame.Utf8 : Frame → Prop
  | .requestChanges => True
  | .changes paths _ => ∀ path ∈ paths, validUtf8 path = true

theorem Frame.Utf8.dumps {frame : Frame} (h : frame.Utf8) {id : Str} (hid : validUtf8 id = true) :
    (frame.json id).dumps = true := by
  apply dumps_json hid
  intro paths why hframe
  rw [hframe] at h
  exact h

/-- The job may be done for connection `c` once the frames `ahead` are sent. -/
def Job.Fits (c : Nat) (log : List (Event ε R)) (ahead : List Str) : Job R → Prop
  | .track c' frame => c' = c → frame.Utf8
  | .send c' id frame => c' = c → frame.Utf8 ∧ .issued c id ∈ log
  | .schedule c' id => c' = c → id ∈ ahead ∨ Handed log c id
  | _ => True

/-- The frames the job hands to `c`. -/
def Job.hands (c : Nat) : Job R → List Str
  | .send c' id _ => if c' = c then [id] else []
  | _ => []

/-- Doing the jobs one after the other hands `c` every frame before its timer. -/
def InOrder (c : Nat) (log : List (Event ε R)) : List Str → List (Job R) → Prop
  | _, [] => True
  | ahead, job :: rest => job.Fits c log ahead ∧ InOrder c log (job.hands c ++ ahead) rest

variable {c : Nat} {log log' : List (Event ε R)} {ahead ahead' : List Str}

theorem Job.Fits.mono (hsub : ∀ e ∈ log, e ∈ log')
    (hahead : ∀ id ∈ ahead, id ∈ ahead' ∨ Handed log' c id) {job : Job R}
    (h : job.Fits c log ahead) : job.Fits c log' ahead' := by
  cases job with
  | track c' frame => exact h
  | send c' id frame =>
      intro hc
      obtain ⟨hutf8, hissued⟩ := h hc
      exact ⟨hutf8, hsub _ hissued⟩
  | schedule c' id =>
      intro hc
      rcases h hc with hid | hhanded
      · exact hahead id hid
      · exact Or.inr (hhanded.mono hsub)
  | _ => trivial

theorem InOrder.mono (hsub : ∀ e ∈ log, e ∈ log')
    (hahead : ∀ id ∈ ahead, id ∈ ahead' ∨ Handed log' c id) {jobs : List (Job R)}
    (h : InOrder c log ahead jobs) : InOrder c log' ahead' jobs := by
  induction jobs generalizing ahead ahead' with
  | nil => trivial
  | cons job rest ih =>
      refine ⟨h.1.mono hsub hahead, ih ?_ h.2⟩
      intro id hid
      rcases List.mem_append.mp hid with hnew | hold
      · exact Or.inl (List.mem_append_left _ hnew)
      · exact (hahead id hold).imp_left (List.mem_append_right _)

/-- More jobs in front, none of which hands anything over. -/
theorem InOrder.append {jobs rest : List (Job R)}
    (hjobs : ∀ job ∈ jobs, job.Fits c log ahead ∧ job.hands c = [])
    (hrest : InOrder c log ahead rest) : InOrder c log ahead (jobs ++ rest) := by
  induction jobs with
  | nil => exact hrest
  | cons job jobs ih =>
      obtain ⟨hfits, hhands⟩ := hjobs job List.mem_cons_self
      refine ⟨hfits, ?_⟩
      rw [hhands]
      exact ih (fun other hother => hjobs other (List.mem_cons_of_mem _ hother))

/-- Jobs that only reply, resolve, follow or notify. -/
def Job.Light : Job R → Prop
  | .track _ _ | .send _ _ _ | .schedule _ _ => False
  | _ => True

theorem Job.Light.fits {job : Job R} (h : job.Light) (c : Nat) (log : List (Event ε R))
    (ahead : List Str) : job.Fits c log ahead ∧ job.hands c = [] := by
  cases job with
  | track | send | schedule => exact h.elim
  | _ => exact ⟨trivial, rfl⟩

theorem light_answer {c : Nat} {kind : Reply} {frame : Json} {job : Job R}
    (h : job ∈ answer c kind frame) : job.Light := by
  unfold answer at h
  dsimp only at h
  split at h
  · cases h
  · rw [List.mem_singleton.mp h]
    trivial

theorem light_afterHandle {c : Nat} {userId : Str} {frame : Json} {job : Job R}
    (h : job ∈ afterHandle c userId frame) : job.Light := by
  unfold afterHandle at h
  dsimp only at h
  split at h
  · cases h
  · split at h
    · exact light_answer h
    · split at h
      · rw [List.mem_singleton.mp h]
        trivial
      · split at h
        · rw [List.mem_singleton.mp h]
          trivial
        · cases h

/-! ## What the run keeps -/

/-- Every frame of `c` was issued before it was handed over, and handed over
before its timer was scheduled; nothing has dropped `c`. -/
structure Orderly (c : Nat) (p : Pool (Sys ε R) (Job R)) : Prop where
  threads : ∀ t ∈ p.threads, InOrder c p.state.log [] t
  timers : ∀ id, (c, id) ∈ p.state.timers → Handed p.state.log c id
  issued : IssuedFirst c p.state.log
  kept : .dropped c ∉ p.state.log

variable {svc : Service ε R} {s s' : Sys ε R} {i : Nat} {jobs rest : List (Job R)}

variable {p : Pool (Sys ε R) (Job R)}

/-- Events that neither hand a frame to `c` nor drop it. -/
def Event.Spares (c : Nat) (e : Event ε R) : Prop :=
  (∀ id, e.isSent c id = false) ∧ e ≠ .dropped c

theorem IssuedFirst.append {extra : List (Event ε R)} (hextra : ∀ e ∈ extra, e.Spares c)
    (h : IssuedFirst c log) : IssuedFirst c (extra ++ log) := by
  induction extra with
  | nil => exact h
  | cons e extra ih =>
      refine ⟨?_, ih (fun other hother => hextra other (List.mem_cons_of_mem _ hother))⟩
      intro id hsent
      rw [(hextra e List.mem_cons_self).1 id] at hsent
      cases hsent

/-- A step that notes only such events adds no timer of `c` and brings jobs that
are in order. -/
theorem Orderly.step (h : Orderly c p) (extra : List (Event ε R)) {threads : List (List (Job R))}
    (hlog : s'.log = extra ++ p.state.log) (hextra : ∀ e ∈ extra, e.Spares c)
    (htimers : ∀ id, (c, id) ∈ s'.timers → (c, id) ∈ p.state.timers)
    (hthreads : ∀ t ∈ threads, t ∈ p.threads ∨ InOrder c s'.log [] t) : Orderly c ⟨s', threads⟩ := by
  have hsub : ∀ e ∈ p.state.log, e ∈ s'.log := by
    intro e he
    rw [hlog]
    exact List.mem_append_right _ he
  refine ⟨?_, ?_, ?_, ?_⟩
  · intro t ht
    rcases hthreads t ht with hold | hnew
    · exact (h.threads t hold).mono hsub (fun _ hid => Or.inl hid)
    · exact hnew
  · exact fun id htimer => (h.timers id (htimers id htimer)).mono hsub
  · show IssuedFirst c s'.log
    rw [hlog]
    exact h.issued.append hextra
  · intro hdropped
    change .dropped c ∈ s'.log at hdropped
    rw [hlog] at hdropped
    rcases List.mem_append.mp hdropped with hnew | hold
    · exact (hextra _ hnew).2 rfl
    · exact h.kept hold

/-- The threads after one did a job. -/
theorem mem_threads_run {before after : List (List (Job R))} {job : Job R}
    (hthreads : p.threads = before ++ (job :: rest) :: after) {t : List (Job R)}
    (ht : t ∈ before ++ (jobs ++ rest) :: after) : t ∈ p.threads ∨ t = jobs ++ rest := by
  rw [hthreads]
  rcases List.mem_append.mp ht with hbefore | ht
  · exact Or.inl (List.mem_append_left _ hbefore)
  · rcases List.mem_cons.mp ht with rfl | hafter
    · exact Or.inr rfl
    · exact Or.inl (List.mem_append_right _ (List.mem_cons_of_mem _ hafter))

/-- The thread about to do a job is in order. -/
theorem Orderly.head (h : Orderly c p) {before after : List (List (Job R))} {job : Job R}
    (hthreads : p.threads = before ++ (job :: rest) :: after) :
    job.Fits c p.state.log [] ∧ InOrder c p.state.log (job.hands c ++ []) rest :=
  h.threads (job :: rest) (by rw [hthreads]; simp)

/-- A job that hands nothing over and brings no job that does. -/
theorem Orderly.light (h : Orderly c p) (extra : List (Event ε R))
    {before after : List (List (Job R))} {job : Job R}
    (hthreads : p.threads = before ++ (job :: rest) :: after) (hhands : job.hands c = [])
    (hlog : s'.log = extra ++ p.state.log)
    (hextra : ∀ e ∈ extra, e.Spares c) (htimers : s'.timers = p.state.timers)
    (hjobs : ∀ other ∈ jobs, other.Fits c s'.log [] ∧ other.hands c = []) :
    Orderly c ⟨s', before ++ (jobs ++ rest) :: after⟩ := by
  apply h.step extra hlog hextra
  · exact fun id htimer => htimers ▸ htimer
  · intro t ht
    refine (mem_threads_run hthreads ht).imp_right ?_
    rintro rfl
    apply InOrder.append hjobs
    have hrest := (h.head hthreads).2
    rw [hhands] at hrest
    refine hrest.mono ?_ (fun _ hid => Or.inl hid)
    intro e he
    rw [hlog]
    exact List.mem_append_right _ he

/-- The next job of a thread. -/
theorem nextJob_of_threads {before after : List (List (Job R))} {job : Job R}
    (hthreads : p.threads = before ++ (job :: rest) :: after) :
    nextJob p before.length = some job := by
  unfold nextJob
  rw [hthreads, Machine.thread_self]
  rfl

/-- A frame of `c` that was issued, with its timer still ahead. -/
theorem Orderly.track (h : Orderly c p) {before after : List (List (Job R))} {hub : Hub}
    {c' : Nat} {id : Str} {frame : Frame}
    (hthreads : p.threads = before ++ (.track c' frame :: rest) :: after) :
    Orderly c ⟨(p.state.setHub hub).note (.issued c' id),
      before ++ ([.send c' id frame, .schedule c' id] ++ rest) :: after⟩ := by
  have hhead := h.head hthreads
  refine h.step [.issued c' id] rfl (by simp [Event.Spares, Event.isSent])
    (fun _ htimer => htimer) ?_
  intro t ht
  refine (mem_threads_run hthreads ht).imp_right ?_
  rintro rfl
  -- The frame comes before its timer.
  refine ⟨fun hc => ⟨hhead.1 hc, ?_⟩, fun hc => ?_, ?_⟩
  · rw [hc]
    exact List.mem_cons_self
  · simp [Job.hands, hc]
  · refine hhead.2.mono (fun _ => List.mem_cons_of_mem _) ?_
    intro id' hid'
    cases hid'

/-- A frame that was issued is handed to `c`. -/
theorem Orderly.send (h : Orderly c p) {before after : List (List (Job R))} {id : Str}
    {frame : Frame} (hthreads : p.threads = before ++ (.send c id frame :: rest) :: after) :
    Orderly c ⟨p.state.note (.sent c id frame), before ++ ([] ++ rest) :: after⟩ := by
  have hhead := h.head hthreads
  have hissued := (hhead.1 rfl).2
  refine ⟨?_, ?_, ⟨?_, h.issued⟩, ?_⟩
  · intro t ht
    rcases mem_threads_run hthreads ht with hold | rfl
    · exact (h.threads t hold).mono (fun _ => List.mem_cons_of_mem _)
        (fun _ hid => Or.inl hid)
    · refine hhead.2.mono (fun _ => List.mem_cons_of_mem _) ?_
      -- The one frame that was ahead has just been handed over.
      intro id' hid'
      have hsame : id' = id := by simpa [Job.hands] using hid'
      exact Or.inr (handed_cons.mpr (Or.inl (by simp [Event.isSent, hsame])))
  · exact fun id' htimer => handed_cons.mpr (Or.inr (h.timers id' htimer))
  · intro id' hsent
    have hsame : id = id' := by simpa [Event.isSent] using hsent
    exact hsame ▸ hissued
  · simpa [Sys.note] using h.kept

/-- The timer of a frame that was handed over starts. -/
theorem Orderly.schedule (h : Orderly c p) {before after : List (List (Job R))} {c' : Nat}
    {id : Str} (hthreads : p.threads = before ++ (.schedule c' id :: rest) :: after) :
    Orderly c ⟨{ p.state with timers := (c', id) :: p.state.timers },
      before ++ ([] ++ rest) :: after⟩ := by
  have hhead := h.head hthreads
  refine ⟨?_, ?_, h.issued, h.kept⟩
  · intro t ht
    rcases mem_threads_run hthreads ht with hold | rfl
    · exact h.threads t hold
    · exact hhead.2
  · intro id' htimer
    rcases List.mem_cons.mp htimer with hnew | hold
    · cases hnew
      exact (hhead.1 rfl).resolve_left (by simp)
    · exact h.timers id' hold

theorem Orderly.perform (hids : FreshIds (ledger p)) (h : Orderly c p)
    {before after : List (List (Job R))} {job : Job R} {returns : Bool}
    (hthreads : p.threads = before ++ (job :: rest) :: after)
    (hanswers : Answers (R := R) c (.run before.length returns) p)
    (hvalid : Serialisable (R := R) c (.run before.length returns) p)
    (hperform : perform svc returns before.length job p.state = (s', jobs)) :
    Orderly c ⟨s', before ++ (jobs ++ rest) :: after⟩ := by
  have hnext := nextJob_of_threads hthreads
  have hhead := h.head hthreads
  have hlight {frame : Json} {kind : Reply} {c' : Nat} (log : List (Event ε R)) :
      ∀ other ∈ answer (R := R) c' kind frame, other.Fits c log [] ∧ other.hands c = [] :=
    fun other hother => (light_answer hother).fits c _ _
  unfold Sync.perform at hperform
  cases job with
  | handle c' frame =>
      dsimp only at hperform
      split at hperform
      · cases hperform
        exact h.light [] hthreads rfl rfl (by simp) rfl (by simp)
      · cases hperform
        have hjobs (log : List (Event ε R)) (userId : Str) :
            ∀ other ∈ afterHandle (R := R) c' userId frame,
              other.Fits c log [] ∧ other.hands c = [] :=
          fun other hother => (light_afterHandle hother).fits c _ _
        split
        · exact h.light [.acked c' _] hthreads rfl rfl
            (by simp [Event.Spares, Event.isSent]) rfl (hjobs _ _)
        · exact h.light [] hthreads rfl rfl (by simp) rfl (hjobs _ _)
  | resolve c' userId frame =>
      dsimp only at hperform
      split at hperform
      · cases hperform
        exact h.light [] hthreads rfl rfl (by simp) rfl (hlight _)
      · cases hperform
        exact h.light [] hthreads rfl rfl (by simp) rfl (by simp [Job.Fits, Job.hands])
  | follow c' target frame =>
      dsimp only at hperform
      split at hperform
      · cases hperform
        exact h.light [] hthreads rfl rfl (by simp) rfl (by simp)
      · cases hperform
        exact h.light [] hthreads rfl rfl (by simp) rfl (hlight _)
  | reply c' kind id =>
      dsimp only at hperform
      split at hperform
      · cases hperform
        exact h.light [.replied c' kind id] hthreads rfl rfl
          (by simp [Event.Spares, Event.isSent]) rfl (by simp)
      · cases hperform
        exact h.light [] hthreads rfl rfl (by simp) rfl (by simp)
  | track c' frame =>
      dsimp only at hperform
      split at hperform
      · cases hperform
        exact h.light [] hthreads rfl rfl (by simp) rfl (by simp)
      · rename_i hub id htrack
        cases hperform
        exact h.track hthreads
  | send c' id frame =>
      by_cases hc : c' = c
      · subst hc
        obtain ⟨hutf8, hissued⟩ := hhead.1 rfl
        have hreturns : returns = true :=
          hanswers _ hnext (by simp [Job.sendsTo])
        obtain ⟨n, _, hid⟩ := hids.issued_lt id (List.mem_filterMap.mpr ⟨_, hissued, rfl⟩)
        have hdumps : (frame.json id).dumps = true := hutf8.dumps (hid ▸ validUtf8_frameId n)
        simp only [hreturns, hdumps, Bool.and_self, if_true] at hperform
        cases hperform
        exact h.send hthreads
      · have hhands : (Job.send (R := R) c' id frame).hands c = [] := if_neg hc
        dsimp only at hperform
        split at hperform
        · cases hperform
          exact h.light [.sent c' id frame] hthreads hhands rfl
            (by simp [Event.Spares, Event.isSent, hc]) rfl (by simp)
        · cases hperform
          exact h.light [] hthreads hhands rfl (by simp) rfl (by simp)
  | schedule c' id =>
      cases hperform
      exact h.schedule hthreads
  | close c' =>
      cases hperform
      exact h.light [.closed c'] hthreads rfl rfl
        (by simp [Event.Spares, Event.isSent]) rfl (by simp)
  | serve r =>
      cases hperform
      refine h.light [.served before.length r p.state.env] hthreads rfl rfl
        (by simp [Event.Spares, Event.isSent]) rfl ?_
      intro other hother
      split at hother
      · rw [List.mem_singleton.mp hother]
        exact ⟨trivial, rfl⟩
      · cases hother
  | notify a =>
      cases hperform
      refine h.light [.notified before.length a p.state.hub.connections] hthreads rfl rfl
        (by simp [Event.Spares, Event.isSent]) rfl ?_
      intro other hother
      obtain ⟨⟨c', frame⟩, hentry, rfl⟩ := List.mem_map.mp hother
      refine ⟨?_, rfl⟩
      rintro rfl
      obtain ⟨⟨c', conn⟩, hconn, hsome⟩ := List.mem_filterMap.mp hentry
      obtain ⟨visible, hvisible, hsame⟩ := Option.map_eq_some_iff.mp hsome
      cases hsame
      unfold Serialisable at hvalid
      simp only [hnext] at hvalid
      have hall := hvalid conn (Hub.find_of_mem hconn)
      rw [hvisible] at hall
      exact hall

theorem Orderly.enter (hkept : Accounted (ledger p)) (h : Orderly c p) {e : Entry R}
    (hanswers : Answers (R := R) c (.enter e) p)
    (henter : enter svc e i p.state = some (s', jobs)) :
    Orderly c ⟨s', p.threads ++ [jobs]⟩ := by
  have hthreads {s'' : Sys ε R} {jobs' : List (Job R)}
      (hjobs : ∀ job ∈ jobs', job.Fits c s''.log [] ∧ job.hands c = []) :
      ∀ t ∈ p.threads ++ [jobs'], t ∈ p.threads ∨ InOrder c s''.log [] t := by
    intro t ht
    refine (List.mem_append.mp ht).imp_right ?_
    intro hnew
    rw [List.mem_singleton.mp hnew, ← List.append_nil jobs']
    exact InOrder.append hjobs trivial
  unfold Sync.enter at henter
  cases e with
  | connect userId =>
      cases henter
      refine h.step [.added p.state.hub.nextConnection userId i] rfl
        (by simp [Event.Spares, Event.isSent]) (fun _ htimer => htimer) (hthreads ?_)
      intro job hjob
      split at hjob
      · cases hjob
      · rw [List.mem_singleton.mp hjob]
        exact ⟨fun _ => trivial, rfl⟩
  | disconnect c' =>
      cases henter
      exact h.step [.removed c'] rfl (by simp [Event.Spares, Event.isSent])
        (fun _ htimer => htimer) (hthreads (by simp))
  | message c' text =>
      dsimp only at henter
      split at henter
      · cases henter
        refine h.step [] rfl (by simp) (fun _ htimer => htimer) (hthreads ?_)
        intro job hjob
        split at hjob
        · rw [List.mem_singleton.mp hjob]
          exact ⟨trivial, rfl⟩
        · cases hjob
      · cases henter
        exact h.step [] rfl (by simp) (fun _ htimer => htimer) (hthreads (by simp))
  | fire c' id =>
      dsimp only at henter
      split at henter
      · rename_i htimer
        split at henter
        · rename_i hub hexpire
          cases henter
          obtain ⟨⟨conn, hfind, hid⟩, _⟩ := Hub.fExpire_some hexpire
          -- A frame of `c` whose timer fires has been acknowledged.
          have hc : c' ≠ c := by
            rintro rfl
            change p.state.hub.find c' = some conn at hfind
            have hhanded := h.timers id htimer
            have hacked := hanswers rfl (by rw [hfind]; rfl) hhanded
            exact not_unanswered h.issued hkept.ids.issued_nodup hhanded hacked
              ((hkept.log.frames_iff c' conn.pending id (unanswered_of_find hfind)).mp hid)
          exact h.step [.dropped c', .fired c' id] rfl
            (by simp [Event.Spares, Event.isSent, hc]) (fun _ => List.mem_of_mem_erase)
            (hthreads (by simp [Job.Fits, Job.hands]))
        · cases henter
          exact h.step [.fired c' id] rfl (by simp [Event.Spares, Event.isSent])
            (fun _ => List.mem_of_mem_erase) (hthreads (by simp))
      · cases henter
  | request r =>
      cases henter
      exact h.step [] rfl (by simp) (fun _ htimer => htimer)
        (hthreads (by simp [Job.Fits, Job.hands]))

/-- The peer of `c` does its part, and what is listed to it is valid UTF-8. -/
def Friendly (c : Nat) (a : Action (Entry R) Bool) (p : Pool (Sys ε R) (Job R)) : Prop :=
  Answers c a p ∧ Serialisable c a p

instance (c : Nat) (a : Action (Entry R) Bool) (p : Pool (Sys ε R) (Job R)) :
    Decidable (Friendly c a p) := by
  unfold Friendly
  infer_instance

theorem Fresh.orderly {p : Pool (Sys ε R) (Job R)} (hp : Fresh p) (c : Nat) : Orderly c p := by
  obtain ⟨hthreads, _, htimers, hlog⟩ := hp
  refine ⟨?_, ?_, ?_, ?_⟩
  · rw [hthreads]
    exact fun t ht => nomatch ht
  · rw [htimers]
    exact fun id hid => nomatch hid
  · rw [hlog]
    trivial
  · rw [hlog]
    exact fun hdropped => nomatch hdropped

/-- **A peer that answers is kept.**  In every run in which the peer of `c` does
its part and every path list that is about to be told to `c` is valid UTF-8, the
hub neither drops nor closes `c`. -/
theorem answering_peer_kept (svc : Service ε R) (c : Nat) (p : Pool (Sys ε R) (Job R))
    (hp : Machine.Reachable (machine svc) (Friendly c) Fresh p) :
    .dropped c ∉ p.state.log ∧ .closed c ∉ p.state.log := by
  have hinv : Accounted (ledger p) ∧ Orderly c p := by
    apply hp.invariant (I := fun p => Accounted (ledger p) ∧ Orderly c p)
    · exact fun p hfresh => ⟨hfresh.accounted, hfresh.orderly c⟩
    · intro a p p' h hok hstep
      refine ⟨h.1.move (move_of_step hstep), ?_⟩
      rcases Machine.step_cases hstep with ⟨e, s, jobs, rfl, henter, rfl⟩ |
        ⟨before, job, rest, after, returns, s, jobs, rfl, hthreads, hperform, rfl⟩
      · exact h.2.enter h.1 hok.1 henter
      · exact h.2.perform h.1.ids hthreads hok.1 hok.2 (Option.some.inj hperform)
  obtain ⟨hkept, horderly⟩ := hinv
  refine ⟨horderly.kept, ?_⟩
  intro hclosed
  have hcount : 0 < p.state.log.countP (Event.isClosed c) := closed_mem_iff.mp hclosed
  have hzero : p.state.log.countP (Event.isDropped c) = 0 := countP_isDropped_eq_zero horderly.kept
  have hcloses := hkept.drops.closes c
  change p.jobs.countP (Job.closes c) + p.state.log.countP (Event.isClosed c) =
    p.state.log.countP (Event.isDropped c) at hcloses
  omega

/-! ### Ann answers -/

/-- `"type":"ack"` for the frame with this id, between braces. -/
def ackText (id : Str) : Str := str "\x7b\"id\":\"" ++ id ++ str "\",\"type\":\"ack\"\x7d"

def ackFrame (id : Str) : Json :=
  .object [(str "id", .string id), (str "type", .string (str "ack"))]

/-- The parser, as far as these runs use it. -/
def ackService : Service Server Request :=
  service plainConfig (fun text =>
    if text = ackText (str "s1") then some (ackFrame (str "s1"))
    else if text = ackText (str "s2") then some (ackFrame (str "s2"))
    else none)

/-- Ann's device connects, is asked to catch up and acknowledges; the timer fires. -/
def annAnswers : List (Action (Entry Request) Bool) :=
  [.enter (.connect (str "ann")), .run 0 true, .run 0 true, .run 0 true,
    .enter (.message 1 (ackText (str "s1"))), .run 1 true, .enter (.fire 1 (str "s1"))]

/-- Ann's phone puts a file; her connected device is told of it. -/
def annPuts (path : Str) : List (Action (Entry Request) Bool) :=
  [.enter (.request (.putFile (str "ann") path (str "one") (str "00") (str "phone"))),
    .run 3 true, .run 3 true, .run 3 true, .run 3 true, .run 3 true]

/-- The file has a plain name: the device acknowledges that frame too. -/
def annKept : Pool (Sys Server Request) (Job Request) :=
  ((machine ackService).execAllowed (Friendly 1)
    (annAnswers ++ annPuts (str "a.mdp") ++
      [.enter (.message 1 (ackText (str "s2"))), .run 4 true, .enter (.fire 1 (str "s2"))])
    atRest).getD atRest

/-- Both frames of Ann's device were handed over, and it is kept. -/
theorem answering_peer_kept_annKept :
    annKept.state.log.countP (Event.isFired 1 (str "s2")) = 1 ∧
      .dropped 1 ∉ annKept.state.log ∧ .closed 1 ∉ annKept.state.log := by
  have hfired : annKept.state.log.countP (Event.isFired 1 (str "s2")) = 1 := by decide +kernel
  have hreachable : Machine.Reachable (machine ackService) (Friendly 1) Fresh annKept := by
    unfold annKept
    exact Machine.Reachable.execAllowed_getD (.start ⟨rfl, rfl, rfl, rfl⟩) 
  generalize annKept = p at *
  exact ⟨hfired, answering_peer_kept ackService 1 p hreachable⟩

/-- The name is the single byte `FF`, which the path check lets pass. -/
def annDropped : Pool (Sys Server Request) (Job Request) :=
  ((machine ackService).execAllowed (Answers 1)
    (annAnswers ++ annPuts [0xFF] ++ [.enter (.fire 1 (str "s2")), .run 4 true]) atRest).getD atRest

/-- **A device that answers everything it is handed is closed** once a file is
announced whose name is not valid UTF-8. -/
theorem answering_peer_closed :
    ¬ ∀ p, Machine.Reachable (machine ackService) (Answers 1) (Boots plainConfig) p →
      .dropped 1 ∉ p.state.log ∧ .closed 1 ∉ p.state.log := by
  intro hall
  have hclosed : 0 < annDropped.state.log.countP (Event.isClosed 1) := by decide +kernel
  have hreachable : Machine.Reachable (machine ackService) (Answers 1) (Boots plainConfig)
      annDropped := by
    unfold annDropped
    exact Machine.Reachable.execAllowed_getD (.start boots_atRest)
  exact (hall _ hreachable).2 (closed_mem_iff.mpr hclosed)

end Lectern.Sync
