import Lectern.Sync.Ledger

/-!
# Dropped for silence

When the hub closes a peer, a timer of one of its frames fired while the
connection was registered and the frame unanswered; and every such firing
closes it, once.  All of this is said in terms of what has happened: a
connection is registered when it was added and neither removed nor dropped
since, a frame is unanswered when it was issued and not acknowledged on the
same connection since.

The invariant `Accounted` ties the account of the hub to its log.  It is kept
by every move.
-/

namespace Lectern.Sync

open Threads

variable {ε R : Type}

/-! ## What the log says -/

/-- Added, and neither removed nor dropped since. -/
def Registered (log : List (Event ε R)) (c : Nat) : Prop :=
  Since (fun e => ∃ userId thread, e = .added c userId thread)
    (fun e => e = .removed c ∨ e = .dropped c) log

/-- Issued to the connection, and not acknowledged on it since. -/
def Unanswered (log : List (Event ε R)) (c : Nat) (id : Str) : Prop :=
  Since (fun e => e = .issued c id) (fun e => e = .acked c id) log

/-- A timer of the connection fired while it was registered and the timer's
frame unanswered. -/
def Silenced (log : List (Event ε R)) (c : Nat) : Prop :=
  ∃ later id earlier, log = later ++ .fired c id :: earlier ∧ Registered earlier c ∧
    Unanswered earlier c id

@[simp] theorem registered_cons {e : Event ε R} {log : List (Event ε R)} {c : Nat} :
    Registered (e :: log) c ↔ (∃ userId thread, e = .added c userId thread) ∨
      ¬ (e = .removed c ∨ e = .dropped c) ∧ Registered log c :=
  since_cons

@[simp] theorem unanswered_cons {e : Event ε R} {log : List (Event ε R)} {c : Nat} {id : Str} :
    Unanswered (e :: log) c id ↔ e = .issued c id ∨ ¬ e = .acked c id ∧ Unanswered log c id :=
  since_cons

@[simp] theorem silenced_cons {e : Event ε R} {log : List (Event ε R)} {c : Nat} :
    Silenced (e :: log) c ↔
      (∃ id, e = .fired c id ∧ Registered log c ∧ Unanswered log c id) ∨ Silenced log c := by
  constructor
  · rintro ⟨later, id, earlier, h, hregistered, hunanswered⟩
    cases later with
    | nil =>
        cases h
        exact Or.inl ⟨id, rfl, hregistered, hunanswered⟩
    | cons first later =>
        cases h
        exact Or.inr ⟨later, id, earlier, rfl, hregistered, hunanswered⟩
  · rintro (⟨id, rfl, hregistered, hunanswered⟩ | ⟨later, id, earlier, rfl, hrest⟩)
    · exact ⟨[], id, log, rfl, hregistered, hunanswered⟩
    · exact ⟨e :: later, id, earlier, rfl, hrest⟩

def Event.addedId : Event ε R → Option Nat
  | .added c _ _ => some c
  | _ => none

def Event.issuedId : Event ε R → Option Str
  | .issued _ id => some id
  | _ => none

def Event.isIssued (c : Nat) (id : Str) : Event ε R → Bool
  | .issued c' id' => c' = c && id' = id
  | _ => false

def Event.isFired (c : Nat) (id : Str) : Event ε R → Bool
  | .fired c' id' => c' = c && id' = id
  | _ => false

def Event.isDropped (c : Nat) : Event ε R → Bool
  | .dropped c' => c' = c
  | _ => false

def Event.isClosed (c : Nat) : Event ε R → Bool
  | .closed c' => c' = c
  | _ => false

/-! ## Ids -/

/-- Ids in the log are below the counters, and none occurs twice. -/
structure FreshIds (l : Ledger ε R) : Prop where
  open_lt : ∀ c frames, l.unanswered c = some frames → c < l.nextConnection
  added_lt : ∀ c ∈ l.log.filterMap Event.addedId, c < l.nextConnection
  added_nodup : (l.log.filterMap Event.addedId).Nodup
  issued_to : ∀ c id, .issued c id ∈ l.log → c < l.nextConnection
  issued_lt : ∀ id ∈ l.log.filterMap Event.issuedId, ∃ n < l.nextFrame, id = frameId n
  issued_nodup : (l.log.filterMap Event.issuedId).Nodup
  dropped_lt : ∀ c, .dropped c ∈ l.log → c < l.nextConnection

/-- Only connections that exist wait, whatever one of them comes to wait for. -/
theorem FreshIds.open_update {l : Ledger ε R} (h : FreshIds l) {c : Nat}
    {waiting : Option (Finset Str)}
    (hwaiting : ∀ frames, waiting = some frames → c < l.nextConnection) (c' : Nat)
    (frames : Finset Str) (hopen : Function.update l.unanswered c waiting c' = some frames) :
    c' < l.nextConnection := by
  simp only [Function.update_apply] at hopen
  split at hopen
  · rename_i hc
    exact hc ▸ hwaiting frames hopen
  · exact h.open_lt c' frames hopen

theorem FreshIds.move {l l' : Ledger ε R} (h : FreshIds l) (hmove : Move l l') : FreshIds l' := by
  cases hmove with
  | still => exact h
  | quiet e he =>
      cases e with
      | sent | replied | served | notified =>
          refine ⟨h.open_lt, h.added_lt, h.added_nodup, ?_, h.issued_lt, h.issued_nodup, ?_⟩
          · simpa using h.issued_to
          · simpa using h.dropped_lt
      | _ => exact he.elim
  | connect userId thread =>
      refine ⟨?_, ?_, ?_, ?_, h.issued_lt, h.issued_nodup, ?_⟩
      · intro c frames hopen
        simp only [Function.update_apply] at hopen
        dsimp only
        split at hopen
        · omega
        · have hlt := h.open_lt c frames hopen
          omega
      · intro c hc
        dsimp only
        rcases List.mem_cons.mp hc with hnew | hold
        · omega
        · have hlt := h.added_lt c hold
          omega
      · refine List.nodup_cons.mpr ⟨?_, h.added_nodup⟩
        intro hmem
        have hlt := h.added_lt _ hmem
        omega
      · intro c id hmem
        have hlt := h.issued_to c id (by simpa using hmem)
        dsimp only
        omega
      · intro c hmem
        have hlt := h.dropped_lt c (by simpa using hmem)
        dsimp only
        omega
  | remove c =>
      refine ⟨?_, h.added_lt, h.added_nodup, ?_, h.issued_lt, h.issued_nodup, ?_⟩
      · refine h.open_update ?_
        intro frames hnone
        cases hnone
      · simpa using h.issued_to
      · simpa using h.dropped_lt
  | ack c id frames hopen =>
      refine ⟨?_, h.added_lt, h.added_nodup, ?_, h.issued_lt, h.issued_nodup, ?_⟩
      · exact h.open_update (fun _ _ => h.open_lt c frames hopen)
      · simpa using h.issued_to
      · simpa using h.dropped_lt
  | track c frames hopen scheduling hscheduling =>
      refine ⟨?_, h.added_lt, h.added_nodup, ?_, ?_, ?_, ?_⟩
      · exact h.open_update (fun _ _ => h.open_lt c frames hopen)
      · intro c' id' hmem
        rcases List.mem_cons.mp hmem with hnew | hold
        · cases hnew
          exact h.open_lt c frames hopen
        · exact h.issued_to c' id' hold
      · intro id hid
        rcases List.mem_cons.mp hid with hnew | hold
        · exact ⟨l.nextFrame, Nat.lt_succ_self _, hnew⟩
        · obtain ⟨n, hn, hid⟩ := h.issued_lt id hold
          exact ⟨n, Nat.lt_succ_of_lt hn, hid⟩
      · refine List.nodup_cons.mpr ⟨?_, h.issued_nodup⟩
        intro hmem
        obtain ⟨n, hn, hid⟩ := h.issued_lt _ hmem
        have hsame := frameId_inj hid
        omega
      · simpa using h.dropped_lt
  | schedule c id scheduling hscheduling =>
      exact ⟨h.open_lt, h.added_lt, h.added_nodup, h.issued_to, h.issued_lt, h.issued_nodup,
        h.dropped_lt⟩
  | expire c id frames htimer hopen hid closing hclosing =>
      refine ⟨?_, h.added_lt, h.added_nodup, ?_, h.issued_lt, h.issued_nodup, ?_⟩
      · refine h.open_update ?_
        intro frames' hnone
        cases hnone
      · simpa using h.issued_to
      · intro c' hmem
        rcases List.mem_cons.mp hmem with hnew | hold
        · cases hnew
          exact h.open_lt c frames hopen
        · exact h.dropped_lt c' (by simpa using hold)
  | stale c id htimer hanswered =>
      refine ⟨h.open_lt, h.added_lt, h.added_nodup, ?_, h.issued_lt, h.issued_nodup, ?_⟩
      · simpa using h.issued_to
      · simpa using h.dropped_lt
  | close c closing hclosing =>
      refine ⟨h.open_lt, h.added_lt, h.added_nodup, ?_, h.issued_lt, h.issued_nodup, ?_⟩
      · simpa using h.issued_to
      · simpa using h.dropped_lt

/-! ## Open connections and unanswered frames -/

/-- The account says what the log says. -/
structure FollowsLog (l : Ledger ε R) : Prop where
  open_iff : ∀ c, (∃ frames, l.unanswered c = some frames) ↔ Registered l.log c
  frames_iff : ∀ c frames id, l.unanswered c = some frames →
    (id ∈ frames ↔ Unanswered l.log c id)

/-- Nothing was issued to a connection that does not exist yet. -/
theorem FreshIds.not_unanswered {l : Ledger ε R} (h : FreshIds l) (id : Str) :
    ¬ Unanswered l.log l.nextConnection id := by
  intro hunanswered
  obtain ⟨e, he, rfl⟩ := hunanswered.exists
  have hlt := h.issued_to _ id he
  omega

theorem FollowsLog.move {l l' : Ledger ε R} (hids : FreshIds l) (h : FollowsLog l)
    (hmove : Move l l') : FollowsLog l' := by
  cases hmove with
  | still => exact h
  | quiet e he =>
      cases e with
      | sent | replied | served | notified =>
          refine ⟨?_, ?_⟩
          · simpa using h.open_iff
          · simpa using h.frames_iff
      | _ => exact he.elim
  | connect userId thread =>
      refine ⟨?_, ?_⟩
      · intro c
        by_cases hc : c = l.nextConnection
        · simp [hc]
        · simpa [Function.update_apply, hc, Ne.symm hc] using h.open_iff c
      · intro c frames id hopen
        by_cases hc : c = l.nextConnection
        · have hempty : ∅ = frames := by simpa [hc] using hopen
          have hnone := hids.not_unanswered id
          simp [← hempty, hc, hnone]
        · have hold := h.frames_iff c frames id (by simpa [Function.update_apply, hc] using hopen)
          simpa using hold
  | remove c =>
      refine ⟨?_, ?_⟩
      · intro c'
        by_cases hc : c' = c
        · simp [hc]
        · simpa [Function.update_apply, hc, Ne.symm hc] using h.open_iff c'
      · intro c' frames id hopen
        by_cases hc : c' = c
        · simp [hc] at hopen
        · have hold := h.frames_iff c' frames id (by simpa [Function.update_apply, hc] using hopen)
          simpa using hold
  | ack c id frames hopen =>
      refine ⟨?_, ?_⟩
      · intro c'
        have hold := h.open_iff c'
        by_cases hc : c' = c
        · subst hc
          have hregistered := hold.mp ⟨frames, hopen⟩
          simp [hregistered]
        · simpa [Function.update_apply, hc] using hold
      · intro c' frames' id' hopen'
        by_cases hc : c' = c
        · subst hc
          have hframes : frames.erase id = frames' := by simpa using hopen'
          have hold := h.frames_iff c' frames id' hopen
          rw [← hframes, Finset.mem_erase, hold]
          simp [eq_comm]
        · have hold := h.frames_iff c' frames' id'
            (by simpa [Function.update_apply, hc] using hopen')
          simpa [Ne.symm hc] using hold
  | track c frames hopen scheduling hscheduling =>
      refine ⟨?_, ?_⟩
      · intro c'
        have hold := h.open_iff c'
        by_cases hc : c' = c
        · subst hc
          have hregistered := hold.mp ⟨frames, hopen⟩
          simp [hregistered]
        · simpa [Function.update_apply, hc] using hold
      · intro c' frames' id' hopen'
        by_cases hc : c' = c
        · subst hc
          have hframes : insert (frameId l.nextFrame) frames = frames' := by simpa using hopen'
          have hold := h.frames_iff c' frames id' hopen
          rw [← hframes, Finset.mem_insert, hold]
          simp [eq_comm]
        · have hold := h.frames_iff c' frames' id'
            (by simpa [Function.update_apply, hc] using hopen')
          simpa [Ne.symm hc] using hold
  | schedule c id scheduling hscheduling => exact ⟨h.open_iff, h.frames_iff⟩
  | expire c id frames htimer hopen hid closing hclosing =>
      refine ⟨?_, ?_⟩
      · intro c'
        by_cases hc : c' = c
        · simp [hc]
        · simpa [Function.update_apply, hc, Ne.symm hc] using h.open_iff c'
      · intro c' frames' id' hopen'
        by_cases hc : c' = c
        · simp [hc] at hopen'
        · have hold := h.frames_iff c' frames' id'
            (by simpa [Function.update_apply, hc] using hopen')
          simpa using hold
  | stale c id htimer hanswered =>
      refine ⟨?_, ?_⟩
      · simpa using h.open_iff
      · simpa using h.frames_iff
  | close c closing hclosing =>
      refine ⟨?_, ?_⟩
      · simpa using h.open_iff
      · simpa using h.frames_iff

/-! ## Timers -/

/-- Every issued frame has its timer ahead of it, running, or behind it. -/
def TimersKept (l : Ledger ε R) : Prop :=
  ∀ c id, l.timers.count (c, id) + l.scheduling c id + l.log.countP (Event.isFired c id) =
    l.log.countP (Event.isIssued c id)

theorem TimersKept.move {l l' : Ledger ε R} (h : TimersKept l) (hmove : Move l l') :
    TimersKept l' := by
  intro c' id'
  have hold := h c' id'
  cases hmove with
  | still => exact hold
  | quiet e he =>
      cases e with
      | sent | replied | served | notified => simpa [Event.isFired, Event.isIssued] using hold
      | _ => exact he.elim
  | connect userId thread => simpa [Event.isFired, Event.isIssued] using hold
  | remove c => simpa [Event.isFired, Event.isIssued] using hold
  | ack c id frames hopen => simpa [Event.isFired, Event.isIssued] using hold
  | track c frames hopen scheduling hscheduling =>
      have hnew := hscheduling c' id'
      by_cases hc : c' = c ∧ id' = frameId l.nextFrame
      · rw [if_pos hc] at hnew
        simp only [List.countP_cons, Event.isFired, Event.isIssued, hc.1.symm, hc.2.symm]
        simp only [decide_true, Bool.and_self, if_true, Bool.false_eq_true, if_false]
        omega
      · rw [if_neg hc] at hnew
        have hno : ¬ (c = c' ∧ frameId l.nextFrame = id') := fun h => hc ⟨h.1.symm, h.2.symm⟩
        simp only [List.countP_cons, Event.isFired, Event.isIssued, Bool.and_eq_true,
          decide_eq_true_eq, if_neg hno, Bool.false_eq_true, if_false]
        omega
  | schedule c id scheduling hscheduling =>
      have hnew := hscheduling c' id'
      have hcount : ((c, id) :: l.timers).count (c', id') =
          l.timers.count (c', id') + if c' = c ∧ id' = id then 1 else 0 := by
        by_cases hc : c' = c ∧ id' = id
        · rw [if_pos hc, hc.1, hc.2, List.count_cons_self]
        · have hne : (c, id) ≠ (c', id') :=
            fun h => hc ⟨(Prod.mk.inj h).1.symm, (Prod.mk.inj h).2.symm⟩
          rw [if_neg hc, List.count_cons_of_ne hne, Nat.add_zero]
      dsimp only
      omega
  | expire c id frames htimer hopen hid closing hclosing =>
      have hpos := List.count_pos_iff.mpr htimer
      dsimp only
      by_cases hc : c = c' ∧ id = id'
      · obtain ⟨rfl, rfl⟩ := hc
        rw [List.count_erase_self]
        simp only [List.countP_cons, Event.isFired, Event.isIssued, decide_true, Bool.and_self,
          if_true, Bool.false_eq_true, if_false]
        omega
      · have hne : (c', id') ≠ (c, id) := fun h => hc ⟨(Prod.mk.inj h).1.symm, (Prod.mk.inj h).2.symm⟩
        rw [List.count_erase_of_ne hne]
        simp only [List.countP_cons, Event.isFired, Event.isIssued, Bool.and_eq_true,
          decide_eq_true_eq, if_neg hc, Bool.false_eq_true, if_false]
        omega
  | stale c id htimer hanswered =>
      have hpos := List.count_pos_iff.mpr htimer
      dsimp only
      by_cases hc : c = c' ∧ id = id'
      · obtain ⟨rfl, rfl⟩ := hc
        rw [List.count_erase_self]
        simp only [List.countP_cons, Event.isFired, Event.isIssued, decide_true, Bool.and_self,
          if_true, Bool.false_eq_true, if_false]
        omega
      · have hne : (c', id') ≠ (c, id) := fun h => hc ⟨(Prod.mk.inj h).1.symm, (Prod.mk.inj h).2.symm⟩
        rw [List.count_erase_of_ne hne]
        simp only [List.countP_cons, Event.isFired, Event.isIssued, Bool.and_eq_true,
          decide_eq_true_eq, if_neg hc, Bool.false_eq_true, if_false]
        omega
  | close c closing hclosing => simpa [Event.isFired, Event.isIssued] using hold

/-! ## Drops -/

/-- What timers have done so far. -/
structure Drops (l : Ledger ε R) : Prop where
  unfired : ∀ c frames id, l.unanswered c = some frames → id ∈ frames →
    l.log.countP (Event.isFired c id) = 0
  gone : ∀ c, .dropped c ∈ l.log → l.unanswered c = none
  dropped_iff : ∀ c, .dropped c ∈ l.log ↔ Silenced l.log c
  dropped_le : ∀ c, l.log.countP (Event.isDropped c) ≤ 1
  closes : ∀ c, l.closing c + l.log.countP (Event.isClosed c) = l.log.countP (Event.isDropped c)

/-- The id that is drawn next has no timer behind it. -/
theorem TimersKept.unfired {l : Ledger ε R} (hids : FreshIds l) (h : TimersKept l) (c : Nat) :
    l.log.countP (Event.isFired c (frameId l.nextFrame)) = 0 := by
  have hnone : l.log.countP (Event.isIssued c (frameId l.nextFrame)) = 0 := by
    rw [List.countP_eq_zero]
    intro e he hissued
    cases e with
    | issued c' id' =>
        simp only [Event.isIssued, Bool.and_eq_true, decide_eq_true_eq] at hissued
        obtain ⟨n, hn, hid⟩ := hids.issued_lt id' (List.mem_filterMap.mpr ⟨_, he, rfl⟩)
        have hsame := frameId_inj (hissued.2.symm.trans hid)
        omega
    | _ => cases hissued
  have hkept := h c (frameId l.nextFrame)
  omega

theorem countP_isDropped_eq_zero {log : List (Event ε R)} {c : Nat} (h : .dropped c ∉ log) :
    log.countP (Event.isDropped c) = 0 := by
  rw [List.countP_eq_zero]
  intro e he hdropped
  cases e with
  | dropped c' =>
      have hc : c' = c := by simpa [Event.isDropped] using hdropped
      exact h (hc ▸ he)
  | _ => cases hdropped

/-- Changing what an open connection waits for leaves the closed ones alone. -/
theorem update_of_gone {unanswered : Nat → Option (Finset Str)} {c c' : Nat}
    {frames frames' : Finset Str} (hopen : unanswered c = some frames)
    (hgone : unanswered c' = none) :
    Function.update unanswered c (some frames') c' = none := by
  have hc : c' ≠ c := by
    intro hsame
    rw [hsame, hopen] at hgone
    cases hgone
  rw [Function.update_of_ne hc]
  exact hgone

/-- No timer does this. -/
def Event.Calm : Event ε R → Prop
  | .fired _ _ | .dropped _ | .closed _ => False
  | _ => True

theorem countP_isDropped_dropped (c c' : Nat) (log : List (Event ε R)) :
    (Event.dropped c' :: log).countP (Event.isDropped c) =
      log.countP (Event.isDropped c) + if c = c' then 1 else 0 := by
  by_cases hc : c = c'
  · simp [Event.isDropped, hc]
  · simp [Event.isDropped, hc, Ne.symm hc]

theorem countP_isClosed_closed (c c' : Nat) (log : List (Event ε R)) :
    (Event.closed c' :: log).countP (Event.isClosed c) =
      log.countP (Event.isClosed c) + if c = c' then 1 else 0 := by
  by_cases hc : c = c'
  · simp [Event.isClosed, hc]
  · simp [Event.isClosed, hc, Ne.symm hc]

/-- A timer that fires on an unanswered frame: the connection is dropped, and a
job to close its peer is waiting. -/
theorem Drops.expire {l : Ledger ε R} (hlog : FollowsLog l) (h : Drops l) {c : Nat} {id : Str}
    {frames : Finset Str} (hopen : l.unanswered c = some frames) (hid : id ∈ frames)
    {closing : Nat → Nat}
    (hclosing : ∀ c', closing c' = l.closing c' + if c' = c then 1 else 0) :
    Drops { l with
      unanswered := Function.update l.unanswered c none
      timers := l.timers.erase (c, id)
      log := .dropped c :: .fired c id :: l.log
      closing := closing } := by
  have hregistered := (hlog.open_iff c).mp ⟨frames, hopen⟩
  have hunanswered := (hlog.frames_iff c frames id hopen).mp hid
  have hfirst : .dropped c ∉ l.log := by
    intro hdropped
    rw [h.gone c hdropped] at hopen
    cases hopen
  have hfired (c' : Nat) : (Event.fired c id :: l.log).countP (Event.isDropped c') =
      l.log.countP (Event.isDropped c') := by
    simp [Event.isDropped]
  refine ⟨?_, ?_, ?_, ?_, ?_⟩
  · intro c' frames' id' hopen' hid'
    by_cases hc : c' = c
    · simp [hc] at hopen'
    · have hold := h.unfired c' frames' id'
        (by simpa [Function.update_apply, hc] using hopen') hid'
      simpa [Event.isFired, Ne.symm hc] using hold
  · intro c' hdropped
    by_cases hc : c' = c
    · simp [hc]
    · have hold := h.gone c' (by simpa [hc] using hdropped)
      simpa [Function.update_apply, hc] using hold
  · intro c'
    have hold := h.dropped_iff c'
    by_cases hc : c' = c
    · subst hc
      simp [hregistered, hunanswered]
    · simpa [hc, Ne.symm hc] using hold
  · intro c'
    have hold := h.dropped_le c'
    rw [countP_isDropped_dropped, hfired]
    by_cases hc : c' = c
    · rw [hc, if_pos rfl, countP_isDropped_eq_zero hfirst]
    · rw [if_neg hc]
      exact hold
  · intro c'
    have hold := h.closes c'
    have hnew := hclosing c'
    have hsame : (Event.dropped c :: .fired c id :: l.log).countP (Event.isClosed c') =
        l.log.countP (Event.isClosed c') := by
      simp [Event.isClosed]
    rw [countP_isDropped_dropped, hfired, hsame]
    show closing c' + _ = _
    omega

/-- A timer that fires on an answered frame. -/
theorem Drops.stale {l : Ledger ε R} (hlog : FollowsLog l) (h : Drops l) {c : Nat} {id : Str}
    (hanswered : ∀ frames, l.unanswered c = some frames → id ∉ frames) :
    Drops { l with timers := l.timers.erase (c, id), log := .fired c id :: l.log } := by
  refine ⟨?_, ?_, ?_, ?_, ?_⟩
  · intro c' frames' id' hopen' hid'
    have hno : ¬ (c = c' ∧ id = id') := by
      intro ⟨hc, hsame⟩
      subst hc hsame
      exact hanswered frames' hopen' hid'
    simpa [Event.isFired, hno] using h.unfired c' frames' id' hopen' hid'
  · simpa using h.gone
  · intro c'
    have hold := h.dropped_iff c'
    have hno : ¬ ∃ id', Event.fired (ε := ε) (R := R) c id = .fired c' id' ∧
        Registered l.log c' ∧ Unanswered l.log c' id' := by
      intro ⟨id', hsame, hregistered, hunanswered⟩
      cases hsame
      obtain ⟨frames, hopen⟩ := (hlog.open_iff c).mpr hregistered
      exact hanswered frames hopen ((hlog.frames_iff c frames id hopen).mpr hunanswered)
    rw [silenced_cons, or_iff_right hno]
    simpa using hold
  · simpa [Event.isDropped] using h.dropped_le
  · simpa [Event.isDropped, Event.isClosed] using h.closes

/-- The peer of a dropped connection is closed. -/
theorem Drops.close {l : Ledger ε R} (h : Drops l) {c : Nat} {closing : Nat → Nat}
    (hclosing : ∀ c', l.closing c' = closing c' + if c' = c then 1 else 0) :
    Drops { l with log := .closed c :: l.log, closing := closing } := by
  refine ⟨?_, ?_, ?_, ?_, ?_⟩
  · simpa [Event.isFired] using h.unfired
  · simpa using h.gone
  · simpa using h.dropped_iff
  · simpa [Event.isDropped] using h.dropped_le
  · intro c'
    have hold := h.closes c'
    have hnew := hclosing c'
    have hsame : (Event.closed c :: l.log).countP (Event.isDropped c') =
        l.log.countP (Event.isDropped c') := by
      simp [Event.isDropped]
    rw [countP_isClosed_closed, hsame]
    show closing c' + _ = _
    omega

/-- What no timer does is not counted. -/
theorem Drops.calm {l l' : Ledger ε R} (h : Drops l) {e : Event ε R} (he : e.Calm)
    (hlog : l'.log = e :: l.log) (hclosing : l'.closing = l.closing)
    (hunfired : ∀ c frames id, l'.unanswered c = some frames → id ∈ frames →
      l.log.countP (Event.isFired c id) = 0)
    (hgone : ∀ c, .dropped c ∈ l.log → l'.unanswered c = none) : Drops l' := by
  have hfired (c : Nat) (id : Str) : e.isFired c id = false := by
    cases e <;> first | rfl | exact he.elim
  have hdropped (c : Nat) : e.isDropped c = false := by
    cases e <;> first | rfl | exact he.elim
  have hclosed (c : Nat) : e.isClosed c = false := by
    cases e <;> first | rfl | exact he.elim
  have hnotDropped (c : Nat) : .dropped c ≠ e := by
    intro hsame
    rw [← hsame] at he
    exact he
  have hnotFired (c : Nat) (id : Str) : e ≠ .fired c id := by
    intro hsame
    rw [hsame] at he
    exact he
  refine ⟨?_, ?_, ?_, ?_, ?_⟩
  · intro c frames id hopen hid
    rw [hlog, List.countP_cons, hfired c id]
    exact hunfired c frames id hopen hid
  · intro c hin
    rw [hlog] at hin
    exact hgone c ((List.mem_cons.mp hin).resolve_left (hnotDropped c))
  · intro c
    rw [hlog, silenced_cons, List.mem_cons, or_iff_right (hnotDropped c), or_iff_right]
    · exact h.dropped_iff c
    · rintro ⟨id, hsame, _⟩
      exact hnotFired c id hsame
  · intro c
    rw [hlog, List.countP_cons, hdropped c]
    exact h.dropped_le c
  · intro c
    rw [hlog, hclosing, List.countP_cons, List.countP_cons, hdropped c, hclosed c]
    exact h.closes c

theorem Drops.move {l l' : Ledger ε R} (hids : FreshIds l) (hlog : FollowsLog l)
    (htimers : TimersKept l) (h : Drops l) (hmove : Move l l') : Drops l' := by
  cases hmove with
  | still => exact h
  | quiet e he =>
      have hcalm : e.Calm := by
        cases e <;> trivial
      exact h.calm hcalm rfl rfl h.unfired h.gone
  | connect userId thread =>
      refine h.calm (e := .added l.nextConnection userId thread) trivial rfl rfl ?_ ?_
      · intro c frames id hopen hid
        simp only [Function.update_apply] at hopen
        split at hopen
        · rw [← Option.some.inj hopen] at hid
          cases hid
        · exact h.unfired c frames id hopen hid
      · intro c hdropped
        have hlt := hids.dropped_lt c hdropped
        have hc : c ≠ l.nextConnection := by omega
        exact (Function.update_of_ne hc _ _).trans (h.gone c hdropped)
  | remove c =>
      refine h.calm (e := .removed c) trivial rfl rfl ?_ ?_
      · intro c' frames id hopen hid
        simp only [Function.update_apply] at hopen
        split at hopen
        · cases hopen
        · exact h.unfired c' frames id hopen hid
      · intro c' hdropped
        simp only [Function.update_apply]
        split
        · rfl
        · exact h.gone c' hdropped
  | ack c id frames hopen =>
      refine h.calm (e := .acked c id) trivial rfl rfl ?_ ?_
      · intro c' frames' id' hopen' hid'
        simp only [Function.update_apply] at hopen'
        split at hopen'
        · rename_i hc
          rw [← Option.some.inj hopen'] at hid'
          rw [hc]
          exact h.unfired c frames id' hopen (Finset.mem_of_mem_erase hid')
        · exact h.unfired c' frames' id' hopen' hid'
      · intro c' hdropped
        exact update_of_gone hopen (h.gone c' hdropped)
  | track c frames hopen scheduling hscheduling =>
      refine h.calm (e := .issued c (frameId l.nextFrame)) trivial rfl rfl ?_ ?_
      · intro c' frames' id' hopen' hid'
        simp only [Function.update_apply] at hopen'
        split at hopen'
        · rename_i hc
          rw [← Option.some.inj hopen', Finset.mem_insert] at hid'
          rw [hc]
          rcases hid' with hnew | hold
          · rw [hnew]
            exact htimers.unfired hids c
          · exact h.unfired c frames id' hopen hold
        · exact h.unfired c' frames' id' hopen' hid'
      · intro c' hdropped
        exact update_of_gone hopen (h.gone c' hdropped)
  | schedule c id scheduling hscheduling =>
      exact ⟨h.unfired, h.gone, h.dropped_iff, h.dropped_le, h.closes⟩
  | expire c id frames htimer hopen hid closing hclosing => exact h.expire hlog hopen hid hclosing
  | stale c id htimer hanswered => exact h.stale hlog hanswered
  | close c closing hclosing => exact h.close hclosing

/-! ## Runs -/

/-- Everything the account keeps along a run. -/
structure Accounted (l : Ledger ε R) : Prop where
  ids : FreshIds l
  log : FollowsLog l
  timers : TimersKept l
  drops : Drops l

theorem Accounted.move {l l' : Ledger ε R} (h : Accounted l) (hmove : Move l l') :
    Accounted l' :=
  ⟨h.ids.move hmove, h.log.move h.ids hmove, h.timers.move hmove,
    h.drops.move h.ids h.log h.timers hmove⟩

theorem Fresh.accounted {p : Pool (Sys ε R) (Job R)} (hp : Fresh p) : Accounted (ledger p) := by
  obtain ⟨hthreads, hhub, htimers, hlog⟩ := hp
  have hempty : ledger p = ⟨fun _ => none, 1, 1, [], [], fun _ _ => 0, fun _ => 0⟩ := by
    unfold ledger Pool.jobs
    rw [hthreads, hhub, htimers, hlog]
    rfl
  rw [hempty]
  refine ⟨⟨?_, ?_, ?_, ?_, ?_, ?_, ?_⟩, ⟨?_, ?_⟩, ?_, ⟨?_, ?_, ?_, ?_, ?_⟩⟩
  · intro c frames hopen
    cases hopen
  · intro c hc
    cases hc
  · exact List.nodup_nil
  · intro c id hmem
    cases hmem
  · intro id hid
    cases hid
  · exact List.nodup_nil
  · intro c hmem
    cases hmem
  · intro c
    refine ⟨fun ⟨frames, hopen⟩ => (nomatch hopen), fun h => absurd h not_since_nil⟩
  · intro c frames id hopen
    cases hopen
  · intro c id
    rfl
  · intro c frames id hopen
    cases hopen
  · intro c hmem
    cases hmem
  · intro c
    refine ⟨fun h => (nomatch h), ?_⟩
    rintro ⟨later, id, earlier, h, _⟩
    simp at h
  · intro c
    exact Nat.zero_le _
  · intro c
    rfl

variable {svc : Service ε R} {ok : Action (Entry R) Bool → Pool (Sys ε R) (Job R) → Prop}
  {p : Pool (Sys ε R) (Job R)}

/-- **Every reachable hub is accounted for.** -/
theorem accounted_of_reachable (hp : Machine.Reachable (machine svc) ok Fresh p) :
    Accounted (ledger p) := by
  apply hp.invariant (I := fun p => Accounted (ledger p))
  · intro p hfresh
    exact hfresh.accounted
  · intro a p p' h _ hstep
    exact h.move (move_of_step hstep)

/-- A timer that fires too late changes nothing but the timers. -/
theorem fire_stale {c : Nat} {id : Str} {p' : Pool (Sys ε R) (Job R)}
    (hp : Machine.Reachable (machine svc) ok Fresh p)
    (hstep : (machine svc).step (.enter (.fire c id)) p = some p')
    (hstale : ¬ (Registered p.state.log c ∧ Unanswered p.state.log c id)) :
    p'.state = { p.state with
        timers := p.state.timers.erase (c, id), log := .fired c id :: p.state.log } ∧
      p'.threads = p.threads ++ [[]] := by
  have hlog := (accounted_of_reachable hp).log
  obtain ⟨e, s, jobs, henter, hsome, rfl⟩ | ⟨before, job, rest, after, returns, s, jobs, hrun, _⟩ :=
    Machine.step_cases hstep
  · cases henter
    have hnone : p.state.hub.fExpire c id = none := by
      cases hexpire : p.state.hub.fExpire c id with
      | none => rfl
      | some hub =>
          obtain ⟨⟨conn, hfind, hid⟩, _⟩ := Hub.fExpire_some hexpire
          have hopen := unanswered_of_find hfind
          refine absurd ⟨?_, ?_⟩ hstale
          · exact (hlog.open_iff c).mp ⟨conn.pending, hopen⟩
          · exact (hlog.frames_iff c conn.pending id hopen).mp hid
    unfold machine enter at hsome
    dsimp only at hsome
    by_cases htimer : (c, id) ∈ p.state.timers
    · rw [if_pos htimer] at hsome
      simp only [Sys.note, hnone] at hsome
      cases hsome
      exact ⟨rfl, rfl⟩
    · rw [if_neg htimer] at hsome
      cases hsome
  · cases hrun

theorem closed_mem_iff {log : List (Event ε R)} {c : Nat} :
    .closed c ∈ log ↔ 0 < log.countP (Event.isClosed c) := by
  rw [List.countP_pos_iff]
  constructor
  · intro h
    exact ⟨_, h, by simp [Event.isClosed]⟩
  · rintro ⟨e, he, hclosed⟩
    cases e with
    | closed c' =>
        have hc : c' = c := by simpa [Event.isClosed] using hclosed
        exact hc ▸ he
    | _ => cases hclosed

theorem dropped_mem_iff {log : List (Event ε R)} {c : Nat} :
    .dropped c ∈ log ↔ 0 < log.countP (Event.isDropped c) := by
  constructor
  · intro h
    rw [List.countP_pos_iff]
    exact ⟨_, h, by simp [Event.isDropped]⟩
  · intro h
    by_contra hno
    have hzero := countP_isDropped_eq_zero hno
    omega

theorem close_mem_iff {jobs : List (Job R)} {c : Nat} :
    .close c ∈ jobs ↔ 0 < jobs.countP (Job.closes c) := by
  rw [List.countP_pos_iff]
  constructor
  · intro h
    exact ⟨_, h, by simp [Job.closes]⟩
  · rintro ⟨job, hjob, hcloses⟩
    cases job with
    | close c' =>
        have hc : c' = c := by simpa [Job.closes] using hcloses
        exact hc ▸ hjob
    | _ => cases hcloses

/-- An id is issued to one connection, once. -/
theorem countP_isIssued_le (log : List (Event ε R)) (c : Nat) (id : Str) :
    log.countP (Event.isIssued c id) ≤ (log.filterMap Event.issuedId).count id := by
  induction log with
  | nil => exact Nat.zero_le _
  | cons e log ih =>
      cases e with
      | issued c' id' =>
          simp only [List.filterMap_cons, Event.issuedId, List.countP_cons, Event.isIssued,
            List.count_cons, Bool.and_eq_true, decide_eq_true_eq, beq_iff_eq]
          by_cases hid : id' = id
          · simp only [hid, and_true, if_true]
            split <;> omega
          · simp only [hid, and_false, if_false]
            omega
      | _ => simpa [Event.issuedId, Event.isIssued, List.filterMap_cons] using ih

/-- An unanswered frame of a registered connection has one timer ahead of it. -/
theorem Accounted.one_timer {l : Ledger ε R} (h : Accounted l) {c : Nat} {frames : Finset Str}
    {id : Str} (hopen : l.unanswered c = some frames) (hid : id ∈ frames) :
    l.timers.count (c, id) + l.scheduling c id = 1 := by
  have hkept := h.timers c id
  have hunfired := h.drops.unfired c frames id hopen hid
  have hle := countP_isIssued_le l.log c id
  have hnodup := List.nodup_iff_count_le_one.mp h.ids.issued_nodup id
  have hissued : 0 < l.log.countP (Event.isIssued c id) := by
    obtain ⟨e, he, rfl⟩ := ((h.log.frames_iff c frames id hopen).mp hid).exists
    rw [List.countP_pos_iff]
    exact ⟨_, he, by simp [Event.isIssued]⟩
  omega

/-- Any run of the hub. -/
abbrev Run (svc : Service ε R) : Pool (Sys ε R) (Job R) → Prop :=
  Machine.Reachable (machine svc) (fun _ _ => True) Fresh

/-- **A connection is dropped exactly for silence.**  In every reachable state:
the hub has closed a peer, or is about to, exactly when a timer of one of its
frames fired while it was registered and the frame unanswered, and it closes no
peer twice; ids are not used twice; what is unanswered on a connection depends
on the acknowledgements that arrived on that connection; every unanswered frame
of a registered connection has one timer, scheduled or about to be; and a timer
that fires for a frame that is answered, or on a connection that is gone,
changes nothing. -/
theorem dropped_for_silence (svc : Service ε R) (p : Pool (Sys ε R) (Job R)) (hp : Run svc p) :
    (∀ c, (.closed c ∈ p.state.log ∨ .close c ∈ p.jobs) ↔ Silenced p.state.log c) ∧
    (∀ c, p.jobs.countP (Job.closes c) + p.state.log.countP (Event.isClosed c) ≤ 1) ∧
    (p.state.log.filterMap Event.addedId).Nodup ∧
    (p.state.log.filterMap Event.issuedId).Nodup ∧
    (∀ c, (∃ conn, p.state.hub.find c = some conn) ↔ Registered p.state.log c) ∧
    (∀ c conn id, p.state.hub.find c = some conn →
      (id ∈ conn.pending ↔ Unanswered p.state.log c id)) ∧
    (∀ c conn id, p.state.hub.find c = some conn → id ∈ conn.pending →
      p.state.timers.count (c, id) + p.jobs.countP (Job.schedules c id) = 1) ∧
    (∀ c id p', (machine svc).step (.enter (.fire c id)) p = some p' →
      ¬ (Registered p.state.log c ∧ Unanswered p.state.log c id) →
      p'.state = { p.state with
          timers := p.state.timers.erase (c, id), log := .fired c id :: p.state.log } ∧
        p'.threads = p.threads ++ [[]]) := by
  have h := accounted_of_reachable hp
  refine ⟨?_, ?_, h.ids.added_nodup, h.ids.issued_nodup, ?_, ?_, ?_, ?_⟩
  · intro c
    have hcloses := h.drops.closes c
    have hdropped : .dropped c ∈ p.state.log ↔ Silenced p.state.log c := h.drops.dropped_iff c
    rw [← hdropped, closed_mem_iff, close_mem_iff, dropped_mem_iff]
    change p.jobs.countP (Job.closes c) + p.state.log.countP (Event.isClosed c) =
      p.state.log.countP (Event.isDropped c) at hcloses
    omega
  · intro c
    have hcloses := h.drops.closes c
    have hle := h.drops.dropped_le c
    change p.jobs.countP (Job.closes c) + p.state.log.countP (Event.isClosed c) =
      p.state.log.countP (Event.isDropped c) at hcloses
    change p.state.log.countP (Event.isDropped c) ≤ 1 at hle
    omega
  · intro c
    have hiff := h.log.open_iff c
    change (∃ frames, (p.state.hub.find c).map Connection.pending = some frames) ↔
      Registered p.state.log c at hiff
    rw [← hiff]
    constructor
    · rintro ⟨conn, hfind⟩
      exact ⟨conn.pending, by rw [hfind]; rfl⟩
    · rintro ⟨frames, hframes⟩
      obtain ⟨conn, hfind, _⟩ := Option.map_eq_some_iff.mp hframes
      exact ⟨conn, hfind⟩
  · intro c conn id hfind
    exact h.log.frames_iff c conn.pending id (unanswered_of_find hfind)
  · intro c conn id hfind hid
    exact h.one_timer (unanswered_of_find hfind) hid
  · intro c id p' hstep hstale
    exact fire_stale hp hstep hstale

/-- A hub with nothing around it. -/
def bareService : Service Unit Unit := ⟨fun _ => none, fun _ _ _ => none, fun _ env => (env, none)⟩

def barePool : Pool (Sys Unit Unit) (Job Unit) := ⟨⟨(), Hub.start, [], []⟩, []⟩

/-- A device connects, is asked to catch up and never answers. -/
def neverAnswers : Pool (Sys Unit Unit) (Job Unit) :=
  ((machine bareService).exec [.enter (.connect (str "ann")), .run 0 true, .run 0 true,
    .run 0 true, .enter (.fire 1 (str "s1")), .run 1 true] barePool).getD barePool

/-- The silent device is closed, so one of its timers fired in silence. -/
theorem dropped_for_silence_neverAnswers : Silenced neverAnswers.state.log 1 := by
  have hrun : Run bareService neverAnswers :=
    Machine.Reachable.exec_getD (fun _ _ _ => trivial) (.start ⟨rfl, rfl, rfl, rfl⟩)
      (by decide +kernel)
  have hclosed : 0 < neverAnswers.state.log.countP (Event.isClosed 1) := by decide +kernel
  exact ((dropped_for_silence bareService neverAnswers hrun).1 1).mp
    (Or.inl (closed_mem_iff.mpr hclosed))

end Lectern.Sync
