import Lectern.Session.Agreement

/-!
# How long a session lives

The specification is `Sliding.Live` over the history of a run: a cookie that
`fStart` issued, not destroyed since, with less than thirty days between its
start, its uses and now.  `session_lifetime` compares every answer of
`fCurrentUserId` with it; purges change no answer.
-/

namespace Lectern

namespace Session

open Sliding

variable {site : Site} {drawn : List Str} {h : History Str Str} {now : Int}
  {tables tables' : Tables}

/-! ## Purges -/

/-- What the calls other than purges return. -/
def answers (site : Site) : List (Call × Int) → Tables → List Reply
  | [], _ => []
  | call :: calls, tables =>
      (if call.1 = .purge then [] else [(perform site call tables).2]) ++
        answers site calls (perform site call tables).1

/-- The calls other than purges. -/
def withoutPurges (calls : List (Call × Int)) : List (Call × Int) :=
  calls.filter (fun call => call.1 ≠ .purge)

/-- No call touches the accounts. -/
theorem users_perform (site : Site) (call : Call × Int) (tables : Tables) :
    (perform site call tables).1.users = tables.users := by
  obtain ⟨call, t⟩ := call
  cases call with
  | start userId random =>
      rw [← users_fStart site userId random t tables]
      unfold perform
      dsimp only
      split <;> rename_i hstart <;> rw [hstart]
  | currentUser raw => exact users_fCurrentUserId site raw t tables
  | destroy raw => exact users_fDestroy site raw tables
  | purge => rfl

/-- Two tables that agree with one history answer alike. -/
theorem reply_congr (ha : Agrees site drawn h now tables) (ha' : Agrees site drawn h now tables')
    (hsecret : site.sessionSecret ≠ []) (husers : tables.users = tables'.users)
    {call : Call × Int} (ht : now ≤ call.2)
    (hfresh : ∀ id, drawnId call = some id → id ∉ drawn) :
    (perform site call tables).2 = (perform site call tables').2 := by
  obtain ⟨call, t⟩ := call
  cases call with
  | start userId random =>
      have hnew := hfresh (fRandomHex random) rfl
      have hfree {tables : Tables} (ha : Agrees site drawn h now tables) :
          tables.sessions.any (fun old => old.id = fRandomHex random) = false := by
        rw [List.any_eq_false]
        intro old hold hsame
        have hid : old.id = fRandomHex random := of_decide_eq_true hsame
        exact hnew (hid ▸ ha.known old hold)
      unfold perform fStart Tables.insertSession
      dsimp only
      rw [hfree ha, hfree ha', husers]
      simp only [Bool.false_eq_true, if_false]
      by_cases hmissing : (tables'.users.all fun user => decide (user.id ≠ userId)) = true
      · rw [if_pos hmissing, if_pos hmissing]
      · rw [if_neg hmissing, if_neg hmissing]
  | currentUser raw =>
      change Reply.user _ = Reply.user _
      congr 1
      apply Option.ext
      intro user
      rw [(ha.later ht).answer hsecret raw user, (ha'.later ht).answer hsecret raw user]
  | destroy raw =>
      change Reply.cookie _ = Reply.cookie _
      unfold fDestroy
      cases fIdFromCookie site raw with
      | none => rfl
      | some id => rfl
  | purge => rfl

/-- Without its purges a run answers the same. -/
theorem answers_withoutPurges (hsecret : site.sessionSecret ≠ []) {calls : List (Call × Int)}
    (ha : Agrees site drawn h now tables) (ha' : Agrees site drawn h now tables')
    (husers : tables.users = tables'.users) (hclock : calls.Pairwise (fun a b => a.2 ≤ b.2))
    (hnow : ∀ call ∈ calls, now ≤ call.2) (hids : (drawn ++ calls.filterMap drawnId).Nodup) :
    answers site calls tables = answers site (withoutPurges calls) tables' := by
  induction calls generalizing drawn h now tables tables' with
  | nil => rfl
  | cons call calls ih =>
      obtain ⟨hfirst, hrest⟩ := List.pairwise_cons.mp hclock
      have ht := hnow call List.mem_cons_self
      have hdrawn : (call :: calls).filterMap drawnId =
          (drawnId call).toList ++ calls.filterMap drawnId := by
        cases hd : drawnId call <;> simp [hd]
      have hfresh : ∀ id, drawnId call = some id → id ∉ drawn := by
        intro id hid hin
        rw [List.nodup_append] at hids
        exact hids.2.2 id hin id (by simp [hdrawn, hid]) rfl
      rw [hdrawn, ← List.append_assoc] at hids
      have hafter := ha.perform hsecret ht hfresh
      by_cases hpurge : call.1 = .purge
      · -- The history does not see a purge.
        have hstep : step site call tables = [] := by
          unfold step
          rw [hpurge]
          rfl
        have hdraw : (drawnId call).toList = [] := by
          obtain ⟨_, t⟩ := call
          cases hpurge
          rfl
        rw [hstep, hdraw, List.append_nil, List.append_nil] at hafter
        rw [hdraw, List.append_nil] at hids
        have hwithout : withoutPurges (call :: calls) = withoutPurges calls :=
          List.filter_cons_of_neg (by simpa using hpurge)
        rw [hwithout, answers, if_pos hpurge, List.nil_append]
        refine ih hafter (ha'.later ht) ?_ hrest hfirst hids
        rw [users_perform]
        exact husers
      · have hreply := reply_congr ha ha' hsecret husers ht hfresh
        have hafter' := ha'.perform hsecret ht hfresh
        have hstep : step site call tables' = step site call tables := by
          unfold step
          rw [hreply]
        rw [hstep] at hafter'
        have hwithout : withoutPurges (call :: calls) = call :: withoutPurges calls :=
          List.filter_cons_of_pos (by simpa using hpurge)
        rw [hwithout, answers, answers, hreply]
        congr 1
        refine ih hafter hafter' ?_ hrest hfirst hids
        rw [users_perform, users_perform]
        exact husers

theorem drawnId_withoutPurges (calls : List (Call × Int)) :
    (withoutPurges calls).filterMap drawnId = calls.filterMap drawnId := by
  unfold withoutPurges
  induction calls with
  | nil => rfl
  | cons call calls ih =>
      by_cases hpurge : call.1 = .purge
      · obtain ⟨_, t⟩ := call
        cases hpurge
        exact ih
      · rw [List.filter_cons_of_pos (by simpa using hpurge), List.filterMap_cons, ih,
          List.filterMap_cons]

/-- A run from an empty table answers as it does without its purges. -/
theorem answers_start (hsecret : site.sessionSecret ≠ []) (users : List Account)
    {calls : List (Call × Int)} (hclock : calls.Pairwise (fun a b => a.2 ≤ b.2))
    (hids : (calls.filterMap drawnId).Nodup) :
    answers site calls ⟨users, []⟩ = answers site (withoutPurges calls) ⟨users, []⟩ := by
  obtain ⟨first, hfirst⟩ : ∃ first : Int, ∀ call ∈ calls, first ≤ call.2 := by
    cases calls with
    | nil => exact ⟨0, by simp⟩
    | cons call calls =>
        refine ⟨call.2, ?_⟩
        intro later hlater
        rcases List.mem_cons.mp hlater with hsame | hin
        · exact Int.le_of_eq (congrArg Prod.snd hsame.symm)
        · exact (List.pairwise_cons.mp hclock).1 later hin
  exact answers_withoutPurges hsecret (agrees_nil site users first) (agrees_nil site users first)
    rfl hclock hfirst (by rwa [List.nil_append])

/-- The history has the times of its calls. -/
theorem time_of_mem_history {calls : List (Call × Int)} {tables : Tables}
    {e : Event Str Str × Int} (he : e ∈ history site calls tables) :
    ∃ call ∈ calls, e.2 = call.2 := by
  induction calls generalizing tables with
  | nil => cases he
  | cons call calls ih =>
      rw [history, List.mem_append] at he
      rcases he with hhere | hlater
      · unfold step at hhere
        obtain ⟨_, _, hsame⟩ := List.mem_map.mp hhere
        exact ⟨call, List.mem_cons_self, by rw [← hsame]⟩
      · obtain ⟨later, hin, hsame⟩ := ih hlater
        exact ⟨later, List.mem_cons_of_mem _ hin, hsame⟩

/-! ## The law -/

/-- **Session lifetime**: along every run from an empty table, with a secret, a
clock that does not go back and ids that never repeat, a cookie authenticates
exactly the user it is alive for; a cookie that is dead at some time never
authenticates again; and two runs that differ in their purges answer the
same. -/
theorem session_lifetime (site : Site) (hsecret : site.sessionSecret ≠ []) (users : List Account)
    (calls : List (Call × Int)) (hclock : calls.Pairwise (fun a b => a.2 ≤ b.2))
    (hids : (calls.filterMap drawnId).Nodup) :
    (∀ before raw now after, calls = before ++ (.currentUser raw, now) :: after → ∀ user,
      (fCurrentUserId site raw now (run site before ⟨users, []⟩)).2 = some user ↔
        Live cInactivitySeconds (history site before ⟨users, []⟩) raw user now) ∧
    (∀ before mid raw t now after, calls = before ++ mid ++ (.currentUser raw, now) :: after →
      raw ∈ (history site before ⟨users, []⟩).filterMap grantOf →
      (∀ user, ¬ Live cInactivitySeconds (history site before ⟨users, []⟩) raw user t) →
      (∀ call ∈ mid, t ≤ call.2) → t ≤ now →
        (fCurrentUserId site raw now (run site (before ++ mid) ⟨users, []⟩)).2 = none) ∧
    ∀ calls', calls'.Pairwise (fun a b => a.2 ≤ b.2) →
      withoutPurges calls' = withoutPurges calls →
        answers site calls' ⟨users, []⟩ = answers site calls ⟨users, []⟩ := by
  have hagrees : ∀ before call after, calls = before ++ call :: after →
      Agrees site (before.filterMap drawnId) (history site before ⟨users, []⟩) call.2
        (run site before ⟨users, []⟩) := by
    intro before call after hsplit
    rw [hsplit, List.pairwise_append] at hclock
    rw [hsplit, List.filterMap_append, List.nodup_append] at hids
    exact agrees_run hsecret users hclock.1 hids.1
      (fun earlier hin => hclock.2.2 earlier hin call List.mem_cons_self)
  refine ⟨?_, ?_, ?_⟩
  · intro before raw now after hsplit user
    exact (hagrees before _ after hsplit).answer hsecret raw user
  · intro before mid raw t now after hsplit hissued hdead hmid hnow
    have hthen := hagrees (before ++ mid) _ after hsplit
    have hanswer := hthen.answer hsecret raw
    have hproper := hthen.proper
    rw [history_append] at hproper hanswer
    have hlater : ∀ e ∈ history site mid (run site before ⟨users, []⟩), t ≤ e.2 := by
      intro e he
      obtain ⟨call, hcall, hsame⟩ := time_of_mem_history he
      rw [hsame]
      exact hmid call hcall
    have hnever := dead_stays hproper hissued hdead hlater hnow
    cases hread : (fCurrentUserId site raw now (run site (before ++ mid) ⟨users, []⟩)).2 with
    | none => rfl
    | some user => exact absurd ((hanswer user).mp hread) (hnever user)
  · intro calls' hclock' hsame
    have hids' : (calls'.filterMap drawnId).Nodup := by
      rw [← drawnId_withoutPurges, hsame, drawnId_withoutPurges]
      exact hids
    rw [answers_start hsecret users hclock' hids', hsame, ← answers_start hsecret users hclock hids]

/-- Ann starts a session, uses it after three weeks and once more five weeks
after the start; a purge in between finds nothing to do. -/
def annVisits : List (Call × Int) :=
  [(.start (str "ann") (Vector.replicate 32 7), 0),
    (.currentUser (fRandomHex (Vector.replicate 32 7) ++ str ".07"), 1814400), (.purge, 2000000)]

/-- A MAC for the example: the last two digits of the id. -/
def shortMac : Site := ⟨str "secret", true, fun _ id => id.drop (id.length - 2)⟩

theorem session_lifetime_annVisits :
    Live cInactivitySeconds (history shortMac annVisits ⟨[⟨str "ann", [], [], 0, []⟩], []⟩)
      (fRandomHex (Vector.replicate 32 7) ++ str ".07") (str "ann") 3024000 := by
  have hlaw := (session_lifetime shortMac (by decide) [⟨str "ann", [], [], 0, []⟩]
    (annVisits ++ [(.currentUser (fRandomHex (Vector.replicate 32 7) ++ str ".07"), 3024000)])
    (by decide +kernel) (by decide +kernel)).1 annVisits _ _ [] rfl (str "ann")
  refine hlaw.mp ?_
  decide +kernel

end Session

end Lectern
