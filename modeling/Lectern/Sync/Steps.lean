import Lectern.Sync.Machine

/-!
# What one step leaves as it was

Facts about single steps that the invariants of the hub share: which
connections there are, whose they are and what they watch, what changes the
rest of the server, and what is noted in the log.
-/

namespace Lectern.Sync

open Threads

variable {ε R : Type}

variable {svc : Service ε R} {s s' : Sys ε R} {i : Nat} {jobs : List (Job R)}

/-! ## Connections -/

/-- An updated connection keeps its account, and its watches when the update
does. -/
theorem find_update_user {h : Hub} {c c' : Nat} {f : Connection → Connection} {conn' : Connection}
    (hfind : (h.update c f).find c' = some conn')
    (hf : ∀ conn, (f conn).userId = conn.userId ∧ (f conn).watches = conn.watches) :
    ∃ conn, h.find c' = some conn ∧ conn.userId = conn'.userId ∧
      conn'.watches = conn.watches := by
  rw [Hub.find_update] at hfind
  split at hfind
  · obtain ⟨conn, hconn, rfl⟩ := Option.map_eq_some_iff.mp hfind
    exact ⟨conn, hconn, (hf conn).1.symm, (hf conn).2⟩
  · exact ⟨conn', hfind, rfl, rfl⟩

theorem find_fHandle {h : Hub} {c c' : Nat} {frame : Json} {conn' : Connection}
    (hfind : (h.fHandle c frame).find c' = some conn') :
    ∃ conn, h.find c' = some conn ∧ conn.userId = conn'.userId ∧
      conn'.watches = conn.watches := by
  unfold Hub.fHandle at hfind
  dsimp only at hfind
  split at hfind
  · exact find_update_user hfind (fun _ => ⟨rfl, rfl⟩)
  · split at hfind
    · exact find_update_user hfind (fun _ => ⟨rfl, rfl⟩)
    · exact ⟨conn', hfind, rfl, rfl⟩

/-- The watches of connection `c` after a job: those it had, or what the job
installs. -/
def Rewatched (job : Job R) (c : Nat) (conn conn' : Connection) : Prop :=
  conn'.watches = conn.watches ∨
    ∃ target frame, job = .follow c target frame ∧ conn'.watches = Hub.installed target frame

/-- A job adds no connection and leaves every account as it is. -/
theorem find_perform {returns : Bool} {job : Job R} (h : perform svc returns i job s = (s', jobs))
    {c : Nat} {conn' : Connection} (hfind : s'.hub.find c = some conn') :
    ∃ conn, s.hub.find c = some conn ∧ conn.userId = conn'.userId ∧
      Rewatched job c conn conn' := by
  have hsame (hub : Hub) (heq : hub = s.hub) (hfind : hub.find c = some conn') :
      ∃ conn, s.hub.find c = some conn ∧ conn.userId = conn'.userId ∧
        Rewatched job c conn conn' :=
    ⟨conn', heq ▸ hfind, rfl, Or.inl rfl⟩
  unfold perform at h
  cases job with
  | handle c' frame =>
      dsimp only at h
      split at h
      · cases h
        exact hsame _ rfl hfind
      · cases h
        have hfind : (s.hub.fHandle c' frame).find c = some conn' := by
          split at hfind
          · exact hfind
          · exact hfind
        obtain ⟨conn, hconn, huser, hwatches⟩ := find_fHandle hfind
        exact ⟨conn, hconn, huser, Or.inl hwatches⟩
  | resolve c' userId frame =>
      dsimp only at h
      split at h <;> cases h <;> exact hsame _ rfl hfind
  | follow c' target frame =>
      dsimp only at h
      split at h
      · cases h
        exact hsame _ rfl hfind
      · cases h
        change (s.hub.update c' _).find c = some conn' at hfind
        rw [Hub.find_update] at hfind
        split at hfind
        · rename_i hc
          subst hc
          obtain ⟨conn, hconn, rfl⟩ := Option.map_eq_some_iff.mp hfind
          exact ⟨conn, hconn, rfl, Or.inr ⟨target, frame, rfl, rfl⟩⟩
        · exact hsame _ rfl hfind
  | reply c' kind id =>
      dsimp only at h
      split at h <;> cases h <;> exact hsame _ rfl hfind
  | track c' frame =>
      dsimp only at h
      split at h
      · cases h
        exact hsame _ rfl hfind
      · rename_i hub id htrack
        cases h
        obtain ⟨_, _, _, _, hfinds⟩ := Hub.fSendTracked_some htrack
        change hub.find c = some conn' at hfind
        rw [hfinds] at hfind
        split at hfind
        · obtain ⟨conn, hconn, rfl⟩ := Option.map_eq_some_iff.mp hfind
          exact ⟨conn, hconn, rfl, Or.inl rfl⟩
        · exact hsame _ rfl hfind
  | send c' id frame =>
      dsimp only at h
      split at h <;> cases h <;> exact hsame _ rfl hfind
  | schedule c' id =>
      cases h
      exact hsame _ rfl hfind
  | close c' =>
      cases h
      exact hsame _ rfl hfind
  | serve r =>
      cases h
      exact hsame _ rfl hfind
  | notify a =>
      cases h
      exact hsame _ rfl hfind

/-- Starting a thread adds the connection of an `fAdd` and no other. -/
theorem find_enter {e : Entry R} (h : enter svc e i s = some (s', jobs)) {c : Nat}
    {conn' : Connection} (hfind : s'.hub.find c = some conn') :
    (∃ conn, s.hub.find c = some conn ∧ conn.userId = conn'.userId ∧
        conn'.watches = conn.watches) ∨
      e = .connect conn'.userId ∧ c = s.hub.nextConnection ∧ conn'.watches = [] := by
  have herase (c' : Nat) (hfind : (s.hub.erase c').find c = some conn') :
      ∃ conn, s.hub.find c = some conn ∧ conn.userId = conn'.userId ∧
        conn'.watches = conn.watches := by
    rw [Hub.find_erase] at hfind
    split at hfind
    · cases hfind
    · exact ⟨conn', hfind, rfl, rfl⟩
  unfold enter at h
  cases e with
  | connect userId =>
      cases h
      change (s.hub.fAdd userId).find c = some conn' at hfind
      rw [Hub.find_fAdd] at hfind
      split at hfind
      · rename_i hc
        cases hfind
        exact Or.inr ⟨rfl, hc, rfl⟩
      · exact Or.inl ⟨conn', hfind, rfl, rfl⟩
  | disconnect c' =>
      cases h
      exact Or.inl (herase c' hfind)
  | message c' text =>
      dsimp only at h
      split at h <;> cases h <;> exact Or.inl ⟨conn', hfind, rfl, rfl⟩
  | fire c' id =>
      dsimp only at h
      split at h
      · split at h
        · rename_i hub hexpire
          cases h
          obtain ⟨_, rfl⟩ := Hub.fExpire_some hexpire
          exact Or.inl (herase c' hfind)
        · cases h
          exact Or.inl ⟨conn', hfind, rfl, rfl⟩
      · cases h
  | request r =>
      cases h
      exact Or.inl ⟨conn', hfind, rfl, rfl⟩

/-! ## The server and the log -/

/-- Only serving a request changes the rest of the server. -/
theorem env_perform {returns : Bool} {job : Job R} (h : perform svc returns i job s = (s', jobs)) :
    s'.env = s.env ∨ ∃ r, job = .serve r ∧ s'.env = (svc.serve r s.env).1 := by
  unfold perform at h
  cases job with
  | handle c' frame =>
      dsimp only at h
      split at h
      · cases h
        exact Or.inl rfl
      · cases h
        split <;> exact Or.inl rfl
  | resolve c' userId frame =>
      dsimp only at h
      split at h <;> cases h <;> exact Or.inl rfl
  | follow c' target frame =>
      dsimp only at h
      split at h <;> cases h <;> exact Or.inl rfl
  | reply c' kind id =>
      dsimp only at h
      split at h <;> cases h <;> exact Or.inl rfl
  | track c' frame =>
      dsimp only at h
      split at h <;> cases h <;> exact Or.inl rfl
  | send c' id frame =>
      dsimp only at h
      split at h <;> cases h <;> exact Or.inl rfl
  | schedule c' id =>
      cases h
      exact Or.inl rfl
  | close c' =>
      cases h
      exact Or.inl rfl
  | serve r =>
      cases h
      exact Or.inr ⟨r, rfl, rfl⟩
  | notify a =>
      cases h
      exact Or.inl rfl

theorem env_enter {e : Entry R} (h : enter svc e i s = some (s', jobs)) : s'.env = s.env := by
  unfold enter at h
  cases e with
  | connect userId =>
      cases h
      rfl
  | disconnect c' =>
      cases h
      rfl
  | message c' text =>
      dsimp only at h
      split at h <;> cases h <;> rfl
  | fire c' id =>
      dsimp only at h
      split at h
      · split at h <;> cases h <;> rfl
      · cases h
  | request r =>
      cases h
      rfl

/-- What a job notes: no connection, and a served request only by serving it. -/
theorem log_perform {returns : Bool} {job : Job R} (h : perform svc returns i job s = (s', jobs)) :
    ∃ extra, s'.log = extra ++ s.log ∧ (∀ c userId j, .added c userId j ∉ extra) ∧
      ∀ k r before, .served k r before ∈ extra →
        job = .serve r ∧ k = i ∧ before = s.env ∧ extra = [.served i r s.env] := by
  have hnone (log : List (Event ε R)) (hlog : log = s.log) :
      ∃ extra, log = extra ++ s.log ∧ (∀ c userId j, .added c userId j ∉ extra) ∧
        ∀ k r before, .served k r before ∈ extra →
          job = .serve r ∧ k = i ∧ before = s.env ∧ extra = [.served i r s.env] :=
    ⟨[], hlog, by simp, by simp⟩
  unfold perform at h
  cases job with
  | handle c' frame =>
      dsimp only at h
      split at h
      · cases h
        exact hnone _ rfl
      · cases h
        split
        · exact ⟨[.acked c' (frame.fStringField (str "id"))], rfl, by simp, by simp⟩
        · exact hnone _ rfl
  | resolve c' userId frame =>
      dsimp only at h
      split at h <;> cases h <;> exact hnone _ rfl
  | follow c' target frame =>
      dsimp only at h
      split at h <;> cases h <;> exact hnone _ rfl
  | reply c' kind id =>
      dsimp only at h
      split at h
      · cases h
        exact ⟨[.replied c' kind id], rfl, by simp, by simp⟩
      · cases h
        exact hnone _ rfl
  | track c' frame =>
      dsimp only at h
      split at h
      · cases h
        exact hnone _ rfl
      · rename_i hub id htrack
        cases h
        exact ⟨[.issued c' id], rfl, by simp, by simp⟩
  | send c' id frame =>
      dsimp only at h
      split at h
      · cases h
        exact ⟨[.sent c' id frame], rfl, by simp, by simp⟩
      · cases h
        exact hnone _ rfl
  | schedule c' id =>
      cases h
      exact hnone _ rfl
  | close c' =>
      cases h
      exact ⟨[.closed c'], rfl, by simp, by simp⟩
  | serve r =>
      cases h
      refine ⟨[.served i r s.env], rfl, by simp, ?_⟩
      intro k r' before hserved
      cases List.mem_singleton.mp hserved
      exact ⟨rfl, rfl, rfl, rfl⟩
  | notify a =>
      cases h
      exact ⟨[.notified i a s.hub.connections], rfl, by simp, by simp⟩

theorem log_enter {e : Entry R} (h : enter svc e i s = some (s', jobs)) :
    ∃ extra, s'.log = extra ++ s.log ∧ (∀ k r before, .served k r before ∉ extra) ∧
      ∀ c userId j, .added c userId j ∈ extra →
        e = .connect userId ∧ c = s.hub.nextConnection ∧ j = i := by
  have hnone (log : List (Event ε R)) (hlog : log = s.log) :
      ∃ extra, log = extra ++ s.log ∧ (∀ k r before, .served k r before ∉ extra) ∧
        ∀ c userId j, .added c userId j ∈ extra →
          e = .connect userId ∧ c = s.hub.nextConnection ∧ j = i :=
    ⟨[], hlog, by simp, by simp⟩
  unfold enter at h
  cases e with
  | connect userId =>
      cases h
      refine ⟨[.added s.hub.nextConnection userId i], rfl, by simp, ?_⟩
      intro c userId' j hadded
      cases List.mem_singleton.mp hadded
      exact ⟨rfl, rfl, rfl⟩
  | disconnect c' =>
      cases h
      exact ⟨[.removed c'], rfl, by simp, by simp⟩
  | message c' text =>
      dsimp only at h
      split at h <;> cases h <;> exact hnone _ rfl
  | fire c' id =>
      dsimp only at h
      split at h
      · split at h
        · cases h
          exact ⟨[.dropped c', .fired c' id], rfl, by simp, by simp⟩
        · cases h
          exact ⟨[.fired c' id], rfl, by simp, by simp⟩
      · cases h
  | request r =>
      cases h
      exact hnone _ rfl

/-! ## Requests -/

/-- A job never puts a request in its place. -/
theorem serve_not_mem_perform {returns : Bool} {job : Job R} {r : R}
    (h : perform svc returns i job s = (s', jobs)) : .serve r ∉ jobs := by
  have hanswer (c : Nat) (kind : Reply) (frame : Json) : .serve r ∉ answer c kind frame := by
    unfold answer
    dsimp only
    split <;> simp
  unfold perform at h
  cases job with
  | handle c frame =>
      dsimp only at h
      split at h
      · cases h
        simp
      · cases h
        unfold afterHandle
        dsimp only
        split
        · simp
        · split
          · exact hanswer c .ack frame
          · split
            · simp
            · split <;> simp
  | resolve c userId frame =>
      dsimp only at h
      split at h
      · cases h
        exact hanswer c .nack frame
      · cases h
        simp
  | follow c target frame =>
      dsimp only at h
      split at h
      · cases h
        simp
      · cases h
        exact hanswer c .ack frame
  | track c frame =>
      dsimp only at h
      split at h <;> cases h <;> simp
  | serve r' =>
      cases h
      split <;> simp
  | notify a =>
      cases h
      simp
  | _ =>
      cases h
      simp

theorem serve_mem_enter {e : Entry R} {r : R} (h : enter svc e i s = some (s', jobs))
    (hr : .serve r ∈ jobs) : e = .request r := by
  unfold enter at h
  cases e with
  | connect userId =>
      cases h
      split at hr <;> simp at hr
  | disconnect c =>
      cases h
      simp at hr
  | message c text =>
      dsimp only at h
      split at h
      · cases h
        split at hr <;> simp at hr
      · cases h
        simp at hr
  | fire c id =>
      dsimp only at h
      split at h
      · split at h <;> cases h <;> simp at hr
      · cases h
  | request r' =>
      cases h
      simp only [List.mem_singleton, Job.serve.injEq] at hr
      rw [hr]

/-! ## Whose connection it is -/

/-- A registered connection belongs to the account it was added for. -/
def Users (s : Sys ε R) : Prop :=
  ∀ c userId j conn, .added c userId j ∈ s.log → s.hub.find c = some conn → conn.userId = userId

theorem Users.enter {e : Entry R}
    (hold : ∀ c userId j, .added c userId j ∈ s.log → c < s.hub.nextConnection) (h : Users s)
    (henter : enter svc e i s = some (s', jobs)) : Users s' := by
  obtain ⟨extra, hlog, _, hadded⟩ := log_enter henter
  intro c userId j conn' hmem hfind
  rw [hlog] at hmem
  rcases List.mem_append.mp hmem with hnew | hmem
  · obtain ⟨rfl, hc, _⟩ := hadded c userId j hnew
    rcases find_enter henter hfind with ⟨conn, hfind', _⟩ | ⟨hconnect, _⟩
    · have hlt := (Hub.lt_of_find hfind').2
      omega
    · cases hconnect
      rfl
  · rcases find_enter henter hfind with ⟨conn, hfind', huser, _⟩ | ⟨_, hc, _⟩
    · rw [← huser]
      exact h c userId j conn hmem hfind'
    · have hlt := hold c userId j hmem
      omega

theorem Users.perform {returns : Bool} {job : Job R} (h : Users s)
    (hperform : perform svc returns i job s = (s', jobs)) : Users s' := by
  obtain ⟨extra, hlog, hadded, _⟩ := log_perform hperform
  intro c userId j conn' hmem hfind
  rw [hlog] at hmem
  obtain ⟨conn, hfind', huser, _⟩ := find_perform hperform hfind
  rcases List.mem_append.mp hmem with hnew | hmem
  · exact absurd hnew (hadded c userId j)
  · rw [← huser]
    exact h c userId j conn hmem hfind'

end Lectern.Sync
