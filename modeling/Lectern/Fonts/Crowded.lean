import Lectern.Fonts.Standing

/-!
# The limit on fonts when uploads run at the same time

An upload counts the fonts of its account before it inserts one, and others of
the account may do so in between.  So the limit is not kept; but it is exceeded
only by as many as are between their count and their insertion at a time, less
one, and that is by less than the server has threads.
-/

namespace Lectern.Fonts

open FileTree Threads

/-! ## Uploads that have counted -/

/-- The account whose fonts an upload has counted. -/
def counted : FontJob → Option Str
  | .write ownerId _ _ => some ownerId
  | job => (newOf job).map FontRow.ownerId

/-- An upload between its count and its insertion. -/
def admitted (job : FontJob) : Bool := (counted job).isSome

/-- And it is of this account. -/
def admittedFor (ownerId : Str) (job : FontJob) : Bool := counted job = some ownerId

def uploadsInFlight (p : Pool FontStore FontJob) : Nat := p.jobs.countP admitted

/-- At most `T` uploads are in flight after the action. -/
def AtMost (T : Nat) (a : Action Visitor Faults) (p : Pool FontStore FontJob) : Prop :=
  ∀ p', library.step a p = some p' → uploadsInFlight p' ≤ T

instance (T : Nat) (a : Action Visitor Faults) (p : Pool FontStore FontJob) :
    Decidable (AtMost T a p) :=
  match hstep : library.step a p with
  | some p' => decidable_of_iff (uploadsInFlight p' ≤ T) (by simp [AtMost, hstep])
  | none => isTrue (by simp [AtMost, hstep])

/-- The server has just started, on a library within the limit. -/
def Started (p : Pool FontStore FontJob) : Prop :=
  p.threads = [] ∧ ∀ ownerId, (p.state.fontsOf ownerId).length ≤ cMaxFontsPerAccount

theorem countP_admittedFor_le (ownerId : Str) (p : Pool FontStore FontJob) :
    p.jobs.countP (admittedFor ownerId) ≤ uploadsInFlight p := by
  refine List.countP_mono_left ?_
  intro job _ hjob
  rw [admittedFor, decide_eq_true_eq] at hjob
  rw [admitted, hjob]
  rfl

/-- Nobody has counted who has just come in. -/
theorem counted_firstJobs {visitor : Visitor} {job : FontJob} (h : job ∈ firstJobs visitor) :
    counted job = none := by
  cases visitor with
  | upload caller familyParam filename body draws =>
      simp only [firstJobs] at h
      split at h
      · cases List.mem_singleton.mp h
        rfl
      · cases h
  | delete caller fontId | read caller fontId =>
      cases List.mem_singleton.mp h
      rfl
  | embed ownerId =>
      cases List.mem_singleton.mp h
      rfl

/-! ## One step -/

/-- What one step adds to the fonts of an account and the uploads that have
counted them: nothing, or an upload that has found room. -/
theorem doJob_room (faults : Faults) (i : Nat) (s : FontStore) (job : FontJob) (ownerId : Str) :
    ((doJob faults i s job).store.fontsOf ownerId).length +
        (doJob faults i s job).jobs.countP (admittedFor ownerId) ≤
      (s.fontsOf ownerId).length + [job].countP (admittedFor ownerId) ∨
    (doJob faults i s job).store = s ∧ (s.fontsOf ownerId).length < cMaxFontsPerAccount := by
  have hnone {jobs : List FontJob} {n : Nat} (h : ∀ job ∈ jobs, counted job = none) :
      (s.fontsOf ownerId).length + jobs.countP (admittedFor ownerId) ≤
        (s.fontsOf ownerId).length + n := by
    rw [List.countP_eq_zero.mpr ?_]
    · exact Nat.le_add_right _ _
    · intro job hjob
      simp [admittedFor, h job hjob]
  cases job with
  | count ownerId' u draws =>
      rcases doJob_count faults i s ownerId' u draws with h | ⟨h, hroom⟩
      · rw [h]
        exact Or.inl (hnone nofun)
      · rw [h]
        by_cases howner : ownerId' = ownerId
        · exact Or.inr ⟨rfl, howner ▸ hroom⟩
        · left
          simp [admittedFor, counted, howner]
  | write ownerId' u draws =>
      left
      cases hwrite : fWriteFileAtomic s.files
          (fFontFilePath ownerId' (newRow ownerId' u draws).id u.ext) (fRandomHex draws.temp)
          u.body with
      | mk files returned =>
          have h : doJob faults i s (.write ownerId' u draws) = _ :=
            congrArg (afterWrite i s (newRow ownerId' u draws) u.body) hwrite
          rw [h]
          cases returned with
          | false => exact Nat.le_add_right _ _
          | true => exact Nat.le_refl _
  | look row =>
      left
      rcases doJob_look faults i s row with h | h | ⟨old, _, _, _, h⟩ <;> rw [h]
      · exact hnone nofun
      · exact Nat.le_refl _
      · exact Nat.le_refl _
  | unlink old next => exact Or.inl (Nat.le_refl _)
  | erase old next =>
      left
      rcases doJob_erase faults i s old next with h | h <;> rw [h]
      · exact hnone nofun
      · refine Nat.add_le_add (List.filter_sublist.filter _).length_le ?_
        cases next <;> exact Nat.le_refl _
  | insert row =>
      left
      rcases doJob_insert faults i s row with h | h <;> rw [h]
      · exact hnone nofun
      · dsimp only
        rw [fontsOf_append, List.length_append]
        by_cases howner : row.ownerId = ownerId <;>
          simp [admittedFor, counted, newOf, howner, FontStore.fontsOf]
  | load caller fontId deletes =>
      left
      rcases doJob_load faults i s caller fontId deletes with h | ⟨row, _, _, _, h⟩ <;> rw [h]
      · exact hnone nofun
      · refine hnone ?_
        intro job hjob
        cases List.mem_singleton.mp hjob
        cases deletes <;> rfl
  | select ownerId' =>
      left
      rcases doJob_select faults i s ownerId' with h | h <;> rw [h]
      · exact hnone nofun
      · refine hnone ?_
        intro job hjob
        obtain ⟨row, _, rfl⟩ := List.mem_map.mp hjob
        rfl
  | read row => exact Or.inl (Nat.le_add_right _ _)

/-! ## Runs -/

section Runs

variable {T : Nat} {p : Pool FontStore FontJob}

/-- **The limit under concurrency**: with at most `T` uploads at a time between
their count and their insertion, no account ever has more than `T - 1` fonts too
many. -/
theorem library_limited (hT : 0 < T) (h : library.Reachable (AtMost T) Started p) (ownerId : Str) :
    (p.state.fontsOf ownerId).length ≤ cMaxFontsPerAccount - 1 + T := by
  suffices hall : (p.state.fontsOf ownerId).length + p.jobs.countP (admittedFor ownerId) ≤
      cMaxFontsPerAccount - 1 + T by omega
  refine Machine.Reachable.invariant (I := fun p => (p.state.fontsOf ownerId).length +
    p.jobs.countP (admittedFor ownerId) ≤ cMaxFontsPerAccount - 1 + T) ?_ ?_ h
  · intro p ⟨hthreads, hlimit⟩
    have hjobs : p.jobs = [] := by
      unfold Pool.jobs
      rw [hthreads]
      rfl
    have hfew := hlimit ownerId
    rw [hjobs, List.countP_nil]
    omega
  · intro a p p' hp hallowed hstep
    have hflight := (countP_admittedFor_le ownerId p').trans (hallowed p' hstep)
    rcases Machine.step_cases hstep with
      ⟨visitor, s, jobs, rfl, henter, rfl⟩ |
      ⟨before, job, rest, after, faults, s, jobs, rfl, hthreads, hperform, rfl⟩
    · cases henter
      have hnew : (firstJobs visitor).countP (admittedFor ownerId) = 0 := by
        rw [List.countP_eq_zero]
        intro job hjob
        simp [admittedFor, counted_firstJobs hjob]
      rw [Machine.countP_enter, hnew]
      exact hp
    · cases hperform
      have hcount := Machine.countP_run (admittedFor ownerId) hthreads
        (doJob faults before.length p.state job).store
        (doJob faults before.length p.state job).jobs
      rcases doJob_room faults before.length p.state job ownerId with hkeeps | ⟨hstore, hroom⟩
      · dsimp only
        omega
      · rw [← hstore] at hroom
        dsimp only
        omega

end Runs

/-! ### Two uploads where there is room for one -/

/-- Ann has 29 fonts. -/
def shelf : FontStore :=
  ⟨(List.range 29).map (fun n => ⟨decimal n, str "ann", decimal n, [], str "font/ttf", 1, 0⟩),
    Tree.empty⟩

def annAdds (familyName : String) (n : UInt8) : Visitor :=
  .upload (some (str "ann")) (str familyName) (str "a.ttf") [n] (sameDraws n)

/-- Both count before either inserts. -/
def bothAdd : List (Action Visitor Faults) :=
  [.enter (annAdds "Lora" 1), .enter (annAdds "Inter" 2)] ++
    (List.replicate 4 [.run 0 noFaults, .run 1 noFaults]).flatten

def bothAdded : Pool FontStore FontJob :=
  (library.execAllowed (AtMost 2) bothAdd ⟨shelf, []⟩).getD ⟨shelf, []⟩

theorem started_shelf : Started ⟨shelf, []⟩ := by
  refine ⟨rfl, fun ownerId => ?_⟩
  have hall : shelf.rows.length ≤ cMaxFontsPerAccount := by decide
  exact (List.length_filter_le _ _).trans hall

/-- Both are inserted, and no more could have been. -/
theorem library_limited_bothAdded :
    (bothAdded.state.fontsOf (str "ann")).length = 31 ∧
      (bothAdded.state.fontsOf (str "ann")).length ≤ cMaxFontsPerAccount - 1 + 2 :=
  ⟨by decide +kernel, library_limited (by decide)
    (Machine.Reachable.execAllowed_getD (.start started_shelf)) (str "ann")⟩

end Lectern.Fonts
