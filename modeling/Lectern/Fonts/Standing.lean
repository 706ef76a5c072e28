import Lectern.Fonts.Interleaved

/-!
# What becomes of a font

A row may be without its file, while the thread that has removed the file has
still to delete the row.  It does, unless the statement throws: so an inserted
font is kept with what was uploaded for it, or about to be deleted, or gone
(`Standing`), and only requests of its account have a part in that.

One invariant carries it (`Whole`).  Rows still to be inserted have their files
and ids of their own, so that no removal is of their files; what a thread has
found of a row it knows from a row that was inserted.
-/

namespace Lectern.Fonts

open FileTree Threads

/-! ## What threads are about -/

/-- Thread `i` is an upload of this row with this content. -/
def Uploaded (seen : List Noted) (i : Nat) (row : FontRow) (body : Str) : Prop :=
  ∃ familyParam filename u draws,
    .asked i (.upload (some row.ownerId) familyParam filename body draws) ∈ seen ∧
      checkUpload familyParam filename body = .ok u ∧ row = newRow row.ownerId u draws

/-- The requests that may take a row away: a delete of it and an upload of its
family, both by its account. -/
def Removes (row : FontRow) : Visitor → Prop
  | .upload caller familyParam _ _ _ =>
      caller = some row.ownerId ∧ fTrim familyParam = row.familyName
  | .delete caller fontId => caller = some row.ownerId ∧ fontId = row.id
  | .read .. => False
  | .embed _ => False

/-- The requests that may read a font. -/
def Reads (row : FontRow) : Visitor → Prop
  | .read caller fontId => caller = some row.ownerId ∧ fontId = row.id
  | .embed ownerId => ownerId = row.ownerId
  | .upload .. => False
  | .delete .. => False

/-- Thread `i` may remove the row, which it has found. -/
def MayRemove (seen : List Noted) (i : Nat) (row : FontRow) : Prop :=
  (∃ j, .inserted j row ∈ seen) ∧ ∃ visitor, .asked i visitor ∈ seen ∧ Removes row visitor

def MayRead (seen : List Noted) (i : Nat) (row : FontRow) : Prop :=
  (∃ j, .inserted j row ∈ seen) ∧ ∃ visitor, .asked i visitor ∈ seen ∧ Reads row visitor

/-- Why an event happened. -/
def Explained (seen : List Noted) : Noted → Prop
  | .wrote i row body => Uploaded seen i row body
  | .erased i row => MayRemove seen i row
  | .read i row bytes => MayRead seen i row ∧ ∀ body ∈ bytes, ∃ j, .wrote j row body ∈ seen
  | .asked .. | .inserted .. | .spared _ => True

/-- The file of a row that is still to be inserted. -/
def Ready (seen : List Noted) (files : Disk) (i : Nat) (row : FontRow) : Prop :=
  ∃ body, .wrote i row body ∈ seen ∧ files.fileAt row.path = some body

/-- What is known of a step of thread `i`. -/
def Fact (seen : List Noted) (files : Disk) (i : Nat) : FontJob → Prop
  | .count ownerId u draws | .write ownerId u draws =>
      ∃ familyParam filename body,
        .asked i (.upload (some ownerId) familyParam filename body draws) ∈ seen ∧
          checkUpload familyParam filename body = .ok u
  | .look row | .insert row => Ready seen files i row
  | .unlink old next => MayRemove seen i old ∧ ∀ row ∈ next, Ready seen files i row
  | .erase old next =>
      MayRemove seen i old ∧ files.fileAt old.path = none ∧ ∀ row ∈ next, Ready seen files i row
  | .load caller fontId deletes =>
      .asked i (if deletes then .delete caller fontId else .read caller fontId) ∈ seen
  | .select ownerId => .asked i (.embed ownerId) ∈ seen
  | .read row => MayRead seen i row

/-- The row an upload is going to insert. -/
def newOf : FontJob → Option FontRow
  | .look row | .insert row => some row
  | .unlink _ next | .erase _ next => next
  | .count .. | .write .. | .load .. | .select _ | .read _ => none

/-- The row a thread deletes next, having removed its file. -/
def doomedOf : FontJob → Option FontRow
  | .erase old _ => some old
  | _ => none

/-- A thread is about to delete the row, or the statement has thrown. -/
def Doomed (p : Pool FontStore FontJob) (seen : List Noted) (row : FontRow) : Prop :=
  row ∈ p.held doomedOf ∨ .spared row ∈ seen

/-- What can have become of an inserted row. -/
inductive Standing (p : Pool FontStore FontJob) (seen : List Noted) (row : FontRow) (body : Str) :
    Prop
  | kept (hrow : row ∈ p.state.rows) (hfile : p.state.files.fileAt row.path = some body)
  | doomed (hrow : row ∈ p.state.rows) (hfile : p.state.files.fileAt row.path = none)
      (hdoomed : Doomed p seen row)
  | gone (hrow : row ∉ p.state.rows) (hfile : p.state.files.fileAt row.path = none)
      (herased : ∃ i, .erased i row ∈ seen)

/-! ### Ids -/

def wroteId : Noted → Option Str
  | .wrote _ row _ => some row.id
  | _ => none

/-- No two uploads draw the same id. -/
def Distinct (seen : List Noted) : Prop := (seen.filterMap wroteId).Nodup

section Events

variable {seen seen' : List Noted} {i j : Nat} {row row' : FontRow} {body body' : Str}

theorem Distinct.same (h : Distinct seen) (hwrote : .wrote i row body ∈ seen)
    (hwrote' : .wrote j row' body' ∈ seen) (hid : row.id = row'.id) :
    i = j ∧ row = row' ∧ body = body' := by
  have heq := eq_of_nodup_filterMap h hwrote hwrote' rfl (congrArg some hid.symm)
  cases heq
  exact ⟨rfl, rfl, rfl⟩

theorem Distinct.of_append {noted : List Noted} (h : Distinct (noted ++ seen)) : Distinct seen := by
  unfold Distinct at h
  rw [List.filterMap_append] at h
  exact h.of_append_right

theorem Uploaded.mono (h : Uploaded seen i row body) (hsub : seen ⊆ seen') :
    Uploaded seen' i row body := by
  obtain ⟨familyParam, filename, u, draws, hasked, hcheck, hrow⟩ := h
  exact ⟨familyParam, filename, u, draws, hsub hasked, hcheck, hrow⟩

theorem Uploaded.stored (h : Uploaded seen i row body) : Stored row := by
  obtain ⟨familyParam, filename, u, draws, _, hcheck, hrow⟩ := h
  rw [hrow]
  exact (checkUpload_ok hcheck).stored row.ownerId draws

theorem MayRemove.mono (h : MayRemove seen i row) (hsub : seen ⊆ seen') :
    MayRemove seen' i row := by
  obtain ⟨⟨j, hinserted⟩, visitor, hasked, hremoves⟩ := h
  exact ⟨⟨j, hsub hinserted⟩, visitor, hsub hasked, hremoves⟩

theorem MayRead.mono (h : MayRead seen i row) (hsub : seen ⊆ seen') : MayRead seen' i row := by
  obtain ⟨⟨j, hinserted⟩, visitor, hasked, hreads⟩ := h
  exact ⟨⟨j, hsub hinserted⟩, visitor, hsub hasked, hreads⟩

theorem Explained.mono {e : Noted} (h : Explained seen e) (hsub : seen ⊆ seen') :
    Explained seen' e := by
  cases e with
  | wrote i row body => exact Uploaded.mono h hsub
  | erased i row => exact MayRemove.mono h hsub
  | read i row bytes =>
      refine ⟨h.1.mono hsub, ?_⟩
      intro body hbody
      obtain ⟨j, hwrote⟩ := h.2 body hbody
      exact ⟨j, hsub hwrote⟩
  | asked | inserted | spared => trivial

/-- What is known stays known while the files it is about stay. -/
theorem Fact.mono {files files' : Disk} {job : FontJob} (h : Fact seen files i job)
    (hsub : seen ⊆ seen')
    (hnew : ∀ row ∈ newOf job, files'.fileAt row.path = files.fileAt row.path)
    (hgone : ∀ old ∈ doomedOf job, files.fileAt old.path = none → files'.fileAt old.path = none) :
    Fact seen' files' i job := by
  have hready {row : FontRow} (hrow : row ∈ newOf job) (h : Ready seen files i row) :
      Ready seen' files' i row := by
    obtain ⟨body, hwrote, hfile⟩ := h
    exact ⟨body, hsub hwrote, (hnew row hrow).trans hfile⟩
  cases job with
  | count ownerId u draws | write ownerId u draws =>
      obtain ⟨familyParam, filename, body, hasked, hcheck⟩ := h
      exact ⟨familyParam, filename, body, hsub hasked, hcheck⟩
  | look row | insert row => exact hready rfl h
  | unlink old next => exact ⟨h.1.mono hsub, fun row hrow => hready hrow (h.2 row hrow)⟩
  | erase old next =>
      exact ⟨h.1.mono hsub, hgone old rfl h.2.1, fun row hrow => hready hrow (h.2.2 row hrow)⟩
  | load caller fontId deletes => exact hsub h
  | select ownerId => exact hsub h
  | read row => exact MayRead.mono h hsub

end Events

/-! ## The invariant -/

/-- Rows that are to be inserted are apart from each other and from those that
were; and what becomes of the latter has a reason. -/
structure Whole (p : Pool FontStore FontJob) (seen : List Noted) : Prop where
  jobs : ForJobs (Fact seen p.state.files) p.threads
  apart : ((p.held newOf).map FontRow.id).Nodup
  unborn : ∀ row ∈ p.held newOf, ∀ i old, .inserted i old ∈ seen → old.id ≠ row.id
  rows : ∀ row ∈ p.state.rows, ∃ i, .inserted i row ∈ seen
  explained : ∀ e ∈ seen, Explained seen e
  standing : ∀ i row, .inserted i row ∈ seen →
    ∃ body, .wrote i row body ∈ seen ∧ Standing p seen row body
  flat : Flat p.state.files

section Steps

variable {p : Pool FontStore FontJob} {seen : List Noted}

theorem whole_unused (h : Unused p) : Whole p [] := by
  obtain ⟨hstate, hthreads⟩ := h
  have hheld : p.held newOf = [] := Pool.held_of_done (by simp [hthreads])
  refine ⟨?_, ?_, ?_, ?_, nofun, nofun, ?_⟩
  · rw [hthreads]
    exact forJobs_nil
  · rw [hheld]
    exact List.nodup_nil
  · rw [hheld]
    nofun
  · rw [hstate]
    nofun
  · rw [hstate]
    exact flat_empty

/-- A thread that has just been started holds nothing. -/
theorem firstJobs_holds (visitor : Visitor) :
    (firstJobs visitor).filterMap newOf = [] ∧ (firstJobs visitor).filterMap doomedOf = [] := by
  cases visitor with
  | upload caller familyParam filename body draws =>
      simp only [firstJobs]
      split <;> exact ⟨rfl, rfl⟩
  | delete caller fontId | read caller fontId => exact ⟨rfl, rfl⟩
  | embed ownerId => exact ⟨rfl, rfl⟩

/-- What is known of its first steps. -/
theorem fact_firstJobs {i : Nat} {visitor : Visitor} (hasked : .asked i visitor ∈ seen)
    (files : Disk) : ∀ job ∈ firstJobs visitor, Fact seen files i job := by
  intro job hjob
  cases visitor with
  | upload caller familyParam filename body draws =>
      cases caller with
      | none => cases hjob
      | some ownerId =>
          cases hcheck : checkUpload familyParam filename body with
          | error e => simp [firstJobs, fCurrentUser, hcheck] at hjob
          | ok u =>
              simp only [firstJobs, fCurrentUser, hcheck, List.mem_singleton] at hjob
              subst hjob
              exact ⟨familyParam, filename, body, hasked, hcheck⟩
  | delete caller fontId | read caller fontId =>
      cases List.mem_singleton.mp hjob
      exact hasked
  | embed ownerId =>
      cases List.mem_singleton.mp hjob
      exact hasked

theorem Standing.mono {p' : Pool FontStore FontJob} {seen' : List Noted} {row : FontRow}
    {body : Str} (h : Standing p seen row body)
    (hrows : row ∈ p'.state.rows ↔ row ∈ p.state.rows)
    (hfile : p'.state.files.fileAt row.path = p.state.files.fileAt row.path)
    (hdoomed : Doomed p seen row → Doomed p' seen' row) (hsub : seen ⊆ seen') :
    Standing p' seen' row body := by
  cases h with
  | kept hrow hbody => exact .kept (hrows.mpr hrow) (hfile.trans hbody)
  | doomed hrow hnone hdoom => exact .doomed (hrows.mpr hrow) (hfile.trans hnone) (hdoomed hdoom)
  | gone hrow hnone herased =>
      obtain ⟨i, herased⟩ := herased
      exact .gone (mt hrows.mp hrow) (hfile.trans hnone) ⟨i, hsub herased⟩

/-- A request comes in. -/
theorem Whole.enter (hp : Whole p seen) (visitor : Visitor) :
    Whole ⟨p.state, p.threads ++ [firstJobs visitor]⟩
      (.asked p.threads.length visitor :: seen) := by
  obtain ⟨hnew, hdoomed⟩ := firstJobs_holds visitor
  have hsub : seen ⊆ .asked p.threads.length visitor :: seen := List.subset_cons_self _ _
  have hheldNew := Machine.held_enter newOf p p.state (firstJobs visitor)
  have hheldDoomed := Machine.held_enter doomedOf p p.state (firstJobs visitor)
  rw [hnew] at hheldNew
  rw [hdoomed] at hheldDoomed
  have hold {e : Noted} (he : e ∈ .asked p.threads.length visitor :: seen)
      (hne : ∀ i v, e ≠ .asked i v) : e ∈ seen :=
    (List.mem_cons.mp he).resolve_left (hne _ _)
  constructor
  · refine hp.jobs.enter ?_ (fact_firstJobs List.mem_cons_self _)
    exact fun i job _ h => h.mono hsub (fun _ _ => rfl) (fun _ _ => id)
  · exact (hheldNew.map FontRow.id).nodup_iff.mpr hp.apart
  · intro row hrow i old hinserted
    exact hp.unborn row (hheldNew.subset hrow) i old (hold hinserted nofun)
  · intro row hrow
    obtain ⟨i, hinserted⟩ := hp.rows row hrow
    exact ⟨i, hsub hinserted⟩
  · intro e he
    rcases List.mem_cons.mp he with rfl | he
    · trivial
    · exact (hp.explained e he).mono hsub
  · intro i row hinserted
    obtain ⟨body, hwrote, hstanding⟩ := hp.standing i row (hold hinserted nofun)
    refine ⟨body, hsub hwrote, hstanding.mono Iff.rfl rfl ?_ hsub⟩
    exact Or.imp (fun hheld => hheldDoomed.symm.subset hheld) (fun hspared => hsub hspared)
  · exact hp.flat

section Perform

variable {before after : List (List FontJob)} {job : FontJob} {rest jobs : List FontJob}
  {noted : List Noted} {files : Disk}

/-- What is known of the jobs after a step. -/
theorem Whole.facts_run (hp : Whole p seen)
    (hthreads : p.threads = before ++ (job :: rest) :: after)
    (hnew : ∀ row ∈ p.held newOf, files.fileAt row.path = p.state.files.fileAt row.path)
    (hgone : ∀ old ∈ p.held doomedOf,
      p.state.files.fileAt old.path = none → files.fileAt old.path = none)
    (hfacts : ∀ job' ∈ jobs, Fact (noted ++ seen) files before.length job') :
    ForJobs (Fact (noted ++ seen) files) (before ++ (jobs ++ rest) :: after) := by
  refine hp.jobs.withMem.run hthreads ?_ hfacts
  intro i job' ⟨hjob, hfact⟩
  refine hfact.mono (List.subset_append_right noted seen) ?_ ?_
  · exact fun row hrow => hnew row (Pool.mem_held.mpr ⟨job', hjob, hrow⟩)
  · exact fun old hold => hgone old (Pool.mem_held.mpr ⟨job', hjob, hold⟩)

/-- No rows are to be inserted that were not before. -/
theorem Whole.apart_keeps (hp : Whole p seen)
    (hthreads : p.threads = before ++ (job :: rest) :: after)
    (hnew : (jobs.filterMap newOf).Sublist (newOf job).toList) (s : FontStore) :
    (((Pool.mk s (before ++ (jobs ++ rest) :: after)).held newOf).map FontRow.id).Nodup := by
  obtain ⟨l, hperm, hsub⟩ := Machine.held_subperm hthreads hnew s
  exact (hperm.map FontRow.id).nodup_iff.mp (hp.apart.sublist (hsub.map FontRow.id))

/-- A doomed row stays so, unless it is its thread's turn. -/
theorem Doomed.run (hthreads : p.threads = before ++ (job :: rest) :: after) (s : FontStore)
    (jobs : List FontJob) {row : FontRow} (h : Doomed p seen row) :
    Doomed ⟨s, before ++ (jobs ++ rest) :: after⟩ (noted ++ seen) row ∨
      doomedOf job = some row := by
  rcases h with hheld | hspared
  · obtain ⟨others, hwas, his⟩ := Machine.held_run doomedOf hthreads s jobs
    rcases List.mem_append.mp (hwas.subset hheld) with hjob | hother
    · exact Or.inr (by simpa using hjob)
    · exact Or.inl (Or.inl (his.symm.subset (List.mem_append_right _ hother)))
  · exact Or.inl (Or.inr (List.mem_append_right _ hspared))

theorem Whole.explained_run (hp : Whole p seen) (hnoted : ∀ e ∈ noted, Explained seen e) :
    ∀ e ∈ noted ++ seen, Explained (noted ++ seen) e := by
  intro e he
  rcases List.mem_append.mp he with hnew | hold
  · exact (hnoted e hnew).mono (List.subset_append_right noted seen)
  · exact (hp.explained e hold).mono (List.subset_append_right noted seen)

/-- A step that changes neither rows nor files. -/
theorem Whole.quiet (hp : Whole p seen) (hthreads : p.threads = before ++ (job :: rest) :: after)
    (hnew : (jobs.filterMap newOf).Sublist (newOf job).toList)
    (hfacts : ∀ job' ∈ jobs, Fact (noted ++ seen) p.state.files before.length job')
    (hspared : ∀ old ∈ doomedOf job, .spared old ∈ noted)
    (hnoted : ∀ e ∈ noted, Explained seen e) (hnone : ∀ i row, .inserted i row ∉ noted) :
    Whole ⟨p.state, before ++ (jobs ++ rest) :: after⟩ (noted ++ seen) := by
  have hsub : seen ⊆ noted ++ seen := List.subset_append_right noted seen
  have hold {i : Nat} {row : FontRow} (h : .inserted i row ∈ noted ++ seen) :
      .inserted i row ∈ seen := (List.mem_append.mp h).resolve_left (hnone i row)
  refine ⟨hp.facts_run hthreads (fun _ _ => rfl) (fun _ _ => id) hfacts,
    hp.apart_keeps hthreads hnew p.state, ?_, ?_, hp.explained_run hnoted, ?_, hp.flat⟩
  · intro row hrow i old hinserted
    have hbefore := (Machine.held_subperm hthreads hnew p.state).subset hrow
    exact hp.unborn row hbefore i old (hold hinserted)
  · intro row hrow
    obtain ⟨i, hinserted⟩ := hp.rows row hrow
    exact ⟨i, hsub hinserted⟩
  · intro i row hinserted
    obtain ⟨body, hwrote, hstanding⟩ := hp.standing i row (hold hinserted)
    refine ⟨body, hsub hwrote, hstanding.mono Iff.rfl rfl ?_ hsub⟩
    intro hdoomed
    rcases hdoomed.run hthreads p.state jobs with hdoomed | hturn
    · exact hdoomed
    · exact Or.inr (List.mem_append_left _ (hspared row hturn))

/-! ### Steps that change the library -/

theorem Fact.ready {i : Nat} {row : FontRow} (h : Fact seen files i job)
    (hrow : newOf job = some row) : Ready seen files i row := by
  cases job with
  | look | insert =>
      cases hrow
      exact h
  | unlink old next => exact h.2 row hrow
  | erase old next => exact h.2.2 row hrow
  | count | write | load | select | read => cases hrow

/-- A row that is to be inserted has its file. -/
theorem Whole.ready (hp : Whole p seen) {row : FontRow} (hrow : row ∈ p.held newOf) :
    ∃ i, Ready seen p.state.files i row := by
  obtain ⟨job, hjob, hnew⟩ := Pool.mem_held.mp hrow
  obtain ⟨i, hfact⟩ := hp.jobs.of_mem hjob
  exact ⟨i, hfact.ready hnew⟩

/-- A row that is about to be deleted was inserted. -/
theorem Whole.doomed (hp : Whole p seen) {old : FontRow} (hold : old ∈ p.held doomedOf) :
    ∃ i, .inserted i old ∈ seen := by
  obtain ⟨job, hjob, hdoomed⟩ := Pool.mem_held.mp hold
  obtain ⟨i, hfact⟩ := hp.jobs.of_mem hjob
  cases job with
  | erase old' next =>
      cases hdoomed
      exact hfact.1.1
  | count | write | look | unlink | insert | load | select | read => cases hdoomed

theorem Whole.wrote (hp : Whole p seen) {i : Nat} {row : FontRow}
    (hinserted : .inserted i row ∈ seen) : ∃ body, .wrote i row body ∈ seen := by
  obtain ⟨body, hwrote, _⟩ := hp.standing i row hinserted
  exact ⟨body, hwrote⟩

theorem Whole.stored (hp : Whole p seen) {i : Nat} {row : FontRow} {body : Str}
    (hwrote : .wrote i row body ∈ seen) : Stored row :=
  Uploaded.stored (hp.explained _ hwrote)

/-- Inserted rows with the same id are the same. -/
theorem Whole.same_id (hp : Whole p seen) (hdistinct : Distinct seen) {i j : Nat}
    {row row' : FontRow} (hinserted : .inserted i row ∈ seen) (hinserted' : .inserted j row' ∈ seen)
    (hid : row.id = row'.id) : row = row' := by
  obtain ⟨body, hwrote⟩ := hp.wrote hinserted
  obtain ⟨body', hwrote'⟩ := hp.wrote hinserted'
  exact (hdistinct.same hwrote hwrote' hid).2.1

/-- An upload writes its file. -/
theorem Whole.write (hp : Whole p seen) {ownerId : Str} {u : Upload} {draws : Draws} {row : FontRow}
    (hthreads : p.threads = before ++ (.write ownerId u draws :: rest) :: after)
    (hrow : row = newRow ownerId u draws)
    (hdistinct : Distinct (.wrote before.length row u.body :: seen))
    (hwrite : fWriteFileAtomic p.state.files (fFontFilePath ownerId row.id u.ext)
      (fRandomHex draws.temp) u.body = (files, true)) :
    Whole ⟨{ p.state with files := files }, before ++ ([.look row] ++ rest) :: after⟩
      ([.wrote before.length row u.body] ++ seen) := by
  obtain ⟨familyParam, filename, body, hasked, hcheck⟩ := hp.jobs.head hthreads
  have hchecked := checkUpload_ok hcheck
  have hstored : Stored row := hrow ▸ hchecked.stored ownerId draws
  have howner : row.ownerId = ownerId := hrow ▸ rfl
  have hflat := hp.flat.write hwrite
  rw [show fFontFilePath ownerId row.id u.ext = row.path from hrow ▸ hchecked.path ownerId draws]
    at hwrite
  have hnew : row.id ∉ seen.filterMap wroteId := (List.nodup_cons.mp hdistinct).1
  have hapart {i : Nat} {r : FontRow} {b : Str} (h : .wrote i r b ∈ seen) : r.id ≠ row.id :=
    fun hid => hnew (List.mem_filterMap.mpr ⟨.wrote i r b, h, congrArg some hid⟩)
  have hfile {i : Nat} {r : FontRow} {b : Str} (h : .wrote i r b ∈ seen) :
      files.fileAt r.path = p.state.files.fileAt r.path := by
    rw [fileAt_written hstored hwrite (hp.stored h), if_neg]
    exact fun hpath => hapart h ((hp.stored h).id_of_path hstored hpath)
  have hself : files.fileAt row.path = some u.body := by
    rw [fileAt_written hstored hwrite hstored, if_pos rfl]
  have hsub : seen ⊆ [.wrote before.length row u.body] ++ seen := List.subset_append_right _ seen
  have hold {i : Nat} {r : FontRow}
      (h : .inserted i r ∈ [.wrote before.length row u.body] ++ seen) :
      .inserted i r ∈ seen := (List.mem_append.mp h).resolve_left (by simp)
  obtain ⟨others, hwas, his⟩ := Machine.held_run newOf hthreads { p.state with files := files }
    [.look row]
  have hothers {r : FontRow} (h : r ∈ others) : r ∈ p.held newOf :=
    hwas.symm.subset (List.mem_append_right _ h)
  refine ⟨hp.facts_run hthreads ?_ ?_ ?_, ?_, ?_, ?_, hp.explained_run ?_, ?_, hflat⟩
  · intro r hr
    obtain ⟨i, b, hwrote, _⟩ := hp.ready hr
    exact hfile hwrote
  · intro old hdoomed hnone
    obtain ⟨i, hinserted⟩ := hp.doomed hdoomed
    obtain ⟨b, hwrote⟩ := hp.wrote hinserted
    exact (hfile hwrote).trans hnone
  · intro job' hjob
    cases List.mem_singleton.mp hjob
    exact ⟨u.body, List.mem_cons_self, hself⟩
  · refine (his.map FontRow.id).nodup_iff.mpr ?_
    refine List.nodup_cons.mpr ⟨?_, ?_⟩
    · intro hmem
      obtain ⟨r, hr, hid⟩ := List.mem_map.mp hmem
      obtain ⟨i, b, hwrote, _⟩ := hp.ready (hothers hr)
      exact hapart hwrote hid
    · exact (hwas.map FontRow.id).nodup_iff.mp hp.apart
  · intro r hr i old hinserted
    rcases List.mem_append.mp (his.subset hr) with hnow | hother
    · cases List.mem_singleton.mp hnow
      obtain ⟨b, hwrote⟩ := hp.wrote (hold hinserted)
      exact hapart hwrote
    · exact hp.unborn r (hothers hother) i old (hold hinserted)
  · intro r hr
    obtain ⟨i, hinserted⟩ := hp.rows r hr
    exact ⟨i, hsub hinserted⟩
  · intro e he
    cases List.mem_singleton.mp he
    rw [← howner] at hasked hrow
    exact ⟨familyParam, filename, u, draws, hchecked.body ▸ hasked, hchecked.body ▸ hcheck, hrow⟩
  · intro i r hinserted
    obtain ⟨b, hwrote, hstanding⟩ := hp.standing i r (hold hinserted)
    refine ⟨b, hsub hwrote, hstanding.mono Iff.rfl (hfile hwrote) ?_ hsub⟩
    exact fun hdoomed => (hdoomed.run hthreads _ _).resolve_right nofun

/-- A file is removed: the row that points to it is doomed. -/
theorem Whole.unlink (hp : Whole p seen) (hdistinct : Distinct seen) {old : FontRow}
    {next : Option FontRow} (hthreads : p.threads = before ++ (.unlink old next :: rest) :: after)
    (hfiles : files = (p.state.files.remove old.path).getD p.state.files) :
    Whole ⟨{ p.state with files := files }, before ++ ([.erase old next] ++ rest) :: after⟩
      ([] ++ seen) := by
  obtain ⟨hmay, hready⟩ := hp.jobs.head hthreads
  obtain ⟨k, hold⟩ := hmay.1
  obtain ⟨b, hwroteOld⟩ := hp.wrote hold
  have hat (r : FontRow) :
      files.fileAt r.path = if r.path = old.path then none else p.state.files.fileAt r.path := by
    rw [hfiles]
    exact Tree.fileAt_remove_getD p.state.files old.path_ne_nil r.path
  -- A row that is to be inserted has an id no inserted row has, so its file stays.
  have hkeep {r : FontRow} (hr : r ∈ p.held newOf) :
      files.fileAt r.path = p.state.files.fileAt r.path := by
    obtain ⟨i, c, hwrote, _⟩ := hp.ready hr
    rw [hat, if_neg]
    exact fun hpath => hp.unborn r hr k old hold
      ((hp.stored hwroteOld).id_of_path (hp.stored hwrote) hpath.symm)
  have hnew : ([FontJob.erase old next].filterMap newOf).Sublist next.toList := by
    cases next <;> exact List.Sublist.refl _
  have hheld : old ∈ (Pool.mk { p.state with files := files }
      (before ++ ([.erase old next] ++ rest) :: after)).held doomedOf := by
    obtain ⟨others, _, his⟩ := Machine.held_run doomedOf hthreads { p.state with files := files }
      [.erase old next]
    exact his.symm.subset List.mem_cons_self
  refine ⟨hp.facts_run hthreads (fun r hr => hkeep hr) ?_ ?_,
    hp.apart_keeps hthreads hnew _, ?_, hp.rows, hp.explained, ?_, ?_⟩
  · intro r _ hnone
    rw [hat, hnone, ite_self]
  · intro job' hjob
    cases List.mem_singleton.mp hjob
    refine ⟨hmay, by rw [hat, if_pos rfl], ?_⟩
    intro row hrow
    obtain ⟨c, hwrote, hfile⟩ := hready row hrow
    refine ⟨c, hwrote, (hkeep ?_).trans hfile⟩
    exact Pool.mem_held.mpr ⟨_, Machine.mem_head hthreads, hrow⟩
  · exact fun row hrow => hp.unborn row ((Machine.held_subperm hthreads hnew _).subset hrow)
  · intro i r hinserted
    obtain ⟨c, hwrote, hstanding⟩ := hp.standing i r hinserted
    refine ⟨c, hwrote, ?_⟩
    -- Only the row that was found points to the file.
    by_cases hpath : r.path = old.path
    · have hid := (hp.stored hwrote).id_of_path (hp.stored hwroteOld) hpath
      have hsame := hp.same_id hdistinct hinserted hold hid
      subst hsame
      have hnone : files.fileAt r.path = none := by rw [hat, if_pos rfl]
      cases hstanding with
      | kept hrow | doomed hrow => exact .doomed hrow hnone (Or.inl hheld)
      | gone hrow _ herased => exact .gone hrow hnone herased
    · refine hstanding.mono Iff.rfl (by rw [hat, if_neg hpath]) ?_ (List.Subset.refl seen)
      exact fun hdoomed => (hdoomed.run hthreads _ _).resolve_right nofun
  · rw [hfiles]
    exact hp.flat.remove old.path

/-- A row is deleted. -/
theorem Whole.erase (hp : Whole p seen) (hdistinct : Distinct seen) {old : FontRow}
    {next : Option FontRow} (hthreads : p.threads = before ++ (.erase old next :: rest) :: after) :
    Whole ⟨{ p.state with rows := p.state.rows.filter (fun row => row.id ≠ old.id) },
        before ++ ((next.map FontJob.insert).toList ++ rest) :: after⟩
      ([.erased before.length old] ++ seen) := by
  obtain ⟨hmay, hnone, hready⟩ := hp.jobs.head hthreads
  obtain ⟨k, hinsertedOld⟩ := hmay.1
  have hsub : seen ⊆ [.erased before.length old] ++ seen := List.subset_append_right _ seen
  have hearlier {i : Nat} {r : FontRow} (h : .inserted i r ∈ [.erased before.length old] ++ seen) :
      .inserted i r ∈ seen := (List.mem_append.mp h).resolve_left (by simp)
  have hnew : ((next.map FontJob.insert).toList.filterMap newOf).Sublist
      (newOf (.erase old next)).toList := by
    cases next <;> exact List.Sublist.refl _
  refine ⟨hp.facts_run hthreads (fun _ _ => rfl) (fun _ _ => id) ?_,
    hp.apart_keeps hthreads hnew _, ?_, ?_, hp.explained_run ?_, ?_, hp.flat⟩
  · intro job' hjob
    cases next with
    | none => cases hjob
    | some row =>
        cases List.mem_singleton.mp hjob
        obtain ⟨c, hwrote, hfile⟩ := hready row rfl
        exact ⟨c, hsub hwrote, hfile⟩
  · intro row hrow i r hinserted
    have hbefore := (Machine.held_subperm hthreads hnew _).subset hrow
    exact hp.unborn row hbefore i r (hearlier hinserted)
  · intro row hrow
    obtain ⟨i, hinserted⟩ := hp.rows row (List.mem_of_mem_filter hrow)
    exact ⟨i, hsub hinserted⟩
  · intro e he
    cases List.mem_singleton.mp he
    exact hmay
  · intro i r hinserted
    obtain ⟨c, hwrote, hstanding⟩ := hp.standing i r (hearlier hinserted)
    refine ⟨c, hsub hwrote, ?_⟩
    by_cases hid : r.id = old.id
    · have hsame := hp.same_id hdistinct (hearlier hinserted) hinsertedOld hid
      subst hsame
      -- Its file was removed by this thread's last step.
      refine .gone ?_ hnone ⟨before.length, List.mem_cons_self⟩
      intro hrow
      simpa using (List.mem_filter.mp hrow).2
    · refine hstanding.mono ?_ rfl ?_ hsub
      · show r ∈ p.state.rows.filter _ ↔ _
        rw [List.mem_filter]
        exact and_iff_left (by simpa using hid)
      · intro hdoomed
        refine (hdoomed.run hthreads _ _).resolve_right ?_
        intro hturn
        cases hturn
        exact hid rfl

/-- An upload inserts its row. -/
theorem Whole.insert (hp : Whole p seen) {row : FontRow}
    (hthreads : p.threads = before ++ (.insert row :: rest) :: after) :
    Whole ⟨{ p.state with rows := p.state.rows ++ [row] }, before ++ ([] ++ rest) :: after⟩
      ([.inserted before.length row] ++ seen) := by
  obtain ⟨body, hwrote, hfile⟩ := hp.jobs.head hthreads
  have hsub : seen ⊆ [.inserted before.length row] ++ seen := List.subset_append_right _ seen
  have hcases {i : Nat} {r : FontRow}
      (h : .inserted i r ∈ [.inserted before.length row] ++ seen) :
      i = before.length ∧ r = row ∨ .inserted i r ∈ seen :=
    (List.mem_append.mp h).imp_left (by simp)
  have hmine : row ∈ p.held newOf := Pool.mem_held.mpr ⟨_, Machine.mem_head hthreads, rfl⟩
  have hnew : (([] : List FontJob).filterMap newOf).Sublist (newOf (.insert row)).toList :=
    List.nil_sublist _
  obtain ⟨others, hwas, his⟩ := Machine.held_run newOf hthreads
    { p.state with rows := p.state.rows ++ [row] } []
  have hapart := (hwas.map FontRow.id).nodup_iff.mp hp.apart
  refine ⟨hp.facts_run hthreads (fun _ _ => rfl) (fun _ _ => id) nofun,
    hp.apart_keeps hthreads hnew _, ?_, ?_, hp.explained_run ?_, ?_, hp.flat⟩
  · intro r hr i old hinserted
    rcases hcases hinserted with ⟨_, rfl⟩ | hinserted
    · intro hid
      refine (List.nodup_cons.mp hapart).1 (List.mem_map.mpr ⟨r, his.subset hr, hid.symm⟩)
    · exact hp.unborn r ((Machine.held_subperm hthreads hnew _).subset hr) i old hinserted
  · intro r hr
    rcases List.mem_append.mp hr with hbefore | hnow
    · obtain ⟨i, hinserted⟩ := hp.rows r hbefore
      exact ⟨i, hsub hinserted⟩
    · cases List.mem_singleton.mp hnow
      exact ⟨before.length, List.mem_cons_self⟩
  · intro e he
    cases List.mem_singleton.mp he
    trivial
  · intro i r hinserted
    rcases hcases hinserted with ⟨rfl, rfl⟩ | hinserted
    · exact ⟨body, hsub hwrote, .kept (List.mem_append_right _ List.mem_cons_self) hfile⟩
    · obtain ⟨c, hwroteR, hstanding⟩ := hp.standing i r hinserted
      refine ⟨c, hsub hwroteR, hstanding.mono ?_ rfl ?_ hsub⟩
      · have hne : r ≠ row := fun heq => hp.unborn row hmine i r hinserted (by rw [heq])
        show r ∈ p.state.rows ++ [row] ↔ _
        simp [hne]
      · exact fun hdoomed => (hdoomed.run hthreads _ _).resolve_right nofun

/-- Where the rows are files, reading one yields its content. -/
theorem fReadFile_flat (h : Flat files) (row : FontRow) :
    fReadFile files row.path = files.fileAt row.path := by
  unfold fReadFile Tree.fileAt
  cases hentry : files.entryAt row.path with
  | none => rfl
  | some entry =>
      cases entry with
      | file content => rfl
      | dir => exact absurd hentry (h.fonts _ _)

/-- A step that ends its thread, having changed nothing and noted nothing. -/
theorem Whole.gives_up (hp : Whole p seen)
    (hthreads : p.threads = before ++ (job :: rest) :: after) (hjob : doomedOf job = none) :
    Whole ⟨p.state, before ++ ([] ++ rest) :: after⟩ ([] ++ seen) :=
  hp.quiet hthreads (List.nil_sublist _) nofun (by rw [hjob]; nofun) nofun nofun

/-- A step that goes on with another, having changed nothing and noted nothing. -/
theorem Whole.goes_on (hp : Whole p seen)
    (hthreads : p.threads = before ++ (job :: rest) :: after) (hjob : doomedOf job = none)
    {job' : FontJob} (hnew : (newOf job').toList.Sublist (newOf job).toList)
    (hfact : Fact seen p.state.files before.length job') :
    Whole ⟨p.state, before ++ ([job'] ++ rest) :: after⟩ ([] ++ seen) := by
  refine hp.quiet hthreads ?_ ?_ (by rw [hjob]; nofun) nofun nofun
  · cases hnext : newOf job' with
    | none => simp [hnext]
    | some row =>
        rw [hnext] at hnew
        simpa [hnext] using hnew
  · intro other hother
    cases List.mem_singleton.mp hother
    exact hfact

/-- One step. -/
theorem Whole.perform (hp : Whole p seen) (faults : Faults)
    (hthreads : p.threads = before ++ (job :: rest) :: after)
    (hdistinct : Distinct ((doJob faults before.length p.state job).noted ++ seen)) :
    Whole ⟨(doJob faults before.length p.state job).store,
        before ++ ((doJob faults before.length p.state job).jobs ++ rest) :: after⟩
      ((doJob faults before.length p.state job).noted ++ seen) := by
  have hfact := hp.jobs.head hthreads
  cases job with
  | count ownerId u draws =>
      rcases doJob_count faults before.length p.state ownerId u draws with h | ⟨h, _⟩
      · rw [h]
        exact hp.gives_up hthreads rfl
      · rw [h]
        exact hp.goes_on hthreads rfl (List.nil_sublist _) hfact
  | write ownerId u draws =>
      obtain ⟨files, hwrite, h⟩ := doJob_write faults before.length hp.flat ownerId u draws
      rw [h] at hdistinct ⊢
      exact hp.write hthreads rfl hdistinct hwrite
  | look row =>
      rcases doJob_look faults before.length p.state row with
        h | h | ⟨old, hold, howner, hfamily, h⟩
      · rw [h]
        exact hp.gives_up hthreads rfl
      · rw [h]
        exact hp.goes_on hthreads rfl (List.Sublist.refl _) hfact
      · obtain ⟨body, hwrote, hfile⟩ := hfact
        obtain ⟨familyParam, filename, u, draws, hasked, hcheck, hrow⟩ := hp.explained _ hwrote
        have hname : fTrim familyParam = row.familyName := by
          rw [hrow]
          exact (checkUpload_ok hcheck).name.symm
        rw [h]
        refine hp.goes_on hthreads rfl (List.Sublist.refl _)
          ⟨⟨hp.rows old hold, _, hasked, ?_⟩, ?_⟩
        · exact ⟨congrArg some howner.symm, hname.trans hfamily.symm⟩
        · rintro r ⟨⟩
          exact ⟨body, hwrote, hfile⟩
  | unlink old next => exact hp.unlink hdistinct.of_append hthreads rfl
  | erase old next =>
      rcases doJob_erase faults before.length p.state old next with h | h
      · rw [h]
        refine hp.quiet hthreads (List.nil_sublist _) nofun ?_ ?_ ?_
        · rintro r ⟨⟩
          exact List.mem_singleton_self _
        · intro e he
          cases List.mem_singleton.mp he
          trivial
        · simp
      · rw [h]
        exact hp.erase hdistinct.of_append hthreads
  | insert row =>
      rcases doJob_insert faults before.length p.state row with h | h
      · rw [h]
        exact hp.gives_up hthreads rfl
      · rw [h]
        exact hp.insert hthreads
  | load caller fontId deletes =>
      rcases doJob_load faults before.length p.state caller fontId deletes with
        h | ⟨row, hmem, hid, hcaller, h⟩
      · rw [h]
        exact hp.gives_up hthreads rfl
      · have hasked : .asked before.length
          (if deletes then .delete caller fontId else .read caller fontId) ∈ seen := hfact
        rw [h]
        cases deletes with
        | true =>
            exact hp.goes_on hthreads rfl (List.nil_sublist _)
              ⟨⟨hp.rows row hmem, _, hasked, hcaller, hid.symm⟩, nofun⟩
        | false =>
            exact hp.goes_on hthreads rfl (List.nil_sublist _)
              ⟨hp.rows row hmem, _, hasked, hcaller, hid.symm⟩
  | select ownerId =>
      rcases doJob_select faults before.length p.state ownerId with h | h
      · rw [h]
        exact hp.gives_up hthreads rfl
      · have hnone : ((p.state.fontsOf ownerId).map FontJob.read).filterMap newOf = [] := by
          rw [List.filterMap_map]
          exact List.filterMap_eq_nil_iff.mpr (fun _ _ => rfl)
        rw [h]
        refine hp.quiet hthreads (hnone ▸ List.nil_sublist _) ?_ nofun nofun nofun
        intro job' hjob
        obtain ⟨row, hrow, rfl⟩ := List.mem_map.mp hjob
        obtain ⟨hmem, howner⟩ := mem_fontsOf.mp hrow
        exact ⟨hp.rows row hmem, _, hfact, howner.symm⟩
  | read row =>
      refine hp.quiet hthreads (List.nil_sublist _) nofun nofun ?_ (by simp [doJob])
      intro e he
      cases List.mem_singleton.mp he
      refine ⟨hfact, ?_⟩
      intro body hbody
      obtain ⟨i, hinserted⟩ := hfact.1
      obtain ⟨c, hwrote, hstanding⟩ := hp.standing i row hinserted
      rw [fReadFile_flat hp.flat] at hbody
      cases hstanding with
      | kept _ hfile =>
          rw [hfile] at hbody
          cases hbody
          exact ⟨i, hwrote⟩
      | doomed _ hfile | gone _ hfile =>
          rw [hfile] at hbody
          cases hbody

end Perform

/-- **Along every run** in which no id is drawn twice. -/
theorem whole (h : library.Observed note (fun _ _ => True) Unused p seen) :
    Distinct seen → Whole p seen := by
  refine Machine.Observed.invariant (I := fun p seen => Distinct seen → Whole p seen)
    (fun p hp _ => whole_unused hp) ?_ h
  intro a p p' seen _ hp _ hstep hdistinct
  have hbefore := hp hdistinct.of_append
  rcases Machine.step_cases hstep with
    ⟨visitor, s, jobs, rfl, henter, rfl⟩ |
    ⟨before, job, rest, after, faults, s, jobs, rfl, hthreads, hperform, rfl⟩
  · cases henter
    exact hbefore.enter visitor
  · have hthread : p.threads[before.length]? = some (job :: rest) := by
      rw [hthreads]
      exact Machine.thread_self before after (job :: rest)
    have hnote : note (.run before.length faults) p =
        (doJob faults before.length p.state job).noted := by
      simp only [note, hthread]
    rw [hnote] at hdistinct ⊢
    cases hperform
    exact hbefore.perform faults hthreads hdistinct

end Steps

/-- **What becomes of a font**, whatever the order of the steps and whichever
statements throw: every row was inserted by the upload of its account that it
comes from, and is kept with the content that was uploaded, or is about to be
deleted, or is gone; only a delete of it or an upload of its family by its
account deletes it; and whoever reads it is of the account and gets what was
uploaded.  So when every thread is through and no deletion has thrown, all rows
have their files. -/
theorem library_whole {p : Pool FontStore FontJob} {seen : List Noted}
    (h : library.Observed note (fun _ _ => True) Unused p seen) (hdistinct : Distinct seen) :
    (∀ row ∈ p.state.rows, ∃ i, .inserted i row ∈ seen) ∧
    (∀ i row, .inserted i row ∈ seen →
      ∃ body, Uploaded seen i row body ∧ Standing p seen row body) ∧
    (∀ i row, .erased i row ∈ seen → ∃ visitor, .asked i visitor ∈ seen ∧ Removes row visitor) ∧
    (∀ i row body, .read i row (some body) ∈ seen →
      (∃ visitor, .asked i visitor ∈ seen ∧ Reads row visitor) ∧
        ∃ j, .inserted j row ∈ seen ∧ Uploaded seen j row body) ∧
    ((∀ t ∈ p.threads, t = []) → (∀ row, .spared row ∉ seen) → ∀ row ∈ p.state.rows,
      ∃ i body, Uploaded seen i row body ∧ p.state.files.fileAt row.path = some body) := by
  have hp := whole h hdistinct
  have huploaded {i : Nat} {row : FontRow} {body : Str} (hwrote : .wrote i row body ∈ seen) :
      Uploaded seen i row body := hp.explained (.wrote i row body) hwrote
  refine ⟨hp.rows, ?_, fun i row herased => (hp.explained _ herased).2, ?_, ?_⟩
  · intro i row hinserted
    obtain ⟨body, hwrote, hstanding⟩ := hp.standing i row hinserted
    exact ⟨body, huploaded hwrote, hstanding⟩
  · intro i row body hread
    obtain ⟨⟨⟨j, hinserted⟩, hvisitor⟩, hbytes⟩ := hp.explained _ hread
    obtain ⟨k, hwrote⟩ := hbytes body rfl
    obtain ⟨body', hwrote', _⟩ := hp.standing j row hinserted
    obtain ⟨rfl, _, rfl⟩ := hdistinct.same hwrote hwrote' rfl
    exact ⟨hvisitor, k, hinserted, huploaded hwrote⟩
  · intro hdone hspared row hrow
    obtain ⟨i, hinserted⟩ := hp.rows row hrow
    obtain ⟨body, hwrote, hstanding⟩ := hp.standing i row hinserted
    cases hstanding with
    | kept _ hfile => exact ⟨i, body, huploaded hwrote, hfile⟩
    | doomed _ _ hdoomed =>
        rcases hdoomed with hheld | hthrew
        · rw [Pool.held_of_done hdone] at hheld
          cases hheld
        · exact absurd hthrew (hspared row)
    | gone hgone => exact absurd hrow hgone

/-! ### Two replacements of one font -/

def annUploads (n : UInt8) : Visitor :=
  .upload (some (str "ann")) (str "Lora") (str "lora.ttf") [n] (sameDraws n)

/-- Both find the font that is there, and both go on to replace it. -/
def bothReplace : List (Action Visitor Faults) :=
  .enter (annUploads 1) :: List.replicate 4 (.run 0 noFaults) ++
    [.enter (annUploads 2), .enter (annUploads 3)] ++
    (List.replicate 6 [.run 1 noFaults, .run 2 noFaults]).flatten

def bothReplaced : Pool FontStore FontJob × List Noted :=
  (library.execSeen note (fun _ _ => True) bothReplace ⟨.empty, []⟩ []).getD (⟨.empty, []⟩, [])

theorem observed_bothReplaced :
    library.Observed note (fun _ _ => True) Unused bothReplaced.1 bothReplaced.2 :=
  Machine.Observed.execSeen_getD (.start ⟨rfl, rfl⟩)

/-- The first of the two to insert its row stays; the other one is refused. -/
theorem library_whole_bothReplaced :
    bothReplaced.1.state.rows.map FontRow.id = [fUuidV4 (Vector.replicate 16 2)] ∧
      ∀ row ∈ bothReplaced.1.state.rows, ∃ i body, Uploaded bothReplaced.2 i row body ∧
        bothReplaced.1.state.files.fileAt row.path = some body := by
  have hthreads : bothReplaced.1.threads.all List.isEmpty = true := by decide +kernel
  have hspared : bothReplaced.2.all (fun e =>
      match e with
      | .spared _ => false
      | _ => true) = true := by decide +kernel
  have hdistinct : Distinct bothReplaced.2 := by
    unfold Distinct
    decide +kernel
  refine ⟨by decide +kernel, (library_whole observed_bothReplaced hdistinct).2.2.2.2 ?_ ?_⟩
  · intro t ht
    exact List.isEmpty_iff.mp (List.all_eq_true.mp hthreads t ht)
  · intro row hrow
    cases List.all_eq_true.mp hspared _ hrow

end Lectern.Fonts
