import Lectern.Basic
import Lectern.Sql.Transaction
import Mathlib.Data.List.Nodup
import Mathlib.Data.List.Sort

/-!
# Migrations

`fRunMigrations` applies the scripts of a directory that the ledger
`_migrations` does not name yet, each in a transaction together with its ledger
row.  A run is cut into its single operations, each of which may fail; a run
that is cut short by a crash is one that has made fewer steps.

What SQLite makes of a script is a parameter.
-/

namespace Lectern.Migrations

open Sql

structure LedgerRow where
  name : Str
  appliedAt : Int
  deriving DecidableEq, Repr

/-- All tables but the ledger, and the ledger once it has been created. -/
structure Database (τ : Type) where
  tables : τ
  ledger : Option (List LedgerRow)
  deriving DecidableEq, Repr

/-- What a script makes of a database, and whether its statements all worked. -/
abbrev Engine (τ : Type) := Str → Database τ → Database τ × Bool

/-- An entry of the directory; `content` is missing when it cannot be read. -/
structure File where
  name : Str
  regular : Bool
  content : Option Str
  deriving DecidableEq, Repr

/-- No two entries of a directory have one name. -/
structure Directory where
  entries : List File
  distinct : (entries.map File.name).Nodup

/-- `path::extension`, with its dot. -/
def extension (name : Str) : Str :=
  let ext := (name.reverse.takeWhile (fun c => c != dot)).reverse
  if ext.length + 1 < name.length then dot :: ext else []

def isMigration (file : File) : Bool := file.regular && extension file.name == str ".sql"

/-- Filename order. -/
def NameLe (a b : File) : Prop := a.name ≤ b.name

instance (a b : File) : Decidable (NameLe a b) := inferInstanceAs (Decidable (a.name ≤ b.name))

instance : Std.Total NameLe := ⟨fun a b => List.le_total a.name b.name⟩

instance : IsTrans File NameLe := ⟨fun _ _ _ => List.le_trans⟩

/-- The scripts of a directory in filename order. -/
def migrationFiles (dir : Directory) : List File :=
  (dir.entries.filter isMigration).insertionSort NameLe

section Run

variable {τ : Type}

namespace Database

/-- The migrations the ledger names. -/
def names (db : Database τ) : List Str := (db.ledger.getD []).map LedgerRow.name

/-- `CREATE TABLE IF NOT EXISTS _migrations`. -/
def created (db : Database τ) : Database τ := { db with ledger := some (db.ledger.getD []) }

end Database

/-! ## `db.cpp` -/

/-- What a run does next. -/
inductive Phase where
  | create
  | list
  | check (files : List File)
  | read (file : File) (rest : List File)
  | start (file : File) (sql : Str) (rest : List File)
  | script (file : File) (sql : Str) (rest : List File)
  | record (file : File) (rest : List File)
  | commit (file : File) (rest : List File)
  | rollback
  | returned
  | threw
  deriving DecidableEq, Repr

structure Runner (τ : Type) where
  phase : Phase
  conn : Conn (Database τ)

/-- How an operation comes out: it is tried, at some time, or it fails for a
reason of its own; a transaction it fails in is left in any state. -/
inductive Outcome (τ : Type) where
  | tried (now : Int)
  | failed (left : Option (Database τ))

def throws (conn : Conn (Database τ)) : Runner τ := ⟨.threw, conn⟩

/-- `INSERT INTO _migrations`: the name is a primary key. -/
def insertLedger (db : Database τ) (name : Str) (now : Int) : Option (Database τ) :=
  match db.ledger with
  | none => none
  | some rows =>
      if rows.any (fun row => row.name = name) then none
      else some { db with ledger := some (rows ++ [⟨name, now⟩]) }

/-- One operation of `fRunMigrations`. -/
def advance (engine : Engine τ) (dir : Option Directory) (outcome : Outcome τ) (r : Runner τ) :
    Runner τ :=
  match r.phase, outcome with
  | .create, .tried _ => ⟨.list, r.conn.write r.conn.seen.created⟩
  | .create, .failed _ => throws r.conn
  | .list, .tried _ =>
      match dir with
      | none => throws r.conn
      | some dir => ⟨.check (migrationFiles dir), r.conn⟩
  | .list, .failed _ => throws r.conn
  | .check [], _ => ⟨.returned, r.conn⟩
  | .check (file :: rest), .tried _ =>
      match r.conn.seen.ledger with
      | none => throws r.conn
      | some rows =>
          if file.name ∈ rows.map LedgerRow.name then ⟨.check rest, r.conn⟩
          else ⟨.read file rest, r.conn⟩
  | .check (_ :: _), .failed _ => throws r.conn
  | .read file rest, .tried _ =>
      match file.content with
      | none => throws r.conn
      | some sql => ⟨.start file sql rest, r.conn⟩
  | .read _ _, .failed _ => throws r.conn
  | .start file sql rest, .tried _ => ⟨.script file sql rest, r.conn.start⟩
  | .start _ _ _, .failed _ => throws r.conn
  | .script file sql rest, .tried _ =>
      let (db, worked) := engine (cStr sql) r.conn.seen
      ⟨if worked then .record file rest else .rollback, r.conn.write db⟩
  | .script _ _ _, .failed left => ⟨.rollback, r.conn.abort left⟩
  | .record file rest, .tried now =>
      match insertLedger r.conn.seen file.name now with
      | none => ⟨.rollback, r.conn⟩
      | some db => ⟨.commit file rest, r.conn.write db⟩
  | .record _ _, .failed left => ⟨.rollback, r.conn.abort left⟩
  | .commit _ rest, .tried _ => ⟨.check rest, r.conn.commit⟩
  | .commit _ _, .failed left => ⟨.rollback, r.conn.abort left⟩
  | .rollback, .tried _ => throws r.conn.rollback
  -- A failure of the rollback itself is ignored.
  | .rollback, .failed _ => throws r.conn
  | .returned, _ => r
  | .threw, _ => r

/-- A run that has come as far as its outcomes go. -/
def fRunMigrations (engine : Engine τ) (dir : Option Directory) (outcomes : List (Outcome τ))
    (db : Database τ) : Runner τ :=
  outcomes.foldl (fun r outcome => advance engine dir outcome r) ⟨.create, .opened db⟩

/-- One run after the other, each on what the one before has left on disk. -/
def runs (engine : Engine τ) :
    List (Option Directory × List (Outcome τ)) → Database τ → Database τ
  | [], db => db
  | (dir, outcomes) :: rest, db =>
      runs engine rest (fRunMigrations engine dir outcomes db).conn.durable

/-! ## What a run has done -/

/-- `db'` is `db` with the effects of these scripts, each followed by its ledger
row, and with a ledger. -/
inductive Applies (engine : Engine τ) : Database τ → List File → Database τ → Prop
  | nil (db : Database τ) : Applies engine db [] db
  | create {db db' : Database τ} {files : List File} (rest : Applies engine db.created files db') :
      Applies engine db files db'
  | script {db seen db' : Database τ} {file : File} {files : List File} {sql : Str}
      {rows : List LedgerRow} {now : Int} (hsql : file.content = some sql)
      (hscript : engine (cStr sql) db = (seen, true)) (hrows : seen.ledger = some rows)
      (rest : Applies engine { seen with ledger := some (rows ++ [⟨file.name, now⟩]) } files db') :
      Applies engine db (file :: files) db'

/-- These scripts leave the ledger alone. -/
def KeepsLedger (engine : Engine τ) (files : List File) : Prop :=
  ∀ file ∈ files, ∀ sql, file.content = some sql →
    ∀ db seen, engine (cStr sql) db = (seen, true) → seen.ledger = db.ledger

/-- The files a database does not know. -/
def pending (db : Database τ) (files : List File) : List File :=
  files.filter (fun file => file.name ∉ db.names)

/-- The scripts of a directory, if there is one. -/
def scripts (dir : Option Directory) : List File := (dir.map migrationFiles).getD []

/-- A run that has done with these files has applied the ones among them that
were pending, and recorded them. -/
structure Progress (engine : Engine τ) (start : Database τ) (done : List File) (db : Database τ) :
    Prop where
  applied : Applies engine start (pending start done) db
  names : db.names = start.names ++ (pending start done).map File.name

variable {engine : Engine τ} {start db db' : Database τ} {done files : List File} {file : File}

theorem Applies.trans {more : List File} {db'' : Database τ} (h : Applies engine db files db')
    (h' : Applies engine db' more db'') : Applies engine db (files ++ more) db'' := by
  induction h with
  | nil db => exact h'
  | create _ ih => exact .create (ih h')
  | script hsql hscript hrows _ ih => exact .script hsql hscript hrows (ih h')

@[simp] theorem names_created (db : Database τ) : db.created.names = db.names := rfl

theorem created_of_isSome (h : db.ledger.isSome) : db.created = db := by
  obtain ⟨rows, hrows⟩ := Option.isSome_iff_exists.mp h
  unfold Database.created
  rw [hrows, Option.getD_some, ← hrows]

theorem mem_names_iff {rows : List LedgerRow} (h : db.ledger = some rows) (name : Str) :
    name ∈ db.names ↔ name ∈ rows.map LedgerRow.name := by
  rw [Database.names, h, Option.getD_some]

theorem Progress.refl (engine : Engine τ) (start : Database τ) : Progress engine start [] start :=
  ⟨.nil start, (List.append_nil _).symm⟩

theorem Progress.create (h : Progress engine start done db) :
    Progress engine start done db.created := by
  refine ⟨?_, h.names⟩
  have hcreate := h.applied.trans (.create (.nil db.created))
  rwa [List.append_nil] at hcreate

/-- What has been done with is in the ledger. -/
theorem Progress.covers (h : Progress engine start done db) (hfile : file ∈ done) :
    file.name ∈ db.names := by
  rw [h.names, List.mem_append]
  by_cases hknown : file.name ∈ start.names
  · exact Or.inl hknown
  · right
    exact List.mem_map_of_mem (List.mem_filter.mpr ⟨hfile, by simpa using hknown⟩)

theorem pending_append_singleton (start : Database τ) (done : List File) (file : File) :
    pending start (done ++ [file]) =
      if file.name ∈ start.names then pending start done else pending start done ++ [file] := by
  unfold pending
  rw [List.filter_append]
  by_cases hknown : file.name ∈ start.names <;> simp [hknown]

/-- A file that is in the ledger is passed over.  It was there from the start,
as no other file has its name. -/
theorem Progress.skip (h : Progress engine start done db) (hfile : file.name ∈ db.names)
    (hdistinct : file.name ∉ done.map File.name) : Progress engine start (done ++ [file]) db := by
  have hknown : file.name ∈ start.names := by
    rw [h.names, List.mem_append] at hfile
    rcases hfile with hfile | hfile
    · exact hfile
    · obtain ⟨f, hf, hname⟩ := List.mem_map.mp hfile
      exact absurd (hname ▸ List.mem_map_of_mem (List.mem_of_mem_filter hf)) hdistinct
  have hsame : pending start (done ++ [file]) = pending start done := by
    rw [pending_append_singleton, if_pos hknown]
  exact ⟨hsame ▸ h.applied, hsame ▸ h.names⟩

/-- A file that is not has its script and its row committed together. -/
theorem Progress.apply {seen : Database τ} {sql : Str} {now : Int}
    (hledger : seen.ledger = db.ledger) (h : Progress engine start done db)
    (hfile : file.name ∉ db.names) (hsql : file.content = some sql)
    (hscript : engine (cStr sql) db = (seen, true))
    (hinsert : insertLedger seen file.name now = some db') :
    Progress engine start (done ++ [file]) db' := by
  have hunknown : file.name ∉ start.names := by
    intro hknown
    rw [h.names] at hfile
    exact hfile (List.mem_append_left _ hknown)
  unfold insertLedger at hinsert
  cases hrows : seen.ledger with
  | none => simp [hrows] at hinsert
  | some rows =>
      simp only [hrows] at hinsert
      by_cases htaken : (rows.any (fun row => row.name = file.name)) = true
      · rw [if_pos htaken] at hinsert
        cases hinsert
      · rw [if_neg htaken, Option.some.injEq] at hinsert
        subst hinsert
        refine ⟨?_, ?_⟩
        · rw [pending_append_singleton, if_neg hunknown]
          exact h.applied.trans (.script hsql hscript hrows (.nil _))
        · rw [pending_append_singleton, if_neg hunknown, List.map_append, ← List.append_assoc,
            ← h.names]
          simp [Database.names, ← hledger, hrows]

/-! ## Every point of a run -/

/-- The disk is at the end of some of the files, the rest being still to do. -/
def Stopped (engine : Engine τ) (dir : Option Directory) (start db : Database τ) : Prop :=
  ∃ done files, scripts dir = done ++ files ∧ Progress engine start done db

/-- With these files to do, and the ledger created. -/
def Doing (engine : Engine τ) (dir : Option Directory) (start : Database τ) (files : List File)
    (db : Database τ) : Prop :=
  ∃ done, scripts dir = done ++ files ∧ Progress engine start done db ∧ db.ledger.isSome

/-- What is known at each phase. -/
def AtPhase (engine : Engine τ) (dir : Option Directory) (start : Database τ)
    (conn : Conn (Database τ)) : Phase → Prop
  | .create => conn.pending = none ∧ Progress engine start [] conn.durable
  | .list =>
      conn.pending = none ∧ Progress engine start [] conn.durable ∧ conn.durable.ledger.isSome
  | .check files => conn.pending = none ∧ Doing engine dir start files conn.durable
  | .read file rest => conn.pending = none ∧ Doing engine dir start (file :: rest) conn.durable ∧
      file.name ∉ conn.durable.names
  | .start file sql rest => conn.pending = none ∧
      Doing engine dir start (file :: rest) conn.durable ∧ file.name ∉ conn.durable.names ∧
      file.content = some sql
  | .script file sql rest => conn.pending = some conn.durable ∧
      Doing engine dir start (file :: rest) conn.durable ∧ file.name ∉ conn.durable.names ∧
      file.content = some sql
  | .record file rest => Doing engine dir start (file :: rest) conn.durable ∧
      file.name ∉ conn.durable.names ∧ ∃ sql seen, file.content = some sql ∧
        engine (cStr sql) conn.durable = (seen, true) ∧ conn.pending = some seen
  | .commit file rest => Doing engine dir start (file :: rest) conn.durable ∧
      ∃ next, conn.pending = some next ∧ Doing engine dir start rest next
  | .rollback => Stopped engine dir start conn.durable
  | .returned => Doing engine dir start [] conn.durable
  | .threw => Stopped engine dir start conn.durable

variable {dir : Option Directory} {conn : Conn (Database τ)}

theorem Doing.stopped (h : Doing engine dir start files db) : Stopped engine dir start db := by
  obtain ⟨done, hall, hprogress, _⟩ := h
  exact ⟨done, files, hall, hprogress⟩

theorem Progress.stopped (h : Progress engine start [] db) : Stopped engine dir start db :=
  ⟨[], scripts dir, rfl, h⟩

theorem AtPhase.stopped {phase : Phase} (h : AtPhase engine dir start conn phase) :
    Stopped engine dir start conn.durable := by
  cases phase with
  | create => exact h.2.stopped
  | list => exact h.2.1.stopped
  | check files => exact h.2.stopped
  | read file rest => exact h.2.1.stopped
  | start file sql rest => exact h.2.1.stopped
  | script file sql rest => exact h.2.1.stopped
  | record file rest => exact h.1.stopped
  | commit file rest => exact h.1.stopped
  | rollback => exact h
  | returned => exact Doing.stopped h
  | threw => exact h

/-- The names of the scripts are distinct. -/
theorem nodup_scripts (dir : Option Directory) : ((scripts dir).map File.name).Nodup := by
  cases dir with
  | none => exact List.nodup_nil
  | some dir =>
      have hperm := List.perm_insertionSort NameLe (dir.entries.filter isMigration)
      refine (hperm.map File.name).nodup_iff.mpr ?_
      exact dir.distinct.sublist (List.filter_sublist.map File.name)

theorem not_mem_done {rest : List File} (h : scripts dir = done ++ file :: rest) :
    file.name ∉ done.map File.name := by
  have hnodup := nodup_scripts dir
  rw [h, List.map_append, List.map_cons, List.nodup_append] at hnodup
  intro hmem
  exact hnodup.2.2 _ hmem _ List.mem_cons_self rfl

/-- A file the ledger has is passed over. -/
theorem Doing.skip {rest : List File} (h : Doing engine dir start (file :: rest) db)
    (hfile : file.name ∈ db.names) : Doing engine dir start rest db := by
  obtain ⟨done, hall, hprogress, hledger⟩ := h
  refine ⟨done ++ [file], ?_, hprogress.skip hfile (not_mem_done hall), hledger⟩
  rw [hall, List.append_assoc, List.singleton_append]

theorem insertLedger_isSome {name : Str} {now : Int} (h : insertLedger db name now = some db') :
    db'.ledger.isSome := by
  unfold insertLedger at h
  cases hrows : db.ledger with
  | none => simp [hrows] at h
  | some rows =>
      simp only [hrows] at h
      by_cases htaken : (rows.any (fun row => row.name = name)) = true
      · rw [if_pos htaken] at h
        cases h
      · rw [if_neg htaken, Option.some.injEq] at h
        rw [← h, Option.isSome_some]

/-- A script and its row, still in the transaction. -/
theorem Doing.apply {rest : List File} {seen : Database τ} {sql : Str} {now : Int}
    (hkeeps : KeepsLedger engine (scripts dir)) (h : Doing engine dir start (file :: rest) db)
    (hfile : file.name ∉ db.names) (hsql : file.content = some sql)
    (hscript : engine (cStr sql) db = (seen, true))
    (hinsert : insertLedger seen file.name now = some db') : Doing engine dir start rest db' := by
  obtain ⟨done, hall, hprogress, _⟩ := h
  have hmem : file ∈ scripts dir := by
    rw [hall]
    exact List.mem_append_right _ List.mem_cons_self
  have hledger := hkeeps file hmem sql hsql db seen hscript
  refine ⟨done ++ [file], ?_, hprogress.apply hledger hfile hsql hscript hinsert,
    insertLedger_isSome hinsert⟩
  rw [hall, List.append_assoc, List.singleton_append]

/-- **One operation**, however it comes out. -/
theorem atPhase_advance (hkeeps : KeepsLedger engine (scripts dir)) (outcome : Outcome τ)
    {r : Runner τ}
    (h : AtPhase engine dir start r.conn r.phase) :
    AtPhase engine dir start (advance engine dir outcome r).conn
      (advance engine dir outcome r).phase := by
  obtain ⟨phase, conn⟩ := r
  have hstopped : Stopped engine dir start conn.durable := AtPhase.stopped h
  cases phase with
  | create =>
      obtain ⟨hnone, hprogress⟩ := h
      cases outcome with
      | failed left => exact hstopped
      | tried now =>
          simp only [advance, Conn.write_of_none hnone, Conn.seen_of_none hnone]
          exact ⟨rfl, hprogress.create, rfl⟩
  | list =>
      obtain ⟨hnone, hprogress, hledger⟩ := h
      cases outcome with
      | failed left => exact hstopped
      | tried now =>
          cases dir with
          | none => exact hstopped
          | some dir => exact ⟨hnone, [], rfl, hprogress, hledger⟩
  | check files =>
      obtain ⟨hnone, hdoing⟩ := h
      cases files with
      | nil => exact hdoing
      | cons file rest =>
          cases outcome with
          | failed left => exact hstopped
          | tried now =>
              simp only [advance, Conn.seen_of_none hnone]
              cases hrows : conn.durable.ledger with
              | none => exact hstopped
              | some rows =>
                  by_cases hknown : file.name ∈ rows.map LedgerRow.name
                  · simp only [if_pos hknown]
                    exact ⟨hnone, hdoing.skip ((mem_names_iff hrows _).mpr hknown)⟩
                  · simp only [if_neg hknown]
                    exact ⟨hnone, hdoing, fun hmem => hknown ((mem_names_iff hrows _).mp hmem)⟩
  | read file rest =>
      obtain ⟨hnone, hdoing, hnew⟩ := h
      cases outcome with
      | failed left => exact hstopped
      | tried now =>
          simp only [advance]
          cases hcontent : file.content with
          | none => exact hstopped
          | some sql => exact ⟨hnone, hdoing, hnew, hcontent⟩
  | start file sql rest =>
      obtain ⟨_, hdoing, hnew, hcontent⟩ := h
      cases outcome with
      | failed left => exact hstopped
      | tried now => exact ⟨rfl, hdoing, hnew, hcontent⟩
  | script file sql rest =>
      obtain ⟨hsome, hdoing, hnew, hcontent⟩ := h
      cases outcome with
      | failed left => exact hstopped
      | tried now =>
          simp only [advance, Conn.seen_of_some hsome, Conn.write_of_some hsome]
          cases hrun : engine (cStr sql) conn.durable with
          | mk seen worked =>
              cases worked with
              | false => exact hstopped
              | true => exact ⟨hdoing, hnew, sql, seen, hcontent, hrun, rfl⟩
  | record file rest =>
      obtain ⟨hdoing, hnew, sql, seen, hcontent, hrun, hsome⟩ := h
      cases outcome with
      | failed left => exact hstopped
      | tried now =>
          simp only [advance, Conn.seen_of_some hsome]
          cases hinsert : insertLedger seen file.name now with
          | none => exact hstopped
          | some next =>
              simp only [Conn.write_of_some hsome]
              exact ⟨hdoing, next, rfl, hdoing.apply hkeeps hnew hcontent hrun hinsert⟩
  | commit file rest =>
      obtain ⟨_, next, hsome, hnext⟩ := h
      cases outcome with
      | failed left => exact hstopped
      | tried now =>
          refine ⟨rfl, ?_⟩
          show Doing engine dir start rest conn.seen
          rw [Conn.seen_of_some hsome]
          exact hnext
  | rollback => cases outcome <;> exact hstopped
  | returned => exact h
  | threw => exact h

/-- **Every run**, wherever it stops. -/
theorem atPhase_run (dir : Option Directory) (hkeeps : KeepsLedger engine (scripts dir))
    (outcomes : List (Outcome τ)) (start : Database τ) :
    AtPhase engine dir start (fRunMigrations engine dir outcomes start).conn
      (fRunMigrations engine dir outcomes start).phase := by
  unfold fRunMigrations
  refine List.foldlRecOn (motive := fun r : Runner τ => AtPhase engine dir start r.conn r.phase)
    outcomes _ ?_ ?_
  · exact ⟨rfl, Progress.refl engine start⟩
  · intro r hr outcome _
    exact atPhase_advance hkeeps outcome hr

/-! ## Runs -/

/-- The files of a stop are an initial segment of the pending ones. -/
theorem Stopped.segment (h : Stopped engine dir start db) :
    ∃ applied, applied <+: pending start (scripts dir) ∧ Applies engine start applied db ∧
      db.names = start.names ++ applied.map File.name := by
  obtain ⟨done, files, hall, hprogress⟩ := h
  refine ⟨pending start done, ?_, hprogress.applied, hprogress.names⟩
  refine ⟨pending start files, ?_⟩
  rw [hall]
  exact (List.filter_append done files).symm

theorem Applies.nothing (h : Applies engine db [] db') (hledger : db.ledger.isSome) : db' = db := by
  generalize hfiles : ([] : List File) = files at h
  induction h with
  | nil db => rfl
  | create _ ih =>
      rw [created_of_isSome hledger] at ih
      exact ih hledger hfiles
  | script => cases hfiles

/-- A run leaves distinct names distinct. -/
theorem Stopped.nodup (h : Stopped engine dir start db) (hstart : start.names.Nodup) :
    db.names.Nodup := by
  obtain ⟨done, files, hall, hprogress⟩ := h
  rw [hprogress.names, List.nodup_append]
  refine ⟨hstart, ?_, ?_⟩
  · have hscripts := nodup_scripts dir
    rw [hall, List.map_append] at hscripts
    exact (List.nodup_append.mp hscripts).1.sublist (List.filter_sublist.map File.name)
  · intro name hname other hother hsame
    obtain ⟨file, hfile, rfl⟩ := List.mem_map.mp hother
    have hunknown := (List.mem_filter.mp hfile).2
    simp [← hsame, hname] at hunknown

/-- Any number of runs: every script that ran did so once, with its row. -/
theorem runs_applies (history : List (Option Directory × List (Outcome τ)))
    (hkeeps : ∀ run ∈ history, KeepsLedger engine (scripts run.1)) (start : Database τ)
    (hstart : start.names.Nodup) :
    ∃ applied, Applies engine start applied (runs engine history start) ∧
      (runs engine history start).names = start.names ++ applied.map File.name ∧
      (runs engine history start).names.Nodup := by
  induction history generalizing start with
  | nil => exact ⟨[], .nil start, (List.append_nil _).symm, hstart⟩
  | cons run history ih =>
      obtain ⟨dir, outcomes⟩ := run
      have hstopped :=
        (atPhase_run dir (hkeeps _ List.mem_cons_self) outcomes start).stopped
      obtain ⟨first, _, hfirst, hnames⟩ := hstopped.segment
      obtain ⟨later, hlater, hnames', hnodup⟩ :=
        ih (fun run hrun => hkeeps run (List.mem_cons_of_mem _ hrun)) _ (hstopped.nodup hstart)
      refine ⟨first ++ later, hfirst.trans hlater, ?_, hnodup⟩
      rw [runs, hnames', hnames, List.map_append, List.append_assoc]

/-- After a run that returned there is nothing left to do. -/
theorem rerun_of_returned (hkeeps : KeepsLedger engine (scripts dir)) {outcomes : List (Outcome τ)}
    (hreturned : (fRunMigrations engine dir outcomes start).phase = .returned)
    (again : List (Outcome τ)) :
    (fRunMigrations engine dir again
        (fRunMigrations engine dir outcomes start).conn.durable).conn.durable =
      (fRunMigrations engine dir outcomes start).conn.durable := by
  have hdone := atPhase_run dir hkeeps outcomes start
  rw [hreturned] at hdone
  obtain ⟨done, hall, hprogress, hledger⟩ := hdone
  rw [List.append_nil] at hall
  obtain ⟨applied, hprefix, happlied, _⟩ :=
    (atPhase_run dir hkeeps again
      (fRunMigrations engine dir outcomes start).conn.durable).stopped.segment
  have hnothing :
      pending (fRunMigrations engine dir outcomes start).conn.durable (scripts dir) = [] := by
    rw [pending, List.filter_eq_nil_iff]
    intro file hfile
    simpa using hprogress.covers (hall ▸ hfile)
  rw [hnothing, List.prefix_nil] at hprefix
  subst hprefix
  exact happlied.nothing hledger

theorem pairwise_scripts (dir : Option Directory) : (scripts dir).Pairwise NameLe := by
  cases dir with
  | none => exact List.Pairwise.nil
  | some dir => exact List.pairwise_insertionSort NameLe (dir.entries.filter isMigration)

/-- **Migrations run at most once, in order and atomically.**  Wherever a run
stops, the database is the one it started from with the effects of an initial
segment, in filename order, of the scripts the ledger did not name, and the
ledger names exactly these in addition.  Over any number of runs no script
takes effect twice, and after a run that returned another changes nothing.  The
scripts of the directories leave the ledger alone. -/
theorem migrations_once (dir : Option Directory) (hkeeps : KeepsLedger engine (scripts dir))
    (outcomes : List (Outcome τ)) (start : Database τ) :
    (∃ applied, applied <+: pending start (scripts dir) ∧
      Applies engine start applied (fRunMigrations engine dir outcomes start).conn.durable ∧
      (fRunMigrations engine dir outcomes start).conn.durable.names =
        start.names ++ applied.map File.name) ∧
    (pending start (scripts dir)).Pairwise NameLe ∧
    ((pending start (scripts dir)).map File.name).Nodup ∧
    (∀ history, (∀ run ∈ history, KeepsLedger engine (scripts run.1)) → start.names.Nodup →
      ∃ applied, Applies engine start applied (runs engine history start) ∧
        (runs engine history start).names = start.names ++ applied.map File.name ∧
        (runs engine history start).names.Nodup) ∧
    ((fRunMigrations engine dir outcomes start).phase = .returned →
      ∀ again, (fRunMigrations engine dir again
          (fRunMigrations engine dir outcomes start).conn.durable).conn.durable =
        (fRunMigrations engine dir outcomes start).conn.durable) := by
  refine ⟨(atPhase_run dir hkeeps outcomes start).stopped.segment, ?_, ?_, ?_, ?_⟩
  · exact (pairwise_scripts dir).sublist List.filter_sublist
  · exact (nodup_scripts dir).sublist (List.filter_sublist.map File.name)
  · exact fun history hall hstart => runs_applies history hall start hstart
  · exact fun hreturned again => rerun_of_returned hkeeps hreturned again

end Run

/-! ## Two scripts -/

/-- The texts of the scripts that took effect; the one that says `broken` fails. -/
def logging : Engine (List Str) := fun sql db =>
  ({ db with tables := db.tables ++ [sql] }, sql ≠ str "broken")

theorem keepsLedger_logging (files : List File) : KeepsLedger logging files := by
  intro file _ sql _ db seen hrun
  rw [← (Prod.mk.inj hrun).1]

/-- The same, with a script that empties the ledger. -/
def forgetful : Engine (List Str) := fun sql db =>
  if sql = str "DELETE FROM _migrations" then
    ({ db with ledger := db.ledger.map (fun _ => []) }, true)
  else logging sql db

def twoScripts (second : Str) : Directory where
  entries := [⟨str "0002.sql", true, some second⟩, ⟨str "0001.sql", true, some (str "one")⟩]
  distinct := by simp [str]

def fresh : Database (List Str) := ⟨[], none⟩

def undisturbed : List (Outcome (List Str)) := List.replicate 15 (.tried 0)

/-- A broken second script, and a second run after it was repaired. -/
def repaired : List (Option Directory × List (Outcome (List Str))) :=
  [(some (twoScripts (str "broken")), undisturbed), (some (twoScripts (str "two")), undisturbed)]

/-- Both scripts have taken effect once, with their rows, and the second run, made
again, changes nothing. -/
theorem migrations_once_repaired :
    (∃ applied, Applies logging fresh applied (runs logging repaired fresh) ∧
      (runs logging repaired fresh).names = applied.map File.name ∧
      (runs logging repaired fresh).names.Nodup) ∧
    (runs logging repaired fresh).tables = [str "one", str "two"] ∧
    (fRunMigrations logging (some (twoScripts (str "two"))) undisturbed
      (runs logging repaired fresh)).conn.durable = runs logging repaired fresh := by
  have hkeeps := keepsLedger_logging
  obtain ⟨_, _, _, hhistory, _⟩ :=
    migrations_once (some (twoScripts (str "broken"))) (hkeeps _) undisturbed fresh
  obtain ⟨_, _, _, _, hrerun⟩ := migrations_once (some (twoScripts (str "two"))) (hkeeps _)
    undisturbed (runs logging (repaired.take 1) fresh)
  refine ⟨?_, by decide +kernel, hrerun (by decide +kernel) undisturbed⟩
  exact hhistory repaired (fun run _ => hkeeps (scripts run.1)) List.nodup_nil

/-- **A script that empties the ledger makes another one run twice**: the first
run returns, and a second one over the same files applies it again. -/
theorem migrations_applied_twice :
    (fRunMigrations forgetful (some (twoScripts (str "DELETE FROM _migrations"))) undisturbed
      fresh).phase = .returned ∧
    (runs forgetful [(some (twoScripts (str "DELETE FROM _migrations")), undisturbed)]
      fresh).tables = [str "one"] ∧
    (runs forgetful [(some (twoScripts (str "DELETE FROM _migrations")), undisturbed),
      (some (twoScripts (str "DELETE FROM _migrations")), undisturbed)] fresh).tables =
        [str "one", str "one"] := by
  decide +kernel

end Lectern.Migrations
