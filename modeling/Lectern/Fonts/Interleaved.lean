import Lectern.Fonts.Replacing
import Lectern.Threads.Events

/-!
# Requests on the fonts that run at the same time

An upload counts, writes its file, looks for a font of the family, removes that
one's file and then its row, and inserts its own row, each in a call of its own;
deletes, downloads and exports take their steps in between.

A request that nothing interrupts does what its handler does (`solo_upload`,
`solo_delete`); otherwise its steps and those of others come in any order.
-/

namespace Lectern.Fonts

open FileTree Threads

/-! ## The steps -/

/-- One step of a handler, with what it has found out.  `next` is the row that an
upload goes on to insert. -/
inductive FontJob where
  | count (ownerId : Str) (u : Upload) (draws : Draws)
  | write (ownerId : Str) (u : Upload) (draws : Draws)
  | look (row : FontRow)
  | unlink (old : FontRow) (next : Option FontRow)
  | erase (old : FontRow) (next : Option FontRow)
  | insert (row : FontRow)
  | load (caller : Option Str) (fontId : Str) (deletes : Bool)
  | select (ownerId : Str)
  | read (row : FontRow)

/-- The routes that touch the library, and an export that embeds an account's
fonts. -/
inductive Visitor where
  | upload (caller : Option Str) (familyParam filename body : Str) (draws : Draws)
  | delete (caller : Option Str) (fontId : Str)
  | read (caller : Option Str) (fontId : Str)
  | embed (ownerId : Str)

def firstJobs : Visitor → List FontJob
  | .upload caller familyParam filename body draws =>
      match fCurrentUser caller, checkUpload familyParam filename body with
      | .ok userId, .ok u => [.count userId u draws]
      | _, _ => []
  | .delete caller fontId => [.load caller fontId true]
  | .read caller fontId => [.load caller fontId false]
  | .embed ownerId => [.select ownerId]

/-- What a run leaves to be seen. -/
inductive Noted where
  | asked (thread : Nat) (visitor : Visitor)
  | wrote (thread : Nat) (row : FontRow) (body : Str)
  | inserted (thread : Nat) (row : FontRow)
  | erased (thread : Nat) (row : FontRow)
  -- The `DELETE` threw.
  | spared (row : FontRow)
  | read (thread : Nat) (row : FontRow) (bytes : Option Str)

/-- What a step leaves behind: the store, the steps that follow, what is noted. -/
structure Left where
  store : FontStore
  jobs : List FontJob
  noted : List Noted

section After

variable (i : Nat) (s : FontStore)

def afterCount (ownerId : Str) (u : Upload) (draws : Draws) : Except AppError Nat → Left
  | .error _ => ⟨s, [], []⟩
  | .ok count =>
      if cMaxFontsPerAccount ≤ count then ⟨s, [], []⟩ else ⟨s, [.write ownerId u draws], []⟩

def afterWrite (row : FontRow) (body : Str) : Disk × Bool → Left
  | (files, false) => ⟨{ s with files := files }, [], []⟩
  | (files, true) => ⟨{ s with files := files }, [.look row], [.wrote i row body]⟩

def afterLook (row : FontRow) : Except AppError (Option FontRow) → Left
  | .error _ => ⟨s, [], []⟩
  | .ok none => ⟨s, [.insert row], []⟩
  | .ok (some old) => ⟨s, [.unlink old (some row)], []⟩

def afterErase (old : FontRow) (next : Option FontRow) : Except AppError (List FontRow) → Left
  | .error _ => ⟨s, [], [.spared old]⟩
  | .ok rows => ⟨{ s with rows := rows }, (next.map FontJob.insert).toList, [.erased i old]⟩

/-- A fault of the `INSERT`, or what the constraints make of it. -/
def afterInsert (row : FontRow) : Except AppError Unit → Except AppError (List FontRow) → Left
  | .error _, _ => ⟨s, [], []⟩
  | .ok (), .error _ => ⟨s, [], []⟩
  | .ok (), .ok rows => ⟨{ s with rows := rows }, [], [.inserted i row]⟩

def afterLoad (deletes : Bool) : Except AppError FontRow → Left
  | .error _ => ⟨s, [], []⟩
  | .ok row => ⟨s, [if deletes then .unlink row none else .read row], []⟩

def afterSelect : Except AppError (List FontRow) → Left
  | .error _ => ⟨s, [], []⟩
  | .ok rows => ⟨s, rows.map .read, []⟩

end After

/-- Thread `i` does one step; `faults` says whether its statement throws. -/
def doJob (faults : Faults) (i : Nat) (s : FontStore) : FontJob → Left
  | .count ownerId u draws =>
      afterCount s ownerId u draws (statement faults.count (s.fontsOf ownerId).length)
  | .write ownerId u draws =>
      afterWrite i s (newRow ownerId u draws) u.body (fWriteFileAtomic s.files
        (fFontFilePath ownerId (newRow ownerId u draws).id u.ext) (fRandomHex draws.temp) u.body)
  | .look row =>
      afterLook s row (statement faults.existing (existing? s row.ownerId row.familyName))
  | .unlink old next =>
      ⟨{ s with files := (s.files.remove old.path).getD s.files }, [.erase old next], []⟩
  | .erase old next =>
      afterErase i s old next (statement faults.delete (s.rows.filter (fun row => row.id ≠ old.id)))
  | .insert row => afterInsert i s row (statement faults.insert ()) (insertFont s.rows row)
  | .load caller fontId deletes =>
      afterLoad s deletes (ownFont faults.existing caller fontId s)
  | .select ownerId => afterSelect s (statement faults.existing (s.fontsOf ownerId))
  | .read row => ⟨s, [], [.read i row (fReadFile s.files row.path)]⟩

/-- Requests arrive at any time and the threads take their steps in any order. -/
def library : Machine FontStore FontJob Visitor Faults where
  enter visitor _ s := some (s, firstJobs visitor)
  perform faults i job s := some ((doJob faults i s job).store, (doJob faults i s job).jobs)

def note (a : Action Visitor Faults) (p : Pool FontStore FontJob) : List Noted :=
  match a with
  | .enter visitor => [.asked p.threads.length visitor]
  | .run i faults =>
      match p.threads[i]? with
      | some (job :: _) => (doJob faults i p.state job).noted
      | _ => []

/-- Nobody has uploaded anything. -/
def Unused (p : Pool FontStore FontJob) : Prop := p.state = .empty ∧ p.threads = []

/-! ### What a step does: it gives up, or it goes on -/

theorem statement_ok {α : Type} {fault : Option Str} {result found : α}
    (h : statement fault result = .ok found) : found = result := by
  unfold statement at h
  split at h
  · exact (Except.ok.inj h).symm
  · cases h

/-- The row a route goes on with. -/
theorem ownFont_ok {s : FontStore} {fault caller : Option Str} {fontId : Str} {row : FontRow}
    (h : ownFont fault caller fontId s = .ok row) :
    row ∈ s.rows ∧ row.id = fontId ∧ caller = some row.ownerId := by
  cases caller with
  | none => cases h
  | some userId =>
      unfold ownFont fCurrentUser at h
      cases hid : fValidateFontId fontId with
      | error e => simp [hid] at h
      | ok _ =>
          cases hfound : statement fault (s.rows.find? (fun row => row.id = fontId)) with
          | error e => simp [hid, hfound] at h
          | ok found =>
              have hfind := (statement_ok hfound).symm
              cases found with
              | none => simp [hid, hfound] at h
              | some found =>
                  simp only [hid, hfound] at h
                  split at h
                  · cases h
                  · rename_i howner
                    cases h
                    have hsame := List.find?_some hfind
                    exact ⟨List.mem_of_find?_eq_some hfind, of_decide_eq_true hsame,
                      congrArg some (not_not.mp howner).symm⟩

section Does

variable (faults : Faults) (i : Nat) (s : FontStore)

theorem doJob_count (ownerId : Str) (u : Upload) (draws : Draws) :
    doJob faults i s (.count ownerId u draws) = ⟨s, [], []⟩ ∨
      doJob faults i s (.count ownerId u draws) = ⟨s, [.write ownerId u draws], []⟩ ∧
        (s.fontsOf ownerId).length < cMaxFontsPerAccount := by
  cases hcount : statement faults.count (s.fontsOf ownerId).length with
  | error e => exact Or.inl (congrArg (afterCount s ownerId u draws) hcount)
  | ok count =>
      have hafter := congrArg (afterCount s ownerId u draws) hcount
      have hlength := statement_ok hcount
      by_cases hfull : cMaxFontsPerAccount ≤ count
      · exact Or.inl (hafter.trans (if_pos hfull))
      · exact Or.inr ⟨hafter.trans (if_neg hfull), hlength ▸ Nat.lt_of_not_le hfull⟩

theorem doJob_write {s : FontStore} (hflat : Flat s.files) (ownerId : Str) (u : Upload)
    (draws : Draws) :
    ∃ files, fWriteFileAtomic s.files (fFontFilePath ownerId (newRow ownerId u draws).id u.ext)
        (fRandomHex draws.temp) u.body = (files, true) ∧
      doJob faults i s (.write ownerId u draws) = ⟨{ s with files := files },
        [.look (newRow ownerId u draws)], [.wrote i (newRow ownerId u draws) u.body]⟩ := by
  have hreturns := hflat.writes ownerId (newRow ownerId u draws).id u.ext
    (fRandomHex draws.temp) u.body
  cases hwrite : fWriteFileAtomic s.files
      (fFontFilePath ownerId (newRow ownerId u draws).id u.ext) (fRandomHex draws.temp) u.body with
  | mk files returned =>
      rw [hwrite] at hreturns
      cases hreturns
      exact ⟨files, rfl, congrArg (afterWrite i s (newRow ownerId u draws) u.body) hwrite⟩

theorem doJob_look (row : FontRow) :
    doJob faults i s (.look row) = ⟨s, [], []⟩ ∨
    doJob faults i s (.look row) = ⟨s, [.insert row], []⟩ ∨
    ∃ old ∈ s.rows, old.ownerId = row.ownerId ∧ old.familyName = row.familyName ∧
      doJob faults i s (.look row) = ⟨s, [.unlink old (some row)], []⟩ := by
  cases hexisting : statement faults.existing (existing? s row.ownerId row.familyName) with
  | error e => exact Or.inl (congrArg (afterLook s row) hexisting)
  | ok existing =>
      cases existing with
      | none => exact Or.inr (Or.inl (congrArg (afterLook s row) hexisting))
      | some old =>
          obtain ⟨hold, howner, hfamily⟩ := existing?_some (statement_ok hexisting).symm
          exact Or.inr (Or.inr ⟨old, hold, howner, hfamily,
            congrArg (afterLook s row) hexisting⟩)

theorem doJob_erase (old : FontRow) (next : Option FontRow) :
    doJob faults i s (.erase old next) = ⟨s, [], [.spared old]⟩ ∨
    doJob faults i s (.erase old next) =
      ⟨{ s with rows := s.rows.filter (fun row => row.id ≠ old.id) },
        (next.map FontJob.insert).toList, [.erased i old]⟩ := by
  cases hdelete : statement faults.delete (s.rows.filter (fun row => row.id ≠ old.id)) with
  | error e => exact Or.inl (congrArg (afterErase i s old next) hdelete)
  | ok rows =>
      have hrows := statement_ok hdelete
      subst hrows
      exact Or.inr (congrArg (afterErase i s old next) hdelete)

theorem doJob_insert (row : FontRow) :
    doJob faults i s (.insert row) = ⟨s, [], []⟩ ∨
    doJob faults i s (.insert row) =
      ⟨{ s with rows := s.rows ++ [row] }, [], [.inserted i row]⟩ := by
  cases hstatement : statement faults.insert () with
  | error e => exact Or.inl (congrArg (afterInsert i s row · (insertFont s.rows row)) hstatement)
  | ok _ =>
      cases hinsert : insertFont s.rows row with
      | error e => exact Or.inl (congrArg₂ (afterInsert i s row) hstatement hinsert)
      | ok rows =>
          obtain ⟨rfl, _⟩ := insertFont_ok hinsert
          exact Or.inr (congrArg₂ (afterInsert i s row) hstatement hinsert)

theorem doJob_load (caller : Option Str) (fontId : Str) (deletes : Bool) :
    doJob faults i s (.load caller fontId deletes) = ⟨s, [], []⟩ ∨
    ∃ row ∈ s.rows, row.id = fontId ∧ caller = some row.ownerId ∧
      doJob faults i s (.load caller fontId deletes) =
        ⟨s, [if deletes then .unlink row none else .read row], []⟩ := by
  cases hrow : ownFont faults.existing caller fontId s with
  | error e => exact Or.inl (congrArg (afterLoad s deletes) hrow)
  | ok row =>
      obtain ⟨hmem, hid, hcaller⟩ := ownFont_ok hrow
      exact Or.inr ⟨row, hmem, hid, hcaller, congrArg (afterLoad s deletes) hrow⟩

theorem doJob_select (ownerId : Str) :
    doJob faults i s (.select ownerId) = ⟨s, [], []⟩ ∨
    doJob faults i s (.select ownerId) = ⟨s, (s.fontsOf ownerId).map .read, []⟩ := by
  cases hrows : statement faults.existing (s.fontsOf ownerId) with
  | error e => exact Or.inl (congrArg (afterSelect s) hrows)
  | ok rows =>
      have hfonts := statement_ok hrows
      subst hfonts
      exact Or.inr (congrArg (afterSelect s) hrows)

end Does

/-! ### One request alone -/

section Alone

variable {faults : Faults} {s s₁ s' : FontStore} {job job' : FontJob} {noted : List Noted}

theorem solo_last (h : doJob faults 0 s job = ⟨s', [], noted⟩) :
    Machine.Solo library faults [job] s s' :=
  .last (congrArg (fun left : Left => some (left.store, left.jobs)) h)

theorem solo_next (h : doJob faults 0 s job = ⟨s₁, [job'], noted⟩)
    (hrest : Machine.Solo library faults [job'] s₁ s') :
    Machine.Solo library faults [job] s s' :=
  .step (congrArg (fun left : Left => some (left.store, left.jobs)) h) hrest

theorem solo_insert (faults : Faults) (row : FontRow) (s : FontStore) :
    Machine.Solo library faults [.insert row] s (insertAndReply faults row s).1 := by
  unfold insertAndReply
  cases hstatement : statement faults.insert () with
  | error e =>
      exact solo_last (congrArg (afterInsert 0 s row · (insertFont s.rows row)) hstatement)
  | ok _ =>
      cases hinsert : insertFont s.rows row with
      | error e => exact solo_last (congrArg₂ (afterInsert 0 s row) hstatement hinsert)
      | ok rows => exact solo_last (congrArg₂ (afterInsert 0 s row) hstatement hinsert)

theorem solo_unlink (faults : Faults) (old row : FontRow) (s : FontStore) :
    Machine.Solo library faults [.unlink old (some row)] s
      (match removeExisting faults (some old) s with
        | (s, .error e) => (s, .error e)
        | (s, .ok ()) => insertAndReply faults row s : FontStore × Response).1 := by
  refine solo_next rfl ?_
  unfold removeExisting
  cases hdelete : statement faults.delete (s.rows.filter (fun row => row.id ≠ old.id)) with
  | error e =>
      simp only [hdelete]
      exact solo_last (congrArg (afterErase 0 { s with files := _ } old (some row)) hdelete)
  | ok rows =>
      simp only [hdelete]
      exact solo_next (congrArg (afterErase 0 { s with files := _ } old (some row)) hdelete)
        (solo_insert faults row _)

theorem solo_look (faults : Faults) (row : FontRow) (s : FontStore) :
    Machine.Solo library faults [.look row] s (replaceFont faults row s).1 := by
  unfold replaceFont
  cases hexisting : statement faults.existing (existing? s row.ownerId row.familyName) with
  | error e => exact solo_last (congrArg (afterLook s row) hexisting)
  | ok existing =>
      cases existing with
      | none =>
          exact solo_next (congrArg (afterLook s row) hexisting) (solo_insert faults row s)
      | some old =>
          exact solo_next (congrArg (afterLook s row) hexisting) (solo_unlink faults old row s)

theorem solo_count (faults : Faults) (ownerId : Str) (u : Upload) (draws : Draws) (s : FontStore) :
    Machine.Solo library faults [.count ownerId u draws] s
      (storeFont faults ownerId u draws s).1 := by
  unfold storeFont
  cases hcount : statement faults.count (s.fontsOf ownerId).length with
  | error e => exact solo_last (congrArg (afterCount s ownerId u draws) hcount)
  | ok count =>
      have hafter := congrArg (afterCount s ownerId u draws) hcount
      dsimp only
      by_cases hfull : cMaxFontsPerAccount ≤ count
      · rw [if_pos hfull]
        exact solo_last (hafter.trans (if_pos hfull))
      · rw [if_neg hfull]
        refine solo_next (hafter.trans (if_neg hfull)) ?_
        cases hwrite : fWriteFileAtomic s.files
            (fFontFilePath ownerId (newRow ownerId u draws).id u.ext) (fRandomHex draws.temp)
            u.body with
        | mk files returned =>
            have hwritten := congrArg (afterWrite 0 s (newRow ownerId u draws) u.body) hwrite
            cases returned with
            | false => exact solo_last hwritten
            | true => exact solo_next hwritten (solo_look faults (newRow ownerId u draws) _)

/-- The steps of an upload, taken one after the other, are its handler. -/
theorem solo_upload (faults : Faults) (caller : Option Str) (familyParam filename body : Str)
    (draws : Draws) (s : FontStore) :
    Machine.Solo library faults (firstJobs (.upload caller familyParam filename body draws)) s
      (uploadFont faults caller familyParam filename body draws s).1 := by
  unfold uploadFont
  cases hcaller : fCurrentUser caller with
  | error e =>
      simp only [firstJobs, hcaller]
      exact .done s
  | ok userId =>
      cases hcheck : checkUpload familyParam filename body with
      | error e =>
          simp only [firstJobs, hcaller, hcheck]
          exact .done s
      | ok u =>
          simp only [firstJobs, hcaller, hcheck]
          exact solo_count faults userId u draws s

/-- And so are those of a delete. -/
theorem solo_delete (faults : Faults) (caller : Option Str) (fontId : Str) (s : FontStore) :
    Machine.Solo library faults (firstJobs (.delete caller fontId)) s
      (deleteFont faults.existing faults.delete caller fontId s).1 := by
  unfold firstJobs deleteFont
  cases hrow : ownFont faults.existing caller fontId s with
  | error e => exact solo_last (congrArg (afterLoad s true) hrow)
  | ok row =>
      obtain ⟨_, hid, _⟩ := ownFont_ok hrow
      refine solo_next (congrArg (afterLoad s true) hrow) (solo_next rfl ?_)
      subst hid
      dsimp only
      cases hdelete : statement faults.delete (s.rows.filter (fun other => other.id ≠ row.id)) with
      | error e => exact solo_last (congrArg (afterErase 0 { s with files := _ } row none) hdelete)
      | ok rows => exact solo_last (congrArg (afterErase 0 { s with files := _ } row none) hdelete)

end Alone

end Lectern.Fonts
