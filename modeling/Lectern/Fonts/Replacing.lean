import Lectern.Fonts.Invariant

/-!
# What an upload leaves behind

An upload writes a file, removes another, deletes a row, inserts a row and
builds a reply, with nothing that would take back the first when a later one
fails.  So a request that is answered with an error may have changed the
library; `Survives` says when it has not, and when a success is one.
-/

namespace Lectern.Fonts

open FileTree

/-! ## All or nothing -/

/-- The rows of an account, the files they point to and its listing are as they
were. -/
structure Unchanged (ownerId : Str) (s s' : FontStore) : Prop where
  rows : s'.fontsOf ownerId = s.fontsOf ownerId
  files : ∀ row ∈ s.fontsOf ownerId, s'.files.fileAt row.path = s.files.fileAt row.path
  lists : (∃ body, listFonts none (some ownerId) s' = .ok body) ↔
    ∃ body, listFonts none (some ownerId) s = .ok body

/-- One row of the account has the name, its file holds the body, and the rows
and files of the other names are as they were. -/
structure Saved (ownerId familyName body : Str) (s s' : FontStore) : Prop where
  row : ∃ row, (s'.fontsOf ownerId).filter (fun row => row.familyName = familyName) = [row] ∧
    s'.files.fileAt row.path = some body
  others : (s'.fontsOf ownerId).filter (fun row => row.familyName ≠ familyName) =
    (s.fontsOf ownerId).filter (fun row => row.familyName ≠ familyName)
  files : ∀ row ∈ s.fontsOf ownerId, row.familyName ≠ familyName →
    s'.files.fileAt row.path = s.files.fileAt row.path

/-- An error changes nothing and a success saves the font. -/
def AllOrNothing (ownerId familyName body : Str) (s : FontStore) (out : FontStore × Response) :
    Prop :=
  match out.2 with
  | .error _ => Unchanged ownerId s out.1
  | .ok _ => Saved ownerId familyName body s out.1

/-! ## When it holds -/

/-- Some row has the id of the new one. -/
def Taken (rows : List FontRow) (row : FontRow) : Prop := ∃ old ∈ rows, old.id = row.id

/-- No row of the account but the excepted one points to the new file, unless
with the same content. -/
def Clear (s : FontStore) (row : FontRow) (body : Str) (excepted : Option FontRow) : Prop :=
  ∀ r ∈ s.fontsOf row.ownerId, excepted ≠ some r → r.path = row.path →
    s.files.fileAt r.path = some body

/-- The reply can be built. -/
def Replies (faults : Faults) (row : FontRow) : Prop :=
  faults.reply = false ∧ validUtf8 row.familyName = true

/-- The condition on an upload that has written its file.  Of a new name: if the
row is not inserted, the file was no other row's, and if it is, the reply can be
built.  Of a name the account has: no statement throws after the old file is
removed, unless there was none, and the reply can be built, unless the row that
was inserted is the one that was deleted. -/
def Survives (faults : Faults) (row : FontRow) (body : Str) (s : FontStore) : Prop :=
  match existing? s row.ownerId row.familyName with
  | none =>
      (faults.existing ≠ none ∨ faults.insert ≠ none ∨ Taken s.rows row →
        Clear s row body none) ∧
      (faults.existing = none → faults.insert = none → ¬ Taken s.rows row → Replies faults row)
  | some old =>
      (faults.existing ≠ none → Clear s row body none) ∧
      (faults.existing = none → faults.delete ≠ none →
        s.files.fileAt old.path = none ∧ Clear s row body (some old)) ∧
      (faults.existing = none → faults.delete = none →
        faults.insert = none ∧ ¬ Taken (s.rows.filter (fun r => r.id ≠ old.id)) row ∧
        (Replies faults row → old.path ≠ row.path) ∧
        (¬ Replies faults row →
          (s.fontsOf row.ownerId).getLast? = some row ∧ s.files.fileAt row.path = none))

/-! ## Statements -/

theorem statement_none {α : Type} {fault : Option Str} (h : fault = none) (result : α) :
    statement fault result = .ok result := by
  rw [h]
  rfl

theorem statement_some {α : Type} {fault : Option Str} (h : fault ≠ none) (result : α) :
    ∃ e, statement fault result = .error e := by
  obtain ⟨errmsg, herr⟩ := Option.ne_none_iff_exists'.mp h
  rw [herr]
  exact ⟨_, rfl⟩

/-! ## Listings and replies -/

/-- The listing of an account depends on its rows only. -/
theorem listFonts_congr {s s' : FontStore} {ownerId : Str}
    (h : s'.fontsOf ownerId = s.fontsOf ownerId) (fault : Option Str) :
    listFonts fault (some ownerId) s' = listFonts fault (some ownerId) s := by
  unfold listFonts fCurrentUser
  simp only [h]

theorem unchanged_iff {ownerId : Str} {s s' : FontStore}
    (h : s'.fontsOf ownerId = s.fontsOf ownerId) :
    Unchanged ownerId s s' ↔
      ∀ row ∈ s.fontsOf ownerId, s'.files.fileAt row.path = s.files.fileAt row.path :=
  ⟨fun hsame => hsame.files, fun hfiles => ⟨h, hfiles, by rw [listFonts_congr h]⟩⟩

/-- Where only files have changed, it is the files that count. -/
theorem unchanged_withFiles {ownerId : Str} {s : FontStore} {files : Disk} :
    Unchanged ownerId s { s with files := files } ↔
      ∀ row ∈ s.fontsOf ownerId, files.fileAt row.path = s.files.fileAt row.path :=
  unchanged_iff rfl

theorem not_unchanged {ownerId : Str} {s s' : FontStore}
    (h : s'.fontsOf ownerId ≠ s.fontsOf ownerId) : ¬ Unchanged ownerId s s' :=
  fun hsame => h hsame.rows

theorem dumps_fontValue {row : FontRow} (h : Stored row) :
    (fontValue row).dumps = validUtf8 row.familyName := by
  obtain ⟨random, hid⟩ := h.id
  have hidtext : validUtf8 row.id = true := validUtf8_of_ascii (hid ▸ ascii_fUuidV4 random)
  have htype : validUtf8 row.contentType = true := by
    obtain ⟨ext, hext⟩ := h.contentType
    rcases fContentTypeFor_cases hext with ⟨_, htype⟩ | ⟨_, htype⟩ | ⟨_, htype⟩ | ⟨_, htype⟩ <;>
      · rw [htype]
        decide +kernel
  have hkeys : validUtf8 (str "id") = true ∧ validUtf8 (str "familyName") = true ∧
      validUtf8 (str "contentType") = true ∧ validUtf8 (str "byteSize") = true := by
    decide +kernel
  simp [fontValue, Json.dumps, dumpsFields_eq, hidtext, htype, hkeys]

theorem fJsonResponse_fontValue {row : FontRow} (h : Stored row) (faults : Faults) :
    (∃ body, (if faults.reply then .error internalError else fJsonResponse (fontValue row)) =
      (.ok body : Response)) ↔ Replies faults row := by
  unfold Replies fJsonResponse
  rw [dumps_fontValue h]
  cases faults.reply <;> cases validUtf8 row.familyName <;> simp

/-! ## The stages -/

section Stages

variable {s : FontStore} {faults : Faults} {row old : FontRow} {body hex : Str} {written : Disk}

theorem mem_fontsOf {r : FontRow} {ownerId : Str} :
    r ∈ s.fontsOf ownerId ↔ r ∈ s.rows ∧ r.ownerId = ownerId := by
  unfold FontStore.fontsOf
  rw [List.mem_filter, decide_eq_true_eq]

theorem Tidy.eq_of_id (h : Tidy s) {r r' : FontRow} (hr : r ∈ s.rows) (hr' : r' ∈ s.rows)
    (hid : r.id = r'.id) : r = r' := List.inj_on_of_nodup_map h.ids hr hr' hid

theorem Tidy.eq_of_family (h : Tidy s) {r r' : FontRow} (hr : r ∈ s.rows) (hr' : r' ∈ s.rows)
    (howner : r.ownerId = r'.ownerId) (hfamily : r.familyName = r'.familyName) : r = r' :=
  List.inj_on_of_nodup_map h.families hr hr' (by rw [howner, hfamily])

theorem existing?_some {ownerId familyName : Str} (h : existing? s ownerId familyName = some old) :
    old ∈ s.rows ∧ old.ownerId = ownerId ∧ old.familyName = familyName := by
  have hfound := List.find?_some h
  rw [decide_eq_true_eq] at hfound
  exact ⟨List.mem_of_find?_eq_some h, hfound⟩

theorem existing?_none {ownerId familyName : Str} (h : existing? s ownerId familyName = none) :
    ∀ r ∈ s.rows, r.ownerId = ownerId → r.familyName ≠ familyName := by
  intro r hr howner hfamily
  have hnot := List.find?_eq_none.mp h r hr
  simp [howner, hfamily] at hnot

/-- The written file, and all others as they were. -/
theorem fileAt_written (hstored : Stored row)
    (hwrite : fWriteFileAtomic s.files row.path hex body = (written, true)) {r : FontRow}
    (hr : Stored r) :
    written.fileAt r.path = if r.path = row.path then some body else s.files.fileAt r.path := by
  rw [fileAt_fWriteFileAtomic_ok row.path_ne_nil hwrite, if_neg (hr.path_ne_temp hstored hex)]

/-- Having written the file is all that has changed. -/
theorem unchanged_written (hs : Tidy s) (hstored : Stored row)
    (hwrite : fWriteFileAtomic s.files row.path hex body = (written, true)) :
    Unchanged row.ownerId s { s with files := written } ↔ Clear s row body none := by
  rw [unchanged_withFiles]
  constructor
  · intro hsame r hr _ hpath
    rw [← hsame r hr, fileAt_written hstored hwrite (hs.stored r (mem_fontsOf.mp hr).1),
      if_pos hpath]
  · intro hclear r hr
    rw [fileAt_written hstored hwrite (hs.stored r (mem_fontsOf.mp hr).1)]
    by_cases hpath : r.path = row.path
    · rw [if_pos hpath, hclear r hr nofun hpath]
    · rw [if_neg hpath]

/-- The files once the replaced one is removed. -/
theorem fileAt_removed (hstored : Stored row)
    (hwrite : fWriteFileAtomic s.files row.path hex body = (written, true)) {r : FontRow}
    (hr : Stored r) :
    ((written.remove old.path).getD written).fileAt r.path =
      if r.path = old.path then none
      else if r.path = row.path then some body else s.files.fileAt r.path := by
  rw [Tree.fileAt_remove_getD written old.path_ne_nil, fileAt_written hstored hwrite hr]

theorem Tidy.path_ne (hs : Tidy s) {r r' : FontRow} (hr : r ∈ s.rows) (hr' : r' ∈ s.rows)
    (hne : r ≠ r') : r.path ≠ r'.path := fun hpath =>
  hne (hs.eq_of_id hr hr' ((hs.stored r hr).id_of_path (hs.stored r' hr') hpath))

/-- The old file is gone but its row is not. -/
theorem unchanged_removed (hs : Tidy s) (hstored : Stored row)
    (hwrite : fWriteFileAtomic s.files row.path hex body = (written, true))
    (hold : old ∈ s.fontsOf row.ownerId) :
    Unchanged row.ownerId s { s with files := (written.remove old.path).getD written } ↔
      s.files.fileAt old.path = none ∧ Clear s row body (some old) := by
  have hmem := (mem_fontsOf.mp hold).1
  rw [unchanged_withFiles]
  constructor
  · intro hsame
    refine ⟨?_, ?_⟩
    · rw [← hsame old hold, fileAt_removed hstored hwrite (hs.stored old hmem), if_pos rfl]
    · intro r hr hne hpath
      have hr' := (mem_fontsOf.mp hr).1
      have hapart := hs.path_ne hr' hmem (fun heq => hne (by rw [heq]))
      rw [← hsame r hr, fileAt_removed hstored hwrite (hs.stored r hr'), if_neg hapart,
        if_pos hpath]
  · intro ⟨hgone, hclear⟩ r hr
    have hr' := (mem_fontsOf.mp hr).1
    rw [fileAt_removed hstored hwrite (hs.stored r hr')]
    by_cases heq : r = old
    · subst heq
      rw [if_pos rfl, hgone]
    · rw [if_neg (hs.path_ne hr' hmem heq)]
      by_cases hpath : r.path = row.path
      · rw [if_pos hpath, hclear r hr (fun h => heq (Option.some.inj h).symm) hpath]
      · rw [if_neg hpath]

/-- An `INSERT` that throws, by a fault or because the id is taken. -/
theorem insertAndReply_refused (h : faults.insert ≠ none ∨ Taken s.rows row) :
    ∃ e, insertAndReply faults row s = (s, .error e) := by
  unfold insertAndReply
  cases hfault : faults.insert with
  | some errmsg => exact ⟨_, rfl⟩
  | none =>
      rcases h with hfaulty | ⟨old, hold, hid⟩
      · exact absurd hfault hfaulty
      · have hany : (s.rows.any (fun old => old.id = row.id)) = true := by
          rw [List.any_eq_true]
          exact ⟨old, hold, by simpa using hid⟩
        refine ⟨sqliteStepFailed (str "UNIQUE constraint failed: custom_fonts.id"), ?_⟩
        simp only [statement, insertFont, hany, if_true]

/-- An `INSERT` that works, and the reply. -/
theorem insertAndReply_done (hfault : faults.insert = none) (hfree : ¬ Taken s.rows row)
    (hfamily : ∀ r ∈ s.rows, r.ownerId = row.ownerId → r.familyName ≠ row.familyName) :
    insertAndReply faults row s = ({ s with rows := s.rows ++ [row] },
      if faults.reply then .error internalError else fJsonResponse (fontValue row)) := by
  have hid : (s.rows.any (fun old => old.id = row.id)) = false := by
    rw [List.any_eq_false]
    intro old hold hsame
    exact hfree ⟨old, hold, by simpa using hsame⟩
  have hname : (s.rows.any (fun old =>
      old.ownerId = row.ownerId ∧ old.familyName = row.familyName)) = false := by
    rw [List.any_eq_false]
    intro old hold hsame
    rw [decide_eq_true_eq] at hsame
    exact hfamily old hold hsame.1 hsame.2
  unfold insertAndReply
  simp only [hfault, statement, insertFont, hid, hname, Bool.false_eq_true, if_false]

/-! ## An inserted row -/

/-- The rows an upload keeps: all of them, or all but the replaced one. -/
structure Kept (s : FontStore) (row : FontRow) (kept : List FontRow) : Prop where
  family : ∀ r ∈ kept, r.ownerId = row.ownerId → r.familyName ≠ row.familyName
  others : ((FontStore.mk kept s.files).fontsOf row.ownerId).filter
      (fun r => r.familyName ≠ row.familyName) =
    (s.fontsOf row.ownerId).filter (fun r => r.familyName ≠ row.familyName)

theorem kept_all (hnone : existing? s row.ownerId row.familyName = none) : Kept s row s.rows :=
  ⟨existing?_none hnone, rfl⟩

theorem kept_others (hs : Tidy s) (hsome : existing? s row.ownerId row.familyName = some old) :
    Kept s row (s.rows.filter (fun r => r.id ≠ old.id)) := by
  obtain ⟨hold, howner, hfamily⟩ := existing?_some hsome
  constructor
  · intro r hr hrowner hrfamily
    obtain ⟨hr, hid⟩ := List.mem_filter.mp hr
    have heq := hs.eq_of_family hr hold (hrowner.trans howner.symm) (hrfamily.trans hfamily.symm)
    simp [heq] at hid
  · unfold FontStore.fontsOf
    simp only [List.filter_filter]
    apply List.filter_congr
    intro r hr
    by_cases hname : r.familyName = row.familyName
    · simp [hname]
    · have hid : r.id ≠ old.id := by
        intro hid
        exact hname ((congrArg FontRow.familyName (hs.eq_of_id hr hold hid)).trans hfamily)
      simp [hid]

/-- The rows of the account once the new one is inserted. -/
theorem fontsOf_inserted {kept : List FontRow} {files : Disk} :
    (FontStore.mk (kept ++ [row]) files).fontsOf row.ownerId =
      (FontStore.mk kept s.files).fontsOf row.ownerId ++ [row] := by
  rw [fontsOf_append, if_pos rfl]
  rfl

theorem saved_iff {kept : List FontRow} {files : Disk} (hkept : Kept s row kept)
    (hfiles : ∀ r ∈ s.fontsOf row.ownerId, r.familyName ≠ row.familyName →
      files.fileAt r.path = s.files.fileAt r.path) :
    Saved row.ownerId row.familyName body s ⟨kept ++ [row], files⟩ ↔
      files.fileAt row.path = some body := by
  have hone : ((FontStore.mk (kept ++ [row]) files).fontsOf row.ownerId).filter
      (fun r => r.familyName = row.familyName) = [row] := by
    have hnone : ((FontStore.mk kept s.files).fontsOf row.ownerId).filter
        (fun r => r.familyName = row.familyName) = [] := by
      rw [List.filter_eq_nil_iff]
      intro r hr
      obtain ⟨hr, howner⟩ := mem_fontsOf.mp hr
      simpa using hkept.family r hr howner
    rw [fontsOf_inserted (s := s), List.filter_append, hnone]
    simp
  constructor
  · intro h
    obtain ⟨row', hrow', hfile⟩ := h.row
    rw [hone, List.cons.injEq] at hrow'
    rw [hrow'.1]
    exact hfile
  · intro hfile
    refine ⟨⟨row, hone, hfile⟩, ?_, hfiles⟩
    rw [fontsOf_inserted (s := s), List.filter_append, hkept.others]
    simp

/-- A new name: the library has one row more. -/
theorem not_unchanged_inserted {files : Disk} :
    ¬ Unchanged row.ownerId s ⟨s.rows ++ [row], files⟩ := by
  apply not_unchanged
  intro hrows
  have hlength := congrArg List.length hrows
  rw [fontsOf_inserted (s := s), List.length_append, List.length_singleton] at hlength
  exact absurd hlength (Nat.succ_ne_self _)

/-- A row is missing. -/
theorem not_unchanged_deleted {files : Disk} (hold : old ∈ s.fontsOf row.ownerId) :
    ¬ Unchanged row.ownerId s ⟨s.rows.filter (fun r => r.id ≠ old.id), files⟩ := by
  apply not_unchanged
  intro hrows
  rw [← hrows] at hold
  have hgone := (List.mem_filter.mp (mem_fontsOf.mp hold).1).2
  simp at hgone

/-- A row that takes its own place. -/
theorem unchanged_replaced (hs : Tidy s) (hstored : Stored row)
    (hwrite : fWriteFileAtomic s.files row.path hex body = (written, true))
    (hsome : existing? s row.ownerId row.familyName = some old) :
    Unchanged row.ownerId s ⟨s.rows.filter (fun r => r.id ≠ old.id) ++ [row],
        (written.remove old.path).getD written⟩ ↔
      (s.fontsOf row.ownerId).getLast? = some row ∧ s.files.fileAt row.path = none := by
  obtain ⟨hold, howner, hfamily⟩ := existing?_some hsome
  have hrows : (FontStore.mk (s.rows.filter (fun r => r.id ≠ old.id) ++ [row])
      ((written.remove old.path).getD written)).fontsOf row.ownerId =
      (s.fontsOf row.ownerId).filter (fun r => r.id ≠ old.id) ++ [row] := by
    rw [fontsOf_inserted (s := s)]
    exact congrArg (· ++ [row]) (List.filter_comm _ _ _)
  have hsame : row ∈ s.fontsOf row.ownerId → row = old := fun hrow =>
    hs.eq_of_family (mem_fontsOf.mp hrow).1 hold howner.symm hfamily.symm
  constructor
  · intro h
    have hlast := h.rows
    rw [hrows] at hlast
    have hrow : row ∈ s.fontsOf row.ownerId := by
      rw [← hlast]
      exact List.mem_append_right _ List.mem_cons_self
    refine ⟨by rw [← hlast, List.getLast?_concat], ?_⟩
    rw [← h.files row hrow]
    show ((written.remove old.path).getD written).fileAt row.path = none
    rw [fileAt_removed hstored hwrite hstored, if_pos (by rw [← hsame hrow])]
  · intro ⟨hlast, hgone⟩
    obtain ⟨init, hinit⟩ := List.getLast?_eq_some_iff.mp hlast
    have hrow : row ∈ s.fontsOf row.ownerId := by
      rw [hinit]
      exact List.mem_append_right _ List.mem_cons_self
    have hrowold := hsame hrow
    subst hrowold
    have hids : ((s.fontsOf row.ownerId).map FontRow.id).Nodup :=
      hs.ids.sublist (List.filter_sublist.map _)
    rw [hinit, List.map_append, List.nodup_append] at hids
    have hkeep : init.filter (fun r => r.id ≠ row.id) = init := by
      rw [List.filter_eq_self]
      intro r hr
      have hne := hids.2.2 r.id (List.mem_map_of_mem hr) row.id (by simp)
      simpa using hne
    rw [unchanged_iff]
    · intro r hr
      show ((written.remove row.path).getD written).fileAt r.path = _
      rw [fileAt_removed hstored hwrite (hs.stored r (mem_fontsOf.mp hr).1)]
      by_cases hpath : r.path = row.path
      · rw [if_pos hpath, hpath, hgone]
      · rw [if_neg hpath, if_neg hpath]
    · rw [hrows, hinit, List.filter_append, hkeep]
      simp

end Stages

end Lectern.Fonts
