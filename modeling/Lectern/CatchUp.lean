import Lectern.Deletion
import Lectern.Store

/-!
# Catching up with deletions

A device that was away asks which files were deleted, and when.  It then tells a
copy of a deleted file from a file that was only ever created on the device: a
row from after the last visit is there exactly for the files that were on the
server at some moment since and are there no longer.

The rows carry the times of the requests that removed the files, and a file that
comes back takes its row away.  Both are shown request by request (`row_of_run`,
`Known.run`) and then along runs.
-/

namespace Lectern

open FileTree Sync

/-! ## `GET /api/workspace/deleted` -/

def DeletedFile.item (row : DeletedFile) : Json :=
  .object [(str "relPath", .string row.relPath), (str "deletedAt", .int row.deletedAt)]

/-- The rows in the order in which the query returns them. -/
def getDeleted (found : List DeletedFile) : Response :=
  fJsonResponse (.array (found.map DeletedFile.item))

/-- A row as a client reads it. -/
def rowOfItem (item : Json) : Option DeletedFile :=
  match item.find? (str "relPath"), item.find? (str "deletedAt") with
  | some (.string relPath), some (.int deletedAt) => some ⟨relPath, deletedAt⟩
  | _, _ => none

def readDeleted : Body → List DeletedFile
  | .json (.array items) => items.filterMap rowOfItem
  | _ => []

theorem rowOfItem_item (row : DeletedFile) : rowOfItem row.item = some row := rfl

/-- The client reads what the query returned. -/
theorem readDeleted_getDeleted {found : List DeletedFile} {body : Body}
    (h : getDeleted found = .ok body) : readDeleted body = found := by
  unfold getDeleted fJsonResponse at h
  split at h
  · cases h
    have hread : rowOfItem ∘ DeletedFile.item = some := funext rowOfItem_item
    show (found.map DeletedFile.item).filterMap rowOfItem = found
    rw [List.filterMap_map, hread, List.filterMap_some]
  · cases h

/-! ## Rows and their times -/

/-- When a request removed something, had it succeeded. -/
def Mutation.time : Mutation → Option Int
  | .deleteEntry _ _ now => some now
  | .moveEntry _ _ now => some now
  | _ => none

/-- The flag of a delete says what is there. -/
def FlagTells (w : Workspace) : Mutation → Prop
  | .deleteEntry path isDir _ => ∀ rel, fSafeRelPath path = .ok rel →
      if isDir then w.root.fileAt (pathOf rel) = none
      else w.root.entryAt (pathOf rel) ≠ some .dir
  | _ => True

/-- Every flag of a run says what is there, and no file has a name that a write
draws for its temporary file. -/
def Orderly (limits : Limits) : List Mutation → Workspace → Prop
  | [], _ => True
  | m :: ms, w =>
      FlagTells w m ∧ (∀ p, m.Temporary p → w.root.fileAt p = none) ∧
        Orderly limits ms (m.run limits w).1

instance (w : Workspace) (m : Mutation) : Decidable (FlagTells w m) :=
  match m with
  | .deleteEntry path isDir _ =>
      match hrel : fSafeRelPath path with
      | .ok rel =>
          decidable_of_iff (if isDir then w.root.fileAt (pathOf rel) = none
            else w.root.entryAt (pathOf rel) ≠ some .dir) (by simp [FlagTells, hrel])
      | .error _ => isTrue (by simp [FlagTells, hrel])
  | .putFile .. => isTrue trivial
  | .createFolder _ => isTrue trivial
  | .moveEntry .. => isTrue trivial
  | .writeThrough .. => isTrue trivial

instance (w : Workspace) (m : Mutation) :
    Decidable (∀ p, m.Temporary p → w.root.fileAt p = none) :=
  match m with
  | .putFile path _ hex =>
      match hrel : fSafeRelPath path with
      | .ok rel =>
          decidable_of_iff (w.root.fileAt (tempPath (pathOf rel) hex) = none)
            (by simp [Mutation.Temporary, hrel])
      | .error _ => isTrue (by simp [Mutation.Temporary, hrel])
  | .writeThrough access _ hex =>
      match hrel : fSafeRelPath access.relPath with
      | .ok rel =>
          decidable_of_iff (w.root.fileAt (tempPath (pathOf rel) hex) = none)
            (by simp [Mutation.Temporary, hrel])
      | .error _ => isTrue (by simp [Mutation.Temporary, hrel])
  | .createFolder _ => isTrue (fun _ h => h.elim)
  | .deleteEntry .. => isTrue (fun _ h => h.elim)
  | .moveEntry .. => isTrue (fun _ h => h.elim)

instance decidableOrderly (limits : Limits) :
    (ms : List Mutation) → (w : Workspace) → Decidable (Orderly limits ms w)
  | [], _ => isTrue trivial
  | m :: ms, w =>
      have := decidableOrderly limits ms (m.run limits w).1
      inferInstanceAs (Decidable (_ ∧ _ ∧ _))

theorem runs_append (limits : Limits) (ms ms' : List Mutation) (w : Workspace) :
    runs limits (ms ++ ms') w = runs limits ms' (runs limits ms w) := List.foldl_append

theorem orderly_append {limits : Limits} {ms ms' : List Mutation} {w : Workspace} :
    Orderly limits (ms ++ ms') w ↔
      Orderly limits ms w ∧ Orderly limits ms' (runs limits ms w) := by
  induction ms generalizing w with
  | nil => simp [Orderly]
  | cons m ms ih =>
      simp only [List.cons_append, Orderly, ih, and_assoc]
      rfl

section Rows

variable {limits : Limits} {w : Workspace} {row : DeletedFile}

theorem row_fRecordTombstone {key : Str} {now : Int}
    (h : row ∈ (fRecordTombstone w key now).deletedFiles) :
    row ∈ w.deletedFiles ∨ row = ⟨key, now⟩ := by
  unfold fRecordTombstone at h
  split at h
  · obtain ⟨old, hold, rfl⟩ := List.mem_map.mp h
    by_cases hkey : old.relPath = key
    · rw [if_pos hkey]
      exact Or.inr rfl
    · rw [if_neg hkey]
      exact Or.inl hold
  · rcases List.mem_append.mp h with hold | hnew
    · exact Or.inl hold
    · exact Or.inr (List.mem_singleton.mp hnew)

theorem row_fClearTombstone {key : Str} (h : row ∈ (fClearTombstone w key).deletedFiles) :
    row ∈ w.deletedFiles := List.mem_of_mem_filter h

theorem row_recordAll {keys : List Str} {now : Int}
    (h : row ∈ (recordAll keys now w).deletedFiles) :
    row ∈ w.deletedFiles ∨ row.relPath ∈ keys ∧ row.deletedAt = now := by
  induction keys generalizing w with
  | nil => exact Or.inl h
  | cons key keys ih =>
      rcases ih h with hstep | ⟨hmem, hnow⟩
      · rcases row_fRecordTombstone hstep with hold | rfl
        · exact Or.inl hold
        · exact Or.inr ⟨List.mem_cons_self, rfl⟩
      · exact Or.inr ⟨List.mem_cons_of_mem _ hmem, hnow⟩

theorem row_moveAll {fromKey toKey : Str} {keys : List Str} {now : Int}
    (h : row ∈ (moveAll fromKey toKey keys now w).deletedFiles) :
    row ∈ w.deletedFiles ∨ row.relPath ∈ keys ∧ row.deletedAt = now := by
  induction keys generalizing w with
  | nil => exact Or.inl h
  | cons key keys ih =>
      rcases ih h with hstep | ⟨hmem, hnow⟩
      · rcases row_fRecordTombstone (row_fClearTombstone hstep) with hold | rfl
        · exact Or.inl hold
        · exact Or.inr ⟨List.mem_cons_self, rfl⟩
      · exact Or.inr ⟨List.mem_cons_of_mem _ hmem, hnow⟩

/-- **A row after a request** was there before, or the request has the time of
the row and found its file. -/
theorem row_of_run (m : Mutation) (hflag : FlagTells w m)
    (h : row ∈ (m.run limits w).1.deletedFiles) :
    row ∈ w.deletedFiles ∨
      m.time = some row.deletedAt ∧ ∃ q c, w.root.fileAt q = some c ∧ keyOf q = row.relPath := by
  cases m with
  | putFile path content hex =>
      simp only [Mutation.run] at h
      rcases putFile_cases limits path content hex w with
        ⟨e, he⟩ | ⟨rel, _, _, _, root, ⟨_, hout⟩ | ⟨_, hout⟩⟩
      · rw [he] at h
        exact Or.inl h
      · rw [hout] at h
        exact Or.inl h
      · rw [hout] at h
        exact Or.inl (row_fClearTombstone h)
  | createFolder relPath =>
      simp only [Mutation.run] at h
      rcases createFolder_cases relPath w with ⟨e, he⟩ | ⟨rel, root, _, _, hout⟩
      · rw [he] at h
        exact Or.inl h
      · rw [hout] at h
        exact Or.inl h
  | writeThrough access content hex =>
      simp only [Mutation.run] at h
      rcases fWriteThrough_cases limits access content hex w with
        ⟨e, he⟩ | ⟨rel, _, _, _, _, _, root, ⟨_, hout⟩ | ⟨_, hout⟩⟩
      · rw [he] at h
        exact Or.inl h
      · rw [hout] at h
        exact Or.inl h
      · rw [hout] at h
        exact Or.inl h
  | deleteEntry path isDir now =>
      simp only [Mutation.run] at h
      rcases deleteEntry_cases path isDir now w with
        ⟨e, he⟩ | ⟨rel, root, hrel, ⟨_, hrem, hout⟩ | ⟨rfl, hrem, hout⟩⟩
      · rw [he] at h
        exact Or.inl h
      · rw [hout] at h
        rcases row_recordAll h with hold | ⟨hmem, hnow⟩
        · exact Or.inl hold
        · obtain ⟨r, c, _, hr, hkey⟩ := (mem_inside (fSafeRelPath_fixed hrel) _).mp hmem
          exact Or.inr ⟨congrArg some hnow.symm, _, c, hr, hkey.symm⟩
      · rw [hout] at h
        rcases row_fRecordTombstone h with hold | rfl
        · exact Or.inl hold
        · have hnodir : w.root.entryAt (pathOf rel) ≠ some .dir := hflag rel hrel
          rcases Tree.remove_finds hrem with ⟨c, hc⟩ | ⟨hdir, _⟩
          · exact Or.inr ⟨rfl, _, c, Tree.fileAt_eq_some_iff.mpr hc,
              (keyOf_pathOf (fSafeRelPath_fixed hrel)).2⟩
          · exact absurd hdir hnodir
  | moveEntry src dst now =>
      simp only [Mutation.run] at h
      rcases moveEntry_cases src dst now w with
        ⟨e, he⟩ | ⟨fromKey, toKey, hfrom, hto, ⟨_, hout⟩ | ⟨root, hren, hout⟩⟩
      · rw [he] at h
        exact Or.inl h
      · rw [hout] at h
        exact Or.inl h
      · rw [hout] at h
        rcases row_moveAll h with hold | ⟨hmem, hnow⟩
        · exact Or.inl hold
        · have hdst := (keyOf_pathOf (fSafeRelPath_fixed hto)).1.1
          obtain ⟨r, c, hr, hkey⟩ :=
            (mem_movedFiles (fSafeRelPath_fixed hfrom) hdst hren _).mp hmem
          exact Or.inr ⟨congrArg some hnow.symm, _, c, hr, hkey.symm⟩

/-- **Along a run.** -/
theorem row_of_runs {ms : List Mutation} (hms : Orderly limits ms w)
    (h : row ∈ (runs limits ms w).deletedFiles) :
    row ∈ w.deletedFiles ∨
      (∃ m ∈ ms, m.time = some row.deletedAt) ∧
        ∃ early, early <+: ms ∧
          ∃ q c, (runs limits early w).root.fileAt q = some c ∧ keyOf q = row.relPath := by
  induction ms generalizing w with
  | nil => exact Or.inl h
  | cons m ms ih =>
      obtain ⟨hflag, _, hrest⟩ := hms
      rcases ih hrest h with hstep | ⟨⟨m', hm', htime⟩, early, hearly, hfile⟩
      · rcases row_of_run m hflag hstep with hold | ⟨htime, hfile⟩
        · exact Or.inl hold
        · exact Or.inr ⟨⟨m, List.mem_cons_self, htime⟩, [], List.nil_prefix, hfile⟩
      · exact Or.inr ⟨⟨m', List.mem_cons_of_mem m hm', htime⟩, m :: early,
          List.cons_prefix_cons.mpr ⟨rfl, hearly⟩, hfile⟩

end Rows

/-! ## One row for a key -/

/-- The `PRIMARY KEY` of `deleted_files`. -/
def OneRow (w : Workspace) : Prop := (w.deletedFiles.map DeletedFile.relPath).Nodup

section OneRow

variable {limits : Limits} {w : Workspace}

theorem OneRow.fRecordTombstone (hw : OneRow w) (key : Str) (now : Int) :
    OneRow (fRecordTombstone w key now) := by
  unfold OneRow Lectern.fRecordTombstone
  split
  · -- The row that is there gets the new time.
    have hsame : DeletedFile.relPath ∘
        (fun row : DeletedFile => if row.relPath = key then ⟨key, now⟩ else row) =
        DeletedFile.relPath := by
      funext row
      by_cases hkey : row.relPath = key
      · simp [hkey]
      · simp [hkey]
    rw [List.map_map, hsame]
    exact hw
  · rename_i hnone
    rw [List.map_append, List.nodup_append]
    refine ⟨hw, List.nodup_singleton _, ?_⟩
    intro a ha b hb heq
    obtain ⟨row, hrow, rfl⟩ := List.mem_map.mp ha
    refine hnone (List.any_eq_true.mpr ⟨row, hrow, decide_eq_true ?_⟩)
    rw [heq, List.mem_singleton.mp hb]

theorem OneRow.fClearTombstone (hw : OneRow w) (key : Str) : OneRow (fClearTombstone w key) :=
  hw.sublist (List.filter_sublist.map DeletedFile.relPath)

theorem OneRow.recordAll (hw : OneRow w) (keys : List Str) (now : Int) :
    OneRow (recordAll keys now w) := by
  induction keys generalizing w with
  | nil => exact hw
  | cons key keys ih => exact ih (hw.fRecordTombstone key now)

theorem OneRow.moveAll (hw : OneRow w) (fromKey toKey : Str) (keys : List Str) (now : Int) :
    OneRow (moveAll fromKey toKey keys now w) := by
  induction keys generalizing w with
  | nil => exact hw
  | cons key keys ih => exact ih ((hw.fRecordTombstone key now).fClearTombstone _)

theorem OneRow.run (hw : OneRow w) (m : Mutation) : OneRow (m.run limits w).1 := by
  cases m with
  | putFile path content hex =>
      simp only [Mutation.run]
      rcases putFile_cases limits path content hex w with
        ⟨e, he⟩ | ⟨rel, _, _, _, root, ⟨_, hout⟩ | ⟨_, hout⟩⟩
      · rw [he]
        exact hw
      · rw [hout]
        exact hw
      · rw [hout]
        exact OneRow.fClearTombstone (w := { w with root := root }) hw rel
  | createFolder relPath =>
      simp only [Mutation.run]
      rcases createFolder_cases relPath w with ⟨e, he⟩ | ⟨rel, root, _, _, hout⟩
      · rw [he]
        exact hw
      · rw [hout]
        exact hw
  | writeThrough access content hex =>
      simp only [Mutation.run]
      rcases fWriteThrough_cases limits access content hex w with
        ⟨e, he⟩ | ⟨rel, _, _, _, _, _, root, ⟨_, hout⟩ | ⟨_, hout⟩⟩
      · rw [he]
        exact hw
      · rw [hout]
        exact hw
      · rw [hout]
        exact hw
  | deleteEntry path isDir now =>
      simp only [Mutation.run]
      rcases deleteEntry_cases path isDir now w with
        ⟨e, he⟩ | ⟨rel, root, _, ⟨_, _, hout⟩ | ⟨_, _, hout⟩⟩
      · rw [he]
        exact hw
      · rw [hout]
        exact OneRow.recordAll (w := { w with root := root }) hw _ now
      · rw [hout]
        exact OneRow.fRecordTombstone (w := { w with root := root }) hw rel now
  | moveEntry src dst now =>
      simp only [Mutation.run]
      rcases moveEntry_cases src dst now w with
        ⟨e, he⟩ | ⟨fromKey, toKey, _, _, ⟨_, hout⟩ | ⟨root, _, hout⟩⟩
      · rw [he]
        exact hw
      · rw [hout]
        exact hw
      · rw [hout]
        exact OneRow.moveAll (w := { w with root := root }) hw fromKey toKey _ now

theorem OneRow.runs (hw : OneRow w) (ms : List Mutation) : OneRow (runs limits ms w) :=
  runs_induction (P := OneRow) (fun m _ hw => hw.run m) ms hw

theorem OneRow.eq (hw : OneRow w) {row row' : DeletedFile} (h : row ∈ w.deletedFiles)
    (h' : row' ∈ w.deletedFiles) (hkey : row.relPath = row'.relPath) : row = row' :=
  List.inj_on_of_nodup_map hw h h' hkey

end OneRow

/-! ## What a row that goes and a file that goes leave behind -/

section Losses

variable {limits : Limits} {w : Workspace}

/-- A key whose row a request takes away is that of a file afterwards. -/
theorem live_of_cleared (hw : Sound w) (m : Mutation) {k : Str} (hbefore : Tombstoned w k)
    (hafter : ¬ Tombstoned (m.run limits w).1 k) :
    ∃ q c, (m.run limits w).1.root.fileAt q = some c ∧ keyOf q = k := by
  cases m with
  | putFile path content hex =>
      simp only [Mutation.run] at hafter ⊢
      rcases putFile_cases limits path content hex w with
        ⟨e, he⟩ | ⟨rel, hrel, _, _, root, ⟨_, hout⟩ | ⟨hwrite, hout⟩⟩
      · rw [he] at hafter
        exact absurd hbefore hafter
      · rw [hout] at hafter
        exact absurd hbefore hafter
      · rw [hout, tombstoned_fClearTombstone, not_and] at hafter
        obtain ⟨hvalid, hkey⟩ := keyOf_pathOf (fSafeRelPath_fixed hrel)
        have hk : k = rel := by
          by_contra hne
          exact hafter hne hbefore
        rw [hout]
        refine ⟨pathOf rel, content, ?_, hk.symm ▸ hkey⟩
        rw [root_fClearTombstone, fileAt_fWriteFileAtomic_ok hvalid.1 hwrite, if_pos rfl]
  | createFolder relPath =>
      simp only [Mutation.run] at hafter
      rcases createFolder_cases relPath w with ⟨e, he⟩ | ⟨rel, root, _, _, hout⟩
      · rw [he] at hafter
        exact absurd hbefore hafter
      · rw [hout] at hafter
        exact absurd hbefore hafter
  | writeThrough access content hex =>
      simp only [Mutation.run] at hafter
      rcases fWriteThrough_cases limits access content hex w with
        ⟨e, he⟩ | ⟨rel, _, _, _, _, _, root, ⟨_, hout⟩ | ⟨_, hout⟩⟩
      · rw [he] at hafter
        exact absurd hbefore hafter
      · rw [hout] at hafter
        exact absurd hbefore hafter
      · rw [hout] at hafter
        exact absurd hbefore hafter
  | deleteEntry path isDir now =>
      simp only [Mutation.run] at hafter
      rcases deleteEntry_cases path isDir now w with
        ⟨e, he⟩ | ⟨rel, root, _, ⟨_, _, hout⟩ | ⟨_, _, hout⟩⟩
      · rw [he] at hafter
        exact absurd hbefore hafter
      · rw [hout, tombstoned_recordAll] at hafter
        exact absurd (Or.inr hbefore) hafter
      · rw [hout, tombstoned_fRecordTombstone] at hafter
        exact absurd (Or.inr hbefore) hafter
  | moveEntry src dst now =>
      simp only [Mutation.run] at hafter ⊢
      rcases moveEntry_cases src dst now w with
        ⟨e, he⟩ | ⟨fromKey, toKey, hfrom, hto, ⟨_, hout⟩ | ⟨root, hren, hout⟩⟩
      · rw [he] at hafter
        exact absurd hbefore hafter
      · rw [hout] at hafter
        exact absurd hbefore hafter
      · have hfrom' := fSafeRelPath_fixed hfrom
        have hto' := fSafeRelPath_fixed hto
        rw [hout] at hafter ⊢
        rw [root_moveAll]
        by_cases hne : pathOf fromKey = pathOf toKey
        · rw [tombstoned_moveAll_self now _ (movedKey_self hfrom' hto' hne hren),
            tombstoned_root] at hafter
          have hk : k ∈ movedFiles w.root fromKey := by
            by_contra hnot
            exact hafter ⟨hnot, hbefore⟩
          obtain ⟨r, c, hr, hkey⟩ := (mem_movedFiles hfrom' (keyOf_pathOf hto').1.1 hren k).mp hk
          rw [← hne] at hren
          refine ⟨_, c, ?_, hkey.symm⟩
          show root.fileAt _ = some c
          rw [Tree.rename_self hren, fileAt_withParents, hr]
        · rw [tombstoned_move now hw.names hfrom' hto' hne hren, not_or, not_and] at hafter
          have hmoved : ¬ ∀ r c, w.root.fileAt (pathOf fromKey ++ r) = some c →
              k ≠ keyOf (pathOf toKey ++ r) := fun hfree => hafter.2 hfree hbefore
          simp only [not_forall, not_not] at hmoved
          obtain ⟨r, c, hr, hkey⟩ := hmoved
          refine ⟨pathOf toKey ++ r, c, ?_, hkey.symm⟩
          show root.fileAt _ = some c
          rw [fileAt_move hne hren, if_pos (List.prefix_append _ r), List.drop_left, hr]

/-- A file that a request takes away has a row afterwards. -/
theorem tombstoned_of_lost (hw : Sound w) (m : Mutation) (hflag : FlagTells w m)
    (hfresh : ∀ p, m.Temporary p → w.root.fileAt p = none) {q : List Str} {c : Str}
    (hq : w.root.fileAt q = some c) (hlost : (m.run limits w).1.root.fileAt q = none) :
    Tombstoned (m.run limits w).1 (keyOf q) := by
  have hfiles := @fileAt_run limits w m hfresh
  have hok : Succeeds limits m w := by
    cases hanswer : (m.run limits w).2 with
    | ok paths => exact ⟨paths, hanswer⟩
    | error e =>
        rw [hanswer] at hfiles
        rw [hfiles] at hlost
        cases hq.symm.trans hlost
  -- A write takes no file away.
  have hwrite (hwrites : ∀ ch, m.change = some ch → ∃ p content, ch = .write p content) :
      (m.run limits w).1.root.fileAt q ≠ none := by
    obtain ⟨paths, hpaths⟩ := hok
    rw [hfiles, hpaths, Mutation.done]
    cases hchange : m.change with
    | none =>
        show w.root.fileAt q ≠ none
        rw [hq]
        exact Option.some_ne_none c
    | some ch =>
        obtain ⟨p, content, rfl⟩ := hwrites ch hchange
        show (if q = p then some content else w.root.fileAt q) ≠ none
        split
        · exact Option.some_ne_none content
        · rw [hq]
          exact Option.some_ne_none c
  cases m with
  | putFile path content hex =>
      refine absurd hlost (hwrite ?_)
      intro ch hch
      obtain ⟨rel, _, rfl⟩ := Option.map_eq_some_iff.mp hch
      exact ⟨_, _, rfl⟩
  | createFolder relPath =>
      refine absurd hlost (hwrite ?_)
      intro ch hch
      cases hch
  | writeThrough access content hex =>
      refine absurd hlost (hwrite ?_)
      intro ch hch
      obtain ⟨rel, _, rfl⟩ := Option.map_eq_some_iff.mp hch
      exact ⟨_, _, rfl⟩
  | deleteEntry path isDir now =>
      refine lost_deleteEntry hok ?_ hq hlost
      intro rel hrel hset
      have htells := hflag rel hrel
      rwa [if_pos hset] at htells
  | moveEntry src dst now => exact lost_moveEntry hw hok hq hlost

/-! ## Files since a moment -/

/-- The file is there, or has a row from `since` or later. -/
def Known (since : Int) (w : Workspace) (q : List Str) : Prop :=
  w.root.fileAt q ≠ none ∨ ∃ row ∈ w.deletedFiles, row.relPath = keyOf q ∧ since ≤ row.deletedAt

variable {since : Int} {q : List Str}

theorem Known.run (hq : ValidPath q) (hw : Sound w) (hone : OneRow w) (m : Mutation)
    (hflag : FlagTells w m) (hfresh : ∀ p, m.Temporary p → w.root.fileAt p = none)
    (hsince : ∀ t, m.time = some t → since ≤ t) (hknown : Known since w q) :
    Known since (m.run limits w).1 q := by
  have hw' : Sound (m.run limits w).1 := sound_run m hw
  by_cases hlive : (m.run limits w).1.root.fileAt q = none
  · right
    -- The key has a row after the request: the old one or a new one.
    have hdead : Tombstoned (m.run limits w).1 (keyOf q) := by
      rcases hknown with hfile | ⟨row, hrow, hkey, _⟩
      · obtain ⟨c, hc⟩ := Option.ne_none_iff_exists'.mp hfile
        exact tombstoned_of_lost hw m hflag hfresh hc hlive
      · by_contra hcleared
        obtain ⟨q', c, hc, hkey'⟩ := live_of_cleared hw m ⟨row, hrow, hkey⟩ hcleared
        rw [keyOf_injective (hw'.names.validPath hc) hq hkey', hlive] at hc
        cases hc
    obtain ⟨row', hrow', hkey'⟩ := hdead
    refine ⟨row', hrow', hkey', ?_⟩
    rcases row_of_run m hflag hrow' with hold | ⟨htime, _⟩
    · rcases hknown with hfile | ⟨row, hrow, hkey, hlate⟩
      · obtain ⟨c, hc⟩ := Option.ne_none_iff_exists'.mp hfile
        exact absurd ⟨row', hold, hkey'⟩ (hw.live q c hc)
      · rw [hone.eq hold hrow (hkey'.trans hkey.symm)]
        exact hlate
    · exact hsince _ htime
  · exact Or.inl hlive

/-- **Along a run** of requests since the moment. -/
theorem Known.runs (hq : ValidPath q) {ms : List Mutation} (hw : Sound w) (hone : OneRow w)
    (hms : Orderly limits ms w) (hsince : ∀ m ∈ ms, ∀ t, m.time = some t → since ≤ t)
    (hknown : Known since w q) : Known since (runs limits ms w) q := by
  induction ms generalizing w with
  | nil => exact hknown
  | cons m ms ih =>
      obtain ⟨hflag, hfresh, hrest⟩ := hms
      have hstep : Known since (m.run limits w).1 q :=
        hknown.run hq hw hone m hflag hfresh (hsince m List.mem_cons_self)
      exact ih (sound_run m hw) (hone.run m) hrest
        (fun m' hm' => hsince m' (List.mem_cons_of_mem m hm')) hstep

end Losses

/-- **What a device learns that comes back**: in a run whose requests are older
than some moment up to a point and not older from there on, whatever the order
of the rows, the answer has one row for a key at most, none for a file that is
there, and for a path with no file a row from the moment or later exactly when
there was one at that point or since. -/
theorem deleted_since (limits : Limits) (earlier later : List Mutation) {since : Int}
    (hearlier : ∀ m ∈ earlier, ∀ t, m.time = some t → t < since)
    (hlater : ∀ m ∈ later, ∀ t, m.time = some t → since ≤ t)
    (horderly : Orderly limits (earlier ++ later) Workspace.empty) {found : List DeletedFile}
    (hfound : found.Perm (after limits (earlier ++ later)).deletedFiles) {body : Body}
    (hanswer : getDeleted found = .ok body) :
    ((readDeleted body).map DeletedFile.relPath).Nodup ∧ ∀ q, ValidPath q →
      ((after limits (earlier ++ later)).root.fileAt q ≠ none →
        ∀ row ∈ readDeleted body, row.relPath ≠ keyOf q) ∧
      ((after limits (earlier ++ later)).root.fileAt q = none →
        ((∃ row ∈ readDeleted body, row.relPath = keyOf q ∧ since ≤ row.deletedAt) ↔
          ∃ early, early <+: later ∧
            (after limits (earlier ++ early)).root.fileAt q ≠ none)) := by
  have hsound := sound_runs limits (earlier ++ later) Sound.empty
  have hone : OneRow Workspace.empty := List.nodup_nil
  have hmem : ∀ row, row ∈ readDeleted body ↔
      row ∈ (after limits (earlier ++ later)).deletedFiles := by
    intro row
    rw [readDeleted_getDeleted hanswer]
    exact hfound.mem_iff
  obtain ⟨hfirst, hsecond⟩ := orderly_append.mp horderly
  refine ⟨?_, ?_⟩
  · rw [readDeleted_getDeleted hanswer]
    exact (hfound.map DeletedFile.relPath).nodup_iff.mpr (hone.runs (earlier ++ later))
  · intro q hq
    refine ⟨?_, ?_⟩
    · intro hlive row hrow hkey
      obtain ⟨c, hc⟩ := Option.ne_none_iff_exists'.mp hlive
      exact hsound.live q c hc ⟨row, (hmem row).mp hrow, hkey⟩
    · intro hgone
      constructor
      · rintro ⟨row, hrow, hkey, hlate⟩
        have hthere := (hmem row).mp hrow
        rw [after, runs_append] at hthere
        rcases row_of_runs hsecond hthere with hold | ⟨_, early, hearly, q', c, hc, hkey'⟩
        · -- A row from before the moment is older.
          exfalso
          rcases row_of_runs hfirst hold with hempty | ⟨⟨m, hm, htime⟩, _⟩
          · cases hempty
          · have hlt := hearlier m hm _ htime
            omega
        · refine ⟨early, hearly, ?_⟩
          have hvalid : ValidPath q' := by
            rw [← runs_append] at hc
            exact (sound_runs limits (earlier ++ early) Sound.empty).names.validPath hc
          rw [after, runs_append, ← keyOf_injective hvalid hq (hkey'.trans hkey), hc]
          exact Option.some_ne_none c
      · rintro ⟨early, ⟨rest, rfl⟩, hlive⟩
        have hrest : Orderly limits rest (after limits (earlier ++ early)) := by
          rw [← List.append_assoc] at horderly
          exact (orderly_append.mp horderly).2
        have hknown := Known.runs hq (sound_runs limits (earlier ++ early) Sound.empty)
          (hone.runs (earlier ++ early)) hrest
          (fun m hm => hlater m (List.mem_append_right early hm)) (Or.inl hlive)
        have hruns : runs limits rest (after limits (earlier ++ early)) =
            after limits (earlier ++ (early ++ rest)) := by
          rw [← List.append_assoc]
          exact (runs_append limits (earlier ++ early) rest Workspace.empty).symm
        rw [hruns] at hknown
        obtain ⟨row, hrow, hkey, hlate⟩ := hknown.resolve_left (fun hne => hne hgone)
        exact ⟨row, (hmem row).mpr hrow, hkey, hlate⟩

/-! ### Two deletions, one before the device was there -/

def beforeVisit : List Mutation :=
  [.putFile (str "a.mdp") (str "x") (str "00"), .deleteEntry (str "a.mdp") false 5]

def sinceVisit : List Mutation :=
  [.putFile (str "d/b.mdp") (str "y") (str "01"), .deleteEntry (str "d") true 12]

def bothRows : List DeletedFile := [⟨str "d/b.mdp", 12⟩, ⟨str "a.mdp", 5⟩]

/-- The device that was there at 10 learns of the second. -/
theorem deleted_since_visit :
    ∃ row ∈ readDeleted (.json (.array (bothRows.map DeletedFile.item))),
      row.relPath = keyOf [str "d", str "b.mdp"] ∧ 10 ≤ row.deletedAt := by
  have hfound : bothRows.Perm (after ⟨0, 100⟩ (beforeVisit ++ sinceVisit)).deletedFiles := by
    decide +kernel
  have hdumps : (Json.array (bothRows.map DeletedFile.item)).dumps = true := by decide +kernel
  have hanswer : getDeleted bothRows = .ok (.json (.array (bothRows.map DeletedFile.item))) := by
    unfold getDeleted fJsonResponse
    rw [hdumps, if_pos rfl]
  have hearlier : ∀ m ∈ beforeVisit, ∀ t, m.time = some t → t < 10 := by
    simp [beforeVisit, Mutation.time]
  have hlater : ∀ m ∈ sinceVisit, ∀ t, m.time = some t → 10 ≤ t := by
    simp [sinceVisit, Mutation.time]
  have hall := (deleted_since ⟨0, 100⟩ beforeVisit sinceVisit hearlier hlater (by decide +kernel)
    hfound hanswer).2 [str "d", str "b.mdp"] (by decide +kernel)
  refine (hall.2 (by decide +kernel)).mpr ⟨sinceVisit.take 1, List.take_prefix 1 _, ?_⟩
  decide +kernel

end Lectern
