import Lectern.LiveFiles

/-!
# What a delete or a move remembers

A delete answers OK when something was removed, and it records the keys it
collected before the removal.  Which keys those are is decided by the `isDir`
flag of the request, not by the entry: with the flag set the keys below the
path are collected, without it the path itself is.

So the flag has to fit.  A regular file removed with the flag set leaves no row
behind, and an empty folder removed without it leaves a row for a path that may
never have been a file.  `deletion_remembered_iff` says that these are the only
ways to go wrong.
-/

namespace Lectern

open FileTree

variable {limits : Limits}

/-- The workspace after the requests of a run. -/
abbrev after (limits : Limits) (ms : List Mutation) : Workspace := runs limits ms Workspace.empty

/-- At some moment of the run a regular file was there. -/
def WasFile (limits : Limits) (ms : List Mutation) (q : List Str) : Prop :=
  ∃ early, early <+: ms ∧ (after limits early).root.fileAt q ≠ none

/-- The request was answered OK. -/
def Succeeds (limits : Limits) (m : Mutation) (w : Workspace) : Prop :=
  ∃ paths, (m.run limits w).2 = .ok paths

def Mutation.Removes : Mutation → Prop
  | .deleteEntry _ _ _ => True
  | .moveEntry _ _ _ => True
  | _ => False

/-- Every file the request took away has a row, and every row is that of a path
that was a file once. -/
def Remembers (limits : Limits) (ms : List Mutation) (m : Mutation) : Prop :=
  (∀ q c, (after limits ms).root.fileAt q = some c →
    (after limits (ms ++ [m])).root.fileAt q = none →
    Tombstoned (after limits (ms ++ [m])) (keyOf q)) ∧
  ∀ k, Tombstoned (after limits (ms ++ [m])) k → ∃ q, keyOf q = k ∧ WasFile limits ms q

/-- The flag of a delete fits what it finds: no regular file when it is set, no
folder at a path that never was a file when it is not. -/
def FlagFits (limits : Limits) (ms : List Mutation) : Mutation → Prop
  | .deleteEntry path isDir _ => ∀ rel, fSafeRelPath path = .ok rel →
      (isDir = true → (after limits ms).root.fileAt (pathOf rel) = none) ∧
      (isDir = false → (after limits ms).root.entryAt (pathOf rel) = some .dir →
        WasFile limits ms (pathOf rel))
  | _ => True

/-! ## Rows -/

theorem WasFile.mono {ms ms' : List Mutation} (h : ms <+: ms') {q : List Str}
    (hq : WasFile limits ms q) : WasFile limits ms' q := by
  obtain ⟨early, hpre, hfile⟩ := hq
  exact ⟨early, hpre.trans h, hfile⟩

theorem wasFile_now {ms : List Mutation} {q : List Str} {c : Str}
    (h : (after limits ms).root.fileAt q = some c) : WasFile limits ms q :=
  ⟨ms, List.prefix_rfl, by simp [h]⟩

theorem WasFile.validPath {ms : List Mutation} {q : List Str} (hq : WasFile limits ms q) :
    ValidPath q := by
  obtain ⟨early, _, hfile⟩ := hq
  obtain ⟨c, hc⟩ := Option.ne_none_iff_exists'.mp hfile
  exact (sound_runs limits early Sound.empty).names.validPath hc

/-- **Who gets a row**: a file that is there when the request arrives, or the
folder a delete without the flag removes. -/
theorem tombstoned_run {w : Workspace} (m : Mutation) {k : Str}
    (hk : Tombstoned (m.run limits w).1 k) :
    Tombstoned w k ∨ (∃ q c, w.root.fileAt q = some c ∧ keyOf q = k) ∨
    ∃ path now, m = .deleteEntry path false now ∧ Succeeds limits m w ∧
      fSafeRelPath path = .ok k ∧ w.root.entryAt (pathOf k) = some .dir := by
  cases m with
  | putFile path content hex =>
      simp only [Mutation.run] at hk
      rcases putFile_cases limits path content hex w with ⟨e, he⟩ | ⟨rel, _, _, _, root, hout⟩
      · rw [he] at hk
        exact Or.inl hk
      · rcases hout with ⟨_, hout⟩ | ⟨_, hout⟩
        · rw [hout] at hk
          exact Or.inl hk
        · rw [hout, tombstoned_fClearTombstone] at hk
          exact Or.inl hk.2
  | createFolder relPath =>
      simp only [Mutation.run] at hk
      rcases createFolder_cases relPath w with ⟨e, he⟩ | ⟨rel, root, _, _, hout⟩
      · rw [he] at hk
        exact Or.inl hk
      · rw [hout] at hk
        exact Or.inl hk
  | writeThrough access content hex =>
      simp only [Mutation.run] at hk
      rcases fWriteThrough_cases limits access content hex w with
        ⟨e, he⟩ | ⟨rel, _, _, _, _, _, root, hout⟩
      · rw [he] at hk
        exact Or.inl hk
      · rcases hout with ⟨_, hout⟩ | ⟨_, hout⟩
        · rw [hout] at hk
          exact Or.inl hk
        · rw [hout] at hk
          exact Or.inl hk
  | deleteEntry path isDir now =>
      simp only [Mutation.run] at hk
      rcases deleteEntry_cases path isDir now w with
        ⟨e, he⟩ | ⟨rel, root, hrel, ⟨_, hrem, hout⟩ | ⟨rfl, hrem, hout⟩⟩
      · rw [he] at hk
        exact Or.inl hk
      · rw [hout, tombstoned_recordAll, tombstoned_root, mem_inside (fSafeRelPath_fixed hrel)] at hk
        rcases hk with ⟨r, c, _, hr, heq⟩ | hk
        · exact Or.inr (Or.inl ⟨_, c, hr, heq.symm⟩)
        · exact Or.inl hk
      · rw [hout, tombstoned_fRecordTombstone, tombstoned_root] at hk
        rcases hk with rfl | hk
        · rcases Tree.remove_finds hrem with ⟨c, hc⟩ | ⟨hdir, _⟩
          · have hkey := (keyOf_pathOf (fSafeRelPath_fixed hrel)).2
            exact Or.inr (Or.inl ⟨_, c, Tree.fileAt_eq_some_iff.mpr hc, hkey⟩)
          · refine Or.inr (Or.inr ⟨path, now, rfl, ⟨[k], ?_⟩, hrel, hdir⟩)
            simp only [Mutation.run]
            rw [hout]
        · exact Or.inl hk
  | moveEntry src dst now =>
      simp only [Mutation.run] at hk
      rcases moveEntry_cases src dst now w with
        ⟨e, he⟩ | ⟨fromKey, toKey, hfrom, hto, ⟨_, hout⟩ | ⟨root, hren, hout⟩⟩
      · rw [he] at hk
        exact Or.inl hk
      · rw [hout] at hk
        exact Or.inl hk
      · rw [hout] at hk
        have hfrom' := fSafeRelPath_fixed hfrom
        have hto' := fSafeRelPath_fixed hto
        have hmem := mem_movedFiles hfrom' (keyOf_pathOf hto').1.1 hren
        rcases tombstoned_moveAll_le hk with hmoved | hold
        · obtain ⟨r, c, hr, heq⟩ := (hmem k).mp hmoved
          exact Or.inr (Or.inl ⟨_, c, hr, heq.symm⟩)
        · exact Or.inl hold

/-- While the flags fit, every row is that of a path that was a file. -/
theorem rows_were_files (ms : List Mutation)
    (hfit : ∀ before m, before ++ [m] <+: ms → Succeeds limits m (after limits before) →
      FlagFits limits before m) {k : Str} (hk : Tombstoned (after limits ms) k) :
    ∃ q, keyOf q = k ∧ WasFile limits ms q := by
  induction ms using List.reverseRecOn generalizing k with
  | nil => exact absurd hk (not_tombstoned_empty k)
  | append_singleton ms m ih =>
      have hrest : ∀ before m', before ++ [m'] <+: ms → Succeeds limits m' (after limits before) →
          FlagFits limits before m' := fun before m' hpre =>
        hfit before m' (hpre.trans (List.prefix_append ms [m]))
      rw [after, runs_concat] at hk
      rcases tombstoned_run m hk with hold | ⟨q, c, hq, hkey⟩ | ⟨path, now, rfl, hok, hrel, hdir⟩
      · obtain ⟨q, hkey, hq⟩ := ih hrest hold
        exact ⟨q, hkey, hq.mono (List.prefix_append ms [m])⟩
      · exact ⟨q, hkey, (wasFile_now hq).mono (List.prefix_append ms [m])⟩
      · have hflag := (hfit ms _ List.prefix_rfl hok k hrel).2 rfl hdir
        exact ⟨_, (keyOf_pathOf (fSafeRelPath_fixed hrel)).2,
          hflag.mono (List.prefix_append ms [_])⟩

/-! ## Lost files -/

/-- A file a delete takes away has a row afterwards, unless it is the path
itself and the flag is set. -/
theorem lost_deleteEntry {w : Workspace} {path : Str} {isDir : Bool} {now : Int}
    (hok : Succeeds limits (.deleteEntry path isDir now) w)
    (hflag : ∀ rel, fSafeRelPath path = .ok rel → isDir = true → w.root.fileAt (pathOf rel) = none)
    {q : List Str} {c : Str} (hq : w.root.fileAt q = some c)
    (hlost : (deleteEntry path isDir now w).1.root.fileAt q = none) :
    Tombstoned (deleteEntry path isDir now w).1 (keyOf q) := by
  obtain ⟨paths, hok⟩ := hok
  simp only [Mutation.run] at hok
  rcases deleteEntry_cases path isDir now w with
    ⟨e, he⟩ | ⟨rel, root, hrel, ⟨hset, hrem, hout⟩ | ⟨_, hrem, hout⟩⟩
  · rw [he] at hok
    cases hok
  · rw [hout, root_recordAll, Tree.fileAt_removeAll hrem] at hlost
    rw [hout, tombstoned_recordAll, mem_inside (fSafeRelPath_fixed hrel)]
    by_cases hpre : pathOf rel <+: q
    · obtain ⟨r, rfl⟩ := hpre
      refine Or.inl ⟨r, c, ?_, hq, rfl⟩
      rintro rfl
      rw [List.append_nil, hflag rel hrel hset] at hq
      cases hq
    · rw [if_neg hpre, hq] at hlost
      cases hlost
  · rw [hout, root_fRecordTombstone,
      Tree.fileAt_removeAll (Tree.removeAll_of_remove hrem)] at hlost
    rw [hout, tombstoned_fRecordTombstone]
    by_cases hpre : pathOf rel <+: q
    · obtain ⟨r, rfl⟩ := hpre
      have hat := Tree.fileAt_eq_some_iff.mp hq
      by_cases hr : r = []
      · rw [hr, List.append_nil, (keyOf_pathOf (fSafeRelPath_fixed hrel)).2]
        exact Or.inl rfl
      · -- Below what a plain removal accepts there is nothing.
        exfalso
        obtain ⟨n, r, rfl⟩ := List.exists_cons_of_ne_nil hr
        rcases Tree.remove_finds hrem with ⟨c', hc'⟩ | ⟨_, hempty⟩
        · have hbelow := Dir.entryAt_below_file (d := w.root.root) hc' hr
          rw [show w.root.root.entryAt _ = _ from hat] at hbelow
          cases hbelow
        · rw [hempty n r] at hat
          cases hat
    · rw [if_neg hpre, hq] at hlost
      cases hlost

/-- A file a move takes away from its path has a row afterwards. -/
theorem lost_moveEntry {w : Workspace} (hw : Sound w) {src dst : Str} {now : Int}
    (hok : Succeeds limits (.moveEntry src dst now) w)
    {q : List Str} {c : Str} (hq : w.root.fileAt q = some c)
    (hlost : (moveEntry src dst now w).1.root.fileAt q = none) :
    Tombstoned (moveEntry src dst now w).1 (keyOf q) := by
  obtain ⟨paths, hok⟩ := hok
  simp only [Mutation.run] at hok
  rcases moveEntry_cases src dst now w with
    ⟨e, he⟩ | ⟨fromKey, toKey, hfrom, hto, ⟨_, hout⟩ | ⟨root, hren, hout⟩⟩
  · rw [he] at hok
    cases hok
  · rw [hout] at hok
    cases hok
  · have hfrom' := fSafeRelPath_fixed hfrom
    have hto' := fSafeRelPath_fixed hto
    rw [hout, root_moveAll] at hlost
    rw [hout]
    by_cases hne : pathOf fromKey = pathOf toKey
    · rw [← hne] at hren
      rw [Tree.rename_self hren, fileAt_withParents, hq] at hlost
      cases hlost
    · rw [tombstoned_move now hw.names hfrom' hto' hne hren]
      rw [fileAt_move hne hren] at hlost
      by_cases hpre : pathOf toKey <+: q
      · -- What a move replaces is replaced by a file.
        exfalso
        obtain ⟨r, rfl⟩ := hpre
        rw [if_pos (List.prefix_append _ r), List.drop_left] at hlost
        have hat := Tree.fileAt_eq_some_iff.mp (fileAt_withParents w.root (pathOf toKey) _ ▸ hq)
        by_cases hr : r = []
        · subst hr
          rw [List.append_nil] at hlost hat
          rcases Tree.rename_target hne hren with hnone | ⟨c₁, c₂, hsrc, _⟩ | ⟨_, hdir, _⟩
          · rw [hnone] at hat
            cases hat
          · have := Tree.fileAt_eq_some_iff.mpr hsrc
            rw [fileAt_withParents, hlost] at this
            cases this
          · rw [hdir] at hat
            cases hat
        · rw [Tree.rename_below_target hne hren hr] at hat
          cases hat
      · rw [if_neg hpre] at hlost
        by_cases hsrc : pathOf fromKey <+: q
        · obtain ⟨r, rfl⟩ := hsrc
          exact Or.inl ⟨r, c, hq, rfl⟩
        · rw [if_neg hsrc, hq] at hlost
          cases hlost

/-! ## The flag decides -/

theorem remembers_of_fits {ms : List Mutation} {m : Mutation} (hm : m.Removes)
    (hok : Succeeds limits m (after limits ms))
    (hfit : ∀ before m', before ++ [m'] <+: ms ++ [m] →
      Succeeds limits m' (after limits before) → FlagFits limits before m') :
    Remembers limits ms m := by
  have hsound := sound_runs limits ms Sound.empty
  refine ⟨?_, ?_⟩
  · intro q c hq hlost
    rw [after, runs_concat] at hlost ⊢
    cases m with
    | putFile path content hex => exact hm.elim
    | createFolder relPath => exact hm.elim
    | writeThrough access content hex => exact hm.elim
    | deleteEntry path isDir now =>
        have hflag := hfit ms _ List.prefix_rfl hok
        exact lost_deleteEntry hok (fun rel hrel => (hflag rel hrel).1) hq hlost
    | moveEntry src dst now => exact lost_moveEntry hsound hok hq hlost
  · intro k hk
    have hrest : ∀ before m', before ++ [m'] <+: ms → Succeeds limits m' (after limits before) →
        FlagFits limits before m' := fun before m' hpre =>
      hfit before m' (hpre.trans (List.prefix_append ms [m]))
    rw [after, runs_concat] at hk
    rcases tombstoned_run m hk with hold | ⟨q, c, hq, hkey⟩ | ⟨path, now, rfl, _, hrel, hdir⟩
    · exact rows_were_files ms hrest hold
    · exact ⟨q, hkey, wasFile_now hq⟩
    · exact ⟨_, (keyOf_pathOf (fSafeRelPath_fixed hrel)).2,
        (hfit ms _ List.prefix_rfl hok k hrel).2 rfl hdir⟩

theorem fits_of_remembers {ms : List Mutation} {m : Mutation}
    (hok : Succeeds limits m (after limits ms)) (hrem : m.Removes → Remembers limits ms m) :
    FlagFits limits ms m := by
  have hsound := sound_runs limits ms Sound.empty
  cases m with
  | putFile path content hex => trivial
  | createFolder relPath => trivial
  | writeThrough access content hex => trivial
  | moveEntry src dst now => trivial
  | deleteEntry path isDir now =>
      intro rel hrel
      obtain ⟨hlost, hrows⟩ := hrem trivial
      have hfixed := fSafeRelPath_fixed hrel
      obtain ⟨hvalid, hkey⟩ := keyOf_pathOf hfixed
      obtain ⟨paths, hok⟩ := hok
      simp only [Mutation.run] at hok
      rcases deleteEntry_cases path isDir now (after limits ms) with
        ⟨e, he⟩ | ⟨rel', root, hrel', hcase⟩
      · rw [he] at hok
        cases hok
      · rw [hrel, Except.ok.injEq] at hrel'
        subst hrel'
        rcases hcase with ⟨rfl, hremove, hout⟩ | ⟨rfl, hremove, hout⟩
        · refine ⟨fun _ => ?_, fun hflag => absurd hflag (by decide)⟩
          -- A file removed with the flag set would have no row.
          cases hfile : (after limits ms).root.fileAt (pathOf rel) with
          | none => rfl
          | some c =>
              exfalso
              have hgone : (after limits (ms ++ [.deleteEntry path true now])).root.fileAt
                  (pathOf rel) = none := by
                rw [after, runs_concat]
                simp only [Mutation.run]
                rw [hout, root_recordAll, Tree.fileAt_removeAll hremove, if_pos List.prefix_rfl]
              have hdead := hlost _ c hfile hgone
              rw [after, runs_concat] at hdead
              simp only [Mutation.run] at hdead
              rw [hout, tombstoned_recordAll, tombstoned_root, mem_inside hfixed] at hdead
              rcases hdead with ⟨r, c', hr, hbelow, _⟩ | hold
              · have hnone := Dir.entryAt_below_file (d := (after limits ms).root.root)
                  (Tree.fileAt_eq_some_iff.mp hfile) hr
                have hat := Tree.fileAt_eq_some_iff.mp hbelow
                rw [show (after limits ms).root.root.entryAt _ = _ from hat] at hnone
                cases hnone
              · exact hsound.live _ c hfile hold
        · refine ⟨fun hflag => absurd hflag (by decide), fun _ _ => ?_⟩
          -- The row of the removed folder has to be that of a former file.
          have hdead : Tombstoned (after limits (ms ++ [.deleteEntry path false now])) rel := by
            rw [after, runs_concat]
            simp only [Mutation.run]
            rw [hout, tombstoned_fRecordTombstone]
            exact Or.inl rfl
          obtain ⟨q, hq, hwas⟩ := hrows rel hdead
          rw [← keyOf_injective hwas.validPath hvalid (hq.trans hkey.symm)]
          exact hwas

/-- **Deletion is remembered exactly when the flags fit.**  In a run from an
empty workspace, every successful delete and move remembers what it took away,
and rows stand for former files only, if and only if no successful delete names
a regular file with the flag set, or without it a folder at a path that never
was a file. -/
theorem deletion_remembered_iff (limits : Limits) (ms : List Mutation) :
    (∀ before m, before ++ [m] <+: ms → m.Removes → Succeeds limits m (after limits before) →
      Remembers limits before m) ↔
    ∀ before m, before ++ [m] <+: ms → Succeeds limits m (after limits before) →
      FlagFits limits before m := by
  constructor
  · intro h before m hpre hok
    exact fits_of_remembers hok (fun hm => h before m hpre hm hok)
  · intro h before m hpre hm hok
    apply remembers_of_fits hm hok
    intro before' m' hpre'
    exact h before' m' (hpre'.trans hpre)

/-- A file deleted with the flag set leaves no row, and an empty folder deleted
without it gets one. -/
theorem deletion_not_remembered :
    (Succeeds ⟨0, 100⟩ (.deleteEntry (str "a.mdp") true 1)
        (after ⟨0, 100⟩ [.putFile (str "a.mdp") (str "x") (str "00")]) ∧
      ¬ Remembers ⟨0, 100⟩ [.putFile (str "a.mdp") (str "x") (str "00")]
        (.deleteEntry (str "a.mdp") true 1)) ∧
    Succeeds ⟨0, 100⟩ (.deleteEntry (str "docs") false 1)
        (after ⟨0, 100⟩ [.createFolder (str "docs")]) ∧
      ¬ Remembers ⟨0, 100⟩ [.createFolder (str "docs")] (.deleteEntry (str "docs") false 1) := by
  refine ⟨⟨⟨[], by rfl⟩, ?_⟩, ⟨[str "docs"], by rfl⟩, ?_⟩
  · intro h
    have hdead := h.1 [str "a.mdp"] (str "x") (by decide) (by decide)
    revert hdead
    decide
  · intro h
    obtain ⟨q, hkey, hwas⟩ := h.2 (str "docs") (by decide)
    have hq : q = [str "docs"] :=
      keyOf_injective hwas.validPath (by decide +kernel) (hkey.trans (keyOf_singleton _).symm)
    obtain ⟨early, hpre, hfile⟩ := hwas
    rw [hq] at hfile
    rcases List.prefix_concat_iff.mp (show early <+: [] ++ [.createFolder (str "docs")] from hpre)
      with rfl | hnil
    · exact hfile (by decide)
    · rw [List.prefix_nil.mp hnil] at hfile
      exact hfile (by decide)

end Lectern
