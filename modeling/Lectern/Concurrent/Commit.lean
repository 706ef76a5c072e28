import Lectern.Concurrent.Steps
import Lectern.FileTree.Same
import Lectern.Quota

/-!
# Carrying out a request

A request takes effect in the one step that changes the disk.  Here that step
is compared with its handler run on a workspace whose disk shows the same: what
the step leaves is what the handler leaves, the keys it still has to write rows
for are the only ones whose rows the handler changes, and each of them is then
`Accounted` for, live or with a row.

The comparison needs that what the request found out before the step still
holds.  `Timely` says what that is.
-/

namespace Lectern.Concurrent

open FileTree

variable {limits : Limits}

/-! ## Files that were there once -/

/-- The path is a live file or has a row. -/
def Accounted (w : Workspace) (q : List Str) : Prop :=
  w.root.fileAt q ≠ none ∨ Tombstoned w (keyOf q)

/-- The request loses no file without a row: no delete with the flag set names
a regular file, and the temporary sibling of a write is not one. -/
def LosesNone (w : Workspace) : Mutation → Prop
  | .putFile path _ hex => ∀ rel, fSafeRelPath path = .ok rel →
      w.root.fileAt (tempPath (pathOf rel) hex) = none
  | .createFolder _ => True
  | .deleteEntry path isDir _ => ∀ rel, fSafeRelPath path = .ok rel → isDir = true →
      w.root.fileAt (pathOf rel) = none
  | .moveEntry _ _ _ => True
  | .writeThrough access _ hex => ∀ rel, fSafeRelPath access.relPath = .ok rel →
      w.root.fileAt (tempPath (pathOf rel) hex) = none

theorem accounted_write {w : Workspace} {q p : List Str} {hex content : Str} {root : Disk}
    (hp : p ≠ []) (h : fWriteFileAtomic w.root p hex content = (root, true))
    (htemp : w.root.fileAt (tempPath p hex) = none) (hq : Accounted w q) :
    root.fileAt q ≠ none ∨ q ≠ p ∧ Tombstoned w (keyOf q) := by
  rw [fileAt_fWriteFileAtomic_ok hp h]
  by_cases hqp : q = p
  · rw [if_pos hqp]
    exact Or.inl (Option.some_ne_none content)
  · rw [if_neg hqp]
    rcases hq with hlive | hdead
    · have hne : q ≠ tempPath p hex := by
        intro heq
        exact hlive (heq ▸ htemp)
      rw [if_neg hne]
      exact Or.inl hlive
    · exact Or.inr ⟨hqp, hdead⟩

theorem accounted_move {w : Workspace} (hw : Sound w) {root : Disk} {fromKey toKey : Str}
    (now : Int) (hfrom : fSafeRelPath fromKey = .ok fromKey)
    (hto : fSafeRelPath toKey = .ok toKey)
    (h : (withParents w.root (pathOf toKey)).rename (pathOf fromKey) (pathOf toKey) = some root)
    {q : List Str} (hvalid : ValidPath q) (hdead : Tombstoned w (keyOf q)) :
    Accounted (moveAll fromKey toKey (movedFiles w.root fromKey) now { w with root := root }) q := by
  have hdst := (keyOf_pathOf hto).1
  by_cases hne : pathOf fromKey = pathOf toKey
  · have hself := movedKey_self hfrom hto hne h
    refine Or.inr ((tombstoned_moveAll_self now _ hself _).mpr ⟨?_, hdead⟩)
    intro hx
    obtain ⟨r, c, hr, hkey⟩ := (mem_movedFiles hfrom hdst.1 h _).mp hx
    rw [hkey] at hdead
    exact hw.live _ c hr hdead
  · unfold Accounted
    rw [root_moveAll, fileAt_move hne h, tombstoned_move now hw.names hfrom hto hne h]
    by_cases hplace : ∃ r c, w.root.fileAt (pathOf fromKey ++ r) = some c ∧
        keyOf q = keyOf (pathOf toKey ++ r)
    · obtain ⟨r, c, hr, hkey⟩ := hplace
      have hq := keyOf_injective hvalid (hw.names.append hdst hr) hkey
      rw [hq, if_pos (List.prefix_append _ r), List.drop_left, hr]
      exact Or.inl (Option.some_ne_none c)
    · refine Or.inr (Or.inr ⟨?_, hdead⟩)
      intro r c hr hkey
      exact hplace ⟨r, c, hr, hkey⟩

/-- **What was there once stays accounted for**, live or with a row. -/
theorem accounted_run {w : Workspace} (hw : Sound w) {m : Mutation} (hok : Succeeds limits m w)
    (hnone : LosesNone w m) {q : List Str} (hvalid : ValidPath q) (hq : Accounted w q) :
    Accounted (m.run limits w).1 q := by
  obtain ⟨paths, hok⟩ := id hok
  cases m with
  | putFile path content hex =>
      simp only [Mutation.run] at hok ⊢
      rcases putFile_cases limits path content hex w with
        ⟨e, he⟩ | ⟨rel, hrel, _, _, root, ⟨_, hout⟩ | ⟨hwrite, hout⟩⟩
      · rw [he] at hok
        cases hok
      · rw [hout] at hok
        cases hok
      · obtain ⟨hpath, hkey⟩ := keyOf_pathOf (fSafeRelPath_fixed hrel)
        unfold Accounted
        rw [hout, root_fClearTombstone, tombstoned_fClearTombstone]
        rcases accounted_write hpath.1 hwrite (hnone rel hrel) hq with hlive | ⟨hne, hdead⟩
        · exact Or.inl hlive
        · refine Or.inr ⟨?_, hdead⟩
          intro heq
          exact hne (keyOf_injective hvalid hpath (heq.trans hkey.symm))
  | createFolder relPath =>
      simp only [Mutation.run] at hok ⊢
      rcases createFolder_cases relPath w with ⟨e, he⟩ | ⟨rel, root, hrel, hmk, hout⟩
      · rw [he] at hok
        cases hok
      · unfold Accounted
        rw [hout, Tree.fileAt_mkdirs hmk]
        exact hq
  | deleteEntry path isDir now =>
      rcases hq with hlive | hdead
      · obtain ⟨c, hc⟩ := Option.ne_none_iff_exists'.mp hlive
        by_cases hlost : (deleteEntry path isDir now w).1.root.fileAt q = none
        · exact Or.inr (lost_deleteEntry ⟨paths, hok⟩ hnone hc hlost)
        · exact Or.inl hlost
      · right
        simp only [Mutation.run] at hok ⊢
        rcases deleteEntry_cases path isDir now w with
          ⟨e, he⟩ | ⟨rel, root, hrel, ⟨_, hrem, hout⟩ | ⟨_, hrem, hout⟩⟩
        · rw [he]
          exact hdead
        · rw [hout, tombstoned_recordAll]
          exact Or.inr hdead
        · rw [hout, tombstoned_fRecordTombstone]
          exact Or.inr hdead
  | moveEntry src dst now =>
      rcases hq with hlive | hdead
      · obtain ⟨c, hc⟩ := Option.ne_none_iff_exists'.mp hlive
        by_cases hlost : (moveEntry src dst now w).1.root.fileAt q = none
        · exact Or.inr (lost_moveEntry hw ⟨paths, hok⟩ hc hlost)
        · exact Or.inl hlost
      · simp only [Mutation.run] at hok ⊢
        rcases moveEntry_cases src dst now w with
          ⟨e, he⟩ | ⟨fromKey, toKey, hfrom, hto, ⟨_, hout⟩ | ⟨root, hren, hout⟩⟩
        · rw [he]
          exact Or.inr hdead
        · rw [hout] at hok
          cases hok
        · rw [hout]
          exact accounted_move hw now (fSafeRelPath_fixed hfrom) (fSafeRelPath_fixed hto) hren
            hvalid hdead
  | writeThrough access content hex =>
      simp only [Mutation.run] at hok ⊢
      rcases fWriteThrough_cases limits access content hex w with
        ⟨e, he⟩ | ⟨rel, hrel, _, _, _, _, root, ⟨_, hout⟩ | ⟨hwrite, hout⟩⟩
      · rw [he] at hok
        cases hok
      · rw [hout] at hok
        cases hok
      · unfold Accounted
        rw [hout]
        rcases accounted_write (fSafeRelPath_ok hrel).1.1 hwrite (hnone rel hrel) hq with
          hlive | ⟨_, hdead⟩
        · exact Or.inl hlive
        · exact Or.inr hdead

/-! ## Disks that show the same -/

theorem same_withParents {root root' : Disk} (h : Tree.Same root root') (p : List Str) :
    Tree.Same (withParents root p) (withParents root' p) :=
  (h.mkdirs p.dropLast).getD h

theorem same_movedFiles {root root' moved moved' : Disk} (h : Tree.Same root root') {fromKey : Str}
    {dst : List Str} (hfrom : fSafeRelPath fromKey = .ok fromKey) (hdst : dst ≠ [])
    (hren : (withParents root dst).rename (pathOf fromKey) dst = some moved)
    (hren' : (withParents root' dst).rename (pathOf fromKey) dst = some moved') (k : Str) :
    k ∈ movedFiles root fromKey ↔ k ∈ movedFiles root' fromKey := by
  rw [mem_movedFiles hfrom hdst hren, mem_movedFiles hfrom hdst hren']
  simp only [h.fileAt]

theorem same_fCheckQuota {root root' : Disk} (h : Tree.Same root root') (quota : UInt64)
    (p : List Str) (n : UInt64) : fCheckQuota quota root p n = fCheckQuota quota root' p n := by
  have htotal : fDirSizeBytes root = fDirSizeBytes root' := by
    rw [fDirSizeBytes_eq, fDirSizeBytes_eq]
    exact congrArg UInt64.ofNat (h.total List.length)
  unfold fCheckQuota isRegularFile fileSizeAt
  rw [h p, h.fileAt p, htotal]

theorem same_place {root root' : Disk} (h : Tree.Same root root') {p : List Str} (hp : p ≠ [])
    (hex : Str) :
    Tree.Same (place root p hex).1 (place root' p hex).1 ∧
      (place root p hex).2 = (place root' p hex).2 := by
  have hfirst := h.rename (tempPath p hex) p
  have hcleared := (h.remove hp).getD h
  have hsecond := hcleared.rename (tempPath p hex) p
  have hgone := (hcleared.remove (tempPath_ne_nil p hex)).getD hcleared
  unfold place
  dsimp only
  rcases hfirst.both with ⟨hd, hd'⟩ | ⟨d, d', hd, hd', hsame⟩
  · simp only [hd, hd']
    rcases hsecond.both with ⟨hd, hd'⟩ | ⟨d, d', hd, hd', hsame⟩
    · simp only [hd, hd', and_true]
      exact hgone
    · simp only [hd, hd', and_true]
      exact hsame
  · simp only [hd, hd', and_true]
    exact hsame

/-- A write does the same on both. -/
theorem same_fWriteFileAtomic {root root' : Disk} (h : Tree.Same root root') {p : List Str}
    (hp : p ≠ []) (hex content : Str) :
    Tree.Same (fWriteFileAtomic root p hex content).1 (fWriteFileAtomic root' p hex content).1 ∧
      (fWriteFileAtomic root p hex content).2 = (fWriteFileAtomic root' p hex content).2 := by
  have hmade := same_withParents h p
  have hwritten := hmade.writeFile (tempPath_ne_nil p hex) content
  unfold withParents at hmade hwritten
  unfold fWriteFileAtomic
  dsimp only
  rcases hwritten.both with ⟨hd, hd'⟩ | ⟨d, d', hd, hd', hsame⟩
  · simp only [hd, hd', and_true]
    exact hmade
  · simp only [hd, hd']
    exact same_place hsame hp hex

/-- What a write leaves on one disk it leaves on the other. -/
theorem same_written {root root' d : Disk} (h : Tree.Same root root') {p : List Str}
    (hp : p ≠ []) {hex content : Str} {returned : Bool}
    (hwrite : fWriteFileAtomic root p hex content = (d, returned)) :
    ∃ d', fWriteFileAtomic root' p hex content = (d', returned) ∧ Tree.Same d d' := by
  obtain ⟨hsame, hreturned⟩ := same_fWriteFileAtomic h hp hex content
  rw [hwrite] at hsame hreturned
  exact ⟨_, Prod.ext rfl hreturned.symm, hsame⟩

/-! ## What a step relies on -/

/-- The write comes through a share or a link. -/
def Through : Mutation → Prop
  | .writeThrough _ _ _ => True
  | _ => False

instance (m : Mutation) : Decidable (Through m) :=
  match m with
  | .writeThrough _ _ _ => inferInstanceAs (Decidable True)
  | .putFile _ _ _ | .createFolder _ | .deleteEntry _ _ _ | .moveEntry _ _ _ =>
      inferInstanceAs (Decidable False)

/-- What the request found out before it changes the disk still holds, and a
request that is refused now leaves no folder behind. -/
def Current (limits : Limits) (root : Disk) : Job → Prop
  | .write m rel content hex =>
      (Through m → root.fileAt (pathOf rel) ≠ none) ∧
      fCheckQuota limits.workspaceQuotaBytes root (pathOf rel) (fileSize content) = .ok () ∧
      root.fileAt (tempPath (pathOf rel) hex) = none
  | .removeAll _ rel inside _ =>
      root.fileAt (pathOf rel) = none ∧
      ∀ key ∈ fCollectFilesUnder root (pathOf rel) rel, key ∈ inside
  | .rename _ fromKey toKey moved _ =>
      if ((withParents root (pathOf toKey)).rename (pathOf fromKey) (pathOf toKey)).isSome then
        (∀ key ∈ moved, key ∈ movedFiles root fromKey) ∧
          ∀ key ∈ movedFiles root fromKey, key ∈ moved
      else (root.mkdirs (pathOf toKey).dropLast).isNone ∨
        root.entryAt (pathOf toKey).dropLast = some .dir
  | _ => True

instance (limits : Limits) (root : Disk) (job : Job) : Decidable (Current limits root job) :=
  match job with
  | .write .. | .removeAll .. | .rename .. => by
      dsimp only [Current]
      infer_instance
  | .requireFile .. | .checkQuota .. | .makeFolder .. | .collect .. | .remove .. | .look ..
  | .record .. | .clear .. | .answer .. => isTrue trivial

/-- The job writes the row of the key. -/
def Job.touches (key : Str) : Job → Bool
  | .record k _ => k = key
  | .clear k => k = key
  | _ => false

/-- The job only writes a row. -/
def Job.isRow : Job → Bool
  | .record _ _ => true
  | .clear _ => true
  | _ => false

/-- The keys a job writes rows for or has collected to do so. -/
def Job.keys : Job → List Str
  | .removeAll _ _ inside _ => inside
  | .record key _ => [key]
  | .clear key => [key]
  | _ => []

/-- A path that was there once has this key. -/
def Owed (w : Workspace) (key : Str) : Prop := ∃ q, ValidPath q ∧ keyOf q = key ∧ Accounted w q

/-- The request writes these bytes at this key, its checks of the request
itself passed. -/
def WriteOf (limits : Limits) (m : Mutation) (rel content hex : Str) : Prop :=
  (∃ path, m = .putFile path content hex ∧ fSafeRelPath path = .ok rel ∧
    content.length ≤ limits.maxWorkFileBytes) ∨
  ∃ access, m = .writeThrough access content hex ∧ fSafeRelPath access.relPath = .ok rel ∧
    ¬ access.permission.rank < Perm.edit.rank ∧ fIsWorkFile access.relPath = true

/-- The job is one of the request it names. -/
def Stems (limits : Limits) : Job → Prop
  | .requireFile m rel content hex => WriteOf limits m rel content hex ∧ Through m
  | .checkQuota m rel content hex => WriteOf limits m rel content hex
  | .write m rel content hex => WriteOf limits m rel content hex
  | .makeFolder m rel => ∃ relPath, m = .createFolder relPath ∧ fSafeRelPath relPath = .ok rel
  | .collect m rel now => ∃ path, m = .deleteEntry path true now ∧ fSafeRelPath path = .ok rel
  | .removeAll m rel _ now => ∃ path, m = .deleteEntry path true now ∧ fSafeRelPath path = .ok rel
  | .remove m rel now => ∃ path, m = .deleteEntry path false now ∧ fSafeRelPath path = .ok rel
  | .look m fromKey toKey now => ∃ src dst, m = .moveEntry src dst now ∧
      fSafeRelPath src = .ok fromKey ∧ fSafeRelPath dst = .ok toKey
  | .rename m fromKey toKey _ now => ∃ src dst, m = .moveEntry src dst now ∧
      fSafeRelPath src = .ok fromKey ∧ fSafeRelPath dst = .ok toKey
  | _ => True

/-- The disk a request leaves when it is carried out, and the rows it still has
to write, agree with its handler run on `w`. -/
structure Carried (limits : Limits) (w : Workspace) (m : Mutation) (root : Disk)
    (rows : List Job) : Prop where
  succeeds : Succeeds limits m w
  losesNone : LosesNone w m
  same : Tree.Same root (m.run limits w).1.root
  others : ∀ key, (∀ job ∈ rows, job.touches key = false) →
    (Tombstoned (m.run limits w).1 key ↔ Tombstoned w key)
  isRow : ∀ job ∈ rows, job.isRow = true
  owed : ∀ job ∈ rows, ∀ key ∈ job.keys, Owed (m.run limits w).1 key

/-! ## One lemma for each change of the disk -/

theorem carried_write {w : Workspace} {root root' : Disk} (hsame : Tree.Same root w.root) {m : Mutation} {rel content hex : Str}
    (hof : WriteOf limits m rel content hex)
    (hcurrent : Current limits root (.write m rel content hex))
    (h : fWriteFileAtomic root (pathOf rel) hex content = (root', true)) :
    Carried limits w m root' (writeRows m rel) := by
  obtain ⟨hthere, hquota, htemp⟩ := hcurrent
  rw [same_fCheckQuota hsame] at hquota
  rw [hsame.fileAt] at htemp hthere
  rcases hof with ⟨path, rfl, hrel, hsize⟩ | ⟨access, rfl, hrel, hperm, hwork⟩
  · obtain ⟨hvalid, hkey⟩ := keyOf_pathOf (fSafeRelPath_fixed hrel)
    obtain ⟨d, hwrite, hd⟩ := same_written hsame hvalid.1 h
    have hout : putFile limits path content hex w =
        (fClearTombstone { w with root := d } rel, .ok [rel]) := by
      unfold putFile
      simp only [hrel, if_neg (Nat.not_lt.mpr hsize), hquota, hwrite]
    refine ⟨⟨[rel], by rw [Mutation.run, hout]⟩, ?_, ?_, ?_, ?_, ?_⟩
    · intro rel' hrel'
      rw [hrel, Except.ok.injEq] at hrel'
      rw [← hrel', htemp]
    · rw [Mutation.run, hout]
      exact hd
    · intro key hother
      have hne : rel ≠ key := by simpa [writeRows, Job.touches] using hother
      rw [Mutation.run, hout, tombstoned_fClearTombstone]
      exact and_iff_right hne.symm
    · intro job hjob
      rw [List.mem_singleton.mp hjob]
      rfl
    · intro job hjob key hmem
      rw [List.mem_singleton.mp hjob] at hmem
      rw [List.mem_singleton.mp hmem]
      refine ⟨pathOf rel, hvalid, hkey, Or.inl ?_⟩
      rw [Mutation.run, hout, root_fClearTombstone, fileAt_fWriteFileAtomic_ok hvalid.1 hwrite,
        if_pos rfl]
      exact Option.some_ne_none content
  · have hvalid := (fSafeRelPath_ok hrel).1
    obtain ⟨d, hwrite, hd⟩ := same_written hsame hvalid.1 h
    obtain ⟨c, hc⟩ := Option.ne_none_iff_exists'.mp (hthere trivial)
    have hout : fWriteThrough limits access content hex w =
        ({ w with root := d }, .ok [access.relPath]) := by
      unfold fWriteThrough fOwnerFullPath isRegularFile
      simp only [if_neg hperm, hwork, hrel, Tree.fileAt_eq_some_iff.mp hc, hquota, hwrite]
      rfl
    refine ⟨⟨[access.relPath], by rw [Mutation.run, hout]⟩, ?_, ?_, ?_, ?_, ?_⟩
    · intro rel' hrel'
      rw [hrel, Except.ok.injEq] at hrel'
      rw [← hrel', htemp]
    · rw [Mutation.run, hout]
      exact hd
    · intro key _
      rw [Mutation.run, hout]
      exact Iff.rfl
    · intro job hjob
      cases hjob
    · intro job hjob
      cases hjob

theorem carried_makeFolder {w : Workspace} {root root' : Disk} (hsame : Tree.Same root w.root)
    {relPath rel : Str} (hrel : fSafeRelPath relPath = .ok rel)
    (h : root.mkdirs (pathOf rel) = some root') :
    Carried limits w (.createFolder relPath) root' [] := by
  obtain ⟨d, hmk, hd⟩ := (hsame.mkdirs (pathOf rel)).of_some h
  have hout : createFolder relPath w = ({ w with root := d }, .ok []) := by
    unfold createFolder
    simp only [hrel, hmk]
  refine ⟨⟨[], by rw [Mutation.run, hout]⟩, trivial, ?_, ?_, nofun, nofun⟩
  · rw [Mutation.run, hout]
    exact hd
  · intro key _
    rw [Mutation.run, hout]
    exact Iff.rfl

theorem carried_remove {w : Workspace} {root root' : Disk} (hsame : Tree.Same root w.root)
    {path rel : Str} {now : Int} (hrel : fSafeRelPath path = .ok rel)
    (h : root.remove (pathOf rel) = some root') :
    Carried limits w (.deleteEntry path false now) root' [.record rel now] := by
  obtain ⟨hvalid, hkey⟩ := keyOf_pathOf (fSafeRelPath_fixed hrel)
  obtain ⟨d, hrem, hd⟩ := (hsame.remove hvalid.1).of_some h
  have hout : deleteEntry path false now w =
      (fRecordTombstone { w with root := d } rel now, .ok [rel]) := by
    unfold deleteEntry
    simp only [hrel, hrem]
    rfl
  refine ⟨⟨[rel], by rw [Mutation.run, hout]⟩, ?_, ?_, ?_, ?_, ?_⟩
  · intro rel' _ hset
    cases hset
  · rw [Mutation.run, hout, root_fRecordTombstone]
    exact hd
  · intro key hother
    have hne : rel ≠ key := by simpa [Job.touches] using hother
    rw [Mutation.run, hout, tombstoned_fRecordTombstone]
    exact or_iff_right hne.symm
  · intro job hjob
    rw [List.mem_singleton.mp hjob]
    rfl
  · intro job hjob key hmem
    rw [List.mem_singleton.mp hjob] at hmem
    rw [List.mem_singleton.mp hmem]
    refine ⟨pathOf rel, hvalid, hkey, Or.inr ?_⟩
    rw [Mutation.run, hout, hkey, tombstoned_fRecordTombstone]
    exact Or.inl rfl

theorem mem_deleteRows {inside : List Str} {now : Int} {job : Job} :
    job ∈ deleteRows inside now ↔ ∃ key ∈ inside, job = .record key now := by
  unfold deleteRows
  rw [List.mem_map]
  simp only [eq_comm]

theorem carried_removeAll {w : Workspace} (hw : Sound w) {root root' : Disk}
    (hsame : Tree.Same root w.root) {m : Mutation} {path rel : Str} {inside : List Str} {now : Int}
    (hrel : fSafeRelPath path = .ok rel)
    (hcurrent : Current limits root (.removeAll m rel inside now))
    (howed : ∀ key ∈ inside, Owed w key)
    (h : root.removeAll (pathOf rel) = some root') :
    Carried limits w (.deleteEntry path true now) root' (deleteRows inside now) := by
  have hfixed := fSafeRelPath_fixed hrel
  obtain ⟨hvalid, hkey⟩ := keyOf_pathOf hfixed
  obtain ⟨hnofile, hinside⟩ := hcurrent
  obtain ⟨d, hrem, hd⟩ := (hsame.removeAll hvalid.1).of_some h
  have hout : deleteEntry path true now w =
      (recordAll (fCollectFilesUnder w.root (pathOf rel) rel) now { w with root := d }, .ok []) := by
    unfold deleteEntry
    simp only [hrel, hrem]
    rfl
  have hok : Succeeds limits (.deleteEntry path true now) w := ⟨[], by rw [Mutation.run, hout]⟩
  have hnone : LosesNone w (.deleteEntry path true now) := by
    intro rel' hrel' _
    rw [hrel, Except.ok.injEq] at hrel'
    rw [← hrel', ← hsame.fileAt, hnofile]
  refine ⟨hok, hnone, ?_, ?_, ?_, ?_⟩
  · rw [Mutation.run, hout, root_recordAll]
    exact hd
  · intro key hother
    rw [Mutation.run, hout, tombstoned_recordAll]
    refine or_iff_right ?_
    intro hmem
    -- What the handler finds now is among what the request had collected.
    have hfound : key ∈ fCollectFilesUnder root (pathOf rel) rel := by
      rw [mem_inside hfixed]
      rw [mem_inside hfixed] at hmem
      simpa only [hsame.fileAt] using hmem
    have htouched := hother (.record key now) (mem_deleteRows.mpr ⟨key, hinside key hfound, rfl⟩)
    simp [Job.touches] at htouched
  · intro job hjob
    obtain ⟨key, _, rfl⟩ := mem_deleteRows.mp hjob
    rfl
  · intro job hjob key hmem
    obtain ⟨k, hk, rfl⟩ := mem_deleteRows.mp hjob
    rw [List.mem_singleton.mp hmem]
    obtain ⟨q, hq, hqk, haccounted⟩ := howed k hk
    exact ⟨q, hq, hqk, accounted_run hw hok hnone hq haccounted⟩

theorem mem_moveRows {fromKey toKey : Str} {moved : List Str} {now : Int} {job : Job} :
    job ∈ moveRows fromKey toKey moved now ↔
      ∃ key ∈ moved, job = .record key now ∨ job = .clear (movedKey fromKey toKey key) := by
  unfold moveRows
  rw [List.mem_flatMap]
  simp only [List.mem_cons, List.not_mem_nil, or_false]

/-- A moved file is live at its new path. -/
theorem live_moved {root moved : Disk} {src dst r : List Str} {c : Str}
    (h : (withParents root dst).rename src dst = some moved)
    (hr : root.fileAt (src ++ r) = some c) : moved.fileAt (dst ++ r) = some c := by
  by_cases hne : src = dst
  · rw [← hne] at h ⊢
    rw [Tree.rename_self h, fileAt_withParents, hr]
  · rw [Tree.fileAt_rename hne h, if_pos (List.prefix_append _ r), List.drop_left,
      fileAt_withParents, hr]

theorem carried_rename {w : Workspace} (hw : Sound w) {root root' : Disk}
    (hsame : Tree.Same root w.root) {m : Mutation} {src dst fromKey toKey : Str}
    {moved : List Str} {now : Int}
    (hfrom : fSafeRelPath src = .ok fromKey) (hto : fSafeRelPath dst = .ok toKey)
    (hcurrent : Current limits root (.rename m fromKey toKey moved now))
    (h : (withParents root (pathOf toKey)).rename (pathOf fromKey) (pathOf toKey) = some root') :
    Carried limits w (.moveEntry src dst now) root' (moveRows fromKey toKey moved now) := by
  have hfrom' := fSafeRelPath_fixed hfrom
  have hto' := fSafeRelPath_fixed hto
  obtain ⟨hsrc, hsrckey⟩ := keyOf_pathOf hfrom'
  obtain ⟨hdst, hdstkey⟩ := keyOf_pathOf hto'
  obtain ⟨d, hren, hd⟩ := ((same_withParents hsame (pathOf toKey)).rename _ _).of_some h
  have hout : moveEntry src dst now w =
      (moveAll fromKey toKey (movedFiles w.root fromKey) now { w with root := d },
        .ok (movedPaths w.root fromKey toKey)) := by
    unfold moveEntry
    unfold withParents at hren
    simp only [hfrom, hto, hren]
    rfl
  have hok : Succeeds limits (.moveEntry src dst now) w :=
    ⟨movedPaths w.root fromKey toKey, by rw [Mutation.run, hout]⟩
  obtain ⟨hle, hge⟩ : (∀ key ∈ moved, key ∈ movedFiles root fromKey) ∧
      ∀ key ∈ movedFiles root fromKey, key ∈ moved := by
    simp only [Current] at hcurrent
    rwa [if_pos (Option.isSome_of_eq_some h)] at hcurrent
  have hfound := same_movedFiles hsame hfrom' hdst.1 h hren
  refine ⟨hok, trivial, ?_, ?_, ?_, ?_⟩
  · rw [Mutation.run, hout, root_moveAll]
    exact hd
  · intro key hother
    rw [Mutation.run, hout, tombstoned_moveAll_other, tombstoned_root]
    intro x hx
    have hx' := hge x ((hfound x).mpr hx)
    have hrecord := hother (.record x now) (mem_moveRows.mpr ⟨x, hx', Or.inl rfl⟩)
    have hclear := hother (.clear (movedKey fromKey toKey x))
      (mem_moveRows.mpr ⟨x, hx', Or.inr rfl⟩)
    simp only [Job.touches, decide_eq_false_iff_not] at hrecord hclear
    exact ⟨Ne.symm hrecord, Ne.symm hclear⟩
  · intro job hjob
    obtain ⟨key, _, rfl | rfl⟩ := mem_moveRows.mp hjob
    · rfl
    · rfl
  · intro job hjob key hmem
    obtain ⟨x, hx, hjob⟩ := mem_moveRows.mp hjob
    obtain ⟨r, c, hr, rfl⟩ := (mem_movedFiles hfrom' hdst.1 hren x).mp ((hfound x).mp (hle x hx))
    rcases hjob with rfl | rfl
    · rw [List.mem_singleton.mp hmem]
      refine ⟨_, hw.names.validPath hr, rfl, accounted_run hw hok trivial
        (hw.names.validPath hr) (Or.inl ?_)⟩
      rw [hr]
      exact Option.some_ne_none c
    · have hkey := movedKey_keyOf hsrc.1 hdst.1 r
      rw [hsrckey, hdstkey] at hkey
      rw [List.mem_singleton.mp hmem, hkey]
      refine ⟨_, hw.names.append hdst hr, rfl, Or.inl ?_⟩
      rw [Mutation.run, hout, root_moveAll, live_moved hren hr]
      exact Option.some_ne_none c

/-! ## Refusals -/

theorem refused_write {root root' : Disk} {p : List Str} {hex content : Str} (hp : p ≠ [])
    (htemp : root.fileAt (tempPath p hex) = none)
    (h : fWriteFileAtomic root p hex content = (root', false)) : Tree.Same root' root := by
  rcases fWriteFileAtomic_fail hp h with hsame | ⟨hdir, hat⟩
  · exact hsame
  · intro q
    rw [hat q]
    by_cases hq : q = tempPath p hex
    · rw [if_pos hq, hq]
      cases hold : root.entryAt (tempPath p hex) with
      | none => rfl
      | some e =>
          cases e with
          | dir => exact absurd hold hdir
          | file c =>
              rw [Tree.fileAt_eq_some_iff.mpr hold] at htemp
              cases htemp
    · rw [if_neg hq]

theorem refused_rename {root : Disk} {m : Mutation} {fromKey toKey : Str} {moved : List Str}
    {now : Int} (hcurrent : Current limits root (.rename m fromKey toKey moved now))
    (h : (withParents root (pathOf toKey)).rename (pathOf fromKey) (pathOf toKey) = none) :
    Tree.Same (withParents root (pathOf toKey)) root := by
  simp only [Current] at hcurrent
  rw [h, Option.isSome_none, if_neg Bool.false_ne_true] at hcurrent
  unfold withParents
  intro q
  cases hmk : root.mkdirs (pathOf toKey).dropLast with
  | none => rfl
  | some made =>
      rw [hmk] at hcurrent
      rcases hcurrent with hnone | hdir
      · cases hnone
      · rw [Option.getD_some, Tree.entryAt_mkdirs hmk q]
        by_cases hq : q <+: (pathOf toKey).dropLast
        · rw [if_pos hq]
          obtain ⟨r, hr⟩ := hq
          by_cases hnil : r = []
          · rw [hnil, List.append_nil] at hr
            rw [hr, hdir]
          · refine (Dir.entryAt_parent_dir (d := root.root) hnil ?_).symm
            rw [hr, show root.root.entryAt _ = _ from hdir]
            exact Option.some_ne_none _
        · rw [if_neg hq]

end Lectern.Concurrent
