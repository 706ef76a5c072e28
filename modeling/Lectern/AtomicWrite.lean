import Lectern.FileTree.Outcome
import Lectern.Workspace

/-!
# What an atomic write leaves behind

`fWriteFileAtomic` either puts the content at its path, with the missing
parents created and the temporary sibling gone, or it throws and the only path
it may have changed is that sibling.
-/

namespace Lectern

open FileTree

/-! ## The temporary sibling -/

theorem dropLast_tempPath (path : List Str) (hex : Str) :
    (tempPath path hex).dropLast = path.dropLast := by
  unfold tempPath
  exact List.dropLast_concat

theorem length_tempPath {path : List Str} (hp : path ≠ []) (hex : Str) :
    (tempPath path hex).length = path.length := by
  have hpos := List.length_pos_iff.mpr hp
  unfold tempPath
  rw [List.length_append, List.length_dropLast, List.length_singleton]
  omega

theorem tempPath_ne_nil (path : List Str) (hex : Str) : tempPath path hex ≠ [] := by
  unfold tempPath
  simp

theorem tempPath_ne (path : List Str) (hex : Str) : tempPath path hex ≠ path := by
  intro h
  have hlast := congrArg (fun p => p.getLastD []) h
  have hname : tempName (path.getLastD []) hex = path.getLastD [] := by
    simpa [tempPath] using hlast
  have hlen := congrArg List.length hname
  unfold tempName at hlen
  simp only [List.length_append, List.length_cons] at hlen
  omega

/-- Siblings are not nested. -/
theorem tempPath_apart {path : List Str} (hp : path ≠ []) (hex : Str) :
    ¬ tempPath path hex <+: path ∧ ¬ path <+: tempPath path hex := by
  have hlen := length_tempPath hp hex
  refine ⟨fun h => ?_, fun h => ?_⟩
  · exact tempPath_ne path hex (h.eq_of_length hlen)
  · exact tempPath_ne path hex (h.eq_of_length hlen.symm).symm

theorem not_tempPath_above_parent (path : List Str) (hex : Str) :
    ¬ tempPath path hex <+: path.dropLast := by
  intro h
  have hlen := h.length_le
  unfold tempPath at hlen
  rw [List.length_append, List.length_singleton] at hlen
  omega

theorem not_prefix_parent {path : List Str} (hp : path ≠ []) : ¬ path <+: path.dropLast := by
  intro h
  have hlen := h.length_le
  have hpos := List.length_pos_iff.mpr hp
  rw [List.length_dropLast] at hlen
  omega

/-! ## The steps -/

/-- The temporary sibling is written, its parents created. -/
def writeTemp (disk : Disk) (path : List Str) (hex content : Str) : Option Disk :=
  ((disk.mkdirs path.dropLast).getD disk).writeFile (tempPath path hex) content

/-- The first rename, and what is tried when it is refused. -/
def place (disk : Disk) (path : List Str) (hex : Str) : Disk × Bool :=
  match disk.rename (tempPath path hex) path with
  | some disk => (disk, true)
  | none =>
      let disk := (disk.remove path).getD disk
      match disk.rename (tempPath path hex) path with
      | some disk => (disk, true)
      | none => ((disk.remove (tempPath path hex)).getD disk, false)

theorem fWriteFileAtomic_eq (disk : Disk) (path : List Str) (hex content : Str) :
    fWriteFileAtomic disk path hex content =
      match writeTemp disk path hex content with
      | none => ((disk.mkdirs path.dropLast).getD disk, false)
      | some disk => place disk path hex := rfl

/-- The sibling can be opened when nothing is in the way: then the parents are
there, and only the sibling has changed. -/
theorem writeTemp_some {disk disk' : Disk} {path : List Str} {hex content : Str}
    (h : writeTemp disk path hex content = some disk') :
    (disk.mkdirs path.dropLast).isSome ∧ disk.entryAt (tempPath path hex) ≠ some .dir ∧
      ∀ q, disk'.entryAt q =
        if q = tempPath path hex then some (.file content)
        else if q <+: path.dropLast then some .dir else disk.entryAt q := by
  unfold writeTemp at h
  have hsome := (Tree.writeFile_isSome (tempPath_ne_nil path hex)).mp (Option.isSome_of_eq_some h)
  rw [dropLast_tempPath] at hsome
  cases hmk : disk.mkdirs path.dropLast with
  | none =>
      exfalso
      have hblocked : ¬ (disk.mkdirs path.dropLast).isSome := by simp [hmk]
      apply hblocked
      rw [Tree.mkdirs_isSome]
      intro q hq c hc
      rw [hmk, Option.getD_none] at hsome
      obtain ⟨r, hr⟩ := hq
      cases r with
      | nil =>
          rw [List.append_nil] at hr
          rw [← hr, hc] at hsome
          cases hsome.1
      | cons n r =>
          have hbelow := Dir.entryAt_below_file (d := disk.root) hc (List.cons_ne_nil n r)
          rw [hr] at hbelow
          rw [Tree.entryAt, hbelow] at hsome
          cases hsome.1
  | some made =>
      rw [hmk, Option.getD_some] at hsome h
      have hmade := Tree.entryAt_mkdirs hmk
      refine ⟨rfl, ?_, ?_⟩
      · have htemp := hmade (tempPath path hex)
        rw [if_neg (not_tempPath_above_parent path hex)] at htemp
        rw [← htemp]
        exact hsome.2
      · intro q
        rw [Tree.entryAt_writeFile h q, hmade q]

/-- A refused opening has not changed a thing. -/
theorem writeTemp_none {disk : Disk} {path : List Str} {hex content : Str}
    (h : writeTemp disk path hex content = none) (q : List Str) :
    ((disk.mkdirs path.dropLast).getD disk).entryAt q = disk.entryAt q := by
  cases hmk : disk.mkdirs path.dropLast with
  | none => rfl
  | some made =>
      rw [Option.getD_some, Tree.entryAt_mkdirs hmk q]
      by_cases hq : q <+: path.dropLast
      · rw [if_pos hq]
        have hrefused : ¬ (made.writeFile (tempPath path hex) content).isSome := by
          unfold writeTemp at h
          rw [hmk, Option.getD_some] at h
          simp [h]
        rw [Tree.writeFile_isSome (tempPath_ne_nil path hex), dropLast_tempPath,
          Tree.entryAt_mkdirs hmk, if_pos List.prefix_rfl] at hrefused
        have htemp : made.entryAt (tempPath path hex) = some .dir := by
          by_contra hnot
          exact hrefused ⟨rfl, hnot⟩
        rw [Tree.entryAt_mkdirs hmk, if_neg (not_tempPath_above_parent path hex)] at htemp
        obtain ⟨r, hr⟩ := hq
        have hsplit : tempPath path hex = q ++ (r ++ [tempName (path.getLastD []) hex]) := by
          unfold tempPath
          rw [← hr, List.append_assoc]
        rw [hsplit] at htemp
        refine (Dir.entryAt_parent_dir (d := disk.root) (p := q)
          (q := r ++ [tempName (path.getLastD []) hex]) ?_ ?_).symm
        · simp
        · rw [show disk.root.entryAt _ = _ from htemp]
          simp
      · rw [if_neg hq]

/-- Renaming the sibling into place succeeds exactly over a file, an absent
entry, or nothing. -/
theorem rename_temp_isSome {disk : Disk} {path : List Str} {hex content : Str} (hp : path ≠ [])
    (htemp : disk.entryAt (tempPath path hex) = some (.file content)) :
    (disk.rename (tempPath path hex) path).isSome ↔ disk.entryAt path ≠ some .dir := by
  rw [Tree.rename_isSome (tempPath_ne path hex)]
  have hparent : disk.entryAt path.dropLast = some .dir := by
    rw [← dropLast_tempPath path hex]
    refine Dir.entryAt_dropLast (d := disk.root) (tempPath_ne_nil path hex) ?_
    rw [show disk.root.entryAt _ = _ from htemp]
    simp
  constructor
  · intro h hdir
    rcases h.2.2.2.2 with hnone | ⟨c, c', _, hfile⟩ | ⟨hsrc, _⟩
    · rw [hnone] at hdir
      cases hdir
    · rw [hfile] at hdir
      cases hdir
    · rw [htemp] at hsrc
      cases hsrc
  · intro hdir
    refine ⟨by simp [htemp], (tempPath_apart hp hex).1, (tempPath_apart hp hex).2, hparent, ?_⟩
    cases hat : disk.entryAt path with
    | none => exact Or.inl hat
    | some e =>
        cases e with
        | dir => exact absurd hat hdir
        | file c => exact Or.inr (Or.inl ⟨content, c, htemp, hat⟩)

theorem dir_of_refused {disk : Disk} {path : List Str} {hex content : Str} (hp : path ≠ [])
    (htemp : disk.entryAt (tempPath path hex) = some (.file content))
    (h : disk.rename (tempPath path hex) path = none) : disk.entryAt path = some .dir := by
  by_contra hnot
  have hsome := (rename_temp_isSome hp htemp).mpr hnot
  rw [h] at hsome
  cases hsome

/-- After the rename the content is in place and the sibling is gone. -/
theorem entryAt_rename_temp {disk disk' : Disk} {path : List Str} {hex content : Str}
    (hp : path ≠ []) (htemp : disk.entryAt (tempPath path hex) = some (.file content))
    (h : disk.rename (tempPath path hex) path = some disk') (q : List Str) :
    disk'.entryAt q =
      if q = path then some (.file content)
      else if q = tempPath path hex then none else disk.entryAt q := by
  rw [Tree.entryAt_rename (tempPath_ne path hex) h q]
  by_cases hpq : path <+: q
  · rw [if_pos hpq]
    obtain ⟨r, rfl⟩ := hpq
    rw [List.drop_left]
    by_cases hr : r = []
    · subst hr
      rw [List.append_nil, List.append_nil, if_pos rfl, htemp]
    · have hne : path ++ r ≠ path := by simpa using hr
      have hne' : path ++ r ≠ tempPath path hex := by
        intro heq
        exact (tempPath_apart hp hex).2 (heq ▸ List.prefix_append path r)
      rw [if_neg hne, if_neg hne', Tree.rename_below_target (tempPath_ne path hex) h hr]
      exact Dir.entryAt_below_file (d := disk.root) htemp hr
  · have hne : q ≠ path := by
      rintro rfl
      exact hpq List.prefix_rfl
    rw [if_neg hpq, if_neg hne]
    by_cases htq : tempPath path hex <+: q
    · rw [if_pos htq]
      obtain ⟨r, rfl⟩ := htq
      by_cases hr : r = []
      · rw [if_pos (by rw [hr, List.append_nil])]
      · rw [if_neg (by simpa using hr)]
        exact (Dir.entryAt_below_file (d := disk.root) htemp hr).symm
    · have hne' : q ≠ tempPath path hex := by
        rintro rfl
        exact htq List.prefix_rfl
      rw [if_neg htq, if_neg hne']

/-! ## The whole write -/

/-- Putting the sibling into place works unless a directory with entries is in
the way. -/
theorem place_eq {disk : Disk} {path : List Str} {hex content : Str} (hp : path ≠ [])
    (htemp : disk.entryAt (tempPath path hex) = some (.file content)) :
    (place disk path hex).2 = true ∧ (∀ q, (place disk path hex).1.entryAt q =
        if q = path then some (.file content)
        else if q = tempPath path hex then none else disk.entryAt q) ∨
    (place disk path hex).2 = false ∧ disk.entryAt path = some .dir ∧
      ∀ q, (place disk path hex).1.entryAt q =
        if q = tempPath path hex then none else disk.entryAt q := by
  unfold place
  cases hfirst : disk.rename (tempPath path hex) path with
  | some d => exact Or.inl ⟨rfl, entryAt_rename_temp hp htemp hfirst⟩
  | none =>
      have hdir := dir_of_refused hp htemp hfirst
      cases hrem : disk.remove path with
      | none =>
          -- The directory is not empty: the second rename is refused like the first.
          have hgone : (disk.remove (tempPath path hex)).isSome :=
            (Tree.remove_isSome (tempPath_ne_nil path hex)).mpr (Or.inl ⟨content, htemp⟩)
          obtain ⟨cleared, hcleared⟩ := Option.isSome_iff_exists.mp hgone
          simp only [Option.getD_none, hfirst, hcleared, Option.getD_some]
          refine Or.inr ⟨trivial, hdir, ?_⟩
          intro q
          exact Tree.entryAt_remove hcleared q
      | some emptied =>
          have hat := Tree.entryAt_remove hrem
          have htemp' : emptied.entryAt (tempPath path hex) = some (.file content) := by
            rw [hat, if_neg (tempPath_ne path hex), htemp]
          have hpath' : emptied.entryAt path ≠ some .dir := by
            rw [hat, if_pos rfl]
            simp
          obtain ⟨d, hd⟩ := Option.isSome_iff_exists.mp ((rename_temp_isSome hp htemp').mpr hpath')
          simp only [Option.getD_some, hd]
          refine Or.inl ⟨trivial, ?_⟩
          intro q
          rw [entryAt_rename_temp hp htemp' hd q, hat q]
          by_cases hq : q = path
          · rw [if_pos hq, if_pos hq]
          · rw [if_neg hq, if_neg hq, if_neg hq]

/-- **A write that returns** has put the content at its path, made the parents
directories, and left nothing at the temporary sibling. -/
theorem fWriteFileAtomic_ok {disk disk' : Disk} {path : List Str} {hex content : Str}
    (hp : path ≠ []) (h : fWriteFileAtomic disk path hex content = (disk', true)) (q : List Str) :
    disk'.entryAt q =
      if q = path then some (.file content)
      else if q = tempPath path hex then none
      else if q <+: path.dropLast then some .dir else disk.entryAt q := by
  rw [fWriteFileAtomic_eq] at h
  cases hwrite : writeTemp disk path hex content with
  | none => simp [hwrite] at h
  | some written =>
      obtain ⟨_, _, hat⟩ := writeTemp_some hwrite
      have htemp := hat (tempPath path hex)
      rw [if_pos rfl] at htemp
      simp only [hwrite] at h
      rcases place_eq hp htemp with ⟨_, hplace⟩ | ⟨hfalse, _⟩
      · rw [h] at hplace
        rw [hplace q]
        by_cases hq : q = path
        · rw [if_pos hq, if_pos hq]
        · by_cases htq : q = tempPath path hex
          · rw [if_neg hq, if_neg hq, if_pos htq, if_pos htq]
          · rw [if_neg hq, if_neg hq, if_neg htq, if_neg htq, hat q, if_neg htq]
      · rw [h] at hfalse
        cases hfalse

/-- **A write that throws** has changed at most the temporary sibling, and only
by removing it. -/
theorem fWriteFileAtomic_fail {disk disk' : Disk} {path : List Str} {hex content : Str}
    (hp : path ≠ []) (h : fWriteFileAtomic disk path hex content = (disk', false)) :
    (∀ q, disk'.entryAt q = disk.entryAt q) ∨
    disk.entryAt (tempPath path hex) ≠ some .dir ∧
      ∀ q, disk'.entryAt q = if q = tempPath path hex then none else disk.entryAt q := by
  rw [fWriteFileAtomic_eq] at h
  cases hwrite : writeTemp disk path hex content with
  | none =>
      simp only [hwrite, Prod.mk.injEq, and_true] at h
      exact Or.inl (h ▸ writeTemp_none hwrite)
  | some written =>
      obtain ⟨_, hdir, hat⟩ := writeTemp_some hwrite
      have htemp := hat (tempPath path hex)
      rw [if_pos rfl] at htemp
      simp only [hwrite] at h
      rcases place_eq hp htemp with ⟨htrue, _⟩ | ⟨_, hblocked, hplace⟩
      · rw [h] at htrue
        cases htrue
      · rw [h] at hplace
        refine Or.inr ⟨hdir, ?_⟩
        intro q
        rw [hplace q, hat q]
        by_cases htq : q = tempPath path hex
        · rw [if_pos htq, if_pos htq]
        · rw [if_neg htq, if_neg htq, if_neg htq]
          by_cases hq : q <+: path.dropLast
          · -- The path is a directory, so its parents were there before.
            rw [if_pos hq]
            have hold : disk.entryAt path = some .dir := by
              rw [hat path, if_neg (tempPath_ne path hex).symm, if_neg (not_prefix_parent hp)]
                at hblocked
              exact hblocked
            obtain ⟨r, hr⟩ := hq.trans (List.dropLast_prefix path)
            have hr_ne : r ≠ [] := by
              rintro rfl
              rw [List.append_nil] at hr
              exact not_prefix_parent hp (hr ▸ hq)
            refine (Dir.entryAt_parent_dir (d := disk.root) hr_ne ?_).symm
            rw [hr, show disk.root.entryAt path = _ from hold]
            simp
          · rw [if_neg hq]

/-- Where nothing is in the way the write returns. -/
theorem fWriteFileAtomic_returns {disk : Disk} {path : List Str} {hex content : Str}
    (hp : path ≠ []) (hparents : ∀ q, q <+: path.dropLast → ∀ c, disk.entryAt q ≠ some (.file c))
    (htemp : disk.entryAt (tempPath path hex) ≠ some .dir)
    (hpath : disk.entryAt path ≠ some .dir) :
    (fWriteFileAtomic disk path hex content).2 = true := by
  obtain ⟨made, hmade⟩ := Option.isSome_iff_exists.mp (Tree.mkdirs_isSome.mpr hparents)
  have hopen : (made.writeFile (tempPath path hex) content).isSome := by
    rw [Tree.writeFile_isSome (tempPath_ne_nil path hex), dropLast_tempPath,
      Tree.entryAt_mkdirs hmade, Tree.entryAt_mkdirs hmade, if_pos List.prefix_rfl,
      if_neg (not_tempPath_above_parent path hex)]
    exact ⟨rfl, htemp⟩
  obtain ⟨written, hwritten⟩ := Option.isSome_iff_exists.mp hopen
  have hwrite : writeTemp disk path hex content = some written := by
    rw [writeTemp, hmade, Option.getD_some, hwritten]
  obtain ⟨_, _, hat⟩ := writeTemp_some hwrite
  have htempfile := hat (tempPath path hex)
  rw [if_pos rfl] at htempfile
  rw [fWriteFileAtomic_eq, hwrite]
  rcases place_eq hp htempfile with ⟨hreturned, _⟩ | ⟨_, hdir, _⟩
  · exact hreturned
  · rw [hat path, if_neg (tempPath_ne path hex).symm, if_neg (not_prefix_parent hp)] at hdir
    exact absurd hdir hpath

/-- No write empties a path other than its temporary sibling. -/
theorem fileAt_fWriteFileAtomic_fail {disk disk' : Disk} {path : List Str} {hex content : Str}
    (hp : path ≠ []) (h : fWriteFileAtomic disk path hex content = (disk', false)) {q : List Str}
    {c : Str} (hq : disk'.fileAt q = some c) : disk.fileAt q = some c := by
  rw [Tree.fileAt_eq_some_iff] at hq ⊢
  rcases fWriteFileAtomic_fail hp h with hsame | ⟨_, hat⟩
  · rwa [hsame q] at hq
  · rw [hat q] at hq
    by_cases htq : q = tempPath path hex
    · rw [if_pos htq] at hq
      cases hq
    · rwa [if_neg htq] at hq

/-- Which files are there after a write that returned. -/
theorem fileAt_fWriteFileAtomic_ok {disk disk' : Disk} {path : List Str} {hex content : Str}
    (hp : path ≠ []) (h : fWriteFileAtomic disk path hex content = (disk', true)) (q : List Str) :
    disk'.fileAt q =
      if q = path then some content
      else if q = tempPath path hex then none else disk.fileAt q := by
  have hat := fWriteFileAtomic_ok hp h q
  by_cases hq : q = path
  · rw [if_pos hq] at hat ⊢
    exact Tree.fileAt_eq_some_iff.mpr hat
  · rw [if_neg hq] at hat ⊢
    by_cases htq : q = tempPath path hex
    · rw [if_pos htq] at hat ⊢
      rw [Tree.fileAt, hat]
    · rw [if_neg htq] at hat ⊢
      by_cases hparent : q <+: path.dropLast
      · rw [if_pos hparent] at hat
        -- A parent that became a directory was no file before.
        have hfree : ∀ c, disk.entryAt q ≠ some (.file c) := by
          rw [fWriteFileAtomic_eq] at h
          cases hwrite : writeTemp disk path hex content with
          | none => simp [hwrite] at h
          | some written =>
              exact Tree.mkdirs_isSome.mp (writeTemp_some hwrite).1 q hparent
        cases hold : disk.fileAt q with
        | none => rw [Tree.fileAt, hat]
        | some c => exact absurd (Tree.fileAt_eq_some_iff.mp hold) (hfree c)
      · rw [if_neg hparent] at hat
        exact Tree.fileAt_congr hat

/-! ## Sizes -/

/-- The bytes of all regular files. -/
def totalBytes (disk : Disk) : Nat := disk.total List.length

/-- The bytes at and below a path. -/
def bytesAt (disk : Disk) (path : List Str) : Nat := Dir.weightOf List.length (disk.get? path)

theorem bytesAt_le (disk : Disk) {path : List Str} (hp : path ≠ []) :
    bytesAt disk path ≤ totalBytes disk := by
  unfold bytesAt totalBytes
  cases hrem : disk.removeAll path with
  | some disk' =>
      have := Tree.total_removeAll List.length hrem
      omega
  | none =>
      have habsent : ¬ (disk.removeAll path).isSome := by simp [hrem]
      rw [Tree.removeAll_isSome hp, not_not] at habsent
      rw [show disk.get? path = none from (Dir.get?_eq_none_iff _ _).mpr habsent]
      exact Nat.zero_le _

theorem total_writeTemp {disk disk' : Disk} {path : List Str} {hex content : Str}
    (h : writeTemp disk path hex content = some disk') :
    totalBytes disk' ≤ totalBytes disk + content.length := by
  unfold writeTemp at h
  have hwrite := Tree.total_writeFile List.length h
  unfold totalBytes
  cases hmk : disk.mkdirs path.dropLast with
  | none =>
      rw [hmk, Option.getD_none] at hwrite
      omega
  | some made =>
      have hmade := Tree.total_mkdirs List.length hmk
      rw [hmk, Option.getD_some] at hwrite
      omega

/-- What stands at the path is not touched before the rename. -/
theorem bytesAt_writeTemp {disk disk' : Disk} {path : List Str} {hex content c : Str}
    (hp : path ≠ []) (h : writeTemp disk path hex content = some disk')
    (hc : disk.entryAt path = some (.file c)) : bytesAt disk' path = c.length := by
  obtain ⟨_, _, hat⟩ := writeTemp_some h
  have hfile : disk'.entryAt path = some (.file c) := by
    rw [hat path, if_neg (tempPath_ne path hex).symm, if_neg (not_prefix_parent hp), hc]
  unfold bytesAt
  rw [show disk'.get? path = some (.file c) from Dir.entryAt_eq_file_iff.mp hfile]
  rfl

theorem total_place (disk : Disk) (path : List Str) (hex : Str) :
    totalBytes (place disk path hex).1 ≤ totalBytes disk ∧
      ((place disk path hex).2 = true →
        totalBytes (place disk path hex).1 + bytesAt disk path ≤ totalBytes disk) := by
  have hne := tempPath_ne path hex
  have hremoved (d : Disk) (p : List Str) : totalBytes ((d.remove p).getD d) ≤ totalBytes d := by
    unfold totalBytes
    cases hrem : d.remove p with
    | none => exact Nat.le_refl _
    | some d' =>
        have := Tree.total_removeAll List.length (Tree.removeAll_of_remove hrem)
        rw [Option.getD_some]
        omega
  unfold place
  cases hfirst : disk.rename (tempPath path hex) path with
  | some d =>
      have hd := Tree.total_rename List.length hne hfirst
      refine ⟨?_, fun _ => ?_⟩ <;> simp only [totalBytes, bytesAt] <;> omega
  | none =>
      simp only
      cases hsecond : ((disk.remove path).getD disk).rename (tempPath path hex) path with
      | some d =>
          have hd := Tree.total_rename List.length hne hsecond
          cases hrem : disk.remove path with
          | none =>
              rw [hrem, Option.getD_none, hfirst] at hsecond
              cases hsecond
          | some emptied =>
              have hpath := Tree.total_removeAll List.length (Tree.removeAll_of_remove hrem)
              rw [hrem, Option.getD_some] at hd
              refine ⟨?_, fun _ => ?_⟩ <;> simp only [totalBytes, bytesAt] <;> omega
      | none =>
          refine ⟨?_, ?_⟩
          · exact Nat.le_trans (hremoved _ _) (hremoved _ _)
          · intro h
            cases h

/-- **A write grows the workspace by at most its content**, and a write over a
file by at most the difference. -/
theorem total_fWriteFileAtomic {disk disk' : Disk} {path : List Str} {hex content : Str}
    {returned : Bool} (hp : path ≠ [])
    (h : fWriteFileAtomic disk path hex content = (disk', returned)) :
    (totalBytes disk' ≤ totalBytes disk + content.length) ∧
    (∀ c, disk.entryAt path = some (.file c) →
      totalBytes disk' + c.length ≤ totalBytes disk + content.length ∨
        totalBytes disk' ≤ totalBytes disk) := by
  rw [fWriteFileAtomic_eq] at h
  cases hwrite : writeTemp disk path hex content with
  | none =>
      simp only [hwrite, Prod.mk.injEq] at h
      have hsame : totalBytes disk' = totalBytes disk := by
        rw [← h.1]
        unfold totalBytes
        cases hmk : disk.mkdirs path.dropLast with
        | none => rfl
        | some made => exact Tree.total_mkdirs List.length hmk
      exact ⟨by omega, fun c _ => Or.inr (by omega)⟩
  | some written =>
      simp only [hwrite] at h
      have hgrow := total_writeTemp hwrite
      obtain ⟨hle, hplace⟩ := total_place written path hex
      rw [h] at hle hplace
      dsimp only at hle hplace
      refine ⟨by omega, ?_⟩
      intro c hc
      have hold := bytesAt_writeTemp hp hwrite hc
      obtain ⟨_, _, hat⟩ := writeTemp_some hwrite
      have htemp := hat (tempPath path hex)
      rw [if_pos rfl] at htemp
      rcases place_eq hp htemp with ⟨htrue, _⟩ | ⟨_, hdir, _⟩
      · rw [h] at htrue
        have := hplace htrue
        exact Or.inl (by omega)
      · exfalso
        rw [hat path, if_neg (tempPath_ne path hex).symm, if_neg (not_prefix_parent hp), hc] at hdir
        cases hdir

end Lectern
