import Lectern.AtomicSteps
import Lectern.Flatten
import Lectern.LiveFiles
import Lectern.Projection

/-!
# A write in progress

Listings, folder deletes and moves, and the quota read the disk at whatever
point a write has reached, and a crash leaves it there.  Observers ask for
regular files only, so where those are the ones before the write, or the ones
after it, the write is invisible.  The temporary sibling is a regular file like
any other: its name is not dotted unless the target's is.
-/

namespace Lectern

open FileTree

/-! ## What observers see -/

/-- The regular files in the listing of a folder whose directories can be opened:
relative path and digest. -/
def listedFiles (probe : Probe) (disk : Disk) (folder : List Str) : List (Str × Str) :=
  match disk.get? folder with
  | some (.dir dir) =>
      ((flatten (listing probe dir folder [])).filter (fun row => !row.isDir)).map
        (fun row => (row.relPath, row.hash))
  | _ => []

/-- The paths of the regular files the quota's walk adds up. -/
def countedFiles (disk : Disk) : List (List Str) :=
  (disk.root.entries.filter (fun x => x.2 ≠ .dir)).map Prod.fst

/-- Nothing is seen of a write: a listing of the workspace or of a folder above
the target, and a folder delete or move, find the files before the write or
those after it, and every file the quota counts is one that was there or the
target. -/
structure Invisible (probe : Probe) (before after disk : Disk) (path : List Str) : Prop where
  listed : ∀ folder, folder <+: path.dropLast →
    (∀ x, x ∈ listedFiles probe disk folder ↔ x ∈ listedFiles probe before folder) ∨
      ∀ x, x ∈ listedFiles probe disk folder ↔ x ∈ listedFiles probe after folder
  collected : ∀ folder, ValidPath folder →
    (∀ k, k ∈ fCollectFilesUnder disk folder (keyOf folder) ↔
      k ∈ fCollectFilesUnder before folder (keyOf folder)) ∨
    ∀ k, k ∈ fCollectFilesUnder disk folder (keyOf folder) ↔
      k ∈ fCollectFilesUnder after folder (keyOf folder)
  counted : ∀ q ∈ countedFiles disk, q ∈ countedFiles before ∨ q = path

theorem mem_countedFiles (disk : Disk) (q : List Str) :
    q ∈ countedFiles disk ↔ ∃ c, disk.fileAt q = some c := by
  unfold countedFiles
  simp only [Tree.fileAt_eq_some_iff]
  rw [List.mem_map]
  constructor
  · intro h
    obtain ⟨⟨t, e⟩, hmem, heq⟩ := h
    obtain ⟨hmem, hfile⟩ := List.mem_filter.mp hmem
    subst heq
    obtain ⟨_, hat⟩ := (Dir.mem_entries_iff disk.distinct t e).mp hmem
    cases e with
    | dir => simp at hfile
    | file c => exact ⟨c, hat⟩
  · intro h
    obtain ⟨c, hat⟩ := h
    have hq : q ≠ [] := by
      intro hnil
      rw [hnil, Tree.entryAt_nil] at hat
      cases hat
    have hmem := (Dir.mem_entries_iff disk.distinct q (.file c)).mpr ⟨hq, hat⟩
    exact ⟨(q, .file c), List.mem_filter.mpr ⟨hmem, by simp⟩, rfl⟩

/-- The quota's number is the sum over these files. -/
theorem fDirSizeBytes_countedFiles (disk : Disk) :
    fDirSizeBytes disk =
      UInt64.ofNat ((countedFiles disk).map (fun q => ((disk.fileAt q).getD []).length)).sum := by
  have hfiles : ∀ xs : List (List Str × Entry Str), (∀ x ∈ xs, disk.entryAt x.1 = some x.2) →
      (xs.map (fun x => x.2.weight List.length)).sum =
        (((xs.filter (fun x => x.2 ≠ .dir)).map Prod.fst).map
          (fun q => ((disk.fileAt q).getD []).length)).sum := by
    intro xs hxs
    induction xs with
    | nil => rfl
    | cons x xs ih =>
        obtain ⟨t, e⟩ := x
        have hat := hxs (t, e) List.mem_cons_self
        have hrest := ih (fun y hy => hxs y (List.mem_cons_of_mem _ hy))
        cases e with
        | dir => simpa [Entry.weight] using hrest
        | file c => simpa [Entry.weight, Tree.fileAt_eq_some_iff.mpr hat] using hrest
  rw [fDirSizeBytes_eq, totalBytes, Tree.total, Dir.total_eq_sum, countedFiles, hfiles]
  intro x hx
  exact ((Dir.mem_entries_iff disk.distinct x.1 x.2).mp hx).2

section Observers

variable (probe : Probe) {disk disk' before after : Disk} {path : List Str}

/-- A listing finds the files below the folder that are not hidden. -/
theorem mem_listedFiles (hnames : NamesValid disk) (folder : List Str) (x : Str × Str) :
    x ∈ listedFiles probe disk folder ↔
      ∃ t c, t ≠ [] ∧ disk.fileAt (folder ++ t) = some c ∧ (t.getLastD []).head? ≠ some dot ∧
        x = (keyOf t, probe.fSha256File c) := by
  have hat (t : List Str) :
      disk.entryAt (folder ++ t) = (disk.get? folder).bind (fun n => n.entryAt t) :=
    Dir.entryAt_append disk.root folder t
  simp only [Tree.fileAt_eq_some_iff]
  unfold listedFiles
  cases hget : disk.get? folder with
  | none =>
      simp only [List.not_mem_nil, false_iff]
      intro h
      obtain ⟨t, c, _, hfile, _⟩ := h
      rw [hat, hget] at hfile
      cases hfile
  | some n =>
      cases n with
      | file c' =>
          simp only [List.not_mem_nil, false_iff]
          intro h
          obtain ⟨t, c, ht, hfile, _⟩ := h
          obtain ⟨m, t, rfl⟩ := List.exists_cons_of_ne_nil ht
          rw [hat, hget] at hfile
          cases hfile
      | dir d =>
          have hbelow (t : List Str) : disk.entryAt (folder ++ t) = d.entryAt t := by
            rw [hat, hget]
            rfl
          have hdistinct : d.Distinct :=
            Node.Distinct.get? (x := .dir disk.root) disk.distinct hget
          have hinside := hnames.inside hget
          simp only [hbelow]
          rw [List.mem_map]
          constructor
          · intro h
            obtain ⟨row, hrow, heq⟩ := h
            obtain ⟨hrow, hfile⟩ := List.mem_filter.mp hrow
            rw [(flatten_listing probe hinside folder []).mem_iff,
              mem_rows_iff probe [] hdistinct] at hrow
            rcases hrow with ⟨t, c, hentry, hshown, rfl⟩ | ⟨t, _, _, rfl⟩
            · refine ⟨t, c, ?_, hentry, hshown, heq.symm⟩
              intro hnil
              simp [hnil] at hentry
            · cases hfile
          · intro h
            obtain ⟨t, c, _, hentry, hshown, heq⟩ := h
            refine ⟨⟨t.getLastD [], keyBelow [] t, false, probe.fSha256File c⟩, ?_, heq.symm⟩
            refine List.mem_filter.mpr ⟨?_, rfl⟩
            rw [(flatten_listing probe hinside folder []).mem_iff,
              mem_rows_iff probe [] hdistinct]
            exact Or.inl ⟨t, c, hentry, hshown, rfl⟩

/-- Observers see files only. -/
theorem listedFiles_congr (hnames : NamesValid disk) (hnames' : NamesValid disk')
    (h : ∀ q, disk.fileAt q = disk'.fileAt q) (folder : List Str) (x : Str × Str) :
    x ∈ listedFiles probe disk folder ↔ x ∈ listedFiles probe disk' folder := by
  rw [mem_listedFiles probe hnames, mem_listedFiles probe hnames']
  simp only [h]

theorem fCollectFilesUnder_congr (h : ∀ q, disk.fileAt q = disk'.fileAt q) {folder : List Str}
    (hfolder : ValidPath folder) (k : Str) :
    k ∈ fCollectFilesUnder disk folder (keyOf folder) ↔
      k ∈ fCollectFilesUnder disk' folder (keyOf folder) := by
  rw [mem_fCollectFilesUnder _ (keyOf_ne_nil hfolder),
    mem_fCollectFilesUnder _ (keyOf_ne_nil hfolder)]
  simp only [← Tree.fileAt_eq_some_iff, h]

theorem invisible_of_before (hnames : NamesValid before) (hdisk : NamesValid disk)
    (h : ∀ q, disk.fileAt q = before.fileAt q) : Invisible probe before after disk path where
  listed folder _ := Or.inl (listedFiles_congr probe hdisk hnames h folder)
  collected _ hfolder := Or.inl (fCollectFilesUnder_congr h hfolder)
  counted q hq := by
    obtain ⟨c, hc⟩ := (mem_countedFiles disk q).mp hq
    exact Or.inl ((mem_countedFiles before q).mpr ⟨c, by rw [← h q, hc]⟩)

theorem invisible_of_after (hnames : NamesValid after) (hdisk : NamesValid disk)
    (h : ∀ q, disk.fileAt q = after.fileAt q)
    (hold : ∀ q c, q ≠ path → after.fileAt q = some c → before.fileAt q = some c) :
    Invisible probe before after disk path where
  listed folder _ := Or.inr (listedFiles_congr probe hdisk hnames h folder)
  collected _ hfolder := Or.inr (fCollectFilesUnder_congr h hfolder)
  counted q hq := by
    obtain ⟨c, hc⟩ := (mem_countedFiles disk q).mp hq
    by_cases hqp : q = path
    · exact Or.inr hqp
    · exact Or.inl ((mem_countedFiles before q).mpr ⟨c, hold q c hqp (by rw [← h q, hc])⟩)

end Observers

/-! ## Where a call can stand -/

/-- What the two cells hold after each kind of step. -/
def SpotAfter (faults : Faults) (land : Terrain) (content : Str) : Step → Spot → Prop
  | .parents, spot => spot = land.old
  | .wrote n, spot => spot = land.written content n
  | .removed, spot => spot = ⟨some (.file content), none⟩
  | .renamed, spot => spot = ⟨none, some (.file content)⟩ ∧ land.opens = true ∧
      (land.old.target ≠ some .dir ∨ land.removable = true)
  | .cleared, spot => land.opens = true ∧
      (¬ Displaced faults land ∧ spot = ⟨none, land.old.target⟩ ∨
        Displaced faults land ∧ spot = ⟨none, none⟩)

section Spots

variable {faults : Faults} {land : Terrain} {content : Str}

/-- The two cells, point by point. -/
theorem spotAfter_of_mem {s : Step × Spot} (hs : s ∈ (writeSpots faults land content).1) :
    SpotAfter faults land content s.1 s.2 := by
  cases hopens : land.opens with
  | false =>
      unfold writeSpots at hs
      rw [if_neg (by simp [hopens]), List.mem_singleton] at hs
      subst hs
      rfl
  | true =>
      have hclear : ∀ target, ∀ t ∈ clearSpots faults target, t = (.cleared, ⟨none, target⟩) := by
        intro target t ht
        unfold clearSpots at ht
        split at ht
        · cases ht
        · exact List.mem_singleton.mp ht
      unfold writeSpots at hs
      rw [if_pos hopens] at hs
      rcases List.mem_cons.mp hs with hfirst | hs
      · subst hfirst
        rfl
      · rcases List.mem_append.mp hs with hwrite | hrest
        · obtain ⟨n, _, hn⟩ := List.mem_map.mp hwrite
          subst hn
          rfl
        · rcases restSpots_cases faults land content with
            ⟨htarget, _, heq⟩ | ⟨_, hplaced, heq⟩ | ⟨hdisplaced, heq⟩
          · rw [heq] at hrest
            rw [hclear _ s hrest]
            exact ⟨hopens, Or.inl ⟨htarget, rfl⟩⟩
          · rw [heq] at hrest
            rw [List.mem_singleton.mp hrest]
            refine ⟨rfl, hopens, Or.inl ?_⟩
            intro hdir
            exact hplaced (Or.inr ⟨Or.inr hdir, Or.inr hdir⟩)
          · rw [heq] at hrest
            rcases List.mem_cons.mp hrest with hremoved | hlater
            · subst hremoved
              rfl
            · unfold replaceSpots at hlater
              split at hlater
              · rw [hclear _ s hlater]
                exact ⟨hopens, Or.inr ⟨hdisplaced, rfl⟩⟩
              · rw [List.mem_singleton.mp hlater]
                exact ⟨rfl, hopens, Or.inr hdisplaced.2.2.2⟩

/-- Without faults a call returns that finds the sibling free to open and the
target free to be replaced. -/
theorem returned_noFaults (hopens : land.opens = true)
    (hfree : land.old.target ≠ some .dir ∨ land.removable = true) (content : Str) :
    (writeSpots noFaults land content).2 = true := by
  unfold writeSpots restSpots placeSpots replaceSpots
  rw [if_pos hopens]
  by_cases hdir : land.old.target = some .dir
  · have hremovable := hfree.resolve_left (fun hnot => hnot hdir)
    simp [noFaults, hdir, hremovable]
  · simp [noFaults, hdir]

end Spots

/-- Where a call could open the sibling, one without faults can. -/
theorem opens_noFaults {faults : Faults} {disk : Disk} {path : List Str} {hex : Str}
    (hopens : (terrain faults disk path hex).opens = true) :
    (terrain noFaults disk path hex).opens = true := by
  have hopen : ((makeParents faults disk path.dropLast).writeFile (tempPath path hex) []).isSome := by
    unfold terrain unlessRefused at hopens
    dsimp only at hopens
    split at hopens
    · cases hopens
    · exact hopens
  rw [Tree.writeFile_isSome (tempPath_ne_nil path hex), dropLast_tempPath,
    entryAt_makeParents_temp] at hopen
  obtain ⟨hparent, hsibling⟩ := hopen
  have hkept := Tree.entryAt_mkdirs_getD disk
    (path.dropLast.take (faults.parents.getD path.dropLast.length))
  -- No file is in the way of the parents.
  have hmkdirs : (disk.mkdirs path.dropLast).isSome := by
    rw [Tree.mkdirs_isSome]
    intro q hq c hc
    have hfile : (makeParents faults disk path.dropLast).entryAt q = some (.file c) := by
      rcases hkept q with hsame | ⟨hnone, _⟩
      · exact hsame.trans hc
      · rw [hc] at hnone
        cases hnone
    obtain ⟨r, hr⟩ := hq
    cases r with
    | nil =>
        rw [List.append_nil] at hr
        rw [hr, hparent] at hfile
        cases hfile
    | cons n r =>
        have hbelow := Dir.entryAt_below_file
          (d := (makeParents faults disk path.dropLast).root) hfile (List.cons_ne_nil n r)
        rw [hr, show Dir.entryAt _ _ = _ from hparent] at hbelow
        cases hbelow
  obtain ⟨made, hmade⟩ := Option.isSome_iff_exists.mp hmkdirs
  have hall : makeParents noFaults disk path.dropLast = made := by
    have htake : noFaults.parents.getD path.dropLast.length = path.dropLast.length := rfl
    rw [makeParents, htake, List.take_length, hmade, Option.getD_some]
  show ((makeParents noFaults disk path.dropLast).writeFile (tempPath path hex) []).isSome = true
  rw [Tree.writeFile_isSome (tempPath_ne_nil path hex), dropLast_tempPath,
    entryAt_makeParents_temp]
  refine ⟨?_, hsibling⟩
  rw [hall, Tree.entryAt_mkdirs hmade, if_pos List.prefix_rfl]

section Points

variable {before disk : Disk} {path : List Str} {hex : Str} {spot : Spot}

/-- Apart from the two cells the files are those before the call. -/
theorem Midway.fileAt_other (h : Midway before disk path hex spot) {q : List Str} (hq : q ≠ path)
    (htq : q ≠ tempPath path hex) : disk.fileAt q = before.fileAt q := by
  rcases h.others q hq htq with hsame | ⟨hnone, hdir, _⟩
  · exact Tree.fileAt_congr hsame
  · unfold Tree.fileAt
    rw [hnone, hdir]

/-- New names come with the target's own path. -/
theorem Midway.namesValid (h : Midway before disk path hex spot) (hnames : NamesValid before)
    (hpath : ValidPath path)
    (hsibling : spot.sibling = none ∨ spot.sibling = before.entryAt (tempPath path hex)) :
    NamesValid disk := by
  apply hnames.of_new
  intro q hq
  by_cases hqp : q = path
  · rw [hqp]
    exact Or.inr hpath.2
  · by_cases htq : q = tempPath path hex
    · rw [htq, h.sibling] at hq
      rcases hsibling with hnone | hsame
      · exact absurd hnone hq
      · rw [hsame] at hq
        rw [htq]
        exact Or.inl hq
    · rcases h.others q hqp htq with hsame | ⟨_, _, hpre⟩
      · rw [hsame] at hq
        exact Or.inl hq
      · exact Or.inr (validName_above hpath (hpre.trans (List.dropLast_prefix path)))

/-- With the sibling and the target as they were, so are all files. -/
theorem Midway.same_files (h : Midway before disk path hex spot)
    (hsibling : disk.fileAt (tempPath path hex) = before.fileAt (tempPath path hex))
    (htarget : disk.fileAt path = before.fileAt path) (q : List Str) :
    disk.fileAt q = before.fileAt q := by
  by_cases hqp : q = path
  · rw [hqp, htarget]
  · by_cases htq : q = tempPath path hex
    · rw [htq, hsibling]
    · exact h.fileAt_other hqp htq

end Points

/-! ## When a write is invisible -/

/-- The points at which nothing of a call is to be seen: before the sibling is
opened; once it is in place; and once it is removed, unless the fallback has
removed a file. -/
def Quiet (faults : Faults) (land : Terrain) : Step → Prop
  | .parents => True
  | .wrote _ => False
  | .removed => False
  | .renamed => True
  | .cleared => land.old.sibling = none ∧
      (Displaced faults land → land.old.target = some .dir)

section Write

variable {faults : Faults} {before disk : Disk} {path : List Str} {hex content : Str} {spot : Spot}
  {step : Step}

/-- The disk after a call without faults, if one with faults can get the sibling
in place. -/
theorem fileAt_after (content : Str) (hpath : ValidPath path)
    (hopens : (terrain faults before path hex).opens = true)
    (hfree : before.entryAt path ≠ some .dir ∨ (terrain faults before path hex).removable = true)
    (q : List Str) :
    (fWriteFileAtomic before path hex content).1.fileAt q =
      if q = path then some content
      else if q = tempPath path hex then none else before.fileAt q := by
  have hreturned : (fWriteFileAtomic before path hex content).2 = true := by
    rw [← (fWriteFileAtomicSteps_noFaults before path hex content).2,
      (fWriteFileAtomicSteps_follows noFaults before hpath.1 hex content).2]
    exact returned_noFaults (opens_noFaults hopens) hfree content
  exact fileAt_fWriteFileAtomic_ok hpath.1 (Prod.ext rfl hreturned) q

theorem namesValid_after (hnames : NamesValid before) (hpath : ValidPath path) (hex content : Str) :
    NamesValid (fWriteFileAtomic before path hex content).1 :=
  namesValid_write hnames hpath rfl

/-- **At a quiet point a write is invisible.** -/
theorem invisible_of_quiet (probe : Probe) (hnames : NamesValid before) (hpath : ValidPath path)
    (hdisk : Midway before disk path hex spot)
    (hspot : SpotAfter faults (terrain faults before path hex) content step spot)
    (hquiet : Quiet faults (terrain faults before path hex) step) :
    Invisible probe before (fWriteFileAtomic before path hex content).1 disk path := by
  have hsibling := hdisk.sibling
  have htarget := hdisk.target
  cases step with
  | parents =>
      cases hspot
      refine invisible_of_before probe hnames (hdisk.namesValid hnames hpath (Or.inr rfl)) ?_
      exact hdisk.same_files (Tree.fileAt_congr hsibling) (Tree.fileAt_congr htarget)
  | wrote n => exact hquiet.elim
  | removed => exact hquiet.elim
  | renamed =>
      obtain ⟨hspot, hopens, hfree⟩ := hspot
      subst hspot
      have hafter := fileAt_after content hpath hopens hfree
      refine invisible_of_after probe (namesValid_after hnames hpath hex content)
        (hdisk.namesValid hnames hpath (Or.inl rfl)) ?_ ?_
      · intro q
        rw [hafter q]
        by_cases hq : q = path
        · rw [if_pos hq, hq, Tree.fileAt, htarget]
        · by_cases htq : q = tempPath path hex
          · rw [if_neg hq, if_pos htq, htq, Tree.fileAt, hsibling]
          · rw [if_neg hq, if_neg htq, hdisk.fileAt_other hq htq]
      · intro q c hq hc
        rw [hafter q, if_neg hq] at hc
        by_cases htq : q = tempPath path hex
        · rw [if_pos htq] at hc
          cases hc
        · rwa [if_neg htq] at hc
  | cleared =>
      obtain ⟨hfresh, hdir⟩ := hquiet
      obtain ⟨_, ⟨_, hspot⟩ | ⟨hdisplaced, hspot⟩⟩ := hspot
      · subst hspot
        refine invisible_of_before probe hnames (hdisk.namesValid hnames hpath (Or.inl rfl)) ?_
        exact hdisk.same_files (Tree.fileAt_congr (hsibling.trans hfresh.symm))
          (Tree.fileAt_congr htarget)
      · subst hspot
        refine invisible_of_before probe hnames (hdisk.namesValid hnames hpath (Or.inl rfl)) ?_
        refine hdisk.same_files (Tree.fileAt_congr (hsibling.trans hfresh.symm)) ?_
        have hold : before.entryAt path = some .dir := hdir hdisplaced
        unfold Tree.fileAt
        rw [htarget, hold]

/-- A listing of the whole workspace names the target only if it is there. -/
theorem fileAt_of_listed {probe : Probe} (hdisk : NamesValid disk) (hpath : ValidPath path)
    {x : Str × Str} (hx : x ∈ listedFiles probe disk []) (hkey : x.1 = keyOf path) :
    disk.fileAt path ≠ none := by
  obtain ⟨t, c, _, hfile, _, heq⟩ := (mem_listedFiles probe hdisk [] x).mp hx
  rw [List.nil_append] at hfile
  have ht : t = path := by
    apply keyOf_injective (hdisk.validPath hfile) hpath
    rw [← hkey, heq]
  rw [← ht, hfile]
  exact Option.some_ne_none c

/-- **Only at a quiet point**, when the sibling's name was free. -/
theorem quiet_of_invisible {probe : Probe} (hnames : NamesValid before) (hpath : ValidPath path)
    (hdot : (path.getLastD []).head? ≠ some dot) (hdisk : Midway before disk path hex spot)
    (hspot : SpotAfter faults (terrain faults before path hex) content step spot)
    (hfresh : before.entryAt (tempPath path hex) = none)
    (h : Invisible probe before (fWriteFileAtomic before path hex content).1 disk path) :
    Quiet faults (terrain faults before path hex) step := by
  have hfile : ∀ c, spot.sibling = some (.file c) → False := by
    intro c hc
    have hfile := Tree.fileAt_eq_some_iff.mpr (hdisk.sibling.trans hc)
    rcases h.counted _ ((mem_countedFiles disk _).mpr ⟨c, hfile⟩) with hold | htarget
    · obtain ⟨c', hold⟩ := (mem_countedFiles before _).mp hold
      rw [Tree.fileAt, hfresh] at hold
      cases hold
    · exact tempPath_ne path hex htarget
  cases step with
  | parents => trivial
  | wrote n => exact (hfile (content.take n) (by rw [hspot]; rfl)).elim
  | removed => exact (hfile content (by rw [hspot])).elim
  | renamed => trivial
  | cleared =>
      refine ⟨hfresh, ?_⟩
      intro hdisplaced
      obtain ⟨hopens, ⟨hnot, _⟩ | ⟨_, hspot⟩⟩ := hspot
      · exact absurd hdisplaced hnot
      · have hremovable : (terrain faults before path hex).removable = true := hdisplaced.2.2.2
        have hvalid : NamesValid disk :=
          hdisk.namesValid hnames hpath (Or.inl (by rw [hspot]))
        have hgone : disk.fileAt path = none := by
          rw [Tree.fileAt, hdisk.target, hspot]
        have hafter := fileAt_after content hpath hopens (Or.inr hremovable) path
        rw [if_pos rfl] at hafter
        cases hold : before.entryAt path with
        | none => exact absurd hold ((terrain faults before path hex).present hremovable)
        | some e =>
            cases e with
            | dir => exact hold
            | file c =>
                -- The target was listed before and would be after, but is not now.
                exfalso
                rcases h.listed [] (List.nil_prefix) with hbefore | hlater
                · have hx := (mem_listedFiles probe hnames []
                    (keyOf path, probe.fSha256File c)).mpr ⟨path, c, hpath.1,
                      Tree.fileAt_eq_some_iff.mpr hold, hdot, rfl⟩
                  exact fileAt_of_listed hvalid hpath ((hbefore _).mpr hx) rfl hgone
                · have hx := (mem_listedFiles probe
                    (namesValid_after hnames hpath hex content) []
                    (keyOf path, probe.fSha256File content)).mpr ⟨path, content, hpath.1,
                      hafter, hdot, rfl⟩
                  exact fileAt_of_listed hvalid hpath ((hlater _).mpr hx) rfl hgone

end Write

/-- **When a write in progress is invisible.**  At every point of a call, with
whatever steps refused, observers see the files before the write or those after
it if the point is quiet; and, the random name being free, only if it is. -/
theorem write_invisible (probe : Probe) (faults : Faults) {before : Disk}
    (hnames : NamesValid before) {p rel : Str} (hrel : fSafeRelPath p = .ok rel)
    (hdot : ((pathOf rel).getLastD []).head? ≠ some dot) (hex content : Str) :
    ∀ s ∈ (fWriteFileAtomicSteps faults before (pathOf rel) hex content).1,
      (Quiet faults (terrain faults before (pathOf rel) hex) s.1 →
        Invisible probe before (fWriteFileAtomic before (pathOf rel) hex content).1 s.2
          (pathOf rel)) ∧
      (before.entryAt (tempPath (pathOf rel) hex) = none →
        Invisible probe before (fWriteFileAtomic before (pathOf rel) hex content).1 s.2
          (pathOf rel) →
        Quiet faults (terrain faults before (pathOf rel) hex) s.1) := by
  intro s hs
  have hpath : ValidPath (pathOf rel) := (keyOf_pathOf (fSafeRelPath_fixed hrel)).1
  obtain ⟨hsteps, _⟩ := fWriteFileAtomicSteps_follows faults before hpath.1 hex content
  obtain ⟨t, ht, hstep, hdisk⟩ := forall₂_mem hsteps hs
  have hspot := spotAfter_of_mem ht
  rw [← hstep] at hspot
  refine ⟨invisible_of_quiet probe hnames hpath hdisk hspot, ?_⟩
  intro hfresh hinvisible
  exact quiet_of_invisible hnames hpath hdot hdisk hspot hfresh hinvisible

/-! ## Runs -/

/-- The point where the content is in place. -/
theorem write_invisible_inPlace :
    Invisible ⟨fun _ => 0, id, fun _ => true⟩ oneFile
      (fWriteFileAtomic oneFile (pathOf (str "a.mdp")) (str "0f") (str "new")).1
      (leaves oneFile (fWriteFileAtomicSteps noFaults oneFile (pathOf (str "a.mdp")) (str "0f")
        (str "new")).1) (pathOf (str "a.mdp")) := by
  have hnames : NamesValid oneFile := namesValid_of_entries (by decide +kernel)
  have hlen : 5 < (fWriteFileAtomicSteps noFaults oneFile (pathOf (str "a.mdp")) (str "0f")
      (str "new")).1.length := by decide +kernel
  have hpoint := (write_invisible ⟨fun _ => 0, id, fun _ => true⟩ noFaults hnames (p := str "a.mdp")
    (by decide) (by decide) (str "0f") (str "new") _ (List.getElem_mem hlen)).1
  exact hpoint trivial

/-- **A write in progress is seen**: the sibling of a file that is being created
is a file of its own. -/
theorem write_seen :
    ¬ ∀ s ∈ (fWriteFileAtomicSteps noFaults Tree.empty [str "a.mdp"] (str "0f") (str "new")).1,
      Invisible ⟨fun _ => 0, id, fun _ => true⟩ Tree.empty
        (fWriteFileAtomic Tree.empty [str "a.mdp"] (str "0f") (str "new")).1 s.2
        [str "a.mdp"] := by
  intro hall
  have hseen := (hall _ (List.get_mem _ ⟨2, by decide +kernel⟩)).counted [str "a.mdp.0f.tmp"]
    (by decide +kernel)
  rcases hseen with hold | htarget
  · cases hold
  · exact absurd htarget (by decide)

end Lectern
