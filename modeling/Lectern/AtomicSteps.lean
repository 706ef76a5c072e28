import Lectern.AtomicWrite
import Mathlib.Data.List.Forall2

/-!
# The atomic write, step by step

`fWriteFileAtomic` is a row of primitive steps, each of which may be refused
for a reason the tree does not show.  `fWriteFileAtomicSteps` returns the disk
after every step, which is what a concurrent reader, or the server that comes
back after a crash, finds there.

One call changes no more than the sibling and the target, so its steps are
those of a machine with two cells (`writeSpots`), and what holds of the call at
every point is read off that machine.
-/

namespace Lectern

open FileTree

/-! ## The steps -/

/-- Where one call meets an error that the tree does not explain. -/
structure Faults where
  /-- Only the first of the parents get created. -/
  parents : Option Nat
  openTemp : Bool
  /-- The write stops after so many bytes. -/
  write : Option Nat
  firstRename : Bool
  removePath : Bool
  secondRename : Bool
  /-- Removing the sibling, before the call throws. -/
  removeTemp : Bool
  deriving DecidableEq, Repr

/-- A call nothing goes wrong in. -/
def noFaults : Faults := ⟨none, false, none, false, false, false, false⟩

/-- The step that was carried out last. -/
inductive Step where
  | parents
  /-- The sibling is open and has so many bytes. -/
  | wrote (bytes : Nat)
  | removed
  | renamed
  | cleared
  deriving DecidableEq, Repr

/-- What is tried, unless it is refused. -/
def unlessRefused {α : Type} (refused : Bool) (tried : Option α) : Option α :=
  if refused then none else tried

def makeParents (faults : Faults) (disk : Disk) (parent : List Str) : Disk :=
  (disk.mkdirs (parent.take (faults.parents.getD parent.length))).getD disk

/-- The sibling truncated and written up to some byte. -/
def partly (disk : Disk) (temp : List Str) (content : Str) (bytes : Nat) : Disk :=
  (disk.writeFile temp (content.take bytes)).getD disk

def clearSteps (faults : Faults) (disk : Disk) (temp : List Str) : List (Step × Disk) :=
  match unlessRefused faults.removeTemp (disk.remove temp) with
  | none => []
  | some disk => [(.cleared, disk)]

/-- The second rename, and what is left when it is refused too. -/
def replaceSteps (faults : Faults) (disk : Disk) (temp path : List Str) :
    List (Step × Disk) × Bool :=
  match unlessRefused faults.secondRename (disk.rename temp path) with
  | some disk => ([(.renamed, disk)], true)
  | none => (clearSteps faults disk temp, false)

def placeSteps (faults : Faults) (disk : Disk) (temp path : List Str) : List (Step × Disk) × Bool :=
  match unlessRefused faults.firstRename (disk.rename temp path) with
  | some disk => ([(.renamed, disk)], true)
  | none =>
      match unlessRefused faults.removePath (disk.remove path) with
      | none => replaceSteps faults disk temp path
      | some disk =>
          let (steps, returned) := replaceSteps faults disk temp path
          ((.removed, disk) :: steps, returned)

/-- What follows the last byte written. -/
def restSteps (faults : Faults) (written : Disk) (temp path : List Str) :
    List (Step × Disk) × Bool :=
  if faults.write.isSome then (clearSteps faults written temp, false)
  else placeSteps faults written temp path

/-- The steps from the opened sibling on. -/
def writeSteps (faults : Faults) (disk : Disk) (temp path : List Str) (content : Str) :
    List (Step × Disk) × Bool :=
  let bytes := faults.write.getD content.length
  let writes := (List.range (bytes + 1)).map (fun n => (Step.wrote n, partly disk temp content n))
  let (steps, returned) := restSteps faults (partly disk temp content bytes) temp path
  (writes ++ steps, returned)

/-- `fWriteFileAtomic`: every step with the disk after it, and whether the call
returned (rather than threw). -/
def fWriteFileAtomicSteps (faults : Faults) (disk : Disk) (path : List Str) (hex content : Str) :
    List (Step × Disk) × Bool :=
  let temp := tempPath path hex
  let made := makeParents faults disk path.dropLast
  match unlessRefused faults.openTemp (made.writeFile temp []) with
  | none => ([(.parents, made)], false)
  | some _ =>
      let (steps, returned) := writeSteps faults made temp path content
      ((.parents, made) :: steps, returned)

/-- The disk a call leaves. -/
def leaves (disk : Disk) (steps : List (Step × Disk)) : Disk :=
  (steps.getLastD (.parents, disk)).2

/-! ## Two cells -/

/-- What stands at the sibling and at the target. -/
structure Spot where
  sibling : Option (Entry Str)
  target : Option (Entry Str)
  deriving DecidableEq, Repr

/-- What one call meets on the disk: whether the sibling can be opened, which a
directory cannot, and whether there is a target that can be removed. -/
structure Terrain where
  old : Spot
  opens : Bool
  removable : Bool
  openable : opens = true → old.sibling ≠ some .dir
  present : removable = true → old.target ≠ none

def clearSpots (faults : Faults) (target : Option (Entry Str)) : List (Step × Spot) :=
  if faults.removeTemp then [] else [(.cleared, ⟨none, target⟩)]

def replaceSpots (faults : Faults) (target : Option (Entry Str)) (content : Str) :
    List (Step × Spot) × Bool :=
  if faults.secondRename ∨ target = some .dir then (clearSpots faults target, false)
  else ([(.renamed, ⟨none, some (.file content)⟩)], true)

def placeSpots (faults : Faults) (land : Terrain) (content : Str) : List (Step × Spot) × Bool :=
  if faults.firstRename ∨ land.old.target = some .dir then
    if faults.removePath ∨ land.removable = false then replaceSpots faults land.old.target content
    else
      let (steps, returned) := replaceSpots faults none content
      ((.removed, ⟨some (.file content), none⟩) :: steps, returned)
  else ([(.renamed, ⟨none, some (.file content)⟩)], true)

def restSpots (faults : Faults) (land : Terrain) (content : Str) : List (Step × Spot) × Bool :=
  if faults.write.isSome then (clearSpots faults land.old.target, false)
  else placeSpots faults land content

/-- The sibling with its first bytes, next to the target nobody has touched. -/
def Terrain.written (land : Terrain) (content : Str) (bytes : Nat) : Spot :=
  ⟨some (.file (content.take bytes)), land.old.target⟩

/-- The two cells of one call. -/
def writeSpots (faults : Faults) (land : Terrain) (content : Str) : List (Step × Spot) × Bool :=
  if land.opens then
    let bytes := faults.write.getD content.length
    let writes := (List.range (bytes + 1)).map (fun n => (Step.wrote n, land.written content n))
    let (steps, returned) := restSpots faults land content
    ((.parents, land.old) :: (writes ++ steps), returned)
  else ([(.parents, land.old)], false)

/-- The sibling is no path above the target. -/
theorem entryAt_makeParents_temp (faults : Faults) (disk : Disk) (path : List Str) (hex : Str) :
    (makeParents faults disk path.dropLast).entryAt (tempPath path hex) =
      disk.entryAt (tempPath path hex) := by
  rcases Tree.entryAt_mkdirs_getD disk
    (path.dropLast.take (faults.parents.getD path.dropLast.length)) (tempPath path hex) with
      hsame | ⟨_, _, hpre⟩
  · exact hsame
  · exact absurd (hpre.trans (List.take_prefix _ _)) (not_tempPath_above_parent path hex)

/-- What a call with these faults meets on a disk. -/
def terrain (faults : Faults) (disk : Disk) (path : List Str) (hex : Str) : Terrain where
  old := ⟨disk.entryAt (tempPath path hex), disk.entryAt path⟩
  opens := (unlessRefused faults.openTemp
    ((makeParents faults disk path.dropLast).writeFile (tempPath path hex) [])).isSome
  removable := (disk.remove path).isSome
  openable := by
    intro hopens
    unfold unlessRefused at hopens
    split at hopens
    · cases hopens
    · rw [← entryAt_makeParents_temp faults]
      exact ((Tree.writeFile_isSome (tempPath_ne_nil path hex)).mp hopens).2
  present := by
    intro hremovable
    obtain ⟨disk', hrem⟩ := Option.isSome_iff_exists.mp hremovable
    show disk.entryAt path ≠ none
    rcases Tree.remove_finds hrem with ⟨c, hc⟩ | ⟨hdir, _⟩
    · simp [hc]
    · simp [hdir]

/-! ## The disk follows the cells -/

/-- A disk that differs from the one before the call in the two cells, and in
folders made above them. -/
structure Midway (before disk : Disk) (path : List Str) (hex : Str) (spot : Spot) : Prop where
  sibling : disk.entryAt (tempPath path hex) = spot.sibling
  target : disk.entryAt path = spot.target
  others : ∀ q, q ≠ path → q ≠ tempPath path hex → disk.entryAt q = before.entryAt q ∨
    before.entryAt q = none ∧ disk.entryAt q = some .dir ∧ q <+: path.dropLast

section Midway

variable {before disk disk' : Disk} {path : List Str} {hex content : Str} {spot : Spot}
  {target : Option (Entry Str)}

theorem midway_self (before : Disk) (path : List Str) (hex : Str) :
    Midway before before path hex ⟨before.entryAt (tempPath path hex), before.entryAt path⟩ :=
  ⟨rfl, rfl, fun _ _ _ => Or.inl rfl⟩

theorem midway_makeParents (faults : Faults) (before : Disk) (hp : path ≠ []) (hex : Str) :
    Midway before (makeParents faults before path.dropLast) path hex
      ⟨before.entryAt (tempPath path hex), before.entryAt path⟩ := by
  have hcases := Tree.entryAt_mkdirs_getD before
    (path.dropLast.take (faults.parents.getD path.dropLast.length))
  refine ⟨entryAt_makeParents_temp faults before path hex, ?_, ?_⟩
  · rcases hcases path with hsame | ⟨_, _, hpre⟩
    · exact hsame
    · exact absurd (hpre.trans (List.take_prefix _ _)) (not_prefix_parent hp)
  · intro q _ _
    rcases hcases q with hsame | ⟨hnone, hdir, hpre⟩
    · exact Or.inl hsame
    · exact Or.inr ⟨hnone, hdir, hpre.trans (List.take_prefix _ _)⟩

/-- A step that leaves every path but the two cells alone. -/
theorem Midway.step {spot' : Spot} (h : Midway before disk path hex spot)
    (hsibling : disk'.entryAt (tempPath path hex) = spot'.sibling)
    (htarget : disk'.entryAt path = spot'.target)
    (hothers : ∀ q, q ≠ path → q ≠ tempPath path hex → disk'.entryAt q = disk.entryAt q) :
    Midway before disk' path hex spot' := by
  refine ⟨hsibling, htarget, ?_⟩
  intro q hq htq
  rw [hothers q hq htq]
  exact h.others q hq htq

theorem Midway.partly (h : Midway before disk path hex spot)
    (hopen : (disk.writeFile (tempPath path hex) []).isSome) (content : Str) (bytes : Nat) :
    Midway before (partly disk (tempPath path hex) content bytes) path hex
      ⟨some (.file (content.take bytes)), spot.target⟩ := by
  have hwrite : (disk.writeFile (tempPath path hex) (content.take bytes)).isSome := by
    rw [Tree.writeFile_isSome (tempPath_ne_nil path hex)] at hopen ⊢
    exact hopen
  obtain ⟨written, hwritten⟩ := Option.isSome_iff_exists.mp hwrite
  have hpartly : Lectern.partly disk (tempPath path hex) content bytes = written := by
    rw [Lectern.partly, hwritten, Option.getD_some]
  have hat := Tree.entryAt_writeFile hwritten
  rw [hpartly]
  refine h.step ?_ ?_ ?_
  · rw [hat, if_pos rfl]
  · rw [hat, if_neg (tempPath_ne path hex).symm, h.target]
  · intro q _ htq
    rw [hat, if_neg htq]

theorem Midway.renamed (h : Midway before disk path hex ⟨some (.file content), target⟩)
    (hp : path ≠ []) (hrename : disk.rename (tempPath path hex) path = some disk') :
    Midway before disk' path hex ⟨none, some (.file content)⟩ := by
  have hat := entryAt_rename_temp hp h.sibling hrename
  refine h.step ?_ ?_ ?_
  · rw [hat, if_neg (tempPath_ne path hex), if_pos rfl]
  · rw [hat, if_pos rfl]
  · intro q hq htq
    rw [hat, if_neg hq, if_neg htq]

theorem Midway.removed (h : Midway before disk path hex spot) (hremove : disk.remove path = some disk') :
    Midway before disk' path hex ⟨spot.sibling, none⟩ := by
  have hat := Tree.entryAt_remove hremove
  refine h.step ?_ ?_ ?_
  · rw [hat, if_neg (tempPath_ne path hex), h.sibling]
  · rw [hat, if_pos rfl]
  · intro q hq _
    rw [hat, if_neg hq]

theorem Midway.cleared (h : Midway before disk path hex spot)
    (hremove : disk.remove (tempPath path hex) = some disk') :
    Midway before disk' path hex ⟨none, spot.target⟩ := by
  have hat := Tree.entryAt_remove hremove
  refine h.step ?_ ?_ ?_
  · rw [hat, if_pos rfl]
  · rw [hat, if_neg (tempPath_ne path hex).symm, h.target]
  · intro q _ htq
    rw [hat, if_neg htq]

theorem Midway.rename_isSome (h : Midway before disk path hex ⟨some (.file content), target⟩)
    (hp : path ≠ []) :
    (disk.rename (tempPath path hex) path).isSome ↔ target ≠ some .dir := by
  rw [rename_temp_isSome hp h.sibling, h.target]

/-- Whether the target can be removed is decided before the call. -/
theorem Midway.remove_isSome (h : Midway before disk path hex spot) (hp : path ≠ [])
    (htarget : spot.target = before.entryAt path) :
    (disk.remove path).isSome = (before.remove path).isSome := by
  have hbelow : ∀ n, disk.entryAt (path ++ [n]) = before.entryAt (path ++ [n]) := by
    intro n
    have hne : path ++ [n] ≠ path := by simp
    have htne : path ++ [n] ≠ tempPath path hex := by
      intro heq
      exact (tempPath_apart hp hex).2 (heq ▸ List.prefix_append path [n])
    rcases h.others _ hne htne with hsame | ⟨_, _, hpre⟩
    · exact hsame
    · exact absurd ((List.prefix_append path [n]).trans hpre) (not_prefix_parent hp)
  rw [Bool.eq_iff_iff, Tree.remove_isSome hp, Tree.remove_isSome hp, h.target, htarget]
  simp only [hbelow]

end Midway

/-- Steps and cells go side by side. -/
def Follows (before : Disk) (path : List Str) (hex : Str) (call : List (Step × Disk) × Bool)
    (spots : List (Step × Spot) × Bool) : Prop :=
  List.Forall₂ (fun s t => s.1 = t.1 ∧ Midway before s.2 path hex t.2) call.1 spots.1 ∧
    call.2 = spots.2

section Follows

variable {before disk : Disk} {path : List Str} {hex content : Str} {target : Option (Entry Str)}

theorem clearSteps_follows (faults : Faults)
    (h : Midway before disk path hex ⟨some (.file content), target⟩) :
    Follows before path hex (clearSteps faults disk (tempPath path hex), false)
      (clearSpots faults target, false) := by
  have hremovable : (disk.remove (tempPath path hex)).isSome :=
    (Tree.remove_isSome (tempPath_ne_nil path hex)).mpr (Or.inl ⟨content, h.sibling⟩)
  obtain ⟨cleared, hcleared⟩ := Option.isSome_iff_exists.mp hremovable
  unfold clearSteps clearSpots unlessRefused
  cases faults.removeTemp with
  | true => exact ⟨List.Forall₂.nil, rfl⟩
  | false =>
      simp only [hcleared, Bool.false_eq_true, if_false]
      exact ⟨.cons ⟨rfl, h.cleared hcleared⟩ .nil, rfl⟩

theorem replaceSteps_follows (faults : Faults) (hp : path ≠ [])
    (h : Midway before disk path hex ⟨some (.file content), target⟩) :
    Follows before path hex (replaceSteps faults disk (tempPath path hex) path)
      (replaceSpots faults target content) := by
  have hclear := clearSteps_follows faults h
  unfold replaceSteps replaceSpots unlessRefused
  cases faults.secondRename with
  | true =>
      simp only [if_true, true_or]
      exact hclear
  | false =>
      cases hren : disk.rename (tempPath path hex) path with
      | none =>
          have hdir : target = some .dir := h.target.symm.trans (dir_of_refused hp h.sibling hren)
          simp only [Bool.false_eq_true, if_false, hdir, or_true, if_true]
          rw [hdir] at hclear
          exact hclear
      | some renamed =>
          have hdir : target ≠ some .dir := (h.rename_isSome hp).mp (by simp [hren])
          simp only [Bool.false_eq_true, if_false, hdir, or_self]
          exact ⟨.cons ⟨rfl, h.renamed hp hren⟩ .nil, rfl⟩

theorem placeSteps_follows (faults : Faults) (land : Terrain) (hp : path ≠ [])
    (h : Midway before disk path hex ⟨some (.file content), land.old.target⟩)
    (hremovable : (disk.remove path).isSome = land.removable) :
    Follows before path hex (placeSteps faults disk (tempPath path hex) path)
      (placeSpots faults land content) := by
  -- What happens once the first rename is refused, by whichever of the two.
  have hrefused : Follows before path hex
      (match unlessRefused faults.removePath (disk.remove path) with
        | none => replaceSteps faults disk (tempPath path hex) path
        | some disk =>
            let (steps, returned) := replaceSteps faults disk (tempPath path hex) path
            ((.removed, disk) :: steps, returned))
      (if faults.removePath ∨ land.removable = false then
        replaceSpots faults land.old.target content
      else
        let (steps, returned) := replaceSpots faults none content
        ((.removed, ⟨some (.file content), none⟩) :: steps, returned)) := by
    unfold unlessRefused
    cases faults.removePath with
    | true =>
        simp only [if_true, true_or]
        exact replaceSteps_follows faults hp h
    | false =>
        cases hrem : disk.remove path with
        | none =>
            have hfixed : land.removable = false := by rw [← hremovable, hrem]; rfl
            simp only [Bool.false_eq_true, if_false, hfixed, or_true, if_true]
            exact replaceSteps_follows faults hp h
        | some emptied =>
            have hfree : land.removable = true := by rw [← hremovable, hrem]; rfl
            obtain ⟨hsteps, hreturned⟩ := replaceSteps_follows faults hp (h.removed hrem)
            simp only [Bool.false_eq_true, Bool.true_eq_false, if_false, hfree, or_self]
            exact ⟨.cons ⟨rfl, h.removed hrem⟩ hsteps, hreturned⟩
  unfold placeSteps placeSpots
  cases hfault : faults.firstRename with
  | true =>
      simp only [unlessRefused, if_true, true_or]
      exact hrefused
  | false =>
      cases hren : disk.rename (tempPath path hex) path with
      | none =>
          have hdir : land.old.target = some .dir :=
            h.target.symm.trans (dir_of_refused hp h.sibling hren)
          simp only [unlessRefused, Bool.false_eq_true, if_false, hdir, or_true, if_true]
          rw [hdir] at hrefused
          exact hrefused
      | some renamed =>
          have hdir : land.old.target ≠ some .dir := (h.rename_isSome hp).mp (by simp [hren])
          simp only [unlessRefused, Bool.false_eq_true, if_false, hdir, or_self]
          exact ⟨.cons ⟨rfl, h.renamed hp hren⟩ .nil, rfl⟩

theorem restSteps_follows (faults : Faults) (land : Terrain) (hp : path ≠ [])
    (h : Midway before disk path hex
      (land.written content (faults.write.getD content.length)))
    (hremovable : (disk.remove path).isSome = land.removable) :
    Follows before path hex (restSteps faults disk (tempPath path hex) path)
      (restSpots faults land content) := by
  unfold restSteps restSpots
  cases hwrite : faults.write with
  | some bytes => exact clearSteps_follows faults h
  | none =>
      rw [hwrite] at h
      simp only [Terrain.written, Option.getD_none, List.take_length] at h
      exact placeSteps_follows faults land hp h hremovable

end Follows

/-- **The disk follows the two cells**, step by step, whatever goes wrong. -/
theorem fWriteFileAtomicSteps_follows (faults : Faults) (disk : Disk) {path : List Str}
    (hp : path ≠ []) (hex content : Str) :
    Follows disk path hex (fWriteFileAtomicSteps faults disk path hex content)
      (writeSpots faults (terrain faults disk path hex) content) := by
  have hmade := midway_makeParents faults disk hp hex
  unfold fWriteFileAtomicSteps writeSpots
  cases hopen : unlessRefused faults.openTemp
      ((makeParents faults disk path.dropLast).writeFile (tempPath path hex) []) with
  | none =>
      have hclosed : (terrain faults disk path hex).opens = false := by
        show (unlessRefused _ _).isSome = false
        rw [hopen]
        rfl
      simp only [hopen, hclosed, Bool.false_eq_true, if_false]
      exact ⟨.cons ⟨rfl, hmade⟩ .nil, rfl⟩
  | some opened =>
      have hopens : (terrain faults disk path hex).opens = true := by
        show (unlessRefused _ _).isSome = true
        rw [hopen]
        rfl
      have hwritable : ((makeParents faults disk path.dropLast).writeFile
          (tempPath path hex) []).isSome := by
        unfold unlessRefused at hopen
        split at hopen
        · cases hopen
        · rw [hopen]
          rfl
      have hpartly := hmade.partly hwritable content
      have hwritten := hpartly (faults.write.getD content.length)
      have hrest := restSteps_follows faults (terrain faults disk path hex) hp hwritten
        (hwritten.remove_isSome hp rfl)
      simp only [hopen, hopens, if_true, writeSteps]
      refine ⟨.cons ⟨rfl, hmade⟩ (List.rel_append ?_ hrest.1), hrest.2⟩
      rw [List.forall₂_map_left_iff, List.forall₂_map_right_iff, List.forall₂_same]
      intro n _
      exact ⟨rfl, hpartly n⟩

/-! ## The law -/

/-- What is promised of one call: a call that throws has left the target as it
was, one that returns has put the content there, and after each step the target
is whole and everything else that was there still is. -/
structure AtomicCall (disk : Disk) (path : List Str) (content : Str)
    (call : List (Step × Disk) × Bool) : Prop where
  throws : call.2 = false → (leaves disk call.1).entryAt path = disk.entryAt path
  returns : call.2 = true → (leaves disk call.1).entryAt path = some (.file content)
  whole : ∀ s ∈ call.1,
    (s.2.entryAt path = disk.entryAt path ∨ s.2.entryAt path = some (.file content)) ∧
      ∀ q e, q ≠ path → disk.entryAt q = some e → s.2.entryAt q = some e

/-- At this spot the target is whole, and a sibling that was there is untouched. -/
def Spot.Whole (spot old : Spot) (content : Str) : Prop :=
  (spot.target = old.target ∨ spot.target = some (.file content)) ∧
    (old.sibling = none ∨ spot.sibling = old.sibling)

/-- The law of the two cells. -/
structure AtomicSpots (old : Spot) (content : Str) (call : List (Step × Spot) × Bool) : Prop where
  throws : call.2 = false → (call.1.getLastD (.parents, old)).2.target = old.target
  returns : call.2 = true → (call.1.getLastD (.parents, old)).2.target = some (.file content)
  whole : ∀ s ∈ call.1, s.2.Whole old content

/-- A point keeps everything that was there, if it keeps the sibling. -/
theorem Midway.keeps_iff {before disk : Disk} {path : List Str} {hex : Str} {spot : Spot}
    (h : Midway before disk path hex spot) :
    (∀ q e, q ≠ path → before.entryAt q = some e → disk.entryAt q = some e) ↔
      before.entryAt (tempPath path hex) = none ∨
        spot.sibling = before.entryAt (tempPath path hex) := by
  constructor
  · intro hkeeps
    cases hold : before.entryAt (tempPath path hex) with
    | none => exact Or.inl rfl
    | some e =>
        right
        rw [← h.sibling]
        exact hkeeps _ e (tempPath_ne path hex) hold
  · intro hsibling q e hq hold
    by_cases htq : q = tempPath path hex
    · subst htq
      rcases hsibling with hnone | hsame
      · rw [hnone] at hold
        cases hold
      · rw [h.sibling, hsame, hold]
    · rcases h.others q hq htq with hsame | ⟨hnone, _⟩
      · rw [hsame, hold]
      · rw [hnone] at hold
        cases hold

theorem forall₂_getLastD {α β : Type} {R : α → β → Prop} {xs : List α} {ys : List β}
    (h : List.Forall₂ R xs ys) {x : α} {y : β} (hxy : R x y) : R (xs.getLastD x) (ys.getLastD y) := by
  induction h generalizing x y with
  | nil => exact hxy
  | cons hhead _ ih =>
      rw [List.getLastD_cons, List.getLastD_cons]
      exact ih hhead

theorem forall₂_mem {α β : Type} {R : α → β → Prop} {xs : List α} {ys : List β}
    (h : List.Forall₂ R xs ys) {x : α} (hx : x ∈ xs) : ∃ y ∈ ys, R x y := by
  induction h with
  | nil => cases hx
  | cons hhead _ ih =>
      rcases List.mem_cons.mp hx with hfirst | hlater
      · subst hfirst
        exact ⟨_, List.mem_cons_self, hhead⟩
      · obtain ⟨y, hy, hxy⟩ := ih hlater
        exact ⟨y, List.mem_cons_of_mem _ hy, hxy⟩

theorem forall₂_forall {α β : Type} {R : α → β → Prop} {xs : List α} {ys : List β}
    (h : List.Forall₂ R xs ys) {p : α → Prop} {q : β → Prop} (hpq : ∀ x y, R x y → (p x ↔ q y)) :
    (∀ x ∈ xs, p x) ↔ ∀ y ∈ ys, q y := by
  induction h with
  | nil => simp
  | cons hhead _ ih => rw [List.forall_mem_cons, List.forall_mem_cons, hpq _ _ hhead, ih]

/-- The law of a call is the law of its cells. -/
theorem Follows.atomic_iff {disk : Disk} {path : List Str} {hex content : Str}
    {call : List (Step × Disk) × Bool} {spots : List (Step × Spot) × Bool}
    (h : Follows disk path hex call spots) :
    AtomicCall disk path content call ↔
      AtomicSpots ⟨disk.entryAt (tempPath path hex), disk.entryAt path⟩ content spots := by
  obtain ⟨hsteps, hreturned⟩ := h
  have hlast := (forall₂_getLastD hsteps
    (x := (.parents, disk)) (y := (.parents, _)) ⟨rfl, midway_self disk path hex⟩).2.target
  have hwhole := forall₂_forall hsteps
    (p := fun s => (s.2.entryAt path = disk.entryAt path ∨ s.2.entryAt path = some (.file content)) ∧
      ∀ q e, q ≠ path → disk.entryAt q = some e → s.2.entryAt q = some e)
    (q := fun s => (s.2.target = disk.entryAt path ∨ s.2.target = some (.file content)) ∧
      (disk.entryAt (tempPath path hex) = none ∨
        s.2.sibling = disk.entryAt (tempPath path hex)))
    (fun s t hst => by rw [hst.2.keeps_iff, hst.2.target])
  constructor
  · intro hcall
    refine ⟨?_, ?_, hwhole.mp hcall.whole⟩
    · intro hthrew
      rw [← hlast]
      exact hcall.throws (hreturned.trans hthrew)
    · intro hreturns
      rw [← hlast]
      exact hcall.returns (hreturned.trans hreturns)
  · intro hspots
    refine ⟨?_, ?_, hwhole.mpr hspots.whole⟩
    · intro hthrew
      rw [leaves, hlast]
      exact hspots.throws (hreturned.symm.trans hthrew)
    · intro hreturns
      rw [leaves, hlast]
      exact hspots.returns (hreturned.symm.trans hreturns)

/-! ## When it holds -/

/-- After a complete write the rename is refused and the target can be removed. -/
def Displaced (faults : Faults) (land : Terrain) : Prop :=
  faults.write = none ∧ (faults.firstRename = true ∨ land.old.target = some .dir) ∧
    faults.removePath = false ∧ land.removable = true

/-- The sibling is never renamed onto a target that is still there. -/
def Stranded (faults : Faults) (land : Terrain) : Prop :=
  faults.write ≠ none ∨
    (faults.firstRename = true ∨ land.old.target = some .dir) ∧
      (faults.secondRename = true ∨ land.old.target = some .dir)

/-- The condition on a call that opens the sibling: the target is not removed,
and if the sibling is a file that was there, it was empty and stays empty and in
place. -/
structure Spared (faults : Faults) (land : Terrain) (content : Str) : Prop where
  target : ¬ Displaced faults land
  sibling : ∀ c, land.old.sibling = some (.file c) →
    c = [] ∧ content.take (faults.write.getD content.length) = [] ∧
      Stranded faults land ∧ faults.removeTemp = true

/-- The three ways a call can end. -/
theorem restSpots_cases (faults : Faults) (land : Terrain) (content : Str) :
    (¬ Displaced faults land ∧ Stranded faults land ∧
      restSpots faults land content = (clearSpots faults land.old.target, false)) ∨
    (¬ Displaced faults land ∧ ¬ Stranded faults land ∧
      restSpots faults land content = ([(.renamed, ⟨none, some (.file content)⟩)], true)) ∨
    (Displaced faults land ∧ restSpots faults land content =
      ((.removed, ⟨some (.file content), none⟩) :: (replaceSpots faults none content).1,
        (replaceSpots faults none content).2)) := by
  unfold restSpots placeSpots replaceSpots Displaced Stranded
  cases faults.write with
  | some bytes => simp
  | none =>
      cases faults.firstRename <;> cases faults.removePath <;> cases faults.secondRename <;>
        cases land.removable <;> by_cases hdir : land.old.target = some .dir <;> simp [hdir]

/-- All prefixes are the same text exactly when they are empty. -/
theorem forall_take_eq_iff (content c : Str) (bytes : Nat) :
    (∀ n ≤ bytes, content.take n = c) ↔ c = [] ∧ content.take bytes = [] := by
  constructor
  · intro hall
    have hfirst := hall 0 (Nat.zero_le _)
    rw [List.take_zero] at hfirst
    exact ⟨hfirst.symm, (hall bytes (Nat.le_refl _)).trans hfirst.symm⟩
  · intro ⟨hc, hbytes⟩ n hn
    rw [hc, ← Nat.min_eq_left hn, ← List.take_take, hbytes, List.take_nil]

section Opened

variable (faults : Faults) {land : Terrain}

/-- While bytes are written the target is what it was. -/
theorem writeSpots_last (hopens : land.opens = true) (content : Str) :
    ((writeSpots faults land content).1.getLastD (.parents, land.old)).2.target =
      ((restSpots faults land content).1.getLastD (.parents, land.old)).2.target := by
  unfold writeSpots
  rw [if_pos hopens]
  simp only [List.getLastD_cons]
  cases hrest : (restSpots faults land content).1 with
  | nil =>
      rw [List.append_nil, List.range_succ, List.map_append, List.map_singleton,
        List.getLastD_concat]
      rfl
  | cons s steps =>
      simp only [List.getLastD_eq_getLast?, List.getLast?_append,
        List.getLast?_eq_some_getLast (List.cons_ne_nil s steps), Option.some_or,
        Option.getD_some]

/-- The points of a call that opens the sibling: the bytes, and what follows. -/
theorem writeSpots_forall (hopens : land.opens = true) (content : Str) (p : Spot → Prop)
    (hold : p land.old) :
    (∀ s ∈ (writeSpots faults land content).1, p s.2) ↔
      (∀ n ≤ faults.write.getD content.length, p (land.written content n)) ∧
        ∀ s ∈ (restSpots faults land content).1, p s.2 := by
  unfold writeSpots
  rw [if_pos hopens]
  simp only [List.forall_mem_cons, List.forall_mem_append, List.forall_mem_map, List.mem_range,
    Nat.lt_succ_iff, hold, true_and]

/-- What can be opened is absent or a file. -/
theorem sibling_of_opens (hopens : land.opens = true) :
    land.old.sibling = none ∨ ∃ c, land.old.sibling = some (.file c) := by
  cases hold : land.old.sibling with
  | none => exact Or.inl rfl
  | some e =>
      cases e with
      | dir => exact absurd hold (land.openable hopens)
      | file c => exact Or.inr ⟨c, rfl⟩

/-- The bytes do no harm to an empty file that gets none. -/
theorem written_whole (hopens : land.opens = true) (content : Str) (bytes : Nat) :
    (∀ n ≤ bytes, (land.written content n).Whole land.old content) ↔
      ∀ c, land.old.sibling = some (.file c) → c = [] ∧ content.take bytes = [] := by
  constructor
  · intro hall c hc
    rw [← forall_take_eq_iff]
    intro n hn
    rcases (hall n hn).2 with hnone | hsame
    · rw [hc] at hnone
      cases hnone
    · have hfile : some (Entry.file (content.take n)) = some (.file c) := hsame.trans hc
      cases hfile
      rfl
  · intro hempty n hn
    refine ⟨Or.inl rfl, ?_⟩
    rcases sibling_of_opens hopens with hnone | ⟨c, hc⟩
    · exact Or.inl hnone
    · right
      rw [hc, Terrain.written, (forall_take_eq_iff content c bytes).mpr (hempty c hc) n hn]

/-- A sibling that is gone afterwards was not there before. -/
theorem whole_gone_iff (hopens : land.opens = true) (target : Option (Entry Str)) (content : Str) :
    (Spot.mk none target).Whole land.old content ↔
      (target = land.old.target ∨ target = some (.file content)) ∧
        ∀ c, land.old.sibling ≠ some (.file c) := by
  refine and_congr Iff.rfl ?_
  constructor
  · intro hgone c hc
    rw [hc] at hgone
    simp at hgone
  · intro hfree
    rcases sibling_of_opens hopens with hnone | ⟨c, hc⟩
    · exact Or.inl hnone
    · exact absurd hc (hfree c)

/-- Once the sibling is open, the law is about the bytes and what follows them. -/
theorem atomicSpots_iff_rest (hopens : land.opens = true) (content : Str) :
    AtomicSpots land.old content (writeSpots faults land content) ↔
      AtomicSpots land.old content (restSpots faults land content) ∧
        ∀ c, land.old.sibling = some (.file c) →
          c = [] ∧ content.take (faults.write.getD content.length) = [] := by
  have hreturned : (writeSpots faults land content).2 = (restSpots faults land content).2 := by
    unfold writeSpots
    rw [if_pos hopens]
  have hlast := writeSpots_last faults hopens content
  have hwhole := writeSpots_forall faults hopens content
    (fun spot => spot.Whole land.old content) ⟨Or.inl rfl, Or.inr rfl⟩
  rw [written_whole hopens content] at hwhole
  constructor
  · intro hlaw
    obtain ⟨hempty, hrest⟩ := hwhole.mp hlaw.whole
    refine ⟨⟨?_, ?_, hrest⟩, hempty⟩
    · rw [← hlast, ← hreturned]
      exact hlaw.throws
    · rw [← hlast, ← hreturned]
      exact hlaw.returns
  · intro ⟨hlaw, hempty⟩
    refine ⟨?_, ?_, hwhole.mpr ⟨hempty, hlaw.whole⟩⟩
    · rw [hlast, hreturned]
      exact hlaw.throws
    · rw [hlast, hreturned]
      exact hlaw.returns

/-- A call that throws: only a sibling that cannot be removed survives it. -/
theorem atomicSpots_clear (hopens : land.opens = true) (content : Str) :
    AtomicSpots land.old content (clearSpots faults land.old.target, false) ↔
      ∀ c, land.old.sibling = some (.file c) → faults.removeTemp = true := by
  unfold clearSpots
  cases hremove : faults.removeTemp with
  | true => exact ⟨fun _ _ _ => rfl, fun _ => ⟨fun _ => rfl, nofun, List.forall_mem_nil _⟩⟩
  | false =>
      have hgone := whole_gone_iff hopens land.old.target content
      constructor
      · intro hlaw c hc
        exact absurd hc ((hgone.mp (hlaw.whole _ List.mem_cons_self)).2 c)
      · intro hfree
        refine ⟨fun _ => rfl, nofun, List.forall_mem_singleton.mpr (hgone.mpr ⟨Or.inl rfl, ?_⟩)⟩
        intro c hc
        cases hfree c hc

/-- A call that returns: the sibling is gone. -/
theorem atomicSpots_renamed (hopens : land.opens = true) (content : Str) :
    AtomicSpots land.old content ([(.renamed, ⟨none, some (.file content)⟩)], true) ↔
      ∀ c, land.old.sibling ≠ some (.file c) := by
  have hgone := whole_gone_iff hopens (some (.file content)) content
  constructor
  · intro hlaw
    exact (hgone.mp (hlaw.whole _ List.mem_cons_self)).2
  · intro hfree
    exact ⟨nofun, fun _ => rfl, List.forall_mem_singleton.mpr (hgone.mpr ⟨Or.inr rfl, hfree⟩)⟩

/-- The fallback has removed the target. -/
theorem not_atomicSpots_removed (hremovable : land.removable = true) (content : Str)
    (sibling : Option (Entry Str)) (steps : List (Step × Spot)) (returned : Bool) :
    ¬ AtomicSpots land.old content ((.removed, ⟨sibling, none⟩) :: steps, returned) := by
  intro hlaw
  rcases (hlaw.whole _ List.mem_cons_self).1 with hsame | hnew
  · exact land.present hremovable hsame.symm
  · cases hnew

/-- The law once the sibling is open. -/
theorem atomicSpots_of_opens (hopens : land.opens = true) (content : Str) :
    AtomicSpots land.old content (writeSpots faults land content) ↔
      Spared faults land content := by
  rw [atomicSpots_iff_rest faults hopens content]
  rcases restSpots_cases faults land content with
    ⟨htarget, hstranded, hrest⟩ | ⟨htarget, hplaced, hrest⟩ | ⟨hdisplaced, hrest⟩
  · rw [hrest, atomicSpots_clear faults hopens content]
    constructor
    · intro ⟨hremove, hempty⟩
      exact ⟨htarget, fun c hc => ⟨(hempty c hc).1, (hempty c hc).2, hstranded, hremove c hc⟩⟩
    · intro hspared
      exact ⟨fun c hc => (hspared.sibling c hc).2.2.2,
        fun c hc => ⟨(hspared.sibling c hc).1, (hspared.sibling c hc).2.1⟩⟩
  · rw [hrest, atomicSpots_renamed hopens content]
    constructor
    · intro ⟨hfree, _⟩
      exact ⟨htarget, fun c hc => absurd hc (hfree c)⟩
    · intro hspared
      have hfree : ∀ c, land.old.sibling ≠ some (.file c) := fun c hc =>
        hplaced (hspared.sibling c hc).2.2.1
      exact ⟨hfree, fun c hc => absurd hc (hfree c)⟩
  · rw [hrest]
    constructor
    · intro ⟨hlaw, _⟩
      exact absurd hlaw (not_atomicSpots_removed hdisplaced.2.2.2 content _ _ _)
    · intro hspared
      exact absurd hdisplaced hspared.target

end Opened

/-- A call that does not open the sibling changes neither cell. -/
theorem atomicSpots_of_closed {faults : Faults} {land : Terrain} (hclosed : land.opens = false)
    (content : Str) : AtomicSpots land.old content (writeSpots faults land content) := by
  unfold writeSpots
  rw [if_neg (by simp [hclosed])]
  refine ⟨fun _ => rfl, nofun, ?_⟩
  exact List.forall_mem_singleton.mpr ⟨Or.inl rfl, Or.inr rfl⟩

/-- **When a write is atomic.**  For every disk, path, content and every pattern
of refused steps, a call keeps the law exactly when it does not get to open the
sibling, or is spared: the fallback does not remove a target, and no file had
the sibling's name, unless it was empty and is left so. -/
theorem write_atomic (faults : Faults) (disk : Disk) {path : List Str} (hp : path ≠ [])
    (hex content : Str) :
    AtomicCall disk path content (fWriteFileAtomicSteps faults disk path hex content) ↔
      ((terrain faults disk path hex).opens = true →
        Spared faults (terrain faults disk path hex) content) := by
  rw [(fWriteFileAtomicSteps_follows faults disk hp hex content).atomic_iff]
  cases hopens : (terrain faults disk path hex).opens with
  | false => exact ⟨nofun, fun _ => atomicSpots_of_closed hopens content⟩
  | true =>
      have hlaw := atomicSpots_of_opens faults hopens content
      exact ⟨fun h _ => hlaw.mp h, fun h => hlaw.mpr (h rfl)⟩

/-! ## A call nothing goes wrong in -/

@[simp] theorem leaves_nil (disk : Disk) : leaves disk [] = disk := rfl

@[simp] theorem leaves_cons (disk : Disk) (s : Step × Disk) (steps : List (Step × Disk)) :
    leaves disk (s :: steps) = leaves s.2 steps := by
  cases steps with
  | nil => rfl
  | cons t steps => rfl

theorem leaves_append (disk : Disk) (steps later : List (Step × Disk)) :
    leaves disk (steps ++ later) = leaves (leaves disk steps) later := by
  induction steps generalizing disk with
  | nil => rfl
  | cons s steps ih => rw [List.cons_append, leaves_cons, leaves_cons, ih]

/-- The last byte decides what the writing leaves. -/
theorem leaves_writes (disk start : Disk) (temp : List Str) (content : Str) (bytes : Nat) :
    leaves start ((List.range (bytes + 1)).map (fun n =>
      (Step.wrote n, partly disk temp content n))) = partly disk temp content bytes := by
  rw [List.range_succ, List.map_append, leaves_append]
  rfl

theorem placeSteps_noFaults (disk : Disk) (path : List Str) (hex : Str) :
    leaves disk (placeSteps noFaults disk (tempPath path hex) path).1 = (place disk path hex).1 ∧
      (placeSteps noFaults disk (tempPath path hex) path).2 = (place disk path hex).2 := by
  have hreplace : ∀ d : Disk,
      leaves d (replaceSteps noFaults d (tempPath path hex) path).1 =
          (match d.rename (tempPath path hex) path with
            | some d => (d, true)
            | none => ((d.remove (tempPath path hex)).getD d, false)).1 ∧
        (replaceSteps noFaults d (tempPath path hex) path).2 =
          (match d.rename (tempPath path hex) path with
            | some d => (d, true)
            | none => ((d.remove (tempPath path hex)).getD d, false)).2 := by
    intro d
    unfold replaceSteps clearSteps
    simp only [unlessRefused, noFaults, Bool.false_eq_true, if_false]
    cases d.rename (tempPath path hex) path with
    | some renamed => exact ⟨rfl, rfl⟩
    | none => cases d.remove (tempPath path hex) <;> exact ⟨rfl, rfl⟩
  unfold placeSteps place
  cases hfirst : disk.rename (tempPath path hex) path with
  | some renamed => exact ⟨rfl, rfl⟩
  | none =>
      simp only [unlessRefused, noFaults, Bool.false_eq_true, if_false]
      cases disk.remove path with
      | none => exact hreplace disk
      | some emptied =>
          simp only [leaves_cons, Option.getD_some]
          exact hreplace emptied

/-- **Without faults the steps are those of `fWriteFileAtomic`.** -/
theorem fWriteFileAtomicSteps_noFaults (disk : Disk) (path : List Str) (hex content : Str) :
    leaves disk (fWriteFileAtomicSteps noFaults disk path hex content).1 =
        (fWriteFileAtomic disk path hex content).1 ∧
      (fWriteFileAtomicSteps noFaults disk path hex content).2 =
        (fWriteFileAtomic disk path hex content).2 := by
  have hmade : makeParents noFaults disk path.dropLast = (disk.mkdirs path.dropLast).getD disk := by
    have hall : noFaults.parents.getD path.dropLast.length = path.dropLast.length := rfl
    rw [makeParents, hall, List.take_length]
  have hsame : ∀ d : Disk, (d.writeFile (tempPath path hex) []).isSome =
      (d.writeFile (tempPath path hex) content).isSome := by
    intro d
    rw [Bool.eq_iff_iff, Tree.writeFile_isSome (tempPath_ne_nil path hex),
      Tree.writeFile_isSome (tempPath_ne_nil path hex)]
  rw [fWriteFileAtomic_eq]
  unfold fWriteFileAtomicSteps writeSteps writeTemp
  rw [hmade]
  generalize (disk.mkdirs path.dropLast).getD disk = made
  have hopen := hsame made
  cases hwrite : made.writeFile (tempPath path hex) content with
  | none =>
      rw [hwrite, Option.isSome_none, Option.isSome_eq_false_iff, Option.isNone_iff_eq_none] at hopen
      have hrefused : unlessRefused noFaults.openTemp (made.writeFile (tempPath path hex) []) =
          none := hopen
      simp only [hrefused]
      exact ⟨rfl, trivial⟩
  | some written =>
      rw [hwrite, Option.isSome_some, Option.isSome_iff_exists] at hopen
      obtain ⟨opened, hopened⟩ := hopen
      have hpartly : partly made (tempPath path hex) content content.length = written := by
        rw [partly, List.take_length, hwrite, Option.getD_some]
      have hplace := placeSteps_noFaults written path hex
      have hrest : restSteps noFaults written (tempPath path hex) path =
          placeSteps noFaults written (tempPath path hex) path := rfl
      have hbytes : noFaults.write.getD content.length = content.length := rfl
      have htried : unlessRefused noFaults.openTemp (made.writeFile (tempPath path hex) []) =
          some opened := hopened
      simp only [htried, hbytes, hpartly, hrest, leaves_cons, leaves_append]
      rw [leaves_writes, hpartly]
      exact hplace

/-! ## Runs -/

/-- One file. -/
def oneFile : Disk :=
  ⟨.file (str "a.mdp") (str "old") .nil, by simp [Dir.Distinct, Dir.names]⟩

/-- Both renames fail. -/
def renamesFail : Faults := { noFaults with firstRename := true, secondRename := true }

/-- A write that fails halfway, and cannot even clean up, is atomic. -/
theorem write_atomic_halfWritten :
    AtomicCall oneFile [str "a.mdp"] (str "new") (fWriteFileAtomicSteps
      { noFaults with write := some 2, removeTemp := true } oneFile [str "a.mdp"] (str "0f")
        (str "new")) := by
  refine (write_atomic _ oneFile (by decide) (str "0f") (str "new")).mpr ?_
  intro _
  refine ⟨?_, ?_⟩
  · intro hdisplaced
    cases hdisplaced.1
  · intro c hc
    have hfree : oneFile.entryAt (tempPath [str "a.mdp"] (str "0f")) = none := by decide +kernel
    exact absurd (hfree.symm.trans hc) nofun

/-- **A write can lose the document**: the first rename fails, the fallback
removes the target, and the second rename fails too. -/
theorem write_loses_target :
    ¬ AtomicCall oneFile [str "a.mdp"] (str "new")
      (fWriteFileAtomicSteps renamesFail oneFile [str "a.mdp"] (str "0f") (str "new")) := by
  intro hcall
  have hkept := hcall.throws (by decide +kernel)
  exact absurd hkept (by decide +kernel)

end Lectern
