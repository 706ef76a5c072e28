import Lectern.LiveFiles

/-!
# The quota over whole runs

`fCheckQuota` compares a projected size with the quota, but only where a status
query of the target sets no error: a target that does not exist yet is let
through unchecked.  So a new file is never refused, and the total stays within
the quota exactly as long as the new files happen to fit.

Sizes are counted in 64 bits, which matters only for projections beyond `2^64`;
the condition on a request says what has to hold there.
-/

namespace Lectern

open FileTree

/-- The size of the regular file at a path, zero when there is none. -/
def existingBytes (root : Disk) (p : List Str) : Nat :=
  match root.fileAt p with
  | some c => c.length
  | none => 0

/-- The bytes after writing `n` bytes at a path. -/
def projectedBytes (root : Disk) (p : List Str) (n : Nat) : Nat :=
  totalBytes root - existingBytes root p + n

/-- The write is one the quota check judges rightly, or one that fits anyway:
over an existing entry the projection does not wrap around into the quota, and
a new file fits. -/
def WriteFits (quota : UInt64) (root : Disk) (p : List Str) (n : Nat) : Prop :=
  match root.entryAt p with
  | some _ => projectedBytes root p n < 2 ^ 64 ∨ quota.toNat < projectedBytes root p n % 2 ^ 64
  | none => (root.mkdirs p.dropLast).isSome → totalBytes root + n ≤ quota.toNat

instance (quota : UInt64) (root : Disk) (p : List Str) (n : Nat) :
    Decidable (WriteFits quota root p n) := by
  unfold WriteFits
  split <;> infer_instance

/-- What a request has to satisfy; only writes have to. -/
def FitsQuota (limits : Limits) (w : Workspace) : Mutation → Prop
  | .putFile path content _ =>
      match fSafeRelPath path with
      | .ok rel => content.length ≤ limits.maxWorkFileBytes →
          WriteFits limits.workspaceQuotaBytes w.root (pathOf rel) content.length
      | .error _ => True
  | .writeThrough access content _ =>
      match fSafeRelPath access.relPath with
      | .ok rel => access.permission = .edit → fIsWorkFile access.relPath = true →
          w.root.fileAt (pathOf rel) ≠ none →
          WriteFits limits.workspaceQuotaBytes w.root (pathOf rel) content.length
      | .error _ => True
  | _ => True

instance (limits : Limits) (w : Workspace) (m : Mutation) : Decidable (FitsQuota limits w m) := by
  unfold FitsQuota
  split
  · split <;> infer_instance
  · split <;> infer_instance
  · infer_instance

/-- Every request of a run satisfies it, in the workspace it finds. -/
def AllFit (limits : Limits) : List Mutation → Workspace → Prop
  | [], _ => True
  | m :: ms, w => FitsQuota limits w m ∧ AllFit limits ms (m.run limits w).1

instance (limits : Limits) (ms : List Mutation) (w : Workspace) :
    Decidable (AllFit limits ms w) := by
  induction ms generalizing w with
  | nil => exact isTrue trivial
  | cons m ms ih =>
      have := ih (m.run limits w).1
      unfold AllFit
      infer_instance

/-! ## What the check computes -/

theorem dirSizeBytes_eq (d : Dir Str Str) : dirSizeBytes d = UInt64.ofNat (d.total List.length) := by
  induction d with
  | nil => rfl
  | file name content rest ih =>
      rw [dirSizeBytes, ih, Dir.total, UInt64.ofNat_add]
      rfl
  | dir name sub rest ihsub ihrest =>
      rw [dirSizeBytes, ihsub, ihrest, Dir.total, UInt64.ofNat_add]

theorem fDirSizeBytes_eq (root : Disk) : fDirSizeBytes root = UInt64.ofNat (totalBytes root) :=
  dirSizeBytes_eq root.root

theorem existingBytes_le (root : Disk) {p : List Str} (hp : p ≠ []) :
    existingBytes root p ≤ totalBytes root := by
  unfold existingBytes
  cases hfile : root.fileAt p with
  | none => exact Nat.zero_le _
  | some c =>
      have hle := bytesAt_le root hp
      have hat := Dir.entryAt_eq_file_iff.mp (Tree.fileAt_eq_some_iff.mp hfile)
      unfold bytesAt at hle
      rw [show root.get? p = some (.file c) from hat] at hle
      exact hle

theorem toNat_ofNat_of_lt {n : Nat} (h : n < 2 ^ 64) : (UInt64.ofNat n).toNat = n := by
  rw [UInt64.toNat_ofNat']
  exact Nat.mod_eq_of_lt h

/-- The 64-bit projection is the true one modulo `2^64`. -/
theorem toNat_projected {total existing n : Nat} (hle : existing ≤ total) (hlt : total < 2 ^ 64) :
    (UInt64.ofNat total - UInt64.ofNat existing + UInt64.ofNat n).toNat =
      (total - existing + n) % 2 ^ 64 := by
  rw [UInt64.toNat_add, UInt64.toNat_sub, toNat_ofNat_of_lt hlt,
    toNat_ofNat_of_lt (by omega), UInt64.toNat_ofNat']
  omega

/-- A check that lets an existing target pass means that the write fits. -/
theorem fCheckQuota_existing {quota : UInt64} {root : Disk} {p : List Str} {content : Str}
    (hp : p ≠ []) (hquota : quota ≠ 0) (htotal : totalBytes root ≤ quota.toNat)
    (hexists : root.entryAt p ≠ none) (hfit : WriteFits quota root p content.length)
    (h : fCheckQuota quota root p (fileSize content) = .ok ()) :
    content.length ≤ existingBytes root p ∨
      projectedBytes root p content.length ≤ quota.toNat := by
  have hlt := quota.toNat_lt
  have hexisting := existingBytes_le root hp
  have hregular : (isRegularFile root p).2 = false := by
    unfold isRegularFile
    split
    · rfl
    · rfl
    · contradiction
  have hlen : (if (isRegularFile root p).1 then fileSizeAt root p else 0) =
      UInt64.ofNat (existingBytes root p) := by
    unfold isRegularFile fileSizeAt existingBytes
    cases hat : root.entryAt p with
    | none => exact absurd hat hexists
    | some e => cases e <;> simp [Tree.fileAt, hat, fileSize]
  have hwrap : projectedBytes root p content.length < 2 ^ 64 ∨
      quota.toNat < projectedBytes root p content.length % 2 ^ 64 := by
    unfold WriteFits at hfit
    cases hat : root.entryAt p with
    | none => exact absurd hat hexists
    | some e =>
        rw [hat] at hfit
        exact hfit
  unfold fCheckQuota at h
  rw [if_neg hquota] at h
  simp only [hregular, hlen, Bool.false_or, fDirSizeBytes_eq, fileSize] at h
  unfold projectedBytes at hwrap ⊢
  by_cases hsmall : UInt64.ofNat content.length ≤ UInt64.ofNat (existingBytes root p)
  · have hnat := UInt64.le_iff_toNat_le.mp hsmall
    rw [UInt64.toNat_ofNat', toNat_ofNat_of_lt (n := existingBytes root p) (by omega)] at hnat
    omega
  · rw [if_neg (by simpa using hsmall)] at h
    by_cases hover : UInt64.ofNat (totalBytes root) - UInt64.ofNat (existingBytes root p) +
        UInt64.ofNat content.length > quota
    · rw [if_pos hover] at h
      cases h
    · rw [gt_iff_lt, UInt64.lt_iff_toNat_lt, toNat_projected hexisting (by omega)] at hover
      omega

/-! ## One request -/

/-- A write that passed the check and fits keeps the total within the quota. -/
theorem total_write_le {quota : UInt64} {root root' : Disk} {p : List Str} {hex content : Str}
    {returned : Bool} (hp : p ≠ []) (hquota : quota ≠ 0) (htotal : totalBytes root ≤ quota.toNat)
    (hfit : WriteFits quota root p content.length)
    (hcheck : fCheckQuota quota root p (fileSize content) = .ok ())
    (h : fWriteFileAtomic root p hex content = (root', returned)) :
    totalBytes root' ≤ quota.toNat := by
  obtain ⟨hgrow, hover⟩ := total_fWriteFileAtomic hp h
  cases hat : root.entryAt p with
  | none =>
      cases hmk : root.mkdirs p.dropLast with
      | some made =>
          unfold WriteFits at hfit
          rw [hat, hmk] at hfit
          have := hfit rfl
          omega
      | none =>
          -- Nothing can be written below a regular file.
          have hrefused : writeTemp root p hex content = none := by
            cases hwrite : writeTemp root p hex content with
            | none => rfl
            | some written =>
                have := (writeTemp_some hwrite).1
                rw [hmk] at this
                cases this
          rw [fWriteFileAtomic_eq, hrefused, hmk] at h
          cases h
          exact htotal
  | some e =>
      have hexists : root.entryAt p ≠ none := by simp [hat]
      have hjudged := fCheckQuota_existing hp hquota htotal hexists hfit hcheck
      have hexisting := existingBytes_le root hp
      unfold projectedBytes at hjudged
      cases e with
      | dir =>
          have hzero : existingBytes root p = 0 := by simp [existingBytes, Tree.fileAt, hat]
          omega
      | file c =>
          have hsize : existingBytes root p = c.length := by
            simp [existingBytes, Tree.fileAt, hat]
          have := hover c hat
          omega

theorem total_withParents (root : Disk) (p : List Str) :
    totalBytes (withParents root p) = totalBytes root := by
  unfold withParents
  cases hmk : root.mkdirs p.dropLast with
  | none => rfl
  | some made => exact Tree.total_mkdirs List.length hmk

/-- **One request that fits** keeps the total within the quota. -/
theorem total_run_le {limits : Limits} (hquota : limits.workspaceQuotaBytes ≠ 0) {w : Workspace}
    (hw : totalBytes w.root ≤ limits.workspaceQuotaBytes.toNat) {m : Mutation}
    (hfit : FitsQuota limits w m) :
    totalBytes (m.run limits w).1.root ≤ limits.workspaceQuotaBytes.toNat := by
  cases m with
  | putFile path content hex =>
      simp only [Mutation.run]
      rcases putFile_cases limits path content hex w with
        ⟨e, he⟩ | ⟨rel, hrel, hsize, hcheck, root, hout⟩
      · rw [he]
        exact hw
      · simp only [FitsQuota, hrel] at hfit
        have hp := (fSafeRelPath_ok hrel).1.1
        rcases hout with ⟨hwrite, hout⟩ | ⟨hwrite, hout⟩
        · rw [hout]
          exact total_write_le hp hquota hw (hfit hsize) hcheck hwrite
        · rw [hout]
          exact total_write_le hp hquota hw (hfit hsize) hcheck hwrite
  | createFolder relPath =>
      simp only [Mutation.run]
      rcases createFolder_cases relPath w with ⟨e, he⟩ | ⟨rel, root, _, hmk, hout⟩
      · rw [he]
        exact hw
      · rw [hout]
        exact Nat.le_trans (Nat.le_of_eq (Tree.total_mkdirs List.length hmk)) hw
  | deleteEntry path isDir now =>
      simp only [Mutation.run]
      rcases deleteEntry_cases path isDir now w with
        ⟨e, he⟩ | ⟨rel, root, _, ⟨_, hrem, hout⟩ | ⟨_, hrem, hout⟩⟩
      · rw [he]
        exact hw
      · have hle := Tree.total_removeAll List.length hrem
        rw [hout, root_recordAll]
        unfold totalBytes at hw ⊢
        dsimp only
        omega
      · have hle := Tree.total_removeAll List.length (Tree.removeAll_of_remove hrem)
        rw [hout, root_fRecordTombstone]
        unfold totalBytes at hw ⊢
        dsimp only
        omega
  | moveEntry src dst now =>
      simp only [Mutation.run]
      rcases moveEntry_cases src dst now w with
        ⟨e, he⟩ | ⟨fromKey, toKey, _, _, ⟨_, hout⟩ | ⟨root, hren, hout⟩⟩
      · rw [he]
        exact hw
      · rw [hout, total_withParents]
        exact hw
      · rw [hout, root_moveAll]
        have hparents := total_withParents w.root (pathOf toKey)
        by_cases hne : pathOf fromKey = pathOf toKey
        · rw [hne] at hren
          rw [Tree.rename_self hren, hparents]
          exact hw
        · have hle := Tree.total_rename List.length hne hren
          unfold totalBytes at hw hparents ⊢
          dsimp only
          omega
  | writeThrough access content hex =>
      simp only [Mutation.run]
      rcases fWriteThrough_cases limits access content hex w with
        ⟨e, he⟩ | ⟨rel, hrel, hedit, hwork, ⟨c, hc⟩, hcheck, root, hout⟩
      · rw [he]
        exact hw
      · simp only [FitsQuota, hrel] at hfit
        have hfile : w.root.fileAt (pathOf rel) ≠ none := by
          rw [Tree.fileAt_eq_some_iff.mpr hc]
          exact Option.some_ne_none c
        have hfits := hfit hedit hwork hfile
        have hp := (fSafeRelPath_ok hrel).1.1
        rcases hout with ⟨hwrite, hout⟩ | ⟨hwrite, hout⟩
        · rw [hout]
          exact total_write_le hp hquota hw hfits hcheck hwrite
        · rw [hout]
          exact total_write_le hp hquota hw hfits hcheck hwrite

/-! ## Every run -/

/-- **The quota holds over every run** whose writes fit where the check does not
look: a new file within what is left, a projection that does not wrap around. -/
theorem quota_over_runs (limits : Limits) (hquota : limits.workspaceQuotaBytes ≠ 0)
    (ms : List Mutation) (w : Workspace)
    (hw : totalBytes w.root ≤ limits.workspaceQuotaBytes.toNat) (hfit : AllFit limits ms w) :
    totalBytes (runs limits ms w).root ≤ limits.workspaceQuotaBytes.toNat := by
  induction ms generalizing w with
  | nil => exact hw
  | cons m ms ih => exact ih _ (total_run_le hquota hw hfit.1) hfit.2

/-- A new file that fits, then a larger version of it that fits as well. -/
theorem quota_over_runs_growing :
    totalBytes (runs ⟨10, 100⟩
      [.putFile (str "a.mdp") (str "12345") (str "00"),
        .putFile (str "a.mdp") (str "1234567890") (str "01")] Workspace.empty).root ≤ 10 :=
  quota_over_runs ⟨10, 100⟩ (by decide) _ Workspace.empty (by decide) (by decide)

/-- One new file, larger than the quota, is accepted. -/
theorem quota_bypassed :
    totalBytes Workspace.empty.root ≤ 10 ∧
      (Mutation.run ⟨10, 100⟩ (.putFile (str "a.mdp") (str "12345678901") (str "00"))
        Workspace.empty).2 = .ok [str "a.mdp"] ∧
      ¬ totalBytes (runs ⟨10, 100⟩ [.putFile (str "a.mdp") (str "12345678901") (str "00")]
        Workspace.empty).root ≤ 10 := by
  refine ⟨by decide, by rfl, by decide⟩

end Lectern
