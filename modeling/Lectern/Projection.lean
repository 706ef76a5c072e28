import Lectern.FileTree.Entries
import Lectern.Quota

/-!
# The quota decision over an existing file

Where the target is a regular file `fCheckQuota` does compare: it projects the
size after the write in unsigned 64-bit arithmetic, subtracting the old size
before adding the new one.  The old size is part of the total, so the
subtraction stays exact, and as long as the total and the new size fit into 64
bits together nothing wraps around (`toNat_projection`).
-/

namespace FileTree

/-- The weight of what a status query reports. -/
def Entry.weight {α : Type} (w : α → Nat) : Entry α → Nat
  | .file c => w c
  | .dir => 0

/-- The total weighs every entry at every depth, once. -/
theorem Dir.total_eq_sum {ν α : Type} (w : α → Nat) (d : Dir ν α) :
    d.total w = (d.entries.map (fun x => x.2.weight w)).sum := by
  induction d with
  | nil => rfl
  | file n c rest ih => simp [Dir.total, Dir.entries, Entry.weight, ih]
  | dir n sub rest ihsub ihrest =>
      have hsub : (sub.entries.map (Prod.map (n :: ·) id)).map (fun x => x.2.weight w) =
          sub.entries.map (fun x => x.2.weight w) := by
        rw [List.map_map]
        rfl
      rw [Dir.total, Dir.entries, List.map_cons, List.map_append, hsub, List.sum_cons,
        List.sum_append, ← ihsub, ← ihrest, Entry.weight]
      omega

end FileTree

namespace Lectern

open FileTree

section Existing

variable {root : Disk} {p : List Str} {c : Str}

theorem ne_nil_of_fileAt (hfile : root.fileAt p = some c) : p ≠ [] := by
  rintro rfl
  rw [Tree.fileAt_nil] at hfile
  cases hfile

/-- The file's bytes are among the total. -/
theorem length_le_total (hfile : root.fileAt p = some c) : c.length ≤ totalBytes root := by
  have hle := existingBytes_le root (ne_nil_of_fileAt hfile)
  unfold existingBytes at hle
  rwa [hfile] at hle

/-- The walk's 64-bit sum is the total. -/
theorem toNat_fDirSizeBytes (hlt : totalBytes root < 2 ^ 64) :
    (fDirSizeBytes root).toNat = totalBytes root := by
  rw [fDirSizeBytes_eq, toNat_ofNat_of_lt hlt]

theorem fileSizeAt_eq (hfile : root.fileAt p = some c) :
    fileSizeAt root p = UInt64.ofNat c.length := by
  unfold fileSizeAt
  rw [hfile]
  rfl

/-- The projection does not wrap around. -/
theorem toNat_projection (hfile : root.fileAt p = some c) {n : Nat}
    (hlt : totalBytes root + n < 2 ^ 64) :
    (fDirSizeBytes root - fileSizeAt root p + UInt64.ofNat n).toNat =
      totalBytes root - c.length + n := by
  have hle := length_le_total hfile
  rw [fDirSizeBytes_eq, fileSizeAt_eq hfile, toNat_projected hle (by omega)]
  exact Nat.mod_eq_of_lt (by omega)

theorem isRegularFile_eq (hfile : root.fileAt p = some c) :
    isRegularFile root p = (true, false) := by
  unfold isRegularFile
  rw [Tree.fileAt_eq_some_iff.mp hfile]

/-- The decision, over natural numbers. -/
theorem fCheckQuota_eq (quota : UInt64) (hfile : root.fileAt p = some c) {n : Nat}
    (hlt : totalBytes root + n < 2 ^ 64) :
    fCheckQuota quota root p (UInt64.ofNat n) =
      if 0 < quota.toNat ∧ c.length < n ∧ quota.toNat < totalBytes root - c.length + n then
        .error (.fBadRequest (quotaMessage quota))
      else .ok () := by
  have hle := length_le_total hfile
  have hproj := toNat_projection hfile hlt
  have hquota : quota = 0 ↔ quota.toNat = 0 := by
    rw [← UInt64.toNat_inj]
    rfl
  have hsmall : UInt64.ofNat n ≤ fileSizeAt root p ↔ n ≤ c.length := by
    rw [UInt64.le_iff_toNat_le, fileSizeAt_eq hfile, toNat_ofNat_of_lt (by omega),
      toNat_ofNat_of_lt (by omega)]
  have hover : fDirSizeBytes root - fileSizeAt root p + UInt64.ofNat n > quota ↔
      quota.toNat < totalBytes root - c.length + n := by
    rw [gt_iff_lt, UInt64.lt_iff_toNat_lt, hproj]
  unfold fCheckQuota
  simp only [isRegularFile_eq hfile, Bool.false_or, if_true, decide_eq_true_eq]
  by_cases hzero : quota = 0
  · have hnat := hquota.mp hzero
    rw [if_pos hzero, if_neg (by omega)]
  · have hnat : quota.toNat ≠ 0 := fun h => hzero (hquota.mpr h)
    rw [if_neg hzero]
    by_cases hgrow : n ≤ c.length
    · rw [if_pos (hsmall.mpr hgrow), if_neg (by omega)]
    · rw [if_neg (fun h => hgrow (hsmall.mp h))]
      by_cases hfull : quota.toNat < totalBytes root - c.length + n
      · rw [if_pos (hover.mpr hfull), if_pos (by omega)]
      · rw [if_neg (fun h => hfull (hover.mp h)), if_neg (by omega)]

/-- **The quota decision is exact.**  Over a regular file of `e` bytes in a
workspace of `T`, a write of `n` bytes is refused exactly when there is a
quota, the file grows and `T - e + n` exceeds it, all as natural numbers.  So a
write that does not grow the file is accepted, whatever is accepted is accepted
when it is shorter, and the 64-bit projection is the true one; the total it
starts from weighs every file at every depth once. -/
theorem quota_decision_exact (hfile : root.fileAt p = some c) (quota : UInt64) (n : Nat)
    (hlt : totalBytes root + n < 2 ^ 64) :
    ((∃ e, fCheckQuota quota root p (UInt64.ofNat n) = .error e) ↔
      0 < quota.toNat ∧ c.length < n ∧ quota.toNat < totalBytes root - c.length + n) ∧
    (n ≤ c.length → fCheckQuota quota root p (UInt64.ofNat n) = .ok ()) ∧
    (fCheckQuota quota root p (UInt64.ofNat n) = .ok () →
      ∀ m ≤ n, fCheckQuota quota root p (UInt64.ofNat m) = .ok ()) ∧
    (fDirSizeBytes root - fileSizeAt root p + UInt64.ofNat n).toNat =
      totalBytes root - c.length + n ∧
    c.length ≤ totalBytes root ∧
    (fDirSizeBytes root).toNat =
      (root.root.entries.map (fun x => x.2.weight List.length)).sum := by
  have heq := fCheckQuota_eq quota hfile hlt
  refine ⟨?_, ?_, ?_, toNat_projection hfile hlt, length_le_total hfile, ?_⟩
  · rw [heq]
    split
    · simp_all
    · simp_all
  · intro hshrink
    rw [heq, if_neg (by omega)]
  · intro hok m hm
    have hnot : ¬ (0 < quota.toNat ∧ c.length < n ∧
        quota.toNat < totalBytes root - c.length + n) := by
      intro hfull
      rw [heq, if_pos hfull] at hok
      cases hok
    rw [fCheckQuota_eq quota hfile (by omega), if_neg (by omega)]
  · rw [toNat_fDirSizeBytes (by omega)]
    exact Dir.total_eq_sum List.length root.root

end Existing

/-- Five bytes in two files. -/
def fiveBytes : Disk :=
  ⟨.file (str "a.mdp") (str "abc") (.dir (str "d") (.file (str "b.mdp") (str "de") .nil) .nil), by
    simp [Dir.Distinct, Dir.names, str]⟩

/-- Over the quota already, the file may shrink but not grow. -/
theorem quota_decision_exact_fiveBytes :
    (∃ e, fCheckQuota 4 fiveBytes [str "a.mdp"] (UInt64.ofNat 4) = .error e) ∧
      fCheckQuota 4 fiveBytes [str "a.mdp"] (UInt64.ofNat 3) = .ok () := by
  have hfile : fiveBytes.fileAt [str "a.mdp"] = some (str "abc") := by decide
  have htotal : totalBytes fiveBytes = 5 := by decide
  constructor
  · exact (quota_decision_exact hfile 4 4 (by rw [htotal]; decide)).1.mpr
      ⟨by decide, by decide, by decide⟩
  · exact (quota_decision_exact hfile 4 3 (by rw [htotal]; decide)).2.1 (by decide)

end Lectern
