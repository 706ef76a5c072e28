import Lectern.FileTree.Same
import Lectern.LiveFiles

/-!
# What a move relocates

A move creates the missing parents of its destination, renames, and goes over
the tombstones.  POSIX lets a file replace a file, so what stood exactly at the
destination is lost; everything else keeps its content.  A refused rename
leaves the parents it created behind.
-/

namespace Lectern

open FileTree

/-- What one would like a move to do: relocate without losing a file, or leave
the workspace as it was. -/
def Lossless (w : Workspace) (fromKey toKey : Str) (now : Int) : Prop :=
  match moveEntry fromKey toKey now w with
  | (w', .ok _) =>
      (∀ r c, w.root.fileAt (pathOf fromKey ++ r) = some c →
        w'.root.fileAt (pathOf toKey ++ r) = some c) ∧
      ∀ q c, ¬ pathOf fromKey <+: q → w.root.fileAt q = some c → w'.root.fileAt q = some c
  | (w', .error _) => w'.deletedFiles = w.deletedFiles ∧ w'.root.Same w.root

/-- The files of a move that was carried out. -/
structure Relocated (w w' : Workspace) (fromKey toKey : Str) : Prop where
  moved : ∀ r c, w.root.fileAt (pathOf fromKey ++ r) = some c →
    w'.root.fileAt (pathOf toKey ++ r) = some c
  kept : ∀ q c, ¬ pathOf fromKey <+: q → q ≠ pathOf toKey → w.root.fileAt q = some c →
    w'.root.fileAt q = some c
  none_new : ∀ q c, w'.root.fileAt q = some c →
    (∃ r, q = pathOf toKey ++ r ∧ w.root.fileAt (pathOf fromKey ++ r) = some c) ∨
      w.root.fileAt q = some c
  replaced : ∀ c, pathOf fromKey ≠ pathOf toKey → w.root.fileAt (pathOf toKey) = some c →
    ∃ c', w.root.fileAt (pathOf fromKey) = some c'

/-- The workspace of a move that was refused. -/
structure Refused (w w' : Workspace) (toKey : Str) : Prop where
  rows : w'.deletedFiles = w.deletedFiles
  files : ∀ q, w'.root.fileAt q = w.root.fileAt q
  folders : ∀ q, w'.root.entryAt q = w.root.entryAt q ∨
    w.root.entryAt q = none ∧ w'.root.entryAt q = some .dir ∧ q <+: (pathOf toKey).dropLast

section Rename

variable {w : Workspace} {root : Disk} {src dst : List Str}

theorem fileAt_moved (h : (withParents w.root dst).rename src dst = some root) (r : List Str) :
    root.fileAt (dst ++ r) = w.root.fileAt (src ++ r) := by
  by_cases hne : src = dst
  · subst hne
    rw [Tree.rename_self h, fileAt_withParents]
  · rw [fileAt_move hne h, if_pos (List.prefix_append dst r), List.drop_left]

/-- Nothing but the destination itself can be lost. -/
theorem fileAt_kept (h : (withParents w.root dst).rename src dst = some root) {q : List Str}
    {c : Str} (hsrc : ¬ src <+: q) (hdst : q ≠ dst) (hq : w.root.fileAt q = some c) :
    root.fileAt q = some c := by
  by_cases hne : src = dst
  · subst hne
    rw [Tree.rename_self h, fileAt_withParents, hq]
  · have hbelow : ¬ dst <+: q := by
      intro hpre
      obtain ⟨r, rfl⟩ := hpre
      have hr : r ≠ [] := by
        intro hnil
        exact hdst (by rw [hnil, List.append_nil])
      have hnone := Tree.rename_below_target hne h hr
      have hat := Tree.fileAt_eq_some_iff.mp
        ((fileAt_withParents w.root dst (dst ++ r)).trans hq)
      rw [hnone] at hat
      cases hat
    rw [fileAt_move hne h, if_neg hbelow, if_neg hsrc, hq]

theorem fileAt_source (h : (withParents w.root dst).rename src dst = some root) {q : List Str}
    {c : Str} (hq : root.fileAt q = some c) :
    (∃ r, q = dst ++ r ∧ w.root.fileAt (src ++ r) = some c) ∨ w.root.fileAt q = some c := by
  by_cases hpre : dst <+: q
  · obtain ⟨r, rfl⟩ := hpre
    rw [fileAt_moved h] at hq
    exact Or.inl ⟨r, rfl, hq⟩
  · right
    by_cases hne : src = dst
    · subst hne
      rwa [Tree.rename_self h, fileAt_withParents] at hq
    · rw [fileAt_move hne h, if_neg hpre] at hq
      by_cases hsrc : src <+: q
      · rw [if_pos hsrc] at hq
        cases hq
      · rwa [if_neg hsrc] at hq

/-- Only a file replaces a file. -/
theorem replaced_by_file (hne : src ≠ dst)
    (h : (withParents w.root dst).rename src dst = some root) {c : Str}
    (hc : w.root.fileAt dst = some c) : ∃ c', w.root.fileAt src = some c' := by
  have hdst := Tree.fileAt_eq_some_iff.mp ((fileAt_withParents w.root dst dst).trans hc)
  rcases Tree.rename_target hne h with hnone | ⟨c', c'', hsrc, _⟩ | ⟨_, hdir, _⟩
  · rw [hnone] at hdst
    cases hdst
  · exact ⟨c', (fileAt_withParents w.root dst src).symm.trans (Tree.fileAt_eq_some_iff.mpr hsrc)⟩
  · rw [hdir] at hdst
    cases hdst

end Rename

/-- **What a move does.**  Answering success it has relocated every file at or
below the source, with its content, to the destination plus the same remainder
(the key's too), and left every other file alone but one that stood exactly at
the destination, which only a file replaces.  Answering an error it has changed
no file and no tombstone, and at most created missing parents of the
destination. -/
theorem move_relocates (w : Workspace) (fromKey toKey : Str) (now : Int)
    (hfrom : fSafeRelPath fromKey = .ok fromKey) (hto : fSafeRelPath toKey = .ok toKey) :
    (∀ announced, (moveEntry fromKey toKey now w).2 = .ok announced →
      Relocated w (moveEntry fromKey toKey now w).1 fromKey toKey) ∧
    (∀ e, (moveEntry fromKey toKey now w).2 = .error e →
      Refused w (moveEntry fromKey toKey now w).1 toKey) ∧
    ∀ r, keyOf (pathOf toKey ++ r) = toKey ++ (keyOf (pathOf fromKey ++ r)).drop fromKey.length := by
  obtain ⟨hsrc, hsrckey⟩ := keyOf_pathOf hfrom
  obtain ⟨hdst, hdstkey⟩ := keyOf_pathOf hto
  refine ⟨?_, ?_, ?_⟩
  · intro announced hok
    rcases moveEntry_cases fromKey toKey now w with
      ⟨e, hout⟩ | ⟨fromKey', toKey', hfrom', hto', ⟨_, hout⟩ | ⟨root, hrename, hout⟩⟩
    · rw [hout] at hok
      cases hok
    · rw [hout] at hok
      cases hok
    · rw [hfrom, Except.ok.injEq] at hfrom'
      rw [hto, Except.ok.injEq] at hto'
      subst hfrom' hto'
      have hroot : (moveEntry fromKey toKey now w).1.root = root := by
        rw [hout, root_moveAll]
      refine ⟨?_, ?_, ?_, ?_⟩
      · intro r c hr
        rw [hroot, fileAt_moved hrename, hr]
      · intro q c hnot hne hq
        rw [hroot]
        exact fileAt_kept hrename hnot hne hq
      · intro q c hq
        rw [hroot] at hq
        exact fileAt_source hrename hq
      · intro c hne hc
        exact replaced_by_file hne hrename hc
  · intro e herror
    rcases moveEntry_cases fromKey toKey now w with
      ⟨e', hout⟩ | ⟨fromKey', toKey', _, hto', ⟨_, hout⟩ | ⟨root, _, hout⟩⟩
    · rw [hout]
      exact ⟨rfl, fun q => rfl, fun q => Or.inl rfl⟩
    · rw [hto, Except.ok.injEq] at hto'
      subst hto'
      rw [hout]
      exact ⟨rfl, fileAt_withParents w.root (pathOf toKey),
        Tree.entryAt_mkdirs_getD w.root (pathOf toKey).dropLast⟩
    · rw [hout] at herror
      cases herror
  · intro r
    have hmoved := movedKey_keyOf hsrc.1 hdst.1 r
    rw [hsrckey, hdstkey] at hmoved
    exact hmoved.symm

/-- Two files. -/
def twoFiles : Workspace :=
  ⟨⟨.file (str "a.mdp") (str "old") (.file (str "b.mdp") (str "new") .nil), by
    simp [Dir.Distinct, Dir.names, str]⟩, []⟩

theorem move_relocates_twoFiles :
    (moveEntry (str "a.mdp") (str "n/c.mdp") 0 twoFiles).1.root.fileAt [str "n", str "c.mdp"] =
      some (str "old") := by
  have hmove := move_relocates twoFiles (str "a.mdp") (str "n/c.mdp") 0 (by decide) (by decide)
  exact (hmove.1 [str "a.mdp", str "n/c.mdp"] (by decide +kernel)).moved [] (str "old")
    (by decide +kernel)

/-- **A move can lose a file and fail halfway**: onto an existing file, whose
content is gone; and of a missing source, where the new parent stays. -/
theorem move_not_lossless :
    ¬ Lossless twoFiles (str "a.mdp") (str "b.mdp") 0 ∧
      ¬ Lossless twoFiles (str "z.mdp") (str "n/c.mdp") 0 := by
  constructor
  · intro hlossless
    have hanswer : moveEntry (str "a.mdp") (str "b.mdp") 0 twoFiles =
        ((moveEntry (str "a.mdp") (str "b.mdp") 0 twoFiles).1,
          .ok [str "a.mdp", str "b.mdp"]) := Prod.ext rfl (by decide +kernel)
    have hold : (moveEntry (str "a.mdp") (str "b.mdp") 0 twoFiles).1.root.fileAt [str "b.mdp"] =
        some (str "old") := by decide +kernel
    unfold Lossless at hlossless
    rw [hanswer] at hlossless
    have hkept := hlossless.2 [str "b.mdp"] (str "new") (by decide) (by decide)
    rw [hold] at hkept
    exact absurd hkept (by decide)
  · intro hlossless
    have hanswer : moveEntry (str "z.mdp") (str "n/c.mdp") 0 twoFiles =
        ((moveEntry (str "z.mdp") (str "n/c.mdp") 0 twoFiles).1, .error .fNotFound) :=
      Prod.ext rfl (by decide +kernel)
    have hleft : (moveEntry (str "z.mdp") (str "n/c.mdp") 0 twoFiles).1.root.entryAt [str "n"] =
        some .dir := by decide +kernel
    unfold Lossless at hlossless
    rw [hanswer] at hlossless
    have hsame := hlossless.2 [str "n"]
    rw [hleft] at hsame
    exact absurd hsame (by decide)

end Lectern
