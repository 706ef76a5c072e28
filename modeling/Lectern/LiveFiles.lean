import Lectern.Mutation

/-!
# Live files carry no tombstone

Starting from a workspace nothing has been written to, two facts hold after any
requests.  Every name on disk is one `fSafeRelPath` lets through, so keys and
paths correspond; and no regular file has a row in `deleted_files`.

The move handler is the one that needs both: it clears the new key of every
file it relocates by cutting the old prefix off the old key, and it records the
old keys in the same loop.
-/

namespace Lectern

open FileTree

/-- Every existing path is made of names the server lets through. -/
def NamesValid (root : Disk) : Prop := ∀ q, root.entryAt q ≠ none → ∀ n ∈ q, ValidName n

/-- What holds of a workspace between requests. -/
structure Sound (w : Workspace) : Prop where
  names : NamesValid w.root
  live : ∀ q c, w.root.fileAt q = some c → ¬ Tombstoned w (keyOf q)

/-! ## Names -/

theorem validName_above {p q : List Str} (hp : ValidPath p) (hq : q <+: p) :
    ∀ n ∈ q, ValidName n := by
  intro n hn
  exact hp.2 n (hq.subset hn)

/-- Every new path is a valid one or was there before. -/
theorem NamesValid.of_new {root root' : Disk} (hroot : NamesValid root)
    (h : ∀ q, root'.entryAt q ≠ none → root.entryAt q ≠ none ∨ ∀ n ∈ q, ValidName n) :
    NamesValid root' := by
  intro q hq
  rcases h q hq with hold | hvalid
  · exact hroot q hold
  · exact hvalid

theorem namesValid_mkdirs {root root' : Disk} {p : List Str} (hroot : NamesValid root)
    (hp : ∀ n ∈ p, ValidName n) (h : root.mkdirs p = some root') : NamesValid root' := by
  apply hroot.of_new
  intro q hq
  rw [Tree.entryAt_mkdirs h q] at hq
  by_cases hpre : q <+: p
  · exact Or.inr (fun n hn => hp n (hpre.subset hn))
  · rw [if_neg hpre] at hq
    exact Or.inl hq

theorem namesValid_withParents {root : Disk} {p : List Str} (hroot : NamesValid root)
    (hp : ValidPath p) : NamesValid (withParents root p) := by
  unfold withParents
  cases hmk : root.mkdirs p.dropLast with
  | none => exact hroot
  | some root' =>
      exact namesValid_mkdirs hroot (validName_above hp (List.dropLast_prefix p)) hmk

theorem namesValid_removeAll {root root' : Disk} {p : List Str} (hroot : NamesValid root)
    (h : root.removeAll p = some root') : NamesValid root' := by
  apply hroot.of_new
  intro q hq
  rw [Tree.entryAt_removeAll h q] at hq
  by_cases hpre : p <+: q
  · rw [if_pos hpre] at hq
    exact absurd rfl hq
  · rw [if_neg hpre] at hq
    exact Or.inl hq

theorem namesValid_rename {root root' : Disk} {src dst : List Str} (hroot : NamesValid root)
    (hdst : ValidPath dst) (h : root.rename src dst = some root') : NamesValid root' := by
  by_cases hne : src = dst
  · subst hne
    rw [Tree.rename_self h]
    exact hroot
  · intro q hq
    rw [Tree.entryAt_rename hne h q] at hq
    by_cases hpre : dst <+: q
    · rw [if_pos hpre] at hq
      obtain ⟨r, rfl⟩ := hpre
      rw [List.drop_left] at hq
      intro n hn
      rcases List.mem_append.mp hn with hn | hn
      · exact hdst.2 n hn
      · exact hroot _ hq n (List.mem_append_right _ hn)
    · rw [if_neg hpre] at hq
      by_cases hsrc : src <+: q
      · rw [if_pos hsrc] at hq
        exact absurd rfl hq
      · rw [if_neg hsrc] at hq
        exact hroot q hq

theorem namesValid_write {root root' : Disk} {p : List Str} {hex content : Str} {returned : Bool}
    (hroot : NamesValid root) (hp : ValidPath p)
    (h : fWriteFileAtomic root p hex content = (root', returned)) : NamesValid root' := by
  apply hroot.of_new
  intro q hq
  cases returned with
  | false =>
      rcases fWriteFileAtomic_fail hp.1 h with hsame | ⟨_, hat⟩
      · rw [hsame q] at hq
        exact Or.inl hq
      · rw [hat q] at hq
        by_cases htq : q = tempPath p hex
        · rw [if_pos htq] at hq
          exact absurd rfl hq
        · rw [if_neg htq] at hq
          exact Or.inl hq
  | true =>
      rw [fWriteFileAtomic_ok hp.1 h q] at hq
      by_cases hqp : q = p
      · rw [hqp]
        exact Or.inr hp.2
      · rw [if_neg hqp] at hq
        by_cases htq : q = tempPath p hex
        · rw [if_pos htq] at hq
          exact absurd rfl hq
        · rw [if_neg htq] at hq
          by_cases hpre : q <+: p.dropLast
          · exact Or.inr (validName_above hp (hpre.trans (List.dropLast_prefix p)))
          · rw [if_neg hpre] at hq
            exact Or.inl hq

/-- A file's path is a valid one. -/
theorem NamesValid.validPath {root : Disk} (hroot : NamesValid root) {p : List Str} {c : Str}
    (hp : root.fileAt p = some c) : ValidPath p := by
  have hat := Tree.fileAt_eq_some_iff.mp hp
  refine ⟨?_, hroot p (by simp [hat])⟩
  rintro rfl
  simp at hp

/-! ## Writes -/

theorem Sound.write_fail {w : Workspace} (hw : Sound w) {p : List Str} {hex content : Str}
    {root : Disk} (hp : ValidPath p)
    (h : fWriteFileAtomic w.root p hex content = (root, false)) :
    Sound { w with root := root } := by
  refine ⟨namesValid_write hw.names hp h, ?_⟩
  intro q c hq
  exact hw.live q c (fileAt_fWriteFileAtomic_fail hp.1 h hq)

/-- The PUT handler: the written key is cleared. -/
theorem Sound.write_clear {w : Workspace} (hw : Sound w) {rel hex content : Str} {root : Disk}
    (hrel : fSafeRelPath rel = .ok rel)
    (h : fWriteFileAtomic w.root (pathOf rel) hex content = (root, true)) :
    Sound (fClearTombstone { w with root := root } rel) := by
  obtain ⟨hvalid, hkey⟩ := keyOf_pathOf hrel
  refine ⟨namesValid_write hw.names hvalid h, ?_⟩
  intro q c hq
  rw [tombstoned_fClearTombstone, tombstoned_root]
  intro hdead
  rw [root_fClearTombstone, fileAt_fWriteFileAtomic_ok hvalid.1 h] at hq
  by_cases hqp : q = pathOf rel
  · exact hdead.1 (hqp ▸ hkey)
  · rw [if_neg hqp] at hq
    by_cases htq : q = tempPath (pathOf rel) hex
    · rw [if_pos htq] at hq
      cases hq
    · rw [if_neg htq] at hq
      exact hw.live q c hq hdead.2

/-- The shared write clears nothing: the file it replaces was live already. -/
theorem Sound.write_existing {w : Workspace} (hw : Sound w) {p : List Str} {hex content c₀ : Str}
    {root : Disk} (hp : ValidPath p) (hold : w.root.entryAt p = some (.file c₀))
    (h : fWriteFileAtomic w.root p hex content = (root, true)) :
    Sound { w with root := root } := by
  refine ⟨namesValid_write hw.names hp h, ?_⟩
  intro q c hq
  rw [tombstoned_root]
  rw [fileAt_fWriteFileAtomic_ok hp.1 h] at hq
  by_cases hqp : q = p
  · rw [hqp]
    exact hw.live p c₀ (Tree.fileAt_eq_some_iff.mpr hold)
  · rw [if_neg hqp] at hq
    by_cases htq : q = tempPath p hex
    · rw [if_pos htq] at hq
      cases hq
    · rw [if_neg htq] at hq
      exact hw.live q c hq

/-! ## Removals -/

/-- A removal that records keys of removed paths only. -/
theorem Sound.remove {w w' : Workspace} (hw : Sound w) {p : List Str} {root : Disk}
    (h : w.root.removeAll p = some root) (hroot : w'.root = root)
    (hdead : ∀ k, Tombstoned w' k →
      (∃ r, ValidPath (p ++ r) ∧ k = keyOf (p ++ r)) ∨ Tombstoned w k) : Sound w' := by
  refine ⟨hroot ▸ namesValid_removeAll hw.names h, ?_⟩
  intro q c hq hk
  rw [hroot, Tree.fileAt_removeAll h] at hq
  by_cases hpre : p <+: q
  · rw [if_pos hpre] at hq
    cases hq
  · rw [if_neg hpre] at hq
    rcases hdead _ hk with ⟨r, hvalid, hr⟩ | hold
    · have heq := keyOf_injective (hw.names.validPath hq) hvalid hr
      exact hpre (heq ▸ List.prefix_append p r)
    · exact hw.live q c hq hold

/-! ## Moves -/

theorem fileAt_withParents (root : Disk) (p q : List Str) :
    (withParents root p).fileAt q = root.fileAt q := by
  unfold withParents
  cases hmk : root.mkdirs p.dropLast with
  | none => rfl
  | some root' => exact Tree.fileAt_mkdirs hmk q

theorem entryAt_withParents_apart (root : Disk) {p q : List Str}
    (h : ¬ q <+: p.dropLast) : (withParents root p).entryAt q = root.entryAt q :=
  (Tree.entryAt_mkdirs_getD root p.dropLast q).resolve_right (fun hnew => h hnew.2.2)

/-- The source of a move that was carried out was there before the parents of
the destination were created. -/
theorem source_withParents {root root' : Disk} {src dst : List Str} (hdst : dst ≠ [])
    (h : (withParents root dst).rename src dst = some root') :
    (withParents root dst).entryAt src = root.entryAt src ∧ root.entryAt src ≠ none := by
  have hnot : ¬ src <+: dst.dropLast := by
    intro hpre
    by_cases hne : src = dst
    · exact not_prefix_parent hdst (hne ▸ hpre)
    · exact (Tree.rename_incomparable hne h).1 (hpre.trans (List.dropLast_prefix dst))
  have hsame := entryAt_withParents_apart root hnot
  exact ⟨hsame, hsame ▸ Tree.rename_source h⟩

/-- The relocated files: those at or below the source. -/
theorem mem_movedFiles {root root' : Disk} {fromKey : Str} {dst : List Str}
    (hfrom : fSafeRelPath fromKey = .ok fromKey) (hdst : dst ≠ [])
    (h : (withParents root dst).rename (pathOf fromKey) dst = some root') (k : Str) :
    k ∈ movedFiles root fromKey ↔
      ∃ r c, root.fileAt (pathOf fromKey ++ r) = some c ∧ k = keyOf (pathOf fromKey ++ r) := by
  obtain ⟨hvalid, hkey⟩ := keyOf_pathOf hfrom
  have hkey_ne : keyOf (pathOf fromKey) ≠ [] := by
    intro hnil
    rw [hkey] at hnil
    rw [hnil] at hvalid
    exact hvalid.1 rfl
  have hexists := (source_withParents hdst h).2
  unfold movedFiles isDirectory
  cases hsrc : root.entryAt (pathOf fromKey) with
  | none => exact absurd hsrc hexists
  | some e =>
      cases e with
      | dir =>
          simp only [if_true]
          have hmem := mem_fCollectFilesUnder root hkey_ne k
          rw [hkey] at hmem
          rw [hmem]
          constructor
          · intro hk
            obtain ⟨r, c, _, hr, rfl⟩ := hk
            exact ⟨r, c, Tree.fileAt_eq_some_iff.mpr hr, rfl⟩
          · intro hk
            obtain ⟨r, c, hr, rfl⟩ := hk
            have hat := Tree.fileAt_eq_some_iff.mp hr
            refine ⟨r, c, ?_, hat, rfl⟩
            rintro rfl
            rw [List.append_nil, hsrc] at hat
            cases hat
      | file c =>
          simp only [Bool.false_eq_true, if_false, List.mem_singleton]
          constructor
          · intro hk
            refine ⟨[], c, ?_, ?_⟩
            · rw [List.append_nil]
              exact Tree.fileAt_eq_some_iff.mpr hsrc
            · rw [List.append_nil, hkey, hk]
          · intro hk
            obtain ⟨r, c', hr, rfl⟩ := hk
            by_cases hnil : r = []
            · rw [hnil, List.append_nil, hkey]
            · have hbelow := Dir.entryAt_below_file (d := root.root) hsrc hnil
              have hat := Tree.fileAt_eq_some_iff.mp hr
              rw [show root.root.entryAt _ = _ from hat] at hbelow
              cases hbelow

/-- Cutting the source key off a key below it and putting the destination key
in front gives the key at the destination. -/
theorem movedKey_keyOf {p q : List Str} (hp : p ≠ []) (hq : q ≠ []) (r : List Str) :
    movedKey (keyOf p) (keyOf q) (keyOf (p ++ r)) = keyOf (q ++ r) := by
  unfold movedKey
  by_cases hr : r = []
  · subst hr
    rw [List.append_nil, List.append_nil, List.drop_length, List.append_nil]
  · rw [keyOf_append hp hr, keyOf_append hq hr, List.drop_left]

/-- A file moved onto itself keeps its key. -/
theorem movedKey_self {root moved : Disk} {fromKey toKey : Str}
    (hfrom : fSafeRelPath fromKey = .ok fromKey) (hto : fSafeRelPath toKey = .ok toKey)
    (hne : pathOf fromKey = pathOf toKey)
    (h : (withParents root (pathOf toKey)).rename (pathOf fromKey) (pathOf toKey) = some moved) :
    ∀ x ∈ movedFiles root fromKey, movedKey fromKey toKey x = x := by
  obtain ⟨hsrc, hsrckey⟩ := keyOf_pathOf hfrom
  obtain ⟨hdst, hdstkey⟩ := keyOf_pathOf hto
  intro x hx
  obtain ⟨r, c, _, rfl⟩ := (mem_movedFiles hfrom hdst.1 h x).mp hx
  have hmoved := movedKey_keyOf hsrc.1 hdst.1 r
  rwa [hsrckey, hdstkey, ← hne] at hmoved

/-- A path of the tree is mapped below the destination by a valid path. -/
theorem NamesValid.append {root : Disk} (hroot : NamesValid root) {src dst r : List Str} {c : Str}
    (hdst : ValidPath dst) (hr : root.fileAt (src ++ r) = some c) : ValidPath (dst ++ r) := by
  refine ⟨by simp [hdst.1], ?_⟩
  intro n hn
  rcases List.mem_append.mp hn with hn | hn
  · exact hdst.2 n hn
  · exact (hroot.validPath hr).2 n (List.mem_append_right _ hn)

/-- **The rows after a move** to another path: every relocated file is dead
under its old key and alive under its new one. -/
theorem tombstoned_move {w : Workspace} {root : Disk} {fromKey toKey : Str} (now : Int)
    (hnames : NamesValid w.root)
    (hfrom : fSafeRelPath fromKey = .ok fromKey) (hto : fSafeRelPath toKey = .ok toKey)
    (hne : pathOf fromKey ≠ pathOf toKey)
    (h : (withParents w.root (pathOf toKey)).rename (pathOf fromKey) (pathOf toKey) = some root)
    (k : Str) :
    Tombstoned (moveAll fromKey toKey (movedFiles w.root fromKey) now { w with root := root }) k ↔
      (∃ r c, w.root.fileAt (pathOf fromKey ++ r) = some c ∧ k = keyOf (pathOf fromKey ++ r)) ∨
      (∀ r c, w.root.fileAt (pathOf fromKey ++ r) = some c → k ≠ keyOf (pathOf toKey ++ r)) ∧
        Tombstoned w k := by
  obtain ⟨hsrc, hsrckey⟩ := keyOf_pathOf hfrom
  obtain ⟨hdst, hdstkey⟩ := keyOf_pathOf hto
  have hmem := mem_movedFiles hfrom hdst.1 h
  have hmoved (r : List Str) :
      movedKey fromKey toKey (keyOf (pathOf fromKey ++ r)) = keyOf (pathOf toKey ++ r) := by
    have := movedKey_keyOf hsrc.1 hdst.1 r
    rwa [hsrckey, hdstkey] at this
  have hapart : ∀ x ∈ movedFiles w.root fromKey, ∀ y ∈ movedFiles w.root fromKey,
      movedKey fromKey toKey x ≠ y := by
    intro x hx y hy heq
    obtain ⟨r, c, hr, rfl⟩ := (hmem x).mp hx
    obtain ⟨r', c', hr', rfl⟩ := (hmem y).mp hy
    rw [hmoved] at heq
    have hpaths := keyOf_injective (hnames.append hdst hr) (hnames.validPath hr') heq
    -- A path below both ends would make one a prefix of the other.
    have hboth : pathOf toKey <+: pathOf fromKey ++ r' := ⟨r, hpaths⟩
    obtain ⟨hnot, hnot'⟩ := Tree.rename_incomparable hne h
    rcases List.prefix_or_prefix_of_prefix hboth (List.prefix_append _ r') with hpre | hpre
    · exact hnot' hpre
    · exact hnot hpre
  rw [tombstoned_moveAll now _ hapart, hmem, tombstoned_root]
  refine or_congr Iff.rfl (and_congr ?_ Iff.rfl)
  constructor
  · intro hkeys r c hr
    have := hkeys _ ((hmem _).mpr ⟨r, c, hr, rfl⟩)
    rwa [hmoved] at this
  · intro hkeys x hx
    obtain ⟨r, c, hr, rfl⟩ := (hmem x).mp hx
    rw [hmoved]
    exact hkeys r c hr

/-- The files after a move to another path. -/
theorem fileAt_move {w : Workspace} {root : Disk} {src dst : List Str} (hne : src ≠ dst)
    (h : (withParents w.root dst).rename src dst = some root) (q : List Str) :
    root.fileAt q =
      if dst <+: q then w.root.fileAt (src ++ q.drop dst.length)
      else if src <+: q then none else w.root.fileAt q := by
  rw [Tree.fileAt_rename hne h q, fileAt_withParents, fileAt_withParents]

theorem Sound.move {w : Workspace} (hw : Sound w) {root : Disk} {fromKey toKey : Str} (now : Int)
    (hfrom : fSafeRelPath fromKey = .ok fromKey) (hto : fSafeRelPath toKey = .ok toKey)
    (h : (withParents w.root (pathOf toKey)).rename (pathOf fromKey) (pathOf toKey) = some root) :
    Sound (moveAll fromKey toKey (movedFiles w.root fromKey) now { w with root := root }) := by
  obtain ⟨hsrc, hsrckey⟩ := keyOf_pathOf hfrom
  obtain ⟨hdst, hdstkey⟩ := keyOf_pathOf hto
  refine ⟨?_, ?_⟩
  · rw [root_moveAll]
    exact namesValid_rename (namesValid_withParents hw.names hdst) hdst h
  · intro q c hq
    rw [root_moveAll] at hq
    by_cases hne : pathOf fromKey = pathOf toKey
    · -- Onto itself: the file stays and its key is cleared last.
      rw [tombstoned_moveAll_self now _ (movedKey_self hfrom hto hne h)]
      intro hdead
      rw [← hne] at h
      rw [Tree.rename_self h, fileAt_withParents] at hq
      exact hw.live q c hq hdead.2
    · rw [fileAt_move hne h] at hq
      rw [tombstoned_move now hw.names hfrom hto hne h]
      obtain ⟨hnot, hnot'⟩ := Tree.rename_incomparable hne h
      intro hdead
      by_cases hpre : pathOf toKey <+: q
      · rw [if_pos hpre] at hq
        obtain ⟨r, rfl⟩ := hpre
        rw [List.drop_left] at hq
        rcases hdead with ⟨r', c', hr', heq⟩ | ⟨hfree, _⟩
        · have hpaths := keyOf_injective (hw.names.append hdst hq) (hw.names.validPath hr') heq
          have hboth : pathOf toKey <+: pathOf fromKey ++ r' := ⟨r, hpaths⟩
          rcases List.prefix_or_prefix_of_prefix hboth (List.prefix_append _ r') with hpre | hpre
          · exact hnot' hpre
          · exact hnot hpre
        · exact hfree r c hq rfl
      · rw [if_neg hpre] at hq
        by_cases hsrcq : pathOf fromKey <+: q
        · rw [if_pos hsrcq] at hq
          cases hq
        · rw [if_neg hsrcq] at hq
          rcases hdead with ⟨r', c', hr', heq⟩ | ⟨_, hold⟩
          · have hpaths := keyOf_injective (hw.names.validPath hq) (hw.names.validPath hr') heq
            exact hsrcq (hpaths ▸ List.prefix_append _ r')
          · exact hw.live q c hq hold

/-! ## One request, and every run -/

theorem Sound.empty : Sound Workspace.empty := by
  refine ⟨?_, ?_⟩
  · intro q hq
    cases q with
    | nil => simp
    | cons n q => exact absurd rfl hq
  · intro q c hq
    rw [show Workspace.empty.root.fileAt q = none from Tree.fileAt_empty q] at hq
    cases hq

theorem sound_putFile {limits : Limits} {w : Workspace} (hw : Sound w) (path content hex : Str) :
    Sound (putFile limits path content hex w).1 := by
  rcases putFile_cases limits path content hex w with ⟨e, he⟩ | ⟨rel, hrel, _, _, root, hout⟩
  · rw [he]
    exact hw
  · have hfixed := fSafeRelPath_fixed hrel
    rcases hout with ⟨hwrite, hout⟩ | ⟨hwrite, hout⟩
    · rw [hout]
      exact hw.write_fail (keyOf_pathOf hfixed).1 hwrite
    · rw [hout]
      exact hw.write_clear hfixed hwrite

theorem sound_fWriteThrough {limits : Limits} {w : Workspace} (hw : Sound w) (access : Access)
    (content hex : Str) : Sound (fWriteThrough limits access content hex w).1 := by
  rcases fWriteThrough_cases limits access content hex w with
    ⟨e, he⟩ | ⟨rel, hrel, _, _, ⟨c, hc⟩, _, root, hout⟩
  · rw [he]
    exact hw
  · have hvalid := (fSafeRelPath_ok hrel).1
    rcases hout with ⟨hwrite, hout⟩ | ⟨hwrite, hout⟩
    · rw [hout]
      exact hw.write_fail hvalid hwrite
    · rw [hout]
      exact hw.write_existing hvalid hc hwrite

theorem sound_createFolder {w : Workspace} (hw : Sound w) (relPath : Str) :
    Sound (createFolder relPath w).1 := by
  rcases createFolder_cases relPath w with ⟨e, he⟩ | ⟨rel, root, hrel, hmk, hout⟩
  · rw [he]
    exact hw
  · rw [hout]
    refine ⟨namesValid_mkdirs hw.names (fSafeRelPath_ok hrel).1.2 hmk, ?_⟩
    intro q c hq
    rw [Tree.fileAt_mkdirs hmk] at hq
    exact hw.live q c hq

/-- The keys a folder delete records are those of the files below the path. -/
theorem mem_inside {root : Disk} {rel : Str} (hrel : fSafeRelPath rel = .ok rel) (k : Str) :
    k ∈ fCollectFilesUnder root (pathOf rel) rel ↔
      ∃ r c, r ≠ [] ∧ root.fileAt (pathOf rel ++ r) = some c ∧ k = keyOf (pathOf rel ++ r) := by
  obtain ⟨hvalid, hkey⟩ := keyOf_pathOf hrel
  have hmem := mem_fCollectFilesUnder root (keyOf_ne_nil hvalid) k
  rw [hkey] at hmem
  rw [hmem]
  simp only [Tree.fileAt_eq_some_iff]

theorem sound_deleteEntry {w : Workspace} (hw : Sound w) (path : Str) (isDir : Bool) (now : Int) :
    Sound (deleteEntry path isDir now w).1 := by
  rcases deleteEntry_cases path isDir now w with
    ⟨e, he⟩ | ⟨rel, root, hrel, ⟨_, hrem, hout⟩ | ⟨_, hrem, hout⟩⟩
  · rw [he]
    exact hw
  · rw [hout]
    refine hw.remove hrem (root_recordAll _ _ _) ?_
    intro k hk
    rw [tombstoned_recordAll, tombstoned_root, mem_inside (fSafeRelPath_fixed hrel)] at hk
    rcases hk with ⟨r, c, _, hr, heq⟩ | hk
    · exact Or.inl ⟨r, hw.names.validPath hr, heq⟩
    · exact Or.inr hk
  · obtain ⟨hvalid, hkey⟩ := keyOf_pathOf (fSafeRelPath_fixed hrel)
    rw [hout]
    refine hw.remove (Tree.removeAll_of_remove hrem) (root_fRecordTombstone _ _ _) ?_
    intro k hk
    rw [tombstoned_fRecordTombstone, tombstoned_root] at hk
    rcases hk with hk | hk
    · refine Or.inl ⟨[], ?_, ?_⟩
      · rwa [List.append_nil]
      · rw [List.append_nil, hkey, hk]
    · exact Or.inr hk

theorem sound_moveEntry {w : Workspace} (hw : Sound w) (src dst : Str) (now : Int) :
    Sound (moveEntry src dst now w).1 := by
  rcases moveEntry_cases src dst now w with
    ⟨e, he⟩ | ⟨fromKey, toKey, hfrom, hto, ⟨_, hout⟩ | ⟨root, hren, hout⟩⟩
  · rw [he]
    exact hw
  · rw [hout]
    refine ⟨namesValid_withParents hw.names (fSafeRelPath_ok hto).1, ?_⟩
    intro q c hq
    rw [fileAt_withParents] at hq
    exact hw.live q c hq
  · rw [hout]
    exact hw.move now (fSafeRelPath_fixed hfrom) (fSafeRelPath_fixed hto) hren

/-- Every request keeps a workspace sound. -/
theorem sound_run {limits : Limits} (m : Mutation) {w : Workspace} (hw : Sound w) :
    Sound (m.run limits w).1 := by
  cases m with
  | putFile path content hex => exact sound_putFile hw path content hex
  | createFolder relPath => exact sound_createFolder hw relPath
  | deleteEntry path isDir now => exact sound_deleteEntry hw path isDir now
  | moveEntry src dst now => exact sound_moveEntry hw src dst now
  | writeThrough access content hex => exact sound_fWriteThrough hw access content hex

theorem sound_runs (limits : Limits) (ms : List Mutation) {w : Workspace} (hw : Sound w) :
    Sound (runs limits ms w) :=
  runs_induction (P := Sound) (fun m _ hw => sound_run m hw) ms hw

/-- **No live file is tombstoned**, whatever requests ran since the workspace
was empty. -/
theorem live_not_tombstoned (limits : Limits) (ms : List Mutation) (q : List Str) (c : Str)
    (hq : (runs limits ms Workspace.empty).root.fileAt q = some c) :
    ¬ Tombstoned (runs limits ms Workspace.empty) (keyOf q) :=
  (sound_runs limits ms Sound.empty).live q c hq

/-- A file moved away and written again. -/
theorem live_not_tombstoned_rewritten :
    ¬ Tombstoned (runs ⟨0, 100⟩
      [.putFile (str "a.mdp") (str "one") (str "00"), .moveEntry (str "a.mdp") (str "b.mdp") 1,
        .putFile (str "a.mdp") (str "two") (str "01")] Workspace.empty) (keyOf [str "a.mdp"]) :=
  live_not_tombstoned ⟨0, 100⟩ _ [str "a.mdp"] (str "two") (by decide)

end Lectern
