import Lectern.Workspace

/-!
# Which paths carry a tombstone

Recording and clearing act on one row each; the loops of the delete and move
handlers act on the keys that `fCollectFilesUnder` returned.  What matters to a
sync client is only which keys have a row, `Tombstoned`, and every statement
below is about that.
-/

namespace Lectern

open FileTree

/-- The key has a row in `deleted_files`. -/
def Tombstoned (w : Workspace) (key : Str) : Prop := ∃ row ∈ w.deletedFiles, row.relPath = key

instance (w : Workspace) (key : Str) : Decidable (Tombstoned w key) := by
  unfold Tombstoned
  infer_instance

@[simp] theorem not_tombstoned_empty (key : Str) : ¬ Tombstoned Workspace.empty key := by
  rintro ⟨row, hrow, _⟩
  cases hrow

@[simp] theorem tombstoned_root (w : Workspace) (root : Disk) (key : Str) :
    Tombstoned { w with root := root } key ↔ Tombstoned w key := Iff.rfl

@[simp] theorem root_fRecordTombstone (w : Workspace) (key : Str) (now : Int) :
    (fRecordTombstone w key now).root = w.root := by
  unfold fRecordTombstone
  split <;> rfl

@[simp] theorem root_fClearTombstone (w : Workspace) (key : Str) :
    (fClearTombstone w key).root = w.root := rfl

theorem tombstoned_fRecordTombstone (w : Workspace) (key : Str) (now : Int) (k : Str) :
    Tombstoned (fRecordTombstone w key now) k ↔ k = key ∨ Tombstoned w k := by
  unfold fRecordTombstone
  by_cases hrow : w.deletedFiles.any (fun row => row.relPath = key) = true
  · rw [if_pos hrow]
    have hold : Tombstoned w key := by
      obtain ⟨row, hmem, heq⟩ := List.any_eq_true.mp hrow
      exact ⟨row, hmem, by simpa using heq⟩
    constructor
    · rintro ⟨row, hmem, rfl⟩
      obtain ⟨old, hold, rfl⟩ := List.mem_map.mp hmem
      by_cases hkey : old.relPath = key
      · exact Or.inl (by rw [if_pos hkey])
      · exact Or.inr ⟨old, hold, by rw [if_neg hkey]⟩
    · intro h
      have hk : Tombstoned w k := by
        rcases h with rfl | h
        · exact hold
        · exact h
      obtain ⟨row, hmem, rfl⟩ := hk
      refine ⟨_, List.mem_map.mpr ⟨row, hmem, rfl⟩, ?_⟩
      by_cases hkey : row.relPath = key
      · rw [if_pos hkey, hkey]
      · rw [if_neg hkey]
  · rw [if_neg hrow]
    constructor
    · rintro ⟨row, hmem, rfl⟩
      rcases List.mem_append.mp hmem with hmem | hmem
      · exact Or.inr ⟨row, hmem, rfl⟩
      · rw [List.mem_singleton.mp hmem]
        exact Or.inl rfl
    · rintro (rfl | ⟨row, hmem, rfl⟩)
      · exact ⟨_, List.mem_append_right _ List.mem_cons_self, rfl⟩
      · exact ⟨row, List.mem_append_left _ hmem, rfl⟩

theorem tombstoned_fClearTombstone (w : Workspace) (key k : Str) :
    Tombstoned (fClearTombstone w key) k ↔ k ≠ key ∧ Tombstoned w k := by
  constructor
  · rintro ⟨row, hmem, rfl⟩
    obtain ⟨hmem, hne⟩ := List.mem_filter.mp hmem
    exact ⟨by simpa using hne, row, hmem, rfl⟩
  · rintro ⟨hne, row, hmem, rfl⟩
    exact ⟨row, List.mem_filter.mpr ⟨hmem, by simpa using hne⟩, rfl⟩

/-! ## The loops -/

/-- `for (file_rel : inside) fRecordTombstone(user_id, file_rel)`. -/
def recordAll (keys : List Str) (now : Int) (w : Workspace) : Workspace :=
  keys.foldl (fun w key => fRecordTombstone w key now) w

@[simp] theorem root_recordAll (keys : List Str) (now : Int) (w : Workspace) :
    (recordAll keys now w).root = w.root := by
  induction keys generalizing w with
  | nil => rfl
  | cons key keys ih =>
      have := ih (fRecordTombstone w key now)
      rwa [root_fRecordTombstone] at this

theorem tombstoned_recordAll (keys : List Str) (now : Int) (w : Workspace) (k : Str) :
    Tombstoned (recordAll keys now w) k ↔ k ∈ keys ∨ Tombstoned w k := by
  induction keys generalizing w with
  | nil => simp [recordAll]
  | cons key keys ih =>
      have hstep : recordAll (key :: keys) now w = recordAll keys now (fRecordTombstone w key now) :=
        rfl
      rw [hstep, ih, tombstoned_fRecordTombstone, List.mem_cons]
      constructor
      · rintro (h | h | h)
        · exact Or.inl (Or.inr h)
        · exact Or.inl (Or.inl h)
        · exact Or.inr h
      · rintro ((h | h) | h)
        · exact Or.inr (Or.inl h)
        · exact Or.inl h
        · exact Or.inr (Or.inr h)

/-- The key a moved file has at the destination. -/
def movedKey (fromKey toKey fileRel : Str) : Str := toKey ++ fileRel.drop fromKey.length

/-- The loop of the move handler. -/
def moveAll (fromKey toKey : Str) (keys : List Str) (now : Int) (w : Workspace) : Workspace :=
  keys.foldl (moveTombstones fromKey toKey now) w

@[simp] theorem root_moveAll (fromKey toKey : Str) (keys : List Str) (now : Int) (w : Workspace) :
    (moveAll fromKey toKey keys now w).root = w.root := by
  induction keys generalizing w with
  | nil => rfl
  | cons key keys ih =>
      have := ih (moveTombstones fromKey toKey now w key)
      rwa [moveTombstones, root_fClearTombstone, root_fRecordTombstone] at this

theorem tombstoned_moveTombstones (fromKey toKey : Str) (now : Int) (w : Workspace)
    (fileRel k : Str) :
    Tombstoned (moveTombstones fromKey toKey now w fileRel) k ↔
      k ≠ movedKey fromKey toKey fileRel ∧ (k = fileRel ∨ Tombstoned w k) := by
  unfold moveTombstones
  rw [tombstoned_fClearTombstone, tombstoned_fRecordTombstone]
  rfl

/-- A move adds no row but those of the keys it moves. -/
theorem tombstoned_moveAll_le {fromKey toKey : Str} {keys : List Str} {now : Int} {w : Workspace}
    {k : Str} (h : Tombstoned (moveAll fromKey toKey keys now w) k) :
    k ∈ keys ∨ Tombstoned w k := by
  induction keys generalizing w with
  | nil => exact Or.inr h
  | cons key keys ih =>
      rcases ih h with hmem | hstep
      · exact Or.inl (List.mem_cons_of_mem _ hmem)
      · rcases ((tombstoned_moveTombstones _ _ _ _ _ _).mp hstep).2 with heq | hold
        · exact Or.inl (heq ▸ List.mem_cons_self)
        · exact Or.inr hold

/-- When no file moves to a place another file moves from, the old keys are
tombstoned and the new ones are not. -/
theorem tombstoned_moveAll {fromKey toKey : Str} {keys : List Str} (now : Int) (w : Workspace)
    (hapart : ∀ x ∈ keys, ∀ y ∈ keys, movedKey fromKey toKey x ≠ y) (k : Str) :
    Tombstoned (moveAll fromKey toKey keys now w) k ↔
      k ∈ keys ∨ (∀ x ∈ keys, k ≠ movedKey fromKey toKey x) ∧ Tombstoned w k := by
  induction keys generalizing w with
  | nil => simp [moveAll]
  | cons key keys ih =>
      have hstep : moveAll fromKey toKey (key :: keys) now w =
          moveAll fromKey toKey keys now (moveTombstones fromKey toKey now w key) := rfl
      have hrest : ∀ x ∈ keys, ∀ y ∈ keys, movedKey fromKey toKey x ≠ y := fun x hx y hy =>
        hapart x (List.mem_cons_of_mem _ hx) y (List.mem_cons_of_mem _ hy)
      rw [hstep, ih _ hrest, tombstoned_moveTombstones, List.mem_cons, List.forall_mem_cons]
      have hkey : k = key → k ≠ movedKey fromKey toKey key ∧
          ∀ x ∈ keys, k ≠ movedKey fromKey toKey x := by
        rintro rfl
        refine ⟨fun h => hapart k List.mem_cons_self k List.mem_cons_self h.symm, ?_⟩
        intro x hx h
        exact hapart x (List.mem_cons_of_mem _ hx) k List.mem_cons_self h.symm
      constructor
      · rintro (h | ⟨h, hne, heq | hold⟩)
        · exact Or.inl (Or.inr h)
        · exact Or.inl (Or.inl heq)
        · exact Or.inr ⟨⟨hne, h⟩, hold⟩
      · rintro ((heq | h) | ⟨⟨hne, h⟩, hold⟩)
        · exact Or.inr ⟨(hkey heq).2, (hkey heq).1, Or.inl heq⟩
        · exact Or.inl h
        · exact Or.inr ⟨h, hne, Or.inr hold⟩

/-- When every file stays where it is, its tombstone goes. -/
theorem tombstoned_moveAll_self {fromKey toKey : Str} {keys : List Str} (now : Int) (w : Workspace)
    (hself : ∀ x ∈ keys, movedKey fromKey toKey x = x) (k : Str) :
    Tombstoned (moveAll fromKey toKey keys now w) k ↔ k ∉ keys ∧ Tombstoned w k := by
  induction keys generalizing w with
  | nil => simp [moveAll]
  | cons key keys ih =>
      have hstep : moveAll fromKey toKey (key :: keys) now w =
          moveAll fromKey toKey keys now (moveTombstones fromKey toKey now w key) := rfl
      rw [hstep, ih _ (fun x hx => hself x (List.mem_cons_of_mem _ hx)),
        tombstoned_moveTombstones, hself key List.mem_cons_self, List.mem_cons, not_or]
      constructor
      · rintro ⟨h, hne, heq | hold⟩
        · exact absurd heq hne
        · exact ⟨⟨hne, h⟩, hold⟩
      · rintro ⟨⟨hne, h⟩, hold⟩
        exact ⟨h, hne, Or.inr hold⟩

/-- The rows of other keys stay as they are. -/
theorem tombstoned_moveAll_other {fromKey toKey : Str} {keys : List Str} (now : Int)
    (w : Workspace) {k : Str} (hother : ∀ x ∈ keys, k ≠ x ∧ k ≠ movedKey fromKey toKey x) :
    Tombstoned (moveAll fromKey toKey keys now w) k ↔ Tombstoned w k := by
  induction keys generalizing w with
  | nil => exact Iff.rfl
  | cons key keys ih =>
      obtain ⟨hkey, hmoved⟩ := hother key List.mem_cons_self
      have hstep : moveAll fromKey toKey (key :: keys) now w =
          moveAll fromKey toKey keys now (moveTombstones fromKey toKey now w key) := rfl
      rw [hstep, ih _ (fun x hx => hother x (List.mem_cons_of_mem _ hx)),
        tombstoned_moveTombstones, and_iff_right hmoved, or_iff_right hkey]

/-! ## The collected keys -/

theorem ne_nil_of_keyOf {p : List Str} (hp : keyOf p ≠ []) : p ≠ [] := by
  rintro rfl
  exact hp rfl

/-- The walk below the directory at `p` lists the keys of the files there. -/
theorem mem_collectFiles {d : Dir Str Str} (hd : d.Distinct) {p : List Str} (hp : keyOf p ≠ [])
    (k : Str) :
    k ∈ collectFiles d (keyOf p) ↔ ∃ q c, d.entryAt q = some (.file c) ∧ k = keyOf (p ++ q) := by
  induction d generalizing p with
  | nil =>
      simp only [collectFiles, List.not_mem_nil, false_iff]
      rintro ⟨q, c, hq, _⟩
      cases q <;> simp [Dir.entryAt_cons] at hq
  | file name content rest ih =>
      have hne := ne_nil_of_keyOf hp
      have hkey : keyOf p ++ slash :: name = keyOf (p ++ [name]) := by
        rw [keyOf_append hne (List.cons_ne_nil _ _), keyOf_singleton]
      rw [collectFiles, if_neg hp, List.mem_cons, ih hd.2 hp, hkey]
      constructor
      · intro h
        rcases h with rfl | ⟨q, c, hq, rfl⟩
        · exact ⟨[name], content, by simp [Dir.entryAt_file], rfl⟩
        · refine ⟨q, c, ?_, rfl⟩
          cases q with
          | nil => simp at hq
          | cons m q =>
              have hm := Dir.ne_of_entryAt (m := m) (q := q) hd.1 (by simp [hq])
              rw [Dir.entryAt_file, if_neg hm, hq]
      · intro h
        obtain ⟨q, c, hq, rfl⟩ := h
        cases q with
        | nil => simp at hq
        | cons m q =>
            rw [Dir.entryAt_file] at hq
            by_cases hm : name = m
            · rw [if_pos hm] at hq
              cases q with
              | nil => exact Or.inl (hm ▸ rfl)
              | cons j q => simp at hq
            · rw [if_neg hm] at hq
              exact Or.inr ⟨m :: q, c, hq, rfl⟩
  | dir name sub rest ihsub ihrest =>
      have hne := ne_nil_of_keyOf hp
      have hkey : keyOf p ++ slash :: name = keyOf (p ++ [name]) := by
        rw [keyOf_append hne (List.cons_ne_nil _ _), keyOf_singleton]
      have hkey_ne : keyOf (p ++ [name]) ≠ [] := by
        rw [← hkey]
        simp
      rw [collectFiles, if_neg hp, hkey, List.mem_append,
        ihsub hd.2.1 hkey_ne, ihrest hd.2.2 hp]
      constructor
      · intro h
        rcases h with ⟨q, c, hq, rfl⟩ | ⟨q, c, hq, rfl⟩
        · refine ⟨name :: q, c, ?_, by simp⟩
          rw [Dir.entryAt_dir, if_pos rfl, hq]
        · refine ⟨q, c, ?_, rfl⟩
          cases q with
          | nil => simp at hq
          | cons m q =>
              have hm := Dir.ne_of_entryAt (m := m) (q := q) hd.1 (by simp [hq])
              rw [Dir.entryAt_dir, if_neg hm, hq]
      · intro h
        obtain ⟨q, c, hq, rfl⟩ := h
        cases q with
        | nil => simp at hq
        | cons m q =>
            rw [Dir.entryAt_dir] at hq
            by_cases hm : name = m
            · rw [if_pos hm] at hq
              exact Or.inl ⟨q, c, hq, by simp [hm]⟩
            · rw [if_neg hm] at hq
              exact Or.inr ⟨m :: q, c, hq, rfl⟩

/-- **What is collected**: the keys of the files below a path. -/
theorem mem_fCollectFilesUnder (root : Disk) {p : List Str} (hp : keyOf p ≠ []) (k : Str) :
    k ∈ fCollectFilesUnder root p (keyOf p) ↔
      ∃ q c, q ≠ [] ∧ root.entryAt (p ++ q) = some (.file c) ∧ k = keyOf (p ++ q) := by
  have hat (q : List Str) :
      root.entryAt (p ++ q) = (root.get? p).bind (fun x => x.entryAt q) :=
    Dir.entryAt_append root.root p q
  unfold fCollectFilesUnder
  cases hget : root.get? p with
  | none =>
      simp only [List.not_mem_nil, false_iff]
      rintro ⟨q, c, _, hq, _⟩
      rw [hat, hget] at hq
      cases hq
  | some x =>
      cases x with
      | file content =>
          simp only [List.not_mem_nil, false_iff]
          rintro ⟨q, c, hne, hq, _⟩
          rw [hat, hget] at hq
          cases q with
          | nil => exact hne rfl
          | cons m q => simp at hq
      | dir sub =>
          have hsub : sub.Distinct :=
            Node.Distinct.get? (x := .dir root.root) root.distinct hget
          simp only
          rw [mem_collectFiles hsub hp]
          constructor
          · rintro ⟨q, c, hq, rfl⟩
            refine ⟨q, c, ?_, ?_, rfl⟩
            · rintro rfl
              simp at hq
            · rw [hat, hget]
              exact hq
          · rintro ⟨q, c, _, hq, rfl⟩
            rw [hat, hget] at hq
            exact ⟨q, c, hq, rfl⟩

end Lectern
