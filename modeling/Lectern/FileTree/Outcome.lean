import Lectern.FileTree.Posix

/-!
# When an operation succeeds

Whether an operation is carried out or refused can be read off the status of a
few paths before it: the parent, the entry itself and, for an empty directory,
the names one level down.  With the equations for `entryAt` this makes every
operation a function of what status queries report, whatever the order in which
directories list their entries.
-/

namespace FileTree

variable {ν α : Type} [DecidableEq ν]

namespace Dir

/-- A directory without entries. -/
theorem eq_nil_iff (d : Dir ν α) : d = nil ↔ ∀ n, d.find? n = none := by
  cases d with
  | nil => simp
  | file m c rest =>
      constructor
      · intro h
        cases h
      · intro h
        have := h m
        simp [find?] at this
  | dir m sub rest =>
      constructor
      · intro h
        cases h
      · intro h
        have := h m
        simp [find?] at this

/-- An update happens below a directory, where `f` does not refuse. -/
theorem update_isSome_iff {f : Option (Node ν α) → Option (Option (Node ν α))} {d : Dir ν α}
    {p : List ν} (hp : p ≠ []) :
    (d.update f p).isSome ↔ d.entryAt p.dropLast = some .dir ∧ (f (d.get? p)).isSome := by
  have hsplit := List.dropLast_append_getLast hp
  rw [← hsplit, update_isSome, hsplit]

/-- The directory above an existing entry. -/
theorem entryAt_dropLast {d : Dir ν α} {p : List ν} (hp : p ≠ []) (h : d.entryAt p ≠ none) :
    d.entryAt p.dropLast = some .dir := by
  have hsplit := List.dropLast_append_getLast hp
  refine entryAt_parent_dir (q := [p.getLast hp]) (List.cons_ne_nil _ _) ?_
  rwa [hsplit]

/-- The sub-directory found at a path is empty when no name below it exists. -/
theorem get?_dir_nil {d s : Dir ν α} {p : List ν} (h : d.get? p = some (.dir s)) :
    s = nil ↔ ∀ n, d.entryAt (p ++ [n]) = none := by
  rw [eq_nil_iff]
  refine forall_congr' (fun n => ?_)
  rw [entryAt_append, h, Option.bind_some, Node.entryAt_dir_cons]
  cases s.find? n <;> simp

theorem entryAt_eq_dir_iff {d : Dir ν α} {p : List ν} :
    d.entryAt p = some .dir ↔ ∃ s, d.get? p = some (.dir s) := by
  rw [entryAt_eq]
  cases d.get? p with
  | none => simp
  | some x => cases x <;> simp

theorem entryAt_eq_file_iff {d : Dir ν α} {p : List ν} {c : α} :
    d.entryAt p = some (.file c) ↔ d.get? p = some (.file c) := by
  rw [entryAt_eq]
  cases d.get? p with
  | none => simp
  | some x => cases x <;> simp

end Dir

namespace Tree

/-- What a moved entry may find at its destination. -/
def Replaceable (t : Tree ν α) (src dst : List ν) : Prop :=
  t.entryAt dst = none ∨
  (∃ c c', t.entryAt src = some (.file c) ∧ t.entryAt dst = some (.file c')) ∨
  (t.entryAt src = some .dir ∧ t.entryAt dst = some .dir ∧ ∀ n, t.entryAt (dst ++ [n]) = none)

omit [DecidableEq ν] in
theorem lift_isSome {t : Tree ν α} {f : Dir ν α → Option (Dir ν α)}
    {hf : ∀ d', f t.root = some d' → d'.Distinct} :
    (t.lift f hf).isSome ↔ (f t.root).isSome := by
  unfold lift
  split
  · rename_i d' h
    simp [h]
  · rename_i h
    simp [h]

theorem mkdirs_isSome {t : Tree ν α} {p : List ν} :
    (t.mkdirs p).isSome ↔ ∀ q, q <+: p → ∀ c, t.entryAt q ≠ some (.file c) :=
  lift_isSome.trans Dir.mkdirs_isSome

/-- Directories made on the way, as far as they could be, are all that is new. -/
theorem entryAt_mkdirs_getD (t : Tree ν α) (p q : List ν) :
    ((t.mkdirs p).getD t).entryAt q = t.entryAt q ∨
      t.entryAt q = none ∧ ((t.mkdirs p).getD t).entryAt q = some .dir ∧ q <+: p := by
  cases hmk : t.mkdirs p with
  | none => exact Or.inl rfl
  | some made =>
      have hat := entryAt_mkdirs hmk q
      rw [Option.getD_some]
      by_cases hpre : q <+: p
      · rw [if_pos hpre] at hat
        rw [hat]
        cases hold : t.entryAt q with
        | none => exact Or.inr ⟨rfl, rfl, hpre⟩
        | some e =>
            cases e with
            | dir => exact Or.inl rfl
            | file c =>
                exact absurd hold (mkdirs_isSome.mp (Option.isSome_of_eq_some hmk) q hpre c)
      · rw [if_neg hpre] at hat
        exact Or.inl hat

theorem writeFile_isSome {t : Tree ν α} {p : List ν} {c : α} (hp : p ≠ []) :
    (t.writeFile p c).isSome ↔ t.entryAt p.dropLast = some .dir ∧ t.entryAt p ≠ some .dir := by
  refine lift_isSome.trans ((Dir.update_isSome_iff hp).trans (and_congr Iff.rfl ?_))
  unfold entryAt
  rw [ne_eq, Dir.entryAt_eq_dir_iff]
  cases t.root.get? p with
  | none => simp
  | some x => cases x <;> simp

theorem remove_isSome {t : Tree ν α} {p : List ν} (hp : p ≠ []) :
    (t.remove p).isSome ↔
      (∃ c, t.entryAt p = some (.file c)) ∨
        t.entryAt p = some .dir ∧ ∀ n, t.entryAt (p ++ [n]) = none := by
  refine lift_isSome.trans ((Dir.update_isSome_iff hp).trans ?_)
  constructor
  · rintro ⟨_, hf⟩
    cases hget : t.root.get? p with
    | none => simp [hget] at hf
    | some x =>
        cases x with
        | file c => exact Or.inl ⟨c, Dir.entryAt_eq_file_iff.mpr hget⟩
        | dir s =>
            have hs : s = .nil := by
              rw [hget] at hf
              cases s <;> simp_all
            exact Or.inr ⟨Dir.entryAt_eq_dir_iff.mpr ⟨s, hget⟩, (Dir.get?_dir_nil hget).mp hs⟩
  · intro h
    have hsome : t.root.entryAt p ≠ none := by
      rcases h with ⟨c, hc⟩ | ⟨hdir, _⟩
      · intro hnone
        rw [entryAt, hnone] at hc
        cases hc
      · intro hnone
        rw [entryAt, hnone] at hdir
        cases hdir
    refine ⟨Dir.entryAt_dropLast hp hsome, ?_⟩
    rcases h with ⟨c, hc⟩ | ⟨hdir, hempty⟩
    · rw [Dir.entryAt_eq_file_iff.mp hc]
      rfl
    · obtain ⟨s, hs⟩ := Dir.entryAt_eq_dir_iff.mp hdir
      rw [hs, (Dir.get?_dir_nil hs).mpr hempty]
      rfl

/-- Removing what may not be there takes away one entry at most. -/
theorem entryAt_remove_getD (t : Tree ν α) (p q : List ν) :
    ((t.remove p).getD t).entryAt q = t.entryAt q ∨ ((t.remove p).getD t).entryAt q = none := by
  cases hrem : t.remove p with
  | none => exact Or.inl rfl
  | some removed =>
      rw [Option.getD_some, entryAt_remove hrem q]
      by_cases hq : q = p
      · exact Or.inr (if_pos hq)
      · exact Or.inl (if_neg hq)

/-- No file is left there. -/
theorem fileAt_remove_getD (t : Tree ν α) {p : List ν} (hp : p ≠ []) (q : List ν) :
    ((t.remove p).getD t).fileAt q = if q = p then none else t.fileAt q := by
  cases hrem : t.remove p with
  | none =>
      rw [Option.getD_none]
      by_cases hq : q = p
      · subst hq
        rw [if_pos rfl]
        cases hfile : t.fileAt q with
        | none => rfl
        | some c =>
            have hsome := (remove_isSome hp).mpr (Or.inl ⟨c, fileAt_eq_some_iff.mp hfile⟩)
            rw [hrem] at hsome
            cases hsome
      · rw [if_neg hq]
  | some removed =>
      rw [Option.getD_some, fileAt, entryAt_remove hrem q]
      by_cases hq : q = p
      · rw [if_pos hq, if_pos hq]
      · rw [if_neg hq, if_neg hq, fileAt]

theorem removeAll_isSome {t : Tree ν α} {p : List ν} (hp : p ≠ []) :
    (t.removeAll p).isSome ↔ t.entryAt p ≠ none := by
  refine lift_isSome.trans ((Dir.update_isSome_iff hp).trans ?_)
  unfold entryAt
  constructor
  · rintro ⟨_, hf⟩ hnone
    rw [(Dir.get?_eq_none_iff _ _).mpr hnone] at hf
    cases hf
  · intro hsome
    refine ⟨Dir.entryAt_dropLast hp hsome, ?_⟩
    cases hget : t.root.get? p with
    | none => exact absurd ((Dir.get?_eq_none_iff _ _).mp hget) hsome
    | some x => rfl

theorem get?_empty_dir_iff {t : Tree ν α} {p : List ν} :
    (∃ s, t.get? p = some (.dir s) ∧ s = .nil) ↔
      t.entryAt p = some .dir ∧ ∀ n, t.entryAt (p ++ [n]) = none := by
  constructor
  · rintro ⟨s, hs, hnil⟩
    exact ⟨Dir.entryAt_eq_dir_iff.mpr ⟨s, hs⟩, (Dir.get?_dir_nil hs).mp hnil⟩
  · rintro ⟨hdir, hnone⟩
    obtain ⟨s, hs⟩ := Dir.entryAt_eq_dir_iff.mp hdir
    exact ⟨s, hs, (Dir.get?_dir_nil hs).mpr hnone⟩

omit [DecidableEq ν] in
/-- What `replaces` accepts, in terms of status. -/
theorem replaces_iff {x : Node ν α} {y : Option (Node ν α)} :
    Dir.replaces x y = true ↔
      y.map Node.entry = none ∨
      (∃ c c', x.entry = .file c ∧ y.map Node.entry = some (.file c')) ∨
      (x.entry = .dir ∧ ∃ s, y = some (.dir s) ∧ s = .nil) := by
  cases y with
  | none => simp [Dir.replaces]
  | some y =>
      cases x with
      | file c => cases y <;> simp [Dir.replaces]
      | dir s =>
          cases y with
          | file c => simp [Dir.replaces]
          | dir s' => cases s' <;> simp [Dir.replaces]

/-- **When an entry can be moved** to another path. -/
theorem rename_isSome {t : Tree ν α} {src dst : List ν} (hne : src ≠ dst) :
    (t.rename src dst).isSome ↔
      t.entryAt src ≠ none ∧ ¬ src <+: dst ∧ ¬ dst <+: src ∧
        t.entryAt dst.dropLast = some .dir ∧ t.Replaceable src dst := by
  have hlift : (t.rename src dst).isSome ↔ (t.root.rename src dst).isSome := lift_isSome
  rw [hlift, Dir.rename]
  cases hx : t.root.get? src with
  | none =>
      have hnone := (Dir.get?_eq_none_iff _ _).mp hx
      simp only [Option.isSome_none, Bool.false_eq_true, false_iff, not_and]
      intro h
      exact absurd hnone h
  | some x =>
      have hsrc : t.entryAt src = some x.entry := by
        unfold entryAt
        rw [Dir.entryAt_eq, hx]
        rfl
      simp only [if_neg hne]
      by_cases hpre : src <+: dst ∨ dst <+: src
      · simp only [if_pos hpre, Option.isSome_none, Bool.false_eq_true, false_iff]
        rintro ⟨_, h₁, h₂, _⟩
        rcases hpre with h | h
        · exact h₁ h
        · exact h₂ h
      · simp only [if_neg hpre]
        rw [not_or] at hpre
        have hsrc_ne : src ≠ [] := by
          rintro rfl
          exact hpre.1 List.nil_prefix
        have hdst_ne : dst ≠ [] := by
          rintro rfl
          exact hpre.2 List.nil_prefix
        have hdetach : (t.removeAll src).isSome := by
          rw [removeAll_isSome hsrc_ne, hsrc]
          exact Option.some_ne_none _
        obtain ⟨t₁, ht₁⟩ := Option.isSome_iff_exists.mp hdetach
        rw [lift_eq_some_iff.mp ht₁, Option.bind_some, Dir.update_isSome_iff hdst_ne]
        have hkeep : t₁.root.get? dst = t.get? dst :=
          Dir.get?_update (lift_eq_some_iff.mp ht₁) hpre.1 hpre.2
        have hparent : t₁.root.entryAt dst.dropLast = t.entryAt dst.dropLast := by
          refine (entryAt_removeAll ht₁ _).trans (if_neg ?_)
          intro h
          exact hpre.1 (h.trans (List.dropLast_prefix dst))
        have hrep : (if Dir.replaces x (t₁.root.get? dst) then some (some x) else none).isSome ↔
            t.Replaceable src dst := by
          have hif : (if Dir.replaces x (t.get? dst) then some (some x) else none).isSome ↔
              Dir.replaces x (t.get? dst) = true := by
            split <;> simp_all
          rw [hkeep, hif, replaces_iff]
          have hdst : (t.get? dst).map Node.entry = t.entryAt dst := rfl
          rw [hdst, get?_empty_dir_iff]
          unfold Replaceable
          rw [hsrc]
          simp only [Option.some.injEq]
        rw [hparent, hrep]
        constructor
        · rintro ⟨h₁, h₂⟩
          exact ⟨by simp [hsrc], hpre.1, hpre.2, h₁, h₂⟩
        · rintro ⟨_, _, _, h₁, h₂⟩
          exact ⟨h₁, h₂⟩

/-- A path moved onto itself only has to exist. -/
theorem rename_self_isSome {t : Tree ν α} {p : List ν} :
    (t.rename p p).isSome ↔ t.entryAt p ≠ none := by
  have hlift : (t.rename p p).isSome ↔ (t.root.rename p p).isSome := lift_isSome
  rw [hlift, Dir.rename, ne_eq, entryAt, ← Dir.get?_eq_none_iff]
  cases t.root.get? p with
  | none => simp
  | some x => simp

end Tree

end FileTree
