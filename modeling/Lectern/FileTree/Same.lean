import Lectern.FileTree.Outcome

/-!
# Trees that show the same

Directories list their entries in some order, and an operation may change that
order where it changes nothing else.  Two trees are the `Same` when every path
shows the same in both.  Operations do not tell such trees apart: they succeed
on both or on neither, and leave trees that are the same again.
-/

namespace FileTree

variable {ν α : Type} [DecidableEq ν]

/-! ## Weights -/

namespace Dir

/-- The entries a directory shows under one name. -/
theorem entryAt_find? {d : Dir ν α} {n : ν} {x : Node ν α} (h : d.find? n = some x) (q : List ν) :
    d.entryAt (n :: q) = x.entryAt q := by
  rw [entryAt_cons, h]
  rfl

theorem find?_of_entryAt_file {d : Dir ν α} {n : ν} {c : α}
    (h : d.entryAt [n] = some (.file c)) : d.find? n = some (.file c) := by
  have hget := entryAt_eq_file_iff.mp h
  rw [get?_cons] at hget
  obtain ⟨x, hx, hfile⟩ := Option.bind_eq_some_iff.mp hget
  rw [Node.get?_nil, Option.some.injEq] at hfile
  rw [hx, hfile]

theorem find?_of_entryAt_dir {d : Dir ν α} {n : ν} (h : d.entryAt [n] = some .dir) :
    ∃ s, d.find? n = some (.dir s) := by
  obtain ⟨s, hget⟩ := entryAt_eq_dir_iff.mp h
  rw [get?_cons] at hget
  obtain ⟨x, hx, hdir⟩ := Option.bind_eq_some_iff.mp hget
  rw [Node.get?_nil, Option.some.injEq] at hdir
  exact ⟨s, by rw [hx, hdir]⟩

/-- Taking the first entry out of both of two directories that show the same. -/
theorem entryAt_rest {rest d' : Dir ν α} {n : ν} (hn : n ∉ rest.names)
    (h : ∀ m q, n ≠ m → rest.entryAt (m :: q) = d'.entryAt (m :: q)) (q : List ν) :
    rest.entryAt q = (d'.erase n).entryAt q := by
  cases q with
  | nil => rfl
  | cons m q =>
      by_cases hm : n = m
      · subst hm
        rw [entryAt_cons, entryAt_cons, find?_erase, if_pos rfl, (find?_eq_none_iff rest n).mpr hn]
      · rw [h m q hm, entryAt_cons, entryAt_cons, find?_erase, if_neg hm]

/-- **Weights depend on what a directory shows only.** -/
theorem total_congr (w : α → Nat) {d d' : Dir ν α} (hd : d.Distinct) (hd' : d'.Distinct)
    (h : ∀ q, d.entryAt q = d'.entryAt q) : d.total w = d'.total w := by
  induction d generalizing d' with
  | nil =>
      have hnil : d' = nil := by
        apply (eq_nil_iff d').mpr
        intro n
        have hnone := h [n]
        rw [entryAt_cons, find?_nil, Option.bind_none] at hnone
        have hget := (get?_eq_none_iff d' [n]).mpr hnone.symm
        rw [get?_cons] at hget
        cases hfind : d'.find? n with
        | none => rfl
        | some x =>
            rw [hfind, Option.bind_some, Node.get?_nil] at hget
            cases hget
      rw [hnil]
  | file n c rest ih =>
      have hfind : d'.find? n = some (.file c) := by
        apply find?_of_entryAt_file
        rw [← h [n], entryAt_file, if_pos rfl, Node.entryAt_nil]
        rfl
      have hrest : rest.total w = (d'.erase n).total w := by
        apply ih hd.2 (distinct_erase hd' n)
        apply entryAt_rest hd.1
        intro m q hm
        rw [← h, entryAt_file, if_neg hm]
      have herase := total_erase w hd' n
      rw [hfind, weightOf_some, Node.total] at herase
      rw [total]
      omega
  | dir n sub rest ihsub ihrest =>
      obtain ⟨sub', hfind⟩ : ∃ sub', d'.find? n = some (.dir sub') := by
        apply find?_of_entryAt_dir
        rw [← h [n], entryAt_dir, if_pos rfl, entryAt_nil]
      have hsub : sub.total w = sub'.total w := by
        apply ihsub hd.2.1 (Distinct.of_find? hd' hfind)
        intro q
        have hbelow := h (n :: q)
        rw [entryAt_dir, if_pos rfl, entryAt_find? hfind] at hbelow
        exact hbelow
      have hrest : rest.total w = (d'.erase n).total w := by
        apply ihrest hd.2.2 (distinct_erase hd' n)
        apply entryAt_rest hd.1
        intro m q hm
        rw [← h, entryAt_dir, if_neg hm]
      have herase := total_erase w hd' n
      rw [hfind, weightOf_some, Node.total] at herase
      rw [total]
      omega

end Dir

namespace Tree

/-- Every path shows the same in both trees. -/
def Same (t t' : Tree ν α) : Prop := ∀ q, t.entryAt q = t'.entryAt q

variable {t t' u : Tree ν α}

theorem Same.refl (t : Tree ν α) : Same t t := fun _ => rfl

theorem Same.symm (h : Same t t') : Same t' t := fun q => (h q).symm

theorem Same.trans (h : Same t t') (h' : Same t' u) : Same t u := fun q => (h q).trans (h' q)

theorem Same.fileAt (h : Same t t') (q : List ν) : t.fileAt q = t'.fileAt q := fileAt_congr (h q)

theorem Same.total (h : Same t t') (w : α → Nat) : t.total w = t'.total w :=
  Dir.total_congr w t.distinct t'.distinct h

/-! ## Operations -/

/-- Both operations were refused, or both were carried out with the same
result. -/
def SameResult : Option (Tree ν α) → Option (Tree ν α) → Prop
  | none, none => True
  | some t, some t' => Same t t'
  | _, _ => False

theorem sameResult_of {o o' : Option (Tree ν α)} (hsome : o.isSome ↔ o'.isSome)
    (h : ∀ u u', o = some u → o' = some u' → Same u u') : SameResult o o' := by
  cases o with
  | none =>
      cases o' with
      | none => trivial
      | some u' => simp at hsome
  | some u =>
      cases o' with
      | none => simp at hsome
      | some u' => exact h u u' rfl rfl

theorem SameResult.both {o o' : Option (Tree ν α)} (h : SameResult o o') :
    o = none ∧ o' = none ∨ ∃ u u', o = some u ∧ o' = some u' ∧ Same u u' := by
  cases o with
  | none =>
      cases o' with
      | none => exact Or.inl ⟨rfl, rfl⟩
      | some u' => exact h.elim
  | some u =>
      cases o' with
      | none => exact h.elim
      | some u' => exact Or.inr ⟨u, u', rfl, rfl, h⟩

/-- What is left when a refusal is ignored. -/
theorem SameResult.getD {o o' : Option (Tree ν α)} (h : SameResult o o') (ht : Same t t') :
    Same (o.getD t) (o'.getD t') := by
  rcases h.both with ⟨rfl, rfl⟩ | ⟨u, u', rfl, rfl, hsame⟩
  · exact ht
  · exact hsame

theorem SameResult.of_some {o o' : Option (Tree ν α)} (h : SameResult o o') (ho : o = some u) :
    ∃ u', o' = some u' ∧ Same u u' := by
  rcases h.both with ⟨hnone, _⟩ | ⟨v, u', hv, hu', hsame⟩
  · rw [ho] at hnone
    cases hnone
  · rw [ho, Option.some.injEq] at hv
    exact ⟨u', hu', hv ▸ hsame⟩

theorem Same.mkdirs (h : Same t t') (p : List ν) : SameResult (t.mkdirs p) (t'.mkdirs p) := by
  apply sameResult_of
  · rw [mkdirs_isSome, mkdirs_isSome]
    apply forall_congr'
    intro q
    rw [h q]
  · intro u u' hu hu' q
    rw [entryAt_mkdirs hu, entryAt_mkdirs hu', h q]

theorem Same.writeFile (h : Same t t') {p : List ν} (hp : p ≠ []) (c : α) :
    SameResult (t.writeFile p c) (t'.writeFile p c) := by
  apply sameResult_of
  · rw [writeFile_isSome hp, writeFile_isSome hp, h p, h p.dropLast]
  · intro u u' hu hu' q
    rw [entryAt_writeFile hu, entryAt_writeFile hu', h q]

theorem Same.removeAll (h : Same t t') {p : List ν} (hp : p ≠ []) :
    SameResult (t.removeAll p) (t'.removeAll p) := by
  apply sameResult_of
  · rw [removeAll_isSome hp, removeAll_isSome hp, h p]
  · intro u u' hu hu' q
    rw [entryAt_removeAll hu, entryAt_removeAll hu', h q]

theorem Same.remove (h : Same t t') {p : List ν} (hp : p ≠ []) :
    SameResult (t.remove p) (t'.remove p) := by
  apply sameResult_of
  · rw [remove_isSome hp, remove_isSome hp, h p]
    refine or_congr Iff.rfl (and_congr Iff.rfl (forall_congr' ?_))
    intro n
    rw [h (p ++ [n])]
  · intro u u' hu hu' q
    rw [entryAt_removeAll (removeAll_of_remove hu), entryAt_removeAll (removeAll_of_remove hu'),
      h q]

theorem Same.replaceable (h : Same t t') (src dst : List ν) :
    t.Replaceable src dst ↔ t'.Replaceable src dst := by
  unfold Replaceable
  rw [h src, h dst]
  refine or_congr Iff.rfl (or_congr Iff.rfl (and_congr Iff.rfl (and_congr Iff.rfl ?_)))
  apply forall_congr'
  intro n
  rw [h (dst ++ [n])]

theorem Same.rename (h : Same t t') (src dst : List ν) :
    SameResult (t.rename src dst) (t'.rename src dst) := by
  by_cases hne : src = dst
  · subst hne
    apply sameResult_of
    · rw [rename_self_isSome, rename_self_isSome, h src]
    · intro u u' hu hu'
      rw [rename_self hu, rename_self hu']
      exact h
  · apply sameResult_of
    · rw [rename_isSome hne, rename_isSome hne, h src, h dst.dropLast, h.replaceable]
    · intro u u' hu hu' q
      rw [entryAt_rename hne hu, entryAt_rename hne hu', h q, h (src ++ q.drop dst.length)]

end Tree

end FileTree
