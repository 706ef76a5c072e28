import Lectern.FileTree.Basic
import Mathlib.Data.List.Nodup

/-!
# Everything in a directory

`entries` lists a directory with all that is below it, each entry under its
path.  In a tree with distinct names the list and the status queries agree:
a path and what is there appear together exactly once.
-/

namespace FileTree

namespace Dir

variable {ν α : Type}

/-- Every path below a directory with what is there, a directory before its
contents. -/
def entries : Dir ν α → List (List ν × Entry α)
  | nil => []
  | file n c rest => ([n], .file c) :: rest.entries
  | dir n sub rest => ([n], .dir) :: (sub.entries.map (Prod.map (n :: ·) id) ++ rest.entries)

/-- The directory itself is not among them. -/
theorem path_ne_nil_of_mem_entries {d : Dir ν α} {p : List ν} {e : Entry α}
    (h : (p, e) ∈ d.entries) : p ≠ [] := by
  induction d with
  | nil => cases h
  | file n c rest ih =>
      rcases List.mem_cons.mp h with heq | h
      · rw [Prod.mk.injEq] at heq
        simp [heq.1]
      · exact ih h
  | dir n sub rest _ ih =>
      rcases List.mem_cons.mp h with heq | h
      · rw [Prod.mk.injEq] at heq
        simp [heq.1]
      · rcases List.mem_append.mp h with h | h
        · obtain ⟨x, _, hx⟩ := List.mem_map.mp h
          have hpath : n :: x.1 = p := congrArg Prod.fst hx
          simp [← hpath]
        · exact ih h

/-- Every listed path starts with a name of the directory. -/
theorem head_of_mem_entries {d : Dir ν α} {n : ν} {p : List ν} {e : Entry α}
    (h : (n :: p, e) ∈ d.entries) : n ∈ d.names := by
  induction d with
  | nil => cases h
  | file m c rest ih =>
      rcases List.mem_cons.mp h with heq | h
      · simp_all [names]
      · exact List.mem_cons_of_mem _ (ih h)
  | dir m sub rest _ ih =>
      rcases List.mem_cons.mp h with heq | h
      · simp_all [names]
      · rcases List.mem_append.mp h with h | h
        · obtain ⟨x, _, hx⟩ := List.mem_map.mp h
          simp_all [names, Prod.map]
        · exact List.mem_cons_of_mem _ (ih h)

/-- No path is listed twice. -/
theorem nodup_entries {d : Dir ν α} (hd : d.Distinct) : (d.entries.map Prod.fst).Nodup := by
  induction d with
  | nil => exact List.nodup_nil
  | file n c rest ih =>
      rw [entries, List.map_cons, List.nodup_cons]
      refine ⟨?_, ih hd.2⟩
      intro hmem
      obtain ⟨⟨p, e⟩, hp, rfl⟩ := List.mem_map.mp hmem
      exact hd.1 (head_of_mem_entries hp)
  | dir n sub rest ihsub ihrest =>
      have hmap : (sub.entries.map (Prod.map (n :: ·) id)).map Prod.fst =
          (sub.entries.map Prod.fst).map (n :: ·) := by simp
      rw [entries, List.map_cons, List.map_append, hmap, List.nodup_cons, List.nodup_append]
      refine ⟨?_, ?_, ihrest hd.2.2, ?_⟩
      · intro hmem
        rcases List.mem_append.mp hmem with hmem | hmem
        · obtain ⟨q, hq, heq⟩ := List.mem_map.mp hmem
          obtain ⟨⟨p, e⟩, hp, rfl⟩ := List.mem_map.mp hq
          have hnil : p = [] := by simpa using heq
          exact path_ne_nil_of_mem_entries hp hnil
        · obtain ⟨⟨p, e⟩, hp, rfl⟩ := List.mem_map.mp hmem
          exact hd.1 (head_of_mem_entries hp)
      · exact List.Nodup.map List.cons_injective (ihsub hd.2.1)
      · intro p hp q hq hpq
        obtain ⟨x, _, rfl⟩ := List.mem_map.mp hp
        obtain ⟨⟨q', e⟩, hq', rfl⟩ := List.mem_map.mp hq
        simp only at hpq
        rw [← hpq] at hq'
        exact hd.1 (head_of_mem_entries hq')

variable [DecidableEq ν]

theorem entryAt_ne_none_head {d : Dir ν α} {n : ν} {p : List ν} (h : d.entryAt (n :: p) ≠ none) :
    n ∈ d.names := by
  by_contra hn
  rw [entryAt_cons, (find?_eq_none_iff d n).mpr hn] at h
  exact h rfl

/-- **The list is complete and correct**: it holds a path with an entry exactly
when a status query at that path reports it. -/
theorem mem_entries_iff {d : Dir ν α} (hd : d.Distinct) (p : List ν) (e : Entry α) :
    (p, e) ∈ d.entries ↔ p ≠ [] ∧ d.entryAt p = some e := by
  induction d generalizing p e with
  | nil =>
      cases p with
      | nil => simp [entries]
      | cons n p => simp [entries, entryAt_cons]
  | file n c rest ih =>
      rw [entries, List.mem_cons, ih hd.2]
      cases p with
      | nil => simp
      | cons m q =>
          by_cases hm : n = m
          · subst hm
            have hrest : rest.entryAt (n :: q) = none := by
              by_contra hat
              exact hd.1 (entryAt_ne_none_head hat)
            rw [entryAt_file, if_pos rfl, hrest]
            cases q with
            | nil => simp [eq_comm]
            | cons x q => simp
          · rw [entryAt_file, if_neg hm]
            have hne : (m :: q, e) ≠ ([n], .file c) := by
              intro heq
              simp_all
            simp [hne]
  | dir n sub rest ihsub ihrest =>
      rw [entries, List.mem_cons, List.mem_append, ihrest hd.2.2]
      cases p with
      | nil => simp [Prod.map]
      | cons m q =>
          have hsub : (m :: q, e) ∈ sub.entries.map (Prod.map (n :: ·) id) ↔
              n = m ∧ (q, e) ∈ sub.entries := by
            rw [List.mem_map]
            constructor
            · rintro ⟨⟨x, y⟩, hx, heq⟩
              simp only [Prod.map_apply, id_eq, Prod.mk.injEq, List.cons.injEq] at heq
              obtain ⟨⟨rfl, rfl⟩, rfl⟩ := heq
              exact ⟨rfl, hx⟩
            · rintro ⟨rfl, hx⟩
              exact ⟨(q, e), hx, rfl⟩
          rw [hsub, ihsub hd.2.1, entryAt_dir]
          by_cases hm : n = m
          · subst hm
            have hrest : rest.entryAt (n :: q) = none := by
              by_contra hat
              exact hd.1 (entryAt_ne_none_head hat)
            rw [if_pos rfl, hrest]
            cases q with
            | nil => simp [eq_comm]
            | cons x q => simp
          · rw [if_neg hm]
            have hne : (m :: q, e) ≠ ([n], .dir) := by
              intro heq
              simp_all
            simp [hne, hm]

end Dir

namespace Tree

variable {ν α : Type} [DecidableEq ν]

/-- The entries of a directory in a tree are those the tree shows below it. -/
theorem mem_entries_below {t : Tree ν α} {p : List ν} {s : Dir ν α}
    (h : t.get? p = some (.dir s)) (q : List ν) (e : Entry α) :
    (q, e) ∈ s.entries ↔ q ≠ [] ∧ t.entryAt (p ++ q) = some e := by
  have hdistinct : s.Distinct := Node.Distinct.get? (x := .dir t.root) t.distinct h
  have hbelow : t.entryAt (p ++ q) = s.entryAt q := by
    have happend : t.entryAt (p ++ q) = (t.get? p).bind (fun n => n.entryAt q) :=
      Dir.entryAt_append t.root p q
    rw [happend, h]
    rfl
  rw [hbelow, Dir.mem_entries_iff hdistinct]

end Tree

end FileTree
