import Mathlib.Data.List.Basic

/-!
# Scanning text

Small readers over lists of letters: cutting at the first occurrence of a
separator, reading a word that has to be there, and the lines of a text as
`std::getline` returns them.
-/

namespace Text

variable {α : Type} [DecidableEq α]

/-! ## Cutting at a separator -/

/-- What stands before the first `c`, and what follows it. -/
def cut (c : α) : List α → Option (List α × List α)
  | [] => none
  | a :: s => if a = c then some ([], s) else (cut c s).map (fun (pre, post) => (a :: pre, post))

theorem cut_append {c : α} {pre : List α} (h : c ∉ pre) (post : List α) :
    cut c (pre ++ c :: post) = some (pre, post) := by
  induction pre with
  | nil => simp [cut]
  | cons a pre ih =>
      rw [List.mem_cons, not_or] at h
      rw [List.cons_append, cut, if_neg (Ne.symm h.1), ih h.2, Option.map_some]

theorem cut_eq_some_iff {c : α} {s pre post : List α} :
    cut c s = some (pre, post) ↔ s = pre ++ c :: post ∧ c ∉ pre := by
  constructor
  · intro h
    induction s generalizing pre with
    | nil => cases h
    | cons a s ih =>
        rw [cut] at h
        by_cases ha : a = c
        · rw [if_pos ha] at h
          cases h
          exact ⟨by rw [ha, List.nil_append], List.not_mem_nil⟩
        · rw [if_neg ha] at h
          obtain ⟨⟨pre', post'⟩, hcut, heq⟩ := Option.map_eq_some_iff.mp h
          cases heq
          obtain ⟨hs, hpre⟩ := ih hcut
          refine ⟨by rw [hs, List.cons_append], ?_⟩
          rw [List.mem_cons, not_or]
          exact ⟨Ne.symm ha, hpre⟩
  · intro ⟨hs, h⟩
    rw [hs]
    exact cut_append h post

theorem cut_eq_none_iff {c : α} {s : List α} : cut c s = none ↔ c ∉ s := by
  induction s with
  | nil => simp [cut]
  | cons a s ih =>
      rw [cut, List.mem_cons, not_or]
      by_cases ha : a = c
      · rw [if_pos ha]
        exact ⟨nofun, fun h => absurd ha.symm h.1⟩
      · rw [if_neg ha, Option.map_eq_none_iff, ih]
        exact ⟨fun h => ⟨Ne.symm ha, h⟩, fun h => h.2⟩

/-! ## Lines -/

/-- The pieces that `c` ends; what follows the last `c` is a piece unless it is
empty. -/
def lines (c : α) : List α → List (List α)
  | [] => []
  | a :: s =>
      if a = c then [] :: lines c s
      else
        match lines c s with
        | [] => [[a]]
        | line :: rest => (a :: line) :: rest

@[simp] theorem lines_nil (c : α) : lines c [] = [] := rfl

theorem lines_cons_self (c : α) (s : List α) : lines c (c :: s) = [] :: lines c s := by
  rw [lines, if_pos rfl]

/-- A line that is ended. -/
theorem lines_append_cons {c : α} {line : List α} (h : c ∉ line) (s : List α) :
    lines c (line ++ c :: s) = line :: lines c s := by
  induction line with
  | nil => exact lines_cons_self c s
  | cons a line ih =>
      rw [List.mem_cons, not_or] at h
      rw [List.cons_append, lines, if_neg (Ne.symm h.1), ih h.2]

/-- A last line that is not. -/
theorem lines_of_not_mem {c : α} {line : List α} (h : c ∉ line) (hne : line ≠ []) :
    lines c line = [line] := by
  induction line with
  | nil => exact absurd rfl hne
  | cons a line ih =>
      rw [List.mem_cons, not_or] at h
      rw [lines, if_neg (Ne.symm h.1)]
      cases line with
      | nil => rfl
      | cons b line => rw [ih h.2 (List.cons_ne_nil b line)]

/-- A line has no letter that the text does not have. -/
theorem mem_of_mem_lines {c : α} {s line : List α} (h : line ∈ lines c s) {a : α} (ha : a ∈ line) :
    a ∈ s := by
  induction s generalizing line with
  | nil => cases h
  | cons b s ih =>
      rw [lines] at h
      by_cases hb : b = c
      · rw [if_pos hb, List.mem_cons] at h
        rcases h with rfl | h
        · cases ha
        · exact List.mem_cons_of_mem b (ih h ha)
      · rw [if_neg hb] at h
        cases hlines : lines c s with
        | nil =>
            rw [hlines, List.mem_singleton] at h
            rw [h, List.mem_singleton] at ha
            rw [ha]
            exact List.mem_cons_self
        | cons first rest =>
            rw [hlines, List.mem_cons] at h
            rcases h with rfl | h
            · rcases List.mem_cons.mp ha with rfl | ha
              · exact List.mem_cons_self
              · exact List.mem_cons_of_mem b (ih (hlines ▸ List.mem_cons_self) ha)
            · exact List.mem_cons_of_mem b (ih (hlines ▸ List.mem_cons_of_mem first h) ha)

theorem lines_eq_nil_iff {c : α} {s : List α} : lines c s = [] ↔ s = [] := by
  cases s with
  | nil => simp
  | cons a s =>
      rw [lines]
      split
      · simp
      · split <;> simp

/-- A text that ends a line can be followed by any other. -/
theorem lines_append {c : α} (s t : List α) :
    lines c (s ++ c :: t) = lines c (s ++ [c]) ++ lines c t := by
  induction s with
  | nil => rw [List.nil_append, List.nil_append, lines_cons_self, lines_cons_self]; rfl
  | cons a s ih =>
      rw [List.cons_append, List.cons_append, lines, lines]
      by_cases ha : a = c
      · rw [if_pos ha, if_pos ha, ih, List.cons_append]
      · rw [if_neg ha, if_neg ha, ih]
        cases hlines : lines c (s ++ [c]) with
        | cons first rest => rfl
        | nil => exact absurd (lines_eq_nil_iff.mp hlines) (by simp)

end Text
