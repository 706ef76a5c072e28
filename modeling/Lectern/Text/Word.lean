import Mathlib.Data.List.Infix

/-!
# Finding a word

`cutWord` cuts a text at the first occurrence of a word, as `find` does.
-/

namespace Text

variable {α : Type} [DecidableEq α]

/-- What stands before the first occurrence of the word, and what follows it. -/
def cutWord (word : List α) : List α → Option (List α × List α)
  | [] => if word = [] then some ([], []) else none
  | a :: s =>
      if word.isPrefixOf (a :: s) then some ([], (a :: s).drop word.length)
      else (cutWord word s).map (fun (pre, post) => (a :: pre, post))

variable {word s pre post : List α}

theorem cutWord_start (h : word <+: s) : cutWord word s = some ([], s.drop word.length) := by
  cases s with
  | nil =>
      have hnil := List.prefix_nil.mp h
      subst hnil
      rfl
  | cons a s => exact if_pos (List.isPrefixOf_iff_prefix.mpr h)

/-- **The first occurrence.** -/
theorem cutWord_eq_some_iff : cutWord word s = some (pre, post) ↔
    s = pre ++ word ++ post ∧ ∀ pre' post', s = pre' ++ word ++ post' → pre.length ≤ pre'.length := by
  induction s generalizing pre with
  | nil =>
      by_cases hword : word = []
      · rw [cutWord, if_pos hword]
        constructor
        · intro h
          cases h
          exact ⟨by simp [hword], fun _ _ _ => Nat.zero_le _⟩
        · intro h
          have hnil := h.1.symm
          simp only [List.append_eq_nil_iff] at hnil
          rw [hnil.1.1, hnil.2]
      · rw [cutWord, if_neg hword]
        refine iff_of_false (by simp) ?_
        intro h
        have hnil := h.1.symm
        simp only [List.append_eq_nil_iff] at hnil
        exact hword hnil.1.2
  | cons a s ih =>
      by_cases hstart : word <+: a :: s
      · rw [cutWord_start hstart]
        obtain ⟨rest, hrest⟩ := hstart
        constructor
        · intro h
          cases h
          refine ⟨?_, fun _ _ _ => Nat.zero_le _⟩
          rw [← hrest, List.drop_left, List.nil_append]
        · intro h
          have hpre : pre = [] := by
            have hle := h.2 [] rest (by rw [List.nil_append, hrest])
            exact List.eq_nil_of_length_eq_zero (Nat.le_zero.mp hle)
          rw [hpre, List.nil_append] at h
          rw [hpre, h.1, List.drop_left]
      · rw [cutWord, if_neg (fun h => hstart (List.isPrefixOf_iff_prefix.mp h))]
        constructor
        · intro h
          obtain ⟨⟨pre', post'⟩, hcut, heq⟩ := Option.map_eq_some_iff.mp h
          cases heq
          obtain ⟨hs, hfirst⟩ := ih.mp hcut
          refine ⟨by rw [hs]; rfl, ?_⟩
          intro other rest hother
          cases other with
          | nil =>
              rw [List.nil_append] at hother
              exact absurd ⟨rest, hother.symm⟩ hstart
          | cons b other =>
              rw [List.cons_append, List.cons_append, List.cons.injEq] at hother
              exact Nat.succ_le_succ (hfirst other rest hother.2)
        · rintro ⟨hs, hfirst⟩
          cases pre with
          | nil =>
              rw [List.nil_append] at hs
              exact absurd ⟨post, hs.symm⟩ hstart
          | cons b pre =>
              rw [List.cons_append, List.cons_append, List.cons.injEq] at hs
              have hcut := ih.mpr ⟨hs.2, fun other rest hother =>
                Nat.le_of_succ_le_succ (hfirst (a :: other) rest (by rw [hother]; rfl))⟩
              rw [hcut, Option.map_some, hs.1]

theorem cutWord_eq_none_iff : cutWord word s = none ↔ ¬ word <:+: s := by
  induction s with
  | nil =>
      rw [cutWord, List.infix_nil]
      by_cases hword : word = [] <;> simp [hword]
  | cons a s ih =>
      rw [List.infix_cons_iff, not_or, ← ih]
      by_cases hstart : word <+: a :: s
      · rw [cutWord_start hstart]
        simp [hstart]
      · rw [cutWord, if_neg (fun h => hstart (List.isPrefixOf_iff_prefix.mp h)),
          Option.map_eq_none_iff]
        exact ⟨fun h => ⟨hstart, h⟩, And.right⟩

end Text
