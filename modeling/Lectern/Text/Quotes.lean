import Mathlib.Data.List.Basic

/-!
# Quoted strings of a text

The strings a tokenizer finds in a text: a quote begins one and the same quote
ends it, an escape takes the letter after it along, and a break within a string,
or the end of the text, is an error.
-/

namespace Text

variable {α : Type} [DecidableEq α]

/-- The letters that matter to strings. -/
structure Quoting (α : Type) where
  quotes : List α
  escape : α
  breaks : List α

/-- Where a reader is: between strings, in one that this quote began, or after an
escape in it, with what it has read of the string. -/
inductive Place (α : Type) where
  | outside
  | within (quote : α) (read : List α)
  | escaped (quote : α) (read : List α)

/-- The strings in the rest of a text. -/
def strings (q : Quoting α) : Place α → List α → Option (List (List α))
  | .outside, [] => some []
  | .within _ _, [] => none
  | .escaped _ _, [] => none
  | .outside, c :: s =>
      if c ∈ q.quotes then strings q (.within c []) s else strings q .outside s
  | .within quote read, c :: s =>
      if c = quote then (strings q .outside s).map (fun rest => read :: rest)
      else if c = q.escape then strings q (.escaped quote read) s
      else if c ∈ q.breaks then none
      else strings q (.within quote (read ++ [c])) s
  | .escaped quote read, c :: s => strings q (.within quote (read ++ [q.escape, c])) s

variable {q : Quoting α}

/-- Text without quotes. -/
theorem strings_plain {s : List α} (h : ∀ c ∈ s, c ∉ q.quotes) (t : List α) :
    strings q .outside (s ++ t) = strings q .outside t := by
  induction s with
  | nil => rfl
  | cons c s ih =>
      rw [List.forall_mem_cons] at h
      rw [List.cons_append, strings, if_neg h.1, ih h.2]

/-- Text that a string in these quotes holds as it is. -/
def Verbatim (q : Quoting α) (quote : α) (s : List α) : Prop :=
  ∀ c ∈ s, c ≠ quote ∧ c ≠ q.escape ∧ c ∉ q.breaks

theorem strings_within {quote : α} {s : List α} (h : Verbatim q quote s) (read t : List α) :
    strings q (.within quote read) (s ++ quote :: t) =
      (strings q .outside t).map (fun rest => (read ++ s) :: rest) := by
  induction s generalizing read with
  | nil => rw [List.nil_append, strings, if_pos rfl, List.append_nil]
  | cons c s ih =>
      obtain ⟨hc, hs⟩ := List.forall_mem_cons.mp h
      rw [List.cons_append, strings, if_neg hc.1, if_neg hc.2.1, if_neg hc.2.2, ih hs,
        List.append_assoc, List.singleton_append]

/-- A string ends at the quote that was written after it. -/
theorem strings_quoted {quote : α} {s : List α} (hquote : quote ∈ q.quotes)
    (h : Verbatim q quote s) (t : List α) :
    strings q .outside (quote :: (s ++ quote :: t)) =
      (strings q .outside t).map (fun rest => s :: rest) := by
  rw [strings, if_pos hquote, strings_within h, List.nil_append]

end Text
