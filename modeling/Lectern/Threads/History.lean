import Mathlib.Data.List.Basic
import Mathlib.Tactic.Common

/-!
# Histories

A history is the list of what has happened, the latest first.  `Since P Q`
says that something satisfying `P` has happened, and nothing satisfying `Q`
after it.
-/

namespace Threads

variable {α : Type}

def Since (P Q : α → Prop) (history : List α) : Prop :=
  ∃ later event earlier, history = later ++ event :: earlier ∧ P event ∧ ∀ x ∈ later, ¬ Q x

variable {P Q : α → Prop}

theorem not_since_nil : ¬ Since P Q [] := by
  rintro ⟨later, event, earlier, h, _⟩
  simp at h

/-- One more event. -/
theorem since_cons {event : α} {history : List α} :
    Since P Q (event :: history) ↔ P event ∨ ¬ Q event ∧ Since P Q history := by
  constructor
  · rintro ⟨later, found, earlier, h, hfound, hlater⟩
    cases later with
    | nil =>
        cases h
        exact Or.inl hfound
    | cons first later =>
        cases h
        exact Or.inr ⟨hlater _ List.mem_cons_self,
          later, found, earlier, rfl, hfound, fun x hx => hlater x (List.mem_cons_of_mem _ hx)⟩
  · intro h
    rcases h with h | ⟨hevent, later, found, earlier, rfl, hfound, hlater⟩
    · refine ⟨[], event, history, rfl, h, ?_⟩
      intro x hx
      cases hx
    · refine ⟨event :: later, found, earlier, rfl, hfound, ?_⟩
      intro x hx
      rcases List.mem_cons.mp hx with rfl | hx
      · exact hevent
      · exact hlater x hx

instance decidableSince [DecidablePred P] [DecidablePred Q] :
    (history : List α) → Decidable (Since P Q history)
  | [] => isFalse not_since_nil
  | event :: history =>
      have := decidableSince history
      decidable_of_iff (P event ∨ ¬ Q event ∧ Since P Q history) since_cons.symm

theorem Since.exists {history : List α} (h : Since P Q history) : ∃ event ∈ history, P event := by
  obtain ⟨later, event, earlier, rfl, hevent, _⟩ := h
  exact ⟨event, by simp, hevent⟩

end Threads
