import Mathlib.Data.List.Basic
import Mathlib.Tactic.Common

/-!
# Requests one after the other

A server whose requests do not overlap goes from state to state.  `run` is such
a sequence; what every request preserves a run preserves (`run_induction`), and
what some requests bring and others take away is there at the end exactly when
it was brought and not taken away since (`run_iff`).
-/

namespace Runs

variable {σ R : Type}

def run (step : R → σ → σ) : List R → σ → σ
  | [], s => s
  | r :: rs, s => run step rs (step r s)

variable {step : R → σ → σ}

@[simp] theorem run_nil (s : σ) : run step [] s = s := rfl

@[simp] theorem run_cons (r : R) (rs : List R) (s : σ) :
    run step (r :: rs) s = run step rs (step r s) := rfl

theorem run_append (rs rs' : List R) (s : σ) :
    run step (rs ++ rs') s = run step rs' (run step rs s) := by
  induction rs generalizing s with
  | nil => rfl
  | cons r rs ih => exact ih (step r s)

/-- **Run rule.** -/
theorem run_induction {P : σ → Prop} {rs : List R} (hstep : ∀ r ∈ rs, ∀ s, P s → P (step r s))
    {s : σ} (hs : P s) : P (run step rs s) := by
  induction rs generalizing s with
  | nil => exact hs
  | cons r rs ih =>
      have hfirst := hstep r List.mem_cons_self s hs
      exact ih (fun r' hr' => hstep r' (List.mem_cons_of_mem _ hr')) hfirst

/-- No request of the run takes it away. -/
def Untaken (step : R → σ → σ) (takes : σ → R → Prop) : List R → σ → Prop
  | [], _ => True
  | r :: rs, s => ¬ takes s r ∧ Untaken step takes rs (step r s)

/-- It was there or was brought, and no request has taken it away since. -/
def Standing (step : R → σ → σ) (P : σ → Prop) (brings takes : σ → R → Prop) (rs : List R)
    (s : σ) : Prop :=
  (P s ∧ Untaken step takes rs s) ∨
    ∃ before r after, rs = before ++ r :: after ∧ brings (run step before s) r ∧
      Untaken step takes after (run step (before ++ [r]) s)

variable {P I : σ → Prop} {brings takes : σ → R → Prop}

theorem standing_cons {r : R} {rs : List R} {s : σ} :
    Standing step P brings takes (r :: rs) s ↔
      ((brings s r ∨ P s ∧ ¬ takes s r) ∧ Untaken step takes rs (step r s)) ∨
        ∃ before r' after, rs = before ++ r' :: after ∧
          brings (run step before (step r s)) r' ∧
          Untaken step takes after (run step (before ++ [r']) (step r s)) := by
  constructor
  · rintro (⟨hP, hr, hrs⟩ | ⟨before, r', after, heq, hbrings, hafter⟩)
    · exact Or.inl ⟨Or.inr ⟨hP, hr⟩, hrs⟩
    · cases before with
      | nil =>
          cases heq
          exact Or.inl ⟨Or.inl hbrings, hafter⟩
      | cons first before =>
          cases heq
          exact Or.inr ⟨before, r', after, rfl, hbrings, hafter⟩
  · rintro (⟨hbrings | ⟨hP, hr⟩, hrs⟩ | ⟨before, r', after, rfl, hbrings, hafter⟩)
    · exact Or.inr ⟨[], r, rs, rfl, hbrings, hrs⟩
    · exact Or.inl ⟨hP, hr, hrs⟩
    · exact Or.inr ⟨r :: before, r', after, rfl, hbrings, hafter⟩

/-- **Brought and not taken away since.** -/
theorem run_iff {rs : List R} (hinv : ∀ r ∈ rs, ∀ s, I s → I (step r s))
    (hstep : ∀ r ∈ rs, ∀ s, I s → (P (step r s) ↔ brings s r ∨ P s ∧ ¬ takes s r)) {s : σ}
    (hs : I s) : P (run step rs s) ↔ Standing step P brings takes rs s := by
  induction rs generalizing s with
  | nil => simp [Standing, Untaken]
  | cons r rs ih =>
      have hfirst := hstep r List.mem_cons_self s hs
      have hrest := ih (fun r' hr' => hinv r' (List.mem_cons_of_mem _ hr'))
        (fun r' hr' => hstep r' (List.mem_cons_of_mem _ hr')) (hinv r List.mem_cons_self s hs)
      rw [run_cons, hrest, standing_cons, Standing, hfirst]

end Runs
