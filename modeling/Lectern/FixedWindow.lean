import Mathlib.Data.List.Count
import Mathlib.Tactic.Common

/-!
# Windows that follow one another

A fixed-window counter starts a window with the first hit after the last window
is over and admits at most `max` hits into each.  Any span of time as long as a
window meets at most two windows that have hits in it, so it holds at most
`2 * max` hits (`Windows.sliding`).
-/

namespace FixedWindow

variable {width : Int} {max : Nat}

/-- The windows so far with their hits, the newest first: each begins after the
one before it is over. -/
inductive Windows (width : Int) (max : Nat) : List (Int × List Int) → Prop
  | nil : Windows width max []
  | cons {start : Int} {hits : List Int} {older : List (Int × List Int)}
      (hrange : ∀ t ∈ hits, start ≤ t ∧ t < start + width) (hmax : hits.length ≤ max)
      (hover : ∀ w ∈ older.head?, w.1 + width ≤ start) (holder : Windows width max older) :
      Windows width max ((start, hits) :: older)

def hitsOf (windows : List (Int × List Int)) : List Int := windows.flatMap Prod.snd

@[simp] theorem hitsOf_cons (w : Int × List Int) (windows : List (Int × List Int)) :
    hitsOf (w :: windows) = w.2 ++ hitsOf windows := List.flatMap_cons

/-- Within a window's length from `t` on. -/
def within (width t x : Int) : Bool := t ≤ x ∧ x < t + width

/-- The hits of older windows come before a window starts. -/
theorem Windows.lt_start (hwidth : 0 ≤ width) {start : Int} {hits : List Int}
    {older : List (Int × List Int)} (h : Windows width max ((start, hits) :: older)) :
    ∀ t ∈ hitsOf older, t < start := by
  induction older generalizing start hits with
  | nil => simp [hitsOf]
  | cons w older ih =>
      obtain ⟨start', hits'⟩ := w
      cases h with
      | cons _ _ hover holder =>
          have hbefore : start' + width ≤ start := hover (start', hits') rfl
          intro t ht
          rw [hitsOf_cons] at ht
          rcases List.mem_append.mp ht with hin | hold
          · cases holder with
            | cons hrange _ _ _ =>
                have hlt := (hrange t hin).2
                omega
          · have hlt := ih holder t hold
            omega

/-- From the newest window on there are at most `max` hits. -/
theorem Windows.count_from (hwidth : 0 ≤ width) {start t : Int} {hits : List Int}
    {older : List (Int × List Int)} (h : Windows width max ((start, hits) :: older))
    (ht : start ≤ t) :
    (hitsOf ((start, hits) :: older)).countP (within width t) ≤ max := by
  have hnone : (hitsOf older).countP (within width t) = 0 := by
    rw [List.countP_eq_zero]
    intro x hx hin
    have hlt := h.lt_start hwidth x hx
    have hge := (of_decide_eq_true hin).1
    omega
  rw [hitsOf_cons, List.countP_append, hnone, Nat.add_zero]
  cases h with
  | cons _ hmax _ _ => exact Nat.le_trans List.countP_le_length hmax

/-- **Any span as long as a window** holds at most twice the hits of one. -/
theorem Windows.sliding (hwidth : 0 ≤ width) {windows : List (Int × List Int)}
    (h : Windows width max windows) (t : Int) :
    (hitsOf windows).countP (within width t) ≤ 2 * max := by
  induction h with
  | nil => exact Nat.zero_le _
  | @cons start hits older hrange hmax hover holder ih =>
      rw [hitsOf_cons, List.countP_append]
      dsimp only
      by_cases hlate : t + width ≤ start
      · -- The window starts after the span.
        have hnone : hits.countP (within width t) = 0 := by
          rw [List.countP_eq_zero]
          intro x hx hin
          have hge := (hrange x hx).1
          have hlt := (of_decide_eq_true hin).2
          omega
        rw [hnone, Nat.zero_add]
        exact ih
      · -- The one before it starts before the span, so it is the last to matter.
        have holds : (hitsOf older).countP (within width t) ≤ max := by
          cases older with
          | nil => exact Nat.zero_le _
          | cons w older =>
              have hbefore : w.1 + width ≤ start := hover w rfl
              exact holder.count_from hwidth (by omega)
        have hhits : hits.countP (within width t) ≤ max :=
          Nat.le_trans List.countP_le_length hmax
        omega

/-- A hit after the last window is over starts the next. -/
theorem Windows.next (hwidth : 0 < width) (hmax : 1 ≤ max) {windows : List (Int × List Int)}
    {now : Int} (h : Windows width max windows) (hover : ∀ w ∈ windows.head?, w.1 + width ≤ now) :
    Windows width max ((now, [now]) :: windows) := by
  refine .cons ?_ hmax hover h
  intro t ht
  rw [List.mem_singleton.mp ht]
  omega

/-- A hit in a window that has room. -/
theorem Windows.join {start now : Int} {hits : List Int} {older : List (Int × List Int)}
    (h : Windows width max ((start, hits) :: older)) (hstart : start ≤ now)
    (hnow : now < start + width) (hroom : hits.length < max) :
    Windows width max ((start, now :: hits) :: older) := by
  cases h with
  | cons hrange _ hover holder =>
      refine .cons ?_ hroom hover holder
      intro t ht
      rcases List.mem_cons.mp ht with rfl | ht
      · exact ⟨hstart, hnow⟩
      · exact hrange t ht

end FixedWindow
