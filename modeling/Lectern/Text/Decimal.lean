import Mathlib.Data.List.Basic
import Mathlib.Tactic.Common

/-!
# Decimal numbers

`print` writes a number as the C library does, `scan` reads one as `strtoll`
does: leading white space is skipped, a sign is allowed, and what stands after
the last digit is left alone.  A printed number followed by anything but a digit
is read back (`scan_print`).
-/

namespace Decimal

/-- `isdigit`. -/
def isDigit (c : UInt8) : Bool := 48 ≤ c && c ≤ 57

def digit (n : Nat) : UInt8 := UInt8.ofNat (48 + n)

def print (n : Nat) : List UInt8 := (Nat.toDigits 10 n).map (fun c => UInt8.ofNat c.toNat)

def minus : UInt8 := 45

def plus : UInt8 := 43

/-- The number a run of digits stands for. -/
def value (s : List UInt8) : Nat := s.foldl (fun n c => 10 * n + (c.toNat - 48)) 0

/-- The digits at the front. -/
def scanNat (s : List UInt8) : Option Nat :=
  if s.takeWhile isDigit = [] then none else some (value (s.takeWhile isDigit))

/-- `strtoll` in base ten, without its bounds. -/
def scan (space : UInt8 → Bool) (s : List UInt8) : Option Int :=
  match s.dropWhile space with
  | [] => none
  | c :: rest =>
      if c = minus then (scanNat rest).map (fun n : Nat => -(n : Int))
      else if c = plus then (scanNat rest).map (fun n : Nat => (n : Int))
      else (scanNat (c :: rest)).map (fun n : Nat => (n : Int))

/-! ## Printing -/

/-- One digit after the other. -/
theorem print_eq (n : Nat) :
    print n = if n < 10 then [digit n] else print (n / 10) ++ [digit (n % 10)] := by
  unfold print digit
  rw [Nat.toDigits_eq_if (by decide)]
  split
  · rename_i h
    rw [List.map_singleton, Nat.toNat_digitChar_of_lt_ten h]
  · rw [List.map_append, List.map_singleton,
      Nat.toNat_digitChar_of_lt_ten (Nat.mod_lt n (by decide))]

theorem toNat_digit {n : Nat} (h : n < 10) : (digit n).toNat = 48 + n := by
  unfold digit
  rw [UInt8.toNat_ofNat']
  omega

theorem isDigit_iff {c : UInt8} : isDigit c = true ↔ 48 ≤ c.toNat ∧ c.toNat ≤ 57 := by
  unfold isDigit
  rw [Bool.and_eq_true, decide_eq_true_eq, decide_eq_true_eq, UInt8.le_iff_toNat_le,
    UInt8.le_iff_toNat_le]
  rfl

theorem isDigit_digit {n : Nat} (h : n < 10) : isDigit (digit n) = true := by
  rw [isDigit_iff, toNat_digit h]
  omega

theorem print_ne_nil (n : Nat) : print n ≠ [] := by
  rw [print_eq]
  split <;> simp

theorem isDigit_of_mem_print {n : Nat} {c : UInt8} (hc : c ∈ print n) : isDigit c = true := by
  induction n using Nat.strongRecOn with
  | ind n ih =>
      rw [print_eq] at hc
      split at hc
      · rename_i h
        rw [List.mem_singleton.mp hc]
        exact isDigit_digit h
      · rename_i h
        rcases List.mem_append.mp hc with hc | hc
        · exact ih (n / 10) (by omega) hc
        · rw [List.mem_singleton.mp hc]
          exact isDigit_digit (Nat.mod_lt n (by decide))

theorem value_concat (s : List UInt8) (c : UInt8) :
    value (s ++ [c]) = 10 * value s + (c.toNat - 48) := by
  unfold value
  rw [List.foldl_append, List.foldl_cons, List.foldl_nil]

/-- **Printing and reading.** -/
theorem value_print (n : Nat) : value (print n) = n := by
  induction n using Nat.strongRecOn with
  | ind n ih =>
      rw [print_eq]
      split
      · rename_i h
        have hvalue := value_concat [] (digit n)
        rw [List.nil_append] at hvalue
        rw [hvalue, toNat_digit h]
        simp [value]
      · rename_i h
        rw [value_concat, ih (n / 10) (by omega), toNat_digit (Nat.mod_lt n (by decide))]
        omega

/-! ## Scanning -/

theorem takeWhile_print (n : Nat) {rest : List UInt8} (hrest : ∀ c ∈ rest.head?, isDigit c = false) :
    (print n ++ rest).takeWhile isDigit = print n := by
  rw [List.takeWhile_append_of_pos (fun c hc => isDigit_of_mem_print hc)]
  cases rest with
  | nil => simp
  | cons c rest =>
      rw [List.takeWhile_cons_of_neg (by simp [hrest c rfl]), List.append_nil]

theorem scanNat_print (n : Nat) {rest : List UInt8} (hrest : ∀ c ∈ rest.head?, isDigit c = false) :
    scanNat (print n ++ rest) = some n := by
  unfold scanNat
  rw [takeWhile_print n hrest, if_neg (print_ne_nil n), value_print]

section Space

variable {space : UInt8 → Bool}

/-- A number begins with a digit. -/
theorem print_cons (n : Nat) : ∃ c rest, print n = c :: rest ∧ isDigit c = true := by
  obtain ⟨c, rest, hprint⟩ := List.exists_cons_of_ne_nil (print_ne_nil n)
  exact ⟨c, rest, hprint, isDigit_of_mem_print (hprint ▸ List.mem_cons_self)⟩

/-- **Round trip.** -/
theorem scan_print (hspace : ∀ c, isDigit c = true → space c = false) (n : Nat)
    {rest : List UInt8} (hrest : ∀ c ∈ rest.head?, isDigit c = false) :
    scan space (print n ++ rest) = some (n : Int) := by
  obtain ⟨c, digits, hprint, hc⟩ := print_cons n
  have hscan := scanNat_print n hrest
  have hminus : c ≠ minus := by
    rintro rfl
    exact absurd hc (by decide)
  have hplus : c ≠ plus := by
    rintro rfl
    exact absurd hc (by decide)
  rw [hprint, List.cons_append] at hscan ⊢
  unfold scan
  rw [List.dropWhile_cons_of_neg (by simp [hspace c hc])]
  simp only [hminus, hplus, if_false, hscan, Option.map_some]

end Space

end Decimal
