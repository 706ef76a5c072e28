import Mathlib.Algebra.GroupWithZero.Nat
import Mathlib.Data.List.Basic

/-!
# Byte strings and errors

A `std::string` is a sequence of bytes; the server hands paths, ids, headers
and bodies around as such strings and never decodes them itself.  `str` turns
a literal of the source into its bytes.

The string helpers are those of `util.cpp` that the handlers lean on, and
`AppError` is the exception every handler throws, turned into a status and a
message by `fGuard`.
-/

namespace Lectern

/-- A `std::string`. -/
abbrev Str := List UInt8

instance : LawfulBEq Str := inferInstance

/-- The bytes of an ASCII literal. -/
def str (s : String) : Str := s.toList.map (fun c => UInt8.ofNat c.toNat)

/-- A fact about every letter of a text, checked letter by letter. -/
theorem forall_letters {p : UInt8 → Prop} [DecidablePred p] {s : Str}
    (h : s.all (fun c => decide (p c)) = true) : ∀ c ∈ s, p c := by
  simpa using h

def slash : UInt8 := 47

def backslash : UInt8 := 92

def colon : UInt8 := 58

def dot : UInt8 := 46

def newline : UInt8 := 10

def doubleQuote : UInt8 := 34

def singleQuote : UInt8 := 39

/-- `c_str()`, as the C library reads it: up to the first NUL. -/
def cStr (s : Str) : Str := s.takeWhile (fun c => c != 0)

/-! ## `util.cpp` -/

def fStartsWith (s pre : Str) : Bool := pre.isPrefixOf s

/-- `std::tolower` of the C locale. -/
def toLowerByte (c : UInt8) : UInt8 := if 65 ≤ c ∧ c ≤ 90 then c + 32 else c

def fToLower (s : Str) : Str := s.map toLowerByte

/-- `std::isspace` of the C locale. -/
def isSpace (c : UInt8) : Bool := c == 32 || (9 ≤ c && c ≤ 13)

def fTrim (s : Str) : Str :=
  ((s.dropWhile isSpace).reverse.dropWhile isSpace).reverse

/-- Everything after the last `'/'`, or the whole string. -/
def fBasenameOf (relPath : Str) : Str :=
  (relPath.reverse.takeWhile (fun c => c != slash)).reverse

/-- Lowercased extension without the dot; a leading dot is a hidden file. -/
def fExtensionOf (name : Str) : Str :=
  let base := fBasenameOf name
  let ext := (base.reverse.takeWhile (fun c => c != dot)).reverse
  if ext.length + 1 < base.length then fToLower ext else []

/-! ## `error.h` -/

structure AppError where
  status : Nat
  message : Str
  deriving DecidableEq, Repr

namespace AppError

def fBadRequest (message : Str) : AppError := ⟨400, message⟩

def fUnauthorized : AppError := ⟨401, str "unauthorized"⟩

def fForbidden : AppError := ⟨403, str "you don't have permission to do that"⟩

def fNotFound : AppError := ⟨404, str "not found"⟩

def fConflict (message : Str) : AppError := ⟨409, message⟩

def fTooManyRequests : AppError := ⟨429, str "too many attempts, try again later"⟩

def fInternal (message : Str) : AppError := ⟨500, message⟩

end AppError

end Lectern
