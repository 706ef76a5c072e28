import Lectern.Basic

/-!
# JSON values

The values the server parses and serialises.  Strings are byte strings: the
parser only ever yields valid UTF-8, but values built from paths or bodies may
hold any bytes, and serialising with the default strict handler throws on
those.  `dumps` says when it does not.

Turning text into a value is left to the parser; only what the handlers read
off a value is modelled here.
-/

namespace Lectern

inductive Json where
  | null
  | bool (b : Bool)
  | int (n : Int)
  | float
  | string (s : Str)
  | array (items : List Json)
  | object (fields : List (Str × Json))
  deriving Repr

namespace Json

/-- The value of a key, when the value is an object that has it. -/
def find? : Json → Str → Option Json
  | .object fields, key => (fields.find? (fun field => field.1 = key)).map Prod.snd
  | _, _ => none

/-- The string a value holds. -/
def string? : Json → Option Str
  | .string s => some s
  | _ => none

def isObject : Json → Bool
  | .object _ => true
  | _ => false

/-- A string field, empty when it is absent or holds something else. -/
def fStringField (frame : Json) (key : Str) : Str :=
  ((frame.find? key).bind string?).getD []

/-- `value(key, fallback)` for a string: throws on a value that is not an
object and on a field that is not a string. -/
def valueString (object : Json) (key fallback : Str) : Option Str :=
  match object with
  | .object _ =>
      match object.find? key with
      | none => some fallback
      | some field => field.string?
  | _ => none

end Json

/-! ## Valid UTF-8 -/

def isContinuation (c : UInt8) : Bool := 0x80 ≤ c && c ≤ 0xBF

/-- Well-formed UTF-8: no overlong form, no surrogate, nothing past U+10FFFF. -/
def validUtf8 : Str → Bool
  | [] => true
  | a :: s =>
      if a < 0x80 then validUtf8 s
      else
        match s with
        | [] => false
        | b :: s =>
            if 0xC2 ≤ a && a ≤ 0xDF then isContinuation b && validUtf8 s
            else
              match s with
              | [] => false
              | c :: s =>
                  if 0xE0 ≤ a && a ≤ 0xEF then
                    (if a = 0xE0 then 0xA0 ≤ b else true) &&
                    (if a = 0xED then b ≤ 0x9F else true) &&
                    isContinuation b && isContinuation c && validUtf8 s
                  else
                    match s with
                    | [] => false
                    | d :: s =>
                        (0xF0 ≤ a && a ≤ 0xF4) &&
                        (if a = 0xF0 then 0x90 ≤ b else true) &&
                        (if a = 0xF4 then b ≤ 0x8F else true) &&
                        isContinuation b && isContinuation c && isContinuation d &&
                        validUtf8 s

/-- ASCII text is valid. -/
theorem validUtf8_of_ascii {s : Str} (h : ∀ c ∈ s, c < 0x80) : validUtf8 s = true := by
  induction s with
  | nil => rfl
  | cons a s ih =>
      have ha := h a List.mem_cons_self
      unfold validUtf8
      rw [if_pos ha]
      exact ih (fun c hc => h c (List.mem_cons_of_mem _ hc))

mutual

/-- `dump()` returns the text exactly when every string is valid UTF-8. -/
def Json.dumps : Json → Bool
  | .string s => validUtf8 s
  | .array items => dumpsAll items
  | .object fields => dumpsFields fields
  | _ => true

def dumpsAll : List Json → Bool
  | [] => true
  | item :: items => item.dumps && dumpsAll items

def dumpsFields : List (Str × Json) → Bool
  | [] => true
  | (key, value) :: fields => validUtf8 key && value.dumps && dumpsFields fields

end

theorem dumpsAll_eq (items : List Json) : dumpsAll items = items.all Json.dumps := by
  induction items with
  | nil => rfl
  | cons item items ih => rw [dumpsAll, ih, List.all_cons]

theorem dumpsFields_eq (fields : List (Str × Json)) :
    dumpsFields fields = fields.all (fun field => validUtf8 field.1 && field.2.dumps) := by
  induction fields with
  | nil => rfl
  | cons field fields ih =>
      obtain ⟨key, value⟩ := field
      rw [dumpsFields, ih, List.all_cons]

/-- A string field of a value that can be serialised can be serialised. -/
theorem validUtf8_fStringField {frame : Json} (h : frame.dumps = true) (key : Str) :
    validUtf8 (frame.fStringField key) = true := by
  unfold Json.fStringField
  cases hfound : (frame.find? key).bind Json.string? with
  | none => rfl
  | some s =>
      obtain ⟨value, hfind, hstring⟩ := Option.bind_eq_some_iff.mp hfound
      cases frame with
      | object fields =>
          obtain ⟨field, hfield, rfl⟩ := Option.map_eq_some_iff.mp hfind
          rw [Json.dumps, dumpsFields_eq, List.all_eq_true] at h
          have hdumps := h field (List.mem_of_find?_eq_some hfield)
          rw [Bool.and_eq_true] at hdumps
          cases hvalue : field.2 with
          | string s' =>
              rw [hvalue] at hstring hdumps
              cases hstring
              have hutf8 := hdumps.2
              rwa [Json.dumps] at hutf8
          | _ =>
              rw [hvalue] at hstring
              cases hstring
      | _ => cases hfind

/-! ## `http.h` -/

/-- Required string field of a JSON object body. -/
def fJsonString (object : Json) (key : Str) : Except AppError Str :=
  match (object.find? key).bind Json.string? with
  | some s => .ok s
  | none => .error (.fBadRequest (str "missing '" ++ key ++ str "' field"))

/-- Optional string field. -/
def fJsonStringOr (object : Json) (key : Str) (fallback : Str := []) : Str :=
  ((object.find? key).bind Json.string?).getD fallback

def fJsonBool (object : Json) (key : Str) (fallback : Bool := false) : Bool :=
  match object.find? key with
  | some (.bool b) => b
  | _ => fallback

/-- A query parameter that must be present and not empty. -/
def fRequiredQuery (value name : Str) : Except AppError Str :=
  if value = [] then .error (.fBadRequest (str "missing '" ++ name ++ str "' parameter"))
  else .ok value

end Lectern
