import Lectern.Basic
import Lectern.Text.Scan
import Mathlib.Data.List.TakeWhile
import Mathlib.Logic.Function.Basic

/-!
# `.env` files

`fLoadDotenv` reads `KEY=value` lines into the environment of the process.  What
is set already stays, so of several lines for one variable the first counts.

The C library stops reading a string at its first NUL; the results are about
files that have none.
-/

namespace Lectern

open Text

/-! ## `util.cpp` -/

def hash : UInt8 := 35

def equals : UInt8 := 61

/-- The variables of the process. -/
abbrev Environment := Str → Option Str

def getenv (env : Environment) (name : Str) : Option Str := env (cStr name)

/-- `setenv` without overwriting.  It refuses a name that is empty or has an
`'='`. -/
def fSetEnv (env : Environment) (name value : Str) : Environment :=
  if cStr name = [] ∨ equals ∈ cStr name ∨ (env (cStr name)).isSome then env
  else Function.update env (cStr name) (some (cStr value))

/-- One layer of matching quotes is stripped. -/
def unquote (value : Str) : Str :=
  if 2 ≤ value.length ∧
      (value.head? = some doubleQuote ∧ value.getLast? = some doubleQuote ∨
        value.head? = some singleQuote ∧ value.getLast? = some singleQuote) then
    (value.drop 1).take (value.length - 2)
  else value

/-- One turn of the loop. -/
def dotenvLine (env : Environment) (line : Str) : Environment :=
  let trimmed := fTrim line
  if trimmed = [] ∨ trimmed.head? = some hash then env
  else
    match cut equals trimmed with
    | none => env
    | some (before, after) =>
        let name := fTrim before
        let value := fTrim after
        if name = [] then env
        else
          let value := unquote value
          if (getenv env name).isNone then fSetEnv env name value else env

/-- A file that cannot be opened is no error. -/
def fLoadDotenv (file : Option Str) (env : Environment) : Environment :=
  match file with
  | none => env
  | some content => (lines newline content).foldl dotenvLine env

/-! ## Trimming -/

theorem mem_of_mem_fTrim {s : Str} {c : UInt8} (h : c ∈ fTrim s) : c ∈ s := by
  unfold fTrim at h
  rw [List.mem_reverse] at h
  have hback := (List.dropWhile_suffix isSpace).subset h
  rw [List.mem_reverse] at hback
  exact (List.dropWhile_suffix isSpace).subset hback

/-- Neither end is white space. -/
def Trimmed (s : Str) : Prop :=
  (∀ c ∈ s.head?, isSpace c = false) ∧ ∀ c ∈ s.getLast?, isSpace c = false

theorem dropWhile_of_head {s : Str} (h : ∀ c ∈ s.head?, isSpace c = false) :
    s.dropWhile isSpace = s := by
  cases s with
  | nil => rfl
  | cons a s =>
      have ha := h a rfl
      exact List.dropWhile_cons_of_neg (by simp [ha])

theorem fTrim_of_trimmed {s : Str} (h : Trimmed s) : fTrim s = s := by
  unfold fTrim
  rw [dropWhile_of_head h.1, dropWhile_of_head, List.reverse_reverse]
  rw [List.head?_reverse]
  exact h.2

/-! ## What a line says -/

/-- A line that is no comment gives a variable a text: the name is what stands
before the first `'='`, trimmed and not empty, the text what stands after. -/
def SetsTo (line name raw : Str) : Prop :=
  (fTrim line).head? ≠ some hash ∧
    ∃ before after, fTrim line = before ++ equals :: after ∧ equals ∉ before ∧
      fTrim before = name ∧ name ≠ [] ∧ fTrim after = raw

/-- At most one layer of matching quotes is gone. -/
def Unquoted (raw value : Str) : Prop :=
  (∃ q, (q = doubleQuote ∨ q = singleQuote) ∧ raw = q :: (value ++ [q])) ∨
    (∀ q v, q = doubleQuote ∨ q = singleQuote → raw ≠ q :: (v ++ [q])) ∧ value = raw

/-- The variable a line sets, and the text it gives. -/
def binding (line : Str) : Option (Str × Str) :=
  if (fTrim line).head? = some hash then none
  else
    match cut equals (fTrim line) with
    | none => none
    | some (before, after) => if fTrim before = [] then none else some (fTrim before, fTrim after)

theorem binding_eq_some_iff {line name raw : Str} :
    binding line = some (name, raw) ↔ SetsTo line name raw := by
  unfold binding SetsTo
  by_cases hcomment : (fTrim line).head? = some hash
  · rw [if_pos hcomment]
    exact ⟨nofun, fun h => absurd hcomment h.1⟩
  · rw [if_neg hcomment]
    cases hcut : cut equals (fTrim line) with
    | none =>
        refine ⟨nofun, ?_⟩
        intro ⟨_, before, after, hline, _⟩
        exact absurd (hline ▸ List.mem_append_right _ List.mem_cons_self) (cut_eq_none_iff.mp hcut)
    | some parts =>
        obtain ⟨before, after⟩ := parts
        obtain ⟨hline, hbefore⟩ := cut_eq_some_iff.mp hcut
        show (if fTrim before = [] then none else some (fTrim before, fTrim after)) =
          some (name, raw) ↔ _
        constructor
        · intro h
          by_cases hname : fTrim before = []
          · rw [if_pos hname] at h
            cases h
          · rw [if_neg hname] at h
            cases h
            exact ⟨hcomment, before, after, hline, hbefore, rfl, hname, rfl⟩
        · intro ⟨_, before', after', hline', hbefore', hname, hne, hraw⟩
          have hsame := hcut.symm.trans (cut_eq_some_iff.mpr ⟨hline', hbefore'⟩)
          cases hsame
          rw [if_neg (hname ▸ hne), hname, hraw]

/-- A text between two quotes, told by its length and its ends. -/
theorem quoted_iff {raw : Str} {q : UInt8} :
    (2 ≤ raw.length ∧ raw.head? = some q ∧ raw.getLast? = some q) ↔ ∃ v, raw = q :: (v ++ [q]) := by
  constructor
  · intro ⟨hlen, hhead, hlast⟩
    cases raw with
    | nil => cases hhead
    | cons a s =>
        cases hhead
        have hne : s ≠ [] := by
          intro hnil
          rw [hnil] at hlen
          simp at hlen
        refine ⟨s.dropLast, ?_⟩
        rw [List.getLast?_cons_of_ne_nil hne] at hlast
        rw [List.dropLast_append_getLast? q hlast]
  · intro ⟨v, hv⟩
    subst hv
    refine ⟨by simp, rfl, ?_⟩
    rw [← List.cons_append, List.getLast?_concat]

theorem unquote_quoted {q : UInt8} (hq : q = doubleQuote ∨ q = singleQuote) (v : Str) :
    unquote (q :: (v ++ [q])) = v := by
  obtain ⟨hlen, hhead, hlast⟩ := quoted_iff.mpr ⟨v, rfl⟩
  unfold unquote
  rw [if_pos]
  · simp
  · refine ⟨hlen, ?_⟩
    rcases hq with rfl | rfl
    · exact Or.inl ⟨hhead, hlast⟩
    · exact Or.inr ⟨hhead, hlast⟩

theorem mem_of_mem_unquote {s : Str} {c : UInt8} (h : c ∈ unquote s) : c ∈ s := by
  unfold unquote at h
  split at h
  · exact List.mem_of_mem_drop (List.mem_of_mem_take h)
  · exact h

theorem unquote_eq_iff {raw value : Str} : unquote raw = value ↔ Unquoted raw value := by
  by_cases hquoted : ∃ q v, (q = doubleQuote ∨ q = singleQuote) ∧ raw = q :: (v ++ [q])
  · obtain ⟨q, v, hq, rfl⟩ := hquoted
    rw [unquote_quoted hq]
    constructor
    · intro hv
      exact Or.inl ⟨q, hq, by rw [hv]⟩
    · intro h
      rcases h with ⟨q', _, hsame⟩ | ⟨hnone, _⟩
      · rw [List.cons.injEq] at hsame
        obtain ⟨rfl, hsame⟩ := hsame
        exact List.append_cancel_right hsame
      · exact absurd rfl (hnone q v hq)
  · have hplain : unquote raw = raw := by
      unfold unquote
      rw [if_neg]
      intro ⟨hlen, hends⟩
      rcases hends with hends | hends
      · obtain ⟨v, hv⟩ := quoted_iff.mp ⟨hlen, hends⟩
        exact hquoted ⟨_, v, Or.inl rfl, hv⟩
      · obtain ⟨v, hv⟩ := quoted_iff.mp ⟨hlen, hends⟩
        exact hquoted ⟨_, v, Or.inr rfl, hv⟩
    rw [hplain]
    constructor
    · intro hvalue
      exact Or.inr ⟨fun q v hq hraw => hquoted ⟨q, v, hq, hraw⟩, hvalue.symm⟩
    · intro h
      rcases h with ⟨q, hq, hraw⟩ | ⟨_, hvalue⟩
      · exact absurd ⟨q, value, hq, hraw⟩ hquoted
      · exact hvalue.symm

/-! ## Loading -/

/-- What a line makes of a variable that is not set. -/
def valueIn (name line : Str) : Option Str :=
  (binding line).bind (fun b => if b.1 = name then some (unquote b.2) else none)

theorem valueIn_eq_some_iff {name line value : Str} :
    valueIn name line = some value ↔ ∃ raw, SetsTo line name raw ∧ Unquoted raw value := by
  unfold valueIn
  rw [Option.bind_eq_some_iff]
  constructor
  · intro ⟨⟨name', raw⟩, hbinding, hvalue⟩
    by_cases hname : name' = name
    · rw [if_pos hname, Option.some.injEq] at hvalue
      subst hname
      exact ⟨raw, binding_eq_some_iff.mp hbinding, unquote_eq_iff.mp hvalue⟩
    · rw [if_neg hname] at hvalue
      cases hvalue
  · intro ⟨raw, hsets, hvalue⟩
    refine ⟨(name, raw), binding_eq_some_iff.mpr hsets, ?_⟩
    rw [if_pos rfl, unquote_eq_iff.mpr hvalue]

theorem valueIn_eq_none_iff {name line : Str} :
    valueIn name line = none ↔ ∀ raw, ¬ SetsTo line name raw := by
  rw [Option.eq_none_iff_forall_ne_some]
  constructor
  · intro h raw hsets
    exact h _ (valueIn_eq_some_iff.mpr ⟨raw, hsets, unquote_eq_iff.mp rfl⟩)
  · intro h value hvalue
    obtain ⟨raw, hsets, _⟩ := valueIn_eq_some_iff.mp hvalue
    exact h raw hsets

theorem cStr_of_no_nul {s : Str} (h : 0 ∉ s) : cStr s = s := by
  unfold cStr
  rw [List.takeWhile_eq_self_iff]
  intro c hc
  rw [bne_iff_ne]
  intro hzero
  exact h (hzero ▸ hc)

/-- What is tried when a line gives a variable a value. -/
def dotenvStep (env : Environment) (name value : Str) : Environment :=
  if (getenv env name).isNone then fSetEnv env name value else env

theorem dotenvStep_apply {name value : Str} (hname : 0 ∉ name) (hvalue : 0 ∉ value)
    (hne : name ≠ []) (hequals : equals ∉ name) (env : Environment) (other : Str) :
    dotenvStep env name value other =
      (env other).or (if name = other then some value else none) := by
  unfold dotenvStep getenv fSetEnv
  rw [cStr_of_no_nul hname, cStr_of_no_nul hvalue]
  cases henv : env name with
  | some old =>
      by_cases hother : name = other
      · subst hother
        simp [henv]
      · simp [hother]
  | none =>
      by_cases hother : name = other
      · subst hother
        simp [henv, hne, hequals]
      · simp [hne, hequals, hother, Function.update_of_ne (Ne.symm hother)]

/-- **One line**: a variable that is set stays, any other gets what the line
gives it. -/
theorem dotenvLine_apply {line : Str} (hnul : 0 ∉ line) (env : Environment) (name : Str) :
    dotenvLine env line name = (env name).or (valueIn name line) := by
  have htrimmed : 0 ∉ fTrim line := fun h => hnul (mem_of_mem_fTrim h)
  unfold dotenvLine valueIn binding
  by_cases hcomment : (fTrim line).head? = some hash
  · simp [hcomment]
  · cases hcut : cut equals (fTrim line) with
    | none => simp [hcomment]
    | some parts =>
        obtain ⟨before, after⟩ := parts
        obtain ⟨hline, hbefore⟩ := cut_eq_some_iff.mp hcut
        have hne : fTrim line ≠ [] := by simp [hline]
        by_cases hname : fTrim before = []
        · simp [hcomment, hname]
        · have hnulName : 0 ∉ fTrim before := fun h =>
            htrimmed (hline ▸ List.mem_append_left _ (mem_of_mem_fTrim h))
          have hnulValue : 0 ∉ unquote (fTrim after) := fun h =>
            htrimmed (hline ▸ List.mem_append_right _
              (List.mem_cons_of_mem _ (mem_of_mem_fTrim (mem_of_mem_unquote h))))
          have hequals : equals ∉ fTrim before := fun h => hbefore (mem_of_mem_fTrim h)
          have hset : dotenvStep env (fTrim before) (unquote (fTrim after)) name =
              (env name).or
                (if fTrim before = name then some (unquote (fTrim after)) else none) :=
            dotenvStep_apply hnulName hnulValue hname hequals env name
          simpa [hne, hcomment, hname, dotenvStep] using hset

/-- **The whole file**: of the lines for one variable the first counts. -/
theorem fLoadDotenv_apply {content : Str} (hnul : 0 ∉ content) (env : Environment) (name : Str) :
    fLoadDotenv (some content) env name =
      (env name).or ((lines newline content).findSome? (valueIn name)) := by
  have hlines : ∀ line ∈ lines newline content, 0 ∉ line := fun line hline h =>
    hnul (mem_of_mem_lines hline h)
  show ((lines newline content).foldl dotenvLine env) name = _
  generalize lines newline content = ls at hlines ⊢
  induction ls generalizing env with
  | nil => simp
  | cons line ls ih =>
      rw [List.foldl_cons, ih _ (fun l hl => hlines l (List.mem_cons_of_mem line hl)),
        dotenvLine_apply (hlines line List.mem_cons_self), List.findSome?_cons, Option.or_assoc]
      cases valueIn name line <;> rfl

/-- `name="value"`. -/
def quotedLine (name value : Str) : Str := name ++ equals :: doubleQuote :: (value ++ [doubleQuote])

theorem trimmed_quotes (value : Str) : Trimmed (doubleQuote :: (value ++ [doubleQuote])) := by
  refine ⟨?_, ?_⟩
  · intro c hc
    cases hc
    decide
  · intro c hc
    rw [← List.cons_append, List.getLast?_concat, Option.mem_some_iff] at hc
    subst hc
    decide

/-- Such a line says what it looks like. -/
theorem setsTo_quotedLine {name : Str} (value : Str) (hne : name ≠ []) (hequals : equals ∉ name)
    (htrimmed : Trimmed name) (hhash : name.head? ≠ some hash) :
    SetsTo (quotedLine name value) name (doubleQuote :: (value ++ [doubleQuote])) := by
  have hhead : (quotedLine name value).head? = name.head? := List.head?_append_of_ne_nil name hne
  have hline : fTrim (quotedLine name value) = quotedLine name value := by
    refine fTrim_of_trimmed ⟨?_, ?_⟩
    · rw [hhead]
      exact htrimmed.1
    · have hlast : (quotedLine name value).getLast? =
          (doubleQuote :: (value ++ [doubleQuote])).getLast? := by
        unfold quotedLine
        rw [List.getLast?_append_of_ne_nil _ (List.cons_ne_nil _ _),
          List.getLast?_cons_of_ne_nil (List.cons_ne_nil _ _)]
      rw [hlast]
      exact (trimmed_quotes value).2
  refine ⟨?_, name, doubleQuote :: (value ++ [doubleQuote]), hline, hequals,
    fTrim_of_trimmed htrimmed, hne, fTrim_of_trimmed (trimmed_quotes value)⟩
  rw [hline, hhead]
  exact hhash

/-- The lines around one that stands by itself. -/
theorem lines_around {pre line post : Str} (hline : newline ∉ line) (hne : line ≠ [])
    (hpre : pre = [] ∨ pre.getLast? = some newline)
    (hpost : post = [] ∨ post.head? = some newline) :
    ∃ rest, lines newline (pre ++ (line ++ post)) = lines newline pre ++ line :: rest := by
  have hafter : ∃ rest, lines newline (line ++ post) = line :: rest := by
    rcases hpost with hnil | hhead
    · subst hnil
      rw [List.append_nil]
      exact ⟨[], lines_of_not_mem hline hne⟩
    · obtain ⟨post', hpost'⟩ := List.head?_eq_some_iff.mp hhead
      rw [hpost']
      exact ⟨lines newline post', lines_append_cons hline post'⟩
  obtain ⟨rest, hrest⟩ := hafter
  refine ⟨rest, ?_⟩
  rcases hpre with hnil | hlast
  · subst hnil
    rw [List.nil_append, hrest, lines_nil, List.nil_append]
  · obtain ⟨before, hbefore⟩ := List.getLast?_eq_some_iff.mp hlast
    rw [hbefore, List.append_assoc, List.singleton_append, lines_append, hrest]

/-- **`.env` loading.**  What is set stays; any other variable is set exactly
when a line gives it a text, to that of the first such line without its quotes.
So a first line `name="value"` gives `value` as it stands. -/
theorem fLoadDotenv_loads {content : Str} (hnul : 0 ∉ content) (env : Environment) (name : Str) :
    (∀ value, env name = some value → fLoadDotenv (some content) env name = some value) ∧
    (env name = none →
      ((fLoadDotenv (some content) env name).isSome ↔
        ∃ line ∈ lines newline content, ∃ raw, SetsTo line name raw) ∧
      (∀ value, fLoadDotenv (some content) env name = some value ↔
        ∃ before line after raw, lines newline content = before ++ line :: after ∧
          (∀ earlier ∈ before, ∀ r, ¬ SetsTo earlier name r) ∧
          SetsTo line name raw ∧ Unquoted raw value) ∧
      ∀ value pre post, name ≠ [] → equals ∉ name → newline ∉ name → Trimmed name →
        name.head? ≠ some hash → newline ∉ value →
        (pre = [] ∨ pre.getLast? = some newline) → (post = [] ∨ post.head? = some newline) →
        content = pre ++ (quotedLine name value ++ post) →
        (∀ earlier ∈ lines newline pre, ∀ r, ¬ SetsTo earlier name r) →
        fLoadDotenv (some content) env name = some value) := by
  rw [fLoadDotenv_apply hnul]
  refine ⟨?_, ?_⟩
  · intro value hvalue
    rw [hvalue, Option.some_or]
  · intro hunset
    rw [hunset, Option.none_or]
    have hfirst : ∀ value, (lines newline content).findSome? (valueIn name) = some value ↔
        ∃ before line after raw, lines newline content = before ++ line :: after ∧
          (∀ earlier ∈ before, ∀ r, ¬ SetsTo earlier name r) ∧
          SetsTo line name raw ∧ Unquoted raw value := by
      intro value
      rw [List.findSome?_eq_some_iff]
      constructor
      · intro ⟨before, line, after, hlines, hvalue, hnone⟩
        obtain ⟨raw, hsets, hraw⟩ := valueIn_eq_some_iff.mp hvalue
        exact ⟨before, line, after, raw, hlines,
          fun l hl => valueIn_eq_none_iff.mp (hnone l hl), hsets, hraw⟩
      · intro ⟨before, line, after, raw, hlines, hnone, hsets, hraw⟩
        exact ⟨before, line, after, hlines, valueIn_eq_some_iff.mpr ⟨raw, hsets, hraw⟩,
          fun l hl => valueIn_eq_none_iff.mpr (hnone l hl)⟩
    refine ⟨?_, hfirst, ?_⟩
    · rw [List.findSome?_isSome_iff]
      constructor
      · intro ⟨line, hline, hsome⟩
        obtain ⟨value, hvalue⟩ := Option.isSome_iff_exists.mp hsome
        obtain ⟨raw, hsets, _⟩ := valueIn_eq_some_iff.mp hvalue
        exact ⟨line, hline, raw, hsets⟩
      · intro ⟨line, hline, raw, hsets⟩
        refine ⟨line, hline, Option.isSome_iff_exists.mpr ⟨unquote raw, ?_⟩⟩
        exact valueIn_eq_some_iff.mpr ⟨raw, hsets, unquote_eq_iff.mp rfl⟩
    · intro value pre post hne hequals hnewline htrimmed hhash hvalue hpre hpost hcontent hearlier
      have hsingle : newline ∉ quotedLine name value := by
        have hother : newline ≠ equals ∧ newline ≠ doubleQuote := by decide
        simp [quotedLine, hnewline, hvalue, hother]
      have hline : quotedLine name value ≠ [] := by simp [quotedLine]
      obtain ⟨rest, hrest⟩ := lines_around hsingle hline hpre hpost
      refine (hfirst value).mpr ⟨lines newline pre, quotedLine name value, rest,
        doubleQuote :: (value ++ [doubleQuote]), ?_, hearlier, ?_, ?_⟩
      · rw [hcontent, hrest]
      · exact setsTo_quotedLine value hne hequals htrimmed hhash
      · exact Or.inl ⟨doubleQuote, Or.inl rfl, rfl⟩

/-- A comment, a quoted value and a second line for the same variable. -/
theorem fLoadDotenv_loads_quoted :
    fLoadDotenv (some (str "# a\nK=\" x=# \"\nK=y")) (fun _ => none) (str "K") =
      some (str " x=# ") := by
  have hnul : 0 ∉ str "# a\nK=\" x=# \"\nK=y" := by decide +kernel
  have hloads := (fLoadDotenv_loads hnul (fun _ => none) (str "K")).2 rfl
  refine hloads.2.2 (str " x=# ") (str "# a\n") (str "\nK=y") (by decide +kernel)
    (by decide +kernel) (by decide +kernel) ⟨by decide +kernel, by decide +kernel⟩
    (by decide +kernel) (by decide +kernel) (Or.inr (by decide +kernel))
    (Or.inr (by decide +kernel)) (by decide +kernel) ?_
  intro earlier hearlier raw hsets
  have hcomment : earlier = str "# a" := by
    have hlines : lines newline (str "# a\n") = [str "# a"] := by decide +kernel
    rwa [hlines, List.mem_singleton] at hearlier
  rw [hcomment] at hsets
  exact hsets.1 (by decide +kernel)

end Lectern
