import Lectern.Dotenv
import Lectern.Text.Decimal

/-!
# Finding the browser

Chromium writes the port and the path of its DevTools socket into a file while
the server looks at it again and again, so a look may find a part of the file
only.  What is returned is decided by the first look that finds something of the
path: the port is the whole one, the path is what that look found of it.
-/

namespace Lectern.Export

open Decimal

/-- `std::stoi`; `none` where it throws. -/
def stoi (s : Str) : Option Int :=
  (Decimal.scan isSpace (cStr s)).filter (fun v => -2147483648 ≤ v ∧ v ≤ 2147483647)

/-- `fSplit`. -/
def fSplit (s : Str) (sep : UInt8) : List Str := s.splitOnP (fun c => c == sep)

/-- What one look at `DevToolsActivePort` makes of its contents. -/
def readPort (contents : Str) : Option (UInt16 × Str) :=
  match fSplit contents newline with
  | first :: second :: _ =>
      match stoi (fTrim first) with
      | none => none
      | some n =>
          let port := UInt16.ofInt n
          let path := fTrim second
          if port ≠ 0 ∧ path ≠ [] then some (port, path) else none
  | _ => none

/-- `fWaitForDevtoolsPort`, from what each look before the deadline finds. -/
def fWaitForDevtoolsPort (looks : List (Option Str)) : Except AppError (UInt16 × Str) :=
  match looks.findSome? (fun look => look.bind readPort) with
  | some found => .ok found
  | none => .error (.fInternal (str "the PDF renderer never became ready"))

/-- The file when the browser has written all of it. -/
def portFile (port : UInt16) (path : Str) : Str := print port.toNat ++ newline :: path

/-! ## One look -/

theorem isSpace_of_isDigit {c : UInt8} (h : isDigit c = true) : isSpace c = false := by
  rw [isDigit_iff] at h
  unfold isSpace
  rw [Bool.or_eq_false_iff, Bool.and_eq_false_iff, beq_eq_false_iff_ne, decide_eq_false_iff_not,
    decide_eq_false_iff_not, UInt8.le_iff_toNat_le, UInt8.le_iff_toNat_le]
  refine ⟨?_, Or.inr ?_⟩
  · rintro rfl
    exact absurd h.1 (by decide)
  · exact fun hle => absurd (Nat.le_trans h.1 hle) (by decide)

theorem trimmed_of_forall {s : Str} (h : ∀ c ∈ s, isSpace c = false) : Trimmed s :=
  ⟨fun c hc => h c (List.mem_of_mem_head? hc), fun c hc => h c (List.mem_of_mem_getLast? hc)⟩

theorem stoi_print (port : UInt16) : stoi (print port.toNat) = some (port.toNat : Int) := by
  have hzero : cStr (print port.toNat) = print port.toNat := by
    refine List.takeWhile_eq_self_iff.mpr ?_
    intro c hc
    have hdigit := isDigit_of_mem_print hc
    rw [bne_iff_ne]
    rintro rfl
    exact absurd hdigit (by decide)
  have hscan : Decimal.scan isSpace (print port.toNat ++ []) = some (port.toNat : Int) :=
    scan_print (fun c hc => isSpace_of_isDigit hc) port.toNat (by simp)
  rw [List.append_nil] at hscan
  have hsmall := port.toNat_lt
  unfold stoi
  rw [hzero, hscan, Option.filter_some, if_pos]
  rw [decide_eq_true_eq]
  omega

theorem newline_not_mem_print (n : Nat) : ∀ c ∈ print n, (c == newline) = false := by
  intro c hc
  have hdigit := isDigit_of_mem_print hc
  rw [beq_eq_false_iff_ne]
  rintro rfl
  exact absurd hdigit (by decide)

/-- The file up to some part of the path. -/
theorem readPort_portFile {port : UInt16} (hport : port ≠ 0) {path : Str}
    (hpath : ∀ c ∈ path, isSpace c = false) :
    readPort (portFile port path) = if path = [] then none else some (port, path) := by
  have hnewline : ∀ c ∈ path, (c == newline) = false := by
    intro c hc
    rw [beq_eq_false_iff_ne]
    rintro rfl
    exact absurd (hpath newline hc) (by decide)
  have hsplit : fSplit (portFile port path) newline = [print port.toNat, path] := by
    unfold fSplit portFile
    rw [List.splitOnP_append_cons_of_forall_mem (newline_not_mem_print port.toNat) newline (by simp),
      List.splitOnP_eq_singleton hnewline]
  have hfirst := fTrim_of_trimmed (trimmed_of_forall (s := print port.toNat)
    (fun c hc => isSpace_of_isDigit (isDigit_of_mem_print hc)))
  have hsecond := fTrim_of_trimmed (trimmed_of_forall hpath)
  unfold readPort
  have hcast : UInt16.ofInt (port.toNat : Int) = port := by
    have hsmall := port.toNat_lt
    refine UInt16.toNat_inj.mp ?_
    unfold UInt16.ofInt
    rw [UInt16.toNat_ofNat']
    omega
  rw [hsplit]
  simp only [hfirst, stoi_print, hsecond, hcast, ne_eq, hport, not_false_eq_true, true_and]
  by_cases hnil : path = [] <;> simp [hnil]

/-- What a look may find while the browser writes. -/
theorem readPort_of_prefix {port : UInt16} (hport : port ≠ 0) {path contents : Str}
    (hpath : ∀ c ∈ path, isSpace c = false) (h : contents <+: portFile port path) :
    readPort contents = none ∧ contents.length ≤ (print port.toNat).length + 1 ∨
      ∃ part, part ≠ [] ∧ part <+: path ∧ contents = portFile port part ∧
        readPort contents = some (port, part) := by
  have hline : print port.toNat ++ [newline] <+: portFile port path := by
    refine ⟨path, ?_⟩
    rw [List.append_assoc]
    rfl
  rcases List.prefix_or_prefix_of_prefix h hline with hshort | ⟨part, rfl⟩
  · refine Or.inl ⟨?_, by simpa using hshort.length_le⟩
    rcases List.prefix_concat_iff.mp hshort with rfl | hdigits
    · have hempty : readPort (portFile port []) = none := readPort_portFile hport (by simp)
      exact hempty
    · have hsplit : fSplit contents newline = [contents] :=
        List.splitOnP_eq_singleton
          (fun c hc => newline_not_mem_print port.toNat c (hdigits.subset hc))
      unfold readPort
      rw [hsplit]
  · have hfile : print port.toNat ++ [newline] ++ part = portFile port part := by
      rw [List.append_assoc]
      rfl
    have hpart : part <+: path := by
      rw [hfile] at h
      exact (List.prefix_cons_inj newline).mp ((List.prefix_append_right_inj _).mp h)
    rw [hfile]
    have hread := readPort_portFile hport (fun c hc => hpath c (hpart.subset hc))
    by_cases hnil : part = []
    · rw [if_pos hnil] at hread
      refine Or.inl ⟨hread, ?_⟩
      rw [hnil]
      simp [portFile]
    · rw [if_neg hnil] at hread
      exact Or.inr ⟨part, hnil, hpart, rfl, hread⟩

/-! ## Waiting -/

section Waiting

variable {port : UInt16} {path : Str} {look : Option Str}

/-- A look past the line of the port. -/
theorem look_some (hport : port ≠ 0) (hpath : ∀ c ∈ path, isSpace c = false)
    (hlook : ∀ contents ∈ look, contents <+: portFile port path) {found : UInt16 × Str} :
    look.bind readPort = some found ↔
      ∃ part, part ≠ [] ∧ look = some (portFile port part) ∧ found = (port, part) := by
  constructor
  · intro h
    obtain ⟨contents, rfl, hread⟩ := Option.bind_eq_some_iff.mp h
    rcases readPort_of_prefix hport hpath (hlook contents rfl) with
      ⟨hnone, _⟩ | ⟨part, hne, _, rfl, hsome⟩
    · cases hnone.symm.trans hread
    · exact ⟨part, hne, rfl, Option.some.inj (hread.symm.trans hsome)⟩
  · rintro ⟨part, hne, rfl, rfl⟩
    rcases readPort_of_prefix hport hpath (hlook _ rfl) with
      ⟨_, hshort⟩ | ⟨part', _, _, hsame, hsome⟩
    · have hpart := List.length_pos_of_ne_nil hne
      simp only [portFile, List.length_append, List.length_cons] at hshort
      omega
    · rw [Option.bind_some, hsome]
      simp only [portFile, List.append_cancel_left_eq, List.cons.injEq, true_and] at hsame
      rw [hsame]

/-- A look that found no more than the line of the port. -/
theorem look_none (hport : port ≠ 0) (hpath : ∀ c ∈ path, isSpace c = false)
    (hlook : ∀ contents ∈ look, contents <+: portFile port path) :
    look.bind readPort = none ↔
      ∀ contents ∈ look, contents.length ≤ (print port.toNat).length + 1 := by
  constructor
  · rintro h contents rfl
    rcases readPort_of_prefix hport hpath (hlook contents rfl) with
      ⟨_, hshort⟩ | ⟨part, _, _, _, hsome⟩
    · exact hshort
    · cases h.symm.trans hsome
  · intro hshort
    cases look with
    | none => rfl
    | some contents =>
        rcases readPort_of_prefix hport hpath (hlook contents rfl) with
          ⟨hnone, _⟩ | ⟨part, hne, _, rfl, _⟩
        · exact hnone
        · have hlength := hshort _ rfl
          have hpart := List.length_pos_of_ne_nil hne
          simp only [portFile, List.length_append, List.length_cons] at hlength
          omega

end Waiting

/-- **The first look that finds something of the path decides.**  While the
browser writes the file, a look finds nothing or a part of it.  The port
returned is the browser's; the path is what the first look that got past the
line of the port found of the path; and something is returned once a look finds
the whole file. -/
theorem devtools_port (port : UInt16) (hport : port ≠ 0) (path : Str)
    (hpath : ∀ c ∈ path, isSpace c = false) (looks : List (Option Str))
    (hlooks : ∀ look ∈ looks, ∀ contents ∈ look, contents <+: portFile port path) :
    (∀ found, fWaitForDevtoolsPort looks = .ok found ↔
      ∃ before part after, looks = before ++ some (portFile port part) :: after ∧ part ≠ [] ∧
        found = (port, part) ∧
        ∀ look ∈ before, ∀ contents ∈ look, contents.length ≤ (print port.toNat).length + 1) ∧
    (path ≠ [] → some (portFile port path) ∈ looks → ∃ part, part ≠ [] ∧ part <+: path ∧
      fWaitForDevtoolsPort looks = .ok (port, part)) := by
  have hok (found : UInt16 × Str) : fWaitForDevtoolsPort looks = .ok found ↔
      looks.findSome? (fun look => look.bind readPort) = some found := by
    unfold fWaitForDevtoolsPort
    cases looks.findSome? (fun look => look.bind readPort) <;> simp
  refine ⟨?_, ?_⟩
  · intro found
    rw [hok, List.findSome?_eq_some_iff]
    constructor
    · rintro ⟨before, look, after, rfl, hfound, hbefore⟩
      obtain ⟨part, hne, rfl, rfl⟩ := (look_some hport hpath (hlooks look (by simp))).mp hfound
      refine ⟨before, part, after, rfl, hne, rfl, ?_⟩
      intro look hlook
      exact (look_none hport hpath (hlooks look (List.mem_append_left _ hlook))).mp
        (hbefore look hlook)
    · rintro ⟨before, part, after, rfl, hne, rfl, hbefore⟩
      refine ⟨before, _, after, rfl, ?_, ?_⟩
      · exact (look_some hport hpath (hlooks _ (by simp))).mpr ⟨part, hne, rfl, rfl⟩
      · intro look hlook
        exact (look_none hport hpath (hlooks look (List.mem_append_left _ hlook))).mpr
          (hbefore look hlook)
  · intro hne hwhole
    cases hfind : looks.findSome? (fun look => look.bind readPort) with
    | none =>
        have hread := List.findSome?_eq_none_iff.mp hfind _ hwhole
        rw [Option.bind_some, readPort_portFile hport hpath, if_neg hne] at hread
        cases hread
    | some found =>
        obtain ⟨before, look, after, rfl, hfound, _⟩ := List.findSome?_eq_some_iff.mp hfind
        have hlook := hlooks look (by simp)
        obtain ⟨part, hpart, rfl, rfl⟩ := (look_some hport hpath hlook).mp hfound
        refine ⟨part, hpart, ?_, (hok _).mpr hfind⟩
        exact (List.prefix_cons_inj newline).mp
          ((List.prefix_append_right_inj _).mp (hlook _ rfl))

/-- Two looks come too early, the third finds the whole file. -/
theorem devtools_port_third :
    fWaitForDevtoolsPort [none, some (str "922"), some (str "9222\n/devtools")] =
      .ok (9222, str "/devtools") := by
  have hspace : ∀ c ∈ str "/devtools", isSpace c = false := by decide +kernel
  have hlooks : ∀ look ∈ [none, some (str "922"), some (str "9222\n/devtools")],
      ∀ contents ∈ look, contents <+: portFile 9222 (str "/devtools") := by
    decide +kernel
  exact ((devtools_port 9222 (by decide) (str "/devtools") hspace _ hlooks).1 _).mpr
    ⟨[none, some (str "922")], str "/devtools", [], by decide, by decide, rfl, by decide⟩

end Lectern.Export
