import Lectern.Basic

/-!
# Workspace-relative paths

`fSafeRelPath` reads a byte string once, cutting it into segments at either
separator, and throws on anything that could leave the workspace.  The loop is
modelled with its two accumulators; `scan_eq` says what it computes, and
`fSafeRelPath_eq_ok_iff` turns that into the grammar of accepted paths.

A *key* is what the function returns: the segments joined by single slashes.
Keys and lists of valid names determine each other (`pathOf_keyOf`,
`keyOf_pathOf`), so the string a handler stores in the database and the path
it opens on disk name the same entry.
-/

namespace Lectern

def isSeparator (c : UInt8) : Bool := c == slash || c == backslash

def invalidPath : AppError := .fBadRequest (str "invalid path")

/-- The loop's state: the finished segments and the one being read. -/
structure Scan where
  segments : List Str
  current : Str
  deriving DecidableEq, Repr

/-- End the current segment. -/
def fFlush (st : Scan) : Except AppError Scan :=
  if st.current = [] then .ok st
  else if st.current = str "." then .ok ⟨st.segments, []⟩
  else if st.current = str ".." then .error invalidPath
  else if colon ∈ st.current then .error invalidPath
  else .ok ⟨st.segments ++ [st.current], []⟩

/-- The `for` loop over the characters. -/
def scan : Scan → Str → Except AppError Scan
  | st, [] => .ok st
  | st, c :: cs =>
      if isSeparator c then
        match fFlush st with
        | .ok st' => scan st' cs
        | .error e => .error e
      else if c = 0 then .error invalidPath
      else scan ⟨st.segments, st.current ++ [c]⟩ cs

/-- `out += "/"; out += segment`, from the first segment on. -/
def joinSegments (first : Str) (rest : List Str) : Str :=
  rest.foldl (fun out segment => out ++ slash :: segment) first

def fSafeRelPath (relPath : Str) : Except AppError Str :=
  match relPath with
  | [] => .error invalidPath
  | c :: _ =>
      if isSeparator c then .error invalidPath
      else
        match scan ⟨[], []⟩ relPath with
        | .error e => .error e
        | .ok st =>
            match fFlush st with
            | .error e => .error e
            | .ok st' =>
                match st'.segments with
                | [] => .error invalidPath
                | first :: rest => .ok (joinSegments first rest)

/-! ## Names, paths and keys -/

/-- A segment the loop may push: neither empty nor a dot segment, and free of
separators, colons and NUL. -/
def ValidName (n : Str) : Prop :=
  n ≠ [] ∧ n ≠ str "." ∧ n ≠ str ".." ∧ colon ∉ n ∧ 0 ∉ n ∧ ∀ c ∈ n, isSeparator c = false

instance (n : Str) : Decidable (ValidName n) :=
  letI : Decidable (∀ c ∈ n, isSeparator c = false) :=
    List.decidableBAll (fun c => isSeparator c = false) n
  inferInstanceAs (Decidable
    (n ≠ [] ∧ n ≠ str "." ∧ n ≠ str ".." ∧ colon ∉ n ∧ 0 ∉ n ∧ ∀ c ∈ n, isSeparator c = false))

/-- A path inside a workspace: at least one name, all of them valid. -/
def ValidPath (p : List Str) : Prop := p ≠ [] ∧ ∀ n ∈ p, ValidName n

instance (p : List Str) : Decidable (ValidPath p) := by
  unfold ValidPath
  infer_instance

/-- The key of a path: its names joined by single slashes. -/
def keyOf (p : List Str) : Str := [slash].intercalate p

/-- `root / rel` as the file system reads it: the components of `rel`, a
repeated separator counting once. -/
def pathOf (rel : Str) : List Str := (rel.splitOn slash).filter (fun n => n != [])

/-- The segments of a byte string that name something. -/
def cleanSegments (s : Str) : List Str :=
  (s.splitOnP isSeparator).filter (fun n => n != [] && n != str ".")

/-- A segment that is not refused. -/
def Harmless (n : Str) : Prop := n ≠ str ".." ∧ colon ∉ n

instance (n : Str) : Decidable (Harmless n) := by
  unfold Harmless
  infer_instance

/-- The grammar of accepted paths. -/
def Accepted (s : Str) : Prop :=
  (∀ c ∈ s.head?, isSeparator c = false) ∧ 0 ∉ s ∧
    (∀ n ∈ s.splitOnP isSeparator, Harmless n) ∧ cleanSegments s ≠ []

theorem joinSegments_eq (first : Str) (rest : List Str) :
    joinSegments first rest = keyOf (first :: rest) := by
  unfold joinSegments
  induction rest generalizing first with
  | nil => simp [keyOf]
  | cons second rest ih =>
      rw [List.foldl_cons, ih]
      unfold keyOf
      cases rest with
      | nil => simp
      | cons third rest => simp

/-! ## What the loop computes -/

/-- Keep the segments that name something. -/
def clean (pieces : List Str) : List Str :=
  pieces.filter (fun n => n != [] && n != str ".")

theorem fFlush_eq (st : Scan) :
    fFlush st =
      if Harmless st.current then .ok ⟨st.segments ++ clean [st.current], []⟩
      else .error invalidPath := by
  rcases st with ⟨segments, current⟩
  unfold fFlush
  by_cases hempty : current = []
  · subst hempty
    have hgood : Harmless [] := by decide
    simp [hgood, clean]
  · by_cases hdot : current = str "."
    · subst hdot
      have hgood : Harmless (str ".") := by decide
      simp [hempty, hgood, clean]
    · by_cases hdots : current = str ".."
      · subst hdots
        have hbad : ¬ Harmless (str "..") := by decide
        simp only [hempty, hdot, if_false, if_true, hbad]
      · by_cases hcolon : colon ∈ current
        · simp [hempty, hdot, hdots, hcolon, Harmless]
        · simp [hempty, hdot, hdots, hcolon, Harmless, clean]

/-- The pieces still to be judged: those of the unread text, the first one
continuing the segment being read. -/
def pieces (current s : Str) : List Str :=
  (s.splitOnP isSeparator).modifyHead (current ++ ·)

theorem pieces_separator {c : UInt8} (hc : isSeparator c = true) (current cs : Str) :
    pieces current (c :: cs) = current :: pieces [] cs := by
  have hid : (cs.splitOnP isSeparator).modifyHead (fun x => [] ++ x) =
      cs.splitOnP isSeparator := by
    cases cs.splitOnP isSeparator <;> rfl
  unfold pieces
  rw [hid, List.splitOnP_cons_eq_if_modifyHead, if_pos hc]
  simp

theorem pieces_letter {c : UInt8} (hc : isSeparator c = false) (current cs : Str) :
    pieces current (c :: cs) = pieces (current ++ [c]) cs := by
  unfold pieces
  rw [List.splitOnP_cons_eq_if_modifyHead, hc]
  cases cs.splitOnP isSeparator <;> simp

/-- The loop and the final flush: refuse when a NUL is read or a piece is not
harmless, otherwise keep the pieces that name something. -/
theorem scan_eq (s : Str) (segments : List Str) (current : Str) :
    (scan ⟨segments, current⟩ s).bind fFlush =
      if 0 ∉ s ∧ ∀ n ∈ pieces current s, Harmless n then
        .ok ⟨segments ++ clean (pieces current s), []⟩
      else .error invalidPath := by
  induction s generalizing segments current with
  | nil =>
      have hpieces : pieces current [] = [current] := by simp [pieces]
      rw [hpieces]
      simpa [scan, Except.bind] using fFlush_eq ⟨segments, current⟩
  | cons c cs ih =>
      by_cases hsep : isSeparator c = true
      · have hzero : c ≠ 0 := by
          rintro rfl
          simp [isSeparator, slash, backslash] at hsep
        rw [pieces_separator hsep]
        have hclean (xs : List Str) :
            segments ++ clean (current :: xs) = segments ++ clean [current] ++ clean xs := by
          rw [List.append_assoc]
          exact congrArg (segments ++ ·) (List.filter_append [current] xs)
        by_cases hgood : Harmless current
        · have hflush := fFlush_eq ⟨segments, current⟩
          rw [if_pos hgood] at hflush
          have hstep : scan ⟨segments, current⟩ (c :: cs) =
              scan ⟨segments ++ clean [current], []⟩ cs := by
            simp [scan, hsep, hflush]
          have hmem : 0 ∉ c :: cs ↔ 0 ∉ cs := by
            rw [List.mem_cons, not_or]
            exact ⟨fun h => h.2, fun h => ⟨fun h₀ => hzero h₀.symm, h⟩⟩
          rw [hstep, ih, hclean (pieces [] cs)]
          simp only [hmem, List.forall_mem_cons, hgood, true_and]
        · have hflush := fFlush_eq ⟨segments, current⟩
          rw [if_neg hgood] at hflush
          simp [scan, hsep, hflush, hgood, Except.bind]
      · have hletter : isSeparator c = false := by simpa using hsep
        rw [pieces_letter hletter]
        by_cases hzero : c = 0
        · subst hzero
          simp [scan, hletter, Except.bind]
        · have hstep : scan ⟨segments, current⟩ (c :: cs) =
              scan ⟨segments, current ++ [c]⟩ cs := by
            simp [scan, hletter, hzero]
          have hmem : 0 ∉ c :: cs ↔ 0 ∉ cs := by
            rw [List.mem_cons, not_or]
            exact ⟨fun h => h.2, fun h => ⟨fun h₀ => hzero h₀.symm, h⟩⟩
          rw [hstep, ih]
          simp only [hmem]

theorem pieces_nil (s : Str) : pieces [] s = s.splitOnP isSeparator := by
  unfold pieces
  cases s.splitOnP isSeparator <;> rfl

/-- **The grammar.**  A byte string is accepted exactly when it is `Accepted`,
and the result is the key of its clean segments. -/
theorem fSafeRelPath_eq_ok_iff (s k : Str) :
    fSafeRelPath s = .ok k ↔ Accepted s ∧ k = keyOf (cleanSegments s) := by
  cases s with
  | nil => simp [fSafeRelPath, Accepted, cleanSegments]
  | cons c cs =>
      by_cases hsep : isSeparator c = true
      · simp [fSafeRelPath, Accepted, hsep]
      · have hloop := scan_eq (c :: cs) [] []
        rw [pieces_nil] at hloop
        have hhead : ∀ x ∈ (c :: cs).head?, isSeparator x = false := by simpa using hsep
        unfold fSafeRelPath Accepted
        simp only [hsep, Bool.false_eq_true, if_false]
        cases hscan : scan ⟨[], []⟩ (c :: cs) with
        | error e =>
            rw [hscan] at hloop
            by_cases hgood : 0 ∉ c :: cs ∧ ∀ n ∈ (c :: cs).splitOnP isSeparator, Harmless n
            · rw [if_pos hgood] at hloop
              cases hloop
            · simp only [reduceCtorEq, false_iff]
              rintro ⟨⟨_, h₀, h₁, _⟩, _⟩
              exact hgood ⟨h₀, h₁⟩
        | ok st =>
            rw [hscan] at hloop
            simp only [Except.bind] at hloop
            by_cases hgood : 0 ∉ c :: cs ∧ ∀ n ∈ (c :: cs).splitOnP isSeparator, Harmless n
            · rw [if_pos hgood, List.nil_append] at hloop
              simp only [hloop]
              have hclean : clean ((c :: cs).splitOnP isSeparator) = cleanSegments (c :: cs) := rfl
              rw [hclean]
              cases hsegs : cleanSegments (c :: cs) with
              | nil => simp
              | cons first rest =>
                  simp only [joinSegments_eq, Except.ok.injEq]
                  constructor
                  · intro h
                    exact ⟨⟨hhead, hgood.1, hgood.2, by simp⟩, h.symm⟩
                  · intro h
                    exact h.2.symm
            · rw [if_neg hgood] at hloop
              simp only [hloop, reduceCtorEq, false_iff]
              rintro ⟨⟨_, h₀, h₁, _⟩, _⟩
              exact hgood ⟨h₀, h₁⟩

/-- Every refusal is the same error. -/
theorem fSafeRelPath_error {s : Str} {e : AppError} (h : fSafeRelPath s = .error e) :
    e = invalidPath := by
  cases s with
  | nil => simpa [fSafeRelPath] using h.symm
  | cons c cs =>
      unfold fSafeRelPath at h
      by_cases hsep : isSeparator c = true
      · simpa [hsep] using h.symm
      · have hloop := scan_eq (c :: cs) [] []
        simp only [hsep, Bool.false_eq_true, if_false] at h
        cases hscan : scan ⟨[], []⟩ (c :: cs) with
        | error e' =>
            rw [hscan] at h hloop
            have he : Except.error e' = Except.error (ε := AppError) (α := Scan) invalidPath := by
              simp only [Except.bind] at hloop
              split at hloop
              · cases hloop
              · exact hloop
            cases h
            cases he
            rfl
        | ok st =>
            rw [hscan] at h hloop
            simp only [Except.bind] at hloop
            cases hflush : fFlush st with
            | error e' =>
                rw [hflush] at hloop
                simp only [hflush, Except.error.injEq] at h
                split at hloop
                · cases hloop
                · cases hloop
                  exact h.symm
            | ok st' =>
                simp only [hflush] at h
                split at h <;> cases h
                rfl

/-! ## Keys and paths -/

/-- Splitting leaves no separator, and adds no character. -/
theorem mem_splitOnP {α : Type} {f : α → Bool} {s : List α} {n : List α}
    (hn : n ∈ s.splitOnP f) : ∀ c ∈ n, f c = false ∧ c ∈ s := by
  induction s generalizing n with
  | nil => simp_all
  | cons c cs ih =>
      rw [List.splitOnP_cons_eq_if_modifyHead] at hn
      by_cases hc : f c = true
      · rw [if_pos hc, List.mem_cons] at hn
        rcases hn with rfl | hn
        · simp
        · intro x hx
          exact ⟨(ih hn x hx).1, List.mem_cons_of_mem _ (ih hn x hx).2⟩
      · rw [if_neg hc] at hn
        cases hsplit : cs.splitOnP f with
        | nil => exact absurd hsplit (List.splitOnP_ne_nil _ _)
        | cons first rest =>
            rw [hsplit] at ih hn
            rw [List.modifyHead_cons, List.mem_cons] at hn
            intro x hx
            rcases hn with rfl | hn
            · rcases List.mem_cons.mp hx with rfl | hx
              · exact ⟨by simpa using hc, List.mem_cons_self⟩
              · have := ih List.mem_cons_self x hx
                exact ⟨this.1, List.mem_cons_of_mem _ this.2⟩
            · have := ih (List.mem_cons_of_mem _ hn) x hx
              exact ⟨this.1, List.mem_cons_of_mem _ this.2⟩

theorem validPath_cleanSegments {s : Str} (hs : Accepted s) : ValidPath (cleanSegments s) := by
  obtain ⟨_, hzero, hgood, hne⟩ := hs
  refine ⟨hne, ?_⟩
  intro n hn
  obtain ⟨hmem, hname⟩ := List.mem_filter.mp hn
  have hchars := mem_splitOnP hmem
  have hharmless := hgood n hmem
  simp only [Bool.and_eq_true, bne_iff_ne] at hname
  refine ⟨hname.1, hname.2, hharmless.1, hharmless.2, ?_, ?_⟩
  · intro h₀
    exact hzero (hchars 0 h₀).2
  · intro c hc
    exact (hchars c hc).1

theorem ValidName.no_slash {n : Str} (hn : ValidName n) : slash ∉ n := by
  intro h
  have := hn.2.2.2.2.2 slash h
  simp [isSeparator] at this

theorem keyOf_cons_cons (n m : Str) (p : List Str) :
    keyOf (n :: m :: p) = n ++ slash :: keyOf (m :: p) := by
  unfold keyOf
  rw [List.intercalate_cons_cons]
  simp

@[simp] theorem keyOf_singleton (n : Str) : keyOf [n] = n := by simp [keyOf]

/-- Joining two paths joins their keys by a slash. -/
theorem keyOf_append {p q : List Str} (hp : p ≠ []) (hq : q ≠ []) :
    keyOf (p ++ q) = keyOf p ++ slash :: keyOf q := by
  induction p with
  | nil => exact absurd rfl hp
  | cons n p ih =>
      cases p with
      | nil =>
          obtain ⟨m, q, rfl⟩ := List.exists_cons_of_ne_nil hq
          rw [List.singleton_append, keyOf_cons_cons, keyOf_singleton]
      | cons m p =>
          have hrec := ih (by simp)
          rw [List.cons_append, List.cons_append, keyOf_cons_cons, ← List.cons_append, hrec,
            keyOf_cons_cons]
          simp

/-- A key splits back into the names it was joined from. -/
theorem splitOnP_keyOf {p : List Str} (hp : ValidPath p) :
    (keyOf p).splitOnP isSeparator = p := by
  obtain ⟨hne, hvalid⟩ := hp
  induction p with
  | nil => exact absurd rfl hne
  | cons n p ih =>
      have hn := hvalid n List.mem_cons_self
      cases p with
      | nil =>
          rw [keyOf_singleton]
          exact List.splitOnP_eq_singleton hn.2.2.2.2.2
      | cons m p =>
          have hrest := ih (by simp) (fun x hx => hvalid x (List.mem_cons_of_mem _ hx))
          have hslash : isSeparator slash = true := rfl
          rw [keyOf_cons_cons,
            List.splitOnP_append_cons_of_forall_mem hn.2.2.2.2.2 slash hslash, hrest]

theorem filter_valid {p : List Str} (hp : ∀ n ∈ p, ValidName n) :
    p.filter (fun n => n != [] && n != str ".") = p := by
  rw [List.filter_eq_self]
  intro n hn
  have h := hp n hn
  simp [h.1, h.2.1]

theorem cleanSegments_keyOf {p : List Str} (hp : ValidPath p) : cleanSegments (keyOf p) = p := by
  unfold cleanSegments
  rw [splitOnP_keyOf hp]
  exact filter_valid hp.2

/-- On disk a key is the path it was joined from. -/
theorem pathOf_keyOf {p : List Str} (hp : ValidPath p) : pathOf (keyOf p) = p := by
  have hsplit : (keyOf p).splitOn slash = p :=
    List.splitOn_intercalate slash (fun n hn => (hp.2 n hn).no_slash) hp.1
  unfold pathOf
  rw [hsplit, List.filter_eq_self]
  intro n hn
  simp [(hp.2 n hn).1]

theorem keyOf_ne_nil {p : List Str} (hp : ValidPath p) : keyOf p ≠ [] := by
  intro hnil
  have hpath := pathOf_keyOf hp
  rw [hnil] at hpath
  exact hp.1 hpath.symm

theorem accepted_keyOf {p : List Str} (hp : ValidPath p) : Accepted (keyOf p) := by
  have hsplit := splitOnP_keyOf hp
  refine ⟨?_, ?_, ?_, ?_⟩
  · intro c hc
    obtain ⟨n, p, rfl⟩ := List.exists_cons_of_ne_nil hp.1
    have hn := hp.2 n List.mem_cons_self
    obtain ⟨c', n, rfl⟩ := List.exists_cons_of_ne_nil hn.1
    have hhead : (keyOf ((c' :: n) :: p)).head? = some c' := by
      cases p with
      | nil => rw [keyOf_singleton]; rfl
      | cons m p => rw [keyOf_cons_cons]; rfl
    rw [hhead, Option.mem_some_iff] at hc
    exact hc ▸ hn.2.2.2.2.2 c' List.mem_cons_self
  · have hzero : ∀ q : List Str, (∀ n ∈ q, ValidName n) → 0 ∉ keyOf q := by
      intro q
      induction q with
      | nil => simp [keyOf]
      | cons n q ih =>
          intro hq h₀
          have hn := hq n List.mem_cons_self
          cases q with
          | nil => exact hn.2.2.2.2.1 (by simpa using h₀)
          | cons m q =>
              rw [keyOf_cons_cons, List.mem_append, List.mem_cons] at h₀
              rcases h₀ with h₀ | h₀ | h₀
              · exact hn.2.2.2.2.1 h₀
              · exact absurd h₀ (by decide)
              · exact ih (fun x hx => hq x (List.mem_cons_of_mem _ hx)) h₀
    exact hzero p hp.2
  · rw [hsplit]
    intro n hn
    exact ⟨(hp.2 n hn).2.2.1, (hp.2 n hn).2.2.2.1⟩
  · rw [cleanSegments_keyOf hp]
    exact hp.1

/-- The key of a valid path is accepted and returned as it is. -/
theorem fSafeRelPath_keyOf {p : List Str} (hp : ValidPath p) :
    fSafeRelPath (keyOf p) = .ok (keyOf p) := by
  rw [fSafeRelPath_eq_ok_iff, cleanSegments_keyOf hp]
  exact ⟨accepted_keyOf hp, rfl⟩

/-- What an accepted string yields: a valid path, and its key. -/
theorem fSafeRelPath_ok {s k : Str} (h : fSafeRelPath s = .ok k) :
    ValidPath (pathOf k) ∧ keyOf (pathOf k) = k ∧ pathOf k = cleanSegments s := by
  obtain ⟨hs, rfl⟩ := (fSafeRelPath_eq_ok_iff s k).mp h
  have hvalid := validPath_cleanSegments hs
  rw [pathOf_keyOf hvalid]
  exact ⟨hvalid, rfl, rfl⟩

/-- A key is a fixed point. -/
theorem fSafeRelPath_fixed {s k : Str} (h : fSafeRelPath s = .ok k) :
    fSafeRelPath k = .ok k := by
  obtain ⟨hvalid, hkey, _⟩ := fSafeRelPath_ok h
  rw [← hkey]
  exact fSafeRelPath_keyOf hvalid

/-- A fixed point is the key of its own path. -/
theorem keyOf_pathOf {k : Str} (h : fSafeRelPath k = .ok k) :
    ValidPath (pathOf k) ∧ keyOf (pathOf k) = k :=
  ⟨(fSafeRelPath_ok h).1, (fSafeRelPath_ok h).2.1⟩

theorem keyOf_injective {p q : List Str} (hp : ValidPath p) (hq : ValidPath q)
    (h : keyOf p = keyOf q) : p = q := by
  rw [← pathOf_keyOf hp, h, pathOf_keyOf hq]

end Lectern
