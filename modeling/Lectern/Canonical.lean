import Lectern.RelPath

/-!
# Canonical keys

`fSafeRelPath` is the gate every path of a request goes through.  This module
says what it lets in and what it makes of it: the grammar spelled out segment
by segment, the unique form of the result, and where `root / result` points
when a file system reads it name by name.

A reader of paths either knows one separator or both (`Convention`), discards
the root in front of an absolute path, skips empty and dot segments and takes
`".."` to the parent.  None of these can happen to a key, so reading one only
ever descends from the root.
-/

namespace Lectern

/-! ## Reading a path lexically -/

/-- How the platform cuts a path into segments. -/
inductive Convention where
  | posix
  | windows
  deriving DecidableEq, Repr

def Convention.separates : Convention → UInt8 → Bool
  | .posix, c => c == slash
  | .windows, c => isSeparator c

def Convention.segments (conv : Convention) (s : Str) : List Str :=
  s.splitOnP conv.separates

/-- `root / s` is `s` alone when `s` is absolute or, on Windows, names a
drive. -/
def Convention.discardsRoot (conv : Convention) (s : Str) : Bool :=
  s.head?.any conv.separates || (conv == .windows && colon ∈ (conv.segments s).headD [])

/-- One segment of a path read from the folder reached so far. -/
def resolveName (folder : List Str) (n : Str) : List Str :=
  if n = [] ∨ n = str "." then folder
  else if n = str ".." then folder.dropLast
  else folder ++ [n]

/-- The normal form of `root / s`; `none` when the root is discarded. -/
def lexicalResolve (conv : Convention) (root : List Str) (s : Str) : Option (List Str) :=
  if conv.discardsRoot s then none
  else some ((conv.segments s).foldl resolveName root)

theorem resolveName_valid {n : Str} (hn : ValidName n) (folder : List Str) :
    resolveName folder n = folder ++ [n] := by
  obtain ⟨hne, hdot, hdots, _⟩ := hn
  unfold resolveName
  rw [if_neg (not_or.mpr ⟨hne, hdot⟩), if_neg hdots]

/-- Valid names only descend. -/
theorem foldl_resolveName {p : List Str} (hp : ∀ n ∈ p, ValidName n) (root : List Str) :
    p.foldl resolveName root = root ++ p := by
  induction p generalizing root with
  | nil => simp
  | cons n p ih =>
      have hn := resolveName_valid (hp n List.mem_cons_self) root
      have hrest := ih (fun x hx => hp x (List.mem_cons_of_mem _ hx)) (root ++ [n])
      rw [List.foldl_cons, hn, hrest, List.append_assoc, List.singleton_append]

/-- Both conventions cut a key into the names it was joined from. -/
theorem segments_keyOf (conv : Convention) {p : List Str} (hp : ValidPath p) :
    conv.segments (keyOf p) = p := by
  cases conv with
  | posix =>
      have hnames : ∀ n ∈ p, slash ∉ n := fun n hn => (hp.2 n hn).no_slash
      exact List.splitOn_intercalate slash hnames hp.1
  | windows => exact splitOnP_keyOf hp

/-- A key is relative under both conventions. -/
theorem discardsRoot_keyOf (conv : Convention) {p : List Str} (hp : ValidPath p) :
    conv.discardsRoot (keyOf p) = false := by
  have hhead : (keyOf p).head?.any conv.separates = false := by
    rw [Option.any_eq_false_iff_get]
    intro hsome
    have hsep := (accepted_keyOf hp).1 _ (Option.get_mem hsome)
    cases conv with
    | posix =>
        simp only [isSeparator, Bool.or_eq_false_iff] at hsep
        exact hsep.1
    | windows => exact hsep
  have hdrive : colon ∉ ((conv.segments (keyOf p)).headD []) := by
    rw [segments_keyOf conv hp]
    obtain ⟨n, p, rfl⟩ := List.exists_cons_of_ne_nil hp.1
    exact (hp.2 n List.mem_cons_self).2.2.2.1
  unfold Convention.discardsRoot
  simp only [hhead, hdrive, decide_false, Bool.and_false, Bool.or_false]

/-- Reading a key from a root descends along its names. -/
theorem lexicalResolve_keyOf (conv : Convention) (root : List Str) {p : List Str}
    (hp : ValidPath p) : lexicalResolve conv root (keyOf p) = some (root ++ p) := by
  unfold lexicalResolve
  rw [discardsRoot_keyOf conv hp, segments_keyOf conv hp, foldl_resolveName hp.2]
  simp

/-! ## The grammar, segment by segment -/

/-- Some segment names something. -/
theorem cleanSegments_ne_nil_iff (s : Str) :
    cleanSegments s ≠ [] ↔ ∃ n ∈ s.splitOnP isSeparator, n ≠ [] ∧ n ≠ str "." := by
  unfold cleanSegments
  rw [Ne, List.filter_eq_nil_iff]
  simp

theorem not_separator_head_iff (s : Str) :
    (∀ c ∈ s.head?, isSeparator c = false) ↔
      s.head? ≠ some slash ∧ s.head? ≠ some backslash := by
  cases s with
  | nil => simp
  | cons c cs => simp [isSeparator]

/-- The empty string has no segment that names something. -/
theorem ne_nil_of_cleanSegments {s : Str} (h : cleanSegments s ≠ []) : s ≠ [] := by
  rintro rfl
  exact h (by decide)

/-- `Accepted`, as the checks are made. -/
theorem accepted_iff (s : Str) :
    Accepted s ↔
      s ≠ [] ∧ s.head? ≠ some slash ∧ s.head? ≠ some backslash ∧ 0 ∉ s ∧
        (∀ n ∈ s.splitOnP isSeparator, n ≠ str ".." ∧ colon ∉ n) ∧
        ∃ n ∈ s.splitOnP isSeparator, n ≠ [] ∧ n ≠ str "." := by
  unfold Accepted
  rw [not_separator_head_iff, ← cleanSegments_ne_nil_iff]
  constructor
  · rintro ⟨⟨hslash, hback⟩, hzero, hharmless, hne⟩
    exact ⟨ne_nil_of_cleanSegments hne, hslash, hback, hzero, hharmless, hne⟩
  · rintro ⟨_, hslash, hback, hzero, hharmless, hne⟩
    exact ⟨⟨hslash, hback⟩, hzero, hharmless, hne⟩

theorem fSafeRelPath_isOk_iff (s : Str) : (∃ k, fSafeRelPath s = .ok k) ↔ Accepted s := by
  constructor
  · rintro ⟨k, hk⟩
    exact ((fSafeRelPath_eq_ok_iff s k).mp hk).1
  · intro hs
    exact ⟨_, (fSafeRelPath_eq_ok_iff s _).mpr ⟨hs, rfl⟩⟩

/-- Two accepted strings have one key exactly when they have the same names. -/
theorem keys_eq_iff {s s' k k' : Str} (hk : fSafeRelPath s = .ok k)
    (hk' : fSafeRelPath s' = .ok k') : k = k' ↔ cleanSegments s = cleanSegments s' := by
  obtain ⟨hs, rfl⟩ := (fSafeRelPath_eq_ok_iff s k).mp hk
  obtain ⟨hs', rfl⟩ := (fSafeRelPath_eq_ok_iff s' k').mp hk'
  constructor
  · intro h
    exact keyOf_injective (validPath_cleanSegments hs) (validPath_cleanSegments hs') h
  · intro h
    rw [h]

/-- Reading a prefix of a key's segments is still at or below the root. -/
theorem prefix_stays {conv : Convention} {root : List Str} {p pre : List Str}
    (hp : ValidPath p) (hpre : pre <+: conv.segments (keyOf p)) :
    root <+: pre.foldl resolveName root := by
  rw [segments_keyOf conv hp] at hpre
  have hvalid : ∀ n ∈ pre, ValidName n := fun n hn => hp.2 n (hpre.subset hn)
  rw [foldl_resolveName hvalid]
  exact List.prefix_append root pre

/-- **What `fSafeRelPath` accepts and what it returns.**  A byte string gets a
result exactly when it is non-empty and relative, has no NUL, no segment of it
is `".."` or contains a colon and some segment names something; anything else
is a 400.  The result joins the segments that name something by single
slashes.  It is a fixed point, it determines those segments, and reading it
from any root, under either convention, passes only through the root and what
lies below, ending strictly below. -/
theorem fSafeRelPath_canonical (s : Str) :
    ((∃ k, fSafeRelPath s = .ok k) ↔
      s ≠ [] ∧ s.head? ≠ some slash ∧ s.head? ≠ some backslash ∧ 0 ∉ s ∧
        (∀ n ∈ s.splitOnP isSeparator, n ≠ str ".." ∧ colon ∉ n) ∧
        ∃ n ∈ s.splitOnP isSeparator, n ≠ [] ∧ n ≠ str ".") ∧
    ((¬ ∃ k, fSafeRelPath s = .ok k) → ∃ e, fSafeRelPath s = .error e ∧ e.status = 400) ∧
    ∀ k, fSafeRelPath s = .ok k →
      k = [slash].intercalate
        ((s.splitOnP isSeparator).filter (fun n => n != [] && n != str ".")) ∧
      fSafeRelPath k = .ok k ∧
      (∀ s' k', fSafeRelPath s' = .ok k' →
        (k = k' ↔ cleanSegments s = cleanSegments s')) ∧
      ∀ (conv : Convention) (root : List Str),
        (∀ pre, pre <+: conv.segments k → root <+: pre.foldl resolveName root) ∧
        ∃ p, p ≠ [] ∧ lexicalResolve conv root k = some (root ++ p) := by
  refine ⟨?_, ?_, ?_⟩
  · rw [fSafeRelPath_isOk_iff, accepted_iff]
  · intro hno
    cases hs : fSafeRelPath s with
    | ok k => exact absurd ⟨k, hs⟩ hno
    | error e =>
        have he := fSafeRelPath_error hs
        exact ⟨e, rfl, he ▸ rfl⟩
  · intro k hk
    obtain ⟨hs, hkey⟩ := (fSafeRelPath_eq_ok_iff s k).mp hk
    have hvalid := validPath_cleanSegments hs
    refine ⟨hkey, fSafeRelPath_fixed hk, fun s' k' hk' => keys_eq_iff hk hk', ?_⟩
    intro conv root
    subst hkey
    refine ⟨fun pre hpre => prefix_stays hvalid hpre, ?_⟩
    exact ⟨cleanSegments s, hvalid.1, lexicalResolve_keyOf conv root hvalid⟩

/-- Mixed separators, repeated ones and dot segments. -/
example : fSafeRelPath (str "a\\.//b.mdp/") = .ok (str "a/b.mdp") := by decide

end Lectern
