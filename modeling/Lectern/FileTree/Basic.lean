import Mathlib.Algebra.GroupWithZero.Nat
import Mathlib.Data.List.Basic
import Mathlib.Order.Basic

/-!
# Directory trees

A directory is the list of its entries in the order it is read: regular files
carrying their content, and sub-directories carrying their own entries.  The
type of names and the type of contents are parameters, so nothing here depends
on what is stored.

A path is the list of names that leads from the directory to an entry.  What a
status query may report about a path is `entryAt`; it does not see the order
of the entries, so two trees with the same `entryAt` are the same directory to
every program that only asks for status and content.
-/

namespace FileTree

/-- The entries of one directory, in reading order. -/
inductive Dir (ν α : Type) where
  | nil
  | file (name : ν) (content : α) (rest : Dir ν α)
  | dir (name : ν) (sub rest : Dir ν α)
  deriving DecidableEq, Repr

/-- What a name stands for: a regular file or a directory. -/
inductive Node (ν α : Type) where
  | file (content : α)
  | dir (sub : Dir ν α)
  deriving DecidableEq, Repr

/-- What a status query reports about an existing path. -/
inductive Entry (α : Type) where
  | file (content : α)
  | dir
  deriving DecidableEq, Repr

namespace Node

variable {ν α : Type}

def entry : Node ν α → Entry α
  | .file c => .file c
  | .dir _ => .dir

@[simp] theorem entry_file (c : α) : (Node.file c : Node ν α).entry = .file c := rfl

@[simp] theorem entry_dir (s : Dir ν α) : (Node.dir s).entry = .dir := rfl

end Node

namespace Dir

variable {ν α : Type}

/-- The names read from a directory, not from the directories below it. -/
def names : Dir ν α → List ν
  | nil => []
  | file n _ rest => n :: rest.names
  | dir n _ rest => n :: rest.names

/-- No directory of the tree holds two entries of one name. -/
def Distinct : Dir ν α → Prop
  | nil => True
  | file n _ rest => n ∉ rest.names ∧ rest.Distinct
  | dir n sub rest => n ∉ rest.names ∧ sub.Distinct ∧ rest.Distinct

/-- Put an entry in front of the others. -/
def cons (n : ν) : Node ν α → Dir ν α → Dir ν α
  | .file c, rest => .file n c rest
  | .dir s, rest => .dir n s rest

/-- The summed weight of every regular file, at every depth. -/
def total (w : α → Nat) : Dir ν α → Nat
  | nil => 0
  | file _ c rest => w c + rest.total w
  | dir _ sub rest => sub.total w + rest.total w

end Dir

namespace Node

variable {ν α : Type}

/-- Distinct names throughout the node. -/
def Distinct : Node ν α → Prop
  | .file _ => True
  | .dir s => s.Distinct

@[simp] theorem distinct_file (c : α) : (Node.file c : Node ν α).Distinct := trivial

@[simp] theorem distinct_dir (s : Dir ν α) : (Node.dir s).Distinct ↔ s.Distinct := Iff.rfl

@[simp] theorem distinct_nil : (Dir.nil : Dir ν α).Distinct := trivial

/-- The summed weight of the files of a node. -/
def total (w : α → Nat) : Node ν α → Nat
  | .file c => w c
  | .dir s => s.total w

end Node

namespace Dir

variable {ν α : Type}

theorem distinct_cons {n : ν} {x : Node ν α} {d : Dir ν α}
    (hn : n ∉ d.names) (hx : x.Distinct) (hd : d.Distinct) : (cons n x d).Distinct := by
  cases x with
  | file c => exact ⟨hn, hd⟩
  | dir s => exact ⟨hn, hx, hd⟩

/-- The weight of an entry that may be absent. -/
def weightOf (w : α → Nat) (x : Option (Node ν α)) : Nat := x.elim 0 (Node.total w)

@[simp] theorem weightOf_none (w : α → Nat) : weightOf w (none : Option (Node ν α)) = 0 := rfl

@[simp] theorem weightOf_some (w : α → Nat) (x : Node ν α) : weightOf w (some x) = x.total w := rfl

variable [DecidableEq ν]

/-- The entry of one name. -/
def find? : Dir ν α → ν → Option (Node ν α)
  | nil, _ => none
  | file m c rest, n => if m = n then some (.file c) else rest.find? n
  | dir m sub rest, n => if m = n then some (.dir sub) else rest.find? n

/-- Drop the entry of one name. -/
def erase : Dir ν α → ν → Dir ν α
  | nil, _ => nil
  | file m c rest, n => if m = n then rest.erase n else file m c (rest.erase n)
  | dir m sub rest, n => if m = n then rest.erase n else dir m sub (rest.erase n)

/-- Make `x` the entry of the name `n`, whatever stood there. -/
def put (d : Dir ν α) (n : ν) (x : Node ν α) : Dir ν α := cons n x (d.erase n)

/-- `put` or `erase`, as the entry is present or absent afterwards. -/
def set (d : Dir ν α) (n : ν) : Option (Node ν α) → Dir ν α
  | some x => d.put n x
  | none => d.erase n

@[simp] theorem find?_nil (n : ν) : (nil : Dir ν α).find? n = none := rfl

theorem find?_cons (n m : ν) (x : Node ν α) (d : Dir ν α) :
    (cons n x d).find? m = if n = m then some x else d.find? m := by
  cases x <;> rfl

theorem find?_erase (d : Dir ν α) (n m : ν) :
    (d.erase n).find? m = if n = m then none else d.find? m := by
  induction d with
  | nil => simp [erase]
  | file k c rest ih => by_cases hk : k = n <;> grind [erase, find?]
  | dir k sub rest _ ih => by_cases hk : k = n <;> grind [erase, find?]

@[simp] theorem find?_put (d : Dir ν α) (n m : ν) (x : Node ν α) :
    (d.put n x).find? m = if n = m then some x else d.find? m := by
  rw [put, find?_cons, find?_erase]
  split <;> rfl

theorem find?_set (d : Dir ν α) (n m : ν) (x : Option (Node ν α)) :
    (d.set n x).find? m = if n = m then x else d.find? m := by
  cases x with
  | none => exact find?_erase d n m
  | some x => exact find?_put d n m x

theorem find?_eq_none_iff (d : Dir ν α) (n : ν) : d.find? n = none ↔ n ∉ d.names := by
  induction d with
  | nil => simp [names]
  | file k c rest ih => by_cases hk : k = n <;> grind [names, find?]
  | dir k sub rest _ ih => by_cases hk : k = n <;> grind [names, find?]

theorem mem_names_erase (d : Dir ν α) (n m : ν) :
    m ∈ (d.erase n).names ↔ n ≠ m ∧ m ∈ d.names := by
  have h := find?_erase d n m
  rw [← not_iff_not, ← find?_eq_none_iff, h, not_and, ← find?_eq_none_iff]
  by_cases hn : n = m <;> simp [hn]

/-! ## Distinct names -/

theorem distinct_erase {d : Dir ν α} (hd : d.Distinct) (n : ν) : (d.erase n).Distinct := by
  induction d with
  | nil => trivial
  | file k c rest ih =>
      by_cases hk : k = n
      · simpa [erase, hk] using ih hd.2
      · simp only [erase, hk, if_false]
        exact ⟨fun h => hd.1 ((mem_names_erase rest n k).mp h).2, ih hd.2⟩
  | dir k sub rest _ ih =>
      by_cases hk : k = n
      · simpa [erase, hk] using ih hd.2.2
      · simp only [erase, hk, if_false]
        exact ⟨fun h => hd.1 ((mem_names_erase rest n k).mp h).2, hd.2.1, ih hd.2.2⟩

theorem distinct_set {d : Dir ν α} (hd : d.Distinct) (n : ν) {x : Option (Node ν α)}
    (hx : ∀ y ∈ x, y.Distinct) : (d.set n x).Distinct := by
  cases x with
  | none => exact distinct_erase hd n
  | some y =>
      refine distinct_cons ?_ (hx y rfl) (distinct_erase hd n)
      simp [mem_names_erase]

theorem Distinct.of_find? {d : Dir ν α} (hd : d.Distinct) {n : ν} {x : Node ν α}
    (h : d.find? n = some x) : x.Distinct := by
  induction d with
  | nil => simp at h
  | file k c rest ih =>
      by_cases hk : k = n
      · simp only [find?, hk, if_true, Option.some.injEq] at h
        subst h
        trivial
      · exact ih hd.2 (by simpa [find?, hk] using h)
  | dir k sub rest _ ih =>
      by_cases hk : k = n
      · simp only [find?, hk, if_true, Option.some.injEq] at h
        subst h
        exact hd.2.1
      · exact ih hd.2.2 (by simpa [find?, hk] using h)

/-! ## Weights -/

theorem erase_of_not_mem {d : Dir ν α} {n : ν} (h : n ∉ d.names) : d.erase n = d := by
  induction d with
  | nil => rfl
  | file k c rest ih => grind [erase, names]
  | dir k sub rest _ ih => grind [erase, names]

theorem total_erase (w : α → Nat) {d : Dir ν α} (hd : d.Distinct) (n : ν) :
    (d.erase n).total w + weightOf w (d.find? n) = d.total w := by
  induction d with
  | nil => rfl
  | file k c rest ih =>
      by_cases hk : k = n
      · have hn : n ∉ rest.names := hk ▸ hd.1
        simp [erase, find?, hk, total, Node.total, erase_of_not_mem hn]
        omega
      · have := ih hd.2
        simp only [erase, find?, hk, if_false, total]
        omega
  | dir k sub rest _ ih =>
      by_cases hk : k = n
      · have hn : n ∉ rest.names := hk ▸ hd.1
        simp [erase, find?, hk, total, Node.total, erase_of_not_mem hn]
        omega
      · have := ih hd.2.2
        simp only [erase, find?, hk, if_false, total]
        omega

theorem total_set (w : α → Nat) {d : Dir ν α} (hd : d.Distinct) (n : ν)
    (x : Option (Node ν α)) :
    (d.set n x).total w + weightOf w (d.find? n) = d.total w + weightOf w x := by
  have herase := total_erase w hd n
  cases x with
  | none => simpa [set] using herase
  | some x =>
      cases x <;> simp only [set, put, cons, total, weightOf_some, Node.total] <;> omega

end Dir

/-! ## Paths -/

namespace Node

variable {ν α : Type} [DecidableEq ν]

/-- Follow a path down from a node. -/
def get? : Node ν α → List ν → Option (Node ν α)
  | x, [] => some x
  | .file _, _ :: _ => none
  | .dir d, n :: p =>
      match d.find? n with
      | some x => x.get? p
      | none => none

@[simp] theorem get?_nil (x : Node ν α) : x.get? [] = some x := by cases x <;> rfl

@[simp] theorem get?_file_cons (c : α) (n : ν) (p : List ν) :
    (Node.file c : Node ν α).get? (n :: p) = none := rfl

theorem get?_dir_cons (d : Dir ν α) (n : ν) (p : List ν) :
    (Node.dir d).get? (n :: p) = (d.find? n).bind (fun x => x.get? p) := by
  rw [get?]
  cases d.find? n <;> rfl

/-- What a status query reports at a path below a node. -/
def entryAt (x : Node ν α) (p : List ν) : Option (Entry α) := (x.get? p).map entry

@[simp] theorem entryAt_nil (x : Node ν α) : x.entryAt [] = some x.entry := by
  simp [entryAt]

@[simp] theorem entryAt_file_cons (c : α) (n : ν) (p : List ν) :
    (Node.file c : Node ν α).entryAt (n :: p) = none := rfl

theorem entryAt_dir_cons (d : Dir ν α) (n : ν) (p : List ν) :
    (Node.dir d).entryAt (n :: p) = (d.find? n).bind (fun x => x.entryAt p) := by
  rw [entryAt, get?_dir_cons]
  cases d.find? n <;> rfl

theorem get?_append (x : Node ν α) (p q : List ν) :
    x.get? (p ++ q) = (x.get? p).bind (fun y => y.get? q) := by
  induction p generalizing x with
  | nil => simp
  | cons n p ih =>
      cases x with
      | file c => rfl
      | dir d =>
          rw [List.cons_append, get?_dir_cons, get?_dir_cons]
          cases d.find? n with
          | none => rfl
          | some y => exact ih y

theorem entryAt_append (x : Node ν α) (p q : List ν) :
    x.entryAt (p ++ q) = (x.get? p).bind (fun y => y.entryAt q) := by
  rw [entryAt, get?_append]
  cases x.get? p <;> rfl

theorem Distinct.get? {x y : Node ν α} (hx : x.Distinct) {p : List ν}
    (h : x.get? p = some y) : y.Distinct := by
  induction p generalizing x with
  | nil =>
      rw [get?_nil, Option.some.injEq] at h
      exact h ▸ hx
  | cons n p ih =>
      cases x with
      | file c => simp at h
      | dir d =>
          rw [get?_dir_cons] at h
          obtain ⟨z, hz, hy⟩ := Option.bind_eq_some_iff.mp h
          exact ih (hx.of_find? hz) hy

end Node

namespace Dir

variable {ν α : Type} [DecidableEq ν]

def get? (d : Dir ν α) (p : List ν) : Option (Node ν α) := (Node.dir d).get? p

def entryAt (d : Dir ν α) (p : List ν) : Option (Entry α) := (Node.dir d).entryAt p

theorem entryAt_eq (d : Dir ν α) (p : List ν) : d.entryAt p = (d.get? p).map Node.entry := rfl

@[simp] theorem get?_nil (d : Dir ν α) : d.get? [] = some (.dir d) := rfl

@[simp] theorem entryAt_nil (d : Dir ν α) : d.entryAt [] = some .dir := rfl

theorem get?_cons (d : Dir ν α) (n : ν) (p : List ν) :
    d.get? (n :: p) = (d.find? n).bind (fun x => x.get? p) := Node.get?_dir_cons d n p

theorem entryAt_cons (d : Dir ν α) (n : ν) (p : List ν) :
    d.entryAt (n :: p) = (d.find? n).bind (fun x => x.entryAt p) := Node.entryAt_dir_cons d n p

theorem entryAt_append (d : Dir ν α) (p q : List ν) :
    d.entryAt (p ++ q) = (d.get? p).bind (fun x => x.entryAt q) := Node.entryAt_append _ p q

theorem get?_eq_none_iff (d : Dir ν α) (p : List ν) : d.get? p = none ↔ d.entryAt p = none := by
  rw [entryAt_eq, Option.map_eq_none_iff]

/-- The entries behind a first file. -/
theorem entryAt_file (n : ν) (c : α) (rest : Dir ν α) (m : ν) (q : List ν) :
    (file n c rest).entryAt (m :: q) =
      if n = m then (Node.file c).entryAt q else rest.entryAt (m :: q) := by
  rw [entryAt_cons, entryAt_cons, find?]
  split <;> rfl

/-- The entries behind a first directory. -/
theorem entryAt_dir (n : ν) (sub rest : Dir ν α) (m : ν) (q : List ν) :
    (dir n sub rest).entryAt (m :: q) =
      if n = m then sub.entryAt q else rest.entryAt (m :: q) := by
  rw [entryAt_cons, entryAt_cons, find?]
  split <;> rfl

/-- An entry further on has another name. -/
theorem ne_of_entryAt {n m : ν} {rest : Dir ν α} {q : List ν} (hn : n ∉ rest.names)
    (h : rest.entryAt (m :: q) ≠ none) : n ≠ m := by
  rintro rfl
  rw [entryAt_cons, (find?_eq_none_iff rest n).mpr hn] at h
  exact h rfl

/-- Nothing lies below a regular file. -/
theorem entryAt_below_file {d : Dir ν α} {p : List ν} {c : α}
    (h : d.entryAt p = some (.file c)) {q : List ν} (hq : q ≠ []) :
    d.entryAt (p ++ q) = none := by
  rw [entryAt_eq] at h
  obtain ⟨x, hx, hc⟩ := Option.map_eq_some_iff.mp h
  rw [entryAt_append, hx]
  cases x with
  | dir s => simp at hc
  | file c' =>
      cases q with
      | nil => exact absurd rfl hq
      | cons n q => rfl

/-- Whatever exists has its parents, and they are directories. -/
theorem entryAt_parent_dir {d : Dir ν α} {p q : List ν} (hq : q ≠ [])
    (h : d.entryAt (p ++ q) ≠ none) : d.entryAt p = some .dir := by
  cases hp : d.entryAt p with
  | none =>
      exact absurd (by rw [entryAt_append, (get?_eq_none_iff d p).mpr hp]; rfl) h
  | some e =>
      cases e with
      | dir => rfl
      | file c => exact absurd (entryAt_below_file hp hq) h

end Dir

/-- A directory tree whose directories hold every name at most once, which is
what a file system maintains. -/
structure Tree (ν α : Type) where
  root : Dir ν α
  distinct : root.Distinct

namespace Tree

variable {ν α : Type} [DecidableEq ν]

def empty : Tree ν α := ⟨.nil, trivial⟩

def get? (t : Tree ν α) (p : List ν) : Option (Node ν α) := t.root.get? p

def entryAt (t : Tree ν α) (p : List ν) : Option (Entry α) := t.root.entryAt p

/-- The content of the regular file at a path. -/
def fileAt (t : Tree ν α) (p : List ν) : Option α :=
  match t.entryAt p with
  | some (.file c) => some c
  | _ => none

def total (w : α → Nat) (t : Tree ν α) : Nat := t.root.total w

theorem fileAt_eq_some_iff {t : Tree ν α} {p : List ν} {c : α} :
    t.fileAt p = some c ↔ t.entryAt p = some (.file c) := by
  unfold fileAt
  split <;> simp_all

@[simp] theorem fileAt_nil (t : Tree ν α) : t.fileAt [] = none := rfl

@[simp] theorem entryAt_nil (t : Tree ν α) : t.entryAt [] = some .dir := rfl

@[simp] theorem fileAt_empty (p : List ν) : (empty : Tree ν α).fileAt p = none := by
  cases p <;> rfl

end Tree

end FileTree
