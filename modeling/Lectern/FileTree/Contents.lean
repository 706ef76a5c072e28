import Lectern.FileTree.Posix

/-!
# What the files hold

A tree seen from far enough away is a map from paths to contents.  Folders are
gone from it, and the operations on a tree are four changes to such a map.  A
store has one map for each owner, and a log of changes replayed on a store says
what every file holds at the end: the content of the last write, unless a later
change touched the path.
-/

namespace FileTree

variable {κ ν α : Type}

/-- Which paths hold a file, and what is in it. -/
abbrev Contents (ν α : Type) := List ν → Option α

inductive Change (ν α : Type) where
  | write (path : List ν) (content : α)
  | unlink (path : List ν)
  | removeBelow (path : List ν)
  | move (src dst : List ν)
  deriving DecidableEq, Repr

namespace Change

def apply [DecidableEq ν] : Change ν α → Contents ν α → Contents ν α
  | .write path content, m => fun q => if q = path then some content else m q
  | .unlink path, m => fun q => if q = path then none else m q
  | .removeBelow path, m => fun q => if path <+: q then none else m q
  | .move src dst, m => fun q =>
      if src = dst then m q
      else if dst <+: q then m (src ++ q.drop dst.length)
      else if src <+: q then none else m q

/-- The paths that may hold something else afterwards. -/
def Touches : Change ν α → List ν → Prop
  | .write path _, q => q = path
  | .unlink path, q => q = path
  | .removeBelow path, q => path <+: q
  | .move src dst, q => src ≠ dst ∧ (src <+: q ∨ dst <+: q)

variable [DecidableEq ν]

theorem apply_moved (src dst : List ν) (m : Contents ν α) (q : List ν) :
    (Change.move src dst).apply m q =
      if src = dst then m q
      else if dst <+: q then m (src ++ q.drop dst.length)
      else if src <+: q then none else m q := rfl

instance (c : Change ν α) (q : List ν) : Decidable (c.Touches q) :=
  match c with
  | .write path _ => inferInstanceAs (Decidable (q = path))
  | .unlink path => inferInstanceAs (Decidable (q = path))
  | .removeBelow path => inferInstanceAs (Decidable (path <+: q))
  | .move src dst => inferInstanceAs (Decidable (src ≠ dst ∧ (src <+: q ∨ dst <+: q)))

/-- **Frame rule**: a path that is not touched holds what it held. -/
theorem apply_of_not_touches {c : Change ν α} {q : List ν} (h : ¬ c.Touches q)
    (m : Contents ν α) : c.apply m q = m q := by
  cases c with
  | write path content => exact if_neg h
  | unlink path => exact if_neg h
  | removeBelow path => exact if_neg h
  | move src dst =>
      by_cases hsame : src = dst
      · exact if_pos hsame
      · have hno : ¬ (src <+: q ∨ dst <+: q) := fun hor => h ⟨hsame, hor⟩
        rw [not_or] at hno
        rw [apply_moved, if_neg hsame, if_neg hno.2, if_neg hno.1]

/-- A change invents no content but the one it writes. -/
theorem apply_origin {c : Change ν α} {m : Contents ν α} {q : List ν} {x : α}
    (h : c.apply m q = some x) : (∃ p, m p = some x) ∨ c = .write q x := by
  cases c with
  | write path content =>
      by_cases hq : q = path
      · have hwritten : some content = some x := (if_pos hq).symm.trans h
        cases hwritten
        exact Or.inr (by rw [hq])
      · exact Or.inl ⟨q, (if_neg hq).symm.trans h⟩
  | unlink path =>
      by_cases hq : q = path
      · cases (if_pos hq).symm.trans h
      · exact Or.inl ⟨q, (if_neg hq).symm.trans h⟩
  | removeBelow path =>
      by_cases hq : path <+: q
      · cases (if_pos hq).symm.trans h
      · exact Or.inl ⟨q, (if_neg hq).symm.trans h⟩
  | move src dst =>
      rw [apply_moved] at h
      split at h
      · exact Or.inl ⟨q, h⟩
      · split at h
        · exact Or.inl ⟨_, h⟩
        · split at h
          · cases h
          · exact Or.inl ⟨q, h⟩

/-- A moved file is found below the destination. -/
theorem apply_move (m : Contents ν α) (src dst r : List ν) :
    (Change.move src dst).apply m (dst ++ r) = m (src ++ r) := by
  rw [apply_moved]
  by_cases hsame : src = dst
  · rw [if_pos hsame, hsame]
  · rw [if_neg hsame, if_pos (List.prefix_append dst r), List.drop_left]

end Change

/-! ## Stores -/

/-- One map for each owner. -/
abbrev Store (κ ν α : Type) := κ → Contents ν α

namespace Store

variable [DecidableEq κ] [DecidableEq ν]

def apply (s : Store κ ν α) (e : κ × Change ν α) : Store κ ν α :=
  fun o => if o = e.1 then e.2.apply (s o) else s o

/-- Make the changes of a log one after the other. -/
def replay (s : Store κ ν α) (log : List (κ × Change ν α)) : Store κ ν α := log.foldl apply s

@[simp] theorem replay_nil (s : Store κ ν α) : s.replay [] = s := rfl

@[simp] theorem replay_cons (s : Store κ ν α) (e : κ × Change ν α) (log : List (κ × Change ν α)) :
    s.replay (e :: log) = (s.apply e).replay log := rfl

theorem replay_append (s : Store κ ν α) (log log' : List (κ × Change ν α)) :
    s.replay (log ++ log') = (s.replay log).replay log' := List.foldl_append

/-- A log of one owner's changes. -/
theorem replay_of_owner (s : Store κ ν α) (owner : κ) (changes : List (Change ν α)) (o : κ) :
    s.replay (changes.map (fun c => (owner, c))) o =
      if o = owner then changes.foldl (fun m c => c.apply m) (s o) else s o := by
  induction changes generalizing s with
  | nil => exact (ite_self (s o)).symm
  | cons c changes ih =>
      rw [List.map_cons, replay_cons, ih]
      by_cases ho : o = owner
      · rw [if_pos ho, if_pos ho, List.foldl_cons]
        exact congrArg (List.foldl _ · changes) (if_pos ho)
      · rw [if_neg ho, if_neg ho]
        exact if_neg ho

/-- The log leaves the path of this owner alone. -/
def Untouched (log : List (κ × Change ν α)) (o : κ) (q : List ν) : Prop :=
  ∀ e ∈ log, e.1 = o → ¬ e.2.Touches q

instance (log : List (κ × Change ν α)) (o : κ) (q : List ν) : Decidable (Untouched log o q) :=
  inferInstanceAs (Decidable (∀ e ∈ log, e.1 = o → ¬ e.2.Touches q))

theorem replay_untouched {log : List (κ × Change ν α)} {o : κ} {q : List ν}
    (h : Untouched log o q) (s : Store κ ν α) : s.replay log o q = s o q := by
  induction log generalizing s with
  | nil => rfl
  | cons e log ih =>
      rw [replay_cons, ih (fun e' he' => h e' (List.mem_cons_of_mem _ he'))]
      by_cases ho : o = e.1
      · have hnot := h e List.mem_cons_self ho.symm
        exact (congrFun (if_pos ho) q).trans (Change.apply_of_not_touches hnot _)
      · exact congrFun (if_neg ho) q

/-- **The last write wins.** -/
theorem replay_write {log : List (κ × Change ν α)} {o : κ} {p : List ν} (x : α)
    (h : Untouched log o p) (s : Store κ ν α) : s.replay ((o, .write p x) :: log) o p = some x := by
  rw [replay_cons, replay_untouched h]
  exact (congrFun (if_pos rfl) p).trans (if_pos rfl)

/-- A file is found where it was last moved. -/
theorem replay_move {log : List (κ × Change ν α)} {o : κ} {src dst r : List ν}
    (h : Untouched log o (dst ++ r)) (s : Store κ ν α) :
    s.replay ((o, .move src dst) :: log) o (dst ++ r) = s o (src ++ r) := by
  rw [replay_cons, replay_untouched h]
  exact (congrFun (if_pos rfl) _).trans (Change.apply_move (s o) src dst r)

/-- Whatever a file holds at the end was there at the start or was written by
its owner's part of the log. -/
theorem replay_origin {log : List (κ × Change ν α)} {s : Store κ ν α} {o : κ} {q : List ν} {x : α}
    (h : s.replay log o q = some x) :
    (∃ p, s o p = some x) ∨ ∃ p, (o, .write p x) ∈ log := by
  induction log generalizing s with
  | nil => exact Or.inl ⟨q, h⟩
  | cons e log ih =>
      rcases ih h with ⟨p, hp⟩ | ⟨p, hp⟩
      · by_cases ho : o = e.1
        · rcases Change.apply_origin ((congrFun (if_pos ho) p).symm.trans hp) with hold | hwritten
          · exact Or.inl hold
          · refine Or.inr ⟨p, ?_⟩
            rw [ho, ← hwritten]
            exact List.mem_cons_self
        · exact Or.inl ⟨p, (congrFun (if_neg ho) p).symm.trans hp⟩
      · exact Or.inr ⟨p, List.mem_cons_of_mem _ hp⟩

end Store

end FileTree
