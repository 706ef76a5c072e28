import Lectern.FileTree.Basic
import Mathlib.Data.List.Infix

/-!
# POSIX operations on directory trees

Every operation that changes one entry is an `update`: walk to the parent,
look at the entry, and either refuse or say what stands there afterwards.
Creating the missing parents of a path (`mkdirs`) and moving an entry
(`rename`) are built on the same walk.  An operation that is refused returns
`none` and has changed nothing.

Each operation gets one theorem about `entryAt`, which says what every path
reports afterwards, and one about the weight of the tree.
-/

namespace FileTree

namespace Dir

variable {ν α : Type} [DecidableEq ν]

/-- Decide at the entry of a path what stands there afterwards; refuse when
the parent of the path is not a directory, or when `f` refuses. -/
def update (f : Option (Node ν α) → Option (Option (Node ν α))) :
    Dir ν α → List ν → Option (Dir ν α)
  | _, [] => none
  | d, [n] => (f (d.find? n)).map (fun x => d.set n x)
  | d, n :: m :: p =>
      match d.find? n with
      | some (.dir s) => (s.update f (m :: p)).map (fun s' => d.put n (.dir s'))
      | _ => none

/-- Create a directory and its missing parents.  Nothing is created when a
regular file stands on the way. -/
def mkdirs : Dir ν α → List ν → Option (Dir ν α)
  | d, [] => some d
  | d, n :: p =>
      match d.find? n with
      | none => (mkdirs nil p).map (fun s => d.put n (.dir s))
      | some (.dir s) => (s.mkdirs p).map (fun s' => d.put n (.dir s'))
      | some (.file _) => none

/-- Write a regular file: a directory is not overwritten. -/
def writeFile (d : Dir ν α) (p : List ν) (c : α) : Option (Dir ν α) :=
  d.update (fun
    | some (.dir _) => none
    | _ => some (some (.file c))) p

/-- Remove a regular file or an empty directory. -/
def remove (d : Dir ν α) (p : List ν) : Option (Dir ν α) :=
  d.update (fun
    | some (.file _) => some none
    | some (.dir .nil) => some none
    | _ => none) p

/-- Remove an entry and everything below it. -/
def removeAll (d : Dir ν α) (p : List ν) : Option (Dir ν α) :=
  d.update (fun
    | some _ => some none
    | none => none) p

/-- What a moved node may replace: a file replaces a file, a directory an
empty directory. -/
def replaces : Node ν α → Option (Node ν α) → Bool
  | _, none => true
  | .file _, some (.file _) => true
  | .dir _, some (.dir .nil) => true
  | _, _ => false

/-- Move an entry.  A path moved onto itself stays; a directory is not moved
below itself, and a directory that holds the source is not empty. -/
def rename (d : Dir ν α) (src dst : List ν) : Option (Dir ν α) :=
  match d.get? src with
  | none => none
  | some x =>
      if src = dst then some d
      else if src <+: dst ∨ dst <+: src then none
      else
        (d.removeAll src).bind fun d' =>
          d'.update (fun y => if replaces x y then some (some x) else none) dst

/-! ## The walk -/

theorem update_distinct {f : Option (Node ν α) → Option (Option (Node ν α))}
    (hf : ∀ x y, f x = some y → (∀ z ∈ x, z.Distinct) → ∀ z ∈ y, z.Distinct)
    {d d' : Dir ν α} {p : List ν} (hd : d.Distinct) (h : d.update f p = some d') :
    d'.Distinct := by
  induction p generalizing d d' with
  | nil => cases d <;> simp [update] at h
  | cons n p ih =>
      cases p with
      | nil =>
          simp only [update, Option.map_eq_some_iff] at h
          obtain ⟨x, hx, rfl⟩ := h
          exact distinct_set hd n (hf _ x hx (fun z hz => hd.of_find? hz))
      | cons m p =>
          simp only [update] at h
          split at h
          · rename_i s hs
            obtain ⟨s', hs', rfl⟩ := Option.map_eq_some_iff.mp h
            have hsub : s'.Distinct := ih (hd.of_find? hs) hs'
            exact distinct_set hd n (x := some (.dir s')) (by simpa using hsub)
          · cases h

/-- A walk succeeds exactly below a directory where `f` does not refuse. -/
theorem update_isSome {f : Option (Node ν α) → Option (Option (Node ν α))}
    {d : Dir ν α} {p : List ν} {n : ν} :
    (d.update f (p ++ [n])).isSome ↔
      d.entryAt p = some .dir ∧ (f (d.get? (p ++ [n]))).isSome := by
  induction p generalizing d with
  | nil =>
      simp only [List.nil_append, update, Option.isSome_map, entryAt_nil, true_and, get?_cons]
      cases d.find? n <;> simp
  | cons m p ih =>
      obtain ⟨k, q, hk⟩ : ∃ k q, p ++ [n] = k :: q := by
        cases p <;> exact ⟨_, _, rfl⟩
      rw [List.cons_append, hk, update, ← hk, get?_cons, entryAt_cons]
      cases hm : d.find? m with
      | none => simp
      | some x =>
          cases x with
          | file c =>
              cases p <;> simp
          | dir s => simpa [Dir.get?, Dir.entryAt] using ih (d := s)

/-- What every path reports after a walk: the paths at or below the target see
the new entry, the others see what they saw. -/
theorem entryAt_update {f : Option (Node ν α) → Option (Option (Node ν α))}
    {d d' : Dir ν α} {p : List ν} (h : d.update f p = some d') :
    ∃ x, f (d.get? p) = some x ∧ ∀ q, d'.entryAt q =
      if p <+: q then x.bind (fun y => y.entryAt (q.drop p.length)) else d.entryAt q := by
  induction p generalizing d d' with
  | nil => cases d <;> simp [update] at h
  | cons n p ih =>
      cases p with
      | nil =>
          simp only [update, Option.map_eq_some_iff] at h
          obtain ⟨x, hx, rfl⟩ := h
          refine ⟨x, ?_, ?_⟩
          · rw [get?_cons]
            cases hn : d.find? n <;> simpa [hn] using hx
          · intro q
            cases q with
            | nil => simp
            | cons k q =>
                rw [entryAt_cons, find?_set, entryAt_cons]
                by_cases hk : n = k <;> simp [hk, List.cons_prefix_cons]
      | cons m p =>
          simp only [update] at h
          split at h
          · rename_i s hs
            obtain ⟨s', hs', rfl⟩ := Option.map_eq_some_iff.mp h
            obtain ⟨x, hx, hat⟩ := ih hs'
            refine ⟨x, ?_, ?_⟩
            · rw [get?_cons, hs]
              exact hx
            · intro q
              cases q with
              | nil => simp
              | cons k q =>
                  rw [entryAt_cons, find?_put, entryAt_cons]
                  by_cases hk : n = k
                  · subst hk
                    have := hat q
                    simp only [Dir.entryAt] at this
                    simp only [if_true, Option.bind_some, this, hs, List.cons_prefix_cons,
                      true_and, List.length_cons, List.drop_succ_cons]
                  · simp [hk, List.cons_prefix_cons]
          · cases h

/-- A walk leaves alone what is neither above nor below its target. -/
theorem get?_update {f : Option (Node ν α) → Option (Option (Node ν α))}
    {d d' : Dir ν α} {p q : List ν} (h : d.update f p = some d')
    (hpq : ¬ p <+: q) (hqp : ¬ q <+: p) : d'.get? q = d.get? q := by
  induction p generalizing d d' q with
  | nil => exact absurd List.nil_prefix hpq
  | cons n p ih =>
      cases q with
      | nil => exact absurd List.nil_prefix hqp
      | cons k q =>
          cases p with
          | nil =>
              simp only [update, Option.map_eq_some_iff] at h
              obtain ⟨x, hx, rfl⟩ := h
              have hk : n ≠ k := by
                rintro rfl
                exact hpq (List.cons_prefix_cons.mpr ⟨rfl, List.nil_prefix⟩)
              rw [get?_cons, get?_cons, find?_set, if_neg hk]
          | cons m p =>
              simp only [update] at h
              split at h
              · rename_i s hs
                obtain ⟨s', hs', rfl⟩ := Option.map_eq_some_iff.mp h
                rw [get?_cons, get?_cons, find?_put]
                by_cases hk : n = k
                · subst hk
                  rw [if_pos rfl, hs]
                  refine ih hs' ?_ ?_
                  · intro hpre
                    exact hpq (List.cons_prefix_cons.mpr ⟨rfl, hpre⟩)
                  · intro hpre
                    exact hqp (List.cons_prefix_cons.mpr ⟨rfl, hpre⟩)
                · rw [if_neg hk]
              · cases h

theorem total_update (w : α → Nat) {f : Option (Node ν α) → Option (Option (Node ν α))}
    {d d' : Dir ν α} {p : List ν} (hd : d.Distinct) (h : d.update f p = some d') :
    ∃ x, f (d.get? p) = some x ∧
      d'.total w + weightOf w (d.get? p) = d.total w + weightOf w x := by
  induction p generalizing d d' with
  | nil => cases d <;> simp [update] at h
  | cons n p ih =>
      cases p with
      | nil =>
          simp only [update, Option.map_eq_some_iff] at h
          obtain ⟨x, hx, rfl⟩ := h
          have hget : d.get? [n] = d.find? n := by
            rw [get?_cons]
            cases d.find? n <;> simp
          exact ⟨x, hget ▸ hx, hget ▸ total_set w hd n x⟩
      | cons m p =>
          simp only [update] at h
          split at h
          · rename_i s hs
            obtain ⟨s', hs', rfl⟩ := Option.map_eq_some_iff.mp h
            obtain ⟨x, hx, htotal⟩ := ih (hd.of_find? hs) hs'
            have hget : d.get? (n :: m :: p) = s.get? (m :: p) := by
              rw [get?_cons, hs]
              rfl
            refine ⟨x, hget ▸ hx, ?_⟩
            have hset := total_set w hd n (some (.dir s'))
            simp only [hs, weightOf_some, Node.total] at hset
            simp only [set] at hset
            rw [hget]
            omega
          · cases h

/-! ## Creating parents -/

theorem mkdirs_distinct {d d' : Dir ν α} {p : List ν} (hd : d.Distinct)
    (h : d.mkdirs p = some d') : d'.Distinct := by
  induction p generalizing d d' with
  | nil => simp only [mkdirs, Option.some.injEq] at h; exact h ▸ hd
  | cons n p ih =>
      simp only [mkdirs] at h
      split at h
      · obtain ⟨s, hs, rfl⟩ := Option.map_eq_some_iff.mp h
        exact distinct_set hd n (x := some (.dir s)) (by simpa using ih Node.distinct_nil hs)
      · rename_i s hs
        obtain ⟨s', hs', rfl⟩ := Option.map_eq_some_iff.mp h
        exact distinct_set hd n (x := some (.dir s')) (by simpa using ih (hd.of_find? hs) hs')
      · cases h

/-- Afterwards the path and its parents are directories, and nothing else
changed. -/
theorem entryAt_mkdirs {d d' : Dir ν α} {p : List ν} (h : d.mkdirs p = some d') (q : List ν) :
    d'.entryAt q = if q <+: p then some .dir else d.entryAt q := by
  induction p generalizing d d' q with
  | nil =>
      simp only [mkdirs, Option.some.injEq] at h
      subst h
      cases q <;> simp
  | cons n p ih =>
      have step (s s' : Dir ν α) (hs : s.mkdirs p = some s')
          (hd : d.find? n = some (.dir s) ∨ d.find? n = none ∧ s = nil) :
          (d.put n (.dir s')).entryAt q = if q <+: n :: p then some .dir else d.entryAt q := by
        cases q with
        | nil => simp
        | cons k q =>
            rw [entryAt_cons, find?_put, entryAt_cons]
            by_cases hk : n = k
            · subst hk
              have hq : (Node.dir s').entryAt q = if q <+: p then some .dir else s.entryAt q :=
                ih hs q
              simp only [if_true, Option.bind_some, hq, List.cons_prefix_cons, true_and]
              rcases hd with hd | ⟨hd, rfl⟩
              · rw [hd]
                rfl
              · cases q with
                | nil => simp
                | cons j q => simp [hd, entryAt_cons]
            · have hk' : ¬ (k = n) := fun h => hk h.symm
              simp [hk, hk', List.cons_prefix_cons]
      simp only [mkdirs] at h
      split at h
      · rename_i hn
        obtain ⟨s', hs', rfl⟩ := Option.map_eq_some_iff.mp h
        exact step nil s' hs' (Or.inr ⟨hn, rfl⟩)
      · rename_i s hs
        obtain ⟨s', hs', rfl⟩ := Option.map_eq_some_iff.mp h
        exact step s s' hs' (Or.inl hs)
      · cases h

/-- Parents can be created exactly when no regular file stands on the way. -/
theorem mkdirs_isSome {d : Dir ν α} {p : List ν} :
    (d.mkdirs p).isSome ↔ ∀ q, q <+: p → ∀ c, d.entryAt q ≠ some (.file c) := by
  induction p generalizing d with
  | nil => simp [mkdirs]
  | cons n p ih =>
      have hcons (P : List ν → Prop) :
          (∀ q, q <+: n :: p → P q) ↔ P [] ∧ ∀ q, q <+: p → P (n :: q) := by
        constructor
        · intro h
          exact ⟨h [] (List.nil_prefix), fun q hq => h _ (List.cons_prefix_cons.mpr ⟨rfl, hq⟩)⟩
        · intro h q hq
          cases q with
          | nil => exact h.1
          | cons k q =>
              obtain ⟨rfl, hqp⟩ := List.cons_prefix_cons.mp hq
              exact h.2 q hqp
      rw [hcons (fun q => ∀ c, d.entryAt q ≠ some (.file c))]
      simp only [mkdirs, entryAt_nil, entryAt_cons]
      cases hn : d.find? n with
      | none =>
          have hnil : ((nil : Dir ν α).mkdirs p).isSome := by
            rw [ih]
            intro q _ c
            cases q <;> simp [entryAt_cons]
          simp [Option.isSome_map, hnil]
      | some x =>
          cases x with
          | dir s =>
              rw [Option.isSome_map, ih]
              simp [Dir.entryAt]
          | file c =>
              simp only [Option.isSome_none, Bool.false_eq_true, ne_eq, false_iff]
              intro h
              exact h.2 [] List.nil_prefix c (by simp)

theorem total_mkdirs (w : α → Nat) {d d' : Dir ν α} {p : List ν} (hd : d.Distinct)
    (h : d.mkdirs p = some d') : d'.total w = d.total w := by
  induction p generalizing d d' with
  | nil => simp only [mkdirs, Option.some.injEq] at h; rw [h]
  | cons n p ih =>
      simp only [mkdirs] at h
      split at h
      · rename_i hn
        obtain ⟨s, hs, rfl⟩ := Option.map_eq_some_iff.mp h
        have hsub := ih Node.distinct_nil hs
        have hset := total_set w hd n (some (.dir s))
        simp only [hn, weightOf_none, weightOf_some, Node.total, set, hsub, total] at hset
        omega
      · rename_i s hs
        obtain ⟨s', hs', rfl⟩ := Option.map_eq_some_iff.mp h
        have hsub := ih (hd.of_find? hs) hs'
        have hset := total_set w hd n (some (.dir s'))
        simp only [hs, weightOf_some, Node.total, set, hsub] at hset
        omega
      · cases h

/-! ## The single operations -/

/-- The paths at or below a regular file are the file itself. -/
theorem entryAt_at_file (c : α) {p q : List ν} (hpq : p <+: q) :
    (Node.file c : Node ν α).entryAt (q.drop p.length) =
      if q = p then some (.file c) else none := by
  obtain ⟨r, rfl⟩ := hpq
  cases r <;> simp

theorem entryAt_writeFile {d d' : Dir ν α} {p : List ν} {c : α}
    (h : d.writeFile p c = some d') (q : List ν) :
    d'.entryAt q = if q = p then some (.file c) else d.entryAt q := by
  obtain ⟨x, hx, hat⟩ := entryAt_update h
  rw [hat q]
  by_cases hpq : p <+: q
  · have hfile : x = some (.file c) ∧ ∀ s, d.get? p ≠ some (.dir s) := by
      split at hx <;> simp_all
    rw [if_pos hpq, hfile.1, Option.bind_some, entryAt_at_file c hpq]
    by_cases hqp : q = p
    · rw [if_pos hqp, if_pos hqp]
    · rw [if_neg hqp, if_neg hqp]
      obtain ⟨r, rfl⟩ := hpq
      rw [entryAt_append]
      cases hp : d.get? p with
      | none => rfl
      | some y =>
          cases y with
          | dir s => exact absurd hp (hfile.2 s)
          | file c' => cases r <;> simp_all
  · have hqp : q ≠ p := fun heq => hpq (heq ▸ List.prefix_rfl)
    rw [if_neg hpq, if_neg hqp]

theorem total_writeFile (w : α → Nat) {d d' : Dir ν α} {p : List ν} {c : α}
    (hd : d.Distinct) (h : d.writeFile p c = some d') :
    d'.total w + weightOf w (d.get? p) = d.total w + w c := by
  obtain ⟨x, hx, htotal⟩ := total_update w hd h
  have hfile : x = some (.file c) := by
    split at hx <;> simp_all
  rw [htotal, hfile]
  rfl

theorem entryAt_removeAll {d d' : Dir ν α} {p : List ν} (h : d.removeAll p = some d')
    (q : List ν) : d'.entryAt q = if p <+: q then none else d.entryAt q := by
  obtain ⟨x, hx, hat⟩ := entryAt_update h
  have hgone : x = none := by
    split at hx <;> simp_all
  rw [hat q, hgone]
  rfl

theorem total_removeAll (w : α → Nat) {d d' : Dir ν α} {p : List ν} (hd : d.Distinct)
    (h : d.removeAll p = some d') : d'.total w + weightOf w (d.get? p) = d.total w := by
  obtain ⟨x, hx, htotal⟩ := total_update w hd h
  have hgone : x = none := by
    split at hx <;> simp_all
  rw [htotal, hgone]
  rfl

/-- `remove` is `removeAll` restricted to what it accepts. -/
theorem removeAll_of_remove {d d' : Dir ν α} {p : List ν} (h : d.remove p = some d') :
    d.removeAll p = some d' := by
  unfold remove at h
  unfold removeAll
  induction p generalizing d d' with
  | nil => cases d <;> simp [update] at h
  | cons n p ih =>
      cases p with
      | nil =>
          simp only [update, Option.map_eq_some_iff] at h ⊢
          obtain ⟨x, hx, rfl⟩ := h
          refine ⟨x, ?_, rfl⟩
          split at hx <;> simp_all
      | cons m p =>
          simp only [update] at h ⊢
          split at h
          · rename_i s hs
            obtain ⟨s', hs', rfl⟩ := Option.map_eq_some_iff.mp h
            simp [ih hs']
          · cases h

/-- What a plain removal may find at its path. -/
theorem remove_finds {d d' : Dir ν α} {p : List ν} (h : d.remove p = some d') :
    (∃ c, d.entryAt p = some (.file c)) ∨
      d.entryAt p = some .dir ∧ ∀ n q, d.entryAt (p ++ n :: q) = none := by
  obtain ⟨x, hx, _⟩ := entryAt_update h
  rw [entryAt_eq]
  split at hx
  · rename_i c hc
    exact Or.inl ⟨c, by rw [hc]; rfl⟩
  · rename_i hc
    refine Or.inr ⟨by rw [hc]; rfl, ?_⟩
    intro n q
    rw [entryAt_append, hc]
    simp [Node.entryAt_dir_cons]
  · cases hx

/-- A successful rename either stays in place or detaches the source and
attaches it at a destination it may replace. -/
theorem rename_cases {d d' : Dir ν α} {src dst : List ν} (h : d.rename src dst = some d') :
    (src = dst ∧ d' = d ∧ d.get? src ≠ none) ∨
    (∃ x d₁, d.get? src = some x ∧ ¬ src <+: dst ∧ ¬ dst <+: src ∧
      d.removeAll src = some d₁ ∧
      d₁.update (fun y => if replaces x y then some (some x) else none) dst = some d') := by
  unfold rename at h
  cases hx : d.get? src with
  | none => simp [hx] at h
  | some x =>
      simp only [hx] at h
      by_cases heq : src = dst
      · simp only [heq, if_true, Option.some.injEq] at h
        exact Or.inl ⟨heq, h.symm, by simp⟩
      · by_cases hpre : src <+: dst ∨ dst <+: src
        · simp [heq, hpre] at h
        · simp only [heq, hpre, if_false] at h
          obtain ⟨d₁, hd₁, hd'⟩ := Option.bind_eq_some_iff.mp h
          rw [not_or] at hpre
          exact Or.inr ⟨x, d₁, rfl, hpre.1, hpre.2, hd₁, hd'⟩

/-- After a rename to another path, the destination shows what the source
showed, and nothing is left at the source. -/
theorem entryAt_rename {d d' : Dir ν α} {src dst : List ν} (hne : src ≠ dst)
    (h : d.rename src dst = some d') (q : List ν) :
    d'.entryAt q =
      if dst <+: q then d.entryAt (src ++ q.drop dst.length)
      else if src <+: q then none else d.entryAt q := by
  rcases rename_cases h with ⟨heq, _⟩ | ⟨x, d₁, hx, _, _, hd₁, hd'⟩
  · exact absurd heq hne
  · obtain ⟨y, hy, hat⟩ := entryAt_update hd'
    have hxy : y = some x := by
      split at hy <;> simp_all
    rw [hat q, hxy, entryAt_removeAll hd₁ q]
    by_cases hq : dst <+: q
    · rw [if_pos hq, if_pos hq, entryAt_append, hx]
    · rw [if_neg hq, if_neg hq]

/-- A rename to another path costs the weight of what it replaces. -/
theorem total_rename (w : α → Nat) {d d' : Dir ν α} {src dst : List ν} (hd : d.Distinct)
    (hne : src ≠ dst) (h : d.rename src dst = some d') :
    d'.total w + weightOf w (d.get? dst) = d.total w := by
  rcases rename_cases h with ⟨heq, _⟩ | ⟨x, d₁, hx, h₁, h₂, hd₁, hd'⟩
  · exact absurd heq hne
  · have hd₁' : d₁.Distinct := update_distinct (by
      intro a b hab _ z hz
      split at hab <;> simp_all) hd hd₁
    obtain ⟨y, hy, htotal⟩ := total_update w hd₁' hd'
    have hxy : y = some x := by
      split at hy <;> simp_all
    have hdetach := total_removeAll w hd hd₁
    have hkeep : d₁.get? dst = d.get? dst := get?_update hd₁ h₁ h₂
    rw [hx, weightOf_some] at hdetach
    rw [hxy, weightOf_some, hkeep] at htotal
    omega

end Dir

/-! ## On trees -/

namespace Tree

variable {ν α : Type} [DecidableEq ν]

/-- Run an operation that keeps names distinct. -/
def lift (t : Tree ν α) (f : Dir ν α → Option (Dir ν α))
    (hf : ∀ d', f t.root = some d' → d'.Distinct) : Option (Tree ν α) :=
  match h : f t.root with
  | some d' => some ⟨d', hf d' h⟩
  | none => none

omit [DecidableEq ν] in
theorem lift_eq_some_iff {t t' : Tree ν α} {f : Dir ν α → Option (Dir ν α)}
    {hf : ∀ d', f t.root = some d' → d'.Distinct} :
    t.lift f hf = some t' ↔ f t.root = some t'.root := by
  unfold lift
  split
  · rename_i d' h
    constructor
    · intro heq
      cases heq
      exact h
    · intro heq
      cases t'
      simp_all
  · rename_i h
    simp [h]

theorem removeAll_distinct {t : Tree ν α} {p : List ν} {d' : Dir ν α}
    (h : t.root.removeAll p = some d') : d'.Distinct := by
  refine Dir.update_distinct ?_ t.distinct h
  intro x y hxy _ z hz
  split at hxy <;> simp_all

theorem writeFile_distinct {t : Tree ν α} {p : List ν} {c : α} {d' : Dir ν α}
    (h : t.root.writeFile p c = some d') : d'.Distinct := by
  refine Dir.update_distinct ?_ t.distinct h
  intro x y hxy _ z hz
  have hy : y = some (.file c) := by
    split at hxy <;> simp_all
  rw [hy, Option.mem_some_iff] at hz
  rw [← hz]
  trivial

theorem rename_distinct {t : Tree ν α} {src dst : List ν} {d' : Dir ν α}
    (h : t.root.rename src dst = some d') : d'.Distinct := by
  rcases Dir.rename_cases h with ⟨_, rfl, _⟩ | ⟨x, d₁, hx, _, _, hd₁, hd'⟩
  · exact t.distinct
  · have hxd : x.Distinct := Node.Distinct.get? (x := .dir t.root) t.distinct hx
    refine Dir.update_distinct ?_ (removeAll_distinct hd₁) hd'
    intro a b hab _ z hz
    split at hab <;> simp_all

def mkdirs (t : Tree ν α) (p : List ν) : Option (Tree ν α) :=
  t.lift (Dir.mkdirs · p) (fun _ h => Dir.mkdirs_distinct t.distinct h)

def writeFile (t : Tree ν α) (p : List ν) (c : α) : Option (Tree ν α) :=
  t.lift (Dir.writeFile · p c) (fun _ h => writeFile_distinct h)

def remove (t : Tree ν α) (p : List ν) : Option (Tree ν α) :=
  t.lift (Dir.remove · p) (fun _ h => removeAll_distinct (Dir.removeAll_of_remove h))

def removeAll (t : Tree ν α) (p : List ν) : Option (Tree ν α) :=
  t.lift (Dir.removeAll · p) (fun _ h => removeAll_distinct h)

def rename (t : Tree ν α) (src dst : List ν) : Option (Tree ν α) :=
  t.lift (Dir.rename · src dst) (fun _ h => rename_distinct h)

variable {t t' : Tree ν α}

theorem entryAt_mkdirs {p : List ν} (h : t.mkdirs p = some t') (q : List ν) :
    t'.entryAt q = if q <+: p then some .dir else t.entryAt q :=
  Dir.entryAt_mkdirs (lift_eq_some_iff.mp h) q

theorem total_mkdirs (w : α → Nat) {p : List ν} (h : t.mkdirs p = some t') :
    t'.total w = t.total w :=
  Dir.total_mkdirs w t.distinct (lift_eq_some_iff.mp h)

theorem entryAt_writeFile {p : List ν} {c : α} (h : t.writeFile p c = some t') (q : List ν) :
    t'.entryAt q = if q = p then some (.file c) else t.entryAt q :=
  Dir.entryAt_writeFile (lift_eq_some_iff.mp h) q

theorem total_writeFile (w : α → Nat) {p : List ν} {c : α} (h : t.writeFile p c = some t') :
    t'.total w + Dir.weightOf w (t.get? p) = t.total w + w c :=
  Dir.total_writeFile w t.distinct (lift_eq_some_iff.mp h)

theorem entryAt_removeAll {p : List ν} (h : t.removeAll p = some t') (q : List ν) :
    t'.entryAt q = if p <+: q then none else t.entryAt q :=
  Dir.entryAt_removeAll (lift_eq_some_iff.mp h) q

theorem total_removeAll (w : α → Nat) {p : List ν} (h : t.removeAll p = some t') :
    t'.total w + Dir.weightOf w (t.get? p) = t.total w :=
  Dir.total_removeAll w t.distinct (lift_eq_some_iff.mp h)

/-- What `remove` does, `removeAll` would have done. -/
theorem removeAll_of_remove {p : List ν} (h : t.remove p = some t') :
    t.removeAll p = some t' :=
  lift_eq_some_iff.mpr (Dir.removeAll_of_remove (lift_eq_some_iff.mp h))

theorem remove_finds {p : List ν} (h : t.remove p = some t') :
    (∃ c, t.entryAt p = some (.file c)) ∨
      t.entryAt p = some .dir ∧ ∀ n q, t.entryAt (p ++ n :: q) = none :=
  Dir.remove_finds (lift_eq_some_iff.mp h)

/-- Nothing was below what `remove` takes away. -/
theorem entryAt_remove {p : List ν} (h : t.remove p = some t') (q : List ν) :
    t'.entryAt q = if q = p then none else t.entryAt q := by
  rw [entryAt_removeAll (removeAll_of_remove h)]
  by_cases hpq : p <+: q
  · obtain ⟨r, rfl⟩ := hpq
    rw [if_pos (List.prefix_append p r)]
    by_cases hr : r = []
    · rw [if_pos (by rw [hr, List.append_nil])]
    · have hbelow : t.entryAt (p ++ r) = none := by
        obtain ⟨n, r, rfl⟩ := List.exists_cons_of_ne_nil hr
        rcases remove_finds h with ⟨c, hc⟩ | ⟨_, hempty⟩
        · exact Dir.entryAt_below_file (d := t.root) hc hr
        · exact hempty n r
      rw [if_neg (by simpa using hr), hbelow]
  · have hne : q ≠ p := fun heq => hpq (heq ▸ List.prefix_rfl)
    rw [if_neg hpq, if_neg hne]

/-- A path renamed onto itself leaves the tree alone. -/
theorem rename_self {p : List ν} (h : t.rename p p = some t') : t' = t := by
  have hroot := lift_eq_some_iff.mp h
  rcases Dir.rename_cases hroot with ⟨_, heq, _⟩ | ⟨_, _, _, hne, _⟩
  · cases t
    cases t'
    simp_all
  · exact absurd List.prefix_rfl hne

theorem entryAt_rename {src dst : List ν} (hne : src ≠ dst) (h : t.rename src dst = some t')
    (q : List ν) :
    t'.entryAt q =
      if dst <+: q then t.entryAt (src ++ q.drop dst.length)
      else if src <+: q then none else t.entryAt q :=
  Dir.entryAt_rename hne (lift_eq_some_iff.mp h) q

/-- A rename to another path never joins a path with one below it. -/
theorem rename_incomparable {src dst : List ν} (hne : src ≠ dst)
    (h : t.rename src dst = some t') : ¬ src <+: dst ∧ ¬ dst <+: src := by
  rcases Dir.rename_cases (lift_eq_some_iff.mp h) with ⟨heq, _⟩ | ⟨_, _, _, h₁, h₂, _⟩
  · exact absurd heq hne
  · exact ⟨h₁, h₂⟩

theorem rename_source {src dst : List ν} (h : t.rename src dst = some t') :
    t.entryAt src ≠ none := by
  intro hnone
  have hget := (Dir.get?_eq_none_iff t.root src).mpr hnone
  rcases Dir.rename_cases (lift_eq_some_iff.mp h) with ⟨_, _, hsrc⟩ | ⟨_, _, hsrc, _⟩
  · exact hsrc hget
  · rw [hget] at hsrc
    cases hsrc

theorem total_rename (w : α → Nat) {src dst : List ν} (hne : src ≠ dst)
    (h : t.rename src dst = some t') :
    t'.total w + Dir.weightOf w (t.get? dst) = t.total w :=
  Dir.total_rename w t.distinct hne (lift_eq_some_iff.mp h)

/-- What a rename to another path finds at its destination: nothing, a file
when a file moves, an empty directory when a directory moves. -/
theorem rename_target {src dst : List ν} (hne : src ≠ dst) (h : t.rename src dst = some t') :
    t.entryAt dst = none ∨
    (∃ c c', t.entryAt src = some (.file c) ∧ t.entryAt dst = some (.file c')) ∨
    (t.entryAt src = some .dir ∧ t.entryAt dst = some .dir ∧
      ∀ n q, t.entryAt (dst ++ n :: q) = none) := by
  rcases Dir.rename_cases (lift_eq_some_iff.mp h) with ⟨heq, _⟩ | ⟨x, d₁, hx, h₁, h₂, hd₁, hd'⟩
  · exact absurd heq hne
  · have hsrc : t.entryAt src = some x.entry := by
      unfold entryAt
      rw [Dir.entryAt_eq, hx]
      rfl
    have hkeep (r : List ν) : d₁.entryAt (dst ++ r) = t.entryAt (dst ++ r) := by
      rw [Dir.entryAt_removeAll hd₁, if_neg]
      · rfl
      · intro hpre
        rcases List.prefix_or_prefix_of_prefix hpre (List.prefix_append dst r) with hs | hs
        · exact h₁ hs
        · exact h₂ hs
    obtain ⟨y, hy, _⟩ := Dir.entryAt_update hd'
    have hrep : Dir.replaces x (d₁.get? dst) = true := by
      split at hy <;> simp_all
    have hdst : t.entryAt dst = (d₁.get? dst).map Node.entry := by
      have := hkeep []
      rw [List.append_nil] at this
      rw [← this, Dir.entryAt_eq]
    rw [hsrc, hdst]
    cases hget : d₁.get? dst with
    | none => exact Or.inl rfl
    | some z =>
        rw [hget] at hrep
        cases x with
        | file c =>
            cases z with
            | file c' => exact Or.inr (Or.inl ⟨c, c', rfl, rfl⟩)
            | dir s => simp [Dir.replaces] at hrep
        | dir s =>
            cases z with
            | file c' => simp [Dir.replaces] at hrep
            | dir s' =>
                have hs' : s' = .nil := by
                  cases s' <;> simp [Dir.replaces] at hrep
                  rfl
                refine Or.inr (Or.inr ⟨rfl, rfl, ?_⟩)
                intro n q
                rw [← hkeep, Dir.entryAt_append, hget, hs']
                simp [Node.entryAt_dir_cons]

/-- Nothing lay below the destination of a rename to another path. -/
theorem rename_below_target {src dst : List ν} (hne : src ≠ dst)
    (h : t.rename src dst = some t') {r : List ν} (hr : r ≠ []) :
    t.entryAt (dst ++ r) = none := by
  obtain ⟨n, q, rfl⟩ := List.exists_cons_of_ne_nil hr
  rcases rename_target hne h with hnone | ⟨_, c', _, hfile⟩ | ⟨_, _, hempty⟩
  · by_contra hsome
    have := Dir.entryAt_parent_dir (d := t.root) hr hsome
    rw [show t.entryAt dst = some .dir from this] at hnone
    cases hnone
  · exact Dir.entryAt_below_file hfile hr
  · exact hempty n q

/-! ## Files -/

theorem fileAt_congr {p q : List ν} (h : t'.entryAt p = t.entryAt q) :
    t'.fileAt p = t.fileAt q := by
  unfold fileAt
  rw [h]

theorem fileAt_mkdirs {p : List ν} (h : t.mkdirs p = some t') (q : List ν) :
    t'.fileAt q = t.fileAt q := by
  have hat := entryAt_mkdirs h q
  by_cases hq : q <+: p
  · rw [if_pos hq] at hat
    have hsome : (t.root.mkdirs p).isSome := by
      rw [lift_eq_some_iff.mp h]
      rfl
    have hfree := Dir.mkdirs_isSome.mp hsome q hq
    cases hfile : t.fileAt q with
    | some c => exact absurd (fileAt_eq_some_iff.mp hfile) (hfree c)
    | none =>
        unfold fileAt
        rw [hat]
  · rw [if_neg hq] at hat
    exact fileAt_congr hat

theorem fileAt_removeAll {p : List ν} (h : t.removeAll p = some t') (q : List ν) :
    t'.fileAt q = if p <+: q then none else t.fileAt q := by
  have hat := entryAt_removeAll h q
  by_cases hq : p <+: q
  · rw [if_pos hq] at hat ⊢
    unfold fileAt
    rw [hat]
  · rw [if_neg hq] at hat ⊢
    exact fileAt_congr hat

theorem fileAt_rename {src dst : List ν} (hne : src ≠ dst) (h : t.rename src dst = some t')
    (q : List ν) :
    t'.fileAt q =
      if dst <+: q then t.fileAt (src ++ q.drop dst.length)
      else if src <+: q then none else t.fileAt q := by
  have hat := entryAt_rename hne h q
  by_cases hq : dst <+: q
  · rw [if_pos hq] at hat ⊢
    exact fileAt_congr hat
  · rw [if_neg hq] at hat ⊢
    by_cases hs : src <+: q
    · rw [if_pos hs] at hat ⊢
      unfold fileAt
      rw [hat]
    · rw [if_neg hs] at hat ⊢
      exact fileAt_congr hat

end Tree

end FileTree
