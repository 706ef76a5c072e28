import Lectern.LiveFiles

/-!
# What a listing names

`Listed` reads a listing the way a client does: the rows of the array, and
below a folder the rows of its children.  Every row names an entry that is
there, by the key it has below the directory that was listed.
-/

namespace Lectern

open FileTree

/-- The value of a listing has a row with this relative path and kind. -/
inductive Listed : Json → Str → Bool → Prop
  | row {items : List Json} {v : Json} {relPath : Str} {isDir : Bool} (hv : v ∈ items)
      (hpath : v.find? (str "relPath") = some (.string relPath))
      (hdir : v.find? (str "isDir") = some (.bool isDir)) : Listed (.array items) relPath isDir
  | inside {items : List Json} {v children : Json} {relPath : Str} {isDir : Bool} (hv : v ∈ items)
      (hchildren : v.find? (str "children") = some children)
      (h : Listed children relPath isDir) : Listed (.array items) relPath isDir

/-- One row shows a path: its own, or one of its children's. -/
def Shows (v : Json) (relPath : Str) (isDir : Bool) : Prop :=
  v.find? (str "relPath") = some (.string relPath) ∧ v.find? (str "isDir") = some (.bool isDir) ∨
    ∃ children, v.find? (str "children") = some children ∧ Listed children relPath isDir

theorem listed_array {items : List Json} {relPath : Str} {isDir : Bool}
    (h : Listed (.array items) relPath isDir) : ∃ v ∈ items, Shows v relPath isDir := by
  cases h with
  | row hv hpath hdir => exact ⟨_, hv, Or.inl ⟨hpath, hdir⟩⟩
  | inside hv hchildren h => exact ⟨_, hv, Or.inr ⟨_, hchildren, h⟩⟩

theorem shows_listingValue {name path hash relPath : Str} {dir isDir : Bool} {modified : Nat}
    {children : List Json}
    (h : Shows (listingValue name path dir modified hash children) relPath isDir) :
    relPath = path ∧ isDir = dir ∨ Listed (.array children) relPath isDir := by
  have hpath : (listingValue name path dir modified hash children).find? (str "relPath") =
      some (.string path) := rfl
  have hdir : (listingValue name path dir modified hash children).find? (str "isDir") =
      some (.bool dir) := rfl
  have hchildren : (listingValue name path dir modified hash children).find? (str "children") =
      some (.array children) := rfl
  rcases h with ⟨h₁, h₂⟩ | ⟨c, hc, h⟩
  · rw [hpath] at h₁
    rw [hdir] at h₂
    cases h₁
    cases h₂
    exact Or.inl ⟨rfl, rfl⟩
  · rw [hchildren] at hc
    cases hc
    exact Or.inr h

/-- The key of a path seen from a directory that is itself listed as `pre`. -/
def keyBelow (pre : Str) (t : List Str) : Str := if pre = [] then keyOf t else pre ++ slash :: keyOf t

theorem keyBelow_cons {pre name : Str} {t : List Str} (hname : name ≠ []) (ht : t ≠ []) :
    keyBelow (if pre = [] then name else pre ++ slash :: name) t = keyBelow pre (name :: t) := by
  obtain ⟨m, t, rfl⟩ := List.exists_cons_of_ne_nil ht
  unfold keyBelow
  by_cases hpre : pre = []
  · rw [if_pos hpre, if_pos hpre, if_neg hname, keyOf_cons_cons]
  · rw [if_neg hpre, if_neg hpre, if_neg (by simp), keyOf_cons_cons, List.append_assoc,
      List.cons_append]

/-- The kind of an entry, as the flag a listing carries. -/
def HasKind (entry : Option (Entry Str)) (isDir : Bool) : Prop :=
  match isDir with
  | true => entry = some .dir
  | false => ∃ c, entry = some (.file c)

theorem HasKind.ne_none {entry : Option (Entry Str)} {isDir : Bool} (h : HasKind entry isDir) :
    entry ≠ none := by
  rintro rfl
  cases isDir with
  | true => cases h
  | false =>
      obtain ⟨c, hc⟩ := h
      cases hc

/-- The directory shows what its remaining entries show. -/
def Extends (d rest : Dir Str Str) : Prop :=
  ∀ t, t ≠ [] → rest.entryAt t ≠ none → d.entryAt t = rest.entryAt t

theorem extends_file {name : Str} {c : Str} {rest : Dir Str Str} (hn : name ∉ rest.names) :
    Extends (.file name c rest) rest := by
  intro t ht hat
  obtain ⟨m, q, rfl⟩ := List.exists_cons_of_ne_nil ht
  rw [Dir.entryAt_file, if_neg (Dir.ne_of_entryAt hn hat)]

theorem extends_dir {name : Str} {sub rest : Dir Str Str} (hn : name ∉ rest.names) :
    Extends (.dir name sub rest) rest := by
  intro t ht hat
  obtain ⟨m, q, rfl⟩ := List.exists_cons_of_ne_nil ht
  rw [Dir.entryAt_dir, if_neg (Dir.ne_of_entryAt hn hat)]

theorem Extends.names {d rest : Dir Str Str} (h : Extends d rest)
    (hnames : ∀ t, d.entryAt t ≠ none → [] ∉ t) (t : List Str) (hat : rest.entryAt t ≠ none) :
    [] ∉ t := by
  by_cases ht : t = []
  · rw [ht]
    exact List.not_mem_nil
  · exact hnames t (h t ht hat ▸ hat)

theorem Extends.lift {d rest : Dir Str Str} (h : Extends d rest) {pre relPath : Str} {isDir : Bool}
    (hrest : ∃ t, t ≠ [] ∧ relPath = keyBelow pre t ∧ HasKind (rest.entryAt t) isDir) :
    ∃ t, t ≠ [] ∧ relPath = keyBelow pre t ∧ HasKind (d.entryAt t) isDir := by
  obtain ⟨t, ht, hpath, hkind⟩ := hrest
  exact ⟨t, ht, hpath, h t ht hkind.ne_none ▸ hkind⟩

/-- Every row of a directory, at every depth, names an entry below it. -/
theorem shows_walkEntries (probe : Probe) {d : Dir Str Str} (hd : d.Distinct)
    (hnames : ∀ t, d.entryAt t ≠ none → [] ∉ t) {at_ : List Str} {pre : Str} {e : ListEntry}
    (he : e ∈ walkEntries probe d at_ pre) {relPath : Str} {isDir : Bool}
    (h : Shows e.value relPath isDir) :
    ∃ t, t ≠ [] ∧ relPath = keyBelow pre t ∧ HasKind (d.entryAt t) isDir := by
  induction d generalizing at_ pre e with
  | nil => cases he
  | file name content rest ih =>
      have hext : Extends (.file name content rest) rest := extends_file hd.1
      have hlater : e ∈ walkEntries probe rest at_ pre → _ := fun hmem =>
        hext.lift (ih hd.2 (hext.names hnames) hmem h)
      rw [walkEntries] at he
      by_cases hdot : name.head? = some dot
      · rw [if_pos hdot] at he
        exact hlater he
      · rw [if_neg hdot] at he
        rcases List.mem_cons.mp he with rfl | he
        · rcases shows_listingValue h with ⟨rfl, rfl⟩ | hnone
          · refine ⟨[name], List.cons_ne_nil _ _, ?_, content, ?_⟩
            · unfold keyBelow
              rw [keyOf_singleton]
            · simp [Dir.entryAt_file]
          · obtain ⟨v, hv, _⟩ := listed_array hnone
            cases hv
        · exact hlater he
  | dir name sub rest ihsub ihrest =>
      have hext : Extends (.dir name sub rest) rest := extends_dir hd.1
      have hsub : ∀ t, (Dir.dir name sub rest).entryAt (name :: t) = sub.entryAt t := by
        intro t
        rw [Dir.entryAt_dir, if_pos rfl]
      have hname : name ≠ [] := by
        intro hnil
        have hexists : (Dir.dir name sub rest).entryAt [name] ≠ none := by simp [hsub]
        exact hnames [name] hexists (hnil ▸ List.mem_cons_self)
      rw [walkEntries] at he
      rcases List.mem_cons.mp he with rfl | he
      · rcases shows_listingValue h with ⟨rfl, rfl⟩ | hchild
        · refine ⟨[name], List.cons_ne_nil _ _, ?_, ?_⟩
          · unfold keyBelow
            rw [keyOf_singleton]
          · show (Dir.dir name sub rest).entryAt [name] = some .dir
            rw [hsub, Dir.entryAt_nil]
        · obtain ⟨v, hv, hshows⟩ := listed_array hchild
          obtain ⟨e', he', rfl⟩ := List.mem_map.mp hv
          have hnames' : ∀ t, sub.entryAt t ≠ none → [] ∉ t := by
            intro t hat hmem
            exact hnames (name :: t) (by rwa [hsub]) (List.mem_cons_of_mem _ hmem)
          obtain ⟨t, ht, hpath, hkind⟩ :=
            ihsub hd.2.1 hnames' (List.mem_mergeSort.mp he') hshows
          refine ⟨name :: t, List.cons_ne_nil _ _, ?_, ?_⟩
          · rw [hpath, keyBelow_cons hname ht]
          · rw [hsub]
            exact hkind
      · exact hext.lift (ihrest hd.2.2 (hext.names hnames) he h)

/-- **Every listed path is there**: the listing of a directory names entries
below it by their keys. -/
theorem listed_listing (probe : Probe) {d : Dir Str Str} (hd : d.Distinct)
    (hnames : ∀ t, d.entryAt t ≠ none → [] ∉ t) {at_ : List Str} {relPath : Str} {isDir : Bool}
    (h : Listed (listing probe d at_ []) relPath isDir) :
    ∃ t, t ≠ [] ∧ relPath = keyOf t ∧ HasKind (d.entryAt t) isDir := by
  obtain ⟨v, hv, hshows⟩ := listed_array h
  obtain ⟨e, he, rfl⟩ := List.mem_map.mp hv
  obtain ⟨t, ht, hpath, hkind⟩ :=
    shows_walkEntries probe hd hnames (List.mem_mergeSort.mp he) hshows
  exact ⟨t, ht, hpath, hkind⟩

end Lectern
