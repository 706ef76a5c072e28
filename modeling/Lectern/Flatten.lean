import Lectern.FileTree.Entries
import Lectern.Listing

/-!
# The flattened listing

A client reads a listing row by row, going into the children of every folder.
`flatten` is that reading; what it yields is compared with `entries`, the list
of everything in the directory.  Each level of the walk filters, prefixes and
sorts, so the two agree up to order (`flatten_listing`), and every array of the
value is sorted (`arrayOf_listing`).
-/

namespace Lectern

open FileTree

/-! ## Reading a listing -/

/-- What a client takes from one row. -/
structure Row where
  name : Str
  relPath : Str
  isDir : Bool
  hash : Str
  deriving DecidableEq, Repr

def rowOf (v : Json) : Row :=
  ⟨v.fStringField (str "name"), v.fStringField (str "relPath"), fJsonBool v (str "isDir"),
    v.fStringField (str "hash")⟩

mutual

/-- The rows of a listing, those of the children after their folder's. -/
def flatten : Json → List Row
  | .array items => flattenAll items
  | _ => []

def flattenAll : List Json → List Row
  | [] => []
  | v :: items => flattenOne v ++ flattenAll items

def flattenOne : Json → List Row
  | .object fields => rowOf (.object fields) :: flattenChildren fields
  | _ => []

def flattenChildren : List (Str × Json) → List Row
  | [] => []
  | (key, value) :: fields =>
      (if key = str "children" then flatten value else []) ++ flattenChildren fields

end

/-- The arrays of a listing: its own, and those of its folders' children. -/
inductive ArrayOf : Json → List Json → Prop
  | top (items : List Json) : ArrayOf (.array items) items
  | inside {items inner : List Json} {v children : Json} (hv : v ∈ items)
      (hchildren : v.find? (str "children") = some children) (h : ArrayOf children inner) :
      ArrayOf (.array items) inner

/-- Directories first, then by lowercased name. -/
def RowLe (v w : Json) : Prop :=
  fJsonBool v (str "isDir") = true ∧ fJsonBool w (str "isDir") = false ∨
    fJsonBool v (str "isDir") = fJsonBool w (str "isDir") ∧
      fToLower (v.fStringField (str "name")) ≤ fToLower (w.fStringField (str "name"))

theorem flattenAll_eq (items : List Json) : flattenAll items = items.flatMap flattenOne := by
  induction items with
  | nil => rfl
  | cons v items ih => rw [flattenAll, ih, List.flatMap_cons]

/-! ## One row of the walk -/

section ListingValue

variable (name relPath hash : Str) (isDir : Bool) (modified : Nat) (children : List Json)

theorem rowOf_listingValue :
    rowOf (listingValue name relPath isDir modified hash children) =
      ⟨name, relPath, isDir, hash⟩ := rfl

theorem name_listingValue :
    (listingValue name relPath isDir modified hash children).fStringField (str "name") = name := rfl

theorem isDir_listingValue :
    fJsonBool (listingValue name relPath isDir modified hash children) (str "isDir") = isDir := rfl

theorem children_listingValue :
    (listingValue name relPath isDir modified hash children).find? (str "children") =
      some (.array children) := rfl

theorem flattenOne_listingValue :
    flattenOne (listingValue name relPath isDir modified hash children) =
      ⟨name, relPath, isDir, hash⟩ :: flattenAll children := by
  have hfields : flattenChildren [(str "name", .string name), (str "relPath", .string relPath),
      (str "isDir", .bool isDir), (str "modified", .int modified), (str "hash", .string hash),
      (str "children", .array children)] = flattenAll children := by
    simp only [flattenChildren, flatten, List.append_nil]
    rfl
  rw [listingValue, flattenOne, hfields]
  exact congrArg (· :: flattenAll children)
    (rowOf_listingValue name relPath hash isDir modified children)

end ListingValue

/-! ## The order of one directory -/

/-- The comparator without its negation: not later than. -/
def entryLe (a b : ListEntry) : Bool := !entryLess b a

theorem entryLe_iff (a b : ListEntry) :
    entryLe a b = true ↔
      a.isDir = true ∧ b.isDir = false ∨ a.isDir = b.isDir ∧ fToLower a.name ≤ fToLower b.name := by
  unfold entryLe entryLess
  cases a.isDir <;> cases b.isDir <;> simp

theorem entryLe_trans (a b c : ListEntry) (hab : entryLe a b = true) (hbc : entryLe b c = true) :
    entryLe a c = true := by
  rw [entryLe_iff] at hab hbc ⊢
  rcases hab with ⟨ha, hb⟩ | ⟨hab, hnames⟩
  · rcases hbc with ⟨hb', _⟩ | ⟨hbc, _⟩
    · simp [hb] at hb'
    · exact Or.inl ⟨ha, hbc ▸ hb⟩
  · rcases hbc with ⟨hb, hc⟩ | ⟨hbc, hnames'⟩
    · exact Or.inl ⟨hab.trans hb, hc⟩
    · exact Or.inr ⟨hab.trans hbc, List.le_trans hnames hnames'⟩

theorem entryLe_total (a b : ListEntry) : (entryLe a b || entryLe b a) = true := by
  rw [Bool.or_eq_true, entryLe_iff, entryLe_iff]
  cases a.isDir <;> cases b.isDir <;> simp [List.le_total]

/-- The comparator is a strict weak order, which is what `std::sort` asks for:
nothing precedes itself, and preceding and not preceding are both transitive. -/
theorem entryLess_strictWeak :
    (∀ a, entryLess a a = false) ∧
    (∀ a b c, entryLess a b = true → entryLess b c = true → entryLess a c = true) ∧
    ∀ a b c, entryLess a b = false → entryLess b c = false → entryLess a c = false := by
  have hnot (a b : ListEntry) : entryLess a b = false ↔ entryLe b a = true := by
    simp [entryLe]
  refine ⟨?_, ?_, ?_⟩
  · intro a
    rw [hnot, entryLe_iff]
    exact Or.inr ⟨rfl, List.le_refl _⟩
  · intro a b c hab hbc
    by_contra hac
    have hca : entryLe c a = true := (hnot a c).mp (by simpa using hac)
    have hba : entryLe b a = true := by
      refine entryLe_trans b c a ?_ hca
      have htotal := entryLe_total b c
      have hcb : entryLe c b = false := by simp [entryLe, hbc]
      simpa [hcb] using htotal
    simp [entryLe, hab] at hba
  · intro a b c hab hbc
    exact (hnot a c).mpr (entryLe_trans c b a ((hnot b c).mp hbc) ((hnot a b).mp hab))

/-- The sorted entries of a directory come in the comparator's order. -/
theorem pairwise_sortEntries (es : List ListEntry) :
    (sortEntries es).Pairwise (fun a b => entryLe a b = true) :=
  List.pairwise_mergeSort entryLe_trans entryLe_total es

/-! ## The rows of a directory -/

/-- A listing shows everything but the files whose own name is dotted. -/
def shown : List Str × Entry Str → Bool
  | (t, .file _) => (t.getLastD []).head? != some dot
  | (_, .dir) => true

/-- The row of an entry below a directory that is itself listed as `pre`. -/
def rowAt (probe : Probe) (pre : Str) : List Str × Entry Str → Row
  | (t, .file c) => ⟨t.getLastD [], keyBelow pre t, false, probe.fSha256File c⟩
  | (t, .dir) => ⟨t.getLastD [], keyBelow pre t, true, []⟩

/-- The rows a listing of a directory should have, in tree order. -/
def rows (probe : Probe) (pre : Str) (d : Dir Str Str) : List Row :=
  (d.entries.filter shown).map (rowAt probe pre)

theorem getLastD_append {t : List Str} (ht : t ≠ []) (p : List Str) :
    (p ++ t).getLastD [] = t.getLastD [] := by
  simp [List.getLastD_eq_getLast?, List.getLast?_append, List.getLast?_eq_some_getLast ht]

/-- Whether an entry is shown is a matter of its own name. -/
theorem shown_append {t : List Str} (ht : t ≠ []) (p : List Str) (e : Entry Str) :
    shown (p ++ t, e) = shown (t, e) := by
  cases e with
  | file c => simp only [shown, getLastD_append ht]
  | dir => rfl

theorem shown_cons (name : Str) {x : List Str × Entry Str} (hx : x.1 ≠ []) :
    shown (Prod.map (name :: ·) id x) = shown x := shown_append hx [name] x.2

theorem rowAt_cons (probe : Probe) (pre : Str) {name : Str} (hname : name ≠ [])
    {x : List Str × Entry Str} (hx : x.1 ≠ []) :
    rowAt probe pre (Prod.map (name :: ·) id x) =
      rowAt probe (if pre = [] then name else pre ++ slash :: name) x := by
  obtain ⟨t, e⟩ := x
  have hkey : keyBelow (if pre = [] then name else pre ++ slash :: name) t =
      keyBelow pre (name :: t) := keyBelow_cons hname hx
  have hlast : (name :: t).getLastD [] = t.getLastD [] := getLastD_append hx [name]
  cases e <;> simp only [rowAt, Prod.map, id_eq, hkey, hlast]

/-- The rows of a folder's contents are those it has when listed itself. -/
theorem rows_inside (probe : Probe) (pre : Str) {name : Str} (hname : name ≠ [])
    (sub : Dir Str Str) :
    ((sub.entries.map (Prod.map (name :: ·) id)).filter shown).map (rowAt probe pre) =
      rows probe (if pre = [] then name else pre ++ slash :: name) sub := by
  have hpaths : ∀ x ∈ sub.entries, x.1 ≠ [] := fun x hx => Dir.path_ne_nil_of_mem_entries hx
  have hshown : sub.entries.filter (shown ∘ Prod.map (name :: ·) id) = sub.entries.filter shown :=
    List.filter_congr (fun x hx => shown_cons name (hpaths x hx))
  rw [List.filter_map, hshown, List.map_map, rows]
  apply List.map_congr_left
  intro x hx
  exact rowAt_cons probe pre hname (hpaths x (List.mem_of_mem_filter hx))

/-- Sorting a level does not change which rows it has. -/
theorem flattenAll_sortEntries (es : List ListEntry) :
    (flattenAll ((sortEntries es).map ListEntry.value)).Perm
      (es.flatMap (fun e => flattenOne e.value)) := by
  rw [flattenAll_eq, List.flatMap_map]
  exact (List.mergeSort_perm es _).flatMap_right _

/-- The rows of the walk, level by level. -/
theorem flatten_walkEntries (probe : Probe) {d : Dir Str Str}
    (hnames : ∀ x ∈ d.entries, [] ∉ x.1) (at_ : List Str) (pre : Str) :
    ((walkEntries probe d at_ pre).flatMap (fun e => flattenOne e.value)).Perm
      (rows probe pre d) := by
  induction d generalizing at_ pre with
  | nil => exact List.Perm.refl _
  | file name content rest ih =>
      have hrest := ih (fun x hx => hnames x (List.mem_cons_of_mem _ hx)) at_ pre
      by_cases hdot : name.head? = some dot
      · have hhidden : rows probe pre (.file name content rest) = rows probe pre rest := by
          simp [rows, Dir.entries, shown, hdot]
        rw [walkEntries, if_pos hdot, hhidden]
        exact hrest
      · have hrow : rows probe pre (.file name content rest) =
            rowAt probe pre ([name], .file content) :: rows probe pre rest := by
          simp [rows, Dir.entries, shown, hdot]
        rw [walkEntries, if_neg hdot, hrow, List.flatMap_cons, flattenOne_listingValue]
        simpa [flattenAll, rowAt, keyBelow] using hrest
  | dir name sub rest ihsub ihrest =>
      have hname : name ≠ [] := by
        intro hnil
        have hfirst := hnames ([name], .dir) List.mem_cons_self
        simp [hnil] at hfirst
      have hinside : ∀ x ∈ sub.entries, [] ∉ x.1 := by
        intro x hx hnil
        have hmem : Prod.map (name :: ·) id x ∈ (Dir.dir name sub rest).entries :=
          List.mem_cons_of_mem _ (List.mem_append_left _ (List.mem_map_of_mem hx))
        exact hnames _ hmem (List.mem_cons_of_mem _ hnil)
      have hafter : ∀ x ∈ rest.entries, [] ∉ x.1 := fun x hx =>
        hnames x (List.mem_cons_of_mem _ (List.mem_append_right _ hx))
      have hrows : rows probe pre (.dir name sub rest) =
          rowAt probe pre ([name], .dir) ::
            (rows probe (if pre = [] then name else pre ++ slash :: name) sub ++
              rows probe pre rest) := by
        have hdir : shown ([name], .dir) = true := rfl
        rw [← rows_inside probe pre hname sub, rows, Dir.entries, List.filter_cons_of_pos hdir,
          List.filter_append, List.map_cons, List.map_append]
        rfl
      rw [walkEntries, hrows, List.flatMap_cons, flattenOne_listingValue]
      have hsub := (flattenAll_sortEntries _).trans (ihsub hinside (at_ ++ [name])
        (if pre = [] then name else pre ++ slash :: name))
      have hrow : rowAt probe pre ([name], .dir) =
          ⟨name, if pre = [] then name else pre ++ slash :: name, true, []⟩ := by
        simp [rowAt, keyBelow]
      rw [hrow, List.cons_append]
      exact (hsub.append (ihrest hafter at_ pre)).cons _

/-- **Flattening a listing gives back the directory**, up to the order of the
entries. -/
theorem flatten_listing (probe : Probe) {d : Dir Str Str}
    (hnames : ∀ x ∈ d.entries, [] ∉ x.1) (at_ : List Str) (pre : Str) :
    (flatten (listing probe d at_ pre)).Perm (rows probe pre d) := by
  rw [listing, flatten]
  exact (flattenAll_sortEntries _).trans (flatten_walkEntries probe hnames at_ pre)

/-! ## The order of every directory -/

/-- The value of a walked entry carries its name and kind. -/
theorem value_of_mem_walkEntries {probe : Probe} {d : Dir Str Str} {at_ : List Str} {pre : Str}
    {e : ListEntry} (he : e ∈ walkEntries probe d at_ pre) :
    e.value.fStringField (str "name") = e.name ∧ fJsonBool e.value (str "isDir") = e.isDir := by
  induction d generalizing at_ pre with
  | nil => cases he
  | file name content rest ih =>
      rw [walkEntries] at he
      by_cases hdot : name.head? = some dot
      · rw [if_pos hdot] at he
        exact ih he
      · rw [if_neg hdot] at he
        rcases List.mem_cons.mp he with rfl | he
        · exact ⟨name_listingValue .., isDir_listingValue ..⟩
        · exact ih he
  | dir name sub rest _ ih =>
      rw [walkEntries] at he
      rcases List.mem_cons.mp he with rfl | he
      · exact ⟨name_listingValue .., isDir_listingValue ..⟩
      · exact ih he

/-- The array of one walked directory is sorted. -/
theorem pairwise_walk (probe : Probe) (d : Dir Str Str) (at_ : List Str) (pre : Str) :
    ((sortEntries (walkEntries probe d at_ pre)).map ListEntry.value).Pairwise RowLe := by
  rw [List.pairwise_map]
  refine (pairwise_sortEntries _).imp_of_mem ?_
  intro a b ha hb hle
  obtain ⟨haname, hadir⟩ := value_of_mem_walkEntries (List.mem_mergeSort.mp ha)
  obtain ⟨hbname, hbdir⟩ := value_of_mem_walkEntries (List.mem_mergeSort.mp hb)
  unfold RowLe
  rw [haname, hadir, hbname, hbdir]
  exact (entryLe_iff a b).mp hle

/-- The arrays below one row are walked directories too. -/
theorem arrayOf_children {probe : Probe} {d : Dir Str Str} {at_ : List Str} {pre : Str}
    {e : ListEntry} (he : e ∈ walkEntries probe d at_ pre) {children : Json} {items : List Json}
    (hchildren : e.value.find? (str "children") = some children) (h : ArrayOf children items) :
    items.Pairwise RowLe := by
  induction d generalizing at_ pre e children items with
  | nil => cases he
  | file name content rest ih =>
      rw [walkEntries] at he
      by_cases hdot : name.head? = some dot
      · rw [if_pos hdot] at he
        exact ih he hchildren h
      · rw [if_neg hdot] at he
        rcases List.mem_cons.mp he with rfl | he
        · rw [children_listingValue, Option.some.injEq] at hchildren
          subst hchildren
          cases h with
          | top => exact List.Pairwise.nil
          | inside hv => cases hv
        · exact ih he hchildren h
  | dir name sub rest ihsub ihrest =>
      rw [walkEntries] at he
      rcases List.mem_cons.mp he with rfl | he
      · rw [children_listingValue, Option.some.injEq] at hchildren
        subst hchildren
        cases h with
        | top => exact pairwise_walk ..
        | inside hv hinner h =>
            obtain ⟨e', he', rfl⟩ := List.mem_map.mp hv
            exact ihsub (List.mem_mergeSort.mp he') hinner h
      · exact ihrest he hchildren h

/-- **Every array of a listing is sorted.** -/
theorem arrayOf_listing {probe : Probe} {d : Dir Str Str} {at_ : List Str} {pre : Str}
    {items : List Json} (h : ArrayOf (listing probe d at_ pre) items) :
    items.Pairwise RowLe := by
  cases h with
  | top => exact pairwise_walk ..
  | inside hv hinner h =>
      obtain ⟨e, he, rfl⟩ := List.mem_map.mp hv
      exact arrayOf_children (List.mem_mergeSort.mp he) hinner h

/-! ## The whole listing -/

theorem mem_rows_iff (probe : Probe) (pre : Str) {d : Dir Str Str} (hd : d.Distinct) (row : Row) :
    row ∈ rows probe pre d ↔
      (∃ t c, d.entryAt t = some (.file c) ∧ (t.getLastD []).head? ≠ some dot ∧
        row = ⟨t.getLastD [], keyBelow pre t, false, probe.fSha256File c⟩) ∨
      ∃ t, t ≠ [] ∧ d.entryAt t = some .dir ∧
        row = ⟨t.getLastD [], keyBelow pre t, true, []⟩ := by
  unfold rows
  rw [List.mem_map]
  constructor
  · rintro ⟨⟨t, e⟩, hmem, rfl⟩
    obtain ⟨hmem, hshown⟩ := List.mem_filter.mp hmem
    obtain ⟨ht, hat⟩ := (Dir.mem_entries_iff hd t e).mp hmem
    cases e with
    | file c => exact Or.inl ⟨t, c, hat, by simpa [shown] using hshown, rfl⟩
    | dir => exact Or.inr ⟨t, ht, hat, rfl⟩
  · rintro (⟨t, c, hat, hdot, rfl⟩ | ⟨t, ht, hat, rfl⟩)
    · have ht : t ≠ [] := by
        rintro rfl
        simp at hat
      have hmem := (Dir.mem_entries_iff hd t (.file c)).mpr ⟨ht, hat⟩
      exact ⟨(t, .file c), List.mem_filter.mpr ⟨hmem, by simpa [shown] using hdot⟩, rfl⟩
    · have hmem := (Dir.mem_entries_iff hd t .dir).mpr ⟨ht, hat⟩
      exact ⟨(t, .dir), List.mem_filter.mpr ⟨hmem, rfl⟩, rfl⟩

/-- Below one directory, paths and keys correspond. -/
theorem keyBelow_injective {pre : Str} {p q : List Str} (hp : ValidPath p) (hq : ValidPath q)
    (h : keyBelow pre p = keyBelow pre q) : p = q := by
  apply keyOf_injective hp hq
  unfold keyBelow at h
  by_cases hpre : pre = []
  · simpa only [hpre, if_true] using h
  · simpa only [hpre, if_false, List.append_cancel_left_eq, List.cons.injEq, true_and] using h

/-- No key appears twice. -/
theorem nodup_rows (probe : Probe) (pre : Str) {d : Dir Str Str} (hd : d.Distinct)
    (hnames : ∀ x ∈ d.entries, ValidPath x.1) :
    ((rows probe pre d).map Row.relPath).Nodup := by
  have hpaths : (rows probe pre d).map Row.relPath =
      ((d.entries.filter shown).map Prod.fst).map (keyBelow pre) := by
    unfold rows
    rw [List.map_map, List.map_map]
    apply List.map_congr_left
    rintro ⟨t, e⟩ _
    cases e <;> rfl
  have hnodup : ((d.entries.filter shown).map Prod.fst).Nodup :=
    (Dir.nodup_entries hd).sublist (List.filter_sublist.map Prod.fst)
  have hvalid : ∀ t ∈ (d.entries.filter shown).map Prod.fst, ValidPath t := by
    intro t ht
    obtain ⟨x, hx, rfl⟩ := List.mem_map.mp ht
    exact hnames x (List.mem_of_mem_filter hx)
  rw [hpaths]
  exact hnodup.map_on (fun p hp q hq h => keyBelow_injective (hvalid p hp) (hvalid q hq) h)

/-- Names are judged on the list of entries. -/
theorem namesValid_of_entries {root : Disk}
    (h : ∀ x ∈ root.root.entries, ∀ n ∈ x.1, ValidName n) : NamesValid root := by
  intro t ht
  by_cases hnil : t = []
  · simp [hnil]
  · obtain ⟨e, he⟩ := Option.ne_none_iff_exists'.mp ht
    exact h (t, e) ((Dir.mem_entries_iff root.distinct t e).mpr ⟨hnil, he⟩)

theorem NamesValid.entries {root : Disk} (hroot : NamesValid root) :
    ∀ x ∈ root.root.entries, ValidPath x.1 := by
  rintro ⟨t, e⟩ hx
  obtain ⟨ht, hat⟩ := (Dir.mem_entries_iff root.distinct t e).mp hx
  have hexists : root.entryAt t ≠ none := by
    rw [show root.entryAt t = some e from hat]
    exact Option.some_ne_none e
  exact ⟨ht, hroot t hexists⟩

/-- Below a folder of the tree no name is empty. -/
theorem NamesValid.inside {root : Disk} (hroot : NamesValid root) {folder : List Str}
    {dir : Dir Str Str} (hget : root.get? folder = some (.dir dir)) :
    ∀ x ∈ dir.entries, [] ∉ x.1 := by
  intro ⟨t, e⟩ hx hnil
  obtain ⟨_, hat⟩ := (Tree.mem_entries_below hget t e).mp hx
  have hexists : root.entryAt (folder ++ t) ≠ none := by
    rw [hat]
    exact Option.some_ne_none e
  exact (hroot _ hexists [] (List.mem_append_right _ hnil)).1 rfl

/-- With an empty prefix every row's path is a key, and names its entry. -/
theorem row_names_entry {probe : Probe} {root : Disk} (hroot : NamesValid root) {row : Row}
    (h : row ∈ rows probe [] root.root) :
    fSafeRelPath row.relPath = .ok row.relPath ∧
      HasKind (root.entryAt (pathOf row.relPath)) row.isDir := by
  have hkey : ∀ t e, t ≠ [] → root.entryAt t = some e →
      fSafeRelPath (keyBelow [] t) = .ok (keyBelow [] t) ∧ pathOf (keyBelow [] t) = t := by
    intro t e ht hat
    have hexists : root.entryAt t ≠ none := hat ▸ Option.some_ne_none e
    have hvalid : ValidPath t := ⟨ht, hroot t hexists⟩
    exact ⟨fSafeRelPath_keyOf hvalid, pathOf_keyOf hvalid⟩
  rcases (mem_rows_iff probe [] root.distinct row).mp h with
    ⟨t, c, hat, _, rfl⟩ | ⟨t, ht, hat, rfl⟩
  · have ht : t ≠ [] := by
      rintro rfl
      simp at hat
    obtain ⟨hsafe, hpath⟩ := hkey t (.file c) ht hat
    refine ⟨hsafe, c, ?_⟩
    show root.entryAt (pathOf (keyBelow [] t)) = some (.file c)
    rw [hpath]
    exact hat
  · obtain ⟨hsafe, hpath⟩ := hkey t .dir ht hat
    refine ⟨hsafe, ?_⟩
    show root.entryAt (pathOf (keyBelow [] t)) = some .dir
    rw [hpath]
    exact hat

/-! ## Which walks end -/

theorem opensBelow_iff_entries (probe : Probe) (d : Dir Str Str) (at_ : List Str) :
    opensBelow probe d at_ = true ↔
      ∀ x ∈ d.entries, x.2 = .dir → probe.opens (at_ ++ x.1) = true := by
  induction d generalizing at_ with
  | nil => simp [opensBelow, Dir.entries]
  | file name content rest ih =>
      rw [opensBelow, ih, Dir.entries, List.forall_mem_cons]
      simp
  | dir name sub rest ihsub ihrest =>
      have hbelow : (∀ x ∈ sub.entries.map (Prod.map (name :: ·) id), x.2 = .dir →
          probe.opens (at_ ++ x.1) = true) ↔
          ∀ x ∈ sub.entries, x.2 = .dir → probe.opens (at_ ++ [name] ++ x.1) = true := by
        rw [List.forall_mem_map]
        simp only [Prod.map_fst, Prod.map_snd, id_eq, List.append_assoc, List.singleton_append]
      rw [opensBelow, Bool.and_eq_true, Bool.and_eq_true, ihsub, ihrest, Dir.entries,
        List.forall_mem_cons, List.forall_mem_append, hbelow]
      simp only [true_implies, and_assoc]

/-- Every directory of the tree can be opened, the tree being at `at_`. -/
def Opens (probe : Probe) (root : Disk) (at_ : List Str) : Prop :=
  ∀ folder, root.entryAt folder = some .dir → probe.opens (at_ ++ folder) = true

theorem opensAll_root {probe : Probe} {root : Disk} {at_ : List Str} :
    opensAll probe root.root at_ = true ↔ Opens probe root at_ := by
  rw [opensAll, Bool.and_eq_true, opensBelow_iff_entries]
  constructor
  · rintro ⟨hself, hbelow⟩ folder hfolder
    by_cases hnil : folder = []
    · rw [hnil, List.append_nil]
      exact hself
    · exact hbelow (folder, .dir) ((Dir.mem_entries_iff root.distinct folder .dir).mpr
        ⟨hnil, hfolder⟩) rfl
  · intro h
    refine ⟨?_, ?_⟩
    · have hroot := h [] (Tree.entryAt_nil root)
      rwa [List.append_nil] at hroot
    · intro x hx hdir
      have hat := ((Dir.mem_entries_iff root.distinct x.1 x.2).mp hx).2
      rw [hdir] at hat
      exact h x.1 hat

/-- With a tree every folder of it can be opened. -/
theorem opensAll_below {probe : Probe} {root : Disk} (hopens : Opens probe root [])
    {folder : List Str} {dir : Dir Str Str} (hget : root.get? folder = some (.dir dir)) :
    opensAll probe dir folder = true := by
  rw [opensAll, Bool.and_eq_true, opensBelow_iff_entries]
  refine ⟨?_, ?_⟩
  · refine hopens folder ?_
    have hat := Dir.entryAt_append root.root folder []
    rw [show root.root.get? folder = _ from hget, List.append_nil] at hat
    exact hat
  · intro x hx hdir
    have hat := ((Tree.mem_entries_below hget x.1 x.2).mp hx).2
    rw [hdir] at hat
    exact hopens (folder ++ x.1) hat

/-- **A listing is faithful.**  When every directory can be opened the walk answers
a value.  Flattened, it has every regular file whose own name is not dotted and
every directory exactly once, each under the prefix joined to its path and with
the digest of its bytes, and nothing else.  Without a prefix the relative paths
are keys naming those entries, and the entries of every directory come
directories first and then by lowercased name. -/
theorem listing_faithful (probe : Probe) {root : Disk} (hroot : NamesValid root)
    (at_ : List Str) (hopens : Opens probe root at_) (pre : Str) :
    ∃ value, fWalkWorkDir probe root.root at_ pre = .ok value ∧
      ((flatten value).map Row.relPath).Nodup ∧
      (∀ row, row ∈ flatten value ↔
        (∃ t c, root.entryAt t = some (.file c) ∧ (t.getLastD []).head? ≠ some dot ∧
          row = ⟨t.getLastD [], keyBelow pre t, false, probe.fSha256File c⟩) ∨
        ∃ t, t ≠ [] ∧ root.entryAt t = some .dir ∧
          row = ⟨t.getLastD [], keyBelow pre t, true, []⟩) ∧
      (pre = [] → ∀ row ∈ flatten value,
        fSafeRelPath row.relPath = .ok row.relPath ∧
          HasKind (root.entryAt (pathOf row.relPath)) row.isDir) ∧
      ∀ items, ArrayOf value items → items.Pairwise RowLe := by
  have hentries := hroot.entries
  have hnil : ∀ x ∈ root.root.entries, [] ∉ x.1 := fun x hx hmem =>
    ((hentries x hx).2 [] hmem).1 rfl
  have hperm := flatten_listing probe hnil at_ pre
  refine ⟨listing probe root.root at_ pre, ?_, ?_, ?_, ?_, ?_⟩
  · rw [fWalkWorkDir_eq, if_pos (opensAll_root.mpr hopens)]
  · exact (hperm.map Row.relPath).nodup_iff.mpr (nodup_rows probe pre root.distinct hentries)
  · intro row
    rw [hperm.mem_iff]
    exact mem_rows_iff probe pre root.distinct row
  · rintro rfl row hrow
    exact row_names_entry hroot (hperm.mem_iff.mp hrow)
  · intro items hitems
    exact arrayOf_listing hitems

/-- A dotted folder with a dotted file and a listed one, next to a plain file. -/
def mixedTree : Disk :=
  ⟨.file (str "b.mdp") (str "body")
    (.dir (str ".git") (.file (str ".lock") [] (.file (str "A.mdp") [] .nil)) .nil), by
    simp [Dir.Distinct, Dir.names, str]⟩

/-- A disk that opens every directory. -/
def openDisk : Probe := ⟨fun _ => 0, id, fun _ => true⟩

theorem listing_faithful_mixedTree :
    ∃ value, fWalkWorkDir openDisk mixedTree.root [] (str "up") = .ok value ∧
      (⟨str "A.mdp", str "up/.git/A.mdp", false, []⟩ : Row) ∈ flatten value ∧
      ((flatten value).map Row.relPath).Nodup := by
  have hnames : NamesValid mixedTree := namesValid_of_entries (by decide +kernel)
  obtain ⟨value, hvalue, hnodup, hmem, _⟩ :=
    listing_faithful openDisk hnames [] (fun _ _ => rfl) (str "up")
  refine ⟨value, hvalue,
    (hmem _).mpr (Or.inl ⟨[str ".git", str "A.mdp"], [], ?_, ?_, ?_⟩), hnodup⟩
  · decide
  · decide
  · decide

end Lectern
