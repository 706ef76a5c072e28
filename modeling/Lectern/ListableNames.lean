import Lectern.Flatten
import Lectern.Relocation
import Lectern.Session.Table
import Lectern.ShareRoutes

/-!
# Names a listing can carry

File systems and `fSafeRelPath` take names as bytes; serialising a listing
takes text.  Names that come out of a JSON body are text, since separators are
ASCII and splitting text at them leaves text.  The path of a PUT is any bytes,
and a single name that is not text, written once, spoils the listing for good:
no later request of the same kinds can name it to move it out of the way.
-/

namespace Lectern

open FileTree

/-! ## UTF-8 and separators -/

theorem isContinuation_ascii {c : UInt8} (hc : c < 0x80) : isContinuation c = false := by
  unfold isContinuation
  simp [UInt8.not_le.mpr hc]

/-- No character goes across an ASCII byte. -/
theorem validUtf8_split {c : UInt8} (hc : c < 0x80) (a b : Str) :
    validUtf8 (a ++ c :: b) = (validUtf8 a && validUtf8 b) := by
  have hcont := isContinuation_ascii hc
  fun_induction validUtf8 a with
  | case1 =>
      rw [List.nil_append, validUtf8.eq_def]
      simp [hc]
  | case2 x s hx ih =>
      rw [List.cons_append, validUtf8.eq_def]
      simp only [hx, if_true, ih]
  | case3 x hx =>
      rw [List.cons_append, List.nil_append, validUtf8.eq_def]
      simp only [hx, if_false, hcont, Bool.false_and, Bool.and_false]
      rcases b with _ | ⟨d, _ | ⟨e, b⟩⟩ <;> simp
  | case4 x hx y s h2 ih =>
      rw [List.cons_append, List.cons_append, validUtf8.eq_def]
      simp only [hx, h2, if_false, if_true, ih, Bool.and_assoc]
  | case5 x hx y h2 =>
      rw [List.cons_append, List.cons_append, List.nil_append, validUtf8.eq_def]
      simp only [hx, h2, if_false, hcont, Bool.false_and, Bool.and_false, Bool.false_eq_true]
      rcases b with _ | ⟨d, b⟩ <;> simp
  | case6 x hx y h2 z s h3 ih =>
      rw [List.cons_append, List.cons_append, List.cons_append, validUtf8.eq_def]
      simp only [hx, h2, h3, if_false, if_true, ih, Bool.and_assoc, Bool.false_eq_true]
  | case7 x hx y h2 z h3 =>
      rw [List.cons_append, List.cons_append, List.cons_append, List.nil_append, validUtf8.eq_def]
      simp only [hx, h2, h3, if_false, hcont, Bool.false_and, Bool.and_false, Bool.false_eq_true]
  | case8 x hx y h2 z h3 t s ih =>
      rw [List.cons_append, List.cons_append, List.cons_append, List.cons_append, validUtf8.eq_def]
      simp only [hx, h2, h3, if_false, ih, Bool.and_assoc, Bool.false_eq_true]

/-- After text, what follows decides. -/
theorem validUtf8_append {a : Str} (ha : validUtf8 a = true) (b : Str) :
    validUtf8 (a ++ b) = validUtf8 b := by
  fun_induction validUtf8 a with
  | case1 => rfl
  | case2 x s hx ih =>
      rw [List.cons_append, validUtf8.eq_def]
      simp only [hx, if_true, ih ha]
  | case4 x hx y s h2 ih =>
      rw [Bool.and_eq_true] at ha
      rw [List.cons_append, List.cons_append, validUtf8.eq_def]
      simp only [hx, h2, if_false, if_true, ih ha.2, ha.1, Bool.true_and]
  | case6 x hx y h2 z s h3 ih =>
      rw [Bool.and_eq_true] at ha
      rw [List.cons_append, List.cons_append, List.cons_append, validUtf8.eq_def]
      simp only [hx, h2, h3, if_false, if_true, ih ha.2, ha.1, Bool.true_and, Bool.false_eq_true]
  | case8 x hx y h2 z h3 t s ih =>
      rw [Bool.and_eq_true] at ha
      rw [List.cons_append, List.cons_append, List.cons_append, List.cons_append, validUtf8.eq_def]
      simp only [hx, h2, h3, if_false, ih ha.2, ha.1, Bool.true_and, Bool.false_eq_true]
  | _ => cases ha

theorem separator_ascii {c : UInt8} (hc : isSeparator c = true) : c < 0x80 := by
  unfold isSeparator at hc
  rw [Bool.or_eq_true] at hc
  rcases hc with hc | hc
  · rw [beq_iff_eq.mp hc]
    decide
  · rw [beq_iff_eq.mp hc]
    decide

/-- Text falls into text at the separators. -/
theorem validUtf8_splitOnP {s : Str} (hs : validUtf8 s = true) :
    ∀ n ∈ s.splitOnP isSeparator, validUtf8 n = true := by
  -- The induction goes over what is still to be read, after a piece `a` that is not finished.
  have hpieces : ∀ s a : Str, (∀ c ∈ a, isSeparator c = false) → validUtf8 (a ++ s) = true →
      ∀ n ∈ (a ++ s).splitOnP isSeparator, validUtf8 n = true := by
    intro s
    induction s with
    | nil =>
        intro a ha hvalid n hn
        rw [List.append_nil] at hvalid hn
        rw [List.splitOnP_eq_singleton ha, List.mem_singleton] at hn
        rw [hn, hvalid]
    | cons c s ih =>
        intro a ha hvalid n hn
        by_cases hc : isSeparator c = true
        · rw [validUtf8_split (separator_ascii hc), Bool.and_eq_true] at hvalid
          rw [List.splitOnP_append_cons_of_forall_mem ha c hc] at hn
          rcases List.mem_cons.mp hn with hfirst | hlater
          · rw [hfirst, hvalid.1]
          · exact ih [] (by simp) hvalid.2 n hlater
        · have hcons : a ++ c :: s = (a ++ [c]) ++ s := by simp
          rw [hcons] at hvalid hn
          refine ih (a ++ [c]) ?_ hvalid n hn
          intro x hx
          rcases List.mem_append.mp hx with hx | hx
          · exact ha x hx
          · rw [List.mem_singleton.mp hx]
            simpa using hc
  exact hpieces s [] (by simp) hs

theorem validUtf8_cleanSegments {s : Str} (hs : validUtf8 s = true) :
    ∀ n ∈ cleanSegments s, validUtf8 n = true := by
  intro n hn
  exact validUtf8_splitOnP hs n (List.mem_of_mem_filter hn)

/-- Below a folder whose path is text, a name decides. -/
theorem validUtf8_below {pre : Str} (hpre : validUtf8 pre = true) (name : Str) :
    validUtf8 (if pre = [] then name else pre ++ slash :: name) = validUtf8 name := by
  by_cases hnil : pre = []
  · rw [if_pos hnil]
  · rw [if_neg hnil, validUtf8_split (by decide), hpre, Bool.true_and]

/-! ## Which directories can be listed -/

/-- Every name a listing carries is text. -/
def Legible : Dir Str Str → Prop
  | .nil => True
  | .file name _ rest => (name.head? = some dot ∨ validUtf8 name = true) ∧ Legible rest
  | .dir name sub rest => validUtf8 name = true ∧ Legible sub ∧ Legible rest

theorem dumps_listingValue (name relPath hash : Str) (isDir : Bool) (modified : Nat)
    (children : List Json) :
    (listingValue name relPath isDir modified hash children).dumps = true ↔
      validUtf8 name = true ∧ validUtf8 relPath = true ∧ validUtf8 hash = true ∧
        ∀ v ∈ children, v.dumps = true := by
  have hkeys : validUtf8 (str "name") = true ∧ validUtf8 (str "relPath") = true ∧
      validUtf8 (str "isDir") = true ∧ validUtf8 (str "modified") = true ∧
      validUtf8 (str "hash") = true ∧ validUtf8 (str "children") = true := by
    refine ⟨?_, ?_, ?_, ?_, ?_, ?_⟩ <;> exact validUtf8_of_ascii (by decide +kernel)
  obtain ⟨hname, hrelPath, hisDir, hmodified, hhash, hchildren⟩ := hkeys
  unfold listingValue
  simp only [Json.dumps, dumpsFields, hname, hrelPath, hisDir, hmodified, hhash, hchildren,
    dumpsAll_eq, Bool.true_and, Bool.and_true, Bool.and_eq_true, List.all_eq_true]

/-- Sorting does not change what can be serialised. -/
theorem dumps_sorted (es : List ListEntry) :
    (∀ v ∈ (sortEntries es).map ListEntry.value, v.dumps = true) ↔
      ∀ e ∈ es, e.value.dumps = true := by
  rw [List.forall_mem_map]
  constructor
  · intro h e he
    exact h e (List.mem_mergeSort.mpr he)
  · intro h e he
    exact h e (List.mem_mergeSort.mp he)

section Dumps

variable {probe : Probe} (hprobe : ∀ content, validUtf8 (probe.fSha256File content) = true)

include hprobe

/-- The rows of one directory can be serialised if the names below are text. -/
theorem dumps_walkEntries {d : Dir Str Str} (at_ : List Str) {pre : Str}
    (hpre : validUtf8 pre = true) :
    (∀ e ∈ walkEntries probe d at_ pre, e.value.dumps = true) ↔ Legible d := by
  induction d generalizing at_ pre with
  | nil => simp [walkEntries, Legible]
  | file name content rest ih =>
      rw [walkEntries, Legible]
      by_cases hdot : name.head? = some dot
      · rw [if_pos hdot, ih at_ hpre]
        simp [hdot]
      · rw [if_neg hdot]
        simp only [List.forall_mem_cons, ih at_ hpre, dumps_listingValue, validUtf8_below hpre,
          hprobe content, hdot, false_or, List.not_mem_nil, false_implies, implies_true, and_true,
          and_self]
  | dir name sub rest ihsub ihrest =>
      have hempty : validUtf8 ([] : Str) = true := rfl
      rw [walkEntries, Legible]
      simp only [List.forall_mem_cons, ihrest at_ hpre, dumps_listingValue, validUtf8_below hpre,
        hempty, dumps_sorted, true_and]
      constructor
      · intro h
        obtain ⟨⟨hname, _, hsub⟩, hrest⟩ := h
        exact ⟨hname, (ihsub _ ((validUtf8_below hpre name).trans hname)).mp hsub, hrest⟩
      · intro h
        obtain ⟨hname, hsub, hrest⟩ := h
        exact ⟨⟨hname, hname, (ihsub _ ((validUtf8_below hpre name).trans hname)).mpr hsub⟩, hrest⟩

/-- **A listing can be serialised exactly when its names are text.** -/
theorem dumps_listing (d : Dir Str Str) (at_ : List Str) :
    (listing probe d at_ []).dumps = true ↔ Legible d := by
  rw [listing, Json.dumps, dumpsAll_eq, List.all_eq_true, dumps_sorted,
    dumps_walkEntries hprobe at_ rfl]

end Dumps

/-- The names a listing carries, entry by entry. -/
theorem legible_iff_entries (d : Dir Str Str) :
    Legible d ↔ ∀ x ∈ d.entries, shown x = true → ∀ n ∈ x.1, validUtf8 n = true := by
  induction d with
  | nil => simp [Legible, Dir.entries]
  | file name content rest ih =>
      rw [Legible, ih, Dir.entries, List.forall_mem_cons]
      refine and_congr ?_ Iff.rfl
      by_cases hdot : name.head? = some dot
      · simp [shown, hdot]
      · simp [shown, hdot]
  | dir name sub rest ihsub ihrest =>
      have hbelow : (∀ x ∈ sub.entries.map (Prod.map (name :: ·) id), shown x = true →
          ∀ n ∈ x.1, validUtf8 n = true) ↔
          ∀ x ∈ sub.entries, shown x = true → ∀ n ∈ name :: x.1, validUtf8 n = true := by
        rw [List.forall_mem_map]
        constructor
        · intro h x hx hshown
          exact h x hx (by rw [shown_cons name (Dir.path_ne_nil_of_mem_entries hx), hshown])
        · intro h x hx hshown
          rw [shown_cons name (Dir.path_ne_nil_of_mem_entries hx)] at hshown
          exact h x hx hshown
      rw [Legible, ihsub, ihrest, Dir.entries, List.forall_mem_cons, List.forall_mem_append, hbelow]
      simp only [List.forall_mem_cons]
      constructor
      · intro h
        obtain ⟨hname, hsub, hrest⟩ := h
        exact ⟨fun _ => ⟨hname, by simp⟩, fun x hx hshown => ⟨hname, hsub x hx hshown⟩, hrest⟩
      · intro h
        obtain ⟨hname, hsub, hrest⟩ := h
        exact ⟨(hname rfl).1, fun x hx hshown => (hsub x hx hshown).2, hrest⟩

/-! ## Legible trees -/

/-- Every path a listing of the tree shows is made of text. -/
def LegibleTree (root : Disk) : Prop :=
  ∀ t e, root.entryAt t = some e → shown (t, e) = true → ∀ n ∈ t, validUtf8 n = true

/-- A path whose folders are text, and whose last name is text unless a leading
dot hides it. -/
def Listable (path : List Str) : Prop :=
  (∀ n ∈ path.dropLast, validUtf8 n = true) ∧
    ((path.getLastD []).head? = some dot ∨ validUtf8 (path.getLastD []) = true)

instance (path : List Str) : Decidable (Listable path) := by
  unfold Listable
  infer_instance

/-- Some file is at a path that is not listable. -/
def Spoiled (root : Disk) : Prop := ∃ t c, root.fileAt t = some c ∧ ¬ Listable t

theorem legible_root {root : Disk} : Legible root.root ↔ LegibleTree root := by
  rw [legible_iff_entries]
  constructor
  · intro h t e hat hshown
    by_cases ht : t = []
    · simp [ht]
    · exact h (t, e) ((Dir.mem_entries_iff root.distinct t e).mpr ⟨ht, hat⟩) hshown
  · intro h x hx
    exact h x.1 x.2 ((Dir.mem_entries_iff root.distinct x.1 x.2).mp hx).2

/-- With a tree every folder of it is legible. -/
theorem LegibleTree.folder {root : Disk} (hroot : LegibleTree root) {folder : List Str}
    {dir : Dir Str Str} (hget : root.get? folder = some (.dir dir)) : Legible dir := by
  rw [legible_iff_entries]
  intro ⟨t, e⟩ hx hshown n hn
  obtain ⟨ht, hat⟩ := (Tree.mem_entries_below hget t e).mp hx
  rw [← shown_append ht folder] at hshown
  exact hroot _ e hat hshown n (List.mem_append_right folder hn)

theorem split_last {path : List Str} (hp : path ≠ []) :
    path = path.dropLast ++ [path.getLastD []] := by
  rw [List.getLastD_eq_getLast?, List.getLast?_eq_some_getLast hp, Option.getD_some,
    List.dropLast_concat_getLast]

/-- A spoiled tree is not legible: the file is shown, or the folder it is in. -/
theorem Spoiled.not_legible {root : Disk} (h : Spoiled root) : ¬ LegibleTree root := by
  intro hroot
  obtain ⟨t, c, hfile, hnot⟩ := h
  have hat := Tree.fileAt_eq_some_iff.mp hfile
  have ht : t ≠ [] := by
    intro hnil
    rw [hnil, Tree.entryAt_nil] at hat
    cases hat
  apply hnot
  have hparent : root.entryAt t.dropLast = some .dir :=
    Dir.entryAt_dropLast (d := root.root) ht (by
      rw [show root.root.entryAt t = _ from hat]
      exact Option.some_ne_none _)
  refine ⟨hroot t.dropLast .dir hparent rfl, ?_⟩
  by_cases hdot : (t.getLastD []).head? = some dot
  · exact Or.inl hdot
  · right
    refine hroot t _ hat (by simpa [shown] using hdot) _ ?_
    rw [split_last ht]
    simp

/-! ## What writes, folders and moves do to it -/

theorem mem_path {path : List Str} (hp : path ≠ []) {n : Str} (hn : n ∈ path) :
    n ∈ path.dropLast ∨ n = path.getLastD [] := by
  rw [split_last hp] at hn
  simpa using hn

/-- The sibling's name is hidden or text when the target's is. -/
theorem listable_temp {path : List Str} {count : Nat} (random : Vector UInt8 count)
    (h : Listable path) : Listable (tempPath path (fRandomHex random)) := by
  obtain ⟨hparents, hlast⟩ := h
  refine ⟨by rwa [dropLast_tempPath], ?_⟩
  have hname : (tempPath path (fRandomHex random)).getLastD [] =
      path.getLastD [] ++ (dot :: fRandomHex random ++ str ".tmp") := by
    simp [tempPath, tempName]
  rw [hname]
  cases hold : path.getLastD [] with
  | nil => exact Or.inl rfl
  | cons c name =>
      rw [hold] at hlast
      rcases hlast with hdot | htext
      · exact Or.inl hdot
      · right
        rw [validUtf8_append htext]
        apply validUtf8_of_ascii
        intro x hx
        simp only [List.cons_append, List.mem_cons, List.mem_append] at hx
        rcases hx with hx | hx | hx
        · rw [hx]
          decide
        · have hdigits : ∀ y ∈ str "0123456789abcdef", y < 0x80 :=
            forall_letters (by decide +kernel)
          exact hdigits x (fToHex_mem hx)
        · have htmp : ∀ y ∈ str ".tmp", y < 0x80 := forall_letters (by decide +kernel)
          exact htmp x hx

section Disks

variable {root root' : Disk} {path src dst : List Str} {content : Str}

/-! ### A PUT -/

theorem legible_write {hex : Str} (hp : path ≠ [])
    (h : fWriteFileAtomic root path hex content = (root', true)) (hroot : LegibleTree root)
    (hlist : Listable path) : LegibleTree root' := by
  intro q e hq hshown n hn
  rw [fWriteFileAtomic_ok hp h q] at hq
  by_cases hqp : q = path
  · rw [if_pos hqp, Option.some.injEq] at hq
    subst hqp hq
    rcases mem_path hp hn with hparent | hlast
    · exact hlist.1 n hparent
    · rw [hlast]
      exact hlist.2.resolve_left (by simpa [shown] using hshown)
  · rw [if_neg hqp] at hq
    by_cases htq : q = tempPath path hex
    · rw [if_pos htq] at hq
      cases hq
    · rw [if_neg htq] at hq
      by_cases hpre : q <+: path.dropLast
      · exact hlist.1 n (hpre.subset hn)
      · rw [if_neg hpre] at hq
        exact hroot q e hq hshown n hn

theorem spoiled_of_write {hex : Str} (hp : path ≠ [])
    (h : fWriteFileAtomic root path hex content = (root', true)) (hlist : ¬ Listable path) :
    Spoiled root' := by
  refine ⟨path, content, ?_, hlist⟩
  rw [fileAt_fWriteFileAtomic_ok hp h, if_pos rfl]

/-- A write does not take a spoiling file away, unless it is its sibling; then the
target spoils the tree. -/
theorem Spoiled.write {count : Nat} {random : Vector UInt8 count} (hroot : Spoiled root)
    (hp : path ≠ [])
    (h : fWriteFileAtomic root path (fRandomHex random) content = (root', true)) :
    Spoiled root' := by
  by_cases hlist : Listable path
  · obtain ⟨t, c, hfile, hnot⟩ := hroot
    refine ⟨t, c, ?_, hnot⟩
    have htp : t ≠ path := fun heq => hnot (heq ▸ hlist)
    have htt : t ≠ tempPath path (fRandomHex random) := fun heq =>
      hnot (heq ▸ listable_temp random hlist)
    rw [fileAt_fWriteFileAtomic_ok hp h, if_neg htp, if_neg htt, hfile]
  · exact spoiled_of_write hp h hlist

/-! ### A folder -/

theorem legible_mkdirs (htext : ∀ n ∈ path, validUtf8 n = true) (hroot : LegibleTree root) :
    LegibleTree ((root.mkdirs path).getD root) := by
  intro q e hq hshown n hn
  rcases Tree.entryAt_mkdirs_getD root path q with hsame | ⟨_, _, hpre⟩
  · exact hroot q e (hsame ▸ hq) hshown n hn
  · exact htext n (hpre.subset hn)

/-! ### A move -/

theorem legible_move (htext : ∀ n ∈ dst, validUtf8 n = true) (hroot : LegibleTree root)
    (h : (withParents root dst).rename src dst = some root') : LegibleTree root' := by
  have hparents : LegibleTree (withParents root dst) :=
    legible_mkdirs (fun n hn => htext n (List.dropLast_subset dst hn)) hroot
  by_cases hne : src = dst
  · subst hne
    rw [Tree.rename_self h]
    exact hparents
  · intro q e hq hshown n hn
    rw [Tree.entryAt_rename hne h q] at hq
    by_cases hpre : dst <+: q
    · obtain ⟨r, rfl⟩ := hpre
      rw [if_pos (List.prefix_append dst r), List.drop_left] at hq
      rcases List.mem_append.mp hn with hn | hn
      · exact htext n hn
      · refine hparents (src ++ r) e hq ?_ n (List.mem_append_right src hn)
        have hr : r ≠ [] := List.ne_nil_of_mem hn
        rwa [shown_append hr] at hshown ⊢
    · rw [if_neg hpre] at hq
      by_cases hsrc : src <+: q
      · rw [if_pos hsrc] at hq
        cases hq
      · rw [if_neg hsrc] at hq
        exact hparents q e hq hshown n hn

theorem listable_of_text (htext : ∀ n ∈ path, validUtf8 n = true) : Listable path := by
  refine ⟨fun n hn => htext n (List.dropLast_subset path hn), ?_⟩
  by_cases hnil : path = []
  · rw [hnil]
    exact Or.inr rfl
  · right
    apply htext
    rw [split_last hnil]
    simp

/-- Putting text in front instead of what was there changes nothing. -/
theorem listable_append {r : List Str} (hsrc : ∀ n ∈ src, validUtf8 n = true)
    (h : Listable (dst ++ r)) : Listable (src ++ r) := by
  by_cases hr : r = []
  · rw [hr, List.append_nil]
    exact listable_of_text hsrc
  · have hdrop (p : List Str) : (p ++ r).dropLast = p ++ r.dropLast :=
      List.dropLast_append_of_ne_nil hr
    unfold Listable at h ⊢
    rw [getLastD_append hr, hdrop] at h ⊢
    refine ⟨?_, h.2⟩
    intro n hn
    rcases List.mem_append.mp hn with hn | hn
    · exact hsrc n hn
    · exact h.1 n (List.mem_append_right dst hn)

/-- A move relocates a spoiling file, or leaves it where it is. -/
theorem Spoiled.move {w : Workspace} (hroot : Spoiled w.root)
    (hsrc : ∀ n ∈ src, validUtf8 n = true) (hdst : ∀ n ∈ dst, validUtf8 n = true)
    (h : (withParents w.root dst).rename src dst = some root') : Spoiled root' := by
  obtain ⟨t, c, hfile, hnot⟩ := hroot
  by_cases hpre : src <+: t
  · obtain ⟨r, rfl⟩ := hpre
    refine ⟨dst ++ r, c, ?_, ?_⟩
    · rw [fileAt_moved h, hfile]
    · intro hlist
      exact hnot (listable_append hsrc hlist)
  · have hne : t ≠ dst := fun heq => hnot (heq ▸ listable_of_text hdst)
    exact ⟨t, c, fileAt_kept h hpre hne hfile, hnot⟩

end Disks

/-! ## Runs -/

/-- A request that creates or moves something; a PUT draws the random part of its
sibling's name. -/
inductive Creation where
  | putFile (path content : Str) (random : Vector UInt8 8)
  | createFolder (relPath : Str)
  | moveEntry (src dst : Str) (now : Int)

def Creation.request : Creation → Mutation
  | .putFile path content random => .putFile path content (fRandomHex random)
  | .createFolder relPath => .createFolder relPath
  | .moveEntry src dst now => .moveEntry src dst now

/-- What the JSON parser guarantees of the paths that come in a body. -/
def Creation.Parsed : Creation → Prop
  | .putFile _ _ _ => True
  | .createFolder relPath => validUtf8 relPath = true
  | .moveEntry src dst _ => validUtf8 src = true ∧ validUtf8 dst = true

/-- A PUT of a listable path; nothing is asked of the others. -/
def Creation.Listable : Creation → Prop
  | .putFile path _ _ => Lectern.Listable (cleanSegments path)
  | _ => True

/-- One after the other, every request is answered with success. -/
def AllSucceed (limits : Limits) : List Creation → Workspace → Prop
  | [], _ => True
  | r :: rs, w => (∃ announced, (r.request.run limits w).2 = .ok announced) ∧
      AllSucceed limits rs (r.request.run limits w).1

/-- `GET /api/workspace`. -/
def getWorkspace (probe : Probe) (w : Workspace) : Response :=
  match fWalkWorkDir probe w.root.root [] [] with
  | .error e => .error e
  | .ok value => fJsonResponse value

/-- The answer is the whole listing of a directory. -/
def ListsAll (probe : Probe) (dir : Dir Str Str) (answer : Response) : Prop :=
  ∃ value, answer = .ok (.json value) ∧ (flatten value).Perm (rows probe [] dir)

/-- The workspace lists, and so does every folder of it that a share or a link
gives access to. -/
structure AllList (probe : Probe) (w : Workspace) : Prop where
  workspace : ListsAll probe w.root.root (getWorkspace probe w)
  link : ∀ (s : Server) token path access full dir,
    fResolveLinkAccess s.db token path = .ok access → s.workspaces access.ownerId = w →
    access.isDir = true → fOwnerFullPath access.relPath = .ok full →
    w.root.get? full = some (.dir dir) → ListsAll probe dir (linkList probe token path s)
  share : ∀ (s : Server) caller share path access full dir,
    sharedAccess caller share path s = .ok access → s.workspaces access.ownerId = w →
    access.isDir = true → fOwnerFullPath access.relPath = .ok full →
    w.root.get? full = some (.dir dir) → ListsAll probe dir (sharedList probe caller share path s)

section Step

variable {limits : Limits} {w : Workspace} {announced : List Str}

theorem put_step {path content hex : Str}
    (h : (putFile limits path content hex w).2 = .ok announced) :
    cleanSegments path ≠ [] ∧ fWriteFileAtomic w.root (cleanSegments path) hex content =
      ((putFile limits path content hex w).1.root, true) := by
  rcases putFile_cases limits path content hex w with ⟨e, hout⟩ | ⟨rel, hrel, _, _, root, hcases⟩
  · rw [hout] at h
    cases h
  · obtain ⟨hvalid, _, hpath⟩ := fSafeRelPath_ok hrel
    rw [hpath] at hvalid hcases
    rcases hcases with ⟨_, hout⟩ | ⟨hwrite, hout⟩
    · rw [hout] at h
      cases h
    · rw [hout]
      exact ⟨hvalid.1, hwrite⟩

theorem folder_step {relPath : Str} (h : (createFolder relPath w).2 = .ok announced) :
    w.root.mkdirs (cleanSegments relPath) = some (createFolder relPath w).1.root := by
  rcases createFolder_cases relPath w with ⟨e, hout⟩ | ⟨rel, root, hrel, hmk, hout⟩
  · rw [hout] at h
    cases h
  · rw [(fSafeRelPath_ok hrel).2.2] at hmk
    rw [hout, hmk]

theorem move_step {src dst : Str} {now : Int} (h : (moveEntry src dst now w).2 = .ok announced) :
    (withParents w.root (cleanSegments dst)).rename (cleanSegments src) (cleanSegments dst) =
      some (moveEntry src dst now w).1.root := by
  rcases moveEntry_cases src dst now w with
    ⟨e, hout⟩ | ⟨fromKey, toKey, hfrom, hto, ⟨_, hout⟩ | ⟨root, hrename, hout⟩⟩
  · rw [hout] at h
    cases h
  · rw [hout] at h
    cases h
  · rw [(fSafeRelPath_ok hfrom).2.2, (fSafeRelPath_ok hto).2.2] at hrename
    rw [hout, root_moveAll, hrename]

/-- A successful listable request keeps the tree legible. -/
theorem legible_step {r : Creation} (hparsed : r.Parsed) (hlist : r.Listable)
    (h : (r.request.run limits w).2 = .ok announced) (hw : LegibleTree w.root) :
    LegibleTree (r.request.run limits w).1.root := by
  cases r with
  | putFile path content random =>
      obtain ⟨hne, hwrite⟩ := put_step h
      exact legible_write hne hwrite hw hlist
  | createFolder relPath =>
      have hmade := legible_mkdirs (validUtf8_cleanSegments hparsed) hw
      rw [folder_step h, Option.getD_some] at hmade
      exact hmade
  | moveEntry src dst now =>
      exact legible_move (validUtf8_cleanSegments hparsed.2) hw (move_step h)

/-- A successful request does not save a spoiled tree. -/
theorem spoiled_step {r : Creation} (hparsed : r.Parsed)
    (h : (r.request.run limits w).2 = .ok announced) (hw : Spoiled w.root) :
    Spoiled (r.request.run limits w).1.root := by
  cases r with
  | putFile path content random =>
      obtain ⟨hne, hwrite⟩ := put_step h
      exact hw.write hne hwrite
  | createFolder relPath =>
      obtain ⟨t, c, hfile, hnot⟩ := hw
      exact ⟨t, c, (Tree.fileAt_mkdirs (folder_step h) t).trans hfile, hnot⟩
  | moveEntry src dst now =>
      exact hw.move (validUtf8_cleanSegments hparsed.1) (validUtf8_cleanSegments hparsed.2)
        (move_step h)

/-- A successful PUT of a path that is not listable spoils the tree. -/
theorem spoiled_of_step {r : Creation} (hlist : ¬ r.Listable)
    (h : (r.request.run limits w).2 = .ok announced) : Spoiled (r.request.run limits w).1.root := by
  cases r with
  | putFile path content random =>
      obtain ⟨hne, hwrite⟩ := put_step h
      exact spoiled_of_write hne hwrite hlist
  | createFolder relPath => exact absurd trivial hlist
  | moveEntry src dst now => exact absurd trivial hlist

end Step

section Run

variable {limits : Limits}

theorem legible_runs {rs : List Creation} {w : Workspace} (hparsed : ∀ r ∈ rs, r.Parsed)
    (hok : AllSucceed limits rs w) (hlist : ∀ r ∈ rs, r.Listable) (hw : LegibleTree w.root) :
    LegibleTree (runs limits (rs.map Creation.request) w).root := by
  induction rs generalizing w with
  | nil => exact hw
  | cons r rs ih =>
      obtain ⟨⟨announced, hfirst⟩, hrest⟩ := hok
      have hstep :=
        legible_step (hparsed r List.mem_cons_self) (hlist r List.mem_cons_self) hfirst hw
      exact ih (fun r' hr' => hparsed r' (List.mem_cons_of_mem r hr')) hrest
        (fun r' hr' => hlist r' (List.mem_cons_of_mem r hr')) hstep

/-- Spoiled once, spoiled for good. -/
theorem spoiled_runs {rs : List Creation} {w : Workspace} (hparsed : ∀ r ∈ rs, r.Parsed)
    (hok : AllSucceed limits rs w) (h : Spoiled w.root ∨ ∃ r ∈ rs, ¬ r.Listable) :
    Spoiled (runs limits (rs.map Creation.request) w).root := by
  induction rs generalizing w with
  | nil =>
      rcases h with hw | ⟨r, hr, _⟩
      · exact hw
      · cases hr
  | cons r rs ih =>
      obtain ⟨⟨announced, hfirst⟩, hrest⟩ := hok
      refine ih (fun r' hr' => hparsed r' (List.mem_cons_of_mem r hr')) hrest ?_
      rcases h with hw | ⟨r', hr', hlist⟩
      · exact Or.inl (spoiled_step (hparsed r List.mem_cons_self) hfirst hw)
      · rcases List.mem_cons.mp hr' with heq | hlater
        · subst heq
          exact Or.inl (spoiled_of_step hlist hfirst)
        · exact Or.inr ⟨r', hlater, hlist⟩

end Run

/-! ## The listings -/

section Listings

variable {probe : Probe} (hprobe : ∀ content, validUtf8 (probe.fSha256File content) = true)

include hprobe

theorem listsAll_of_legible {dir : Dir Str Str} (hdir : Legible dir)
    (hnames : ∀ x ∈ dir.entries, [] ∉ x.1) (at_ : List Str) :
    ListsAll probe dir (fJsonResponse (listing probe dir at_ [])) := by
  refine ⟨listing probe dir at_ [], ?_, flatten_listing probe hnames at_ []⟩
  unfold fJsonResponse
  rw [if_pos ((dumps_listing hprobe dir at_).mpr hdir)]

theorem allList_of_legible {w : Workspace} (hnames : NamesValid w.root) (hw : LegibleTree w.root)
    (hopens : Opens probe w.root []) : AllList probe w := by
  have hwalk {folder : List Str} {dir : Dir Str Str}
      (hget : w.root.get? folder = some (.dir dir)) :
      fWalkWorkDir probe dir folder [] = .ok (listing probe dir folder []) := by
    rw [fWalkWorkDir_eq, if_pos (opensAll_below hopens hget)]
  have hthrough : ∀ (s : Server) access full dir notAFolder, s.workspaces access.ownerId = w →
      access.isDir = true → fOwnerFullPath access.relPath = .ok full →
      w.root.get? full = some (.dir dir) →
      ListsAll probe dir (listThrough probe notAFolder s access) := by
    intro s access full dir notAFolder howner hdir hfull hget
    unfold listThrough
    rw [hdir, hfull, howner]
    simp only [hget, hwalk]
    exact listsAll_of_legible hprobe (hw.folder hget) (hnames.inside hget) full
  refine ⟨?_, ?_, ?_⟩
  · have hself : w.root.get? [] = some (.dir w.root.root) := rfl
    unfold getWorkspace
    rw [hwalk hself]
    exact listsAll_of_legible hprobe (legible_root.mpr hw) (hnames.inside hself) []
  · intro s token path access full dir hresolve howner hdir hfull hget
    unfold linkList
    rw [hresolve]
    exact hthrough s access full dir _ howner hdir hfull hget
  · intro s caller share path access full dir hresolve howner hdir hfull hget
    unfold sharedList
    rw [hresolve]
    exact hthrough s access full dir _ howner hdir hfull hget

theorem not_listsAll_of_spoiled {w : Workspace} (hw : Spoiled w.root) :
    ¬ ListsAll probe w.root.root (getWorkspace probe w) := by
  intro ⟨value, hanswer, _⟩
  have hnot : ¬ (listing probe w.root.root [] []).dumps = true := by
    rw [dumps_listing hprobe, legible_root]
    exact hw.not_legible
  unfold getWorkspace at hanswer
  cases hwalk : fWalkWorkDir probe w.root.root [] [] with
  | error e =>
      rw [hwalk] at hanswer
      cases hanswer
  | ok walked =>
      rw [hwalk, fWalkWorkDir_ok hwalk] at hanswer
      dsimp only at hanswer
      unfold fJsonResponse at hanswer
      rw [if_neg hnot] at hanswer
      cases hanswer

end Listings

/-- A listing that is answered has opened every directory. -/
theorem opens_of_listsAll {probe : Probe} {w : Workspace}
    (h : ListsAll probe w.root.root (getWorkspace probe w)) : Opens probe w.root [] := by
  obtain ⟨value, hanswer, _⟩ := h
  unfold getWorkspace at hanswer
  rw [fWalkWorkDir_eq] at hanswer
  by_cases hopens : opensAll probe w.root.root [] = true
  · exact opensAll_root.mp hopens
  · rw [if_neg hopens] at hanswer
    cases hanswer

/-- **When accepted names leave the listings whole.**  After any successful
PUTs, folder creations and moves, the workspace and every shared folder of it
list completely exactly when every PUT was of a listable path and every folder
that is there can be opened.  Otherwise the listing of the workspace fails. -/
theorem listings_answer {probe : Probe}
    (hprobe : ∀ content, validUtf8 (probe.fSha256File content) = true) (limits : Limits)
    {rs : List Creation} (hparsed : ∀ r ∈ rs, r.Parsed)
    (hok : AllSucceed limits rs Workspace.empty) :
    AllList probe (runs limits (rs.map Creation.request) Workspace.empty) ↔
      (∀ r ∈ rs, r.Listable) ∧
        Opens probe (runs limits (rs.map Creation.request) Workspace.empty).root [] := by
  constructor
  · intro hall
    refine ⟨?_, opens_of_listsAll hall.workspace⟩
    intro r hr
    by_contra hnot
    have hspoiled := spoiled_runs hparsed hok (Or.inr ⟨r, hr, hnot⟩)
    exact not_listsAll_of_spoiled hprobe hspoiled hall.workspace
  · intro ⟨hlist, hopens⟩
    refine allList_of_legible hprobe (sound_runs limits _ Sound.empty).names
      (legible_runs hparsed hok hlist ?_) hopens
    intro t e hat _ n hn
    cases t with
    | nil => cases hn
    | cons m t => cases hat

/-- The digest of the empty content, in lowercase hex; every folder can be
opened. -/
def emptyDigest : Probe where
  fModifiedMs _ := 0
  fSha256File _ := str "e3b0c44298fc1c149afbf4c8996fb92427ae41e4649b934ca495991b7852b855"
  opens _ := true

theorem validUtf8_emptyDigest (content : Str) :
    validUtf8 (emptyDigest.fSha256File content) = true := by
  have hdigits : ∀ c ∈ str "e3b0c44298fc1c149afbf4c8996fb92427ae41e4649b934ca495991b7852b855",
      c < 0x80 := forall_letters (by decide +kernel)
  exact validUtf8_of_ascii hdigits

/-- No quota. -/
def roomy : Limits := ⟨0, 100⟩

theorem listings_answer_threeRequests :
    AllList emptyDigest (runs roomy ([.putFile (str "a.mdp") [] (Vector.replicate 8 7),
      .createFolder (str "n"), .moveEntry (str "a.mdp") (str "n/b.mdp") 0].map Creation.request)
        Workspace.empty) := by
  refine (listings_answer validUtf8_emptyDigest roomy ?_ ?_).mpr ?_
  · simp only [List.forall_mem_cons, Creation.Parsed]
    exact ⟨trivial, by decide +kernel, ⟨by decide +kernel, by decide +kernel⟩,
      List.forall_mem_nil _⟩
  · exact ⟨⟨[str "a.mdp"], by decide +kernel⟩, ⟨[], by decide +kernel⟩,
      ⟨[str "a.mdp", str "n/b.mdp"], by decide +kernel⟩, trivial⟩
  · refine ⟨?_, fun _ _ => rfl⟩
    simp only [List.forall_mem_cons, Creation.Listable]
    exact ⟨by decide +kernel, trivial, trivial, List.forall_mem_nil _⟩

/-- **One accepted name breaks the listing**: a PUT of the single byte 0xFF
succeeds, and the workspace lists no more. -/
theorem listing_broken :
    AllSucceed roomy [.putFile [0xFF] [] (Vector.replicate 8 7)] Workspace.empty ∧
      ¬ AllList emptyDigest (runs roomy
        ([.putFile [0xFF] [] (Vector.replicate 8 7)].map Creation.request) Workspace.empty) := by
  refine ⟨⟨⟨[[0xFF]], by decide +kernel⟩, trivial⟩, ?_⟩
  intro hall
  refine not_listsAll_of_spoiled validUtf8_emptyDigest ?_ hall.workspace
  exact ⟨[[0xFF]], [], by decide +kernel, by decide +kernel⟩

end Lectern
