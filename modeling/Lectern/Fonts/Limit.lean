import Lectern.Fonts.Replacing
import Mathlib.Data.Finset.Card

/-!
# The limit on a library

The rows are counted before the handler looks whether the upload replaces one of
them.  So a full library refuses its own families, and only there does the limit
depend on anything but the families that would be left.
-/

namespace Lectern.Fonts

open FileTree

/-- The family names of an account. -/
def FontStore.families (s : FontStore) (ownerId : Str) : Finset Str :=
  ((s.fontsOf ownerId).map FontRow.familyName).toFinset

/-- The drawn id is no other row's than the replaced one's. -/
def Fresh (s : FontStore) (row : FontRow) : Prop :=
  ∀ old ∈ s.rows, old.id = row.id → old.ownerId = row.ownerId ∧ old.familyName = row.familyName

/-- The condition on an upload that has passed its own checks. -/
def Admits (s : FontStore) (row : FontRow) : Prop :=
  if (s.fontsOf row.ownerId).length < cMaxFontsPerAccount then
    validUtf8 row.familyName = true ∧ Fresh s row
  else row.familyName ∉ s.families row.ownerId

section Limit

variable {s : FontStore} {row old : FontRow} {ownerId : Str}

/-! ## Families -/

theorem mem_families {familyName : Str} :
    familyName ∈ s.families ownerId ↔ ∃ r ∈ s.fontsOf ownerId, r.familyName = familyName := by
  unfold FontStore.families
  rw [List.mem_toFinset, List.mem_map]

theorem Tidy.nodup_families (hs : Tidy s) (ownerId : Str) :
    ((s.fontsOf ownerId).map FontRow.familyName).Nodup := by
  have hrows : (s.fontsOf ownerId).Nodup := (hs.ids.of_map).filter _
  refine hrows.map_on ?_
  intro r hr r' hr' hname
  obtain ⟨hmem, howner⟩ := mem_fontsOf.mp hr
  obtain ⟨hmem', howner'⟩ := mem_fontsOf.mp hr'
  exact hs.eq_of_family hmem hmem' (howner.trans howner'.symm) hname

theorem Tidy.card_families (hs : Tidy s) (ownerId : Str) :
    (s.families ownerId).card = (s.fontsOf ownerId).length := by
  unfold FontStore.families
  rw [List.toFinset_card_of_nodup (hs.nodup_families ownerId), List.length_map]

/-- Where there is room, any name fits. -/
theorem card_insert_room (hs : Tidy s)
    (hroom : (s.fontsOf ownerId).length < cMaxFontsPerAccount) (familyName : Str) :
    (insert familyName (s.families ownerId)).card ≤ cMaxFontsPerAccount :=
  calc (insert familyName (s.families ownerId)).card
      ≤ (s.families ownerId).card + 1 := Finset.card_insert_le _ _
    _ = (s.fontsOf ownerId).length + 1 := by rw [hs.card_families]
    _ ≤ cMaxFontsPerAccount := hroom

/-- In a full library only its own names fit. -/
theorem card_insert_full (hs : Tidy s)
    (hfull : ¬ (s.fontsOf ownerId).length < cMaxFontsPerAccount) (familyName : Str) :
    (insert familyName (s.families ownerId)).card ≤ cMaxFontsPerAccount ↔
      familyName ∈ s.families ownerId := by
  have hcard := hs.card_families ownerId
  have hlimit := hs.limit ownerId
  constructor
  · intro hfits
    by_contra hnew
    rw [Finset.card_insert_of_notMem hnew] at hfits
    omega
  · intro hmem
    rw [Finset.insert_eq_of_mem hmem]
    omega

/-- An inserted row brings its family, and takes away none. -/
theorem families_inserted {kept : List FontRow} (hkept : Kept s row kept) (files : Disk) :
    (FontStore.mk (kept ++ [row]) files).families row.ownerId =
      insert row.familyName (s.families row.ownerId) := by
  have hothers (familyName : Str) (hne : familyName ≠ row.familyName) :
      (∃ r ∈ (FontStore.mk kept s.files).fontsOf row.ownerId, r.familyName = familyName) ↔
        ∃ r ∈ s.fontsOf row.ownerId, r.familyName = familyName := by
    have hmem (r : FontRow) := congrArg (r ∈ ·) hkept.others
    simp only [List.mem_filter, decide_eq_true_eq, eq_iff_iff] at hmem
    constructor
    · intro ⟨r, hr, hname⟩
      exact ⟨r, ((hmem r).mp ⟨hr, by simpa [hname] using hne⟩).1, hname⟩
    · intro ⟨r, hr, hname⟩
      exact ⟨r, ((hmem r).mpr ⟨hr, by simpa [hname] using hne⟩).1, hname⟩
  ext familyName
  rw [Finset.mem_insert, mem_families, mem_families, fontsOf_inserted (s := s)]
  by_cases hsame : familyName = row.familyName
  · exact ⟨fun _ => Or.inl hsame, fun _ => ⟨row, by simp, hsame.symm⟩⟩
  · rw [← hothers familyName hsame]
    constructor
    · intro ⟨r, hr, hname⟩
      rcases List.mem_append.mp hr with hkept | hnew
      · exact Or.inr ⟨r, hkept, hname⟩
      · exact absurd (hname.symm.trans (by rw [List.mem_singleton.mp hnew])) hsame
    · intro h
      obtain ⟨r, hr, hname⟩ := h.resolve_left hsame
      exact ⟨r, List.mem_append_left _ hr, hname⟩

/-! ## Answers -/

/-- What is inserted next to the kept rows is answered if its id is free and its
name can be. -/
theorem insertAndReply_answers (hstored : Stored row)
    (hfamily : ∀ r ∈ s.rows, r.ownerId = row.ownerId → r.familyName ≠ row.familyName) :
    (∃ answer, (insertAndReply noFaults row s).2 = .ok answer) ↔
      validUtf8 row.familyName = true ∧ ¬ Taken s.rows row := by
  by_cases htaken : Taken s.rows row
  · have hrefused : noFaults.insert ≠ none ∨ Taken s.rows row := Or.inr htaken
    obtain ⟨e, he⟩ := insertAndReply_refused hrefused
    rw [he]
    constructor
    · intro ⟨answer, hanswer⟩
      cases hanswer
    · intro h
      exact absurd htaken h.2
  · have hinsert : noFaults.insert = none := rfl
    rw [insertAndReply_done hinsert htaken hfamily]
    have hreply := fJsonResponse_fontValue hstored noFaults
    constructor
    · intro hanswer
      exact ⟨(hreply.mp hanswer).2, htaken⟩
    · intro h
      exact hreply.mpr ⟨rfl, h.1⟩

/-- An answered row has been inserted. -/
theorem insertAndReply_rows {answer : Body}
    (hfamily : ∀ r ∈ s.rows, r.ownerId = row.ownerId → r.familyName ≠ row.familyName)
    (h : (insertAndReply noFaults row s).2 = .ok answer) :
    (insertAndReply noFaults row s).1 = ⟨s.rows ++ [row], s.files⟩ := by
  by_cases htaken : Taken s.rows row
  · have hrefused : noFaults.insert ≠ none ∨ Taken s.rows row := Or.inr htaken
    obtain ⟨e, he⟩ := insertAndReply_refused hrefused
    rw [he] at h
    cases h
  · have hinsert : noFaults.insert = none := rfl
    rw [insertAndReply_done hinsert htaken hfamily]

theorem fresh_new (hnone : existing? s row.ownerId row.familyName = none) :
    Fresh s row ↔ ¬ Taken s.rows row := by
  constructor
  · intro hfresh ⟨old, hold, hid⟩
    obtain ⟨howner, hfamily⟩ := hfresh old hold hid
    exact existing?_none hnone old hold howner hfamily
  · intro hfree old hold hid
    exact absurd ⟨old, hold, hid⟩ hfree

theorem fresh_replacing (hs : Tidy s) (hsome : existing? s row.ownerId row.familyName = some old) :
    Fresh s row ↔ ¬ Taken (s.rows.filter (fun r => r.id ≠ old.id)) row := by
  obtain ⟨hold, howner, hfamily⟩ := existing?_some hsome
  constructor
  · intro hfresh ⟨r, hr, hid⟩
    obtain ⟨hmem, hother⟩ := List.mem_filter.mp hr
    obtain ⟨hrowner, hrfamily⟩ := hfresh r hmem hid
    have heq := hs.eq_of_family hmem hold (hrowner.trans howner.symm) (hrfamily.trans hfamily.symm)
    simp [heq] at hother
  · intro hfree r hr hid
    by_cases hother : r.id = old.id
    · rw [hs.eq_of_id hr hold hother]
      exact ⟨howner, hfamily⟩
    · exact absurd ⟨r, List.mem_filter.mpr ⟨hr, by simpa using hother⟩, hid⟩ hfree

theorem replaceFont_answers (hs : Tidy s) (hstored : Stored row) :
    (∃ answer, (replaceFont noFaults row s).2 = .ok answer) ↔
      validUtf8 row.familyName = true ∧ Fresh s row := by
  unfold replaceFont
  cases hexisting : existing? s row.ownerId row.familyName with
  | none =>
      rw [fresh_new hexisting]
      exact insertAndReply_answers hstored (existing?_none hexisting)
  | some old =>
      rw [fresh_replacing hs hexisting]
      exact insertAndReply_answers hstored (kept_others hs hexisting).family

/-- What an answered upload leaves in the table. -/
theorem replaceFont_rows (hs : Tidy s) {answer : Body}
    (h : (replaceFont noFaults row s).2 = .ok answer) :
    ∃ kept files, Kept s row kept ∧ (replaceFont noFaults row s).1 = ⟨kept ++ [row], files⟩ := by
  unfold replaceFont at h ⊢
  cases hexisting : existing? s row.ownerId row.familyName with
  | none =>
      have hkept := kept_all hexisting
      simp only [noFaults, statement, hexisting, removeExisting] at h ⊢
      exact ⟨_, _, hkept, insertAndReply_rows hkept.family h⟩
  | some old =>
      have hkept := kept_others hs hexisting
      simp only [noFaults, statement, hexisting, removeExisting] at h ⊢
      exact ⟨_, _, hkept, insertAndReply_rows hkept.family h⟩

/-! ## Requests -/

section Requests

variable {familyParam filename body : Str} {u : Upload}

theorem uploadFont_full (hcheck : checkUpload familyParam filename body = .ok u) (draws : Draws)
    (hfull : ¬ (s.fontsOf ownerId).length < cMaxFontsPerAccount) :
    uploadFont noFaults (some ownerId) familyParam filename body draws s =
      (s, .error libraryFull) := by
  simp only [uploadFont, fCurrentUser, hcheck, storeFont, noFaults, statement]
  exact if_pos (Nat.not_lt.mp hfull)

/-- With room the font is written, and its row stored. -/
theorem uploadFont_room (hs : Tidy s) (hcheck : checkUpload familyParam filename body = .ok u)
    (draws : Draws) (hroom : (s.fontsOf ownerId).length < cMaxFontsPerAccount) :
    ∃ written, Flat written ∧
      uploadFont noFaults (some ownerId) familyParam filename body draws s =
        replaceFont noFaults (newRow ownerId u draws) { s with files := written } := by
  have hreturns := hs.flat.writes ownerId (newRow ownerId u draws).id u.ext
    (fRandomHex draws.temp) u.body
  cases hwrite : fWriteFileAtomic s.files
      (fFontFilePath ownerId (newRow ownerId u draws).id u.ext) (fRandomHex draws.temp) u.body with
  | mk written returned =>
      rw [hwrite] at hreturns
      simp only at hreturns
      refine ⟨written, hs.flat.write hwrite, ?_⟩
      simp only [uploadFont, fCurrentUser, hcheck, storeFont, noFaults, statement, hwrite, hreturns]
      exact if_neg (Nat.not_le.mpr hroom)

/-- An upload that has passed its own checks is answered if there is room. -/
theorem uploadFont_answers (hs : Tidy s) (hcheck : checkUpload familyParam filename body = .ok u)
    (draws : Draws) :
    (∃ answer, (uploadFont noFaults (some ownerId) familyParam filename body draws s).2 =
        .ok answer) ↔
      (s.fontsOf ownerId).length < cMaxFontsPerAccount ∧
        validUtf8 u.familyName = true ∧ Fresh s (newRow ownerId u draws) := by
  by_cases hroom : (s.fontsOf ownerId).length < cMaxFontsPerAccount
  · obtain ⟨written, hflat, hstage⟩ := uploadFont_room hs hcheck draws hroom
    have hstored := (checkUpload_ok hcheck).stored ownerId draws
    have hanswers := replaceFont_answers (hs.withFiles hflat) hstored
    rw [hstage, hanswers]
    exact ⟨fun h => ⟨hroom, h⟩, fun h => h.2⟩
  · rw [uploadFont_full hcheck draws hroom]
    constructor
    · intro ⟨answer, hanswer⟩
      cases hanswer
    · intro h
      exact absurd h.1 hroom

/-- What an answered upload makes of the families. -/
theorem families_uploadFont (hs : Tidy s) (hcheck : checkUpload familyParam filename body = .ok u)
    {draws : Draws} {answer : Body}
    (h : (uploadFont noFaults (some ownerId) familyParam filename body draws s).2 = .ok answer) :
    (uploadFont noFaults (some ownerId) familyParam filename body draws s).1.families ownerId =
      insert u.familyName (s.families ownerId) := by
  have hroom := ((uploadFont_answers hs hcheck draws).mp ⟨answer, h⟩).1
  obtain ⟨written, hflat, hstage⟩ := uploadFont_room hs hcheck draws hroom
  rw [hstage] at h ⊢
  obtain ⟨kept, files, hkept, hrows⟩ := replaceFont_rows (hs.withFiles hflat) h
  rw [hrows]
  exact families_inserted hkept files

/-- **The limit counts the families an upload leaves, except in a full
library.** -/
theorem limit_counts_families (hs : Reachable s) :
    (∀ ownerId, (s.fontsOf ownerId).length ≤ cMaxFontsPerAccount ∧
      ((s.fontsOf ownerId).map FontRow.familyName).Nodup) ∧
    ∀ ownerId familyParam filename body draws u,
      checkUpload familyParam filename body = .ok u →
      let out := uploadFont noFaults (some ownerId) familyParam filename body draws s
      let families := insert u.familyName (s.families ownerId)
      (∀ answer, out.2 = .ok answer → out.1.families ownerId = families) ∧
      (((∃ answer, out.2 = .ok answer) ↔ families.card ≤ cMaxFontsPerAccount) ↔
        Admits s (newRow ownerId u draws)) := by
  have htidy := hs.tidy
  refine ⟨fun ownerId => ⟨htidy.limit ownerId, htidy.nodup_families ownerId⟩, ?_⟩
  intro ownerId familyParam filename body draws u hcheck out families
  refine ⟨fun answer hanswer => families_uploadFont htidy hcheck hanswer, ?_⟩
  have hanswers : (∃ answer, out.2 = .ok answer) ↔ _ := uploadFont_answers htidy hcheck draws
  rw [hanswers]
  show _ ↔ if (s.fontsOf ownerId).length < cMaxFontsPerAccount then
    validUtf8 u.familyName = true ∧ Fresh s (newRow ownerId u draws)
    else u.familyName ∉ s.families ownerId
  by_cases hroom : (s.fontsOf ownerId).length < cMaxFontsPerAccount
  · rw [if_pos hroom]
    have hfits : families.card ≤ cMaxFontsPerAccount := card_insert_room htidy hroom u.familyName
    exact ⟨fun h => (h.mpr hfits).2, fun h => ⟨fun _ => hfits, fun _ => ⟨hroom, h⟩⟩⟩
  · have hfits : families.card ≤ cMaxFontsPerAccount ↔ u.familyName ∈ s.families ownerId :=
      card_insert_full htidy hroom u.familyName
    rw [if_neg hroom, hfits]
    exact ⟨fun h hmem => hroom (h.mpr hmem).1,
      fun hnew => ⟨fun h => absurd h.1 hroom, fun hmem => absurd hmem hnew⟩⟩

end Requests

end Limit

/-- The `n`th of a series of uploads, one name each. -/
def series (n : Nat) : Request :=
  .upload noFaults (some (str "ann")) (List.replicate (n + 1) 110) (str "a.ttf") [1]
    (sameDraws (UInt8.ofNat n))

/-- What the first `n` of them make of an empty library. -/
def filled (n : Nat) : FontStore := (List.range n).foldl (fun s n => serve (series n) s) .empty

theorem filled_reachable (n : Nat) : Reachable (filled n) := by
  unfold filled
  induction n with
  | zero => exact .start
  | succ n ih =>
      rw [List.range_succ, List.foldl_append]
      exact .step (series n) ih

/-- A one-byte font under the name `n`. -/
def again : Upload := ⟨str "n", str "a.ttf", str "ttf", str "font/ttf", [1]⟩

theorem checkUpload_again : checkUpload (str "n") (str "a.ttf") [1] = .ok again := by
  decide +kernel

/-- A library with one font takes it once more. -/
theorem limit_counts_families_again :
    (∃ answer, (uploadFont noFaults (some (str "ann")) (str "n") (str "a.ttf") [1]
        (sameDraws 1) (filled 1)).2 = .ok answer) ↔
      (insert (str "n") ((filled 1).families (str "ann"))).card ≤ cMaxFontsPerAccount := by
  have hadmits : Admits (filled 1) (newRow (str "ann") again (sameDraws 1)) := by
    unfold Admits Fresh
    decide +kernel
  exact ((limit_counts_families (filled_reachable 1)).2 (str "ann") (str "n") (str "a.ttf") [1]
    (sameDraws 1) again checkUpload_again).2.mpr hadmits

/-- **A full library refuses its own**: an upload that would replace one of the
thirty fonts. -/
theorem full_library_refuses :
    Reachable (filled 30) ∧ str "n" ∈ (filled 30).families (str "ann") ∧
      let out := uploadFont noFaults (some (str "ann")) (str "n") (str "a.ttf") [1]
        (sameDraws 30) (filled 30)
      out.2 = .error libraryFull ∧
      ¬ ((∃ answer, out.2 = .ok answer) ↔
        (insert (str "n") ((filled 30).families (str "ann"))).card ≤ cMaxFontsPerAccount) := by
  have hfull : ¬ ((filled 30).fontsOf (str "ann")).length < cMaxFontsPerAccount ∧
      ∃ row ∈ (filled 30).fontsOf (str "ann"), row.familyName = str "n" := by decide +kernel
  have hmem := mem_families.mpr hfull.2
  have hfits := (card_insert_full (filled_reachable 30).tidy hfull.1 _).mpr hmem
  refine ⟨filled_reachable 30, hmem, ?_⟩
  rw [uploadFont_full checkUpload_again _ hfull.1]
  refine ⟨rfl, fun h => ?_⟩
  obtain ⟨answer, hanswer⟩ := h.mpr hfits
  cases hanswer

end Lectern.Fonts
