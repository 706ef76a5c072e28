import Lectern.Fonts.Replacing

/-!
# When an upload is all or nothing

Every failure point of the handler, in the order in which it comes to them.
-/

namespace Lectern.Fonts

open FileTree

section Replace

variable {s : FontStore} {faults : Faults} {row : FontRow} {body hex : Str} {written : Disk}

/-- What a refused `INSERT` answers, it answers as an error. -/
theorem allOrNothing_error {ownerId familyName : Str} {s s' : FontStore} (e : AppError) :
    AllOrNothing ownerId familyName body s (s', .error e) ↔ Unchanged ownerId s s' := Iff.rfl

/-- An inserted row, whatever becomes of the reply. -/
theorem allOrNothing_inserted (hstored : Stored row) (s' : FontStore) :
    AllOrNothing row.ownerId row.familyName body s (s',
        if faults.reply then .error internalError else fJsonResponse (fontValue row)) ↔
      (Replies faults row → Saved row.ownerId row.familyName body s s') ∧
      (¬ Replies faults row → Unchanged row.ownerId s s') := by
  have hreply := fJsonResponse_fontValue hstored faults
  cases hanswer : (if faults.reply then .error internalError
      else fJsonResponse (fontValue row) : Response) with
  | ok answer =>
      have hreplies : Replies faults row := hreply.mp ⟨answer, hanswer⟩
      exact ⟨fun h => ⟨fun _ => h, fun hnot => absurd hreplies hnot⟩, fun h => h.1 hreplies⟩
  | error e =>
      have hsilent : ¬ Replies faults row := by
        intro hreplies
        obtain ⟨answer, hok⟩ := hreply.mpr hreplies
        rw [hanswer] at hok
        cases hok
      exact ⟨fun h => ⟨fun hreplies => absurd hreplies hsilent, fun _ => h⟩, fun h => h.2 hsilent⟩

/-- A row under a new name is saved. -/
theorem saved_new (hs : Tidy s) (hstored : Stored row)
    (hwrite : fWriteFileAtomic s.files row.path hex body = (written, true))
    (hnone : existing? s row.ownerId row.familyName = none) (hfree : ¬ Taken s.rows row) :
    Saved row.ownerId row.familyName body s ⟨s.rows ++ [row], written⟩ := by
  rw [saved_iff (kept_all hnone)]
  · rw [fileAt_written hstored hwrite hstored, if_pos rfl]
  · intro r hr _
    have hmem := (mem_fontsOf.mp hr).1
    rw [fileAt_written hstored hwrite (hs.stored r hmem), if_neg]
    exact fun hpath => hfree ⟨r, hmem, (hs.stored r hmem).id_of_path hstored hpath⟩

/-- A row in the place of another is saved, unless the file removed last is its
own. -/
theorem saved_replaced (hs : Tidy s) (hstored : Stored row) {old : FontRow}
    (hwrite : fWriteFileAtomic s.files row.path hex body = (written, true))
    (hsome : existing? s row.ownerId row.familyName = some old)
    (hfree : ¬ Taken (s.rows.filter (fun r => r.id ≠ old.id)) row) :
    Saved row.ownerId row.familyName body s ⟨s.rows.filter (fun r => r.id ≠ old.id) ++ [row],
        (written.remove old.path).getD written⟩ ↔ old.path ≠ row.path := by
  obtain ⟨hold, _, hfamily⟩ := existing?_some hsome
  rw [saved_iff (kept_others hs hsome)]
  · rw [fileAt_removed hstored hwrite hstored]
    by_cases hpath : row.path = old.path
    · simp [hpath]
    · simp [hpath, Ne.symm hpath]
  · intro r hr hname
    have hmem := (mem_fontsOf.mp hr).1
    have hne : r ≠ old := fun heq => hname (heq ▸ hfamily)
    rw [fileAt_removed hstored hwrite (hs.stored r hmem), if_neg (hs.path_ne hmem hold hne), if_neg]
    intro hpath
    have hid : r.id ≠ old.id := fun hid => hne (hs.eq_of_id hmem hold hid)
    exact hfree ⟨r, List.mem_filter.mpr ⟨hmem, by simpa using hid⟩,
      (hs.stored r hmem).id_of_path hstored hpath⟩

/-- A name the account does not have yet. -/
theorem replace_new (hs : Tidy s) (hstored : Stored row)
    (hwrite : fWriteFileAtomic s.files row.path hex body = (written, true))
    (hnone : existing? s row.ownerId row.familyName = none) :
    AllOrNothing row.ownerId row.familyName body s
        (replaceFont faults row { s with files := written }) ↔
      (faults.existing ≠ none ∨ faults.insert ≠ none ∨ Taken s.rows row → Clear s row body none) ∧
      (faults.existing = none → faults.insert = none → ¬ Taken s.rows row →
        Replies faults row) := by
  have hlookup : existing? { s with files := written } row.ownerId row.familyName = none := hnone
  have hwritten := unchanged_written hs hstored hwrite
  unfold replaceFont
  by_cases hexisting : faults.existing = none
  · simp only [statement_none hexisting, hlookup, removeExisting]
    by_cases hrefused : faults.insert ≠ none ∨ Taken s.rows row
    · obtain ⟨e, he⟩ := insertAndReply_refused (s := { s with files := written }) hrefused
      rw [he, allOrNothing_error, hwritten]
      refine ⟨fun h => ⟨fun _ => h, ?_⟩, fun h => h.1 (Or.inr hrefused)⟩
      intro _ hinsert hfree
      rcases hrefused with hfault | htaken
      · exact absurd hinsert hfault
      · exact absurd htaken hfree
    · rw [not_or, not_not] at hrefused
      obtain ⟨hinsert, hfree⟩ := hrefused
      rw [insertAndReply_done (s := { s with files := written }) hinsert hfree
        (existing?_none hnone), allOrNothing_inserted hstored]
      have hsaved := saved_new hs hstored hwrite hnone hfree
      constructor
      · intro h
        refine ⟨?_, fun _ _ _ => ?_⟩
        · intro hany
          rcases hany with hfault | hfault | htaken
          · exact absurd hexisting hfault
          · exact absurd hinsert hfault
          · exact absurd htaken hfree
        · by_contra hsilent
          exact not_unchanged_inserted (h.2 hsilent)
      · intro h
        exact ⟨fun _ => hsaved, fun hsilent => absurd (h.2 hexisting hinsert hfree) hsilent⟩
  · obtain ⟨e, he⟩ := statement_some hexisting
      (existing? { s with files := written } row.ownerId row.familyName)
    simp only [he]
    rw [allOrNothing_error, hwritten]
    exact ⟨fun h => ⟨fun _ => h, fun hnofault => absurd hnofault hexisting⟩,
      fun h => h.1 (Or.inl hexisting)⟩

/-- A name the account has. -/
theorem replace_existing (hs : Tidy s) (hstored : Stored row) {old : FontRow}
    (hwrite : fWriteFileAtomic s.files row.path hex body = (written, true))
    (hsome : existing? s row.ownerId row.familyName = some old) :
    AllOrNothing row.ownerId row.familyName body s
        (replaceFont faults row { s with files := written }) ↔
      (faults.existing ≠ none → Clear s row body none) ∧
      (faults.existing = none → faults.delete ≠ none →
        s.files.fileAt old.path = none ∧ Clear s row body (some old)) ∧
      (faults.existing = none → faults.delete = none →
        faults.insert = none ∧ ¬ Taken (s.rows.filter (fun r => r.id ≠ old.id)) row ∧
        (Replies faults row → old.path ≠ row.path) ∧
        (¬ Replies faults row →
          (s.fontsOf row.ownerId).getLast? = some row ∧ s.files.fileAt row.path = none)) := by
  have hlookup : existing? { s with files := written } row.ownerId row.familyName = some old :=
    hsome
  obtain ⟨hold, howner, _⟩ := existing?_some hsome
  have hmine : old ∈ s.fontsOf row.ownerId := mem_fontsOf.mpr ⟨hold, howner⟩
  unfold replaceFont
  by_cases hexisting : faults.existing = none
  · simp only [statement_none hexisting, hlookup]
    by_cases hdelete : faults.delete = none
    · simp only [removeExisting, statement_none hdelete]
      by_cases hrefused :
          faults.insert ≠ none ∨ Taken (s.rows.filter (fun r => r.id ≠ old.id)) row
      · obtain ⟨e, he⟩ := insertAndReply_refused (s := ⟨s.rows.filter (fun r => r.id ≠ old.id),
          (written.remove old.path).getD written⟩) hrefused
        rw [he, allOrNothing_error]
        refine ⟨fun h => absurd h (not_unchanged_deleted hmine), ?_⟩
        intro h
        obtain ⟨hinsert, hfree, _⟩ := h.2.2 hexisting hdelete
        rcases hrefused with hfault | htaken
        · exact absurd hinsert hfault
        · exact absurd htaken hfree
      · rw [not_or, not_not] at hrefused
        obtain ⟨hinsert, hfree⟩ := hrefused
        have hkept := kept_others hs hsome
        rw [insertAndReply_done (s := ⟨s.rows.filter (fun r => r.id ≠ old.id),
          (written.remove old.path).getD written⟩) hinsert hfree hkept.family,
          allOrNothing_inserted hstored, unchanged_replaced hs hstored hwrite hsome,
          saved_replaced hs hstored hwrite hsome hfree]
        exact ⟨fun h => ⟨fun hfault => absurd hexisting hfault,
            fun _ hfault => absurd hdelete hfault, fun _ _ => ⟨hinsert, hfree, h⟩⟩,
          fun h => (h.2.2 hexisting hdelete).2.2⟩
    · obtain ⟨e, he⟩ := statement_some hdelete (s.rows.filter (fun r => r.id ≠ old.id))
      simp only [removeExisting, he]
      rw [allOrNothing_error, unchanged_removed hs hstored hwrite hmine]
      exact ⟨fun h => ⟨fun hfault => absurd hexisting hfault, fun _ _ => h,
          fun _ hnofault => absurd hnofault hdelete⟩, fun h => h.2.1 hexisting hdelete⟩
  · obtain ⟨e, he⟩ := statement_some hexisting
      (existing? { s with files := written } row.ownerId row.familyName)
    simp only [he]
    rw [allOrNothing_error, unchanged_written hs hstored hwrite]
    exact ⟨fun h => ⟨fun _ => h, fun hnofault => absurd hnofault hexisting,
      fun hnofault => absurd hnofault hexisting⟩, fun h => h.1 hexisting⟩

theorem replace_allOrNothing (faults : Faults) (hs : Tidy s) (hstored : Stored row)
    (hwrite : fWriteFileAtomic s.files row.path hex body = (written, true)) :
    AllOrNothing row.ownerId row.familyName body s
        (replaceFont faults row { s with files := written }) ↔ Survives faults row body s := by
  unfold Survives
  cases hexisting : existing? s row.ownerId row.familyName with
  | none => exact replace_new hs hstored hwrite hexisting
  | some old => exact replace_existing hs hstored hwrite hexisting

end Replace

/-! ## Requests -/

section Requests

variable {s : FontStore} {familyParam filename body ownerId : Str}

/-- An error before anything is written. -/
theorem allOrNothing_refused {familyName : Str} (e : AppError) :
    AllOrNothing ownerId familyName body s (s, .error e) := ⟨rfl, fun _ _ => rfl, Iff.rfl⟩

/-- The request from the count on. -/
theorem store_allOrNothing (hs : Tidy s) (faults : Faults) (ownerId : Str) (draws : Draws)
    {u : Upload} (hu : Checked familyParam body u) :
    AllOrNothing ownerId u.familyName u.body s (storeFont faults ownerId u draws s) ↔
      (faults.count = none → (s.fontsOf ownerId).length < cMaxFontsPerAccount →
        Survives faults (newRow ownerId u draws) u.body s) := by
  unfold storeFont
  cases hcount : faults.count with
  | some errmsg => exact ⟨fun _ => nofun, fun _ => allOrNothing_refused _⟩
  | none =>
      simp only [statement]
      by_cases hfull : cMaxFontsPerAccount ≤ (s.fontsOf ownerId).length
      · rw [if_pos hfull]
        exact ⟨fun _ _ hroom => absurd hroom (Nat.not_lt.mpr hfull),
          fun _ => allOrNothing_refused _⟩
      · rw [if_neg hfull]
        have hroom : (s.fontsOf ownerId).length < cMaxFontsPerAccount := Nat.lt_of_not_le hfull
        have hreturns := hs.flat.writes ownerId (newRow ownerId u draws).id u.ext
          (fRandomHex draws.temp) u.body
        cases hwrite : fWriteFileAtomic s.files
            (fFontFilePath ownerId (newRow ownerId u draws).id u.ext) (fRandomHex draws.temp)
            u.body with
        | mk written returned =>
            rw [hwrite] at hreturns
            cases returned with
            | false => cases hreturns
            | true =>
                rw [hu.path ownerId draws] at hwrite
                have hsurvives :=
                  replace_allOrNothing faults hs (hu.stored ownerId draws) hwrite
                exact ⟨fun h _ _ => hsurvives.mp h, fun h => hsurvives.mpr (h trivial hroom)⟩

/-- **An upload is all or nothing exactly when it is refused before it writes
anything or survives what comes after.** -/
theorem upload_allOrNothing (hs : Tidy s) (faults : Faults)
    (ownerId familyParam filename body : Str) (draws : Draws) :
    AllOrNothing ownerId (fTrim familyParam) body s
        (uploadFont faults (some ownerId) familyParam filename body draws s) ↔
      ∀ u, checkUpload familyParam filename body = .ok u → faults.count = none →
        (s.fontsOf ownerId).length < cMaxFontsPerAccount →
        Survives faults (newRow ownerId u draws) body s := by
  unfold uploadFont
  cases hcheck : checkUpload familyParam filename body with
  | error e => exact ⟨fun _ => nofun, fun _ => allOrNothing_refused e⟩
  | ok u =>
      have hu := checkUpload_ok hcheck
      have hstore := store_allOrNothing hs faults ownerId draws hu
      rw [hu.name, hu.body] at hstore
      constructor
      · intro h v hv
        rw [Except.ok.injEq] at hv
        subst hv
        exact hstore.mp h
      · intro h
        exact hstore.mpr (h u rfl)

theorem upload_allOrNothing_lora :
    AllOrNothing (str "ann") (fTrim (str " Lora ")) [1] .empty
      (uploadFont noFaults (some (str "ann")) (str " Lora ") (str "lora.woff2") [1]
        (sameDraws 7) .empty) := by
  rw [upload_allOrNothing tidy_empty noFaults]
  intro u hu _ _
  have hname : (newRow (str "ann") u (sameDraws 7)).familyName = fTrim (str " Lora ") :=
    (checkUpload_ok hu).name
  have hlegible : validUtf8 (fTrim (str " Lora ")) = true := by decide +kernel
  have hnone : existing? .empty (newRow (str "ann") u (sameDraws 7)).ownerId
      (newRow (str "ann") u (sameDraws 7)).familyName = none := rfl
  unfold Survives
  simp only [hnone]
  refine ⟨?_, fun _ _ _ => ⟨rfl, hname ▸ hlegible⟩⟩
  intro _ r hr
  cases hr

/-- **A refused upload that stays**: the family name is the single byte 0xFF.
The reply cannot be built, the row is kept, and the account's listing fails from
then on. -/
theorem refused_upload_stays :
    let out := uploadFont noFaults (some (str "ann")) [0xFF] (str "a.ttf") [1] (sameDraws 7) .empty
    out.2.toOption = none ∧ (listFonts none (some (str "ann")) out.1).toOption = none ∧
      ¬ AllOrNothing (str "ann") (fTrim [0xFF]) [1] .empty out := by
  intro out
  have hanswer : out.2.toOption.isNone = true := by decide +kernel
  have hlists : (listFonts none (some (str "ann")) out.1).toOption.isNone = true := by
    decide +kernel
  have hrows : out.1.fontsOf (str "ann") ≠ FontStore.empty.fontsOf (str "ann") := by
    decide +kernel
  refine ⟨Option.isNone_iff_eq_none.mp hanswer, Option.isNone_iff_eq_none.mp hlists, ?_⟩
  unfold AllOrNothing
  cases h : out.2 with
  | error e => exact not_unchanged hrows
  | ok answer =>
      rw [h] at hanswer
      cases hanswer

end Requests

end Lectern.Fonts
