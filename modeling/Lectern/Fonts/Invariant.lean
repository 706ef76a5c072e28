import Lectern.Fonts.Library

/-!
# What every library satisfies

Uploads and deletes keep the table within its bounds: ids and family names are
distinct, content types are the four known ones, names are safe, and no account
has more rows than allowed.  The directory has one folder an account, with files
only.  Statements that throw do not break any of it.
-/

namespace Lectern.Fonts

open FileTree

/-! ## Ids and paths -/

theorem length_fUuidV4 (random : Vector UInt8 16) : (fUuidV4 random).length = 36 := by
  have hhex (bytes : Vector UInt8 16) : (fToHex bytes.toList).length = 32 := by
    unfold fToHex
    rw [List.length_flatMap]
    simp
  unfold fUuidV4
  simp [hhex]

theorem ascii_fUuidV4 (random : Vector UInt8 16) : ∀ c ∈ fUuidV4 random, c < 0x80 := by
  have hdigits : ∀ c ∈ str "0123456789abcdef", c < 0x80 :=
    forall_letters (by decide +kernel)
  have hhex (data : List UInt8) : ∀ c ∈ fToHex data, c < 0x80 :=
    fun c hc => hdigits c (fToHex_mem hc)
  intro c hc
  unfold fUuidV4 at hc
  simp only [List.mem_append, List.mem_cons] at hc
  rcases hc with ((((hc | hc | hc) | hc | hc) | hc | hc) | hc | hc)
  all_goals first
    | exact hhex _ c (List.mem_of_mem_take hc)
    | exact hhex _ c (List.mem_of_mem_drop (List.mem_of_mem_take hc))
    | (rw [hc]; decide)

/-- The content types, and the extensions they end in. -/
theorem fContentTypeFor_cases {ext contentType : Str} (h : fContentTypeFor ext = some contentType) :
    ext = str "ttf" ∧ contentType = str "font/ttf" ∨
    ext = str "otf" ∧ contentType = str "font/otf" ∨
    ext = str "woff" ∧ contentType = str "font/woff" ∨
    ext = str "woff2" ∧ contentType = str "font/woff2" := by
  grind [fContentTypeFor]

/-- The extension comes back from the content type, and has no dot. -/
theorem ext_of_contentType {ext contentType : Str} (h : fContentTypeFor ext = some contentType) :
    fExtFromContentType contentType = ext ∧ dot ∉ ext := by
  rcases fContentTypeFor_cases h with ⟨rfl, rfl⟩ | ⟨rfl, rfl⟩ | ⟨rfl, rfl⟩ | ⟨rfl, rfl⟩ <;>
    exact ⟨by decide +kernel, by decide +kernel⟩

/-- A row as an upload stores it. -/
structure Stored (row : FontRow) : Prop where
  id : ∃ random, row.id = fUuidV4 random
  contentType : ∃ ext, fContentTypeFor ext = some row.contentType
  safe : ∀ c ∈ row.familyName, fIsUnsafeFamilyChar c = false

/-- Files of an account are told apart by the ids of their rows. -/
theorem Stored.id_of_path {row row' : FontRow} (h : Stored row) (h' : Stored row')
    (hpath : row.path = row'.path) : row.id = row'.id := by
  obtain ⟨random, hid⟩ := h.id
  obtain ⟨random', hid'⟩ := h'.id
  have hname : row.id ++ dot :: fExtFromContentType row.contentType =
      row'.id ++ dot :: fExtFromContentType row'.contentType := by
    simpa [FontRow.path, fFontFilePath] using (congrArg (fun p => p.getLastD []) hpath)
  have hlen : row.id.length = row'.id.length := by
    rw [hid, hid', length_fUuidV4, length_fUuidV4]
  exact (List.append_inj hname hlen).1

theorem FontRow.path_ne_nil (row : FontRow) : row.path ≠ [] := List.cons_ne_nil _ _

/-- No row points to a temporary sibling: its name has a second dot. -/
theorem Stored.path_ne_temp {row row' : FontRow} (h : Stored row) (h' : Stored row') (hex : Str) :
    row.path ≠ tempPath row'.path hex := by
  intro hpath
  obtain ⟨random, hid⟩ := h.id
  obtain ⟨random', hid'⟩ := h'.id
  obtain ⟨ext, htype⟩ := h.contentType
  obtain ⟨hext, hdot⟩ := ext_of_contentType htype
  have hname : row.id ++ dot :: ext =
      row'.id ++ dot :: (fExtFromContentType row'.contentType ++ dot :: (hex ++ str ".tmp")) := by
    have hlast := congrArg (fun p => p.getLastD []) hpath
    simpa [FontRow.path, fFontFilePath, tempPath, tempName, hext] using hlast
  have hlen : row.id.length = row'.id.length := by
    rw [hid, hid', length_fUuidV4, length_fUuidV4]
  have htail := (List.append_inj hname hlen).2
  rw [List.cons.injEq] at htail
  apply hdot
  rw [htail.2]
  exact List.mem_append_right _ List.mem_cons_self

/-! ## The directory -/

/-- Folders of accounts, and files in them. -/
structure Flat (files : Disk) : Prop where
  folders : ∀ owner c, files.entryAt [owner] ≠ some (.file c)
  fonts : ∀ owner name, files.entryAt [owner, name] ≠ some .dir

theorem flat_empty : Flat (Tree.empty : Disk) where
  folders owner c h := by cases h
  fonts owner name h := by cases h

/-- Losing entries does no harm. -/
theorem Flat.loses {files files' : Disk} (h : Flat files)
    (hsame : ∀ q, files'.entryAt q = files.entryAt q ∨ files'.entryAt q = none) : Flat files' := by
  constructor
  · intro owner c hfile
    rcases hsame [owner] with hkept | hgone
    · exact h.folders owner c (hkept ▸ hfile)
    · rw [hgone] at hfile
      cases hfile
  · intro owner name hdir
    rcases hsame [owner, name] with hkept | hgone
    · exact h.fonts owner name (hkept ▸ hdir)
    · rw [hgone] at hdir
      cases hdir

theorem Flat.remove {files : Disk} (h : Flat files) (p : List Str) :
    Flat ((files.remove p).getD files) :=
  h.loses (Tree.entryAt_remove_getD files p)

section Write

variable {files files' : Disk} {ownerId fontId ext hex body : Str} {returned : Bool}

theorem Flat.write (h : Flat files)
    (hwrite : fWriteFileAtomic files (fFontFilePath ownerId fontId ext) hex body =
      (files', returned)) : Flat files' := by
  have hp : fFontFilePath ownerId fontId ext ≠ [] := List.cons_ne_nil _ _
  cases returned with
  | true =>
      have hat := fWriteFileAtomic_ok hp hwrite
      constructor
      · intro owner c hfile
        have hpath : [owner] ≠ fFontFilePath ownerId fontId ext := by simp [fFontFilePath]
        have htemp : [owner] ≠ tempPath (fFontFilePath ownerId fontId ext) hex := by
          simp [fFontFilePath, tempPath]
        rw [hat, if_neg hpath, if_neg htemp] at hfile
        split at hfile
        · cases hfile
        · exact h.folders owner c hfile
      · intro owner name hdir
        rw [hat] at hdir
        split at hdir
        · cases hdir
        · split at hdir
          · cases hdir
          · have hdeep : ¬ [owner, name] <+: (fFontFilePath ownerId fontId ext).dropLast := by
              intro hpre
              have hlen := hpre.length_le
              simp [fFontFilePath] at hlen
            rw [if_neg hdeep] at hdir
            exact h.fonts owner name hdir
  | false =>
      refine h.loses ?_
      intro q
      rcases fWriteFileAtomic_fail hp hwrite with hall | ⟨_, hat⟩
      · exact Or.inl (hall q)
      · rw [hat q]
        by_cases hq : q = tempPath (fFontFilePath ownerId fontId ext) hex
        · exact Or.inr (if_pos hq)
        · exact Or.inl (if_neg hq)

/-- In such a directory a font can be written. -/
theorem Flat.writes (h : Flat files) (ownerId fontId ext hex body : Str) :
    (fWriteFileAtomic files (fFontFilePath ownerId fontId ext) hex body).2 = true := by
  refine fWriteFileAtomic_returns (List.cons_ne_nil _ _) ?_ ?_ ?_
  · intro q hq c
    have hq : q <+: [ownerId] := hq
    rcases List.prefix_cons_iff.mp hq with hnil | ⟨t, hcons, ht⟩
    · rw [hnil]
      nofun
    · rw [hcons, List.prefix_nil.mp ht]
      exact h.folders ownerId c
  · exact h.fonts ownerId _
  · exact h.fonts ownerId _

end Write

/-! ## The invariant -/

structure Tidy (s : FontStore) : Prop where
  ids : (s.rows.map FontRow.id).Nodup
  families : (s.rows.map (fun row => (row.ownerId, row.familyName))).Nodup
  stored : ∀ row ∈ s.rows, Stored row
  limit : ∀ ownerId, (s.fontsOf ownerId).length ≤ cMaxFontsPerAccount
  flat : Flat s.files

theorem tidy_empty : Tidy .empty where
  ids := List.nodup_nil
  families := List.nodup_nil
  stored := nofun
  limit _ := Nat.zero_le _
  flat := flat_empty

section Steps

variable {s : FontStore}

theorem Tidy.withFiles (h : Tidy s) {files : Disk} (hfiles : Flat files) :
    Tidy { s with files := files } := ⟨h.ids, h.families, h.stored, h.limit, hfiles⟩

theorem Tidy.filter (h : Tidy s) (p : FontRow → Bool) :
    Tidy { s with rows := s.rows.filter p } where
  ids := h.ids.sublist (List.filter_sublist.map _)
  families := h.families.sublist (List.filter_sublist.map _)
  stored row hrow := h.stored row (List.mem_of_mem_filter hrow)
  limit ownerId := (List.filter_sublist.filter _).length_le.trans (h.limit ownerId)
  flat := h.flat

/-- An inserted row is appended; its id and its family name are new. -/
theorem insertFont_ok {rows rows' : List FontRow} {row : FontRow}
    (h : insertFont rows row = .ok rows') :
    rows' = rows ++ [row] ∧ (∀ old ∈ rows, old.id ≠ row.id) ∧
      ∀ old ∈ rows, old.ownerId = row.ownerId → old.familyName ≠ row.familyName := by
  unfold insertFont at h
  by_cases hid : (rows.any (fun old => old.id = row.id)) = true
  · rw [if_pos hid] at h
    cases h
  · rw [if_neg hid] at h
    by_cases hfamily : (rows.any (fun old =>
        old.ownerId = row.ownerId ∧ old.familyName = row.familyName)) = true
    · rw [if_pos hfamily] at h
      cases h
    · rw [if_neg hfamily, Except.ok.injEq] at h
      exact ⟨h.symm, by simpa using hid, by simpa using hfamily⟩

theorem fontsOf_append {rows : List FontRow} {row : FontRow} {files : Disk} (ownerId : Str) :
    (FontStore.mk (rows ++ [row]) files).fontsOf ownerId =
      (FontStore.mk rows files).fontsOf ownerId ++ if row.ownerId = ownerId then [row] else [] := by
  unfold FontStore.fontsOf
  rw [List.filter_append]
  by_cases howner : row.ownerId = ownerId <;> simp [howner]

theorem Tidy.insert (h : Tidy s) {row : FontRow} {rows : List FontRow} (hrow : Stored row)
    (hroom : (s.fontsOf row.ownerId).length < cMaxFontsPerAccount)
    (hinsert : insertFont s.rows row = .ok rows) : Tidy { s with rows := rows } := by
  obtain ⟨hrows, hid, hfamily⟩ := insertFont_ok hinsert
  subst hrows
  refine ⟨?_, ?_, ?_, ?_, h.flat⟩
  · rw [List.map_append, List.nodup_append]
    refine ⟨h.ids, List.nodup_singleton _, ?_⟩
    intro id hmem id' hmem'
    obtain ⟨old, hold, hsame⟩ := List.mem_map.mp hmem
    rw [List.map_singleton, List.mem_singleton] at hmem'
    rw [hmem', ← hsame]
    exact hid old hold
  · rw [List.map_append, List.nodup_append]
    refine ⟨h.families, List.nodup_singleton _, ?_⟩
    intro key hmem key' hmem' hsame
    obtain ⟨old, hold, hkey⟩ := List.mem_map.mp hmem
    rw [List.map_singleton, List.mem_singleton] at hmem'
    rw [hmem', ← hkey, Prod.mk.injEq] at hsame
    exact hfamily old hold hsame.1 hsame.2
  · intro r hr
    rcases List.mem_append.mp hr with hold | hnew
    · exact h.stored r hold
    · rw [List.mem_singleton.mp hnew]
      exact hrow
  · intro ownerId
    rw [fontsOf_append, List.length_append]
    by_cases howner : row.ownerId = ownerId
    · rw [if_pos howner, List.length_singleton]
      exact Nat.succ_le_of_lt (howner ▸ hroom)
    · rw [if_neg howner, List.length_nil, Nat.add_zero]
      exact h.limit ownerId

/-! ## Handlers -/

/-- An upload that passes the checks. -/
structure Checked (familyParam body : Str) (u : Upload) : Prop where
  name : u.familyName = fTrim familyParam
  body : u.body = body
  contentType : fContentTypeFor u.ext = some u.contentType
  safe : ∀ c ∈ u.familyName, fIsUnsafeFamilyChar c = false

theorem checkUpload_ok {familyParam filename body : Str} {u : Upload}
    (h : checkUpload familyParam filename body = .ok u) : Checked familyParam body u := by
  unfold checkUpload fRequiredQuery at h
  by_cases hfamily : familyParam = []
  · simp [hfamily] at h
  · by_cases hfilename : filename = []
    · simp [hfamily, hfilename] at h
    · simp only [hfamily, hfilename, if_false] at h
      split at h
      · cases h
      · rename_i hname
        cases htype : fContentTypeFor (fExtensionOf filename) with
        | none => simp [htype] at h
        | some contentType =>
            simp only [htype] at h
            split at h
            · cases h
            · rw [Except.ok.injEq] at h
              subst h
              refine ⟨rfl, rfl, htype, ?_⟩
              simp only [not_or, List.any_eq_true, not_exists, not_and, Bool.not_eq_true] at hname
              exact hname.2.2

variable {familyParam filename body : Str} {u : Upload} {ownerId : Str} {faults : Faults}

theorem Checked.stored (h : Checked familyParam body u) (ownerId : Str) (draws : Draws) :
    Stored (newRow ownerId u draws) := ⟨⟨draws.id, rfl⟩, ⟨u.ext, h.contentType⟩, h.safe⟩

/-- The file is written where its row will point to. -/
theorem Checked.path (h : Checked familyParam body u) (ownerId : Str) (draws : Draws) :
    fFontFilePath ownerId (newRow ownerId u draws).id u.ext = (newRow ownerId u draws).path := by
  show _ = fFontFilePath ownerId (newRow ownerId u draws).id (fExtFromContentType u.contentType)
  rw [(ext_of_contentType h.contentType).1]

theorem Tidy.removeExisting (h : Tidy s) (faults : Faults) (existing : Option FontRow) :
    Tidy (removeExisting faults existing s).1 ∧
      ∀ ownerId, ((Fonts.removeExisting faults existing s).1.fontsOf ownerId).length ≤
        (s.fontsOf ownerId).length := by
  unfold Fonts.removeExisting
  cases existing with
  | none => exact ⟨h, fun _ => Nat.le_refl _⟩
  | some old =>
      cases faults.delete with
      | some errmsg => exact ⟨h.withFiles (h.flat.remove _), fun _ => Nat.le_refl _⟩
      | none =>
          exact ⟨(h.withFiles (h.flat.remove _)).filter _,
            fun _ => (List.filter_sublist.filter _).length_le⟩

theorem Tidy.insertAndReply (h : Tidy s) {row : FontRow} (hrow : Stored row)
    (hroom : (s.fontsOf row.ownerId).length < cMaxFontsPerAccount) :
    Tidy (insertAndReply faults row s).1 := by
  unfold Fonts.insertAndReply
  cases faults.insert with
  | some errmsg => exact h
  | none =>
      simp only [statement]
      cases hinsert : insertFont s.rows row with
      | error e => exact h
      | ok rows => exact h.insert hrow hroom hinsert

theorem Tidy.replaceFont (h : Tidy s) {row : FontRow} (hrow : Stored row)
    (hroom : (s.fontsOf row.ownerId).length < cMaxFontsPerAccount) :
    Tidy (replaceFont faults row s).1 := by
  unfold Fonts.replaceFont
  cases statement faults.existing (existing? s row.ownerId row.familyName) with
  | error e => exact h
  | ok existing =>
      obtain ⟨htidy, hfewer⟩ := h.removeExisting faults existing
      simp only []
      cases hremove : Fonts.removeExisting faults existing s with
      | mk s' answer =>
          rw [hremove] at htidy hfewer
          cases answer with
          | error e => exact htidy
          | ok _ => exact htidy.insertAndReply hrow (Nat.lt_of_le_of_lt (hfewer _) hroom)

theorem Tidy.storeFont (h : Tidy s) (hu : Checked familyParam body u) (draws : Draws) :
    Tidy (storeFont faults ownerId u draws s).1 := by
  unfold Fonts.storeFont
  cases hcount : statement faults.count (s.fontsOf ownerId).length with
  | error e => exact h
  | ok count =>
      have hlength : count = (s.fontsOf ownerId).length := by
        unfold statement at hcount
        split at hcount
        · exact (Except.ok.inj hcount).symm
        · cases hcount
      simp only []
      by_cases hfull : cMaxFontsPerAccount ≤ count
      · rw [if_pos hfull]
        exact h
      · rw [if_neg hfull]
        cases hwrite : fWriteFileAtomic s.files
            (fFontFilePath ownerId (newRow ownerId u draws).id u.ext) (fRandomHex draws.temp)
            u.body with
        | mk files returned =>
            have htidy := h.withFiles (h.flat.write hwrite)
            cases returned with
            | false => exact htidy
            | true =>
                have hroom : (s.fontsOf ownerId).length < cMaxFontsPerAccount := by omega
                exact htidy.replaceFont (hu.stored ownerId draws) hroom

theorem Tidy.uploadFont (h : Tidy s) (faults : Faults) (caller : Option Str)
    (familyParam filename body : Str) (draws : Draws) :
    Tidy (uploadFont faults caller familyParam filename body draws s).1 := by
  unfold Fonts.uploadFont
  cases fCurrentUser caller with
  | error e => exact h
  | ok userId =>
      cases hcheck : checkUpload familyParam filename body with
      | error e => exact h
      | ok u => exact h.storeFont (checkUpload_ok hcheck) draws

theorem Tidy.deleteFont (h : Tidy s) (fault deleteFault caller : Option Str) (fontId : Str) :
    Tidy (deleteFont fault deleteFault caller fontId s).1 := by
  unfold Fonts.deleteFont
  cases ownFont fault caller fontId s with
  | error e => exact h
  | ok row =>
      have htidy := h.withFiles (h.flat.remove row.path)
      cases deleteFault with
      | some errmsg => exact htidy
      | none => exact htidy.filter _

end Steps

/-! ## Runs -/

/-- The requests that change a library, and the statements that throw on the
way. -/
inductive Request where
  | upload (faults : Faults) (caller : Option Str) (familyParam filename body : Str)
      (draws : Draws)
  | delete (fault deleteFault caller : Option Str) (fontId : Str)

def serve : Request → FontStore → FontStore
  | .upload faults caller familyParam filename body draws, s =>
      (uploadFont faults caller familyParam filename body draws s).1
  | .delete fault deleteFault caller fontId, s => (deleteFont fault deleteFault caller fontId s).1

/-- What requests, one after the other, make of an empty library. -/
inductive Reachable : FontStore → Prop
  | start : Reachable .empty
  | step {s : FontStore} (r : Request) (hs : Reachable s) : Reachable (serve r s)

/-- **Every reachable library is tidy.** -/
theorem Reachable.tidy {s : FontStore} (h : Reachable s) : Tidy s := by
  induction h with
  | start => exact tidy_empty
  | step r _ ih =>
      cases r with
      | upload faults caller familyParam filename body draws =>
          exact ih.uploadFont faults caller familyParam filename body draws
      | delete fault deleteFault caller fontId =>
          exact ih.deleteFont fault deleteFault caller fontId

end Lectern.Fonts
