import Lectern.Doors

/-!
# What the owner last said

The share table holds one row for an owner, a grantee and a path, and the link
table one row for each link.  A POST by the owner makes a share or says its
level anew; a DELETE ends it.  `share_standing` and `link_standing` read the
tables after a run as its history: a row is there exactly when a request of the
owner put it there and none has ended or replaced it since.
-/

namespace Lectern

open FileTree Sync

/-! ## What a POST asks for -/

/-- The body asks for an entry of the owner's that is there, at a level. -/
structure EntryAsked (s : Server) (owner : Str) (body : Json) (relPath : Str) (isDir : Bool)
    (permission : Str) : Prop where
  sent : body.find? (str "permission") = some (.string permission)
  level : permission = str "view" ∨ permission = str "comment" ∨ permission = str "edit"
  path : ∃ path, body.find? (str "relPath") = some (.string path) ∧ fSafeRelPath path = .ok relPath
  kind : isDir = true ↔ body.find? (str "isDir") = some (.bool true)
  there : ∃ entry, (s.workspaces owner).root.entryAt (pathOf relPath) = some entry ∧
    (entry = .dir ↔ isDir = true)

/-- The owner's POST asks for a share of the row's entry, at its level, with its
grantee. -/
structure ShareAsked (s : Server) (caller : Option Str) (body : Json) (row : ShareRow) : Prop where
  owner : caller = some row.ownerId
  entry : EntryAsked s row.ownerId body row.relPath row.isDir row.permission
  grantee : ∃ email user, body.find? (str "email") = some (.string email) ∧
    s.db.users.find? (fun user => user.email = fToLower (fTrim email)) = some user ∧
    user.id = row.granteeId
  other : row.granteeId ≠ row.ownerId

/-- The share a POST asks for, when its checks pass. -/
def askedShare (caller : Option Str) (body : Json) (id : Str) (now : Int) (s : Server) :
    Option ShareRow := do
  let ownerId ← caller
  let (perm, rel, isDir) ← (newEntry s ownerId body).toOption
  let email ← (fJsonString body (str "email")).toOption
  let grantee ← s.db.users.find? (fun row => row.email = fToLower (fTrim email))
  if grantee.id = ownerId then none
  else some ⟨id, ownerId, grantee.id, rel, isDir, fPermStr perm, now⟩

/-- The link a POST asks for, when its checks pass. -/
def askedLink (caller : Option Str) (body : Json) (id : Str) (now : Int) (s : Server) :
    Option LinkRow := do
  let ownerId ← caller
  let (perm, rel, isDir) ← (newEntry s ownerId body).toOption
  some ⟨id, ownerId, rel, isDir, fPermStr perm, now⟩

/-- Whose share of which entry with whom. -/
def ShareRow.key (row : ShareRow) : Str × Str × Str := (row.ownerId, row.granteeId, row.relPath)

theorem fJsonString_eq_ok_iff {body : Json} {key text : Str} :
    fJsonString body key = .ok text ↔ body.find? key = some (.string text) := by
  unfold fJsonString
  cases hfound : body.find? key with
  | none => simp
  | some value => cases value <;> simp [Json.string?]

theorem fJsonBool_iff {body : Json} {key : Str} :
    fJsonBool body key = true ↔ body.find? key = some (.bool true) := by
  unfold fJsonBool
  cases hfound : body.find? key with
  | none => simp
  | some value => cases value <;> simp

theorem isObject_of_find? {body value : Json} {key : Str} (h : body.find? key = some value) :
    body.isObject = true := by
  cases body with
  | object fields => rfl
  | _ => cases h

theorem fRequireEntryExists_eq_ok_iff {w : Workspace} {rel : Str} {isDir : Bool} :
    fRequireEntryExists w rel isDir = .ok () ↔
      ∃ entry, w.root.entryAt (pathOf rel) = some entry ∧ (entry = .dir ↔ isDir = true) := by
  unfold fRequireEntryExists isDirectory isRegularFile
  cases w.root.entryAt (pathOf rel) with
  | none => cases isDir <;> simp
  | some entry => cases entry <;> cases isDir <;> simp

theorem fParsePerm_eq_some_iff {text : Str} {perm : Perm} :
    fParsePerm text = some perm ↔ text = fPermStr perm := by
  constructor
  · intro h
    unfold fParsePerm at h
    split at h
    · cases h
      assumption
    · split at h
      · cases h
        assumption
      · split at h <;> cases h
        assumption
  · rintro rfl
    cases perm <;> decide +kernel

/-- **The checks of a POST** are passed by what it asks for, and nothing else. -/
theorem newEntry_eq_ok_iff {s : Server} {owner : Str} {body : Json} {perm : Perm} {rel : Str}
    {isDir : Bool} : newEntry s owner body = .ok (perm, rel, isDir) ↔
      EntryAsked s owner body rel isDir (fPermStr perm) := by
  have hlevel : fPermStr perm = str "view" ∨ fPermStr perm = str "comment" ∨
      fPermStr perm = str "edit" := by
    cases perm <;> simp [fPermStr]
  constructor
  · intro h
    unfold newEntry at h
    cases hbody : fJsonBody body with
    | error e => simp [hbody, bind, Except.bind] at h
    | ok fields =>
        cases fJsonBody_ok hbody
        cases hpermission : fJsonString body (str "permission") with
        | error e => simp [hbody, hpermission, bind, Except.bind] at h
        | ok permission =>
            cases hparse : fParsePerm permission with
            | none => simp [hbody, hpermission, hparse, bind, Except.bind] at h
            | some perm' =>
                cases hpath : fJsonString body (str "relPath") with
                | error e => simp [hbody, hpermission, hparse, hpath, bind, Except.bind] at h
                | ok path =>
                    cases hsafe : fSafeRelPath path with
                    | error e =>
                        simp [hbody, hpermission, hparse, hpath, hsafe, bind, Except.bind] at h
                    | ok key =>
                        cases hthere : fRequireEntryExists (s.workspaces owner) key
                            (fJsonBool body (str "isDir")) with
                        | error e =>
                            simp [hbody, hpermission, hparse, hpath, hsafe, hthere, bind,
                              Except.bind] at h
                        | ok _ =>
                            simp only [hbody, hpermission, hparse, hpath, hsafe, hthere, bind,
                              Except.bind, pure, Except.pure] at h
                            cases h
                            refine ⟨?_, hlevel, ⟨path, fJsonString_eq_ok_iff.mp hpath, hsafe⟩,
                              fJsonBool_iff, fRequireEntryExists_eq_ok_iff.mp hthere⟩
                            rw [← fParsePerm_eq_some_iff.mp hparse]
                            exact fJsonString_eq_ok_iff.mp hpermission
  · rintro ⟨hpermission, _, ⟨path, hpath, hsafe⟩, hkind, hthere⟩
    have hbody : fJsonBody body = .ok body := if_pos (isObject_of_find? hpermission)
    have hbool : fJsonBool body (str "isDir") = isDir :=
      Bool.eq_iff_iff.mpr (fJsonBool_iff.trans hkind.symm)
    unfold newEntry
    simp only [hbody, fJsonString_eq_ok_iff.mpr hpermission, fParsePerm_eq_some_iff.mpr rfl,
      fJsonString_eq_ok_iff.mpr hpath, hsafe, hbool, fRequireEntryExists_eq_ok_iff.mpr hthere,
      bind, Except.bind, pure, Except.pure]

/-- A body asks for one entry at one level. -/
theorem EntryAsked.unique {s : Server} {owner : Str} {body : Json} {rel rel' : Str}
    {isDir isDir' : Bool} {permission permission' : Str}
    (h : EntryAsked s owner body rel isDir permission)
    (h' : EntryAsked s owner body rel' isDir' permission') :
    rel = rel' ∧ isDir = isDir' ∧ permission = permission' := by
  obtain ⟨path, hpath, hsafe⟩ := h.path
  obtain ⟨path', hpath', hsafe'⟩ := h'.path
  cases hpath.symm.trans hpath'
  cases hsafe.symm.trans hsafe'
  cases h.sent.symm.trans h'.sent
  exact ⟨rfl, Bool.eq_iff_iff.mpr (h.kind.trans h'.kind.symm), rfl⟩

theorem toOption_newEntry {s : Server} {owner : Str} {body : Json} {entry : Perm × Str × Bool} :
    (newEntry s owner body).toOption = some entry ↔
      EntryAsked s owner body entry.2.1 entry.2.2 (fPermStr entry.1) := by
  obtain ⟨perm, rel, isDir⟩ := entry
  rw [← newEntry_eq_ok_iff]
  cases newEntry s owner body <;> simp [Except.toOption]

theorem EntryAsked.entry {s : Server} {owner : Str} {body : Json} {rel : Str} {isDir : Bool}
    {permission : Str} (h : EntryAsked s owner body rel isDir permission) :
    ∃ perm, (newEntry s owner body).toOption = some (perm, rel, isDir) ∧
      fPermStr perm = permission := by
  rcases h.level with rfl | rfl | rfl
  · exact ⟨.view, toOption_newEntry.mpr h, rfl⟩
  · exact ⟨.comment, toOption_newEntry.mpr h, rfl⟩
  · exact ⟨.edit, toOption_newEntry.mpr h, rfl⟩

theorem askedLink_eq_some_iff {caller : Option Str} {body : Json} {id : Str} {now : Int}
    {s : Server} {asked : LinkRow} : askedLink caller body id now s = some asked ↔
      (caller = some asked.ownerId ∧
        EntryAsked s asked.ownerId body asked.relPath asked.isDir asked.permission) ∧
      asked.id = id ∧ asked.createdAt = now := by
  unfold askedLink
  cases caller with
  | none => simp
  | some owner =>
      simp only [Option.bind_eq_bind, Option.bind_some]
      constructor
      · intro h
        obtain ⟨⟨perm, rel, isDir⟩, hentry, hrow⟩ := Option.bind_eq_some_iff.mp h
        cases hrow
        exact ⟨⟨rfl, toOption_newEntry.mp hentry⟩, rfl, rfl⟩
      · rintro ⟨⟨howner, hasked⟩, rfl, rfl⟩
        cases howner
        obtain ⟨perm, hentry, hperm⟩ := hasked.entry
        simp [hentry, hperm]

theorem askedShare_eq_some_iff {caller : Option Str} {body : Json} {id : Str} {now : Int}
    {s : Server} {asked : ShareRow} : askedShare caller body id now s = some asked ↔
      ShareAsked s caller body asked ∧ asked.id = id ∧ asked.createdAt = now := by
  unfold askedShare
  cases caller with
  | none =>
      refine iff_of_false (by simp) ?_
      rintro ⟨hasked, _⟩
      cases hasked.owner
  | some owner =>
      simp only [Option.bind_eq_bind, Option.bind_some]
      constructor
      · intro h
        obtain ⟨⟨perm, rel, isDir⟩, hentry, h⟩ := Option.bind_eq_some_iff.mp h
        obtain ⟨email, hemail, h⟩ := Option.bind_eq_some_iff.mp h
        obtain ⟨grantee, hgrantee, h⟩ := Option.bind_eq_some_iff.mp h
        split at h
        · cases h
        · rename_i hother
          cases h
          refine ⟨⟨rfl, toOption_newEntry.mp hentry, ⟨email, grantee, ?_, hgrantee, rfl⟩, hother⟩,
            rfl, rfl⟩
          rw [← fJsonString_eq_ok_iff]
          cases hsent : fJsonString body (str "email") with
          | error e =>
              rw [hsent] at hemail
              cases hemail
          | ok sent =>
              rw [hsent] at hemail
              cases hemail
              rfl
      · rintro ⟨⟨howner, hasked, ⟨email, grantee, hemail, hgrantee, hid⟩, hother⟩, rfl, rfl⟩
        cases howner
        obtain ⟨perm, hentry, hperm⟩ := hasked.entry
        have hsent : (fJsonString body (str "email")).toOption = some email := by
          rw [fJsonString_eq_ok_iff.mpr hemail]
          rfl
        simp [hentry, hperm, hsent, hgrantee, hid, hother]

theorem db_postShares (caller : Option Str) (body : Json) (id : Str) (now : Int) (s : Server) :
    (postShares caller body id now s).1.db =
      ((askedShare caller body id now s).bind (fun asked =>
        (upsertShare s.db asked).toOption)).getD s.db := by
  cases caller with
  | none => rfl
  | some owner =>
      cases hentry : newEntry s owner body with
      | error e =>
          simp [postShares, askedShare, fCurrentUser, hentry, bind, Except.bind, Except.toOption]
      | ok entry =>
          obtain ⟨perm, rel, isDir⟩ := entry
          cases hemail : fJsonString body (str "email") with
          | error e =>
              simp [postShares, askedShare, fCurrentUser, hentry, hemail, bind, Except.bind,
                Except.toOption]
          | ok email =>
              cases hfind : s.db.users.find? (fun row => row.email = fToLower (fTrim email)) with
              | none =>
                  simp [postShares, askedShare, fCurrentUser, hentry, hemail, hfind, bind,
                    Except.bind, Except.toOption]
              | some grantee =>
                  by_cases hself : grantee.id = owner
                  · simp [postShares, askedShare, fCurrentUser, hentry, hemail, hfind, hself, bind,
                      Except.bind, Except.toOption]
                  · simp only [postShares, askedShare, fCurrentUser, hentry, hemail, hfind, hself,
                      bind, Except.bind, Except.toOption, pure, Except.pure, Option.bind, if_false]
                    cases upsertShare s.db ⟨id, owner, grantee.id, rel, isDir, fPermStr perm, now⟩ <;>
                      rfl

theorem db_postLinks (caller : Option Str) (body : Json) (id : Str) (now : Int) (s : Server) :
    (postLinks caller body id now s).1.db.links =
      match askedLink caller body id now s with
      | none => s.db.links
      | some asked =>
          if s.db.links.any (fun row => row.id = id) then s.db.links else s.db.links ++ [asked] := by
  cases caller with
  | none => rfl
  | some owner =>
      cases hentry : newEntry s owner body with
      | error e =>
          simp [postLinks, askedLink, fCurrentUser, hentry, bind, Except.bind, Except.toOption]
      | ok entry =>
          obtain ⟨perm, rel, isDir⟩ := entry
          simp only [postLinks, askedLink, fCurrentUser, hentry, bind, Except.bind,
            Except.toOption, pure, Except.pure, Option.bind]
          split <;> rfl

/-! ## The tables -/

/-- What an upsert makes of a row: a row of the asked key takes the asked level
and kind and keeps its id. -/
def ShareRow.renew (asked old : ShareRow) : ShareRow :=
  if old.key = asked.key then { old with permission := asked.permission, isDir := asked.isDir }
  else old

theorem id_renew (asked old : ShareRow) : (asked.renew old).id = old.id := by
  unfold ShareRow.renew
  split <;> rfl

theorem key_renew (asked old : ShareRow) : (asked.renew old).key = old.key := by
  unfold ShareRow.renew
  split <;> rfl

theorem renew_of_ne {asked old : ShareRow} (h : old.key ≠ asked.key) : asked.renew old = old :=
  if_neg h

/-- **What an upsert does**: it renews the row of its key, adds a row where there
is none, or fails on a taken id. -/
theorem upsertShare_cases (db : Db) (asked : ShareRow) :
    (∃ old ∈ db.shares, old.key = asked.key) ∧
        upsertShare db asked = .ok { db with shares := db.shares.map asked.renew } ∨
      (∀ old ∈ db.shares, old.key ≠ asked.key) ∧
        ((∃ old ∈ db.shares, old.id = asked.id) ∧ (∃ e, upsertShare db asked = .error e) ∨
          (∀ old ∈ db.shares, old.id ≠ asked.id) ∧
            upsertShare db asked = .ok { db with shares := db.shares ++ [asked] }) := by
  have hkey (old : ShareRow) : decide (old.ownerId = asked.ownerId ∧
      old.granteeId = asked.granteeId ∧ old.relPath = asked.relPath) =
        decide (old.key = asked.key) := by
    simp [ShareRow.key]
  unfold upsertShare
  simp only [hkey, decide_eq_true_eq, List.any_eq_true]
  by_cases hany : ∃ old ∈ db.shares, old.key = asked.key
  · exact Or.inl ⟨hany, if_pos hany⟩
  · rw [if_neg hany]
    refine Or.inr ⟨fun old hold hsame => hany ⟨old, hold, hsame⟩, ?_⟩
    by_cases htaken : ∃ old ∈ db.shares, old.id = asked.id
    · exact Or.inl ⟨htaken, _, if_pos htaken⟩
    · rw [if_neg htaken]
      exact Or.inr ⟨fun old hold hsame => htaken ⟨old, hold, hsame⟩, rfl⟩

/-- The row keeps the id and the date of one of its key that is there; where none
is and the fresh id is free, it has the fresh id and the date of now. -/
def ShareRow.Placed (db : Db) (id : Str) (now : Int) (row : ShareRow) : Prop :=
  (∃ old ∈ db.shares, old.key = row.key ∧ row.id = old.id ∧ row.createdAt = old.createdAt) ∨
    (∀ old ∈ db.shares, old.key ≠ row.key ∧ old.id ≠ id) ∧ row.id = id ∧ row.createdAt = now

theorem eq_renew {asked old row : ShareRow} (hold : old.key = asked.key) :
    row = asked.renew old ↔ row.key = asked.key ∧ row.permission = asked.permission ∧
      row.isDir = asked.isDir ∧ row.id = old.id ∧ row.createdAt = old.createdAt := by
  unfold ShareRow.renew
  rw [if_pos hold]
  constructor
  · rintro rfl
    exact ⟨hold, rfl, rfl, rfl, rfl⟩
  · rintro ⟨hkey, hpermission, hdir, hid, hdate⟩
    have hsame := hkey.trans hold.symm
    unfold ShareRow.key at hsame
    simp only [Prod.mk.injEq] at hsame
    obtain ⟨howner, hgrantee, hpath⟩ := hsame
    cases row
    cases old
    simp_all

/-- **The rows after an upsert**: those of other keys, and of the asked key what
was asked. -/
theorem mem_upsertShare {db : Db} {asked row : ShareRow} :
    row ∈ ((upsertShare db asked).toOption.getD db).shares ↔
      row.key = asked.key ∧ row.permission = asked.permission ∧ row.isDir = asked.isDir ∧
          row.Placed db asked.id asked.createdAt ∨
        row ∈ db.shares ∧ row.key ≠ asked.key := by
  rcases upsertShare_cases db asked with
    ⟨⟨there, hthere, hkey⟩, hup⟩ | ⟨hkeys, ⟨⟨taken, htaken, hid⟩, e, hup⟩ | ⟨hids, hup⟩⟩
  · rw [hup]
    show row ∈ db.shares.map asked.renew ↔ _
    rw [List.mem_map]
    constructor
    · rintro ⟨old, hold, rfl⟩
      by_cases hsame : old.key = asked.key
      · obtain ⟨hnew, hpermission, hdir, hold', hdate⟩ := (eq_renew hsame).mp rfl
        exact Or.inl ⟨hnew, hpermission, hdir,
          Or.inl ⟨old, hold, hsame.trans hnew.symm, hold', hdate⟩⟩
      · rw [renew_of_ne hsame]
        exact Or.inr ⟨hold, hsame⟩
    · rintro (⟨hsame, hpermission, hdir, hplaced⟩ | ⟨hrow, hother⟩)
      · rcases hplaced with ⟨old, hold, hold', hid, hdate⟩ | ⟨hnone, _⟩
        · have hown := hold'.trans hsame
          exact ⟨old, hold, ((eq_renew hown).mpr ⟨hsame, hpermission, hdir, hid, hdate⟩).symm⟩
        · exact absurd (hkey.trans hsame.symm) (hnone there hthere).1
      · exact ⟨row, hrow, renew_of_ne hother⟩
  · rw [hup]
    constructor
    · intro hrow
      exact Or.inr ⟨hrow, hkeys row hrow⟩
    · rintro (⟨hsame, _, _, hplaced⟩ | ⟨hrow, _⟩)
      · rcases hplaced with ⟨old, hold, hold', _⟩ | ⟨hnone, _⟩
        · exact absurd (hold'.trans hsame) (hkeys old hold)
        · exact absurd hid (hnone taken htaken).2
      · exact hrow
  · rw [hup]
    show row ∈ db.shares ++ [asked] ↔ _
    rw [List.mem_append, List.mem_singleton]
    constructor
    · rintro (hrow | rfl)
      · exact Or.inr ⟨hrow, hkeys row hrow⟩
      · exact Or.inl ⟨rfl, rfl, rfl, Or.inr
          ⟨fun old hold => ⟨hkeys old hold, hids old hold⟩, rfl, rfl⟩⟩
    · rintro (⟨hsame, hpermission, hdir, hplaced⟩ | ⟨hrow, _⟩)
      · rcases hplaced with ⟨old, hold, hold', _⟩ | ⟨_, hid, hdate⟩
        · exact absurd (hold'.trans hsame) (hkeys old hold)
        · refine Or.inr (((eq_renew rfl).mpr ⟨hsame, hpermission, hdir, hid, hdate⟩).trans ?_)
          exact ((eq_renew rfl).mpr ⟨rfl, rfl, rfl, rfl, rfl⟩).symm
      · exact Or.inl hrow

/-- Ids and keys tell the rows apart. -/
structure OneEach (db : Db) : Prop where
  shareIds : (db.shares.map ShareRow.id).Nodup
  shareKeys : (db.shares.map ShareRow.key).Nodup
  linkIds : (db.links.map LinkRow.id).Nodup

theorem nodup_map_concat {α β : Type} {f : α → β} {xs : List α} {x : α} (h : (xs.map f).Nodup)
    (hnew : ∀ y ∈ xs, f y ≠ f x) : ((xs ++ [x]).map f).Nodup := by
  rw [List.map_append, List.map_singleton, List.nodup_append]
  refine ⟨h, List.nodup_singleton _, ?_⟩
  intro a ha b hb
  obtain ⟨y, hy, rfl⟩ := List.mem_map.mp ha
  rw [List.mem_singleton.mp hb]
  exact hnew y hy

theorem oneEach_upsertShare {db : Db} (hdb : OneEach db) (asked : ShareRow) :
    OneEach ((upsertShare db asked).toOption.getD db) := by
  rcases upsertShare_cases db asked with
    ⟨_, hup⟩ | ⟨hkeys, ⟨_, _, hup⟩ | ⟨hids, hup⟩⟩
  · rw [hup]
    refine ⟨?_, ?_, hdb.linkIds⟩
    · show ((db.shares.map asked.renew).map ShareRow.id).Nodup
      rw [List.map_map, show ShareRow.id ∘ asked.renew = ShareRow.id from funext (id_renew asked)]
      exact hdb.shareIds
    · show ((db.shares.map asked.renew).map ShareRow.key).Nodup
      rw [List.map_map,
        show ShareRow.key ∘ asked.renew = ShareRow.key from funext (key_renew asked)]
      exact hdb.shareKeys
  · rw [hup]
    exact hdb
  · rw [hup]
    exact ⟨nodup_map_concat hdb.shareIds hids, nodup_map_concat hdb.shareKeys hkeys, hdb.linkIds⟩

/-! ## What a share opens -/

/-- The access is to what `sub` names in an entry that was given at a level: the
entry itself, or what has that path below a folder. -/
structure Access.Within (a : Access) (ownerId relPath : Str) (isDir : Bool)
    (permission sub : Str) : Prop where
  owner : a.ownerId = ownerId
  kind : a.isDir = isDir
  level : a.permission = .view ∧ permission = str "view" ∨
    a.permission = .comment ∧ permission = str "comment" ∨
    a.permission = .edit ∧ permission = str "edit"
  path : sub = [] ∧ a.relPath = relPath ∨
    sub ≠ [] ∧ isDir = true ∧ ∃ key, fSafeRelPath sub = .ok key ∧
      a.relPath = relPath ++ slash :: key

theorem fEffectivePath_eq_ok_iff {root sub message k : Str} {isDir : Bool} :
    fEffectivePath root isDir sub message = .ok k ↔
      sub = [] ∧ k = root ∨
        sub ≠ [] ∧ isDir = true ∧ ∃ key, fSafeRelPath sub = .ok key ∧ k = root ++ slash :: key := by
  unfold fEffectivePath
  by_cases hsub : sub = []
  · rw [if_pos hsub]
    constructor
    · intro h
      cases h
      exact Or.inl ⟨hsub, rfl⟩
    · rintro (⟨_, rfl⟩ | ⟨hne, _⟩)
      · rfl
      · exact absurd hsub hne
  · rw [if_neg hsub]
    cases isDir with
    | false => simp [hsub]
    | true =>
        cases fSafeRelPath sub with
        | error e => simp [hsub]
        | ok key => simp [hsub, eq_comm]

/-- **What resolving opens**: what the sub-path names in the entry, at its level. -/
theorem access_eq_ok_iff {ownerId relPath permission sub message : Str} {isDir : Bool}
    {a : Access} : access ownerId relPath isDir permission sub message = .ok a ↔
      a.Within ownerId relPath isDir permission sub := by
  have hname : fParsePerm permission = some a.permission ↔
      a.permission = .view ∧ permission = str "view" ∨
        a.permission = .comment ∧ permission = str "comment" ∨
        a.permission = .edit ∧ permission = str "edit" := by
    rw [fParsePerm_eq_some_iff]
    cases a.permission <;> simp [fPermStr]
  constructor
  · intro h
    obtain ⟨howner, hkind, hlevel, hpath⟩ := access_ok h
    exact ⟨howner, hkind, hname.mp hlevel, fEffectivePath_eq_ok_iff.mp hpath⟩
  · rintro ⟨rfl, rfl, hlevel, hpath⟩
    unfold access fPermFromDb
    rw [fEffectivePath_eq_ok_iff.mpr hpath, hname.mpr hlevel]

namespace Sync

/-! ## What a request does to the tables -/

/-- The request puts this row into the share table: its owner asks for the entry
at its level, and the share is a new one or keeps its id. -/
def Request.Shares (s : Server) (row : ShareRow) : Request → Prop
  | .share caller (.postShares body id now) _ =>
      ShareAsked s caller body row ∧ row.Placed s.db id now
  | _ => False

/-- The request ends this row: one of its two sides deletes it, or its owner
says its level anew. -/
def Request.Unshares (s : Server) (row : ShareRow) : Request → Prop
  | .share caller (.postShares body _ _) _ =>
      ∃ asked, ShareAsked s caller body asked ∧ row.key = asked.key
  | .share caller (.deleteShare id) _ =>
      row.id = id ∧ ∃ user, caller = some user ∧ (row.ownerId = user ∨ row.granteeId = user)
  | _ => False

/-- The request puts this row into the link table: its owner asks for the entry
at its level, under a fresh token. -/
def Request.Links (s : Server) (row : LinkRow) : Request → Prop
  | .share caller (.postLinks body id now) _ =>
      ((caller = some row.ownerId ∧
        EntryAsked s row.ownerId body row.relPath row.isDir row.permission) ∧
        row.id = id ∧ row.createdAt = now) ∧ ∀ old ∈ s.db.links, old.id ≠ id
  | _ => False

/-- The owner deletes this link. -/
def Request.Unlinks (row : LinkRow) : Request → Prop
  | .share caller (.deleteLink id) _ => row.id = id ∧ caller = some row.ownerId
  | _ => False

/-- A request that touches no share. -/
def Request.Shareless : Request → Prop
  | .share _ (.postShares ..) _ => False
  | .share _ (.deleteShare _) _ => False
  | _ => True

/-- A request that touches no link. -/
def Request.Linkless : Request → Prop
  | .share _ (.postLinks ..) _ => False
  | .share _ (.deleteLink _) _ => False
  | _ => True

theorem shares_kept (cfg : Config) {r : Request} (hr : r.Shareless) (s : Server) :
    (serve cfg r s).1.db.shares = s.db.shares := by
  rcases serve_effect cfg r s with hsame | ⟨caller, req, device, rfl, he⟩
  · rw [hsame]
  · generalize (serve cfg (.share caller req device) s).1 = s' at he ⊢
    cases he with
    | share | unshare => exact hr.elim
    | nothing | link | unlink | writeLink | writeShare | count | comment | uncomment => rfl

theorem links_kept (cfg : Config) {r : Request} (hr : r.Linkless) (s : Server) :
    (serve cfg r s).1.db.links = s.db.links := by
  rcases serve_effect cfg r s with hsame | ⟨caller, req, device, rfl, he⟩
  · rw [hsame]
  · generalize (serve cfg (.share caller req device) s).1 = s' at he ⊢
    cases he with
    | share body id now row db howner hpath hdb => exact (upsertShare_keeps hdb).1
    | link | unlink => exact hr.elim
    | nothing | unshare | writeLink | writeShare | count | comment | uncomment => rfl

/-- A DELETE that finds nothing would have kept everything. -/
theorem filter_of_not_any {α : Type} {gone : α → Bool} {rows : List α}
    (h : ¬ rows.any gone = true) :
    rows.filter (fun row => !gone row) = rows := by
  rw [List.filter_eq_self]
  intro row hrow
  by_contra hgone
  exact h (List.any_eq_true.mpr ⟨row, hrow, by simpa using hgone⟩)

theorem shares_deleteShare (user id : Str) (s : Server) :
    (deleteShare (some user) id s).1.db.shares = s.db.shares.filter (fun row =>
      !decide (row.id = id ∧ (row.ownerId = user ∨ row.granteeId = user))) := by
  unfold deleteShare fCurrentUser
  dsimp only
  split
  · rfl
  · rename_i hany
    exact (filter_of_not_any hany).symm

theorem links_deleteLink (user id : Str) (s : Server) :
    (deleteLink (some user) id s).1.db.links = s.db.links.filter (fun row =>
      !decide (row.id = id ∧ row.ownerId = user)) := by
  unfold deleteLink fCurrentUser
  dsimp only
  split
  · rfl
  · rename_i hany
    exact (filter_of_not_any hany).symm

/-- A POST asks for one share. -/
theorem shareAsked_iff {s : Server} {caller : Option Str} {body : Json} {asked row : ShareRow}
    (hasked : ShareAsked s caller body asked) : ShareAsked s caller body row ↔
      row.key = asked.key ∧ row.permission = asked.permission ∧ row.isDir = asked.isDir := by
  constructor
  · intro h
    have howner := Option.some.inj (h.owner.symm.trans hasked.owner)
    obtain ⟨email, user, hemail, huser, hid⟩ := h.grantee
    obtain ⟨email', user', hemail', huser', hid'⟩ := hasked.grantee
    cases hemail.symm.trans hemail'
    cases huser.symm.trans huser'
    obtain ⟨hpath, hdir, hpermission⟩ := h.entry.unique (howner ▸ hasked.entry)
    refine ⟨?_, hpermission, hdir⟩
    unfold ShareRow.key
    rw [howner, hpath, ← hid, ← hid']
  · rintro ⟨hkey, hpermission, hdir⟩
    unfold ShareRow.key at hkey
    simp only [Prod.mk.injEq] at hkey
    obtain ⟨howner, hgrantee, hpath⟩ := hkey
    refine ⟨howner ▸ hasked.owner, ?_, hgrantee ▸ hasked.grantee, ?_⟩
    · rw [howner, hpath, hdir, hpermission]
      exact hasked.entry
    · rw [howner, hgrantee]
      exact hasked.other

/-- **One request on the shares.** -/
theorem mem_shares_serve (cfg : Config) (r : Request) (s : Server) (row : ShareRow) :
    row ∈ (serve cfg r s).1.db.shares ↔
      r.Shares s row ∨ row ∈ s.db.shares ∧ ¬ r.Unshares s row := by
  have hother (hr : r.Shareless) (hshares : ¬ r.Shares s row) (hunshares : ¬ r.Unshares s row) :
      row ∈ (serve cfg r s).1.db.shares ↔
        r.Shares s row ∨ row ∈ s.db.shares ∧ ¬ r.Unshares s row := by
    rw [shares_kept cfg hr s]
    simp [hshares, hunshares]
  cases r with
  | share caller req device =>
      cases req with
      | postShares body id now =>
          rw [serve_share]
          change row ∈ (postShares caller body id now s).1.db.shares ↔
            (ShareAsked s caller body row ∧ row.Placed s.db id now) ∨
            row ∈ s.db.shares ∧ ¬ ∃ asked, ShareAsked s caller body asked ∧ row.key = asked.key
          rw [db_postShares]
          cases hasked : askedShare caller body id now s with
          | none =>
              have hnone (asked : ShareRow) : ¬ ShareAsked s caller body asked := by
                intro h
                have hsame : ShareAsked s caller body { asked with id := id, createdAt := now } :=
                  ⟨h.owner, h.entry, h.grantee, h.other⟩
                rw [askedShare_eq_some_iff.mpr ⟨hsame, rfl, rfl⟩] at hasked
                cases hasked
              simp [hnone]
          | some asked =>
              obtain ⟨hask, rfl, rfl⟩ := askedShare_eq_some_iff.mp hasked
              have hends : (∃ other, ShareAsked s caller body other ∧ row.key = other.key) ↔
                  row.key = asked.key := by
                constructor
                · rintro ⟨other, hother, hkey⟩
                  exact hkey.trans ((shareAsked_iff hask).mp hother).1
                · exact fun hkey => ⟨asked, hask, hkey⟩
              rw [Option.bind_some, mem_upsertShare, shareAsked_iff hask, hends]
              simp only [and_assoc, ne_eq]
      | deleteShare id =>
          rw [serve_share]
          change row ∈ (deleteShare caller id s).1.db.shares ↔ False ∨ row ∈ s.db.shares ∧
            ¬ (row.id = id ∧ ∃ user, caller = some user ∧
              (row.ownerId = user ∨ row.granteeId = user))
          cases caller with
          | none => simp [deleteShare, fCurrentUser]
          | some user =>
              rw [shares_deleteShare, List.mem_filter, Bool.not_eq_true', decide_eq_false_iff_not]
              simp only [Option.some.injEq, exists_eq_left', false_or]
      | _ => exact hother trivial id id
  | _ => exact hother trivial id id

/-- **One request on the links.** -/
theorem mem_links_serve (cfg : Config) (r : Request) (s : Server) (row : LinkRow) :
    row ∈ (serve cfg r s).1.db.links ↔ r.Links s row ∨ row ∈ s.db.links ∧ ¬ r.Unlinks row := by
  have hother (hr : r.Linkless) (hlinks : ¬ r.Links s row) (hunlinks : ¬ r.Unlinks row) :
      row ∈ (serve cfg r s).1.db.links ↔
        r.Links s row ∨ row ∈ s.db.links ∧ ¬ r.Unlinks row := by
    rw [links_kept cfg hr s]
    simp [hlinks, hunlinks]
  cases r with
  | share caller req device =>
      cases req with
      | postLinks body id now =>
          rw [serve_share]
          change row ∈ (postLinks caller body id now s).1.db.links ↔
            (((caller = some row.ownerId ∧
              EntryAsked s row.ownerId body row.relPath row.isDir row.permission) ∧
              row.id = id ∧ row.createdAt = now) ∧ ∀ old ∈ s.db.links, old.id ≠ id) ∨
              row ∈ s.db.links ∧ ¬ False
          rw [db_postLinks, ← askedLink_eq_some_iff]
          cases hasked : askedLink caller body id now s with
          | none => simp
          | some asked =>
              dsimp only
              by_cases htaken : s.db.links.any (fun row => row.id = id) = true
              · rw [if_pos htaken]
                obtain ⟨old, hold, hid⟩ := List.any_eq_true.mp htaken
                rw [decide_eq_true_eq] at hid
                have hno : ¬ ∀ old ∈ s.db.links, old.id ≠ id := fun h => h old hold hid
                simp [hno]
              · rw [if_neg htaken, List.mem_append, List.mem_singleton]
                have hfresh : ∀ old ∈ s.db.links, old.id ≠ id := by
                  intro old hold hid
                  exact htaken (List.any_eq_true.mpr ⟨old, hold, by simpa using hid⟩)
                simp only [Option.some.injEq, not_false_eq_true, and_true]
                rw [and_iff_left hfresh, or_comm, eq_comm]
      | deleteLink id =>
          rw [serve_share]
          change row ∈ (deleteLink caller id s).1.db.links ↔ False ∨ row ∈ s.db.links ∧
            ¬ (row.id = id ∧ caller = some row.ownerId)
          cases caller with
          | none => simp [deleteLink, fCurrentUser]
          | some user =>
              rw [links_deleteLink, List.mem_filter, Bool.not_eq_true', decide_eq_false_iff_not]
              simp only [Option.some.injEq, false_or, eq_comm (a := user)]
      | _ => exact hother trivial id id
  | _ => exact hother trivial id id

theorem oneEach_shares (cfg : Config) (r : Request) {s : Server} (hdb : OneEach s.db) :
    ((serve cfg r s).1.db.shares.map ShareRow.id).Nodup ∧
      ((serve cfg r s).1.db.shares.map ShareRow.key).Nodup := by
  have hother (hr : r.Shareless) : ((serve cfg r s).1.db.shares.map ShareRow.id).Nodup ∧
      ((serve cfg r s).1.db.shares.map ShareRow.key).Nodup := by
    rw [shares_kept cfg hr s]
    exact ⟨hdb.shareIds, hdb.shareKeys⟩
  cases r with
  | share caller req device =>
      cases req with
      | postShares body id now =>
          rw [serve_share]
          change ((postShares caller body id now s).1.db.shares.map _).Nodup ∧
            ((postShares caller body id now s).1.db.shares.map _).Nodup
          rw [db_postShares]
          cases askedShare caller body id now s with
          | none => exact ⟨hdb.shareIds, hdb.shareKeys⟩
          | some asked =>
              have hup := oneEach_upsertShare hdb asked
              exact ⟨hup.shareIds, hup.shareKeys⟩
      | deleteShare id =>
          rw [serve_share]
          change ((deleteShare caller id s).1.db.shares.map _).Nodup ∧
            ((deleteShare caller id s).1.db.shares.map _).Nodup
          cases caller with
          | none => exact ⟨hdb.shareIds, hdb.shareKeys⟩
          | some user =>
              rw [shares_deleteShare]
              exact ⟨hdb.shareIds.sublist (List.filter_sublist.map _),
                hdb.shareKeys.sublist (List.filter_sublist.map _)⟩
      | _ => exact hother trivial
  | _ => exact hother trivial

theorem oneEach_links (cfg : Config) (r : Request) {s : Server} (hdb : OneEach s.db) :
    ((serve cfg r s).1.db.links.map LinkRow.id).Nodup := by
  have hother (hr : r.Linkless) : ((serve cfg r s).1.db.links.map LinkRow.id).Nodup := by
    rw [links_kept cfg hr s]
    exact hdb.linkIds
  cases r with
  | share caller req device =>
      cases req with
      | postLinks body id now =>
          rw [serve_share]
          change ((postLinks caller body id now s).1.db.links.map _).Nodup
          rw [db_postLinks]
          cases hasked : askedLink caller body id now s with
          | none => exact hdb.linkIds
          | some asked =>
              dsimp only
              split
              · exact hdb.linkIds
              · rename_i hfresh
                refine nodup_map_concat hdb.linkIds ?_
                intro old hold hid
                rw [(askedLink_eq_some_iff.mp hasked).2.1] at hid
                exact hfresh (List.any_eq_true.mpr ⟨old, hold, by simpa using hid⟩)
      | deleteLink id =>
          rw [serve_share]
          change ((deleteLink caller id s).1.db.links.map _).Nodup
          cases caller with
          | none => exact hdb.linkIds
          | some user =>
              rw [links_deleteLink]
              exact hdb.linkIds.sublist (List.filter_sublist.map _)
      | _ => exact hother trivial
  | _ => exact hother trivial

theorem oneEach_serve (cfg : Config) (r : Request) {s : Server} (hdb : OneEach s.db) :
    OneEach (serve cfg r s).1.db :=
  ⟨(oneEach_shares cfg r hdb).1, (oneEach_shares cfg r hdb).2, oneEach_links cfg r hdb⟩

/-! ## Whole runs -/

/-- The share was there or was made, and has not been ended since. -/
def ShareStands (cfg : Config) (rs : List Request) (s : Server) (row : ShareRow) : Prop :=
  Runs.Standing (fun r s => (serve cfg r s).1) (fun s => row ∈ s.db.shares)
    (fun s r => r.Shares s row) (fun s r => r.Unshares s row) rs s

/-- The link was there or was made, and has not been deleted since. -/
def LinkStands (cfg : Config) (rs : List Request) (s : Server) (row : LinkRow) : Prop :=
  Runs.Standing (fun r s => (serve cfg r s).1) (fun s => row ∈ s.db.links)
    (fun s r => r.Links s row) (fun _ r => r.Unlinks row) rs s

theorem oneEach_served (cfg : Config) (rs : List Request) {s : Server} (hdb : OneEach s.db) :
    OneEach (served cfg rs s).db :=
  Runs.run_induction (P := fun s : Server => OneEach s.db)
    (fun r _ _ hs => oneEach_serve cfg r hs) hdb

theorem mem_shares_served (cfg : Config) (rs : List Request) (s : Server) (row : ShareRow) :
    row ∈ (served cfg rs s).db.shares ↔ ShareStands cfg rs s row :=
  Runs.run_iff (P := fun s : Server => row ∈ s.db.shares) (I := fun _ => True)
    (fun _ _ _ _ => trivial) (fun r _ s _ => mem_shares_serve cfg r s row) trivial

theorem mem_links_served (cfg : Config) (rs : List Request) (s : Server) (row : LinkRow) :
    row ∈ (served cfg rs s).db.links ↔ LinkStands cfg rs s row :=
  Runs.run_iff (P := fun s : Server => row ∈ s.db.links) (I := fun _ => True)
    (fun _ _ _ _ => trivial) (fun r _ s _ => mem_links_serve cfg r s row) trivial

theorem fLoadShare_eq_ok_iff {db : Db} (hdb : OneEach db) {id : Str} {row : ShareRow} :
    fLoadShare db id = .ok row ↔ row ∈ db.shares ∧ row.id = id := by
  refine ⟨fLoadShare_ok, ?_⟩
  rintro ⟨hrow, hid⟩
  unfold fLoadShare
  cases hfind : db.shares.find? (fun row => row.id = id) with
  | none =>
      have hmissing := List.find?_eq_none.mp hfind row hrow
      exact absurd hid (by simpa using hmissing)
  | some found =>
      have hfound : found.id = id := by simpa using List.find?_some hfind
      have hsame := List.inj_on_of_nodup_map hdb.shareIds (List.mem_of_find?_eq_some hfind) hrow
        (hfound.trans hid.symm)
      rw [hsame]

theorem fLoadLink_eq_ok_iff {db : Db} (hdb : OneEach db) {token : Str} {row : LinkRow} :
    fLoadLink db token = .ok row ↔ row ∈ db.links ∧ row.id = token := by
  refine ⟨fLoadLink_ok, ?_⟩
  rintro ⟨hrow, hid⟩
  unfold fLoadLink
  cases hfind : db.links.find? (fun row => row.id = token) with
  | none =>
      have hmissing := List.find?_eq_none.mp hfind row hrow
      exact absurd hid (by simpa using hmissing)
  | some found =>
      have hfound : found.id = token := by simpa using List.find?_some hfind
      have hsame := List.inj_on_of_nodup_map hdb.linkIds (List.mem_of_find?_eq_some hfind) hrow
        (hfound.trans hid.symm)
      rw [hsame]

/-- **Access is what the owner last said.**  After any run of requests, a share
id opens an entry for a user, at a level, exactly when a request of the owner
gave that user this entry at this level and nobody has ended the share nor said
it anew since; a link token likewise; and no two shares of one entry with one
user stand side by side. -/
theorem access_stands (cfg : Config) (rs : List Request) (s : Server) (hdb : OneEach s.db) :
    (∀ user id sub a, fResolveShareAccess (served cfg rs s).db user id sub = .ok a ↔
      ∃ row, ShareStands cfg rs s row ∧ row.id = id ∧ row.granteeId = user ∧
        a.Within row.ownerId row.relPath row.isDir row.permission sub) ∧
    (∀ token sub a, fResolveLinkAccess (served cfg rs s).db token sub = .ok a ↔
      ∃ row, LinkStands cfg rs s row ∧ row.id = token ∧
        a.Within row.ownerId row.relPath row.isDir row.permission sub) ∧
    ∀ row row', ShareStands cfg rs s row → ShareStands cfg rs s row' → row.key = row'.key →
      row = row' := by
  have hone := oneEach_served cfg rs hdb
  refine ⟨?_, ?_, ?_⟩
  · intro user id sub a
    unfold fResolveShareAccess
    constructor
    · intro h
      cases hload : fLoadShare (served cfg rs s).db id with
      | error e => simp [hload] at h
      | ok row =>
          simp only [hload] at h
          obtain ⟨hrow, hid⟩ := fLoadShare_ok hload
          split at h
          · cases h
          · rename_i hgrantee
            exact ⟨row, (mem_shares_served cfg rs s row).mp hrow, hid, by simpa using hgrantee,
              access_eq_ok_iff.mp h⟩
    · rintro ⟨row, hstands, hid, hgrantee, hwithin⟩
      have hload := (fLoadShare_eq_ok_iff hone).mpr
        ⟨(mem_shares_served cfg rs s row).mpr hstands, hid⟩
      simp only [hload, hgrantee, ne_eq, not_true_eq_false, if_false,
        access_eq_ok_iff.mpr hwithin]
  · intro token sub a
    unfold fResolveLinkAccess
    constructor
    · intro h
      cases hload : fLoadLink (served cfg rs s).db token with
      | error e => simp [hload] at h
      | ok row =>
          simp only [hload] at h
          obtain ⟨hrow, hid⟩ := fLoadLink_ok hload
          exact ⟨row, (mem_links_served cfg rs s row).mp hrow, hid, access_eq_ok_iff.mp h⟩
    · rintro ⟨row, hstands, hid, hwithin⟩
      have hload := (fLoadLink_eq_ok_iff hone).mpr
        ⟨(mem_links_served cfg rs s row).mpr hstands, hid⟩
      simp only [hload, access_eq_ok_iff.mpr hwithin]
  · intro row row' hrow hrow' hkey
    exact List.inj_on_of_nodup_map hone.shareKeys ((mem_shares_served cfg rs s row).mpr hrow)
      ((mem_shares_served cfg rs s row').mpr hrow') hkey

/-- Ann lowers Bob's level to viewing. -/
def annLowers : Request :=
  .share (some (str "ann")) (.postShares (.object [(str "permission", .string (str "view")),
    (str "relPath", .string (str "docs")), (str "isDir", .bool true),
    (str "email", .string (str "bob@x.org"))]) (str "s2") 7) []

theorem access_stands_annLowers :
    ∃ row, ShareStands plainConfig [annLowers] sharedDocs row ∧ row.id = str "s1" ∧
      row.granteeId = str "bob" ∧
      Access.Within ⟨str "ann", str "docs/x.mdp", true, .view⟩ row.ownerId row.relPath row.isDir
        row.permission (str "x.mdp") :=
  ((access_stands plainConfig [annLowers] sharedDocs
      ⟨by decide +kernel, by decide +kernel, by decide +kernel⟩).1
    (str "bob") (str "s1") (str "x.mdp") ⟨str "ann", str "docs/x.mdp", true, .view⟩).mp
    (by decide +kernel)

end Sync

end Lectern
