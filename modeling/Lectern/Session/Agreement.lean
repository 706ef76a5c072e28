import Mathlib.Data.List.Nodup
import Lectern.Session.Table

/-!
# Sessions and the history of their cookies

The table of sessions against the book of `Sliding`: a cookie is granted when
`fStart` issues it, used when `fCurrentUserId` returns a user for it, and
revoked by `fDestroy`.  `Agrees` says what the table knows of that history; a
purge changes the table and nothing that it knows.
-/

namespace Lectern

namespace Session

open Sliding

/-! ## Cookies -/

/-- With a secret a cookie carries an id only when `fStart` would have issued it
for that id. -/
theorem fIdFromCookie_iff {site : Site} (hsecret : site.sessionSecret ≠ []) {raw id : Str} :
    fIdFromCookie site raw = some id ↔ id ≠ [] ∧ dot ∉ id ∧ raw = cookieValue site id := by
  unfold fIdFromCookie cookieValue
  rw [if_neg hsecret]
  constructor
  · intro h
    by_cases hraw : raw = []
    · rw [if_pos hraw] at h
      cases h
    · rw [if_neg hraw] at h
      dsimp only at h
      cases hfind : raw.findIdx? (fun c => c == dot) with
      | none =>
          rw [hfind] at h
          dsimp only at h
          rw [if_pos hsecret] at h
          cases h
      | some at_ =>
          rw [hfind] at h
          dsimp only at h
          rw [if_neg (not_not_intro hsecret)] at h
          obtain ⟨hlt, hdot, hbefore⟩ := List.findIdx?_eq_some_iff_getElem.mp hfind
          split at h
          · cases h
          · rename_i hchecks
            cases h
            rw [not_or] at hchecks
            have hmac : raw.drop (at_ + 1) = fSign site (raw.take at_) := by
              rw [← fConstantTimeEquals_iff]
              simpa using hchecks.2
            refine ⟨hchecks.1, ?_, ?_⟩
            · intro hmem
              obtain ⟨i, hi, hget⟩ := List.getElem_of_mem hmem
              rw [List.length_take] at hi
              rw [List.getElem_take] at hget
              have hno := hbefore i (by omega)
              rw [hget] at hno
              exact absurd hno (by decide)
            · rw [← hmac, ← beq_iff_eq.mp hdot, ← List.drop_eq_getElem_cons hlt,
                List.take_append_drop]
  · intro ⟨hid, hdot, hraw⟩
    have hne : raw ≠ [] := by
      rw [hraw]
      simp
    have hfind : raw.findIdx? (fun c => c == dot) = some id.length := by
      rw [hraw, List.findIdx?_append]
      have hnone : id.findIdx? (fun c => c == dot) = none := by
        rw [List.findIdx?_eq_none_iff]
        intro c hc
        rw [beq_eq_false_iff_ne]
        intro hsame
        exact hdot (hsame ▸ hc)
      rw [hnone]
      simp [List.findIdx?_cons]
    rw [if_neg hne]
    dsimp only
    rw [hfind]
    dsimp only
    rw [if_neg (not_not_intro hsecret), hraw, List.take_left, if_neg]
    rw [not_or]
    refine ⟨hid, ?_⟩
    have hmac : (id ++ dot :: fSign site id).drop (id.length + 1) = fSign site id := by
      rw [← List.drop_drop, List.drop_left]
      rfl
    rw [hmac, fConstantTimeEquals_iff.mpr rfl]
    simp

/-- Different ids have different cookies. -/
theorem cookieValue_inj {site : Site} (hsecret : site.sessionSecret ≠ []) {id id' : Str}
    (hid : id ≠ []) (hdot : dot ∉ id) (hid' : id' ≠ []) (hdot' : dot ∉ id')
    (h : cookieValue site id = cookieValue site id') : id = id' := by
  have hread := (fIdFromCookie_iff hsecret).mpr ⟨hid, hdot, rfl⟩
  have hread' := (fIdFromCookie_iff hsecret).mpr ⟨hid', hdot', h⟩
  exact Option.some.inj (hread.symm.trans hread')

/-! ## Runs of calls -/

inductive Call where
  | start (userId : Str) (random : Vector UInt8 32)
  | currentUser (raw : Str)
  | destroy (raw : Str)
  | purge
  deriving DecidableEq, Repr

inductive Reply where
  | cookie (cookie : Cookie)
  | failed (e : AppError)
  | user (user : Option Str)
  | done
  deriving DecidableEq, Repr

/-- Execute one call at its time. -/
def perform (site : Site) (call : Call × Int) (tables : Tables) : Tables × Reply :=
  match call with
  | (.start userId random, now) =>
      match fStart site userId random now tables with
      | (tables, .ok cookie) => (tables, .cookie cookie)
      | (tables, .error e) => (tables, .failed e)
  | (.currentUser raw, now) =>
      ((fCurrentUserId site raw now tables).1, .user (fCurrentUserId site raw now tables).2)
  | (.destroy raw, _) => ((fDestroy site raw tables).1, .cookie (fDestroy site raw tables).2)
  | (.purge, now) => (fPurgeExpired now tables, .done)

/-- Execute calls one after the other. -/
def run (site : Site) (calls : List (Call × Int)) (tables : Tables) : Tables :=
  calls.foldl (fun tables call => (perform site call tables).1) tables

/-- What a call means for the cookie it issues or carries. -/
def eventOf : Call → Reply → Option (Event Str Str)
  | .start userId _, .cookie cookie => some (.granted cookie.value userId)
  | .currentUser raw, .user (some _) => some (.used raw)
  | .destroy raw, _ => some (.revoked raw)
  | _, _ => none

/-- What one call adds to the history. -/
def step (site : Site) (call : Call × Int) (tables : Tables) : History Str Str :=
  (eventOf call.1 (perform site call tables).2).toList.map (fun e => (e, call.2))

/-- The cookies issued, used and revoked along a run. -/
def history (site : Site) : List (Call × Int) → Tables → History Str Str
  | [], _ => []
  | call :: calls, tables =>
      step site call tables ++ history site calls (perform site call tables).1

/-- The id a call draws. -/
def drawnId : Call × Int → Option Str
  | (.start _ random, _) => some (fRandomHex random)
  | _ => none

@[simp] theorem run_nil (site : Site) (tables : Tables) : run site [] tables = tables := rfl

theorem run_cons (site : Site) (call : Call × Int) (calls : List (Call × Int)) (tables : Tables) :
    run site (call :: calls) tables = run site calls (perform site call tables).1 := rfl

theorem run_append (site : Site) (calls calls' : List (Call × Int)) (tables : Tables) :
    run site (calls ++ calls') tables = run site calls' (run site calls tables) := by
  unfold run
  rw [List.foldl_append]

theorem history_append (site : Site) (calls calls' : List (Call × Int)) (tables : Tables) :
    history site (calls ++ calls') tables =
      history site calls tables ++ history site calls' (run site calls tables) := by
  induction calls generalizing tables with
  | nil => rfl
  | cons call calls ih =>
      rw [List.cons_append, history, history, ih, run_cons, List.append_assoc]

/-! ## What the table knows -/

/-- The table after a history whose last event is at `now` or before; `drawn`
are the ids drawn so far. -/
structure Agrees (site : Site) (drawn : List Str) (h : History Str Str) (now : Int)
    (tables : Tables) : Prop where
  proper : Proper cInactivitySeconds h
  unique : (tables.sessions.map SessionRow.id).Nodup
  known : ∀ row ∈ tables.sessions, row.id ∈ drawn
  random : ∀ id ∈ drawn, id ≠ [] ∧ dot ∉ id
  issued : ∀ key ∈ h.filterMap grantOf, ∃ id ∈ drawn, key = cookieValue site id
  row : ∀ row ∈ tables.sessions,
    book h (cookieValue site row.id) = some (row.userId, row.expiresAt - cInactivitySeconds)
  gone : ∀ key holder last, book h key = some (holder, last) →
    (∃ row ∈ tables.sessions, key = cookieValue site row.id) ∨ cInactivitySeconds ≤ now - last

variable {site : Site} {drawn : List Str} {h : History Str Str} {now t : Int} {tables : Tables}

theorem Agrees.later (ha : Agrees site drawn h now tables) (ht : now ≤ t) :
    Agrees site drawn h t tables := by
  refine { ha with gone := ?_ }
  intro key holder last hbook
  rcases ha.gone key holder last hbook with hrow | hexpired
  · exact Or.inl hrow
  · exact Or.inr (by omega)

/-- The cookie of a row is read back as its id. -/
theorem Agrees.reads (ha : Agrees site drawn h now tables) (hsecret : site.sessionSecret ≠ [])
    {row : SessionRow} (hrow : row ∈ tables.sessions) {raw : Str} :
    fIdFromCookie site raw = some row.id ↔ raw = cookieValue site row.id := by
  obtain ⟨hid, hdot⟩ := ha.random row.id (ha.known row hrow)
  rw [fIdFromCookie_iff hsecret]
  constructor
  · intro hread
    exact hread.2.2
  · intro hraw
    exact ⟨hid, hdot, hraw⟩

/-- **The answer of the table** is the one the history gives. -/
theorem Agrees.answer (ha : Agrees site drawn h now tables) (hsecret : site.sessionSecret ≠ [])
    (raw user : Str) :
    (fCurrentUserId site raw now tables).2 = some user ↔
      Live cInactivitySeconds h raw user now := by
  rw [live_iff ha.proper]
  rcases fCurrentUserId_cases site raw now tables with
    ⟨hout, hnone⟩ | ⟨row, hrow, hread, ⟨hexpired, hout⟩ | ⟨hvalid, hout⟩⟩
  · rw [hout]
    constructor
    · intro hsome
      cases hsome
    · intro ⟨last, hbook, hgap⟩
      rcases ha.gone raw user last hbook with ⟨row, hrow, hraw⟩ | hlong
      · exact absurd ((ha.reads hsecret hrow).mpr hraw) (hnone row hrow)
      · omega
  · rw [hout]
    constructor
    · intro hsome
      cases hsome
    · intro ⟨last, hbook, hgap⟩
      rw [(ha.reads hsecret hrow).mp hread, ha.row row hrow] at hbook
      obtain ⟨_, hlast⟩ := Prod.mk.inj (Option.some.inj hbook)
      omega
  · rw [hout, (ha.reads hsecret hrow).mp hread, ha.row row hrow]
    constructor
    · intro hsome
      rw [Option.some.inj hsome]
      exact ⟨_, rfl, by omega⟩
    · intro ⟨last, hbook, _⟩
      rw [(Prod.mk.inj (Option.some.inj hbook)).1]

/-! ## One call -/

/-- Rows that have expired may go. -/
theorem Agrees.filter (ha : Agrees site drawn h now tables) (keep : SessionRow → Bool)
    (hkeep : ∀ row ∈ tables.sessions, keep row = false → row.expiresAt ≤ now) :
    Agrees site drawn h now { tables with sessions := tables.sessions.filter keep } := by
  refine { ha with unique := ?_, known := ?_, row := ?_, gone := ?_ }
  · exact ha.unique.sublist (List.filter_sublist.map SessionRow.id)
  · intro row hrow
    exact ha.known row (List.mem_of_mem_filter hrow)
  · intro row hrow
    exact ha.row row (List.mem_of_mem_filter hrow)
  · intro key holder last hbook
    rcases ha.gone key holder last hbook with ⟨row, hrow, hkey⟩ | hlong
    · cases hkept : keep row with
      | true => exact Or.inl ⟨row, List.mem_filter.mpr ⟨hrow, hkept⟩, hkey⟩
      | false =>
          right
          have hexpired := hkeep row hrow hkept
          rw [hkey, ha.row row hrow] at hbook
          obtain ⟨_, hlast⟩ := Prod.mk.inj (Option.some.inj hbook)
          omega
    · exact Or.inr hlong

/-- No row is left with the id of a cookie that was destroyed. -/
theorem mem_fDestroy (ha : Agrees site drawn h now tables) (hsecret : site.sessionSecret ≠ [])
    {raw : Str} {row : SessionRow} :
    row ∈ (fDestroy site raw tables).1.sessions ↔
      row ∈ tables.sessions ∧ raw ≠ cookieValue site row.id := by
  unfold fDestroy
  cases hid : fIdFromCookie site raw with
  | none =>
      constructor
      · intro hrow
        refine ⟨hrow, ?_⟩
        intro hraw
        have hread := (ha.reads hsecret hrow).mpr hraw
        rw [hid] at hread
        cases hread
      · intro hrow
        exact hrow.1
  | some id =>
      dsimp only
      rw [List.mem_filter, decide_eq_true_eq]
      constructor
      · intro ⟨hrow, hne⟩
        refine ⟨hrow, ?_⟩
        intro hraw
        have hread := (ha.reads hsecret hrow).mpr hraw
        rw [hid] at hread
        exact hne (Option.some.inj hread).symm
      · intro ⟨hrow, hne⟩
        refine ⟨hrow, ?_⟩
        intro hsame
        exact hne ((ha.reads hsecret hrow).mp (by rw [hid, hsame]))

theorem fDestroy_sublist (site : Site) (raw : Str) (tables : Tables) :
    (fDestroy site raw tables).1.sessions.Sublist tables.sessions := by
  unfold fDestroy
  cases fIdFromCookie site raw with
  | none => exact List.Sublist.refl _
  | some id => exact List.filter_sublist

/-- A destroyed cookie is revoked. -/
theorem Agrees.destroy (ha : Agrees site drawn h now tables) (hsecret : site.sessionSecret ≠ [])
    (raw : Str) :
    Agrees site drawn (h ++ [(.revoked raw, now)]) now (fDestroy site raw tables).1 := by
  refine ⟨?_, ?_, ?_, ha.random, ?_, ?_, ?_⟩
  · apply ha.proper.concat
    · intro key hgrant
      cases hgrant
    · intro key t he
      cases he
  · exact ha.unique.sublist ((fDestroy_sublist site raw tables).map SessionRow.id)
  · intro row hrow
    exact ha.known row ((mem_fDestroy ha hsecret).mp hrow).1
  · intro key hkey
    rw [List.filterMap_append] at hkey
    exact ha.issued key (by simpa [grantOf] using hkey)
  · intro row hrow
    obtain ⟨hold, hne⟩ := (mem_fDestroy ha hsecret).mp hrow
    rw [book_concat, note_apart (e := (.revoked raw, now)) hne]
    exact ha.row row hold
  · intro key holder last hbook
    rw [book_concat] at hbook
    by_cases hkey : raw = key
    · rw [hkey] at hbook
      change Function.update (book h) key none key = _ at hbook
      rw [Function.update_self] at hbook
      cases hbook
    · rw [note_apart (e := (.revoked raw, now)) hkey] at hbook
      rcases ha.gone key holder last hbook with ⟨row, hrow, hsame⟩ | hlong
      · exact Or.inl ⟨row, (mem_fDestroy ha hsecret).mpr ⟨hrow, hsame ▸ hkey⟩, hsame⟩
      · exact Or.inr hlong

/-- A cookie that is used is renewed. -/
theorem Agrees.use (ha : Agrees site drawn h now tables) (hsecret : site.sessionSecret ≠ [])
    {row : SessionRow} (hrow : row ∈ tables.sessions) (hvalid : now < row.expiresAt) :
    Agrees site drawn (h ++ [(.used (cookieValue site row.id), now)]) now
      { tables with sessions := tables.sessions.map (fun old =>
          if old.id = row.id then { old with expiresAt := now + cInactivitySeconds } else old) } := by
  have hids : (tables.sessions.map (fun old => if old.id = row.id then
      { old with expiresAt := now + cInactivitySeconds } else old)).map SessionRow.id =
      tables.sessions.map SessionRow.id := by
    rw [List.map_map]
    apply List.map_congr_left
    intro old _
    by_cases hold : old.id = row.id
    · simp [hold]
    · simp [hold]
  have hbook := ha.row row hrow
  refine ⟨?_, ?_, ?_, ha.random, ?_, ?_, ?_⟩
  · apply ha.proper.concat
    · intro key hgrant
      cases hgrant
    · intro key t he
      cases he
      exact ⟨_, _, hbook, by omega⟩
  · rw [hids]
    exact ha.unique
  · intro new hnew
    have hid := List.mem_map_of_mem (f := SessionRow.id) hnew
    rw [hids] at hid
    obtain ⟨old, hold, hsame⟩ := List.mem_map.mp hid
    rw [← hsame]
    exact ha.known old hold
  · intro key hkey
    rw [List.filterMap_append] at hkey
    exact ha.issued key (by simpa [grantOf] using hkey)
  · intro new hnew
    obtain ⟨old, hold, hnew⟩ := List.mem_map.mp hnew
    rw [book_concat, ← hnew]
    by_cases hsame : old.id = row.id
    · rw [if_pos hsame]
      dsimp only
      change Function.update (book h) (cookieValue site row.id) _ (cookieValue site old.id) = _
      have huser : old.userId = row.userId := by
        have hold' := ha.row old hold
        rw [hsame, hbook] at hold'
        exact (Prod.mk.inj (Option.some.inj hold')).1.symm
      rw [hsame, Function.update_self, hbook, huser]
      simp
    · rw [if_neg hsame]
      have hapart : cookieValue site row.id ≠ cookieValue site old.id := by
        intro hcookies
        obtain ⟨hid, hdot⟩ := ha.random row.id (ha.known row hrow)
        obtain ⟨hid', hdot'⟩ := ha.random old.id (ha.known old hold)
        exact hsame (cookieValue_inj hsecret hid hdot hid' hdot' hcookies).symm
      rw [note_apart (e := (.used (cookieValue site row.id), now)) hapart]
      exact ha.row old hold
  · intro key holder last hlast
    rw [book_concat] at hlast
    have hkeeps (old : SessionRow) (hold : old ∈ tables.sessions) : ∃ new ∈ tables.sessions.map
        (fun old => if old.id = row.id then { old with expiresAt := now + cInactivitySeconds }
          else old), cookieValue site old.id = cookieValue site new.id := by
      refine ⟨_, List.mem_map.mpr ⟨old, hold, rfl⟩, ?_⟩
      by_cases hsame : old.id = row.id
      · rw [if_pos hsame]
      · rw [if_neg hsame]
    by_cases hkey : cookieValue site row.id = key
    · left
      rw [← hkey]
      exact hkeeps row hrow
    · rw [note_apart (e := (.used (cookieValue site row.id), now)) hkey] at hlast
      rcases ha.gone key holder last hlast with ⟨old, hold, hsame⟩ | hlong
      · left
        rw [hsame]
        exact hkeeps old hold
      · exact Or.inr hlong

/-- A session that is started is granted to its user. -/
theorem Agrees.start (ha : Agrees site drawn h now tables) (hsecret : site.sessionSecret ≠ [])
    {random : Vector UInt8 32} (hfresh : fRandomHex random ∉ drawn) {userId : Str}
    {tables' : Tables}
    (hinsert : tables.insertSession ⟨fRandomHex random, userId, now + cInactivitySeconds⟩ =
      .ok tables') :
    Agrees site (drawn ++ [fRandomHex random])
      (h ++ [(.granted (cookieValue site (fRandomHex random)) userId, now)]) now tables' := by
  have hsessions : tables'.sessions =
      tables.sessions ++ [⟨fRandomHex random, userId, now + cInactivitySeconds⟩] := by
    unfold Tables.insertSession at hinsert
    split at hinsert
    · cases hinsert
    · split at hinsert
      · cases hinsert
      · cases hinsert
        rfl
  have hhex : fRandomHex random ≠ [] ∧ dot ∉ fRandomHex random :=
    ⟨fRandomHex_ne_nil random, dot_not_mem_fRandomHex random⟩
  have hapart : ∀ id ∈ drawn,
      cookieValue site (fRandomHex random) ≠ cookieValue site id := by
    intro id hid hsame
    obtain ⟨hne, hdot⟩ := ha.random id hid
    apply hfresh
    rw [cookieValue_inj hsecret hhex.1 hhex.2 hne hdot hsame]
    exact hid
  refine ⟨?_, ?_, ?_, ?_, ?_, ?_, ?_⟩
  · apply ha.proper.concat
    · intro key hgrant hkey
      cases hgrant
      obtain ⟨id, hid, hsame⟩ := ha.issued _ hkey
      exact hapart id hid hsame
    · intro key t he
      cases he
  · rw [hsessions, List.map_append, List.nodup_append]
    refine ⟨ha.unique, by simp, ?_⟩
    intro a hin b hb
    obtain ⟨row, hrow, hid⟩ := List.mem_map.mp hin
    rw [List.mem_singleton.mp hb, ← hid]
    intro hsame
    have hid : row.id = fRandomHex random := hsame
    exact hfresh (hid ▸ ha.known row hrow)
  · intro row hrow
    rw [hsessions, List.mem_append, List.mem_singleton] at hrow
    rcases hrow with hold | hnew
    · exact List.mem_append_left _ (ha.known row hold)
    · rw [hnew]
      simp
  · intro id hid
    rw [List.mem_append, List.mem_singleton] at hid
    rcases hid with hold | hnew
    · exact ha.random id hold
    · rw [hnew]
      exact hhex
  · intro key hkey
    rw [List.filterMap_append, List.mem_append] at hkey
    rcases hkey with hold | hnew
    · obtain ⟨id, hid, hsame⟩ := ha.issued key hold
      exact ⟨id, List.mem_append_left _ hid, hsame⟩
    · refine ⟨fRandomHex random, by simp, ?_⟩
      simpa [grantOf] using hnew
  · intro row hrow
    rw [book_concat]
    rw [hsessions, List.mem_append, List.mem_singleton] at hrow
    rcases hrow with hold | hnew
    · rw [note_apart (e := (.granted (cookieValue site (fRandomHex random)) userId, now))
        (hapart row.id (ha.known row hold))]
      exact ha.row row hold
    · rw [hnew]
      change Function.update (book h) _ _ _ = _
      rw [Function.update_self]
      simp
  · intro key holder last hbook
    rw [book_concat] at hbook
    by_cases hkey : cookieValue site (fRandomHex random) = key
    · left
      rw [← hkey, hsessions]
      exact ⟨⟨fRandomHex random, userId, now + cInactivitySeconds⟩, by simp, rfl⟩
    · rw [note_apart (e := (.granted (cookieValue site (fRandomHex random)) userId, now)) hkey]
        at hbook
      rcases ha.gone key holder last hbook with ⟨row, hrow, hsame⟩ | hlong
      · left
        rw [hsessions]
        exact ⟨row, List.mem_append_left _ hrow, hsame⟩
      · exact Or.inr hlong

/-- An id that is drawn for a session that cannot be started. -/
theorem Agrees.draw (ha : Agrees site drawn h now tables) (random : Vector UInt8 32) :
    Agrees site (drawn ++ [fRandomHex random]) h now tables := by
  refine { ha with known := ?_, random := ?_, issued := ?_ }
  · intro row hrow
    exact List.mem_append_left _ (ha.known row hrow)
  · intro id hid
    rw [List.mem_append, List.mem_singleton] at hid
    rcases hid with hold | hnew
    · exact ha.random id hold
    · rw [hnew]
      exact ⟨fRandomHex_ne_nil random, dot_not_mem_fRandomHex random⟩
  · intro key hkey
    obtain ⟨id, hid, hsame⟩ := ha.issued key hkey
    exact ⟨id, List.mem_append_left _ hid, hsame⟩

/-- **One call** keeps the table in agreement with the history. -/
theorem Agrees.perform (ha : Agrees site drawn h now tables) (hsecret : site.sessionSecret ≠ [])
    {call : Call × Int} (ht : now ≤ call.2) (hfresh : ∀ id, drawnId call = some id → id ∉ drawn) :
    Agrees site (drawn ++ (drawnId call).toList) (h ++ step site call tables) call.2
      (perform site call tables).1 := by
  obtain ⟨call, t⟩ := call
  have hthen := ha.later ht
  cases call with
  | start userId random =>
      have hnew := hfresh (fRandomHex random) rfl
      unfold step Session.perform fStart
      dsimp only
      cases hinsert : tables.insertSession ⟨fRandomHex random, userId, t + cInactivitySeconds⟩ with
      | error e =>
          change Agrees site (drawn ++ [fRandomHex random]) (h ++ []) t tables
          rw [List.append_nil]
          exact hthen.draw random
      | ok tables' => exact hthen.start hsecret hnew hinsert
  | currentUser raw =>
      unfold step Session.perform
      dsimp only
      rw [show drawn ++ (drawnId (.currentUser raw, t)).toList = drawn from List.append_nil _]
      rcases fCurrentUserId_cases site raw t tables with
        ⟨hout, _⟩ | ⟨row, hrow, hread, ⟨hexpired, hout⟩ | ⟨hvalid, hout⟩⟩
      · rw [hout]
        change Agrees site drawn (h ++ []) t tables
        rw [List.append_nil]
        exact hthen
      · rw [hout]
        change Agrees site drawn (h ++ []) t
          { tables with sessions := tables.sessions.filter (fun old => old.id ≠ row.id) }
        rw [List.append_nil]
        apply hthen.filter
        intro old hold hdropped
        have hsame : old.id = row.id := by simpa using hdropped
        rw [List.inj_on_of_nodup_map hthen.unique hold hrow hsame]
        exact hexpired
      · rw [hout, (hthen.reads hsecret hrow).mp hread]
        exact hthen.use hsecret hrow hvalid
  | destroy raw =>
      rw [show drawn ++ (drawnId (.destroy raw, t)).toList = drawn from List.append_nil _]
      exact hthen.destroy hsecret raw
  | purge =>
      unfold step Session.perform
      rw [show drawn ++ (drawnId (.purge, t)).toList = drawn from List.append_nil _]
      change Agrees site drawn (h ++ []) t (fPurgeExpired t tables)
      rw [List.append_nil]
      apply hthen.filter
      intro row _ hdropped
      simpa using hdropped

/-! ## Every run -/

/-- Before anything happened the table is empty. -/
theorem agrees_nil (site : Site) (users : List Account) (now : Int) :
    Agrees site [] [] now ⟨users, []⟩ where
  proper := Proper.nil cInactivitySeconds
  unique := List.nodup_nil
  known := by simp
  random := by simp
  issued := by simp
  row := by simp
  gone := by simp

/-- **A run** leaves a table that agrees with its history. -/
theorem agrees_run (hsecret : site.sessionSecret ≠ []) (users : List Account)
    {calls : List (Call × Int)} (hclock : calls.Pairwise (fun a b => a.2 ≤ b.2))
    (hids : (calls.filterMap drawnId).Nodup) (hnow : ∀ call ∈ calls, call.2 ≤ now) :
    Agrees site (calls.filterMap drawnId) (history site calls ⟨users, []⟩) now
      (run site calls ⟨users, []⟩) := by
  induction calls using List.reverseRecOn generalizing now with
  | nil => exact agrees_nil site users now
  | append_singleton calls call ih =>
      rw [List.pairwise_append] at hclock
      rw [List.filterMap_append, List.nodup_append] at hids
      have hbefore : Agrees site (calls.filterMap drawnId) (history site calls ⟨users, []⟩) call.2
          (run site calls ⟨users, []⟩) :=
        ih hclock.1 hids.1 (fun earlier hin => hclock.2.2 earlier hin call (by simp))
      have hfresh : ∀ id, drawnId call = some id → id ∉ calls.filterMap drawnId := by
        intro id hdrawn hin
        exact hids.2.2 id hin id (by simp [hdrawn]) rfl
      have hafter := hbefore.perform hsecret (Int.le_refl _) hfresh
      have hlater := hafter.later (hnow call (by simp))
      rw [List.filterMap_append, history_append, run_append]
      have hdrawn : [call].filterMap drawnId = (drawnId call).toList := by
        cases hd : drawnId call <;> simp [hd]
      rw [hdrawn, history, history, List.append_nil]
      exact hlater

end Session

end Lectern
