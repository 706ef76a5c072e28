import Lectern.Auth
import Lectern.AtomicWrite
import Mathlib.Data.List.Sort

/-!
# The font library of an account

`fonts.cpp` over the table `custom_fonts` and the files below `fonts_dir`.  A
row points to the file named after its id and the extension that its content
type ends in.

A statement may throw, with the message SQLite gives; a handler returns what it
leaves behind even then.
-/

namespace Lectern.Fonts

open FileTree

def cMaxFontsPerAccount : Nat := 30

/-- 5 MB. -/
def cMaxFontBytes : Nat := 5 * 1024 * 1024

/-! ## Names and types -/

def fContentTypeFor (ext : Str) : Option Str :=
  if ext = str "ttf" then some (str "font/ttf")
  else if ext = str "otf" then some (str "font/otf")
  else if ext = str "woff" then some (str "font/woff")
  else if ext = str "woff2" then some (str "font/woff2")
  else none

/-- What follows the last `'/'`; `ttf` where there is none, or nothing after
it. -/
def fExtFromContentType (contentType : Str) : Str :=
  let ext := fBasenameOf contentType
  if ext.length < contentType.length ∧ ext ≠ [] then ext else str "ttf"

/-- Below `fonts_dir`. -/
def fFontFilePath (ownerId fontId ext : Str) : List Str := [ownerId, fontId ++ dot :: ext]

/-- `std::iscntrl` of the C locale. -/
def isCntrl (c : UInt8) : Bool := c < 32 || c == 127

/-- What could leave a CSS string in single quotes, or the `<style>` element
around it. -/
def fIsUnsafeFamilyChar (c : UInt8) : Bool :=
  isCntrl c || (str "'\"<>\\\x7b\x7d;&").contains c

def fCssStringLiteralBody (familyName : Str) : Str :=
  familyName.filter (fun c => !fIsUnsafeFamilyChar c)

def fFontFormatFor (ext : Str) : Str :=
  if ext = str "woff2" then str "woff2"
  else if ext = str "woff" then str "woff"
  else if ext = str "otf" then str "opentype"
  else str "truetype"

def isAlnum (c : UInt8) : Bool :=
  (48 ≤ c && c ≤ 57) || (65 ≤ c && c ≤ 90) || (97 ≤ c && c ≤ 122)

/-- The id of a route becomes a path segment. -/
def fValidateFontId (fontId : Str) : Except AppError Unit :=
  if fontId = [] ∨ fontId.length > 64 then .error (.fBadRequest (str "invalid font id"))
  else if fontId.all (fun c => isAlnum c || c == dash) then .ok ()
  else .error (.fBadRequest (str "invalid font id"))

/-! ## The store -/

/-- A row of `custom_fonts`. -/
structure FontRow where
  id : Str
  ownerId : Str
  familyName : Str
  filename : Str
  contentType : Str
  byteSize : Nat
  createdAt : Int
  deriving DecidableEq, Repr

/-- The file a row points to. -/
def FontRow.path (row : FontRow) : List Str :=
  fFontFilePath row.ownerId row.id (fExtFromContentType row.contentType)

/-- The table and the directory `fonts_dir`. -/
structure FontStore where
  rows : List FontRow
  files : Disk

namespace FontStore

def empty : FontStore := ⟨[], Tree.empty⟩

/-- The rows of an account. -/
def fontsOf (s : FontStore) (ownerId : Str) : List FontRow :=
  s.rows.filter (fun row => row.ownerId = ownerId)

end FontStore

/-- `id` is a primary key, and an account has a family name once. -/
def insertFont (rows : List FontRow) (row : FontRow) : Except AppError (List FontRow) :=
  if rows.any (fun old => old.id = row.id) then
    .error (sqliteStepFailed (str "UNIQUE constraint failed: custom_fonts.id"))
  else if rows.any (fun old => old.ownerId = row.ownerId ∧ old.familyName = row.familyName) then
    .error (sqliteStepFailed
      (str "UNIQUE constraint failed: custom_fonts.owner_id, custom_fonts.family_name"))
  else .ok (rows ++ [row])

/-- A statement that may throw, with SQLite's message. -/
def statement {α : Type} (fault : Option Str) (result : α) : Except AppError α :=
  match fault with
  | none => .ok result
  | some errmsg => .error (sqliteStepFailed errmsg)

/-! ## `POST /api/fonts` -/

/-- An upload that has passed the checks of its own. -/
structure Upload where
  familyName : Str
  filename : Str
  ext : Str
  contentType : Str
  body : Str
  deriving DecidableEq

/-- The checks on name, extension and size. -/
def checkUpload (familyParam filename body : Str) : Except AppError Upload :=
  match fRequiredQuery familyParam (str "familyName"), fRequiredQuery filename (str "filename") with
  | .error e, _ => .error e
  | .ok _, .error e => .error e
  | .ok familyParam, .ok filename =>
      let familyName := fTrim familyParam
      if familyName = [] ∨ familyName.length > 100 ∨ familyName.any fIsUnsafeFamilyChar then
        .error (.fBadRequest (str "invalid font family name"))
      else
        let ext := fExtensionOf filename
        match fContentTypeFor ext with
        | none => .error (.fBadRequest (str "font must be .ttf, .otf, .woff or .woff2"))
        | some contentType =>
            if body = [] ∨ body.length > cMaxFontBytes then
              .error (.fBadRequest (str "font file too large (5MB max)"))
            else .ok ⟨familyName, filename, ext, contentType, body⟩

/-- Which of the statements throw, and whether building the reply does. -/
structure Faults where
  count : Option Str
  existing : Option Str
  delete : Option Str
  insert : Option Str
  reply : Bool

def noFaults : Faults := ⟨none, none, none, none, false⟩

/-- What an upload draws: the bytes of the id and of the temporary name, and the
time. -/
structure Draws where
  id : Vector UInt8 16
  temp : Vector UInt8 8
  now : Int

/-- Draws whose bytes are all the same. -/
def sameDraws (n : UInt8) : Draws := ⟨Vector.replicate 16 n, Vector.replicate 8 n, 0⟩

def libraryFull : AppError :=
  .fBadRequest (str "font library is full (" ++ decimal cMaxFontsPerAccount ++ str " max) " ++
    [0xE2, 0x80, 0x94] ++ str " delete one first")

def newRow (ownerId : Str) (u : Upload) (draws : Draws) : FontRow :=
  ⟨fUuidV4 draws.id, ownerId, u.familyName, u.filename, u.contentType, u.body.length, draws.now⟩

/-- The row an upload replaces. -/
def existing? (s : FontStore) (ownerId familyName : Str) : Option FontRow :=
  s.rows.find? (fun row => row.ownerId = ownerId ∧ row.familyName = familyName)

/-- A row in the answers. -/
def fontValue (row : FontRow) : Json :=
  .object [(str "id", .string row.id), (str "familyName", .string row.familyName),
    (str "contentType", .string row.contentType), (str "byteSize", .int row.byteSize)]

/-- The file of the replaced row is removed, then its row. -/
def removeExisting (faults : Faults) (existing : Option FontRow) (s : FontStore) :
    FontStore × Except AppError Unit :=
  match existing with
  | none => (s, .ok ())
  | some old =>
      let s := { s with files := (s.files.remove old.path).getD s.files }
      match statement faults.delete (s.rows.filter (fun row => row.id ≠ old.id)) with
      | .error e => (s, .error e)
      | .ok rows => ({ s with rows := rows }, .ok ())

/-- From the `INSERT` on. -/
def insertAndReply (faults : Faults) (row : FontRow) (s : FontStore) : FontStore × Response :=
  match statement faults.insert () with
  | .error e => (s, .error e)
  | .ok () =>
      match insertFont s.rows row with
      | .error e => (s, .error e)
      | .ok rows =>
          ({ s with rows := rows },
            if faults.reply then .error internalError else fJsonResponse (fontValue row))

/-- From the row that is looked up for replacement on. -/
def replaceFont (faults : Faults) (row : FontRow) (s : FontStore) : FontStore × Response :=
  match statement faults.existing (existing? s row.ownerId row.familyName) with
  | .error e => (s, .error e)
  | .ok existing =>
      match removeExisting faults existing s with
      | (s, .error e) => (s, .error e)
      | (s, .ok ()) => insertAndReply faults row s

/-- From the count on. -/
def storeFont (faults : Faults) (ownerId : Str) (u : Upload) (draws : Draws) (s : FontStore) :
    FontStore × Response :=
  match statement faults.count (s.fontsOf ownerId).length with
  | .error e => (s, .error e)
  | .ok count =>
      if cMaxFontsPerAccount ≤ count then (s, .error libraryFull)
      else
        let row := newRow ownerId u draws
        match fWriteFileAtomic s.files (fFontFilePath ownerId row.id u.ext) (fRandomHex draws.temp)
            u.body with
        | (files, false) => ({ s with files := files }, .error internalError)
        | (files, true) => replaceFont faults row { s with files := files }

def uploadFont (faults : Faults) (caller : Option Str) (familyParam filename body : Str)
    (draws : Draws) (s : FontStore) : FontStore × Response :=
  match fCurrentUser caller, checkUpload familyParam filename body with
  | .error e, _ => (s, .error e)
  | .ok _, .error e => (s, .error e)
  | .ok userId, .ok u => storeFont faults userId u draws s

/-! ## The other routes -/

/-- `ORDER BY family_name`. -/
def FamilyLe (a b : FontRow) : Prop := a.familyName ≤ b.familyName

instance (a b : FontRow) : Decidable (FamilyLe a b) :=
  inferInstanceAs (Decidable (a.familyName ≤ b.familyName))

/-- `GET /api/fonts`. -/
def listFonts (fault : Option Str) (caller : Option Str) (s : FontStore) : Response :=
  match fCurrentUser caller with
  | .error e => .error e
  | .ok userId =>
      match statement fault ((s.fontsOf userId).insertionSort FamilyLe) with
      | .error e => .error e
      | .ok rows => fJsonResponse (.array (rows.map fontValue))

/-- The row a route names, if it is the caller's. -/
def ownFont (fault : Option Str) (caller : Option Str) (fontId : Str) (s : FontStore) :
    Except AppError FontRow :=
  match fCurrentUser caller, fValidateFontId fontId,
      statement fault (s.rows.find? (fun row => row.id = fontId)) with
  | .error e, _, _ => .error e
  | .ok _, .error e, _ => .error e
  | .ok _, .ok _, .error e => .error e
  | .ok _, .ok _, .ok none => .error .fNotFound
  | .ok userId, .ok _, .ok (some row) =>
      if row.ownerId ≠ userId then .error .fNotFound else .ok row

/-- `DELETE /api/fonts/{id}`. -/
def deleteFont (fault deleteFault : Option Str) (caller : Option Str) (fontId : Str)
    (s : FontStore) : FontStore × Response :=
  match ownFont fault caller fontId s with
  | .error e => (s, .error e)
  | .ok row =>
      let s := { s with files := (s.files.remove row.path).getD s.files }
      match statement deleteFault (s.rows.filter (fun row => row.id ≠ fontId)) with
      | .error e => (s, .error e)
      | .ok rows => ({ s with rows := rows }, .ok .empty)

/-- `GET /api/fonts/{id}`: the content type and the bytes. -/
def readFont (fault : Option Str) (caller : Option Str) (fontId : Str) (s : FontStore) :
    Except AppError (Str × Str) :=
  match ownFont fault caller fontId s with
  | .error e => .error e
  | .ok row =>
      match fReadFile s.files row.path with
      | none => .error .fNotFound
      | some bytes => .ok (row.contentType, bytes)

end Lectern.Fonts
