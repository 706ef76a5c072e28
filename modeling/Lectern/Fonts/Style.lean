import Lectern.Fonts.Invariant
import Lectern.Text.Scan
import Lectern.Text.Quotes

/-!
# The style block of an export

`fEmbedAccountFontsStyle` writes a rule a font: a name in a CSS string, a
content type and base64 in a CSS url, all of it in a `<style>` element.  No name
can leave its string or the element, and what was written can be read back.
-/

namespace Lectern.Fonts

open FileTree

/-! ## Writing -/

section Writing

variable (fBase64Encode : Str → Str)

def fontFaceRule (row : FontRow) (bytes : Str) : Str :=
  str "@font-face\x7bfont-family:'" ++ fCssStringLiteralBody row.familyName ++
    str "';src:url(data:" ++ row.contentType ++ str ";base64," ++ fBase64Encode bytes ++
    str ") format('" ++ fFontFormatFor (fExtFromContentType row.contentType) ++ str "');\x7d\n"

/-- The file a row of the account points to. -/
def fontBytes (files : Disk) (ownerId : Str) (row : FontRow) : Option Str :=
  fReadFile files (fFontFilePath ownerId row.id (fExtFromContentType row.contentType))

/-- `rows` is what the query returns; nothing if it throws. -/
def fEmbedAccountFontsStyle (files : Disk) (ownerId : Str) (rows : Option (List FontRow)) : Str :=
  match rows with
  | none => []
  | some [] => []
  | some rows =>
      str "<style>\n" ++
        rows.flatMap (fun row =>
          match fontBytes files ownerId row with
          | none => []
          | some bytes => fontFaceRule fBase64Encode row bytes) ++
        str "</style>\n"

end Writing

/-! ## Reading -/

/-- What a rule says. -/
structure FontFace where
  family : Str
  contentType : Str
  data : Str
  format : Str
  deriving DecidableEq

def semicolon : UInt8 := 59

def closingParen : UInt8 := 41

/-! What a rule has between its strings and fields. -/

def beforeFamily : Str := str "@font-face\x7bfont-family:"

def beforeType : Str := str ";src:url(data:"

def beforeData : Str := str "base64,"

def beforeFormat : Str := str " format("

def afterFormat : Str := str ");\x7d"

/-- A rule, on one line. -/
def readFace (line : Str) : Option FontFace := do
  let line ← line.dropPrefix? (beforeFamily ++ [singleQuote])
  let (family, line) ← Text.cut singleQuote line
  let line ← line.dropPrefix? beforeType
  let (contentType, line) ← Text.cut semicolon line
  let line ← line.dropPrefix? beforeData
  let (data, line) ← Text.cut closingParen line
  let line ← line.dropPrefix? (beforeFormat ++ [singleQuote])
  let (format, line) ← Text.cut singleQuote line
  if line = afterFormat then some ⟨family, contentType, data, format⟩ else none

def openTag : Str := str "<style>"

def closeTag : Str := str "</style>"

/-- Rules up to the closing tag, which is the last line. -/
def readFaces : List Str → Option (List FontFace)
  | [] => none
  | line :: lines =>
      if line = closeTag then if lines = [] then some [] else none
      else
        match readFace line, readFaces lines with
        | some face, some faces => some (face :: faces)
        | _, _ => none

def readStyle (text : Str) : Option (List FontFace) :=
  match Text.lines newline text with
  | [] => some []
  | first :: lines => if first = openTag then readFaces lines else none

/-- Strings of a style sheet: a line feed, a form feed or a carriage return
spoils one. -/
def cssQuoting : Text.Quoting UInt8 := ⟨[singleQuote, doubleQuote], backslash, [newline, 12, 13]⟩

def lessThan : UInt8 := 60

/-- What may be said of a text that holds these rules: the one letter that could
end the element stands in the tags only, the strings are the families and
formats, and the rules can be read back. -/
structure Embeds (faces : List FontFace) (text : Str) : Prop where
  tags : text = [] ∨ ∃ rules, text = str "<style>\n" ++ rules ++ str "</style>\n" ∧ lessThan ∉ rules
  strings : Text.strings cssQuoting .outside text =
    some (faces.flatMap (fun face => [face.family, face.format]))
  recovered : readStyle text = some faces

/-- The rules of the fonts that can be read, under these names. -/
def readableFonts (fBase64Encode : Str → Str) (files : Disk) (ownerId : Str)
    (name : FontRow → Str) (rows : List FontRow) : List FontFace :=
  rows.filterMap (fun row =>
    (fontBytes files ownerId row).map (fun bytes =>
      ⟨name row, row.contentType, fBase64Encode bytes,
        fFontFormatFor (fExtFromContentType row.contentType)⟩))

/-- `sodium_base64_VARIANT_ORIGINAL`: letters, digits, `'+'` and `'/'`, and `'='`
at the end. -/
def isBase64 (c : UInt8) : Bool := isAlnum c || c == 43 || c == slash || c == 61

/-! ## Words -/

/-- A string begins at the quotes, the element can end at `'<'`. -/
def signals : Str := [singleQuote, doubleQuote, lessThan, newline]

theorem words_quiet :
    ∀ c ∈ beforeFamily ++ beforeType ++ beforeData ++ beforeFormat ++ afterFormat,
      c ∉ signals :=
  forall_letters (by decide +kernel)

theorem tags_quiet : ∀ c ∈ openTag ++ closeTag, c ∉ [singleQuote, doubleQuote, newline] :=
  forall_letters (by decide +kernel)

/-- The pieces the handler writes, cut at the letters that count. -/
theorem pieces_split :
    str "@font-face\x7bfont-family:'" = beforeFamily ++ [singleQuote] ∧
    str "';src:url(data:" = singleQuote :: beforeType ∧
    str ";base64," = semicolon :: beforeData ∧
    str ") format('" = closingParen :: (beforeFormat ++ [singleQuote]) ∧
    str "');\x7d\n" = singleQuote :: (afterFormat ++ [newline]) := by
  decide +kernel

theorem tags_split :
    str "<style>\n" = openTag ++ [newline] ∧ str "</style>\n" = closeTag ++ [newline] ∧
    lessThan ∈ closeTag := by
  decide +kernel

/-! ## One rule -/

/-- Letters that a field could do harm with. -/
def marks : Str := [singleQuote, doubleQuote, lessThan, backslash, semicolon, newline, 12, 13]

def Unmarked (s : Str) : Prop := ∀ c ∈ s, c ∉ marks

structure FontFace.Clean (face : FontFace) : Prop where
  family : Unmarked face.family
  contentType : Unmarked face.contentType
  data : Unmarked face.data
  closed : closingParen ∉ face.data
  format : Unmarked face.format

/-- What stands between the two strings of a rule. -/
def FontFace.source (face : FontFace) : Str :=
  beforeType ++ (face.contentType ++ semicolon ::
    (beforeData ++ (face.data ++ closingParen :: beforeFormat)))

/-- The line of a rule. -/
def FontFace.text (face : FontFace) : Str :=
  beforeFamily ++ singleQuote :: (face.family ++ singleQuote ::
    (face.source ++ singleQuote :: (face.format ++ singleQuote :: afterFormat)))

section Rule

variable {face : FontFace}

theorem Unmarked.not_mem {s : Str} (h : Unmarked s) {c : UInt8} (hc : c ∈ marks) : c ∉ s :=
  fun hmem => h c hmem hc

theorem Unmarked.verbatim {s : Str} (h : Unmarked s) : Text.Verbatim cssQuoting singleQuote s := by
  have hbreaks : ∀ c ∈ cssQuoting.breaks, c ∈ marks := by simp [cssQuoting, marks]
  intro c hc
  refine ⟨?_, ?_, fun hbreak => h c hc (hbreaks c hbreak)⟩
  · intro heq
    exact h c hc (by simp [heq, marks])
  · intro heq
    exact h c hc (by simp [heq, cssQuoting, marks])

theorem Unmarked.quiet {s : Str} (h : Unmarked s) : ∀ c ∈ s, c ∉ signals := by
  have hmarks : ∀ c ∈ signals, c ∈ marks := by simp [signals, marks]
  exact fun c hc hsignal => h c hc (hmarks c hsignal)

/-- A text without signals begins no string. -/
theorem plain_of_quiet {s : Str} (h : ∀ c ∈ s, c ∉ signals) : ∀ c ∈ s, c ∉ cssQuoting.quotes := by
  have hquotes : ∀ c ∈ cssQuoting.quotes, c ∈ signals := by simp [cssQuoting, signals]
  exact fun c hc hquote => h c hc (hquotes c hquote)

theorem FontFace.Clean.source_quiet (h : face.Clean) : ∀ c ∈ face.source, c ∉ signals := by
  have hseparators : semicolon ∉ signals ∧ closingParen ∉ signals := by decide
  have hwords := words_quiet
  unfold FontFace.source
  simp only [List.forall_mem_append, List.forall_mem_cons] at hwords ⊢
  exact ⟨hwords.1.1.1.2, h.contentType.quiet, hseparators.1, hwords.1.1.2, h.data.quiet,
    hseparators.2, hwords.1.2⟩

/-- A rule is one line, and cannot end the element. -/
theorem FontFace.Clean.not_mem (h : face.Clean) {c : UInt8} (hc : c ∈ [lessThan, newline]) :
    c ∉ face.text := by
  have hsignal : c ∈ signals := List.mem_cons_of_mem _ (List.mem_cons_of_mem _ hc)
  have hquote : c ≠ singleQuote := by
    intro heq
    rw [heq] at hc
    exact absurd hc (by decide)
  have hwords := words_quiet
  simp only [List.forall_mem_append] at hwords
  unfold FontFace.text
  simp only [List.mem_append, List.mem_cons, not_or]
  exact ⟨fun hmem => hwords.1.1.1.1 c hmem hsignal, hquote,
    fun hmem => h.family.quiet c hmem hsignal, hquote,
    fun hmem => h.source_quiet c hmem hsignal, hquote,
    fun hmem => h.format.quiet c hmem hsignal, hquote, fun hmem => hwords.2 c hmem hsignal⟩

theorem FontFace.Clean.readFace (h : face.Clean) : readFace face.text = some face := by
  have hquote : singleQuote ∈ marks := by simp [marks]
  have hsemicolon : semicolon ∈ marks := by simp [marks]
  have hword (word rest : Str) : (word ++ rest).dropPrefix? word = some rest :=
    List.dropPrefix?_append_of_beq rest BEq.rfl
  have hquoted (word rest : Str) :
      (word ++ singleQuote :: rest).dropPrefix? (word ++ [singleQuote]) = some rest := by
    rw [List.append_cons]
    exact hword _ rest
  unfold Fonts.readFace FontFace.text FontFace.source
  simp only [List.append_assoc, List.cons_append, hword, hquoted, Option.bind_eq_bind,
    Option.bind_some, Text.cut_append (h.family.not_mem hquote),
    Text.cut_append (h.contentType.not_mem hsemicolon), Text.cut_append h.closed,
    Text.cut_append (h.format.not_mem hquote), if_true]

/-- The strings of a rule are the family and the format. -/
theorem FontFace.Clean.strings (h : face.Clean) (t : Str) :
    Text.strings cssQuoting .outside (face.text ++ newline :: t) =
      (Text.strings cssQuoting .outside t).map
        (fun rest => face.family :: face.format :: rest) := by
  have hwords := words_quiet
  simp only [List.forall_mem_append] at hwords
  have hquote : singleQuote ∈ cssQuoting.quotes := List.mem_cons_self
  have hbefore := plain_of_quiet hwords.1.1.1.1
  have hafter : ∀ c ∈ afterFormat ++ [newline], c ∉ cssQuoting.quotes := by
    rw [List.forall_mem_append, List.forall_mem_singleton]
    exact ⟨plain_of_quiet hwords.2, by decide⟩
  have htext : face.text ++ newline :: t =
      beforeFamily ++ singleQuote :: (face.family ++ singleQuote ::
        (face.source ++ singleQuote :: (face.format ++ singleQuote ::
          ((afterFormat ++ [newline]) ++ t)))) := by
    simp [FontFace.text]
  calc Text.strings cssQuoting .outside (face.text ++ newline :: t)
      = (Text.strings cssQuoting .outside (face.source ++ singleQuote :: (face.format ++
          singleQuote :: ((afterFormat ++ [newline]) ++ t)))).map
            (fun rest => face.family :: rest) := by
        rw [htext, Text.strings_plain hbefore, Text.strings_quoted hquote h.family.verbatim]
    _ = ((Text.strings cssQuoting .outside ((afterFormat ++ [newline]) ++ t)).map
          (fun rest => face.format :: rest)).map (fun rest => face.family :: rest) := by
        rw [Text.strings_plain (plain_of_quiet h.source_quiet),
          Text.strings_quoted hquote h.format.verbatim]
    _ = (Text.strings cssQuoting .outside t).map
          (fun rest => face.family :: face.format :: rest) := by
        rw [Text.strings_plain hafter, Option.map_map]
        rfl

end Rule

/-! ## All rules -/

section Rules

variable {faces : List FontFace}

/-- The lines of the rules, and the tag after them. -/
theorem lines_rules (h : ∀ face ∈ faces, face.Clean) :
    Text.lines newline
        (faces.flatMap (fun face => face.text ++ [newline]) ++ closeTag ++ [newline]) =
      faces.map FontFace.text ++ [closeTag] := by
  induction faces with
  | nil =>
      have htag : newline ∉ closeTag := fun hmem =>
        tags_quiet newline (List.mem_append_right _ hmem) (by simp)
      exact Text.lines_append_cons htag []
  | cons face faces ih =>
      rw [List.forall_mem_cons] at h
      have hline : newline ∉ face.text := h.1.not_mem (by simp)
      rw [List.append_assoc] at ih
      rw [List.flatMap_cons, List.append_assoc, List.append_assoc, List.append_assoc,
        List.singleton_append, Text.lines_append_cons hline, ih h.2, List.map_cons,
        List.cons_append]

theorem readFaces_rules (h : ∀ face ∈ faces, face.Clean) :
    readFaces (faces.map FontFace.text ++ [closeTag]) = some faces := by
  induction faces with
  | nil => rw [List.map_nil, List.nil_append, readFaces, if_pos rfl, if_pos rfl]
  | cons face faces ih =>
      rw [List.forall_mem_cons] at h
      have hother : face.text ≠ closeTag := fun heq =>
        h.1.not_mem List.mem_cons_self (heq ▸ tags_split.2.2)
      rw [List.map_cons, List.cons_append, readFaces, if_neg hother, h.1.readFace, ih h.2]

theorem strings_rules (h : ∀ face ∈ faces, face.Clean) (t : Str) :
    Text.strings cssQuoting .outside
        (faces.flatMap (fun face => face.text ++ [newline]) ++ t) =
      (Text.strings cssQuoting .outside t).map
        (fun rest => faces.flatMap (fun face => [face.family, face.format]) ++ rest) := by
  induction faces with
  | nil => exact Option.map_id'.symm
  | cons face faces ih =>
      rw [List.forall_mem_cons] at h
      rw [List.flatMap_cons, List.append_assoc, List.append_assoc, List.singleton_append,
        h.1.strings, ih h.2, Option.map_map]
      rfl

/-- A tag on a line of its own begins no string. -/
theorem strings_tag {tag : Str} (h : ∀ c ∈ tag, c ∈ openTag ++ closeTag) (t : Str) :
    Text.strings cssQuoting .outside (tag ++ [newline] ++ t) =
      Text.strings cssQuoting .outside t := by
  apply Text.strings_plain
  rw [List.forall_mem_append, List.forall_mem_singleton]
  refine ⟨fun c hc hquote => tags_quiet c (h c hc) ?_, by decide⟩
  exact List.mem_append_left [newline] hquote

/-- The block of clean rules. -/
theorem embeds_rules (h : ∀ face ∈ faces, face.Clean) :
    Embeds faces (str "<style>\n" ++ faces.flatMap (fun face => face.text ++ [newline]) ++
      str "</style>\n") := by
  refine ⟨Or.inr ⟨_, rfl, ?_⟩, ?_, ?_⟩
  · intro hmem
    obtain ⟨face, hface, hrule⟩ := List.mem_flatMap.mp hmem
    rcases List.mem_append.mp hrule with htext | hnewline
    · exact (h face hface).not_mem List.mem_cons_self htext
    · exact absurd (List.mem_singleton.mp hnewline) (by decide)
  · have hclose : Text.strings cssQuoting .outside (closeTag ++ [newline] ++ []) = some [] :=
      strings_tag (fun c hc => List.mem_append_right _ hc) []
    rw [List.append_nil] at hclose
    rw [tags_split.1, tags_split.2.1, List.append_assoc,
      strings_tag (fun c hc => List.mem_append_left _ hc), strings_rules h, hclose,
      Option.map_some, List.append_nil]
  · have hline : newline ∉ openTag := fun hmem =>
      tags_quiet newline (List.mem_append_left _ hmem) (by simp)
    unfold readStyle
    rw [tags_split.1, tags_split.2.1, ← List.append_assoc, List.append_assoc openTag,
      List.append_assoc openTag, List.append_assoc openTag, List.singleton_append,
      List.cons_append, List.cons_append, Text.lines_append_cons hline, lines_rules h]
    exact (if_pos rfl).trans (readFaces_rules h)

theorem embeds_nothing : Embeds [] [] := ⟨Or.inl rfl, rfl, rfl⟩

end Rules

/-! ## The block of an account -/

section Account

variable {fBase64Encode : Str → Str} {row : FontRow} {rows : List FontRow}

theorem unmarked_of_safe {name : Str} (h : ∀ c ∈ name, fIsUnsafeFamilyChar c = false) :
    Unmarked name := by
  have hmarks : ∀ c ∈ marks, fIsUnsafeFamilyChar c = true := forall_letters (by decide +kernel)
  intro c hc hmark
  have hsafe := h c hc
  rw [hmarks c hmark] at hsafe
  cases hsafe

theorem safe_fCssStringLiteralBody (name : Str) :
    ∀ c ∈ fCssStringLiteralBody name, fIsUnsafeFamilyChar c = false := by
  intro c hc
  simpa using (List.mem_filter.mp hc).2

/-- A safe name is written as it is. -/
theorem fCssStringLiteralBody_safe {name : Str} (h : ∀ c ∈ name, fIsUnsafeFamilyChar c = false) :
    fCssStringLiteralBody name = name := by
  unfold fCssStringLiteralBody
  rw [List.filter_eq_self]
  intro c hc
  rw [h c hc]
  rfl

theorem fontFaceRule_eq (bytes : Str) :
    fontFaceRule fBase64Encode row bytes =
      FontFace.text ⟨fCssStringLiteralBody row.familyName, row.contentType, fBase64Encode bytes,
        fFontFormatFor (fExtFromContentType row.contentType)⟩ ++ [newline] := by
  obtain ⟨hfamily, htype, hdata, hformat, hend⟩ := pieces_split
  simp [fontFaceRule, FontFace.text, FontFace.source, hfamily, htype, hdata, hformat, hend]

/-- The block has a rule for every readable font. -/
theorem fEmbedAccountFontsStyle_rules (files : Disk) (ownerId : Str) (hne : rows ≠ []) :
    fEmbedAccountFontsStyle fBase64Encode files ownerId (some rows) =
      str "<style>\n" ++
        (readableFonts fBase64Encode files ownerId (fun row => fCssStringLiteralBody row.familyName)
          rows).flatMap (fun face => face.text ++ [newline]) ++
        str "</style>\n" := by
  have hrules (rows : List FontRow) : rows.flatMap (fun row =>
      match fontBytes files ownerId row with
      | none => []
      | some bytes => fontFaceRule fBase64Encode row bytes) =
      (readableFonts fBase64Encode files ownerId (fun row => fCssStringLiteralBody row.familyName)
        rows).flatMap (fun face => face.text ++ [newline]) := by
    induction rows with
    | nil => rfl
    | cons row rows ih =>
        unfold readableFonts at ih ⊢
        rw [List.flatMap_cons, ih, List.filterMap_cons]
        cases fontBytes files ownerId row with
        | none => rfl
        | some bytes =>
            simp only [Option.map_some, List.flatMap_cons]
            rw [fontFaceRule_eq]
  cases rows with
  | nil => exact absurd rfl hne
  | cons row rows => rw [← hrules]; rfl

/-- The content types that an upload stores, and the formats. -/
def knownWords : List Str :=
  [str "font/ttf", str "font/otf", str "font/woff", str "font/woff2",
    str "truetype", str "opentype", str "woff", str "woff2"]

theorem unmarked_knownWords {word : Str} (h : word ∈ knownWords) : Unmarked word := by
  have hletters : ∀ c ∈ knownWords.flatten, c ∉ marks := forall_letters (by decide +kernel)
  exact fun c hc => hletters c (List.mem_flatten_of_mem h hc)

theorem contentType_known (h : ∃ ext, fContentTypeFor ext = some row.contentType) :
    row.contentType ∈ knownWords := by
  obtain ⟨ext, hext⟩ := h
  rcases fContentTypeFor_cases hext with ⟨_, htype⟩ | ⟨_, htype⟩ | ⟨_, htype⟩ | ⟨_, htype⟩ <;>
    simp [htype, knownWords]

theorem format_known (ext : Str) : fFontFormatFor ext ∈ knownWords := by
  unfold fFontFormatFor
  split
  · simp [knownWords]
  · split
    · simp [knownWords]
    · split <;> simp [knownWords]

theorem clean_readableFonts (hencode : ∀ bytes, ∀ c ∈ fBase64Encode bytes, isBase64 c = true)
    (files : Disk) (ownerId : Str)
    (h : ∀ row ∈ rows, ∃ ext, fContentTypeFor ext = some row.contentType) :
    ∀ face ∈ readableFonts fBase64Encode files ownerId
      (fun row => fCssStringLiteralBody row.familyName) rows, face.Clean := by
  have hmarks : ∀ c ∈ closingParen :: marks, isBase64 c = false :=
    forall_letters (by decide +kernel)
  have hapart (bytes : Str) : ∀ c ∈ closingParen :: marks, c ∉ fBase64Encode bytes := by
    intro c hc hmem
    have hletter := hencode bytes c hmem
    rw [hmarks c hc] at hletter
    cases hletter
  intro face hface
  obtain ⟨row, hrow, hread⟩ := List.mem_filterMap.mp hface
  obtain ⟨bytes, _, hsays⟩ := Option.map_eq_some_iff.mp hread
  subst hsays
  exact ⟨unmarked_of_safe (safe_fCssStringLiteralBody _),
    unmarked_knownWords (contentType_known (h row hrow)),
    fun c hc hmark => hapart bytes c (List.mem_cons_of_mem _ hmark) hc,
    hapart bytes closingParen List.mem_cons_self, unmarked_knownWords (format_known _)⟩

/-- Whatever the names are. -/
theorem embeds_any (hencode : ∀ bytes, ∀ c ∈ fBase64Encode bytes, isBase64 c = true)
    (files : Disk) (ownerId : Str)
    (h : ∀ row ∈ rows, ∃ ext, fContentTypeFor ext = some row.contentType) :
    Embeds (readableFonts fBase64Encode files ownerId
        (fun row => fCssStringLiteralBody row.familyName) rows)
      (fEmbedAccountFontsStyle fBase64Encode files ownerId (some rows)) := by
  by_cases hne : rows = []
  · subst hne
    exact embeds_nothing
  · rw [fEmbedAccountFontsStyle_rules files ownerId hne]
    exact embeds_rules (clean_readableFonts hencode files ownerId h)

/-- **The style block says what the account's fonts are and nothing else**: of a
reachable library with the names as they are, of any names with the unsafe
letters dropped. -/
theorem style_embeds (hencode : ∀ bytes, ∀ c ∈ fBase64Encode bytes, isBase64 c = true) :
    (∀ s, Reachable s → ∀ ownerId rows, rows.Perm (s.fontsOf ownerId) → ∀ files,
      Embeds (readableFonts fBase64Encode files ownerId FontRow.familyName rows)
        (fEmbedAccountFontsStyle fBase64Encode files ownerId (some rows))) ∧
    ∀ rows, (∀ row ∈ rows, ∃ ext, fContentTypeFor ext = some row.contentType) →
      ∀ files ownerId,
      Embeds (readableFonts fBase64Encode files ownerId
          (fun row => fCssStringLiteralBody row.familyName) rows)
        (fEmbedAccountFontsStyle fBase64Encode files ownerId (some rows)) := by
  refine ⟨?_, fun rows h files ownerId => embeds_any hencode files ownerId h⟩
  intro s hs ownerId rows hrows files
  have hstored : ∀ row ∈ rows, Stored row := fun row hrow =>
    hs.tidy.stored row (List.mem_of_mem_filter (hrows.mem_iff.mp hrow))
  have hverbatim : readableFonts fBase64Encode files ownerId FontRow.familyName rows =
      readableFonts fBase64Encode files ownerId
        (fun row => fCssStringLiteralBody row.familyName) rows := by
    unfold readableFonts
    apply List.filterMap_congr
    intro row hrow
    simp only [fCssStringLiteralBody_safe (hstored row hrow).safe]
  rw [hverbatim]
  exact embeds_any hencode files ownerId (fun row hrow => (hstored row hrow).contentType)

/-- A library with one font of one byte. -/
def lora : FontStore :=
  serve (.upload noFaults (some (str "ann")) (str "Lora (new)") (str "lora.woff2") [1]
    (sameDraws 7)) .empty

/-- The one byte is `AQ==` in base64. -/
theorem style_embeds_lora :
    Embeds [⟨str "Lora (new)", str "font/woff2", str "AQ==", str "woff2"⟩]
      (fEmbedAccountFontsStyle (fun _ => str "AQ==") lora.files (str "ann")
        (some (lora.fontsOf (str "ann")))) := by
  have hencode : ∀ c ∈ str "AQ==", isBase64 c = true := forall_letters (by decide +kernel)
  have hreachable : Reachable lora := by
    unfold lora
    exact .step _ .start
  have hreadable : readableFonts (fun _ => str "AQ==") lora.files (str "ann") FontRow.familyName
      (lora.fontsOf (str "ann")) =
        [⟨str "Lora (new)", str "font/woff2", str "AQ==", str "woff2"⟩] := by decide +kernel
  rw [← hreadable]
  exact (style_embeds (fun _ => hencode)).1 lora hreachable (str "ann") _ (.refl _) lora.files

end Account

end Lectern.Fonts
