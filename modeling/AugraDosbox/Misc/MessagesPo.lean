import AugraDosbox.Lib.Trimming

/-!
# Translation files

`misc/messages_po_entry.cpp`: the entries of a PO file, how they are written and how they are read.
The files are open, and nothing goes wrong with them.
-/

namespace AugraDosbox

namespace MessagesPo

/-! ## Strings -/

/-- The characters `" \r\t\f\n"`. -/
def isTrimChar (c : Char) : Bool :=
  c == ' ' || c == '\r' || c == '\t' || c == Char.ofNat 12 || c == '\n'

def trim (str : List Char) : List Char := Trimming.trim isTrimChar str

/-- Empty words are kept. -/
def split_with_empties (seq : List Char) (delim : Char) : List (List Char) :=
  if seq = [] then [] else seq.splitOn delim

/-- Empty words are left out. -/
def split (seq : List Char) (delims : List Char) : List (List Char) :=
  (seq.splitOnP (· ∈ delims)).filter (· ≠ [])

def QuoteChar : Char := '"'

def Quote : List Char := ['"']

def MarkerExtractedComment : List Char := ['#', '.', ' ']

def MarkerTranslatorComment : List Char := ['#', ' ']

def EmptyCommentLine : List Char := ['#']

def MarkerLocation : List Char := ['#', ':', ' ']

def MarkerFlag : List Char := ['#', ',', ' ']

def KeywordContext : List Char := ['m', 's', 'g', 'c', 't', 'x', 't']

def KeywordId : List Char := ['m', 's', 'g', 'i', 'd']

def KeywordString : List Char := ['m', 's', 'g', 's', 't', 'r']

/-! ## Entries -/

structure PoEntry where
  location : List Char
  context : List Char
  flags : List (List Char)
  english : List Char
  translated : List Char
  help : List (List Char)
deriving DecidableEq, Repr

namespace PoEntry

def FlagFuzzy : List Char := ['f', 'u', 'z', 'z', 'y']

/-- What `ResetEntry` leaves. -/
def reset : PoEntry := ⟨[], [], [], [], [], []⟩

def HasFlag (e : PoEntry) (flag : List Char) : Bool := decide (flag ∈ e.flags)

def AddFlag (e : PoEntry) (flag : List Char) : PoEntry :=
  if e.HasFlag flag then e else { e with flags := e.flags ++ [flag] }

end PoEntry

/-! ## The writer -/

/-- The lines with their ends, without what follows the last one if it is empty. -/
def textLines (value : List Char) : List (List Char) :=
  let lines := split_with_empties value '\n'
  let lines := lines.dropLast.map (· ++ ['\n']) ++ lines.getLast?.toList
  if lines ≠ [] ∧ lines.getLast? = some [] then lines.dropLast else lines

def escapeChar (c : Char) : List Char :=
  if c = '\n' then ['\\', 'n']
  else if c = '\r' then ['\\', 'r']
  else if c = '\t' then ['\\', 't']
  else if c = '\\' then ['\\', '\\']
  else if c = '"' then ['\\', '"']
  else [c]

def escape (text : List Char) : List Char := text.flatMap escapeChar

/-- What `WriteMultiLineString` writes: only single-line strings follow the keyword. -/
def multiLineString (value : List Char) : List Char :=
  let lines := textLines value
  (if lines = [] ∨ lines.length > 1 then Quote ++ Quote ++ ['\n'] else []) ++
    lines.flatMap fun line => Quote ++ escape line ++ Quote ++ ['\n']

structure PoWriter where
  entry : PoEntry
  out_file : List Char

namespace PoWriter

def put (w : PoWriter) (text : List Char) : PoWriter := { w with out_file := w.out_file ++ text }

/-- The loop over the flags; `first_flag` until one has been written. -/
def writeFlags (w : PoWriter) (first_flag : Bool) : List (List Char) → PoWriter × Bool
  | [] => (w, first_flag)
  | flag :: flags =>
    if flag = PoEntry.FlagFuzzy then w.writeFlags first_flag flags
    else if first_flag then (w.put (MarkerFlag ++ flag)).writeFlags false flags
    else (w.put ([',', ' '] ++ flag)).writeFlags false flags

/-- `WriteEntry`, the line of flags: the fuzzy flag comes first. -/
def WriteFlags (w : PoWriter) : PoWriter :=
  let fuzzy := w.entry.HasFlag PoEntry.FlagFuzzy
  let w := if fuzzy then w.put (MarkerFlag ++ PoEntry.FlagFuzzy) else w
  let (w, first_flag) := w.writeFlags (!fuzzy) w.entry.flags
  if first_flag then w else w.put ['\n']

/-- `WriteEntry`, the entry help. -/
def WriteHelp (w : PoWriter) : PoWriter :=
  w.put (w.entry.help.flatMap fun line => MarkerExtractedComment ++ line ++ ['\n'])

/-- `WriteEntry`, the source code location. -/
def WriteLocation (w : PoWriter) : PoWriter :=
  if w.entry.location ≠ [] then w.put (MarkerLocation ++ w.entry.location ++ ['\n']) else w

/-- `WriteEntry`, the context. -/
def WriteContext (w : PoWriter) : PoWriter :=
  if w.entry.context ≠ [] then w.put (KeywordContext ++ [' '] ++ multiLineString w.entry.context)
  else w

def WriteEntry (w : PoWriter) : PoWriter :=
  let w := w.WriteHelp.WriteLocation.WriteFlags.WriteContext
  let w := w.put (KeywordId ++ [' '] ++ multiLineString w.entry.english)
  let w := w.put (KeywordString ++ [' '] ++ multiLineString w.entry.translated)
  let w := w.put ['\n']
  { w with entry := .reset }

end PoWriter

/-- One entry after the other is set and written. -/
def writeEntries (entries : List PoEntry) : List Char :=
  (entries.foldl (fun w e => PoWriter.WriteEntry { w with entry := e }) ⟨.reset, []⟩).out_file

/-! ## The reader -/

/-- What `LogWarning` is called for. -/
inductive Warning where
  | locationTwice
  | contextTwice
  | englishTwice
  | translatedTwice
  | unexpectedString
  | unrecognizedContent
  | locationEmpty
  | flagsEmpty
  | flagDuplicated (flag : List Char)
  | unsupportedEscape (character : Char)
deriving DecidableEq, Repr

/-- A text file that is being read; `eof` once its end has been met. -/
structure InFile where
  rest : List Char
  eof : Bool
deriving DecidableEq, Repr

/-- `std::getline`. -/
def InFile.getline (f : InFile) : Option (List Char × InFile) :=
  if f.eof ∨ f.rest = [] then none
  else
    match f.rest.dropWhile (· ≠ '\n') with
    | [] => some (f.rest, ⟨[], true⟩)
    | _ :: rest => some (f.rest.takeWhile (· ≠ '\n'), ⟨rest, false⟩)

theorem InFile.length_getline (f : InFile) {line : List Char} {f' : InFile}
    (h : f.getline = some (line, f')) : f'.rest.length < f.rest.length := by
  unfold getline at h
  split at h
  · cases h
  · rename_i hrest
    have hne : f.rest ≠ [] := fun hnil => hrest (.inr hnil)
    have hdrop := (List.dropWhile_sublist (l := f.rest) fun c => decide (c ≠ '\n')).length_le
    split at h
    · cases h
      exact List.length_pos_iff.2 hne
    · rename_i hcons
      cases h
      rw [hcons, List.length_cons] at hdrop
      exact hdrop

/-- Entry not found yet, normal, or reading a possibly multi-line string. -/
inductive State where
  | Initial
  | Normal
  | ReadingContext
  | ReadingEnglish
  | ReadingTranslated
deriving DecidableEq, Repr

/-- The members of the reader that do not concern the file itself. -/
structure PoReader where
  entry : PoEntry
  line_counter : ℕ
  entry_counter : ℕ
  entry_start_line : ℕ
  log : List (ℕ × Warning)
deriving DecidableEq, Repr

namespace PoReader

def LogWarning (r : PoReader) (error : Warning) : PoReader :=
  { r with log := r.log ++ [(r.line_counter, error)] }

/-- `ReadSingleLineString`, the characters behind the first one: the loop ends before the last. -/
def unescape (r : PoReader) : List Char → PoReader × List Char
  | [] => (r, [])
  | [_] => (r, [])
  | c :: d :: rest =>
    if c ≠ '\\' then
      let (r, result) := r.unescape (d :: rest)
      (r, c :: result)
    else
      let (r, text) :=
        if d = 'n' then (r, ['\n'])
        else if d = 'r' then (r, ['\r'])
        else if d = 't' then (r, ['\t'])
        else if d = '\\' then (r, ['\\'])
        else if d = '"' then (r, ['"'])
        else (r.LogWarning (.unsupportedEscape d), ['\\', d])
      let (r, result) := r.unescape rest
      (r, text ++ result)

def ReadSingleLineString (r : PoReader) (line : List Char) : PoReader × List Char :=
  r.unescape line.tail

def ReadLocation (r : PoReader) (line : List Char) : PoReader :=
  let content := trim (line.drop MarkerLocation.length)
  if content = [] then r.LogWarning .locationEmpty
  else { r with entry := { r.entry with location := content } }

def ReadFlags (r : PoReader) (line : List Char) : PoReader :=
  let content := trim (line.drop MarkerFlag.length)
  if content = [] then r.LogWarning .flagsEmpty
  else
    (split content [',']).foldl
      (fun r flag =>
        let flag := trim flag
        if r.entry.HasFlag flag then r.LogWarning (.flagDuplicated flag)
        else { r with entry := r.entry.AddFlag flag })
      r

end PoReader

/-- The local variables of `ReadEntry`. -/
structure Reading where
  reader : PoReader
  reader_state : State
  found_entry : Bool
  found_location : Bool
  found_context : Bool
  found_english : Bool
  found_translated : Bool
deriving DecidableEq, Repr

namespace Reading

/-- Warn if something has been found before. -/
def warnIf (s : Reading) (found : Bool) (error : Warning) : Reading :=
  if found then { s with reader := s.reader.LogWarning error } else s

/-- The start of a string: the state it leads to, and what follows the keyword. -/
def keyword (s : Reading) (line : List Char) : Reading × List Char :=
  if KeywordContext.isPrefixOf line then
    ({ s.warnIf s.found_context .contextTwice with
        found_context := true, reader_state := .ReadingContext }, line.drop KeywordContext.length)
  else if KeywordId.isPrefixOf line then
    ({ s.warnIf s.found_english .englishTwice with
        found_english := true, reader_state := .ReadingEnglish }, line.drop KeywordId.length)
  else if KeywordString.isPrefixOf line then
    ({ s.warnIf s.found_translated .translatedTwice with
        found_translated := true, reader_state := .ReadingTranslated },
      line.drop KeywordString.length)
  else (s, line)

/-- A string goes where the last keyword said. -/
def store (s : Reading) (line : List Char) : Reading :=
  let (r, text) := s.reader.ReadSingleLineString line
  match s.reader_state with
  | .ReadingContext =>
      { s with reader := { r with entry := { r.entry with context := r.entry.context ++ text } } }
  | .ReadingEnglish =>
      { s with reader := { r with entry := { r.entry with english := r.entry.english ++ text } } }
  | .ReadingTranslated =>
      { s with
        reader := { r with entry := { r.entry with translated := r.entry.translated ++ text } } }
  | .Initial | .Normal => { s with reader := s.reader.LogWarning .unexpectedString }

/-- The string of a line, with or without a keyword. -/
def content (s : Reading) (line : List Char) : Reading :=
  let (s, line) := s.keyword line
  let line := trim line
  if line.length ≥ 2 ∧ line.head? = some QuoteChar ∧ line.getLast? = some QuoteChar then
    s.store line
  else { s with reader := s.reader.LogWarning .unrecognizedContent, reader_state := .Normal }

/-- A line that belongs to an entry, which is not empty. -/
def entryLine (s : Reading) (line : List Char) : Reading :=
  if MarkerExtractedComment.isPrefixOf line then { s with reader_state := .Normal }
  else if MarkerLocation.isPrefixOf line then
    let s := s.warnIf s.found_location .locationTwice
    { s with
      found_location := true, reader_state := .Normal, reader := s.reader.ReadLocation line }
  else if MarkerFlag.isPrefixOf line then
    { s with reader_state := .Normal, reader := s.reader.ReadFlags line }
  else s.content line

/-- The first line of an entry. -/
def start (s : Reading) : Reading :=
  let s := { s with found_entry := true }
  if s.reader_state = .Initial then
    { s with
      reader_state := .Normal
      reader := { s.reader with
        entry_start_line := s.reader.line_counter
        entry_counter := s.reader.entry_counter + 1 } }
  else s

/-- One line; the result says whether it ends the entry. -/
def line (s : Reading) (line : List Char) : Reading × Bool :=
  let s := { s with reader := { s.reader with line_counter := s.reader.line_counter + 1 } }
  let line := trim line
  if s.reader_state = .Initial ∧ line = [] then (s, false)
  else if MarkerTranslatorComment.isPrefixOf line ∨ line = EmptyCommentLine then (s, false)
  else if line = [] then (s.start, true)
  else (s.start.entryLine line, false)

/-- The loop over the lines. -/
def lines (s : Reading) (f : InFile) : Reading × InFile :=
  match _h : f.getline with
  | none => (s, { f with eof := true })
  | some (text, f') =>
    let (s, ends) := s.line text
    if ends then (s, f') else s.lines f'
termination_by f.rest.length
decreasing_by exact f.length_getline _h

end Reading

/-- The result of `ReadEntry` says whether there was an entry. -/
def ReadEntry (r : PoReader) (f : InFile) : PoReader × InFile × Bool :=
  let (s, f) :=
    Reading.lines ⟨{ r with entry := .reset }, .Initial, false, false, false, false, false⟩ f
  (s.reader, f, !(f.eof && !s.found_entry))

/-- Reading until it fails; `none` when there is still more after `fuel` entries. -/
def readEntries : ℕ → PoReader → InFile → Option (List PoEntry)
  | 0, _, _ => none
  | fuel + 1, r, f =>
    match ReadEntry r f with
    | (r, f, true) => (readEntries fuel r f).map (r.entry :: ·)
    | (_, _, false) => some []

/-- The reader of a file. -/
def openFile (text : List Char) : PoReader × InFile :=
  (⟨.reset, 0, 0, 0, []⟩, ⟨text, false⟩)

end MessagesPo

end AugraDosbox
