import AugraDosbox.Misc.MessagesPo
import Mathlib.Data.List.Forall2

/-!
# Translation files can be read back

* `unlines`, `entryLines` — a file as lines: **`WriteEntry_out_file`**;
* `Reads` — the lines that the reader goes through without leaving its loop;
* `reads_keyword` — a string of several lines, behind its keyword;
* **`entries_read_back`** — what is written is read back.
-/

namespace AugraDosbox

namespace MessagesPo

/-! ## Text -/

/-- A text made of lines. -/
def unlines (lines : List (List Char)) : List Char := lines.flatMap (· ++ ['\n'])

theorem unlines_cons (line : List Char) (lines : List (List Char)) :
    unlines (line :: lines) = line ++ '\n' :: unlines lines := by
  rw [unlines, List.flatMap_cons, List.append_assoc]
  rfl

theorem unlines_append (a b : List (List Char)) : unlines (a ++ b) = unlines a ++ unlines b :=
  List.flatMap_append

theorem unlines_singleton (line : List Char) : unlines [line] = line ++ ['\n'] :=
  List.flatMap_singleton _ _

theorem unlines_map (f : List Char → List Char) (lines : List (List Char)) :
    unlines (lines.map f) = lines.flatMap fun line => f line ++ ['\n'] :=
  List.flatMap_map _ _ lines

/-! ### Escapes -/

theorem newline_not_mem_escape (text : List Char) : '\n' ∉ escape text := by
  intro hmem
  obtain ⟨c, -, hc⟩ := List.mem_flatMap.1 hmem
  unfold escapeChar at hc
  split_ifs at hc with h1 h2 h3 h4 h5 <;> simp at hc
  exact h1 hc.symm

/-- An escape is undone, whatever comes behind. -/
theorem unescape_escapeChar (r : PoReader) (c : Char) {rest : List Char} (hrest : rest ≠ []) :
    r.unescape (escapeChar c ++ rest) = ((r.unescape rest).1, c :: (r.unescape rest).2) := by
  obtain ⟨d, rest, rfl⟩ := List.exists_cons_of_ne_nil hrest
  unfold escapeChar
  split_ifs with h1 h2 h3 h4 h5
  · subst h1
    rfl
  · subst h2
    rfl
  · subst h3
    rfl
  · subst h4
    rfl
  · subst h5
    rfl
  · rw [List.cons_append, List.nil_append, PoReader.unescape, if_pos h4]

theorem unescape_escape (r : PoReader) (text : List Char) :
    r.unescape (escape text ++ Quote) = (r, text) := by
  induction text with
  | nil => rfl
  | cons c text ih =>
    have hne : escape text ++ Quote ≠ [] := List.append_ne_nil_of_right_ne_nil _ (by decide)
    rw [escape, List.flatMap_cons, List.append_assoc, ← escape, unescape_escapeChar r c hne, ih]

/-- A line of a string. -/
def quoted (line : List Char) : List Char := Quote ++ escape line ++ Quote

theorem ReadSingleLineString_quoted (r : PoReader) (line : List Char) :
    r.ReadSingleLineString (quoted line) = (r, line) := unescape_escape r line

theorem newline_not_mem_quoted (line : List Char) : '\n' ∉ quoted line := by
  intro hmem
  rcases List.mem_append.1 hmem with hmem | hmem
  · rcases List.mem_append.1 hmem with hmem | hmem
    · exact absurd hmem (by decide)
    · exact newline_not_mem_escape line hmem
  · exact absurd hmem (by decide)

theorem head_quoted (line : List Char) : (quoted line).head? = some '"' := rfl

theorem getLast_quoted (line : List Char) : (quoted line).getLast? = some '"' :=
  List.getLast?_concat

theorem two_le_length_quoted (line : List Char) : 2 ≤ (quoted line).length := by
  rw [quoted, List.length_append, List.length_append]
  change 2 ≤ 1 + _ + 1
  omega

theorem trim_quoted (line : List Char) : trim (quoted line) = quoted line := by
  refine Trimming.trim_eq_self_iff.2 ⟨?_, ?_⟩
  · rw [head_quoted]
    rintro c ⟨⟩
    rfl
  · rw [getLast_quoted]
    rintro c ⟨⟩
    rfl

/-! ### Strings of several lines -/

theorem flatten_with_ends (delim : Char) {lines : List (List Char)} (h : lines ≠ []) :
    (lines.dropLast.map (· ++ [delim]) ++ lines.getLast?.toList).flatten =
      [delim].intercalate lines := by
  induction lines with
  | nil => exact absurd rfl h
  | cons line lines ih =>
    cases lines with
    | nil => rfl
    | cons next lines =>
      have hrest := ih (List.cons_ne_nil next lines)
      rw [List.dropLast_cons_cons, List.map_cons, List.getLast?_cons_cons, List.cons_append,
        List.flatten_cons, hrest]
      exact (List.intercalate_cons_cons).symm

/-- The lines make up the text. -/
theorem flatten_textLines (value : List Char) : (textLines value).flatten = value := by
  have hall : ∀ lines : List (List Char), lines.getLast? = some [] →
      lines.dropLast.flatten = lines.flatten := by
    intro lines hlast
    obtain ⟨front, rfl⟩ := List.getLast?_eq_some_iff.1 hlast
    rw [List.dropLast_concat, List.flatten_append]
    exact (List.append_nil _).symm
  have hlines : ((split_with_empties value '\n').dropLast.map (· ++ ['\n']) ++
      (split_with_empties value '\n').getLast?.toList).flatten = value := by
    unfold split_with_empties
    split
    · rename_i hnil
      exact hnil.symm
    · rw [flatten_with_ends '\n' (List.splitOn_ne_nil '\n' value), List.intercalate_splitOn]
  unfold textLines
  dsimp only
  split
  · rename_i hempty
    rw [hall _ hempty.2, hlines]
  · exact hlines

/-- The first line stands behind the keyword; it is empty when there are others. -/
def firstLine (value : List Char) : List Char :=
  if (textLines value).length = 1 then value else []

def otherLines (value : List Char) : List (List Char) :=
  if (textLines value).length = 1 then [] else textLines value

theorem flatten_otherLines (value : List Char) :
    firstLine value ++ (otherLines value).flatten = value := by
  unfold firstLine otherLines
  split
  · exact List.append_nil value
  · exact flatten_textLines value

/-- A string with its keyword. -/
def keywordLines (keyword value : List Char) : List (List Char) :=
  (keyword ++ ' ' :: quoted (firstLine value)) :: (otherLines value).map quoted

theorem multiLineString_eq (keyword value : List Char) :
    keyword ++ [' '] ++ multiLineString value = unlines (keywordLines keyword value) := by
  rw [keywordLines, unlines_cons, unlines_map]
  unfold multiLineString firstLine otherLines
  dsimp only
  by_cases hone : (textLines value).length = 1
  · obtain ⟨line, hline⟩ := List.length_eq_one_iff.1 hone
    have hvalue : line = value := by
      have hflatten := flatten_textLines value
      rw [hline] at hflatten
      exact (List.append_nil line).symm.trans hflatten
    subst hvalue
    rw [if_pos hone, if_pos hone, hline, if_neg (by simp), List.flatMap_singleton]
    simp [quoted]
  · have hseveral : textLines value = [] ∨ (textLines value).length > 1 := by
      rcases Nat.lt_or_gt_of_ne hone with hlt | hgt
      · exact .inl (List.eq_nil_of_length_eq_zero (by omega))
      · exact .inr hgt
    rw [if_neg hone, if_neg hone, if_pos hseveral]
    simp [quoted, escape]

/-! ### Flags -/

/-- The flags as they are written. -/
def flagOrder (flags : List (List Char)) : List (List Char) :=
  (if flags.contains PoEntry.FlagFuzzy then [PoEntry.FlagFuzzy] else []) ++
    flags.filter (· ≠ PoEntry.FlagFuzzy)

theorem mem_flagOrder {flags : List (List Char)} {flag : List Char} :
    flag ∈ flagOrder flags ↔ flag ∈ flags := by
  rw [flagOrder, List.mem_append, List.mem_filter]
  by_cases hflag : flag = PoEntry.FlagFuzzy
  · subst hflag
    by_cases hfuzzy : PoEntry.FlagFuzzy ∈ flags <;> simp [hfuzzy]
  · by_cases hfuzzy : PoEntry.FlagFuzzy ∈ flags <;> simp [hflag, hfuzzy]

theorem nodup_flagOrder {flags : List (List Char)} (h : flags.Nodup) :
    (flagOrder flags).Nodup := by
  have hrest : (flags.filter (· ≠ PoEntry.FlagFuzzy)).Nodup := h.filter _
  unfold flagOrder
  split
  · exact List.nodup_cons.2 ⟨by simp, hrest⟩
  · exact hrest

def joined : List (List Char) → List Char
  | [] => []
  | flag :: flags => flag ++ flags.flatMap ([',', ' '] ++ ·)

/-- The line of flags, if there are any. -/
def flagLines (flags : List (List Char)) : List (List Char) :=
  if flagOrder flags = [] then [] else [MarkerFlag ++ joined (flagOrder flags)]

namespace PoWriter

variable (w : PoWriter)

theorem put_put (a b : List Char) : (w.put a).put b = w.put (a ++ b) := by
  unfold put
  rw [List.append_assoc]

theorem entry_put (text : List Char) : (w.put text).entry = w.entry := rfl

theorem put_nil : w.put [] = w := by
  unfold put
  rw [List.append_nil]

theorem writeFlags_of_later (flags : List (List Char)) : w.writeFlags false flags =
    (w.put ((flags.filter (· ≠ PoEntry.FlagFuzzy)).flatMap ([',', ' '] ++ ·)), false) := by
  induction flags generalizing w with
  | nil => rw [writeFlags, List.filter_nil, List.flatMap_nil, put_nil]
  | cons flag flags ih =>
    rw [writeFlags]
    by_cases hfuzzy : flag = PoEntry.FlagFuzzy
    · rw [if_pos hfuzzy, ih, List.filter_cons_of_neg (by simpa using hfuzzy)]
    · rw [if_neg hfuzzy, if_neg Bool.false_ne_true, ih, put_put,
        List.filter_cons_of_pos (by simpa using hfuzzy), List.flatMap_cons]

theorem writeFlags_of_first (flags : List (List Char)) : w.writeFlags true flags =
    if flags.filter (· ≠ PoEntry.FlagFuzzy) = [] then (w, true)
    else (w.put (MarkerFlag ++ joined (flags.filter (· ≠ PoEntry.FlagFuzzy))), false) := by
  induction flags generalizing w with
  | nil => rfl
  | cons flag flags ih =>
    rw [writeFlags]
    by_cases hfuzzy : flag = PoEntry.FlagFuzzy
    · rw [if_pos hfuzzy, ih, List.filter_cons_of_neg (by simpa using hfuzzy)]
    · rw [if_neg hfuzzy, if_pos rfl, writeFlags_of_later, put_put,
        List.filter_cons_of_pos (by simpa using hfuzzy), if_neg (List.cons_ne_nil _ _),
        List.append_assoc]
      rfl

theorem WriteFlags_eq : w.WriteFlags = w.put (unlines (flagLines w.entry.flags)) := by
  unfold WriteFlags flagLines flagOrder PoEntry.HasFlag
  by_cases hfuzzy : PoEntry.FlagFuzzy ∈ w.entry.flags
  · simp only [List.contains_iff_mem, hfuzzy, decide_true, if_true, Bool.not_true,
      writeFlags_of_later, Bool.false_eq_true, if_false, put_put]
    rw [if_neg (List.append_ne_nil_of_left_ne_nil (List.cons_ne_nil _ _) _), unlines_singleton]
    simp only [List.append_assoc]
    rfl
  · simp only [List.contains_iff_mem, hfuzzy, decide_false, Bool.false_eq_true, if_false, Bool.not_false,
      List.nil_append, writeFlags_of_first]
    split
    · exact w.put_nil.symm
    · simp only [Bool.false_eq_true, if_false, put_put, unlines_singleton]

end PoWriter

/-! ### Entries -/

def locationLines (location : List Char) : List (List Char) :=
  if location = [] then [] else [MarkerLocation ++ location]

def contextLines (context : List Char) : List (List Char) :=
  if context = [] then [] else keywordLines KeywordContext context

/-- The lines of an entry; the last one is empty. -/
def entryLines (e : PoEntry) : List (List Char) :=
  e.help.map (MarkerExtractedComment ++ ·) ++ locationLines e.location ++ flagLines e.flags ++
    contextLines e.context ++ keywordLines KeywordId e.english ++
    keywordLines KeywordString e.translated ++ [[]]

namespace PoWriter

variable (w : PoWriter)

theorem WriteHelp_eq :
    w.WriteHelp = w.put (unlines (w.entry.help.map (MarkerExtractedComment ++ ·))) := by
  rw [unlines_map]
  rfl

theorem WriteLocation_eq : w.WriteLocation = w.put (unlines (locationLines w.entry.location)) := by
  unfold WriteLocation locationLines
  by_cases hlocation : w.entry.location = []
  · rw [if_neg (not_not.2 hlocation), if_pos hlocation]
    exact w.put_nil.symm
  · rw [if_pos hlocation, if_neg hlocation, unlines_singleton]

theorem WriteContext_eq : w.WriteContext = w.put (unlines (contextLines w.entry.context)) := by
  unfold WriteContext contextLines
  by_cases hcontext : w.entry.context = []
  · rw [if_neg (not_not.2 hcontext), if_pos hcontext]
    exact w.put_nil.symm
  · rw [if_pos hcontext, if_neg hcontext, multiLineString_eq]

theorem WriteEntry_eq :
    w.WriteEntry = ⟨.reset, w.out_file ++ unlines (entryLines w.entry)⟩ := by
  have hend : ['\n'] = unlines [[]] := rfl
  unfold WriteEntry entryLines
  dsimp only
  rw [multiLineString_eq, multiLineString_eq, WriteContext_eq, WriteFlags_eq, WriteLocation_eq,
    WriteHelp_eq, hend, put_put, put_put, put_put, put_put, put_put, put_put, ← unlines_append,
    ← unlines_append, ← unlines_append, ← unlines_append, ← unlines_append, ← unlines_append]
  simp only [entry_put, List.append_assoc]
  rfl

end PoWriter

theorem writeEntries_eq (entries : List PoEntry) :
    writeEntries entries = unlines (entries.flatMap entryLines) := by
  have hfold : ∀ w : PoWriter,
      (entries.foldl (fun w e => PoWriter.WriteEntry { w with entry := e }) w).out_file =
        w.out_file ++ unlines (entries.flatMap entryLines) := by
    induction entries with
    | nil => exact fun w => (List.append_nil _).symm
    | cons e entries ih =>
      intro w
      rw [List.foldl_cons, ih, PoWriter.WriteEntry_eq, List.flatMap_cons, unlines_append,
        List.append_assoc]
  exact hfold _

/-! ## Reading lines -/

theorem getline_line {line rest : List Char} (h : '\n' ∉ line) :
    InFile.getline ⟨line ++ '\n' :: rest, false⟩ = some (line, ⟨rest, false⟩) := by
  have hall : ∀ c ∈ line, decide (c ≠ '\n') = true := fun c hc =>
    decide_eq_true fun hnewline => h (hnewline ▸ hc)
  have hdrop : (line ++ '\n' :: rest).dropWhile (· ≠ '\n') = '\n' :: rest := by
    rw [List.dropWhile_append_of_pos hall]
    rfl
  have htake : (line ++ '\n' :: rest).takeWhile (· ≠ '\n') = line := by
    rw [List.takeWhile_append_of_pos hall]
    exact List.append_nil line
  unfold InFile.getline
  rw [if_neg (by simp)]
  dsimp only
  rw [hdrop, htake]

/-- A flag that can be written. -/
structure IsFlag (flag : List Char) : Prop where
  ne_nil : flag ≠ []
  trimmed : trim flag = flag
  newline : '\n' ∉ flag
  comma : ',' ∉ flag

namespace Reading

variable {s s' s'' : Reading} {line rest : List Char} {a b : List (List Char)}

theorem lines_line (h : '\n' ∉ line) : s.lines ⟨line ++ '\n' :: rest, false⟩ =
    if (s.line line).2 then ((s.line line).1, ⟨rest, false⟩)
    else (s.line line).1.lines ⟨rest, false⟩ := by
  rw [lines]
  split
  · rename_i hnone
    rw [getline_line h] at hnone
    cases hnone
  · rename_i text f' hsome
    rw [getline_line h] at hsome
    cases hsome
    rfl

/-- The lines that are read without leaving the loop. -/
def Reads (s : Reading) (a : List (List Char)) (s' : Reading) : Prop :=
  ∀ rest, s.lines ⟨unlines a ++ rest, false⟩ = s'.lines ⟨rest, false⟩

theorem Reads.nil : Reads s [] s := fun _ => rfl

theorem Reads.append (ha : Reads s a s') (hb : Reads s' b s'') : Reads s (a ++ b) s'' := by
  intro rest
  rw [unlines_append, List.append_assoc, ha, hb]

theorem Reads.one (h : '\n' ∉ line) (hgoes : (s.line line).2 = false) :
    Reads s [line] (s.line line).1 := by
  intro rest
  rw [unlines_singleton, List.append_assoc]
  refine (lines_line h).trans ?_
  rw [hgoes, if_neg Bool.false_ne_true]
  rfl

/-- The state of the loop where the line is looked at. -/
def begun (s : Reading) : Reading :=
  start { s with reader := { s.reader with line_counter := s.reader.line_counter + 1 } }

theorem begun_entry (s : Reading) : s.begun.reader.entry = s.reader.entry := by
  unfold begun start
  dsimp only
  split <;> rfl

theorem begun_state (h : s.reader_state ≠ .Initial) : s.begun.reader_state = s.reader_state := by
  unfold begun start
  dsimp only
  rw [if_neg h]

theorem line_eq {text : List Char} (htrim : trim line = text) (hne : text ≠ [])
    (hcomment : MarkerTranslatorComment.isPrefixOf text = false) (hempty : text ≠ EmptyCommentLine) :
    s.line line = (s.begun.entryLine text, false) := by
  have hnot : ¬ (MarkerTranslatorComment.isPrefixOf text = true ∨ text = EmptyCommentLine) := by
    rw [hcomment]
    exact not_or.2 ⟨Bool.false_ne_true, hempty⟩
  unfold Reading.line
  dsimp only
  rw [htrim, if_neg fun h => hne h.2, if_neg hnot, if_neg hne]
  rfl

theorem line_nil (h : s.reader_state ≠ .Initial) : s.line [] = (s.begun, true) := by
  unfold Reading.line
  dsimp only
  rw [if_neg fun hinitial => h hinitial.1]
  rfl

theorem warnIf_entry (found : Bool) (error : Warning) :
    (s.warnIf found error).reader.entry = s.reader.entry := by
  unfold warnIf
  split <;> rfl

/-! ### Comments, locations and flags -/

theorem content_of_other (h1 : KeywordContext.isPrefixOf line = false)
    (h2 : KeywordId.isPrefixOf line = false) (h3 : KeywordString.isPrefixOf line = false) :
    s.keyword line = (s, line) := by
  unfold keyword
  rw [h1, h2, h3]
  rfl

/-- A comment without text is not recognized. -/
theorem content_comment (text : List Char) :
    (s.content ('#' :: '.' :: text)).reader.entry = s.reader.entry := by
  have htrim : trim ('#' :: '.' :: text) = '#' :: '.' :: text.rdropWhile isTrimChar :=
    Trimming.trim_append (s := []) rfl rfl
  unfold content
  rw [content_of_other rfl rfl rfl]
  dsimp only
  have hother : ¬ some '#' = some QuoteChar := by decide
  rw [htrim, if_neg fun h => hother h.2.1]
  rfl

theorem reads_help {help : List (List Char)} (h : ∀ line ∈ help, '\n' ∉ line) :
    ∃ s', Reads s (help.map (MarkerExtractedComment ++ ·)) s' ∧
      s'.reader.entry = s.reader.entry := by
  induction help generalizing s with
  | nil => exact ⟨s, Reads.nil, rfl⟩
  | cons line help ih =>
    obtain ⟨hline, hhelp⟩ := List.forall_mem_cons.1 h
    have hnewline : '\n' ∉ MarkerExtractedComment ++ line := by
      rw [List.mem_append]
      exact not_or.2 ⟨by decide, hline⟩
    have htrim : trim (MarkerExtractedComment ++ line) =
        '#' :: '.' :: (' ' :: line).rdropWhile isTrimChar :=
      Trimming.trim_append (s := []) rfl rfl
    have hgoes := line_eq (s := s) htrim (List.cons_ne_nil _ _) rfl (by simp [EmptyCommentLine])
    have hentry : (s.line (MarkerExtractedComment ++ line)).1.reader.entry = s.reader.entry := by
      rw [hgoes, ← begun_entry s]
      unfold entryLine
      split
      · rfl
      · exact content_comment _
    obtain ⟨s', hreads, hs'⟩ := @ih (s.line (MarkerExtractedComment ++ line)).1 hhelp
    refine ⟨s', (Reads.one hnewline ?_).append hreads, hs'.trans hentry⟩
    rw [hgoes]

theorem reads_location {location : List Char} (htrim : trim location = location)
    (hline : '\n' ∉ location) :
    ∃ s', Reads s (locationLines location) s' ∧
      s'.reader.entry = if location = [] then s.reader.entry
        else { s.reader.entry with location := location } := by
  unfold locationLines
  by_cases hnil : location = []
  · rw [if_pos hnil, if_pos hnil]
    exact ⟨s, Reads.nil, rfl⟩
  · have hlast := (Trimming.trim_eq_self_iff.1 htrim).2
    have hall : trim (MarkerLocation ++ location) = MarkerLocation ++ location := by
      refine Trimming.trim_eq_self_iff.2 ⟨?_, ?_⟩
      · rintro c ⟨⟩
        rfl
      · rwa [List.getLast?_append_of_ne_nil _ hnil]
    have hnewline : '\n' ∉ MarkerLocation ++ location := by
      rw [List.mem_append]
      exact not_or.2 ⟨by decide, hline⟩
    have hgoes := line_eq (s := s) hall (List.cons_ne_nil _ _) rfl (by simp [EmptyCommentLine,
      MarkerLocation])
    rw [if_neg hnil, if_neg hnil]
    refine ⟨_, Reads.one hnewline (by rw [hgoes]), ?_⟩
    have hlocation : MarkerLocation.isPrefixOf (MarkerLocation ++ location) = true := rfl
    rw [hgoes]
    unfold entryLine
    rw [if_neg (by exact Bool.false_ne_true), if_pos hlocation]
    change (PoReader.ReadLocation _ _).entry = _
    unfold PoReader.ReadLocation
    rw [List.drop_left, htrim, if_neg hnil, warnIf_entry, begun_entry]

variable {flag : List Char} {flags : List (List Char)}

theorem split_joined (hflag : ',' ∉ flag) (hflags : ∀ flag ∈ flags, ',' ∉ flag) :
    (joined (flag :: flags)).splitOnP (· ∈ [',']) = flag :: flags.map (' ' :: ·) := by
  have hword : ∀ {word : List Char}, ',' ∉ word → ∀ c ∈ word, decide (c ∈ [',']) = false := by
    intro word hword c hc
    rw [decide_eq_false_iff_not, List.mem_singleton]
    exact fun hcomma => hword (hcomma ▸ hc)
  have hall : ∀ word : List Char, ',' ∉ word →
      (word ++ flags.flatMap ([',', ' '] ++ ·)).splitOnP (· ∈ [',']) =
        word :: flags.map (' ' :: ·) := by
    induction flags with
    | nil =>
      intro word h
      rw [List.flatMap_nil, List.append_nil, List.splitOnP_eq_singleton (hword h)]
      rfl
    | cons next flags ih =>
      obtain ⟨hnext, hrest⟩ := List.forall_mem_cons.1 hflags
      intro word h
      have hspace : ',' ∉ ' ' :: next := by
        rw [List.mem_cons]
        exact not_or.2 ⟨by decide, hnext⟩
      have hsplit := List.splitOnP_append_cons_of_forall_mem (hword h) ','
        (by decide : decide (',' ∈ [',']) = true) (' ' :: next ++ flags.flatMap ([',', ' '] ++ ·))
      rw [List.flatMap_cons, List.map_cons, ← ih hrest _ hspace, ← hsplit]
      rfl
  exact hall flag hflag

theorem foldl_flags {words : List (List Char)} (r : PoReader) (hwords : words.map trim = flags)
    (hnew : (r.entry.flags ++ flags).Nodup) :
    (words.foldl
      (fun r flag =>
        let flag := trim flag
        if r.entry.HasFlag flag then r.LogWarning (.flagDuplicated flag)
        else { r with entry := r.entry.AddFlag flag }) r).entry =
      { r.entry with flags := r.entry.flags ++ flags } := by
  induction words generalizing r flags with
  | nil =>
    subst hwords
    rw [List.map_nil, List.append_nil]
    rfl
  | cons word words ih =>
    subst hwords
    have hnot : r.entry.HasFlag (trim word) = false := by
      refine decide_eq_false fun hmem => ?_
      exact (List.nodup_append.1 hnew).2.2 _ hmem _ List.mem_cons_self rfl
    have hadd : r.entry.AddFlag (trim word) =
        { r.entry with flags := r.entry.flags ++ [trim word] } := by
      rw [PoEntry.AddFlag, hnot, if_neg Bool.false_ne_true]
    rw [List.foldl_cons]
    dsimp only
    rw [hnot, if_neg Bool.false_ne_true, hadd]
    have hrest := ih
      { r with entry := { r.entry with flags := r.entry.flags ++ [trim word] } } rfl
      (by rwa [List.append_assoc])
    rw [List.append_assoc] at hrest
    exact hrest

/-- The last of the flags ends the line. -/
theorem trimmed_joined (hflag : IsFlag flag) (hflags : ∀ flag ∈ flags, IsFlag flag) :
    trim (joined (flag :: flags)) = joined (flag :: flags) := by
  have hfirst := (Trimming.trim_eq_self_iff.1 hflag.trimmed).1
  have hlast : ∀ {flag : List Char}, IsFlag flag → ∀ (front : List Char),
      ∀ c ∈ (front ++ flag).getLast?, isTrimChar c = false := by
    intro flag h front
    rw [List.getLast?_append_of_ne_nil _ h.ne_nil]
    exact (Trimming.trim_eq_self_iff.1 h.trimmed).2
  refine Trimming.trim_eq_self_iff.2 ⟨?_, ?_⟩
  · rw [joined, List.head?_append_of_ne_nil _ hflag.ne_nil]
    exact hfirst
  · rcases List.eq_nil_or_concat flags with rfl | ⟨front, last, rfl⟩
    · rw [joined, List.flatMap_nil, List.append_nil]
      exact hlast hflag []
    · have hlastFlag := hflags last (by simp)
      rw [joined, List.concat_eq_append, List.flatMap_append, List.flatMap_singleton,
        ← List.append_assoc, ← List.append_assoc]
      exact hlast hlastFlag _

theorem newline_not_mem_joined (h : ∀ flag ∈ flags, '\n' ∉ flag) :
    '\n' ∉ joined flags := by
  cases flags with
  | nil => exact List.not_mem_nil
  | cons flag flags =>
    obtain ⟨hflag, hflags⟩ := List.forall_mem_cons.1 h
    rw [joined, List.mem_append, List.mem_flatMap]
    rintro (hmem | ⟨next, hnext, hmem⟩)
    · exact hflag hmem
    · rcases List.mem_append.1 hmem with hmem | hmem
      · exact absurd hmem (by decide)
      · exact hflags next hnext hmem

theorem ReadFlags_entry (r : PoReader) (hflag : IsFlag flag) (hflags : ∀ flag ∈ flags, IsFlag flag)
    (hnew : (r.entry.flags ++ flag :: flags).Nodup) :
    (r.ReadFlags (MarkerFlag ++ joined (flag :: flags))).entry =
      { r.entry with flags := r.entry.flags ++ flag :: flags } := by
  have hne : joined (flag :: flags) ≠ [] := List.append_ne_nil_of_left_ne_nil hflag.ne_nil _
  have hwords : split (joined (flag :: flags)) [','] = flag :: flags.map (' ' :: ·) := by
    rw [split, split_joined hflag.comma fun other hother => (hflags other hother).comma,
      List.filter_eq_self]
    intro word hword
    rcases List.mem_cons.1 hword with rfl | hword
    · exact decide_eq_true hflag.ne_nil
    · obtain ⟨other, -, rfl⟩ := List.mem_map.1 hword
      exact decide_eq_true (List.cons_ne_nil _ _)
  have htrim : (flag :: flags.map (' ' :: ·)).map trim = flag :: flags := by
    rw [List.map_cons, hflag.trimmed, List.map_map]
    refine congrArg (flag :: ·) ((List.map_congr_left fun other hother => ?_).trans flags.map_id)
    exact Trimming.trim_blank_cons rfl (hflags other hother).trimmed
  unfold PoReader.ReadFlags
  rw [List.drop_left, trimmed_joined hflag hflags, if_neg hne, hwords]
  exact foldl_flags r htrim hnew

theorem reads_flags (hflags : ∀ flag ∈ flags, IsFlag flag) (hnodup : flags.Nodup)
    (hnone : s.reader.entry.flags = []) :
    ∃ s', Reads s (flagLines flags) s' ∧
      s'.reader.entry = { s.reader.entry with flags := flagOrder flags } := by
  have horder : ∀ flag ∈ flagOrder flags, IsFlag flag := fun flag hflag =>
    hflags flag (mem_flagOrder.1 hflag)
  have hnodup' := nodup_flagOrder hnodup
  unfold flagLines
  cases hcons : flagOrder flags with
  | nil =>
    rw [if_pos rfl]
    refine ⟨s, Reads.nil, ?_⟩
    rw [← hnone]
  | cons flag others =>
    rw [hcons] at horder hnodup'
    obtain ⟨hflag, hothers⟩ := List.forall_mem_cons.1 horder
    have hjoined := trimmed_joined hflag hothers
    have hne : joined (flag :: others) ≠ [] := List.append_ne_nil_of_left_ne_nil hflag.ne_nil _
    have hall : trim (MarkerFlag ++ joined (flag :: others)) =
        MarkerFlag ++ joined (flag :: others) := by
      refine Trimming.trim_eq_self_iff.2 ⟨?_, ?_⟩
      · rintro c ⟨⟩
        rfl
      · rw [List.getLast?_append_of_ne_nil _ hne]
        exact (Trimming.trim_eq_self_iff.1 hjoined).2
    have hnewline : '\n' ∉ MarkerFlag ++ joined (flag :: others) := by
      rw [List.mem_append]
      exact not_or.2 ⟨by decide,
        newline_not_mem_joined fun other hother => (horder other hother).newline⟩
    have hgoes := line_eq (s := s) hall (List.cons_ne_nil _ _) rfl (by simp [EmptyCommentLine,
      MarkerFlag])
    rw [if_neg (List.cons_ne_nil _ _)]
    refine ⟨_, Reads.one hnewline (by rw [hgoes]), ?_⟩
    have hmarker : MarkerFlag.isPrefixOf (MarkerFlag ++ joined (flag :: others)) = true := rfl
    rw [hgoes]
    unfold entryLine
    rw [if_neg (by exact Bool.false_ne_true), if_neg (by exact Bool.false_ne_true), if_pos hmarker]
    have hentry := ReadFlags_entry s.begun.reader hflag hothers (by
      rw [begun_entry, hnone]
      exact hnodup')
    rw [begun_entry, hnone] at hentry
    exact hentry

end Reading

/-! ### Strings -/

/-- The strings of an entry. -/
inductive Field where
  | context
  | english
  | translated

namespace Field

def keyword : Field → List Char
  | .context => KeywordContext
  | .english => KeywordId
  | .translated => KeywordString

def state : Field → State
  | .context => .ReadingContext
  | .english => .ReadingEnglish
  | .translated => .ReadingTranslated

def extend (e : PoEntry) (text : List Char) : Field → PoEntry
  | .context => { e with context := e.context ++ text }
  | .english => { e with english := e.english ++ text }
  | .translated => { e with translated := e.translated ++ text }

variable {field : Field}

theorem extend_extend (e : PoEntry) (a b : List Char) :
    field.extend (field.extend e a) b = field.extend e (a ++ b) := by
  cases field <;> simp only [extend, List.append_assoc]

theorem extend_nil (e : PoEntry) : field.extend e [] = e := by
  cases field <;> simp only [extend, List.append_nil]

theorem state_ne : field.state ≠ .Initial := by cases field <;> exact State.noConfusion

end Field

namespace Reading

variable {s : Reading} {field : Field}

theorem keyword_field (text : List Char) :
    (s.keyword (field.keyword ++ ' ' :: text)).2 = ' ' :: text ∧
      (s.keyword (field.keyword ++ ' ' :: text)).1.reader.entry = s.reader.entry ∧
      (s.keyword (field.keyword ++ ' ' :: text)).1.reader_state = field.state := by
  cases field with
  | context => exact ⟨rfl, warnIf_entry _ _, rfl⟩
  | english => exact ⟨rfl, warnIf_entry _ _, rfl⟩
  | translated => exact ⟨rfl, warnIf_entry _ _, rfl⟩

theorem store_quoted (h : s.reader_state = field.state) (line : List Char) :
    (s.store (quoted line)).reader.entry = field.extend s.reader.entry line ∧
      (s.store (quoted line)).reader_state = field.state := by
  unfold store
  rw [ReadSingleLineString_quoted, h]
  cases field with
  | context => exact ⟨rfl, rfl⟩
  | english => exact ⟨rfl, rfl⟩
  | translated => exact ⟨rfl, rfl⟩

/-- What is left of a line in front of its string does not matter. -/
theorem content_string {line text : List Char} (htrim : trim (s.keyword line).2 = quoted text)
    (hstate : (s.keyword line).1.reader_state = field.state) :
    (s.content line).reader.entry = field.extend (s.keyword line).1.reader.entry text ∧
      (s.content line).reader_state = field.state := by
  unfold content
  dsimp only
  rw [htrim, if_pos ⟨two_le_length_quoted text, head_quoted text, getLast_quoted text⟩]
  exact store_quoted hstate text

theorem reads_keyword_line (text : List Char) :
    ∃ s', Reads s [field.keyword ++ ' ' :: quoted text] s' ∧
      s'.reader.entry = field.extend s.reader.entry text ∧ s'.reader_state = field.state := by
  have hlast : (field.keyword ++ ' ' :: quoted text).getLast? = some '"' := by
    rw [List.getLast?_append_of_ne_nil _ (List.cons_ne_nil _ _)]
    exact (List.getLast?_append_of_ne_nil [' '] (List.cons_ne_nil _ _)).trans (getLast_quoted text)
  have htrim : trim (field.keyword ++ ' ' :: quoted text) =
      field.keyword ++ ' ' :: quoted text := by
    refine Trimming.trim_eq_self_iff.2 ⟨?_, ?_⟩
    · cases field <;> rintro c ⟨⟩ <;> rfl
    · rw [hlast]
      rintro c ⟨⟩
      rfl
  have hnewline : '\n' ∉ field.keyword ++ ' ' :: quoted text := by
    rw [List.mem_append, List.mem_cons]
    refine not_or.2 ⟨?_, not_or.2 ⟨by decide, newline_not_mem_quoted text⟩⟩
    cases field <;> decide
  have hgoes : s.line (field.keyword ++ ' ' :: quoted text) =
      (s.begun.content (field.keyword ++ ' ' :: quoted text), false) := by
    cases field with
    | context =>
      exact line_eq htrim (List.cons_ne_nil _ _) rfl (by simp [EmptyCommentLine, Field.keyword,
        KeywordContext])
    | english =>
      exact line_eq htrim (List.cons_ne_nil _ _) rfl (by simp [EmptyCommentLine, Field.keyword,
        KeywordId])
    | translated =>
      exact line_eq htrim (List.cons_ne_nil _ _) rfl (by simp [EmptyCommentLine, Field.keyword,
        KeywordString])
  obtain ⟨hrest, hentry, hstate⟩ : _ ∧ _ ∧ _ = field.state := s.begun.keyword_field (quoted text)
  have hstring : trim (s.begun.keyword (field.keyword ++ ' ' :: quoted text)).2 = quoted text := by
    rw [hrest]
    exact Trimming.trim_blank_cons rfl (trim_quoted text)
  have hcontent := content_string hstring hstate
  refine ⟨_, Reads.one hnewline (by rw [hgoes]), ?_⟩
  rw [hgoes]
  rw [hentry, begun_entry] at hcontent
  exact hcontent

theorem reads_quoted (h : s.reader_state = field.state) (text : List Char) :
    ∃ s', Reads s [quoted text] s' ∧
      s'.reader.entry = field.extend s.reader.entry text ∧ s'.reader_state = field.state := by
  have hgoes : s.line (quoted text) = (s.begun.content (quoted text), false) :=
    line_eq (trim_quoted text) (List.cons_ne_nil _ _) rfl (by simp [EmptyCommentLine, quoted, Quote])
  have hkeyword : s.begun.keyword (quoted text) = (s.begun, quoted text) :=
    content_of_other rfl rfl rfl
  have hstate : s.begun.reader_state = field.state :=
    (begun_state (by rw [h]; exact Field.state_ne)).trans h
  have hstring : trim (s.begun.keyword (quoted text)).2 = quoted text := by
    rw [hkeyword]
    exact trim_quoted text
  have hcontent := content_string hstring (by rw [hkeyword]; exact hstate)
  refine ⟨_, Reads.one (newline_not_mem_quoted text) (by rw [hgoes]), ?_⟩
  rw [hgoes]
  rw [hkeyword, begun_entry] at hcontent
  exact hcontent

theorem reads_quoted_lines (h : s.reader_state = field.state) (lines : List (List Char)) :
    ∃ s', Reads s (lines.map quoted) s' ∧
      s'.reader.entry = field.extend s.reader.entry lines.flatten ∧
      s'.reader_state = field.state := by
  induction lines generalizing s with
  | nil => exact ⟨s, Reads.nil, (Field.extend_nil _).symm, h⟩
  | cons line lines ih =>
    obtain ⟨s', hline, hentry, hstate⟩ := reads_quoted h line
    obtain ⟨s'', hlines, hentry', hstate'⟩ := ih hstate
    refine ⟨s'', hline.append hlines, ?_, hstate'⟩
    rw [hentry', hentry, Field.extend_extend, List.flatten_cons]

/-- **A string of several lines**, behind its keyword. -/
theorem reads_keyword (s : Reading) (field : Field) (value : List Char) :
    ∃ s', Reads s (keywordLines field.keyword value) s' ∧
      s'.reader.entry = field.extend s.reader.entry value ∧ s'.reader_state = field.state := by
  obtain ⟨s', hfirst, hentry, hstate⟩ : ∃ s', Reads s [field.keyword ++ _] s' ∧ _ :=
    reads_keyword_line (firstLine value)
  obtain ⟨s'', hothers, hentry', hstate'⟩ := reads_quoted_lines hstate (otherLines value)
  refine ⟨s'', hfirst.append hothers, ?_, hstate'⟩
  rw [hentry', hentry, Field.extend_extend, flatten_otherLines]

theorem reads_context (s : Reading) (hnone : s.reader.entry.context = []) (context : List Char) :
    ∃ s', Reads s (contextLines context) s' ∧
      s'.reader.entry = { s.reader.entry with context := context } := by
  unfold contextLines
  split
  · rename_i hnil
    refine ⟨s, Reads.nil, ?_⟩
    rw [hnil, ← hnone]
  · obtain ⟨s', hreads, hentry, -⟩ := reads_keyword s .context context
    refine ⟨s', hreads, hentry.trans ?_⟩
    rw [Field.extend, hnone, List.nil_append]

end Reading

/-! ## Entries -/

/-- An entry that can be written: locations and flags are trimmed and on one line, and the flags are
different from each other and without commas. -/
structure Writable (e : PoEntry) : Prop where
  location_trimmed : trim e.location = e.location
  location_line : '\n' ∉ e.location
  flags : ∀ flag ∈ e.flags, IsFlag flag
  flags_nodup : e.flags.Nodup
  help : ∀ line ∈ e.help, '\n' ∉ line

/-- The entry that is read back: the fuzzy flag comes first, and the help is a comment. -/
def PoEntry.readBack (e : PoEntry) : PoEntry := { e with flags := flagOrder e.flags, help := [] }

theorem ReadEntry_entryLines (r : PoReader) {e : PoEntry} (h : Writable e) (rest : List Char) :
    ∃ r', ReadEntry r ⟨unlines (entryLines e) ++ rest, false⟩ = (r', ⟨rest, false⟩, true) ∧
      r'.entry = e.readBack := by
  obtain ⟨s₁, hhelp, hentry₁⟩ := Reading.reads_help
    (s := ⟨{ r with entry := .reset }, .Initial, false, false, false, false, false⟩) h.help
  obtain ⟨s₂, hlocation, hentry₂⟩ := Reading.reads_location (s := s₁) h.location_trimmed
    h.location_line
  have hlocated : s₂.reader.entry = { PoEntry.reset with location := e.location } := by
    rw [hentry₂, hentry₁]
    split
    · rename_i hnil
      rw [hnil]
      rfl
    · rfl
  obtain ⟨s₃, hflags, hentry₃⟩ := Reading.reads_flags (s := s₂) h.flags h.flags_nodup
    (by rw [hlocated]; rfl)
  rw [hlocated] at hentry₃
  obtain ⟨s₄, hcontext, hentry₄⟩ := s₃.reads_context (by rw [hentry₃]; rfl) e.context
  obtain ⟨s₅, henglish, hentry₅, -⟩ := s₄.reads_keyword .english e.english
  obtain ⟨s₆, htranslated, hentry₆, hstate⟩ := s₅.reads_keyword .translated e.translated
  have hall := ((((hhelp.append hlocation).append hflags).append hcontext).append
    henglish).append htranslated
  have hne : s₆.reader_state ≠ .Initial := by
    rw [hstate]
    exact Field.state_ne
  have hend : s₆.lines ⟨[] ++ '\n' :: rest, false⟩ = (s₆.begun, ⟨rest, false⟩) := by
    rw [Reading.lines_line List.not_mem_nil, Reading.line_nil hne, if_pos rfl]
  have hlines := (hall ('\n' :: rest)).trans hend
  have htext : unlines (entryLines e) ++ rest =
      unlines (e.help.map (MarkerExtractedComment ++ ·) ++ locationLines e.location ++
        flagLines e.flags ++ contextLines e.context ++ keywordLines Field.english.keyword e.english ++
        keywordLines Field.translated.keyword e.translated) ++ '\n' :: rest := by
    rw [entryLines, unlines_append, List.append_assoc]
    rfl
  refine ⟨s₆.begun.reader, ?_, ?_⟩
  · unfold ReadEntry
    rw [htext, hlines]
    rfl
  · rw [Reading.begun_entry, hentry₆, hentry₅, hentry₄, hentry₃]
    rfl

theorem ReadEntry_nil (r : PoReader) : (ReadEntry r ⟨[], false⟩).2.2 = false := by
  unfold ReadEntry
  rw [Reading.lines]
  rfl

theorem readEntries_flatMap (r : PoReader) {entries : List PoEntry}
    (h : ∀ e ∈ entries, Writable e) :
    readEntries (entries.length + 1) r ⟨unlines (entries.flatMap entryLines), false⟩ =
      some (entries.map PoEntry.readBack) := by
  induction entries generalizing r with
  | nil =>
    have hfail := ReadEntry_nil r
    rcases hread : ReadEntry r ⟨[], false⟩ with ⟨r', f', ok⟩
    rw [hread] at hfail
    subst hfail
    rw [List.flatMap_nil, List.length_nil, readEntries, show unlines [] = [] from rfl, hread]
    rfl
  | cons e entries ih =>
    obtain ⟨he, hentries⟩ := List.forall_mem_cons.1 h
    obtain ⟨r', hread, hentry⟩ := ReadEntry_entryLines r he (unlines (entries.flatMap entryLines))
    rw [List.length_cons, readEntries, List.flatMap_cons, unlines_append, hread]
    dsimp only
    rw [ih r' hentries, hentry]
    rfl

/-- The same entry; flags are a set. -/
structure PoEntry.Same (e e' : PoEntry) : Prop where
  location : e'.location = e.location
  context : e'.context = e.context
  english : e'.english = e.english
  translated : e'.translated = e.translated
  flags : ∀ flag, flag ∈ e'.flags ↔ flag ∈ e.flags

theorem PoEntry.same_readBack (e : PoEntry) : e.Same e.readBack :=
  ⟨rfl, rfl, rfl, rfl, fun _ => mem_flagOrder⟩

/-- **What is written is read back**, entry by entry. -/
theorem entries_read_back (entries : List PoEntry) (h : ∀ e ∈ entries, Writable e) :
    ∃ read, readEntries (entries.length + 1) (openFile (writeEntries entries)).1
        (openFile (writeEntries entries)).2 = some read ∧
      List.Forall₂ PoEntry.Same entries read := by
  refine ⟨entries.map PoEntry.readBack, ?_, ?_⟩
  · rw [writeEntries_eq]
    exact readEntries_flatMap _ h
  · rw [List.forall₂_map_right_iff]
    exact List.forall₂_same.2 fun e _ => e.same_readBack

/-- An entry with two flags and texts that need escapes, and one without any text. -/
def twoEntries : List PoEntry :=
  [⟨['a', ' ', 'b'], ['\n'], [['x'], PoEntry.FlagFuzzy], ['"', '\n', '\n', '\\'],
      ['\t', 'c', '\r', '\n'], []⟩,
    PoEntry.reset]

theorem entries_read_back_twoEntries :
    ∃ read, readEntries 3 (openFile (writeEntries twoEntries)).1
        (openFile (writeEntries twoEntries)).2 = some read ∧
      List.Forall₂ PoEntry.Same twoEntries read := by
  refine entries_read_back twoEntries (List.forall_mem_cons.2 ⟨?_, List.forall_mem_singleton.2 ?_⟩)
  · have hx : IsFlag ['x'] := ⟨by decide, by decide, by decide, by decide⟩
    have hfuzzy : IsFlag PoEntry.FlagFuzzy := ⟨by decide, by decide, by decide, by decide⟩
    exact ⟨by decide, by decide, List.forall_mem_cons.2 ⟨hx, List.forall_mem_singleton.2 hfuzzy⟩,
      by decide, nofun⟩
  · exact ⟨rfl, List.not_mem_nil, nofun, List.nodup_nil, nofun⟩

end MessagesPo

end AugraDosbox
