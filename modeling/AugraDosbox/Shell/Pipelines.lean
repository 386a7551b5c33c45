import AugraDosbox.Shell.ParseLine

/-!
# Pipelines

Lines whose stages hold no quotes and no redirections, separated by `|`.

* `nonspace_trim`, `trim_spaces` — what trimming keeps;
* `GetRedirection_pipe` — two stages: the first word of the second one is the target, and the
  rest of it goes to the first command;
* `commands_pair` — the commands that two stages run;
* **`pipelines_iff`** — when the stages are the commands.
-/

namespace AugraDosbox

namespace Shell

variable {a b s t ws target tail rest line : List Char} {c : Char}

/-! ## Trimming -/

/-- The characters that trimming keeps. -/
def nonspace (s : List Char) : List Char := s.filter fun c => !isspace c

theorem nonspace_append : nonspace (s ++ t) = nonspace s ++ nonspace t :=
  List.filter_append s t

theorem nonspace_cons (hc : isspace c = false) : nonspace (c :: s) = c :: nonspace s := by
  rw [nonspace, List.filter_cons_of_pos (by rw [hc]; rfl), nonspace]

theorem nonspace_eq_nil_iff : nonspace s = [] ↔ ∀ c ∈ s, isspace c := by
  simp [nonspace, List.filter_eq_nil_iff]

theorem nonspace_ltrim (s : List Char) : nonspace (ltrim s) = nonspace s := by
  have hspaces : nonspace (s.takeWhile isspace) = [] :=
    nonspace_eq_nil_iff.2 fun c hc => List.mem_takeWhile_imp hc
  calc nonspace (ltrim s) = nonspace (s.takeWhile isspace) ++ nonspace (ltrim s) := by
        rw [hspaces, List.nil_append]
    _ = nonspace s := by rw [← nonspace_append, ltrim, List.takeWhile_append_dropWhile]

theorem nonspace_rtrim (s : List Char) : nonspace (rtrim s) = nonspace s := by
  have hspaces : nonspace (s.rtakeWhile isspace) = [] :=
    nonspace_eq_nil_iff.2 fun c hc => List.mem_rtakeWhile_imp hc
  calc nonspace (rtrim s) = nonspace (rtrim s) ++ nonspace (s.rtakeWhile isspace) := by
        rw [hspaces, List.append_nil]
    _ = nonspace s := by rw [← nonspace_append, rtrim, List.rdropWhile_append_rtakeWhile]

theorem nonspace_trim (s : List Char) : nonspace (trim s) = nonspace s := by
  rw [trim, nonspace_ltrim, nonspace_rtrim]

theorem nonspace_eq_of_trim_eq (h : trim s = trim t) : nonspace s = nonspace t := by
  rw [← nonspace_trim s, h, nonspace_trim]

theorem rtrim_append_spaces (ht : ∀ c ∈ t, isspace c) : rtrim (s ++ t) = rtrim s := by
  rw [rtrim, rtrim, List.rdropWhile, List.rdropWhile, List.reverse_append,
    List.dropWhile_append_of_pos fun c hc => ht c (List.mem_reverse.1 hc)]

/-- Characters other than white space keep what is in front of them. -/
theorem rtrim_append (ht : rtrim t ≠ []) : rtrim (s ++ t) = s ++ rtrim t := by
  rw [rtrim, List.rdropWhile, ne_eq, List.reverse_eq_nil_iff] at ht
  rw [rtrim, rtrim, List.rdropWhile, List.rdropWhile, List.reverse_append, List.dropWhile_append,
    if_neg (by simpa using ht), List.reverse_append, List.reverse_reverse]

theorem ltrim_append_cons (hc : ¬ isspace c) : ltrim (s ++ c :: t) = ltrim s ++ c :: t := by
  rw [ltrim, ltrim, List.dropWhile_append]
  split
  · next h =>
    rw [List.isEmpty_iff.1 h, List.nil_append, List.dropWhile_cons_of_neg hc]
  · rfl

theorem rtrim_append_cons (hc : ¬ isspace c) : rtrim (s ++ c :: t) = s ++ c :: rtrim t := by
  have hcons : rtrim (c :: t) = c :: rtrim t := by
    by_cases ht : rtrim t = []
    · have hspaces : ∀ a ∈ t, isspace a := List.rdropWhile_eq_nil_iff.1 ht
      rw [← List.singleton_append, rtrim_append_spaces hspaces, ht]
      exact List.rdropWhile_concat_neg isspace [] c hc
    · exact rtrim_append (s := [c]) ht
  have hne : rtrim (c :: t) ≠ [] := by
    rw [hcons]
    exact List.cons_ne_nil c _
  rw [rtrim_append hne, hcons]

theorem ltrim_spaces (hs : ∀ c ∈ s, isspace c) : ltrim (s ++ t) = ltrim t := by
  rw [ltrim, List.dropWhile_append_of_pos hs, ltrim]

/-- White space around a text does not matter. -/
theorem trim_spaces (hs : ∀ c ∈ s, isspace c) (ht : ∀ c ∈ t, isspace c) :
    trim (s ++ (a ++ t)) = trim a := by
  rw [trim, ← List.append_assoc, rtrim_append_spaces ht]
  by_cases ha : rtrim a = []
  · rw [trim, ha, rtrim_append_spaces (List.rdropWhile_eq_nil_iff.1 ha)]
    have hs' : rtrim s = [] := List.rdropWhile_eq_nil_iff.2 hs
    rw [hs']
  · rw [rtrim_append ha, ltrim_spaces hs, trim]

theorem rtrim_rtrim (s : List Char) : rtrim (rtrim s) = rtrim s :=
  List.rdropWhile_idempotent isspace s

theorem trim_rtrim (s : List Char) : trim (rtrim s) = trim s := by
  rw [trim, rtrim_rtrim, trim]

theorem trim_ltrim (s : List Char) : trim (ltrim s) = trim s := by
  have hspaces : ∀ c ∈ s.takeWhile isspace, isspace c := fun c hc => List.mem_takeWhile_imp hc
  have hsplit := trim_spaces (a := ltrim s) (t := []) hspaces (by simp)
  rwa [List.append_nil, ltrim, List.takeWhile_append_dropWhile, ← ltrim, eq_comm] at hsplit

theorem trim_trim (s : List Char) : trim (trim s) = trim s :=
  (trim_ltrim (rtrim s)).trans (trim_rtrim s)

/-! ## Lines without quotes -/

/-- Neither quotes nor redirections. -/
def Plain (s : List Char) : Prop := ∀ c ∈ s, c ≠ '"' ∧ ¬ isRedirection c

instance (s : List Char) : Decidable (Plain s) := inferInstanceAs (Decidable (∀ c ∈ s, _))

theorem ne_token_append {token s' : List Char} (hc : ¬ isRedirection c)
    (htoken : token ∈ tokens) : c :: s ≠ token ++ s' := by
  have hall : tokens.all fun token => token.head?.any isRedirection := by decide
  obtain ⟨d, hd, hredir⟩ := (Option.any_eq_true _ _).1 (List.all_eq_true.1 hall token htoken)
  obtain ⟨l, rfl⟩ := List.head?_eq_some_iff.1 hd
  rintro heq
  rw [List.cons_append] at heq
  exact hc ((List.cons.inj heq).1 ▸ hredir)

/-- Plain text in front of a line is read character by character. -/
theorem Reads.plain_append {ps : List Piece} (ha : Plain a) (h : Reads line ps) :
    Reads (a ++ line) (a.map .text ++ ps) := by
  induction a with
  | nil => exact h
  | cons c a ih =>
    obtain ⟨⟨hquote, hredir⟩, ha⟩ := List.forall_mem_cons.1 ha
    refine .text (fun hc => absurd hc hquote) (fun token htoken s' heq => ?_) (ih ha)
    exact absurd heq (ne_token_append hredir htoken)

theorem reads_plain (ha : Plain a) : Reads a (a.map .text) := by
  have h := Reads.nil.plain_append ha
  rwa [List.append_nil, List.append_nil] at h

theorem foldl_text (r : RedirectionResults) (a : List Char) :
    (a.map Piece.text).foldl Piece.apply r = r.append a := by
  induction a generalizing r with
  | nil => exact (append_nil r).symm
  | cons c a ih =>
    rw [List.map_cons, List.foldl_cons, ih, Piece.apply, append_append]
    rfl

theorem not_isMatch_map_text {p : Piece} (hp : p ∈ a.map Piece.text) : ¬ p.IsMatch := by
  obtain ⟨c, -, rfl⟩ := List.mem_map.1 hp
  exact id

theorem not_isStray_map_text {p : Piece} (ha : Plain a) (hp : p ∈ a.map Piece.text) :
    ¬ p.IsStray := by
  obtain ⟨c, hc, rfl⟩ := List.mem_map.1 hp
  exact (ha c hc).2

theorem GetRedirection_plain (ha : Plain a) : GetRedirection a = some ⟨a, [], [], [], false⟩ := by
  rw [(reads_plain ha).GetRedirection_eq, foldl_text]
  · rfl
  · rintro ⟨front, back, heq, -, q, hq, hmatch⟩
    exact absurd hmatch (not_isMatch_map_text (heq ▸ List.mem_append_right front hq))

theorem Operand.plain_rest (h : Operand b ws target tail rest) (hb : Plain b) : Plain rest :=
  fun c hc => hb c (by rw [h.eq]; simp [hc])

/-- A pipe: the target is what the expression takes for one, and what follows it goes to the
first command. -/
theorem GetRedirection_pipe (ha : Plain a) (hb : Plain b) (h : Operand b ws target tail rest) :
    GetRedirection (a ++ '|' :: b) = some ⟨a ++ rest, [], [], stripColon target, false⟩ := by
  have hreads : Reads (a ++ '|' :: b)
      (a.map .text ++ .redirection ['|'] target tail :: rest.map .text) := by
    have htoken : ['|'] ∈ tokens := by decide
    exact .plain_append ha (.redirection htoken h (reads_plain (h.plain_rest hb)))
  rw [hreads.GetRedirection_eq, List.foldl_append, foldl_text, List.foldl_cons, foldl_text]
  · rfl
  · rintro ⟨front, back, heq, ⟨p, hp, hstray⟩, -⟩
    have hmem : p ∈ a.map .text ++ .redirection ['|'] target tail :: rest.map .text :=
      heq ▸ List.mem_append_left back hp
    rcases List.mem_append.1 hmem with hmem | hmem
    · exact not_isStray_map_text ha hmem hstray
    · rcases List.mem_cons.1 hmem with rfl | hmem
      · exact hstray
      · exact not_isStray_map_text (h.plain_rest hb) hmem hstray

/-- A pipe without a target stays in the line. -/
theorem GetRedirection_pipe_of_not (ha : Plain a) (hb : Plain b) (h : ¬ HasTarget b) :
    GetRedirection (a ++ '|' :: b) = some ⟨a ++ '|' :: b, [], [], [], false⟩ := by
  have hpipe : Reads ('|' :: b) (('|' :: b).map .text) := by
    refine .text (fun hc => absurd hc (by decide)) ?_ (reads_plain hb)
    intro token htoken s' heq hs
    simp only [tokens, List.mem_cons, List.not_mem_nil, or_false] at htoken
    rcases htoken with rfl | rfl | rfl | rfl | rfl
    · exact absurd (List.cons.inj heq).1 (by decide)
    · exact absurd (List.cons.inj heq).1 (by decide)
    · exact h ((List.cons.inj heq).2 ▸ hs)
    · exact absurd (List.cons.inj heq).1 (by decide)
    · exact absurd (List.cons.inj heq).1 (by decide)
  have hreads : Reads (a ++ '|' :: b) ((a ++ '|' :: b).map .text) := by
    rw [List.map_append]
    exact .plain_append ha hpipe
  rw [hreads.GetRedirection_eq, foldl_text]
  · rfl
  · rintro ⟨front, back, heq, -, q, hq, hmatch⟩
    exact absurd hmatch (not_isMatch_map_text (heq ▸ List.mem_append_right front hq))

/-! ## Two stages -/

/-- One word that does not end in a colon, and white space around it. -/
def OneWord (b : List Char) : Prop :=
  ∃ ws word tail, Operand b ws word tail [] ∧ word.getLast? ≠ some ':'

theorem stripColon_of_ne (h : target.getLast? ≠ some ':') : stripColon target = target :=
  if_neg h

theorem nonspace_stripColon (h : target.getLast? = some ':') :
    nonspace target = nonspace (stripColon target) ++ [':'] := by
  obtain ⟨front, rfl⟩ := List.getLast?_eq_some_iff.1 h
  rw [stripColon, if_pos h, List.dropLast_concat, nonspace_append]
  rfl

/-- What follows the target goes to the first command, and is not white space. -/
theorem Operand.rest_eq_nil (h : Operand b ws target tail rest)
    (heq : nonspace (a ++ rest) = nonspace a) : rest = [] := by
  cases rest with
  | nil => rfl
  | cons c rest =>
    have hlen := congrArg List.length heq
    rw [nonspace_append, List.length_append] at hlen
    have hnil : nonspace (c :: rest) = [] := List.eq_nil_of_length_eq_zero (by omega)
    exact absurd (nonspace_eq_nil_iff.1 hnil c List.mem_cons_self) (h.rest c rfl)

theorem Operand.nonspace_eq (h : Operand b ws target tail rest) :
    nonspace b = nonspace target ++ nonspace rest := by
  rw [h.eq, nonspace_append, nonspace_append, nonspace_append, nonspace_eq_nil_iff.2 h.ws,
    nonspace_eq_nil_iff.2 h.tail, List.nil_append, List.nil_append]

theorem Operand.trim_eq (h : Operand b ws target tail []) : trim b = trim target := by
  rw [h.eq, List.append_nil, trim_spaces h.ws h.tail]

/-- **One pipe.** The first half is the command and the second half the target, up to white
space, exactly when the second half is one word and does not end in a colon. -/
theorem GetRedirection_pipe_iff (ha : Plain a) (hb : Plain b) :
    (∃ r, GetRedirection (a ++ '|' :: b) = some r ∧ trim r.processed_line = trim a ∧
      trim r.pipe_target = trim b) ↔ OneWord b := by
  constructor
  · rintro ⟨r, hr, hline, hpipe⟩
    by_cases htarget : HasTarget b
    · obtain ⟨ws, target, tail, rest, hop⟩ := htarget.exists_operand
      rw [GetRedirection_pipe ha hb hop] at hr
      obtain rfl := Option.some.inj hr
      obtain rfl := hop.rest_eq_nil (nonspace_eq_of_trim_eq hline)
      refine ⟨ws, target, tail, hop, fun hcolon => ?_⟩
      have hlen := congrArg List.length (nonspace_eq_of_trim_eq hpipe)
      rw [hop.nonspace_eq, nonspace_stripColon hcolon] at hlen
      simp [nonspace] at hlen
    · rw [GetRedirection_pipe_of_not ha hb htarget] at hr
      obtain rfl := Option.some.inj hr
      have hlen := congrArg List.length (nonspace_eq_of_trim_eq hline)
      rw [nonspace_append, List.length_append, nonspace_cons (by decide), List.length_cons] at hlen
      omega
  · rintro ⟨ws, word, tail, hop, hcolon⟩
    refine ⟨_, GetRedirection_pipe ha hb hop, congrArg trim (List.append_nil a), ?_⟩
    rw [stripColon_of_ne hcolon, hop.trim_eq]

/-! ## The stages of a line -/

/-- Stages with `|` between them. -/
def pipeline (first : List Char) : List (List Char) → List Char
  | [] => first
  | b :: rest => first ++ '|' :: pipeline b rest

/-- The commands that were written: the stages up to white space. A leading `@` is blanked, for
the first stage where it starts the line, for the others where it starts the command. -/
def stageCommands (first : List Char) (rest : List (List Char)) : List (List Char) :=
  trim (blankAt first) :: rest.map fun b => trim (blankAt (trim b))

theorem plain_blankAt (ha : Plain a) : Plain (blankAt a) := by
  intro c hc
  rcases mem_blankAt hc with rfl | hc
  · decide
  · exact ha c hc

theorem plain_trim (ha : Plain a) : Plain (trim a) := fun c hc => ha c (mem_trim hc)

theorem plain_ltrim (ha : Plain a) : Plain (ltrim a) := fun c hc =>
  ha c ((List.dropWhile_suffix isspace).subset hc)

theorem plain_rtrim (ha : Plain a) : Plain (rtrim a) := fun c hc =>
  ha c ((List.rdropWhile_prefix isspace a).subset hc)

theorem blankAt_append (ha : a ≠ []) : blankAt (a ++ t) = blankAt a ++ t := by
  obtain ⟨c, l, rfl⟩ := List.exists_cons_of_ne_nil ha
  rw [List.cons_append, blankAt, blankAt]
  split <;> rfl

/-- The line of two stages, as it is read. -/
theorem trim_pair (a b : List Char) :
    trim (blankAt (a ++ '|' :: b)) = ltrim (blankAt a) ++ '|' :: rtrim b := by
  have hblank : blankAt (a ++ '|' :: b) = blankAt a ++ '|' :: b := by
    cases a with
    | nil => rfl
    | cons c a => exact blankAt_append (List.cons_ne_nil c a)
  rw [hblank, trim, rtrim_append_cons (by decide), ltrim_append_cons (by decide)]

section Stages

variable {σ : Type*} {dos : Dos σ} {st : σ}

theorem commands_plain (ha : Plain a) : commands dos a st = [trim (blankAt a)] :=
  commands_of_ran (GetRedirection_plain (plain_trim (plain_blankAt ha)))
    (runFirst_ran_of_in_file rfl) rfl

theorem Operand.trim_target (h : Operand (rtrim b) ws target tail []) : trim target = target := by
  have hlast : ∀ hne : rtrim b ≠ [], ¬ isspace ((rtrim b).getLast hne) :=
    List.rdropWhile_eq_self_iff.1 (rtrim_rtrim b)
  obtain rfl : tail = [] := by
    by_contra htail
    have hne : rtrim b ≠ [] := by
      rw [h.eq]
      simp [htail]
    refine hlast hne ?_
    simp only [h.eq, List.append_nil]
    rw [List.getLast_append_of_ne_nil _ (by simp [htail]), List.getLast_append_of_ne_nil _ htail]
    exact h.tail _ (List.getLast_mem htail)
  have hend : ¬ isspace (target.getLast h.ne_nil) := by
    have hne : rtrim b ≠ [] := by
      rw [h.eq]
      simp [h.ne_nil]
    have hspace := hlast hne
    simp only [h.eq, List.append_nil] at hspace
    rwa [List.getLast_append_of_ne_nil _ h.ne_nil] at hspace
  have hright : rtrim target = target := List.rdropWhile_eq_self_iff.2 fun _ => hend
  obtain ⟨t, ts, rfl⟩ := List.exists_cons_of_ne_nil h.ne_nil
  have ht : ¬ isspace t := by
    -- A target that starts with white space is that one character.
    intro ht
    cases ts with
    | nil => exact hend ht
    | cons u us =>
      refine h.last t (u :: us) rfl ht (hasTarget_cons_iff.2 (.inl ?_))
      exact h.target u (List.mem_cons_of_mem t List.mem_cons_self)
  rw [trim, hright, ltrim, List.dropWhile_cons_of_neg ht]

theorem GetRedirection_pair (ha : Plain a) (hb : Plain b)
    (h : Operand (rtrim b) ws target tail rest) :
    GetRedirection (trim (blankAt (a ++ '|' :: b))) =
      some ⟨ltrim (blankAt a) ++ rest, [], [], stripColon target, false⟩ := by
  rw [trim_pair]
  exact GetRedirection_pipe (plain_ltrim (plain_blankAt ha)) (plain_rtrim hb) h

theorem plain_sublist (hb : Plain b) (hs : s.Sublist b) : Plain s := fun c hc =>
  hb c (hs.subset hc)

theorem Operand.sublist (h : Operand b ws target tail rest) : (stripColon target).Sublist b := by
  refine (stripColon_sublist target).trans ?_
  rw [h.eq]
  exact (List.sublist_append_left target _).trans (List.sublist_append_right ws _)

/-- Two stages with a target: the first command, and the target if the pipe's file can be read. -/
theorem commands_pair (ha : Plain a) (hb : Plain b) (hlen : b.length < CMD_MAXLINE)
    (h : Operand (rtrim b) ws target tail rest) (hne : stripColon target ≠ []) :
    commands dos (a ++ '|' :: b) st = (ltrim (blankAt a) ++ rest) ::
      (pipeState dos ⟨ltrim (blankAt a) ++ rest, [], [], stripColon target, false⟩ st).elim []
        fun _ => [trim (blankAt (stripColon target))] := by
  have hsub : (stripColon target).Sublist b :=
    h.sublist.trans (List.rdropWhile_prefix isspace b).sublist
  have hfits : truncate CMD_MAXLINE (stripColon target) = stripColon target :=
    List.take_of_length_le (by have := hsub.length_le; omega)
  rw [commands_of_pipe (GetRedirection_pair ha hb h) (runFirst_ran_of_in_file rfl) hne, hfits]
  cases pipeState dos ⟨ltrim (blankAt a) ++ rest, [], [], stripColon target, false⟩ st with
  | none => rfl
  | some s => exact congrArg _ (commands_plain (plain_sublist hb hsub))

theorem nonspace_blankAt_concat (ha : a ≠ []) :
    nonspace (blankAt (a ++ [':'])) = nonspace (blankAt a) ++ [':'] := by
  rw [blankAt_append ha, nonspace_append]
  rfl

/-- Two stages run as written when the second one is one word without a colon at its end and the
pipe's file can be read. -/
theorem commands_pair_iff (ha : Plain a) (hb : Plain b) (hlen : b.length < CMD_MAXLINE) :
    (commands dos (a ++ '|' :: b) st).map trim = stageCommands a [b] ↔
      OneWord (rtrim b) ∧
      (pipeState dos ⟨ltrim (blankAt a), [], [], trim b, false⟩ st).isSome := by
  have hfirst : trim (ltrim (blankAt a)) = trim (blankAt a) := trim_ltrim _
  constructor
  · intro heq
    have hcount := congrArg List.length heq
    rw [stageCommands, List.length_map, List.length_cons, List.length_map,
      List.length_singleton] at hcount
    by_cases htarget : HasTarget (rtrim b)
    · obtain ⟨ws, target, tail, rest, hop⟩ := htarget.exists_operand
      have hpair := GetRedirection_pair ha hb hop
      by_cases hne : stripColon target = []
      · rw [commands_of_ran hpair (runFirst_ran_of_in_file rfl) hne, List.length_singleton]
          at hcount
        omega
      · rw [commands_pair ha hb hlen hop hne] at heq hcount
        cases hpipe : pipeState dos ⟨ltrim (blankAt a) ++ rest, [], [], stripColon target, false⟩
            st with
        | none =>
          rw [hpipe, List.length_cons] at hcount
          simp at hcount
        | some s =>
          rw [hpipe, Option.elim_some, stageCommands, List.map_cons, List.map_cons, List.map_nil,
            List.map_cons, List.map_nil, List.cons.injEq, List.cons.injEq, trim_trim] at heq
          obtain ⟨hline, hsecond, -⟩ := heq
          -- What is left over from the second stage would be in the first command.
          obtain rfl := hop.rest_eq_nil (nonspace_eq_of_trim_eq (hline.trans hfirst.symm))
          have hword : trim b = target := by
            rw [← trim_rtrim, hop.trim_eq, hop.trim_target]
          have hcolon : target.getLast? ≠ some ':' := by
            intro hcolon
            obtain ⟨front, rfl⟩ := List.getLast?_eq_some_iff.1 hcolon
            rw [stripColon, if_pos hcolon, List.dropLast_concat] at hsecond hne
            have hchars := congrArg List.length (nonspace_eq_of_trim_eq hsecond)
            rw [hword, nonspace_blankAt_concat hne, List.length_append,
              List.length_singleton] at hchars
            omega
          rw [stripColon_of_ne hcolon, List.append_nil] at hpipe
          exact ⟨⟨ws, target, tail, hop, hcolon⟩, by rw [hword, hpipe]; rfl⟩
    · have hnone : GetRedirection (trim (blankAt (a ++ '|' :: b))) =
          some ⟨ltrim (blankAt a) ++ '|' :: rtrim b, [], [], [], false⟩ := by
        rw [trim_pair]
        exact GetRedirection_pipe_of_not (plain_ltrim (plain_blankAt ha)) (plain_rtrim hb) htarget
      rw [commands_of_ran hnone (runFirst_ran_of_in_file rfl) rfl, List.length_singleton] at hcount
      omega
  · rintro ⟨⟨ws, word, tail, hop, hcolon⟩, hpipe⟩
    have hword : trim b = word := by rw [← trim_rtrim, hop.trim_eq, hop.trim_target]
    have hstrip := stripColon_of_ne hcolon
    obtain ⟨s, hs⟩ := Option.isSome_iff_exists.1 hpipe
    rw [hword] at hs
    have hne : stripColon word ≠ [] := by
      rw [hstrip]
      exact hop.ne_nil
    rw [commands_pair ha hb hlen hop hne, hstrip, List.append_nil, hs,
      Option.elim_some, stageCommands, List.map_cons, List.map_cons, List.map_nil, List.map_cons,
      List.map_nil, hfirst, trim_trim, hword]

/-- **Pipelines.** One pipe is split into a command and a target exactly when the target is one
word without a colon at its end. The stages of a line are the commands that are run exactly when
there is one stage, or there are two, the second is such a word and the pipe's file can be
read. -/
theorem pipelines_iff (dos : Dos σ) (st : σ) :
    (∀ a b, Plain a → Plain b →
      ((∃ r, GetRedirection (a ++ '|' :: b) = some r ∧ trim r.processed_line = trim a ∧
        trim r.pipe_target = trim b) ↔ OneWord b)) ∧
    ∀ first rest, (∀ stage ∈ first :: rest, Plain stage) →
      (pipeline first rest).length < CMD_MAXLINE →
      ((commands dos (pipeline first rest) st).map trim = stageCommands first rest ↔
        rest = [] ∨ ∃ b, rest = [b] ∧ OneWord (rtrim b) ∧
          (pipeState dos ⟨ltrim (blankAt first), [], [], trim b, false⟩ st).isSome) := by
  refine ⟨fun a b ha hb => GetRedirection_pipe_iff ha hb, fun first rest hplain hlen => ?_⟩
  obtain ⟨hfirst, hrest⟩ := List.forall_mem_cons.1 hplain
  match rest, hrest, hlen with
  | [], _, _ =>
    refine iff_of_true ?_ (.inl rfl)
    rw [pipeline, commands_plain hfirst, List.map_singleton, trim_trim]
    rfl
  | [b], hrest, hlen =>
    have hb := hrest b (List.mem_singleton_self b)
    rw [pipeline, pipeline, List.length_append, List.length_cons] at hlen
    rw [pipeline, pipeline, commands_pair_iff hfirst hb (by omega)]
    constructor
    · exact fun h => .inr ⟨b, rfl, h⟩
    · rintro (hnil | ⟨c, hc, h⟩)
      · exact absurd hnil (List.cons_ne_nil b [])
      · obtain rfl := (List.cons.inj hc).1
        exact h
  | b :: c :: rest, _, _ =>
    refine iff_of_false (fun heq => ?_) ?_
    · have hcount := congrArg List.length heq
      have htwo : (commands dos (pipeline first (b :: c :: rest)) st).length ≤ 2 :=
        length_commands_le
      rw [List.length_map] at hcount
      rw [hcount] at htwo
      simp [stageCommands] at htwo
    · rintro (hnil | ⟨d, hd, -⟩)
      · exact absurd hnil (List.cons_ne_nil b _)
      · exact absurd (List.cons.inj hd).2 (List.cons_ne_nil c rest)

end Stages

/-- A machine on which every call succeeds. -/
def obliging : Dos Unit where
  GetFileHandle _ _ := 0
  SetFileHandle _ _ _ := ()
  GetFileAttr _ _ := (none, ())
  OpenFile _ _ _ := (some 5, ())
  CreateFile _ _ := (some 5, ())
  SeekEnd _ _ := ()
  CloseFile _ _ := ()
  FindFirst _ _ := (false, ())
  UnlinkFile _ _ := (true, ())
  accessDenied _ := false
  setAccessDenied _ := ()
  drive _ _ := true
  GetEnvironmentValue _ _ := none
  tickRandomNumber _ := 7
  WriteOut _ _ := ()
  DoCommand _ _ := ()

/-- Two stages that run as written. -/
theorem pipelines_sort : (commands obliging (pipeline "dir ".toList [" sort".toList]) ()).map trim =
    ["dir".toList, "sort".toList] := by
  have hword : OneWord (rtrim " sort".toList) := by
    refine ⟨" ".toList, "sort".toList, [], ⟨rfl, List.all_eq_true.1 (by decide), ?_, by decide,
      List.all_eq_true.1 (by decide), by simp, by simp, by simp⟩, by decide⟩
    rintro t ts heq ht
    obtain ⟨rfl, rfl⟩ := List.cons.inj heq
    exact absurd ht (by decide)
  have hplain : ∀ stage ∈ ["dir ".toList, " sort".toList], Plain stage := by
    simp [Plain, isRedirection]
  exact ((pipelines_iff obliging ()).2 "dir ".toList [" sort".toList] hplain (by decide)).2
    (.inr ⟨" sort".toList, rfl, hword, rfl⟩)

/-- The argument of the second stage goes to the first. -/
theorem argument_moves :
    GetRedirection "dir | sort /r".toList =
      some ⟨"dir /r".toList, [], [], "sort".toList, false⟩ ∧
    ¬ ∃ r, GetRedirection "dir | sort /r".toList = some r ∧
      trim r.processed_line = trim "dir ".toList ∧ trim r.pipe_target = trim " sort /r".toList := by
  have hr : GetRedirection "dir | sort /r".toList =
      some ⟨"dir /r".toList, [], [], "sort".toList, false⟩ := by decide
  refine ⟨hr, ?_⟩
  rintro ⟨r, hr', hline, -⟩
  obtain rfl := Option.some.inj (hr.symm.trans hr')
  exact absurd hline (by decide)

end Shell

end AugraDosbox
