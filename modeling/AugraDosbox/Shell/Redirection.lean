import AugraDosbox.Lib.Regex

/-!
# Redirections on a command line

`DOS_Shell::GetRedirection` cuts a command line with a regular expression into quoted text,
redirections and what stands between them. Lines are lists of characters.

* `re`, `GetRedirection` — the expression and the loop over its matches;
* `Operand`, `Reads` — what the expression finds, in terms of the line alone: every line can be
  read in one way (`exists_reads`, `Reads.tokens_eq`);
* **`Reads.GetRedirection_eq`** — the loop, over the pieces of the line.
-/

namespace AugraDosbox

namespace Shell

open Regex

/-- `isspace` in the "C" locale, which is what `\s` stands for. -/
def isspace (c : Char) : Bool := c == ' ' || (9 ≤ c.toNat && c.toNat ≤ 13)

/-- The class `[<>|]`. -/
def isRedirection (c : Char) : Bool := c == '<' || c == '>' || c == '|'

/-- The class `[^<>| ]`. -/
def isTarget (c : Char) : Bool := !(isRedirection c || c == ' ')

/-! ## The regular expression -/

/-- Double-quoted text: `("[^"]*"\s*)`. -/
def quotedText : Regex Char :=
  .seq (.one (· == '"')) (.seq (.many (· != '"')) (.seq (.one (· == '"')) (.many isspace)))

/-- `[<>|]|>>|<<`, where the single characters are tried first. -/
def tokenText : Regex Char :=
  .alt (.one isRedirection)
    (.alt (.seq (.one (· == '>')) (.one (· == '>'))) (.seq (.one (· == '<')) (.one (· == '<'))))

/-- `([^<>| ]+)(\s*)`. -/
def targetText : Regex Char :=
  .seq (.group 3 (.seq (.one isTarget) (.many isTarget))) (.group 4 (.many isspace))

/-- `\s*([^<>| ]+)(\s*)`. -/
def operandText : Regex Char := .seq (.many isspace) targetText

/-- The expression that splits the line into quoted and redirection groups. -/
def re : Regex Char := .alt (.group 1 quotedText) (.seq (.group 2 tokenText) operandText)

/-! ## The loop over the matches -/

structure RedirectionResults where
  processed_line : List Char
  in_file : List Char
  out_file : List Char
  pipe_target : List Char
  is_appending : Bool
  deriving DecidableEq, Repr

/-- `RedirectionResults results = {}`. -/
def RedirectionResults.empty : RedirectionResults := ⟨[], [], [], [], false⟩

/-- Appends to `processed_line`. -/
def RedirectionResults.append (r : RedirectionResults) (s : List Char) : RedirectionResults :=
  { r with processed_line := r.processed_line ++ s }

/-- Strips the colon that a target may end in. -/
def stripColon (target : List Char) : List Char :=
  if target.getLast? = some ':' then target.dropLast else target

/-- The space that stands for an earlier output. -/
def RedirectionResults.separator (r : RedirectionResults) : List Char :=
  if r.out_file ≠ [] ∧ r.processed_line ≠ [] ∧ r.processed_line.getLast? ≠ some ' ' then [' ']
  else []

/-- Processes a redirection based on the token's first character. -/
def redirect (token target tail : List Char) (r : RedirectionResults) : RedirectionResults :=
  match token.head? with
  | some '<' => { r with in_file := target, is_appending := decide (token = ['<', '<']) }
  | some '>' =>
      { r with
        out_file := target
        is_appending := decide (token = ['>', '>'])
        processed_line := r.processed_line ++ r.separator ++ tail }
  | some '|' => { r with pipe_target := target }
  | _ => r

/-- The body of the loop, behind the check of the text in front of the match. -/
def applyMatch (m : Match Char) (r : RedirectionResults) : RedirectionResults :=
  let r := match m.get? 1 with
    | some text => r.append text
    | none => r
  match m.get? 2 with
  | some token => redirect token (stripColon ((m.get? 3).getD [])) ((m.get? 4).getD []) r
  | none => r

/-- The loop. `pre` is the text between `pre_match_end` and the piece that comes next: it is
checked in front of a match, and appended without a check at the end of the line. -/
def redirectionLoop : List (Regex.Piece Char) → (pre : List Char) → RedirectionResults →
    Option RedirectionResults
  | [], pre, r => some (r.append pre)
  | .lone c :: ps, pre, r => redirectionLoop ps (pre ++ [c]) r
  | .hit m :: ps, pre, r =>
      if pre.any isRedirection then none
      else redirectionLoop ps [] (applyMatch m (r.append pre))

/-- `DOS_Shell::GetRedirection`. -/
def GetRedirection (line : List Char) : Option RedirectionResults :=
  redirectionLoop (re.pieces line) [] .empty

example : GetRedirection "echo 1>out1:>>out2:".toList =
    some ⟨"echo 1 ".toList, [], "out2".toList, [], true⟩ := by decide

example : GetRedirection "dir<<<|||||in.txt".toList = none := by decide

/-! ## What the expression finds -/

/-- A target character after optional white space. -/
def HasTarget (s : List Char) : Prop :=
  ∃ ws c rest, s = ws ++ c :: rest ∧ (∀ w ∈ ws, isspace w) ∧ isTarget c

/-- `s` is white space, a target, its tail and the rest of the line. The white space in front is
as long as it can be: it gives back a character only when that is the last one to be a target. -/
structure Operand (s ws target tail rest : List Char) : Prop where
  eq : s = ws ++ (target ++ (tail ++ rest))
  ws : ∀ w ∈ ws, isspace w
  last : ∀ t ts, target = t :: ts → isspace t → ¬ HasTarget (ts ++ (tail ++ rest))
  ne_nil : target ≠ []
  target : ∀ c ∈ target, isTarget c
  stop : ∀ c ∈ (tail ++ rest).head?, ¬ isTarget c
  tail : ∀ w ∈ tail, isspace w
  rest : ∀ c ∈ rest.head?, ¬ isspace c

section Finds

variable {s ws target tail rest body token : List Char} {a c : Char}

theorem not_hasTarget_nil : ¬ HasTarget [] := by
  rintro ⟨ws, c, rest, heq, -, -⟩
  exact absurd heq.symm (by simp)

theorem hasTarget_cons_iff : HasTarget (a :: s) ↔ isTarget a ∨ isspace a ∧ HasTarget s := by
  constructor
  · rintro ⟨ws, c, rest, heq, hws, hc⟩
    cases ws with
    | nil =>
      obtain ⟨rfl, rfl⟩ := List.cons.inj heq
      exact .inl hc
    | cons w ws =>
      obtain ⟨rfl, rfl⟩ := List.cons.inj heq
      obtain ⟨hw, hws⟩ := List.forall_mem_cons.1 hws
      exact .inr ⟨hw, ws, c, rest, rfl, hws, hc⟩
  · rintro (ha | ⟨ha, ws, c, rest, rfl, hws, hc⟩)
    · exact ⟨[], a, s, rfl, by simp, ha⟩
    · exact ⟨a :: ws, c, rest, rfl, List.forall_mem_cons.2 ⟨ha, hws⟩, hc⟩

instance decidableHasTarget : ∀ s, Decidable (HasTarget s)
  | [] => isFalse not_hasTarget_nil
  | _ :: s => have := decidableHasTarget s; decidable_of_iff _ hasTarget_cons_iff.symm

theorem takeWhile_append_of {p : Char → Bool} {l m : List Char} (hl : ∀ a ∈ l, p a)
    (hm : ∀ a ∈ m.head?, ¬ p a) : (l ++ m).takeWhile p = l ∧ (l ++ m).dropWhile p = m := by
  have htake : m.takeWhile p = [] := by
    cases m with
    | nil => rfl
    | cons a m => rw [List.takeWhile_cons_of_neg (hm a rfl)]
  have hdrop : m.dropWhile p = m := by
    cases m with
    | nil => rfl
    | cons a m => rw [List.dropWhile_cons_of_neg (hm a rfl)]
  exact ⟨by rw [List.takeWhile_append_of_pos hl, htake, List.append_nil],
    by rw [List.dropWhile_append_of_pos hl, hdrop]⟩

theorem head?_dropWhile_not {p : Char → Bool} {l : List Char} :
    ∀ a ∈ (l.dropWhile p).head?, ¬ p a := by
  intro a ha hp
  have := List.head?_dropWhile_not p l
  rw [Option.mem_def.1 ha] at this
  simp [hp] at this

theorem HasTarget.exists_operand (h : HasTarget s) :
    ∃ ws target tail rest, Operand s ws target tail rest := by
  induction s with
  | nil => exact absurd h not_hasTarget_nil
  | cons a s ih =>
    by_cases hlater : isspace a ∧ HasTarget s
    · obtain ⟨ws, target, tail, rest, hop⟩ := ih hlater.2
      exact ⟨a :: ws, target, tail, rest,
        { hop with eq := congrArg (a :: ·) hop.eq
                   ws := List.forall_mem_cons.2 ⟨hlater.1, hop.ws⟩ }⟩
    · have ha : isTarget a := (hasTarget_cons_iff.1 h).resolve_right hlater
      have hsplit : s.takeWhile isTarget ++ ((s.dropWhile isTarget).takeWhile isspace ++
          (s.dropWhile isTarget).dropWhile isspace) = s := by
        rw [List.takeWhile_append_dropWhile, List.takeWhile_append_dropWhile]
      refine ⟨[], a :: s.takeWhile isTarget, (s.dropWhile isTarget).takeWhile isspace,
        (s.dropWhile isTarget).dropWhile isspace, ?_, by simp, ?_, by simp, ?_, ?_, ?_, ?_⟩
      · rw [List.nil_append, List.cons_append, hsplit]
      · rintro t ts heq ht
        obtain ⟨rfl, rfl⟩ := List.cons.inj heq
        rw [hsplit]
        exact fun hs => hlater ⟨ht, hs⟩
      · exact List.forall_mem_cons.2 ⟨ha, fun c hc => List.mem_takeWhile_imp hc⟩
      · rw [List.takeWhile_append_dropWhile]
        exact head?_dropWhile_not
      · exact fun w hw => List.mem_takeWhile_imp hw
      · exact head?_dropWhile_not

theorem targetText_exec (hne : target ≠ []) (htarget : ∀ c ∈ target, isTarget c)
    (hstop : ∀ c ∈ (tail ++ rest).head?, ¬ isTarget c) (htail : ∀ w ∈ tail, isspace w)
    (hrest : ∀ c ∈ rest.head?, ¬ isspace c) :
    targetText.exec (target ++ (tail ++ rest)) =
      some ⟨target ++ tail, [(3, target), (4, tail)], rest⟩ := by
  obtain ⟨t, ts, rfl⟩ := List.exists_cons_of_ne_nil hne
  obtain ⟨ht, hts⟩ := List.forall_mem_cons.1 htarget
  obtain ⟨htake, hdrop⟩ := takeWhile_append_of hts hstop
  obtain ⟨htake', hdrop'⟩ := takeWhile_append_of htail hrest
  have hfirst : (Regex.group 3 (.seq (.one isTarget) (.many isTarget))).exec
      (t :: ts ++ (tail ++ rest)) = some ⟨t :: ts, [(3, t :: ts)], tail ++ rest⟩ := by
    rw [exec_group, List.cons_append, exec_one_seq ht, exec_many, htake, hdrop]
    rfl
  have hsecond : (Regex.group 4 (.many isspace)).exec (tail ++ rest) =
      some ⟨tail, [(4, tail)], rest⟩ := by
    rw [exec_group, exec_many, htake', hdrop']
    rfl
  exact exec_seq_of_some hfirst hsecond

theorem targetText_exec_eq_none (h : ∀ c ∈ s.head?, ¬ isTarget c) : targetText.exec s = none := by
  refine exec_seq_of_nil ?_
  cases s with
  | nil => rfl
  | cons a s => simp [run_group, run_seq, h a rfl]

theorem operandText_exec_eq_none (h : ¬ HasTarget s) : operandText.exec s = none := by
  induction s with
  | nil => rfl
  | cons a s ih =>
    rw [hasTarget_cons_iff, not_or] at h
    have htarget : targetText.exec (a :: s) = none :=
      targetText_exec_eq_none fun c hc => Option.some.inj hc ▸ h.1
    rw [operandText]
    by_cases ha : isspace a
    · rw [exec_many_seq_cons ha, ← operandText, ih fun hs => h.2 ⟨ha, hs⟩, htarget]
      rfl
    · rw [exec_many_seq_of_not fun c hc => Option.some.inj hc ▸ ha, htarget]

/-- The white space gives back its last character when nothing else can be the target. -/
theorem Operand.exec (h : Operand s ws target tail rest) : operandText.exec s =
    some ⟨ws ++ (target ++ tail), [(3, target), (4, tail)], rest⟩ := by
  have htext := targetText_exec h.ne_nil h.target h.stop h.tail h.rest
  obtain ⟨rfl, hws, hlast, hne⟩ := h
  clear * - hws hlast hne htext
  rw [operandText]
  induction ws with
  | nil =>
    obtain ⟨t, ts, rfl⟩ := List.exists_cons_of_ne_nil hne
    by_cases ht : isspace t
    · rw [List.nil_append, List.cons_append, exec_many_seq_cons ht, ← operandText,
        operandText_exec_eq_none (hlast t ts rfl ht), ← List.cons_append, htext]
      rfl
    · rw [List.nil_append, exec_many_seq_of_not fun c hc => Option.some.inj hc ▸ ht, htext]
      rfl
  | cons w ws ih =>
    obtain ⟨hw, hws⟩ := List.forall_mem_cons.1 hws
    rw [List.cons_append, exec_many_seq_cons hw, ih hws]
    rfl

/-! ## Reading a line -/

/-- The redirection tokens. -/
def tokens : List (List Char) := [['<'], ['>'], ['|'], ['<', '<'], ['>', '>']]

/-- A piece of a line. -/
inductive Piece where
  | text (c : Char)
  | quoted (s : List Char)
  | redirection (token target tail : List Char)
  deriving DecidableEq, Repr

/-- A line is read from the left: double-quoted text with the white space behind it, a token
with its target, and any other character for itself. A quote inside a target belongs to the
target. -/
inductive Reads : List Char → List Piece → Prop
  | nil : Reads [] []
  | quoted {body ws rest : List Char} {ps : List Piece} (hbody : '"' ∉ body)
      (hws : ∀ w ∈ ws, isspace w) (hrest : ∀ c ∈ rest.head?, ¬ isspace c) (h : Reads rest ps) :
      Reads ('"' :: (body ++ '"' :: (ws ++ rest))) (.quoted ('"' :: (body ++ '"' :: ws)) :: ps)
  | redirection {token s ws target tail rest : List Char} {ps : List Piece}
      (htoken : token ∈ tokens) (hop : Operand s ws target tail rest) (h : Reads rest ps) :
      Reads (token ++ s) (.redirection token target tail :: ps)
  | text {c : Char} {s : List Char} {ps : List Piece} (hquote : c = '"' → '"' ∉ s)
      (htoken : ∀ token ∈ tokens, ∀ s', c :: s = token ++ s' → ¬ HasTarget s')
      (h : Reads s ps) : Reads (c :: s) (.text c :: ps)

theorem exists_reads (line : List Char) : ∃ ps, Reads line ps := by
  induction hn : line.length using Nat.strong_induction_on generalizing line with
  | h n ih =>
  subst hn
  cases line with
  | nil => exact ⟨_, .nil⟩
  | cons c s =>
    by_cases hquote : c = '"' ∧ '"' ∈ s
    · obtain ⟨rfl, hmem⟩ := hquote
      obtain ⟨body, after, rfl, hbody⟩ := List.eq_append_cons_of_mem hmem
      obtain ⟨ps, hps⟩ := ih (after.dropWhile isspace).length (by
        have := (List.dropWhile_suffix (l := after) isspace).length_le
        simp only [List.length_cons, List.length_append]
        omega) _ rfl
      have hws : ∀ w ∈ after.takeWhile isspace, isspace w := fun w hw =>
        List.mem_takeWhile_imp hw
      have hread := Reads.quoted hbody hws head?_dropWhile_not hps
      rw [List.takeWhile_append_dropWhile] at hread
      exact ⟨_, hread⟩
    · by_cases htoken : ∃ token ∈ tokens, ∃ s', c :: s = token ++ s' ∧ HasTarget s'
      · obtain ⟨token, htoken, s', heq, htarget⟩ := htoken
        obtain ⟨ws, target, tail, rest, hop⟩ := htarget.exists_operand
        have hlen : 0 < token.length := by
          have hall : ∀ token ∈ tokens, 0 < token.length := by decide
          exact hall token htoken
        obtain ⟨ps, hps⟩ := ih rest.length (by
          rw [heq, hop.eq]
          simp only [List.length_append]
          omega) _ rfl
        exact ⟨_, heq ▸ Reads.redirection htoken hop hps⟩
      · obtain ⟨ps, hps⟩ := ih s.length (Nat.lt_succ_self _) s rfl
        refine ⟨_, .text (fun hc hs => hquote ⟨hc, hs⟩) ?_ hps⟩
        exact fun token htok s' heq hs => htoken ⟨token, htok, s', heq, hs⟩

/-! ## The expression reads the line -/

theorem quotedText_exec (hbody : '"' ∉ body) (hws : ∀ w ∈ ws, isspace w)
    (hrest : ∀ c ∈ rest.head?, ¬ isspace c) :
    quotedText.exec ('"' :: (body ++ '"' :: (ws ++ rest))) =
      some ⟨'"' :: (body ++ '"' :: ws), [], rest⟩ := by
  have hinside : ∀ c ∈ body, c != '"' := fun c hc =>
    bne_iff_ne.2 fun heq => hbody (heq ▸ hc)
  obtain ⟨htake, hdrop⟩ := takeWhile_append_of (m := '"' :: (ws ++ rest)) hinside (by simp)
  obtain ⟨htake', hdrop'⟩ := takeWhile_append_of hws hrest
  have hclose : (Regex.seq (.one (· == '"')) (.many isspace)).exec ('"' :: (ws ++ rest)) =
      some ⟨'"' :: ws, [], rest⟩ := by
    rw [exec_one_seq (by simp), exec_many, htake', hdrop']
    rfl
  have hopen : (Regex.many (· != '"')).exec (body ++ '"' :: (ws ++ rest)) =
      some ⟨body, [], '"' :: (ws ++ rest)⟩ := by rw [exec_many, htake, hdrop]
  rw [quotedText, exec_one_seq (by simp), exec_seq_of_some hopen hclose]
  rfl

theorem quotedText_exec_eq_none (h : c = '"' → '"' ∉ s) : quotedText.exec (c :: s) = none := by
  rw [quotedText]
  by_cases hc : c = '"'
  · have hs := h hc
    rw [exec_one_seq (by simp [hc]), Option.map_eq_none_iff]
    clear h
    -- Wherever the repetition gives up, no quote follows.
    induction s with
    | nil => rfl
    | cons a s ih =>
      obtain ⟨ha, hs⟩ := List.ne_and_not_mem_of_not_mem_cons hs
      rw [exec_many_seq_cons (by simpa using ha.symm), ih hs,
        exec_one_seq_of_not (by simpa using ha.symm)]
      rfl
  · exact exec_one_seq_of_not (by simpa using hc)

/-- The match of a redirection. -/
def redirectionMatch (token ws target tail rest : List Char) : Match Char :=
  ⟨token ++ (ws ++ (target ++ tail)), [(2, token), (3, target), (4, tail)], rest⟩

theorem quotedText_exec_token (htoken : token ∈ tokens) :
    quotedText.exec (token ++ s) = none := by
  have hall : ∀ token ∈ tokens, token.head? ≠ none ∧ token.head? ≠ some '"' := by decide
  obtain ⟨hne, hquote⟩ := hall token htoken
  cases token with
  | nil => exact absurd rfl hne
  | cons c token => exact quotedText_exec_eq_none fun hc => absurd (congrArg some hc) hquote

theorem not_hasTarget_of_isRedirection (h : isRedirection c) : ¬ HasTarget (c :: s) := by
  rw [hasTarget_cons_iff]
  rintro (hc | ⟨hc, -⟩)
  · simp [isTarget, h] at hc
  · simp only [isRedirection, Bool.or_eq_true, beq_iff_eq] at h
    rcases h with (rfl | rfl) | rfl <;> exact absurd hc (by decide)

theorem re_exec_redirection (htoken : token ∈ tokens) (hop : Operand s ws target tail rest) :
    re.exec (token ++ s) = some (redirectionMatch token ws target tail rest) := by
  rw [re, exec_alt, exec_group, quotedText_exec_token htoken, Option.map_none, Option.none_or]
  have hexec := hop.exec
  -- A doubled token is the second try: no target follows its first character.
  have hdouble : ∀ c, isRedirection c → operandText.exec (c :: s) = none := fun c hc =>
    operandText_exec_eq_none (not_hasTarget_of_isRedirection hc)
  simp only [tokens, List.mem_cons, List.not_mem_nil, or_false] at htoken
  rcases htoken with rfl | rfl | rfl | rfl | rfl
  · exact exec_seq_of_some (m := ⟨['<'], [(2, ['<'])], s⟩) rfl hexec
  · exact exec_seq_of_some (m := ⟨['>'], [(2, ['>'])], s⟩) rfl hexec
  · exact exec_seq_of_some (m := ⟨['|'], [(2, ['|'])], s⟩) rfl hexec
  · have hrun : (Regex.group 2 tokenText).run ('<' :: '<' :: s) =
        [⟨['<'], [(2, ['<'])], '<' :: s⟩, ⟨['<', '<'], [(2, ['<', '<'])], s⟩] := rfl
    rw [List.cons_append, List.cons_append, List.nil_append, exec_seq_eq_findSome?, hrun,
      List.findSome?_cons, hdouble '<' rfl, Option.map_none, List.findSome?_singleton, hexec]
    rfl
  · have hrun : (Regex.group 2 tokenText).run ('>' :: '>' :: s) =
        [⟨['>'], [(2, ['>'])], '>' :: s⟩, ⟨['>', '>'], [(2, ['>', '>'])], s⟩] := rfl
    rw [List.cons_append, List.cons_append, List.nil_append, exec_seq_eq_findSome?, hrun,
      List.findSome?_cons, hdouble '>' rfl, Option.map_none, List.findSome?_singleton, hexec]
    rfl

theorem text_mem_tokens {m : Match Char} (h : m ∈ tokenText.run s) : m.text ∈ tokens := by
  have hpair : ∀ a, m ∈ (Regex.seq (.one (· == a)) (.one (· == a))).run s → m.text = [a, a] := by
    intro a h
    obtain ⟨n, hn, k, hk, rfl⟩ := mem_run_seq.1 h
    obtain ⟨b, hb, hntext⟩ := mem_run_one hn
    obtain ⟨c, hc, hktext⟩ := mem_run_one hk
    rw [Match.andThen, hntext, hktext, beq_iff_eq.1 hb, beq_iff_eq.1 hc]
    rfl
  rcases List.mem_append.1 h with h | h
  · obtain ⟨a, ha, htext⟩ := mem_run_one h
    simp only [isRedirection, Bool.or_eq_true, beq_iff_eq] at ha
    rcases ha with (rfl | rfl) | rfl <;> rw [htext] <;> decide
  · rcases List.mem_append.1 h with h | h
    · rw [hpair _ h]
      decide
    · rw [hpair _ h]
      decide

theorem re_exec_eq_none (hquote : c = '"' → '"' ∉ s)
    (htoken : ∀ token ∈ tokens, ∀ s', c :: s = token ++ s' → ¬ HasTarget s') :
    re.exec (c :: s) = none := by
  rw [re, exec_alt, exec_group, quotedText_exec_eq_none hquote, Option.map_none, Option.none_or]
  refine exec_seq_eq_none fun m hm => operandText_exec_eq_none ?_
  -- Every try of the token takes one of `tokens`.
  obtain ⟨n, hn, rfl⟩ := List.mem_map.1 hm
  exact htoken n.text (text_mem_tokens hn) n.rest (run_append hn).symm

theorem re_exec_quoted (hbody : '"' ∉ body) (hws : ∀ w ∈ ws, isspace w)
    (hrest : ∀ c ∈ rest.head?, ¬ isspace c) :
    re.exec ('"' :: (body ++ '"' :: (ws ++ rest))) =
      some ⟨'"' :: (body ++ '"' :: ws), [(1, '"' :: (body ++ '"' :: ws))], rest⟩ := by
  rw [re, exec_alt, exec_group, quotedText_exec hbody hws hrest]
  rfl

/-- What the groups of a match say. -/
def pieceOf : Regex.Piece Char → Piece
  | .lone c => .text c
  | .hit m =>
      match m.get? 1 with
      | some text => .quoted text
      | none => .redirection ((m.get? 2).getD []) ((m.get? 3).getD []) ((m.get? 4).getD [])

/-- The pieces that the expression cuts a line into. -/
def pieces (line : List Char) : List Piece := (re.pieces line).map pieceOf

/-- What a piece does to the results. -/
def Piece.apply (r : RedirectionResults) : Piece → RedirectionResults
  | .text c => r.append [c]
  | .quoted s => r.append s
  | .redirection token target tail => redirect token (stripColon target) tail r

/-- A piece that is not a single character. -/
def Piece.IsMatch : Piece → Prop
  | .text _ => False
  | _ => True

instance : DecidablePred Piece.IsMatch
  | .text _ => isFalse id
  | .quoted _ => isTrue trivial
  | .redirection _ _ _ => isTrue trivial

/-- A redirection character that is not part of a redirection. -/
def Piece.IsStray : Piece → Prop
  | .text c => isRedirection c
  | _ => False

instance : DecidablePred Piece.IsStray
  | .text c => inferInstanceAs (Decidable (isRedirection c = true))
  | .quoted _ => isFalse id
  | .redirection _ _ _ => isFalse id

theorem not_isMatch_text : ¬ (Piece.text c).IsMatch := id

theorem isMatch_quoted : (Piece.quoted s).IsMatch := trivial

theorem isMatch_redirection : (Piece.redirection token target tail).IsMatch := trivial

theorem isStray_text : (Piece.text c).IsStray ↔ isRedirection c := Iff.rfl

theorem token_ne_nil (h : token ∈ tokens) : token ≠ [] := by
  rintro rfl
  exact absurd h (by decide)

/-- The line is cut as it is read, and the loop is one over what has been read. -/
theorem Reads.pieces_eq {line : List Char} {ps : List Piece} (h : Reads line ps) :
    pieces line = ps := by
  induction h with
  | nil => rfl
  | quoted hbody hws hrest h ih =>
    rw [pieces, pieces_of_exec (re_exec_quoted hbody hws hrest) (List.cons_ne_nil _ _),
      List.map_cons, ← pieces, ih]
    rfl
  | redirection htoken hop h ih =>
    rw [pieces, pieces_of_exec (re_exec_redirection htoken hop)
      (List.append_ne_nil_of_left_ne_nil (token_ne_nil htoken) _), List.map_cons, ← pieces]
    exact congrArg _ ih
  | text hquote htoken h ih =>
    rw [pieces, pieces_cons_of_none (re_exec_eq_none hquote htoken), List.map_cons, ← pieces, ih]
    rfl

theorem reads_pieces (line : List Char) : Reads line (pieces line) := by
  obtain ⟨ps, hps⟩ := exists_reads line
  rw [hps.pieces_eq]
  exact hps

end Finds

/-! ## The loop over what has been read -/

/-- A stray character stands in front of a match. -/
def StrayBeforeMatch (ps : List Piece) : Prop :=
  ∃ front back, ps = front ++ back ∧ (∃ p ∈ front, p.IsStray) ∧ ∃ q ∈ back, q.IsMatch

section Loop

variable {p : Piece} {ps : List Piece} {line pre : List Char} {c : Char}

theorem not_strayBeforeMatch_nil : ¬ StrayBeforeMatch [] := by
  rintro ⟨front, back, heq, -, q, hq, -⟩
  rw [(List.append_eq_nil_iff.1 heq.symm).2] at hq
  exact absurd hq List.not_mem_nil

theorem strayBeforeMatch_cons_iff : StrayBeforeMatch (p :: ps) ↔
    (p.IsStray ∧ ∃ q ∈ ps, q.IsMatch) ∨ StrayBeforeMatch ps := by
  constructor
  · rintro ⟨front, back, heq, ⟨q, hq, hstray⟩, hback⟩
    cases front with
    | nil => exact absurd hq List.not_mem_nil
    | cons a front =>
      obtain ⟨rfl, rfl⟩ := List.cons.inj heq
      rcases List.mem_cons.1 hq with rfl | hq
      · obtain ⟨k, hk, hmatch⟩ := hback
        exact .inl ⟨hstray, k, List.mem_append_right _ hk, hmatch⟩
      · exact .inr ⟨front, back, rfl, ⟨q, hq, hstray⟩, hback⟩
  · rintro (⟨hstray, hmatch⟩ | ⟨front, back, rfl, ⟨q, hq, hstray⟩, hback⟩)
    · exact ⟨[p], ps, rfl, ⟨p, List.mem_singleton_self p, hstray⟩, hmatch⟩
    · exact ⟨p :: front, back, rfl, ⟨q, List.mem_cons_of_mem _ hq, hstray⟩, hback⟩

/-- The loop ends early: a stray character in the text so far or in what follows, and a match
behind it. -/
def Blocked (pre : List Char) (ps : List Piece) : Prop :=
  (pre.any isRedirection ∧ ∃ q ∈ ps, q.IsMatch) ∨ StrayBeforeMatch ps

theorem exists_isMatch_text :
    (∃ q ∈ Piece.text c :: ps, q.IsMatch) ↔ ∃ q ∈ ps, q.IsMatch := by
  simp only [List.mem_cons, or_and_right, exists_or, exists_eq_left, not_isMatch_text, false_or]

theorem blocked_text_iff : Blocked pre (.text c :: ps) ↔ Blocked (pre ++ [c]) ps := by
  rw [Blocked, Blocked, strayBeforeMatch_cons_iff, exists_isMatch_text, isStray_text,
    List.any_append, List.any_cons, List.any_nil, Bool.or_false, Bool.or_eq_true, or_and_right,
    or_assoc]

theorem blocked_match_iff (hp : p.IsMatch) :
    Blocked pre (p :: ps) ↔ pre.any isRedirection ∨ Blocked [] ps := by
  have hstray : ¬ p.IsStray := by cases p <;> first | exact id | exact absurd hp id
  simp only [Blocked, strayBeforeMatch_cons_iff, List.any_nil, List.mem_cons, exists_eq_or_imp, hp,
    hstray, Bool.false_eq_true, true_or, and_true, false_and, false_or]

theorem append_nil (r : RedirectionResults) : r.append [] = r := by
  rw [RedirectionResults.append, List.append_nil]

theorem append_append (r : RedirectionResults) (s t : List Char) :
    (r.append s).append t = r.append (s ++ t) := by
  rw [RedirectionResults.append, RedirectionResults.append, RedirectionResults.append,
    List.append_assoc]

/-- What the loop does is decided by the pieces, one after the other. -/
theorem Reads.loop_eq (h : Reads line ps) (pre : List Char) (r : RedirectionResults) :
    (Blocked pre ps → redirectionLoop (re.pieces line) pre r = none) ∧
    (¬ Blocked pre ps → redirectionLoop (re.pieces line) pre r =
      some (ps.foldl Piece.apply (r.append pre))) := by
  induction h generalizing pre r with
  | nil =>
    refine ⟨?_, fun _ => rfl⟩
    rintro (⟨-, q, hq, -⟩ | hstray)
    · exact absurd hq List.not_mem_nil
    · exact absurd hstray not_strayBeforeMatch_nil
  | text hquote htoken h ih =>
    rw [pieces_cons_of_none (re_exec_eq_none hquote htoken), redirectionLoop, blocked_text_iff]
    rw [List.foldl_cons, Piece.apply, append_append]
    exact ih _ r
  | @quoted body ws rest ps hbody hws hrest h ih =>
    rw [pieces_of_exec (re_exec_quoted hbody hws hrest) (List.cons_ne_nil _ _), redirectionLoop,
      blocked_match_iff isMatch_quoted]
    split
    · next hpre => exact ⟨fun _ => rfl, fun hnot => absurd (.inl hpre) hnot⟩
    · next hpre =>
      have hnext := ih [] ((r.append pre).append ('"' :: (body ++ '"' :: ws)))
      rw [append_nil] at hnext
      rw [or_iff_right hpre]
      exact hnext
  | @redirection token s ws target tail rest ps htoken hop h ih =>
    rw [pieces_of_exec (re_exec_redirection htoken hop)
      (List.append_ne_nil_of_left_ne_nil (token_ne_nil htoken) _), redirectionLoop,
      blocked_match_iff isMatch_redirection]
    split
    · next hpre => exact ⟨fun _ => rfl, fun hnot => absurd (.inl hpre) hnot⟩
    · next hpre =>
      have hnext := ih [] (redirect token (stripColon target) tail (r.append pre))
      rw [append_nil] at hnext
      rw [or_iff_right hpre]
      exact hnext

theorem blocked_nil_iff : Blocked [] ps ↔ StrayBeforeMatch ps :=
  or_iff_right (by rintro ⟨h, -⟩; exact absurd h Bool.false_ne_true)

/-- The results are those of the pieces in order, unless a stray character stands in front of a
match. -/
theorem Reads.GetRedirection_eq (h : Reads line ps) (hps : ¬ StrayBeforeMatch ps) :
    GetRedirection line = some (ps.foldl Piece.apply .empty) := by
  have hloop := (h.loop_eq [] .empty).2 (mt blocked_nil_iff.1 hps)
  rwa [append_nil] at hloop

theorem Reads.GetRedirection_eq_none_iff (h : Reads line ps) :
    GetRedirection line = none ↔ StrayBeforeMatch ps := by
  constructor
  · intro hnone
    by_contra hps
    rw [h.GetRedirection_eq hps] at hnone
    exact absurd hnone (Option.some_ne_none _)
  · exact fun hps => (h.loop_eq [] .empty).1 (blocked_nil_iff.2 hps)

theorem Reads.eq_foldl (h : Reads line ps) {r : RedirectionResults}
    (hr : GetRedirection line = some r) : r = ps.foldl Piece.apply .empty := by
  have hps : ¬ StrayBeforeMatch ps := fun hps => by
    rw [h.GetRedirection_eq_none_iff.2 hps] at hr
    exact absurd hr.symm (Option.some_ne_none r)
  rw [h.GetRedirection_eq hps] at hr
  exact (Option.some.inj hr).symm

end Loop

end Shell

end AugraDosbox
