import Mathlib.Data.List.Induction
import AugraDosbox.Shell.Redirection

/-!
# What a command line redirects

The results of `GetRedirection` for every line, in terms of its reading.

* `out_file_foldl`, `is_appending_foldl` — the last output names the file, the last redirection
  of either direction decides whether it is appended to;
* **`append_follows_output_iff`** — when that is the output's own decision;
* `unquoted` — the text outside of double quotes, and `Reads.clean_foldl`, `Reads.length_foldl`
  — what is left of the line;
* **`syntaxErrors_iff`** — for which lines a stray redirection character is recognised.
-/

namespace AugraDosbox

namespace Shell

variable {p : Piece} {ps : List Piece} {line s t : List Char} {r : RedirectionResults} {c : Char}

/-! ## The output and its mode -/

/-- The first character of a redirection's token. -/
def Piece.operator : Piece → Option Char
  | .redirection token _ _ => token.head?
  | _ => none

/-- The target of a redirection, without its colon. -/
def Piece.file : Piece → List Char
  | .redirection _ target _ => stripColon target
  | _ => []

/-- `<<` or `>>`. -/
def Piece.isDoubled : Piece → Bool
  | .redirection token _ _ => decide (token = ['<', '<'] ∨ token = ['>', '>'])
  | _ => false

def Piece.isOutput (p : Piece) : Bool := p.operator == some '>'

def Piece.isPipe (p : Piece) : Bool := p.operator == some '|'

/-- An input or an output. -/
def Piece.isFile (p : Piece) : Bool := p.operator == some '<' || p.operator == some '>'

/-- The last piece of a kind. -/
def lastOf (kind : Piece → Bool) (ps : List Piece) : Option Piece := (ps.filter kind).getLast?

theorem lastOf_append {kind : Piece → Bool} :
    lastOf kind (ps ++ [p]) = if kind p then some p else lastOf kind ps := by
  rw [lastOf, List.filter_append, List.filter_cons, List.filter_nil]
  split
  · exact List.getLast?_concat
  · rw [List.append_nil, lastOf]

theorem lastOf_kind {kind : Piece → Bool} (h : lastOf kind ps = some p) : kind p :=
  (List.mem_filter.1 (List.mem_of_getLast? h)).2

theorem out_file_apply :
    (p.apply r).out_file = if p.isOutput then p.file else r.out_file := by
  cases p with
  | text c => rfl
  | quoted s => rfl
  | redirection token target tail =>
    rw [Piece.apply, redirect, Piece.isOutput, Piece.operator]
    split
    · next h => rw [h]; rfl
    · next h => rw [h]; rfl
    · next h => rw [h]; rfl
    · next hout _ => rw [if_neg (by simpa using hout)]

theorem pipe_target_apply :
    (p.apply r).pipe_target = if p.isPipe then p.file else r.pipe_target := by
  cases p with
  | text c => rfl
  | quoted s => rfl
  | redirection token target tail =>
    rw [Piece.apply, redirect, Piece.isPipe, Piece.operator]
    split
    · next h => rw [h]; rfl
    · next h => rw [h]; rfl
    · next h => rw [h]; rfl
    · next hpipe => rw [if_neg (by simpa using hpipe)]

theorem is_appending_apply :
    (p.apply r).is_appending = if p.isFile then p.isDoubled else r.is_appending := by
  cases p with
  | text c => rfl
  | quoted s => rfl
  | redirection token target tail =>
    rw [Piece.apply, redirect, Piece.isFile, Piece.operator]
    -- A doubled token of the other direction has another first character.
    split
    · next h =>
      rw [h, Piece.isDoubled]
      exact decide_eq_decide.2 (or_iff_left (by rintro rfl; exact absurd h (by decide))).symm
    · next h =>
      rw [h, Piece.isDoubled]
      exact decide_eq_decide.2 (or_iff_right (by rintro rfl; exact absurd h (by decide))).symm
    · next h => rw [h]; rfl
    · next hin hout _ => rw [if_neg (by simpa using ⟨hin, hout⟩)]

theorem out_file_foldl :
    (ps.foldl Piece.apply r).out_file = (lastOf Piece.isOutput ps).elim r.out_file Piece.file := by
  induction ps using List.reverseRecOn with
  | nil => rfl
  | append_singleton ps p ih =>
    rw [List.foldl_append, List.foldl_cons, List.foldl_nil, out_file_apply, lastOf_append]
    split
    · rfl
    · exact ih

theorem pipe_target_foldl : (ps.foldl Piece.apply r).pipe_target =
    (lastOf Piece.isPipe ps).elim r.pipe_target Piece.file := by
  induction ps using List.reverseRecOn with
  | nil => rfl
  | append_singleton ps p ih =>
    rw [List.foldl_append, List.foldl_cons, List.foldl_nil, pipe_target_apply, lastOf_append]
    split
    · rfl
    · exact ih

theorem is_appending_foldl : (ps.foldl Piece.apply r).is_appending =
    (lastOf Piece.isFile ps).elim r.is_appending Piece.isDoubled := by
  induction ps using List.reverseRecOn with
  | nil => rfl
  | append_singleton ps p ih =>
    rw [List.foldl_append, List.foldl_cons, List.foldl_nil, is_appending_apply, lastOf_append]
    split
    · rfl
    · exact ih

/-- An output is a redirection, and doubled when its token is `>>`. -/
theorem exists_of_isOutput (h : p.isOutput) : ∃ token target tail,
    p = .redirection token target tail ∧ (p.isDoubled ↔ token = ['>', '>']) := by
  cases p with
  | text c => exact absurd h Bool.false_ne_true
  | quoted s => exact absurd h Bool.false_ne_true
  | redirection token target tail =>
    refine ⟨token, target, tail, rfl, ?_⟩
    rw [Piece.isDoubled, decide_eq_true_iff]
    refine or_iff_right ?_
    rintro rfl
    exact absurd h (by simp [Piece.isOutput, Piece.operator])

theorem lastOf_isFile (h : lastOf Piece.isOutput ps = some p) :
    ∃ q, lastOf Piece.isFile ps = some q := by
  have hmem := List.mem_filter.1 (List.mem_of_getLast? h)
  have hfile : p.isFile := by
    rw [Piece.isFile, Bool.or_eq_true]
    exact .inr hmem.2
  have hne : ps.filter Piece.isFile ≠ [] :=
    List.ne_nil_of_mem (List.mem_filter.2 ⟨hmem.1, hfile⟩)
  exact ⟨_, List.getLast?_eq_some_getLast hne⟩

/-- **The mode of the output.** On every line with an output, the file is the one of the last
output, and it is appended to exactly when that output is a `>>`, if and only if the last
redirection to or from a file is doubled like the last output. -/
theorem append_follows_output_iff (h : Reads line ps) (hr : GetRedirection line = some r)
    (hout : r.out_file ≠ []) :
    (∃ token target tail,
      lastOf Piece.isOutput ps = some (.redirection token target tail) ∧
      r.out_file = stripColon target ∧ (r.is_appending ↔ token = ['>', '>'])) ↔
    ∀ p q, lastOf Piece.isFile ps = some p → lastOf Piece.isOutput ps = some q →
      p.isDoubled = q.isDoubled := by
  obtain rfl := h.eq_foldl hr
  have hfile : (ps.foldl Piece.apply .empty).out_file = (lastOf Piece.isOutput ps).elim [] _ :=
    out_file_foldl
  have hmode : (ps.foldl Piece.apply .empty).is_appending =
      (lastOf Piece.isFile ps).elim false Piece.isDoubled := is_appending_foldl
  cases hlast : lastOf Piece.isOutput ps with
  | none =>
    rw [hlast] at hfile
    exact absurd hfile hout
  | some q =>
    obtain ⟨p, hp⟩ := lastOf_isFile hlast
    obtain ⟨token, target, tail, rfl, hdoubled⟩ := exists_of_isOutput (lastOf_kind hlast)
    rw [hlast] at hfile
    rw [hp] at hmode
    rw [hp, hfile, hmode]
    constructor
    · rintro ⟨token', target', tail', heq, -, hiff⟩ a b ha hb
      obtain rfl := Option.some.inj ha
      obtain rfl := Option.some.inj hb
      obtain ⟨rfl, rfl, rfl⟩ := Piece.redirection.inj (Option.some.inj heq)
      exact Bool.eq_iff_iff.2 (hiff.trans hdoubled.symm)
    · intro hall
      refine ⟨token, target, tail, rfl, rfl, ?_⟩
      rw [Option.elim_some, hall p _ rfl rfl]
      exact hdoubled

/-- An output behind an input. -/
theorem append_follows_output_input : ∃ token target tail,
    lastOf Piece.isOutput (pieces "echo x < in >> out".toList) =
      some (.redirection token target tail) ∧
    "out".toList = stripColon target ∧ (true ↔ token = ['>', '>']) := by
  refine (append_follows_output_iff
    (r := ⟨"echo x ".toList, "in".toList, "out".toList, [], true⟩)
    (reads_pieces "echo x < in >> out".toList) (by decide) (by decide)).2 ?_
  have hlast : lastOf Piece.isOutput (pieces "echo x < in >> out".toList) =
      lastOf Piece.isFile (pieces "echo x < in >> out".toList) := by decide
  rintro p q hp hq
  rw [Option.some.inj (hp.symm.trans (hlast.symm.trans hq))]

/-- The same redirections the other way round: the file is overwritten. -/
theorem appendBeforeInput_overwrites :
    GetRedirection "echo x >> out < in".toList =
      some ⟨"echo x  ".toList, "in".toList, "out".toList, [], false⟩ ∧
    ¬ ∃ token target tail,
      lastOf Piece.isOutput (pieces "echo x >> out < in".toList) =
        some (.redirection token target tail) ∧
      "out".toList = stripColon target ∧ (false ↔ token = ['>', '>']) := by
  refine ⟨by decide, ?_⟩
  have hlast : lastOf Piece.isOutput (pieces "echo x >> out < in".toList) =
      some (.redirection ['>', '>'] "out".toList " ".toList) := by decide
  rintro ⟨token, target, tail, hout, -, hmode⟩
  obtain ⟨rfl, -, -⟩ := Piece.redirection.inj (Option.some.inj (hout.symm.trans hlast))
  exact absurd (hmode.2 rfl) (by decide)

/-! ## The pipe -/

variable {tail : List Char}

theorem Reads.length_target {token target : List Char} (h : Reads line ps)
    (hp : .redirection token target tail ∈ ps) : target.length < line.length := by
  induction h with
  | nil => exact absurd hp List.not_mem_nil
  | text hquote htoken h ih =>
    exact (ih ((List.mem_cons.1 hp).resolve_left Piece.noConfusion)).trans (Nat.lt_succ_self _)
  | @quoted body ws rest ps hbody hws hrest h ih =>
    have hlt := ih ((List.mem_cons.1 hp).resolve_left Piece.noConfusion)
    simp only [List.length_cons, List.length_append]
    omega
  | @redirection token' s ws target' tail' rest ps htoken hop h ih =>
    have hpos := List.length_pos_iff.2 (token_ne_nil htoken)
    rw [hop.eq]
    simp only [List.length_append]
    rcases List.mem_cons.1 hp with heq | hp
    · obtain ⟨-, rfl, -⟩ := Piece.redirection.inj heq
      omega
    · have hlt := ih hp
      omega

theorem Reads.isTarget {token target : List Char} (h : Reads line ps)
    (hp : .redirection token target tail ∈ ps) : ∀ c ∈ target, isTarget c := by
  induction h with
  | nil => exact absurd hp List.not_mem_nil
  | text hquote htoken h ih => exact ih ((List.mem_cons.1 hp).resolve_left Piece.noConfusion)
  | quoted hbody hws hrest h ih => exact ih ((List.mem_cons.1 hp).resolve_left Piece.noConfusion)
  | redirection htoken hop h ih =>
    rcases List.mem_cons.1 hp with heq | hp
    · obtain ⟨-, rfl, -⟩ := Piece.redirection.inj heq
      exact hop.target
    · exact ih hp

theorem stripColon_sublist (target : List Char) : (stripColon target).Sublist target := by
  rw [stripColon]
  split
  · exact List.dropLast_sublist target
  · exact List.Sublist.refl target

/-- The pipe's target is one of the line's. -/
theorem exists_of_pipe_target (hr : GetRedirection line = some r) (hne : r.pipe_target ≠ []) :
    ∃ token target tail, .redirection token target tail ∈ pieces line ∧
      r.pipe_target.Sublist target := by
  rw [(reads_pieces line).eq_foldl hr] at hne ⊢
  rw [pipe_target_foldl] at hne ⊢
  cases hlast : lastOf Piece.isPipe (pieces line) with
  | none =>
    rw [hlast] at hne
    exact absurd rfl hne
  | some p =>
    have hmem := (List.mem_filter.1 (List.mem_of_getLast? hlast)).1
    rw [Option.elim_some]
    cases p with
    | text c => exact absurd (lastOf_kind hlast) Bool.false_ne_true
    | quoted s => exact absurd (lastOf_kind hlast) Bool.false_ne_true
    | redirection token target tail =>
      exact ⟨token, target, tail, hmem, stripColon_sublist target⟩

theorem length_pipe_target (hr : GetRedirection line = some r) (hne : r.pipe_target ≠ []) :
    r.pipe_target.length < line.length := by
  obtain ⟨token, target, tail, hmem, hsub⟩ := exists_of_pipe_target hr hne
  exact hsub.length_le.trans_lt ((reads_pieces line).length_target hmem)

/-- There is no redirection in the pipe's target. -/
theorem isTarget_pipe_target (hr : GetRedirection line = some r) (hne : r.pipe_target ≠ []) :
    ∀ c ∈ r.pipe_target, isTarget c := by
  obtain ⟨token, target, tail, hmem, hsub⟩ := exists_of_pipe_target hr hne
  exact fun c hc => (reads_pieces line).isTarget hmem c (hsub.subset hc)

/-! ## Text outside of double quotes -/

/-- The text outside of double quotes, from inside of some or from outside. A quote that is not
closed is text. -/
def unquotedFrom : (inside : Bool) → List Char → List Char
  | _, [] => []
  | true, c :: s => unquotedFrom (c != '"') s
  | false, c :: s =>
      if c = '"' ∧ '"' ∈ s then unquotedFrom true s else c :: unquotedFrom false s

/-- The text outside of double quotes. -/
def unquoted (s : List Char) : List Char := unquotedFrom false s

/-- Behind closed quotes the text starts afresh. -/
theorem unquotedFrom_append {b : Bool} (h : s.count '"' % 2 = if b then 1 else 0) :
    unquotedFrom b (s ++ t) = unquotedFrom b s ++ unquotedFrom false t := by
  induction s generalizing b with
  | nil =>
    cases b with
    | false => rfl
    | true => exact absurd h (by simp)
  | cons c s ih =>
    rw [List.count_cons] at h
    cases b with
    | true =>
      rw [List.cons_append, unquotedFrom, unquotedFrom]
      refine ih ?_
      by_cases hc : c = '"' <;> simp [hc] at h ⊢ <;> omega
    | false =>
      rw [List.cons_append, unquotedFrom, unquotedFrom]
      by_cases hc : c = '"'
      · have hcount : 0 < s.count '"' := by
          simp [hc] at h
          omega
        have hmem : '"' ∈ s := List.count_pos_iff.1 hcount
        rw [if_pos ⟨hc, List.mem_append_left t hmem⟩, if_pos ⟨hc, hmem⟩]
        refine ih ?_
        simp [hc] at h ⊢
        omega
      · rw [if_neg fun hq => hc hq.1, if_neg fun hq => hc hq.1, List.cons_append]
        refine congrArg (c :: ·) (ih ?_)
        simpa [hc] using h

/-- Text without quotes changes nothing in front of it. -/
theorem unquotedFrom_append_of_notMem {b : Bool} (ht : '"' ∉ t) (hs : b → '"' ∈ s) :
    unquotedFrom b (s ++ t) = unquotedFrom b s ++ t := by
  induction s generalizing b with
  | nil =>
    cases b with
    | true => exact absurd (hs rfl) List.not_mem_nil
    | false =>
      clear hs
      rw [List.nil_append, unquotedFrom, List.nil_append]
      induction t with
      | nil => rfl
      | cons c t ih =>
        obtain ⟨hc, ht⟩ := List.ne_and_not_mem_of_not_mem_cons ht
        rw [unquotedFrom, if_neg fun hq => hc hq.1.symm, ih ht]
  | cons c s ih =>
    cases b with
    | true =>
      rw [List.cons_append, unquotedFrom, unquotedFrom]
      refine ih fun hc => ?_
      exact (List.mem_cons.1 (hs rfl)).resolve_left fun heq => by simp [← heq] at hc
    | false =>
      have hmem : '"' ∈ s ++ t ↔ '"' ∈ s := by
        rw [List.mem_append, or_iff_left ht]
      rw [List.cons_append, unquotedFrom, unquotedFrom]
      simp only [hmem]
      split
      · next hq => exact ih fun _ => hq.2
      · rw [ih fun hb => absurd hb Bool.false_ne_true, List.cons_append]

theorem unquoted_append_of_notMem (ht : '"' ∉ t) : unquoted (s ++ t) = unquoted s ++ t :=
  unquotedFrom_append_of_notMem ht fun h => absurd h Bool.false_ne_true

theorem unquoted_of_notMem (ht : '"' ∉ t) : unquoted t = t := unquoted_append_of_notMem (s := []) ht

/-- Only the white space behind a quoted text is outside of it. -/
theorem unquoted_quoted {body ws : List Char} (hbody : '"' ∉ body) (hws : '"' ∉ ws) :
    unquoted ('"' :: (body ++ '"' :: ws)) = ws := by
  have hinside : ∀ l : List Char, '"' ∉ l →
      unquotedFrom true (l ++ '"' :: ws) = unquotedFrom false ws := by
    intro l hl
    induction l with
    | nil => rfl
    | cons c l ih =>
      obtain ⟨hc, hl⟩ := List.ne_and_not_mem_of_not_mem_cons hl
      rw [List.cons_append, unquotedFrom, bne_iff_ne.2 hc.symm]
      exact ih hl
  rw [unquoted, unquotedFrom, if_pos ⟨rfl, by simp⟩, hinside body hbody]
  exact unquoted_of_notMem hws

/-! ## Syntax errors -/

theorem quote_notMem_of_isspace {ws : List Char} (h : ∀ w ∈ ws, isspace w) : '"' ∉ ws := fun hw =>
  absurd (h _ hw) (by decide)

theorem not_isRedirection_of_isspace (h : isspace c) : ¬ isRedirection c := by
  intro hc
  simp only [isRedirection, Bool.or_eq_true, beq_iff_eq] at hc
  rcases hc with (rfl | rfl) | rfl <;> exact absurd h (by decide)

/-- What is kept while a line is read: the quotes are closed as long as there are more to come,
and no redirection character is outside of them. -/
structure Clean (s line : List Char) : Prop where
  closed : '"' ∈ line → s.count '"' % 2 = 0
  plain : ∀ c ∈ unquoted s, ¬ isRedirection c

theorem Clean.append_spaces {rest : List Char} (h : Clean s line) (ht : ∀ w ∈ t, isspace w)
    (hrest : '"' ∈ rest → '"' ∈ line) : Clean (s ++ t) rest := by
  have hquote := quote_notMem_of_isspace ht
  refine ⟨fun hmem => ?_, fun c hc => ?_⟩
  · rw [List.count_append, List.count_eq_zero.2 hquote]
    exact h.closed (hrest hmem)
  · rw [unquoted_append_of_notMem hquote, List.mem_append] at hc
    exact hc.elim (h.plain c) fun hc => not_isRedirection_of_isspace (ht c hc)

/-- What a redirection leaves in the line. -/
theorem exists_spaces_redirect (token target : List Char) (htail : ∀ w ∈ tail, isspace w) :
    ∃ t, (redirect token target tail r).processed_line = r.processed_line ++ t ∧
      (∀ w ∈ t, isspace w) ∧ t.length ≤ tail.length + 1 := by
  rw [redirect]
  split
  · exact ⟨[], (List.append_nil _).symm, by simp, by simp⟩
  · refine ⟨r.separator ++ tail, List.append_assoc .., ?_, ?_⟩
    · intro w hw
      rcases List.mem_append.1 hw with hw | hw
      · rw [RedirectionResults.separator] at hw
        split at hw
        · rw [List.mem_singleton.1 hw]
          rfl
        · exact absurd hw List.not_mem_nil
      · exact htail w hw
    · have hsep : r.separator.length ≤ 1 := by
        rw [RedirectionResults.separator]
        split <;> simp
      rw [List.length_append]
      omega
  · exact ⟨[], (List.append_nil _).symm, by simp, by simp⟩
  · exact ⟨[], (List.append_nil _).symm, by simp, by simp⟩

theorem Reads.clean_foldl (h : Reads line ps) (hps : ∀ p ∈ ps, ¬ p.IsStray)
    (hr : Clean r.processed_line line) :
    ∀ c ∈ unquoted (ps.foldl Piece.apply r).processed_line, ¬ isRedirection c := by
  induction h generalizing r with
  | nil => exact hr.plain
  | @text c s ps hquote htoken h ih =>
    obtain ⟨hc, hps⟩ := List.forall_mem_cons.1 hps
    refine ih hps ?_
    rw [Piece.apply, RedirectionResults.append]
    by_cases heq : c = '"'
    · -- The quote stays open, and none is left to close it.
      subst heq
      refine ⟨fun hmem => absurd hmem (hquote rfl), fun c hc' => ?_⟩
      rw [unquoted, unquotedFrom_append (by
        simpa using hr.closed List.mem_cons_self), List.mem_append] at hc'
      rcases hc' with hc' | hc'
      · exact hr.plain c hc'
      · rw [List.mem_singleton.1 (show c ∈ ['"'] from hc')]
        exact hc
    · have hmem : '"' ∉ [c] := fun hmem => heq (List.mem_singleton.1 hmem).symm
      refine ⟨fun hs => ?_, fun d hd => ?_⟩
      · rw [List.count_append, List.count_eq_zero.2 hmem]
        exact hr.closed (List.mem_cons_of_mem c hs)
      · rw [unquoted_append_of_notMem hmem, List.mem_append] at hd
        rcases hd with hd | hd
        · exact hr.plain d hd
        · rw [List.mem_singleton.1 hd]
          exact hc
  | @quoted body ws rest ps hbody hws hrest h ih =>
    refine ih (List.forall_mem_cons.1 hps).2 ?_
    rw [Piece.apply, RedirectionResults.append]
    have hclosed := hr.closed List.mem_cons_self
    have hspaces := quote_notMem_of_isspace hws
    refine ⟨fun _ => ?_, fun c hc => ?_⟩
    · have hcount : ('"' :: (body ++ '"' :: ws)).count '"' = 2 := by
        rw [List.count_cons_self, List.count_append, List.count_cons_self,
          List.count_eq_zero.2 hbody, List.count_eq_zero.2 hspaces]
      rw [List.count_append, hcount]
      omega
    · rw [unquoted, unquotedFrom_append (by simpa using hclosed), List.mem_append, ← unquoted,
        ← unquoted, unquoted_quoted hbody hspaces] at hc
      rcases hc with hc | hc
      · exact hr.plain c hc
      · exact not_isRedirection_of_isspace (hws c hc)
  | @redirection token s ws target tail rest ps htoken hop h ih =>
    refine ih (List.forall_mem_cons.1 hps).2 ?_
    obtain ⟨t, hline, ht, -⟩ :=
      exists_spaces_redirect (r := r) token (stripColon target) hop.tail
    rw [Piece.apply, hline]
    refine hr.append_spaces ht fun hmem => ?_
    rw [hop.eq]
    simp [hmem]

theorem Reads.length_foldl (h : Reads line ps) : (ps.foldl Piece.apply r).processed_line.length ≤
    r.processed_line.length + line.length := by
  induction h generalizing r with
  | nil => exact Nat.le_refl _
  | @text c s ps hquote htoken h ih =>
    have hnext := ih (r := r.append [c])
    rw [RedirectionResults.append, List.length_append] at hnext
    rw [List.foldl_cons, Piece.apply, List.length_cons]
    exact hnext.trans (by simp; omega)
  | @quoted body ws rest ps hbody hws hrest h ih =>
    have hnext := ih (r := r.append ('"' :: (body ++ '"' :: ws)))
    rw [RedirectionResults.append, List.length_append] at hnext
    rw [List.foldl_cons, Piece.apply]
    refine hnext.trans ?_
    simp only [List.length_cons, List.length_append]
    omega
  | @redirection token s ws target tail rest ps htoken hop h ih =>
    obtain ⟨t, hline, -, hlen⟩ :=
      exists_spaces_redirect (r := r) token (stripColon target) hop.tail
    have hnext := ih (r := redirect token (stripColon target) tail r)
    rw [hline, List.length_append] at hnext
    have htoken' := List.length_pos_iff.2 (token_ne_nil htoken)
    rw [List.foldl_cons, Piece.apply, hop.eq]
    refine hnext.trans ?_
    simp only [List.length_append]
    omega

/-- **Syntax errors.** A line has no result exactly when a redirection character outside of
quotes is not part of a token with a target, and a result has none of them left outside of its
quotes and fits into the line, if and only if a line with such a character has a match behind
one. -/
theorem syntaxErrors_iff (h : Reads line ps) :
    ((GetRedirection line = none ↔ ∃ p ∈ ps, p.IsStray) ∧
      ∀ r, GetRedirection line = some r →
        (∀ c ∈ unquoted r.processed_line, ¬ isRedirection c) ∧
        r.processed_line.length ≤ line.length) ↔
    ((∃ p ∈ ps, p.IsStray) → StrayBeforeMatch ps) := by
  rw [h.GetRedirection_eq_none_iff]
  have hstray : StrayBeforeMatch ps → ∃ p ∈ ps, p.IsStray := by
    rintro ⟨front, back, rfl, ⟨p, hp, hstray⟩, -⟩
    exact ⟨p, List.mem_append_left _ hp, hstray⟩
  constructor
  · rintro ⟨hiff, -⟩
    exact hiff.2
  · intro hcond
    refine ⟨⟨hstray, hcond⟩, fun r hr => ?_⟩
    have hnone : ¬ ∃ p ∈ ps, p.IsStray := fun hex => by
      rw [h.GetRedirection_eq_none_iff.2 (hcond hex)] at hr
      exact absurd hr.symm (Option.some_ne_none r)
    obtain rfl := h.eq_foldl hr
    refine ⟨h.clean_foldl (fun p hp hs => hnone ⟨p, hp, hs⟩) ⟨fun _ => rfl, by simp [unquoted,
      unquotedFrom, RedirectionResults.empty]⟩, ?_⟩
    have hlen := h.length_foldl (r := .empty)
    rwa [show RedirectionResults.empty.processed_line.length = 0 from rfl, Nat.zero_add] at hlen

/-- A pipe into a command behind quoted text. -/
theorem syntaxErrors_pipe : (GetRedirection "echo \"a>b\" | more".toList = none ↔
      ∃ p ∈ pieces "echo \"a>b\" | more".toList, p.IsStray) ∧
    ∀ r, GetRedirection "echo \"a>b\" | more".toList = some r →
      (∀ c ∈ unquoted r.processed_line, ¬ isRedirection c) ∧
      r.processed_line.length ≤ "echo \"a>b\" | more".toList.length :=
  (syntaxErrors_iff (reads_pieces "echo \"a>b\" | more".toList)).2
    fun hex => absurd hex (by decide)

/-- A line that ends in a token without a target. -/
theorem trailingToken_accepted :
    GetRedirection "echo >".toList = some ⟨"echo >".toList, [], [], [], false⟩ ∧
    ¬ (GetRedirection "echo >".toList = none ↔ ∃ p ∈ pieces "echo >".toList, p.IsStray) ∧
    '>' ∈ unquoted "echo >".toList := by decide

end Shell

end AugraDosbox
