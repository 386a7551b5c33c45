import Mathlib.Data.List.Infix
import Mathlib.Data.UInt
import AugraDosbox.Lib.StringBlock
import AugraDosbox.Dos.FatNames

/-!
# The environment of a process

`DOS_PSP::GetEnvironmentValue`, `GetAllRawEnvironmentStrings` and `SetEnvironmentValue` of
`src/dos/dos_classes.cpp`.  The loops read until they find an empty string, and get fuel for their
rounds.

* `HasEntries` — a block of `NAME=value` strings, each shorter than 1024 bytes;
* `compactLoop_spec` — the strings that stay are moved down over the ones that go;
* **`environment_laws_iff`** — after a successful set, the values are the ones that are expected
  exactly when the new string is short enough and its name is not empty;
* **`failed_set_keeps_iff`** — a set that fails keeps the strings exactly when nothing had to be
  moved.
-/

namespace AugraDosbox.Environment

open Fat StringBlock

def equalSign : UInt8 := 0x3d

def bytes_to_read : ℕ := 1024

/-- `tolower` of the C locale. -/
def tolower (c : UInt8) : UInt8 := if 0x41 ≤ c ∧ c ≤ 0x5a then c + 0x20 else c

def ciequals (a b : UInt8) : Bool := tolower a = tolower b

def iequals (a b : CString) : Bool := a.map tolower = b.map tolower

/-- The environment: memory, where the block begins, and the paragraphs that its MCB has. -/
structure Env where
  mem : ℕ → UInt8
  environment : ℕ
  mcbSize : ℕ

def MEM_StrCopy (mem : ℕ → UInt8) (pt size : ℕ) : CString := readString mem size pt

def MEM_BlockWrite (mem : ℕ → UInt8) (pt : ℕ) (data : List UInt8) : ℕ → UInt8 :=
  Transfer.store mem (fun i => pt + i) data

/-- The loop of `GetEnvironmentValue`. -/
def getLoop (mem : ℕ → UInt8) (var : CString) : ℕ → ℕ → Option (Option CString)
  | 0, _ => none
  | fuel + 1, env_read =>
      let env_string := MEM_StrCopy mem env_read bytes_to_read
      if env_string = [] then some none
      else
        let next := env_read + env_string.length + 1
        match strchr equalSign env_string with
        | none => getLoop mem var fuel next
        | some (name, value) =>
            if name.length ≠ var.length then getLoop mem var fuel next
            else if !iequals var name then getLoop mem var fuel next
            else some (some value)

def GetEnvironmentValue (fuel : ℕ) (e : Env) (var : CString) : Option (Option CString) :=
  if var = [] then some none else getLoop e.mem var fuel e.environment

def GetAllRawEnvironmentStrings (fuel : ℕ) (e : Env) : Option (List CString) :=
  readStrings e.mem bytes_to_read fuel e.environment

/-- The strings that `SetEnvironmentValue` leaves out: the ones of the variable. -/
def isEntryOf (var env_string : CString) : Bool :=
  iequals var (env_string.take var.length) &&
    env_string[var.length]? = some equalSign

/-- The loop of `SetEnvironmentValue`: the memory and `env_write`. -/
def compactLoop (var : CString) : ℕ → (ℕ → UInt8) → ℕ → ℕ → Option ((ℕ → UInt8) × ℕ)
  | 0, _, _, _ => none
  | fuel + 1, mem, env_read, env_write =>
      let env_string := MEM_StrCopy mem env_read bytes_to_read
      if env_string = [] then some (mem, env_write)
      else
        let next := env_read + env_string.length + 1
        match strchr equalSign env_string with
        | none => compactLoop var fuel mem next env_write
        | some _ =>
            if isEntryOf var env_string then compactLoop var fuel mem next env_write
            else compactLoop var fuel (MEM_BlockWrite mem env_write (env_string ++ [0])) next
              (env_write + env_string.length + 1)

/-- What `snprintf` gives with a buffer of `bytes_to_read + 1` characters. -/
def snprintfEntry (bigentry new_string : CString) : CString :=
  (bigentry ++ equalSign :: new_string).take bytes_to_read

def SetEnvironmentValue (fuel : ℕ) (e : Env) (var new_string : CString) :
    Option (Bool × Env) := do
  let envsize := e.mcbSize * 16 % 2 ^ 16
  let (mem, env_write) ← compactLoop var fuel e.mem e.environment e.environment
  if envsize ≤ env_write - e.environment + var.length + 1 + new_string.length + 2 then
    some (false, { e with mem := mem })
  else if new_string ≠ [] then
    let env_string := snprintfEntry (var.map toupper) new_string
    let mem := MEM_BlockWrite mem env_write (env_string ++ [0])
    let env_write := env_write + env_string.length + 1
    some (true, { e with mem := Function.update mem env_write 0 })
  else some (true, { e with mem := Function.update mem env_write 0 })

/-! ## Blocks of entries -/

/-- A `NAME=value` string that is shorter than 1024 bytes. -/
structure IsEntry (s : CString) : Prop where
  length_lt : s.length < bytes_to_read
  no_zero : (0 : UInt8) ∉ s
  equal : equalSign ∈ s

variable {s a b : CString} {mem : ℕ → UInt8} {env_read : ℕ}

theorem IsEntry.readable (hs : IsEntry s) : Readable bytes_to_read s :=
  ⟨List.ne_nil_of_mem hs.equal, hs.no_zero, Nat.le_of_lt hs.length_lt⟩

/-- The block of the environment is made of these entries. -/
structure HasEntries (e : Env) (entries : List CString) : Prop where
  block : Block e.mem e.environment entries
  isEntry : ∀ s ∈ entries, IsEntry s

theorem HasEntries.readable {e : Env} {entries : List CString} (h : HasEntries e entries) :
    ∀ s ∈ entries, Readable bytes_to_read s := fun s hs => (h.isEntry s hs).readable

/-- The strings that stay. -/
def kept (var : CString) (entries : List CString) : List CString :=
  entries.filter fun s => !isEntryOf var s

theorem kept_cons_of_goes {var : CString} {entries : List CString} (h : isEntryOf var s = true) :
    kept var (s :: entries) = kept var entries := by
  simp [kept, h]

theorem kept_cons_of_stays {var : CString} {entries : List CString} (h : ¬ isEntryOf var s = true) :
    kept var (s :: entries) = s :: kept var entries := by
  simp [kept, h]

/-- Behind the last string an empty one is read. -/
theorem read_of_nil (hblock : Block mem env_read []) :
    MEM_StrCopy mem env_read bytes_to_read = [] :=
  readString_of_at (s := []) hblock List.not_mem_nil (Nat.zero_le _)

/-- The first string is read as it is, and the block goes on behind it. -/
theorem read_of_cons {entries : List CString} (hblock : Block mem env_read (s :: entries))
    (hs : IsEntry s) :
    MEM_StrCopy mem env_read bytes_to_read = s ∧ Block mem (env_read + s.length + 1) entries := by
  obtain ⟨hhead, htail⟩ := at_encode_cons.1 hblock
  exact ⟨hs.readable.readString_eq hhead, htail⟩

/-- **The strings that stay are moved down**: they are at `env_write`, and no byte outside of them
has changed. -/
theorem compactLoop_spec {var : CString} {env_write : ℕ} {entries : List CString}
    (hblock : Block mem env_read entries) (hentries : ∀ s ∈ entries, IsEntry s)
    (hle : env_write ≤ env_read) :
    ∃ mem', (∀ fuel, entries.length < fuel → compactLoop var fuel mem env_read env_write =
        some (mem', env_write + (encode (kept var entries)).length)) ∧
      At mem' env_write (encode (kept var entries)) ∧
        ∀ x, x < env_write ∨ env_write + (encode (kept var entries)).length ≤ x →
          mem' x = mem x := by
  induction entries generalizing mem env_read env_write with
  | nil =>
    refine ⟨mem, fun fuel hfuel => ?_, At.nil _ _, fun _ _ => rfl⟩
    obtain ⟨fuel, rfl⟩ := Nat.exists_eq_add_of_lt hfuel
    rw [compactLoop, read_of_nil hblock]
    rfl
  | cons s entries ih =>
    have hs := hentries s List.mem_cons_self
    have hrest : ∀ s ∈ entries, IsEntry s := fun s hs => hentries s (List.mem_cons_of_mem _ hs)
    obtain ⟨hread, htail⟩ := read_of_cons hblock hs
    obtain ⟨pre, post, hstrchr⟩ := strchr_isSome hs.equal
    have hround : ∀ fuel, compactLoop var (fuel + 1) mem env_read env_write =
        if isEntryOf var s then compactLoop var fuel mem (env_read + s.length + 1) env_write
        else compactLoop var fuel (MEM_BlockWrite mem env_write (s ++ [0]))
          (env_read + s.length + 1) (env_write + s.length + 1) := by
      intro fuel
      rw [compactLoop, hread, if_neg hs.readable.ne_nil, hstrchr]
    have hfuel : ∀ fuel, (s :: entries).length < fuel → ∃ n, fuel = n + 1 ∧ entries.length < n := by
      intro fuel hlt
      rw [List.length_cons] at hlt
      exact ⟨fuel - 1, by omega, by omega⟩
    by_cases hgoes : isEntryOf var s = true
    · have hle' : env_write ≤ env_read + s.length + 1 := by omega
      obtain ⟨mem', hloop, hmem'⟩ := ih htail hrest hle'
      rw [kept_cons_of_goes hgoes]
      refine ⟨mem', fun fuel hlt => ?_, hmem'⟩
      obtain ⟨n, rfl, hn⟩ := hfuel fuel hlt
      rw [hround, if_pos hgoes, hloop n hn]
    · rw [kept_cons_of_stays hgoes]
      -- the string is written in front of the ones that are still to be read
      have htail' : Block (MEM_BlockWrite mem env_write (s ++ [0])) (env_read + s.length + 1)
          entries := by
        refine htail.congr fun i _ => ?_
        exact store_outside (Or.inr (by rw [List.length_append, List.length_singleton]; omega))
      have hle' : env_write + s.length + 1 ≤ env_read + s.length + 1 := by omega
      obtain ⟨mem', hloop, hat, hsame⟩ := ih htail' hrest hle'
      have hlen : (encode (s :: kept var entries)).length =
          s.length + 1 + (encode (kept var entries)).length := by
        simp
        omega
      rw [hlen]
      refine ⟨mem', fun fuel hlt => ?_, ?_, fun x hx => ?_⟩
      · obtain ⟨n, rfl, hn⟩ := hfuel fuel hlt
        rw [hround, if_neg hgoes, hloop n hn]
        congr 2
        omega
      · rw [← List.append_nil (encode (s :: kept var entries)), at_encode_cons,
          List.append_nil]
        refine ⟨(at_store mem env_write (s ++ [0])).congr fun i hi => hsame _ (Or.inl ?_), hat⟩
        rw [List.length_append, List.length_singleton] at hi
        omega
      · rw [hsame x (by omega)]
        exact store_outside (by rw [List.length_append, List.length_singleton]; omega)

/-! ## Values -/

theorem iequals_iff : iequals a b = true ↔ a.map tolower = b.map tolower :=
  decide_eq_true_iff

theorem iequals_symm (h : iequals a b = true) : iequals b a = true :=
  iequals_iff.2 (iequals_iff.1 h).symm

theorem iequals_trans {c : CString} (h₁ : iequals a b = true) (h₂ : iequals b c = true) :
    iequals a c = true :=
  iequals_iff.2 ((iequals_iff.1 h₁).trans (iequals_iff.1 h₂))

theorem length_eq_of_iequals (h : iequals a b = true) : a.length = b.length := by
  simpa using congrArg List.length (iequals_iff.1 h)

/-- The value of the first string that has the name. -/
def lookup (name : CString) : List CString → Option CString
  | [] => none
  | s :: entries =>
      match strchr equalSign s with
      | none => lookup name entries
      | some (pre, post) => if iequals name pre then some post else lookup name entries

/-- The call returns `r`, with any fuel from some number on. -/
def Gets (e : Env) (name : CString) (r : Option CString) : Prop :=
  ∃ n, ∀ fuel, n ≤ fuel → GetEnvironmentValue fuel e name = some r

theorem Gets.unique {e : Env} {name : CString} {r r' : Option CString} (h : Gets e name r)
    (h' : Gets e name r') : r = r' := by
  obtain ⟨n, hn⟩ := h
  obtain ⟨n', hn'⟩ := h'
  have heq := (hn _ (le_max_left n n')).symm.trans (hn' _ (le_max_right n n'))
  exact Option.some.inj heq

theorem getLoop_spec {name : CString} {fuel : ℕ} {entries : List CString}
    (hblock : Block mem env_read entries) (hentries : ∀ s ∈ entries, IsEntry s)
    (hfuel : entries.length < fuel) :
    getLoop mem name fuel env_read = some (lookup name entries) := by
  induction entries generalizing fuel env_read with
  | nil =>
    obtain ⟨fuel, rfl⟩ := Nat.exists_eq_add_of_lt hfuel
    rw [getLoop, read_of_nil hblock]
    rfl
  | cons s entries ih =>
    obtain ⟨fuel, rfl⟩ := Nat.exists_eq_add_of_lt (Nat.lt_of_le_of_lt (Nat.zero_le _) hfuel)
    rw [Nat.zero_add] at hfuel ⊢
    have hs := hentries s List.mem_cons_self
    obtain ⟨hread, htail⟩ := read_of_cons hblock hs
    obtain ⟨pre, post, hstrchr⟩ := strchr_isSome hs.equal
    have hnext := ih htail (fun s hs => hentries s (List.mem_cons_of_mem _ hs))
      (by rw [List.length_cons] at hfuel; omega : entries.length < fuel)
    rw [getLoop, hread, if_neg hs.readable.ne_nil, lookup, hstrchr]
    dsimp only
    rw [hnext]
    by_cases hmatch : iequals name pre = true
    · have hlen := length_eq_of_iequals hmatch
      rw [if_neg (not_not.2 hlen.symm), hmatch]
      rfl
    · rw [if_neg hmatch, Bool.eq_false_iff.2 hmatch]
      simp

theorem HasEntries.gets {e : Env} {entries : List CString} (h : HasEntries e entries)
    (name : CString) : Gets e name (if name = [] then none else lookup name entries) := by
  refine ⟨entries.length + 1, fun fuel hfuel => ?_⟩
  rw [GetEnvironmentValue]
  split_ifs
  · rfl
  · exact getLoop_spec h.block h.isEntry hfuel

theorem tolower_equalSign {c : UInt8} : tolower c = equalSign ↔ c = equalSign := by
  rw [tolower, equalSign]
  split_ifs with h
  · grind
  · rfl

/-- A name without a `=` that is the beginning of a string in front of a `=` is all of its name. -/
theorem isEntryOf_iff {var pre post : CString} (hvar : equalSign ∉ var) (hpre : equalSign ∉ pre) :
    isEntryOf var (pre ++ equalSign :: post) = true ↔ iequals var pre = true := by
  rw [isEntryOf, Bool.and_eq_true, decide_eq_true_eq]
  constructor
  · rintro ⟨heq, hget⟩
    rcases Nat.lt_trichotomy var.length pre.length with hlt | hlen | hgt
    · -- the sign would be in the name of the string
      rw [List.getElem?_append_left hlt] at hget
      exact absurd (List.mem_of_getElem? hget) hpre
    · rwa [hlen, List.take_left] at heq
    · -- the sign would be in the name of the variable
      have hsign : equalSign ∈ (pre ++ equalSign :: post).take var.length := by
        rw [List.take_append, List.take_of_length_le (Nat.le_of_lt hgt)]
        obtain ⟨k, hk⟩ := Nat.exists_eq_add_of_lt hgt
        have hk' : var.length - pre.length = k + 1 := by omega
        rw [hk', List.take_succ_cons]
        simp
      have hmem : tolower equalSign ∈ var.map tolower := by
        rw [iequals_iff.1 heq]
        exact List.mem_map_of_mem hsign
      obtain ⟨c, hc, hlower⟩ := List.mem_map.1 hmem
      have hsame : c = equalSign := tolower_equalSign.1 (hlower.trans (tolower_equalSign.2 rfl))
      exact absurd (hsame ▸ hc) hvar
  · intro heq
    have hlen := length_eq_of_iequals heq
    rw [hlen, List.take_left, List.getElem?_append_right le_rfl, Nat.sub_self]
    exact ⟨heq, rfl⟩

variable {var name : CString} {entries : List CString}

/-- Strings of other names do not change what a name gets. -/
theorem lookup_kept (hvar : equalSign ∉ var) (hne : iequals name var = false) :
    lookup name (kept var entries) = lookup name entries := by
  induction entries with
  | nil => rfl
  | cons s entries ih =>
    by_cases hgoes : isEntryOf var s = true
    · rw [kept_cons_of_goes hgoes, ih, lookup]
      cases hs : strchr equalSign s with
      | none => rfl
      | some found =>
        obtain ⟨pre, post⟩ := found
        obtain ⟨rfl, hpre⟩ := strchr_some hs
        have hsame := iequals_symm ((isEntryOf_iff hvar hpre).1 hgoes)
        dsimp only
        rw [if_neg]
        intro hmatch
        rw [iequals_trans hmatch hsame] at hne
        cases hne
    · rw [kept_cons_of_stays hgoes, lookup, lookup, ih]

/-- The strings that stay do not have the name. -/
theorem lookup_kept_self (hvar : equalSign ∉ var) (heq : iequals name var = true) :
    lookup name (kept var entries) = none := by
  induction entries with
  | nil => rfl
  | cons s entries ih =>
    by_cases hgoes : isEntryOf var s = true
    · rw [kept_cons_of_goes hgoes, ih]
    · rw [kept_cons_of_stays hgoes, lookup]
      cases hs : strchr equalSign s with
      | none => exact ih
      | some found =>
        obtain ⟨pre, post⟩ := found
        obtain ⟨rfl, hpre⟩ := strchr_some hs
        dsimp only
        rw [if_neg, ih]
        intro hmatch
        exact hgoes ((isEntryOf_iff hvar hpre).2 (iequals_trans (iequals_symm heq) hmatch))

theorem lookup_append (name : CString) (l₁ l₂ : List CString) :
    lookup name (l₁ ++ l₂) = (lookup name l₁).or (lookup name l₂) := by
  induction l₁ with
  | nil => rfl
  | cons s l₁ ih =>
    rw [List.cons_append, lookup, lookup, ih]
    cases strchr equalSign s with
    | none => rfl
    | some found =>
      dsimp only
      split_ifs
      · rfl
      · rfl

theorem tolower_toupper (c : UInt8) : tolower (toupper c) = tolower c := by
  rw [toupper]
  split_ifs with h
  · rw [tolower, tolower]
    grind
  · rfl

theorem toupper_eq_equalSign {c : UInt8} : toupper c = equalSign ↔ c = equalSign := by
  rw [toupper, equalSign]
  split_ifs with h
  · grind
  · rfl

theorem toupper_eq_zero {c : UInt8} : toupper c = 0 ↔ c = 0 := by
  rw [toupper]
  split_ifs with h
  · grind
  · rfl

theorem iequals_map_toupper (name var : CString) :
    iequals name (var.map toupper) = iequals name var := by
  have hcomp : tolower ∘ toupper = tolower := funext tolower_toupper
  rw [iequals, iequals, List.map_map, hcomp]

/-! ## Setting a value -/

variable {e e' : Env} {value : CString} {ok : Bool}

/-- The call returns `ok` and leaves `e'`, with any fuel from some number on. -/
def Sets (e : Env) (var value : CString) (ok : Bool) (e' : Env) : Prop :=
  ∃ n, ∀ fuel, n ≤ fuel → SetEnvironmentValue fuel e var value = some (ok, e')

/-- The bytes that the call asks for. -/
def needed (var value : CString) (entries : List CString) : ℕ :=
  (encode (kept var entries)).length + var.length + 1 + value.length + 2

/-- What the call leaves: the strings that stay have been moved, and when there is room for it the
new string is behind them. -/
structure Leaves (e e' : Env) (var value : CString) (entries : List CString) (ok : Bool) : Prop where
  environment : e'.environment = e.environment
  room : ok = true ↔ needed var value entries < e.mcbSize * 16 % 2 ^ 16
  moved : At e'.mem e.environment (encode (kept var entries))
  same : ok = false → ∀ x, x < e.environment ∨
    e.environment + (encode (kept var entries)).length ≤ x → e'.mem x = e.mem x
  block : ok = true → Block e'.mem e.environment (kept var entries ++
    if value = [] then [] else [snprintfEntry (var.map toupper) value])

/-- The characters in front of a string that is written stay, and so does the end of the block. -/
theorem block_of_write {a : ℕ} {strings : List CString} (hat : At mem a (encode strings)) :
    Block (Function.update (MEM_BlockWrite mem (a + (encode strings).length) (s ++ [0]))
      (a + (encode strings).length + s.length + 1) 0) a (strings ++ [s]) := by
  have hsplit : encode (strings ++ [s]) ++ [0] = encode strings ++ ((s ++ [0]) ++ [0]) := by simp
  rw [Block, hsplit, at_append, at_append, at_singleton]
  have hlen : (s ++ [(0 : UInt8)]).length = s.length + 1 := by simp
  refine ⟨hat.congr fun i hi => ?_, (at_store mem _ (s ++ [0])).congr fun i hi => ?_, ?_⟩
  · rw [Function.update_of_ne (by omega)]
    exact store_outside (Or.inl (by omega))
  · rw [Function.update_of_ne (by omega)]
    rfl
  · rw [hlen]
    exact Function.update_self _ _ _

/-- **The call returns.** -/
theorem SetEnvironmentValue_spec (h : HasEntries e entries) (var value : CString) :
    ∃ ok e', Sets e var value ok e' ∧ Leaves e e' var value entries ok := by
  obtain ⟨mem, hloop, hat, hsame⟩ := compactLoop_spec h.block h.isEntry le_rfl
  have hroom : (needed var value entries < e.mcbSize * 16 % 2 ^ 16) ↔
      ¬ e.mcbSize * 16 % 2 ^ 16 ≤ needed var value entries := Nat.not_le.symm
  have hrun : ∀ fuel, entries.length + 1 ≤ fuel → SetEnvironmentValue fuel e var value =
      if e.mcbSize * 16 % 2 ^ 16 ≤ needed var value entries then some (false, { e with mem := mem })
      else if value ≠ [] then
        some (true, { e with
          mem := Function.update (MEM_BlockWrite mem
            (e.environment + (encode (kept var entries)).length)
              (snprintfEntry (var.map toupper) value ++ [0]))
            (e.environment + (encode (kept var entries)).length +
              (snprintfEntry (var.map toupper) value).length + 1) 0 })
      else some (true, { e with
        mem := Function.update mem (e.environment + (encode (kept var entries)).length) 0 }) := by
    intro fuel hfuel
    rw [SetEnvironmentValue, hloop fuel hfuel]
    dsimp only [Option.bind_eq_bind, Option.bind_some]
    rw [Nat.add_sub_cancel_left, ← needed]
  by_cases hfull : e.mcbSize * 16 % 2 ^ 16 ≤ needed var value entries
  · simp only [if_pos hfull] at hrun
    exact ⟨false, _, ⟨_, hrun⟩, rfl, iff_of_false (by decide) (fun hlt => hroom.1 hlt hfull), hat,
      fun _ => hsame, fun hok => (nomatch hok)⟩
  · simp only [if_neg hfull] at hrun
    by_cases hvalue : value = []
    · simp only [if_neg (not_not.2 hvalue)] at hrun
      refine ⟨true, _, ⟨_, hrun⟩, rfl, iff_of_true rfl (hroom.2 hfull), ?_, fun hok => (nomatch hok),
        fun _ => ?_⟩
      · exact hat.congr fun i hi => Function.update_of_ne (by omega) _ _
      · rw [if_pos hvalue, List.append_nil, Block, at_append, at_singleton]
        refine ⟨hat.congr fun i hi => Function.update_of_ne (by omega) _ _, ?_⟩
        exact Function.update_self _ _ _
    · simp only [if_pos hvalue] at hrun
      have hblock := block_of_write (s := snprintfEntry (var.map toupper) value) hat
      refine ⟨true, _, ⟨_, hrun⟩, rfl, iff_of_true rfl (hroom.2 hfull), ?_, fun hok => (nomatch hok),
        fun _ => ?_⟩
      · rw [Block, encode_append, List.append_assoc, at_append] at hblock
        exact hblock.1
      · rw [if_neg hvalue]
        exact hblock

theorem Sets.leaves (h : HasEntries e entries) (hset : Sets e var value ok e') :
    Leaves e e' var value entries ok := by
  obtain ⟨ok', e'', ⟨n', hn'⟩, hleaves⟩ := SetEnvironmentValue_spec h var value
  obtain ⟨n, hn⟩ := hset
  have heq := (hn _ (le_max_left n n')).symm.trans (hn' _ (le_max_right n n'))
  cases heq
  exact hleaves

theorem mem_kept (hs : s ∈ kept var entries) : s ∈ entries := List.mem_of_mem_filter hs

/-- The new string can be read again, even when it has been cut off. -/
theorem snprintfEntry_readable (hvar : (0 : UInt8) ∉ var) (hvalue : (0 : UInt8) ∉ value) :
    Readable bytes_to_read (snprintfEntry (var.map toupper) value) := by
  refine ⟨?_, fun hzero => ?_, ?_⟩
  · rw [snprintfEntry]
    cases var with
    | nil => exact List.cons_ne_nil _ _
    | cons c var => exact List.cons_ne_nil _ _
  · rcases List.mem_append.1 (List.mem_of_mem_take hzero) with hmem | hmem
    · obtain ⟨c, hc, heq⟩ := List.mem_map.1 hmem
      exact hvar (toupper_eq_zero.1 heq ▸ hc)
    · rcases List.mem_cons.1 hmem with hsign | hmem
      · exact absurd hsign (by decide)
      · exact hvalue hmem
  · rw [snprintfEntry, List.length_take]
    exact Nat.min_le_left _ _

theorem length_entry (var value : CString) :
    (var.map toupper ++ equalSign :: value).length = var.length + 1 + value.length := by
  simp
  omega

/-- A short enough new string is not cut off. -/
theorem snprintfEntry_of_short (hshort : var.length + 1 + value.length < bytes_to_read) :
    snprintfEntry (var.map toupper) value = var.map toupper ++ equalSign :: value := by
  rw [snprintfEntry, List.take_of_length_le]
  rw [length_entry]
  exact Nat.le_of_lt hshort

/-- What a successful set promises about the values and the block. -/
structure Laws (e e' : Env) (var value : CString) : Prop where
  self : ∀ name, iequals name var = true → Gets e' name (if value = [] then none else some value)
  others : ∀ name r, iequals name var = false → Gets e name r → Gets e' name r
  wellFormed : ∃ entries', HasEntries e' entries' ∧
    (encode entries').length + 1 ≤ e.mcbSize * 16

/-- The new string is short enough, and has a name. -/
def Fits (var value : CString) : Prop :=
  value = [] ∨ var ≠ [] ∧ var.length + 1 + value.length < bytes_to_read

/-- The block after a set that adds no string or one that fits. -/
theorem Leaves.hasEntries (hl : Leaves e e' var value entries true) (h : HasEntries e entries)
    (hvar0 : (0 : UInt8) ∉ var) (hvalue0 : (0 : UInt8) ∉ value) (hfits : Fits var value) :
    HasEntries e' (kept var entries ++
      if value = [] then [] else [var.map toupper ++ equalSign :: value]) := by
  have hblock := hl.block rfl
  rcases hfits with hnil | ⟨-, hshort⟩
  · rw [if_pos hnil] at hblock ⊢
    refine ⟨by rw [hl.environment]; exact hblock, fun s hs => ?_⟩
    rw [List.append_nil] at hs
    exact h.isEntry s (mem_kept hs)
  · have hreadable := snprintfEntry_readable hvar0 hvalue0
    rw [snprintfEntry_of_short hshort] at hblock hreadable
    refine ⟨by rw [hl.environment]; exact hblock, fun s hs => ?_⟩
    rcases List.mem_append.1 hs with hold | hnew
    · exact h.isEntry s (mem_kept hold)
    · split_ifs at hnew with hnil
      · exact absurd hnew List.not_mem_nil
      · obtain rfl := List.mem_singleton.1 hnew
        refine ⟨?_, hreadable.no_zero, List.mem_append_right _ List.mem_cons_self⟩
        rw [length_entry]
        exact hshort

theorem length_encode_append (l : List CString) (s : CString) :
    (encode (l ++ [s])).length = (encode l).length + (s.length + 1) := by
  simp

/-- The block ends inside of the memory block of the environment. -/
theorem Leaves.room_for (hl : Leaves e e' var value entries true) :
    (encode (kept var entries ++
      if value = [] then [] else [var.map toupper ++ equalSign :: value])).length + 1 ≤
        e.mcbSize * 16 := by
  have hroom := hl.room.1 rfl
  have hle : e.mcbSize * 16 % 2 ^ 16 ≤ e.mcbSize * 16 := Nat.mod_le _ _
  rw [needed] at hroom
  by_cases hnil : value = []
  · rw [if_pos hnil, List.append_nil]
    omega
  · rw [if_neg hnil, length_encode_append, length_entry]
    omega

/-- What a name without a value gets from the strings that the set leaves. -/
theorem lookup_leaves (hvar : equalSign ∉ var) :
    lookup name (kept var entries ++
      if value = [] then [] else [var.map toupper ++ equalSign :: value]) =
      if iequals name var then (if value = [] then none else some value)
      else lookup name entries := by
  have hsign : equalSign ∉ var.map toupper := by
    intro hmem
    obtain ⟨c, hc, heq⟩ := List.mem_map.1 hmem
    exact hvar (toupper_eq_equalSign.1 heq ▸ hc)
  have hnew : lookup name [var.map toupper ++ equalSign :: value] =
      if iequals name var then some value else none := by
    rw [lookup, strchr_of_not_mem hsign]
    dsimp only
    rw [iequals_map_toupper]
    rfl
  rw [lookup_append]
  by_cases hname : iequals name var = true
  · rw [lookup_kept_self hvar hname, Option.none_or, if_pos hname]
    split_ifs
    · rfl
    · rw [hnew, if_pos hname]
  · rw [lookup_kept hvar (Bool.eq_false_iff.2 hname), if_neg hname]
    split_ifs
    · exact Option.or_none
    · rw [hnew, if_neg hname, Option.or_none]

/-- The laws fail after a set of an empty name or of a string that is too long. -/
theorem fits_of_laws (h : HasEntries e entries) (hvar0 : (0 : UInt8) ∉ var)
    (hvalue0 : (0 : UInt8) ∉ value) (hset : Sets e var value true e')
    (hlaws : Laws e e' var value) : Fits var value := by
  have hl := hset.leaves h
  by_contra hfits
  rw [Fits, not_or, not_and] at hfits
  obtain ⟨hvalue, hlong⟩ := hfits
  by_cases hnil : var = []
  · -- the name that is empty gets nothing
    have hself := hlaws.self [] (by rw [hnil]; rfl)
    rw [if_neg hvalue] at hself
    have hnone : Gets e' [] none := ⟨0, fun fuel _ => if_pos rfl⟩
    exact nomatch hself.unique hnone
  · -- the string that has been cut off is too long
    obtain ⟨entries', hentries', -⟩ := hlaws.wellFormed
    have hblock := hl.block rfl
    rw [if_neg hvalue, ← hl.environment] at hblock
    have hreadable : ∀ s ∈ kept var entries ++ [snprintfEntry (var.map toupper) value],
        Readable bytes_to_read s := by
      intro s hs
      rcases List.mem_append.1 hs with hold | hnew
      · exact h.readable s (mem_kept hold)
      · rw [List.mem_singleton.1 hnew]
        exact snprintfEntry_readable hvar0 hvalue0
    have hsame := hblock.unique hentries'.block hreadable hentries'.readable
    have hlt := (hentries'.isEntry (snprintfEntry (var.map toupper) value)
      (hsame ▸ List.mem_append_right _ List.mem_cons_self)).length_lt
    rw [snprintfEntry, List.length_take, length_entry] at hlt
    have hnot := hlong hnil
    omega

theorem laws_of_fits (h : HasEntries e entries) (hvar : equalSign ∉ var)
    (hvar0 : (0 : UInt8) ∉ var) (hvalue0 : (0 : UInt8) ∉ value) (hset : Sets e var value true e')
    (hfits : Fits var value) : Laws e e' var value := by
  have hl := hset.leaves h
  have hentries := hl.hasEntries h hvar0 hvalue0 hfits
  refine ⟨fun name hname => ?_, fun name r hname hget => ?_, _, hentries, hl.room_for⟩
  · have hgets := hentries.gets name
    rw [lookup_leaves hvar, if_pos hname] at hgets
    by_cases hnil : name = []
    · rw [if_pos hnil] at hgets
      -- then the variable has no name, and no value
      have hempty : var = [] := by
        rw [hnil] at hname
        exact List.length_eq_zero_iff.1 (length_eq_of_iequals hname).symm
      rw [if_pos (hfits.resolve_right fun hf => hf.1 hempty)]
      exact hgets
    · rwa [if_neg hnil] at hgets
  · have hbefore := h.gets name
    have hafter := hentries.gets name
    rw [lookup_leaves hvar, hname] at hafter
    rw [hget.unique hbefore]
    exact hafter

/-- **The laws of the environment hold after a set that succeeds exactly when** the new string fits
and has a name. -/
theorem environment_laws_iff (h : HasEntries e entries) (hvar : equalSign ∉ var)
    (hvar0 : (0 : UInt8) ∉ var) (hvalue0 : (0 : UInt8) ∉ value) (hset : Sets e var value true e') :
    Laws e e' var value ↔ Fits var value :=
  ⟨fits_of_laws h hvar0 hvalue0 hset, laws_of_fits h hvar hvar0 hvalue0 hset⟩

/-- The variables A and B in an environment of so many paragraphs. -/
def twoVariables (paragraphs : ℕ) : Env where
  mem := fun x => [0x41, equalSign, 0x31, 0, 0x42, equalSign, 0x32, 0, 0].getD x 0
  environment := 0
  mcbSize := paragraphs

theorem twoVariables_hasEntries (paragraphs : ℕ) :
    HasEntries (twoVariables paragraphs) [[0x41, equalSign, 0x31], [0x42, equalSign, 0x32]] := by
  refine ⟨fun i hi => ?_, fun s hs => ?_⟩
  · rw [twoVariables, Nat.zero_add]
    exact (List.getElem_eq_getD 0).symm
  · rw [List.mem_cons, List.mem_singleton] at hs
    rcases hs with rfl | rfl
    · exact ⟨by decide, by decide, by decide⟩
    · exact ⟨by decide, by decide, by decide⟩

theorem Sets.of_room (h : HasEntries e entries) (var value : CString)
    (hroom : needed var value entries < e.mcbSize * 16 % 2 ^ 16) :
    ∃ e', Sets e var value true e' := by
  obtain ⟨ok, e', hset, hl⟩ := SetEnvironmentValue_spec h var value
  rw [hl.room.2 hroom] at hset
  exact ⟨e', hset⟩

theorem environment_laws_iff_twoVariables :
    ∃ e', Sets (twoVariables 4) [0x41] [0x33] true e' ∧
      Laws (twoVariables 4) e' [0x41] [0x33] := by
  obtain ⟨e', hset⟩ := Sets.of_room (twoVariables_hasEntries 4) [0x41] [0x33] (by decide)
  refine ⟨e', hset, (environment_laws_iff (twoVariables_hasEntries 4) (by decide) (by decide)
    (by decide) hset).2 (Or.inr ⟨by decide, by decide⟩)⟩

/-- A value of 1022 bytes is cut off, or makes a string of 1024 bytes. -/
theorem cut_off_breaks_laws :
    ∃ e', Sets (twoVariables 100) [0x41] (List.replicate 1022 0x33) true e' ∧
      ¬ Laws (twoVariables 100) e' [0x41] (List.replicate 1022 0x33) := by
  have hentries := twoVariables_hasEntries 100
  have hzero : (0 : UInt8) ∉ List.replicate 1022 0x33 := fun hmem =>
    absurd (List.eq_of_mem_replicate hmem) (by decide)
  have hroom : needed [0x41] (List.replicate 1022 0x33)
      [[0x41, equalSign, 0x31], [0x42, equalSign, 0x32]] <
        (twoVariables 100).mcbSize * 16 % 2 ^ 16 := by
    rw [needed, List.length_replicate]
    decide
  obtain ⟨e', hset⟩ := Sets.of_room hentries [0x41] (List.replicate 1022 0x33) hroom
  refine ⟨e', hset, fun hlaws => ?_⟩
  rcases fits_of_laws hentries (by decide) hzero hset hlaws with hnil | ⟨-, hshort⟩
  · have hlen := congrArg List.length hnil
    rw [List.length_replicate] at hlen
    exact absurd hlen (by decide)
  · rw [List.length_replicate] at hshort
    exact absurd hshort (by decide)

/-! ## A set that fails -/

/-- The call returns these strings, with any fuel from some number on. -/
def Lists (e : Env) (strings : List CString) : Prop :=
  ∃ n, ∀ fuel, n ≤ fuel → GetAllRawEnvironmentStrings fuel e = some strings

theorem HasEntries.lists (h : HasEntries e entries) : Lists e entries :=
  ⟨entries.length + 1, fun _ hfuel => readStrings_of_block h.block h.readable hfuel⟩

/-- Nothing is moved when the strings that go come last. -/
theorem kept_prefix_iff : kept var entries <+: entries ↔
    entries.Pairwise fun s later => isEntryOf var s → isEntryOf var later := by
  induction entries with
  | nil => exact iff_of_true List.nil_prefix List.Pairwise.nil
  | cons s entries ih =>
    by_cases hgoes : isEntryOf var s = true
    · rw [kept_cons_of_goes hgoes, List.pairwise_cons]
      constructor
      · intro hfront
        have hnil : kept var entries = [] := by
          cases hk : kept var entries with
          | nil => rfl
          | cons t rest =>
            rw [hk, List.cons_prefix_cons] at hfront
            have ht : t ∈ kept var entries := hk ▸ List.mem_cons_self
            rw [kept, List.mem_filter, hfront.1, hgoes] at ht
            exact absurd ht.2 (by decide)
        refine ⟨fun later hlater _ => ?_, ih.1 (hnil ▸ List.nil_prefix)⟩
        simpa using List.filter_eq_nil_iff.1 hnil later hlater
      · rintro ⟨hall, -⟩
        have hnil : kept var entries = [] :=
          List.filter_eq_nil_iff.2 fun later hlater => by simp [hall later hlater hgoes]
        rw [hnil]
        exact List.nil_prefix
    · rw [kept_cons_of_stays hgoes, List.cons_prefix_cons, List.pairwise_cons, ih]
      exact ⟨fun hp => ⟨fun _ _ hs => absurd hs hgoes, hp.2⟩, fun hp => ⟨rfl, hp.2⟩⟩

theorem kept_prefix_of_lists (h : HasEntries e entries) (hset : Sets e var value false e')
    (hlists : Lists e' entries) : kept var entries <+: entries := by
  have hl := hset.leaves h
  obtain ⟨n, hn⟩ := hlists
  have hread := hn n le_rfl
  rw [GetAllRawEnvironmentStrings, hl.environment] at hread
  exact prefix_of_readStrings hl.moved (fun s hs => h.readable s (mem_kept hs)) hread

/-- When the strings that stay have been written to where they were, nothing has changed. -/
theorem mem_eq_of_prefix (h : HasEntries e entries) (hset : Sets e var value false e')
    (hfront : kept var entries <+: entries) : e'.mem = e.mem := by
  have hl := hset.leaves h
  obtain ⟨gone, hsplit⟩ := hfront
  have hbefore : At e.mem e.environment (encode (kept var entries)) := by
    have hblock := h.block
    rw [Block, ← hsplit, encode_append, List.append_assoc, at_append] at hblock
    exact hblock.1
  funext x
  by_cases hx : x < e.environment ∨ e.environment + (encode (kept var entries)).length ≤ x
  · exact hl.same rfl x hx
  · obtain ⟨i, rfl⟩ := Nat.exists_eq_add_of_le (by omega : e.environment ≤ x)
    rw [hl.moved i (by omega), hbefore i (by omega)]

/-- **A set that fails leaves the strings as they were exactly when** no string of the variable is in
front of one that stays. -/
theorem failed_set_keeps_iff (h : HasEntries e entries) (hset : Sets e var value false e') :
    (∀ strings, Lists e strings → Lists e' strings) ↔
      entries.Pairwise fun s later => isEntryOf var s → isEntryOf var later := by
  rw [← kept_prefix_iff]
  constructor
  · exact fun hkeeps => kept_prefix_of_lists h hset (hkeeps entries h.lists)
  · rintro hfront strings ⟨n, hn⟩
    refine ⟨n, fun fuel hfuel => ?_⟩
    rw [GetAllRawEnvironmentStrings, (hset.leaves h).environment, mem_eq_of_prefix h hset hfront]
    exact hn fuel hfuel

theorem Sets.of_no_room (h : HasEntries e entries) (var value : CString)
    (hroom : ¬ needed var value entries < e.mcbSize * 16 % 2 ^ 16) :
    ∃ e', Sets e var value false e' := by
  obtain ⟨ok, e', hset, hl⟩ := SetEnvironmentValue_spec h var value
  cases ok with
  | true => exact absurd (hl.room.1 rfl) hroom
  | false => exact ⟨e', hset⟩

/-- There is no room for a value of ten bytes of the last variable, and nothing changes. -/
theorem failed_set_keeps_iff_last :
    ∃ e', Sets (twoVariables 1) [0x42] (List.replicate 10 0x33) false e' ∧
      ∀ strings, Lists (twoVariables 1) strings → Lists e' strings := by
  obtain ⟨e', hset⟩ := Sets.of_no_room (twoVariables_hasEntries 1) [0x42]
    (List.replicate 10 0x33) (by decide)
  exact ⟨e', hset, (failed_set_keeps_iff (twoVariables_hasEntries 1) hset).2 (by decide)⟩

/-- With the first variable the old value is gone, and the call has failed. -/
theorem failed_set_loses_first :
    ∃ e', Sets (twoVariables 1) [0x41] (List.replicate 10 0x33) false e' ∧
      ¬ ∀ strings, Lists (twoVariables 1) strings → Lists e' strings := by
  have hentries := twoVariables_hasEntries 1
  obtain ⟨e', hset⟩ := Sets.of_no_room hentries [0x41] (List.replicate 10 0x33) (by decide)
  refine ⟨e', hset, fun hkeeps => ?_⟩
  exact absurd (kept_prefix_of_lists hentries hset (hkeeps _ hentries.lists)) (by decide)

end AugraDosbox.Environment
