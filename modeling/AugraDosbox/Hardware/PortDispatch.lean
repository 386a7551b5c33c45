import AugraDosbox.Hardware.PortContainers
import AugraDosbox.Lib.StepRuns
import Mathlib.Order.Basic
import Mathlib.Tactic.Common

/-!
# Who serves an access to an I/O port

* `Registration`, `latest`, `server` — the registrations that are live, newest first, and the
  handler that one of them has for an access;
* `serveReadB`, … , `serveWriteD` — what an access has to do: the whole of it by that handler, or
  else its two halves, the low one first;
* `Maps.Follows.register`, `Maps.Follows.free` — what a registration and a release keep;
* **`Bus.dispatches_of_fits`** — the runs.
-/

namespace AugraDosbox.Port

variable {H R W σ : Type}

/-! ## Registrations -/

structure Registration (H : Type) where
  port : io_port_t
  handler : H
  max_width : io_width_t
  range : BitVec 16

namespace Registration

def Covers (r : Registration H) (p : io_port_t) : Prop := (p - r.port).toNat < r.range.toNat

instance (r : Registration H) (p : io_port_t) : Decidable (r.Covers p) :=
  inferInstanceAs (Decidable (_ < _))

def Admits (r : Registration H) (width : io_width_t) : Prop := width.bytes ≤ r.max_width.bytes

instance (r : Registration H) (width : io_width_t) : Decidable (r.Admits width) :=
  inferInstanceAs (Decidable (_ ≤ _))

end Registration

/-- The most recent registration of a port. -/
def latest (live : List (Registration H)) (p : io_port_t) : Option (Registration H) :=
  live.find? (·.Covers p)

/-- The handler for a whole access. -/
def server (live : List (Registration H)) (width : io_width_t) (p : io_port_t) : Option H :=
  match latest live p with
  | some r => if r.Admits width then some r.handler else none
  | none => none

section Live

variable {live older newer : List (Registration H)} {r : Registration H} {p : io_port_t}
  {width : io_width_t}

theorem server_of_latest (h : latest live p = some r) :
    server live width p = if r.Admits width then some r.handler else none := by
  rw [server, h]

theorem server_of_latest_none (h : latest live p = none) : server live width p = none := by
  rw [server, h]

theorem server_congr {live' : List (Registration H)} (h : latest live' p = latest live p) :
    server live' width p = server live width p := by
  rw [server, server, h]

theorem latest_cons_pos (h : r.Covers p) : latest (r :: live) p = some r :=
  List.find?_cons_of_pos (decide_eq_true h)

theorem latest_cons_neg (h : ¬ r.Covers p) : latest (r :: live) p = latest live p :=
  List.find?_cons_of_neg (by simpa using h)

theorem latest_append :
    latest (newer ++ older) p = (latest newer p).or (latest older p) :=
  List.find?_append

theorem latest_eq_none_iff : latest live p = none ↔ ∀ q ∈ live, ¬ q.Covers p := by
  simp [latest]

/-- A registration that does not cover the port does not matter. -/
theorem latest_middle_neg (h : ¬ r.Covers p) :
    latest (newer ++ r :: older) p = latest (newer ++ older) p := by
  rw [latest_append, latest_append, latest_cons_neg h]

end Live

/-! ## What an access has to do -/

section Serve

variable (dev : Devices R W σ)

def serveReadB (f : io_width_t → io_port_t → Option R) (p : io_port_t) (s : σ) : BitVec 8 × σ :=
  match f .byte p with
  | some h => (((dev.read h p .byte s).1 &&& 0xff).setWidth 8, (dev.read h p .byte s).2)
  | none => (0xff, s)

def serveReadW (f : io_width_t → io_port_t → Option R) (p : io_port_t) (s : σ) : BitVec 16 × σ :=
  match f .word p with
  | some h => (((dev.read h p .word s).1 &&& 0xffff).setWidth 16, (dev.read h p .word s).2)
  | none =>
      let low := serveReadB dev f p s
      let high := serveReadB dev f (p + 1) low.2
      (low.1.setWidth 16 ||| high.1.setWidth 16 <<< 8, high.2)

def serveReadD (f : io_width_t → io_port_t → Option R) (p : io_port_t) (s : σ) : BitVec 32 × σ :=
  match f .dword p with
  | some h => dev.read h p .dword s
  | none =>
      let low := serveReadW dev f p s
      let high := serveReadW dev f (p + 2) low.2
      (low.1.setWidth 32 ||| high.1.setWidth 32 <<< 16, high.2)

def serveWriteB (f : io_width_t → io_port_t → Option W) (p : io_port_t) (val : BitVec 8) (s : σ) :
    σ :=
  match f .byte p with
  | some h => dev.write h p (val.setWidth 32) .byte s
  | none => s

def serveWriteW (f : io_width_t → io_port_t → Option W) (p : io_port_t) (val : BitVec 16) (s : σ) :
    σ :=
  match f .word p with
  | some h => dev.write h p (val.setWidth 32) .word s
  | none =>
      serveWriteB dev f (p + 1) ((val >>> 8).setWidth 8)
        (serveWriteB dev f p ((val &&& 0xff).setWidth 8) s)

def serveWriteD (f : io_width_t → io_port_t → Option W) (p : io_port_t) (val : BitVec 32) (s : σ) :
    σ :=
  match f .dword p with
  | some h => dev.write h p val .dword s
  | none =>
      serveWriteW dev f (p + 2) ((val >>> 16).setWidth 16)
        (serveWriteW dev f p ((val &&& 0xffff).setWidth 16) s)

end Serve

/-! ## The accesses of the code -/

namespace Maps

/-- The map of a width. -/
def map (m : Maps H) : io_width_t → io_port_t → Option (Handler H)
  | .byte => m.byte
  | .word => m.word
  | .dword => m.dword

/-- The device that a map has at a port. -/
def handler (m : Maps H) (width : io_width_t) (p : io_port_t) : Option H :=
  match m.map width p with
  | some (.device h) => some h
  | _ => none

/-- Only the map of the bytes blocks. -/
structure Unblocked (m : Maps H) : Prop where
  word : ∀ p, m.word p ≠ some .blocked
  dword : ∀ p, m.dword p ≠ some .blocked

/-- The maps after accesses: there may be more entries that block. -/
structure Emplaced (m m' : Maps H) : Prop where
  handler : m'.handler = m.handler
  word : m'.word = m.word
  dword : m'.dword = m.dword

variable {m m' m'' : Maps H} {p : io_port_t}

theorem Emplaced.refl (m : Maps H) : Emplaced m m := ⟨rfl, rfl, rfl⟩

theorem Emplaced.trans (h : Emplaced m m') (h' : Emplaced m' m'') : Emplaced m m'' :=
  ⟨h'.handler.trans h.handler, h'.word.trans h.word, h'.dword.trans h.dword⟩

theorem Emplaced.unblocked (h : Emplaced m m') (hm : m.Unblocked) : m'.Unblocked :=
  ⟨fun p => by rw [h.word]; exact hm.word p, fun p => by rw [h.dword]; exact hm.dword p⟩

theorem emplaced_try_emplace (m : Maps H) (port : io_port_t) :
    Emplaced m { m with byte := (try_emplace m.byte port).2 } := by
  refine ⟨?_, rfl, rfl⟩
  funext width p
  cases width with
  | byte =>
    simp only [handler, map, try_emplace]
    cases hport : m.byte port with
    | some h => rfl
    | none =>
      by_cases hp : p = port
      · simp only [hp, Function.update_self, hport]
      · simp only [Function.update_of_ne hp]
  | word => rfl
  | dword => rfl

/-- The entry that an access finds for a byte. -/
theorem handler_byte : m.handler .byte p =
    match (try_emplace m.byte p).1 with
    | .device h => some h
    | .blocked => none := by
  rw [handler, map, try_emplace]
  cases m.byte p with
  | none => rfl
  | some h => cases h <;> rfl

theorem Unblocked.map_eq (hm : m.Unblocked) {width : io_width_t} (hwidth : width ≠ .byte)
    (p : io_port_t) : m.map width p = (m.handler width p).map .device := by
  have hne : m.map width p ≠ some .blocked := by
    cases width with
    | byte => exact absurd rfl hwidth
    | word => exact hm.word p
    | dword => exact hm.dword p
  rw [handler]
  cases hp : m.map width p with
  | none => rfl
  | some h =>
    cases h with
    | blocked => exact absurd hp hne
    | device h => rfl

end Maps

section Accesses

/-- What reading does: it has the value that the handlers of the maps serve. -/
structure Reads {n : ℕ} (c : Containers R W) (served : BitVec n × σ)
    (x : BitVec n × Containers R W × σ) : Prop where
  value : x.1 = served.1
  devices : x.2.2 = served.2
  reads : c.io_read_handlers.Emplaced x.2.1.io_read_handlers
  writes : x.2.1.io_write_handlers = c.io_write_handlers

/-- What writing does. -/
structure Writes (c : Containers R W) (served : σ) (x : Containers R W × σ) : Prop where
  devices : x.2 = served
  reads : x.1.io_read_handlers = c.io_read_handlers
  writes : c.io_write_handlers.Emplaced x.1.io_write_handlers

variable (dev : Devices R W σ) {c : Containers R W} (p : io_port_t) (s : σ)

theorem read_byte_from_port_spec :
    Reads c (serveReadB dev c.io_read_handlers.handler p s) (read_byte_from_port dev c p s) := by
  have hmaps := Maps.emplaced_try_emplace c.io_read_handlers p
  have hblocked : ((0xff#32 &&& 0xff).setWidth 8) = 0xff#8 := by decide
  rw [read_byte_from_port, serveReadB, Maps.handler_byte]
  dsimp only
  cases (Maps.try_emplace c.io_read_handlers.byte p).1 with
  | blocked => exact ⟨hblocked, rfl, hmaps, rfl⟩
  | device h => exact ⟨rfl, rfl, hmaps, rfl⟩

theorem Reads.halves {n k : ℕ} {first second : BitVec n × σ} {low high : BitVec n × Containers R W × σ}
    (combine : BitVec n → BitVec n → BitVec k) (hlow : Reads c first low)
    (hhigh : Reads low.2.1 second high) :
    Reads c (combine first.1 second.1, second.2) (combine low.1 high.1, high.2.1, high.2.2) :=
  ⟨by rw [hlow.value, hhigh.value], hhigh.devices, hlow.reads.trans hhigh.reads,
    hhigh.writes.trans hlow.writes⟩

theorem read_word_from_port_spec (hc : c.io_read_handlers.Unblocked) :
    Reads c (serveReadW dev c.io_read_handlers.handler p s) (read_word_from_port dev c p s) := by
  have hword : c.io_read_handlers.word p = _ := hc.map_eq (by decide : io_width_t.word ≠ .byte) p
  rw [serveReadW]
  cases hh : c.io_read_handlers.handler .word p with
  | some h =>
    rw [hh, Option.map_some] at hword
    rw [read_word_from_port, hword]
    exact ⟨rfl, rfl, .refl _, rfl⟩
  | none =>
    rw [hh, Option.map_none] at hword
    rw [read_word_from_port, hword]
    have hlow := read_byte_from_port_spec dev (c := c) p s
    have hhigh := read_byte_from_port_spec dev (c := (read_byte_from_port dev c p s).2.1) (p + 1)
      (serveReadB dev c.io_read_handlers.handler p s).2
    rw [hlow.reads.handler] at hhigh
    dsimp only
    rw [hlow.devices]
    exact hlow.halves (fun low high => low.setWidth 16 ||| high.setWidth 16 <<< 8) hhigh

theorem read_dword_from_port_spec (hc : c.io_read_handlers.Unblocked) :
    Reads c (serveReadD dev c.io_read_handlers.handler p s) (read_dword_from_port dev c p s) := by
  have hdword : c.io_read_handlers.dword p = _ := hc.map_eq (by decide : io_width_t.dword ≠ .byte) p
  rw [serveReadD]
  cases hh : c.io_read_handlers.handler .dword p with
  | some h =>
    rw [hh, Option.map_some] at hdword
    rw [read_dword_from_port, hdword]
    exact ⟨rfl, rfl, .refl _, rfl⟩
  | none =>
    rw [hh, Option.map_none] at hdword
    rw [read_dword_from_port, hdword]
    have hlow := read_word_from_port_spec dev p s hc
    have hhigh := read_word_from_port_spec dev (p + 2)
      (serveReadW dev c.io_read_handlers.handler p s).2 (hlow.reads.unblocked hc)
    rw [hlow.reads.handler] at hhigh
    dsimp only
    rw [hlow.devices]
    exact hlow.halves (fun low high => low.setWidth 32 ||| high.setWidth 32 <<< 16) hhigh

theorem write_byte_to_port_spec (val : BitVec 8) :
    Writes c (serveWriteB dev c.io_write_handlers.handler p val s)
      (write_byte_to_port dev c p val s) := by
  have hmaps := Maps.emplaced_try_emplace c.io_write_handlers p
  rw [write_byte_to_port, serveWriteB, Maps.handler_byte]
  dsimp only
  cases (Maps.try_emplace c.io_write_handlers.byte p).1 with
  | blocked => exact ⟨rfl, rfl, hmaps⟩
  | device h => exact ⟨rfl, rfl, hmaps⟩

theorem Writes.trans {first second : σ} {low high : Containers R W × σ} (hlow : Writes c first low)
    (hhigh : Writes low.1 second high) : Writes c second high :=
  ⟨hhigh.devices, hhigh.reads.trans hlow.reads, hlow.writes.trans hhigh.writes⟩

theorem write_word_to_port_spec (hc : c.io_write_handlers.Unblocked) (val : BitVec 16) :
    Writes c (serveWriteW dev c.io_write_handlers.handler p val s)
      (write_word_to_port dev c p val s) := by
  have hword : c.io_write_handlers.word p = _ := hc.map_eq (by decide : io_width_t.word ≠ .byte) p
  rw [serveWriteW]
  cases hh : c.io_write_handlers.handler .word p with
  | some h =>
    rw [hh, Option.map_some] at hword
    rw [write_word_to_port, hword]
    exact ⟨rfl, rfl, .refl _⟩
  | none =>
    rw [hh, Option.map_none] at hword
    rw [write_word_to_port, hword]
    have hlow := write_byte_to_port_spec dev (c := c) p s ((val &&& 0xff).setWidth 8)
    have hhigh := write_byte_to_port_spec dev
      (c := (write_byte_to_port dev c p ((val &&& 0xff).setWidth 8) s).1) (p + 1)
      (serveWriteB dev c.io_write_handlers.handler p ((val &&& 0xff).setWidth 8) s)
      ((val >>> 8).setWidth 8)
    rw [hlow.writes.handler] at hhigh
    dsimp only
    rw [hlow.devices]
    exact hlow.trans hhigh

theorem write_dword_to_port_spec (hc : c.io_write_handlers.Unblocked) (val : BitVec 32) :
    Writes c (serveWriteD dev c.io_write_handlers.handler p val s)
      (write_dword_to_port dev c p val s) := by
  have hdword : c.io_write_handlers.dword p = _ := hc.map_eq (by decide : io_width_t.dword ≠ .byte) p
  rw [serveWriteD]
  cases hh : c.io_write_handlers.handler .dword p with
  | some h =>
    rw [hh, Option.map_some] at hdword
    rw [write_dword_to_port, hdword]
    exact ⟨rfl, rfl, .refl _⟩
  | none =>
    rw [hh, Option.map_none] at hdword
    rw [write_dword_to_port, hdword]
    have hlow := write_word_to_port_spec dev p s hc ((val &&& 0xffff).setWidth 16)
    have hhigh := write_word_to_port_spec dev (p + 2)
      (serveWriteW dev c.io_write_handlers.handler p ((val &&& 0xffff).setWidth 16) s)
      (hlow.writes.unblocked hc) ((val >>> 16).setWidth 16)
    rw [hlow.writes.handler] at hhigh
    dsimp only
    rw [hlow.devices]
    exact hlow.trans hhigh

end Accesses

/-! ## Registering and releasing -/

namespace Maps

variable {m : Maps H} {port p : io_port_t} {entry : Option (Handler H)}
  {max_width width : io_width_t} {range : ℕ}

theorem map_assign : (m.assign port entry max_width).map width p =
    if p = port ∧ width.bytes ≤ max_width.bytes then entry else m.map width p := by
  cases width <;> cases max_width <;>
    simp [assign, map, io_width_t.bytes, Function.update_apply]

/-- The ports of a round and of the rounds after it. -/
theorem covered_succ : (p - port).toNat < range + 1 ↔
    p = port ∨ (p - (port + 1)).toNat < range := by
  bv_omega

theorem map_assignRange : (m.assignRange port entry max_width range).map width p =
    if (p - port).toNat < range ∧ width.bytes ≤ max_width.bytes then entry else m.map width p := by
  induction range generalizing m port with
  | zero => rw [assignRange, if_neg (by simp)]
  | succ range ih =>
    rw [assignRange, ih, map_assign]
    simp only [covered_succ]
    by_cases hwidth : width.bytes ≤ max_width.bytes
    · by_cases hp : p = port <;> simp [hp, hwidth]
    · simp [hwidth]

theorem handler_assignRange : (m.assignRange port entry max_width range).handler width p =
    if (p - port).toNat < range ∧ width.bytes ≤ max_width.bytes then
      match entry with
      | some (.device h) => some h
      | _ => none
    else m.handler width p := by
  rw [handler, map_assignRange]
  by_cases h : (p - port).toNat < range ∧ width.bytes ≤ max_width.bytes
  · rw [if_pos h, if_pos h]
  · rw [if_neg h, if_neg h, handler]

theorem Unblocked.assignRange (hm : m.Unblocked) (hentry : entry ≠ some .blocked) :
    (m.assignRange port entry max_width range).Unblocked := by
  have hmap : ∀ width p, m.map width p ≠ some .blocked →
      (m.assignRange port entry max_width range).map width p ≠ some .blocked := by
    intro width p hne
    rw [map_assignRange]
    split
    · exact hentry
    · exact hne
  exact ⟨fun p => hmap .word p (hm.word p), fun p => hmap .dword p (hm.dword p)⟩

/-- The maps have what the registrations say. -/
def Follows (m : Maps H) (live : List (Registration H)) : Prop := m.handler = server live

theorem follows_empty : ({} : Maps H).Follows [] := by
  funext width p
  cases width <;> rfl

variable {live : List (Registration H)} {r : Registration H}

/-- **What a registration keeps**: the ports that it takes over had no wider handler. -/
theorem Follows.register (hm : m.Follows live) (hnarrow : ∀ p, r.Covers p → ∀ q,
    latest live p = some q → q.max_width.bytes ≤ r.max_width.bytes) :
    (m.assignRange r.port (some (.device r.handler)) r.max_width r.range.toNat).Follows
      (r :: live) := by
  funext width p
  rw [handler_assignRange]
  by_cases hcovers : r.Covers p
  · rw [server_of_latest (latest_cons_pos hcovers)]
    by_cases hadmits : r.Admits width
    · rw [if_pos ⟨hcovers, hadmits⟩, if_pos hadmits]
    · rw [if_neg (fun h => hadmits h.2), if_neg hadmits, hm]
      cases hq : latest live p with
      | none => exact server_of_latest_none hq
      | some q =>
        rw [server_of_latest hq, if_neg]
        exact fun h => hadmits (Nat.le_trans h (hnarrow p hcovers q hq))
  · rw [if_neg (fun h => hcovers h.1), hm, server_congr (latest_cons_neg hcovers)]

/-- **What a release keeps**: none of its ports has another registration. -/
theorem Follows.free {newer older : List (Registration H)}
    (hm : m.Follows (newer ++ r :: older))
    (halone : ∀ q ∈ newer ++ older, ∀ p, ¬ (r.Covers p ∧ q.Covers p)) :
    (m.assignRange r.port none r.max_width r.range.toNat).Follows (newer ++ older) := by
  funext width p
  rw [handler_assignRange]
  by_cases hcovers : r.Covers p
  · have hothers : latest (newer ++ older) p = none :=
      latest_eq_none_iff.2 fun q hq hqcovers => halone q hq p ⟨hcovers, hqcovers⟩
    have hbefore : latest (newer ++ r :: older) p = some r := by
      have hnewer : latest newer p = none := by
        rw [latest_append, Option.or_eq_none_iff] at hothers
        exact hothers.1
      rw [latest_append, hnewer, latest_cons_pos hcovers, Option.none_or]
    rw [server_of_latest_none hothers]
    by_cases hadmits : r.Admits width
    · rw [if_pos ⟨hcovers, hadmits⟩]
    · rw [if_neg (fun h => hadmits h.2), hm, server_of_latest hbefore, if_neg hadmits]
  · rw [if_neg (fun h => hcovers h.1), hm, server_congr (latest_middle_neg hcovers)]

end Maps

theorem Reads.served {n : ℕ} {c : Containers R W} {served : BitVec n × σ}
    {x : BitVec n × Containers R W × σ} (h : Reads c served x) : (x.1, x.2.2) = served :=
  Prod.ext h.value h.devices

/-! ## Who serves the accesses -/

/-- Each access is served by the most recent registration, whatever the handlers do. -/
structure Dispatches (c : Containers R W) (reads : List (Registration R))
    (writes : List (Registration W)) : Prop where
  readB : ∀ (σ : Type) (dev : Devices R W σ) p s,
    ((read_byte_from_port dev c p s).1, (read_byte_from_port dev c p s).2.2) =
      serveReadB dev (server reads) p s
  readW : ∀ (σ : Type) (dev : Devices R W σ) p s,
    ((read_word_from_port dev c p s).1, (read_word_from_port dev c p s).2.2) =
      serveReadW dev (server reads) p s
  readD : ∀ (σ : Type) (dev : Devices R W σ) p s,
    ((read_dword_from_port dev c p s).1, (read_dword_from_port dev c p s).2.2) =
      serveReadD dev (server reads) p s
  writeB : ∀ (σ : Type) (dev : Devices R W σ) p val s,
    (write_byte_to_port dev c p val s).2 = serveWriteB dev (server writes) p val s
  writeW : ∀ (σ : Type) (dev : Devices R W σ) p val s,
    (write_word_to_port dev c p val s).2 = serveWriteW dev (server writes) p val s
  writeD : ∀ (σ : Type) (dev : Devices R W σ) p val s,
    (write_dword_to_port dev c p val s).2 = serveWriteD dev (server writes) p val s

/-! ## Runs -/

/-- What may happen: registrations, releases of a live registration, accesses. -/
inductive Event (R W : Type) where
  | registerRead (r : Registration R)
  | registerWrite (r : Registration W)
  | freeRead (i : ℕ)
  | freeWrite (i : ℕ)
  | readB (p : io_port_t)
  | readW (p : io_port_t)
  | readD (p : io_port_t)
  | writeB (p : io_port_t) (val : BitVec 8)
  | writeW (p : io_port_t) (val : BitVec 16)
  | writeD (p : io_port_t) (val : BitVec 32)

/-- The containers and the devices, with the registrations that are live, newest first. -/
structure Bus (R W σ : Type) where
  containers : Containers R W := {}
  devices : σ
  reads : List (Registration R) := []
  writes : List (Registration W) := []

namespace Bus

variable (dev : Devices R W σ)

def step (b : Bus R W σ) : Event R W → Bus R W σ
  | .registerRead r =>
      { b with
        containers := IO_RegisterReadHandler b.containers r.port r.handler r.max_width r.range
        reads := r :: b.reads }
  | .registerWrite r =>
      { b with
        containers := IO_RegisterWriteHandler b.containers r.port r.handler r.max_width r.range
        writes := r :: b.writes }
  | .freeRead i =>
      match b.reads[i]? with
      | some r =>
          { b with
            containers := IO_FreeReadHandler b.containers r.port r.max_width r.range
            reads := b.reads.eraseIdx i }
      | none => b
  | .freeWrite i =>
      match b.writes[i]? with
      | some r =>
          { b with
            containers := IO_FreeWriteHandler b.containers r.port r.max_width r.range
            writes := b.writes.eraseIdx i }
      | none => b
  | .readB p =>
      let x := read_byte_from_port dev b.containers p b.devices
      { b with containers := x.2.1, devices := x.2.2 }
  | .readW p =>
      let x := read_word_from_port dev b.containers p b.devices
      { b with containers := x.2.1, devices := x.2.2 }
  | .readD p =>
      let x := read_dword_from_port dev b.containers p b.devices
      { b with containers := x.2.1, devices := x.2.2 }
  | .writeB p val =>
      let x := write_byte_to_port dev b.containers p val b.devices
      { b with containers := x.1, devices := x.2 }
  | .writeW p val =>
      let x := write_word_to_port dev b.containers p val b.devices
      { b with containers := x.1, devices := x.2 }
  | .writeD p val =>
      let x := write_dword_to_port dev b.containers p val b.devices
      { b with containers := x.1, devices := x.2 }

/-- A registration finds no wider one on its ports, and a released one was alone on its ports. -/
def Fits (b : Bus R W σ) : Event R W → Prop
  | .registerRead r => ∀ p, r.Covers p → ∀ q, latest b.reads p = some q →
      q.max_width.bytes ≤ r.max_width.bytes
  | .registerWrite r => ∀ p, r.Covers p → ∀ q, latest b.writes p = some q →
      q.max_width.bytes ≤ r.max_width.bytes
  | .freeRead i => ∀ r, b.reads[i]? = some r → ∀ q ∈ b.reads.eraseIdx i, ∀ p,
      ¬ (r.Covers p ∧ q.Covers p)
  | .freeWrite i => ∀ r, b.writes[i]? = some r → ∀ q ∈ b.writes.eraseIdx i, ∀ p,
      ¬ (r.Covers p ∧ q.Covers p)
  | _ => True

def Dispatches (b : Bus R W σ) : Prop := Port.Dispatches b.containers b.reads b.writes

/-- The maps have what the registrations say, and only the maps of the bytes block. -/
structure Sound (b : Bus R W σ) : Prop where
  reads : b.containers.io_read_handlers.Follows b.reads
  writes : b.containers.io_write_handlers.Follows b.writes
  readsUnblocked : b.containers.io_read_handlers.Unblocked
  writesUnblocked : b.containers.io_write_handlers.Unblocked

variable {dev} {b : Bus R W σ}

theorem sound_start {d : σ} : ({ devices := d } : Bus R W σ).Sound :=
  ⟨Maps.follows_empty, Maps.follows_empty, ⟨by simp, by simp⟩, ⟨by simp, by simp⟩⟩

/-- **The accesses are served by the most recent registration.** -/
theorem Sound.dispatches (hb : b.Sound) : b.Dispatches := by
  have hreads := hb.reads
  have hwrites := hb.writes
  rw [Maps.Follows] at hreads hwrites
  exact
    { readB := fun _ dev p s => by
        rw [← hreads]
        exact (read_byte_from_port_spec dev p s).served
      readW := fun _ dev p s => by
        rw [← hreads]
        exact (read_word_from_port_spec dev p s hb.readsUnblocked).served
      readD := fun _ dev p s => by
        rw [← hreads]
        exact (read_dword_from_port_spec dev p s hb.readsUnblocked).served
      writeB := fun _ dev p val s => by
        rw [← hwrites]
        exact (write_byte_to_port_spec dev p s val).devices
      writeW := fun _ dev p val s => by
        rw [← hwrites]
        exact (write_word_to_port_spec dev p s hb.writesUnblocked val).devices
      writeD := fun _ dev p val s => by
        rw [← hwrites]
        exact (write_dword_to_port_spec dev p s hb.writesUnblocked val).devices }

theorem Sound.read (hb : b.Sound) {n : ℕ} {served : BitVec n × σ}
    {x : BitVec n × Containers R W × σ} (hx : Reads b.containers served x) :
    { b with containers := x.2.1, devices := x.2.2 : Bus R W σ }.Sound where
  reads := hx.reads.handler.trans hb.reads
  writes := by
    dsimp only
    rw [hx.writes]
    exact hb.writes
  readsUnblocked := hx.reads.unblocked hb.readsUnblocked
  writesUnblocked := by
    dsimp only
    rw [hx.writes]
    exact hb.writesUnblocked

theorem Sound.write (hb : b.Sound) {served : σ} {x : Containers R W × σ}
    (hx : Writes b.containers served x) :
    { b with containers := x.1, devices := x.2 : Bus R W σ }.Sound where
  reads := by
    dsimp only
    rw [hx.reads]
    exact hb.reads
  writes := hx.writes.handler.trans hb.writes
  readsUnblocked := by
    dsimp only
    rw [hx.reads]
    exact hb.readsUnblocked
  writesUnblocked := hx.writes.unblocked hb.writesUnblocked

theorem split_at {l : List H} {i : ℕ} {x : H} (h : l[i]? = some x) :
    l = l.take i ++ x :: l.drop (i + 1) ∧ l.eraseIdx i = l.take i ++ l.drop (i + 1) := by
  obtain ⟨hi, rfl⟩ := List.getElem?_eq_some_iff.1 h
  refine ⟨?_, List.eraseIdx_eq_take_drop_succ ..⟩
  rw [← List.drop_eq_getElem_cons hi, List.take_append_drop]

/-- What the release of the registration at `i` keeps. -/
theorem follows_eraseIdx {m : Maps H} {live : List (Registration H)} {i : ℕ} {r : Registration H}
    (hm : m.Follows live) (hr : live[i]? = some r)
    (halone : ∀ q ∈ live.eraseIdx i, ∀ p, ¬ (r.Covers p ∧ q.Covers p)) :
    (m.assignRange r.port none r.max_width r.range.toNat).Follows (live.eraseIdx i) := by
  obtain ⟨hbefore, hafter⟩ := split_at hr
  rw [hbefore] at hm
  rw [hafter] at halone ⊢
  exact hm.free halone

/-- **What one step keeps.** -/
theorem Sound.step (hb : b.Sound) {event : Event R W} (hfits : b.Fits event) :
    (b.step dev event).Sound := by
  cases event with
  | registerRead r =>
    exact ⟨hb.reads.register hfits, hb.writes, hb.readsUnblocked.assignRange (by simp),
      hb.writesUnblocked⟩
  | registerWrite r =>
    exact ⟨hb.reads, hb.writes.register hfits, hb.readsUnblocked,
      hb.writesUnblocked.assignRange (by simp)⟩
  | freeRead i =>
    rw [Bus.step]
    cases h : b.reads[i]? with
    | none => exact hb
    | some r =>
      exact ⟨follows_eraseIdx hb.reads h (hfits r h), hb.writes,
        hb.readsUnblocked.assignRange (by simp), hb.writesUnblocked⟩
  | freeWrite i =>
    rw [Bus.step]
    cases h : b.writes[i]? with
    | none => exact hb
    | some r =>
      exact ⟨hb.reads, follows_eraseIdx hb.writes h (hfits r h), hb.readsUnblocked,
        hb.writesUnblocked.assignRange (by simp)⟩
  | readB p => exact hb.read (read_byte_from_port_spec dev p b.devices)
  | readW p => exact hb.read (read_word_from_port_spec dev p b.devices hb.readsUnblocked)
  | readD p => exact hb.read (read_dword_from_port_spec dev p b.devices hb.readsUnblocked)
  | writeB p val => exact hb.write (write_byte_to_port_spec dev p b.devices val)
  | writeW p val =>
    exact hb.write (write_word_to_port_spec dev p b.devices hb.writesUnblocked val)
  | writeD p val =>
    exact hb.write (write_dword_to_port_spec dev p b.devices hb.writesUnblocked val)

/-- **The accesses of a run**: if each step fits, each access in every state is served by the most
recent registration. -/
theorem dispatches_of_fits (d : σ) (events : List (Event R W))
    (hfits : StepRuns.EachStep (step dev) Fits { devices := d } events) :
    StepRuns.Always (step dev) Dispatches { devices := d } events :=
  StepRuns.always_of_eachStep (fun _ _ hb => hb.step) (fun _ hb => hb.dispatches) sound_start hfits

/-- A handler for words takes over from one for bytes. -/
theorem wider_dispatches :
    StepRuns.Always (step ⟨fun h _ _ s => (h, s), fun (_ : Unit) _ _ _ s => s⟩) Dispatches
      { devices := () }
      [.registerRead ⟨0x60, 0x56, .byte, 1⟩, .registerRead ⟨0x60, 0x1234, .word, 2⟩,
        .readW 0x60] := by
  refine dispatches_of_fits _ _ ⟨fun p _ q hq => ?_, fun p _ q hq => ?_, trivial, trivial⟩
  · cases hq
  · obtain rfl : ⟨0x60, 0x56, .byte, 1⟩ = q := List.mem_singleton.1 (List.mem_of_find?_eq_some hq) |>.symm
    decide

/-- A handler for bytes on a port of a handler for words. -/
theorem narrower_not_dispatches :
    ¬ StepRuns.Always (step ⟨fun h _ _ s => (h, s), fun (_ : Unit) _ _ _ s => s⟩) Dispatches
      { devices := () }
      [.registerRead ⟨0x60, 0x1234, .word, 1⟩, .registerRead ⟨0x60, 0x56, .byte, 1⟩] := by
  rintro ⟨-, -, hlast⟩
  have hread := hlast.readW Unit ⟨fun h _ _ s => (h, s), fun _ _ _ _ s => s⟩ 0x60 ()
  exact absurd (congrArg Prod.fst hread) (by decide)

end Bus

end AugraDosbox.Port
