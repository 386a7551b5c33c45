import AugraDosbox.Lib.Fallible
import AugraDosbox.Webserver.MemoryAccess

/-!
# Where requests access memory

Every handler compares the end of its block with the size of the memory before it lets the
block be accessed, each in its own way.

* `Api.windows` — the blocks that a request asks for, as intervals of unbounded integers;
* `Api.Proper` — only addresses of these blocks and of the memory are touched, an error changes
  nothing, and the freeze list is in order;
* `Api.Fits` — expected data that end inside the memory whenever the data do, and frozen values
  that end before the last address;
* **`Api.run_proper_iff`** — a run is proper exactly when all its actions fit.
-/

namespace AugraDosbox

namespace Webserver

open MemoryBlock

/-! ## Addresses -/

variable {pt : UInt32} {size x total : ℕ}

/-- A block that ends below `2^32` touches what it names. -/
theorem mem_addresses (h : pt.toNat + size ≤ 2 ^ 32) :
    x ∈ addresses pt size ↔ pt.toNat ≤ x ∧ x < pt.toNat + size := by
  induction size generalizing pt with
  | zero =>
    rw [addresses]
    exact iff_of_false List.not_mem_nil (by omega)
  | succ size ih =>
    rw [addresses, List.mem_cons]
    by_cases hsize : size = 0
    · subst hsize
      simp only [addresses, List.not_mem_nil, or_false]
      omega
    · have hpt := Machine.toNat_add_one (show pt.toNat + 1 < 2 ^ 32 by omega)
      rw [ih (by omega), hpt]
      omega

/-- The first address of a block is touched. -/
theorem head_mem_addresses (h : 0 < size) : pt.toNat ∈ addresses pt size := by
  obtain ⟨n, rfl⟩ := Nat.exists_eq_succ_of_ne_zero h.ne'
  rw [addresses]
  exact List.mem_cons_self

/-- Where the addresses of a block may lie. -/
def Block.Within (b : Block) (windows : List (ℕ × ℕ)) (total : ℕ) : Prop :=
  ∀ x ∈ addresses b.pt b.size, ∃ w ∈ windows, w.1 ≤ x ∧ x < w.1 + w.2 ∧ x < total

theorem Block.within_of_le {windows : List (ℕ × ℕ)} (hw : (pt.toNat, size) ∈ windows)
    (htotal : pt.toNat + size ≤ total) (hlt : total < 2 ^ 32) :
    Block.Within ⟨pt, size⟩ windows total := by
  intro x hx
  obtain ⟨hlo, hhi⟩ := (mem_addresses (show pt.toNat + size ≤ 2 ^ 32 by omega)).1 hx
  exact ⟨_, hw, hlo, hhi, show x < total by omega⟩

namespace Api

variable {from_base64 : List Char → Option (List UInt8)} {a : Api} {req : ApiRequest}

/-- The linear address that a segment and an offset name. -/
def address (a : Api) (base : Segment) (offset : UInt32) : UInt32 :=
  a.machine.base_segment_to_offset base + offset

variable (from_base64) in
/-- The blocks that an action asks for: address and length. -/
def windows (a : Api) : ApiAction → List (ℕ × ℕ)
  | .request (.read req) =>
      match ReadMemoryCommand.Get req with
      | .error _ => []
      | .ok cmd => [((a.address cmd.base cmd.offset).toNat, cmd.len.toNat)]
  | .request (.write req) =>
      match WriteMemoryCommand.Put from_base64 req with
      | .error _ => []
      | .ok cmd =>
          [((a.address cmd.base cmd.offset).toNat, cmd.data.length),
            ((a.address cmd.base cmd.offset).toNat, cmd.expected_data.length)]
  | .request (.search req) =>
      match SearchMemoryCommand.Post req with
      | .error _ => []
      | .ok cmd => [(cmd.start.toNat, cmd.end.toNat - cmd.start.toNat)]
  | .applyFreezes => a.entries.map fun e => (e.address.toNat, e.width.toNat)
  | _ => []

variable (from_base64) in
/-- What is asked of an action. -/
structure Proper (a : Api) (action : ApiAction) : Prop where
  within : ∀ block ∈ (a.step from_base64 action).blocks,
    block.Within (a.windows from_base64 action) a.machine.mem_total
  refused : ∀ error, (a.step from_base64 action).answer = some (.error error) →
    (a.step from_base64 action).api = a
  distinct : ((a.step from_base64 action).api.entries.map FreezeEntry.address).Nodup
  bounded : (a.step from_base64 action).api.entries.length ≤ FreezeRegistry.MaxEntries

variable (from_base64) in
/-- The actions whose range checks are good enough. -/
def Fits (a : Api) : ApiAction → Prop
  | .request (.write req) => ∀ cmd, WriteMemoryCommand.Put from_base64 req = .ok cmd →
      (a.address cmd.base cmd.offset).toNat + cmd.data.length ≤ a.machine.mem_total →
      (a.address cmd.base cmd.offset).toNat + cmd.expected_data.length ≤ a.machine.mem_total
  | .applyFreezes => ∀ e ∈ a.entries, e.address.toNat + e.width.toNat < 2 ^ 32
  | _ => True

/-- The guest does not change the size of the memory. -/
def SameSize (a : Api) : ApiAction → Prop
  | .guest machine => machine.mem.pages = a.machine.mem.pages
  | _ => True

/-! ## The freeze list -/

/-- The freeze list: no address twice, and every entry has passed the check of `Post`. -/
structure ListOk (total : ℕ) (entries : List FreezeEntry) : Prop where
  distinct : (entries.map FreezeEntry.address).Nodup
  bounded : entries.length ≤ FreezeRegistry.MaxEntries
  checked : ∀ e ∈ entries, IsWidth e.width ∧
    (e.address + UInt32.ofNat e.width.toNat).toNat ≤ total

end Api

open Api FreezeRegistry

variable {entries entries' : List FreezeEntry} {addr value : UInt32} {width : ℤ}

theorem update_eq_none_iff : update addr value width entries = none ↔
    addr ∉ entries.map FreezeEntry.address := by
  induction entries with
  | nil => simp [update]
  | cons e entries ih =>
    rw [update]
    by_cases he : e.address = addr
    · simp [he]
    · simp [he, ih, Ne.symm he]

theorem update_address (h : update addr value width entries = some entries') :
    entries'.map FreezeEntry.address = entries.map FreezeEntry.address := by
  induction entries generalizing entries' with
  | nil => cases h
  | cons e entries ih =>
    rw [update] at h
    by_cases he : e.address = addr
    · rw [if_pos he] at h
      obtain rfl := Option.some.inj h
      rfl
    · rw [if_neg he, Option.map_eq_some_iff] at h
      obtain ⟨rest, hrest, rfl⟩ := h
      rw [List.map_cons, List.map_cons, ih hrest]

theorem mem_update (h : update addr value width entries = some entries') :
    ∀ e ∈ entries', e ∈ entries ∨ e = ⟨addr, value, width⟩ := by
  induction entries generalizing entries' with
  | nil => cases h
  | cons f entries ih =>
    rw [update] at h
    intro e he
    by_cases hf : f.address = addr
    · rw [if_pos hf] at h
      obtain rfl := Option.some.inj h
      rcases List.mem_cons.1 he with rfl | he
      · exact .inr (by rw [hf])
      · exact .inl (List.mem_cons_of_mem f he)
    · rw [if_neg hf, Option.map_eq_some_iff] at h
      obtain ⟨rest, hrest, rfl⟩ := h
      rcases List.mem_cons.1 he with rfl | he
      · exact .inl List.mem_cons_self
      · exact (ih hrest e he).imp_left (List.mem_cons_of_mem f)

theorem remove_sublist (h : Remove addr entries = some entries') : entries'.Sublist entries := by
  induction entries generalizing entries' with
  | nil => cases h
  | cons e entries ih =>
    rw [Remove] at h
    by_cases he : e.address = addr
    · rw [if_pos he] at h
      obtain rfl := Option.some.inj h
      exact List.sublist_cons_self e entries
    · rw [if_neg he, Option.map_eq_some_iff] at h
      obtain ⟨rest, hrest, rfl⟩ := h
      exact (ih hrest).cons_cons e

namespace Api

variable {from_base64 : List Char → Option (List UInt8)} {a : Api} {req : ApiRequest}

theorem ListOk.nil (total : ℕ) : ListOk total [] := ⟨List.nodup_nil, by decide, by simp⟩

theorem ListOk.sublist (h : ListOk total entries) (hs : entries'.Sublist entries) :
    ListOk total entries' :=
  ⟨h.distinct.sublist (hs.map _), hs.length_le.trans h.bounded,
    fun e he => h.checked e (hs.subset he)⟩

theorem ListOk.add (h : ListOk total entries) (hwidth : IsWidth width)
    (hrange : (addr + UInt32.ofNat width.toNat).toNat ≤ total)
    (hadd : FreezeRegistry.Add entries addr value width = some entries') : ListOk total entries' := by
  rw [FreezeRegistry.Add, if_neg (not_not.2 hwidth)] at hadd
  cases hupdate : update addr value width entries with
  | some updated =>
    rw [hupdate] at hadd
    obtain rfl := Option.some.inj hadd
    have haddress := update_address hupdate
    refine ⟨haddress ▸ h.distinct, ?_, fun e he => ?_⟩
    · have hlength := congrArg List.length haddress
      rw [List.length_map, List.length_map] at hlength
      exact hlength ▸ h.bounded
    · rcases mem_update hupdate e he with he | rfl
      · exact h.checked e he
      · exact ⟨hwidth, hrange⟩
  | none =>
    rw [hupdate] at hadd
    dsimp only at hadd
    split at hadd
    · cases hadd
    · rename_i hroom
      obtain rfl := Option.some.inj hadd
      refine ⟨?_, ?_, fun e he => ?_⟩
      · rw [List.map_append, List.map_singleton]
        exact List.concat_eq_append ▸ h.distinct.concat (update_eq_none_iff.1 hupdate)
      · rw [List.length_append, List.length_singleton]
        omega
      · rcases List.mem_append.1 he with he | he
        · exact h.checked e he
        · rw [List.mem_singleton] at he
          subst he
          exact ⟨hwidth, hrange⟩

theorem ListOk.post {r : FreezeHandlers.PostRequest} {answer : ApiAnswer}
    (h : ListOk total entries) (hpost : FreezeHandlers.Post r total entries = .ok (answer, entries')) :
    ListOk total entries' := by
  simp only [FreezeHandlers.Post, Fallible.bind_ok] at hpost
  obtain ⟨addr, -, value, -, width, -, hpost⟩ := hpost
  split at hpost
  · cases hpost
  · rename_i hwidth
    split at hpost
    · cases hpost
    · rename_i hrange
      split at hpost
      · cases hpost
      · rename_i updated hadd
        cases hpost
        exact h.add (not_not.1 hwidth) (not_lt.1 hrange) hadd

theorem ListOk.delete {field : Field UInt32} {answer : ApiAnswer} (h : ListOk total entries)
    (hdelete : FreezeHandlers.Delete field entries = .ok (answer, entries')) :
    ListOk total entries' := by
  cases field with
  | absent =>
    cases hdelete
    exact .nil total
  | wrongType => cases hdelete
  | value addr =>
    rw [FreezeHandlers.Delete] at hdelete
    split at hdelete
    · cases hdelete
    · rename_i rest hremove
      cases hdelete
      exact h.sublist (remove_sublist hremove)

/-! ## The requests -/

/-- What holds between the actions. -/
def Inv (a : Api) : Prop := ListOk a.machine.mem_total a.entries

theorem proper_done {r : Except ApiError (ApiAnswer × List FreezeEntry)} (h : a.Inv)
    (hserve : a.serve from_base64 req = a.done r)
    (hr : ∀ answer entries, r = .ok (answer, entries) → ListOk a.machine.mem_total entries) :
    a.Proper from_base64 (.request req) ∧ (a.serve from_base64 req).api.Inv := by
  have hlist : (a.done r).api.Inv := by
    cases r with
    | error error => exact h
    | ok p => exact hr p.1 p.2 rfl
  have hstep : a.step from_base64 (.request req) = a.done r := hserve
  rw [hserve]
  refine ⟨⟨?_, ?_, ?_, ?_⟩, hlist⟩
  · rw [hstep]
    intro block hblock
    cases r <;> exact absurd hblock List.not_mem_nil
  · rw [hstep]
    intro error herror
    cases r with
    | error _ => rfl
    | ok p => cases herror
  · rw [hstep]
    exact hlist.distinct
  · rw [hstep]
    exact hlist.bounded

theorem proper_executed {b : Bus} {answer : Except ApiError ApiAnswer} (h : a.Inv)
    (hserve : a.serve from_base64 req = a.executed b answer)
    (hsize : b.machine.mem.pages = a.machine.mem.pages)
    (herror : ∀ error, answer = .error error → b.machine = a.machine) :
    (a.Proper from_base64 (.request req) ↔ ∀ block ∈ b.blocks,
      block.Within (a.windows from_base64 (.request req)) a.machine.mem_total) ∧
    (a.serve from_base64 req).api.Inv := by
  have hstep : a.step from_base64 (.request req) = a.executed b answer := hserve
  have htotal : b.machine.mem_total = a.machine.mem_total := by
    rw [Machine.mem_total, Machine.mem_total, hsize]
  refine ⟨⟨fun hproper => ?_, fun hwithin => ⟨?_, ?_, ?_, ?_⟩⟩, ?_⟩
  · have := hproper.within
    rwa [hstep] at this
  · rwa [hstep]
  · rw [hstep]
    intro error heq
    rw [executed, herror error (Option.some.inj heq)]
  · rw [hstep]
    exact h.distinct
  · rw [hstep]
    exact h.bounded
  · rw [hserve]
    change ListOk b.machine.mem_total a.entries
    rw [htotal]
    exact h

theorem read_proper {r : ReadMemoryCommand.GetRequest} (h : a.Inv) :
    a.Proper from_base64 (.request (.read r)) ∧ (a.serve from_base64 (.read r)).api.Inv := by
  cases hget : ReadMemoryCommand.Get r with
  | error error =>
    exact proper_done (r := .error error) h (by rw [serve, hget]) fun _ _ heq => by cases heq
  | ok cmd =>
    have hserve : a.serve from_base64 (.read r) =
        a.executed (cmd.Execute a.bus).2 (cmd.Execute a.bus).1.answer := by rw [serve, hget]
    obtain ⟨hproper, hinv⟩ := proper_executed h hserve
      (by unfold ReadMemoryCommand.Execute; dsimp only; split <;> rfl)
      (fun _ _ => by unfold ReadMemoryCommand.Execute; dsimp only; split <;> rfl)
    refine ⟨hproper.2 ?_, hinv⟩
    intro block hblock
    have hwindow : a.windows from_base64 (.request (.read r)) =
        [((a.address cmd.base cmd.offset).toNat, cmd.len.toNat)] := by rw [windows, hget]
    rw [hwindow]
    unfold ReadMemoryCommand.Execute at hblock
    dsimp only at hblock
    split at hblock
    · exact absurd hblock List.not_mem_nil
    · rename_i hrange
      obtain rfl := List.mem_singleton.1 hblock
      exact Block.within_of_le (List.mem_singleton_self _) (not_lt.1 hrange)
        a.machine.mem_total_lt

theorem search_proper {r : SearchMemoryCommand.PostRequest} (h : a.Inv) :
    a.Proper from_base64 (.request (.search r)) ∧ (a.serve from_base64 (.search r)).api.Inv := by
  cases hpost : SearchMemoryCommand.Post r with
  | error error =>
    exact proper_done (r := .error error) h (by rw [serve, hpost]) fun _ _ heq => by cases heq
  | ok cmd =>
    have hserve : a.serve from_base64 (.search r) = a.executed (cmd.Execute a.bus).2
        ((cmd.Execute a.bus).1.bind SearchMemoryCommand.answer) := by rw [serve, hpost]
    obtain ⟨hproper, hinv⟩ := proper_executed h hserve
      (by unfold SearchMemoryCommand.Execute; split <;> rfl)
      (fun _ _ => by unfold SearchMemoryCommand.Execute; split <;> rfl)
    refine ⟨hproper.2 ?_, hinv⟩
    intro block hblock
    have hwindow : a.windows from_base64 (.request (.search r)) =
        [(cmd.start.toNat, cmd.end.toNat - cmd.start.toNat)] := by rw [windows, hpost]
    rw [hwindow]
    unfold SearchMemoryCommand.Execute at hblock
    split at hblock
    · exact absurd hblock List.not_mem_nil
    · rename_i hrange
      rw [not_or, not_lt, UInt32.not_le] at hrange
      obtain ⟨hend, hlt⟩ := hrange
      obtain rfl := List.mem_singleton.1 hblock
      rw [UInt32.lt_iff_toNat_lt] at hlt
      have hspan : (cmd.end - cmd.start).toNat = cmd.end.toNat - cmd.start.toNat :=
        UInt32.toNat_sub_of_le _ _ (UInt32.le_iff_toNat_le.2 hlt.le)
      rw [hspan]
      exact Block.within_of_le (List.mem_singleton_self _)
        (show cmd.start.toNat + _ ≤ a.machine.mem_total by change _ ≤ a.machine.mem_total at hend; omega)
        a.machine.mem_total_lt

/-- The first address behind the memory is touched by a block that reaches it. -/
theorem mem_addresses_total (htotal : total < 2 ^ 32) (hpt : pt.toNat ≤ total)
    (hsize : total < pt.toNat + size) : total ∈ addresses pt size := by
  induction size generalizing pt with
  | zero => omega
  | succ size ih =>
    rw [addresses, List.mem_cons]
    by_cases heq : total = pt.toNat
    · exact .inl heq
    · have hnext := Machine.toNat_add_one (show pt.toNat + 1 < 2 ^ 32 by omega)
      exact .inr (ih (by omega) (by omega))

/-- What a write does: it keeps the size of the memory and changes nothing when it is refused. -/
theorem executeOn_machine (cmd : WriteMemoryCommand) (b : Bus) (herror : cmd.error = "")
    (hconflict : cmd.conflict_data = []) :
    (cmd.ExecuteOn b).2.machine.mem.pages = b.machine.mem.pages ∧
    ∀ error, (cmd.ExecuteOn b).1.apiAnswer = .error error →
      (cmd.ExecuteOn b).2.machine = b.machine := by
  unfold WriteMemoryCommand.ExecuteOn
  dsimp only
  split
  · exact ⟨rfl, fun _ _ => rfl⟩
  · split
    · split
      · exact ⟨rfl, fun _ _ => rfl⟩
      · refine ⟨rfl, fun error heq => ?_⟩
        simp [WriteMemoryCommand.apiAnswer, WriteMemoryCommand.answer, herror] at heq
    · refine ⟨rfl, fun error heq => ?_⟩
      simp [WriteMemoryCommand.apiAnswer, WriteMemoryCommand.answer, herror, hconflict] at heq

/-- What a write accesses, once its data have been found to end inside the memory: the expected
data, if there are any, and the data. -/
theorem executeOn_blocks (cmd : WriteMemoryCommand) (b : Bus)
    (haddr : b.machine.base_segment_to_offset cmd.base + cmd.offset = addr) :
    (∀ block ∈ (cmd.ExecuteOn b).2.blocks, block ∈ b.blocks ∨
      addr.toNat + cmd.data.length ≤ b.machine.mem_total ∧
        (block = ⟨addr, cmd.data.length⟩ ∨ block = ⟨addr, cmd.expected_data.length⟩)) ∧
    (addr.toNat + cmd.data.length ≤ b.machine.mem_total → cmd.expected_data ≠ [] →
      ⟨addr, cmd.expected_data.length⟩ ∈ (cmd.ExecuteOn b).2.blocks) := by
  have hadd : ∀ {l : List Block} {x block : Block}, block ∈ l ++ [x] → block ∈ l ∨ block = x :=
    fun h => (List.mem_append.1 h).imp_right List.mem_singleton.1
  unfold WriteMemoryCommand.ExecuteOn
  rw [haddr]
  dsimp only
  by_cases hrange : b.machine.mem_total < addr.toNat + cmd.data.length
  · rw [if_pos hrange]
    exact ⟨fun block hblock => .inl hblock, fun hle => by omega⟩
  · rw [if_neg hrange]
    have hle := not_lt.1 hrange
    by_cases hexpected : cmd.expected_data ≠ []
    · rw [if_pos hexpected]
      split
      · exact ⟨fun block hblock => (hadd hblock).imp_right fun heq => ⟨hle, .inr heq⟩,
          fun _ _ => List.mem_append_right _ (List.mem_singleton_self _)⟩
      · refine ⟨fun block hblock => ?_, fun _ _ => ?_⟩
        · rcases hadd hblock with hblock | heq
          · exact (hadd hblock).imp_right fun heq => ⟨hle, .inr heq⟩
          · exact .inr ⟨hle, .inl heq⟩
        · exact List.mem_append_left _ (List.mem_append_right _ (List.mem_singleton_self _))
    · rw [if_neg hexpected]
      exact ⟨fun block hblock => (hadd hblock).imp_right fun heq => ⟨hle, .inl heq⟩,
        fun _ hne => absurd hne hexpected⟩

theorem write_proper_iff {r : WriteMemoryCommand.Request} (h : a.Inv) :
    (a.Proper from_base64 (.request (.write r)) ↔ a.Fits from_base64 (.request (.write r))) ∧
      (a.serve from_base64 (.write r)).api.Inv := by
  cases hput : WriteMemoryCommand.Put from_base64 r with
  | error error =>
    have hserve : a.serve from_base64 (.write r) = a.done (.error (.put error)) := by
      rw [serve, hput]
    obtain ⟨hproper, hinv⟩ := proper_done h hserve fun _ _ heq => by cases heq
    refine ⟨iff_of_true hproper fun cmd hcmd => ?_, hinv⟩
    rw [hput] at hcmd
    cases hcmd
  | ok cmd =>
    have hserve : a.serve from_base64 (.write r) =
        a.executed (cmd.ExecuteOn a.bus).2 (cmd.ExecuteOn a.bus).1.apiAnswer := by rw [serve, hput]
    have hwindow : a.windows from_base64 (.request (.write r)) =
        [((a.address cmd.base cmd.offset).toNat, cmd.data.length),
          ((a.address cmd.base cmd.offset).toNat, cmd.expected_data.length)] := by
      rw [windows, hput]
    have hfits : a.Fits from_base64 (.request (.write r)) ↔
        ((a.address cmd.base cmd.offset).toNat + cmd.data.length ≤ a.machine.mem_total →
          (a.address cmd.base cmd.offset).toNat + cmd.expected_data.length
            ≤ a.machine.mem_total) := by
      rw [Fits, hput]
      exact ⟨fun hf => hf cmd rfl, fun hf cmd' hcmd' => by cases hcmd'; exact hf⟩
    obtain ⟨herror, hconflict⟩ := fresh_of_put hput
    obtain ⟨hsize, hrefused⟩ := executeOn_machine cmd a.bus herror hconflict
    obtain ⟨hblocks, hexpected⟩ :=
      executeOn_blocks cmd a.bus (show _ = a.address cmd.base cmd.offset from rfl)
    obtain ⟨hproper, hinv⟩ := proper_executed h hserve hsize hrefused
    refine ⟨?_, hinv⟩
    rw [hproper, hwindow, hfits]
    constructor
    · intro hwithin hdata
      by_contra hpast
      -- the first address behind the memory is read
      have hne : cmd.expected_data ≠ [] := by
        intro hnil
        rw [hnil, List.length_nil] at hpast
        omega
      have htouched : a.machine.mem_total ∈
          addresses (a.address cmd.base cmd.offset) cmd.expected_data.length :=
        mem_addresses_total a.machine.mem_total_lt (by omega) (by omega)
      obtain ⟨w, -, -, -, hlt⟩ := hwithin _ (hexpected hdata hne) _ htouched
      exact absurd hlt (lt_irrefl _)
    · intro hfits block hblock
      obtain ⟨hdata, rfl | rfl⟩ := (hblocks block hblock).resolve_left List.not_mem_nil
      · exact Block.within_of_le List.mem_cons_self hdata a.machine.mem_total_lt
      · exact Block.within_of_le (List.mem_cons_of_mem _ (List.mem_singleton_self _))
          (hfits hdata) a.machine.mem_total_lt

/-! ## The frames -/

theorem applyFreezes_bus (entries : List FreezeEntry) (b : Bus) :
    (ApplyFreezes entries b).machine.mem.pages = b.machine.mem.pages ∧
      (ApplyFreezes entries b).blocks =
        b.blocks ++ entries.map fun e => ⟨e.address, e.buf.length⟩ := by
  induction entries generalizing b with
  | nil => exact ⟨rfl, (List.append_nil _).symm⟩
  | cons e entries ih =>
    obtain ⟨hpages, hblocks⟩ := ih (b.MEM_BlockWrite e.address e.buf)
    refine ⟨hpages, ?_⟩
    change (ApplyFreezes entries (b.MEM_BlockWrite e.address e.buf)).blocks = _
    rw [hblocks, Bus.MEM_BlockWrite, List.append_assoc]
    rfl

theorem length_buf (e : FreezeEntry) : e.buf.length = e.width.toNat := by
  rw [FreezeEntry.buf, List.length_map, List.length_range]

/-- The check of `Post` is right for an entry whose end is a number of 32 bits. -/
theorem ListOk.le_total {e : FreezeEntry} (h : ListOk total entries) (he : e ∈ entries)
    (hend : e.address.toNat + e.width.toNat < 2 ^ 32) :
    e.address.toNat + e.width.toNat ≤ total := by
  have hchecked := (h.checked e he).2
  have hwidth : e.width.toNat < UInt32.size := by
    change e.width.toNat < 2 ^ 32
    omega
  rwa [UInt32.toNat_add, UInt32.toNat_ofNat_of_lt' hwidth, Nat.mod_eq_of_lt hend] at hchecked

theorem frame_proper_iff (h : a.Inv) :
    (a.Proper from_base64 .applyFreezes ↔ a.Fits from_base64 .applyFreezes) ∧
      (a.step from_base64 .applyFreezes).api.Inv := by
  obtain ⟨hpages, hblocks⟩ := applyFreezes_bus a.entries a.bus
  have htotal : (ApplyFreezes a.entries a.bus).machine.mem_total = a.machine.mem_total := by
    rw [Machine.mem_total, Machine.mem_total, hpages]
    rfl
  have hlist : ListOk (ApplyFreezes a.entries a.bus).machine.mem_total a.entries := by
    rw [htotal]
    exact h
  refine ⟨⟨fun hproper e he => ?_, fun hfits => ⟨?_, fun error heq => ?_, h.distinct,
    h.bounded⟩⟩, hlist⟩
  · by_contra hend
    -- the address itself is touched, but the memory ends before it
    have hwidth : 0 < e.width.toNat ∧ e.width.toNat ≤ 4 := by
      rcases (h.checked e he).1 with hw | hw | hw <;> rw [hw] <;> decide
    have hmem : (⟨e.address, e.buf.length⟩ : Block) ∈
        (a.step from_base64 .applyFreezes).blocks := by
      change _ ∈ (ApplyFreezes a.entries a.bus).blocks
      rw [hblocks]
      exact List.mem_append_right _ (List.mem_map_of_mem he)
    obtain ⟨w, -, -, -, hlt⟩ := hproper.within _ hmem e.address.toNat
      (head_mem_addresses (by rw [length_buf]; exact hwidth.1))
    have := a.machine.mem.pages_le
    simp only [Machine.mem_total, MemPageSize, MaxPages] at hlt this
    omega
  · change ∀ block ∈ (ApplyFreezes a.entries a.bus).blocks, _
    rw [hblocks]
    intro block hblock
    obtain ⟨e, he, rfl⟩ := List.mem_map.1 hblock
    refine Block.within_of_le ?_ ?_ a.machine.mem_total_lt
    · rw [length_buf]
      exact List.mem_map_of_mem he
    · rw [length_buf]
      exact h.le_total he (hfits e he)
  · cases heq

/-! ## Runs -/

/-- Every action along a run of actions has the property, in the state it finds. -/
def Along (P : Api → ApiAction → Prop) (next : Api → ApiAction → Api) :
    Api → List ApiAction → Prop
  | _, [] => True
  | a, action :: actions => P a action ∧ Along P next (next a action) actions

theorem step_proper_iff (h : a.Inv) {action : ApiAction} (hsize : a.SameSize action) :
    (a.Proper from_base64 action ↔ a.Fits from_base64 action) ∧
      (a.step from_base64 action).api.Inv := by
  cases action with
  | request req =>
    cases req with
    | read r =>
      obtain ⟨hproper, hinv⟩ : a.Proper from_base64 (.request (.read r)) ∧ _ := read_proper h
      exact ⟨iff_of_true hproper trivial, hinv⟩
    | write r => exact write_proper_iff h
    | search r =>
      obtain ⟨hproper, hinv⟩ : a.Proper from_base64 (.request (.search r)) ∧ _ := search_proper h
      exact ⟨iff_of_true hproper trivial, hinv⟩
    | freeze r =>
      obtain ⟨hproper, hinv⟩ : a.Proper from_base64 (.request (.freeze r)) ∧ _ :=
        proper_done h rfl fun answer entries hpost => ListOk.post h hpost
      exact ⟨iff_of_true hproper trivial, hinv⟩
    | unfreeze field =>
      obtain ⟨hproper, hinv⟩ : a.Proper from_base64 (.request (.unfreeze field)) ∧ _ :=
        proper_done h rfl fun answer entries hdelete => ListOk.delete h hdelete
      exact ⟨iff_of_true hproper trivial, hinv⟩
  | applyFreezes => exact frame_proper_iff h
  | guest machine =>
    have htotal : machine.mem_total = a.machine.mem_total := by
      rw [Machine.mem_total, Machine.mem_total, show machine.mem.pages = _ from hsize]
    have hinv : (a.step from_base64 (.guest machine)).api.Inv := by
      change ListOk machine.mem_total a.entries
      rw [htotal]
      exact h
    have hanswer : ∀ error, (a.step from_base64 (.guest machine)).answer ≠ some (.error error) :=
      fun error heq => by cases heq
    exact ⟨iff_of_true ⟨fun block hblock => absurd hblock List.not_mem_nil,
      fun error heq => absurd heq (hanswer error), h.distinct, h.bounded⟩ trivial, hinv⟩

/-- **API accesses stay inside the memory.**  In a run of requests, frames and guest steps
that begins with an empty freeze list, every request and every frame touches only the block that
was asked for, inside the memory, every error leaves all as it was, and the freeze list holds
each address once and at most 256 of them, exactly when the expected data of every write end
inside the memory if its data do, and no frame finds a frozen value that ends behind the last
address of 32 bits. -/
theorem run_proper_iff (from_base64 : List Char → Option (List UInt8)) (a : Api)
    (hempty : a.entries = []) (actions : List ApiAction)
    (hsize : Along SameSize (fun a action => (a.step from_base64 action).api) a actions) :
    Along (Proper from_base64) (fun a action => (a.step from_base64 action).api) a actions ↔
      Along (Fits from_base64) (fun a action => (a.step from_base64 action).api) a actions := by
  have hinv : a.Inv := by
    rw [Inv, hempty]
    exact .nil _
  clear hempty
  induction actions generalizing a with
  | nil => exact Iff.rfl
  | cons action actions ih =>
    obtain ⟨hstep, hnext⟩ := step_proper_iff hinv hsize.1
    exact and_congr hstep (ih _ hsize.2 hnext)

/-- One page of memory and an empty freeze list. -/
def onePage : Api where
  machine := {
    mem :=
      { pages := 1
        mhandles := fun _ => 0
        bytes := fun _ => 0
        pages_le := (by decide : 1 ≤ 3072 * 256) }
    SegPhys := fun _ => 0 }
  entries := []

/-- A frozen value inside the page is written at the next frame. -/
theorem run_proper_onePage :
    Along (Proper fun _ => none) (fun a action => (a.step (fun _ => none) action).api) onePage
      [.request (.freeze ⟨.value 16, .value 7, .value 4⟩), .applyFreezes] := by
  have hsize : Along SameSize (fun a action => (a.step (fun _ => none) action).api) onePage
      [.request (.freeze ⟨.value 16, .value 7, .value 4⟩), .applyFreezes] :=
    ⟨trivial, trivial, trivial⟩
  refine (run_proper_iff _ onePage rfl _ hsize).2 ⟨trivial, ?_, trivial⟩
  intro e he
  obtain rfl : e = ⟨16, 7, 4⟩ := List.mem_singleton.1 he
  decide

/-- The range check of a frozen value at the last address of 32 bits wraps around, and a write of
one byte reads two expected bytes, the second of them behind the memory. -/
theorem accesses_behind_memory :
    ¬ Along (Proper fun _ => none) (fun a action => (a.step (fun _ => none) action).api) onePage
      [.request (.freeze ⟨.value 0xffffffff, .value 7, .value 1⟩), .applyFreezes] ∧
    ¬ Along (Proper fun _ => some [0, 0])
      (fun a action => (a.step (fun _ => some [0, 0]) action).api) onePage
      [.request (.write ⟨none, 4095, .binary [1], some []⟩)] := by
  constructor
  · rintro ⟨-, hproper, -⟩
    obtain ⟨w, -, -, -, hlt⟩ := hproper.within ⟨0xffffffff, 1⟩ (List.mem_singleton_self _)
      0xffffffff (List.mem_singleton_self _)
    exact absurd hlt (by decide)
  · rintro ⟨hproper, -⟩
    obtain ⟨w, -, -, -, hlt⟩ := hproper.within ⟨4095, 2⟩ List.mem_cons_self
      4096 (List.mem_cons_of_mem _ (List.mem_singleton_self _))
    exact absurd hlt (by decide)

end Api

end Webserver

end AugraDosbox
