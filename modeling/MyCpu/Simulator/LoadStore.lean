import MyCpu.Rv32.Pipeline
import MyCpu.Rv32.SingleCycleIsa
import MyCpu.Simulator.Devices

/-!
# Loads and stores of the CPUs in `pmem`

`memory_access` of the single-cycle CPU and `memory_access_pipe` of the five-stage pipeline, with
their DPI calls carried out by the simulator.

* `Config.guest` : `pmem` at guest addresses;
* `readHalf_eq`, `writeHalf_eq` : inside `pmem` a memory stage does there what it does on an array
  of bytes, so that `single_refines` and `pipe_refines` carry over what is proved of the CPUs;
* `latest` : the bytes after a sequence of stores;
* `delivered_eq` : a load delivers them.
-/

namespace MyCpu.Simulator

open Rv32 (Word Mem WriteCall byteLen loadExtend loadData storeCall)
open Rv32.Isa (LoadOp StoreOp)
open Bytes

/-! ## The memory stage -/

/-- The inputs of `memory_access` and of `memory_access_pipe`. -/
structure MemIn where
  opcode : BitVec 7
  funct3 : BitVec 3
  aluResult : Word
  rs2Data : Word
  pc : Word

/-- `mem_data_o` of both modules. -/
def readHalf (c : Config) (time : Word) (i : MemIn) : Sim Word :=
  if i.opcode = Rv32.opLoad then do
    return loadExtend i.funct3 (← dpiMemRead c time i.aluResult (byteLen i.funct3))
  else return 0#32

/-- What both modules do at the posedge. -/
def writeHalf (c : Config) (i : MemIn) : Sim Unit :=
  match storeCall i.opcode i.funct3 i.aluResult i.rs2Data i.pc with
  | some w => dpiMemWrite c w.addr w.data w.len
  | none => pure ()

structure MemStage where
  read : MemIn → Sim Word
  write : MemIn → Sim Unit

def memoryAccess (c : Config) (time : Word) : MemStage := ⟨readHalf c time, writeHalf c⟩

def memoryAccessPipe (c : Config) (time : Word) : MemStage := ⟨readHalf c time, writeHalf c⟩

/-- One instruction after the other: each is read for, and at the posedge written. -/
def runClocks (stage : MemStage) : List MemIn → Sim Unit
  | [] => pure ()
  | i :: is => do
      discard (stage.read i)
      stage.write i
      runClocks stage is

/-- How the single-cycle CPU drives `memory_access`. -/
def singleIn (u : Rv32.Single.State) : MemIn :=
  ⟨u.f.opcode, u.f.funct3, u.ex.aluResult, u.rs2Data, u.PC⟩

/-- How the pipeline drives `memory_access_pipe`. -/
def pipeIn (u : Rv32.Pipe.State) : MemIn :=
  ⟨u.mem.opcode, u.mem.funct3, u.mem.aluResult, u.mem.rs2Data, u.mem.pc⟩

/-! ## Guest memory -/

namespace Config

/-- The bytes at the guest addresses. -/
def guest (c : Config) (m : Memory) : Mem := fun a => m (guestToHost c a)

/-- `n` bytes from `addr` on are in `pmem`. -/
def Holds (c : Config) (addr : Word) (n : Nat) : Prop :=
  c.mbase ≤ addr.toNat ∧ addr.toNat + n ≤ c.mbase + c.msize

instance (c : Config) (addr : Word) (n : Nat) : Decidable (c.Holds addr n) := by
  unfold Holds; infer_instance

/-- If the instruction accesses memory, then in `pmem`. -/
def Covers (c : Config) (i : MemIn) : Prop :=
  i.opcode = Rv32.opLoad ∨ i.opcode = Rv32.opStore → c.Holds i.aluResult (byteLen i.funct3).toNat

/-- No device is in `pmem`, and its end has 32 bits. -/
structure Apart (c : Config) : Prop where
  fits : ¬c.Wraps
  rtc : ∀ addr, IsRtc addr → ¬c.Holds addr 1
  serial : ¬c.Holds serialMmio 1

end Config

section

variable {c : Config} {addr len : Word}

theorem holds_one (hlen : IsLen len) (h : c.Holds addr len.toNat) : c.Holds addr 1 := by
  have hpos : 1 ≤ len.toNat := by
    rcases hlen with h | h | h <;> rw [h] <;> decide
  exact ⟨h.1, Nat.le_trans (Nat.add_le_add_left hpos _) h.2⟩

theorem serves_of_holds (hc : c.Apart) (h : c.Holds addr 1) : c.Serves addr :=
  ⟨h.1, h.2, hc.fits⟩

theorem isLen_byteLen (funct3 : BitVec 3) : IsLen (byteLen funct3) := by
  unfold byteLen IsLen
  split_ifs
  · exact .inl rfl
  · exact .inr (.inl rfl)
  · exact .inr (.inr rfl)

theorem dpiMemRead_run (hc : c.Apart) (hlen : IsLen len) (h : c.Holds addr len.toNat) (time : Word)
    (s : HostState) : dpiMemRead c time addr len s =
      some ((read s.mem (guestToHost c addr) len.toNat).setWidth 32,
        { s with touched := s.touched ++ offsets (guestToHost c addr) len.toNat }) := by
  have h1 := holds_one hlen h
  have ht : readTarget c addr = .pmem :=
    (readTarget_iff c addr).2.mpr ⟨fun hr => hc.rtc addr hr h1, serves_of_holds hc h1⟩
  rw [dpiMemRead_eq, ht]
  exact hostRead_eq hlen _ s

theorem dpiMemWrite_run (hc : c.Apart) (hlen : IsLen len) (h : c.Holds addr len.toNat) (data : Word)
    (s : HostState) : dpiMemWrite c addr data len s = some ((), { s with
      mem := write s.mem (guestToHost c addr) (data.setWidth (8 * len.toNat))
      touched := s.touched ++ offsets (guestToHost c addr) len.toNat }) := by
  have h1 := holds_one hlen h
  have ht : writeTarget c addr = .pmem :=
    (writeTarget_iff c addr).2.mpr ⟨fun hs => hc.serial (hs ▸ h1), serves_of_holds hc h1⟩
  rw [dpiMemWrite_eq, ht]
  exact hostWrite_eq hlen _ data s

/-! ### The array of bytes -/

theorem guestToHost_add {k : Nat} (h : addr.toNat + k < 2 ^ 32) :
    guestToHost c (addr + BitVec.ofNat 32 k) = guestToHost c addr + k := by
  unfold guestToHost
  rw [BitVec.toNat_add, BitVec.toNat_ofNat, Nat.mod_eq_of_lt (a := k) (by omega), Nat.mod_eq_of_lt h]
  omega

theorem guest_read (hlen : IsLen len) (h : addr.toNat + len.toNat ≤ 2 ^ 32) (m : Memory) :
    (read m (guestToHost c addr) len.toNat).setWidth 32 = Rv32.hostRead (c.guest m) addr len := by
  have hadd : ∀ k < len.toNat, c.guest m (addr + BitVec.ofNat 32 k) = m (guestToHost c addr + k) :=
    fun k hk => congrArg m (guestToHost_add (by omega))
  rcases hlen with rfl | rfl | rfl
  · exact congrArg (BitVec.setWidth 32) (read_one m _)
  · unfold Rv32.hostRead
    rw [if_neg (by decide), if_pos rfl, hadd 1 (by decide)]
    exact congrArg (BitVec.setWidth 32) (read_two m _)
  · unfold Rv32.hostRead
    rw [if_neg (by decide), if_neg (by decide), hadd 1 (by decide), hadd 2 (by decide), hadd 3 (by decide)]
    exact (BitVec.setWidth_eq _).trans (read_four m _)

theorem sub_lt_iff {a b : Word} {n : Nat} (h : a.toNat + n ≤ 2 ^ 32) :
    (b - a).toNat < n ↔ a.toNat ≤ b.toNat ∧ b.toNat < a.toNat + n := by
  have ha := a.isLt
  have hb := b.isLt
  rw [BitVec.toNat_sub]
  omega

theorem guest_write (hlen : IsLen len) (h : addr.toNat + len.toNat ≤ 2 ^ 32) (m : Memory) (data : Word) :
    c.guest (write m (guestToHost c addr) (data.setWidth (8 * len.toNat))) =
      Rv32.hostWrite (c.guest m) addr len data := by
  funext b
  have hle : len.toNat ≤ 4 := by
    rcases hlen with h | h | h <;> rw [h] <;> decide
  have hbyte : Rv32.hostWrite (c.guest m) addr len data b =
      if (b - addr).toNat < len.toNat then data.extractLsb' (8 * (b - addr).toNat) 8
      else c.guest m b := by
    rcases hlen with rfl | rfl | rfl
    · exact Rv32.hostWrite_one _ _ _ _
    · exact Rv32.hostWrite_two _ _ _ _
    · exact Rv32.hostWrite_four _ _ _ _
  have hin := sub_lt_iff (b := b) h
  rw [hbyte]
  unfold Config.guest guestToHost
  by_cases hb : (b - addr).toNat < len.toNat
  · have hk : ((b.toNat : Int) - c.mbase - (addr.toNat - c.mbase)).toNat = (b - addr).toNat := by
      rw [BitVec.toNat_sub_of_le (hin.mp hb).1]
      omega
    rw [if_pos hb, write_of_covered m _ (by omega), hk]
    exact BitVec.extractLsb'_setWidth_of_le (by omega)
  · rw [if_neg hb, write_of_not_covered m _ (by omega)]

/-! ### Clocks -/

/-- The host bytes an instruction writes. -/
def MemIn.effect (c : Config) (i : MemIn) : Option Write :=
  if i.opcode = Rv32.opStore then
    some ⟨guestToHost c i.aluResult, (byteLen i.funct3).toNat, i.rs2Data.setWidth _⟩
  else none

/-- The array of bytes after an instruction. -/
def MemIn.after (m : Mem) (i : MemIn) : Mem :=
  m.after (storeCall i.opcode i.funct3 i.aluResult i.rs2Data i.pc)

variable {i : MemIn}

theorem guest_effect (h : c.Covers i) (m : Memory) :
    c.guest (applyAll (i.effect c).toList m) = i.after (c.guest m) := by
  unfold MemIn.effect MemIn.after storeCall
  by_cases hop : i.opcode = Rv32.opStore
  · rw [if_pos hop, if_pos hop]
    exact guest_write (isLen_byteLen _) (Nat.le_trans (h (.inr hop)).2 c.fits) _ _
  · rw [if_neg hop, if_neg hop]
    rfl

theorem applyAll_filterMap_cons (i : MemIn) (is : List MemIn) (m : Memory) :
    applyAll ((i :: is).filterMap (MemIn.effect c)) m =
      applyAll (is.filterMap (MemIn.effect c)) (applyAll (i.effect c).toList m) := by
  rw [List.filterMap_cons]
  cases i.effect c <;> rfl

theorem guest_applyAll {is : List MemIn} (h : ∀ i ∈ is, c.Covers i) (m : Memory) :
    c.guest (applyAll (is.filterMap (MemIn.effect c)) m) = is.foldl MemIn.after (c.guest m) := by
  induction is generalizing m with
  | nil => rfl
  | cons i is ih =>
      rw [applyAll_filterMap_cons, ih fun j hj => h j (List.mem_cons_of_mem i hj),
        guest_effect (h i List.mem_cons_self)]
      rfl

variable (hc : c.Apart)

include hc

theorem readHalf_run (h : c.Covers i) (time : Word) (s : HostState) : ∃ t, readHalf c time i s =
    some (loadData (c.guest s.mem) i.opcode i.funct3 i.aluResult, { s with touched := t }) := by
  unfold readHalf loadData
  by_cases hop : i.opcode = Rv32.opLoad
  · have hin := h (.inl hop)
    have hv := guest_read (c := c) (isLen_byteLen i.funct3) (Nat.le_trans hin.2 c.fits) s.mem
    rw [if_pos hop, if_pos hop]
    refine ⟨s.touched ++ offsets (guestToHost c i.aluResult) (byteLen i.funct3).toNat, ?_⟩
    rw [bind_run (dpiMemRead_run hc (isLen_byteLen _) hin time s), hv]
    rfl
  · rw [if_neg hop, if_neg hop]
    exact ⟨s.touched, rfl⟩

theorem writeHalf_run (h : c.Covers i) (s : HostState) : ∃ t, writeHalf c i s =
    some ((), { s with mem := applyAll (i.effect c).toList s.mem, touched := t }) := by
  unfold writeHalf storeCall MemIn.effect
  by_cases hop : i.opcode = Rv32.opStore
  · rw [if_pos hop, if_pos hop]
    exact ⟨_, dpiMemWrite_run hc (isLen_byteLen _) (h (.inr hop)) _ s⟩
  · rw [if_neg hop, if_neg hop]
    exact ⟨s.touched, rfl⟩

/-- A sequence of clocks ends without a failed assertion, and with the bytes written one after the
other. -/
theorem runClocks_run {is : List MemIn} (h : ∀ i ∈ is, c.Covers i) (time : Word) (s : HostState) :
    ∃ t, runClocks ⟨readHalf c time, writeHalf c⟩ is s =
      some ((), { s with mem := applyAll (is.filterMap (MemIn.effect c)) s.mem, touched := t }) := by
  induction is generalizing s with
  | nil => exact ⟨s.touched, rfl⟩
  | cons i is ih =>
      have hi := h i List.mem_cons_self
      obtain ⟨t, hr⟩ := readHalf_run hc hi time s
      obtain ⟨t', hw⟩ := writeHalf_run hc hi { s with touched := t }
      obtain ⟨t'', hrest⟩ := ih (fun j hj => h j (List.mem_cons_of_mem i hj))
        { s with mem := applyAll (i.effect c).toList s.mem, touched := t' }
      have hd : discard (readHalf c time i) s = some ((), { s with touched := t }) := by
        show (readHalf c time i s).bind _ = _
        rw [hr]
        rfl
      refine ⟨t'', (bind_run hd _).trans ((bind_run hw _).trans ?_)⟩
      rw [applyAll_filterMap_cons]
      exact hrest

end

/-! ## The CPUs -/

section

variable {c : Config} (hc : c.Apart) (time : Word) (s : HostState)

include hc

/-- A CPU whose memory stage gets `ins k` in clock `k`, and whose memory is `m k` before it. -/
theorem refines_of_after {ins : Nat → MemIn} {m : Nat → Mem} (h0 : m 0 = c.guest s.mem)
    (hstep : ∀ t, m (t + 1) = (ins t).after (m t)) {t : Nat} (h : ∀ k < t, c.Covers (ins k)) :
    ∃ s', runClocks ⟨readHalf c time, writeHalf c⟩ ((List.range t).map ins) s = some ((), s') ∧
      c.guest s'.mem = m t := by
  have hall : ∀ i ∈ (List.range t).map ins, c.Covers i := by
    intro i hi
    obtain ⟨k, hk, rfl⟩ := List.mem_map.mp hi
    exact h k (List.mem_range.mp hk)
  have hfold : ∀ t, ((List.range t).map ins).foldl MemIn.after (c.guest s.mem) = m t := by
    intro t
    induction t with
    | zero => exact h0.symm
    | succ t ih =>
        rw [List.range_succ, List.map_append, List.foldl_append, ih, hstep]
        rfl
  obtain ⟨t', hrun⟩ := runClocks_run hc hall time s
  exact ⟨_, hrun, (guest_applyAll hall s.mem).trans (hfold t)⟩

/-- As long as its accesses stay in `pmem`, the single-cycle CPU finds there what it finds in an array
of bytes. -/
theorem single_refines (rf : Rv32.RegFile) {t : Nat}
    (h : ∀ k < t, c.Covers (singleIn (Rv32.Single.trace rf (c.guest s.mem) k))) :
    ∃ s', runClocks (memoryAccess c time)
        ((List.range t).map fun k => singleIn (Rv32.Single.trace rf (c.guest s.mem) k)) s = some ((), s') ∧
      c.guest s'.mem = (Rv32.Single.trace rf (c.guest s.mem) t).pmem :=
  refines_of_after (m := fun t => (Rv32.Single.trace rf (c.guest s.mem) t).pmem) hc time s rfl
    (fun _ => rfl) h

/-- And so does the pipeline. -/
theorem pipe_refines (rf : Rv32.RegFile) {t : Nat}
    (h : ∀ k < t, c.Covers (pipeIn (Rv32.Pipe.trace rf (c.guest s.mem) k))) :
    ∃ s', runClocks (memoryAccessPipe c time)
        ((List.range t).map fun k => pipeIn (Rv32.Pipe.trace rf (c.guest s.mem) k)) s = some ((), s') ∧
      c.guest s'.mem = (Rv32.Pipe.trace rf (c.guest s.mem) t).pmem :=
  refines_of_after (m := fun t => (Rv32.Pipe.trace rf (c.guest s.mem) t).pmem) hc time s rfl
    (fun _ => rfl) h

end

/-! ## Stores and a load -/

structure Store where
  op : StoreOp
  addr : Word
  data : Word
  pc : Word

structure Load where
  op : LoadOp
  addr : Word
  rs2Data : Word
  pc : Word

def Store.memIn (w : Store) : MemIn := ⟨Rv32.opStore, w.op.funct3, w.addr, w.data, w.pc⟩

def Load.memIn (l : Load) : MemIn := ⟨Rv32.opLoad, l.op.funct3, l.addr, l.rs2Data, l.pc⟩

/-- What the load delivers when it follows the stores. -/
def delivered (stage : MemStage) (stores : List Store) (l : Load) (s : HostState) : Option Word :=
  ((do
    runClocks stage (stores.map Store.memIn)
    stage.read l.memIn : Sim Word) s).map Prod.fst

/-- The low bytes of the data. -/
def Store.write (c : Config) (w : Store) : Write :=
  ⟨guestToHost c w.addr, w.op.bytes, w.data.setWidth (8 * w.op.bytes)⟩

/-- The byte the last store to cover it has put at an address, or else the initial one. -/
def latest (c : Config) (m : Memory) (stores : List Store) : Mem := fun a =>
  (lastTo (stores.map (Store.write c)) (guestToHost c a)).elim (c.guest m a) fun w =>
    w.byteAt (guestToHost c a)

section

variable {c : Config}

theorem Store.effect_memIn (w : Store) : w.memIn.effect c = some (w.write c) := by
  obtain ⟨op, addr, data, pc⟩ := w
  cases op <;> rfl

theorem Store.covers_memIn {w : Store} (h : c.Holds w.addr w.op.bytes) : c.Covers w.memIn := by
  have hlen : (byteLen w.op.funct3).toNat = w.op.bytes := by cases w.op <;> rfl
  intro _
  exact hlen ▸ h

theorem Load.covers_memIn {l : Load} (h : c.Holds l.addr l.op.bytes) : c.Covers l.memIn := by
  have hlen : (byteLen l.op.funct3).toNat = l.op.bytes := by cases l.op <;> rfl
  intro _
  exact hlen ▸ h

theorem guest_stores (stores : List Store) (m : Memory) :
    c.guest (applyAll ((stores.map Store.memIn).filterMap (MemIn.effect c)) m) = latest c m stores := by
  have hmap : (stores.map Store.memIn).filterMap (MemIn.effect c) = stores.map (Store.write c) := by
    rw [List.filterMap_map, funext (f := MemIn.effect c ∘ Store.memIn) Store.effect_memIn]
    exact congrFun List.filterMap_eq_map' stores
  rw [hmap]
  funext a
  exact applyAll_apply _ m _

theorem delivered_of_inside (hc : c.Apart) {stores : List Store}
    (hs : ∀ w ∈ stores, c.Holds w.addr w.op.bytes) {l : Load} (hl : c.Holds l.addr l.op.bytes)
    (time : Word) (s : HostState) :
    delivered ⟨readHalf c time, writeHalf c⟩ stores l s =
      some (l.op.value (latest c s.mem stores) l.addr) := by
  have hall : ∀ i ∈ stores.map Store.memIn, c.Covers i := by
    intro i hi
    obtain ⟨w, hw, rfl⟩ := List.mem_map.mp hi
    exact Store.covers_memIn (hs w hw)
  obtain ⟨t, hrun⟩ := runClocks_run hc hall time s
  obtain ⟨t', hread⟩ := readHalf_run hc (Load.covers_memIn hl) time
    { s with mem := applyAll ((stores.map Store.memIn).filterMap (MemIn.effect c)) s.mem, touched := t }
  have hvalue := Rv32.loadExtend_eq l.op (latest c s.mem stores) l.addr
  rw [guest_stores] at hread
  rw [← hvalue]
  exact congrArg (Option.map Prod.fst) ((bind_run hrun fun _ => readHalf c time l.memIn).trans hread)

end

/-- After any stores in `pmem`, aligned or not and overlapping or not, a load in `pmem` delivers the
sign- or zero-extension of the bytes stored last, in either CPU. -/
theorem delivered_eq {c : Config} (hc : c.Apart) (time : Word) (s : HostState) (stores : List Store)
    (l : Load) (hs : ∀ w ∈ stores, c.Holds w.addr w.op.bytes) (hl : c.Holds l.addr l.op.bytes) :
    delivered (memoryAccess c time) stores l s = some (l.op.value (latest c s.mem stores) l.addr) ∧
      delivered (memoryAccessPipe c time) stores l s =
        some (l.op.value (latest c s.mem stores) l.addr) :=
  ⟨delivered_of_inside hc hs hl time s, delivered_of_inside hc hs hl time s⟩

theorem apart_dram : dram.Apart where
  fits := by decide
  rtc := by
    intro addr hrtc hin
    have hend : addr.toNat + 1 ≤ 0x80000000 + 0x8000000 := hin.2
    exact absurd (Nat.le_trans (Nat.add_le_add_right hrtc.1 1) hend) (by decide)
  serial := by decide

/-- A byte is stored over a word, and a half-word with both is loaded. -/
theorem delivered_dram :
    let stores := [⟨.sw, 0x80000100#32, 0x11229944#32, 0x80000000#32⟩,
      ⟨.sb, 0x80000101#32, 0x000000ff#32, 0x80000004#32⟩]
    let l := ⟨.lh, 0x80000101#32, 0#32, 0x80000008#32⟩
    delivered (memoryAccess dram 0#32) stores l ⟨fun _ => 0#8, [], []⟩ = some 0x22ff#32 ∧
      delivered (memoryAccessPipe dram 0#32) stores l ⟨fun _ => 0#8, [], []⟩ = some 0x22ff#32 :=
  delivered_eq apart_dram 0#32 ⟨fun _ => 0#8, [], []⟩ _ _ (by decide) (by decide)

end MyCpu.Simulator
