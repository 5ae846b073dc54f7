import MyCpu.Rv32.SingleCycle
import MyCpu.Rv32.Forwarding
import MyCpu.Rv32.ProgramOrder

/-!
# The pipeline refines the single-cycle CPU

Both CPUs start from the same register file and memory. With `k` instructions retired, the one in
MEM/WB is number `k` of the single-cycle run, the one in EX/MEM number `posM`, and so on to the
front. `Back` says what MEM and WB hold of their instructions, what memory and register file are
and where the next instruction to retire is; `Front` says which words EX and ID hold, the latter
only while EX does not redirect.

* `step_mem_of_ex` : EX computes what the single-cycle CPU computes for the same instruction;
* `back_step`, `front_step` : a clock keeps both halves;
* `pipeline_refines` : the commits, the register file and the memory writes of every run.
-/

namespace MyCpu.Rv32.Pipe

open Clocked

/-! ## One instruction in both CPUs -/

/-- What EX/MEM holds of the instruction the single-cycle CPU is about to execute. -/
def exMemOf (u : Single.State) : ExMem :=
  ⟨u.PC, u.f.instr, u.f.valP, u.f.opcode, u.f.rd, u.f.funct3, u.ex.aluResult, u.rs2Data, u.nextPc⟩

/-- What MEM/WB holds of it. -/
def memWbOf (u : Single.State) : MemWb :=
  ⟨u.PC, u.f.instr, u.f.valP, u.f.opcode, u.f.rd, u.ex.aluResult, u.memData, u.nextPc⟩

theorem step_regfile_of_wb {s : State} {u : Single.State} (hw : s.wb = memWbOf u)
    (hr : s.regfile = u.regfile) : (step s).regfile = (Single.step u).regfile := by
  rw [step_regfile, State.wbOut, hw, hr]
  rfl

theorem step_wb_of_mem {s : State} {u : Single.State} (hm : s.mem = exMemOf u)
    (hp : s.pmem = u.pmem) : (step s).wb = memWbOf u := by
  rw [step_wb, hm, hp]
  rfl

theorem memWrite_of_mem {s : State} {u : Single.State} (hm : s.mem = exMemOf u) :
    s.memWrite = u.memWrite := by
  rw [State.memWrite, hm]
  rfl

/-- `ex_next_pc` is `next_pc_o`. -/
theorem exNextPc_eq {s : State} {u : Single.State} (hf : s.ex.toFields = u.f.toFields)
    (hpc : s.ex.pc = u.PC) (hp4 : s.ex.pcPlus4 = u.f.valP) (h1 : s.rs1Val = u.rs1Data)
    (h2 : s.rs2Val = u.rs2Data) : s.exNextPc = u.nextPc := by
  have ht : s.exOut.branchTaken = (u.f.opcode == opJal || u.f.opcode == opJalr ||
      (u.f.opcode == opBranch && branchCond u.f.toFields u.rs1Data u.rs2Data)) := by
    rw [← h1, ← h2, ← hf]
    rfl
  have hg : s.exOut.pcTarget = if u.f.opcode = opJal then u.PC + u.f.imm
      else if u.f.opcode = opJalr then (u.rs1Data + u.f.imm) &&& 0xFFFFFFFE#32
      else if u.f.opcode = opBranch then u.PC + u.f.imm else u.f.valP := by
    rw [← h1, ← hpc, ← hp4, ← hf]
    rfl
  have hn : u.nextPc = if u.f.opcode = opJal then u.PC + u.f.imm
      else if u.f.opcode = opJalr then (u.rs1Data + u.f.imm) &&& 0xFFFFFFFE#32
      else if u.f.opcode = opBranch then
        if branchCond u.f.toFields u.rs1Data u.rs2Data then u.PC + u.f.imm else u.f.valP
      else u.f.valP := rfl
  rw [State.exNextPc, ht, hg, hn, hp4]
  by_cases hjal : u.f.opcode = opJal
  · simp [hjal]
  by_cases hjalr : u.f.opcode = opJalr
  · simp +decide [hjalr]
  by_cases hbr : u.f.opcode = opBranch
  · simp +decide [hbr]
  · simp [hjal, hjalr, hbr]

/-- EX computes what the single-cycle CPU computes for the same instruction. -/
theorem step_mem_of_ex {s : State} {u : Single.State} (h : Inv s) (hpc : s.ex.pc = u.PC)
    (hinstr : s.ex.instr = u.f.instr) (hr : (step (step s)).regfile = u.regfile)
    (hs : Supported s.mem.opcode) : (step s).mem = exMemOf u := by
  have hf : s.ex.toFields = u.f.toFields := by rw [h.ex_fields, hinstr]; rfl
  have hp4 : s.ex.pcPlus4 = u.f.valP := by rw [h.ex_pcPlus4, hpc]; rfl
  have h1 : s.rs1Val = u.rs1Data := by
    rw [rs1Val_eq h (writesReg_of_forward fun _ _ => hs), hr, Single.State.rs1Data, ← hf]
  have h2 : s.rs2Val = u.rs2Data := by
    rw [rs2Val_eq h (writesReg_of_forward fun _ _ => hs), hr, Single.State.rs2Data, ← hf]
  have halu : s.exOut.aluResult = u.ex.aluResult := by
    have hu : u.ex.aluResult = aluResult u.f.toFields u.rs1Data u.rs2Data u.PC u.f.valP := rfl
    rw [hu, ← h1, ← h2, ← hf, ← hpc, ← hp4]
    rfl
  rw [step_mem, halu, exRs2Fwd_eq, h2, exNextPc_eq hf hpc hp4 h1 h2, hpc, hinstr, hp4,
    congrArg Fields.opcode hf, congrArg Fields.rd hf, congrArg Fields.funct3 hf]
  rfl

/-! ## The simulation -/

/-- The first `n` instructions of the single-cycle run have opcodes the CPUs know, and none of
their stores changes a word that a later one of them is fetched from. -/
structure Executable (rf : RegFile) (m : Mem) (n : Nat) : Prop where
  supported : ∀ i < n, Supported (Single.trace rf m i).f.opcode
  fetch_stable : ∀ j < n, ∀ i < j,
    dpiInstrMemRead (Single.trace rf m (i + 1)).pmem (Single.trace rf m j).PC =
      dpiInstrMemRead (Single.trace rf m i).pmem (Single.trace rf m j).PC

/-- Fetching early reads what the single-cycle CPU reads when the instruction's turn comes. -/
theorem Executable.fetch_eq {rf : RegFile} {m : Mem} {n : Nat} (h : Executable rf m n) {i j : Nat}
    (hij : i ≤ j) (hj : j < n) :
    dpiInstrMemRead (Single.trace rf m i).pmem (Single.trace rf m j).PC =
      (Single.trace rf m j).f.instr := by
  induction hij using Nat.decreasingInduction with
  | self => rfl
  | of_succ i hi ih => exact (h.fetch_stable j hj i hi).symm.trans ih

section

variable (rf : RegFile) (m : Mem) (n : Nat)

/-- Memory, register file, the instructions in MEM and WB and the address of the next one to
retire, as far as these are among the first `n`. -/
structure Back (s : State) (sl : Slots Fetched) (k : Nat) : Prop where
  regfile : k ≤ n → s.regfile = (Single.trace rf m k).regfile
  pmem : sl.posM k ≤ n → s.pmem = (Single.trace rf m (sl.posM k)).pmem
  next : k ≤ n → nextW s sl = (Single.trace rf m k).PC
  wb : sl.w ≠ none → k < n → s.wb = memWbOf (Single.trace rf m k)
  mem : sl.m ≠ none → sl.posM k < n → s.mem = exMemOf (Single.trace rf m (sl.posM k))

/-- The words in EX and ID. While EX redirects, the one in ID is on the wrong path. -/
structure Front (s : State) (sl : Slots Fetched) (k : Nat) : Prop where
  ex : sl.e ≠ none → sl.posE k < n → s.ex.instr = (Single.trace rf m (sl.posE k)).f.instr
  id : s.exOut.branchTaken = false → sl.d ≠ none → sl.posD k < n →
    s.id.instr = (Single.trace rf m (sl.posD k)).f.instr

end

section

variable {rf : RegFile} {m : Mem} {n : Nat} {s : State} {sl : Slots Fetched} {k : Nat}

/-- The register file once WB's instruction has left. -/
theorem Back.step_regfile (h : Inv s) (hs : Shows s sl) (hb : Back rf m n s sl k)
    (hn : sl.posM k ≤ n) :
    (step s).regfile = (Single.trace rf m (sl.posM k)).regfile := by
  cases hw : sl.w with
  | none =>
      have hp : sl.posM k = k := by simp [Slots.posM, hw]
      rw [hp] at hn ⊢
      rw [← hb.regfile hn, Pipe.step_regfile, RegFile.after, RegFile.write, if_neg]
      rintro ⟨-, hne⟩
      exact hne ((writeBackTable_wrAddr _ _ _ _ _).trans (wb_of_bubble h hs hw))
  | some x =>
      have hp : sl.posM k = k + 1 := by simp [Slots.posM, hw]
      rw [hp] at hn ⊢
      exact step_regfile_of_wb (hb.wb (by simp [hw]) hn) (hb.regfile (Nat.le_of_lt hn))

/-- The memory once MEM's instruction has left. -/
theorem Back.step_pmem (h : Inv s) (hs : Shows s sl) (hb : Back rf m n s sl k)
    (hn : sl.posE k ≤ n) : (step s).pmem = (Single.trace rf m (sl.posE k)).pmem := by
  cases hm : sl.m with
  | none =>
      have hp : sl.posE k = sl.posM k := by simp [Slots.posE, hm]
      rw [hp] at hn ⊢
      rw [← hb.pmem hn, Pipe.step_pmem, memWrite_of_bubble h hs hm]
      rfl
  | some x =>
      have hp : sl.posE k = sl.posM k + 1 := by simp [Slots.posE, hm]
      rw [hp] at hn ⊢
      rw [Pipe.step_pmem, memWrite_of_mem (hb.mem (by simp [hm]) hn), hb.pmem (Nat.le_of_lt hn)]
      rfl

/-- The opcode in MEM is a supported one, be it a bubble's. -/
theorem Back.supported (h : Inv s) (hs : Shows s sl) (hb : Back rf m n s sl k)
    (hx : Executable rf m n) (hn : sl.posE k ≤ n) : Supported s.mem.opcode := by
  cases hm : sl.m with
  | none => rw [(mem_of_bubble h hs hm).1]; decide
  | some x =>
      have hp : sl.posE k = sl.posM k + 1 := by simp [Slots.posE, hm]
      have hlt : sl.posM k < n := by omega
      rw [hb.mem (by simp [hm]) hlt]
      exact hx.supported _ hlt

/-- The register file once the instructions in WB and MEM have left. -/
theorem Back.step_step_regfile (h : Inv s) (hs : Shows s sl) (hb : Back rf m n s sl k)
    (hn : sl.posE k ≤ n) :
    (step (step s)).regfile = (Single.trace rf m (sl.posE k)).regfile := by
  have hle : sl.posM k ≤ n := Nat.le_trans (Nat.le_add_right _ _) hn
  have hr := hb.step_regfile h hs hle
  cases hm : sl.m with
  | none =>
      have hp : sl.posE k = sl.posM k := by simp [Slots.posE, hm]
      rw [hp, ← hr, Pipe.step_regfile (step s), RegFile.after, RegFile.write, if_neg]
      rintro ⟨-, hne⟩
      exact hne ((writeBackTable_wrAddr _ _ _ _ _).trans (mem_of_bubble h hs hm).2)
  | some x =>
      have hp : sl.posE k = sl.posM k + 1 := by simp [Slots.posE, hm]
      rw [hp] at hn ⊢
      exact step_regfile_of_wb (step_wb_of_mem (hb.mem (by simp [hm]) hn) (hb.pmem hle)) hr

/-- The address of the next instruction to enter WB. -/
theorem Back.nextM (ho : Ordered s sl) (hb : Back rf m n s sl k) (hn : sl.posM k ≤ n) :
    nextM s sl = (Single.trace rf m (sl.posM k)).PC := by
  cases hw : sl.w with
  | none =>
      have hp : sl.posM k = k := by simp [Slots.posM, hw]
      have hnx : nextW s sl = Pipe.nextM s sl := by rw [nextW, hw, Option.elim_none]
      rw [hp] at hn ⊢
      rw [← hnx, hb.next hn]
  | some x =>
      have hp : sl.posM k = k + 1 := by simp [Slots.posM, hw]
      rw [hp] at hn ⊢
      rw [← ho.w (by simp [hw]), hb.wb (by simp [hw]) hn]
      rfl

/-- The address of the next instruction to enter MEM. -/
theorem Back.nextE (ho : Ordered s sl) (hb : Back rf m n s sl k) (hn : sl.posE k ≤ n) :
    nextE s sl = (Single.trace rf m (sl.posE k)).PC := by
  cases hm : sl.m with
  | none =>
      have hp : sl.posE k = sl.posM k := by simp [Slots.posE, hm]
      have hnx : Pipe.nextM s sl = Pipe.nextE s sl := by rw [Pipe.nextM, hm, Option.elim_none]
      rw [hp] at hn ⊢
      rw [← hnx, hb.nextM ho hn]
  | some x =>
      have hp : sl.posE k = sl.posM k + 1 := by simp [Slots.posE, hm]
      rw [hp] at hn ⊢
      rw [← ho.m (by simp [hm]), hb.mem (by simp [hm]) hn]
      rfl

/-- What EX computes, when it holds the word of instruction number `posE`. -/
theorem Back.step_mem (h : Inv s) (hs : Shows s sl) (ho : Ordered s sl)
    (hb : Back rf m n s sl k) (hx : Executable rf m n) (he : sl.e ≠ none) (hn : sl.posE k < n)
    (hinstr : s.ex.instr = (Single.trace rf m (sl.posE k)).f.instr) :
    (step s).mem = exMemOf (Single.trace rf m (sl.posE k)) := by
  obtain ⟨x, hex⟩ := Option.ne_none_iff_exists'.mp he
  have hpc : s.ex.pc = (Single.trace rf m (sl.posE k)).PC := by
    rw [← hb.nextE ho (Nat.le_of_lt hn), Pipe.nextE, hex, Option.elim_some]
  exact step_mem_of_ex h hpc hinstr (hb.step_step_regfile h hs (Nat.le_of_lt hn))
    (hb.supported h hs hx (Nat.le_of_lt hn))

/-- The address of the instruction in ID, or of the one about to be fetched. -/
theorem Back.nextD (h : Inv s) (hs : Shows s sl) (ho : Ordered s sl) (hb : Back rf m n s sl k)
    (hx : Executable rf m n)
    (hex : sl.e ≠ none → sl.posE k < n → s.ex.instr = (Single.trace rf m (sl.posE k)).f.instr)
    (ht : s.exOut.branchTaken = false) (hn : sl.posD k ≤ n) :
    nextD s sl = (Single.trace rf m (sl.posD k)).PC := by
  cases he : sl.e with
  | none =>
      have hp : sl.posD k = sl.posE k := by simp [Slots.posD, he]
      have hnx : Pipe.nextE s sl = Pipe.nextD s sl := by rw [Pipe.nextE, he, Option.elim_none]
      rw [hp] at hn ⊢
      rw [← hnx, hb.nextE ho hn]
  | some x =>
      have hp : sl.posD k = sl.posE k + 1 := by simp [Slots.posD, he]
      have hne : sl.e ≠ none := by simp [he]
      rw [hp] at hn ⊢
      rw [ho.e ht hne, ← exNextPc_of_not_taken h ht]
      exact congrArg ExMem.nextPc (hb.step_mem h hs ho hx hne hn (hex hne hn))

/-- Every clock keeps the old half of the simulation. -/
theorem back_step (h : Inv s) (hs : Shows s sl) (ho : Ordered s sl) (hb : Back rf m n s sl k)
    (hf : Front rf m n s sl k) (hx : Executable rf m n) (f : Fetched) :
    Back rf m n (step s) (sl.advance s.control f) (sl.posM k) where
  regfile := hb.step_regfile h hs
  pmem := hb.step_pmem h hs
  next := by
    rw [nextW_step h hs ho]
    exact hb.nextM ho
  wb := fun hm hlt => step_wb_of_mem (hb.mem hm hlt) (hb.pmem (Nat.le_of_lt hlt))
  mem := fun he hlt => hb.step_mem h hs ho hx he hlt (hf.ex he hlt)

theorem front_step_ex (hf : Front rf m n s sl k) (f : Fetched)
    (he' : (sl.advance s.control f).e ≠ none) (hn : sl.posD k < n) :
    (step s).ex.instr = (Single.trace rf m (sl.posD k)).f.instr := by
  rcases advance_front s sl f with ⟨-, -, -, -, -, he⟩ | ⟨-, -, -, -, -, he⟩ |
    ⟨ht, -, -, hex, -, he⟩
  · exact absurd he he'
  · exact absurd he he'
  · rw [hex]
    exact hf.id ht (he ▸ he') hn

/-- Every clock keeps the young half of the simulation. -/
theorem front_step (h : Inv s) (hs : Shows s sl) (ho : Ordered s sl) (hb : Back rf m n s sl k)
    (hf : Front rf m n s sl k) (hx : Executable rf m n) {f : Fetched} (hpc : f.pc = s.PC)
    (hinstr : f.instr = dpiInstrMemRead s.pmem s.PC) :
    Front rf m n (step s) (sl.advance s.control f) (sl.posM k) := by
  have hE : (sl.advance s.control f).posE (sl.posM k) = sl.posD k := Slots.posE_advance rfl f sl k
  have hD := Slots.posD_advance (c := s.control) rfl f sl k
  have hex := fun he' hn => front_step_ex hf f he' hn
  rw [← hE] at hex
  refine ⟨hex, fun ht' hd' hn => ?_⟩
  rcases advance_front s sl f with ⟨ht, -, hid, -, hd, he⟩ | ⟨-, -, -, -, hd, -⟩ |
    ⟨ht, -, hid, -, hd, he⟩
  · rw [hD, he] at hn ⊢
    rw [hid]
    exact hf.id ht (hd ▸ hd') hn
  · exact absurd hd hd'
  · -- the word just fetched: EX does not redirect, so its address is the next instruction's
    have hPC : s.PC = (Single.trace rf m ((sl.advance s.control f).posD (sl.posM k))).PC := by
      rw [← (back_step h hs ho hb hf hx f).nextD (inv_step h) (shows_step hs hpc hinstr)
        (ordered_step h hs ho) hx hex ht' (Nat.le_of_lt hn), Pipe.nextD, hd, hid]
      rfl
    have hMD : sl.posM k ≤ (sl.advance s.control f).posD (sl.posM k) := by
      rw [hD, Slots.posD, Slots.posE]
      omega
    rw [hid, ← hx.fetch_eq hMD hn, ← hPC, ← hb.pmem (Nat.le_trans hMD (Nat.le_of_lt hn))]
    rfl

end

/-! ## Runs -/

section

variable (rf : RegFile) (m : Mem)

/-- How many instructions have left the memory stage in the first `t` clocks. -/
def memLeft (t : Nat) : Nat := (slotsAt rf m t).posM (retiredAt rf m t).length

/-- The `dpi_mem_write` calls of the first `t` clocks. -/
def memWrites (t : Nat) : List WriteCall := emitted (fun i => (trace rf m i).memWrite) t

variable {rf m}

theorem sim_trace {n : Nat} (hx : Executable rf m n) (t : Nat) :
    Back rf m n (trace rf m t) (slotsAt rf m t) (retiredAt rf m t).length ∧
      Front rf m n (trace rf m t) (slotsAt rf m t) (retiredAt rf m t).length := by
  induction t with
  | zero =>
      exact ⟨⟨fun _ => rfl, fun _ => rfl, fun _ => rfl, fun h => absurd rfl h,
        fun h => absurd rfl h⟩, ⟨fun h => absurd rfl h, fun _ h => absurd rfl h⟩⟩
  | succ t ih =>
      have h := inv_trace rf m t
      have hs := shows_trace rf m t
      have ho := ordered_trace rf m t
      rw [retiredAt_length_succ]
      exact ⟨back_step h hs ho ih.1 ih.2 hx _, front_step h hs ho ih.1 ih.2 hx rfl rfl⟩

theorem memLeft_succ (t : Nat) :
    memLeft rf m (t + 1) = memLeft rf m t + (slotsAt rf m t).m.toList.length := by
  rw [memLeft, retiredAt_length_succ, slotsAt_succ, Slots.posM_advance]
  rfl

theorem retiredAt_length_le_memLeft (t : Nat) : (retiredAt rf m t).length ≤ memLeft rf m t :=
  Nat.le_add_right _ _

theorem memWrites_eq {n : Nat} (hx : Executable rf m n) (t : Nat) (hn : memLeft rf m t ≤ n) :
    memWrites rf m t = emitted (fun i => (Single.trace rf m i).memWrite) (memLeft rf m t) := by
  induction t with
  | zero => rfl
  | succ t ih =>
      have hb := (sim_trace hx t).1
      have hs := shows_trace rf m t
      rw [memLeft_succ] at hn ⊢
      rw [memWrites, emitted_succ, ← memWrites, ih (by omega)]
      cases hm : (slotsAt rf m t).m with
      | none =>
          rw [memWrite_of_bubble (inv_trace rf m t) hs hm]
          simp
      | some x =>
          rw [hm] at hn
          rw [memWrite_of_mem (hb.mem (by simp [hm]) hn)]
          exact (emitted_succ (fun i => (Single.trace rf m i).memWrite) _).symm

theorem commits_eq {n : Nat} (hx : Executable rf m n) (t : Nat)
    (hn : (retiredAt rf m t).length ≤ n) :
    commits rf m t =
      (List.range (retiredAt rf m t).length).map fun i => (Single.trace rf m i).commit := by
  induction t with
  | zero => rfl
  | succ t ih =>
      have hb := (sim_trace hx t).1
      rw [retiredAt_length_succ, Slots.posM] at hn ⊢
      rw [commits_succ, ih (by omega)]
      cases hw : (slotsAt rf m t).w with
      | none => simp
      | some x =>
          rw [hw] at hn
          have hwb := hb.wb (by simp [hw]) hn
          have hc : (trace rf m t).commit =
              (Single.trace rf m (retiredAt rf m t).length).commit := by
            rw [State.commit, hwb]
            rfl
          simp only [Option.map_some, hc, Option.toList_some, List.length_singleton,
            List.range_succ, List.map_append, List.map_singleton]

end

/-- The pipeline refines the single-cycle CPU. After any number of clocks the commits are those of
the single-cycle CPU's first instructions, the register file is the one it has after as many
clocks, and the memory writes are its memory writes; and every number of instructions retires at
some clock. -/
theorem pipeline_refines (rf : RegFile) (m : Mem) (t : Nat)
    (hx : Executable rf m (memLeft rf m t)) :
    commits rf m t = (List.range (retiredAt rf m t).length).map (fun i =>
        ⟨(Single.trace rf m i).PC, (Single.trace rf m i).f.instr,
          (Single.trace rf m (i + 1)).PC⟩) ∧
      (trace rf m t).regfile = (Single.trace rf m (retiredAt rf m t).length).regfile ∧
      memWrites rf m t = emitted (fun i => (Single.trace rf m i).memWrite) (memLeft rf m t) ∧
      ∀ k, ∃ u, (retiredAt rf m u).length = k :=
  ⟨commits_eq hx t (retiredAt_length_le_memLeft t),
    (sim_trace hx t).1.regfile (retiredAt_length_le_memLeft t),
    memWrites_eq hx t (Nat.le_refl _),
    exists_retiredAt_length rf m⟩

/-- `addi x1, x0, 256`, `sw x1, 0(x1)`, `lw x2, 0(x1)`, `add x3, x2, x1`. -/
def storeLoadUse : Mem :=
  Mem.ofWords resetVector [0x10000093#32, 0x0010A023#32, 0x0000A103#32, 0x001101B3#32]

theorem executable_storeLoadUse : Executable (fun _ => 0#32) storeLoadUse 4 := by
  constructor <;> decide +kernel

theorem memLeft_storeLoadUse : memLeft (fun _ => 0#32) storeLoadUse 8 = 4 := by decide +kernel

/-- Eight clocks through a forwarded store, a load and its stalled use. -/
theorem pipeline_refines_storeLoadUse :
    (trace (fun _ => 0#32) storeLoadUse 8).regfile =
        (Single.trace (fun _ => 0#32) storeLoadUse
          (retiredAt (fun _ => 0#32) storeLoadUse 8).length).regfile ∧
      memWrites (fun _ => 0#32) storeLoadUse 8 =
        emitted (fun i => (Single.trace (fun _ => 0#32) storeLoadUse i).memWrite)
          (memLeft (fun _ => 0#32) storeLoadUse 8) := by
  obtain ⟨-, hr, hw, -⟩ := pipeline_refines (fun _ => 0#32) storeLoadUse 8
    (memLeft_storeLoadUse ▸ executable_storeLoadUse)
  exact ⟨hr, hw⟩

end MyCpu.Rv32.Pipe
