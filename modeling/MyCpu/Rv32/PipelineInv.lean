import MyCpu.Rv32.Pipeline

/-!
# Invariants of the five-stage pipeline

What every state of every run satisfies, whatever words memory holds:

* each register carries the fields of its own instruction word, and `pc + 4` (`Inv`);
* the operands latched in ID/EX are those of the current register file, so that only the
  instructions in MEM and WB can still change them;
* a load in MEM is never a producer for EX: the load-use stall has put a bubble there.

A bubble needs no case of its own: it is `addi x0, x0, 0` at the reset vector.
-/

namespace MyCpu.Rv32.Pipe

open Clocked

/-! ## The write-back table -/

@[simp] theorem writeBackTable_regWrEn (op : BitVec 7) (rd : BitVec 5) (a m l : Word) :
    (writeBackTable op rd a m l).regWrEn = decide (WritesReg op) := by
  unfold writeBackTable WritesReg
  split
  · next h => rcases h with rfl | rfl | rfl | rfl <;> rfl
  split
  · next h => rcases h with rfl | rfl <;> rfl
  split
  · next h => subst h; rfl
  · next h1 h2 h3 =>
      simp only [not_or] at h1 h2
      simp [h1, h2, h3]

@[simp] theorem writeBackTable_wrAddr (op : BitVec 7) (rd : BitVec 5) (a m l : Word) :
    (writeBackTable op rd a m l).wrAddr = rd := by
  unfold writeBackTable
  split_ifs <;> rfl

/-- Everything but a load writes back its ALU result, a jump because that is its link. -/
theorem writeBackTable_wrData {op : BitVec 7} (rd : BitVec 5) {a l : Word} (m : Word)
    (hw : WritesReg op) (hload : op ≠ opLoad) (hlink : op = opJal ∨ op = opJalr → a = l) :
    (writeBackTable op rd a m l).wrData = a := by
  unfold writeBackTable
  rw [if_neg hload]
  split
  · rfl
  split
  · next h => exact (hlink h).symm
  · next h1 h2 =>
      simp only [not_or] at h1 h2
      simp [WritesReg, h1, h2, hload] at hw

/-- The deny-list of the hazard unit lets every opcode through that writes a register. -/
theorem not_denied_of_writesReg {op : BitVec 7} (h : WritesReg op) :
    op ≠ opStore ∧ op ≠ opBranch ∧ op ≠ opFence ∧ op ≠ opSystem := by
  simp only [WritesReg, List.mem_cons, List.not_mem_nil, or_false] at h
  rcases h with rfl | rfl | rfl | rfl | rfl | rfl | rfl <;> decide

/-- On the supported opcodes deny-list and allow-list agree. -/
theorem writesReg_of_supported {op : BitVec 7} (h : Supported op) (h1 : op ≠ opStore)
    (h2 : op ≠ opBranch) (h3 : op ≠ opFence) (h4 : op ≠ opSystem) : WritesReg op := by
  simp only [Supported, List.mem_cons, List.not_mem_nil, or_false] at h
  rcases h with rfl | rfl | rfl | rfl | rfl | rfl | rfl | rfl | rfl | rfl | rfl <;>
    first | decide | contradiction

theorem supported_of_writesReg {op : BitVec 7} (h : WritesReg op) : Supported op := by
  simp only [WritesReg, List.mem_cons, List.not_mem_nil, or_false] at h
  rcases h with rfl | rfl | rfl | rfl | rfl | rfl | rfl <;> decide

/-! ## The invariant -/

structure Inv (s : State) : Prop where
  id_pcPlus4 : s.id.pcPlus4 = s.id.pc + 4#32
  ex_fields : s.ex.toFields = fieldsOf s.ex.instr
  ex_pcPlus4 : s.ex.pcPlus4 = s.ex.pc + 4#32
  ex_rs1Data : s.ex.rs1Data = s.regfile.read s.ex.rs1
  ex_rs2Data : s.ex.rs2Data = s.regfile.read s.ex.rs2
  mem_opcode : s.mem.opcode = (fieldsOf s.mem.instr).opcode
  mem_rd : s.mem.rd = (fieldsOf s.mem.instr).rd
  mem_link : s.mem.opcode = opJal ∨ s.mem.opcode = opJalr → s.mem.aluResult = s.mem.pcPlus4
  mem_load : s.mem.opcode = opLoad → s.mem.rd ≠ 0#5 → s.mem.rd ≠ s.ex.rs1 ∧ s.mem.rd ≠ s.ex.rs2
  wb_rd : s.wb.rd = (fieldsOf s.wb.instr).rd

theorem fieldsOf_nop : fieldsOf nop = IdEx.bubble.toFields := rfl

theorem inv_start (rf : RegFile) (m : Mem) : Inv (start rf m) where
  id_pcPlus4 := rfl
  ex_fields := fieldsOf_nop.symm
  ex_pcPlus4 := rfl
  ex_rs1Data := rfl
  ex_rs2Data := rfl
  mem_opcode := rfl
  mem_rd := congrArg Fields.rd fieldsOf_nop.symm
  mem_link := fun h => absurd h (show ¬(opAlui = opJal ∨ opAlui = opJalr) by decide)
  mem_load := fun h => absurd h (show ¬opAlui = opLoad by decide)
  wb_rd := congrArg Fields.rd fieldsOf_nop.symm

/-- Reading through the write port is reading after the write. -/
theorem readPort_eq (rf : RegFile) (wb : WriteBack) (r : BitVec 5) :
    readPort rf wb r = (rf.after wb).read r := by
  rw [RegFile.after, RegFile.read_write, readPort]
  by_cases h0 : r = 0#5
  · subst h0
    rw [if_pos rfl, if_neg (fun h => h.2.1 h.2.2.symm)]
    rfl
  · rw [if_neg h0]
    by_cases hw : wb.regWrEn = true ∧ wb.wrAddr = r
    · rw [if_pos hw, if_pos ⟨hw.1, by rw [hw.2]; exact h0, hw.2.symm⟩]
    · rw [if_neg hw, if_neg (fun h => hw ⟨h.1, h.2.2.symm⟩), RegFile.read, if_neg h0]

theorem aluResult_link {f : Fields} (rs1 rs2 pc link : Word)
    (h : f.opcode = opJal ∨ f.opcode = opJalr) : aluResult f rs1 rs2 pc link = link := by
  rcases h with h | h <;> simp +decide [aluResult, h]

/-- Only a jump or a branch redirects, never the load that stalls. -/
theorem not_load_of_branchTaken {s : State} (h : s.exOut.branchTaken = true) :
    s.ex.opcode ≠ opLoad := by
  intro hload
  simp +decide [State.exOut, executePipe, hload] at h

theorem not_stall_of_branchTaken {s : State} (h : s.exOut.branchTaken = true) :
    s.hazard.stallId = false := by
  show loadUse s.ex.opcode s.ex.rd _ _ = false
  simp only [loadUse, decide_eq_false_iff_not]
  exact fun hl => not_load_of_branchTaken h hl.1

/-- Every clock either holds the instruction in ID behind a load it needs, replaces it by a bubble
after a redirect, or passes it on. -/
theorem step_front (s : State) :
    (s.hazard.stallId = true ∧ s.exOut.branchTaken = false ∧ (step s).PC = s.PC ∧
        (step s).id = s.id ∧ (step s).ex = IdEx.bubble) ∨
      (s.hazard.stallId = false ∧ s.exOut.branchTaken = true ∧ (step s).PC = s.exOut.pcTarget ∧
        (step s).id = IfId.bubble ∧ (step s).ex = IdEx.bubble) ∨
      (s.hazard.stallId = false ∧ s.exOut.branchTaken = false ∧ (step s).PC = s.PC + 4#32 ∧
        (step s).id = fetchPipe s.pmem s.PC ∧ (step s).ex = s.idOut) := by
  have hs : s.hazard.stallIf = s.hazard.stallId := rfl
  have hf : s.hazard.flushIfId = s.exOut.branchTaken := rfl
  have he : s.hazard.flushIdEx = (s.exOut.branchTaken || s.hazard.stallId) := rfl
  cases hb : s.exOut.branchTaken
  · cases hl : s.hazard.stallId
    · exact .inr (.inr ⟨rfl, rfl, by simp [posedge, pcReg, hs, hl, hb],
        by simp [posedge, ifIdReg, hf, hl, hb], by simp [posedge, idExReg, he, hl, hb]⟩)
    · exact .inl ⟨rfl, rfl, by simp [posedge, pcReg, hs, hl],
        by simp [posedge, ifIdReg, hf, hl, hb], by simp [posedge, idExReg, he, hl, hb]⟩
  · have hl := not_stall_of_branchTaken hb
    exact .inr (.inl ⟨hl, rfl, by simp [posedge, pcReg, hs, hl, hb],
      by simp [posedge, ifIdReg, hf, hb], by simp [posedge, idExReg, he, hb]⟩)

/-- EX gets a bubble, or the instruction in ID, which then waits for no load. -/
theorem step_ex (s : State) : (step s).ex = IdEx.bubble ∨
    s.hazard.stallId = false ∧ (step s).ex = s.idOut := by
  rcases step_front s with ⟨-, -, -, -, hex⟩ | ⟨-, -, -, -, hex⟩ | ⟨hl, -, -, -, hex⟩
  · exact .inl hex
  · exact .inl hex
  · exact .inr ⟨hl, hex⟩

theorem step_regfile (s : State) : (step s).regfile = s.regfile.after s.wbOut := rfl

theorem step_pmem (s : State) : (step s).pmem = s.pmem.after s.memWrite := rfl

theorem step_mem (s : State) : (step s).mem = ⟨s.ex.pc, s.ex.instr, s.ex.pcPlus4, s.ex.opcode,
    s.ex.rd, s.ex.funct3, s.exOut.aluResult, s.exRs2Fwd, s.exNextPc⟩ := rfl

theorem step_wb (s : State) : (step s).wb = ⟨s.mem.pc, s.mem.instr, s.mem.pcPlus4, s.mem.opcode,
    s.mem.rd, s.mem.aluResult, memoryAccessPipe s.pmem s.mem, s.mem.nextPc⟩ := rfl

/-- Every clock keeps the invariant. -/
theorem inv_step {s : State} (h : Inv s) : Inv (step s) where
  id_pcPlus4 := by
    rcases step_front s with ⟨-, -, -, hid, -⟩ | ⟨-, -, -, hid, -⟩ | ⟨-, -, -, hid, -⟩ <;> rw [hid]
    · exact h.id_pcPlus4
    · rfl
    · rfl
  ex_fields := by
    rcases step_ex s with hex | ⟨-, hex⟩ <;> rw [hex]
    · exact fieldsOf_nop.symm
    · rfl
  ex_pcPlus4 := by
    rcases step_ex s with hex | ⟨-, hex⟩ <;> rw [hex]
    · rfl
    · exact h.id_pcPlus4
  ex_rs1Data := by
    rw [step_regfile]
    rcases step_ex s with hex | ⟨-, hex⟩ <;> rw [hex]
    · rfl
    · exact readPort_eq _ _ _
  ex_rs2Data := by
    rw [step_regfile]
    rcases step_ex s with hex | ⟨-, hex⟩ <;> rw [hex]
    · rfl
    · exact readPort_eq _ _ _
  mem_opcode := congrArg Fields.opcode h.ex_fields
  mem_rd := congrArg Fields.rd h.ex_fields
  mem_link := by
    rw [step_mem]
    exact fun hj => aluResult_link _ _ _ _ hj
  mem_load := by
    rw [step_mem]
    intro hload hrd
    rcases step_ex s with hex | ⟨hl, hex⟩ <;> rw [hex]
    · exact ⟨hrd, hrd⟩
    · -- no stall, so the instruction passed on reads neither operand from the load
      have hl' : loadUse s.ex.opcode s.ex.rd (fieldsOf s.id.instr).rs1 (fieldsOf s.id.instr).rs2 =
          false := hl
      simp only [loadUse, decide_eq_false_iff_not, not_and, not_or] at hl'
      exact hl' hload hrd
  wb_rd := h.mem_rd

theorem inv_trace (rf : RegFile) (m : Mem) (t : Nat) : Inv (trace rf m t) :=
  run_invariant (fun _ => Inv) (inv_start rf m) (fun _ _ h => inv_step h) t

end MyCpu.Rv32.Pipe
