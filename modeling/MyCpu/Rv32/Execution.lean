import Mathlib.Data.Nat.Find
import MyCpu.Rv32.Assembly
import MyCpu.Rv32.Refinement
import MyCpu.Rv32.SingleCycleIsa

/-!
# Programs on the CPUs

What a run of the instruction set leads to, the CPUs reach: the single-cycle CPU clock by clock, and the
pipeline instruction by instruction as they retire.

* `Single.step_exec` : a clock on a legal encoding executes it;
* `Single.leads_trace` : a run of the instruction set from a state of the single-cycle CPU;
* `Pipe.archAt` : the architectural state the pipeline has retired;
* `Pipe.leads_retired` : a run of the instruction set from there.
-/

namespace MyCpu.Rv32

open Machine Isa

namespace Single

/-! ## One clock -/

section

variable {s : State} {w : Word} {f : Fields}

/-- An instruction that writes the result of `execute`. -/
theorem step_compute {v : Word} (h : s.f.instr = w) (hw : fieldsOf w = f)
    (hop : f.opcode = opLui ∨ f.opcode = opAuipc ∨ f.opcode = opAlu ∨ f.opcode = opAlui)
    (hv : aluResult f (s.arch.get f.rs1) (s.arch.get f.rs2) s.PC (s.PC + 4#32) = v) :
    (step s).arch = s.arch.writeReg f.rd v (s.arch.pc + 4#32) := by
  have hf := fields_of_instr h hw
  have hop' : s.f.opcode = f.opcode := congrArg Fields.opcode hf
  have hrd : s.f.rd = f.rd := congrArg Fields.rd hf
  rw [step_writeReg (by rw [hop']; exact hop), aluResult_eq hf, hv, hrd]
  rfl

/-- An instruction that writes its link and goes where `pc_update` says. -/
theorem step_link {pc : Word} (h : s.f.instr = w) (hw : fieldsOf w = f)
    (hop : f.opcode = opJal ∨ f.opcode = opJalr)
    (hpc : pcUpdate f s.PC (s.arch.get f.rs1) (s.PC + 4#32)
      (branchCond f (s.arch.get f.rs1) (s.arch.get f.rs2)) = pc) :
    (step s).arch = s.arch.writeReg f.rd (s.arch.pc + 4#32) pc := by
  have hf := fields_of_instr h hw
  have hop' : s.f.opcode = f.opcode := congrArg Fields.opcode hf
  have hrd : s.f.rd = f.rd := congrArg Fields.rd hf
  rw [step_jump (by rw [hop']; exact hop), nextPc_eq hf, hpc, hrd]
  rfl

/-- An instruction that writes nothing but the PC. -/
theorem step_goto {pc : Word} (h : s.f.instr = w) (hw : fieldsOf w = f)
    (hop : f.opcode = opBranch ∨ f.opcode = opFence)
    (hpc : pcUpdate f s.PC (s.arch.get f.rs1) (s.PC + 4#32)
      (branchCond f (s.arch.get f.rs1) (s.arch.get f.rs2)) = pc) :
    (step s).arch = { s.arch with pc := pc } := by
  have hf := fields_of_instr h hw
  have hop' : s.f.opcode = f.opcode := congrArg Fields.opcode hf
  rw [step_pc (by rw [hop']; exact hop), nextPc_eq hf, hpc]

end

/-- A clock on a legal encoding executes the instruction. -/
theorem step_exec {s : State} {i : Instr} (h : s.f.instr = i.encode) : (step s).arch = exec s.arch i := by
  cases i with
  | lui rd imm => exact step_compute h (fieldsOf_uType imm rd (.inl rfl)) (.inl rfl) rfl
  | auipc rd imm => exact step_compute h (fieldsOf_uType imm rd (.inr rfl)) (.inr (.inl rfl)) rfl
  | opImm op rd rs1 imm =>
      exact step_compute h (fieldsOf_iType imm rs1 op.funct3 rd (by decide)) (by simp)
        ((aluResult_alui _ _ _ _ rfl).trans (aluiTable_eq op _ _ _ _))
  | shiftImm op rd rs1 shamt =>
      refine step_compute h (fieldsOf_rType op.funct7 shamt rs1 op.funct3 rd opAlui) (by simp) ?_
      rw [aluResult_alui _ _ _ _ rfl, immGen_rType, aluiTable_shift]
  | opReg op rd rs1 rs2 =>
      exact step_compute h (fieldsOf_rType op.funct7 rs2 rs1 op.funct3 rd opAlu) (by simp)
        ((aluResult_alu _ _ _ _ rfl).trans (aluTable_eq op _ _))
  | jal rd imm =>
      obtain ⟨hop, hrd, himm⟩ := fieldsOf_jType imm rd
      have h' : s.f.instr = jType imm rd opJal := h
      have hstep := step_link h' rfl (.inl hop) (by rw [pcUpdate, if_pos hop, himm])
      rwa [hrd] at hstep
  | jalr rd rs1 imm =>
      exact step_link h (fieldsOf_iType imm rs1 0b000#3 rd (by decide)) (.inr rfl) rfl
  | branch op rs1 rs2 imm =>
      obtain ⟨hop, h3, hrs1, hrs2, himm⟩ := fieldsOf_bType imm rs2 rs1 op.funct3
      have h' : s.f.instr = bType imm rs2 rs1 op.funct3 opBranch := h
      refine step_goto h' rfl (.inl hop) ?_
      rw [branchCond_eq _ op _ _ hop h3, hrs1, hrs2, pcUpdate, hop, himm]
      rfl
  | fence rd rs1 imm =>
      exact step_goto h (fieldsOf_iType imm rs1 0b000#3 rd (by decide)) (.inr rfl) rfl
  | load op rd rs1 imm =>
      have hf := fields_of_instr h (fieldsOf_iType imm rs1 op.funct3 rd (by decide))
      have hop : s.f.opcode = opLoad := congrArg Fields.opcode hf
      have hrd : s.f.rd = rd := congrArg Fields.rd hf
      have haddr : s.ex.aluResult = s.arch.get rs1 + imm.signExtend 32 := aluResult_eq hf
      have h3 : s.f.funct3 = op.funct3 := congrArg Fields.funct3 hf
      rw [step_load hop, State.memData, memoryAccess, loadData, if_pos hop, h3, haddr, loadExtend_eq,
        hrd]
      rfl
  | store op rs1 rs2 imm =>
      have hf := fields_of_instr h (fieldsOf_sType imm rs2 rs1 op.funct3)
      have haddr : s.ex.aluResult = s.arch.get rs1 + imm.signExtend 32 := aluResult_eq hf
      rw [step_store op (congrArg Fields.opcode hf) (congrArg Fields.funct3 hf), haddr, rs2Data_eq hf]
      rfl

/-! ## Runs -/

/-- A run of the instruction set from the state after `k` clocks. -/
theorem leads_trace {rf : RegFile} {m : Mem} {k : Nat} {Q : Arch → Prop}
    (h : Leads Isa.Step (trace rf m k).arch Q) : ∃ j, k ≤ j ∧ Q (trace rf m j).arch := by
  have hsim : ∀ (k : Nat) (t : Arch), Isa.Step (trace rf m k).arch t →
      ∃ j, k + 1 = j ∧ (trace rf m j).arch = t := by
    rintro k _ ⟨i, hi, rfl⟩
    exact ⟨k + 1, rfl, step_exec hi⟩
  obtain ⟨j, hj, hQ⟩ := h.sim hsim
  refine ⟨j, ?_, hQ⟩
  clear hQ h
  induction hj with
  | refl => exact Nat.le_refl k
  | tail _ hstep ih => omega

theorem pmem_of_no_store {rf : RegFile} {m : Mem} (h : ∀ i, (trace rf m i).memWrite = none) (i : Nat) :
    (trace rf m i).pmem = m := by
  induction i with
  | zero => rfl
  | succ i ih =>
      have hp : (trace rf m (i + 1)).pmem = (trace rf m i).pmem.after (trace rf m i).memWrite := rfl
      rw [hp, h i]
      exact ih

/-- A jump to itself, which is how a program stops. -/
theorem trace_of_halt {rf : RegFile} {m : Mem} {n : Nat}
    (h : (trace rf m n).f.instr = (Instr.jal 0#5 0#20).encode) {i : Nat} (hi : n ≤ i) :
    (trace rf m i).arch = (trace rf m n).arch := by
  have hexec : ∀ a : Arch, exec a (Instr.jal 0#5 0#20) = a := fun a =>
    Arch.ext (BitVec.add_zero a.pc) (funext fun _ => if_neg fun hr => hr.2 rfl) rfl
  induction i, hi using Nat.le_induction with
  | base => rfl
  | succ i _ ih =>
      have hf : ∀ s : State, s.f.instr = dpiInstrMemRead s.arch.mem s.arch.pc := fun _ => rfl
      rw [trace_succ, step_exec (i := .jal 0#5 0#20) (by rw [hf, ih, ← hf, h]), hexec, ih]

end Single

namespace Pipe

/-- The architectural state once the instructions of the first `t` clocks have retired: the address of
the next one and the register file, with the memory these instructions leave. -/
def archAt (rf : RegFile) (m : Mem) (t : Nat) : Arch where
  pc := nextPcAt rf m t
  x := (trace rf m t).regfile
  mem := (Single.trace rf m (retiredAt rf m t).length).pmem

section

variable {rf : RegFile} {m : Mem}

theorem archAt_eq (hx : ∀ n, Executable rf m n) (t : Nat) :
    archAt rf m t = (Single.trace rf m (retiredAt rf m t).length).arch := by
  have hb := (sim_trace (hx (retiredAt rf m t).length) t).1
  exact Arch.ext (hb.next (Nat.le_refl _)) (hb.regfile (Nat.le_refl _)) rfl

/-- A run of the instruction set from the state the pipeline has retired. -/
theorem leads_retired (hx : ∀ n, Executable rf m n) {t : Nat} {Q : Arch → Prop}
    (h : Leads Isa.Step (archAt rf m t) Q) : ∃ u, t ≤ u ∧ Q (archAt rf m u) := by
  rw [archAt_eq hx t] at h
  obtain ⟨j, hj, hQ⟩ := Single.leads_trace h
  rcases Nat.eq_or_lt_of_le hj with rfl | hlt
  · exact ⟨t, Nat.le_refl t, by rwa [archAt_eq hx t]⟩
  · obtain ⟨u, hu⟩ := exists_retiredAt_length rf m j
    refine ⟨u, ?_, by rwa [archAt_eq hx u, hu]⟩
    by_contra hut
    have hmono : (retiredAt rf m u).length ≤ (retiredAt rf m t).length :=
      Clocked.retired_length_mono _ _ (Nat.le_of_not_le hut)
    omega

/-- The clocks up to the next one that retires an instruction. -/
theorem exists_first_retiredAt (rf : RegFile) (m : Mem) (t : Nat) :
    ∃ d, (slotsAt rf m (t + d)).w ≠ none ∧ ∀ i < d, (slotsAt rf m (t + i)).w = none := by
  have h : ∃ d, (slotsAt rf m (t + d)).w ≠ none := by
    obtain ⟨u, hu, hw⟩ := exists_retiredAt rf m t
    exact ⟨u - t, by rwa [Nat.add_sub_cancel' hu]⟩
  exact ⟨Nat.find h, Nat.find_spec h, fun i hi => not_not.mp (Nat.find_min h hi)⟩

/-- A program that stores nothing and stops is executable for ever. -/
theorem executable_of_halt {N : Nat}
    (hloop : (Single.trace rf m N).f.instr = (Instr.jal 0#5 0#20).encode)
    (hstore : ∀ i < N + 1, (Single.trace rf m i).memWrite = none)
    (hsup : ∀ i < N + 1, Supported (Single.trace rf m i).f.opcode) (n : Nat) : Executable rf m n := by
  have hlast : ∀ {P : Single.State → Prop}, (∀ s s', s.arch = s'.arch → P s → P s') →
      (∀ i < N + 1, P (Single.trace rf m i)) → ∀ i, P (Single.trace rf m i) := by
    intro P hP hN i
    by_cases hi : i < N + 1
    · exact hN i hi
    · exact hP _ _ (Single.trace_of_halt hloop (by omega)).symm (hN N (Nat.lt_succ_self N))
  have hmem := Single.pmem_of_no_store (hlast (P := fun s => s.memWrite = none) ?_ hstore)
  · refine ⟨fun i _ => hlast (P := fun s => Supported s.f.opcode) ?_ hsup i, fun j _ i _ => ?_⟩
    · rintro ⟨pc, rf, m, c, k⟩ ⟨pc', rf', m', c', k'⟩ h hs
      cases h
      exact hs
    · rw [hmem, hmem]
  · rintro ⟨pc, rf, m, c, k⟩ ⟨pc', rf', m', c', k'⟩ h hs
    cases h
    exact hs

end

end Pipe

end MyCpu.Rv32
