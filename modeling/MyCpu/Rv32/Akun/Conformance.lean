import Mathlib.Tactic.SplitIfs
import MyCpu.Rv32.Akun.Sequential
import MyCpu.Rv32.SingleCycleIsa

/-!
# One pass through the stages against RV32I

* `effect_compute`, `effect_jump`, `effect_branch`, `effect_load`, `effect_store` : the effect of a pass
  for each class of opcodes;
* `valE_*` : what `execute` computes for it;
* `effect_eq_iff`, `conforms_iff` : a pass has the effect the specification gives the instruction, but
  for two things, which `Safe` leaves out. `decode` takes the word of `sw x0, 0(x1)` for no store, and
  `select_pc` goes to the odd address a `jalr` may compute, where `execute_o_pre_pc` clears bit 0.
-/

namespace MyCpu.Rv32.Akun

open Isa

/-- The effect of a pass. -/
def Pass.effect (p : Pass) : Effect where
  regWrite := if p.wb.regWrEn then regWrite p.wb.wrAddr p.wb.wrData else none
  memWrite := p.memWrite.map fun c => (c.addr, c.data, c.len.toNat)
  nextPc := p.nextPc

/-! ## Decoded words -/

section

variable {i : Word}

/-- The branch table of `decode`. -/
theorem decodeNeedJump_branch (op : BranchOp) (hb : opcode i = opBranch)
    (h3 : func3 i = op.funct3) (a b : Word) : decodeNeedJump i a b = op.holds a b := by
  have hslt : a.slt b = decide (a.toInt < b.toInt) := rfl
  have hult : a.ult b = decide (a.toNat < b.toNat) := rfl
  cases op <;>
    simp +decide [decodeNeedJump, hb, h3, BranchOp.funct3, BranchOp.holds, hslt, hult]

end

/-! ## Immediates -/

/-- The shift drops a copy of the sign bit. -/
theorem shift_b (s b7 : BitVec 1) (b25 : BitVec 6) (b8 : BitVec 4) :
    (s.replicate 20 ++ (s ++ (b7 ++ (b25 ++ b8)))) <<< 1 =
      s.replicate 19 ++ (s ++ (b7 ++ (b25 ++ (b8 ++ 0#1)))) := by
  apply BitVec.eq_of_getLsbD_eq
  intro i hi
  simp only [BitVec.getLsbD_shiftLeft, BitVec.getLsbD_append, BitVec.getLsbD_replicate]
  grind

theorem shift_j (s b20 : BitVec 1) (b12 : BitVec 8) (b21 : BitVec 10) :
    (s.replicate 12 ++ (s ++ (b12 ++ (b20 ++ b21)))) <<< 1 =
      s.replicate 11 ++ (s ++ (b12 ++ (b20 ++ (b21 ++ 0#1)))) := by
  apply BitVec.eq_of_getLsbD_eq
  intro i hi
  simp only [BitVec.getLsbD_shiftLeft, BitVec.getLsbD_append, BitVec.getLsbD_replicate]
  grind

/-- Shift amounts apart, the immediates are those of the other CPUs. -/
theorem imm_eq_immGen {i : Word} (hs : ¬ShiftImm i) (hop : opcode i ∈ [opLui, opAuipc, opJal,
    opJalr, opBranch, opLoad, opStore, opAlui]) : imm i = immGen i := by
  have hdef : i.extractLsb' 0 7 = opcode i := rfl
  unfold imm immGen
  dsimp only
  rw [hdef, if_neg hs]
  simp only [List.mem_cons, List.not_mem_nil, or_false] at hop
  rcases hop with h | h | h | h | h | h | h | h <;>
    simp +decide only [h, RType, UType, IType, SType, BType, JType, if_true, if_false, or_true,
      true_or, shift_b, shift_j]

/-! ## Classes of opcodes -/

section

variable {p : Pass}

theorem memWrite_of_opcode (hs : opcode p.instr ≠ opStore) : p.memWrite = none := by
  obtain ⟨hb, hh, hw⟩ := not_store_of_opcode hs
  unfold Pass.memWrite memoryWrite
  rw [Pass.regM_memRw, if_neg hb, if_neg hh, if_neg hw]

theorem nextPc_of_opcode (hop : opcode p.instr ≠ opBranch ∧ opcode p.instr ≠ opJal ∧
    opcode p.instr ≠ opJalr) : p.nextPc = p.pc + 4#32 := by
  have hj : p.needJump = false := by
    unfold Pass.needJump
    rw [decodeNeedJump_of_opcode hop.1]
    simp [hop]
  unfold Pass.nextPc selectPc
  rw [hj]
  rfl

/-- The effect of an instruction that writes its ALU result. -/
theorem effect_compute (hop : opcode p.instr = opLui ∨ opcode p.instr = opAuipc ∨
    opcode p.instr = opAlui ∨ opcode p.instr = opAlu) :
    p.effect = ⟨regWrite (p.instr.extractLsb' 7 5) p.valE, none, p.pc + 4#32⟩ := by
  have hc : wbControl p.instr = ⟨true, p.instr.extractLsb' 7 5, wbValDSelValE⟩ := by
    rcases hop with h | h | h | h <;> simp +decide [wbControl, h]
  have hw : p.wb = ⟨true, p.instr.extractLsb' 7 5, p.valE⟩ := by
    unfold Pass.wb writeBack
    rw [Pass.regW_toWbControl, hc]
    rfl
  have hm : p.memWrite = none := by
    rcases hop with h | h | h | h <;> exact memWrite_of_opcode (by rw [h]; decide)
  have hpc : p.nextPc = p.pc + 4#32 := by
    rcases hop with h | h | h | h <;> exact nextPc_of_opcode (by rw [h]; decide)
  unfold Pass.effect
  rw [hw, hm, hpc]
  rfl

/-- The effect of `jal` and `jalr`. -/
theorem effect_jump (hop : opcode p.instr = opJal ∨ opcode p.instr = opJalr) :
    p.effect = ⟨regWrite (p.instr.extractLsb' 7 5) (p.pc + 4#32), none, p.valE⟩ := by
  have hc : wbControl p.instr = ⟨true, p.instr.extractLsb' 7 5, wbValDSelValP⟩ := by
    rcases hop with h | h <;> simp +decide [wbControl, h]
  have hw : p.wb = ⟨true, p.instr.extractLsb' 7 5, p.pc + 4#32⟩ := by
    unfold Pass.wb writeBack
    rw [Pass.regW_toWbControl, hc]
    rfl
  have hm : p.memWrite = none := by
    rcases hop with h | h <;> exact memWrite_of_opcode (by rw [h]; decide)
  have hj : p.needJump = true := by
    unfold Pass.needJump
    rw [decodeNeedJump_of_opcode (by rcases hop with h | h <;> rw [h] <;> decide)]
    exact decide_eq_true hop
  unfold Pass.effect Pass.nextPc selectPc
  rw [hw, hm, hj]
  rfl

/-- The effect of a branch, and of a word no format matches. -/
theorem effect_branch (hop : opcode p.instr = opBranch ∨ opcode p.instr = opFence) :
    p.effect = ⟨none, none, if p.needJump then p.valE else p.pc + 4#32⟩ := by
  have hm : p.memWrite = none := by
    rcases hop with h | h <;> exact memWrite_of_opcode (by rw [h]; decide)
  have hw : p.wb.regWrEn = false := by
    show (wbControl p.instr).wbRegWen = false
    rcases hop with h | h <;> simp +decide [wbControl, h]
  unfold Pass.effect
  rw [hw, hm]
  rfl

/-- The effect of a load. -/
theorem effect_load (hop : opcode p.instr = opLoad) : p.effect =
    ⟨regWrite (p.instr.extractLsb' 7 5) (memoryValM p.pmem p.regM), none, p.pc + 4#32⟩ := by
  have hc : wbControl p.instr = ⟨true, p.instr.extractLsb' 7 5, wbValDSelValM⟩ := by
    simp +decide [wbControl, hop]
  have hw : p.wb = ⟨true, p.instr.extractLsb' 7 5, memoryValM p.pmem p.regM⟩ := by
    unfold Pass.wb writeBack
    rw [Pass.regW_toWbControl, hc]
    rfl
  unfold Pass.effect
  rw [hw, memWrite_of_opcode (by rw [hop]; decide), nextPc_of_opcode (by rw [hop]; decide)]
  rfl

/-- The effect of a store, but for the one word. -/
theorem effect_store (op : StoreOp) (hop : opcode p.instr = opStore)
    (h3 : func3 p.instr = op.funct3) : p.effect = ⟨none,
      if p.instr = 0x0000a023#32 then none else some (p.valE, p.valB, op.bytes), p.pc + 4#32⟩ := by
  have hw : p.wb.regWrEn = false := by
    show (wbControl p.instr).wbRegWen = false
    simp +decide [wbControl, hop]
  have hm : p.memWrite.map (fun c => (c.addr, c.data, c.len.toNat)) =
      if p.instr = 0x0000a023#32 then none else some (p.valE, p.valB, op.bytes) := by
    unfold Pass.memWrite memoryWrite
    rw [Pass.regM_memRw]
    unfold memRw
    by_cases hi : p.instr = 0x0000a023#32
    · rw [if_pos hi, if_pos hi]
      rfl
    · cases op <;> simp +decide [hi, hop, h3, StoreOp.funct3, StoreOp.bytes]
  unfold Pass.effect
  rw [hw, hm, nextPc_of_opcode (by rw [hop]; decide)]
  rfl

/-! ### Results of `execute` -/

theorem valE_eq (p : Pass) : p.valE = alu (aluFuncSel p.instr)
    (if IType p.instr ∨ RType p.instr ∨ SType p.instr then p.valA
      else if JType p.instr ∨ BType p.instr ∨ opcode p.instr = opAuipc then p.pc
      else 0#32)
    (if ¬RType p.instr ∧ (IType p.instr ∨ SType p.instr ∨ BType p.instr ∨ UType p.instr ∨
      JType p.instr) then imm p.instr else p.valB) := by
  unfold Pass.valE executeValE
  rw [aluValA_eq rfl, aluValB_eq rfl]
  rfl

theorem valE_lui (hop : opcode p.instr = opLui) : p.valE = imm p.instr := by
  rw [valE_eq, aluFuncSel_of_opcode (by rw [hop]; decide)]
  simp +decide [hop, alu]

/-- `auipc` and the targets relative to `pc`. -/
theorem valE_pc (hop : opcode p.instr = opAuipc ∨ opcode p.instr = opJal ∨
    opcode p.instr = opBranch) : p.valE = p.pc + imm p.instr := by
  rw [valE_eq]
  rcases hop with h | h | h <;>
  · rw [aluFuncSel_of_opcode (by rw [h]; decide)]
    simp +decide [h, alu]

/-- The addresses relative to a register. -/
theorem valE_base (hop : opcode p.instr = opJalr ∨ opcode p.instr = opLoad ∨
    opcode p.instr = opStore) : p.valE = p.valA + imm p.instr := by
  rw [valE_eq]
  rcases hop with h | h | h <;>
  · rw [aluFuncSel_of_opcode (by rw [h]; decide)]
    simp +decide [h, alu]

theorem valE_opImm (op : ImmOp) (hop : opcode p.instr = opAlui) (h3 : func3 p.instr = op.funct3) :
    p.valE = op.eval p.valA (imm p.instr) := by
  rw [valE_eq]
  unfold aluFuncSel
  cases op <;> simp +decide [hop, h3, ImmOp.funct3, alu] <;> rfl

theorem valE_shiftImm (op : ShiftOp) (hop : opcode p.instr = opAlui)
    (h3 : func3 p.instr = op.funct3) (h7 : func7 p.instr = op.funct7) :
    p.valE = op.eval p.valA (p.instr.extractLsb' 20 5).toNat := by
  have himm : imm p.instr = 0#27 ++ p.instr.extractLsb' 20 5 := by
    unfold imm
    cases op <;> simp +decide [hop, h3, h7, ShiftOp.funct3, ShiftOp.funct7]
  have hamt : (imm p.instr).extractLsb' 0 5 = p.instr.extractLsb' 20 5 := by
    rw [himm, BitVec.extractLsb'_append_eq_of_add_le (by decide)]
    exact BitVec.extractLsb'_eq_self
  rw [valE_eq]
  unfold aluFuncSel
  cases op <;> simp +decide [hop, h3, h7, ShiftOp.funct3, ShiftOp.funct7, alu, hamt] <;> rfl

theorem valE_opReg (op : RegOp) (hop : opcode p.instr = opAlu) (h3 : func3 p.instr = op.funct3)
    (h7 : func7 p.instr = op.funct7) : p.valE = op.eval p.valA p.valB := by
  have hamt : (p.valB.extractLsb' 0 5).toNat = p.valB.toNat % 32 := by simp
  rw [valE_eq]
  unfold aluFuncSel
  cases op <;> simp +decide [hop, h3, h7, RegOp.funct3, RegOp.funct7, alu, hamt] <;> rfl

/-! ### Results of `memory` -/

/-- The low part of the four bytes that are read. -/
theorem dpiMemRead_low (m : Mem) (a : Word) {start len : Nat} (h : start + len ≤ 16) :
    (dpiMemRead m a 4#32).extractLsb' start len = (m (a + 1#32) ++ m a).extractLsb' start len := by
  have hread : dpiMemRead m a 4#32 = m (a + 3#32) ++ (m (a + 2#32) ++ (m (a + 1#32) ++ m a)) := rfl
  rw [hread, BitVec.extractLsb'_append_eq_of_add_le (by omega),
    BitVec.extractLsb'_append_eq_of_add_le (by omega)]

theorem dpiMemRead_byte (m : Mem) (a : Word) {start len : Nat} (h : start + len ≤ 8) :
    (dpiMemRead m a 4#32).extractLsb' start len = (m a).extractLsb' start len := by
  rw [dpiMemRead_low m a (by omega), BitVec.extractLsb'_append_eq_of_add_le h]

/-- A narrow load keeps the low part. -/
theorem extend_lb (m : Mem) (a : Word) :
    extend memRwLb (dpiMemRead m a 4#32) = (m a).signExtend 32 := by
  unfold extend
  rw [if_pos rfl, dpiMemRead_byte m a (by decide), dpiMemRead_byte m a (by decide),
    BitVec.extractLsb'_eq_self]
  exact replicate_append_eq_signExtend (k := 24) _ (m a) rfl

theorem extend_lh (m : Mem) (a : Word) :
    extend memRwLh (dpiMemRead m a 4#32) = (m (a + 1#32) ++ m a).signExtend 32 := by
  have hself : (m (a + 1#32) ++ m a).extractLsb' 0 16 = m (a + 1#32) ++ m a :=
    BitVec.extractLsb'_eq_self
  unfold extend
  rw [if_neg (by decide), if_pos rfl, dpiMemRead_low m a (by decide), dpiMemRead_low m a (by decide),
    hself]
  exact replicate_append_eq_signExtend (k := 16) _ (m (a + 1#32) ++ m a) rfl

theorem extend_lbu (m : Mem) (a : Word) :
    extend memRwLbu (dpiMemRead m a 4#32) = (m a).zeroExtend 32 := by
  unfold extend
  rw [if_neg (by decide), if_neg (by decide), if_neg (by decide), if_pos rfl,
    dpiMemRead_byte m a (by decide), BitVec.extractLsb'_eq_self]
  exact (BitVec.setWidth_eq_append (by decide)).symm

theorem extend_lhu (m : Mem) (a : Word) :
    extend memRwLhu (dpiMemRead m a 4#32) = (m (a + 1#32) ++ m a).zeroExtend 32 := by
  have hself : (m (a + 1#32) ++ m a).extractLsb' 0 16 = m (a + 1#32) ++ m a :=
    BitVec.extractLsb'_eq_self
  unfold extend
  rw [if_neg (by decide), if_neg (by decide), if_neg (by decide), if_neg (by decide), if_pos rfl,
    dpiMemRead_low m a (by decide), hself]
  exact (BitVec.setWidth_eq_append (by decide)).symm

theorem memoryValM_load (op : LoadOp) (hop : opcode p.instr = opLoad)
    (h3 : func3 p.instr = op.funct3) : memoryValM p.pmem p.regM = op.value p.pmem p.valE := by
  have hne : p.instr ≠ 0x0000a023#32 := ne_of_opcode (by rw [hop]; decide)
  have hrw : memRw p.instr = match op with
      | .lb => memRwLb
      | .lh => memRwLh
      | .lw => memRwLw
      | .lbu => memRwLbu
      | .lhu => memRwLhu := by
    unfold memRw
    cases op <;> simp +decide [hne, hop, h3, LoadOp.funct3]
  unfold memoryValM
  rw [Pass.regM_memRw, Pass.regM_valE, hrw]
  cases op with
  | lb => exact extend_lb p.pmem p.valE
  | lh => exact extend_lh p.pmem p.valE
  | lw => rfl
  | lbu => exact extend_lbu p.pmem p.valE
  | lhu => exact extend_lhu p.pmem p.valE

end

/-! ## Encodings -/

theorem imm_of_ne {i : Word} {op : BitVec 7} (h : opcode i = op) (hne : op ≠ opAlui)
    (hop : op ∈ [opLui, opAuipc, opJal, opJalr, opBranch, opLoad, opStore, opAlui]) :
    imm i = immGen i :=
  imm_eq_immGen (fun hs => hne (h.symm.trans hs.1)) (h ▸ hop)

theorem fields_iType {op : BitVec 7} (imm : BitVec 12) (rs1 : BitVec 5) (f3 : BitVec 3)
    (rd : BitVec 5) (hop : op = opJalr ∨ op = opLoad ∨ op = opAlui)
    (h3 : op = opAlui → f3 ≠ 0b001#3 ∧ f3 ≠ 0b101#3) :
    opcode (iType imm rs1 f3 rd op) = op ∧ func3 (iType imm rs1 f3 rd op) = f3 ∧
      (iType imm rs1 f3 rd op).extractLsb' 7 5 = rd ∧
      Akun.imm (iType imm rs1 f3 rd op) = imm.signExtend 32 := by
  have hf := fieldsOf_iType imm rs1 f3 rd (hop.imp_right (Or.imp_right .inl))
  have h0 : opcode (iType imm rs1 f3 rd op) = op := congrArg Fields.opcode hf
  have h1 : func3 (iType imm rs1 f3 rd op) = f3 := congrArg Fields.funct3 hf
  refine ⟨h0, h1, congrArg Fields.rd hf, (imm_eq_immGen ?_ ?_).trans (congrArg Fields.imm hf)⟩
  · unfold ShiftImm
    rw [h0, h1]
    rintro ⟨h, h | ⟨h, -⟩ | ⟨h, -⟩⟩
    · exact (h3 ‹_›).1 h
    · exact (h3 ‹_›).2 h
    · exact (h3 ‹_›).2 h
  · rw [h0]
    rcases hop with rfl | rfl | rfl <;> decide

theorem fields_sType (imm : BitVec 12) (rs2 rs1 : BitVec 5) (f3 : BitVec 3) :
    opcode (sType imm rs2 rs1 f3 opStore) = opStore ∧ func3 (sType imm rs2 rs1 f3 opStore) = f3 ∧
      Akun.imm (sType imm rs2 rs1 f3 opStore) = imm.signExtend 32 := by
  have hf := fieldsOf_sType imm rs2 rs1 f3
  have h0 : opcode (sType imm rs2 rs1 f3 opStore) = opStore := congrArg Fields.opcode hf
  exact ⟨h0, congrArg Fields.funct3 hf,
    (imm_of_ne h0 (by decide) (by decide)).trans (congrArg Fields.imm hf)⟩

theorem fields_bType (imm : BitVec 12) (rs2 rs1 : BitVec 5) (f3 : BitVec 3) :
    opcode (bType imm rs2 rs1 f3 opBranch) = opBranch ∧
      func3 (bType imm rs2 rs1 f3 opBranch) = f3 ∧
      Akun.imm (bType imm rs2 rs1 f3 opBranch) = (imm ++ 0#1).signExtend 32 := by
  obtain ⟨h0, h1, -, -, himm⟩ := fieldsOf_bType imm rs2 rs1 f3
  exact ⟨h0, h1, (imm_of_ne h0 (by decide) (by decide)).trans himm⟩

theorem fields_uType {op : BitVec 7} (imm : BitVec 20) (rd : BitVec 5)
    (hop : op = opLui ∨ op = opAuipc) :
    opcode (uType imm rd op) = op ∧ (uType imm rd op).extractLsb' 7 5 = rd ∧
      Akun.imm (uType imm rd op) = imm ++ 0#12 := by
  have hf := fieldsOf_uType imm rd hop
  have h0 : opcode (uType imm rd op) = op := congrArg Fields.opcode hf
  refine ⟨h0, congrArg Fields.rd hf, (imm_of_ne h0 ?_ ?_).trans (congrArg Fields.imm hf)⟩
  · rcases hop with rfl | rfl <;> decide
  · rcases hop with rfl | rfl <;> decide

theorem fields_jType (imm : BitVec 20) (rd : BitVec 5) :
    opcode (jType imm rd opJal) = opJal ∧ (jType imm rd opJal).extractLsb' 7 5 = rd ∧
      Akun.imm (jType imm rd opJal) = (imm ++ 0#1).signExtend 32 := by
  obtain ⟨h0, hrd, himm⟩ := fieldsOf_jType imm rd
  exact ⟨h0, hrd, (imm_of_ne h0 (by decide) (by decide)).trans himm⟩

theorem fields_rType (f7 : BitVec 7) (rs2 rs1 : BitVec 5) (f3 : BitVec 3) (rd : BitVec 5)
    (op : BitVec 7) : opcode (rType f7 rs2 rs1 f3 rd op) = op ∧
      func3 (rType f7 rs2 rs1 f3 rd op) = f3 ∧ func7 (rType f7 rs2 rs1 f3 rd op) = f7 ∧
      (rType f7 rs2 rs1 f3 rd op).extractLsb' 7 5 = rd ∧
      (rType f7 rs2 rs1 f3 rd op).extractLsb' 20 5 = rs2 := by
  have hf := fieldsOf_rType f7 rs2 rs1 f3 rd op
  exact ⟨congrArg Fields.opcode hf, congrArg Fields.funct3 hf, congrArg Fields.funct7 hf,
    congrArg Fields.rd hf, congrArg Fields.rs2 hf⟩

theorem opcode_encode (i : Instr) : opcode i.encode = i.opcode := by
  cases i with
  | lui rd imm => exact (fields_uType imm rd (.inl rfl)).1
  | auipc rd imm => exact (fields_uType imm rd (.inr rfl)).1
  | jal rd imm => exact (fields_jType imm rd).1
  | jalr rd rs1 imm => exact (fields_iType imm rs1 0b000#3 rd (.inl rfl) (by decide)).1
  | branch op rs1 rs2 imm => exact (fields_bType imm rs2 rs1 op.funct3).1
  | load op rd rs1 imm =>
      exact (fields_iType imm rs1 op.funct3 rd (.inr (.inl rfl)) (fun h => absurd h (by decide))).1
  | store op rs1 rs2 imm => exact (fields_sType imm rs2 rs1 op.funct3).1
  | opImm op rd rs1 imm =>
      exact (fields_iType imm rs1 op.funct3 rd (.inr (.inr rfl)) (fun _ => by cases op <;> decide)).1
  | shiftImm op rd rs1 shamt => exact (fields_rType op.funct7 shamt rs1 op.funct3 rd opAlui).1
  | opReg op rd rs1 rs2 => exact (fields_rType op.funct7 rs2 rs1 op.funct3 rd opAlu).1
  | fence rd rs1 imm => exact congrArg Fields.opcode (fieldsOf_iType imm rs1 0b000#3 rd (by decide))

/-! ## Instructions -/

/-- The instruction is not the one store that is not made, and a jump to `a` and an offset goes to an
even address. -/
def Safe (i : Instr) (a : Word) : Prop :=
  i.encode ≠ 0x0000a023#32 ∧
    ∀ rd rs1 imm, i = .jalr rd rs1 imm → (a + imm.signExtend 32).getLsbD 0 = false

/-- Neither exception concerns an instruction that is no store and no `jalr`. -/
theorem safe_of_opcode {i : Instr} (a : Word) (h : i.opcode ≠ opStore ∧ i.opcode ≠ opJalr) :
    Safe i a := by
  refine ⟨ne_of_opcode (opcode_encode i ▸ h.1), ?_⟩
  rintro rd rs1 imm rfl
  exact absurd rfl h.2

theorem safe_jalr_iff (rd rs1 : BitVec 5) (imm : BitVec 12) (a : Word) :
    Safe (.jalr rd rs1 imm) a ↔ (a + imm.signExtend 32).getLsbD 0 = false := by
  constructor
  · exact fun h => h.2 rd rs1 imm rfl
  · intro h
    refine ⟨ne_of_opcode ?_, ?_⟩
    · rw [opcode_encode]
      exact (by decide : opJalr ≠ opStore)
    · rintro rd' rs1' imm' ⟨⟩
      exact h

theorem safe_store_iff (op : StoreOp) (rs1 rs2 : BitVec 5) (imm : BitVec 12) (a : Word) :
    Safe (.store op rs1 rs2 imm) a ↔ (Instr.store op rs1 rs2 imm).encode ≠ 0x0000a023#32 :=
  and_iff_left (by rintro rd rs1' imm' ⟨⟩)

section

variable {p : Pass}

/-- An instruction that writes its ALU result. -/
theorem effect_result {v : Word} {rd : BitVec 5}
    (hop : opcode p.instr = opLui ∨ opcode p.instr = opAuipc ∨ opcode p.instr = opAlui ∨
      opcode p.instr = opAlu) (hrd : p.instr.extractLsb' 7 5 = rd) (hv : p.valE = v) :
    p.effect = ⟨regWrite rd v, none, p.pc + 4#32⟩ := by
  rw [effect_compute hop, hv, hrd]

/-- A pass of an instruction does what the specification says exactly when the instruction is safe. -/
theorem effect_eq_iff {i : Instr} (hi : p.instr = i.encode) :
    p.effect = i.effect p.valA p.valB p.pc p.pmem ↔ Safe i p.valA := by
  cases i with
  | lui rd imm =>
      obtain ⟨hop, hrd, himm⟩ := fields_uType imm rd (.inl rfl)
      rw [show uType imm rd opLui = p.instr from hi.symm] at hop hrd himm
      refine iff_of_true ?_ (safe_of_opcode _ (by simp +decide [Instr.opcode]))
      exact effect_result (.inl hop) hrd ((valE_lui hop).trans himm)
  | auipc rd imm =>
      obtain ⟨hop, hrd, himm⟩ := fields_uType imm rd (.inr rfl)
      rw [show uType imm rd opAuipc = p.instr from hi.symm] at hop hrd himm
      refine iff_of_true ?_ (safe_of_opcode _ (by simp +decide [Instr.opcode]))
      exact effect_result (.inr (.inl hop)) hrd (by rw [valE_pc (.inl hop), himm])
  | jal rd imm =>
      obtain ⟨hop, hrd, himm⟩ := fields_jType imm rd
      rw [show jType imm rd opJal = p.instr from hi.symm] at hop hrd himm
      refine iff_of_true ?_ (safe_of_opcode _ (by simp +decide [Instr.opcode]))
      rw [effect_jump (.inl hop), valE_pc (.inr (.inl hop)), hrd, himm]
      rfl
  | jalr rd rs1 imm =>
      obtain ⟨hop, -, hrd, himm⟩ := fields_iType imm rs1 0b000#3 rd (.inl rfl) (by decide)
      rw [show iType imm rs1 0b000#3 rd opJalr = p.instr from hi.symm] at hop hrd himm
      rw [safe_jalr_iff, effect_jump (.inr hop), valE_base (.inl hop), hrd, himm]
      constructor
      · exact fun h => (eq_and_not_one_iff _).mp (congrArg Effect.nextPc h)
      · intro h
        have htarget := (eq_and_not_one_iff _).mpr h
        exact congrArg (Effect.mk (regWrite rd (p.pc + 4#32)) none) htarget
  | branch op rs1 rs2 imm =>
      obtain ⟨hop, h3, himm⟩ := fields_bType imm rs2 rs1 op.funct3
      rw [show bType imm rs2 rs1 op.funct3 opBranch = p.instr from hi.symm] at hop h3 himm
      refine iff_of_true ?_ (safe_of_opcode _ (by simp +decide [Instr.opcode]))
      rw [effect_branch (.inl hop), valE_pc (.inr (.inr hop)), himm, Pass.needJump,
        decodeNeedJump_branch op hop h3]
      rfl
  | load op rd rs1 imm =>
      obtain ⟨hop, h3, hrd, himm⟩ := fields_iType imm rs1 op.funct3 rd (.inr (.inl rfl))
        (fun h => absurd h (by decide))
      rw [show iType imm rs1 op.funct3 rd opLoad = p.instr from hi.symm] at hop h3 hrd himm
      refine iff_of_true ?_ (safe_of_opcode _ (by simp +decide [Instr.opcode]))
      rw [effect_load hop, memoryValM_load op hop h3, valE_base (.inr (.inl hop)), hrd, himm]
      rfl
  | store op rs1 rs2 imm =>
      obtain ⟨hop, h3, himm⟩ := fields_sType imm rs2 rs1 op.funct3
      rw [show sType imm rs2 rs1 op.funct3 opStore = p.instr from hi.symm] at hop h3 himm
      rw [safe_store_iff, ← hi, effect_store op hop h3, valE_base (.inr (.inr hop)), himm]
      constructor
      · intro h hword
        have hstore := congrArg Effect.memWrite h
        dsimp only at hstore
        rw [if_pos hword] at hstore
        contradiction
      · intro h
        rw [if_neg h]
        rfl
  | opImm op rd rs1 imm =>
      obtain ⟨hop, h3, hrd, himm⟩ := fields_iType imm rs1 op.funct3 rd (.inr (.inr rfl))
        (fun _ => by cases op <;> decide)
      rw [show iType imm rs1 op.funct3 rd opAlui = p.instr from hi.symm] at hop h3 hrd himm
      refine iff_of_true ?_ (safe_of_opcode _ (by simp +decide [Instr.opcode]))
      exact effect_result (.inr (.inr (.inl hop))) hrd (by rw [valE_opImm op hop h3, himm])
  | shiftImm op rd rs1 shamt =>
      obtain ⟨hop, h3, h7, hrd, hrs2⟩ := fields_rType op.funct7 shamt rs1 op.funct3 rd opAlui
      rw [show rType op.funct7 shamt rs1 op.funct3 rd opAlui = p.instr from hi.symm]
        at hop h3 h7 hrd hrs2
      refine iff_of_true ?_ (safe_of_opcode _ (by simp +decide [Instr.opcode]))
      exact effect_result (.inr (.inr (.inl hop))) hrd (by rw [valE_shiftImm op hop h3 h7, hrs2])
  | opReg op rd rs1 rs2 =>
      obtain ⟨hop, h3, h7, hrd, -⟩ := fields_rType op.funct7 rs2 rs1 op.funct3 rd opAlu
      rw [show rType op.funct7 rs2 rs1 op.funct3 rd opAlu = p.instr from hi.symm] at hop h3 h7 hrd
      refine iff_of_true ?_ (safe_of_opcode _ (by simp +decide [Instr.opcode]))
      exact effect_result (.inr (.inr (.inr hop))) hrd (valE_opReg op hop h3 h7)
  | fence rd rs1 imm =>
      have hop : opcode p.instr = opFence := hi ▸ opcode_encode (.fence rd rs1 imm)
      refine iff_of_true ?_ (safe_of_opcode _ (by simp +decide [Instr.opcode]))
      rw [effect_branch (.inr hop), Pass.needJump, decodeNeedJump_of_opcode (by rw [hop]; decide), hop]
      rfl

end

/-- Pushing the instruction through the stages has the effect the specification gives it. -/
def Conforms (i : Instr) (a b pc : Word) (m : Mem) : Prop :=
  (Pass.mk pc i.encode a b m).effect = i.effect a b pc m

/-- A pass does what the specification says exactly when the word is not that of `sw x0, 0(x1)` and
no `jalr` computes an odd address. -/
theorem conforms_iff (i : Instr) (a b pc : Word) (m : Mem) : Conforms i a b pc m ↔ Safe i a :=
  effect_eq_iff (p := Pass.mk pc i.encode a b m) rfl

/-- `sw x0, 0(x1)` stores nothing, and `jalr x1, 1(x2)` goes to an odd address. -/
theorem not_conforms :
    ¬Conforms (.store .sw 1#5 0#5 0#12) 0x80000100#32 0#32 resetVector (fun _ => 0#8) ∧
      ¬Conforms (.jalr 1#5 2#5 1#12) 0x80000100#32 0#32 resetVector (fun _ => 0#8) := by
  constructor
  · intro h
    exact absurd (congrArg Effect.memWrite h) (by decide +kernel)
  · intro h
    exact absurd (congrArg Effect.nextPc h) (by decide +kernel)

end MyCpu.Rv32.Akun
