import MyCpu.Rv32.Isa
import MyCpu.Rv32.SingleCycle

/-!
# The single-cycle CPU implements RV32I

Every module of the CPU decodes the instruction word again. Once the fields of each encoding are
known (`fieldsOf_rType` and its relatives, with the immediates of `imm_gen`), the work splits by
what an instruction does: `step_writeReg`, `step_jump`, `step_load`, `step_store`, `step_pc` follow
one clock for a class of opcodes, and the tables of `execute` and `memory_access` are compared with
the instruction set entry by entry.

* `step_arch` : one clock of the CPU is one instruction of the specification.
-/

namespace MyCpu.Rv32

open Isa

/-! ## Immediates -/

/-- Repeating the top bit is sign extension. -/
theorem replicate_append_eq_signExtend {n k : Nat} (b : BitVec 1) (x : BitVec (n + 1))
    (hb : b = x.extractLsb' n 1) : b.replicate k ++ x = x.signExtend (1 * k + (n + 1)) := by
  have hmsb : b[0] = x.msb := by
    rw [hb, BitVec.msb_eq_getLsbD_last]
    simp
  ext i hi
  by_cases h : i < n + 1
  · simp [BitVec.getElem_append, BitVec.getElem_signExtend, h]
  · simp [BitVec.getElem_append, BitVec.getElem_signExtend, h, Nat.mod_one, hmsb]

theorem extractLsb'_extractLsb' {w start len start' len' : Nat} (x : BitVec w)
    (h : start' + len' ≤ len) :
    (x.extractLsb' start len).extractLsb' start' len' = x.extractLsb' (start + start') len' := by
  ext i hi
  simp only [BitVec.getElem_extractLsb', BitVec.getLsbD_extractLsb', Nat.add_assoc,
    show start' + i < len by omega, decide_true, Bool.true_and]

theorem immGen_i {w : Word} {op : BitVec 7} (h : w.extractLsb' 0 7 = op)
    (hop : op = opJalr ∨ op = opLoad ∨ op = opAlui ∨ op = opFence ∨ op = opSystem) :
    immGen w = (w.extractLsb' 20 12).signExtend 32 := by
  unfold immGen
  dsimp only
  rw [h, if_pos hop]
  exact replicate_append_eq_signExtend _ _
    (extractLsb'_extractLsb' w (show 11 + 1 ≤ 12 by decide)).symm

theorem immGen_s {w : Word} (h : w.extractLsb' 0 7 = opStore) :
    immGen w = (w.extractLsb' 25 7 ++ w.extractLsb' 7 5).signExtend 32 := by
  unfold immGen
  dsimp only
  rw [h, if_neg (by decide), if_pos rfl]
  refine replicate_append_eq_signExtend _ _ ?_
  rw [BitVec.extractLsb'_append_eq_of_le (by decide), extractLsb'_extractLsb' w (by decide)]

theorem immGen_b {w : Word} (h : w.extractLsb' 0 7 = opBranch) :
    immGen w = (w.extractLsb' 31 1 ++ (w.extractLsb' 7 1 ++ (w.extractLsb' 25 6 ++
      (w.extractLsb' 8 4 ++ 0#1)))).signExtend 32 := by
  unfold immGen
  dsimp only
  rw [h, if_neg (by decide), if_neg (by decide), if_pos rfl]
  refine replicate_append_eq_signExtend _ _ ?_
  rw [BitVec.extractLsb'_append_eq_of_le (by decide)]
  exact BitVec.extractLsb'_eq_self.symm

theorem immGen_u {w : Word} {op : BitVec 7} (h : w.extractLsb' 0 7 = op)
    (hop : op = opLui ∨ op = opAuipc) : immGen w = w.extractLsb' 12 20 ++ 0#12 := by
  unfold immGen
  dsimp only
  rw [h]
  rcases hop with rfl | rfl <;>
    rw [if_neg (by decide), if_neg (by decide), if_neg (by decide), if_pos (by decide)]

theorem immGen_j {w : Word} (h : w.extractLsb' 0 7 = opJal) :
    immGen w = (w.extractLsb' 31 1 ++ (w.extractLsb' 12 8 ++ (w.extractLsb' 20 1 ++
      (w.extractLsb' 21 10 ++ 0#1)))).signExtend 32 := by
  unfold immGen
  dsimp only
  rw [h, if_neg (by decide), if_neg (by decide), if_neg (by decide), if_neg (by decide), if_pos rfl]
  refine replicate_append_eq_signExtend _ _ ?_
  rw [BitVec.extractLsb'_append_eq_of_le (by decide)]
  exact BitVec.extractLsb'_eq_self.symm

/-! ## Fields of the encodings -/

theorem fieldsOf_rType (funct7 : BitVec 7) (rs2 rs1 : BitVec 5) (funct3 : BitVec 3)
    (rd : BitVec 5) (op : BitVec 7) : fieldsOf (rType funct7 rs2 rs1 funct3 rd op) =
      ⟨op, rd, funct3, rs1, rs2, funct7, immGen (rType funct7 rs2 rs1 funct3 rd op)⟩ := by
  simp (disch := omega) only [fieldsOf, rType, BitVec.extractLsb'_append_eq_of_le,
    BitVec.extractLsb'_append_eq_of_add_le]
  simp only [Nat.reduceAdd, Nat.reduceSub, BitVec.extractLsb'_eq_self]

/-- The shift amount is the low part of the immediate. -/
theorem immGen_rType (funct7 : BitVec 7) (rs2 rs1 : BitVec 5) (funct3 : BitVec 3) (rd : BitVec 5) :
    (immGen (rType funct7 rs2 rs1 funct3 rd opAlui)).extractLsb' 0 5 = rs2 := by
  have hop : (rType funct7 rs2 rs1 funct3 rd opAlui).extractLsb' 0 7 = opAlui :=
    congrArg Fields.opcode (fieldsOf_rType funct7 rs2 rs1 funct3 rd opAlui)
  have hrs2 : (rType funct7 rs2 rs1 funct3 rd opAlui).extractLsb' 20 5 = rs2 :=
    congrArg Fields.rs2 (fieldsOf_rType funct7 rs2 rs1 funct3 rd opAlui)
  rw [immGen_i hop (by decide)]
  refine Eq.trans ?_ hrs2
  refine BitVec.eq_of_getLsbD_eq fun i hi => ?_
  simp only [BitVec.getLsbD_extractLsb', BitVec.getLsbD_signExtend, Nat.zero_add, hi,
    show i < 12 by omega, show i < 32 by omega, decide_true, Bool.true_and, if_true]

theorem fieldsOf_iType {op : BitVec 7} (imm : BitVec 12) (rs1 : BitVec 5) (funct3 : BitVec 3)
    (rd : BitVec 5)
    (hop : op = opJalr ∨ op = opLoad ∨ op = opAlui ∨ op = opFence ∨ op = opSystem) :
    fieldsOf (iType imm rs1 funct3 rd op) = ⟨op, rd, funct3, rs1, imm.extractLsb' 0 5,
      imm.extractLsb' 5 7, imm.signExtend 32⟩ := by
  have h : (iType imm rs1 funct3 rd op).extractLsb' 0 7 = op := by
    simp (disch := omega) only [iType, BitVec.extractLsb'_append_eq_of_add_le,
      BitVec.extractLsb'_eq_self]
  rw [fieldsOf, immGen_i h hop]
  simp (disch := omega) only [iType, BitVec.extractLsb'_append_eq_of_le,
    BitVec.extractLsb'_append_eq_of_add_le]
  simp only [Nat.reduceAdd, Nat.reduceSub, BitVec.extractLsb'_eq_self]

theorem fieldsOf_sType (imm : BitVec 12) (rs2 rs1 : BitVec 5) (funct3 : BitVec 3) :
    fieldsOf (sType imm rs2 rs1 funct3 opStore) = ⟨opStore, imm.extractLsb' 0 5, funct3, rs1, rs2,
      imm.extractLsb' 5 7, imm.signExtend 32⟩ := by
  have himm : imm.extractLsb' 5 7 ++ imm.extractLsb' 0 5 = imm :=
    BitVec.extractLsb'_append_extractLsb' (w := 7)
  have h : (sType imm rs2 rs1 funct3 opStore).extractLsb' 0 7 = opStore := by
    simp (disch := omega) only [sType, BitVec.extractLsb'_append_eq_of_add_le,
      BitVec.extractLsb'_eq_self]
  rw [fieldsOf, immGen_s h]
  simp (disch := omega) only [sType, BitVec.extractLsb'_append_eq_of_le,
    BitVec.extractLsb'_append_eq_of_add_le]
  simp only [Nat.reduceAdd, Nat.reduceSub, BitVec.extractLsb'_eq_self, himm]

theorem bType_imm (imm : BitVec 12) : imm.extractLsb' 11 1 ++ (imm.extractLsb' 10 1 ++
    (imm.extractLsb' 4 6 ++ (imm.extractLsb' 0 4 ++ 0#1))) = imm ++ 0#1 := by
  refine BitVec.eq_of_getLsbD_eq fun i hi => ?_
  simp only [BitVec.getLsbD_append, BitVec.getLsbD_extractLsb']
  grind

theorem jType_imm (imm : BitVec 20) : imm.extractLsb' 19 1 ++ (imm.extractLsb' 11 8 ++
    (imm.extractLsb' 10 1 ++ (imm.extractLsb' 0 10 ++ 0#1))) = imm ++ 0#1 := by
  refine BitVec.eq_of_getLsbD_eq fun i hi => ?_
  simp only [BitVec.getLsbD_append, BitVec.getLsbD_extractLsb']
  grind

theorem fieldsOf_bType (imm : BitVec 12) (rs2 rs1 : BitVec 5) (funct3 : BitVec 3) :
    (fieldsOf (bType imm rs2 rs1 funct3 opBranch)).opcode = opBranch ∧
      (fieldsOf (bType imm rs2 rs1 funct3 opBranch)).funct3 = funct3 ∧
      (fieldsOf (bType imm rs2 rs1 funct3 opBranch)).rs1 = rs1 ∧
      (fieldsOf (bType imm rs2 rs1 funct3 opBranch)).rs2 = rs2 ∧
      (fieldsOf (bType imm rs2 rs1 funct3 opBranch)).imm = (imm ++ 0#1).signExtend 32 := by
  have h : (bType imm rs2 rs1 funct3 opBranch).extractLsb' 0 7 = opBranch := by
    simp (disch := omega) only [bType, BitVec.extractLsb'_append_eq_of_add_le,
      BitVec.extractLsb'_eq_self]
  rw [fieldsOf, immGen_b h, ← bType_imm]
  simp (disch := omega) only [bType, BitVec.extractLsb'_append_eq_of_le,
    BitVec.extractLsb'_append_eq_of_add_le]
  simp only [Nat.reduceAdd, Nat.reduceSub, BitVec.extractLsb'_eq_self, and_self]

theorem fieldsOf_uType {op : BitVec 7} (imm : BitVec 20) (rd : BitVec 5)
    (hop : op = opLui ∨ op = opAuipc) : fieldsOf (uType imm rd op) = ⟨op, rd,
      imm.extractLsb' 0 3, imm.extractLsb' 3 5, imm.extractLsb' 8 5, imm.extractLsb' 13 7,
      imm ++ 0#12⟩ := by
  have h : (uType imm rd op).extractLsb' 0 7 = op := by
    simp (disch := omega) only [uType, BitVec.extractLsb'_append_eq_of_add_le,
      BitVec.extractLsb'_eq_self]
  rw [fieldsOf, immGen_u h hop]
  simp (disch := omega) only [uType, BitVec.extractLsb'_append_eq_of_le,
    BitVec.extractLsb'_append_eq_of_add_le]
  simp only [Nat.reduceAdd, Nat.reduceSub, BitVec.extractLsb'_eq_self]

theorem fieldsOf_jType (imm : BitVec 20) (rd : BitVec 5) :
    (fieldsOf (jType imm rd opJal)).opcode = opJal ∧ (fieldsOf (jType imm rd opJal)).rd = rd ∧
      (fieldsOf (jType imm rd opJal)).imm = (imm ++ 0#1).signExtend 32 := by
  have h : (jType imm rd opJal).extractLsb' 0 7 = opJal := by
    simp (disch := omega) only [jType, BitVec.extractLsb'_append_eq_of_add_le,
      BitVec.extractLsb'_eq_self]
  rw [fieldsOf, immGen_j h, ← jType_imm]
  simp (disch := omega) only [jType, BitVec.extractLsb'_append_eq_of_le,
    BitVec.extractLsb'_append_eq_of_add_le]
  simp only [Nat.reduceAdd, Nat.reduceSub, BitVec.extractLsb'_eq_self, and_self]

/-! ## Tables -/

theorem aluTable_eq (op : RegOp) (a b : Word) :
    aluTable op.funct3 op.funct7 a b (b.extractLsb' 0 5) = op.eval a b := by
  have hs : (b.extractLsb' 0 5).toNat = b.toNat % 32 := by simp
  cases op with
  | sll => exact congrArg (a <<< ·) hs
  | srl => exact congrArg (a >>> ·) hs
  | sra => exact congrArg a.sshiftRight hs
  | _ => rfl

theorem aluiTable_eq (op : ImmOp) (funct7 : BitVec 7) (a imm : Word) (shamt : BitVec 5) :
    aluiTable op.funct3 funct7 a imm shamt = op.eval a imm := by
  cases op <;> rfl

theorem aluiTable_shift (op : ShiftOp) (a imm : Word) (shamt : BitVec 5) :
    aluiTable op.funct3 op.funct7 a imm shamt = op.eval a shamt.toNat := by
  cases op <;> rfl

theorem branchCond_eq (f : Fields) (op : BranchOp) (a b : Word) (hop : f.opcode = opBranch)
    (h3 : f.funct3 = op.funct3) : branchCond f a b = op.holds a b := by
  rw [branchCond, if_pos hop, h3]
  cases op with
  | bge => exact decide_not.symm.trans (decide_eq_decide.mpr Int.not_lt)
  | bgeu => exact decide_not.symm.trans (decide_eq_decide.mpr Nat.not_lt)
  | beq => rfl
  | bne => exact decide_not.symm
  | blt => rfl
  | bltu => rfl

theorem loadExtend_signed8 (b : Byte) :
    loadExtend 0b000#3 (b.setWidth 32) = b.signExtend 32 := by
  have h8 : (b.setWidth 32).extractLsb' 0 8 = b :=
    (BitVec.extractLsb'_setWidth_of_le (by decide)).trans BitVec.extractLsb'_eq_self
  have h7 : (b.setWidth 32).extractLsb' 7 1 = b.extractLsb' 7 1 :=
    BitVec.extractLsb'_setWidth_of_le (by decide)
  rw [loadExtend, if_pos rfl, h8, h7]
  exact replicate_append_eq_signExtend (k := 24) _ b rfl

theorem loadExtend_signed16 (h : BitVec 16) :
    loadExtend 0b001#3 (h.setWidth 32) = h.signExtend 32 := by
  have h16 : (h.setWidth 32).extractLsb' 0 16 = h :=
    (BitVec.extractLsb'_setWidth_of_le (by decide)).trans BitVec.extractLsb'_eq_self
  have h15 : (h.setWidth 32).extractLsb' 15 1 = h.extractLsb' 15 1 :=
    BitVec.extractLsb'_setWidth_of_le (by decide)
  rw [loadExtend, if_neg (by decide), if_pos rfl, h16, h15]
  exact replicate_append_eq_signExtend (k := 16) _ h rfl

theorem loadExtend_unsigned8 (b : Byte) :
    loadExtend 0b100#3 (b.setWidth 32) = b.setWidth 32 := by
  have h8 : (b.setWidth 32).extractLsb' 0 8 = b :=
    (BitVec.extractLsb'_setWidth_of_le (by decide)).trans BitVec.extractLsb'_eq_self
  rw [loadExtend, if_neg (by decide), if_neg (by decide), if_neg (by decide), if_pos rfl, h8]
  exact (BitVec.setWidth_eq_append (by decide)).symm

theorem loadExtend_unsigned16 (h : BitVec 16) :
    loadExtend 0b101#3 (h.setWidth 32) = h.setWidth 32 := by
  have h16 : (h.setWidth 32).extractLsb' 0 16 = h :=
    (BitVec.extractLsb'_setWidth_of_le (by decide)).trans BitVec.extractLsb'_eq_self
  rw [loadExtend, if_neg (by decide), if_neg (by decide), if_neg (by decide), if_neg (by decide),
    if_pos rfl, h16]
  exact (BitVec.setWidth_eq_append (by decide)).symm

theorem loadExtend_eq (op : LoadOp) (m : Mem) (a : Word) :
    loadExtend op.funct3 (dpiMemRead m a (byteLen op.funct3)) = op.value m a := by
  cases op with
  | lb => exact loadExtend_signed8 (m a)
  | lh => exact loadExtend_signed16 (m (a + 1#32) ++ m a)
  | lw => rfl
  | lbu => exact loadExtend_unsigned8 (m a)
  | lhu => exact loadExtend_unsigned16 (m (a + 1#32) ++ m a)

theorem toNat_sub_eq_iff (a b : Word) {i : Nat} (hi : i < 4) :
    (b - a).toNat = i ↔ b = a + BitVec.ofNat 32 i := by
  constructor
  · intro h
    rw [← h, BitVec.ofNat_toNat, BitVec.setWidth_eq, BitVec.add_comm, BitVec.sub_add_cancel]
  · rintro rfl
    rw [BitVec.add_comm, BitVec.add_sub_cancel, BitVec.toNat_ofNat, Nat.mod_eq_of_lt (by omega)]

/-- The bytes `a`, `a + 1`, `a + 2` and `a + 3`, by their distance from `a`. -/
theorem update_apply_iff (a b : Word) : (b = a ↔ (b - a).toNat = 0) ∧
    (b = a + 1#32 ↔ (b - a).toNat = 1) ∧ (b = a + 2#32 ↔ (b - a).toNat = 2) ∧
    (b = a + 3#32 ↔ (b - a).toNat = 3) := by
  refine ⟨?_, (toNat_sub_eq_iff a b (by decide)).symm, (toNat_sub_eq_iff a b (by decide)).symm,
    (toNat_sub_eq_iff a b (by decide)).symm⟩
  rw [toNat_sub_eq_iff a b (by decide)]
  exact iff_of_eq (congrArg (b = ·) (BitVec.add_zero a).symm)

theorem hostWrite_one (m : Mem) (a v b : Word) : hostWrite m a 1#32 v b =
    if (b - a).toNat < 1 then v.extractLsb' (8 * (b - a).toNat) 8 else m b := by
  obtain ⟨h0, -, -, -⟩ := update_apply_iff a b
  rw [hostWrite, if_pos rfl, Function.update_apply, if_congr h0 rfl rfl]
  generalize (b - a).toNat = d
  grind

theorem hostWrite_two (m : Mem) (a v b : Word) : hostWrite m a 2#32 v b =
    if (b - a).toNat < 2 then v.extractLsb' (8 * (b - a).toNat) 8 else m b := by
  obtain ⟨h0, h1, -, -⟩ := update_apply_iff a b
  rw [hostWrite, if_neg (by decide), if_pos rfl, Function.update_apply, Function.update_apply,
    if_congr h0 rfl rfl, if_congr h1 rfl rfl]
  generalize (b - a).toNat = d
  grind

theorem hostWrite_four (m : Mem) (a v b : Word) : hostWrite m a 4#32 v b =
    if (b - a).toNat < 4 then v.extractLsb' (8 * (b - a).toNat) 8 else m b := by
  obtain ⟨h0, h1, h2, h3⟩ := update_apply_iff a b
  rw [hostWrite, if_neg (by decide), if_neg (by decide), Function.update_apply,
    Function.update_apply, Function.update_apply, Function.update_apply, if_congr h0 rfl rfl,
    if_congr h1 rfl rfl, if_congr h2 rfl rfl, if_congr h3 rfl rfl]
  generalize (b - a).toNat = d
  grind

theorem hostWrite_eq (op : StoreOp) (m : Mem) (a v : Word) :
    hostWrite m a (byteLen op.funct3) v = fun b =>
      if (b - a).toNat < op.bytes then v.extractLsb' (8 * (b - a).toNat) 8 else m b := by
  funext b
  cases op with
  | sb => exact hostWrite_one m a v b
  | sh => exact hostWrite_two m a v b
  | sw => exact hostWrite_four m a v b

/-! ## One clock -/

namespace Single

/-- The architectural state of the CPU. -/
def State.arch (s : State) : Arch := ⟨s.PC, s.regfile, s.pmem⟩

theorem arch_step (s : State) :
    (step s).arch = ⟨s.nextPc, s.regfile.after s.wb, s.pmem.after s.memWrite⟩ := rfl

theorem after_eq (rf : RegFile) (rd : BitVec 5) (v : Word) :
    rf.after ⟨true, rd, v⟩ = fun r => if r = rd ∧ rd ≠ 0#5 then v else rf r := by
  funext r
  rw [RegFile.after, RegFile.write]
  by_cases h : rd = 0#5
  · rw [if_neg (fun hc => hc.2 h), if_neg (fun hc => hc.2 h)]
  · rw [if_pos ⟨rfl, h⟩, Function.update_apply]
    exact if_congr (and_iff_left h).symm rfl rfl

/-- One clock of an instruction that writes its ALU result. -/
theorem step_writeReg {s : State}
    (hop : s.f.opcode = opLui ∨ s.f.opcode = opAuipc ∨ s.f.opcode = opAlu ∨ s.f.opcode = opAlui) :
    (step s).arch = s.arch.writeReg s.f.rd s.ex.aluResult (s.PC + 4#32) := by
  have hpc : s.nextPc = s.PC + 4#32 := by
    rcases hop with h | h | h | h <;> simp +decide [State.nextPc, pcUpdate, h] <;> rfl
  have hwb : s.wb = ⟨true, s.f.rd, s.ex.aluResult⟩ := by
    simp [State.wb, writeBack, writeBackTable, hop]
  have hmem : s.memWrite = none := by
    rcases hop with h | h | h | h <;> simp +decide [State.memWrite, memoryWrite, storeCall, h]
  rw [arch_step, hpc, hwb, hmem, after_eq]
  rfl

/-- One clock of a jump. -/
theorem step_jump {s : State} (hop : s.f.opcode = opJal ∨ s.f.opcode = opJalr) :
    (step s).arch = s.arch.writeReg s.f.rd (s.PC + 4#32) s.nextPc := by
  have hwb : s.wb = ⟨true, s.f.rd, s.PC + 4#32⟩ := by
    rcases hop with h | h <;> simp +decide [State.wb, writeBack, writeBackTable, h] <;> rfl
  have hmem : s.memWrite = none := by
    rcases hop with h | h <;> simp +decide [State.memWrite, memoryWrite, storeCall, h]
  rw [arch_step, hwb, hmem, after_eq]
  rfl

/-- One clock of a load. -/
theorem step_load {s : State} (hop : s.f.opcode = opLoad) :
    (step s).arch = s.arch.writeReg s.f.rd s.memData (s.PC + 4#32) := by
  have hpc : s.nextPc = s.PC + 4#32 := by simp +decide [State.nextPc, pcUpdate, hop]; rfl
  have hwb : s.wb = ⟨true, s.f.rd, s.memData⟩ := by
    simp +decide [State.wb, writeBack, writeBackTable, hop]
  have hmem : s.memWrite = none := by
    simp +decide [State.memWrite, memoryWrite, storeCall, hop]
  rw [arch_step, hpc, hwb, hmem, after_eq]
  rfl

/-- One clock of a store. -/
theorem step_store {s : State} (op : StoreOp) (hop : s.f.opcode = opStore)
    (h3 : s.f.funct3 = op.funct3) :
    (step s).arch = s.arch.writeMem s.ex.aluResult op.bytes s.rs2Data (s.PC + 4#32) := by
  have hpc : s.nextPc = s.PC + 4#32 := by simp +decide [State.nextPc, pcUpdate, hop]; rfl
  have hwb : s.regfile.after s.wb = s.regfile := by
    simp +decide [State.wb, writeBack, writeBackTable, hop, RegFile.after, RegFile.write]
  have hmem : s.pmem.after s.memWrite =
      hostWrite s.pmem s.ex.aluResult (byteLen op.funct3) s.rs2Data := by
    rw [State.memWrite, memoryWrite, storeCall, if_pos hop, h3]
    rfl
  rw [arch_step, hpc, hwb, hmem, hostWrite_eq]
  rfl

/-- One clock of a branch or a fence. -/
theorem step_pc {s : State} (hop : s.f.opcode = opBranch ∨ s.f.opcode = opFence) :
    (step s).arch = { s.arch with pc := s.nextPc } := by
  have hwb : s.regfile.after s.wb = s.regfile := by
    rcases hop with h | h <;>
      simp +decide [State.wb, writeBack, writeBackTable, h, RegFile.after, RegFile.write]
  have hmem : s.memWrite = none := by
    rcases hop with h | h <;> simp +decide [State.memWrite, memoryWrite, storeCall, h]
  rw [arch_step, hwb, hmem]
  rfl

theorem fields_of_instr {s : State} {w : Word} {f : Fields} (h : s.f.instr = w)
    (hw : fieldsOf w = f) : s.f.toFields = f := by
  rw [← hw, ← h]
  rfl

theorem rs1Data_eq {s : State} {f : Fields} (hf : s.f.toFields = f) :
    s.rs1Data = s.arch.get f.rs1 := by
  rw [State.rs1Data, hf]
  rfl

theorem rs2Data_eq {s : State} {f : Fields} (hf : s.f.toFields = f) :
    s.rs2Data = s.arch.get f.rs2 := by
  rw [State.rs2Data, hf]
  rfl

theorem aluResult_eq {s : State} {f : Fields} (hf : s.f.toFields = f) :
    s.ex.aluResult = aluResult f (s.arch.get f.rs1) (s.arch.get f.rs2) s.PC (s.PC + 4#32) := by
  rw [← rs1Data_eq hf, ← rs2Data_eq hf, ← hf]
  rfl

theorem nextPc_eq {s : State} {f : Fields} (hf : s.f.toFields = f) : s.nextPc =
    pcUpdate f s.PC (s.arch.get f.rs1) (s.PC + 4#32)
      (branchCond f (s.arch.get f.rs1) (s.arch.get f.rs2)) := by
  rw [← rs1Data_eq hf, ← rs2Data_eq hf, ← hf]
  rfl

theorem aluResult_alu {f : Fields} (a b pc link : Word) (h : f.opcode = opAlu) :
    aluResult f a b pc link = aluTable f.funct3 f.funct7 a b (b.extractLsb' 0 5) := by
  simp +decide [aluResult, h]

theorem aluResult_alui {f : Fields} (a b pc link : Word) (h : f.opcode = opAlui) :
    aluResult f a b pc link = aluiTable f.funct3 f.funct7 a f.imm (f.imm.extractLsb' 0 5) := by
  simp +decide [aluResult, h]

theorem regfile_zero (rf : RegFile) (wb : WriteBack) : rf.after wb 0#5 = rf 0#5 := by
  rw [RegFile.after, RegFile.write]
  split
  · next h => rw [Function.update_of_ne h.2.symm]
  · rfl

/-- One clock of the CPU is one instruction of the specification, for every state and every legal
encoding in the fetched word; register 0 keeps what it holds. -/
theorem step_arch (s : State) (i : Instr) (h : s.f.instr = i.encode) :
    (step s).arch = exec s.arch i ∧ (step s).regfile 0#5 = s.regfile 0#5 := by
  have hstep : (step s).arch = exec s.arch i := by
    cases i with
    | lui rd imm =>
        have hf := fields_of_instr h (fieldsOf_uType imm rd (.inl rfl))
        rw [step_writeReg (.inl (congrArg Fields.opcode hf)), aluResult_eq hf, congrArg Fields.rd hf]
        rfl
    | auipc rd imm =>
        have hf := fields_of_instr h (fieldsOf_uType imm rd (.inr rfl))
        rw [step_writeReg (.inr (.inl (congrArg Fields.opcode hf))), aluResult_eq hf,
          congrArg Fields.rd hf]
        rfl
    | jal rd imm =>
        have hf : s.f.toFields = fieldsOf (jType imm rd opJal) := fields_of_instr h rfl
        obtain ⟨hop, hrd, himm⟩ := fieldsOf_jType imm rd
        generalize fieldsOf (jType imm rd opJal) = f at *
        rw [step_jump (.inl ((congrArg Fields.opcode hf).trans hop)), nextPc_eq hf,
          congrArg Fields.rd hf, hrd, pcUpdate, if_pos hop, himm]
        rfl
    | jalr rd rs1 imm =>
        have hf := fields_of_instr h (fieldsOf_iType imm rs1 0b000#3 rd (by decide))
        rw [step_jump (.inr (congrArg Fields.opcode hf)), nextPc_eq hf, congrArg Fields.rd hf]
        rfl
    | branch op rs1 rs2 imm =>
        have hf : s.f.toFields = fieldsOf (bType imm rs2 rs1 op.funct3 opBranch) :=
          fields_of_instr h rfl
        obtain ⟨hop, h3, hrs1, hrs2, himm⟩ := fieldsOf_bType imm rs2 rs1 op.funct3
        generalize fieldsOf (bType imm rs2 rs1 op.funct3 opBranch) = f at *
        rw [step_pc (.inl ((congrArg Fields.opcode hf).trans hop)), nextPc_eq hf, hrs1, hrs2,
          branchCond_eq f op _ _ hop h3, pcUpdate, hop, himm]
        rfl
    | load op rd rs1 imm =>
        have hf := fields_of_instr h (fieldsOf_iType imm rs1 op.funct3 rd (by decide))
        have hop : s.f.opcode = opLoad := congrArg Fields.opcode hf
        have h3 : s.f.funct3 = op.funct3 := congrArg Fields.funct3 hf
        have haddr : s.ex.aluResult = s.arch.get rs1 + imm.signExtend 32 := aluResult_eq hf
        have hdata : s.memData = op.value s.pmem (s.arch.get rs1 + imm.signExtend 32) := by
          rw [State.memData, memoryAccess, loadData, if_pos hop, h3, haddr, loadExtend_eq]
        rw [step_load hop, hdata, congrArg Fields.rd hf]
        rfl
    | store op rs1 rs2 imm =>
        have hf := fields_of_instr h (fieldsOf_sType imm rs2 rs1 op.funct3)
        have haddr : s.ex.aluResult = s.arch.get rs1 + imm.signExtend 32 := aluResult_eq hf
        rw [step_store op (congrArg Fields.opcode hf) (congrArg Fields.funct3 hf), haddr,
          rs2Data_eq hf]
        rfl
    | opImm op rd rs1 imm =>
        have hf := fields_of_instr h (fieldsOf_iType imm rs1 op.funct3 rd (by decide))
        rw [step_writeReg (.inr (.inr (.inr (congrArg Fields.opcode hf)))), aluResult_eq hf,
          aluResult_alui _ _ _ _ rfl, aluiTable_eq, congrArg Fields.rd hf]
        rfl
    | shiftImm op rd rs1 shamt =>
        have hf := fields_of_instr h (fieldsOf_rType op.funct7 shamt rs1 op.funct3 rd opAlui)
        rw [step_writeReg (.inr (.inr (.inr (congrArg Fields.opcode hf)))), aluResult_eq hf,
          aluResult_alui _ _ _ _ rfl, immGen_rType, aluiTable_shift, congrArg Fields.rd hf]
        rfl
    | opReg op rd rs1 rs2 =>
        have hf := fields_of_instr h (fieldsOf_rType op.funct7 rs2 rs1 op.funct3 rd opAlu)
        rw [step_writeReg (.inr (.inr (.inl (congrArg Fields.opcode hf)))), aluResult_eq hf,
          aluResult_alu _ _ _ _ rfl, aluTable_eq, congrArg Fields.rd hf]
        rfl
    | fence rd rs1 imm =>
        have hf := fields_of_instr h (fieldsOf_iType imm rs1 0b000#3 rd (by decide))
        rw [step_pc (.inr (congrArg Fields.opcode hf)), nextPc_eq hf]
        rfl
  exact ⟨hstep, regfile_zero s.regfile s.wb⟩

/-- `lb x3, -1(x1)` at the reset vector, loading its own top byte. -/
theorem step_arch_lb :
    (step (start (fun _ => 0x80000004#32)
      (Mem.ofWords resetVector [(Instr.load .lb 3#5 1#5 0xFFF#12).encode]))).arch.x 3#5 =
        0xFFFFFFFF#32 := by
  rw [(step_arch _ (.load .lb 3#5 1#5 0xFFF#12) (by decide +kernel)).1]
  decide +kernel

end Single

end MyCpu.Rv32
