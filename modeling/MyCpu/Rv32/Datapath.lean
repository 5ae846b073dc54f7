import MyCpu.Rv32.Memory

/-!
# The datapath both RV32I CPUs are built from

`rv32-single-cycle-cpu-escaper` and `rv32-pipeline-cpu-new` repeat the same combinational blocks
line by line: the field split and `imm_gen`, the two ALU tables, the branch table, the memory stage
and the write-back table. Each block is defined once here; the modules of either CPU are these
blocks with that CPU's inputs.
-/

namespace MyCpu.Rv32

/-! ## Opcodes and fields -/

abbrev opLui : BitVec 7 := 0b0110111#7
abbrev opAuipc : BitVec 7 := 0b0010111#7
abbrev opJal : BitVec 7 := 0b1101111#7
abbrev opJalr : BitVec 7 := 0b1100111#7
abbrev opBranch : BitVec 7 := 0b1100011#7
abbrev opLoad : BitVec 7 := 0b0000011#7
abbrev opStore : BitVec 7 := 0b0100011#7
abbrev opAlui : BitVec 7 := 0b0010011#7
abbrev opAlu : BitVec 7 := 0b0110011#7
abbrev opFence : BitVec 7 := 0b0001111#7
abbrev opSystem : BitVec 7 := 0b1110011#7

/-- The opcodes the two CPUs know. -/
def Supported (opcode : BitVec 7) : Prop :=
  opcode ∈ [opLui, opAuipc, opJal, opJalr, opBranch, opLoad, opStore, opAlui, opAlu, opFence,
    opSystem]

instance (opcode : BitVec 7) : Decidable (Supported opcode) := by
  unfold Supported; infer_instance

/-- `imm_gen`: the immediate of the format the opcode selects. -/
def immGen (instr : Word) : Word :=
  let opcode := instr.extractLsb' 0 7
  let sign := instr.extractLsb' 31 1
  if opcode = opJalr ∨ opcode = opLoad ∨ opcode = opAlui ∨ opcode = opFence ∨ opcode = opSystem then
    sign.replicate 20 ++ instr.extractLsb' 20 12
  else if opcode = opStore then
    sign.replicate 20 ++ (instr.extractLsb' 25 7 ++ instr.extractLsb' 7 5)
  else if opcode = opBranch then
    sign.replicate 19 ++ (sign ++ (instr.extractLsb' 7 1 ++ (instr.extractLsb' 25 6 ++
      (instr.extractLsb' 8 4 ++ 0#1))))
  else if opcode = opLui ∨ opcode = opAuipc then
    instr.extractLsb' 12 20 ++ 0#12
  else if opcode = opJal then
    sign.replicate 11 ++ (sign ++ (instr.extractLsb' 12 8 ++ (instr.extractLsb' 20 1 ++
      (instr.extractLsb' 21 10 ++ 0#1))))
  else 0#32

/-- An instruction word taken apart. -/
structure Fields where
  opcode : BitVec 7
  rd : BitVec 5
  funct3 : BitVec 3
  rs1 : BitVec 5
  rs2 : BitVec 5
  funct7 : BitVec 7
  imm : Word

def fieldsOf (instr : Word) : Fields where
  opcode := instr.extractLsb' 0 7
  rd := instr.extractLsb' 7 5
  funct3 := instr.extractLsb' 12 3
  rs1 := instr.extractLsb' 15 5
  rs2 := instr.extractLsb' 20 5
  funct7 := instr.extractLsb' 25 7
  imm := immGen instr

/-! ## Register file -/

abbrev RegFile := BitVec 5 → Word

/-- The combinational read port: register 0 reads as 0. -/
def RegFile.read (rf : RegFile) (r : BitVec 5) : Word := if r = 0#5 then 0#32 else rf r

/-- The posedge write port: register 0 is never written. -/
def RegFile.write (rf : RegFile) (en : Bool) (r : BitVec 5) (v : Word) : RegFile :=
  if en = true ∧ r ≠ 0#5 then Function.update rf r v else rf

theorem RegFile.read_write (rf : RegFile) (en : Bool) (r r' : BitVec 5) (v : Word) :
    (rf.write en r v).read r' = if en = true ∧ r ≠ 0#5 ∧ r' = r then v else rf.read r' := by
  unfold read write
  by_cases hw : en = true ∧ r ≠ 0#5
  · rw [if_pos hw]
    by_cases hr : r' = r
    · subst hr
      rw [if_neg hw.2, if_pos ⟨hw.1, hw.2, rfl⟩, Function.update_self]
    · rw [Function.update_of_ne hr, if_neg (c := en = true ∧ r ≠ 0#5 ∧ r' = r) (fun h => hr h.2.2)]
  · rw [if_neg hw, if_neg (c := en = true ∧ r ≠ 0#5 ∧ r' = r) (fun h => hw ⟨h.1, h.2.1⟩)]

/-! ## Execute -/

/-- The `funct3` table of the register-register instructions. -/
def aluTable (funct3 : BitVec 3) (funct7 : BitVec 7) (a b : Word) (shamt : BitVec 5) : Word :=
  if funct3 = 0b000#3 then if funct7.getLsbD 5 then a - b else a + b
  else if funct3 = 0b001#3 then a <<< shamt
  else if funct3 = 0b010#3 then if a.slt b then 1#32 else 0#32
  else if funct3 = 0b011#3 then if a.ult b then 1#32 else 0#32
  else if funct3 = 0b100#3 then a ^^^ b
  else if funct3 = 0b101#3 then if funct7.getLsbD 5 then a.sshiftRight' shamt else a >>> shamt
  else if funct3 = 0b110#3 then a ||| b
  else a &&& b

/-- The `funct3` table of the register-immediate instructions: no subtraction. -/
def aluiTable (funct3 : BitVec 3) (funct7 : BitVec 7) (a imm : Word) (shamt : BitVec 5) : Word :=
  if funct3 = 0b000#3 then a + imm
  else if funct3 = 0b001#3 then a <<< shamt
  else if funct3 = 0b010#3 then if a.slt imm then 1#32 else 0#32
  else if funct3 = 0b011#3 then if a.ult imm then 1#32 else 0#32
  else if funct3 = 0b100#3 then a ^^^ imm
  else if funct3 = 0b101#3 then if funct7.getLsbD 5 then a.sshiftRight' shamt else a >>> shamt
  else if funct3 = 0b110#3 then a ||| imm
  else a &&& imm

/-- `alu_result_o`; `link` is what the jumps put there, `PC + 4`. -/
def aluResult (f : Fields) (rs1 rs2 pc link : Word) : Word :=
  let shamt := if f.opcode = opAlu then rs2.extractLsb' 0 5 else f.imm.extractLsb' 0 5
  if f.opcode = opLui then f.imm
  else if f.opcode = opAuipc then pc + f.imm
  else if f.opcode = opJal ∨ f.opcode = opJalr then link
  else if f.opcode = opLoad ∨ f.opcode = opStore then rs1 + f.imm
  else if f.opcode = opBranch then 0#32
  else if f.opcode = opAlu then aluTable f.funct3 f.funct7 rs1 rs2 shamt
  else if f.opcode = opAlui then aluiTable f.funct3 f.funct7 rs1 f.imm shamt
  else 0#32

/-- `branch_cond`. -/
def branchCond (f : Fields) (rs1 rs2 : Word) : Bool :=
  if f.opcode = opBranch then
    if f.funct3 = 0b000#3 then rs1 == rs2
    else if f.funct3 = 0b001#3 then rs1 != rs2
    else if f.funct3 = 0b100#3 then rs1.slt rs2
    else if f.funct3 = 0b101#3 then !rs1.slt rs2
    else if f.funct3 = 0b110#3 then rs1.ult rs2
    else if f.funct3 = 0b111#3 then !rs1.ult rs2
    else false
  else false

/-! ## Memory access -/

/-- `byte_len`: the access width from `funct3[1:0]`. -/
def byteLen (funct3 : BitVec 3) : Word :=
  if funct3.extractLsb' 0 2 = 0b00#2 then 1#32
  else if funct3.extractLsb' 0 2 = 0b01#2 then 2#32
  else 4#32

/-- The extension of a loaded value. -/
def loadExtend (funct3 : BitVec 3) (raw : Word) : Word :=
  if funct3 = 0b000#3 then (raw.extractLsb' 7 1).replicate 24 ++ raw.extractLsb' 0 8
  else if funct3 = 0b001#3 then (raw.extractLsb' 15 1).replicate 16 ++ raw.extractLsb' 0 16
  else if funct3 = 0b010#3 then raw
  else if funct3 = 0b100#3 then 0#24 ++ raw.extractLsb' 0 8
  else if funct3 = 0b101#3 then 0#16 ++ raw.extractLsb' 0 16
  else raw

/-- `mem_data_o`: what the memory stage reads. -/
def loadData (m : Mem) (opcode : BitVec 7) (funct3 : BitVec 3) (addr : Word) : Word :=
  if opcode = opLoad then loadExtend funct3 (dpiMemRead m addr (byteLen funct3)) else 0#32

/-- The `dpi_mem_write` the memory stage makes at the posedge. -/
def storeCall (opcode : BitVec 7) (funct3 : BitVec 3) (addr data pc : Word) : Option WriteCall :=
  if opcode = opStore then some ⟨addr, data, byteLen funct3, pc.setWidth 64⟩ else none

/-! ## Write back -/

/-- The outputs of the write-back stage. -/
structure WriteBack where
  regWrEn : Bool
  wrAddr : BitVec 5
  wrData : Word
  deriving DecidableEq

/-- The opcodes the write-back stage writes a register for. -/
def WritesReg (opcode : BitVec 7) : Prop :=
  opcode ∈ [opLui, opAuipc, opAlu, opAlui, opJal, opJalr, opLoad]

instance (opcode : BitVec 7) : Decidable (WritesReg opcode) := by
  unfold WritesReg; infer_instance

/-- The write-back table: the allow-list of opcodes and the value each of them writes. -/
def writeBackTable (opcode : BitVec 7) (rd : BitVec 5) (aluResult memData link : Word) :
    WriteBack :=
  if opcode = opLui ∨ opcode = opAuipc ∨ opcode = opAlu ∨ opcode = opAlui then
    ⟨true, rd, aluResult⟩
  else if opcode = opJal ∨ opcode = opJalr then ⟨true, rd, link⟩
  else if opcode = opLoad then ⟨true, rd, memData⟩
  else ⟨false, rd, 0#32⟩

/-- The register file after the posedge at which write-back drives `wb`. -/
def RegFile.after (rf : RegFile) (wb : WriteBack) : RegFile :=
  rf.write wb.regWrEn wb.wrAddr wb.wrData

/-! ## Commit port -/

/-- What a CPU reports about an instruction it has executed. -/
@[ext] structure Commit where
  pc : Word
  instr : Word
  nextPc : Word
  deriving DecidableEq

/-- `PC` after reset. -/
def resetVector : Word := 0x80000000#32

end MyCpu.Rv32
