import MyCpu.Rv32.Memory

/-!
# The RV32I instruction set

The abstract machine of the RISC-V unprivileged specification, base integer instructions and
`FENCE`, without traps: what each instruction does to the PC, the registers and a byte-addressed
little-endian memory. It is stated on instructions, not on words; `Instr.encode` gives the legal
encodings, format by format.
-/

namespace MyCpu.Rv32.Isa

/-! ## Instructions -/

inductive BranchOp
  | beq | bne | blt | bge | bltu | bgeu
  deriving DecidableEq

inductive LoadOp
  | lb | lh | lw | lbu | lhu
  deriving DecidableEq

inductive StoreOp
  | sb | sh | sw
  deriving DecidableEq

inductive ImmOp
  | addi | slti | sltiu | xori | ori | andi
  deriving DecidableEq

inductive ShiftOp
  | slli | srli | srai
  deriving DecidableEq

inductive RegOp
  | add | sub | sll | slt | sltu | xor | srl | sra | or | and
  deriving DecidableEq

/-- The instructions, with the immediates as encoded: `jal` and branch offsets count half-words. -/
inductive Instr
  | lui (rd : BitVec 5) (imm : BitVec 20)
  | auipc (rd : BitVec 5) (imm : BitVec 20)
  | jal (rd : BitVec 5) (imm : BitVec 20)
  | jalr (rd rs1 : BitVec 5) (imm : BitVec 12)
  | branch (op : BranchOp) (rs1 rs2 : BitVec 5) (imm : BitVec 12)
  | load (op : LoadOp) (rd rs1 : BitVec 5) (imm : BitVec 12)
  | store (op : StoreOp) (rs1 rs2 : BitVec 5) (imm : BitVec 12)
  | opImm (op : ImmOp) (rd rs1 : BitVec 5) (imm : BitVec 12)
  | shiftImm (op : ShiftOp) (rd rs1 shamt : BitVec 5)
  | opReg (op : RegOp) (rd rs1 rs2 : BitVec 5)
  | fence (rd rs1 : BitVec 5) (imm : BitVec 12)
  deriving DecidableEq

/-! ## Encodings -/

def rType (funct7 : BitVec 7) (rs2 rs1 : BitVec 5) (funct3 : BitVec 3) (rd : BitVec 5)
    (opcode : BitVec 7) : Word :=
  funct7 ++ (rs2 ++ (rs1 ++ (funct3 ++ (rd ++ opcode))))

def iType (imm : BitVec 12) (rs1 : BitVec 5) (funct3 : BitVec 3) (rd : BitVec 5)
    (opcode : BitVec 7) : Word :=
  imm ++ (rs1 ++ (funct3 ++ (rd ++ opcode)))

def sType (imm : BitVec 12) (rs2 rs1 : BitVec 5) (funct3 : BitVec 3) (opcode : BitVec 7) : Word :=
  imm.extractLsb' 5 7 ++ (rs2 ++ (rs1 ++ (funct3 ++ (imm.extractLsb' 0 5 ++ opcode))))

/-- `imm` is `imm[12:1]` of the format's diagram. -/
def bType (imm : BitVec 12) (rs2 rs1 : BitVec 5) (funct3 : BitVec 3) (opcode : BitVec 7) : Word :=
  imm.extractLsb' 11 1 ++ (imm.extractLsb' 4 6 ++ (rs2 ++ (rs1 ++ (funct3 ++
    (imm.extractLsb' 0 4 ++ (imm.extractLsb' 10 1 ++ opcode))))))

def uType (imm : BitVec 20) (rd : BitVec 5) (opcode : BitVec 7) : Word := imm ++ (rd ++ opcode)

/-- `imm` is `imm[20:1]` of the format's diagram. -/
def jType (imm : BitVec 20) (rd : BitVec 5) (opcode : BitVec 7) : Word :=
  imm.extractLsb' 19 1 ++ (imm.extractLsb' 0 10 ++ (imm.extractLsb' 10 1 ++
    (imm.extractLsb' 11 8 ++ (rd ++ opcode))))

def BranchOp.funct3 : BranchOp → BitVec 3
  | beq => 0b000#3
  | bne => 0b001#3
  | blt => 0b100#3
  | bge => 0b101#3
  | bltu => 0b110#3
  | bgeu => 0b111#3

def LoadOp.funct3 : LoadOp → BitVec 3
  | lb => 0b000#3
  | lh => 0b001#3
  | lw => 0b010#3
  | lbu => 0b100#3
  | lhu => 0b101#3

def StoreOp.funct3 : StoreOp → BitVec 3
  | sb => 0b000#3
  | sh => 0b001#3
  | sw => 0b010#3

def ImmOp.funct3 : ImmOp → BitVec 3
  | addi => 0b000#3
  | slti => 0b010#3
  | sltiu => 0b011#3
  | xori => 0b100#3
  | ori => 0b110#3
  | andi => 0b111#3

def ShiftOp.funct3 : ShiftOp → BitVec 3
  | slli => 0b001#3
  | srli | srai => 0b101#3

def ShiftOp.funct7 : ShiftOp → BitVec 7
  | slli | srli => 0b0000000#7
  | srai => 0b0100000#7

def RegOp.funct3 : RegOp → BitVec 3
  | add | sub => 0b000#3
  | sll => 0b001#3
  | slt => 0b010#3
  | sltu => 0b011#3
  | xor => 0b100#3
  | srl | sra => 0b101#3
  | or => 0b110#3
  | and => 0b111#3

def RegOp.funct7 : RegOp → BitVec 7
  | sub | sra => 0b0100000#7
  | _ => 0b0000000#7

/-- The encoding of an instruction. -/
def Instr.encode : Instr → Word
  | lui rd imm => uType imm rd 0b0110111#7
  | auipc rd imm => uType imm rd 0b0010111#7
  | jal rd imm => jType imm rd 0b1101111#7
  | jalr rd rs1 imm => iType imm rs1 0b000#3 rd 0b1100111#7
  | branch op rs1 rs2 imm => bType imm rs2 rs1 op.funct3 0b1100011#7
  | load op rd rs1 imm => iType imm rs1 op.funct3 rd 0b0000011#7
  | store op rs1 rs2 imm => sType imm rs2 rs1 op.funct3 0b0100011#7
  | opImm op rd rs1 imm => iType imm rs1 op.funct3 rd 0b0010011#7
  | shiftImm op rd rs1 shamt => rType op.funct7 shamt rs1 op.funct3 rd 0b0010011#7
  | opReg op rd rs1 rs2 => rType op.funct7 rs2 rs1 op.funct3 rd 0b0110011#7
  | fence rd rs1 imm => iType imm rs1 0b000#3 rd 0b0001111#7

/-- The opcode of the encoding. -/
def Instr.opcode : Instr → BitVec 7
  | lui _ _ => 0b0110111#7
  | auipc _ _ => 0b0010111#7
  | jal _ _ => 0b1101111#7
  | jalr _ _ _ => 0b1100111#7
  | branch _ _ _ _ => 0b1100011#7
  | load _ _ _ _ => 0b0000011#7
  | store _ _ _ _ => 0b0100011#7
  | opImm _ _ _ _ | shiftImm _ _ _ _ => 0b0010011#7
  | opReg _ _ _ _ => 0b0110011#7
  | fence _ _ _ => 0b0001111#7

/-! ## State -/

/-- The architectural state. `x0` is not stored: whatever `x 0` is, it reads as 0. -/
@[ext] structure Arch where
  pc : Word
  x : BitVec 5 → Word
  mem : Word → Byte

namespace Arch

def get (s : Arch) (r : BitVec 5) : Word := if r = 0#5 then 0#32 else s.x r

/-- Write a register and go on to `pc`. -/
def writeReg (s : Arch) (rd : BitVec 5) (v : Word) (pc : Word) : Arch :=
  { s with x := fun r => if r = rd ∧ rd ≠ 0#5 then v else s.x r, pc := pc }

/-- Write the low `n` bytes of `v` at `addr` and go on to `pc`. -/
def writeMem (s : Arch) (addr : Word) (n : Nat) (v : Word) (pc : Word) : Arch :=
  { s with
    mem := fun a => if (a - addr).toNat < n then v.extractLsb' (8 * (a - addr).toNat) 8 else s.mem a
    pc := pc }

end Arch

/-! ## Semantics -/

def BranchOp.holds (a b : Word) : BranchOp → Bool
  | beq => a = b
  | bne => a ≠ b
  | blt => a.toInt < b.toInt
  | bge => b.toInt ≤ a.toInt
  | bltu => a.toNat < b.toNat
  | bgeu => b.toNat ≤ a.toNat

def LoadOp.value (mem : Word → Byte) (a : Word) : LoadOp → Word
  | lb => (mem a).signExtend 32
  | lh => (mem (a + 1#32) ++ mem a).signExtend 32
  | lw => mem (a + 3#32) ++ (mem (a + 2#32) ++ (mem (a + 1#32) ++ mem a))
  | lbu => (mem a).zeroExtend 32
  | lhu => (mem (a + 1#32) ++ mem a).zeroExtend 32

def LoadOp.bytes : LoadOp → Nat
  | lb | lbu => 1
  | lh | lhu => 2
  | lw => 4

def StoreOp.bytes : StoreOp → Nat
  | sb => 1
  | sh => 2
  | sw => 4

def boolWord (b : Bool) : Word := if b then 1#32 else 0#32

def ImmOp.eval (a b : Word) : ImmOp → Word
  | addi => a + b
  | slti => boolWord (a.toInt < b.toInt)
  | sltiu => boolWord (a.toNat < b.toNat)
  | xori => a ^^^ b
  | ori => a ||| b
  | andi => a &&& b

def ShiftOp.eval (a : Word) (n : Nat) : ShiftOp → Word
  | slli => a <<< n
  | srli => a >>> n
  | srai => a.sshiftRight n

def RegOp.eval (a b : Word) : RegOp → Word
  | add => a + b
  | sub => a - b
  | sll => a <<< (b.toNat % 32)
  | slt => boolWord (a.toInt < b.toInt)
  | sltu => boolWord (a.toNat < b.toNat)
  | xor => a ^^^ b
  | srl => a >>> (b.toNat % 32)
  | sra => a.sshiftRight (b.toNat % 32)
  | or => a ||| b
  | and => a &&& b

/-- One instruction. -/
def exec (s : Arch) : Instr → Arch
  | .lui rd imm => s.writeReg rd (imm ++ 0#12) (s.pc + 4#32)
  | .auipc rd imm => s.writeReg rd (s.pc + (imm ++ 0#12)) (s.pc + 4#32)
  | .jal rd imm => s.writeReg rd (s.pc + 4#32) (s.pc + (imm ++ 0#1).signExtend 32)
  | .jalr rd rs1 imm =>
      s.writeReg rd (s.pc + 4#32) ((s.get rs1 + imm.signExtend 32) &&& ~~~1#32)
  | .branch op rs1 rs2 imm =>
      { s with
        pc := if op.holds (s.get rs1) (s.get rs2) then s.pc + (imm ++ 0#1).signExtend 32
          else s.pc + 4#32 }
  | .load op rd rs1 imm =>
      s.writeReg rd (op.value s.mem (s.get rs1 + imm.signExtend 32)) (s.pc + 4#32)
  | .store op rs1 rs2 imm =>
      s.writeMem (s.get rs1 + imm.signExtend 32) op.bytes (s.get rs2) (s.pc + 4#32)
  | .opImm op rd rs1 imm =>
      s.writeReg rd (op.eval (s.get rs1) (imm.signExtend 32)) (s.pc + 4#32)
  | .shiftImm op rd rs1 shamt => s.writeReg rd (op.eval (s.get rs1) shamt.toNat) (s.pc + 4#32)
  | .opReg op rd rs1 rs2 => s.writeReg rd (op.eval (s.get rs1) (s.get rs2)) (s.pc + 4#32)
  | .fence _ _ _ => { s with pc := s.pc + 4#32 }

/-! ## Effects

The same semantics for an instruction whose operand values are given, apart from any state. -/

/-- What an instruction does: the register it writes, the low bytes of a word it stores with their
address and number, and where it goes on. -/
@[ext] structure Effect where
  regWrite : Option (BitVec 5 × Word)
  memWrite : Option (Word × Word × Nat)
  nextPc : Word

/-- A write to `x0` is none. -/
def regWrite (rd : BitVec 5) (v : Word) : Option (BitVec 5 × Word) :=
  if rd = 0#5 then none else some (rd, v)

/-- The effect of an instruction at `pc` with the values `a` and `b` of its source registers. -/
def Instr.effect (i : Instr) (a b pc : Word) (mem : Word → Byte) : Effect :=
  match i with
  | .lui rd imm => ⟨regWrite rd (imm ++ 0#12), none, pc + 4#32⟩
  | .auipc rd imm => ⟨regWrite rd (pc + (imm ++ 0#12)), none, pc + 4#32⟩
  | .jal rd imm => ⟨regWrite rd (pc + 4#32), none, pc + (imm ++ 0#1).signExtend 32⟩
  | .jalr rd _ imm => ⟨regWrite rd (pc + 4#32), none, (a + imm.signExtend 32) &&& ~~~1#32⟩
  | .branch op _ _ imm =>
      ⟨none, none, if op.holds a b then pc + (imm ++ 0#1).signExtend 32 else pc + 4#32⟩
  | .load op rd _ imm => ⟨regWrite rd (op.value mem (a + imm.signExtend 32)), none, pc + 4#32⟩
  | .store op _ _ imm => ⟨none, some (a + imm.signExtend 32, b, op.bytes), pc + 4#32⟩
  | .opImm op rd _ imm => ⟨regWrite rd (op.eval a (imm.signExtend 32)), none, pc + 4#32⟩
  | .shiftImm op rd _ shamt => ⟨regWrite rd (op.eval a shamt.toNat), none, pc + 4#32⟩
  | .opReg op rd _ _ => ⟨regWrite rd (op.eval a b), none, pc + 4#32⟩
  | .fence _ _ _ => ⟨none, none, pc + 4#32⟩

/-- The source registers, `x0` where there is none. -/
def Instr.sources : Instr → BitVec 5 × BitVec 5
  | .jalr _ rs1 _ | .load _ _ rs1 _ | .opImm _ _ rs1 _ | .shiftImm _ _ rs1 _ => (rs1, 0#5)
  | .branch _ rs1 rs2 _ | .store _ rs1 rs2 _ | .opReg _ _ rs1 rs2 => (rs1, rs2)
  | .lui _ _ | .auipc _ _ | .jal _ _ | .fence _ _ _ => (0#5, 0#5)

def Arch.apply (s : Arch) (e : Effect) : Arch where
  pc := e.nextPc
  x := match e.regWrite with
    | none => s.x
    | some (rd, v) => fun r => if r = rd then v else s.x r
  mem := match e.memWrite with
    | none => s.mem
    | some (addr, v, n) => (s.writeMem addr n v e.nextPc).mem

theorem writeReg_eq_apply (s : Arch) (rd : BitVec 5) (v pc : Word) :
    s.writeReg rd v pc = s.apply ⟨regWrite rd v, none, pc⟩ := by
  unfold Arch.writeReg Arch.apply regWrite
  by_cases h : rd = 0#5
  · simp [h]
  · simp [h]

/-- Executing an instruction is applying its effect on the values its source registers hold. -/
theorem exec_eq_apply (s : Arch) (i : Instr) :
    exec s i = s.apply (i.effect (s.get i.sources.1) (s.get i.sources.2) s.pc s.mem) := by
  cases i with
  | branch op rs1 rs2 imm => rfl
  | store op rs1 rs2 imm => rfl
  | fence rd rs1 imm => rfl
  | _ => exact writeReg_eq_apply _ _ _ _

end MyCpu.Rv32.Isa
