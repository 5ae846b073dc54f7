import MyCpu.Y86.Datapath

/-!
# The Y86-64 instructions

What the instructions do, apart from any machine that executes them. Register fields an instruction
does not use may hold anything.

* `Instr`, `Instr.encode`, `Instr.At` : the instructions, their bytes, and where they stand;
* `exec` : the effect of one instruction on the architectural state.

Conditional jumps and moves are left out, and `halt`, which has no successor state.
-/

namespace MyCpu.Y86.Isa

inductive AluOp
  | addq | subq | andq | xorq
  deriving DecidableEq

inductive Instr
  | nop
  | rrmovq (rA rB : BitVec 4)
  | irmovq (rA rB : BitVec 4) (v : Word)
  | rmmovq (rA rB : BitVec 4) (d : Word)
  | mrmovq (rA rB : BitVec 4) (d : Word)
  | opq (op : AluOp) (rA rB : BitVec 4)
  | jmp (dest : Word)
  | call (dest : Word)
  | ret
  | pushq (rA rB : BitVec 4)
  | popq (rA rB : BitVec 4)
  deriving DecidableEq

/-! ## Encoding -/

def AluOp.ifun : AluOp → BitVec 4
  | .addq => 0x0#4
  | .subq => 0x1#4
  | .andq => 0x2#4
  | .xorq => 0x3#4

/-- A constant, least significant byte first. -/
def wordBytes (v : Word) : List Byte := (List.range 8).map fun k => v.extractLsb' (8 * k) 8

def Instr.encode : Instr → List Byte
  | .nop => [0x00#8]
  | .rrmovq rA rB => [0x20#8, rA ++ rB]
  | .irmovq rA rB v => 0x30#8 :: (rA ++ rB) :: wordBytes v
  | .rmmovq rA rB d => 0x40#8 :: (rA ++ rB) :: wordBytes d
  | .mrmovq rA rB d => 0x50#8 :: (rA ++ rB) :: wordBytes d
  | .opq op rA rB => [0x6#4 ++ op.ifun, rA ++ rB]
  | .jmp dest => 0x70#8 :: wordBytes dest
  | .call dest => 0x80#8 :: wordBytes dest
  | .ret => [0x90#8]
  | .pushq rA rB => [0xA0#8, rA ++ rB]
  | .popq rA rB => [0xB0#8, rA ++ rB]

/-- The first `n` bytes from `pc` on. -/
def bytesAt (imem : Word → Byte) (pc : Word) : Nat → List Byte
  | 0 => []
  | n + 1 => imem pc :: bytesAt imem (pc + 1#64) n

/-- The instruction stands at `pc`, wholly inside the 1024 bytes of instruction memory. -/
def Instr.At (i : Instr) (imem : Word → Byte) (pc : Word) : Prop :=
  pc.toNat + i.encode.length ≤ 1024 ∧ bytesAt imem pc i.encode.length = i.encode

/-! ## States -/

/-- Program counter, registers, flags, and data memory in words. -/
structure Arch where
  pc : Word
  reg : BitVec 4 → Word
  cc : CC
  mem : BitVec 8 → Word

/-- The word an address is in. -/
def cell (a : Word) : BitVec 8 := BitVec.ofNat 8 (a.toNat / 8)

/-- Register 15 is no register: it reads as 0. -/
def Arch.get (s : Arch) (r : BitVec 4) : Word := if r = 0xF#4 then 0#64 else s.reg r

/-- Writing register 15 does nothing. -/
def Arch.set (s : Arch) (r : BitVec 4) (v : Word) : Arch :=
  { s with reg := fun q => if q = r ∧ r ≠ 0xF#4 then v else s.reg q }

def Arch.load (s : Arch) (a : Word) : Word := s.mem (cell a)

def Arch.store (s : Arch) (a v : Word) : Arch :=
  { s with mem := fun c => if c = cell a then v else s.mem c }

def Arch.goto (s : Arch) (pc : Word) : Arch := { s with pc := pc }

/-! ## Effects -/

/-- `rB op rA`. -/
def AluOp.eval (op : AluOp) (b a : Word) : Word :=
  match op with
  | .addq => b + a
  | .subq => b - a
  | .andq => b &&& a
  | .xorq => b ^^^ a

/-- The exact result does not fit. -/
def AluOp.overflow (op : AluOp) (b a : Word) : Bool :=
  match op with
  | .addq => decide ((b + a).toInt ≠ b.toInt + a.toInt)
  | .subq => decide ((b - a).toInt ≠ b.toInt - a.toInt)
  | .andq | .xorq => false

def AluOp.flags (op : AluOp) (b a : Word) : CC where
  zf := decide (op.eval b a = 0#64)
  sf := decide ((op.eval b a).toInt < 0)
  of := op.overflow b a

def exec (i : Instr) (s : Arch) : Arch :=
  let next := s.pc + BitVec.ofNat 64 i.encode.length
  let sp := s.get 0x4#4
  match i with
  | .nop => s.goto next
  | .rrmovq rA rB => (s.set rB (s.get rA)).goto next
  | .irmovq _ rB v => (s.set rB v).goto next
  | .rmmovq rA rB d => (s.store (s.get rB + d) (s.get rA)).goto next
  | .mrmovq rA rB d => (s.set rA (s.load (s.get rB + d))).goto next
  | .opq op rA rB =>
      { (s.set rB (op.eval (s.get rB) (s.get rA))).goto next with
        cc := op.flags (s.get rB) (s.get rA) }
  | .jmp dest => s.goto dest
  | .call dest => ((s.set 0x4#4 (sp - 8#64)).store (sp - 8#64) next).goto dest
  | .ret => (s.set 0x4#4 (sp + 8#64)).goto (s.load sp)
  | .pushq rA _ => ((s.set 0x4#4 (sp - 8#64)).store (sp - 8#64) (s.get rA)).goto next
  | .popq rA _ => ((s.set 0x4#4 (sp + 8#64)).set rA (s.load sp)).goto next

end MyCpu.Y86.Isa
