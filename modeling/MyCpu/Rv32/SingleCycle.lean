import MyCpu.Rv32.Datapath
import MyCpu.Clocked.Run

/-!
# The single-cycle CPU

`rv32-single-cycle-cpu-escaper/top_cpu`: one instruction a clock through `fetch`, `decode`,
`execute`, `memory_access`, `write_back` and `pc_update`. The state is the PC, the register file,
the memory behind the DPI calls and the two counters; every wire is a function of it.
-/

namespace MyCpu.Rv32.Single

open Clocked

structure State where
  PC : Word
  regfile : RegFile
  pmem : Mem
  cycleCnt : BitVec 64
  instrCnt : BitVec 64

/-! ## Stages -/

structure FetchOut extends Fields where
  instr : Word
  valP : Word

def fetch (m : Mem) (PC : Word) : FetchOut :=
  { toFields := fieldsOf (dpiInstrMemRead m PC)
    instr := dpiInstrMemRead m PC
    valP := PC + 4#32 }

structure ExecuteOut where
  aluResult : Word
  branchTaken : Bool

def execute (f : Fields) (rs1Data rs2Data PC : Word) : ExecuteOut where
  aluResult := aluResult f rs1Data rs2Data PC (PC + 4#32)
  branchTaken := branchCond f rs1Data rs2Data

def memoryAccess (m : Mem) (f : Fields) (addr : Word) : Word := loadData m f.opcode f.funct3 addr

/-- The write half of `memory_access`. -/
def memoryWrite (f : Fields) (addr rs2Data PC : Word) : Option WriteCall :=
  storeCall f.opcode f.funct3 addr rs2Data PC

def writeBack (f : Fields) (aluResult memData valP : Word) : WriteBack :=
  writeBackTable f.opcode f.rd aluResult memData valP

/-- `next_pc_o`. -/
def pcUpdate (f : Fields) (PC rs1Data valP : Word) (branchTaken : Bool) : Word :=
  if f.opcode = opJal then PC + f.imm
  else if f.opcode = opJalr then (rs1Data + f.imm) &&& 0xFFFFFFFE#32
  else if f.opcode = opBranch then if branchTaken then PC + f.imm else valP
  else valP

/-! ## Wires -/

namespace State

def f (s : State) : FetchOut := fetch s.pmem s.PC

def rs1Data (s : State) : Word := s.regfile.read s.f.rs1

def rs2Data (s : State) : Word := s.regfile.read s.f.rs2

def ex (s : State) : ExecuteOut := execute s.f.toFields s.rs1Data s.rs2Data s.PC

def memData (s : State) : Word := memoryAccess s.pmem s.f.toFields s.ex.aluResult

def memWrite (s : State) : Option WriteCall :=
  memoryWrite s.f.toFields s.ex.aluResult s.rs2Data s.PC

def wb (s : State) : WriteBack := writeBack s.f.toFields s.ex.aluResult s.memData s.f.valP

def nextPc (s : State) : Word := pcUpdate s.f.toFields s.PC s.rs1Data s.f.valP s.ex.branchTaken

/-- The commit port; `commit` itself is constantly 1. -/
def commit (s : State) : Commit := ⟨s.PC, s.f.instr, s.nextPc⟩

end State

/-! ## Clock -/

/-- One posedge. The memory write is not gated by `rst`. -/
def posedge (rst : Bool) (s : State) : State where
  PC := if rst then resetVector else s.nextPc
  regfile := if rst then fun _ => 0#32 else s.regfile.after s.wb
  pmem := s.pmem.after s.memWrite
  cycleCnt := if rst then 0#64 else s.cycleCnt + 1#64
  instrCnt := if rst then 0#64 else s.instrCnt + 1#64

/-- The state out of reset, with any register file and memory. -/
def start (rf : RegFile) (m : Mem) : State := ⟨resetVector, rf, m, 0#64, 0#64⟩

/-- A clock with `rst` low. -/
abbrev step (s : State) : State := posedge false s

/-- The state after `k` clocks out of reset. -/
def trace (rf : RegFile) (m : Mem) (k : Nat) : State := run (fun _ => step) (start rf m) k

theorem posedge_rst (s : State) :
    posedge true s = start (fun _ => 0#32) (s.pmem.after s.memWrite) := rfl

theorem trace_succ (rf : RegFile) (m : Mem) (k : Nat) :
    trace rf m (k + 1) = step (trace rf m k) := rfl

end MyCpu.Rv32.Single
