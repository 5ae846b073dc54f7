import MyCpu.Clocked.Run
import MyCpu.Rv32.Akun.Stages

/-!
# One instruction at a time through the stages

`Pass` sends one instruction through `decode`, `execute`, `memory`, `write_back` and `select_pc`
with given operand values; the sequential machine makes one pass after the other.
-/

namespace MyCpu.Rv32.Akun

open Clocked

/-- An instruction word, where it stands, the values of its operands and the memory. -/
structure Pass where
  pc : Word
  instr : Word
  valA : Word
  valB : Word
  pmem : Mem

namespace Pass

variable (p : Pass)

def regE : RegE := toRegE p.instr p.valA p.valB p.pc (fetchPrePc p.pc) true

def valE : Word := executeValE p.regE

def needJump : Bool := decodeNeedJump p.instr p.valA p.valB

def regM : RegM := toRegM p.regE

def memWrite : Option MemWrite := memoryWrite p.regM

def regW : RegW := toRegW p.pmem p.regM

def wb : WriteBack := writeBack p.regW

def nextPc : Word := selectPc (fetchPrePc p.pc) p.valE p.needJump

@[simp] theorem regM_memRw : p.regM.memRw = memRw p.instr := rfl

@[simp] theorem regM_valE : p.regM.valE = p.valE := rfl

@[simp] theorem regM_valB : p.regM.valB = p.valB := rfl

@[simp] theorem regM_toWbControl : p.regM.toWbControl = wbControl p.instr := rfl

@[simp] theorem regW_toWbControl : p.regW.toWbControl = wbControl p.instr := rfl

end Pass

/-! ## The sequential machine -/

namespace Seq

structure State where
  pc : Word
  regfile : RegFile
  pmem : Mem

/-- The inputs of `decode` when nothing else is in flight. -/
def idle : Bypass :=
  ⟨⟨false, 0#5, 0#2⟩, 0#32, ⟨false, 0#5, 0#2⟩, 0#32, 0#32, ⟨false, 0#5, 0#2⟩, 0#32, 0#32, 0#32⟩

/-- Then the operands come from the register file. -/
@[simp] theorem idle_select (rs : BitVec 5) (v : Word) : idle.select rs v = v := by
  simp [Bypass.select, idle, WbControl.Hits]

def State.pass (u : State) : Pass where
  pc := u.pc
  instr := fetchInstr u.pmem u.pc
  valA := decodeValA idle u.regfile (fetchInstr u.pmem u.pc)
  valB := decodeValB idle u.regfile (fetchInstr u.pmem u.pc)
  pmem := u.pmem

def step (u : State) : State where
  pc := u.pass.nextPc
  regfile := u.regfile.after u.pass.wb
  pmem := afterWrite u.pmem u.pass.memWrite

/-- The state after `k` instructions. -/
def trace (u : State) (k : Nat) : State := run (fun _ => step) u k

theorem trace_succ (u : State) (k : Nat) : trace u (k + 1) = step (trace u k) := rfl

end Seq

end MyCpu.Rv32.Akun
