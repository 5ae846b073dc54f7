import MyCpu.Clocked.Run
import MyCpu.Y86.Datapath

/-!
# The single-cycle Y86

`y86/y86_cpu.v`: one instruction a clock. The program counter looks at the status; the register
file, the condition codes and the data memory have enables of their own that do not.
-/

namespace MyCpu.Y86

/-- `pc_update` of the single-cycle Y86: `PC` after the clock. -/
def pcUpdate (stat : BitVec 2) (icode : BitVec 4) (cnd : Bool) (valC valM valP PC : Word) : Word :=
  if stat = statAok then
    if icode = icCall then valC
    else if icode = icRet then valM
    else if icode = icJxx then if cnd then valC else valP
    else valP
  else PC

namespace Single

open Clocked

structure State where
  pc : Word
  regFile : RegFile
  cc : CC
  dataMem : DataMem

/-! ## Stages -/

/-- The outputs of `fetch`. -/
structure FetchOut where
  icode : BitVec 4
  ifun : BitVec 4
  rA : BitVec 4
  rB : BitVec 4
  valC : Word
  valP : Word
  instrValid : Bool
  imemError : Bool

def fetch (imem : IMem) (pc : Word) : FetchOut :=
  let icode := (imem pc).extractLsb' 4 4
  let ifun := (imem pc).extractLsb' 0 4
  { icode := icode
    ifun := ifun
    rA := if needRegids icode then (imem (pc + 1#64)).extractLsb' 4 4 else noReg
    rB := if needRegids icode then (imem (pc + 1#64)).extractLsb' 0 4 else noReg
    valC :=
      if needValC icode then
        if needRegids icode then imem.word (pc + 2#64) else imem.word (pc + 1#64)
      else 0#64
    valP := pc + 1#64 + (if needRegids icode then 1#64 else 0#64) +
      (if needValC icode then 8#64 else 0#64)
    instrValid := instrValid icode ifun
    imemError := decide (1023 < pc.toNat) }

/-- Here `mrmovq` reads `rA` too. -/
def srcA (icode rA : BitVec 4) : BitVec 4 :=
  if icode = icRrmovl ∨ icode = icIrmovl ∨ icode = icRmmovl ∨ icode = icMrmovl ∨ icode = icAlu then rA
  else if icode = icPushl then rA
  else if icode = icPopl ∨ icode = icRet then rsp
  else noReg

/-- The condition table, which does not look at `OF`. -/
def cond (cc : CC) (ifun : BitVec 4) : Bool :=
  if ifun = 0x0#4 then true
  else if ifun = 0x1#4 then cc.zf || cc.sf
  else if ifun = 0x2#4 then cc.sf
  else if ifun = 0x3#4 then cc.zf
  else if ifun = 0x4#4 then !cc.zf
  else if ifun = 0x5#4 then !cc.sf
  else if ifun = 0x6#4 then !cc.sf && !cc.zf
  else false

/-- `Cnd_o`. -/
def cnd (icode ifun : BitVec 4) (cc : CC) : Bool :=
  (icode == icRrmovl && cond cc ifun) || (icode == icJxx && cond cc ifun)

/-- The condition codes after the clock. -/
def ccReg (icode ifun : BitVec 4) (valA valB : Word) (cc : CC) : CC :=
  if icode = icAlu then newCc ifun valA valB else cc

def memControl (icode : BitVec 4) (valE valA valP : Word) : MemControl :=
  if icode = icMrmovl then ⟨true, false, valE, 0#64⟩
  else if icode = icRmmovl then ⟨false, true, valE, valA⟩
  else if icode = icCall then ⟨false, true, valE, valP⟩
  else if icode = icRet then ⟨true, false, valA, 0#64⟩
  else if icode = icPushl then ⟨false, true, valE, valA⟩
  else if icode = icPopl then ⟨true, false, valA, 0#64⟩
  else ⟨false, false, 0#64, 0#64⟩

/-- `error_o` of `data_memory`. -/
def memError (c : MemControl) : Bool := (c.read || c.write) && !addrValid c.addr

/-- `valM_o` of `memory_access`. -/
def memRead (c : MemControl) (m : DataMem) : Word :=
  if c.read = true ∧ memError c = false then m (wordAddr c.addr) else 0#64

/-- The word `data_memory` writes at the clock, and where. -/
def memWrite (c : MemControl) : Option (BitVec 8 × Word) :=
  if c.write = true ∧ addrValid c.addr = true then some (wordAddr c.addr, c.data) else none

/-- `stat_o`. -/
def stat (icode : BitVec 4) (instrValid imemError dmemError : Bool) : BitVec 2 :=
  if imemError then statAdr
  else if !instrValid then statIns
  else if dmemError then statAdr
  else if icode = icHalt then statHlt
  else statAok

/-- The two write ports of the register file; the second one wins. -/
def writeBack (icode dstE dstM : BitVec 4) (cnd : Bool) (valE valM : Word) (rf : RegFile) : RegFile :=
  let rfE := if icode = icRrmovl ∧ cnd = false then rf else rf.write dstE valE
  rfE.write dstM valM

/-! ## Wires -/

namespace State

variable (imem : IMem) (s : State)

def fetch : FetchOut := Single.fetch imem s.pc

def valA : Word := s.regFile.read (srcA (s.fetch imem).icode (s.fetch imem).rA)

def valB : Word := s.regFile.read (srcB (s.fetch imem).icode (s.fetch imem).rB)

def valE : Word :=
  Y86.valE (s.fetch imem).icode (s.fetch imem).ifun (s.valA imem) (s.valB imem) (s.fetch imem).valC

def cnd : Bool := Single.cnd (s.fetch imem).icode (s.fetch imem).ifun s.cc

def memControl : MemControl :=
  Single.memControl (s.fetch imem).icode (s.valE imem) (s.valA imem) (s.fetch imem).valP

def valM : Word := memRead (s.memControl imem) s.dataMem

/-- `stat_o`. -/
def stat : BitVec 2 :=
  Single.stat (s.fetch imem).icode (s.fetch imem).instrValid (s.fetch imem).imemError
    (memError (s.memControl imem))

end State

/-! ## Clock -/

/-- The register file and the condition codes out of reset. -/
def resetRegFile : RegFile := fun r => r.setWidth 64

def resetCc : CC := ⟨true, false, false⟩

/-- One posedge. -/
def posedge (imem : IMem) (rstN : Bool) (s : State) : State where
  pc := if !rstN then 0#64
    else pcUpdate (s.stat imem) (s.fetch imem).icode (s.cnd imem) (s.fetch imem).valC (s.valM imem)
      (s.fetch imem).valP s.pc
  regFile := if !rstN then resetRegFile
    else writeBack (s.fetch imem).icode (dstE (s.fetch imem).icode (s.fetch imem).rB)
      (dstM (s.fetch imem).icode (s.fetch imem).rA) (s.cnd imem) (s.valE imem) (s.valM imem) s.regFile
  cc := if !rstN then resetCc
    else ccReg (s.fetch imem).icode (s.fetch imem).ifun (s.valA imem) (s.valB imem) s.cc
  dataMem := if !rstN then s.dataMem else s.dataMem.after (memWrite (s.memControl imem))

/-- A clock out of reset. -/
abbrev step (imem : IMem) (s : State) : State := posedge imem true s

/-- The state out of reset, over any data memory. -/
def start (m : DataMem) : State := ⟨0#64, resetRegFile, resetCc, m⟩

/-- The state after `t` clocks out of reset. -/
def trace (imem : IMem) (m : DataMem) (t : Nat) : State := run (fun _ => step imem) (start m) t

theorem trace_succ (imem : IMem) (m : DataMem) (t : Nat) :
    trace imem m (t + 1) = step imem (trace imem m t) := rfl

theorem posedge_reset (imem : IMem) (s : State) : posedge imem false s = start s.dataMem := rfl

end Single

end MyCpu.Y86
