import MyCpu.Clocked.Slots
import MyCpu.Y86.Datapath

/-!
# The pipelined Y86

`pipelined_y86/pipelined_y86_cpu.v`: F, D, E, M and W in the shape of PIPE, always predicting the
next address. Operands are forwarded into D from five places and once more into E from three.
`posedge` is one rising edge with every block sampling pre-edge values; the definitions before it
are the wires between the registers.

The top module connects the port `e_valP` of the execute stage to `E_valP` and leaves its own wire
`e_valP`, the input of `em_reg`, without a driver. What that net carries in a clock is a parameter.
-/

namespace MyCpu.Y86

open Clocked

/-! ## Pipeline registers -/

structure FD where
  stat : BitVec 2
  icode : BitVec 4
  ifun : BitVec 4
  rA : BitVec 4
  rB : BitVec 4
  valC : Word
  valP : Word
  deriving DecidableEq

def FD.bubble : FD := ⟨statAok, icNop, 0x0#4, noReg, noReg, 0#64, 0#64⟩

structure DE where
  stat : BitVec 2
  icode : BitVec 4
  ifun : BitVec 4
  valC : Word
  valP : Word
  valA : Word
  valB : Word
  dstE : BitVec 4
  dstM : BitVec 4
  srcA : BitVec 4
  srcB : BitVec 4
  deriving DecidableEq

def DE.bubble : DE :=
  ⟨statAok, icNop, 0x0#4, 0#64, 0#64, 0#64, 0#64, noReg, noReg, noReg, noReg⟩

structure EM where
  stat : BitVec 2
  icode : BitVec 4
  valA : Word
  valE : Word
  valC : Word
  valP : Word
  dstE : BitVec 4
  dstM : BitVec 4
  cnd : Bool
  deriving DecidableEq

def EM.bubble : EM := ⟨statAok, icNop, 0#64, 0#64, 0#64, 0#64, noReg, noReg, false⟩

structure MW where
  stat : BitVec 2
  icode : BitVec 4
  valE : Word
  valM : Word
  dstE : BitVec 4
  dstM : BitVec 4
  deriving DecidableEq

def MW.bubble : MW := ⟨statAok, icNop, 0#64, 0#64, noReg, noReg⟩

structure State where
  fPc : Word
  D : FD
  E : DE
  M : EM
  W : MW
  regFile : RegFile
  cc : CC
  dataMem : DataMem
  cpuStat : BitVec 2

/-! ## Fetch -/

/-- The outputs of `pipe_stage_fetch` that go to `fd_reg`. -/
def pipeStageFetch (imem : IMem) (fPc : Word) : FD :=
  let byte0 := imem fPc
  let byte1 := imem (fPc + 1#64)
  let icode := byte0.extractLsb' 4 4
  let ifun := byte0.extractLsb' 0 4
  { stat := if 1023 < fPc.toNat then statAdr else if !instrValid icode ifun then statIns else statAok
    icode := icode
    ifun := ifun
    rA := if needRegids icode then byte1.extractLsb' 4 4 else noReg
    rB := if needRegids icode then byte1.extractLsb' 0 4 else noReg
    valC :=
      if needValC icode then
        if needRegids icode then imem.word (fPc + 2#64) else imem.word (fPc + 1#64)
      else 0#64
    valP := fPc + 1#64 + (if needRegids icode then 1#64 else 0#64) +
      (if needValC icode then 8#64 else 0#64) }

/-! ## Decode -/

def srcA (icode rA : BitVec 4) : BitVec 4 :=
  if icode = icRrmovl ∨ icode = icIrmovl ∨ icode = icRmmovl ∨ icode = icAlu then rA
  else if icode = icPushl then rA
  else if icode = icPopl ∨ icode = icRet then rsp
  else noReg

/-- A register number and the value on its way to it. -/
structure Fwd where
  dst : BitVec 4
  val : Word

/-- A chain of selections `src != F && src == dst ? val : ...`. -/
def select (src : BitVec 4) (default : Word) : List Fwd → Word
  | [] => default
  | x :: xs => if src ≠ noReg ∧ src = x.dst then x.val else select src default xs

/-- The outputs of `pipe_stage_decode` that go to `de_reg`; `fwd` are the values on their way, the
first of them winning. -/
def pipeStageDecode (D : FD) (regFile : RegFile) (fwd : List Fwd) : DE :=
  let srcA := srcA D.icode D.rA
  let srcB := srcB D.icode D.rB
  { stat := D.stat
    icode := D.icode
    ifun := D.ifun
    valC := D.valC
    valP := D.valP
    valA := if D.icode = icCall ∨ D.icode = icJxx then D.valP
      else select srcA (regFile.read srcA) fwd
    valB := select srcB (regFile.read srcB) fwd
    dstE := dstE D.icode D.rB
    dstM := dstM D.icode D.rA
    srcA := srcA
    srcB := srcB }

/-! ## Execute -/

/-- `cond`, for `cmovXX` and `jXX` alike. -/
def cond (cc : CC) (ifun : BitVec 4) : Bool :=
  if ifun = 0x0#4 then true
  else if ifun = 0x1#4 then (cc.sf ^^ cc.of) || cc.zf
  else if ifun = 0x2#4 then cc.sf ^^ cc.of
  else if ifun = 0x3#4 then cc.zf
  else if ifun = 0x4#4 then !cc.zf
  else if ifun = 0x5#4 then !(cc.sf ^^ cc.of)
  else if ifun = 0x6#4 then !(cc.sf ^^ cc.of) && !cc.zf
  else false

/-- The outputs of `pipe_stage_execute` that reach another module. -/
structure ExecuteOut where
  stat : BitVec 2
  icode : BitVec 4
  valA : Word
  valE : Word
  valC : Word
  dstE : BitVec 4
  dstM : BitVec 4
  cnd : Bool

/-- `fwd` are the values on their way, the first of them winning. -/
def pipeStageExecute (E : DE) (cc : CC) (fwd : List Fwd) : ExecuteOut :=
  let aluA := select E.srcA E.valA fwd
  let aluB := select E.srcB E.valB fwd
  { stat := E.stat
    icode := E.icode
    valA := aluA
    valE := valE E.icode E.ifun aluA aluB E.valC
    valC := E.valC
    dstE := if E.icode = icRrmovl ∧ cond cc E.ifun = false then noReg else E.dstE
    dstM := E.dstM
    cnd := cond cc E.ifun }

/-- The inputs of `em_reg`: the undriven net stands where `e_valP` should. -/
def emInput (e : ExecuteOut) (net : Word) : EM :=
  ⟨e.stat, e.icode, e.valA, e.valE, e.valC, net, e.dstE, e.dstM, e.cnd⟩

/-- The condition codes after the clock. -/
def ccReg (E : DE) (eBubble : Bool) (cc : CC) (fwd : List Fwd) : CC :=
  if E.icode = icAlu ∧ eBubble = false then
    newCc E.ifun (select E.srcA E.valA fwd) (select E.srcB E.valB fwd)
  else cc

/-! ## Memory -/

def memControl (M : EM) : MemControl :=
  if M.icode = icMrmovl then ⟨true, false, M.valE, 0#64⟩
  else if M.icode = icRmmovl then ⟨false, true, M.valE, M.valA⟩
  else if M.icode = icCall ∨ M.icode = icPushl then
    ⟨false, true, M.valE, if M.icode = icCall then M.valP else M.valA⟩
  else if M.icode = icRet ∨ M.icode = icPopl then ⟨true, false, M.valA, 0#64⟩
  else ⟨false, false, 0#64, 0#64⟩

/-- `error_o` of `data_memory`. -/
def memError (M : EM) : Bool :=
  ((memControl M).read || (memControl M).write) && !addrValid (memControl M).addr

/-- The outputs of `pipe_stage_memory`. -/
def pipeStageMemory (M : EM) (dataMem : DataMem) : MW where
  stat := if memError M then statAdr else M.stat
  icode := M.icode
  valE := M.valE
  valM := if (memControl M).read = true ∧ memError M = false then
    dataMem (wordAddr (memControl M).addr) else 0#64
  dstE := M.dstE
  dstM := M.dstM

/-- The word `data_memory` writes at the clock, and where. -/
def memWrite (M : EM) : Option (BitVec 8 × Word) :=
  if (memControl M).write = true ∧ addrValid (memControl M).addr = true then
    some (wordAddr (memControl M).addr, (memControl M).data)
  else none

/-! ## Write back -/

/-- `w_stat`. -/
def pipeStageWriteback (W : MW) : BitVec 2 := if W.icode = icHalt then statHlt else W.stat

/-- The two write ports of the register file; the second one wins. -/
def RegFile.after (rf : RegFile) (W : MW) : RegFile := (rf.write W.dstE W.valE).write W.dstM W.valM

/-! ## Control -/

def loadUseHazard (eIcode eDstM dSrcA dSrcB : BitVec 4) : Bool :=
  (eIcode == icMrmovl || eIcode == icPopl) && (eDstM == dSrcA || eDstM == dSrcB) && eDstM != noReg

def mispredicted (mIcode : BitVec 4) (mCnd : Bool) : Bool := mIcode == icJxx && mCnd

def retHazard (dIcode eIcode mIcode : BitVec 4) : Bool :=
  dIcode == icRet || eIcode == icRet || mIcode == icRet

structure ControlOut where
  fStall : Bool
  dStall : Bool
  dBubble : Bool
  eBubble : Bool

def pipeControl (dIcode dSrcA dSrcB eIcode eDstM mIcode : BitVec 4) (mCnd : Bool) : ControlOut :=
  let lu := loadUseHazard eIcode eDstM dSrcA dSrcB
  let mp := mispredicted mIcode mCnd
  let rh := retHazard dIcode eIcode mIcode
  { fStall := lu || rh
    dStall := lu
    dBubble := mp || (!lu && rh)
    eBubble := mp || lu }

/-- `new_pc`. -/
def newPc (fPredPC : Word) (M : EM) (W : MW) : Word :=
  if M.icode = icJxx ∧ M.cnd = true then M.valC
  else if W.icode = icRet then W.valM
  else fPredPC

def pipePcLogic (fStall : Bool) (fPredPC : Word) (M : EM) (W : MW) (fPc : Word) : Word :=
  if !fStall then newPc fPredPC M W else fPc

/-! ## Wires -/

namespace State

variable (s : State)

/-- `m_valM` and the rest of the memory stage. -/
def mOut : MW := pipeStageMemory s.M s.dataMem

def memWrite : Option (BitVec 8 × Word) := Y86.memWrite s.M

/-- What E selects from, in its order: M, then W with the loaded value first. -/
def eFwd : List Fwd := [⟨s.M.dstE, s.M.valE⟩, ⟨s.W.dstM, s.W.valM⟩, ⟨s.W.dstE, s.W.valE⟩]

def eOut : ExecuteOut := pipeStageExecute s.E s.cc s.eFwd

/-- What D selects from, in its order. -/
def dFwd : List Fwd :=
  [⟨s.eOut.dstE, s.eOut.valE⟩, ⟨s.M.dstE, s.M.valE⟩, ⟨s.mOut.dstM, s.mOut.valM⟩,
    ⟨s.W.dstE, s.W.valE⟩, ⟨s.W.dstM, s.W.valM⟩]

def dOut : DE := pipeStageDecode s.D s.regFile s.dFwd

def control : ControlOut :=
  pipeControl s.D.icode (srcA s.D.icode s.D.rA) (srcB s.D.icode s.D.rB) s.E.icode s.E.dstM
    s.M.icode s.M.cnd

end State

/-! ## Clock -/

def pipeRegFd (rstN stall bubble : Bool) (f D : FD) : FD :=
  if !rstN || bubble then FD.bubble else if !stall then f else D

def pipeRegDe (rstN bubble : Bool) (d : DE) : DE := if !rstN || bubble then DE.bubble else d

def pipeRegEm (rstN bubble : Bool) (e : EM) : EM := if !rstN || bubble then EM.bubble else e

def pipeRegMw (rstN : Bool) (m : MW) : MW := if !rstN then MW.bubble else m

/-- One posedge. -/
def posedge (imem : IMem) (rstN : Bool) (net : Word) (s : State) : State where
  fPc := if !rstN then 0#64
    else pipePcLogic s.control.fStall (pipeStageFetch imem s.fPc).valP s.M s.W s.fPc
  D := pipeRegFd rstN s.control.dStall s.control.dBubble (pipeStageFetch imem s.fPc) s.D
  E := pipeRegDe rstN s.control.eBubble s.dOut
  M := pipeRegEm rstN s.control.eBubble (emInput s.eOut net)
  W := pipeRegMw rstN s.mOut
  regFile := if !rstN then fun _ => 0#64 else s.regFile.after s.W
  cc := if !rstN then ⟨false, false, false⟩ else ccReg s.E s.control.eBubble s.cc s.eFwd
  dataMem := if !rstN then s.dataMem else s.dataMem.after s.memWrite
  cpuStat := if !rstN then statAok
    else if pipeStageWriteback s.W ≠ statAok then pipeStageWriteback s.W else s.cpuStat

/-- The state out of reset, with any registers, condition codes and data memory. -/
def start (rf : RegFile) (cc : CC) (m : DataMem) : State :=
  ⟨0#64, FD.bubble, DE.bubble, EM.bubble, MW.bubble, rf, cc, m, statAok⟩

theorem posedge_reset (imem : IMem) (net : Word) (s : State) :
    posedge imem false net s = start (fun _ => 0#64) ⟨false, false, false⟩ s.dataMem := rfl

/-- A clock out of reset. -/
abbrev step (imem : IMem) (net : Word) (s : State) : State := posedge imem true net s

/-- What a run depends on: the program, what the undriven net carries in each clock, and the
contents of registers, condition codes and data memory out of reset. -/
structure Setup where
  imem : IMem
  net : Nat → Word
  regFile : RegFile
  cc : CC
  dataMem : DataMem

/-- The state after `t` clocks out of reset. -/
def trace (p : Setup) (t : Nat) : State :=
  run (fun i => step p.imem (p.net i)) (start p.regFile p.cc p.dataMem) t

theorem trace_succ (p : Setup) (t : Nat) :
    trace p (t + 1) = step p.imem (p.net t) (trace p t) := rfl

/-- A program right after reset, with the undriven net read as 0. -/
def Setup.ofBytes (bs : List Byte) : Setup :=
  ⟨IMem.ofBytes bs, fun _ => 0#64, fun _ => 0#64, ⟨false, false, false⟩, fun _ => 0#64⟩

end MyCpu.Y86
