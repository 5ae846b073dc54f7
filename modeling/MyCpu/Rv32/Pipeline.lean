import MyCpu.Rv32.Datapath
import MyCpu.Clocked.Slots

/-!
# The five-stage pipeline

`rv32-pipeline-cpu-new/top_cpu`: IF, ID, EX, MEM and WB with four pipeline registers, forwarding
into EX, a one-clock stall for a load followed by its use, and a flush of the two younger
instructions when EX redirects. `posedge` is one rising edge with every block sampling pre-edge
values; the definitions before it are the wires between the registers.
-/

namespace MyCpu.Rv32.Pipe

open Clocked

/-! ## Pipeline registers -/

/-- `addi x0, x0, 0`, which the registers hold after reset or a flush. -/
def nop : Word := 0x00000013#32

structure IfId where
  pc : Word
  instr : Word
  pcPlus4 : Word

def IfId.bubble : IfId := ⟨resetVector, nop, 0x80000004#32⟩

structure IdEx extends Fields where
  pc : Word
  instr : Word
  pcPlus4 : Word
  rs1Data : Word
  rs2Data : Word

def IdEx.bubble : IdEx where
  pc := resetVector
  instr := nop
  pcPlus4 := 0x80000004#32
  opcode := opAlui
  rd := 0#5
  funct3 := 0#3
  rs1 := 0#5
  rs2 := 0#5
  funct7 := 0#7
  imm := 0#32
  rs1Data := 0#32
  rs2Data := 0#32

structure ExMem where
  pc : Word
  instr : Word
  pcPlus4 : Word
  opcode : BitVec 7
  rd : BitVec 5
  funct3 : BitVec 3
  aluResult : Word
  rs2Data : Word
  nextPc : Word

def ExMem.bubble : ExMem :=
  ⟨resetVector, nop, 0x80000004#32, opAlui, 0#5, 0#3, 0#32, 0#32, 0x80000004#32⟩

structure MemWb where
  pc : Word
  instr : Word
  pcPlus4 : Word
  opcode : BitVec 7
  rd : BitVec 5
  aluResult : Word
  memData : Word
  nextPc : Word

def MemWb.bubble : MemWb :=
  ⟨resetVector, nop, 0x80000004#32, opAlui, 0#5, 0#32, 0#32, 0x80000004#32⟩

structure State where
  PC : Word
  id : IfId
  ex : IdEx
  mem : ExMem
  wb : MemWb
  regfile : RegFile
  pmem : Mem
  cycleCnt : BitVec 64
  instrCnt : BitVec 64
  stallCnt : BitVec 64

/-! ## Stages -/

/-- The outputs of `fetch_pipe`, and `if_id_reg`'s inputs. -/
def fetchPipe (m : Mem) (PC : Word) : IfId := ⟨PC, dpiInstrMemRead m PC, PC + 4#32⟩

/-- The read port of `decode_pipe`: a value written back in this clock is read through. -/
def readPort (rf : RegFile) (wb : WriteBack) (r : BitVec 5) : Word :=
  if r = 0#5 then 0#32
  else if wb.regWrEn = true ∧ wb.wrAddr = r then wb.wrData
  else rf r

/-- The outputs of `decode_pipe`, and `id_ex_reg`'s inputs. -/
def decodePipe (id : IfId) (rf : RegFile) (wb : WriteBack) : IdEx :=
  { toFields := fieldsOf id.instr
    pc := id.pc
    instr := id.instr
    pcPlus4 := id.pcPlus4
    rs1Data := readPort rf wb (fieldsOf id.instr).rs1
    rs2Data := readPort rf wb (fieldsOf id.instr).rs2 }

structure ExecuteOut where
  aluResult : Word
  branchTaken : Bool
  pcTarget : Word

/-- The forwarding multiplexer: 01 takes MEM's value, 10 takes WB's. -/
def forwardMux (sel : BitVec 2) (data memFwdData wbFwdData : Word) : Word :=
  if sel = 0b01#2 then memFwdData else if sel = 0b10#2 then wbFwdData else data

def executePipe (ex : IdEx) (forwardA forwardB : BitVec 2) (memFwdData wbFwdData : Word) :
    ExecuteOut :=
  let rs1Val := forwardMux forwardA ex.rs1Data memFwdData wbFwdData
  let rs2Val := forwardMux forwardB ex.rs2Data memFwdData wbFwdData
  { aluResult := aluResult ex.toFields rs1Val rs2Val ex.pc ex.pcPlus4
    branchTaken := ex.opcode == opJal || ex.opcode == opJalr ||
      (ex.opcode == opBranch && branchCond ex.toFields rs1Val rs2Val)
    pcTarget :=
      if ex.opcode = opJal then ex.pc + ex.imm
      else if ex.opcode = opJalr then (rs1Val + ex.imm) &&& 0xFFFFFFFE#32
      else if ex.opcode = opBranch then ex.pc + ex.imm
      else ex.pcPlus4 }

def memoryAccessPipe (m : Mem) (mem : ExMem) : Word := loadData m mem.opcode mem.funct3 mem.aluResult

/-- The write half of `memory_access_pipe`. -/
def memoryWritePipe (mem : ExMem) : Option WriteCall :=
  storeCall mem.opcode mem.funct3 mem.aluResult mem.rs2Data mem.pc

def writeBackPipe (wb : MemWb) : WriteBack :=
  writeBackTable wb.opcode wb.rd wb.aluResult wb.memData wb.pcPlus4

/-! ## Hazard unit -/

structure HazardOut where
  forwardA : BitVec 2
  forwardB : BitVec 2
  stallIf : Bool
  stallId : Bool
  flushIfId : Bool
  flushIdEx : Bool

/-- Where the operand in register `rs` comes from; MEM, the younger writer, wins. -/
def forwardSel (rs memRd : BitVec 5) (memRegWrEn : Bool) (wb : WriteBack) : BitVec 2 :=
  if memRegWrEn = true ∧ memRd ≠ 0#5 ∧ memRd = rs then 0b01#2
  else if wb.regWrEn = true ∧ wb.wrAddr ≠ 0#5 ∧ wb.wrAddr = rs then 0b10#2
  else 0b00#2

def loadUse (exOpcode : BitVec 7) (exRd idRs1 idRs2 : BitVec 5) : Bool :=
  exOpcode = opLoad ∧ exRd ≠ 0#5 ∧ (exRd = idRs1 ∨ exRd = idRs2)

def hazardUnit (ex : IdEx) (memRd : BitVec 5) (memRegWrEn : Bool) (wb : WriteBack)
    (idRs1 idRs2 : BitVec 5) (exBranchTaken : Bool) : HazardOut :=
  let lu := loadUse ex.opcode ex.rd idRs1 idRs2
  { forwardA := forwardSel ex.rs1 memRd memRegWrEn wb
    forwardB := forwardSel ex.rs2 memRd memRegWrEn wb
    stallIf := lu
    stallId := lu
    flushIfId := exBranchTaken
    flushIdEx := exBranchTaken || lu }

/-! ## Wires -/

namespace State

/-- `mem_reg_wr_en`: the deny-list that stands for "MEM writes a register" in hazard detection. -/
def memRegWrEn (s : State) : Bool :=
  s.mem.rd ≠ 0#5 ∧ s.mem.opcode ≠ opStore ∧ s.mem.opcode ≠ opBranch ∧ s.mem.opcode ≠ opFence ∧
    s.mem.opcode ≠ opSystem

/-- `mem_wr_data`: the ALU result, also for a load. -/
def memWrData (s : State) : Word := s.mem.aluResult

def wbOut (s : State) : WriteBack := writeBackPipe s.wb

def idOut (s : State) : IdEx := decodePipe s.id s.regfile s.wbOut

def forwardA (s : State) : BitVec 2 := forwardSel s.ex.rs1 s.mem.rd s.memRegWrEn s.wbOut

def forwardB (s : State) : BitVec 2 := forwardSel s.ex.rs2 s.mem.rd s.memRegWrEn s.wbOut

def exOut (s : State) : ExecuteOut :=
  executePipe s.ex s.forwardA s.forwardB s.memWrData s.wbOut.wrData

/-- `ex_rs2_fwd`, the data of a store. -/
def exRs2Fwd (s : State) : Word :=
  if s.forwardB = 0b01#2 then s.memWrData
  else if s.forwardB = 0b10#2 then s.wbOut.wrData
  else s.ex.rs2Data

def hazard (s : State) : HazardOut :=
  hazardUnit s.ex s.mem.rd s.memRegWrEn s.wbOut (fieldsOf s.id.instr).rs1
    (fieldsOf s.id.instr).rs2 s.exOut.branchTaken

/-- `ex_next_pc`. -/
def exNextPc (s : State) : Word :=
  if s.exOut.branchTaken then s.exOut.pcTarget else s.ex.pcPlus4

def memWrite (s : State) : Option WriteCall := memoryWritePipe s.mem

/-- `wb_valid`, and with it `commit`. -/
def wbValid (s : State) : Bool := s.wb.instr ≠ 0x00000013#32 ∨ s.wb.pc ≠ 0x80000000#32

def commit (s : State) : Commit := ⟨s.wb.pc, s.wb.instr, s.wb.nextPc⟩

end State

/-! ## Clock -/

def pcReg (rst stall pcSel : Bool) (pcTarget PC : Word) : Word :=
  if rst then resetVector else if !stall then if pcSel then pcTarget else PC + 4#32 else PC

def ifIdReg (rst stall flush : Bool) (inp id : IfId) : IfId :=
  if rst || flush then IfId.bubble else if !stall then inp else id

def idExReg (rst flush : Bool) (inp : IdEx) : IdEx := if rst || flush then IdEx.bubble else inp

def exMemReg (rst : Bool) (inp : ExMem) : ExMem := if rst then ExMem.bubble else inp

def memWbReg (rst : Bool) (inp : MemWb) : MemWb := if rst then MemWb.bubble else inp

/-- One posedge. The memory write is not gated by `rst`. -/
def posedge (rst : Bool) (s : State) : State where
  PC := pcReg rst s.hazard.stallIf s.exOut.branchTaken s.exOut.pcTarget s.PC
  id := ifIdReg rst s.hazard.stallId s.hazard.flushIfId (fetchPipe s.pmem s.PC) s.id
  ex := idExReg rst s.hazard.flushIdEx s.idOut
  mem := exMemReg rst
    ⟨s.ex.pc, s.ex.instr, s.ex.pcPlus4, s.ex.opcode, s.ex.rd, s.ex.funct3, s.exOut.aluResult,
      s.exRs2Fwd, s.exNextPc⟩
  wb := memWbReg rst
    ⟨s.mem.pc, s.mem.instr, s.mem.pcPlus4, s.mem.opcode, s.mem.rd, s.mem.aluResult,
      memoryAccessPipe s.pmem s.mem, s.mem.nextPc⟩
  regfile := if rst then fun _ => 0#32 else s.regfile.after s.wbOut
  pmem := s.pmem.after s.memWrite
  cycleCnt := if rst then 0#64 else s.cycleCnt + 1#64
  instrCnt := if rst then 0#64 else if s.wbValid then s.instrCnt + 1#64 else s.instrCnt
  stallCnt := if rst then 0#64 else if s.hazard.stallIf then s.stallCnt + 1#64 else s.stallCnt

/-- The state out of reset, with any register file and memory. -/
def start (rf : RegFile) (m : Mem) : State :=
  ⟨resetVector, IfId.bubble, IdEx.bubble, ExMem.bubble, MemWb.bubble, rf, m, 0#64, 0#64, 0#64⟩

theorem posedge_rst (s : State) :
    posedge true s = start (fun _ => 0#32) (s.pmem.after s.memWrite) := rfl

/-- A clock with `rst` low. -/
abbrev step (s : State) : State := posedge false s

/-- The state after `t` clocks out of reset. -/
def trace (rf : RegFile) (m : Mem) (t : Nat) : State := run (fun _ => step) (start rf m) t

theorem trace_succ (rf : RegFile) (m : Mem) (t : Nat) :
    trace rf m (t + 1) = step (trace rf m t) := rfl

end MyCpu.Rv32.Pipe
