import MyCpu.Clocked.Slots
import MyCpu.Rv32.Akun.Stages

/-!
# The `akun` pipeline

`rv32-pipeline-cpu-akun/CPU.v`: five registers, operands forwarded into `decode`, one clock of stall
for a load followed by its use, and a flush of the two younger instructions when the one in `regE`
jumps. An instruction carries a `commit` bit through the registers, so `slots` can read off the
state which of them hold one; `slots_step` says that the control signals move these as they should.

* `posedge`, `trace` : one rising edge, and the runs out of reset;
* `slots_trace` : the instructions in flight over a run.
-/

namespace MyCpu.Rv32.Akun

open Clocked

/-! ## Registers -/

structure RegD where
  instr : Word
  pc : Word
  prePc : Word
  commit : Bool
  deriving Inhabited

def RegD.bubble : RegD := ⟨nopInstr, 0#32, 0#32, false⟩

/-- A bubble leaves `regE_o_instr` as it is. -/
def RegE.bubble (r : RegE) : RegE where
  wbRegWen := false
  wbRd := 0#5
  wbValDSel := wbValDSelValE
  imm := 0#32
  aluValASel := aluValASelValA
  aluValBSel := aluValBSelValB
  aluFuncSel := aluFuncAdd
  memRw := memNoRw
  isJalr := false
  valA := 0#32
  valB := 0#32
  needJump := false
  pc := 0#32
  commit := false
  instr := r.instr
  prePc := 0#32

def RegM.reset (r : RegM) : RegM where
  wbRegWen := false
  wbRd := 0#5
  wbValDSel := wbValDSelValE
  valE := 0#32
  valB := 0#32
  memRw := memNoRw
  instr := r.instr
  pc := 0#32
  commit := false
  prePc := 0#32

/-- Reset leaves `regW_o_instr` and `regW_o_pre_pc` as they are. -/
def RegW.reset (r : RegW) : RegW where
  wbRegWen := false
  wbRd := 0#5
  wbValDSel := wbValDSelValE
  valE := 0#32
  valM := 0#32
  pc := 0#32
  instr := r.instr
  commit := false
  prePc := r.prePc

structure State where
  regF : Word
  regD : RegD
  regE : RegE
  regM : RegM
  regW : RegW
  regfile : RegFile
  pmem : Mem
  deriving Inhabited

/-! ## Wires -/

namespace State

variable (s : State)

def fetch : RegD := ⟨fetchInstr s.pmem s.regF, s.regF, fetchPrePc s.regF, true⟩

def valE : Word := executeValE s.regE

def valM : Word := memoryValM s.pmem s.regM

def wb : WriteBack := writeBack s.regW

def bypass : Bypass where
  e := s.regE.toWbControl
  eValE := s.valE
  m := s.regM.toWbControl
  mValE := s.regM.valE
  mValM := s.valM
  w := s.regW.toWbControl
  wValE := s.regW.valE
  wValM := s.regW.valM
  wPc := s.regW.pc

def valA : Word := decodeValA s.bypass s.regfile s.regD.instr

def valB : Word := decodeValB s.bypass s.regfile s.regD.instr

/-- The outputs of `decode`. -/
def decode : RegE :=
  toRegE s.regD.instr s.valA s.valB s.regD.pc s.regD.prePc s.regD.commit

def needJump : Bool := s.regE.needJump

def loadUse : Bool :=
  Akun.loadUse (rs1 s.regD.instr) (rs2 s.regD.instr) s.regE.wbRd s.regE.memRw

/-- The instruction in `regD` goes on to `regE`. -/
def Advances : Prop := s.regD.commit = true ∧ s.needJump = false ∧ s.loadUse = false

def memWrite : Option MemWrite := memoryWrite s.regM

/-- The commit port, when `commit` is 1. -/
def report : Commit := ⟨s.regW.pc, s.regW.instr, s.regW.prePc⟩

end State

/-! ## Clock -/

/-- One posedge. The memory write is not gated by `rst`. -/
def posedge (rst : Bool) (s : State) : State where
  regF :=
    if rst then resetVector
    else if !s.loadUse then selectPc (fetchPrePc s.regF) s.valE s.needJump
    else s.regF
  regD :=
    if rst || s.needJump then RegD.bubble else if !s.loadUse then s.fetch else s.regD
  regE := if rst || (s.needJump || s.loadUse) then s.regE.bubble else s.decode
  regM := if rst then s.regM.reset else toRegM s.regE
  regW := if rst then s.regW.reset else toRegW s.pmem s.regM
  regfile := if rst then Function.update s.regfile 0#5 0#32 else s.regfile.after s.wb
  pmem := afterWrite s.pmem s.memWrite

/-- The state out of reset, from whatever state the power came up in. -/
def start (s₀ : State) : State := posedge true s₀

/-- A clock with `rst` low. -/
abbrev step (s : State) : State := posedge false s

/-- The state after `t` clocks out of reset. -/
def trace (s₀ : State) (t : Nat) : State := run (fun _ => step) (start s₀) t

theorem trace_succ (s₀ : State) (t : Nat) : trace s₀ (t + 1) = step (trace s₀ t) := rfl

/-! ## Instructions in flight -/

/-- The stall and bubble inputs of the registers. -/
def State.control (s : State) : Clocked.Control where
  stallD := s.loadUse
  bubbleD := s.needJump
  bubbleE := s.needJump || s.loadUse
  bubbleM := false
  bubbleE_of_stallD := fun h => by rw [h, Bool.or_true]

/-- What a register holds, by its `commit` bit: an address and a word. -/
def held (commit : Bool) (pc instr : Word) : Option (Word × Word) :=
  if commit then some (pc, instr) else none

@[simp] theorem held_ne_none_iff {commit : Bool} {pc instr : Word} :
    held commit pc instr ≠ none ↔ commit = true := by
  cases commit <;> simp [held]

/-- The instructions in the registers. -/
def State.slots (s : State) : Slots (Word × Word) where
  d := held s.regD.commit s.regD.pc s.regD.instr
  e := held s.regE.commit s.regE.pc s.regE.instr
  m := held s.regM.commit s.regM.pc s.regM.instr
  w := held s.regW.commit s.regW.pc s.regW.instr

/-- The control signals move the instructions in flight as those of a pipeline. -/
theorem slots_step (s : State) :
    (step s).slots = s.slots.advance s.control (s.regF, fetchInstr s.pmem s.regF) := by
  have hd : (step s).regD =
      if s.needJump then RegD.bubble else if s.loadUse then s.regD else s.fetch := by
    show (if s.needJump then _ else if !s.loadUse then _ else _) = _
    cases s.loadUse <;> rfl
  have he : (step s).regE = if s.needJump || s.loadUse then s.regE.bubble else s.decode := rfl
  unfold State.slots Slots.advance
  congr 1
  · rw [hd]
    show held _ _ _ = if s.needJump then none else if s.loadUse then held _ _ _ else some _
    cases s.needJump <;> cases s.loadUse <;> rfl
  · rw [he]
    show held _ _ _ = if s.needJump || s.loadUse then none else held _ _ _
    cases s.needJump || s.loadUse <;> rfl

theorem slots_trace (s₀ : State) (t : Nat) : (trace s₀ t).slots =
    Clocked.slots (fun i => (trace s₀ i).control)
      (fun i => ((trace s₀ i).regF, fetchInstr (trace s₀ i).pmem (trace s₀ i).regF)) t := by
  induction t with
  | zero => rfl
  | succ t ih => rw [trace_succ, slots_step, ih, Clocked.slots_succ]

end MyCpu.Rv32.Akun
