import Mathlib.Tactic.SplitIfs
import MyCpu.Rv32.Datapath

/-!
# The stages of the `akun` pipeline

`rv32-pipeline-cpu-akun`: `decode`, `execute`, `memory`, `write_back`, `select_pc` and `ctrl`, each
a function of its inputs. Here operands are forwarded into `decode`, which also decides whether to
jump, while the target comes from `execute`. A word no format matches is carried along as a `nop`:
every multiplexer has a default arm.

* `control`, `decodeNeedJump` : what `decode` makes of a word, and of its operands;
* `Bypass.select` : the forwarding multiplexer;
* `RegE`, `RegM`, `RegW` : what the stages hand on;
* `executeValE`, `memoryValM`, `memoryWrite`, `writeBack`, `selectPc` : what they compute.
-/

namespace MyCpu.Rv32.Akun

/-! ## Codes -/

abbrev aluValASelValA : BitVec 2 := 0#2
abbrev aluValASelPc : BitVec 2 := 1#2
abbrev aluValASelZero : BitVec 2 := 2#2

abbrev aluValBSelValB : BitVec 2 := 0#2
abbrev aluValBSelImm : BitVec 2 := 1#2

abbrev aluFuncAdd : BitVec 4 := 0#4
abbrev aluFuncSub : BitVec 4 := 1#4
abbrev aluFuncSll : BitVec 4 := 2#4
abbrev aluFuncSlt : BitVec 4 := 3#4
abbrev aluFuncSltu : BitVec 4 := 4#4
abbrev aluFuncXor : BitVec 4 := 5#4
abbrev aluFuncSrl : BitVec 4 := 6#4
abbrev aluFuncSra : BitVec 4 := 7#4
abbrev aluFuncOr : BitVec 4 := 8#4
abbrev aluFuncAnd : BitVec 4 := 9#4

abbrev memRwLb : BitVec 4 := 0#4
abbrev memRwLbu : BitVec 4 := 1#4
abbrev memRwLh : BitVec 4 := 2#4
abbrev memRwLhu : BitVec 4 := 3#4
abbrev memRwLw : BitVec 4 := 4#4
abbrev memRwSb : BitVec 4 := 5#4
abbrev memRwSh : BitVec 4 := 6#4
abbrev memRwSw : BitVec 4 := 7#4
abbrev memNoRw : BitVec 4 := 8#4

abbrev wbValDSelValE : BitVec 2 := 0#2
abbrev wbValDSelValM : BitVec 2 := 1#2
abbrev wbValDSelValP : BitVec 2 := 2#2

/-- `nop_instr`. -/
def nopInstr : Word := 0x00000013#32

/-! ## Fetch -/

def fetchPrePc (pc : Word) : Word := pc + 4#32

def fetchInstr (m : Mem) (pc : Word) : Word := dpiMemRead m pc 4#32

/-! ## Decode

Nothing here but the operands depends on more than the instruction word. -/

section

variable (i : Word)

def opcode : BitVec 7 := i.extractLsb' 0 7

def func3 : BitVec 3 := i.extractLsb' 12 3

def func7 : BitVec 7 := i.extractLsb' 25 7

@[simp] abbrev UType : Prop := opcode i = opLui ∨ opcode i = opAuipc

@[simp] abbrev IType : Prop :=
  opcode i = opAlui ∨ opcode i = opLoad ∨ opcode i = opSystem ∨ opcode i = opJalr

@[simp] abbrev RType : Prop := opcode i = opAlu

@[simp] abbrev BType : Prop := opcode i = opBranch

@[simp] abbrev SType : Prop := opcode i = opStore

@[simp] abbrev JType : Prop := opcode i = opJal

/-- `rv32I_I_slli | rv32I_I_srli | rv32I_I_srai`. -/
@[simp] abbrev ShiftImm : Prop :=
  opcode i = opAlui ∧ (func3 i = 0b001#3 ∨ (func3 i = 0b101#3 ∧ func7 i = 0b0000000#7) ∨
    (func3 i = 0b101#3 ∧ func7 i = 0b0100000#7))

/-- `decode_o_rs1`. -/
def rs1 : BitVec 5 :=
  if UType i ∨ JType i then 0#5
  else if IType i ∨ BType i ∨ SType i ∨ RType i then i.extractLsb' 15 5
  else 0#5

/-- `decode_o_rs2`. -/
def rs2 : BitVec 5 :=
  if IType i ∨ UType i ∨ JType i then 0#5
  else if BType i ∨ SType i ∨ RType i then i.extractLsb' 20 5
  else 0#5

/-- `decode_o_imm`. -/
def imm : Word :=
  let sign := i.extractLsb' 31 1
  if RType i then 0#32
  else if UType i then i.extractLsb' 12 20 ++ 0#12
  else if IType i then
    if ShiftImm i then 0#27 ++ i.extractLsb' 20 5 else sign.replicate 20 ++ i.extractLsb' 20 12
  else if SType i then sign.replicate 20 ++ (i.extractLsb' 25 7 ++ i.extractLsb' 7 5)
  else if BType i then
    (sign.replicate 20 ++ (sign ++ (i.extractLsb' 7 1 ++ (i.extractLsb' 25 6 ++
      i.extractLsb' 8 4)))) <<< 1
  else if JType i then
    (sign.replicate 12 ++ (sign ++ (i.extractLsb' 12 8 ++ (i.extractLsb' 20 1 ++
      i.extractLsb' 21 10)))) <<< 1
  else 0#32

def aluValASel : BitVec 2 :=
  if IType i ∨ RType i ∨ SType i then aluValASelValA
  else if JType i ∨ BType i ∨ opcode i = opAuipc then aluValASelPc
  else aluValASelZero

def aluValBSel : BitVec 2 :=
  if RType i then aluValBSelValB
  else if IType i ∨ SType i ∨ BType i ∨ UType i ∨ JType i then aluValBSelImm
  else aluValBSelValB

/-- `rv32I_R_*` and `rv32I_I_*` of one `func3`, where `func7` does not matter. -/
@[simp] abbrev Func (f3 : BitVec 3) : Prop :=
  (RType i ∧ func3 i = f3) ∨ (opcode i = opAlui ∧ func3 i = f3)

def aluFuncSel : BitVec 4 :=
  if (RType i ∧ func3 i = 0b000#3 ∧ func7 i = 0b0000000#7) ∨
      (opcode i = opAlui ∧ func3 i = 0b000#3) then aluFuncAdd
  else if RType i ∧ func3 i = 0b000#3 ∧ func7 i = 0b0100000#7 then aluFuncSub
  else if Func i 0b001#3 then aluFuncSll
  else if Func i 0b010#3 then aluFuncSlt
  else if Func i 0b011#3 then aluFuncSltu
  else if Func i 0b100#3 then aluFuncXor
  else if Func i 0b101#3 ∧ func7 i = 0b0000000#7 then aluFuncSrl
  else if Func i 0b101#3 ∧ func7 i = 0b0100000#7 then aluFuncSra
  else if Func i 0b110#3 then aluFuncOr
  else if Func i 0b111#3 then aluFuncAnd
  else aluFuncAdd

/-- `decode_o_mem_rw`: one particular store, `sw x0, 0(x1)`, is not made. -/
def memRw : BitVec 4 :=
  if i = 0x0000a023#32 then memNoRw
  else if opcode i = opLoad ∧ func3 i = 0b000#3 then memRwLb
  else if opcode i = opLoad ∧ func3 i = 0b100#3 then memRwLbu
  else if opcode i = opLoad ∧ func3 i = 0b001#3 then memRwLh
  else if opcode i = opLoad ∧ func3 i = 0b101#3 then memRwLhu
  else if opcode i = opLoad ∧ func3 i = 0b010#3 then memRwLw
  else if SType i ∧ func3 i = 0b000#3 then memRwSb
  else if SType i ∧ func3 i = 0b001#3 then memRwSh
  else if SType i ∧ func3 i = 0b010#3 then memRwSw
  else memNoRw

/-- The write-back control signals, which stay with an instruction to the end. -/
structure WbControl where
  wbRegWen : Bool
  wbRd : BitVec 5
  wbValDSel : BitVec 2
  deriving Inhabited

def wbControl : WbControl where
  wbRegWen := IType i ∨ RType i ∨ UType i ∨ JType i
  wbRd := i.extractLsb' 7 5
  wbValDSel :=
    if RType i ∨ opcode i = opAlui ∨ UType i then wbValDSelValE
    else if opcode i = opLoad then wbValDSelValM
    else if opcode i = opJalr ∨ JType i then wbValDSelValP
    else wbValDSelValM

/-- The outputs of `decode` for `execute` and the stages after it, operands apart. -/
structure Control extends WbControl where
  imm : Word
  aluValASel : BitVec 2
  aluValBSel : BitVec 2
  aluFuncSel : BitVec 4
  memRw : BitVec 4
  isJalr : Bool
  deriving Inhabited

def control : Control where
  toWbControl := wbControl i
  imm := imm i
  aluValASel := aluValASel i
  aluValBSel := aluValBSel i
  aluFuncSel := aluFuncSel i
  memRw := memRw i
  isJalr := opcode i = opJalr

/-- `decode_o_need_jump`. -/
def decodeNeedJump (valA valB : Word) : Bool :=
  if BType i ∧ func3 i = 0b000#3 ∧ valA = valB then true
  else if BType i ∧ func3 i = 0b001#3 ∧ valA ≠ valB then true
  else if BType i ∧ func3 i = 0b100#3 ∧ valA.slt valB then true
  else if BType i ∧ func3 i = 0b101#3 ∧ !valA.slt valB then true
  else if BType i ∧ func3 i = 0b110#3 ∧ valA.ult valB then true
  else if BType i ∧ func3 i = 0b111#3 ∧ !valA.ult valB then true
  else if JType i ∨ opcode i = opJalr then true
  else false

end

/-! ### Decoded words -/

section

variable {i : Word}

/-- Only a store can be the word that is taken for no store. -/
theorem ne_of_opcode (h : opcode i ≠ opStore) : i ≠ 0x0000a023#32 := by
  rintro rfl
  exact h (by decide)

/-- Only a store has the code of one. -/
theorem not_store_of_opcode (hs : opcode i ≠ opStore) :
    memRw i ≠ memRwSb ∧ memRw i ≠ memRwSh ∧ memRw i ≠ memRwSw := by
  unfold memRw
  simp only [SType, hs, false_and, if_false]
  split_ifs <;> decide

theorem memRw_of_opcode (hl : opcode i ≠ opLoad) (hs : opcode i ≠ opStore) : memRw i = memNoRw := by
  simp [memRw, SType, hl, hs]

/-- What is no arithmetic is an addition. -/
theorem aluFuncSel_of_opcode (h : opcode i ≠ opAlu ∧ opcode i ≠ opAlui) : aluFuncSel i = aluFuncAdd := by
  simp [aluFuncSel, h]

theorem wbValDSel_of_opcode (h : opcode i = opSystem ∨ opcode i = opLoad) :
    (wbControl i).wbValDSel = wbValDSelValM := by
  have hE : ¬(RType i ∨ opcode i = opAlui ∨ UType i) := by
    unfold RType UType
    rcases h with h | h <;> rw [h] <;> decide
  have hP : ¬(opcode i = opJalr ∨ JType i) := by
    unfold JType
    rcases h with h | h <;> rw [h] <;> decide
  refine (if_neg hE).trans ?_
  by_cases hload : opcode i = opLoad
  · exact if_pos hload
  · exact (if_neg hload).trans (if_neg hP)

theorem decodeNeedJump_of_opcode (hb : opcode i ≠ opBranch) (a b : Word) :
    decodeNeedJump i a b = decide (opcode i = opJal ∨ opcode i = opJalr) := by
  by_cases h : opcode i = opJal ∨ opcode i = opJalr <;> simp [decodeNeedJump, BType, JType, hb, h]

theorem decodeNeedJump_cases {a b : Word} (h : decodeNeedJump i a b = true) :
    opcode i = opBranch ∨ opcode i = opJal ∨ opcode i = opJalr := by
  by_cases hb : opcode i = opBranch
  · exact .inl hb
  · rw [decodeNeedJump_of_opcode hb, decide_eq_true_iff] at h
    exact .inr h

end

/-! ## Forwarding -/

/-- The instruction writes `rs`. -/
abbrev WbControl.Hits (c : WbControl) (rs : BitVec 5) : Prop :=
  rs = c.wbRd ∧ c.wbRd ≠ 0#5 ∧ c.wbRegWen = true

/-- The inputs of `decode` from the later stages. -/
structure Bypass where
  e : WbControl
  eValE : Word
  m : WbControl
  mValE : Word
  mValM : Word
  w : WbControl
  wValE : Word
  wValM : Word
  wPc : Word

/-- The forwarding multiplexer: E first, whatever it will write, then M, then W. M does not pass on
a link. -/
def Bypass.select (b : Bypass) (rs : BitVec 5) (regfileVal : Word) : Word :=
  if b.e.Hits rs then b.eValE
  else if b.m.Hits rs ∧ b.m.wbValDSel = wbValDSelValM then b.mValM
  else if b.m.Hits rs ∧ b.m.wbValDSel = wbValDSelValE then b.mValE
  else if b.w.Hits rs ∧ b.w.wbValDSel = wbValDSelValE then b.wValE
  else if b.w.Hits rs ∧ b.w.wbValDSel = wbValDSelValM then b.wValM
  else if b.w.Hits rs ∧ b.w.wbValDSel = wbValDSelValP then b.wPc + 4#32
  else regfileVal

/-- `decode_o_valA`. -/
def decodeValA (b : Bypass) (rf : RegFile) (i : Word) : Word :=
  b.select (rs1 i) (rf.read (i.extractLsb' 15 5))

/-- `decode_o_valB`. -/
def decodeValB (b : Bypass) (rf : RegFile) (i : Word) : Word :=
  b.select (rs2 i) (rf.read (i.extractLsb' 20 5))

/-! ## Execute -/

structure RegE extends Control where
  valA : Word
  valB : Word
  needJump : Bool
  pc : Word
  commit : Bool
  instr : Word
  prePc : Word
  deriving Inhabited

def aluValA (r : RegE) : Word :=
  if r.aluValASel = aluValASelValA then r.valA
  else if r.aluValASel = aluValASelPc then r.pc
  else if r.aluValASel = aluValASelZero then 0#32
  else r.valA

def aluValB (r : RegE) : Word :=
  if r.aluValBSel = aluValBSelValB then r.valB
  else if r.aluValBSel = aluValBSelImm then r.imm
  else r.valB

def alu (func : BitVec 4) (a b : Word) : Word :=
  if func = aluFuncAdd then a + b
  else if func = aluFuncSub then a - b
  else if func = aluFuncSll then a <<< b.extractLsb' 0 5
  else if func = aluFuncSlt then if a.slt b then 1#32 else 0#32
  else if func = aluFuncSltu then if a.ult b then 1#32 else 0#32
  else if func = aluFuncXor then a ^^^ b
  else if func = aluFuncSrl then a >>> b.extractLsb' 0 5
  else if func = aluFuncSra then a.sshiftRight' (b.extractLsb' 0 5)
  else if func = aluFuncOr then a ||| b
  else if func = aluFuncAnd then a &&& b
  else 0#32

/-- `execute_o_valE`. -/
def executeValE (r : RegE) : Word := alu r.aluFuncSel (aluValA r) (aluValB r)

/-- `execute_o_pre_pc`, which is reported as the next PC. -/
def executePrePc (r : RegE) : Word :=
  if r.isJalr then executeValE r &&& ~~~1#32
  else if r.needJump then executeValE r
  else r.prePc

/-- `select_pc_o_pc`, which is the next PC. -/
def selectPc (fetchPrePc valE : Word) (needJump : Bool) : Word :=
  if needJump then valE else fetchPrePc

/-- Clearing bit 0 changes odd words only. -/
theorem eq_and_not_one_iff (x : Word) : x = x &&& ~~~1#32 ↔ x.getLsbD 0 = false := by
  constructor
  · intro h
    rw [h]
    simp
  · intro h
    apply BitVec.eq_of_getLsbD_eq
    intro i hi
    simp only [BitVec.getLsbD_and, BitVec.getLsbD_not, BitVec.getLsbD_one, hi, decide_true,
      Bool.true_and]
    rcases Nat.eq_zero_or_pos i with rfl | hpos
    · rw [h]
      rfl
    · simp [Nat.pos_iff_ne_zero.mp hpos]

/-! ### Operands

What the selector codes of a decoded word select. -/

/-- The first operand of the ALU, by the format of the word. -/
theorem aluValA_eq {r : RegE} {i : Word} (h : r.toControl = control i) : aluValA r =
    if IType i ∨ RType i ∨ SType i then r.valA
    else if JType i ∨ BType i ∨ opcode i = opAuipc then r.pc
    else 0#32 := by
  unfold aluValA
  rw [h]
  show (if aluValASel i = _ then _ else if aluValASel i = _ then _ else
    if aluValASel i = _ then _ else _) = _
  unfold aluValASel
  by_cases h1 : IType i ∨ RType i ∨ SType i
  · rw [if_pos h1, if_pos h1, if_pos rfl]
  · rw [if_neg h1, if_neg h1]
    by_cases h2 : JType i ∨ BType i ∨ opcode i = opAuipc
    · rw [if_pos h2, if_pos h2, if_neg (by decide), if_pos rfl]
    · rw [if_neg h2, if_neg h2, if_neg (by decide), if_neg (by decide), if_pos rfl]

/-- The second one. -/
theorem aluValB_eq {r : RegE} {i : Word} (h : r.toControl = control i) : aluValB r =
    if ¬RType i ∧ (IType i ∨ SType i ∨ BType i ∨ UType i ∨ JType i) then imm i else r.valB := by
  unfold aluValB
  rw [h]
  show (if aluValBSel i = _ then _ else if aluValBSel i = _ then imm i else _) = _
  unfold aluValBSel
  by_cases h1 : RType i
  · rw [if_pos h1, if_pos rfl, if_neg (fun h => h.1 h1)]
  · rw [if_neg h1]
    by_cases h2 : IType i ∨ SType i ∨ BType i ∨ UType i ∨ JType i
    · rw [if_pos h2, if_neg (by decide), if_pos rfl, if_pos ⟨h1, h2⟩]
    · rw [if_neg h2, if_pos rfl, if_neg (fun h => h2 h.2)]

/-! ## Memory -/

structure RegM extends WbControl where
  valE : Word
  valB : Word
  memRw : BitVec 4
  instr : Word
  pc : Word
  commit : Bool
  prePc : Word
  deriving Inhabited

/-- `rv32_load`. -/
abbrev Load (memRw : BitVec 4) : Prop :=
  memRw = memRwLb ∨ memRw = memRwLh ∨ memRw = memRwLw ∨ memRw = memRwLbu ∨ memRw = memRwLhu

/-- `memory_o_valM` of the word in `MEM_o_TMP`. -/
def extend (memRw : BitVec 4) (tmp : Word) : Word :=
  if memRw = memRwLb then (tmp.extractLsb' 7 1).replicate 24 ++ tmp.extractLsb' 0 8
  else if memRw = memRwLh then (tmp.extractLsb' 15 1).replicate 16 ++ tmp.extractLsb' 0 16
  else if memRw = memRwLw then tmp
  else if memRw = memRwLbu then 0#24 ++ tmp.extractLsb' 0 8
  else if memRw = memRwLhu then 0#16 ++ tmp.extractLsb' 0 16
  else tmp

/-- `memory_o_valM`: four bytes are read for every load. -/
def memoryValM (m : Mem) (r : RegM) : Word :=
  extend r.memRw
    (if r.memRw = memNoRw then 0#32 else if Load r.memRw then dpiMemRead m r.valE 4#32 else 0#32)

/-- The arguments of one call of `dpi_mem_write`, which here has no `pc`. -/
structure MemWrite where
  addr : Word
  data : Word
  len : Word
  deriving DecidableEq

/-- The call `memory` makes at the posedge. -/
def memoryWrite (r : RegM) : Option MemWrite :=
  if r.memRw = memRwSb then some ⟨r.valE, r.valB, 1#32⟩
  else if r.memRw = memRwSh then some ⟨r.valE, r.valB, 2#32⟩
  else if r.memRw = memRwSw then some ⟨r.valE, r.valB, 4#32⟩
  else none

theorem memoryWrite_of_noRw {r : RegM} (h : r.memRw = memNoRw) : memoryWrite r = none := by
  unfold memoryWrite
  rw [h]
  rfl

/-- The memory after that posedge. -/
def afterWrite (m : Mem) : Option MemWrite → Mem
  | none => m
  | some c => hostWrite m c.addr c.len c.data

/-! ## Write back -/

structure RegW extends WbControl where
  valE : Word
  valM : Word
  pc : Word
  instr : Word
  commit : Bool
  prePc : Word
  deriving Inhabited

def writeBack (r : RegW) : WriteBack where
  regWrEn := r.wbRegWen
  wrAddr := r.wbRd
  wrData :=
    if r.wbValDSel = wbValDSelValE then r.valE
    else if r.wbValDSel = wbValDSelValP then r.pc + 4#32
    else if r.wbValDSel = wbValDSelValM then r.valM
    else 0#32

/-! ## What the registers take in -/

/-- The inputs of `regE`, once the operands have been selected. -/
def toRegE (instr valA valB pc prePc : Word) (commit : Bool) : RegE where
  toControl := control instr
  valA := valA
  valB := valB
  needJump := decodeNeedJump instr valA valB
  pc := pc
  commit := commit
  instr := instr
  prePc := prePc

/-- The inputs of `regM`. -/
def toRegM (r : RegE) : RegM where
  toWbControl := r.toWbControl
  valE := executeValE r
  valB := r.valB
  memRw := r.memRw
  instr := r.instr
  pc := r.pc
  commit := r.commit
  prePc := executePrePc r

/-- The inputs of `regW`. -/
def toRegW (m : Mem) (r : RegM) : RegW where
  toWbControl := r.toWbControl
  valE := r.valE
  valM := memoryValM m r
  pc := r.pc
  instr := r.instr
  commit := r.commit
  prePc := r.prePc

@[simp] theorem toRegM_toWbControl (r : RegE) : (toRegM r).toWbControl = r.toWbControl := rfl

@[simp] theorem toRegW_toWbControl (m : Mem) (r : RegM) :
    (toRegW m r).toWbControl = r.toWbControl := rfl

/-! ## Hazards -/

/-- `load_use`; register 0 is not left out. -/
def loadUse (rs1 rs2 eRd : BitVec 5) (eMemRw : BitVec 4) : Bool :=
  (eRd = rs1 ∨ eRd = rs2) ∧ Load eMemRw

end MyCpu.Rv32.Akun
