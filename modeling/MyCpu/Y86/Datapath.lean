import Mathlib.Logic.Function.Basic

/-!
# The datapath both Y86 machines are built from

`y86` and `pipelined_y86` repeat the same combinational blocks: the instruction format, the
register selection but for `srcA`, the ALU with its condition codes, and the data memory. Each is
defined once here.
-/

namespace MyCpu.Y86

abbrev Word := BitVec 64
abbrev Byte := BitVec 8

/-! ## Codes -/

abbrev icNop : BitVec 4 := 0x0#4
abbrev icHalt : BitVec 4 := 0x1#4
abbrev icRrmovl : BitVec 4 := 0x2#4
abbrev icIrmovl : BitVec 4 := 0x3#4
abbrev icRmmovl : BitVec 4 := 0x4#4
abbrev icMrmovl : BitVec 4 := 0x5#4
abbrev icAlu : BitVec 4 := 0x6#4
abbrev icJxx : BitVec 4 := 0x7#4
abbrev icCall : BitVec 4 := 0x8#4
abbrev icRet : BitVec 4 := 0x9#4
abbrev icPushl : BitVec 4 := 0xA#4
abbrev icPopl : BitVec 4 := 0xB#4

abbrev statAok : BitVec 2 := 0b00#2
abbrev statHlt : BitVec 2 := 0b01#2
abbrev statAdr : BitVec 2 := 0b10#2
abbrev statIns : BitVec 2 := 0b11#2

/-- The register number that stands for none. -/
abbrev noReg : BitVec 4 := 0xF#4

/-- `%rsp`. -/
abbrev rsp : BitVec 4 := 0x4#4

/-! ## Memories and register file -/

/-- `imem`; what an index above 1023 reads is not specified. -/
abbrev IMem := Word → Byte

/-- The 256 words of `data_mem`. -/
abbrev DataMem := BitVec 8 → Word

/-- `reg_file`; index 15 is never used. -/
abbrev RegFile := BitVec 4 → Word

/-- `r_addr_valid` and `w_addr_valid`. -/
def addrValid (addr : Word) : Bool := addr.toNat ≤ 2047

/-- `addr[10:3]`. -/
def wordAddr (addr : Word) : BitVec 8 := addr.extractLsb' 3 8

def RegFile.read (rf : RegFile) (r : BitVec 4) : Word := if r = noReg then 0#64 else rf r

/-- One nonblocking write; no register is written through `noReg`. -/
def RegFile.write (rf : RegFile) (r : BitVec 4) (v : Word) : RegFile :=
  if r = noReg then rf else Function.update rf r v

/-- The condition codes. -/
structure CC where
  zf : Bool
  sf : Bool
  of : Bool
  deriving DecidableEq

/-! ## Instruction format -/

def needRegids (icode : BitVec 4) : Bool :=
  icode == icRrmovl || icode == icIrmovl || icode == icRmmovl || icode == icMrmovl ||
    icode == icAlu || icode == icPushl || icode == icPopl

def needValC (icode : BitVec 4) : Bool :=
  icode == icIrmovl || icode == icRmmovl || icode == icMrmovl || icode == icJxx || icode == icCall

def validIfun (icode ifun : BitVec 4) : Bool :=
  (icode == icRrmovl && ifun ≤ 0x6#4) || (icode == icAlu && ifun ≤ 0x3#4) ||
    (icode == icJxx && ifun ≤ 0x6#4) ||
    (icode != icRrmovl && icode != icAlu && icode != icJxx && ifun == 0x0#4)

def instrValid (icode ifun : BitVec 4) : Bool := icode ≤ 0xB#4 && validIfun icode ifun

/-- Eight bytes from `a` on, least significant first. -/
def IMem.word (imem : IMem) (a : Word) : Word :=
  imem (a + 7#64) ++ (imem (a + 6#64) ++ (imem (a + 5#64) ++ (imem (a + 4#64) ++
    (imem (a + 3#64) ++ (imem (a + 2#64) ++ (imem (a + 1#64) ++ imem a))))))

/-- The instruction memory that holds the given bytes from address 0 on, and `nop` elsewhere. -/
def IMem.ofBytes (bs : List Byte) : IMem := fun a => bs.getD a.toNat 0x00#8

/-! ## Registers of an instruction -/

def srcB (icode rB : BitVec 4) : BitVec 4 :=
  if icode = icRrmovl ∨ icode = icIrmovl ∨ icode = icRmmovl ∨ icode = icAlu then rB
  else if icode = icMrmovl then rB
  else if icode = icPushl ∨ icode = icPopl ∨ icode = icCall ∨ icode = icRet then rsp
  else noReg

def dstE (icode rB : BitVec 4) : BitVec 4 :=
  if icode = icRrmovl ∨ icode = icIrmovl ∨ icode = icAlu then rB
  else if icode = icPushl ∨ icode = icCall ∨ icode = icRet ∨ icode = icPopl then rsp
  else noReg

def dstM (icode rA : BitVec 4) : BitVec 4 :=
  if icode = icMrmovl ∨ icode = icPopl then rA else noReg

/-! ## ALU -/

def aluOut (ifun : BitVec 4) (aluA aluB : Word) : Word :=
  if ifun = 0x0#4 then aluB + aluA
  else if ifun = 0x1#4 then aluB - aluA
  else if ifun = 0x2#4 then aluB &&& aluA
  else if ifun = 0x3#4 then aluB ^^^ aluA
  else 0#64

/-- The condition codes an ALU operation leaves. -/
def newCc (ifun : BitVec 4) (aluA aluB : Word) : CC :=
  let out := aluOut ifun aluA aluB
  { zf := out == 0#64
    sf := out.getLsbD 63
    of :=
      if ifun = 0x0#4 then
        (!aluB.getLsbD 63 && !aluA.getLsbD 63 && out.getLsbD 63) ||
          (aluB.getLsbD 63 && aluA.getLsbD 63 && !out.getLsbD 63)
      else if ifun = 0x1#4 then
        (!aluB.getLsbD 63 && aluA.getLsbD 63 && out.getLsbD 63) ||
          (aluB.getLsbD 63 && !aluA.getLsbD 63 && !out.getLsbD 63)
      else false }

def valE (icode ifun : BitVec 4) (aluA aluB valC : Word) : Word :=
  if icode = icAlu then aluOut ifun aluA aluB
  else if icode = icRrmovl then aluA
  else if icode = icIrmovl then valC
  else if icode = icRmmovl ∨ icode = icMrmovl then aluB + valC
  else if icode = icPushl ∨ icode = icCall then aluB - 8#64
  else if icode = icPopl ∨ icode = icRet then aluB + 8#64
  else 0#64

/-! ## Data memory -/

/-- What `data_memory` is asked for. -/
structure MemControl where
  read : Bool
  write : Bool
  addr : Word
  data : Word

/-- `data_mem` after the clock. -/
def DataMem.after (m : DataMem) : Option (BitVec 8 × Word) → DataMem
  | none => m
  | some (a, v) => Function.update m a v

theorem dataMem_after_eq (m : DataMem) (w : Option (BitVec 8 × Word)) :
    m.after w = m ↔ ∀ a v, w = some (a, v) → m a = v := by
  cases w with
  | none => exact ⟨fun _ _ _ h => by contradiction, fun _ => rfl⟩
  | some w =>
      obtain ⟨a, v⟩ := w
      rw [DataMem.after, Function.update_eq_self_iff]
      constructor
      · rintro h a' v' h'
        obtain ⟨rfl, rfl⟩ := Prod.mk.inj (Option.some.inj h')
        exact h.symm
      · exact fun h => (h a v rfl).symm

/-! ## Register writes -/

theorem regFile_write_noReg (rf : RegFile) (v : Word) : rf.write noReg v = rf := if_pos rfl

theorem write_apply (rf : RegFile) (r : BitVec 4) (v : Word) {q : BitVec 4} (hq : q ≠ noReg) :
    rf.write r v q = if q = r then v else rf q := by
  unfold RegFile.write
  split
  · next h => rw [if_neg (by rw [h]; exact hq)]
  · rw [Function.update_apply]

theorem write_noReg_apply (rf : RegFile) (r : BitVec 4) (v : Word) :
    rf.write r v noReg = rf noReg := by
  unfold RegFile.write
  split
  · rfl
  · next h => exact Function.update_of_ne (Ne.symm h) v rf

/-- Two writes leave the register file as it is just when it holds already what they bring, the
second of them winning. -/
theorem write_write_eq_self_iff (rf : RegFile) (rE rM : BitVec 4) (vE vM : Word) :
    (rf.write rE vE).write rM vM = rf ↔
      (rM ≠ noReg → rf rM = vM) ∧ (rE ≠ noReg → rE ≠ rM → rf rE = vE) := by
  constructor
  · intro h
    refine ⟨fun hM => ?_, fun hE hne => ?_⟩
    · have := congrFun h rM
      rw [write_apply _ _ _ hM, if_pos rfl] at this
      exact this.symm
    · have := congrFun h rE
      rw [write_apply _ _ _ hE, if_neg hne, write_apply _ _ _ hE, if_pos rfl] at this
      exact this.symm
  · rintro ⟨hM, hE⟩
    funext r
    by_cases hr : r = noReg
    · rw [hr, write_noReg_apply, write_noReg_apply]
    · rw [write_apply _ _ _ hr, write_apply _ _ _ hr]
      split
      · next h => rw [h, hM (h ▸ hr)]
      · next h =>
          split
          · next h' => rw [h', hE (h' ▸ hr) (h' ▸ h)]
          · rfl

theorem write_eq_self_iff (rf : RegFile) (r : BitVec 4) (v : Word) :
    rf.write r v = rf ↔ (r ≠ noReg → rf r = v) := by
  have h := write_write_eq_self_iff rf noReg r 0#64 v
  rw [regFile_write_noReg] at h
  rw [h]
  exact and_iff_left fun h' => absurd rfl h'

end MyCpu.Y86
