import MyCpu.Machine.Leads
import MyCpu.Rv32.Isa

/-!
# Assembled routines

The lines of an assembler file with their labels, the instructions they assemble to, and runs of the
instruction set through a routine that stands somewhere in memory. A routine here reads and writes no
memory, so a point of it is the number of the instruction and what the registers hold.

* `Line`, `assemble` : the lines and the instructions, branches and jumps resolved;
* `Step`, `HasCode` : one instruction of the machine, and a routine in its memory;
* `atInstr` : a point of a routine;
* `leads_result`, `leads_branch`, `leads_jal`, `leads_jr` : the rules of the instructions;
* `Returned` : what every routine keeps when it returns to its caller;
* `Frame` : registers that keep what they hold.
-/

namespace MyCpu.Rv32.Isa

open Machine Relation

/-! ## Lines -/

/-- A line of an assembler file. Branches and jumps name a label. -/
inductive Line (L : Type)
  | label (l : L)
  | instr (i : Instr)
  | branch (op : BranchOp) (rs1 rs2 : BitVec 5) (l : L)
  | jal (rd : BitVec 5) (l : L)

section

variable {L : Type} [DecidableEq L]

/-- The number of instructions before the label. -/
def position (l : L) : List (Line L) → Nat
  | [] => 0
  | .label l' :: ls => if l = l' then 0 else position l ls
  | _ :: ls => position l ls + 1

/-- The distance from instruction `k` to the label, in half-words. -/
def halfWords (all : List (Line L)) (k : Nat) (l : L) : Int := 2 * ((position l all : Int) - k)

/-- The instructions of the lines, the first of which has number `k`. -/
def assembleFrom (all : List (Line L)) (k : Nat) : List (Line L) → List Instr
  | [] => []
  | .label _ :: ls => assembleFrom all k ls
  | .instr i :: ls => i :: assembleFrom all (k + 1) ls
  | .branch op rs1 rs2 l :: ls =>
      .branch op rs1 rs2 (BitVec.ofInt 12 (halfWords all k l)) :: assembleFrom all (k + 1) ls
  | .jal rd l :: ls => .jal rd (BitVec.ofInt 20 (halfWords all k l)) :: assembleFrom all (k + 1) ls

def assemble (all : List (Line L)) : List Instr := assembleFrom all 0 all

end

/-! ## Registers -/

abbrev x0 : BitVec 5 := 0#5
abbrev ra : BitVec 5 := 1#5
abbrev t0 : BitVec 5 := 5#5
abbrev a0 : BitVec 5 := 10#5
abbrev a1 : BitVec 5 := 11#5
abbrev a2 : BitVec 5 := 12#5
abbrev a3 : BitVec 5 := 13#5

/-! ### Pseudo-instructions -/

namespace Line

variable {L : Type}

def li (rd : BitVec 5) (imm : BitVec 12) : Line L := .instr (.opImm .addi rd x0 imm)
def mv (rd rs : BitVec 5) : Line L := .instr (.opImm .addi rd rs 0#12)
def neg (rd rs : BitVec 5) : Line L := .instr (.opReg .sub rd x0 rs)
def andi (rd rs : BitVec 5) (imm : BitVec 12) : Line L := .instr (.opImm .andi rd rs imm)
def slli (rd rs shamt : BitVec 5) : Line L := .instr (.shiftImm .slli rd rs shamt)
def srli (rd rs shamt : BitVec 5) : Line L := .instr (.shiftImm .srli rd rs shamt)
def add (rd rs1 rs2 : BitVec 5) : Line L := .instr (.opReg .add rd rs1 rs2)
def sub (rd rs1 rs2 : BitVec 5) : Line L := .instr (.opReg .sub rd rs1 rs2)
def or (rd rs1 rs2 : BitVec 5) : Line L := .instr (.opReg .or rd rs1 rs2)
def beqz (rs : BitVec 5) (l : L) : Line L := .branch .beq rs x0 l
def bnez (rs : BitVec 5) (l : L) : Line L := .branch .bne rs x0 l
def bltz (rs : BitVec 5) (l : L) : Line L := .branch .blt rs x0 l
def bgez (rs : BitVec 5) (l : L) : Line L := .branch .bge rs x0 l
def blez (rs : BitVec 5) (l : L) : Line L := .branch .bge x0 rs l
def bgtz (rs : BitVec 5) (l : L) : Line L := .branch .blt x0 rs l
def bltu (rs rt : BitVec 5) (l : L) : Line L := .branch .bltu rs rt l
def bgeu (rs rt : BitVec 5) (l : L) : Line L := .branch .bgeu rs rt l
def bgtu (rs rt : BitVec 5) (l : L) : Line L := .branch .bltu rt rs l
def j (l : L) : Line L := .jal x0 l
def call (l : L) : Line L := .jal ra l
def jr (rs : BitVec 5) : Line L := .instr (.jalr x0 rs 0#12)
def ret : Line L := .instr (.jalr x0 ra 0#12)

end Line

abbrev Regs := BitVec 5 → Word

namespace Regs

def get (x : Regs) (r : BitVec 5) : Word := if r = 0#5 then 0#32 else x r

def set (x : Regs) (rd : BitVec 5) (v : Word) : Regs := fun r => if r = rd ∧ rd ≠ 0#5 then v else x r

theorem get_of_ne (x : Regs) {r : BitVec 5} (h : r ≠ 0#5) : x.get r = x r := if_neg h

theorem set_zero (x : Regs) (v : Word) : x.set 0#5 v = x := funext fun _ => if_neg fun h => h.2 rfl

theorem set_of_ne (x : Regs) {rd r : BitVec 5} (v : Word) (h : r ≠ rd) : x.set rd v r = x r :=
  if_neg fun hc => h hc.1

end Regs

/-- The registers outside `rs` hold in `y` what they hold in `x`. -/
def Frame (rs : List (BitVec 5)) (x y : Regs) : Prop := ∀ r ∉ rs, y r = x r

theorem Frame.refl (rs : List (BitVec 5)) (x : Regs) : Frame rs x x := fun _ _ => rfl

theorem Frame.trans {rs : List (BitVec 5)} {x y z : Regs} (h : Frame rs x y) (h' : Frame rs y z) :
    Frame rs x z := fun r hr => (h' r hr).trans (h r hr)

theorem Frame.mono {rs rs' : List (BitVec 5)} {x y : Regs} (h : Frame rs x y) (hsub : rs ⊆ rs') :
    Frame rs' x y := fun r hr => h r fun hc => hr (hsub hc)

theorem Frame.set {rs : List (BitVec 5)} {x y : Regs} (h : Frame rs x y) {rd : BitVec 5} (v : Word)
    (hrd : rd ∈ rs) : Frame rs x (y.set rd v) := by
  intro r hr
  have hne : r ≠ rd := fun hc => hr (hc ▸ hrd)
  rw [y.set_of_ne v hne, h r hr]

/-! ## Runs -/

/-- One instruction: the word at the PC is a legal encoding, and it is executed. -/
def Step (s t : Arch) : Prop := ∃ i : Instr, dpiInstrMemRead s.mem s.pc = i.encode ∧ t = exec s i

/-- The address of instruction `k` of a routine at `base`. -/
def codeAddr (base : Word) (k : Nat) : Word := base + BitVec.ofNat 32 (4 * k)

/-- The routine stands in memory at `base`. -/
def HasCode (m : Word → Byte) (base : Word) (code : List Instr) : Prop :=
  ∀ k (h : k < code.length), dpiInstrMemRead m (codeAddr base k) = code[k].encode

/-- The state about to execute instruction `k`. -/
def atInstr (m : Word → Byte) (base : Word) (k : Nat) (x : Regs) : Arch := ⟨codeAddr base k, x, m⟩

theorem codeAddr_zero (base : Word) : codeAddr base 0 = base := BitVec.add_zero base

theorem codeAddr_add (base : Word) (k n : Nat) :
    codeAddr base k + BitVec.ofNat 32 (4 * n) = codeAddr base (k + n) := by
  rw [codeAddr, codeAddr, Nat.mul_add, BitVec.ofNat_add, BitVec.add_assoc]

/-- A jump within a routine does not depend on where it stands. -/
theorem codeAddr_add_of_zero (base : Word) {k k' : Nat} {d : Word}
    (h : codeAddr 0#32 k + d = codeAddr 0#32 k') : codeAddr base k + d = codeAddr base k' := by
  rw [codeAddr, codeAddr, BitVec.zero_add, BitVec.zero_add] at h
  rw [codeAddr, codeAddr, BitVec.add_assoc, h]

theorem toNat_and_one (a : Word) : (a &&& 1#32).toNat = a.toNat % 2 := by
  rw [BitVec.toNat_and]
  exact Nat.and_one_is_mod _

/-- `jalr` clears the low bit of its target, which the address of an instruction has not. -/
theorem codeAddr_even {base : Word} (hb : base &&& 1#32 = 0#32) (k : Nat) :
    codeAddr base k &&& ~~~1#32 = codeAddr base k := by
  have h : codeAddr base k &&& 1#32 = 0#32 := by
    refine BitVec.eq_of_toNat_eq ?_
    have hb' : base.toNat % 2 = 0 := by rw [← toNat_and_one, hb]; rfl
    rw [toNat_and_one, codeAddr, BitVec.toNat_add, BitVec.toNat_ofNat]
    simp only [BitVec.toNat_ofNat]
    omega
  generalize codeAddr base k = v at h ⊢
  refine BitVec.eq_of_getLsbD_eq fun i hi => ?_
  have hi' := congrArg (fun w : Word => w.getLsbD i) h
  simp only [BitVec.getLsbD_and, BitVec.getLsbD_not, BitVec.getLsbD_zero] at hi' ⊢
  grind

/-- What a computing instruction writes. -/
def Instr.result (x : Regs) : Instr → Option (BitVec 5 × Word)
  | .lui rd imm => some (rd, imm ++ 0#12)
  | .opImm op rd rs1 imm => some (rd, op.eval (x.get rs1) (imm.signExtend 32))
  | .shiftImm op rd rs1 shamt => some (rd, op.eval (x.get rs1) shamt.toNat)
  | .opReg op rd rs1 rs2 => some (rd, op.eval (x.get rs1) (x.get rs2))
  | _ => none

section

variable {m : Word → Byte} {base : Word} {code : List Instr} {k : Nat} {x : Regs} {Q : Arch → Prop}

theorem HasCode.step (hc : HasCode m base code) {i : Instr} (hi : code[k]? = some i) :
    Step (atInstr m base k x) (exec (atInstr m base k x) i) := by
  obtain ⟨hk, rfl⟩ := List.getElem?_eq_some_iff.mp hi
  exact ⟨code[k], hc k hk, rfl⟩

theorem leads_result (hc : HasCode m base code) {i : Instr} (hi : code[k]? = some i)
    {rd : BitVec 5} {v : Word} (hr : i.result x = some (rd, v))
    (h : Leads Step (atInstr m base (k + 1) (x.set rd v)) Q) : Leads Step (atInstr m base k x) Q := by
  have hexec : exec (atInstr m base k x) i = atInstr m base (k + 1) (x.set rd v) := by
    rw [atInstr, atInstr, ← codeAddr_add base k 1]
    cases i with
    | lui | opImm | shiftImm | opReg =>
        cases hr
        rfl
    | _ => cases hr
  exact .step (hexec ▸ hc.step hi) h

theorem leads_mv (hc : HasCode m base code) {rd rs : BitVec 5}
    (hi : code[k]? = some (.opImm .addi rd rs 0#12)) (hrs : rs ≠ x0)
    (h : Leads Step (atInstr m base (k + 1) (x.set rd (x rs))) Q) : Leads Step (atInstr m base k x) Q := by
  refine leads_result hc hi rfl ?_
  have hv : ImmOp.eval (x.get rs) ((0#12).signExtend 32) .addi = x rs := by
    rw [x.get_of_ne hrs]
    exact BitVec.add_zero _
  rwa [hv]

theorem leads_li (hc : HasCode m base code) {rd : BitVec 5} {imm : BitVec 12}
    (hi : code[k]? = some (.opImm .addi rd x0 imm))
    (h : Leads Step (atInstr m base (k + 1) (x.set rd (imm.signExtend 32))) Q) :
    Leads Step (atInstr m base k x) Q := by
  refine leads_result hc hi rfl ?_
  have hv : ImmOp.eval (x.get x0) (imm.signExtend 32) .addi = imm.signExtend 32 := BitVec.zero_add _
  rwa [hv]

theorem leads_branch (hc : HasCode m base code) {op : BranchOp} {rs1 rs2 : BitVec 5}
    {imm : BitVec 12} (hi : code[k]? = some (.branch op rs1 rs2 imm)) (k' : Nat)
    (hk : codeAddr 0#32 k + (imm ++ 0#1).signExtend 32 = codeAddr 0#32 k')
    (taken : op.holds (x.get rs1) (x.get rs2) = true → Leads Step (atInstr m base k' x) Q)
    (next : op.holds (x.get rs1) (x.get rs2) = false → Leads Step (atInstr m base (k + 1) x) Q) :
    Leads Step (atInstr m base k x) Q := by
  refine .step (hc.step hi) ?_
  have hexec : exec (atInstr m base k x) (.branch op rs1 rs2 imm) =
      if op.holds (x.get rs1) (x.get rs2) then atInstr m base k' x else atInstr m base (k + 1) x := by
    rw [atInstr, atInstr, atInstr, ← codeAddr_add_of_zero base hk, ← codeAddr_add base k 1, exec]
    exact (apply_ite (fun pc => (⟨pc, x, m⟩ : Arch)) _ _ _)
  rw [hexec]
  cases h : op.holds (x.get rs1) (x.get rs2) with
  | true => exact taken h
  | false => exact next h

theorem leads_jal (hc : HasCode m base code) {rd : BitVec 5} {imm : BitVec 20}
    (hi : code[k]? = some (.jal rd imm)) (k' : Nat)
    (hk : codeAddr 0#32 k + (imm ++ 0#1).signExtend 32 = codeAddr 0#32 k')
    (h : Leads Step (atInstr m base k' (x.set rd (codeAddr base (k + 1)))) Q) :
    Leads Step (atInstr m base k x) Q := by
  refine .step (hc.step hi) ?_
  rw [atInstr, ← codeAddr_add_of_zero base hk, ← codeAddr_add base k 1] at h
  exact h

theorem leads_jr (hc : HasCode m base code) {rs : BitVec 5}
    (hi : code[k]? = some (.jalr x0 rs 0#12)) (hrs : rs ≠ x0)
    (h : Leads Step ⟨x rs &&& ~~~1#32, x, m⟩ Q) : Leads Step (atInstr m base k x) Q := by
  refine .step (hc.step hi) ?_
  have hexec : exec (atInstr m base k x) (.jalr x0 rs 0#12) = ⟨x rs &&& ~~~1#32, x, m⟩ := by
    refine Arch.ext ?_ (funext fun r => if_neg fun hr => hr.2 rfl) rfl
    show (x.get rs + (0#12).signExtend 32) &&& ~~~1#32 = _
    rw [x.get_of_ne hrs]
    exact congrArg (· &&& _) (BitVec.add_zero _)
  rwa [hexec]

end

/-- The routine called in `s` has returned to the address in `ra`, without writing memory or a
register outside `rs`. -/
structure Returned (rs : List (BitVec 5)) (s t : Arch) : Prop where
  pc : t.pc = s.x ra &&& ~~~1#32
  mem : t.mem = s.mem
  frame : Frame rs s.x t.x

end MyCpu.Rv32.Isa
