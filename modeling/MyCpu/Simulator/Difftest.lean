import MyCpu.Rv32.Memory
import Mathlib.Data.List.FinRange
import Mathlib.Tactic.SplitIfs

/-!
# Difftest

`simulator/src/difftest/difftest.c`: after every committed instruction the reference executes one
instruction and its state is compared with the simulated CPU's. The reference is a shared library
behind function pointers, so it is a parameter here; `display_diff_error` ends the program.

* `checkregs`, `checkcsrs` : the two comparisons;
* `difftestStep` : one step, an error when it ends in `display_diff_error`;
* `reports_iff` : no CSR is ever compared, so a step reports what it should exactly when no
  compared CSR differs or the PC or a register differs with it.
-/

namespace MyCpu.Simulator

open Rv32 (Word)

/-! ## Checks in sequence

A check is an `Except` action without a result; a sequence of them fails when one of them does. -/

section Checks

variable {ε α β : Type}

/-- The action ends in an error. -/
def Fails (x : Except ε α) : Prop := ∃ e, x = .error e

theorem fails_throw (e : ε) : Fails (throw e : Except ε α) := ⟨e, rfl⟩

theorem not_fails_pure (a : α) : ¬Fails (pure a : Except ε α) := by
  rintro ⟨e, h⟩
  cases h

theorem fails_bind {x : Except ε Unit} {y : Except ε α} :
    Fails (x >>= fun _ => y) ↔ Fails x ∨ Fails y := by
  cases x with
  | error e => exact iff_of_true (fails_throw e) (Or.inl (fails_throw e))
  | ok u =>
      have hx : ¬Fails (Except.ok u : Except ε Unit) := not_fails_pure u
      rw [or_iff_right hx]
      rfl

theorem fails_forM {f : α → Except ε Unit} (l : List α) : Fails (l.forM f) ↔ ∃ a ∈ l, Fails (f a) := by
  induction l with
  | nil => exact iff_of_false (not_fails_pure ()) fun ⟨a, ha, _⟩ => List.not_mem_nil ha
  | cons a l ih =>
      show Fails (f a >>= fun _ => l.forM f) ↔ _
      rw [fails_bind, ih]
      simp only [List.mem_cons, exists_eq_or_imp]

/-- The check that ends in `e` when `p` holds. -/
def failIf (p : Prop) [Decidable p] (e : ε) : Except ε Unit := if p then throw e else pure ()

theorem fails_failIf {p : Prop} [Decidable p] (e : ε) : Fails (failIf p e) ↔ p := by
  unfold failIf
  split_ifs with h
  · exact iff_of_true (fails_throw e) h
  · exact iff_of_false (not_fails_pure ()) h

end Checks

/-! ## States and commits -/

/-- `CPU_state`. -/
structure CpuState where
  gpr : Fin 32 → Word
  pc : Word
  csr : BitVec 12 → Word

/-- `commit_t`. -/
structure Commit where
  pc : Word
  nextPc : Word
  instr : Word
  memAddr : Word
  memRdata : Word
  memWdata : Word

def regs : List String :=
  ["$0", "ra", "sp", "gp", "tp", "t0", "t1", "t2", "s0", "s1", "a0", "a1", "a2", "a3", "a4", "a5",
   "a6", "a7", "s2", "s3", "s4", "s5", "s6", "s7", "s8", "s9", "s10", "s11", "t3", "t4", "t5", "t6"]

def regName (idx : Fin 32) : String := regs.getD idx ""

/-- `csr_map`: the CSRs with their names. -/
def csrMap : List (BitVec 12 × String) :=
  [(0xc00#12, "cycle"), (0xc01#12, "timer"), (0xc02#12, "instret"),
   (0x100#12, "sstatus"), (0x104#12, "sie"), (0x105#12, "stvec"), (0x106#12, "scounteren"),
   (0x140#12, "sscratch"), (0x141#12, "sepc"), (0x142#12, "scause"), (0x143#12, "stval"),
   (0x144#12, "sip"), (0x180#12, "satp"),
   (0xf11#12, "mvendorid"), (0xf12#12, "marchid"), (0xf13#12, "mimpid"), (0xf14#12, "mhartid"),
   (0xf15#12, "mconfigptr"),
   (0x300#12, "mstatus"), (0x301#12, "misa"), (0x302#12, "medeleg"), (0x303#12, "mideleg"),
   (0x304#12, "mie"), (0x305#12, "mtvec"), (0x306#12, "mcounteren"),
   (0x340#12, "mscratch"), (0x341#12, "mepc"), (0x342#12, "mcause"), (0x343#12, "mtval"),
   (0x344#12, "mip"), (0xb00#12, "mcycle"), (0xb02#12, "minstret"),
   (0x7a0#12, "tselect"), (0x7a1#12, "tdata1"),
   (0x3a0#12, "pmpcfg0"), (0x3a1#12, "pmpcfg1"), (0x3a2#12, "pmpcfg2"), (0x3a3#12, "pmpcfg3"),
   (0x3b0#12, "pmpaddr0"), (0x3b1#12, "pmpaddr1"), (0x3b2#12, "pmpaddr2"), (0x3b3#12, "pmpaddr3"),
   (0x3b4#12, "pmpaddr4"), (0x3b5#12, "pmpaddr5"), (0x3b6#12, "pmpaddr6"), (0x3b7#12, "pmpaddr7"),
   (0x3b8#12, "pmpaddr8"), (0x3b9#12, "pmpaddr9"), (0x3ba#12, "pmpaddr10"), (0x3bb#12, "pmpaddr11"),
   (0x3bc#12, "pmpaddr12"), (0x3bd#12, "pmpaddr13"), (0x3be#12, "pmpaddr14"), (0x3bf#12, "pmpaddr15")]

/-! ## Special instructions -/

def getOpcode (i : Word) : Word := i &&& 0x7f#32
def getFunc3 (i : Word) : Word := (i >>> 12) &&& 0x7#32
def getCsrId (i : Word) : Word := (i >>> 20) &&& 0xfff#32

abbrev opLoad : Word := 0b0000011#32
abbrev opStore : Word := 0b0100011#32
abbrev opSystem : Word := 0b1110011#32

abbrev cycle : Word := 0xc00#32
abbrev timer : Word := 0xc01#32
abbrev instret : Word := 0xc02#32

def isMmioAddress (addr : BitVec 64) : Bool := addr.ult 0x80000000#64 && !addr.ult 0x10000000#64

/-- Instructions whose effect the reference cannot reproduce: reads of `timer` and device accesses. -/
def isSpecialInstr (commit : Commit) : Bool :=
  let opcode := getOpcode commit.instr
  if opcode = opSystem ∧ getFunc3 commit.instr ≠ 0#32 then getCsrId commit.instr == timer
  else if opcode = opLoad ∨ opcode = opStore then isMmioAddress (commit.memAddr.setWidth 64)
  else false

/-! ## The comparisons -/

/-- The arguments `display_diff_error` ends the program with. -/
structure DiffError where
  ref : CpuState
  pc : Word
  nextPc : Word
  msg : String

/-- `%0*x`. -/
def hex (width : Nat) (n : Nat) : String :=
  let digits := Nat.toDigits 16 n
  String.ofList (List.replicate (width - digits.length) '0' ++ digits)

def pcMessage : String := "PC 出现不一致"

def gprMessage (i : Fin 32) : String := "寄存器 [" ++ regName i ++ "] 数值不一致"

def csrMessage (id : BitVec 12) (name : String) (ref dut : Word) : String :=
  "CSR [" ++ name ++ "] (0x" ++ hex 3 id.toNat ++ ") 数值不一致! \t[REF]=0x" ++ hex 8 ref.toNat ++
    ", [DUT]=0x" ++ hex 8 dut.toNat

/-- The CSRs `checkcsrs` passes over. The third disjunct is the enumeration constant, not a
comparison with it. -/
def csrSkipped (id : BitVec 12) : Bool :=
  id.setWidth 32 == cycle || id.setWidth 32 == timer || instret != 0#32

def checkcsrs (cpu ref : CpuState) (pc nextPc : Word) : Except DiffError Unit :=
  csrMap.forM fun (id, name) =>
    if csrSkipped id then pure ()
    else failIf (ref.csr id ≠ cpu.csr id)
      ⟨ref, pc, nextPc, csrMessage id name (ref.csr id) (cpu.csr id)⟩

def checkregs (cpu ref : CpuState) (pc nextPc : Word) : Except DiffError Unit := do
  failIf (nextPc ≠ ref.pc) ⟨ref, pc, nextPc, pcMessage⟩
  (List.finRange 32).forM fun i =>
    failIf (ref.gpr i ≠ cpu.gpr i) ⟨ref, pc, nextPc, gprMessage i⟩

/-! ## One step -/

/-- The reference, behind its function pointers. -/
structure Reference (ρ : Type) where
  exec : BitVec 64 → ρ → ρ
  regcpyToRef : CpuState → ρ → ρ
  regcpyToDut : ρ → CpuState

/-- The globals of the simulator that a step reads, and the reference's own state. -/
structure World (ρ : Type) where
  cpu : CpuState
  ref : ρ
  simInstrCount : BitVec 64

variable {ρ : Type}

def checkInstTrigger (traceStart simInstrCount : BitVec 64) : Bool := traceStart.ule simInstrCount

/-- `difftest_step`: the globals afterwards, or the difference that ended the program. -/
def difftestStep (R : Reference ρ) (traceStart : BitVec 64) (w : World ρ) (commit : Commit) :
    Except DiffError (World ρ) := do
  let executed := { w with ref := R.exec 1#64 w.ref }
  let synced :=
    if isSpecialInstr commit then
      let cpu := { executed.cpu with pc := commit.nextPc }
      { executed with cpu := cpu, ref := R.regcpyToRef cpu executed.ref }
    else executed
  let ref := R.regcpyToDut synced.ref
  if checkInstTrigger traceStart synced.simInstrCount then
    checkregs synced.cpu ref commit.pc commit.nextPc
    checkcsrs synced.cpu ref commit.pc commit.nextPc
  return synced

/-! ## What a step reports -/

/-- What a step of an ordinary instruction compares the simulated CPU with. -/
def refAfter (R : Reference ρ) (w : World ρ) : CpuState := R.regcpyToDut (R.exec 1#64 w.ref)

/-- The committed PC or a register differs. -/
def RegsDiffer (cpu ref : CpuState) (nextPc : Word) : Prop :=
  nextPc ≠ ref.pc ∨ ∃ i, ref.gpr i ≠ cpu.gpr i

/-- A CSR of `csr_map` other than `cycle`, `timer` and `instret` differs. -/
def CsrsDiffer (cpu ref : CpuState) : Prop :=
  ∃ e ∈ csrMap, e.2 ∉ ["cycle", "timer", "instret"] ∧ ref.csr e.1 ≠ cpu.csr e.1

/-- The step ends in `display_diff_error` exactly when the two states differ. -/
def Reports (R : Reference ρ) (traceStart : BitVec 64) (w : World ρ) (commit : Commit) : Prop :=
  Fails (difftestStep R traceStart w commit) ↔
    RegsDiffer w.cpu (refAfter R w) commit.nextPc ∨ CsrsDiffer w.cpu (refAfter R w)

theorem fails_checkregs (cpu ref : CpuState) (pc nextPc : Word) :
    Fails (checkregs cpu ref pc nextPc) ↔ RegsDiffer cpu ref nextPc := by
  unfold checkregs RegsDiffer
  rw [fails_bind, fails_failIf, fails_forM]
  simp only [fails_failIf, List.mem_finRange, true_and]

theorem fails_checkcsrs (cpu ref : CpuState) (pc nextPc : Word) :
    Fails (checkcsrs cpu ref pc nextPc) ↔
      ∃ e ∈ csrMap, csrSkipped e.1 = false ∧ ref.csr e.1 ≠ cpu.csr e.1 := by
  unfold checkcsrs
  rw [fails_forM]
  apply exists_congr
  rintro ⟨id, name⟩
  apply and_congr_right
  intro _
  show Fails (if csrSkipped id = true then _ else _) ↔ csrSkipped id = false ∧ ref.csr id ≠ cpu.csr id
  cases hs : csrSkipped id with
  | true =>
      rw [if_pos rfl]
      exact iff_of_false (not_fails_pure ()) fun h => Bool.false_ne_true h.1.symm
  | false => rw [if_neg Bool.false_ne_true, fails_failIf, and_iff_right rfl]

/-- `instret` is not 0. -/
theorem csrSkipped_eq_true (id : BitVec 12) : csrSkipped id = true := Bool.or_true _

/-- No CSR is compared. -/
theorem not_fails_checkcsrs (cpu ref : CpuState) (pc nextPc : Word) :
    ¬Fails (checkcsrs cpu ref pc nextPc) := by
  rw [fails_checkcsrs]
  rintro ⟨e, -, hskip, -⟩
  rw [csrSkipped_eq_true] at hskip
  exact Bool.false_ne_true hskip.symm

/-- A step of an ordinary instruction fails exactly when the PC or a register differs. -/
theorem fails_difftestStep {R : Reference ρ} {traceStart : BitVec 64} {w : World ρ} {commit : Commit}
    (hs : isSpecialInstr commit = false) (ht : checkInstTrigger traceStart w.simInstrCount = true) :
    Fails (difftestStep R traceStart w commit) ↔ RegsDiffer w.cpu (refAfter R w) commit.nextPc := by
  unfold difftestStep
  simp only [hs, ht, if_true, Bool.false_eq_true, if_false]
  rw [fails_bind, fails_checkregs, fails_bind]
  exact or_iff_left fun h => h.elim (not_fails_checkcsrs _ _ _ _) (not_fails_pure _)

theorem reports_iff (R : Reference ρ) (traceStart : BitVec 64) (w : World ρ) (commit : Commit)
    (hs : isSpecialInstr commit = false) (ht : checkInstTrigger traceStart w.simInstrCount = true) :
    Reports R traceStart w commit ↔
      (CsrsDiffer w.cpu (refAfter R w) → RegsDiffer w.cpu (refAfter R w) commit.nextPc) := by
  unfold Reports
  rw [fails_difftestStep hs ht]
  constructor
  · intro h hc
    exact h.mpr (Or.inr hc)
  · intro h
    exact ⟨Or.inl, fun h' => h'.elim id h⟩

/-- A state that is 0 everywhere but in `mstatus`. -/
def mstatusState (v : Word) : CpuState where
  gpr _ := 0#32
  pc := 0x80000004#32
  csr id := if id = 0x300#12 then v else 0#32

/-- A reference that stays where it is. -/
def idleReference : Reference CpuState where
  exec _ ref := ref
  regcpyToRef cpu _ := cpu
  regcpyToDut ref := ref

def nopCommit : Commit := ⟨0x80000000#32, 0x80000004#32, 0x13#32, 0#32, 0#32, 0#32⟩

/-- The simulated CPU has 8 in `mstatus` where the reference has 0: nothing is reported. -/
theorem not_reports_mstatus :
    ¬Reports idleReference 0#64 ⟨mstatusState 8#32, mstatusState 0#32, 1#64⟩ nopCommit := by
  unfold Reports
  rw [fails_difftestStep (by decide) (by decide)]
  intro h
  have hcsr : CsrsDiffer (mstatusState 8#32) (mstatusState 0#32) :=
    ⟨(0x300#12, "mstatus"), by decide, by decide, by decide⟩
  rcases h.mpr (Or.inr hcsr) with hpc | ⟨i, hi⟩
  · exact hpc rfl
  · exact hi rfl

theorem reports_iff_mstatus :
    Reports idleReference 0#64 ⟨mstatusState 8#32, mstatusState 8#32, 1#64⟩ nopCommit := by
  apply (reports_iff idleReference 0#64 ⟨mstatusState 8#32, mstatusState 8#32, 1#64⟩ nopCommit
    (by decide) (by decide)).mpr
  rintro ⟨e, -, -, he⟩
  exact absurd rfl he

end MyCpu.Simulator
