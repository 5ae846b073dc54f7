import MyCpu.Rv32.Assembly
import MyCpu.Rv32.Csr
import Mathlib.Tactic.SplitIfs

/-!
# Trap entry and exit in software

`trap.S` and `__am_irq_handle` of `abstract-machine/am/src/riscv/npc`. The registers are saved in 36 words
below the stack pointer and taken back from there; the handler in between is compiled code, of which only
what it leaves in the stack pointer and in these words is of any account. `Context` is the type in which
the handler sees the words: its members are not in the order of `trap.S`.

* `TrapLine`, `trapEntry`, `trapExit` : the lines before and after the call;
* `amIrqHandle`, `contextAt` : the call, and the words as a `Context`;
* `asm_trap_restores` : a handler that keeps the words goes unnoticed;
* `asm_trap_context` : what the handler sees in a member, and what a change of it does.
-/

namespace MyCpu.Runtime

open Rv32 Isa
open CsrPipe (CsrAddr csrMcause csrMstatus csrMepc)

abbrev sp : BitVec 5 := 2#5
abbrev t1 : BitVec 5 := 6#5
abbrev t2 : BitVec 5 := 7#5

/-! ## The lines -/

inductive TrapLine
  | instr (i : Instr)
  | csrr (rd : BitVec 5) (csr : CsrAddr)
  | csrw (csr : CsrAddr) (rs : BitVec 5)

/-- The architectural state and the CSRs. -/
structure Hart where
  arch : Arch
  csr : CsrAddr → Word

def Hart.exec (s : Hart) : TrapLine → Hart
  | .instr i => { s with arch := Isa.exec s.arch i }
  | .csrr rd csr => { s with arch := s.arch.writeReg rd (s.csr csr) (s.arch.pc + 4#32) }
  | .csrw csr rs =>
      { arch := { s.arch with pc := s.arch.pc + 4#32 }
        csr := Function.update s.csr csr (s.arch.get rs) }

def Hart.run (s : Hart) (ls : List TrapLine) : Hart := ls.foldl Hart.exec s

/-- `REGS`: all registers but `x0` and the stack pointer, each with the word it is saved in. -/
def regs : List (BitVec 5 × Nat) :=
  [1, 3, 4, 5, 6, 7, 8, 9, 10, 11, 12, 13, 14, 15, 16, 17, 18, 19, 20, 21, 22, 23, 24, 25, 26, 27, 28, 29,
    30, 31].map fun n => (BitVec.ofNat 5 n, n)

namespace TrapLine

/-- `sw rs, 4*k(sp)`. -/
def store (rs : BitVec 5) (k : Nat) : TrapLine := .instr (.store .sw sp rs (BitVec.ofNat 12 (4 * k)))

/-- `lw rd, 4*k(sp)`. -/
def load (rd : BitVec 5) (k : Nat) : TrapLine := .instr (.load .lw rd sp (BitVec.ofNat 12 (4 * k)))

def addi (rd rs : BitVec 5) (imm : Int) : TrapLine := .instr (.opImm .addi rd rs (BitVec.ofInt 12 imm))

def stores (ps : List (BitVec 5 × Nat)) : List TrapLine := ps.map fun p => store p.1 p.2

def loads (ps : List (BitVec 5 × Nat)) : List TrapLine := ps.map fun p => load p.1 p.2

end TrapLine

section

open TrapLine

def saveCsrs : List TrapLine :=
  [csrr t0 csrMcause, csrr t1 csrMstatus, csrr t2 csrMepc] ++ stores [(t0, 32), (t1, 33), (t2, 34)]

def restoreCsrs : List TrapLine :=
  loads [(t1, 33), (t2, 34)] ++ [csrw csrMstatus t1, csrw csrMepc t2]

/-- `__am_asm_trap`, up to the call. -/
def trapEntry : List TrapLine := [addi sp sp (-144)] ++ (stores regs ++ (saveCsrs ++ [addi a0 sp 0]))

/-- `__am_asm_trap`, from the return of the call to its `mret`. -/
def trapExit : List TrapLine := restoreCsrs ++ (loads regs ++ [addi sp sp 144])

end

/-! ## The call -/

inductive EventKind
  | null | yield | syscall | pagefault | error | irqTimer | irqIodev

structure Event where
  event : EventKind
  cause : Word
  ref : Word
  msg : Word

/-- The word number `k` from `base` on. -/
def slotAddr (base : Word) (k : Nat) : Word := base + BitVec.ofNat 32 (4 * k)

def slot (m : Mem) (base : Word) (k : Nat) : Word := LoadOp.value m (slotAddr base k) .lw

/-- `struct Context`. -/
structure Context where
  mepc : Word
  mcause : Word
  gpr : Fin 32 → Word
  mstatus : Word
  pdir : Word

def contextAt (m : Mem) (c : Word) : Context where
  mepc := slot m c 0
  mcause := slot m c 1
  gpr i := slot m c (2 + i)
  mstatus := slot m c 34
  pdir := slot m c 35

/-- What is returned, and the memory; nothing if the assertion fails. -/
def amIrqHandle (userHandler : Option (Event → Word → Mem → Word × Mem)) (c : Word) (m : Mem) :
    Option (Word × Mem) :=
  match userHandler with
  | none => some (c, m)
  | some h =>
      let ev := match (contextAt m c).mcause with
        | _ => ⟨.error, 0#32, 0#32, 0#32⟩
      let (c, m) := h ev c m
      if c ≠ 0#32 then some (c, m) else none

/-! ## Words in memory -/

section

variable {s : Arch} {base v pc : Word} {j k : Nat}

theorem writeMem_at (s : Arch) (a v pc : Word) {i : Nat} (hi : i < 4) :
    (s.writeMem a 4 v pc).mem (a + BitVec.ofNat 32 i) = v.extractLsb' (8 * i) 8 := by
  have hsub : (a + BitVec.ofNat 32 i - a).toNat = i := by
    rw [BitVec.add_comm, BitVec.add_sub_cancel, BitVec.toNat_ofNat]
    omega
  exact (if_pos (by rw [hsub]; exact hi)).trans (by rw [hsub])

theorem writeMem_of_le (s : Arch) {a x : Word} (v pc : Word) (h : 4 ≤ (x - a).toNat) :
    (s.writeMem a 4 v pc).mem x = s.mem x := if_neg (Nat.not_lt.mpr h)

theorem append_bytes (v : Word) : v.extractLsb' 24 8 ++ (v.extractLsb' 16 8 ++
    (v.extractLsb' 8 8 ++ v.extractLsb' 0 8)) = v := by
  refine BitVec.eq_of_getLsbD_eq fun i hi => ?_
  simp only [BitVec.getLsbD_append, BitVec.getLsbD_extractLsb']
  grind

theorem slot_writeMem_self : slot (s.writeMem (slotAddr base k) 4 v pc).mem base k = v := by
  have h0 := writeMem_at s (slotAddr base k) v pc (i := 0) (by decide)
  have h1 := writeMem_at s (slotAddr base k) v pc (i := 1) (by decide)
  have h2 := writeMem_at s (slotAddr base k) v pc (i := 2) (by decide)
  have h3 := writeMem_at s (slotAddr base k) v pc (i := 3) (by decide)
  rw [BitVec.add_zero] at h0
  rw [slot, LoadOp.value, h0, h1, h2, h3]
  exact append_bytes v

/-- The distance of a byte of word `k` from word `j`. -/
theorem toNat_slotAddr_sub (base : Word) (hj : j < 36) (hk : k < 36) (hjk : j ≠ k) {i : Nat} (hi : i < 4) :
    4 ≤ (slotAddr base k + BitVec.ofNat 32 i - slotAddr base j).toNat := by
  have hsub : slotAddr base k + BitVec.ofNat 32 i - slotAddr base j =
      BitVec.ofNat 32 (4 * k + i) - BitVec.ofNat 32 (4 * j) := by
    rw [slotAddr, slotAddr, BitVec.ofNat_add]
    grind
  rw [hsub, BitVec.toNat_sub, BitVec.toNat_ofNat, BitVec.toNat_ofNat]
  omega

theorem slot_writeMem_of_ne (hj : j < 36) (hk : k < 36) (hjk : j ≠ k) :
    slot (s.writeMem (slotAddr base j) 4 v pc).mem base k = slot s.mem base k := by
  have hbyte : ∀ i < 4, (s.writeMem (slotAddr base j) 4 v pc).mem (slotAddr base k + BitVec.ofNat 32 i) =
      s.mem (slotAddr base k + BitVec.ofNat 32 i) := fun i hi =>
    writeMem_of_le s v pc (toNat_slotAddr_sub base hj hk hjk hi)
  have h0 := hbyte 0 (by decide)
  rw [BitVec.add_zero] at h0
  rw [slot, LoadOp.value, h0, hbyte 1 (by decide), hbyte 2 (by decide), hbyte 3 (by decide)]
  rfl

theorem writeMem_of_above (hk : k < 36) {x : Word} (hx : 144 ≤ (x - base).toNat) :
    (s.writeMem (slotAddr base k) 4 v pc).mem x = s.mem x := by
  refine writeMem_of_le s v pc ?_
  have hsub : x - slotAddr base k = x - base - BitVec.ofNat 32 (4 * k) := by
    rw [slotAddr]
    grind
  rw [hsub, BitVec.toNat_sub, BitVec.toNat_ofNat]
  omega

end

/-! ## The lines one by one -/

theorem signExtend_offset {k : Nat} (hk : k < 36) :
    (BitVec.ofNat 12 (4 * k)).signExtend 32 = BitVec.ofNat 32 (4 * k) := by
  have hmsb : (BitVec.ofNat 12 (4 * k)).msb = false := by
    rw [BitVec.msb_eq_decide, BitVec.toNat_ofNat]
    exact decide_eq_false (by omega)
  rw [BitVec.signExtend_eq_setWidth_of_msb_false hmsb]
  refine BitVec.eq_of_toNat_eq ?_
  rw [BitVec.toNat_setWidth, BitVec.toNat_ofNat, BitVec.toNat_ofNat]
  omega

theorem exec_store (s : Hart) {rs : BitVec 5} (hrs : rs ≠ 0#5) {k : Nat} (hk : k < 36) :
    s.exec (.store rs k) =
      ⟨s.arch.writeMem (slotAddr (s.arch.x sp) k) 4 (s.arch.x rs) (s.arch.pc + 4#32), s.csr⟩ := by
  have hval : s.arch.get rs = s.arch.x rs := if_neg hrs
  unfold TrapLine.store Hart.exec Isa.exec
  dsimp only
  rw [hval, signExtend_offset hk]
  rfl

theorem exec_load (s : Hart) (rd : BitVec 5) {k : Nat} (hk : k < 36) :
    s.exec (.load rd k) =
      ⟨s.arch.writeReg rd (slot s.arch.mem (s.arch.x sp) k) (s.arch.pc + 4#32), s.csr⟩ := by
  unfold TrapLine.load Hart.exec Isa.exec
  dsimp only
  rw [signExtend_offset hk]
  rfl

theorem exec_addi (s : Hart) (rd : BitVec 5) {rs : BitVec 5} (hrs : rs ≠ 0#5) (imm : Int) :
    s.exec (.addi rd rs imm) =
      ⟨s.arch.writeReg rd (s.arch.x rs + (BitVec.ofInt 12 imm).signExtend 32) (s.arch.pc + 4#32),
        s.csr⟩ := by
  have hval : s.arch.get rs = s.arch.x rs := if_neg hrs
  unfold TrapLine.addi Hart.exec Isa.exec
  dsimp only
  rw [hval]
  rfl

theorem exec_csrw (s : Hart) (csr : CsrAddr) {rs : BitVec 5} (hrs : rs ≠ 0#5) :
    s.exec (.csrw csr rs) =
      ⟨{ s.arch with pc := s.arch.pc + 4#32 }, Function.update s.csr csr (s.arch.x rs)⟩ := by
  have hval : s.arch.get rs = s.arch.x rs := if_neg hrs
  unfold Hart.exec
  dsimp only
  rw [hval]

theorem writeReg_self (s : Arch) {rd : BitVec 5} (h : rd ≠ 0#5) (v pc : Word) :
    (s.writeReg rd v pc).x rd = v := if_pos ⟨rfl, h⟩

theorem writeReg_of_ne (s : Arch) {rd r : BitVec 5} (h : r ≠ rd) (v pc : Word) :
    (s.writeReg rd v pc).x r = s.x r := if_neg fun hc => h hc.1

theorem run_append (s : Hart) (as bs : List TrapLine) : s.run (as ++ bs) = (s.run as).run bs :=
  List.foldl_append

/-! ## Words that are kept -/

open TrapLine (stores loads)

/-- Of the frame at `f` and the memory above, only the words `ks` of the frame may differ. -/
structure Outside (f : Word) (ks : List Nat) (m m' : Mem) : Prop where
  words : ∀ k < 36, k ∉ ks → slot m' f k = slot m f k
  above : ∀ x, 144 ≤ (x - f).toNat → m' x = m x

theorem Outside.refl (f : Word) (m : Mem) : Outside f [] m m := ⟨fun _ _ _ => rfl, fun _ _ => rfl⟩

theorem Outside.trans {f : Word} {ks ks' : List Nat} {m m' m'' : Mem} (h : Outside f ks m m')
    (h' : Outside f ks' m' m'') : Outside f (ks ++ ks') m m'' where
  words k hk hnot := by
    rw [List.mem_append, not_or] at hnot
    rw [h'.words k hk hnot.2, h.words k hk hnot.1]
  above x hx := by rw [h'.above x hx, h.above x hx]

theorem outside_store (s : Hart) {rs : BitVec 5} (hrs : rs ≠ 0#5) {k : Nat} (hk : k < 36) :
    Outside (s.arch.x sp) [k] s.arch.mem (s.exec (.store rs k)).arch.mem := by
  rw [exec_store s hrs hk]
  refine ⟨fun j hj hjk => ?_, fun x hx => writeMem_of_above hk hx⟩
  exact slot_writeMem_of_ne hk hj fun h => hjk (List.mem_singleton.mpr h.symm)

/-- Some registers stored in words of the frame. -/
theorem run_stores (ps : List (BitVec 5 × Nat)) (h : ∀ p ∈ ps, p.1 ≠ 0#5 ∧ p.2 < 36)
    (hps : (ps.map Prod.snd).Nodup) (s : Hart) :
    (s.run (stores ps)).arch.x = s.arch.x ∧ (s.run (stores ps)).csr = s.csr ∧
      (∀ p ∈ ps, slot (s.run (stores ps)).arch.mem (s.arch.x sp) p.2 = s.arch.x p.1) ∧
      Outside (s.arch.x sp) (ps.map Prod.snd) s.arch.mem (s.run (stores ps)).arch.mem := by
  induction ps generalizing s with
  | nil => exact ⟨rfl, rfl, nofun, Outside.refl _ _⟩
  | cons p ps ih =>
      obtain ⟨hp0, hp⟩ := h p List.mem_cons_self
      obtain ⟨hnot, hnd⟩ := List.nodup_cons.mp hps
      have hout := outside_store s hp0 hp
      have hself : slot (s.exec (.store p.1 p.2)).arch.mem (s.arch.x sp) p.2 = s.arch.x p.1 := by
        rw [exec_store s hp0 hp]
        exact slot_writeMem_self
      have hx₁ : (s.exec (.store p.1 p.2)).arch.x = s.arch.x := by rw [exec_store s hp0 hp]; rfl
      have hcsr₁ : (s.exec (.store p.1 p.2)).csr = s.csr := by rw [exec_store s hp0 hp]
      obtain ⟨hx, hcsr, hslot, hrest⟩ := ih (fun q hq => h q (List.mem_cons_of_mem p hq)) hnd
        (s.exec (.store p.1 p.2))
      rw [hx₁] at hx hslot hrest
      refine ⟨hx, hcsr.trans hcsr₁, List.forall_mem_cons.mpr ⟨?_, hslot⟩, hout.trans hrest⟩
      exact (hrest.words _ hp hnot).trans hself

/-- Some registers loaded from words of the frame. -/
theorem run_loads (ps : List (BitVec 5 × Nat)) (h : ∀ p ∈ ps, p.1 ≠ 0#5 ∧ p.1 ≠ sp ∧ p.2 < 36)
    (hps : (ps.map Prod.fst).Nodup) (t : Hart) :
    (t.run (loads ps)).arch.mem = t.arch.mem ∧ (t.run (loads ps)).csr = t.csr ∧
      (∀ p ∈ ps, (t.run (loads ps)).arch.x p.1 = slot t.arch.mem (t.arch.x sp) p.2) ∧
      ∀ r ∉ ps.map Prod.fst, (t.run (loads ps)).arch.x r = t.arch.x r := by
  induction ps generalizing t with
  | nil => exact ⟨rfl, rfl, nofun, fun _ _ => rfl⟩
  | cons p ps ih =>
      obtain ⟨hp0, hpsp, hp⟩ := h p List.mem_cons_self
      obtain ⟨hnot, hnd⟩ := List.nodup_cons.mp hps
      have hmem₁ : (t.exec (.load p.1 p.2)).arch.mem = t.arch.mem := by rw [exec_load t p.1 hp]; rfl
      have hcsr₁ : (t.exec (.load p.1 p.2)).csr = t.csr := by rw [exec_load t p.1 hp]
      have hself : (t.exec (.load p.1 p.2)).arch.x p.1 = slot t.arch.mem (t.arch.x sp) p.2 := by
        rw [exec_load t p.1 hp]
        exact writeReg_self _ hp0 _ _
      have hne : ∀ r, r ≠ p.1 → (t.exec (.load p.1 p.2)).arch.x r = t.arch.x r := by
        intro r hr
        rw [exec_load t p.1 hp]
        exact writeReg_of_ne _ hr _ _
      obtain ⟨hmem, hcsr, hgpr, hrest⟩ := ih (fun q hq => h q (List.mem_cons_of_mem p hq)) hnd
        (t.exec (.load p.1 p.2))
      rw [hmem₁, hne sp hpsp.symm] at hgpr
      refine ⟨hmem.trans hmem₁, hcsr.trans hcsr₁, List.forall_mem_cons.mpr ⟨?_, hgpr⟩, fun r hr => ?_⟩
      · exact (hrest _ hnot).trans hself
      · obtain ⟨hrp, hrps⟩ := not_or.mp (mt List.mem_cons.mpr hr)
        exact (hrest r hrps).trans (hne r hrp)

/-! ## Entry and exit -/

/-- The address of the frame. -/
def frame (s : Hart) : Word := s.arch.x sp - 144#32

/-- The machine `e` at the call, on a trap at `s`. -/
structure Entered (s e : Hart) : Prop where
  sp : e.arch.x sp = frame s
  a0 : e.arch.x a0 = frame s
  csr : e.csr = s.csr
  gpr : ∀ p ∈ regs, slot e.arch.mem (frame s) p.2 = s.arch.x p.1
  mcause : slot e.arch.mem (frame s) 32 = s.csr csrMcause
  mstatus : slot e.arch.mem (frame s) 33 = s.csr csrMstatus
  mepc : slot e.arch.mem (frame s) 34 = s.csr csrMepc
  outside : Outside (frame s) (regs.map Prod.snd ++ [32, 33, 34]) s.arch.mem e.arch.mem

theorem run_saveCsrs (s : Hart) :
    (s.run saveCsrs).arch.x sp = s.arch.x sp ∧ (s.run saveCsrs).csr = s.csr ∧
      slot (s.run saveCsrs).arch.mem (s.arch.x sp) 32 = s.csr csrMcause ∧
      slot (s.run saveCsrs).arch.mem (s.arch.x sp) 33 = s.csr csrMstatus ∧
      slot (s.run saveCsrs).arch.mem (s.arch.x sp) 34 = s.csr csrMepc ∧
      Outside (s.arch.x sp) [32, 33, 34] s.arch.mem (s.run saveCsrs).arch.mem := by
  rw [saveCsrs, run_append]
  obtain ⟨u, hu⟩ : ∃ u, s.run [.csrr t0 csrMcause, .csrr t1 csrMstatus, .csrr t2 csrMepc] = u := ⟨_, rfl⟩
  have hx : ∀ r, r ≠ t0 → r ≠ t1 → r ≠ t2 → u.arch.x r = s.arch.x r := by
    intro r h0 h1 h2
    rw [← hu]
    exact ((writeReg_of_ne _ h2 _ _).trans (writeReg_of_ne _ h1 _ _)).trans (writeReg_of_ne _ h0 _ _)
  have ht0 : u.arch.x t0 = s.csr csrMcause := by
    rw [← hu]
    exact ((writeReg_of_ne _ (by decide) _ _).trans (writeReg_of_ne _ (by decide) _ _)).trans
      (writeReg_self _ (by decide) _ _)
  have ht1 : u.arch.x t1 = s.csr csrMstatus := by
    rw [← hu]
    exact (writeReg_of_ne _ (by decide) _ _).trans (writeReg_self _ (by decide) _ _)
  have ht2 : u.arch.x t2 = s.csr csrMepc := by
    rw [← hu]
    exact writeReg_self _ (by decide) _ _
  have hmem : u.arch.mem = s.arch.mem := by rw [← hu]; rfl
  have hcsr : u.csr = s.csr := by rw [← hu]; rfl
  rw [hu]
  obtain ⟨hx', hcsr', hslot, hout⟩ := run_stores [(t0, 32), (t1, 33), (t2, 34)] (by decide) (by decide) u
  rw [hx sp (by decide) (by decide) (by decide)] at hslot hout
  rw [hmem] at hout
  refine ⟨?_, hcsr'.trans hcsr, ?_, ?_, ?_, hout⟩
  · rw [hx', hx sp (by decide) (by decide) (by decide)]
  · exact (hslot (t0, 32) (by decide)).trans ht0
  · exact (hslot (t1, 33) (by decide)).trans ht1
  · exact (hslot (t2, 34) (by decide)).trans ht2

theorem entered (s : Hart) : Entered s (s.run trapEntry) := by
  rw [trapEntry, run_append, run_append, run_append]
  obtain ⟨s₁, hs₁⟩ : ∃ s₁, s.run [.addi sp sp (-144)] = s₁ := ⟨_, rfl⟩
  have hrun₁ : s₁ = ⟨s.arch.writeReg sp (frame s) (s.arch.pc + 4#32), s.csr⟩ := by
    rw [← hs₁, frame, BitVec.sub_eq_add_neg]
    exact exec_addi s sp (by decide) (-144)
  have hsp₁ : s₁.arch.x sp = frame s := by rw [hrun₁]; exact writeReg_self _ (by decide) _ _
  have hx₁ : ∀ p ∈ regs, s₁.arch.x p.1 = s.arch.x p.1 := by
    intro p hp
    have hne : p.1 ≠ sp := (by decide : ∀ p ∈ regs, p.1 ≠ sp) p hp
    rw [hrun₁]
    exact writeReg_of_ne _ hne _ _
  have hmem₁ : s₁.arch.mem = s.arch.mem := by rw [hrun₁]; rfl
  have hcsr₁ : s₁.csr = s.csr := by rw [hrun₁]
  rw [hs₁]
  obtain ⟨hx₂, hcsr₂, hslot₂, hout₂⟩ := run_stores regs (by decide) (by decide) s₁
  generalize s₁.run (stores regs) = s₂ at *
  obtain ⟨hsp₃, hcsr₃, hcause, hstatus, hepc, hout₃⟩ := run_saveCsrs s₂
  generalize s₂.run saveCsrs = s₃ at *
  rw [hx₂, hsp₁] at hsp₃ hcause hstatus hepc hout₃
  rw [hsp₁] at hslot₂ hout₂
  rw [hcsr₂, hcsr₁] at hcause hstatus hepc
  have ha0 : s₃.run [.addi a0 sp 0] = ⟨s₃.arch.writeReg a0 (frame s) (s₃.arch.pc + 4#32), s₃.csr⟩ := by
    refine (exec_addi s₃ a0 (by decide) 0).trans ?_
    rw [hsp₃]
    exact congrArg (fun v => (⟨s₃.arch.writeReg a0 v _, s₃.csr⟩ : Hart)) (BitVec.add_zero _)
  rw [ha0]
  refine ⟨(writeReg_of_ne _ (by decide) _ _).trans hsp₃, writeReg_self _ (by decide) _ _,
    hcsr₃.trans (hcsr₂.trans hcsr₁), fun p hp => ?_, hcause, hstatus, hepc, hmem₁ ▸ hout₂.trans hout₃⟩
  have hslot := hout₃.words p.2 ((by decide : ∀ p ∈ regs, p.2 < 36) p hp)
    ((by decide : ∀ p ∈ regs, p.2 ∉ [32, 33, 34]) p hp)
  exact hslot.trans ((hslot₂ p hp).trans (hx₁ p hp))

/-- The machine `u` at the `mret`, when the call has returned in `t`. -/
structure Left (t u : Hart) : Prop where
  sp : u.arch.x sp = t.arch.x sp + 144#32
  mem : u.arch.mem = t.arch.mem
  gpr : ∀ p ∈ regs, u.arch.x p.1 = slot t.arch.mem (t.arch.x Runtime.sp) p.2
  mstatus : u.csr csrMstatus = slot t.arch.mem (t.arch.x Runtime.sp) 33
  mepc : u.csr csrMepc = slot t.arch.mem (t.arch.x Runtime.sp) 34
  csr : ∀ c, c ≠ csrMstatus → c ≠ csrMepc → u.csr c = t.csr c

theorem left (t : Hart) : Left t (t.run trapExit) := by
  rw [trapExit, restoreCsrs, run_append, run_append, run_append]
  obtain ⟨hmem₁, hcsr₁, hgpr₁, hrest₁⟩ := run_loads [(t1, 33), (t2, 34)] (by decide) (by decide) t
  generalize t.run (loads [(t1, 33), (t2, 34)]) = t₁ at *
  obtain ⟨t₂, ht₂⟩ : ∃ t₂, t₁.run [.csrw csrMstatus t1, .csrw csrMepc t2] = t₂ := ⟨_, rfl⟩
  have hrun₂ : t₂ = (t₁.exec (.csrw csrMstatus t1)).exec (.csrw csrMepc t2) := ht₂.symm
  rw [exec_csrw _ _ (by decide), exec_csrw _ _ (by decide)] at hrun₂
  have hx₂ : t₂.arch.x = t₁.arch.x := by rw [hrun₂]
  have hmem₂ : t₂.arch.mem = t₁.arch.mem := by rw [hrun₂]
  have hcsr₂ : t₂.csr = Function.update (Function.update t₁.csr csrMstatus (t₁.arch.x t1)) csrMepc
      (t₁.arch.x t2) := by rw [hrun₂]
  rw [ht₂]
  obtain ⟨hmem₃, hcsr₃, hgpr₃, hrest₃⟩ := run_loads regs (by decide) (by decide) t₂
  generalize t₂.run (loads regs) = t₃ at *
  have hsp₃ : t₃.arch.x sp = t.arch.x sp := by
    rw [hrest₃ sp (by decide), hx₂, hrest₁ sp (by decide)]
  have hrun : t₃.run [.addi sp sp 144] =
      ⟨t₃.arch.writeReg sp (t.arch.x sp + 144#32) (t₃.arch.pc + 4#32), t₃.csr⟩ := by
    have himm : (BitVec.ofInt 12 144).signExtend 32 = 144#32 := by decide
    refine (exec_addi t₃ sp (by decide) 144).trans ?_
    rw [hsp₃, himm]
  have hmem : t₂.arch.mem = t.arch.mem := hmem₂.trans hmem₁
  rw [hrun]
  refine ⟨writeReg_self _ (by decide) _ _, hmem₃.trans hmem, fun p hp => ?_, ?_, ?_, fun c h h' => ?_⟩
  · have hne : p.1 ≠ sp := (by decide : ∀ p ∈ regs, p.1 ≠ sp) p hp
    rw [← hmem, ← hrest₁ sp (by decide), ← hx₂, ← hgpr₃ p hp]
    exact writeReg_of_ne _ hne _ _
  · rw [hcsr₃, hcsr₂, Function.update_of_ne (by decide), Function.update_self]
    exact hgpr₁ (t1, 33) (by decide)
  · rw [hcsr₃, hcsr₂, Function.update_self]
    exact hgpr₁ (t2, 34) (by decide)
  · rw [hcsr₃, hcsr₂, Function.update_of_ne h', Function.update_of_ne h, hcsr₁]

/-! ## Nested traps -/

/-- The frame that was filled on a trap at `s` still holds what is taken back from it. -/
structure Intact (s : Hart) (m : Mem) : Prop where
  gpr : ∀ p ∈ regs, slot m (frame s) p.2 = s.arch.x p.1
  mstatus : slot m (frame s) 33 = s.csr csrMstatus
  mepc : slot m (frame s) 34 = s.csr csrMepc

/-- The words that are taken back from a frame. -/
def takenBack : List Nat := regs.map Prod.snd ++ [33, 34]

theorem lt_of_mem_takenBack : ∀ k ∈ takenBack, k < 36 := by decide +kernel

theorem Intact.congr {s : Hart} {m m' : Mem} (h : Intact s m)
    (hkept : ∀ k ∈ takenBack, slot m' (frame s) k = slot m (frame s) k) : Intact s m' where
  gpr p hp := (hkept _ (List.mem_append_left _ (List.mem_map_of_mem hp))).trans (h.gpr p hp)
  mstatus := (hkept 33 (by decide)).trans h.mstatus
  mepc := (hkept 34 (by decide)).trans h.mepc

theorem Entered.intact {s e : Hart} (h : Entered s e) : Intact s e.arch.mem := ⟨h.gpr, h.mstatus, h.mepc⟩

/-- Frames without a byte in common. -/
def Apart (f f' : Word) : Prop := 144 ≤ (f - f').toNat ∧ 144 ≤ (f' - f).toNat

theorem Apart.le_toNat {f f' : Word} (h : Apart f f') {n : Nat} (hn : n < 144) :
    144 ≤ (f' + BitVec.ofNat 32 n - f).toNat := by
  obtain ⟨h₁, h₂⟩ := h
  have hsub : f' + BitVec.ofNat 32 n - f = f' - f + BitVec.ofNat 32 n := by grind
  have hneg : f - f' = -(f' - f) := by grind
  rw [hneg, BitVec.toNat_neg] at h₁
  rw [hsub, BitVec.toNat_add, BitVec.toNat_ofNat]
  omega

theorem Outside.apart {f f' : Word} {ks : List Nat} {m m' : Mem} (h : Outside f ks m m')
    (hf : Apart f f') {k : Nat} (hk : k < 36) : slot m' f' k = slot m f' k := by
  have hbyte : ∀ i < 4, m' (slotAddr f' k + BitVec.ofNat 32 i) = m (slotAddr f' k + BitVec.ofNat 32 i) := by
    intro i hi
    refine h.above _ ?_
    rw [slotAddr, BitVec.add_assoc, ← BitVec.ofNat_add]
    exact hf.le_toNat (by omega)
  have h0 := hbyte 0 (by decide)
  rw [BitVec.add_zero] at h0
  rw [slot, LoadOp.value, h0, hbyte 1 (by decide), hbyte 2 (by decide), hbyte 3 (by decide)]
  rfl

/-- A machine in which some traps have not yet returned, each with the machine as it was, the last one
first. A handler may do anything but write to their frames; a trap may come at any time, if there is room
for its frame; and the trap that returns is the last one. -/
inductive Move : Hart × List Hart → Hart × List Hart → Prop
  | handler {s t : Hart} {ss : List Hart}
      (hkept : ∀ s' ∈ ss, ∀ k ∈ takenBack, slot t.arch.mem (frame s') k = slot s.arch.mem (frame s') k) :
      Move (s, ss) (t, ss)
  | enter {s : Hart} {ss : List Hart} (hroom : ∀ s' ∈ ss, Apart (frame s) (frame s')) :
      Move (s, ss) (s.run trapEntry, s :: ss)
  | leave {s t : Hart} {ss : List Hart} (hsp : t.arch.x sp = frame s) :
      Move (t, s :: ss) (t.run trapExit, ss)

theorem move_intact {c c' : Hart × List Hart} (h : Move c c')
    (hc : ∀ s ∈ c.2, Intact s c.1.arch.mem) : ∀ s ∈ c'.2, Intact s c'.1.arch.mem := by
  cases h with
  | handler hkept => exact fun s hs => (hc s hs).congr (hkept s hs)
  | enter hroom =>
      refine List.forall_mem_cons.mpr ⟨(entered _).intact, fun s hs => (hc s hs).congr fun k hk => ?_⟩
      exact (entered _).outside.apart (hroom s hs) (lt_of_mem_takenBack k hk)
  | @leave _ t _ _ =>
      intro s hs
      rw [(left t).mem]
      exact hc s (List.mem_cons_of_mem _ hs)

theorem moves_intact {c c' : Hart × List Hart} (h : Relation.ReflTransGen Move c c')
    (hc : ∀ s ∈ c.2, Intact s c.1.arch.mem) : ∀ s ∈ c'.2, Intact s c'.1.arch.mem := by
  induction h with
  | refl => exact hc
  | tail _ hmove ih => exact move_intact hmove ih

/-- What the program that was interrupted at `s` can see of a machine. -/
structure Restored (s u : Hart) : Prop where
  gpr : ∀ r, r ≠ 0#5 → u.arch.x r = s.arch.x r
  mstatus : u.csr csrMstatus = s.csr csrMstatus
  mepc : u.csr csrMepc = s.csr csrMepc

theorem Intact.restored {s t : Hart} (h : Intact s t.arch.mem) (hsp : t.arch.x sp = frame s) :
    Restored s (t.run trapExit) where
  gpr r hr := by
    have hregs : ∀ r : BitVec 5, r ≠ 0#5 → r = sp ∨ ∃ p ∈ regs, p.1 = r := by decide +kernel
    rcases hregs r hr with rfl | ⟨p, hp, rfl⟩
    · rw [(left t).sp, hsp, frame, BitVec.sub_add_cancel]
    · rw [(left t).gpr p hp, hsp, h.gpr p hp]
  mstatus := by rw [(left t).mstatus, hsp, h.mstatus]
  mepc := by rw [(left t).mepc, hsp, h.mepc]

/-- Whatever traps came in between and whatever their handlers did, the last trap that has not returned
returns to the program as it was, in its registers, its `mstatus` and its `mepc`. -/
theorem nested_traps_restore {s₀ s t : Hart} {ss : List Hart}
    (h : Relation.ReflTransGen Move (s₀, []) (t, s :: ss)) (hsp : t.arch.x sp = frame s) :
    Restored s (t.run trapExit) :=
  (moves_intact h nofun s List.mem_cons_self).restored hsp

/-- A machine with the same value in all registers, and the same in all CSRs. -/
def uniformHart : Hart := ⟨⟨0#32, fun _ => 0x80001000#32, fun _ => 0#8⟩, fun _ => 7#32⟩

/-- A trap, another one at the first instruction of its handler, and the return of that one. -/
theorem nested_traps_restore_two :
    Relation.ReflTransGen Move (uniformHart, []) ((uniformHart.run trapEntry).run trapEntry,
        [uniformHart.run trapEntry, uniformHart]) ∧
      Restored (uniformHart.run trapEntry) (((uniformHart.run trapEntry).run trapEntry).run trapExit) := by
  have hroom : ∀ s ∈ [uniformHart], Apart (frame (uniformHart.run trapEntry)) (frame s) := by
    intro s hs
    rw [List.mem_singleton.mp hs, frame, (entered uniformHart).sp]
    unfold Apart frame
    decide
  have hfirst : Move (uniformHart, []) (uniformHart.run trapEntry, [uniformHart]) := .enter nofun
  have hmoves := (Relation.ReflTransGen.single hfirst).tail (.enter hroom)
  exact ⟨hmoves, nested_traps_restore hmoves (entered _).sp⟩

/-! ## What the handler sees -/

/-- How the registers and CSRs of a machine stand in a `Context`: `ra` as `mcause`, every other register as
the one two places before it, `mstatus` as the last register, and `mepc` as `mstatus`. -/
structure StandsIn (s : Hart) (c : Context) : Prop where
  ra : c.mcause = s.arch.x 1#5
  gpr : ∀ i : Fin 32, 1 ≤ i.val → i.val < 30 → c.gpr i = s.arch.x (BitVec.ofNat 5 (i.val + 2))
  mstatus : c.gpr 31 = s.csr csrMstatus
  mepc : c.mstatus = s.csr csrMepc

theorem mem_regs : ∀ i : Fin 32, 1 ≤ i.val → i.val < 30 →
    (BitVec.ofNat 5 (i.val + 2), 2 + i.val) ∈ regs := by decide +kernel

theorem contextAt_gpr (m : Mem) (c : Word) (i : Fin 32) : (contextAt m c).gpr i = slot m c (2 + i.val) := rfl

/-- By the words themselves. -/
theorem standsIn_contextAt {s : Hart} {m : Mem} {f : Word} (hgpr : ∀ p ∈ regs, slot m f p.2 = s.arch.x p.1)
    (hstatus : slot m f 33 = s.csr csrMstatus) (hepc : slot m f 34 = s.csr csrMepc) :
    StandsIn s (contextAt m f) := by
  have h31 : 2 + (31 : Fin 32).val = 33 := rfl
  refine ⟨hgpr (1#5, 1) (by decide), fun i hlo hhi => ?_, ?_, hepc⟩
  · rw [contextAt_gpr]
    exact hgpr (BitVec.ofNat 5 (i.val + 2), 2 + i.val) (mem_regs i hlo hhi)
  · rw [contextAt_gpr, h31, hstatus]

/-- The handler does not see the machine in the members named for it, and gets the same event whatever the
cause. The machine goes on as the members say in the same places: what the handler changes in the others
(`mepc`, `gpr[0]`, `gpr[30]` and `pdir`) is lost, as is the context that it returns. -/
theorem asm_trap_context (h : Event → Word → Mem → Word × Mem) (s t : Hart) (r : Word × Mem)
    (hcall : amIrqHandle (some h) ((s.run trapEntry).arch.x a0) (s.run trapEntry).arch.mem = some r)
    (hsp : t.arch.x sp = (s.run trapEntry).arch.x sp)
    (hkept : ∀ k ∈ takenBack, slot t.arch.mem (frame s) k = slot r.2 (frame s) k) :
    r = h ⟨.error, 0#32, 0#32, 0#32⟩ (frame s) (s.run trapEntry).arch.mem ∧
      StandsIn s (contextAt (s.run trapEntry).arch.mem (frame s)) ∧
      (contextAt (s.run trapEntry).arch.mem (frame s)).gpr 30 = s.csr csrMcause ∧
      StandsIn (t.run trapExit) (contextAt r.2 (frame s)) ∧ (t.run trapExit).arch.x sp = s.arch.x sp := by
  have he := entered s
  have hu := left t
  have hsp' : t.arch.x sp = frame s := hsp.trans he.sp
  rw [he.a0] at hcall
  have h30 : 2 + (30 : Fin 32).val = 32 := rfl
  refine ⟨?_, standsIn_contextAt he.gpr he.mstatus he.mepc, ?_, ?_, ?_⟩
  · unfold amIrqHandle at hcall
    dsimp only at hcall
    split_ifs at hcall
    exact (Option.some.inj hcall).symm
  · rw [contextAt_gpr, h30, he.mcause]
  · refine standsIn_contextAt (fun p hp => ?_) ?_ ?_
    · rw [hu.gpr p hp, hsp', hkept _ (List.mem_append_left _ (List.mem_map_of_mem hp))]
    · rw [hu.mstatus, hsp', hkept 33 (by decide)]
    · rw [hu.mepc, hsp', hkept 34 (by decide)]
  · rw [hu.sp, hsp', frame, BitVec.sub_add_cancel]

/-- A machine with different values in its registers, and in `mstatus`, `mepc` and `mcause`. -/
def distinctHart : Hart where
  arch := ⟨0x80000200#32, fun r => 0x80001000#32 + 16#32 * r.zeroExtend 32, fun _ => 0#8⟩
  csr c := if c = csrMstatus then 0x1800#32 else if c = csrMepc then 0x80000040#32
    else if c = csrMcause then 11#32 else 0#32

/-- A word stored by a handler. -/
def setSlot (m : Mem) (base : Word) (k : Nat) (v : Word) : Mem :=
  ((⟨0#32, fun _ => 0#32, m⟩ : Arch).writeMem (slotAddr base k) 4 v 0#32).mem

theorem slot_setSlot_self (m : Mem) (base : Word) (k : Nat) (v : Word) :
    slot (setSlot m base k v) base k = v := by
  unfold setSlot
  exact slot_writeMem_self

theorem slot_setSlot_of_ne (m : Mem) (base v : Word) {j k : Nat} (hj : j < 36) (hk : k < 36) (hjk : j ≠ k) :
    slot (setSlot m base j v) base k = slot m base k := by
  unfold setSlot
  exact slot_writeMem_of_ne hj hk hjk

/-- `c->mepc += 4`, `c->mstatus += 8`, and another context returned. -/
def addMembers : Event → Word → Mem → Word × Mem := fun _ c m =>
  (4#32, setSlot (setSlot m c 0 ((contextAt m c).mepc + 4#32)) c 34 ((contextAt m c).mstatus + 8#32))

theorem addMembers_mstatus (ev : Event) (c : Word) (m : Mem) :
    (contextAt (addMembers ev c m).2 c).mstatus = (contextAt m c).mstatus + 8#32 := by
  have hslot : (contextAt (addMembers ev c m).2 c).mstatus = slot (addMembers ev c m).2 c 34 := rfl
  rw [hslot, addMembers, slot_setSlot_self]

theorem addMembers_gpr (ev : Event) (c : Word) (m : Mem) (i : Fin 32) :
    (contextAt (addMembers ev c m).2 c).gpr i = (contextAt m c).gpr i := by
  have hlt := i.isLt
  rw [contextAt_gpr, contextAt_gpr, addMembers]
  rw [slot_setSlot_of_ne _ _ _ (by decide) (by omega) (by omega),
    slot_setSlot_of_ne _ _ _ (by decide) (by omega) (by omega)]

/-- `distinctHart` behind a call of that handler. -/
def afterAddMembers : Hart :=
  { distinctHart.run trapEntry with
    arch := { (distinctHart.run trapEntry).arch with
      mem := (addMembers ⟨.error, 0#32, 0#32, 0#32⟩ (frame distinctHart)
        (distinctHart.run trapEntry).arch.mem).2 } }

/-- The handler finds `mepc` in the member `mstatus`, and moves it on by 8; what it adds to the member
`mepc` is lost, and `mstatus` and `a0` come back as they were. -/
theorem asm_trap_context_addMembers :
    (contextAt (distinctHart.run trapEntry).arch.mem (frame distinctHart)).mstatus = 0x80000040#32 ∧
      (afterAddMembers.run trapExit).csr csrMepc = 0x80000048#32 ∧
      (afterAddMembers.run trapExit).csr csrMstatus = 0x1800#32 ∧
      (afterAddMembers.run trapExit).arch.x a0 = 0x800010a0#32 ∧
      (afterAddMembers.run trapExit).arch.x sp = 0x80001020#32 := by
  have hcall : ∀ c m, amIrqHandle (some addMembers) c m =
      some (addMembers ⟨.error, 0#32, 0#32, 0#32⟩ c m) := fun c m => by
    unfold amIrqHandle
    exact if_pos (by decide)
  have ha0 := (entered distinctHart).a0
  have hx : afterAddMembers.arch.x sp = (distinctHart.run trapEntry).arch.x sp := by rw [afterAddMembers]
  have hmem : ∀ k ∈ takenBack, slot afterAddMembers.arch.mem (frame distinctHart) k =
      slot (addMembers ⟨.error, 0#32, 0#32, 0#32⟩ (frame distinctHart)
        (distinctHart.run trapEntry).arch.mem).2 (frame distinctHart) k := fun k _ => by
    rw [afterAddMembers]
  obtain ⟨-, hseen, -, hleft, hsp⟩ := asm_trap_context addMembers distinctHart afterAddMembers
    (addMembers ⟨.error, 0#32, 0#32, 0#32⟩ (frame distinctHart) (distinctHart.run trapEntry).arch.mem)
    (by rw [ha0, hcall]) hx hmem
  have hmepc : distinctHart.csr csrMepc = 0x80000040#32 := by decide
  refine ⟨hseen.mepc.trans hmepc, ?_, ?_, ?_, hsp.trans (by decide)⟩
  · rw [← hleft.mepc, addMembers_mstatus, hseen.mepc, hmepc]
    decide
  · rw [← hleft.mstatus, addMembers_gpr, hseen.mstatus]
    decide
  · have hgpr := hleft.gpr 8 (by decide) (by decide)
    rw [addMembers_gpr, hseen.gpr 8 (by decide) (by decide)] at hgpr
    exact hgpr.symm.trans (by decide)

end MyCpu.Runtime
