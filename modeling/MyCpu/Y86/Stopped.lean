import Mathlib.Tactic.SplitIfs
import MyCpu.Y86.SingleCycle

/-!
# The stopped single-cycle Y86

Once the status is not AOK the program counter stays, and the same instruction is executed again in
every clock with its register, flag and memory writes still enabled.

* `step_eq_self_iff` : a stopped clock changes nothing exactly when the instruction is `Harmless`;
* `not_harmless_of_stack` : `pushq`, `call` and `ret` never are;
* `staysStopped_iff` : runs.
-/

namespace MyCpu.Y86.Single

open Clocked

/-- Writing `v` to the register `r` changes nothing. -/
def Keeps (rf : RegFile) (r : BitVec 4) (v : Word) : Prop := r ≠ noReg → rf r = v

/-- Executing the instruction at `PC`, its status aside, brings nothing new. -/
def Harmless (imem : IMem) (s : State) : Prop :=
  let f := s.fetch imem
  if f.icode = icRrmovl then s.cnd imem = true → Keeps s.regFile f.rB (s.valA imem)
  else if f.icode = icIrmovl then Keeps s.regFile f.rB f.valC
  else if f.icode = icRmmovl then addrValid (s.valB imem + f.valC) = true →
    s.dataMem (wordAddr (s.valB imem + f.valC)) = s.valA imem
  else if f.icode = icMrmovl then Keeps s.regFile f.rA (s.valM imem)
  else if f.icode = icAlu then
    Keeps s.regFile f.rB (aluOut f.ifun (s.valA imem) (s.valB imem)) ∧
      newCc f.ifun (s.valA imem) (s.valB imem) = s.cc
  else if f.icode = icPopl then f.rA = rsp ∧ s.regFile rsp = s.valM imem
  else ¬(f.icode = icCall ∨ f.icode = icRet ∨ f.icode = icPushl)

/-- Whenever the status is not AOK, every further clock leaves everything as it is. -/
def StaysStopped (imem : IMem) (m : DataMem) : Prop :=
  ∀ t, (trace imem m t).stat imem ≠ statAok → ∀ u, t ≤ u →
    trace imem m u = trace imem m t ∧ (trace imem m u).stat imem = (trace imem m t).stat imem

section

variable {imem : IMem} {s : State}

theorem ccReg_eq_self_iff (icode ifun : BitVec 4) (valA valB : Word) (cc : CC) :
    ccReg icode ifun valA valB cc = cc ↔ (icode = icAlu → newCc ifun valA valB = cc) := by
  unfold ccReg
  split_ifs with h
  · exact ⟨fun h' _ => h', fun h' => h' h⟩
  · exact ⟨fun _ h' => absurd h' h, fun _ => rfl⟩

theorem memWrite_keeps_iff (c : MemControl) (m : DataMem) : m.after (memWrite c) = m ↔
    (c.write = true → addrValid c.addr = true → m (wordAddr c.addr) = c.data) := by
  rw [dataMem_after_eq]
  unfold memWrite
  split_ifs with h
  · constructor
    · intro h' _ _
      exact h' _ _ rfl
    · rintro h' a v heq
      obtain ⟨rfl, rfl⟩ := Prod.mk.inj (Option.some.inj heq)
      exact h' h.1 h.2
  · exact ⟨fun _ hw hv => absurd ⟨hw, hv⟩ h, fun _ a v heq => by contradiction⟩

theorem writeBack_eq_self_iff (icode rE rM : BitVec 4) (cnd : Bool) (vE vM : Word) (rf : RegFile) :
    writeBack icode rE rM cnd vE vM rf = rf ↔ (rM ≠ noReg → rf rM = vM) ∧
      (¬(icode = icRrmovl ∧ cnd = false) → rE ≠ noReg → rE ≠ rM → rf rE = vE) := by
  unfold writeBack
  split_ifs with h
  · rw [write_eq_self_iff]
    exact ⟨fun h' => ⟨h', fun hn => absurd h hn⟩, fun h' => h'.1⟩
  · rw [write_write_eq_self_iff]
    exact and_congr_right fun _ => ⟨fun h' _ => h', fun h' => h' h⟩

theorem state_ext {s' : State} (hpc : s'.pc = s.pc) (hrf : s'.regFile = s.regFile) (hcc : s'.cc = s.cc)
    (hm : s'.dataMem = s.dataMem) : s' = s := by
  cases s'
  cases s
  simp only [State.mk.injEq]
  exact ⟨hpc, hrf, hcc, hm⟩

/-- A stopped clock changes nothing exactly when no write port brings anything new. -/
theorem step_eq_self_iff_ports (hstat : s.stat imem ≠ statAok) : step imem s = s ↔
    writeBack (s.fetch imem).icode (dstE (s.fetch imem).icode (s.fetch imem).rB)
        (dstM (s.fetch imem).icode (s.fetch imem).rA) (s.cnd imem) (s.valE imem) (s.valM imem)
        s.regFile = s.regFile ∧
      ccReg (s.fetch imem).icode (s.fetch imem).ifun (s.valA imem) (s.valB imem) s.cc = s.cc ∧
      s.dataMem.after (memWrite (s.memControl imem)) = s.dataMem := by
  have hpc : (step imem s).pc = s.pc := if_neg hstat
  constructor
  · intro h
    exact ⟨congrArg State.regFile h, congrArg State.cc h, congrArg State.dataMem h⟩
  · rintro ⟨hrf, hcc, hm⟩
    exact state_ext hpc hrf hcc hm

/-- The instructions that may write something, one kind after the other. -/
theorem icode_cases (icode : BitVec 4) :
    (icode ≠ icRrmovl ∧ icode ≠ icIrmovl ∧ icode ≠ icRmmovl ∧ icode ≠ icMrmovl ∧ icode ≠ icAlu ∧
      icode ≠ icPopl ∧ icode ≠ icCall ∧ icode ≠ icRet ∧ icode ≠ icPushl) ∨
    icode = icRrmovl ∨ icode = icIrmovl ∨ icode = icRmmovl ∨ icode = icMrmovl ∨ icode = icAlu ∨
      icode = icPopl ∨ (icode = icCall ∨ icode = icRet ∨ icode = icPushl) := by tauto

theorem ne_sub_eight (v : Word) : v ≠ v - 8#64 := by
  intro h
  bv_omega

/-- The stack instructions read `%rsp`. -/
theorem valB_of_stack (h : (s.fetch imem).icode = icPopl ∨ (s.fetch imem).icode = icCall ∨
    (s.fetch imem).icode = icRet ∨ (s.fetch imem).icode = icPushl) : s.valB imem = s.regFile rsp := by
  unfold State.valB
  rcases h with h | h | h | h <;>
  · rw [h]
    rfl

/-- A stopped clock changes nothing exactly when the instruction is harmless. -/
theorem step_eq_self_iff (hstat : s.stat imem ≠ statAok) : step imem s = s ↔ Harmless imem s := by
  rw [step_eq_self_iff_ports hstat, writeBack_eq_self_iff, ccReg_eq_self_iff, memWrite_keeps_iff]
  unfold Harmless State.memControl State.valE
  rcases icode_cases (s.fetch imem).icode with h | h | h | h | h | h | h | h
  · obtain ⟨h2, h3, h4, h5, h6, hB, h8, h9, hA⟩ := h
    simp [h2, h3, h4, h5, h6, hB, h8, h9, hA, dstE, dstM, memControl]
  · simp +decide [h, dstE, dstM, Y86.valE, memControl, Keeps]
  · simp +decide [h, dstE, dstM, Y86.valE, memControl, Keeps]
  · simp +decide [h, dstE, dstM, Y86.valE, memControl]
  · simp +decide [h, dstE, dstM, Y86.valE, memControl, Keeps]
  · simp +decide [h, dstE, dstM, Y86.valE, memControl, Keeps, and_comm]
  · rw [valB_of_stack (.inl h)]
    simp +decide [h, dstE, dstM, Y86.valE, memControl]
    constructor
    · rintro ⟨hM, hrA⟩
      refine ⟨hrA.symm, ?_⟩
      rw [hrA]
      exact hM (by rw [← hrA]; decide)
    · rintro ⟨hrA, hM⟩
      exact ⟨fun _ => hrA ▸ hM, hrA.symm⟩
  · rw [valB_of_stack (.inr h)]
    rcases h with h | h | h <;> simp +decide [h, dstE, dstM, Y86.valE, memControl, ne_sub_eight]

/-- A stack instruction always moves `%rsp`, whatever became of its access. -/
theorem not_harmless_of_stack (h : (s.fetch imem).icode = icCall ∨ (s.fetch imem).icode = icRet ∨
    (s.fetch imem).icode = icPushl) : ¬Harmless imem s := by
  unfold Harmless
  rcases h with h | h | h <;> simp +decide [h]

end

/-! ## Runs -/

/-- A clock that changes nothing is followed by clocks that change nothing. -/
theorem trace_of_step_eq {imem : IMem} {m : DataMem} {t u : Nat} (htu : t ≤ u)
    (h : step imem (trace imem m t) = trace imem m t) : trace imem m u = trace imem m t := by
  induction u, htu using Nat.le_induction with
  | base => rfl
  | succ u _ ih => rw [trace_succ, ih, h]

/-- A run stays where it has stopped exactly when every instruction it stops at is harmless. -/
theorem staysStopped_iff (imem : IMem) (m : DataMem) : StaysStopped imem m ↔
    ∀ t, (trace imem m t).stat imem ≠ statAok → Harmless imem (trace imem m t) := by
  constructor
  · intro h t hstat
    obtain ⟨hstep, -⟩ := h t hstat (t + 1) (Nat.le_succ t)
    exact (step_eq_self_iff hstat).mp hstep
  · intro h t hstat u htu
    have hstep := (step_eq_self_iff hstat).mpr (h t hstat)
    have hu := trace_of_step_eq htu hstep
    exact ⟨hu, by rw [hu]⟩

/-- `pushq %rax`. -/
def pushOutOfRange : IMem := IMem.ofBytes [0xA0#8, 0x0F#8]

/-- Out of reset `%rsp` is 4, so the first `pushq` has an address out of range, and its `%rsp` goes
on falling by 8 in every clock. -/
theorem not_staysStopped_pushOutOfRange :
    (trace pushOutOfRange (fun _ => 0#64) 0).stat pushOutOfRange = statAdr ∧
      ¬StaysStopped pushOutOfRange fun _ => 0#64 := by
  have hstat : (trace pushOutOfRange (fun _ => 0#64) 0).stat pushOutOfRange = statAdr := by
    decide +kernel
  have hne : (trace pushOutOfRange (fun _ => 0#64) 0).stat pushOutOfRange ≠ statAok := by
    rw [hstat]
    decide
  refine ⟨hstat, fun h => ?_⟩
  exact not_harmless_of_stack (.inr (.inr (by decide +kernel)))
    ((step_eq_self_iff hne).mp (h 0 hne 1 (by decide)).1)

end MyCpu.Y86.Single
