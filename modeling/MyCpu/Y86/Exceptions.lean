import MyCpu.Y86.PipelineSlots

/-!
# Exceptions and halt

`pc_update` of the single-cycle Y86 stops at the first status that is not AOK. The status of the
pipelined one travels to W and into `cpu_stat`, but no write port looks at it: `set_cc` asks for an
ALU operation in E, `data_memory` for a valid address, the register file for a register number.

* `writes_of_passed`, `passed_of_writes` : what E passes on has its effects in that clock and the
  two behind it, and all effects come about in that way;
* `precise_iff` : so a run is precise just when nothing that E passes on behind an exception has an
  effect of its own.
-/

namespace MyCpu.Y86

open Clocked

namespace State

variable (s : State)

/-- The instruction in M is a halt or has a status that is not AOK. -/
def Exceptional : Prop := s.M.icode = icHalt ∨ s.mOut.stat ≠ statAok

/-- What E passes on has no effect: it is no ALU operation, names no register by the time it leaves
E, and stores to no valid address. -/
structure Harmless : Prop where
  cc : s.E.icode ≠ icAlu
  dstE : s.E.dstE = noReg ∨ s.E.icode = icRrmovl ∧ cond s.cc s.E.ifun = false
  dstM : s.E.dstM = noReg
  store : s.E.icode = icRmmovl ∨ s.E.icode = icCall ∨ s.E.icode = icPushl →
    addrValid s.eOut.valE = false

/-- The instruction in M brings nothing new: what it stores is there already, and so is what it
leaves in a register, once the instruction in W has written. -/
structure NothingNew : Prop where
  mem : ∀ a v, s.memWrite = some (a, v) → s.dataMem a = v
  valM : s.M.dstM ≠ noReg → s.regFile.after s.W s.M.dstM = s.mOut.valM
  valE : s.M.dstE ≠ noReg → s.M.dstE ≠ s.M.dstM → s.regFile.after s.W s.M.dstE = s.M.valE

end State

/-- From clock `t` on, in which `x` is in M, nothing younger writes anything; and if `x` has an
address error it changes no word of memory in that clock and no register in the next, when it is
in W. -/
structure PreciseAt (p : Setup) (t : Nat) (x : Fetched) : Prop where
  younger : ∀ y : Fetched, x.cycle < y.cycle → ∀ u, t ≤ u → ¬Writes p u y
  self : (trace p t).mOut.stat = statAdr →
    (trace p (t + 1)).dataMem = (trace p t).dataMem ∧
      (trace p (t + 2)).regFile = (trace p (t + 1)).regFile

/-- Every halt and every exception of the run is precise. -/
def Precise (p : Setup) : Prop :=
  ∀ t x, (slotsAt p t).m = some x → (trace p t).Exceptional → PreciseAt p t x

/-! ## Younger instructions -/

theorem eOut_dstE_eq_noReg (s : State) : s.eOut.dstE = noReg ↔
    s.E.dstE = noReg ∨ s.E.icode = icRrmovl ∧ cond s.cc s.E.ifun = false := by
  have h : s.eOut.dstE = if s.E.icode = icRrmovl ∧ cond s.cc s.E.ifun = false then noReg
      else s.E.dstE := rfl
  rw [h]
  split
  · next hc => exact ⟨fun _ => .inr hc, fun _ => rfl⟩
  · next hc => exact ⟨.inl, fun h => h.resolve_right hc⟩

theorem memWrite_eq_none {M : EM} : memWrite M = none ↔
    (M.icode = icRmmovl ∨ M.icode = icCall ∨ M.icode = icPushl → addrValid M.valE = false) := by
  constructor
  · intro h hic
    rcases hic with hic | hic | hic <;> simpa +decide [memWrite, memControl, hic] using h
  · intro h
    by_cases hic : M.icode = icRmmovl ∨ M.icode = icCall ∨ M.icode = icPushl
    · have ha := h hic
      rcases hic with hic | hic | hic <;> simp +decide [memWrite, memControl, hic, ha]
    · simp only [not_or] at hic
      exact memWrite_of_icode hic.1 hic.2.1 hic.2.2

section

variable {p : Setup} {t : Nat} {x y : Fetched}

/-- What E passes on is in M in the next clock and in W in the one behind it. -/
theorem passed (hy : (slotsAt p t).e = some y) (hb : (trace p t).control.eBubble = false) :
    (slotsAt p (t + 1)).m = some y ∧ (slotsAt p (t + 2)).w = some y ∧
      (trace p (t + 1)).M = emInput (trace p t).eOut (p.net t) := by
  obtain ⟨-, hM, -, hm⟩ := step_em_of_free hb
  have hm' : (slotsAt p (t + 1)).m = some y := hm.trans hy
  exact ⟨hm', hm', hM⟩

/-- What E passes on writes something in that clock or the next two, unless it is harmless. -/
theorem writes_of_passed (hy : (slotsAt p t).e = some y)
    (hb : (trace p t).control.eBubble = false) (hh : ¬(trace p t).Harmless) :
    ∃ u, t ≤ u ∧ Writes p u y := by
  obtain ⟨hm, hw, hM⟩ := passed hy hb
  by_contra hno
  simp only [not_exists, not_and] at hno
  have hW : (trace p (t + 2)).W = (trace p (t + 1)).mOut := rfl
  have hreg : ¬(trace p (t + 2)).writesReg := fun h =>
    hno (t + 2) (Nat.le_add_right t 2) (.inr (.inr ⟨hw, h⟩))
  have hmem : (trace p (t + 1)).memWrite = none := by
    by_contra h
    exact hno (t + 1) (Nat.le_succ t) (.inr (.inl ⟨hm, h⟩))
  simp only [State.writesReg, not_or, not_not, hW, State.mOut, pipeStageMemory, hM] at hreg
  rw [State.memWrite, hM, memWrite_eq_none] at hmem
  refine hh ⟨fun hic => ?_, (eOut_dstE_eq_noReg _).mp hreg.1, hreg.2, hmem⟩
  exact hno t (Nat.le_refl t) (.inl ⟨hy, by rw [State.setCc, hic, hb]; rfl⟩)

/-- What writes has been passed on by E, two clocks before at most, and was not harmless then. -/
theorem passed_of_writes (hx : (slotsAt p t).m = some x) (hxy : x.cycle < y.cycle) {u : Nat}
    (htu : t ≤ u) (hw : Writes p u y) :
    ∃ v, t ≤ v ∧ (slotsAt p v).e = some y ∧ (trace p v).control.eBubble = false ∧
      ¬(trace p v).Harmless := by
  rcases hw with ⟨he, hcc⟩ | ⟨hm, hmw⟩ | ⟨hw, hreg⟩
  · simp only [State.setCc, Bool.and_eq_true, beq_iff_eq, Bool.not_eq_true'] at hcc
    exact ⟨u, htu, he, hcc.2, fun h => h.cc hcc.1⟩
  · obtain rfl | ⟨v, rfl, htv⟩ : t = u ∨ ∃ v, u = v + 1 ∧ t ≤ v := by
      rcases Nat.lt_or_eq_of_le htu with h | h
      · exact .inr ⟨u - 1, by omega, by omega⟩
      · exact .inl h
    · rw [hx, Option.some.injEq] at hm
      exact absurd (hm ▸ hxy) (Nat.lt_irrefl _)
    · obtain ⟨hb, he, hM, -⟩ := e_of_m hm
      refine ⟨v, htv, he, hb, fun h => hmw ?_⟩
      rw [State.memWrite, hM]
      exact memWrite_eq_none.mpr h.store
  · have hwx : (slotsAt p (t + 1)).w = some x := hx
    obtain rfl | rfl | ⟨v, rfl, htv⟩ : t = u ∨ t + 1 = u ∨ ∃ v, u = v + 2 ∧ t ≤ v := by
      rcases Nat.lt_or_ge u (t + 2) with h | h
      · omega
      · exact .inr (.inr ⟨u - 2, by omega, by omega⟩)
    · have := stamp_lt_stamp_younger (cycle_fetchedAt p) hw (Slots.mem_younger.mpr (.inl hx))
      omega
    · rw [hwx, Option.some.injEq] at hw
      exact absurd (hw ▸ hxy) (Nat.lt_irrefl _)
    · have hm : (slotsAt p (v + 1)).m = some y := hw
      obtain ⟨hb, he, hM, -⟩ := e_of_m hm
      refine ⟨v, htv, he, hb, fun h => ?_⟩
      have hW : (trace p (v + 2)).W = (trace p (v + 1)).mOut := rfl
      rw [State.writesReg, hW, State.mOut, pipeStageMemory, hM] at hreg
      exact hreg.elim (fun hE => hE ((eOut_dstE_eq_noReg _).mpr h.dstE)) fun hM => hM h.dstM

end

/-! ## The instruction itself -/

theorem regFile_after_eq (rf : RegFile) (W : MW) : rf.after W = rf ↔
    (W.dstM ≠ noReg → rf W.dstM = W.valM) ∧
      (W.dstE ≠ noReg → W.dstE ≠ W.dstM → rf W.dstE = W.valE) :=
  write_write_eq_self_iff rf W.dstE W.dstM W.valE W.valM

theorem nothingNew_iff (p : Setup) (t : Nat) : (trace p t).NothingNew ↔
    (trace p (t + 1)).dataMem = (trace p t).dataMem ∧
      (trace p (t + 2)).regFile = (trace p (t + 1)).regFile := by
  have hmem : (trace p (t + 1)).dataMem = (trace p t).dataMem.after (trace p t).memWrite := rfl
  have hreg : (trace p (t + 2)).regFile = (trace p (t + 1)).regFile.after (trace p t).mOut := rfl
  have hreg' : (trace p (t + 1)).regFile = (trace p t).regFile.after (trace p t).W := rfl
  rw [hmem, dataMem_after_eq, hreg, regFile_after_eq, hreg']
  exact ⟨fun h => ⟨h.mem, h.valM, h.valE⟩, fun h => ⟨h.1, h.2.1, h.2.2⟩⟩

/-! ## Precision -/

/-- What is in M is followed by no effect of its own or of anything younger if and only if E passes
on nothing that has one, and an instruction with an address error brings nothing new. -/
theorem preciseAt_iff {p : Setup} {t : Nat} {x : Fetched} (hx : (slotsAt p t).m = some x) :
    PreciseAt p t x ↔
      (∀ u y, t ≤ u → (slotsAt p u).e = some y → (trace p u).control.eBubble = false →
        (trace p u).Harmless) ∧
      ((trace p t).mOut.stat = statAdr → (trace p t).NothingNew) := by
  constructor
  · rintro ⟨hyoung, hself⟩
    refine ⟨fun u y htu hy hb => ?_, fun h => (nothingNew_iff p t).mpr (hself h)⟩
    by_contra hh
    obtain ⟨v, huv, hw⟩ := writes_of_passed hy hb hh
    exact hyoung y (stamp_lt_of_m_of_le (cycle_fetchedAt p) hx htu hy) v (Nat.le_trans htu huv) hw
  · rintro ⟨hharm, hnew⟩
    refine ⟨fun y hxy u htu hw => ?_, fun h => (nothingNew_iff p t).mp (hnew h)⟩
    obtain ⟨v, htv, hy, hb, hh⟩ := passed_of_writes hx hxy htu hw
    exact hh (hharm v y htv hy hb)

/-- A run is precise if and only if, from the clock of a halt or an exception in M on, E passes on
only what is harmless, and an instruction with an address error brings nothing new. -/
theorem precise_iff (p : Setup) : Precise p ↔
    ∀ t x, (slotsAt p t).m = some x → (trace p t).Exceptional →
      (∀ u y, t ≤ u → (slotsAt p u).e = some y → (trace p u).control.eBubble = false →
        (trace p u).Harmless) ∧
      ((trace p t).mOut.stat = statAdr → (trace p t).NothingNew) :=
  forall₂_congr fun _ _ => forall₂_congr fun hx _ => preciseAt_iff hx

/-- `halt`, `irmovq $5, %rax`. -/
def haltThenIrmovq : Setup := Setup.ofBytes [0x10#8, 0x30#8, 0xF0#8, 0x05#8]

/-- With the `halt` in M the `irmovq` is in E, and two clocks later it writes its register. -/
theorem not_precise_haltThenIrmovq : (slotsAt haltThenIrmovq 3).m = some ⟨0, 0#64⟩ ∧
    (trace haltThenIrmovq 3).M.icode = icHalt ∧ ¬Precise haltThenIrmovq := by
  have hm : (slotsAt haltThenIrmovq 3).m = some ⟨0, 0#64⟩ := by decide +kernel
  have hic : (trace haltThenIrmovq 3).M.icode = icHalt := by decide +kernel
  refine ⟨hm, hic, fun h => ?_⟩
  have hw : (slotsAt haltThenIrmovq 5).w = some ⟨1, 1#64⟩ := by decide +kernel
  have hd : (trace haltThenIrmovq 5).W.dstE ≠ noReg := by decide +kernel
  exact (h 3 ⟨0, 0#64⟩ hm (.inl hic)).younger ⟨1, 1#64⟩ (by decide) 5 (by decide)
    (.inr (.inr ⟨hw, .inl hd⟩))

end MyCpu.Y86
