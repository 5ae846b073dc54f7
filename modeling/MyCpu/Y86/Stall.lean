import MyCpu.Y86.PipelineSlots

/-!
# Stalls

A load followed by its use holds the user in D and puts a bubble into E. `E_bubble` clears the E/M
register as well, so the load itself is lost.

* `kept_iff` : the instruction in E gets to M, and a load to its register, exactly when no user of
  a load in E is in D.
-/

namespace MyCpu.Y86

open Clocked

/-- A load in E whose register is a source of the instruction in D. -/
def State.LoadUse (s : State) : Prop :=
  (s.E.icode = icMrmovl ∨ s.E.icode = icPopl) ∧ s.E.dstM ≠ noReg ∧
    (s.E.dstM = srcA s.D.icode s.D.rA ∨ s.E.dstM = srcB s.D.icode s.D.rB)

instance (s : State) : Decidable s.LoadUse := by
  unfold State.LoadUse; infer_instance

theorem dStall_iff (s : State) : s.control.dStall = true ↔ s.LoadUse := by
  have h : s.control.dStall = loadUseHazard s.E.icode s.E.dstM (srcA s.D.icode s.D.rA)
      (srcB s.D.icode s.D.rB) := rfl
  rw [h, loadUseHazard, State.LoadUse]
  simp only [Bool.and_eq_true, Bool.or_eq_true, beq_iff_eq, bne_iff_ne]
  tauto

namespace FD

/-- The instruction in E stalls `D'` in D. -/
def Stalls (D D' : FD) : Prop :=
  loadUseHazard D.icode (dstM D.icode D.rA) (srcA D'.icode D'.rA) (srcB D'.icode D'.rB) = true

instance (D D' : FD) : Decidable (D.Stalls D') := by
  unfold Stalls; infer_instance

end FD

/-- The instruction `x` in E goes on: M holds it with the results computed in E, except for `M_valP`,
which is what the undriven net carries, and if it is a load its register receives what memory
delivers. -/
structure Kept (p : Setup) (t : Nat) (x : Fetched) : Prop where
  slot : (slotsAt p (t + 1)).m = some x
  results : (trace p (t + 1)).M = emInput (trace p t).eOut (p.net t)
  load : (trace p t).E.icode = icMrmovl ∨ (trace p t).E.icode = icPopl →
    (trace p t).E.dstM ≠ noReg → (slotsAt p (t + 2)).w = some x ∧
      (trace p (t + 3)).regFile (trace p t).E.dstM = (trace p (t + 1)).mOut.valM

theorem regFile_after_dstM (rf : RegFile) {W : MW} (h : W.dstM ≠ noReg) :
    rf.after W W.dstM = W.valM := by
  rw [RegFile.after, write_apply _ _ _ h, if_pos rfl]

/-- Without a taken jump in M, the instruction in E is kept if and only if it is not a load that
the instruction in D uses. -/
theorem kept_iff (p : Setup) (t : Nat) (x : Fetched) (he : (slotsAt p t).e = some x)
    (hm : mispredicted (trace p t).M.icode (trace p t).M.cnd = false) :
    Kept p t x ↔ ¬(trace p t).LoadUse := by
  rw [← dStall_iff, Bool.not_eq_true]
  have hb : (trace p t).control.eBubble = (trace p t).control.dStall := by
    rw [eBubble_eq, hm, Bool.false_or]
  cases hE : (trace p t).control.eBubble with
  | true =>
      -- `E_bubble` is up, and the E/M register takes a bubble too
      refine iff_of_false (fun h => ?_) (by rw [← hb, hE]; decide)
      have hm' := (e_of_m h.slot).1
      rw [hE] at hm'
      contradiction
  | false =>
      obtain ⟨-, hM, -, hm'⟩ := step_em_of_free hE
      rw [he] at hm'
      refine iff_of_true ⟨hm', hM, fun _ hd => ⟨hm', ?_⟩⟩ (by rw [← hb, hE])
      have hW : (trace p (t + 2)).W.dstM = (trace p t).E.dstM := congrArg EM.dstM hM
      have hreg : (trace p (t + 3)).regFile =
          (trace p (t + 2)).regFile.after (trace p (t + 2)).W := rfl
      rw [← hW] at hd ⊢
      rw [hreg, regFile_after_dstM _ hd]
      rfl

/-- `mrmovq 0(%rbx), %rax`, `irmovq $1, %rcx`, ... -/
def loadThenOther : Setup := Setup.ofBytes
  [0x50#8, 0x03#8, 0#8, 0#8, 0#8, 0#8, 0#8, 0#8, 0#8, 0#8, 0x30#8, 0xF1#8, 0x01#8]

/-- A load that is not used at once is kept. -/
theorem kept_loadThenOther : Kept loadThenOther 2 ⟨0, 0#64⟩ :=
  (kept_iff loadThenOther 2 ⟨0, 0#64⟩ (by decide +kernel) (by decide +kernel)).mpr
    (by decide +kernel)

/-- `mrmovq 0(%rbx), %rax`, `addq %rax, %rcx`. -/
def loadThenUse : Setup := Setup.ofBytes
  [0x50#8, 0x03#8, 0#8, 0#8, 0#8, 0#8, 0#8, 0#8, 0#8, 0#8, 0x60#8, 0x01#8]

/-- The load is in E with no jump in M, and a clock later it is nowhere. -/
theorem not_kept_loadThenUse : (slotsAt loadThenUse 2).e = some ⟨0, 0#64⟩ ∧
    mispredicted (trace loadThenUse 2).M.icode (trace loadThenUse 2).M.cnd = false ∧
    ¬Kept loadThenUse 2 ⟨0, 0#64⟩ := by
  refine ⟨by decide +kernel, by decide +kernel, fun h => ?_⟩
  have hm : (slotsAt loadThenUse 3).m = none := by decide +kernel
  have := h.slot
  rw [hm] at this
  contradiction

end MyCpu.Y86
