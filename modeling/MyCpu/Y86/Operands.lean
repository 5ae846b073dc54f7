import MyCpu.Y86.Select
import MyCpu.Y86.Stall

/-!
# Operands of the pipelined Y86

E works with the values its registers will have once everything ahead of its instruction has
written back, with one exception. D looks at `W_valE` before `W_valM` where the register file lets
`W_valM` win, so a `popq %rsp` that is in W while its reader is in D delivers the incremented
pointer instead of the popped value. One place nearer E puts that right, one place farther the
register file has the value.

* `dsts_trace` : which instructions have two destinations;
* `operand_iff` : one operand, read against the write order of the register file;
* `operandsNewest_iff` : the operands are the newest values exactly when no such `popq` is in W.
-/

namespace MyCpu.Y86

open Clocked

namespace State

variable (s : State)

/-- The operand `aluA` of `pipe_stage_execute`. -/
def aluA : Word := select s.E.srcA s.E.valA s.eFwd

def aluB : Word := select s.E.srcB s.E.valB s.eFwd

end State

/-- The operands of the instruction in E are what its source registers hold when everything ahead
of it has written back: what is in W now does so with this clock, what is in M with the next. -/
def OperandsNewest (p : Setup) (t : Nat) : Prop :=
  ((trace p t).E.srcA ≠ noReg →
      (trace p t).aluA = (trace p (t + 2)).regFile.read (trace p t).E.srcA) ∧
    ((trace p t).E.srcB ≠ noReg →
      (trace p t).aluB = (trace p (t + 2)).regFile.read (trace p t).E.srcB)

/-- A `popq %rsp` in W pops a value other than the incremented pointer, the instruction that moves
from D to E reads `%rsp`, and neither of the two instructions between them writes it. -/
def StalePop (p : Setup) (t : Nat) : Prop :=
  ((trace p t).W.icode = icPopl ∧ (trace p t).W.dstM = rsp ∧ (trace p t).W.valE ≠ (trace p t).W.valM) ∧
    ((trace p (t + 1)).E.srcA = rsp ∨ (trace p (t + 1)).E.srcB = rsp) ∧
    (trace p (t + 1)).M.dstE ≠ rsp ∧ (trace p (t + 1)).W.dstE ≠ rsp ∧ (trace p (t + 1)).W.dstM ≠ rsp

/-! ## Destinations -/

/-- What a destination pair says about its instruction. -/
structure Dsts (icode dstE dstM : BitVec 4) : Prop where
  load : dstM ≠ noReg → icode = icMrmovl ∨ icode = icPopl
  mrmovl : icode = icMrmovl → dstE = noReg
  popl : icode = icPopl → dstE = rsp

theorem dsts_decode (icode rA rB : BitVec 4) : Dsts icode (dstE icode rB) (dstM icode rA) where
  load := by
    intro h
    unfold dstM at h
    by_contra hic
    exact h (if_neg hic)
  mrmovl := by
    rintro rfl
    rfl
  popl := by
    rintro rfl
    rfl

theorem dsts_none : Dsts icNop noReg noReg where
  load := fun h => absurd rfl h
  mrmovl := fun h => absurd h (by decide)
  popl := fun h => absurd h (by decide)

/-- Only a `popq` has one register for both results, and it is `%rsp`. -/
theorem Dsts.same_iff {icode dstE dstM : BitVec 4} (h : Dsts icode dstE dstM) :
    (dstE = dstM ∧ dstM ≠ noReg) ↔ icode = icPopl ∧ dstM = rsp := by
  constructor
  · rintro ⟨heq, hne⟩
    rcases h.load hne with hic | hic
    · exact absurd (heq.symm.trans (h.mrmovl hic)) hne
    · exact ⟨hic, heq.symm.trans (h.popl hic)⟩
  · rintro ⟨hic, hdst⟩
    refine ⟨(h.popl hic).trans hdst.symm, ?_⟩
    rw [hdst]
    decide

/-- The destination pairs in E, M and W. -/
structure DstsInv (s : State) : Prop where
  e : Dsts s.E.icode s.E.dstE s.E.dstM
  m : Dsts s.M.icode s.M.dstE s.M.dstM
  w : Dsts s.W.icode s.W.dstE s.W.dstM

theorem dsts_execute {E : DE} (h : Dsts E.icode E.dstE E.dstM) (cc : CC) (fwd : List Fwd) (net : Word) :
    Dsts (emInput (pipeStageExecute E cc fwd) net).icode
      (emInput (pipeStageExecute E cc fwd) net).dstE (emInput (pipeStageExecute E cc fwd) net).dstM := by
  unfold emInput pipeStageExecute
  dsimp only
  split_ifs with hcmov
  · refine ⟨h.load, fun _ => rfl, fun hic => ?_⟩
    exact absurd (hcmov.1.symm.trans hic) (by decide)
  · exact h

theorem dsts_trace (p : Setup) (t : Nat) : DstsInv (trace p t) := by
  induction t with
  | zero => exact ⟨dsts_none, dsts_none, dsts_none⟩
  | succ t ih =>
      have hw : Dsts (trace p (t + 1)).W.icode (trace p (t + 1)).W.dstE (trace p (t + 1)).W.dstM := ih.m
      rcases step_em p.imem (p.net t) (trace p t) (slotsAt p t) (fetchedAt p t) with
        ⟨-, hE, hM, -, -⟩ | ⟨-, hE, hM, -, -⟩
      · refine ⟨?_, ?_, hw⟩
        · rw [trace_succ, hE]
          exact dsts_none
        · rw [trace_succ, hM]
          exact dsts_none
      · refine ⟨?_, ?_, hw⟩
        · rw [trace_succ, hE]
          exact dsts_decode _ _ _
        · rw [trace_succ, hM]
          exact dsts_execute ih.e _ _ _

/-! ## Operands -/

section

variable {p : Setup} {t : Nat}

/-- E loads no register that the instruction moving in from D reads. -/
theorem dstM_ne_of_free (hb : (trace p t).control.eBubble = false) {src : BitVec 4} (hsrc : src ≠ noReg)
    (hD : srcA (trace p t).D.icode (trace p t).D.rA = src ∨
      srcB (trace p t).D.icode (trace p t).D.rB = src) : src ≠ (trace p t).E.dstM := by
  intro heq
  have hne : (trace p t).E.dstM ≠ noReg := heq ▸ hsrc
  have hlu : (trace p t).LoadUse := by
    refine ⟨(dsts_trace p t).e.load hne, hne, ?_⟩
    rw [← heq]
    exact hD.imp Eq.symm Eq.symm
  have hstall : (trace p t).control.dStall = true := (dStall_iff _).mpr hlu
  rw [eBubble_eq, hstall, Bool.or_true] at hb
  exact Bool.false_ne_true hb.symm

/-- An operand that D has selected and E selects again a clock later. -/
theorem operand_iff {src : BitVec 4} (hb : (trace p t).control.eBubble = false) (hsrc : src ≠ noReg)
    (hD : srcA (trace p t).D.icode (trace p t).D.rA = src ∨
      srcB (trace p t).D.icode (trace p t).D.rB = src) :
    select src (select src ((trace p t).regFile.read src) (trace p t).dFwd) (trace p (t + 1)).eFwd =
        (trace p (t + 3)).regFile.read src ↔
      ¬(((trace p t).W.icode = icPopl ∧ (trace p t).W.dstM = rsp ∧ (trace p t).W.valE ≠ (trace p t).W.valM) ∧
        src = rsp ∧ (trace p (t + 1)).M.dstE ≠ rsp ∧ (trace p (t + 1)).W.dstE ≠ rsp ∧
        (trace p (t + 1)).W.dstM ≠ rsp) := by
  obtain ⟨-, hM, -, -⟩ := step_em_of_free hb
  have hload : src ≠ (trace p (t + 1)).mOut.dstM := by
    show src ≠ (trace p (t + 1)).M.dstM
    rw [hM]
    exact dstM_ne_of_free hb hsrc hD
  have hdFwd : (trace p t).dFwd = [⟨(trace p (t + 1)).mOut.dstE, (trace p (t + 1)).mOut.valE⟩,
      ⟨(trace p (t + 1)).W.dstE, (trace p (t + 1)).W.valE⟩,
      ⟨(trace p (t + 1)).W.dstM, (trace p (t + 1)).W.valM⟩,
      ⟨(trace p t).W.dstE, (trace p t).W.valE⟩, ⟨(trace p t).W.dstM, (trace p t).W.valM⟩] := by
    unfold State.dFwd State.mOut pipeStageMemory
    rw [hM]
    rfl
  have htwice := select_twice_iff (trace p t).regFile (trace p (t + 1)).mOut (trace p (t + 1)).W
    (trace p t).W hsrc hload
  have hsame := (dsts_trace p t).w.same_iff
  rw [hdFwd]
  refine htwice.trans (not_congr ?_)
  constructor
  · rintro ⟨⟨hE, hdM, hval⟩, h1, h2, h3⟩
    obtain ⟨hic, hrsp⟩ := hsame.mp ⟨hE.trans hdM.symm, hdM ▸ hsrc⟩
    obtain rfl : src = rsp := hdM.symm.trans hrsp
    exact ⟨⟨hic, hrsp, hval⟩, rfl, h1, h2, h3⟩
  · rintro ⟨⟨hic, hrsp, hval⟩, rfl, h1, h2, h3⟩
    obtain ⟨hE, -⟩ := hsame.mpr ⟨hic, hrsp⟩
    exact ⟨⟨hE.trans hrsp, hrsp, hval⟩, h1, h2, h3⟩

theorem srcA_of_valP {icode : BitVec 4} (h : icode = icCall ∨ icode = icJxx) (rA : BitVec 4) :
    srcA icode rA = noReg := by
  rcases h with rfl | rfl <;> rfl

/-- What E works with has been selected twice, unless D has put `valP` there. -/
theorem aluA_succ (hb : (trace p t).control.eBubble = false) (hne : (trace p (t + 1)).E.srcA ≠ noReg) :
    (trace p (t + 1)).aluA = select (trace p (t + 1)).E.srcA (select (trace p (t + 1)).E.srcA
      ((trace p t).regFile.read (trace p (t + 1)).E.srcA) (trace p t).dFwd) (trace p (t + 1)).eFwd := by
  obtain ⟨hE, -⟩ := step_em_of_free hb
  unfold State.aluA
  rw [hE] at hne ⊢
  congr 1
  exact if_neg fun h => hne (srcA_of_valP h _)

theorem aluB_succ (hb : (trace p t).control.eBubble = false) :
    (trace p (t + 1)).aluB = select (trace p (t + 1)).E.srcB (select (trace p (t + 1)).E.srcB
      ((trace p t).regFile.read (trace p (t + 1)).E.srcB) (trace p t).dFwd) (trace p (t + 1)).eFwd := by
  obtain ⟨hE, -⟩ := step_em_of_free hb
  unfold State.aluB
  rw [hE]
  rfl

theorem operandsNewest_bubble (h : (trace p t).E = DE.bubble) : OperandsNewest p t := by
  unfold OperandsNewest
  rw [h]
  exact ⟨fun hn => absurd rfl hn, fun hn => absurd rfl hn⟩

theorem operandsNewest_succ_iff (p : Setup) (t : Nat) : OperandsNewest p (t + 1) ↔ ¬StalePop p t := by
  cases hb : (trace p t).control.eBubble with
  | true =>
      have hE : (trace p (t + 1)).E = DE.bubble := by
        rcases step_em p.imem (p.net t) (trace p t) (slotsAt p t) (fetchedAt p t) with
          ⟨-, hE, -⟩ | ⟨h, -⟩
        · exact hE
        · rw [hb] at h
          contradiction
      refine iff_of_true (operandsNewest_bubble hE) ?_
      rintro ⟨-, hsrc, -⟩
      rw [hE] at hsrc
      exact absurd hsrc (by decide)
  | false =>
      obtain ⟨hE, -⟩ := step_em_of_free hb
      have hsrcA : srcA (trace p t).D.icode (trace p t).D.rA = (trace p (t + 1)).E.srcA := by
        rw [hE]
        rfl
      have hsrcB : srcB (trace p t).D.icode (trace p t).D.rB = (trace p (t + 1)).E.srcB := by
        rw [hE]
        rfl
      unfold OperandsNewest StalePop
      constructor
      · rintro ⟨hnewA, hnewB⟩ ⟨hpop, hsrc, hnear⟩
        rcases hsrc with hsrc | hsrc
        · have hne : (trace p (t + 1)).E.srcA ≠ noReg := by
            rw [hsrc]
            decide
          exact (operand_iff hb hne (.inl hsrcA)).mp ((aluA_succ hb hne).symm.trans (hnewA hne)) ⟨hpop, hsrc, hnear⟩
        · have hne : (trace p (t + 1)).E.srcB ≠ noReg := by
            rw [hsrc]
            decide
          exact (operand_iff hb hne (.inr hsrcB)).mp ((aluB_succ hb).symm.trans (hnewB hne)) ⟨hpop, hsrc, hnear⟩
      · intro hn
        constructor
        · intro hne
          rw [aluA_succ hb hne]
          exact (operand_iff hb hne (.inl hsrcA)).mpr fun h => hn ⟨h.1, .inl h.2.1, h.2.2⟩
        · intro hne
          rw [aluB_succ hb]
          exact (operand_iff hb hne (.inr hsrcB)).mpr fun h => hn ⟨h.1, .inr h.2.1, h.2.2⟩

end

/-- In every reachable state the operands in E are the newest values, unless a `popq %rsp` has left
W with its two results in the wrong order for the instruction that is in E now. -/
theorem operandsNewest_iff (p : Setup) (t : Nat) :
    OperandsNewest p t ↔ ∀ u, u + 1 = t → ¬StalePop p u := by
  cases t with
  | zero => exact iff_of_true (operandsNewest_bubble rfl) fun u hu => absurd hu (Nat.succ_ne_zero u)
  | succ t =>
      rw [operandsNewest_succ_iff]
      constructor
      · rintro h u hu
        obtain rfl := Nat.succ.inj hu
        exact h
      · intro h
        exact h t rfl

/-- `popq %rsp`, `nop`, `nop`, `rrmovq %rsp, %rax`. -/
def popRspThenRead : Setup := Setup.ofBytes [0xB0#8, 0x4F#8, 0x00#8, 0x00#8, 0x20#8, 0x40#8]

/-- No load-use stall and no jump, `call` or `ret`, and the `rrmovq` moves the incremented pointer
where the register file gets the popped 0. -/
theorem not_operandsNewest_popRspThenRead :
    (∀ t ≤ 5, (trace popRspThenRead t).control.dStall = false ∧
      (trace popRspThenRead t).D.icode ∉ [icJxx, icCall, icRet]) ∧
    (trace popRspThenRead 5).E.srcA = rsp ∧ ¬OperandsNewest popRspThenRead 5 := by
  have hsrc : (trace popRspThenRead 5).E.srcA = rsp := by decide +kernel
  refine ⟨by decide +kernel, hsrc, ?_⟩
  rintro ⟨hA, -⟩
  have halu : (trace popRspThenRead 5).aluA = 8#64 := by decide +kernel
  have hreg : (trace popRspThenRead 7).regFile.read (trace popRspThenRead 5).E.srcA = 0#64 := by
    decide +kernel
  have hne : (trace popRspThenRead 5).E.srcA ≠ noReg := by
    rw [hsrc]
    decide
  have h := hA hne
  rw [halu, hreg] at h
  exact absurd h (by decide)

end MyCpu.Y86
