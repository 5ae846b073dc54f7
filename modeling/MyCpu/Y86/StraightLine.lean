import MyCpu.Y86.Select
import MyCpu.Y86.Sequential
import MyCpu.Y86.Stall

/-!
# Straight-line code

Operands are selected in D from everything on its way to the register file, and the result once
more in E. On code without jumps, `call`, `ret` and `popq`, and without a load used by the next
instruction, both selections together give what the register file will hold.

* `straightInv_step` : the pipeline is the sequential machine, spread over four instructions;
* `straightLine_refines` : registers, stores and condition codes are those of the sequential
  machine.
-/

namespace MyCpu.Y86

open Clocked

/-! ## Straight-line instructions -/

namespace FD

/-- `nop`, `rrmovq` and `cmovXX`, `irmovq`, `rmmovq`, `mrmovq`, `OPq` or `pushq`. -/
def Straight (D : FD) : Prop :=
  D.icode = icNop ∨ D.icode = icRrmovl ∨ D.icode = icIrmovl ∨ D.icode = icRmmovl ∨
    D.icode = icMrmovl ∨ D.icode = icAlu ∨ D.icode = icPushl

/-- A straight-line instruction or a jump. -/
def Simple (D : FD) : Prop := D.Straight ∨ D.icode = icJxx

/-- The instruction is an `mrmovq` into a register that `D'` reads. -/
def LoadUse (D D' : FD) : Prop :=
  D.icode = icMrmovl ∧ D.rA ≠ noReg ∧
    (srcA D'.icode D'.rA = D.rA ∨ srcB D'.icode D'.rB = D.rA)

instance (D : FD) : Decidable D.Straight := by
  unfold Straight; infer_instance

instance (D : FD) : Decidable D.Simple := by
  unfold Simple; infer_instance

instance (D D' : FD) : Decidable (D.LoadUse D') := by
  unfold LoadUse; infer_instance

variable {D D' : FD}

theorem Straight.ne (h : D.Straight) : D.icode ≠ icJxx ∧ D.icode ≠ icCall ∧ D.icode ≠ icRet ∧
    D.icode ≠ icPopl := by
  rcases h with h | h | h | h | h | h | h <;> rw [h] <;> decide

theorem Straight.one_dst (h : D.Straight) :
    dstE D.icode D.rB = noReg ∨ dstM D.icode D.rA = noReg := by
  rcases h with h | h | h | h | h | h | h <;> simp +decide [dstE, dstM, h]

/-- A source of the next instruction is not what the instruction loads. -/
theorem Straight.src_ne (h : D.Straight) (hl : ¬D.LoadUse D') {src : BitVec 4}
    (hsrc : srcA D'.icode D'.rA = src ∨ srcB D'.icode D'.rB = src) :
    src = noReg ∨ src ≠ dstM D.icode D.rA := by
  by_contra hn
  simp only [not_or, not_not] at hn
  have hic : D.icode = icMrmovl := by
    by_contra hic
    exact hn.1 (hn.2.trans (if_neg (not_or.mpr ⟨hic, h.ne.2.2.2⟩)))
  have hrA : src = D.rA := hn.2.trans (if_pos (.inl hic))
  exact hl ⟨hic, hrA ▸ hn.1, hrA ▸ hsrc⟩

theorem Simple.ne (h : D.Simple) : D.icode ≠ icCall ∧ D.icode ≠ icRet ∧ D.icode ≠ icPopl := by
  rcases h with h | h
  · exact h.ne.2
  · rw [h]
    decide

theorem Simple.one_dst (h : D.Simple) : dstE D.icode D.rB = noReg ∨ dstM D.icode D.rA = noReg := by
  rcases h with h | h
  · exact h.one_dst
  · exact .inl (by rw [h]; rfl)

end FD

/-- The sequential machine's first `t` instructions are straight-line code in which no load is used
by the next instruction. -/
structure StraightRun (p : Setup) (t : Nat) : Prop where
  straight : ∀ i, i < t → (seqInstr p i).Straight
  noLoadUse : ∀ i, i + 1 < t → ¬(seqInstr p i).LoadUse (seqInstr p (i + 1))

theorem StraightRun.mono {p : Setup} {t u : Nat} (h : StraightRun p u) (htu : t ≤ u) :
    StraightRun p t :=
  ⟨fun i hi => h.straight i (Nat.lt_of_lt_of_le hi htu),
    fun i hi => h.noLoadUse i (Nat.lt_of_lt_of_le hi htu)⟩

section

variable (p : Setup)

/-- What goes through the pipeline: the four bubbles of a reset, then the program. -/
def stream (j : Nat) : FD := if j < 4 then FD.bubble else seqInstr p (j - 4)

/-- The sequential machine ahead of `stream p j`. -/
def arch (j : Nat) : SeqState := seq p (j - 4)

/-- What `stream p j` brings to W. -/
def outcome (j : Nat) : MW := (arch p j).result (stream p j)

theorem stream_of_lt {p : Setup} {j : Nat} (h : j < 4) : stream p j = FD.bubble := if_pos h

theorem stream_add_four (i : Nat) : stream p (i + 4) = seqInstr p i :=
  if_neg (Nat.not_lt.mpr (Nat.le_add_left 4 i))

theorem arch_succ (j : Nat) : arch p (j + 1) = (arch p j).exec (stream p j) := by
  rcases Nat.lt_or_ge j 4 with hj | hj
  · have h : arch p j = seq p 0 := congrArg (seq p) (Nat.sub_eq_zero_of_le (Nat.le_of_lt hj))
    rw [stream, if_pos hj, h, SeqState.exec_bubble rfl]
    exact congrArg (seq p) (Nat.sub_eq_zero_of_le hj)
  · obtain ⟨i, rfl⟩ := Nat.exists_eq_add_of_le' hj
    rw [stream_add_four]
    exact seq_succ p i

theorem regFile_arch_succ (j : Nat) :
    (arch p (j + 1)).regFile = (arch p j).regFile.after (outcome p j) := by
  rw [arch_succ]
  rfl

end

section

variable {p : Setup} {t : Nat} (hr : StraightRun p t)

include hr

theorem stream_straight {j : Nat} (hj : j < t + 4) : (stream p j).Straight := by
  unfold stream
  split
  · exact .inl rfl
  · exact hr.straight _ (by omega)

theorem stream_noLoadUse {j : Nat} (hj : j + 1 < t + 4) :
    ¬(stream p j).LoadUse (stream p (j + 1)) := by
  rcases Nat.lt_or_ge j 4 with h | h
  · rw [stream, if_pos h]
    exact fun hl => absurd hl.1 (by decide)
  · obtain ⟨i, rfl⟩ := Nat.exists_eq_add_of_le' h
    rw [Nat.add_right_comm, stream_add_four, stream_add_four]
    exact hr.noLoadUse i (by omega)

end

theorem newPc_of_ne {M : EM} {W : MW} (hM : ¬(M.icode = icJxx ∧ M.cnd = true))
    (hW : W.icode ≠ icRet) (fPredPC : Word) : newPc fPredPC M W = fPredPC := by
  rw [newPc, if_neg hM, if_neg hW]

theorem arch_pc_succ {p : Setup} {j : Nat} (h : (stream p j).Straight) :
    (arch p (j + 1)).pc = (stream p j).valP := by
  rw [arch_succ]
  exact newPc_of_ne (fun hM => h.ne.1 hM.1) h.ne.2.2.1 _

/-! ## The pipeline spread over four instructions -/

/-- After `t` clocks W holds the outcome of `stream p t`, and the registers in front of it hold the
next three. M keeps a `Cnd` and a `valP` that matter to jumps and calls alone. -/
structure StraightInv (p : Setup) (t : Nat) : Prop where
  fPc : (trace p t).fPc = (arch p (t + 4)).pc
  d : (trace p t).D = stream p (t + 3)
  e : (trace p t).E = (arch p (t + 2)).decode (stream p (t + 2))
  m : ∃ cnd valP, (trace p t).M =
    { (arch p (t + 1)).memIn (stream p (t + 1)) with cnd := cnd, valP := valP }
  w : (trace p t).W = outcome p t
  regFile : (trace p t).regFile = (arch p t).regFile
  cc : (trace p t).cc = (arch p (t + 2)).cc
  dataMem : (trace p t).dataMem = (arch p (t + 1)).dataMem

theorem straightInv_zero (p : Setup) : StraightInv p 0 where
  fPc := rfl
  d := rfl
  e := rfl
  m := ⟨false, 0#64, rfl⟩
  w := rfl
  regFile := rfl
  cc := rfl
  dataMem := rfl

theorem memControl_with {M : EM} (h : M.icode ≠ icCall) (cnd : Bool) (valP : Word) :
    memControl { M with cnd := cnd, valP := valP } = memControl M := by
  simp only [memControl, h, if_false]

theorem pipeStageMemory_with {M : EM} (h : M.icode ≠ icCall) (cnd : Bool) (valP : Word)
    (m : DataMem) :
    pipeStageMemory { M with cnd := cnd, valP := valP } m = pipeStageMemory M m := by
  simp only [pipeStageMemory, memError, memControl_with h]
  rfl

theorem memWrite_with {M : EM} (h : M.icode ≠ icCall) (cnd : Bool) (valP : Word) :
    memWrite { M with cnd := cnd, valP := valP } = memWrite M := by
  simp only [memWrite, memControl_with h]

/-! ### Operands on their way -/

theorem pipeStageDecode_valA {D : FD} (h : D.Straight) (rf : RegFile) (fwd : List Fwd) :
    (pipeStageDecode D rf fwd).valA =
      select (srcA D.icode D.rA) (rf.read (srcA D.icode D.rA)) fwd :=
  if_neg (not_or.mpr ⟨h.ne.2.1, h.ne.1⟩)

/-- A word is decoded alike when its two operands are. -/
theorem pipeStageDecode_eq {D : FD} (h : D.Simple) {rf rf' : RegFile} {fwd : List Fwd}
    (hsel : ∀ src, srcA D.icode D.rA = src ∨ srcB D.icode D.rB = src →
      select src (rf.read src) fwd = rf'.read src) :
    pipeStageDecode D rf fwd = pipeStageDecode D rf' [] := by
  rcases h with h | h
  · simp only [pipeStageDecode, h.ne.1, h.ne.2.1, or_self, if_false, hsel _ (.inl rfl),
      hsel _ (.inr rfl), select]
  · simp only [pipeStageDecode, h, or_true, if_true]
    rw [← h, hsel _ (.inr rfl)]
    rfl

section

variable {s : SeqState} {D : FD} {fwd : List Fwd} (hD : D.Simple)
  (hsel : ∀ src, srcA D.icode D.rA = src ∨ srcB D.icode D.rB = src →
    select src (s.regFile.read src) fwd = s.regFile.read src)

include hD hsel

theorem select_decode_valA :
    select (s.decode D).srcA (s.decode D).valA fwd = (s.decode D).valA := by
  rcases hD with hs | hj
  · have hvalA : (s.decode D).valA = s.regFile.read (s.decode D).srcA := pipeStageDecode_valA hs _ []
    rw [hvalA]
    exact hsel _ (.inl rfl)
  · -- a jump reads nothing
    have hsrc : (s.decode D).srcA = noReg := congrArg (fun icode => srcA icode D.rA) hj
    rw [hsrc]
    exact select_of_not_hit (fun hit => hit.1 rfl) _

omit hD in
theorem select_decode_valB :
    select (s.decode D).srcB (s.decode D).valB fwd = (s.decode D).valB := hsel _ (.inr rfl)

/-- What E selects for an instruction is what was decoded. -/
theorem pipeStageExecute_decode (cc : CC) :
    pipeStageExecute (s.decode D) cc fwd = pipeStageExecute (s.decode D) cc [] := by
  simp only [pipeStageExecute, select_decode_valA hD hsel, select_decode_valB hsel, select]

theorem ccReg_decode (eBubble : Bool) (cc : CC) :
    ccReg (s.decode D) eBubble cc fwd = ccReg (s.decode D) eBubble cc [] := by
  simp only [ccReg, select_decode_valA hD hsel, select_decode_valB hsel, select]

end

theorem one_dst_result {D : FD} (h : D.Simple) (s : SeqState) :
    (s.result D).dstE = noReg ∨ (s.result D).dstM = noReg := by
  have hE : (s.result D).dstE = if D.icode = icRrmovl ∧ cond s.cc D.ifun = false then noReg
      else dstE D.icode D.rB := rfl
  refine h.one_dst.imp (fun h => ?_) id
  rw [hE, h, ite_self]

section

variable {s : State} {s₁ s₂ : SeqState} {D₁ D₂ : FD} {cnd : Bool} {valP : Word} {src : BitVec 4}
  (hM : s.M = { s₁.memIn D₁ with cnd := cnd, valP := valP })

include hM

/-- E selects for a source what the register file holds behind the instructions in W and M. -/
theorem select_eFwd_of_m (rf : RegFile) (hsrc : src = noReg ∨ src ≠ dstM D₁.icode D₁.rA) :
    select src (((rf.after s.W).after (s₁.result D₁)).read src) s.eFwd =
      ((rf.after s.W).after (s₁.result D₁)).read src := by
  have hfwd : s.eFwd = [⟨(s₁.result D₁).dstE, (s₁.result D₁).valE⟩, ⟨s.W.dstM, s.W.valM⟩,
      ⟨s.W.dstE, s.W.valE⟩] := by
    rw [State.eFwd, hM]
    rfl
  rw [hfwd]
  exact select_eFwd hsrc

/-- D selects for a source what the register file will hold behind the instructions in W, M and E. -/
theorem select_dFwd_of_m (he : s.eOut = s₂.execute D₂) (hm : s.mOut = s₁.result D₁) (hD₁ : D₁.Simple)
    (hW : s.W.dstE = noReg ∨ s.W.dstM = noReg) (hsrc : src = noReg ∨ src ≠ dstM D₂.icode D₂.rA) :
    select src (s.regFile.read src) s.dFwd =
      (((s.regFile.after s.W).after (s₁.result D₁)).after (s₂.result D₂)).read src := by
  have hfwd : s.dFwd = [⟨(s₂.result D₂).dstE, (s₂.result D₂).valE⟩,
      ⟨(s₁.result D₁).dstE, (s₁.result D₁).valE⟩, ⟨(s₁.result D₁).dstM, (s₁.result D₁).valM⟩,
      ⟨s.W.dstE, s.W.valE⟩, ⟨s.W.dstM, s.W.valM⟩] := by
    rw [State.dFwd, he, hm, hM]
    rfl
  rw [hfwd]
  exact select_dFwd (one_dst_result hD₁ s₁) hW hsrc

end

namespace StraightInv

variable {p : Setup} {t : Nat} (h : StraightInv p t) (hr : StraightRun p (t + 1))

include h hr

theorem mOut : (trace p t).mOut = outcome p (t + 1) := by
  obtain ⟨cnd, valP, hM⟩ := h.m
  rw [State.mOut, hM, h.dataMem]
  exact pipeStageMemory_with (stream_straight hr (by omega)).ne.2.1 cnd valP _

theorem memWrite : (trace p t).memWrite = (arch p (t + 1)).memWrite (stream p (t + 1)) := by
  obtain ⟨cnd, valP, hM⟩ := h.m
  rw [State.memWrite, hM]
  exact memWrite_with (stream_straight hr (by omega)).ne.2.1 cnd valP

/-- Nothing is stalled, flushed or redirected. -/
theorem control : (trace p t).control.dStall = false ∧
    mispredicted (trace p t).M.icode (trace p t).M.cnd = false ∧
    retHazard (trace p t).D.icode (trace p t).E.icode (trace p t).M.icode = false := by
  obtain ⟨cnd, valP, hM⟩ := h.m
  have h1 := (stream_straight hr (show t + 1 < t + 1 + 4 by omega)).ne
  have h2 := (stream_straight hr (show t + 2 < t + 1 + 4 by omega)).ne
  have h3 := (stream_straight hr (show t + 3 < t + 1 + 4 by omega)).ne
  have hMic : (trace p t).M.icode = (stream p (t + 1)).icode := by rw [hM]; rfl
  have hEic : (trace p t).E.icode = (stream p (t + 2)).icode := by rw [h.e]; rfl
  refine ⟨?_, ?_, ?_⟩
  · rw [← Bool.not_eq_true, dStall_iff, State.LoadUse, h.e, h.d]
    rintro ⟨-, hdst, hsrc⟩
    have hne := (stream_straight hr (show t + 2 < t + 1 + 4 by omega)).src_ne
      (stream_noLoadUse hr (show t + 2 + 1 < t + 1 + 4 by omega))
      (hsrc.imp Eq.symm Eq.symm)
    exact hne.elim hdst fun hne => hne rfl
  · rw [mispredicted, hMic, beq_false_of_ne h1.1, Bool.false_and]
  · rw [retHazard, h.d, hEic, hMic, beq_false_of_ne h3.2.2.1, beq_false_of_ne h2.2.2.1,
      beq_false_of_ne h1.2.2.1]
    rfl

/-- E selects for a source what the register file holds ahead of its instruction. -/
theorem select_e {src : BitVec 4} (hsrc : srcA (stream p (t + 2)).icode (stream p (t + 2)).rA = src ∨
    srcB (stream p (t + 2)).icode (stream p (t + 2)).rB = src) :
    select src ((arch p (t + 2)).regFile.read src) (trace p t).eFwd =
      (arch p (t + 2)).regFile.read src := by
  obtain ⟨cnd, valP, hM⟩ := h.m
  rw [regFile_arch_succ, regFile_arch_succ, ← h.w]
  exact select_eFwd_of_m hM _ ((stream_straight hr (by omega)).src_ne
    (stream_noLoadUse hr (show t + 1 + 1 < t + 1 + 4 by omega)) hsrc)

theorem eOut : (trace p t).eOut = (arch p (t + 2)).execute (stream p (t + 2)) := by
  rw [State.eOut, h.e, h.cc]
  exact pipeStageExecute_decode (.inl (stream_straight hr (by omega))) (fun _ => h.select_e hr) _

theorem ccReg (eBubble : Bool) : Y86.ccReg (trace p t).E eBubble (trace p t).cc (trace p t).eFwd =
    Y86.ccReg ((arch p (t + 2)).decode (stream p (t + 2))) eBubble (arch p (t + 2)).cc [] := by
  rw [h.e, h.cc]
  exact ccReg_decode (.inl (stream_straight hr (by omega))) (fun _ => h.select_e hr) _ _

/-- D selects for a source what the register file will hold ahead of its instruction. -/
theorem select_d {src : BitVec 4} (hsrc : srcA (stream p (t + 3)).icode (stream p (t + 3)).rA = src ∨
    srcB (stream p (t + 3)).icode (stream p (t + 3)).rB = src) :
    select src ((trace p t).regFile.read src) (trace p t).dFwd =
      (arch p (t + 3)).regFile.read src := by
  obtain ⟨cnd, valP, hM⟩ := h.m
  have hW : (trace p t).W.dstE = noReg ∨ (trace p t).W.dstM = noReg := by
    rw [h.w]
    exact one_dst_result (.inl (stream_straight hr (by omega))) _
  rw [regFile_arch_succ, regFile_arch_succ, regFile_arch_succ, ← h.regFile, ← h.w]
  exact select_dFwd_of_m hM (h.eOut hr) (h.mOut hr) (.inl (stream_straight hr (by omega))) hW
    ((stream_straight hr (by omega)).src_ne
      (stream_noLoadUse hr (show t + 2 + 1 < t + 1 + 4 by omega)) hsrc)

theorem dOut : (trace p t).dOut = (arch p (t + 3)).decode (stream p (t + 3)) := by
  rw [State.dOut, h.d]
  exact pipeStageDecode_eq (.inl (stream_straight hr (by omega))) fun _ => h.select_d hr

end StraightInv

/-- A clock moves the instructions on by one. -/
theorem straightInv_step {p : Setup} {t : Nat} (h : StraightInv p t) (hr : StraightRun p (t + 1)) :
    StraightInv p (t + 1) := by
  obtain ⟨hlu, hmp, hrh⟩ := h.control hr
  have hE : (trace p t).control.eBubble = false := by rw [eBubble_eq, hmp, hlu]; rfl
  have hD : (trace p t).control.dBubble = false := by rw [dBubble_eq, hmp, hlu, hrh]; rfl
  have hF : (trace p t).control.fStall = false := by rw [fStall_eq, hlu, hrh]; rfl
  have hM : ¬((trace p t).M.icode = icJxx ∧ (trace p t).M.cnd = true) := by
    simpa [mispredicted] using hmp
  have hnext : stream p (t + 4) = pipeStageFetch p.imem (trace p t).fPc := by
    rw [stream_add_four, seqInstr, h.fPc]
    rfl
  obtain ⟨hd, -⟩ := step_d_of_free hD hlu
  obtain ⟨he, hm, -, -⟩ := step_em_of_free hE
  have hW : (trace p t).W.icode ≠ icRet := by
    rw [h.w]
    exact (stream_straight hr (by omega)).ne.2.2.1
  have hreg : (trace p (t + 1)).regFile = (trace p t).regFile.after (trace p t).W := rfl
  have hcc : (trace p (t + 1)).cc = Y86.ccReg (trace p t).E (trace p t).control.eBubble
      (trace p t).cc (trace p t).eFwd := rfl
  have hmem : (trace p (t + 1)).dataMem = (trace p t).dataMem.after (trace p t).memWrite := rfl
  constructor
  · rw [fPc_succ, if_pos hF, ← hnext, arch_pc_succ (stream_straight hr (by omega))]
    exact newPc_of_ne hM hW _
  · exact hd.trans hnext.symm
  · exact he.trans (h.dOut hr)
  · exact ⟨_, p.net t, hm.trans (by rw [h.eOut hr]; rfl)⟩
  · exact h.mOut hr
  · rw [hreg, h.regFile, h.w, regFile_arch_succ]
  · rw [hcc, hE, h.ccReg hr, arch_succ p (t + 2)]
    rfl
  · rw [hmem, h.memWrite hr, h.dataMem, arch_succ p (t + 1)]
    rfl

theorem straightInv_trace {p : Setup} {T t : Nat} (hr : StraightRun p T) (ht : t ≤ T) :
    StraightInv p t := by
  induction t with
  | zero => exact straightInv_zero p
  | succ t ih => exact straightInv_step (ih (Nat.le_of_succ_le ht)) (hr.mono ht)

/-! ## Straight-line runs -/

/-- The condition codes E writes. -/
def State.ccUpdate (s : State) : Option CC :=
  if s.setCc = true then some (ccReg s.E s.control.eBubble s.cc s.eFwd) else none

section

variable {p : Setup} {t : Nat} (hr : StraightRun p t)

include hr

theorem retiredAt_of_straight : retiredAt p t = (List.range (t - 4)).map (fetchedAt p) := by
  refine retired_of_flow fun i hi => ?_
  obtain ⟨hlu, hmp, hrh⟩ := (straightInv_trace hr (Nat.le_of_lt hi)).control (hr.mono hi)
  refine ⟨hlu, ?_, ?_, ?_⟩
  · exact (dBubble_eq _).trans (by rw [hmp, hlu, hrh]; rfl)
  · exact (eBubble_eq _).trans (by rw [hmp, hlu]; rfl)
  · exact (eBubble_eq _).trans (by rw [hmp, hlu]; rfl)

theorem memWrite_of_straight {i : Nat} (hi : i < t) :
    (trace p i).memWrite = (arch p (i + 1)).memWrite (stream p (i + 1)) :=
  (straightInv_trace hr (Nat.le_of_lt hi)).memWrite (hr.mono hi)

theorem ccUpdate_of_straight {i : Nat} (hi : i < t) :
    (trace p i).ccUpdate = (arch p (i + 2)).ccUpdate (stream p (i + 2)) := by
  have h := straightInv_trace hr (Nat.le_of_lt hi)
  obtain ⟨hlu, hmp, -⟩ := h.control (hr.mono hi)
  have hE : (trace p i).control.eBubble = false := by rw [eBubble_eq, hmp, hlu]; rfl
  have hic : (trace p i).E.icode = (stream p (i + 2)).icode := by rw [h.e]; rfl
  rw [State.ccUpdate, SeqState.ccUpdate, State.setCc, h.ccReg (hr.mono hi), hE, hic]
  simp only [Bool.not_false, Bool.and_true, beq_iff_eq]

end

/-- On straight-line code without a load used by the next instruction the pipeline is the
sequential machine. Whatever the number of clocks, what has retired are the first instructions in
order, the register file is the one behind them, and the stores and the settings of the condition
codes are those of the instructions that have passed M and E. -/
theorem straightLine_refines (p : Setup) (t : Nat) (hr : StraightRun p t) :
    (retiredAt p t).map Fetched.pc = (List.range (t - 4)).map (fun k => (seq p k).pc) ∧
      (trace p t).regFile = (seq p (retiredAt p t).length).regFile ∧
      emitted (fun i => (trace p i).memWrite) t =
        emitted (fun k => (seq p k).memWrite (seqInstr p k)) (t - 3) ∧
      emitted (fun i => (trace p i).ccUpdate) t =
        emitted (fun k => (seq p k).ccUpdate (seqInstr p k)) (t - 2) := by
  have hret := retiredAt_of_straight hr
  refine ⟨?_, ?_, ?_, ?_⟩
  · rw [hret, List.map_map]
    refine List.map_congr_left fun k hk => ?_
    have hk' := List.mem_range.mp hk
    exact (straightInv_trace hr (show k ≤ t by omega)).fPc
  · rw [hret, List.length_map, List.length_range]
    exact (straightInv_trace hr (Nat.le_refl t)).regFile
  · refine emitted_sub (fun i hi hit => ?_) fun i hi => ?_
    · rw [memWrite_of_straight hr hit, stream_of_lt (by omega)]
      rfl
    · rw [memWrite_of_straight hr hi, show 3 + i + 1 = i + 4 by omega, stream_add_four]
      rfl
  · refine emitted_sub (fun i hi hit => ?_) fun i hi => ?_
    · rw [ccUpdate_of_straight hr hit, stream_of_lt (by omega)]
      rfl
    · rw [ccUpdate_of_straight hr hi, show 2 + i + 2 = i + 4 by omega, stream_add_four]
      rfl

/-- `irmovq $256, %rsp`, `irmovq $1, %rax`, `addq %rax, %rax`, `pushq %rax`, `pushq %rax`,
`cmovle %rax, %rcx`, `mrmovq 0(%rsp), %rcx`, `nop`, `xorq %rcx, %rax`. -/
def straightLine : Setup := Setup.ofBytes
  [0x30#8, 0xF4#8, 0x00#8, 0x01#8, 0#8, 0#8, 0#8, 0#8, 0#8, 0#8,
    0x30#8, 0xF0#8, 0x01#8, 0#8, 0#8, 0#8, 0#8, 0#8, 0#8, 0#8, 0x60#8, 0x00#8, 0xA0#8, 0x0F#8,
    0xA0#8, 0x0F#8, 0x21#8, 0x01#8, 0x50#8, 0x14#8, 0#8, 0#8, 0#8, 0#8, 0#8, 0#8, 0#8, 0#8, 0#8,
    0x63#8, 0x10#8]

theorem straightRun_straightLine : StraightRun straightLine 13 where
  straight := by decide +kernel
  noLoadUse := by
    have h : ∀ i, i < 12 → ¬(seqInstr straightLine i).LoadUse (seqInstr straightLine (i + 1)) := by
      decide +kernel
    exact fun i hi => h i (Nat.lt_of_succ_lt_succ hi)

/-- Nine instructions in thirteen clocks, with operands from every distance and a `cmovle` that
leaves its register alone. -/
theorem straightLine_refines_straightLine :
    (trace straightLine 13).regFile =
        (seq straightLine (retiredAt straightLine 13).length).regFile ∧
      emitted (fun i => (trace straightLine i).memWrite) 13 =
        emitted (fun k => (seq straightLine k).memWrite (seqInstr straightLine k)) 10 := by
  obtain ⟨-, hreg, hmem, -⟩ := straightLine_refines straightLine 13 straightRun_straightLine
  exact ⟨hreg, hmem⟩

end MyCpu.Y86
