import MyCpu.Y86.Misprediction
import MyCpu.Y86.Select
import MyCpu.Y86.Sequential

/-!
# `ret`

While a `ret` is in D, E or M the PC is held and D takes bubbles. Both end in the clock in which it
is in W, which is also the clock that selects its return address: D takes the word at the held PC.

* `held_of_ret` : nothing enters D behind a `ret` until it is in W, and the PC stays;
* `enters_of_ret_in_w` : in that clock D takes the word at the held PC;
* `exists_writes_slot_iff` : what that word writes;
* `noDelaySlot_iff` : the instruction behind a `ret` is executed, so that the pipeline is right only
  about a `ret` that returns to the address the PC was held at, where nothing is to be done.
-/

namespace MyCpu.Y86

open Clocked

/-- The word F delivers in clock `i` enters D. -/
def EntersD (p : Setup) (i : Nat) : Prop := (slotsAt p (i + 1)).d = some (fetchedAt p i)

/-- No delay slot behind the `ret` `x`, in W after `t` clocks: the next instruction to enter D is at
the address it has read, and what is fetched before the PC is that address writes nothing. -/
structure NoDelaySlot (p : Setup) (t : Nat) (x : Fetched) : Prop where
  next : ∃ i, x.cycle < i ∧ EntersD p i ∧ (∀ j, x.cycle < j → j < i → ¬EntersD p j) ∧
    (fetchedAt p i).pc = (trace p t).W.valM
  quiet : ∀ y : Fetched, x.cycle < y.cycle → y.cycle ≤ t → ∀ t', ¬Writes p t' y

section

variable {p : Setup} {t : Nat} {x : Fetched}

theorem entersD_of_inFlight {y : Fetched} (hy : y ∈ (slotsAt p t).inFlight) :
    EntersD p y.cycle ∧ y = fetchedAt p y.cycle := by
  have hd : (slotsAt p (y.cycle + 1)).d = some y := d_of_mem_inFlight (cycle_fetchedAt p) hy
  have hlt : ∀ z, (slotsAt p y.cycle).d = some z → z.cycle < y.cycle := fun z hz =>
    stamp_lt_of_mem (cycle_fetchedAt p) (Slots.mem_inFlight.mpr (.inr (.inr (.inr hz))))
  have hy' : y = fetchedAt p y.cycle := by
    rcases step_d p.imem (p.net y.cycle) (trace p y.cycle) (slotsAt p y.cycle)
      (fetchedAt p y.cycle) with ⟨-, -, h⟩ | ⟨-, -, -, h⟩ | ⟨-, -, -, h⟩ <;>
      rw [← slotsAt_succ, hd] at h
    · contradiction
    · exact absurd (hlt y h.symm) (Nat.lt_irrefl _)
    · exact Option.some.inj h
  exact ⟨by rw [EntersD, ← hy']; exact hd, hy'⟩

theorem not_entersD_of_held {i : Nat}
    (h : (trace p i).control.dBubble = true ∨ (trace p i).control.dStall = true) :
    ¬EntersD p i := by
  intro hE
  rw [EntersD] at hE
  rcases step_d p.imem (p.net i) (trace p i) (slotsAt p i) (fetchedAt p i) with
    ⟨-, -, hd⟩ | ⟨-, -, -, hd⟩ | ⟨hb, hl, -, -⟩
  · rw [slotsAt_succ, hd] at hE
    contradiction
  · rw [slotsAt_succ, hd] at hE
    exact Nat.lt_irrefl i (stamp_lt_of_mem (cycle_fetchedAt p)
      (Slots.mem_inFlight.mpr (.inr (.inr (.inr hE)))))
  · rcases h with h | h
    · rw [hb] at h
      contradiction
    · rw [hl] at h
      contradiction

/-- The code an instruction shows in every register behind D. -/
theorem retHazard_of_mem_younger {u : Nat} (hx : x ∈ (slotsAt p u).younger)
    (hic : (pipeStageFetch p.imem x.pc).icode = icRet) :
    retHazard (trace p u).D.icode (trace p u).E.icode (trace p u).M.icode = true := by
  have hs := shows_trace p u
  rw [Slots.mem_younger] at hx
  rcases hx with hx | hx | hx
  · rw [retHazard, hs.m x hx, hic]
    simp
  · rw [retHazard, hs.e x hx, hic]
    simp
  · rw [retHazard, hs.d x hx, hic]
    simp

/-- While a `ret` is in D, E or M nothing enters D and, unless a jump discards it, the PC stays. -/
theorem held_of_retHazard {u : Nat}
    (h : retHazard (trace p u).D.icode (trace p u).E.icode (trace p u).M.icode = true) :
    ¬EntersD p u ∧ (trace p (u + 1)).fPc = (trace p u).fPc := by
  refine ⟨not_entersD_of_held ?_, ?_⟩
  · rw [dBubble_eq, h]
    cases (trace p u).control.dStall <;> simp
  · exact fPc_of_fStall (by rw [fStall_eq, h, Bool.or_true])

end

/-! ## Empty stages -/

section

variable {p : Setup} {u : Nat}

theorem dStall_of_empty (he : (slotsAt p u).e = none) : (trace p u).control.dStall = false := by
  rw [← Bool.not_eq_true, dStall_iff, State.LoadUse, (bubbles_trace p u).e he]
  rintro ⟨-, hne, -⟩
  exact hne rfl

theorem mispredicted_of_empty (hm : (slotsAt p u).m = none) :
    mispredicted (trace p u).M.icode (trace p u).M.cnd = false := by
  rw [mispredicted, ((bubbles_trace p u).m hm).1]
  rfl

theorem eBubble_of_empty (he : (slotsAt p u).e = none) (hm : (slotsAt p u).m = none) :
    (trace p u).control.eBubble = false := by
  rw [eBubble_eq, mispredicted_of_empty hm, dStall_of_empty he]
  rfl

theorem setCc_of_empty (he : (slotsAt p u).e = none) : (trace p u).setCc = false := by
  rw [State.setCc, (bubbles_trace p u).e he]
  rfl

/-- Nothing is on its way to E. -/
theorem eFwd_of_empty (hm : (slotsAt p u).m = none) (hw : (slotsAt p u).w = none) :
    ∀ x ∈ (trace p u).eFwd, x.dst = noReg := by
  obtain ⟨-, -, hmE, -⟩ := (bubbles_trace p u).m hm
  obtain ⟨-, hwE, hwM⟩ := (bubbles_trace p u).w hw
  simp only [State.eFwd, List.forall_mem_cons, hmE, hwE, hwM, List.not_mem_nil, false_imp_iff,
    implies_true, and_self]

/-- Nor to D. -/
theorem dFwd_of_empty (he : (slotsAt p u).e = none) (hm : (slotsAt p u).m = none)
    (hw : (slotsAt p u).w = none) : ∀ x ∈ (trace p u).dFwd, x.dst = noReg := by
  obtain ⟨-, -, hmE, hmM⟩ := (bubbles_trace p u).m hm
  obtain ⟨-, hwE, hwM⟩ := (bubbles_trace p u).w hw
  have heE : (trace p u).eOut.dstE = noReg := by
    rw [State.eOut, (bubbles_trace p u).e he]
    rfl
  have hmM' : (trace p u).mOut.dstM = noReg := hmM
  simp only [State.dFwd, List.forall_mem_cons, heE, hmE, hmM', hwE, hwM, List.not_mem_nil,
    false_imp_iff, implies_true, and_self]

end

section

variable {fwd : List Fwd} (hfwd : ∀ x ∈ fwd, x.dst = noReg)

include hfwd

theorem select_of_noReg (src : BitVec 4) (d : Word) : select src d fwd = d := by
  refine select_of_not_hit ?_ d
  rintro ⟨hsrc, x, hx, hdst⟩
  exact hsrc (hdst.trans (hfwd x hx))

theorem pipeStageDecode_of_empty (D : FD) (rf : RegFile) :
    pipeStageDecode D rf fwd = pipeStageDecode D rf [] := by
  simp only [pipeStageDecode, select_of_noReg hfwd, select]

theorem pipeStageExecute_of_empty (E : DE) (cc : CC) :
    pipeStageExecute E cc fwd = pipeStageExecute E cc [] := by
  simp only [pipeStageExecute, select_of_noReg hfwd, select]

end

/-- Whether anything is stored does not depend on the undriven net. -/
theorem memWrite_emInput (e : ExecuteOut) (net net' : Word) :
    memWrite (emInput e net) = none ↔ memWrite (emInput e net') = none := by
  by_cases h : e.icode = icCall
  · have hctl : ∀ v, memControl (emInput e v) = ⟨false, true, e.valE, v⟩ := by
      intro v
      simp +decide [memControl, emInput, h]
    simp only [memWrite, hctl, ite_eq_right_iff, reduceCtorEq, imp_false]
  · have hctl : memControl (emInput e net) = memControl (emInput e net') := by
      simp only [memControl, emInput, h, if_false]
      rfl
    rw [memWrite, memWrite, hctl]

/-- What the instruction in W leaves to the one behind it, with only bubbles in between. -/
def State.afterRet (s : State) : SeqState := ⟨s.W.valM, s.regFile.after s.W, s.cc, s.dataMem⟩

/-- The word writes neither the condition codes nor memory nor a register. -/
def SeqState.Idle (s : SeqState) (D : FD) : Prop :=
  s.ccUpdate D = none ∧ s.memWrite D = none ∧ (s.result D).dstE = noReg ∧ (s.result D).dstM = noReg

instance (s : SeqState) (D : FD) : Decidable (s.Idle D) := by
  unfold SeqState.Idle; infer_instance

/-! ## From a `ret` in D to its return -/

section

variable {p : Setup} {t : Nat} {x : Fetched} (hw : (slotsAt p t).w = some x)
  (hr : (trace p t).W.icode = icRet)

include hw hr

/-- Nothing enters D behind a `ret` before the clock in which it is in W, and the PC stays. -/
theorem held_of_ret {u : Nat} (hxu : x.cycle < u) (hut : u < t) :
    ¬EntersD p u ∧ (trace p (u + 1)).fPc = (trace p u).fPc := by
  have hx : x ∈ (slotsAt p t).inFlight := Slots.mem_inFlight.mpr (.inl hw)
  have hic : (pipeStageFetch p.imem x.pc).icode = icRet := ((shows_trace p t).w x hw).symm.trans hr
  exact held_of_retHazard (retHazard_of_mem_younger
    (mem_younger_of_lt (cycle_fetchedAt p) hx hxu hut) hic)

theorem fPc_of_ret : (trace p t).fPc = (trace p (x.cycle + 1)).fPc :=
  fPc_of_held (stamp_lt_of_mem (cycle_fetchedAt p) (Slots.mem_inFlight.mpr (.inl hw)))
    fun _ hxu hut => (held_of_ret hw hr hxu hut).2

/-- Behind a `ret` in W there are only bubbles. -/
theorem younger_of_ret : (slotsAt p t).younger = [] := by
  refine List.eq_nil_iff_forall_not_mem.mpr fun y hy => ?_
  have hxy := stamp_lt_stamp_younger (cycle_fetchedAt p) hw hy
  have hyt := stamp_lt_of_mem (cycle_fetchedAt p) (List.mem_append_right _ hy)
  exact (held_of_ret hw hr hxy hyt).1 (entersD_of_inFlight (List.mem_append_right _ hy)).1

/-- In the clock in which a `ret` is in W, D takes the word at the held PC and the return address goes
into the PC. -/
theorem step_of_ret : (trace p (t + 1)).D = pipeStageFetch p.imem (trace p t).fPc ∧ EntersD p t ∧
    (slotsAt p (t + 1)).e = none ∧ (slotsAt p (t + 1)).m = none ∧ (slotsAt p (t + 1)).w = none ∧
      (trace p (t + 1)).fPc = (trace p t).W.valM := by
  have hy := younger_of_ret hw hr
  simp only [Slots.younger, List.append_eq_nil_iff, Option.toList_eq_nil_iff] at hy
  obtain ⟨hm, he, hd⟩ := hy
  have hstall := dStall_of_empty he
  have hmp := mispredicted_of_empty hm
  have hrh : retHazard (trace p t).D.icode (trace p t).E.icode (trace p t).M.icode = false := by
    have hb := bubbles_trace p t
    rw [hb.d hd, hb.e he, (hb.m hm).1]
    decide
  have hbub : (trace p t).control.dBubble = false := by
    rw [dBubble_eq, hmp, hstall, hrh]
    rfl
  have hF : (trace p t).control.fStall = false := by
    rw [fStall_eq, hstall, hrh]
    rfl
  have hM : ¬((trace p t).M.icode = icJxx ∧ (trace p t).M.cnd = true) := by
    simpa [mispredicted] using hmp
  obtain ⟨hD, hd'⟩ := step_d_of_free hbub hstall
  obtain ⟨-, -, he', hm'⟩ := step_em_of_free (eBubble_of_empty he hm)
  refine ⟨hD, hd', he'.trans hd, hm'.trans he, hm, ?_⟩
  rw [fPc_succ, if_pos hF, newPc, if_neg hM, if_pos hr]

theorem enters_of_ret_in_w : EntersD p t := (step_of_ret hw hr).2.1

/-! ## The word in the slot -/

/-- A clock later it is in E, decoded from the registers the `ret` has left. -/
theorem step_two_of_ret : (trace p (t + 2)).E =
      (trace p t).afterRet.decode (pipeStageFetch p.imem (trace p t).fPc) ∧
    (trace p (t + 2)).cc = (trace p t).cc ∧ (slotsAt p (t + 2)).e = some (fetchedAt p t) ∧
      (slotsAt p (t + 2)).m = none ∧ (slotsAt p (t + 2)).w = none := by
  obtain ⟨hD, hd, he, hm, hw', -⟩ := step_of_ret hw hr
  obtain ⟨hE, -, he', hm'⟩ := step_em_of_free (eBubble_of_empty he hm)
  have hreg : (trace p (t + 1)).regFile = (trace p t).afterRet.regFile := rfl
  have hy := younger_of_ret hw hr
  simp only [Slots.younger, List.append_eq_nil_iff, Option.toList_eq_nil_iff] at hy
  refine ⟨?_, ?_, he'.trans hd, hm'.trans he, hm⟩
  · rw [hE, State.dOut, hD, hreg]
    exact pipeStageDecode_of_empty (dFwd_of_empty he hm hw') _ _
  · rw [cc_step (setCc_of_empty he), cc_step (setCc_of_empty hy.2.1)]

/-- It stays there for one clock, whatever becomes of it. -/
theorem clock_of_e {u : Nat} (he : (slotsAt p u).e = some (fetchedAt p t)) : u = t + 2 := by
  cases u with
  | zero => contradiction
  | succ u =>
      have hd := (d_of_e he).2
      have htu : t < u := stamp_lt_of_mem (cycle_fetchedAt p) (Slots.mem_inFlight.mpr (.inr (.inr (.inr hd))))
      rcases Nat.lt_or_eq_of_le (Nat.succ_le_of_lt htu) with hlt | heq
      · have hd' : (slotsAt p (t + 1 + 1)).d = some (fetchedAt p t) :=
          d_of_lt (cycle_fetchedAt p) hd (Nat.lt_succ_of_lt (Nat.lt_succ_self t)) hlt
        have hs : (trace p (t + 1)).control.dStall = true :=
          (stall_of_d_succ (cycle_fetchedAt p) hd' (Nat.ne_of_lt (Nat.lt_succ_self t))).1
        rw [dStall_of_empty (step_of_ret hw hr).2.2.1] at hs
        contradiction
      · rw [← heq]

/-- Unless the word stalls itself, M and W get what it computes. -/
theorem step_three_of_ret {D : FD} (hD : pipeStageFetch p.imem (trace p t).fPc = D)
    (hb : (trace p (t + 2)).control.eBubble = false) :
    (slotsAt p (t + 3)).m = some (fetchedAt p t) ∧
      ((trace p (t + 3)).memWrite = none ↔ (trace p t).afterRet.memWrite D = none) ∧
      (trace p (t + 4)).W.dstE = ((trace p t).afterRet.result D).dstE ∧
      (trace p (t + 4)).W.dstM = ((trace p t).afterRet.result D).dstM := by
  obtain ⟨hE, hcc, he, hm, hw'⟩ := step_two_of_ret hw hr
  obtain ⟨-, hM, -, hm'⟩ := step_em_of_free hb
  have hout : (trace p (t + 2)).eOut = (trace p t).afterRet.execute D := by
    rw [State.eOut, hE, hcc, hD]
    exact pipeStageExecute_of_empty (eFwd_of_empty hm hw') _ _
  rw [hout] at hM
  have hdstE : (trace p (t + 3)).M.dstE = ((trace p t).afterRet.execute D).dstE := congrArg EM.dstE hM
  have hdstM : (trace p (t + 3)).M.dstM = ((trace p t).afterRet.execute D).dstM := congrArg EM.dstM hM
  refine ⟨hm'.trans he, ?_, hdstE, hdstM⟩
  rw [State.memWrite, hM]
  exact memWrite_emInput _ _ _

/-- The copy of the word that D takes from the return address stalls it if it stalls itself. -/
theorem eBubble_two_of_ret {D : FD} (hD : pipeStageFetch p.imem (trace p t).fPc = D)
    (hpc : (trace p t).fPc = (trace p t).W.valM) :
    (trace p (t + 2)).control.eBubble = true ↔ D.Stalls D := by
  obtain ⟨hD₁, -, he, hm, -, hpc₁⟩ := step_of_ret hw hr
  obtain ⟨hE, -, -, hm', -⟩ := step_two_of_ret hw hr
  have hlu : (trace p (t + 2)).control.dStall = loadUseHazard D.icode (dstM D.icode D.rA)
      (srcA (trace p (t + 2)).D.icode (trace p (t + 2)).D.rA)
      (srcB (trace p (t + 2)).D.icode (trace p (t + 2)).D.rB) := by
    have h : (trace p (t + 2)).control.dStall = loadUseHazard (trace p (t + 2)).E.icode
      (trace p (t + 2)).E.dstM (srcA (trace p (t + 2)).D.icode (trace p (t + 2)).D.rA)
      (srcB (trace p (t + 2)).D.icode (trace p (t + 2)).D.rB) := rfl
    rw [h, hE, hD]
    rfl
  rw [eBubble_eq, mispredicted_of_empty hm', Bool.false_or, hlu, FD.Stalls]
  by_cases hret : D.icode = icRet
  · rw [loadUseHazard, loadUseHazard, hret]
    rfl
  · have hbub : (trace p (t + 1)).control.dBubble = false := by
      have hrh : retHazard (trace p (t + 1)).D.icode (trace p (t + 1)).E.icode
          (trace p (t + 1)).M.icode = false := by
        rw [hD₁, hD, (bubbles_trace p (t + 1)).e he, ((bubbles_trace p (t + 1)).m hm).1, retHazard,
          beq_false_of_ne hret]
        rfl
      rw [dBubble_eq, mispredicted_of_empty hm, dStall_of_empty he, hrh]
      rfl
    have hcopy := (step_d_of_free hbub (dStall_of_empty he)).1
    rw [hpc₁, ← hpc, hD] at hcopy
    rw [hcopy]

/-- If the return address is the held PC, the word there writes something in the slot exactly when it
does not stall itself and has something to write. -/
theorem exists_writes_slot_iff {D : FD} (hD : pipeStageFetch p.imem (trace p t).fPc = D)
    (hpc : (trace p t).fPc = (trace p t).W.valM) :
    (∃ u, Writes p u (fetchedAt p t)) ↔ ¬(D.Stalls D ∨ (trace p t).afterRet.Idle D) := by
  obtain ⟨hE, -, he, -, -⟩ := step_two_of_ret hw hr
  have hbub := eBubble_two_of_ret hw hr hD hpc
  have hic : (trace p (t + 2)).E.icode = D.icode := by
    rw [hE, hD]
    rfl
  -- out of E in its clock, or nowhere
  have hm : ∀ u, (slotsAt p u).m = some (fetchedAt p t) →
      u = t + 3 ∧ (trace p (t + 2)).control.eBubble = false := by
    rintro (_ | u) hu
    · contradiction
    · obtain ⟨hb, he', -⟩ := e_of_m hu
      obtain rfl := clock_of_e hw hr he'
      exact ⟨rfl, hb⟩
  rw [← hbub, not_or, Bool.not_eq_true]
  constructor
  · rintro ⟨u, ⟨he', hset⟩ | ⟨hmem, hwr⟩ | ⟨hwb, hwr⟩⟩
    · obtain rfl := clock_of_e hw hr he'
      rw [State.setCc, hic, Bool.and_eq_true, beq_iff_eq, Bool.not_eq_true'] at hset
      refine ⟨hset.2, fun hidle => ?_⟩
      have hcc := hidle.1
      rw [SeqState.ccUpdate, if_pos hset.1] at hcc
      contradiction
    · obtain ⟨rfl, hb⟩ := hm u hmem
      exact ⟨hb, fun hidle => hwr ((step_three_of_ret hw hr hD hb).2.1.mpr hidle.2.1)⟩
    · cases u with
      | zero => contradiction
      | succ u =>
          obtain ⟨rfl, hb⟩ := hm u hwb
          obtain ⟨-, -, hdstE, hdstM⟩ := step_three_of_ret hw hr hD hb
          refine ⟨hb, fun hidle => ?_⟩
          exact hwr.elim (fun h => h (hdstE.trans hidle.2.2.1)) fun h => h (hdstM.trans hidle.2.2.2)
  · rintro ⟨hb, hidle⟩
    obtain ⟨hmem, hwr, hdstE, hdstM⟩ := step_three_of_ret hw hr hD hb
    have hwb : (slotsAt p (t + 4)).w = some (fetchedAt p t) := hmem
    by_contra hno
    refine hidle ⟨?_, ?_, ?_, ?_⟩
    · by_contra hcc
      have hal : D.icode = icAlu := by
        by_contra h
        exact hcc (if_neg h)
      refine hno ⟨t + 2, .inl ⟨he, ?_⟩⟩
      rw [State.setCc, hic, hal, hb]
      rfl
    · exact by_contra fun h => hno ⟨t + 3, .inr (.inl ⟨hmem, mt hwr.mp h⟩)⟩
    · exact by_contra fun h => hno ⟨t + 4, .inr (.inr ⟨hwb, .inl (hdstE ▸ h)⟩)⟩
    · exact by_contra fun h => hno ⟨t + 4, .inr (.inr ⟨hwb, .inr (hdstM ▸ h)⟩)⟩

end

/-- A `ret` has no delay slot if and only if it returns to the address that was in the PC behind it, and
the word there writes nothing from where the `ret` has left the registers, or is a load into a register
that it reads itself. -/
theorem noDelaySlot_iff (p : Setup) (t : Nat) (x : Fetched) (hw : (slotsAt p t).w = some x)
    (hr : (trace p t).W.icode = icRet) :
    NoDelaySlot p t x ↔ (trace p (x.cycle + 1)).fPc = (trace p t).W.valM ∧
      ((pipeStageFetch p.imem (trace p t).W.valM).Stalls (pipeStageFetch p.imem (trace p t).W.valM) ∨
        (trace p t).afterRet.Idle (pipeStageFetch p.imem (trace p t).W.valM)) := by
  have hlt : x.cycle < t :=
    stamp_lt_of_mem (cycle_fetchedAt p) (Slots.mem_inFlight.mpr (.inl hw))
  have henter := enters_of_ret_in_w hw hr
  rw [← fPc_of_ret hw hr]
  constructor
  · intro h
    obtain ⟨i, hxi, hi, hno, hpc⟩ := h.next
    have hpc' : (trace p t).fPc = (trace p t).W.valM := by
      rcases Nat.lt_trichotomy i t with h1 | h1 | h1
      · exact absurd hi (held_of_ret hw hr hxi h1).1
      · rwa [h1] at hpc
      · exact absurd henter (hno t hlt h1)
    refine ⟨hpc', by_contra fun hn => ?_⟩
    obtain ⟨u, hu⟩ := (exists_writes_slot_iff hw hr (by rw [hpc']) hpc').mpr hn
    exact h.quiet (fetchedAt p t) hlt (Nat.le_refl t) u hu
  · rintro ⟨hpc, hidle⟩
    refine ⟨⟨t, hlt, henter, fun j h1 h2 => (held_of_ret hw hr h1 h2).1, hpc⟩, ?_⟩
    intro y hxy hyt u hwr
    obtain ⟨hE, hy⟩ := entersD_of_inFlight (mem_inFlight_of_writes hwr)
    rcases Nat.lt_or_eq_of_le hyt with h1 | h1
    · exact (held_of_ret hw hr hxy h1).1 hE
    · rw [hy, h1] at hwr
      exact (exists_writes_slot_iff hw hr (by rw [hpc]) hpc).mp ⟨u, hwr⟩ hidle

/-- `ret` at address 0, with the return address 1 wherever it looks. -/
def retToNext : Setup := { Setup.ofBytes [0x90#8] with dataMem := fun _ => 1#64 }

theorem noDelaySlot_retToNext : NoDelaySlot retToNext 4 ⟨0, 0#64⟩ :=
  (noDelaySlot_iff retToNext 4 ⟨0, 0#64⟩ (by decide +kernel) (by decide +kernel)).mpr
    (by decide +kernel)

/-- `ret`, `irmovq $5, %rax`; data memory is all zeros. -/
def retThenIrmovq : Setup := Setup.ofBytes [0x90#8, 0x30#8, 0xF0#8, 0x05#8]

/-- The `ret` returns to 0, and yet the `irmovq` behind it writes its register. -/
theorem not_noDelaySlot_retThenIrmovq : (slotsAt retThenIrmovq 4).w = some ⟨0, 0#64⟩ ∧
    (trace retThenIrmovq 4).W.icode = icRet ∧ ¬NoDelaySlot retThenIrmovq 4 ⟨0, 0#64⟩ := by
  refine ⟨by decide +kernel, by decide +kernel, fun h => ?_⟩
  have hw : (slotsAt retThenIrmovq 8).w = some ⟨4, 1#64⟩ := by decide +kernel
  have hd : (trace retThenIrmovq 8).W.dstE ≠ noReg := by decide +kernel
  exact h.quiet ⟨4, 1#64⟩ (by decide) (by decide) 8 (.inr (.inr ⟨hw, .inl hd⟩))

end MyCpu.Y86
