import MyCpu.Rv32.PipelineInv

/-!
# Forwarding

The operands EX computes with against the register file the older instructions leave behind. Two
clocks retire the instructions in MEM and WB, so that register file is `(step (step s)).regfile`.

* `operand_eq` : an operand read from any register is the one the older instructions leave there,
  as long as MEM forwards only for an opcode that write-back writes;
* `forwardingSound_iff` : over all runs and all instruction words forwarding is sound but for an
  unsupported opcode in MEM. `mem_reg_wr_en` is a deny-list and `write_back_pipe` an allow-list,
  and an opcode on neither list is forwarded although nothing will be written.
-/

namespace MyCpu.Rv32.Pipe

namespace State

/-- `rs1_val` of `execute_pipe`. -/
def rs1Val (s : State) : Word :=
  forwardMux s.forwardA s.ex.rs1Data s.memWrData s.wbOut.wrData

/-- `rs2_val` of `execute_pipe`. -/
def rs2Val (s : State) : Word :=
  forwardMux s.forwardB s.ex.rs2Data s.memWrData s.wbOut.wrData

end State

theorem exRs2Fwd_eq (s : State) : s.exRs2Fwd = s.rs2Val := rfl

theorem forwardSel_eq_mem_iff (s : State) (r : BitVec 5) :
    forwardSel r s.mem.rd s.memRegWrEn s.wbOut = 0b01#2 ↔
      s.memRegWrEn = true ∧ s.mem.rd ≠ 0#5 ∧ s.mem.rd = r := by
  unfold forwardSel
  split
  · next h => exact iff_of_true rfl h
  · next h =>
      refine iff_of_false ?_ h
      split <;> decide

theorem step_wbOut (s : State) : (step s).wbOut = writeBackTable s.mem.opcode s.mem.rd
    s.mem.aluResult (memoryAccessPipe s.pmem s.mem) s.mem.pcPlus4 := rfl

theorem step_step_regfile (s : State) :
    (step (step s)).regfile = (s.regfile.after s.wbOut).after (step s).wbOut := rfl

theorem memRegWrEn_of_writesReg {s : State} (hw : WritesReg s.mem.opcode) (hrd : s.mem.rd ≠ 0#5) :
    s.memRegWrEn = true := by
  simp [State.memRegWrEn, hrd, not_denied_of_writesReg hw]

/-- What write-back does with an instruction MEM forwards from. -/
theorem step_wbOut_of_forward {s : State} (h : Inv s) {r : BitVec 5}
    (hload : s.mem.opcode = opLoad → s.mem.rd ≠ 0#5 → s.mem.rd ≠ r)
    (hsel : forwardSel r s.mem.rd s.memRegWrEn s.wbOut = 0b01#2) (hw : WritesReg s.mem.opcode) :
    (step s).wbOut = ⟨true, r, s.memWrData⟩ := by
  obtain ⟨-, hrd, rfl⟩ := (forwardSel_eq_mem_iff s _).mp hsel
  have hne : s.mem.opcode ≠ opLoad := fun hl => hload hl hrd rfl
  have hdata : (step s).wbOut.wrData = s.memWrData :=
    writeBackTable_wrData _ _ hw hne h.mem_link
  rw [step_wbOut] at hdata ⊢
  have hen := writeBackTable_regWrEn s.mem.opcode s.mem.rd s.mem.aluResult
    (memoryAccessPipe s.pmem s.mem) s.mem.pcPlus4
  have haddr := writeBackTable_wrAddr s.mem.opcode s.mem.rd s.mem.aluResult
    (memoryAccessPipe s.pmem s.mem) s.mem.pcPlus4
  generalize writeBackTable s.mem.opcode s.mem.rd s.mem.aluResult _ _ = wb at *
  obtain ⟨en, addr, data⟩ := wb
  simp only at hdata hen haddr
  rw [hdata, hen, haddr, decide_eq_true hw]

/-- An operand read from register `r` is what the instructions in WB and MEM leave in `r`. -/
theorem operand_eq {s : State} (h : Inv s) {r : BitVec 5} {data : Word}
    (hdata : data = s.regfile.read r)
    (hload : s.mem.opcode = opLoad → s.mem.rd ≠ 0#5 → s.mem.rd ≠ r)
    (hw : forwardSel r s.mem.rd s.memRegWrEn s.wbOut = 0b01#2 → WritesReg s.mem.opcode) :
    forwardMux (forwardSel r s.mem.rd s.memRegWrEn s.wbOut) data s.memWrData s.wbOut.wrData =
      (step (step s)).regfile.read r := by
  rw [step_step_regfile, RegFile.after, RegFile.read_write, RegFile.after, RegFile.read_write]
  by_cases hsel : forwardSel r s.mem.rd s.memRegWrEn s.wbOut = 0b01#2
  · -- MEM is the youngest writer of `r`
    have hwb := step_wbOut_of_forward h hload hsel (hw hsel)
    obtain ⟨-, hrd, hr⟩ := (forwardSel_eq_mem_iff s r).mp hsel
    rw [hsel, hwb, if_pos ⟨rfl, hr ▸ hrd, rfl⟩]
    rfl
  · -- MEM does not write `r`, and the choice is between WB and the latched operand
    have hmem : ¬((step s).wbOut.regWrEn = true ∧ (step s).wbOut.wrAddr ≠ 0#5 ∧
        r = (step s).wbOut.wrAddr) := by
      rw [step_wbOut, writeBackTable_regWrEn, writeBackTable_wrAddr, decide_eq_true_eq]
      rintro ⟨hwr, hrd, rfl⟩
      exact hsel ((forwardSel_eq_mem_iff s _).mpr ⟨memRegWrEn_of_writesReg hwr hrd, hrd, rfl⟩)
    rw [if_neg hmem]
    unfold forwardSel at hsel ⊢
    split at hsel
    · exact absurd rfl hsel
    · next hno =>
        rw [if_neg hno]
        by_cases hwbsel : s.wbOut.regWrEn = true ∧ s.wbOut.wrAddr ≠ 0#5 ∧ s.wbOut.wrAddr = r
        · rw [if_pos hwbsel, if_pos ⟨hwbsel.1, hwbsel.2.1, hwbsel.2.2.symm⟩]
          rfl
        · rw [if_neg hwbsel, if_neg (fun hc => hwbsel ⟨hc.1, hc.2.1, hc.2.2.symm⟩)]
          exact hdata

theorem rs1Val_eq {s : State} (h : Inv s) (hw : s.forwardA = 0b01#2 → WritesReg s.mem.opcode) :
    s.rs1Val = (step (step s)).regfile.read s.ex.rs1 :=
  operand_eq h h.ex_rs1Data (fun hl hrd => (h.mem_load hl hrd).1) hw

theorem rs2Val_eq {s : State} (h : Inv s) (hw : s.forwardB = 0b01#2 → WritesReg s.mem.opcode) :
    s.rs2Val = (step (step s)).regfile.read s.ex.rs2 :=
  operand_eq h h.ex_rs2Data (fun hl hrd => (h.mem_load hl hrd).2) hw

/-! ## Forwarding from MEM -/

/-- What forwarding promises in a state: a value taken from MEM is the one write-back writes to
that register in the next clock, and both operands are what the older instructions leave. -/
structure ForwardingSound (s : State) : Prop where
  a : s.forwardA = 0b01#2 → (step s).wbOut = ⟨true, s.ex.rs1, s.memWrData⟩ ∧
    (step (step s)).regfile s.ex.rs1 = s.memWrData
  b : s.forwardB = 0b01#2 → (step s).wbOut = ⟨true, s.ex.rs2, s.memWrData⟩ ∧
    (step (step s)).regfile s.ex.rs2 = s.memWrData
  rs1Val : s.rs1Val = (step (step s)).regfile.read s.ex.rs1
  rs2Val : s.rs2Val = (step (step s)).regfile.read s.ex.rs2

theorem regfile_of_wbOut {s : State} {r : BitVec 5} {v : Word} (hr : r ≠ 0#5)
    (h : (step s).wbOut = ⟨true, r, v⟩) : (step (step s)).regfile r = v := by
  rw [step_step_regfile, h, RegFile.after, RegFile.write, if_pos ⟨rfl, hr⟩, Function.update_self]

/-- An instruction in MEM is forwarded from unless its opcode is on the deny-list. -/
theorem forwardSel_of_not_denied {s : State} {r : BitVec 5} (hrd : s.mem.rd ≠ 0#5)
    (hr : s.mem.rd = r) (h : ¬Supported s.mem.opcode) :
    forwardSel r s.mem.rd s.memRegWrEn s.wbOut = 0b01#2 := by
  refine (forwardSel_eq_mem_iff s r).mpr ⟨?_, hrd, hr⟩
  simp only [Supported, List.mem_cons, List.not_mem_nil, or_false, not_or] at h
  simp [State.memRegWrEn, hrd, h]

/-- On the supported opcodes MEM is forwarded from only when write-back will write. -/
theorem writesReg_of_forward {s : State} {r : BitVec 5}
    (hs : s.mem.rd ≠ 0#5 → s.mem.rd = r → Supported s.mem.opcode)
    (hsel : forwardSel r s.mem.rd s.memRegWrEn s.wbOut = 0b01#2) : WritesReg s.mem.opcode := by
  obtain ⟨hen, hrd, hr⟩ := (forwardSel_eq_mem_iff s r).mp hsel
  simp only [State.memRegWrEn, decide_eq_true_eq] at hen
  obtain ⟨-, h1, h2, h3, h4⟩ := hen
  exact writesReg_of_supported (hs hrd hr) h1 h2 h3 h4

/-- In every state of every run, over arbitrary words in memory, forwarding keeps its promise
exactly when the opcode in MEM is a supported one or EX reads no register MEM names. -/
theorem forwardingSound_iff (rf : RegFile) (m : Mem) (t : Nat) :
    ForwardingSound (trace rf m t) ↔
      ((trace rf m t).mem.rd ≠ 0#5 → (trace rf m t).mem.rd = (trace rf m t).ex.rs1 ∨
        (trace rf m t).mem.rd = (trace rf m t).ex.rs2 → Supported (trace rf m t).mem.opcode) := by
  have h := inv_trace rf m t
  generalize trace rf m t = s at h
  have hwrites : ∀ {r : BitVec 5}, (step s).wbOut = ⟨true, r, s.memWrData⟩ →
      Supported s.mem.opcode := by
    intro r hwb
    have hen := congrArg WriteBack.regWrEn hwb
    rw [step_wbOut, writeBackTable_regWrEn] at hen
    exact supported_of_writesReg (of_decide_eq_true hen)
  constructor
  · intro hs hrd hor
    by_contra hno
    rcases hor with hr | hr
    · exact hno (hwrites (hs.a (forwardSel_of_not_denied hrd hr hno)).1)
    · exact hno (hwrites (hs.b (forwardSel_of_not_denied hrd hr hno)).1)
  · intro hs
    have hwa : s.forwardA = 0b01#2 → WritesReg s.mem.opcode :=
      writesReg_of_forward fun hrd hr => hs hrd (.inl hr)
    have hwb : s.forwardB = 0b01#2 → WritesReg s.mem.opcode :=
      writesReg_of_forward fun hrd hr => hs hrd (.inr hr)
    have ha : s.forwardA = 0b01#2 → (step s).wbOut = ⟨true, s.ex.rs1, s.memWrData⟩ := fun hsel =>
      step_wbOut_of_forward h (fun hl hrd => (h.mem_load hl hrd).1) hsel (hwa hsel)
    have hb : s.forwardB = 0b01#2 → (step s).wbOut = ⟨true, s.ex.rs2, s.memWrData⟩ := fun hsel =>
      step_wbOut_of_forward h (fun hl hrd => (h.mem_load hl hrd).2) hsel (hwb hsel)
    refine ⟨fun hsel => ⟨ha hsel, ?_⟩, fun hsel => ⟨hb hsel, ?_⟩, rs1Val_eq h hwa, rs2Val_eq h hwb⟩
    · obtain ⟨-, hrd, hr⟩ := (forwardSel_eq_mem_iff s _).mp hsel
      exact regfile_of_wbOut (hr ▸ hrd) (ha hsel)
    · obtain ⟨-, hrd, hr⟩ := (forwardSel_eq_mem_iff s _).mp hsel
      exact regfile_of_wbOut (hr ▸ hrd) (hb hsel)

/-- `addi x1, x0, 5`, a word with opcode 0001011 and `rd` = 1, `add x2, x1, x0`. -/
def customOp : Mem := Mem.ofWords resetVector [0x00500093#32, 0x0000008B#32, 0x00008133#32]

/-- The `add` takes 0 for `x1`, which no instruction has written or will write. -/
theorem not_forwardingSound_customOp :
    ¬ForwardingSound (trace (fun _ => 0#32) customOp 4) := by
  intro h
  have ha : (trace (fun _ => 0#32) customOp 4).forwardA = 0b01#2 := by decide +kernel
  have hwb : (step (trace (fun _ => 0#32) customOp 4)).wbOut.regWrEn = false := by
    decide +kernel
  rw [(h.a ha).1] at hwb
  contradiction

end MyCpu.Rv32.Pipe
