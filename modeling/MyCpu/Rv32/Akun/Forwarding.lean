import MyCpu.Rv32.Akun.PipelineInv

/-!
# Forwarding into `decode`

Three clocks retire the instructions in `regW`, `regM` and `regE`, so the register file the older
instructions leave behind is `(step (step (step s))).regfile`.

* `Bypassable` : the words whose result `execute` has when they write a register, loads apart;
* `select_of_regE`, `select_of_regM`, `select_of_regW` : the multiplexer passes on what the nearest
  writer will write;
* `select_eq` : behind such words, an operand that leaves `regD` is the one the older instructions
  leave in its register.
-/

namespace MyCpu.Rv32.Akun

/-- A word that writes a value `regE` can pass on, or one the load-use stall waits for: neither
`SYSTEM`, which writes a value from memory without reading any, nor a load of no known width. -/
def Bypassable (i : Word) : Prop :=
  opcode i ≠ opSystem ∧ (opcode i = opLoad → Load (memRw i))

/-! ## Written values -/

theorem wbValDSel_cases (i : Word) : (wbControl i).wbValDSel = wbValDSelValE ∨
    (wbControl i).wbValDSel = wbValDSelValM ∨ (wbControl i).wbValDSel = wbValDSelValP := by
  unfold wbControl
  dsimp only
  split_ifs
  · exact .inl rfl
  · exact .inr (.inl rfl)
  · exact .inr (.inr rfl)
  · exact .inr (.inl rfl)

/-- Of the bypassable words only loads write a value from memory. -/
theorem load_of_valM {i : Word} (hi : opcode i ≠ opSystem) (hw : (wbControl i).wbRegWen = true)
    (hs : (wbControl i).wbValDSel = wbValDSelValM) : opcode i = opLoad := by
  unfold wbControl at hw hs
  dsimp only at hw hs
  split_ifs at hs with h1 h2 h3
  · exact absurd hs (by decide)
  · exact h2
  · exact absurd hs (by decide)
  · rw [decide_eq_true_iff] at hw
    rcases hw with (h | h | h | h) | h | h | h
    · exact absurd (.inr (.inl h)) h1
    · exact h
    · exact absurd h hi
    · exact absurd (.inl h) h3
    · exact absurd (.inl h) h1
    · exact absurd (.inr (.inr h)) h1
    · exact absurd (.inr h) h3

/-- Reading behind a write-back. -/
theorem read_after (rf : RegFile) (w : RegW) (r : BitVec 5) :
    (rf.after (writeBack w)).read r =
      if w.toWbControl.Hits r then (writeBack w).wrData else rf.read r := by
  unfold RegFile.after
  rw [RegFile.read_write]
  refine if_congr ?_ rfl rfl
  show w.wbRegWen = true ∧ w.wbRd ≠ 0#5 ∧ r = w.wbRd ↔ r = w.wbRd ∧ w.wbRd ≠ 0#5 ∧ w.wbRegWen = true
  exact ⟨fun h => ⟨h.2.2, h.2.1, h.1⟩, fun h => ⟨h.2.2, h.2.1, h.1⟩⟩

/-- An instruction that writes no register but `x0` leaves the register file as it is. -/
theorem after_of_rd_zero (rf : RegFile) {w : RegW} (h : w.wbRd = 0#5) : rf.after (writeBack w) = rf := by
  unfold RegFile.after RegFile.write
  exact if_neg fun hw => hw.2 h

/-! ## Operands -/

section

variable {s : State} (h : Inv s)

include h

/-- `regE` passes on what its instruction will write, when the one in `regD` need not wait. -/
theorem valE_of_hits (hj : s.needJump = false) (hl : s.loadUse = false)
    (hE : s.regE.commit = true → Bypassable s.regE.instr) {r : BitVec 5}
    (hr : r = rs1 s.regD.instr ∨ r = rs2 s.regD.instr) (hit : s.regE.toWbControl.Hits r) :
    s.regE.wbValDSel = wbValDSelValE := by
  cases hc : s.regE.commit with
  | false => exact (h.e_bubble hc).wbValDSel
  | true =>
      have hctl := congrArg Control.toWbControl (h.e_control hc)
      have hsel : s.regE.wbValDSel = (wbControl s.regE.instr).wbValDSel :=
        congrArg WbControl.wbValDSel hctl
      rcases wbValDSel_cases s.regE.instr with hs | hs | hs
      · exact hsel.trans hs
      · -- a load that `regD` would wait for
        have hw : (wbControl s.regE.instr).wbRegWen = true :=
          (congrArg WbControl.wbRegWen hctl).symm.trans hit.2.2
        have hload := (hE hc).2 (load_of_valM (hE hc).1 hw hs)
        have hrw : s.regE.memRw = memRw s.regE.instr := congrArg Control.memRw (h.e_control hc)
        have huse : s.loadUse = true := by
          unfold State.loadUse loadUse
          rw [hrw, ← hit.1]
          exact decide_eq_true ⟨hr, hload⟩
        rw [hl] at huse
        contradiction
      · rw [jump_of_link h (hsel.trans hs)] at hj
        contradiction

/-- From `regE` comes what its instruction writes. -/
theorem select_of_regE (hj : s.needJump = false) (hl : s.loadUse = false)
    (hE : s.regE.commit = true → Bypassable s.regE.instr) {r : BitVec 5}
    (hr : r = rs1 s.regD.instr ∨ r = rs2 s.regD.instr) (hit : s.regE.toWbControl.Hits r) (v : Word)
    (m : Mem) : s.bypass.select r v = (writeBack (toRegW m (toRegM s.regE))).wrData := by
  have hs : s.regE.wbValDSel = wbValDSelValE := valE_of_hits h hj hl hE hr hit
  unfold Bypass.select State.bypass writeBack
  dsimp only
  rw [if_pos hit]
  exact (if_pos hs).symm

/-- From `regM`, when nothing newer is in `regE`. -/
theorem select_of_regM (hd : s.regD.commit = true) {r : BitVec 5} (hE : ¬s.regE.toWbControl.Hits r)
    (hit : s.regM.toWbControl.Hits r) (v : Word) :
    s.bypass.select r v = (writeBack (toRegW s.pmem s.regM)).wrData := by
  have hc : s.regM.commit = true :=
    Bool.of_not_eq_false fun hc => absurd (h.m_bubble hc).1 hit.2.1
  have hsel : s.regM.wbValDSel = (wbControl s.regM.instr).wbValDSel :=
    congrArg WbControl.wbValDSel (h.m_control hc)
  unfold Bypass.select State.bypass writeBack
  dsimp only
  rw [if_neg hE]
  show _ = if s.regM.wbValDSel = _ then s.regM.valE else if s.regM.wbValDSel = _ then _ else
    if s.regM.wbValDSel = _ then s.valM else _
  rcases wbValDSel_cases s.regM.instr with hs | hs | hs
  · rw [hsel, hs, if_neg (fun h => absurd h.2 (by decide)), if_pos ⟨hit, rfl⟩, if_pos rfl]
  · rw [hsel, hs, if_pos ⟨hit, rfl⟩, if_neg (by decide), if_neg (by decide), if_pos rfl]
  · -- a link, behind which `regD` holds nothing
    rw [h.m_link (hsel.trans hs)] at hd
    contradiction

/-- From `regW`, when nothing newer is in front of it. -/
theorem select_of_regW {r : BitVec 5} (hE : ¬s.regE.toWbControl.Hits r)
    (hM : ¬s.regM.toWbControl.Hits r) (hit : s.regW.toWbControl.Hits r) (v : Word) :
    s.bypass.select r v = (writeBack s.regW).wrData := by
  have hc : s.regW.commit = true :=
    Bool.of_not_eq_false fun hc => absurd (h.w_bubble hc) hit.2.1
  have hsel : s.regW.wbValDSel = (wbControl s.regW.instr).wbValDSel :=
    congrArg WbControl.wbValDSel (h.w_control hc)
  unfold Bypass.select State.bypass writeBack
  dsimp only
  rw [if_neg hE, if_neg (fun h => hM h.1), if_neg (fun h => hM h.1)]
  rcases wbValDSel_cases s.regW.instr with hs | hs | hs <;> simp +decide [hit, hsel, hs]

/-- What an instruction that leaves `regD` gets for a register it reads. -/
theorem select_eq (hd : s.regD.commit = true) (hj : s.needJump = false) (hl : s.loadUse = false)
    (hE : s.regE.commit = true → Bypassable s.regE.instr) {r : BitVec 5}
    (hr : r = rs1 s.regD.instr ∨ r = rs2 s.regD.instr) :
    s.bypass.select r (s.regfile.read r) = (step (step (step s))).regfile.read r := by
  have hchain : (step (step (step s))).regfile =
      ((s.regfile.after (writeBack s.regW)).after (writeBack (toRegW s.pmem s.regM))).after
        (writeBack (toRegW (step s).pmem (toRegM s.regE))) := rfl
  rw [hchain, read_after, read_after, read_after, toRegW_toWbControl, toRegM_toWbControl,
    toRegW_toWbControl]
  by_cases hhE : s.regE.toWbControl.Hits r
  · rw [if_pos hhE]
    exact select_of_regE h hj hl hE hr hhE _ _
  by_cases hhM : s.regM.toWbControl.Hits r
  · rw [if_neg hhE, if_pos hhM]
    exact select_of_regM h hd hhE hhM _
  by_cases hhW : s.regW.toWbControl.Hits r
  · rw [if_neg hhE, if_neg hhM, if_pos hhW]
    exact select_of_regW h hhE hhM hhW _
  · unfold Bypass.select State.bypass
    simp only [hhE, hhM, hhW, false_and, if_false]

end

end MyCpu.Rv32.Akun
