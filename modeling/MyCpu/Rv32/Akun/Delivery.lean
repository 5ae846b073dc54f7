import MyCpu.Rv32.Akun.Forwarding

/-!
# What `decode` takes from later stages

An operand comes from E, M, W or the register file. `write_back` writes the producer's value two
clocks after it was taken from E, one after M, and at once from W. From M and W this is always the
value taken. E passes on its ALU result whatever it will write: `SYSTEM` and a load of no known
width write 0 instead, and nothing waits for them.

* `TakesE`, `TakesM`, `TakesW` : the arm of the multiplexer that delivers;
* `Delivered` : what is taken is what will be written;
* `bypassSound_iff` : exactly when a state delivers only such values.
-/

namespace MyCpu.Rv32.Akun

namespace State

variable (s : State) (r : BitVec 5)

/-- The multiplexer takes `execute_i_valE`. -/
def TakesE : Prop := s.regE.toWbControl.Hits r

/-- It takes `memory_i_valM` or `regM_i_valE`. -/
def TakesM : Prop :=
  ¬s.TakesE r ∧ s.regM.toWbControl.Hits r ∧
    (s.regM.wbValDSel = wbValDSelValM ∨ s.regM.wbValDSel = wbValDSelValE)

/-- It takes one of the three values in W. -/
def TakesW : Prop :=
  ¬s.TakesE r ∧ ¬s.TakesM r ∧ s.regW.toWbControl.Hits r ∧
    (s.regW.wbValDSel = wbValDSelValE ∨ s.regW.wbValDSel = wbValDSelValM ∨
      s.regW.wbValDSel = wbValDSelValP)

end State

/-- The write port writes `v` to `r` in `s`, and the register holds it afterwards. -/
def WritesBack (s : State) (r : BitVec 5) (v : Word) : Prop :=
  s.wb = ⟨true, r, v⟩ ∧ (step s).regfile r = v

/-- A value `v` taken for register `r` is the one the instruction it was taken from writes back. -/
structure Delivered (s : State) (r : BitVec 5) (v : Word) : Prop where
  e : s.TakesE r → WritesBack (step (step s)) r v
  m : s.TakesM r → WritesBack (step s) r v
  w : s.TakesW r → WritesBack s r v

/-- Both operands of an instruction that goes on to `regE`. -/
def BypassSound (s : State) : Prop :=
  s.Advances → Delivered s (rs1 s.regD.instr) s.valA ∧ Delivered s (rs2 s.regD.instr) s.valB

/-- Where the instruction that goes on reads the register of a `SYSTEM` instruction, or of a load of
no known width, directly in front of it, operand and immediate of that one add up to 0. -/
def BypassOk (s : State) : Prop :=
  s.Advances → ∀ r, r = rs1 s.regD.instr ∨ r = rs2 s.regD.instr → s.regE.toWbControl.Hits r →
    Bypassable s.regE.instr ∨ s.regE.valA + s.regE.imm = 0#32

/-! ## Words that write 0 -/

section

variable {i : Word}

theorem memRw_of_load (hop : opcode i = opLoad) (h : ¬Load (memRw i)) : memRw i = memNoRw := by
  have hs : opcode i ≠ opStore := by rw [hop]; decide
  revert h
  unfold memRw
  simp only [SType, hs, false_and, if_false]
  split_ifs <;> decide

/-- `SYSTEM`, or a load of no known width. -/
theorem opcode_of_not_bypassable (h : ¬Bypassable i) :
    (opcode i = opSystem ∨ opcode i = opLoad) ∧ memRw i = memNoRw := by
  unfold Bypassable at h
  by_cases hsys : opcode i = opSystem
  · exact ⟨.inl hsys, memRw_of_opcode (by rw [hsys]; decide) (by rw [hsys]; decide)⟩
  · by_cases hload : opcode i = opLoad
    · exact ⟨.inr hload, memRw_of_load hload fun hl => h ⟨hsys, fun _ => hl⟩⟩
    · exact absurd ⟨hsys, fun hl => absurd hl hload⟩ h

/-- Their ALU result is operand plus immediate. -/
theorem executeValE_of_not_bypassable {r : RegE} (h : ¬Bypassable i) (hc : r.toControl = control i) :
    executeValE r = r.valA + r.imm := by
  obtain ⟨hop, -⟩ := opcode_of_not_bypassable h
  have hI : IType i := hop.elim (fun h => .inr (.inr (.inl h))) fun h => .inr (.inl h)
  have hne : opcode i ≠ opAlu ∧ opcode i ≠ opAlui := by
    rcases hop with h | h <;> rw [h] <;> decide
  have hfunc : r.aluFuncSel = aluFuncAdd :=
    (congrArg Control.aluFuncSel hc).trans (aluFuncSel_of_opcode hne)
  have hA : aluValA r = r.valA := (aluValA_eq hc).trans (if_pos (.inl hI))
  have hB : aluValB r = r.imm :=
    ((aluValB_eq hc).trans (if_pos ⟨hne.1, .inl hI⟩)).trans (congrArg Control.imm hc).symm
  unfold executeValE alu
  rw [hfunc, if_pos rfl, hA, hB]

/-- What they write. -/
theorem wrData_of_not_bypassable {r : RegE} (h : ¬Bypassable i) (hc : r.toControl = control i) (m : Mem) :
    (writeBack (toRegW m (toRegM r))).wrData = 0#32 := by
  have hsel : r.wbValDSel = wbValDSelValM :=
    (congrArg (fun c : Control => c.wbValDSel) hc).trans (wbValDSel_of_opcode (opcode_of_not_bypassable h).1)
  have hrw : r.memRw = memNoRw :=
    (congrArg Control.memRw hc).trans (opcode_of_not_bypassable h).2
  have hM : memoryValM m (toRegM r) = 0#32 := by
    unfold memoryValM extend toRegM
    dsimp only
    rw [hrw]
    rfl
  show (if r.wbValDSel = _ then _ else if r.wbValDSel = _ then _ else
    if r.wbValDSel = _ then memoryValM m (toRegM r) else _) = _
  rw [hsel, hM]
  rfl

end

/-! ## Write-back of what was taken -/

theorem wb_step_step (s : State) :
    (step (step s)).wb = writeBack (toRegW (step s).pmem (toRegM s.regE)) := rfl

theorem wb_step (s : State) : (step s).wb = writeBack (toRegW s.pmem s.regM) := rfl

theorem writeBack_of_hits {w : RegW} {r : BitVec 5} (hit : w.toWbControl.Hits r) :
    writeBack w = ⟨true, r, (writeBack w).wrData⟩ := by
  obtain ⟨hr, -, hen⟩ := hit
  show (⟨w.wbRegWen, w.wbRd, (writeBack w).wrData⟩ : WriteBack) = _
  rw [hen, ← hr]

theorem writesBack_iff {s : State} {r : BitVec 5} {v : Word} (hr : r ≠ 0#5) :
    WritesBack s r v ↔ s.wb = ⟨true, r, v⟩ := by
  refine ⟨And.left, fun h => ⟨h, ?_⟩⟩
  rw [step_regfile, h]
  unfold RegFile.after RegFile.write
  rw [if_pos ⟨rfl, hr⟩, Function.update_self]

/-- An instruction that writes `r` writes back `v` just when that is its data. -/
theorem writesBack_of_hits {s : State} {w : RegW} {r : BitVec 5} {v : Word} (hs : s.wb = writeBack w)
    (hit : w.toWbControl.Hits r) : WritesBack s r v ↔ (writeBack w).wrData = v := by
  have hr : r ≠ 0#5 := hit.1 ▸ hit.2.1
  rw [writesBack_iff hr, hs, writeBack_of_hits hit]
  exact ⟨fun h => congrArg WriteBack.wrData h, fun h => by rw [h]⟩

section

variable {s : State} (h : Inv s) {r : BitVec 5}

include h

theorem commit_of_hits (hit : s.regE.toWbControl.Hits r) : s.regE.commit = true :=
  Bool.of_not_eq_false fun hc => absurd (h.e_bubble hc).wbRd hit.2.1

/-- Nothing but a link hides M, and behind a link `regD` is empty. -/
theorem not_hits_of_not_takesM (hd : s.regD.commit = true) (hE : ¬s.TakesE r) (hM : ¬s.TakesM r) :
    ¬s.regM.toWbControl.Hits r := by
  intro hit
  have hc : s.regM.commit = true := Bool.of_not_eq_false fun hc => absurd (h.m_bubble hc).1 hit.2.1
  have hsel : s.regM.wbValDSel = (wbControl s.regM.instr).wbValDSel :=
    congrArg WbControl.wbValDSel (h.m_control hc)
  rcases wbValDSel_cases s.regM.instr with hs | hs | hs
  · exact hM ⟨hE, hit, .inr (hsel.trans hs)⟩
  · exact hM ⟨hE, hit, .inl (hsel.trans hs)⟩
  · rw [h.m_link (hsel.trans hs)] at hd
    exact Bool.false_ne_true hd

/-- From E comes what the instruction writes if and only if it is a word E may pass on, or writes 0
and its result is 0. -/
theorem writesBack_regE_iff (ha : s.Advances) (hr : r = rs1 s.regD.instr ∨ r = rs2 s.regD.instr)
    (hit : s.TakesE r) (v : Word) : WritesBack (step (step s)) r (s.bypass.select r v) ↔
      Bypassable s.regE.instr ∨ s.regE.valA + s.regE.imm = 0#32 := by
  obtain ⟨-, hj, hl⟩ := ha
  rw [writesBack_of_hits (wb_step_step s) hit]
  by_cases hB : Bypassable s.regE.instr
  · exact iff_of_true (select_of_regE h hj hl (fun _ => hB) hr hit v _).symm (.inl hB)
  · have hc := h.e_control (commit_of_hits h hit)
    have hsel : s.bypass.select r v = s.regE.valA + s.regE.imm :=
      (if_pos hit).trans (executeValE_of_not_bypassable hB hc)
    rw [wrData_of_not_bypassable hB hc, hsel]
    exact ⟨fun h0 => .inr h0.symm, fun h0 => (h0.resolve_left hB).symm⟩

/-- An operand of an instruction that goes on is what its producer writes back exactly when E passes
on no result that is not written. -/
theorem delivered_iff (ha : s.Advances) (hr : r = rs1 s.regD.instr ∨ r = rs2 s.regD.instr) (v : Word) :
    Delivered s r (s.bypass.select r v) ↔ (s.regE.toWbControl.Hits r →
      Bypassable s.regE.instr ∨ s.regE.valA + s.regE.imm = 0#32) := by
  constructor
  · intro hdel hit
    exact (writesBack_regE_iff h ha hr hit v).mp (hdel.e hit)
  · intro hE
    refine ⟨fun hit => (writesBack_regE_iff h ha hr hit v).mpr (hE hit), ?_, ?_⟩
    · rintro ⟨hne, hit, -⟩
      rw [writesBack_of_hits (wb_step s) hit]
      exact (select_of_regM h ha.1 hne hit v).symm
    · rintro ⟨hne, hnm, hit, -⟩
      rw [writesBack_of_hits rfl hit]
      exact (select_of_regW h hne (not_hits_of_not_takesM h ha.1 hne hnm) hit v).symm

end

/-- In every state of every run, whatever words memory holds, the values taken from later stages are
those that are written back, exactly when E passes on no result of a `SYSTEM` instruction, or of a
load of no known width, other than the 0 these write. -/
theorem bypassSound_iff (s₀ : State) (t : Nat) : BypassSound (trace s₀ t) ↔ BypassOk (trace s₀ t) := by
  have h := inv_trace s₀ t
  generalize trace s₀ t = s at h
  constructor
  · rintro hs ha r (rfl | rfl)
    · exact (delivered_iff h ha (.inl rfl) _).mp (hs ha).1
    · exact (delivered_iff h ha (.inr rfl) _).mp (hs ha).2
  · intro hs ha
    exact ⟨(delivered_iff h ha (.inl rfl) _).mpr (hs ha _ (.inl rfl)),
      (delivered_iff h ha (.inr rfl) _).mpr (hs ha _ (.inr rfl))⟩

/-- `csrrs x1, mscratch, x0`, which here is a `SYSTEM` word that adds its immediate to `x0`, and
`add x2, x1, x0`. -/
def csrThenUse : State :=
  { (default : State) with
    pmem := Mem.ofWords resetVector [0x340020F3#32, 0x00008133#32]
    regfile := fun _ => 0#32 }

/-- The `add` takes 0x340 for `x1`, into which 0 is written. -/
theorem not_bypassSound_csrThenUse : (trace csrThenUse 2).Advances ∧
    (trace csrThenUse 2).valA = 0x340#32 ∧ (trace csrThenUse 4).wb = ⟨true, 1#5, 0#32⟩ ∧
    ¬BypassSound (trace csrThenUse 2) := by
  have ha : (trace csrThenUse 2).Advances := ⟨by decide +kernel, by decide +kernel, by decide +kernel⟩
  have hE : (trace csrThenUse 2).TakesE (rs1 (trace csrThenUse 2).regD.instr) :=
    ⟨by decide +kernel, by decide +kernel, by decide +kernel⟩
  have hval : (trace csrThenUse 2).valA = 0x340#32 := by decide +kernel
  have hwb : (trace csrThenUse 4).wb = ⟨true, 1#5, 0#32⟩ := by decide +kernel
  refine ⟨ha, hval, hwb, fun hs => ?_⟩
  have hdel := ((hs ha).1.e hE).1
  have hdata := congrArg WriteBack.wrData (hwb.symm.trans hdel)
  rw [hval] at hdata
  exact absurd hdata (by decide)

end MyCpu.Rv32.Akun
