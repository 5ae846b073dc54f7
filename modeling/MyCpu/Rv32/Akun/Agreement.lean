import MyCpu.Rv32.Akun.Forwarding
import MyCpu.Rv32.Akun.Sequential

/-!
# An instruction in the pipeline and on its own

A register of the pipeline agrees with a pass of the sequential machine on what the instruction
uses: an operand it does not read, or a result it does not write, may be anything.

* `ExOf`, `MemOf`, `WbOf` : agreement of `regE`, `regM` and `regW`;
* `memOf_toRegM`, `wbOf_toRegW` : it is handed on;
* `ExOf.nextPc`, `MemOf.memWrite`, `WbOf.write` : and it is enough for the next PC, the store and
  the register write.
-/

namespace MyCpu.Rv32.Akun

/-! ## What a word uses -/

/-- The words whose first source register `decode` reads. -/
def UsesRs1 (i : Word) : Prop := IType i ∨ BType i ∨ SType i ∨ RType i

/-- The words whose second source register it reads. -/
def UsesRs2 (i : Word) : Prop := BType i ∨ SType i ∨ RType i

/-- The words some format matches. -/
def Known (i : Word) : Prop := IType i ∨ RType i ∨ SType i ∨ BType i ∨ UType i ∨ JType i

section

variable {i : Word}

theorem rs1_of_uses (h : UsesRs1 i) : rs1 i = i.extractLsb' 15 5 := by
  have hno : ¬(UType i ∨ JType i) := by
    rcases h with (h | h | h | h) | h | h | h <;> simp +decide [h]
  unfold rs1
  rw [if_neg hno]
  exact if_pos h

theorem rs2_of_uses (h : UsesRs2 i) : rs2 i = i.extractLsb' 20 5 := by
  have hno : ¬(IType i ∨ UType i ∨ JType i) := by
    rcases h with h | h | h <;> simp +decide [h]
  unfold rs2
  rw [if_neg hno]
  exact if_pos h

theorem known_of_wbRegWen (h : (wbControl i).wbRegWen = true) : Known i := by
  rcases of_decide_eq_true h with h | h | h | h
  · exact .inl h
  · exact .inr (.inl h)
  · exact .inr (.inr (.inr (.inr (.inl h))))
  · exact .inr (.inr (.inr (.inr (.inr h))))

theorem known_of_memRw (h : memRw i ≠ memNoRw) : Known i := by
  by_cases hl : opcode i = opLoad
  · exact .inl (.inr (.inl hl))
  by_cases hs : opcode i = opStore
  · exact .inr (.inr (.inl hs))
  · exact absurd (memRw_of_opcode hl hs) h

theorem known_of_needJump {a b : Word} (h : decodeNeedJump i a b = true) : Known i := by
  rcases decodeNeedJump_cases h with h | h | h
  · exact .inr (.inr (.inr (.inl h)))
  · exact .inr (.inr (.inr (.inr (.inr h))))
  · exact .inl (.inr (.inr (.inr h)))

/-- The comparison of a branch looks at both operands, that of a jump at none. -/
theorem decodeNeedJump_congr {a b a' b' : Word} (h1 : UsesRs1 i → a = a') (h2 : UsesRs2 i → b = b') :
    decodeNeedJump i a b = decodeNeedJump i a' b' := by
  by_cases hb : opcode i = opBranch
  · rw [h1 (.inr (.inl hb)), h2 (.inl hb)]
  · rw [decodeNeedJump_of_opcode hb, decodeNeedJump_of_opcode hb]

end

/-! ## Agreement -/

structure ExOf (e : RegE) (p : Pass) : Prop where
  pc : e.pc = p.pc
  instr : e.instr = p.instr
  control : e.toControl = control p.instr
  needJump : e.needJump = p.needJump
  valA : UsesRs1 p.instr → e.valA = p.valA
  valB : UsesRs2 p.instr → e.valB = p.valB

structure MemOf (m : RegM) (p : Pass) : Prop where
  pc : m.pc = p.pc
  instr : m.instr = p.instr
  wbControl : m.toWbControl = wbControl p.instr
  memRw : m.memRw = memRw p.instr
  valE : Known p.instr → m.valE = p.valE
  valB : SType p.instr → m.valB = p.valB

structure WbOf (w : RegW) (p : Pass) : Prop where
  pc : w.pc = p.pc
  instr : w.instr = p.instr
  write : ∀ rf : RegFile, rf.after (writeBack w) = rf.after p.wb

section

variable {p : Pass}

/-- `execute` computes the same from the operands that are used. -/
theorem ExOf.valE {e : RegE} (h : ExOf e p) (hk : Known p.instr) : executeValE e = p.valE := by
  have hA : aluValA e = aluValA p.regE := by
    rw [aluValA_eq h.control, aluValA_eq rfl, h.pc]
    by_cases h1 : IType p.instr ∨ RType p.instr ∨ SType p.instr
    · rw [if_pos h1, if_pos h1, h.valA]
      · rfl
      · rcases h1 with h1 | h1 | h1
        · exact .inl h1
        · exact .inr (.inr (.inr h1))
        · exact .inr (.inr (.inl h1))
    · rw [if_neg h1, if_neg h1]
      rfl
  have hB : aluValB e = aluValB p.regE := by
    rw [aluValB_eq h.control, aluValB_eq rfl]
    by_cases hr : RType p.instr
    · rw [if_neg (fun h => h.1 hr), if_neg (fun h => h.1 hr), h.valB (.inr (.inr hr))]
      rfl
    · have hpos : ¬RType p.instr ∧ (IType p.instr ∨ SType p.instr ∨ BType p.instr ∨
          UType p.instr ∨ JType p.instr) := by
        refine ⟨hr, ?_⟩
        rcases hk with h | h | h | h | h | h
        · exact .inl h
        · exact absurd h hr
        · exact .inr (.inl h)
        · exact .inr (.inr (.inl h))
        · exact .inr (.inr (.inr (.inl h)))
        · exact .inr (.inr (.inr (.inr h)))
      rw [if_pos hpos, if_pos hpos]
  unfold Pass.valE executeValE
  rw [hA, hB, h.control]
  rfl

theorem ExOf.nextPc {e : RegE} (h : ExOf e p) :
    (if e.needJump then executeValE e else e.pc + 4#32) = p.nextPc := by
  unfold Pass.nextPc selectPc
  rw [h.needJump, h.pc]
  cases hj : p.needJump with
  | false => rfl
  | true => exact h.valE (known_of_needJump hj)

theorem memOf_toRegM {e : RegE} (h : ExOf e p) : MemOf (toRegM e) p where
  pc := h.pc
  instr := h.instr
  wbControl := congrArg Control.toWbControl h.control
  memRw := congrArg Control.memRw h.control
  valE := h.valE
  valB := fun hs => h.valB (.inr (.inl hs))

theorem MemOf.memWrite {m : RegM} (h : MemOf m p) : memoryWrite m = p.memWrite := by
  unfold Pass.memWrite memoryWrite
  rw [h.memRw, Pass.regM_memRw]
  by_cases hs : SType p.instr
  · rw [h.valE (.inr (.inr (.inl hs))), h.valB hs]
    rfl
  · obtain ⟨h1, h2, h3⟩ := not_store_of_opcode hs
    rw [if_neg h1, if_neg h2, if_neg h3, if_neg h1, if_neg h2, if_neg h3]

theorem MemOf.valM {m : RegM} (h : MemOf m p) (pm : Mem) : memoryValM pm m = memoryValM pm p.regM := by
  unfold memoryValM
  rw [h.memRw, Pass.regM_memRw]
  by_cases hrw : Akun.memRw p.instr = memNoRw
  · rw [if_pos hrw, if_pos hrw]
  · rw [h.valE (known_of_memRw hrw)]
    rfl

theorem wbOf_toRegW {m : RegM} {pm : Mem} (h : MemOf m p) (hp : pm = p.pmem) :
    WbOf (toRegW pm m) p where
  pc := h.pc
  instr := h.instr
  write := by
    intro rf
    have hen : (writeBack (toRegW pm m)).regWrEn = (wbControl p.instr).wbRegWen :=
      congrArg WbControl.wbRegWen h.wbControl
    have hrd : (writeBack (toRegW pm m)).wrAddr = (wbControl p.instr).wbRd :=
      congrArg WbControl.wbRd h.wbControl
    have hen' : p.wb.regWrEn = (wbControl p.instr).wbRegWen := rfl
    have hrd' : p.wb.wrAddr = (wbControl p.instr).wbRd := rfl
    unfold RegFile.after
    rw [hen, hrd, hen', hrd']
    cases hw : (wbControl p.instr).wbRegWen with
    | false => rfl
    | true =>
        have hdata : (writeBack (toRegW pm m)).wrData = p.wb.wrData := by
          have hsel : m.wbValDSel = (wbControl p.instr).wbValDSel :=
            congrArg WbControl.wbValDSel h.wbControl
          show (if m.wbValDSel = _ then m.valE else if m.wbValDSel = _ then m.pc + 4#32 else
            if m.wbValDSel = _ then memoryValM pm m else _) = _
          rw [hsel, h.valE (known_of_wbRegWen hw), h.pc, h.valM, hp]
          rfl
        rw [hdata]

end

end MyCpu.Rv32.Akun
