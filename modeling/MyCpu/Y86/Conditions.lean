import MyCpu.Words.Flags
import MyCpu.Y86.Operands
import MyCpu.Y86.SingleCycleIsa

/-!
# Condition codes of the pipelined Y86

`subq` leaves flags from which the six conditions read the signed order of its operands, also where
the difference does not fit, and only an OPq in E changes them.

* `relIfun` : the conditions of `cmovXX` and `jXX` as relations;
* `cc_of_quiet` : the flags survive everything that is not an OPq;
* `flagsSigned` : conditions after a `subq`, flags after an `addq`, and what leaves the flags alone.
-/

namespace MyCpu.Y86

open Words

/-- The function code of `cmovXX` and `jXX`. -/
def relIfun : Rel → BitVec 4
  | .le => 0x1#4
  | .l => 0x2#4
  | .e => 0x3#4
  | .ne => 0x4#4
  | .ge => 0x5#4
  | .g => 0x6#4

/-! ## Flags of one operation -/

theorem cond_relIfun (r : Rel) (cc : CC) : cond cc (relIfun r) = r.ofFlags cc.zf (cc.sf ^^ cc.of) := by
  cases r <;> rfl

theorem newCc_sub (a b : Word) : newCc 0x1#4 a b = Isa.AluOp.flags .subq b a := Single.newCc_eq .subq a b

theorem newCc_add (a b : Word) : newCc 0x0#4 a b = Isa.AluOp.flags .addq b a := Single.newCc_eq .addq a b

theorem zf_sub (a b : Word) : (newCc 0x1#4 a b).zf = decide (b.toInt = a.toInt) := by
  rw [newCc_sub]
  exact decide_eq_decide.mpr (sub_eq_zero_iff b a)

theorem less_sub (a b : Word) :
    ((newCc 0x1#4 a b).sf ^^ (newCc 0x1#4 a b).of) = decide (b.toInt < a.toInt) := by
  rw [newCc_sub]
  exact sub_sign b a

/-- The conditions read the order of the operands off the flags of their difference. -/
theorem cond_sub_iff (r : Rel) (a b : Word) :
    cond (newCc 0x1#4 a b) (relIfun r) = true ↔ r.Holds b.toInt a.toInt := by
  rw [cond_relIfun, less_sub, zf_sub]
  exact r.ofFlags_iff _ _

theorem of_sub_iff (a b : Word) : (newCc 0x1#4 a b).of = true ↔ ¬Fits 64 (b.toInt - a.toInt) := by
  rw [newCc_sub]
  exact decide_eq_true_iff.trans (not_congr (toInt_sub_eq_iff b a))

theorem of_add_iff (a b : Word) : (newCc 0x0#4 a b).of = true ↔ ¬Fits 64 (b.toInt + a.toInt) := by
  rw [newCc_add]
  exact decide_eq_true_iff.trans (not_congr (toInt_add_eq_iff b a))

theorem sign_add (a b : Word) :
    ((newCc 0x0#4 a b).sf ^^ (newCc 0x0#4 a b).of) = decide (b.toInt + a.toInt < 0) := by
  rw [newCc_add]
  exact add_sign b a

/-! ## Flags in a run -/

/-- No OPq sets the flags in the clocks between `t` and `u`. -/
def NoOpqBetween (p : Setup) (t u : Nat) : Prop := ∀ i, t < i → i < u → (trace p i).setCc = false

section

variable {p : Setup} {t u : Nat}

theorem cc_of_quiet (htu : t < u) (h : NoOpqBetween p t u) : (trace p u).cc = (trace p (t + 1)).cc := by
  induction u, htu using Nat.le_induction with
  | base => rfl
  | succ u htu ih =>
      rw [cc_step (h u htu (Nat.lt_succ_self u))]
      exact ih fun i hti hiu => h i hti (Nat.lt_succ_of_lt hiu)

/-- An OPq that E does not drop leaves the flags of its operands. -/
theorem cc_of_opq (hic : (trace p t).E.icode = icAlu) (hb : (trace p t).control.eBubble = false) :
    (trace p (t + 1)).cc = newCc (trace p t).E.ifun (trace p t).aluA (trace p t).aluB := by
  have hstep : (trace p (t + 1)).cc = ccReg (trace p t).E (trace p t).control.eBubble
      (trace p t).cc (trace p t).eFwd := rfl
  rw [hstep, ccReg, if_pos ⟨hic, hb⟩]
  rfl

end

/-- Whatever state it is in, the machine changes its flags only for an OPq in E that no taken jump in
M cancels. -/
theorem opq_of_cc_ne {imem : IMem} {net : Word} {s : State} (h : (step imem net s).cc ≠ s.cc) :
    s.E.icode = icAlu ∧ mispredicted s.M.icode s.M.cnd = false := by
  have hstep : (step imem net s).cc = ccReg s.E s.control.eBubble s.cc s.eFwd := rfl
  rw [hstep, ccReg] at h
  split at h
  · next hopq =>
      refine ⟨hopq.1, ?_⟩
      have hb := hopq.2
      rw [eBubble_eq, Bool.or_eq_false_iff] at hb
      exact hb.1
  · exact absurd rfl h

/-- The flags of a run decide signed comparison, and only an OPq changes them. -/
structure FlagsSigned (p : Setup) : Prop where
  /-- For every pair of operands, the conditions read off the flags `subq` computes. -/
  operands : ∀ r a b, cond (newCc 0x1#4 a b) (relIfun r) = true ↔ r.Holds b.toInt a.toInt
  /-- A `subq` in E at clock `t`, and a conditional instruction in E at a later clock `u`. -/
  sub : ∀ t u r, t < u → (trace p t).E.icode = icAlu → (trace p t).E.ifun = 0x1#4 →
    (trace p t).control.eBubble = false → NoOpqBetween p t u →
    (trace p u).E.icode = icJxx ∨ (trace p u).E.icode = icRrmovl → (trace p u).E.ifun = relIfun r →
    ((trace p u).eOut.cnd = true ↔ r.Holds (trace p t).aluB.toInt (trace p t).aluA.toInt)
  /-- An `addq` in E at clock `t`. -/
  add : ∀ t, (trace p t).E.icode = icAlu → (trace p t).E.ifun = 0x0#4 →
    (trace p t).control.eBubble = false →
    ((trace p (t + 1)).cc.of = true ↔ ¬Fits 64 ((trace p t).aluB.toInt + (trace p t).aluA.toInt)) ∧
      ((trace p (t + 1)).cc.sf ^^ (trace p (t + 1)).cc.of) =
        decide ((trace p t).aluB.toInt + (trace p t).aluA.toInt < 0)
  frame : ∀ t, (trace p (t + 1)).cc ≠ (trace p t).cc →
    (trace p t).E.icode = icAlu ∧ mispredicted (trace p t).M.icode (trace p t).M.cnd = false

theorem flagsSigned (p : Setup) : FlagsSigned p where
  operands := cond_sub_iff
  sub := by
    intro t u r htu hic hif hb hquiet _ hrel
    have hcc : (trace p u).cc = newCc 0x1#4 (trace p t).aluA (trace p t).aluB := by
      rw [cc_of_quiet htu hquiet, cc_of_opq hic hb, hif]
    have hcnd : (trace p u).eOut.cnd = cond (trace p u).cc (trace p u).E.ifun := rfl
    rw [hcnd, hcc, hrel]
    exact cond_sub_iff r _ _
  add := by
    intro t hic hif hb
    rw [cc_of_opq hic hb, hif]
    exact ⟨of_add_iff _ _, sign_add _ _⟩
  frame := fun _ h => opq_of_cc_ne h

/-- `irmovq $-2^63, %rax`, `irmovq $1, %rcx`, `subq %rcx, %rax`, `nop`, `cmovl %rcx, %rdx`, `jge 0`. -/
def subThenCmovl : Setup := Setup.ofBytes
  [0x30#8, 0xF0#8, 0#8, 0#8, 0#8, 0#8, 0#8, 0#8, 0#8, 0x80#8,
    0x30#8, 0xF1#8, 0x01#8, 0#8, 0#8, 0#8, 0#8, 0#8, 0#8, 0#8,
    0x61#8, 0x10#8, 0x00#8, 0x22#8, 0x12#8, 0x75#8]

theorem noOpqBetween_subThenCmovl {u : Nat} (hu : u ≤ 7) : NoOpqBetween subThenCmovl 4 u := by
  have h : ∀ i < 7, 4 < i → (trace subThenCmovl i).setCc = false := by decide +kernel
  exact fun i hlo hhi => h i (Nat.lt_of_lt_of_le hhi hu) hlo

/-- The difference does not fit, the `cmovl` moves, and the `jge` does not jump. -/
theorem flagsSigned_subThenCmovl :
    ((trace subThenCmovl 4).aluB = BitVec.intMin 64 ∧ (trace subThenCmovl 4).aluA = 1#64) ∧
      ((trace subThenCmovl 6).E.icode = icRrmovl ∧ (trace subThenCmovl 6).eOut.cnd = true) ∧
      (trace subThenCmovl 7).E.icode = icJxx ∧ ¬(trace subThenCmovl 7).eOut.cnd = true := by
  have hsub := fun u r htu => (flagsSigned subThenCmovl).sub 4 u r htu (by decide +kernel)
    (by decide +kernel) (by decide +kernel)
  have hB : (trace subThenCmovl 4).aluB = BitVec.intMin 64 := by decide +kernel
  have hA : (trace subThenCmovl 4).aluA = 1#64 := by decide +kernel
  have hcmovl := hsub 6 .l (by decide) (noOpqBetween_subThenCmovl (by decide)) (by decide +kernel)
    (by decide +kernel)
  have hjge := hsub 7 .ge (by decide) (noOpqBetween_subThenCmovl (by decide)) (by decide +kernel)
    (by decide +kernel)
  rw [hA, hB] at hcmovl hjge
  exact ⟨⟨hB, hA⟩, ⟨by decide +kernel, hcmovl.mpr (by decide)⟩, by decide +kernel,
    mt hjge.mp (by decide)⟩

end MyCpu.Y86
