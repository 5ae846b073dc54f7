import MyCpu.Y86.Conditions

/-!
# Conditions of the single-cycle Y86

`execute` computes the flags the pipeline computes, but its condition table takes `SF` for `SF ^ OF`.
After a `subq` whose difference does not fit, the four conditions that look at `SF` are wrong.

* `taken_iff_iff` : when a conditional instruction follows the signed order of an earlier `subq`;
* `cnd_alike_iff` : when both machines decide alike after the same OPqs;
* `cnd_iff` : both together.
-/

namespace MyCpu.Y86.Single

open Clocked Words

/-- The table is the one of the pipeline with `SF` in place of `SF ^ OF`. -/
theorem cond_relIfun (r : Rel) (cc : CC) : cond cc (relIfun r) = r.ofFlags cc.zf cc.sf := by
  cases r with
  | le => exact Bool.or_comm _ _
  | l => rfl
  | e => rfl
  | ne => rfl
  | ge => rfl
  | g => rfl

theorem cnd_of_conditional {icode : BitVec 4} (h : icode = icJxx ∨ icode = icRrmovl) (ifun : BitVec 4)
    (cc : CC) : cnd icode ifun cc = cond cc ifun := by
  rcases h with rfl | rfl
  · exact Bool.false_or _
  · exact Bool.or_false _

/-! ## After a `subq` -/

/-- The state `n` clocks after `s`. -/
def after (imem : IMem) (s : State) (n : Nat) : State := run (fun _ => step imem) s n

/-- `subq` executes in `s`, a conditional instruction `n` clocks later, and no OPq between them. -/
structure SubThenCond (imem : IMem) (s : State) (n : Nat) (r : Rel) : Prop where
  subq : (s.fetch imem).icode = icAlu ∧ (s.fetch imem).ifun = 0x1#4
  pos : 0 < n
  quiet : ∀ i, 0 < i → i < n → ((after imem s i).fetch imem).icode ≠ icAlu
  conditional : ((after imem s n).fetch imem).icode = icJxx ∨
    ((after imem s n).fetch imem).icode = icRrmovl
  rel : ((after imem s n).fetch imem).ifun = relIfun r

/-- The values of `rA` and `rB` when `s` executes. -/
def State.regA (imem : IMem) (s : State) : Word := s.regFile.read (s.fetch imem).rA

def State.regB (imem : IMem) (s : State) : Word := s.regFile.read (s.fetch imem).rB

section

variable {imem : IMem} {s : State} {n : Nat} {r : Rel}

theorem cc_step (h : (s.fetch imem).icode ≠ icAlu) : (step imem s).cc = s.cc := by
  have hstep : (step imem s).cc =
      ccReg (s.fetch imem).icode (s.fetch imem).ifun (s.valA imem) (s.valB imem) s.cc := rfl
  rw [hstep, ccReg, if_neg h]

theorem cc_subq (h : (s.fetch imem).icode = icAlu ∧ (s.fetch imem).ifun = 0x1#4) :
    (step imem s).cc = newCc 0x1#4 (s.regA imem) (s.regB imem) := by
  have hstep : (step imem s).cc =
      ccReg (s.fetch imem).icode (s.fetch imem).ifun (s.valA imem) (s.valB imem) s.cc := rfl
  have hA : s.valA imem = s.regA imem := by
    unfold State.valA State.regA
    rw [h.1]
    rfl
  have hB : s.valB imem = s.regB imem := by
    unfold State.valB State.regB
    rw [h.1]
    rfl
  rw [hstep, ccReg, if_pos h.1, h.2, hA, hB]

/-- The flags of the `subq` are still there. -/
theorem cc_after (h : SubThenCond imem s n r) :
    (after imem s n).cc = newCc 0x1#4 (s.regA imem) (s.regB imem) := by
  have hrun : ∀ i, 0 < i → i ≤ n → (after imem s i).cc = newCc 0x1#4 (s.regA imem) (s.regB imem) := by
    intro i hi
    induction i, hi using Nat.le_induction with
    | base => exact fun _ => cc_subq h.subq
    | succ i hi ih =>
        intro hin
        exact (cc_step (h.quiet i hi hin)).trans (ih (Nat.le_of_succ_le hin))
  exact hrun n h.pos (Nat.le_refl n)

theorem not_zf_of_overflow (a b : Word) (h : (newCc 0x1#4 a b).of = true) :
    (newCc 0x1#4 a b).zf = false := by
  rw [zf_sub]
  apply decide_eq_false
  intro heq
  refine (of_sub_iff a b).mp h ?_
  rw [heq, Int.sub_self]
  decide

/-- A condition after a `subq` follows the signed order of its operands if and only if it only asks
whether they are equal or the difference fits. -/
theorem taken_iff_iff (h : SubThenCond imem s n r) :
    ((after imem s n).cnd imem = true ↔ r.Holds (s.regB imem).toInt (s.regA imem).toInt) ↔
      r = .e ∨ r = .ne ∨ Fits 64 ((s.regB imem).toInt - (s.regA imem).toInt) := by
  have hcnd : (after imem s n).cnd imem = cond (after imem s n).cc (relIfun r) := by
    unfold State.cnd
    rw [cnd_of_conditional h.conditional, h.rel]
  rw [hcnd, cc_after h, cond_relIfun, ← cond_sub_iff, Y86.cond_relIfun, ← Bool.eq_iff_iff,
    Rel.ofFlags_xor_iff, ← Bool.not_eq_true, of_sub_iff, not_not]
  constructor
  · rintro (hfit | he | hne | ⟨hzf, -⟩)
    · exact .inr (.inr hfit)
    · exact .inl he
    · exact .inr (.inl hne)
    · right; right
      by_contra hfit
      rw [not_zf_of_overflow _ _ ((of_sub_iff _ _).mpr hfit)] at hzf
      exact Bool.false_ne_true hzf
  · rintro (he | hne | hfit)
    · exact .inr (.inl he)
    · exact .inr (.inr (.inl hne))
    · exact .inl hfit

end

/-! ## The two machines -/

/-- An OPq with its operands. -/
structure Opq where
  ifun : BitVec 4
  a : Word
  b : Word

/-- The instruction in E of the pipeline. -/
def Opq.inE (o : Opq) : DE :=
  ⟨statAok, icAlu, o.ifun, 0#64, 0#64, o.a, o.b, noReg, noReg, noReg, noReg⟩

/-- The exact result does not fit. -/
def Opq.Overflows (o : Opq) : Prop :=
  o.ifun = 0x0#4 ∧ ¬Fits 64 (o.b.toInt + o.a.toInt) ∨ o.ifun = 0x1#4 ∧ ¬Fits 64 (o.b.toInt - o.a.toInt)

/-- The flags of the single-cycle machine after these OPqs. -/
def flagsAfter (ops : List Opq) : CC :=
  ops.foldl (fun cc o => ccReg icAlu o.ifun o.a o.b cc) resetCc

/-- The flags of the pipeline after these OPqs. -/
def pipeFlagsAfter (ops : List Opq) : CC :=
  ops.foldl (fun cc o => Y86.ccReg o.inE false cc []) ⟨false, false, false⟩

/-- When both machines decide alike. Out of reset their `ZF` differ; after the last OPq only `OF`
can make a difference. -/
def Alike (last : Option Opq) (ifun : BitVec 4) : Prop :=
  match last with
  | none => ifun = 0x0#4 ∨ ifun = 0x2#4 ∨ ifun = 0x5#4 ∨ 0x7#4 ≤ ifun
  | some o => ¬o.Overflows ∨ ifun = 0x0#4 ∨ ifun = 0x3#4 ∨ ifun = 0x4#4 ∨ 0x7#4 ≤ ifun ∨
      (ifun = 0x1#4 ∨ ifun = 0x6#4) ∧ o.a = BitVec.intMin 64 ∧ o.b = BitVec.intMin 64

theorem flagsAfter_concat (ops : List Opq) (o : Opq) :
    flagsAfter (ops ++ [o]) = newCc o.ifun o.a o.b ∧ pipeFlagsAfter (ops ++ [o]) = newCc o.ifun o.a o.b := by
  unfold flagsAfter pipeFlagsAfter
  rw [List.foldl_append, List.foldl_append]
  exact ⟨rfl, rfl⟩

theorem of_newCc_iff (o : Opq) : (newCc o.ifun o.a o.b).of = true ↔ o.Overflows := by
  unfold Opq.Overflows
  by_cases h0 : o.ifun = 0x0#4
  · rw [h0, of_add_iff]
    simp
  · by_cases h1 : o.ifun = 0x1#4
    · rw [h1, of_sub_iff]
      simp
    · simp [newCc, h0, h1]

/-- An overflow leaves a result of 0 only when the two least words are added. -/
theorem zf_newCc_iff {o : Opq} (h : o.Overflows) :
    (newCc o.ifun o.a o.b).zf = true ↔ o.a = BitVec.intMin 64 ∧ o.b = BitVec.intMin 64 := by
  rcases h with ⟨hadd, hfit⟩ | ⟨hsub, hfit⟩
  · have hzf : (newCc o.ifun o.a o.b).zf = true ↔ o.b + o.a = 0#64 := by
      rw [hadd]
      exact beq_iff_eq
    rw [hzf]
    constructor
    · intro hsum
      have hnat : (o.b.toNat + o.a.toNat) % 18446744073709551616 = 0 := by
        rw [← BitVec.toNat_add, hsum]
        rfl
      obtain ⟨-, ha, ha1, ha2⟩ := toInt_cases o.a
      obtain ⟨-, hb, hb1, hb2⟩ := toInt_cases o.b
      unfold Fits at hfit
      constructor
      · apply BitVec.eq_of_toNat_eq
        show o.a.toNat = 9223372036854775808
        omega
      · apply BitVec.eq_of_toNat_eq
        show o.b.toNat = 9223372036854775808
        omega
    · rintro ⟨ha, hb⟩
      rw [ha, hb]
      decide
  · rw [hsub, not_zf_of_overflow _ _ ((of_sub_iff _ _).mpr hfit)]
    refine iff_of_false Bool.false_ne_true ?_
    rintro ⟨ha, hb⟩
    rw [ha, hb, Int.sub_self] at hfit
    exact hfit (by decide)

/-- Where the two condition tables agree. -/
theorem cond_eq_iff (cc : CC) (ifun : BitVec 4) : cond cc ifun = Y86.cond cc ifun ↔
    cc.of = false ∨ ifun = 0x0#4 ∨ ifun = 0x3#4 ∨ ifun = 0x4#4 ∨ 0x7#4 ≤ ifun ∨
      (ifun = 0x1#4 ∨ ifun = 0x6#4) ∧ cc.zf = true := by
  obtain ⟨zf, sf, of⟩ := cc
  revert zf sf of ifun
  decide

theorem alike_reset (ifun : BitVec 4) :
    cond resetCc ifun = Y86.cond ⟨false, false, false⟩ ifun ↔ Alike none ifun := by
  unfold Alike
  revert ifun
  decide

theorem alike_newCc (o : Opq) (ifun : BitVec 4) :
    cond (newCc o.ifun o.a o.b) ifun = Y86.cond (newCc o.ifun o.a o.b) ifun ↔ Alike (some o) ifun := by
  rw [cond_eq_iff, ← Bool.not_eq_true, of_newCc_iff]
  unfold Alike
  by_cases ho : o.Overflows
  · rw [zf_newCc_iff ho]
  · exact iff_of_true (.inl ho) (.inl ho)

/-- `Cnd_o` is `e_Cnd` after the same OPqs if and only if the last of them allows it. -/
theorem cnd_alike_iff (ops : List Opq) {E : DE} (fwd : List Fwd)
    (hE : E.icode = icJxx ∨ E.icode = icRrmovl) :
    cnd E.icode E.ifun (flagsAfter ops) = (pipeStageExecute E (pipeFlagsAfter ops) fwd).cnd ↔
      Alike ops.getLast? E.ifun := by
  have hpipe : (pipeStageExecute E (pipeFlagsAfter ops) fwd).cnd =
      Y86.cond (pipeFlagsAfter ops) E.ifun := rfl
  rw [hpipe, cnd_of_conditional hE]
  rcases List.eq_nil_or_concat ops with rfl | ⟨ops, o, rfl⟩
  · exact alike_reset E.ifun
  · obtain ⟨h1, h2⟩ := flagsAfter_concat ops o
    rw [List.concat_eq_append, h1, h2, List.getLast?_concat]
    exact alike_newCc o E.ifun

/-- Conditions follow the signed order of the last `subq`, and both machines decide alike, exactly
when no overflow that the condition looks at has been left in the flags. -/
theorem cnd_iff (imem : IMem) (s : State) (n : Nat) (r : Rel) (ops : List Opq) (E : DE)
    (fwd : List Fwd) :
    (SubThenCond imem s n r →
      (((after imem s n).cnd imem = true ↔ r.Holds (s.regB imem).toInt (s.regA imem).toInt) ↔
        r = .e ∨ r = .ne ∨ Fits 64 ((s.regB imem).toInt - (s.regA imem).toInt))) ∧
    (E.icode = icJxx ∨ E.icode = icRrmovl →
      (cnd E.icode E.ifun (flagsAfter ops) = (pipeStageExecute E (pipeFlagsAfter ops) fwd).cnd ↔
        Alike ops.getLast? E.ifun)) :=
  ⟨fun h => taken_iff_iff h, fun h => cnd_alike_iff ops fwd h⟩

/-- `irmovq $-2^63, %rax`, `subq %rcx, %rax`, `jl 0`; `%rcx` holds 1 out of reset. -/
def subThenJl : IMem := IMem.ofBytes
  [0x30#8, 0xF0#8, 0#8, 0#8, 0#8, 0#8, 0#8, 0#8, 0#8, 0x80#8, 0x61#8, 0x10#8,
    0x72#8, 0#8, 0#8, 0#8, 0#8, 0#8, 0#8, 0#8, 0#8]

/-- The state in which the `subq` executes. -/
def atSub : State := trace subThenJl (fun _ => 0#64) 1

/-- The least word is less than 1, and the jump is not taken; the pipeline takes it after the same
`subq`. -/
theorem not_taken_subThenJl : SubThenCond subThenJl atSub 1 .l ∧
    ¬((after subThenJl atSub 1).cnd subThenJl = true ↔
      Rel.l.Holds (atSub.regB subThenJl).toInt (atSub.regA subThenJl).toInt) ∧
    ∀ fwd, cnd icJxx 0x2#4 (flagsAfter [⟨0x1#4, 0x1#64, BitVec.intMin 64⟩]) ≠
      (pipeStageExecute { DE.bubble with icode := icJxx, ifun := 0x2#4 }
        (pipeFlagsAfter [⟨0x1#4, 0x1#64, BitVec.intMin 64⟩]) fwd).cnd := by
  have hpipe : cnd icJxx 0x2#4 (flagsAfter [⟨0x1#4, 0x1#64, BitVec.intMin 64⟩]) ≠
      Y86.cond (pipeFlagsAfter [⟨0x1#4, 0x1#64, BitVec.intMin 64⟩]) 0x2#4 := by decide
  refine ⟨⟨by decide +kernel, by decide, fun i h1 h2 => ?_, by decide +kernel, by decide +kernel⟩,
    by decide +kernel, fun _ => hpipe⟩
  exact absurd h1 (Nat.not_lt.mpr (Nat.le_of_lt_succ h2))

end MyCpu.Y86.Single
