import MyCpu.Rv32.Assembly

/-!
# Multiplication without a multiplier

`am/src/riscv/npc/libgcc/muldi3.S` for a register width of 32, where `__muldi3` is `__mulsi3`. The CPUs
have no multiplication instruction, so this is what `*` on words is compiled to.

* `muldi3` : the file;
* `mulsi3_returns` : called anywhere, on any words, it returns their product.
-/

namespace MyCpu.Runtime

open Machine Rv32 Isa

inductive MulLabel
  | mulsi3 | L1 | L2
  deriving DecidableEq

open Line in
/-- `muldi3.S`. -/
def muldi3 : List (Line MulLabel) := [
  label .mulsi3,
  mv a2 a0,
  li a0 0#12,
  label .L1,
  andi a3 a1 1#12,
  beqz a3 .L2,
  add a0 a0 a2,
  label .L2,
  srli a1 a1 1#5,
  slli a2 a2 1#5,
  bnez a1 .L1,
  ret]

/-- The multiplicand as often as the low digit says. -/
theorem ite_and_one (a b : Word) :
    (if a &&& 1#32 = 0#32 then 0#32 else b) = (a &&& 1#32) * b := by
  by_cases h : a &&& 1#32 = 0#32
  · rw [if_pos h, h, BitVec.zero_mul]
  · have h1 : a &&& 1#32 = 1#32 := by
      refine BitVec.eq_of_toNat_eq ?_
      have hne : (a &&& 1#32).toNat ≠ 0 := fun hz => h (BitVec.eq_of_toNat_eq hz)
      rw [toNat_and_one] at hne ⊢
      exact Nat.mod_two_ne_zero.mp hne
    rw [if_neg h, h1, BitVec.one_mul]

/-- One binary digit of the product. -/
theorem mul_digit (a b : Word) :
    (if a &&& 1#32 = 0#32 then 0#32 else b) + (a >>> 1) * (b <<< 1) = a * b := by
  have ha : (a &&& 1#32) + 2#32 * (a >>> 1) = a := by
    refine BitVec.eq_of_toNat_eq ?_
    have := a.isLt
    rw [BitVec.toNat_add, BitVec.toNat_mul, toNat_and_one, BitVec.toNat_ushiftRight,
      Nat.shiftRight_eq_div_pow]
    simp only [BitVec.toNat_ofNat]
    omega
  have hb : b <<< 1 = 2#32 * b := by
    rw [BitVec.shiftLeft_eq_mul_twoPow, BitVec.mul_comm]
    rfl
  calc (if a &&& 1#32 = 0#32 then 0#32 else b) + (a >>> 1) * (b <<< 1)
      = (a &&& 1#32) * b + (a >>> 1) * (2#32 * b) := by rw [ite_and_one, hb]
    _ = ((a &&& 1#32) + 2#32 * (a >>> 1)) * b := by grind
    _ = a * b := by rw [ha]

section

variable {m : Word → Byte} {base : Word}

/-- The registers the routine writes. -/
abbrev mulRegs : List (BitVec 5) := [a0, a1, a2, a3]

/-- Instructions 2 to 4: the multiplicand is added when the low digit of the multiplier is 1. -/
theorem mul_add (hc : HasCode m base (assemble muldi3)) (y : Regs) :
    Leads Step (atInstr m base 2 y) fun t => ∃ z, t = atInstr m base 5 z ∧
      z a0 = y a0 + (if y a1 &&& 1#32 = 0#32 then 0#32 else y a2) ∧ z a1 = y a1 ∧ z a2 = y a2 ∧
      Frame mulRegs y z := by
  have hf : Frame mulRegs y (y.set a3 (y a1 &&& 1#32)) := (Frame.refl _ y).set _ (by decide)
  refine leads_result hc rfl rfl ?_
  refine leads_branch hc rfl 5 rfl (fun hb => ?_) (fun hb => ?_)
  · have h0 : y a1 &&& 1#32 = 0#32 := of_decide_eq_true hb
    refine .now ⟨_, rfl, ?_, rfl, rfl, hf⟩
    rw [if_pos h0, BitVec.add_zero]
    rfl
  · have h1 : y a1 &&& 1#32 ≠ 0#32 := of_decide_eq_false hb
    refine leads_result hc rfl rfl (.now ⟨_, rfl, ?_, rfl, rfl, hf.set _ (by decide)⟩)
    rw [if_neg h1]
    rfl

/-- Instructions 5 to 7: both operands are shifted, and the loop ends when the multiplier is 0. -/
theorem mul_shift (hc : HasCode m base (assemble muldi3)) (y : Regs) :
    Leads Step (atInstr m base 5 y) fun t => ∃ z,
      t = atInstr m base (if y a1 >>> 1 = 0#32 then 8 else 2) z ∧ z a0 = y a0 ∧
      z a1 = y a1 >>> 1 ∧ z a2 = y a2 <<< 1 ∧ Frame mulRegs y z := by
  have hf : Frame mulRegs y ((y.set a1 (y a1 >>> 1)).set a2 (y a2 <<< 1)) :=
    ((Frame.refl _ y).set _ (by decide)).set _ (by decide)
  refine leads_result hc rfl rfl (leads_result hc rfl rfl ?_)
  refine leads_branch hc rfl 2 rfl (fun hb => ?_) (fun hb => ?_)
  · have h1 : y a1 >>> 1 ≠ 0#32 := of_decide_eq_true hb
    rw [if_neg h1]
    exact .now ⟨_, rfl, rfl, rfl, rfl, hf⟩
  · have h0 : ¬y a1 >>> 1 ≠ 0#32 := of_decide_eq_false hb
    rw [if_pos (not_not.mp h0)]
    exact .now ⟨_, rfl, rfl, rfl, rfl, hf⟩

/-- The loop adds the product of multiplier and multiplicand to the sum. -/
theorem mul_loop (hc : HasCode m base (assemble muldi3)) (x : Regs) :
    Leads Step (atInstr m base 2 x) fun t => ∃ z, t = atInstr m base 8 z ∧
      z a0 = x a0 + x a1 * x a2 ∧ Frame mulRegs x z := by
  refine Leads.loop (fun n s => ∃ y, s = atInstr m base 2 y ∧ n = (y a1).toNat ∧
    y a0 + y a1 * y a2 = x a0 + x a1 * x a2 ∧ Frame mulRegs x y) ?_
    ⟨x, rfl, rfl, rfl, Frame.refl _ x⟩
  rintro n s ⟨y, rfl, rfl, hsum, hf⟩
  refine (mul_add hc y).seq ?_
  rintro _ ⟨z, rfl, hz0, hz1, hz2, hfz⟩
  refine (mul_shift hc z).mono ?_
  rintro _ ⟨w, rfl, hw0, hw1, hw2, hfw⟩
  have hfx : Frame mulRegs x w := (hf.trans hfz).trans hfw
  have hsum' : w a0 + w a1 * w a2 = x a0 + x a1 * x a2 := by
    rw [hw0, hw1, hw2, hz0, hz1, hz2, BitVec.add_assoc, mul_digit, hsum]
  by_cases h0 : z a1 >>> 1 = 0#32
  · refine .inl ⟨w, by rw [if_pos h0], ?_, hfx⟩
    rw [← hsum', hw1, h0, BitVec.zero_mul, BitVec.add_zero]
  · refine .inr ⟨_, ?_, w, by rw [if_neg h0], rfl, hsum', hfx⟩
    have hpos : (y a1 >>> 1).toNat ≠ 0 := fun h => h0 (by rw [hz1]; exact BitVec.eq_of_toNat_eq h)
    rw [hw1, hz1]
    rw [BitVec.toNat_ushiftRight, Nat.shiftRight_eq_div_pow] at hpos ⊢
    omega

theorem mulsi3_leads (hc : HasCode m base (assemble muldi3)) (x : Regs) :
    Leads Step (atInstr m base 0 x) fun t =>
      Returned mulRegs (atInstr m base 0 x) t ∧ t.x a0 = x a0 * x a1 := by
  have hf : Frame mulRegs x ((x.set a2 (x a0)).set a0 0#32) :=
    ((Frame.refl _ x).set _ (by decide)).set _ (by decide)
  refine leads_mv hc rfl (by decide) (leads_li hc rfl ((mul_loop hc _).seq ?_))
  rintro _ ⟨z, rfl, hz, hfz⟩
  have hfx : Frame mulRegs x z := hf.trans hfz
  refine leads_jr hc rfl (by decide) (.now ⟨⟨?_, rfl, hfx⟩, ?_⟩)
  · exact congrArg (· &&& ~~~1#32) (hfx ra (by decide))
  · rw [BitVec.mul_comm]
    exact hz.trans (BitVec.zero_add _)

end

/-- `__mulsi3` returns the product of its arguments to its caller, wherever it stands and whatever
the arguments are; it writes no memory and no register but `a0` to `a3`. -/
theorem mulsi3_returns (s : Arch) (hc : HasCode s.mem s.pc (assemble muldi3)) :
    Leads Step s fun t => Returned mulRegs s t ∧ t.x a0 = s.x a0 * s.x a1 := by
  have h := mulsi3_leads hc s.x
  rwa [atInstr, codeAddr_zero] at h

/-- A call with the arguments 6 and 7. -/
theorem mulsi3_returns_six_seven :
    Leads Step ⟨0x80000000#32, fun r => if r = a0 then 6#32 else if r = a1 then 7#32 else 0#32,
      Mem.ofWords 0x80000000#32 ((assemble muldi3).map Instr.encode)⟩ fun t => t.x a0 = 42#32 := by
  refine (mulsi3_returns _ ?_).mono fun t ht => ht.2
  unfold HasCode
  decide +kernel

end MyCpu.Runtime
