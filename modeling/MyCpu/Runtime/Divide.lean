import Mathlib.Tactic.SplitIfs
import MyCpu.Rv32.Assembly
import MyCpu.Words.LongDivision

/-!
# Division without a divider

`am/src/riscv/npc/libgcc/div.S` for a register width of 32, where `__udivdi3`, `__umoddi3`, `__divdi3`
and `__moddi3` are the routines for words. The CPUs have no division instruction, so these are what `/`
and `%` on words are compiled to.

* `divS` : the file;
* `divu`, `remu`, `div`, `rem` : what the instructions of the M extension would write;
* `normalise_leads`, `divide_leads` : the two loops of `__udivsi3`;
* `unsigned_returns`, `signed_returns` : the routines return what those instructions would write.
-/

namespace MyCpu.Runtime

open Machine Rv32 Isa Words

inductive DivLabel
  | divsi3 | udivsi3 | L1 | L2 | L3 | L4 | L5 | umodsi3 | L10 | L11 | L12 | modsi3 | L30 | L31 | L32
  deriving DecidableEq

open Line in
/-- `div.S`. -/
def divS : List (Line DivLabel) := [
  label .divsi3,
  bltz a0 .L10,
  bltz a1 .L11,
  label .udivsi3,
  mv a2 a1,
  mv a1 a0,
  li a0 0xFFF#12,
  beqz a2 .L5,
  li a3 1#12,
  bgeu a2 a1 .L2,
  label .L1,
  blez a2 .L2,
  slli a2 a2 1#5,
  slli a3 a3 1#5,
  bgtu a1 a2 .L1,
  label .L2,
  li a0 0#12,
  label .L3,
  bltu a1 a2 .L4,
  sub a1 a1 a2,
  or a0 a0 a3,
  label .L4,
  srli a3 a3 1#5,
  srli a2 a2 1#5,
  bnez a3 .L3,
  label .L5,
  ret,
  label .umodsi3,
  mv t0 ra,
  call .udivsi3,
  mv a0 a1,
  jr t0,
  label .L10,
  neg a0 a0,
  bgtz a1 .L12,
  neg a1 a1,
  j .udivsi3,
  label .L11,
  neg a1 a1,
  label .L12,
  mv t0 ra,
  call .udivsi3,
  neg a0 a0,
  jr t0,
  label .modsi3,
  mv t0 ra,
  bltz a1 .L31,
  bltz a0 .L32,
  label .L30,
  call .udivsi3,
  mv a0 a1,
  jr t0,
  label .L31,
  neg a1 a1,
  bgez a0 .L30,
  label .L32,
  neg a0 a0,
  call .udivsi3,
  neg a0 a1,
  jr t0]

/-- The registers `__udivsi3` writes. -/
abbrev udivRegs : List (BitVec 5) := [a0, a1, a2, a3]

/-! ## The instructions of the M extension

What `divu`, `remu`, `div` and `rem` would write. Division by zero gives all ones and leaves the
dividend as the remainder. -/

def divu (n d : Word) : Word := if d = 0#32 then -1#32 else BitVec.ofNat 32 (n.toNat / d.toNat)

def remu (n d : Word) : Word := if d = 0#32 then n else BitVec.ofNat 32 (n.toNat % d.toNat)

def div (n d : Word) : Word := if d = 0#32 then -1#32 else BitVec.ofInt 32 (n.toInt.tdiv d.toInt)

def rem (n d : Word) : Word := if d = 0#32 then n else BitVec.ofInt 32 (n.toInt.tmod d.toInt)

theorem divu_eq_udiv (n : Word) {d : Word} (h : d ≠ 0#32) : divu n d = n / d := by
  rw [divu, if_neg h]
  refine BitVec.eq_of_toNat_eq ?_
  rw [BitVec.toNat_udiv, BitVec.toNat_ofNat]
  exact Nat.mod_eq_of_lt (Nat.lt_of_le_of_lt (Nat.div_le_self _ _) n.isLt)

theorem remu_eq_umod (n d : Word) : remu n d = n % d := by
  unfold remu
  split
  · next h => rw [h, BitVec.umod_zero]
  · refine BitVec.eq_of_toNat_eq ?_
    rw [BitVec.toNat_umod, BitVec.toNat_ofNat]
    exact Nat.mod_eq_of_lt (Nat.lt_of_le_of_lt (Nat.mod_le _ _) n.isLt)

theorem div_eq_sdiv (n : Word) {d : Word} (h : d ≠ 0#32) : div n d = n.sdiv d := by
  rw [div, if_neg h]
  refine BitVec.eq_of_toInt_eq ?_
  rw [BitVec.toInt_ofInt, BitVec.toInt_sdiv]

theorem rem_eq_srem (n d : Word) : rem n d = n.srem d := by
  unfold rem
  split
  · next h => rw [h, BitVec.srem_zero]
  · refine BitVec.eq_of_toInt_eq ?_
    rw [BitVec.toInt_srem, BitVec.toInt_ofInt, ← BitVec.toInt_srem]
    exact Int.bmod_eq_of_le (BitVec.le_toInt _) BitVec.toInt_lt

theorem msb_of_neg {v : Word} (h : v.toInt < 0) : v.msb = true := by
  rw [BitVec.msb_eq_toInt]
  exact decide_eq_true h

theorem msb_of_not_neg {v : Word} (h : ¬v.toInt < 0) : v.msb = false := by
  rw [BitVec.msb_eq_toInt]
  exact decide_eq_false h

/-- Division by the absolute values and the signs. -/
theorem div_eq (n d : Word) : div n d =
    if n.toInt < 0 then if 0 < d.toInt then -divu (-n) d else divu (-n) (-d)
    else if d.toInt < 0 then -divu n (-d) else divu n d := by
  by_cases h0 : d = 0#32
  · subst h0
    have hz : (0#32).toInt = 0 := rfl
    simp only [div, divu, hz, Int.lt_irrefl, if_true, if_false, ite_self, BitVec.neg_zero]
  · have hneg0 : -d ≠ 0#32 := fun h => h0 (BitVec.neg_eq_zero_iff.mp h)
    have hpos : 0 < d.toInt ↔ ¬d.toInt < 0 := by
      have hne : d.toInt ≠ 0 := fun h => h0 (BitVec.eq_of_toInt_eq h)
      omega
    rw [div_eq_sdiv n h0, BitVec.sdiv_eq, divu_eq_udiv _ h0, divu_eq_udiv _ h0,
      divu_eq_udiv _ hneg0, divu_eq_udiv _ hneg0, if_congr hpos rfl rfl]
    split_ifs with hn hd hd
    · rw [msb_of_neg hn, msb_of_neg hd]
      rfl
    · rw [msb_of_neg hn, msb_of_not_neg hd]
      rfl
    · rw [msb_of_not_neg hn, msb_of_neg hd]
      rfl
    · rw [msb_of_not_neg hn, msb_of_not_neg hd]
      rfl

/-- The remainder has the sign of the dividend. -/
theorem rem_eq (n d : Word) : rem n d =
    if d.toInt < 0 then if n.toInt < 0 then -remu (-n) (-d) else remu n (-d)
    else if n.toInt < 0 then -remu (-n) d else remu n d := by
  rw [rem_eq_srem, BitVec.srem_eq, remu_eq_umod, remu_eq_umod, remu_eq_umod, remu_eq_umod]
  split_ifs with hd hn hn
  · rw [msb_of_neg hn, msb_of_neg hd]
  · rw [msb_of_not_neg hn, msb_of_neg hd]
  · rw [msb_of_neg hn, msb_of_not_neg hd]
  · rw [msb_of_not_neg hn, msb_of_not_neg hd]

/-! ## Words -/

theorem toNat_shiftLeft_one {v : Word} (h : v.toNat < 2 ^ 31) : (v <<< 1).toNat = v.toNat * 2 := by
  rw [BitVec.toNat_shiftLeft, Nat.shiftLeft_eq]
  omega

theorem toNat_shiftRight_one (v : Word) : (v >>> 1).toNat = v.toNat / 2 := by
  rw [BitVec.toNat_ushiftRight, Nat.shiftRight_eq_div_pow, Nat.pow_one]

/-- A shift right of a word shifted left. -/
theorem toNat_shiftRight_of_pow_succ {v : Word} {c j : Nat} (h : v.toNat = c * 2 ^ (j + 1)) :
    (v >>> 1).toNat = c * 2 ^ j := by
  rw [toNat_shiftRight_one, h, Nat.pow_succ, ← Nat.mul_assoc]
  omega

/-- What `blez` asks of a word. -/
theorem toInt_nonpos_iff (v : Word) : v.toInt ≤ 0 ↔ v = 0#32 ∨ 2 ^ 31 ≤ v.toNat := by
  have h0 : v = 0#32 ↔ v.toNat = 0 := BitVec.toNat_inj.symm
  have := v.isLt
  rw [BitVec.toInt_eq_toNat_cond, h0]
  split <;> omega

section

variable {m : Word → Byte} {base : Word}

/-! ## Normalising the divisor -/

/-- The divisor of `x` and 1, both shifted left by `j`. -/
structure Shifted (x : Regs) (j : Nat) (y : Regs) : Prop where
  dividend : y a1 = x a1
  divisor : (y a2).toNat = (x a2).toNat * 2 ^ j
  one : (y a3).toNat = 2 ^ j
  frame : Frame udivRegs x y

theorem Shifted.shift {x y : Regs} {j : Nat} (h : Shifted x j y) (h31 : (y a2).toNat < 2 ^ 31)
    (hd : 0 < (x a2).toNat) :
    Shifted x (j + 1) ((y.set a2 (y a2 <<< 1)).set a3 (y a3 <<< 1)) where
  dividend := h.dividend
  divisor := by
    rw [Nat.pow_succ, ← Nat.mul_assoc, ← h.divisor]
    exact toNat_shiftLeft_one h31
  one := by
    have hle : (y a3).toNat ≤ (y a2).toNat := by
      rw [h.one, h.divisor]
      exact Nat.le_mul_of_pos_left _ hd
    rw [Nat.pow_succ, ← h.one]
    exact toNat_shiftLeft_one (by omega)
  frame := (h.frame.set _ (by decide)).set _ (by decide)

/-- Instructions 8 to 11 shift the divisor until it would exceed the dividend or a word. -/
theorem normalise_leads (hc : HasCode m base (assemble divS)) {x y : Regs} (hd : 0 < (x a2).toNat)
    {j : Nat} (hy : Shifted x j y) :
    Leads Step (atInstr m base 8 y) fun t => ∃ z j, t = atInstr m base 12 z ∧ Shifted x j z ∧
      (x a1).toNat < (x a2).toNat * 2 ^ (j + 1) := by
  refine Leads.loop (fun n s => ∃ y j, s = atInstr m base 8 y ∧ n = 2 ^ 32 - (y a2).toNat ∧
    Shifted x j y) ?_ ⟨y, j, rfl, rfl, hy⟩
  rintro n s ⟨y, j, rfl, rfl, hy⟩
  have hn := (x a1).isLt
  have hpos : 0 < (y a2).toNat := by
    rw [hy.divisor]
    exact Nat.mul_pos hd (Nat.two_pow_pos j)
  refine leads_branch hc rfl 12 rfl (fun hb => ?_) (fun hb => ?_)
  · -- the top bit of the divisor is set: twice the divisor exceeds every word
    have hle : (y a2).toInt ≤ 0 := of_decide_eq_true hb
    have h31 : 2 ^ 31 ≤ (y a2).toNat := by
      refine ((toInt_nonpos_iff _).mp hle).resolve_left fun h0 => ?_
      rw [h0] at hpos
      exact absurd hpos (by decide)
    refine .now (.inl ⟨y, j, rfl, hy, ?_⟩)
    rw [Nat.pow_succ, ← Nat.mul_assoc, ← hy.divisor]
    omega
  · have hlt : ¬(y a2).toInt ≤ 0 := of_decide_eq_false hb
    have h31 : (y a2).toNat < 2 ^ 31 := by
      rw [toInt_nonpos_iff, not_or] at hlt
      omega
    have hz := hy.shift h31 hd
    have h2 : (y a2 <<< 1).toNat = (y a2).toNat * 2 := toNat_shiftLeft_one h31
    refine leads_result hc rfl rfl (leads_result hc rfl rfl ?_)
    refine leads_branch hc rfl 8 rfl (fun hb' => .now (.inr ?_)) (fun hb' => .now (.inl ?_))
    · refine ⟨_, ?_, _, j + 1, rfl, rfl, hz⟩
      show 2 ^ 32 - (y a2 <<< 1).toNat < _
      omega
    · have hle : ¬(y a2 <<< 1).toNat < (y a1).toNat := of_decide_eq_false hb'
      refine ⟨_, j + 1, rfl, hz, ?_⟩
      have hdiv : (y a2 <<< 1).toNat = (x a2).toNat * 2 ^ (j + 1) := hz.divisor
      rw [Nat.pow_succ, ← Nat.mul_assoc, ← hdiv, ← hy.dividend]
      omega

/-! ## Dividing -/

/-- Before a digit is decided, with `j` digits to go after it. -/
structure Digit (x : Regs) (n d j : Nat) (y : Regs) : Prop where
  dividing : Dividing n d (j + 1) (y a0).toNat (y a1).toNat
  divisor : (y a2).toNat = d * 2 ^ j
  one : (y a3).toNat = 2 ^ j
  frame : Frame udivRegs x y

/-- Instructions 13 to 15 decide a digit. -/
theorem digit_leads (hc : HasCode m base (assemble divS)) {x y : Regs} {n d j : Nat}
    (h : Digit x n d j y) :
    Leads Step (atInstr m base 13 y) fun t => ∃ z, t = atInstr m base 16 z ∧
      Dividing n d j (z a0).toNat (z a1).toNat ∧ z a2 = y a2 ∧ z a3 = y a3 ∧ Frame udivRegs x z := by
  refine leads_branch hc rfl 16 rfl (fun hb => ?_) (fun hb => ?_)
  · have hlt : (y a1).toNat < (y a2).toNat := of_decide_eq_true hb
    exact .now ⟨y, rfl, h.dividing.skip (h.divisor ▸ hlt), rfl, rfl, h.frame⟩
  · have hle : ¬(y a1).toNat < (y a2).toNat := of_decide_eq_false hb
    have hsub : (y a1 - y a2).toNat = (y a1).toNat - d * 2 ^ j := by
      rw [← h.divisor]
      exact BitVec.toNat_sub_of_le (BitVec.le_def.mpr (Nat.not_lt.mp hle))
    have hor : (y a0 ||| y a3).toNat = (y a0).toNat + 2 ^ j := by
      rw [BitVec.toNat_or, h.one, or_two_pow h.dividing.digits]
    refine leads_result hc rfl rfl (leads_result hc rfl rfl (.now ⟨_, rfl, ?_, rfl, rfl,
      (h.frame.set _ (by decide)).set _ (by decide)⟩))
    show Dividing n d j (y a0 ||| y a3).toNat (y a1 - y a2).toNat
    rw [hor, hsub]
    exact h.dividing.subtract (h.divisor ▸ Nat.not_lt.mp hle)

/-- Instructions 13 to 18 decide all digits. -/
theorem divide_leads (hc : HasCode m base (assemble divS)) {x y : Regs} {n d j : Nat}
    (h : Digit x n d j y) :
    Leads Step (atInstr m base 13 y) fun t => ∃ z, t = atInstr m base 19 z ∧
      Dividing n d 0 (z a0).toNat (z a1).toNat ∧ Frame udivRegs x z := by
  refine Leads.loop (fun j s => ∃ y, s = atInstr m base 13 y ∧ Digit x n d j y) ?_ ⟨y, rfl, h⟩
  rintro j s ⟨y, rfl, h⟩
  refine (digit_leads hc h).seq ?_
  rintro _ ⟨z, rfl, hdiv, hz2, hz3, hf⟩
  refine leads_result hc rfl rfl (leads_result hc rfl rfl ?_)
  have ha2 : a2 ∈ udivRegs := by decide
  have ha3 : a3 ∈ udivRegs := by decide
  have hf' := (hf.set (z a3 >>> 1) ha3).set (z a2 >>> 1) ha2
  have hone : (z a3).toNat = 1 * 2 ^ j := by rw [hz3, h.one, Nat.one_mul]
  cases j with
  | zero =>
      have h0 : z a3 >>> 1 = 0#32 := BitVec.eq_of_toNat_eq (by rw [toNat_shiftRight_one, hone]; rfl)
      refine leads_branch hc rfl 13 rfl (fun hb => ?_) (fun _ => .now (.inl ⟨_, rfl, hdiv, hf'⟩))
      have hne : z a3 >>> 1 ≠ 0#32 := of_decide_eq_true hb
      exact absurd h0 hne
  | succ j =>
      have hone' : (z a3 >>> 1).toNat = 2 ^ j :=
        (toNat_shiftRight_of_pow_succ hone).trans (Nat.one_mul _)
      have hdivisor' : (z a2 >>> 1).toNat = d * 2 ^ j :=
        toNat_shiftRight_of_pow_succ (hz2 ▸ h.divisor)
      refine leads_branch hc rfl 13 rfl
        (fun _ => .now (.inr ⟨j, Nat.lt_succ_self j, _, rfl, hdiv, hdivisor', hone', hf'⟩))
        (fun hb => ?_)
      have h0 : ¬z a3 >>> 1 ≠ 0#32 := of_decide_eq_false hb
      rw [not_not.mp h0] at hone'
      exact absurd hone'.symm (Nat.ne_of_gt (Nat.two_pow_pos j))

/-! ## Unsigned division -/

/-- From instruction 12 on, with the divisor normalised. -/
theorem digits_leads (hc : HasCode m base (assemble divS)) {x y : Regs} {j : Nat}
    (h : Shifted x j y) (hlt : (x a1).toNat < (x a2).toNat * 2 ^ (j + 1)) :
    Leads Step (atInstr m base 12 y) fun t => ∃ z, t = atInstr m base 19 z ∧
      (z a0).toNat = (x a1).toNat / (x a2).toNat ∧ (z a1).toNat = (x a1).toNat % (x a2).toNat ∧
      Frame udivRegs x z := by
  have h13 : Digit x (x a1).toNat (x a2).toNat j (y.set a0 0#32) := by
    refine ⟨?_, h.divisor, h.one, h.frame.set _ (by decide)⟩
    show Dividing _ _ _ 0 (y a1).toNat
    rw [h.dividend]
    exact .start hlt
  refine leads_li hc rfl ((divide_leads hc h13).mono ?_)
  rintro _ ⟨z, rfl, hdiv, hf⟩
  exact ⟨z, rfl, hdiv.done.1, hdiv.done.2, hf⟩

/-- From instruction 7 on, with a divisor that is not zero and 1 beside it. -/
theorem quotient_leads (hc : HasCode m base (assemble divS)) {x : Regs} (hd : 0 < (x a2).toNat)
    (h3 : x a3 = 1#32) :
    Leads Step (atInstr m base 7 x) fun t => ∃ z, t = atInstr m base 19 z ∧
      (z a0).toNat = (x a1).toNat / (x a2).toNat ∧ (z a1).toNat = (x a1).toNat % (x a2).toNat ∧
      Frame udivRegs x z := by
  have hstart : Shifted x 0 x := by
    refine ⟨rfl, (Nat.mul_one _).symm, ?_, Frame.refl _ x⟩
    rw [h3]
    rfl
  refine leads_branch hc rfl 12 rfl (fun hb => ?_) (fun _ => ?_)
  · have hle : (x a1).toNat ≤ (x a2).toNat := of_decide_eq_true hb
    refine digits_leads hc hstart ?_
    rw [Nat.zero_add, Nat.pow_one]
    omega
  · refine (normalise_leads hc hd hstart).seq ?_
    rintro _ ⟨y, j, rfl, hy, hlt⟩
    exact digits_leads hc hy hlt

theorem udivsi3_leads (hc : HasCode m base (assemble divS)) (x : Regs) :
    Leads Step (atInstr m base 2 x) fun t => Returned udivRegs (atInstr m base 2 x) t ∧
      t.x a0 = divu (x a0) (x a1) ∧ t.x a1 = remu (x a0) (x a1) := by
  have hf : Frame udivRegs x (((x.set a2 (x a1)).set a1 (x a0)).set a0 (-1#32)) :=
    (((Frame.refl _ x).set _ (by decide)).set _ (by decide)).set _ (by decide)
  have hret : ∀ {z : Regs} {Q : Arch → Prop}, Frame udivRegs x z →
      Q ⟨x ra &&& ~~~1#32, z, m⟩ → Leads Step (atInstr m base 19 z) Q := by
    intro z Q hz hQ
    refine leads_jr hc rfl (by decide) (.now ?_)
    rwa [hz ra (by decide)]
  refine leads_mv hc rfl (by decide) (leads_mv hc rfl (by decide) (leads_li hc rfl ?_))
  refine leads_branch hc rfl 19 rfl (fun hb => ?_) (fun hb => ?_)
  · have h0 : x a1 = 0#32 := of_decide_eq_true hb
    refine hret hf ⟨⟨rfl, rfl, hf⟩, ?_, ?_⟩
    · rw [divu, if_pos h0]
      rfl
    · rw [remu, if_pos h0]
      rfl
  · have h0 : x a1 ≠ 0#32 := of_decide_eq_false hb
    have hd : 0 < (x a1).toNat := Nat.pos_of_ne_zero fun h => h0 (BitVec.eq_of_toNat_eq h)
    refine leads_li hc rfl ((quotient_leads hc (by exact hd) rfl).seq ?_)
    rintro _ ⟨z, rfl, hq, hr, hz⟩
    have hfz : Frame udivRegs x z := (hf.set _ (by decide)).trans hz
    refine hret hfz ⟨⟨rfl, rfl, hfz⟩, ?_, ?_⟩
    · rw [divu_eq_udiv _ h0]
      exact BitVec.eq_of_toNat_eq hq
    · rw [remu_eq_umod]
      exact BitVec.eq_of_toNat_eq hr

/-! ## Calls of `__udivsi3` within the file -/

/-- The registers the other routines write. -/
abbrev divRegs : List (BitVec 5) := [ra, t0, a0, a1, a2, a3]

/-- `jal __udivsi3`. -/
theorem call_leads (hc : HasCode m base (assemble divS)) (hb : base &&& 1#32 = 0#32) {k : Nat}
    (imm : BitVec 20) (hi : (assemble divS)[k]? = some (.jal ra imm))
    (hk : codeAddr 0#32 k + (imm ++ 0#1).signExtend 32 = codeAddr 0#32 2) (y : Regs) :
    Leads Step (atInstr m base k y) fun t => ∃ z, t = atInstr m base (k + 1) z ∧
      z a0 = divu (y a0) (y a1) ∧ z a1 = remu (y a0) (y a1) ∧ z t0 = y t0 ∧ Frame divRegs y z := by
  refine leads_jal hc hi 2 hk ((udivsi3_leads hc _).mono ?_)
  rintro ⟨pc, z, mem⟩ ⟨⟨hpc, hmem, hf⟩, hq, hr⟩
  have hpc' : pc = codeAddr base (k + 1) := hpc.trans (codeAddr_even hb (k + 1))
  refine ⟨z, Arch.ext hpc' rfl hmem, hq, hr, hf t0 (by decide), ?_⟩
  exact ((Frame.refl _ y).set _ (by decide)).trans (hf.mono (by decide))

/-- A routine that has kept its return address in `t0` returns. -/
theorem return_leads {k k₀ : Nat} {x y : Regs} {v : Word} (hc : HasCode m base (assemble divS))
    (hi : (assemble divS)[k]? = some (.jalr x0 t0 0#12)) (ht : y t0 = x ra)
    (hf : Frame divRegs x y) (hv : y a0 = v) :
    Leads Step (atInstr m base k y) fun t => Returned divRegs (atInstr m base k₀ x) t ∧ t.x a0 = v :=
  leads_jr hc hi (by decide) (.now ⟨⟨congrArg (· &&& ~~~1#32) ht, rfl, hf⟩, hv⟩)

theorem umodsi3_leads (hc : HasCode m base (assemble divS)) (hb : base &&& 1#32 = 0#32) (x : Regs) :
    Leads Step (atInstr m base 20 x) fun t => Returned divRegs (atInstr m base 20 x) t ∧
      t.x a0 = remu (x a0) (x a1) := by
  have hf : Frame divRegs x (x.set t0 (x ra)) := (Frame.refl _ x).set _ (by decide)
  refine leads_mv hc rfl (by decide) ((call_leads hc hb _ rfl rfl _).seq ?_)
  rintro _ ⟨z, rfl, -, hr, ht, hz⟩
  refine leads_mv hc rfl (by decide) ?_
  refine return_leads hc rfl ht ?_ hr
  exact (hf.trans hz).set _ (by decide)

/-! ## Signed division -/

/-- Instruction 29: divide, and negate the quotient. -/
theorem negate_leads (hc : HasCode m base (assemble divS)) (hb : base &&& 1#32 = 0#32) {x y : Regs}
    (hra : y ra = x ra) (hf : Frame divRegs x y) :
    Leads Step (atInstr m base 29 y) fun t => Returned divRegs (atInstr m base 0 x) t ∧
      t.x a0 = -divu (y a0) (y a1) := by
  have hf' : Frame divRegs x (y.set t0 (y ra)) := hf.set _ (by decide)
  refine leads_mv hc rfl (by decide) ((call_leads hc hb _ rfl rfl _).seq ?_)
  rintro _ ⟨z, rfl, hq, -, ht, hz⟩
  refine leads_result hc rfl rfl ?_
  refine return_leads hc rfl (ht.trans hra) ?_ ?_
  · exact (hf'.trans hz).set _ (by decide)
  · exact (BitVec.zero_sub _).trans (congrArg (-·) hq)

theorem divsi3_leads (hc : HasCode m base (assemble divS)) (hb : base &&& 1#32 = 0#32) (x : Regs) :
    Leads Step (atInstr m base 0 x) fun t => Returned divRegs (atInstr m base 0 x) t ∧
      t.x a0 = div (x a0) (x a1) := by
  have hneg : ∀ v : Word, RegOp.eval 0#32 v .sub = -v := fun v => BitVec.zero_sub v
  -- `__udivsi3` in place of a call
  have htail : ∀ {y : Regs}, y ra = x ra → Frame divRegs x y →
      Leads Step (atInstr m base 2 y) fun t => Returned divRegs (atInstr m base 0 x) t ∧
        t.x a0 = divu (y a0) (y a1) := by
    intro y hra hf
    refine (udivsi3_leads hc y).mono ?_
    rintro t ⟨⟨hpc, hmem, hft⟩, hq, -⟩
    refine ⟨⟨hpc.trans (congrArg (· &&& ~~~1#32) hra), hmem, hf.trans (hft.mono (by decide))⟩, hq⟩
  refine leads_branch hc rfl 24 rfl (fun hn => ?_) (fun hn => ?_)
  · have hn' : (x a0).toInt < 0 := of_decide_eq_true hn
    have hf : Frame divRegs x (x.set a0 (-x a0)) := (Frame.refl _ x).set _ (by decide)
    refine leads_result hc rfl (congrArg (fun v => some (a0, v)) (hneg (x a0))) ?_
    refine leads_branch hc rfl 29 rfl (fun hd => ?_) (fun hd => ?_)
    · have hd' : 0 < (x a1).toInt := of_decide_eq_true hd
      rw [div_eq, if_pos hn', if_pos hd']
      exact negate_leads hc hb rfl hf
    · have hd' : ¬0 < (x a1).toInt := of_decide_eq_false hd
      rw [div_eq, if_pos hn', if_neg hd']
      refine leads_result hc rfl (congrArg (fun v => some (a1, v)) (hneg (x a1))) ?_
      refine leads_jal hc rfl 2 rfl ?_
      rw [Regs.set_zero]
      refine htail rfl ?_
      exact hf.set _ (by decide)
  · have hn' : ¬(x a0).toInt < 0 := of_decide_eq_false hn
    refine leads_branch hc rfl 28 rfl (fun hd => ?_) (fun hd => ?_)
    · have hd' : (x a1).toInt < 0 := of_decide_eq_true hd
      rw [div_eq, if_neg hn', if_pos hd']
      refine leads_result hc rfl (congrArg (fun v => some (a1, v)) (hneg (x a1))) ?_
      exact negate_leads hc hb rfl ((Frame.refl _ x).set _ (by decide))
    · have hd' : ¬(x a1).toInt < 0 := of_decide_eq_false hd
      rw [div_eq, if_neg hn', if_neg hd']
      exact htail rfl (Frame.refl _ x)

/-- Instruction 36: the remainder of operands that are not negative. -/
theorem positive_leads (hc : HasCode m base (assemble divS)) (hb : base &&& 1#32 = 0#32) {x y : Regs}
    (ht : y t0 = x ra) (hf : Frame divRegs x y) :
    Leads Step (atInstr m base 36 y) fun t => Returned divRegs (atInstr m base 33 x) t ∧
      t.x a0 = remu (y a0) (y a1) := by
  refine (call_leads hc hb _ rfl rfl _).seq ?_
  rintro _ ⟨z, rfl, -, hr, ht', hz⟩
  refine leads_mv hc rfl (by decide) ?_
  refine return_leads hc rfl (ht'.trans ht) ?_ hr
  exact (hf.trans hz).set _ (by decide)

/-- Instruction 41: the remainder of a negative dividend. -/
theorem negative_leads (hc : HasCode m base (assemble divS)) (hb : base &&& 1#32 = 0#32) {x y : Regs}
    (ht : y t0 = x ra) (hf : Frame divRegs x y) :
    Leads Step (atInstr m base 41 y) fun t => Returned divRegs (atInstr m base 33 x) t ∧
      t.x a0 = -remu (-y a0) (y a1) := by
  have hf' : Frame divRegs x (y.set a0 (-y a0)) := hf.set _ (by decide)
  have hneg : RegOp.eval 0#32 (y a0) .sub = -y a0 := BitVec.zero_sub _
  refine leads_result hc rfl (congrArg (fun v => some (a0, v)) hneg) ?_
  refine (call_leads hc hb _ rfl rfl _).seq ?_
  rintro _ ⟨z, rfl, -, hr, ht', hz⟩
  refine leads_result hc rfl rfl ?_
  refine return_leads hc rfl (ht'.trans ht) ?_ ?_
  · exact (hf'.trans hz).set _ (by decide)
  · exact (BitVec.zero_sub _).trans (congrArg (-·) hr)

theorem modsi3_leads (hc : HasCode m base (assemble divS)) (hb : base &&& 1#32 = 0#32) (x : Regs) :
    Leads Step (atInstr m base 33 x) fun t => Returned divRegs (atInstr m base 33 x) t ∧
      t.x a0 = rem (x a0) (x a1) := by
  have hf : Frame divRegs x (x.set t0 (x ra)) := (Frame.refl _ x).set _ (by decide)
  refine leads_mv hc rfl (by decide) ?_
  refine leads_branch hc rfl 39 rfl (fun hd => ?_) (fun hd => ?_)
  · have hd' : (x a1).toInt < 0 := of_decide_eq_true hd
    have hneg : RegOp.eval 0#32 (x a1) .sub = -x a1 := BitVec.zero_sub _
    have ha1 : a1 ∈ divRegs := by decide
    have hf' := hf.set (-x a1) ha1
    refine leads_result hc rfl (congrArg (fun v => some (a1, v)) hneg) ?_
    refine leads_branch hc rfl 36 rfl (fun hn => ?_) (fun hn => ?_)
    · have hn' : ¬(x a0).toInt < 0 := Int.not_lt.mpr (of_decide_eq_true hn)
      rw [rem_eq, if_pos hd', if_neg hn']
      exact positive_leads hc hb rfl hf'
    · have hn' : (x a0).toInt < 0 := Int.not_le.mp (of_decide_eq_false hn)
      rw [rem_eq, if_pos hd', if_pos hn']
      exact negative_leads hc hb rfl hf'
  · have hd' : ¬(x a1).toInt < 0 := of_decide_eq_false hd
    refine leads_branch hc rfl 41 rfl (fun hn => ?_) (fun hn => ?_)
    · have hn' : (x a0).toInt < 0 := of_decide_eq_true hn
      rw [rem_eq, if_neg hd', if_pos hn']
      exact negative_leads hc hb rfl hf
    · have hn' : ¬(x a0).toInt < 0 := of_decide_eq_false hn
      rw [rem_eq, if_neg hd', if_neg hn']
      exact positive_leads hc hb rfl hf

end

/-! ## Results -/

/-- The address of a routine of the file. -/
def divEntry (base : Word) (l : DivLabel) : Word := codeAddr base (position l divS)

/-- `__udivsi3` returns the quotient in `a0` and the remainder in `a1`, `__umodsi3` the remainder in
`a0`: what `divu` and `remu` would write, for all operands and wherever the file stands. Memory and
all other registers but the return address and `t0` keep what they hold. -/
theorem unsigned_returns (s : Arch) (base : Word) (hb : base &&& 1#32 = 0#32)
    (hc : HasCode s.mem base (assemble divS)) :
    (s.pc = divEntry base .udivsi3 → Leads Step s fun t => Returned udivRegs s t ∧
      t.x a0 = divu (s.x a0) (s.x a1) ∧ t.x a1 = remu (s.x a0) (s.x a1)) ∧
    (s.pc = divEntry base .umodsi3 → Leads Step s fun t => Returned divRegs s t ∧
      t.x a0 = remu (s.x a0) (s.x a1)) := by
  obtain ⟨pc, x, m⟩ := s
  constructor
  · rintro rfl
    exact udivsi3_leads hc x
  · rintro rfl
    exact umodsi3_leads hc hb x

/-- The file at the reset vector, with the arguments `a` and `b`. -/
def divState (a b pc : Word) : Arch :=
  ⟨pc, fun r => if r = a0 then a else if r = a1 then b else 0#32,
    Mem.ofWords 0x80000000#32 ((assemble divS).map Instr.encode)⟩

theorem hasCode_divState (a b pc : Word) :
    HasCode (divState a b pc).mem 0x80000000#32 (assemble divS) := by
  show HasCode (Mem.ofWords 0x80000000#32 ((assemble divS).map Instr.encode)) _ _
  unfold HasCode
  decide +kernel

/-- 100 by 7 in one call, and a remainder by zero. -/
theorem unsigned_returns_hundred :
    (Leads Step (divState 100#32 7#32 0x80000008#32) fun t => t.x a0 = 14#32 ∧ t.x a1 = 2#32) ∧
      Leads Step (divState 100#32 0#32 0x80000050#32) fun t => t.x a0 = 100#32 := by
  constructor
  · exact ((unsigned_returns _ _ (by decide) (hasCode_divState _ _ _)).1 (by decide)).mono
      fun t ht => ht.2
  · exact ((unsigned_returns _ _ (by decide) (hasCode_divState _ _ _)).2 (by decide)).mono
      fun t ht => ht.2

/-- `__divsi3` and `__modsi3` return what `div` and `rem` would write, for all operands: division by
zero and the one quotient that is no word included. -/
theorem signed_returns (s : Arch) (base : Word) (hb : base &&& 1#32 = 0#32)
    (hc : HasCode s.mem base (assemble divS)) :
    (s.pc = divEntry base .divsi3 → Leads Step s fun t => Returned divRegs s t ∧
      t.x a0 = div (s.x a0) (s.x a1)) ∧
    (s.pc = divEntry base .modsi3 → Leads Step s fun t => Returned divRegs s t ∧
      t.x a0 = rem (s.x a0) (s.x a1)) := by
  obtain ⟨pc, x, m⟩ := s
  constructor
  · rintro rfl
    exact divsi3_leads hc hb x
  · rintro rfl
    exact modsi3_leads hc hb x

/-- The overflow, and a negative dividend. -/
theorem signed_returns_overflow :
    (Leads Step (divState 0x80000000#32 (-1#32) 0x80000000#32) fun t => t.x a0 = 0x80000000#32) ∧
      Leads Step (divState (-7#32) 2#32 0x80000084#32) fun t => t.x a0 = -1#32 := by
  constructor
  · exact ((signed_returns _ _ (by decide) (hasCode_divState _ _ _)).1 (by decide)).mono
      fun t ht => ht.2
  · exact ((signed_returns _ _ (by decide) (hasCode_divState _ _ _)).2 (by decide)).mono
      fun t ht => ht.2

end MyCpu.Runtime
