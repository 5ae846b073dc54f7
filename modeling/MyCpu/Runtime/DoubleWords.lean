import MyCpu.Runtime.CountZeros
import MyCpu.Rv32.Isa
import Mathlib.Tactic.Ring

/-!
# Products and shifts of double words

`am/src/riscv/npc/libgcc/multi3.c` for a register width of 32, where `__multi3` is `__muldi3`, and
`ashldi3.c`.

* `multi3Loop`, `multi3` : shift and add over the lower half of the second factor, then the two mixed
  products;
* `ashldi3` : the shift by halves;
* `shiftLeft_word` and its like : shifts of a double word by its halves;
* `double_words_compute` : the two functions are `*` and `<<` on double words.
-/

namespace MyCpu.Runtime

open Rv32 Rv32.Isa

abbrev DWord := BitVec 64

/-! ## The functions -/

/-- The `do` loop of `__multi3`: `w_low` and `w_high` at its end. -/
def multi3Loop (uLow vLow wLow wHigh wHighTmp : Word) : Word × Word :=
  let newWLow := wLow + uLow
  let wHighTmp2x := wHighTmp <<< 1
  let wHighTmp := wHighTmp + wHigh
  let carry := boolWord (newWLow < wLow)
  let w := if vLow &&& 1#32 = 0#32 then (wLow, wHigh) else (newWLow, carry + wHighTmp)
  let uLowMsb := uLow >>> 31
  if vLow >>> 1 = 0#32 then w
  else multi3Loop (uLow <<< 1) (vLow >>> 1) w.1 w.2 (uLowMsb ||| wHighTmp2x)
termination_by vLow.toNat
decreasing_by
  rename_i h
  rw [← BitVec.toNat_inj, BitVec.toNat_ushiftRight, Nat.shiftRight_eq_div_pow, BitVec.toNat_zero] at h
  rw [BitVec.toNat_ushiftRight, Nat.shiftRight_eq_div_pow]
  omega

/-- `__muluw3`: a call of `__mulsi3`. -/
def muluw3 (a b : Word) : Word := a * b

def multi3 (u v : DWord) : DWord :=
  let w := multi3Loop (low u) (low v) 0#32 0#32 0#32
  let wHigh := if high u = 0#32 then w.2 else w.2 + muluw3 (low v) (high u)
  let wHigh := if high v = 0#32 then wHigh else wHigh + muluw3 (low u) (high v)
  wHigh ++ w.1

def ashldi3 (u : DWord) (b : Int) : DWord :=
  if b = 0 then u
  else
    let bm := 32 - b
    if bm ≤ 0 then low u <<< (-bm).toNat ++ 0#32
    else
      let carries := low u >>> bm.toNat
      ((high u <<< b.toNat) ||| carries) ++ low u <<< b.toNat

/-! ## Halves -/

theorem toNat_append (h l : Word) : (h ++ l : DWord).toNat = h.toNat * 2 ^ 32 + l.toNat := by
  rw [BitVec.toNat_append, ← Nat.shiftLeft_add_eq_or_of_lt l.isLt, Nat.shiftLeft_eq]

theorem toNat_setWidth (x : Word) : (x.setWidth 64).toNat = x.toNat := by
  have := x.isLt
  rw [BitVec.toNat_setWidth, Nat.mod_eq_of_lt (by omega)]

theorem toNat_halves (x : DWord) : x.toNat = (high x).toNat * 2 ^ 32 + (low x).toNat := by
  rw [toNat_low, toNat_high, Nat.mul_comm, Nat.div_add_mod]

/-- A sum by halves, with the carry from the lower sum. -/
theorem add_halves (h l h' l' : Word) :
    ((boolWord (l + l' < l) + (h' + h)) ++ (l + l') : DWord) = (h ++ l) + (h' ++ l') := by
  have hl := l.isLt
  have hl' := l'.isLt
  have hh := h.isLt
  have hh' := h'.isLt
  have hcarry : (boolWord (l + l' < l)).toNat = if l.toNat + l'.toNat < 2 ^ 32 then 0 else 1 := by
    have hiff : l + l' < l ↔ ¬l.toNat + l'.toNat < 2 ^ 32 := by
      rw [BitVec.lt_def, BitVec.toNat_add]
      omega
    by_cases hlt : l.toNat + l'.toNat < 2 ^ 32
    · rw [decide_eq_false fun h => hiff.mp h hlt, if_pos hlt]
      rfl
    · rw [decide_eq_true (hiff.mpr hlt), if_neg hlt]
      rfl
  refine BitVec.eq_of_toNat_eq ?_
  rw [toNat_append, BitVec.toNat_add, BitVec.toNat_add, BitVec.toNat_add, BitVec.toNat_add, hcarry,
    toNat_append, toNat_append]
  split <;> omega

/-- A shift left by one place by halves. -/
theorem shift_halves (h l : Word) : (((l >>> 31) ||| (h <<< 1)) ++ l <<< 1 : DWord) = (h ++ l) * 2#64 := by
  have hl := l.isLt
  have htop : l.toNat >>> 31 < 2 ^ 1 := by
    rw [Nat.shiftRight_eq_div_pow]
    omega
  have hhigh : ((l >>> 31) ||| (h <<< 1)).toNat = 2 * h.toNat % 2 ^ 32 + l.toNat / 2 ^ 31 := by
    have hdouble : h.toNat <<< 1 % 2 ^ 32 = 2 ^ 1 * (h.toNat % 2 ^ 31) := by
      rw [Nat.shiftLeft_eq]
      omega
    rw [BitVec.or_comm, BitVec.toNat_or, BitVec.toNat_shiftLeft, BitVec.toNat_ushiftRight, hdouble,
      ← Nat.two_pow_add_eq_or_of_lt htop, Nat.shiftRight_eq_div_pow]
    omega
  refine BitVec.eq_of_toNat_eq ?_
  rw [toNat_append, hhigh, BitVec.toNat_shiftLeft, Nat.shiftLeft_eq, BitVec.toNat_mul, toNat_append,
    BitVec.toNat_ofNat]
  omega

/-! ## Products -/

/-- The lowest digit of a factor. -/
theorem split_digit (v : Word) (x : DWord) :
    x * v.setWidth 64 = (if v &&& 1#32 = 0#32 then 0#64 else x) + x * 2#64 * (v >>> 1).setWidth 64 := by
  have hv := v.isLt
  have hand : (v &&& 1#32).toNat = v.toNat % 2 := by
    rw [BitVec.toNat_and]
    exact Nat.and_one_is_mod v.toNat
  have hdigit : v.setWidth 64 = BitVec.ofNat 64 (v.toNat % 2) + 2#64 * (v >>> 1).setWidth 64 := by
    refine BitVec.eq_of_toNat_eq ?_
    rw [BitVec.toNat_add, BitVec.toNat_mul, BitVec.toNat_setWidth, BitVec.toNat_setWidth,
      BitVec.toNat_ushiftRight, Nat.shiftRight_eq_div_pow, BitVec.toNat_ofNat, BitVec.toNat_ofNat]
    omega
  rw [hdigit, BitVec.mul_add, BitVec.mul_assoc]
  congr 1
  by_cases h0 : v &&& 1#32 = 0#32
  · rw [if_pos h0, ← hand, h0, BitVec.toNat_zero, BitVec.mul_zero]
  · have h1 : v.toNat % 2 = 1 := by
      have hne : (v &&& 1#32).toNat ≠ 0 := fun h => h0 (BitVec.eq_of_toNat_eq h)
      omega
    rw [if_neg h0, h1, BitVec.mul_one]

/-- A round adds `u` to the sum when the digit is 1. -/
theorem multi3_round (uLow vLow wLow wHigh wHighTmp : Word) :
    let w := if vLow &&& 1#32 = 0#32 then (wLow, wHigh)
      else (wLow + uLow, boolWord (wLow + uLow < wLow) + (wHighTmp + wHigh))
    (w.2 ++ w.1 : DWord) =
      (wHigh ++ wLow) + if vLow &&& 1#32 = 0#32 then 0#64 else wHighTmp ++ uLow := by
  dsimp only
  by_cases h0 : vLow &&& 1#32 = 0#32
  · rw [if_pos h0, if_pos h0, BitVec.add_zero]
  · rw [if_neg h0, if_neg h0]
    exact add_halves wHigh wLow wHighTmp uLow

/-- The loop adds the product of `u` and `v_low` to the sum. -/
theorem multi3Loop_eq (uLow vLow wLow wHigh wHighTmp : Word) :
    ((multi3Loop uLow vLow wLow wHigh wHighTmp).2 ++ (multi3Loop uLow vLow wLow wHigh wHighTmp).1 :
      DWord) = (wHigh ++ wLow) + (wHighTmp ++ uLow) * vLow.setWidth 64 := by
  fun_induction multi3Loop with
  | case1 uLow vLow wLow wHigh wHighTmp newWLow wHighTmp' carry w hv =>
      have hw : (w.2 ++ w.1 : DWord) = _ := multi3_round uLow vLow wLow wHigh wHighTmp
      rw [hw, split_digit, hv, BitVec.setWidth_zero, BitVec.mul_zero, BitVec.add_zero]
  | case2 uLow vLow wLow wHigh wHighTmp newWLow wHighTmp2x wHighTmp' carry w uLowMsb hv ih =>
      have hw : (w.2 ++ w.1 : DWord) = _ := multi3_round uLow vLow wLow wHigh wHighTmp
      rw [ih, hw, shift_halves, split_digit vLow, BitVec.add_assoc]

/-- The mixed products `q` and `r` only count in the upper half, and `p` does not count at all. -/
theorem add_mixed (p q r h : Nat) {l : Nat} (hl : l < 2 ^ 32) :
    ((h + q % 2 ^ 32) % 2 ^ 32 + r % 2 ^ 32) % 2 ^ 32 * 2 ^ 32 + l =
      (p * 2 ^ 64 + (q + r) * 2 ^ 32 + (h * 2 ^ 32 + l)) % 2 ^ 64 := by
  omega

theorem multi3_eq (u v : DWord) : multi3 u v = u * v := by
  have hif : ∀ a b c : Word, (if a = 0#32 then c else c + muluw3 b a) = c + b * a := by
    intro a b c
    split
    · next h => rw [h, BitVec.mul_zero, BitVec.add_zero]
    · rfl
  have hloop := congrArg BitVec.toNat (multi3Loop_eq (low u) (low v) 0#32 0#32 0#32)
  have hu := toNat_halves u
  have hv := toNat_halves v
  have hlu := (low u).isLt
  have hlv := (low v).isLt
  unfold multi3
  dsimp only
  rw [hif, hif]
  generalize multi3Loop (low u) (low v) 0#32 0#32 0#32 = w at hloop ⊢
  have hlow : w.2.toNat * 2 ^ 32 + w.1.toNat = (low u).toNat * (low v).toNat := by
    have hprod : (low u).toNat * (low v).toNat < 2 ^ (32 + 32) := by
      rw [Nat.pow_add]
      exact Nat.mul_lt_mul'' hlu hlv
    have hzero : (0#32 ++ low u : DWord).toNat = (low u).toNat := by
      rw [toNat_append]
      exact Nat.zero_add _
    rw [toNat_append, show (0#32 ++ 0#32 : DWord) = 0#64 from rfl, BitVec.zero_add, BitVec.toNat_mul,
      hzero, toNat_setWidth, Nat.mod_eq_of_lt hprod] at hloop
    exact hloop
  refine BitVec.eq_of_toNat_eq ?_
  rw [toNat_append, BitVec.toNat_add, BitVec.toNat_add, BitVec.toNat_mul, BitVec.toNat_mul,
    BitVec.toNat_mul, hu, hv]
  generalize (high u).toNat = uh at *
  generalize (low u).toNat = ul at *
  generalize (high v).toNat = vh at *
  generalize (low v).toNat = vl at *
  have hexpand : (uh * 2 ^ 32 + ul) * (vh * 2 ^ 32 + vl) =
      uh * vh * 2 ^ 64 + (vl * uh + ul * vh) * 2 ^ 32 + ul * vl := by ring
  rw [hexpand, ← hlow]
  exact add_mixed _ _ _ _ w.1.isLt

/-! ## Shifts -/

/-- A shift left by at least a word. -/
theorem shiftLeft_word (n : DWord) {b : Nat} (hb : 32 ≤ b ∧ b < 64) :
    (low n <<< (b - 32) ++ 0#32 : DWord) = n <<< b := by
  refine BitVec.eq_of_getLsbD_eq fun i hi => ?_
  simp only [BitVec.getLsbD_append, BitVec.getLsbD_shiftLeft, low, BitVec.getLsbD_extractLsb',
    BitVec.getLsbD_zero]
  grind

/-- A shift left by less than a word. -/
theorem shiftLeft_part (n : DWord) {b : Nat} (hb : 0 < b ∧ b < 32) :
    (((high n <<< b) ||| (low n >>> (32 - b))) ++ low n <<< b : DWord) = n <<< b := by
  refine BitVec.eq_of_getLsbD_eq fun i hi => ?_
  simp only [BitVec.getLsbD_append, BitVec.getLsbD_or, BitVec.getLsbD_shiftLeft,
    BitVec.getLsbD_ushiftRight, low, high, BitVec.getLsbD_extractLsb']
  by_cases hlow : i < 32
  · by_cases hz : i < b
    · simp [hlow, hz]
    · have hin : i - b < 32 := by omega
      simp [hlow, hz, hin, hi]
  · have hz : ¬i < b := by omega
    by_cases hcarried : i - 32 < b
    · have hin : 32 - b + (i - 32) < 32 := by omega
      rw [show 0 + (32 - b + (i - 32)) = i - b by omega]
      simp [hlow, hz, hcarried, hin, hi]
    · have hout : ¬32 - b + (i - 32) < 32 := by omega
      have hin : i - 32 - b < 32 := by omega
      have hin' : i - 32 < 32 := by omega
      rw [show 32 + (i - 32 - b) = i - b by omega]
      simp [hlow, hz, hcarried, hout, hin, hin', hi]

/-- A shift right by at least a word. -/
theorem shiftRight_word (n : DWord) {b : Nat} (hb : 32 ≤ b ∧ b < 64) :
    (0#32 ++ high n >>> (b - 32) : DWord) = n >>> b := by
  refine BitVec.eq_of_getLsbD_eq fun i hi => ?_
  simp only [BitVec.getLsbD_append, BitVec.getLsbD_ushiftRight, high, BitVec.getLsbD_extractLsb',
    BitVec.getLsbD_zero]
  by_cases hlow : i < 32
  · rw [show 32 + (b - 32 + i) = b + i by omega]
    by_cases hin : b - 32 + i < 32
    · simp [hlow, hin]
    · have hout : n.getLsbD (b + i) = false := BitVec.getLsbD_of_ge _ _ (by omega)
      simp [hlow, hin, hout]
  · have hout : n.getLsbD (b + i) = false := BitVec.getLsbD_of_ge _ _ (by omega)
    simp [hlow, hout]

/-- A shift right by less than a word. -/
theorem shiftRight_part (n : DWord) {b : Nat} (hb : 0 < b ∧ b < 32) :
    (high n >>> b ++ ((high n <<< (32 - b)) ||| (low n >>> b)) : DWord) = n >>> b := by
  refine BitVec.eq_of_getLsbD_eq fun i hi => ?_
  simp only [BitVec.getLsbD_append, BitVec.getLsbD_or, BitVec.getLsbD_shiftLeft,
    BitVec.getLsbD_ushiftRight, low, high, BitVec.getLsbD_extractLsb']
  by_cases hlow : i < 32
  · by_cases hcarried : i < 32 - b
    · have hin : b + i < 32 := by omega
      simp [hlow, hcarried, hin]
    · rw [show 32 + (i - (32 - b)) = b + i by omega]
      have hout : ¬b + i < 32 := by omega
      have hin : i - (32 - b) < 32 := by omega
      simp [hlow, hcarried, hout, hin]
  · rw [show 32 + (b + (i - 32)) = b + i by omega]
    by_cases hin : b + (i - 32) < 32
    · simp [hlow, hin]
    · have hout : n.getLsbD (b + i) = false := BitVec.getLsbD_of_ge _ _ (by omega)
      simp [hlow, hin, hout]

theorem ashldi3_eq (u : DWord) {b : Nat} (hb : b < 64) : ashldi3 u b = u <<< b := by
  unfold ashldi3
  dsimp only
  by_cases h0 : b = 0
  · rw [if_pos (by omega), h0, BitVec.shiftLeft_zero]
  · rw [if_neg (by omega)]
    by_cases h32 : 32 ≤ b
    · rw [if_pos (by omega), show (-(32 - (b : Int))).toNat = b - 32 by omega]
      exact shiftLeft_word u ⟨h32, hb⟩
    · rw [if_neg (by omega), show (32 - (b : Int)).toNat = 32 - b by omega, Int.toNat_natCast]
      exact shiftLeft_part u ⟨Nat.pos_of_ne_zero h0, Nat.lt_of_not_le h32⟩

/-- `*` and `<<` on double words, the shift by every amount that C defines. -/
theorem double_words_compute (u v : DWord) (b : Int) (h0 : 0 ≤ b) (h64 : b < 64) :
    multi3 u v = u * v ∧ ashldi3 u b = u <<< b.toNat := by
  refine ⟨multi3_eq u v, ?_⟩
  obtain ⟨k, rfl⟩ := Int.eq_ofNat_of_zero_le h0
  exact ashldi3_eq u (Int.ofNat_lt.mp h64)

/-- A product and a shift with a carry into the upper half. -/
theorem double_words_compute_carry : multi3 0xFFFFFFFF#64 0x100000003#64 = 0xFFFFFFFF#64 * 0x100000003#64 ∧
    ashldi3 0x80000001#64 33 = 0x80000001#64 <<< 33 :=
  ⟨(double_words_compute 0xFFFFFFFF#64 0x100000003#64 33 (by decide) (by decide)).1,
    (double_words_compute 0x80000001#64 0#64 33 (by decide) (by decide)).2⟩

end MyCpu.Runtime
