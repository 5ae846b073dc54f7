import MyCpu.Rv32.Isa
import MyCpu.Words.BitPositions

/-!
# Counting zeros

`__clzsi2`, `__ctzsi2`, `__clzdi2` and `__ctzdi2` of `klib/src/int64.c`, which is what `__builtin_clz`
and `__builtin_ctz` are compiled to.

* `clzHalf`, `ctzHalf` : the step the four rounds of a count repeat;
* `clzsi2_toNat`, `ctzsi2_toNat` : the counts by the positions of the highest and the lowest 1;
* `counts_zeros` : every function counts the zeros of every argument but 0.
-/

namespace MyCpu.Runtime

open Rv32 Rv32.Isa Words

/-! ## The functions -/

/-- `t = ((x & mask) == 0) << e; x >>= 2 ** e - t; r += t;` -/
def clzHalf (mask : Word) (e : Nat) (xr : Word × Word) : Word × Word :=
  let t := boolWord (xr.1 &&& mask = 0#32) <<< e
  (xr.1 >>> (BitVec.ofNat 32 (2 ^ e) - t), xr.2 + t)

def clzsi2 (a : Word) : Word :=
  let xr := clzHalf 0xC#32 1 (clzHalf 0xF0#32 2 (clzHalf 0xFF00#32 3 (clzHalf 0xFFFF0000#32 4 (a, 0#32))))
  xr.2 + ((2#32 - xr.1) &&& -boolWord (xr.1 &&& 2#32 = 0#32))

/-- `t = ((x & mask) == 0) << e; x >>= t; r += t;` -/
def ctzHalf (mask : Word) (e : Nat) (xr : Word × Word) : Word × Word :=
  let t := boolWord (xr.1 &&& mask = 0#32) <<< e
  (xr.1 >>> t, xr.2 + t)

def ctzsi2 (a : Word) : Word :=
  let xr := ctzHalf 0x3#32 1 (ctzHalf 0x0F#32 2 (ctzHalf 0x00FF#32 3 (ctzHalf 0x0000FFFF#32 4 (a, 0#32))))
  let x := xr.1 &&& 3#32
  xr.2 + ((2#32 - x >>> 1) &&& -boolWord (x &&& 1#32 = 0#32))

/-- `x.s.low` and `x.s.high` of a `dwords` or a `udwords`. -/
def low (x : BitVec 64) : Word := x.extractLsb' 0 32

def high (x : BitVec 64) : Word := x.extractLsb' 32 32

def clzdi2 (a : BitVec 64) : Word :=
  let f := -boolWord (high a = 0#32)
  clzsi2 ((high a &&& ~~~f) ||| (low a &&& f)) + (f &&& 32#32)

def ctzdi2 (a : BitVec 64) : Word :=
  let f := -boolWord (low a = 0#32)
  ctzsi2 ((high a &&& f) ||| (low a &&& ~~~f)) + (f &&& 32#32)

/-! ## One round -/

theorem and_upper_eq_zero_iff {x mask : Word} {n : Nat} (hm : mask.toNat = 2 ^ n * (2 ^ n - 1)) :
    x &&& mask = 0#32 ↔ x.toNat / 2 ^ n % 2 ^ n = 0 := by
  have hdiv : (x.toNat &&& mask.toNat) / 2 ^ n = x.toNat / 2 ^ n % 2 ^ n := by
    rw [Nat.and_div_two_pow, hm, Nat.mul_div_cancel_left _ (Nat.two_pow_pos n),
      Nat.and_two_pow_sub_one_eq_mod]
  have hmod : (x.toNat &&& mask.toNat) % 2 ^ n = 0 := by
    rw [Nat.and_mod_two_pow, hm, Nat.mul_mod_right, Nat.and_zero]
  rw [← BitVec.toNat_inj, BitVec.toNat_and, ← hdiv]
  constructor
  · intro h
    rw [h]
    exact Nat.zero_div _
  · intro h
    have := Nat.div_add_mod (x.toNat &&& mask.toNat) (2 ^ n)
    rw [h, hmod] at this
    exact this.symm

theorem and_lower_eq_zero_iff {x mask : Word} {n : Nat} (hm : mask.toNat = 2 ^ n - 1) :
    x &&& mask = 0#32 ↔ x.toNat % 2 ^ n = 0 := by
  rw [← BitVec.toNat_inj, BitVec.toNat_and, hm, Nat.and_two_pow_sub_one_eq_mod]
  rfl

theorem boolWord_shift (b : Bool) {e : Nat} (he : e < 5) :
    (boolWord b <<< e).toNat = if b then 2 ^ e else 0 := by
  have hlt : 2 ^ e < 2 ^ 32 := Nat.pow_lt_pow_right (by decide) (by omega)
  cases b with
  | true =>
      rw [BitVec.toNat_shiftLeft, Nat.shiftLeft_eq, Nat.mod_eq_of_lt]
      · exact Nat.one_mul _
      · exact (Nat.one_mul (2 ^ e)).symm ▸ hlt
  | false => simp [boolWord]

theorem toNat_add_shift {r : Word} {b : Bool} {e : Nat} (he : e < 5) (hr : r.toNat + 2 ^ e ≤ 32) :
    (r + boolWord b <<< e).toNat = r.toNat + if b then 2 ^ e else 0 := by
  rw [BitVec.toNat_add, boolWord_shift b he]
  exact Nat.mod_eq_of_lt (by split <;> omega)

/-- In the count of the zeros above `k`, the highest 1 of `x` is among the low `n` bits, and `r` and the
zeros above it there are the count. -/
def Leading (k n : Nat) (xr : Word × Word) : Prop :=
  ∃ j, IsTop xr.1.toNat j ∧ j < n ∧ xr.2.toNat + (n - 1 - j) = 31 - k ∧ xr.2.toNat + n ≤ 32

theorem clzHalf_leading {mask : Word} {e : Nat} (he : e < 5)
    (hm : mask.toNat = 2 ^ 2 ^ e * (2 ^ 2 ^ e - 1)) {k : Nat} {xr : Word × Word}
    (h : Leading k (2 * 2 ^ e) xr) : Leading k (2 ^ e) (clzHalf mask e xr) := by
  obtain ⟨x, r⟩ := xr
  obtain ⟨j, hx, hj, hsum, hr⟩ := h
  have hpow : BitVec.toNat (BitVec.ofNat 32 (2 ^ e)) = 2 ^ e := by
    rw [BitVec.toNat_ofNat, Nat.mod_eq_of_lt (Nat.pow_lt_pow_right (by decide) (by omega))]
  have hupper : x &&& mask = 0#32 ↔ j < 2 ^ e := by
    have hlt : x.toNat / 2 ^ 2 ^ e < 2 ^ 2 ^ e := by
      rw [Nat.div_lt_iff_lt_mul (Nat.two_pow_pos _), ← Nat.pow_add, hx.lt_iff]
      omega
    rw [and_upper_eq_zero_iff hm, Nat.mod_eq_of_lt hlt, Nat.div_eq_zero_iff, ← hx.lt_iff]
    exact or_iff_right (Nat.ne_of_gt (Nat.two_pow_pos _))
  have hadd := toNat_add_shift (r := r) (b := decide (x &&& mask = 0#32)) he
    (Nat.le_trans (Nat.add_le_add_left (Nat.le_mul_of_pos_left _ (by decide)) _) hr)
  have ht := boolWord_shift (decide (x &&& mask = 0#32)) he
  unfold clzHalf Leading
  dsimp only at hsum hr ⊢
  rw [hadd, BitVec.ushiftRight_eq', BitVec.toNat_ushiftRight, Nat.shiftRight_eq_div_pow]
  by_cases h0 : x &&& mask = 0#32
  · rw [decide_eq_true h0, if_pos rfl] at ht ⊢
    have hs : BitVec.ofNat 32 (2 ^ e) - boolWord true <<< e = 0#32 := by
      rw [BitVec.eq_of_toNat_eq (hpow.trans ht.symm), BitVec.sub_self]
    have hj' := hupper.mp h0
    refine ⟨j, ?_, hj', by omega, by omega⟩
    rw [hs]
    exact (Nat.div_one _).symm ▸ hx
  · rw [decide_eq_false h0, if_neg Bool.false_ne_true] at ht ⊢
    have hs : BitVec.ofNat 32 (2 ^ e) - boolWord false <<< e = BitVec.ofNat 32 (2 ^ e) := by
      rw [BitVec.eq_of_toNat_eq (x := boolWord false <<< e) (y := 0#32) ht, BitVec.sub_zero]
    have hj' : ¬j < 2 ^ e := fun hlt => h0 (hupper.mpr hlt)
    refine ⟨j - 2 ^ e, ?_, by omega, by omega, by omega⟩
    rw [hs, hpow]
    exact hx.shift (Nat.le_of_not_lt hj')

/-- In the count of the zeros below `k`, the lowest 1 of `x` is among the low `n` bits, and `r` and the
zeros below it are the count. -/
def Trailing (k n : Nat) (xr : Word × Word) : Prop :=
  ∃ j, IsLow xr.1.toNat j ∧ j < n ∧ xr.2.toNat + j = k ∧ xr.2.toNat + n ≤ 32

theorem ctzHalf_trailing {mask : Word} {e : Nat} (he : e < 5) (hm : mask.toNat = 2 ^ 2 ^ e - 1)
    {k : Nat} {xr : Word × Word} (h : Trailing k (2 * 2 ^ e) xr) :
    Trailing k (2 ^ e) (ctzHalf mask e xr) := by
  obtain ⟨x, r⟩ := xr
  obtain ⟨j, hx, hj, hsum, hr⟩ := h
  have hlower : x &&& mask = 0#32 ↔ 2 ^ e ≤ j := by
    rw [and_lower_eq_zero_iff hm, hx.mod_eq_zero_iff]
  have hadd := toNat_add_shift (r := r) (b := decide (x &&& mask = 0#32)) he
    (Nat.le_trans (Nat.add_le_add_left (Nat.le_mul_of_pos_left _ (by decide)) _) hr)
  have ht := boolWord_shift (decide (x &&& mask = 0#32)) he
  unfold ctzHalf Trailing
  dsimp only at hsum hr ⊢
  rw [hadd, BitVec.ushiftRight_eq', BitVec.toNat_ushiftRight, Nat.shiftRight_eq_div_pow, ht]
  by_cases h0 : x &&& mask = 0#32
  · rw [decide_eq_true h0, if_pos rfl]
    have hj' := hlower.mp h0
    exact ⟨j - 2 ^ e, hx.shift hj', by omega, by omega, by omega⟩
  · rw [decide_eq_false h0, if_neg Bool.false_ne_true]
    have hj' : ¬2 ^ e ≤ j := fun hle => h0 (hlower.mpr hle)
    exact ⟨j, (Nat.div_one _).symm ▸ hx, by omega, by omega, by omega⟩

/-! ## Whole counts -/

theorem clzsi2_toNat {a : Word} {k : Nat} (h : IsTop a.toNat k) : (clzsi2 a).toNat = 31 - k := by
  have hk : k < 32 := (h.lt_iff 32).mp a.isLt
  have h32 : Leading k 32 (a, 0#32) := ⟨k, h, hk, Nat.zero_add _, Nat.le_refl _⟩
  have h16 := clzHalf_leading (by decide : 4 < 5)
    (by decide : (0xFFFF0000#32).toNat = 2 ^ 2 ^ 4 * (2 ^ 2 ^ 4 - 1)) h32
  have h8 := clzHalf_leading (by decide : 3 < 5)
    (by decide : (0xFF00#32).toNat = 2 ^ 2 ^ 3 * (2 ^ 2 ^ 3 - 1)) h16
  have h4 := clzHalf_leading (by decide : 2 < 5)
    (by decide : (0xF0#32).toNat = 2 ^ 2 ^ 2 * (2 ^ 2 ^ 2 - 1)) h8
  have h2 := clzHalf_leading (by decide : 1 < 5)
    (by decide : (0xC#32).toNat = 2 ^ 2 ^ 1 * (2 ^ 2 ^ 1 - 1)) h4
  unfold clzsi2
  generalize clzHalf 0xC#32 1 _ = xr at h2 ⊢
  obtain ⟨x, r⟩ := xr
  obtain ⟨j, hx, hj, hsum, hr⟩ := h2
  dsimp only at hx hsum hr ⊢
  obtain ⟨hle, hlt⟩ := hx
  have hj' : j = 0 ∨ j = 1 := by omega
  rcases hj' with rfl | rfl
  · have hx1 : x = 1#32 := BitVec.eq_of_toNat_eq (by rw [BitVec.toNat_ofNat]; omega)
    have hlast : (2#32 - x) &&& -boolWord (x &&& 2#32 = 0#32) = 1#32 := by rw [hx1]; decide
    rw [hlast, BitVec.toNat_add, BitVec.toNat_ofNat]
    omega
  · have hx23 : x = 2#32 ∨ x = 3#32 := by
      have : x.toNat = 2 ∨ x.toNat = 3 := by omega
      exact this.imp BitVec.eq_of_toNat_eq BitVec.eq_of_toNat_eq
    have hlast : (2#32 - x) &&& -boolWord (x &&& 2#32 = 0#32) = 0#32 := by
      rcases hx23 with rfl | rfl <;> decide
    rw [hlast, BitVec.add_zero]
    omega

theorem ctzsi2_toNat {a : Word} {k : Nat} (h : IsLow a.toNat k) : (ctzsi2 a).toNat = k := by
  have hk : k < 32 := h.lt a.isLt
  have h32 : Trailing k 32 (a, 0#32) := ⟨k, h, hk, Nat.zero_add _, Nat.le_refl _⟩
  have h16 := ctzHalf_trailing (by decide : 4 < 5) (by decide : (0x0000FFFF#32).toNat = 2 ^ 2 ^ 4 - 1) h32
  have h8 := ctzHalf_trailing (by decide : 3 < 5) (by decide : (0x00FF#32).toNat = 2 ^ 2 ^ 3 - 1) h16
  have h4 := ctzHalf_trailing (by decide : 2 < 5) (by decide : (0x0F#32).toNat = 2 ^ 2 ^ 2 - 1) h8
  have h2 := ctzHalf_trailing (by decide : 1 < 5) (by decide : (0x3#32).toNat = 2 ^ 2 ^ 1 - 1) h4
  unfold ctzsi2
  generalize ctzHalf 0x3#32 1 _ = xr at h2 ⊢
  obtain ⟨x, r⟩ := xr
  obtain ⟨j, ⟨c, hc⟩, hj, hsum, hr⟩ := h2
  dsimp only at hc hsum hr ⊢
  have hand : (x &&& 3#32).toNat = x.toNat % 4 := by
    rw [BitVec.toNat_and]
    exact Nat.and_two_pow_sub_one_eq_mod x.toNat 2
  generalize x &&& 3#32 = y at hand ⊢
  have hj' : j = 0 ∨ j = 1 := by omega
  rcases hj' with rfl | rfl
  · have hy : y = 1#32 ∨ y = 3#32 := by
      have : y.toNat = 1 ∨ y.toNat = 3 := by omega
      exact this.imp BitVec.eq_of_toNat_eq BitVec.eq_of_toNat_eq
    have hlast : (2#32 - y >>> 1) &&& -boolWord (y &&& 1#32 = 0#32) = 0#32 := by
      rcases hy with rfl | rfl <;> decide
    rw [hlast, BitVec.add_zero]
    omega
  · have hy : y = 2#32 := BitVec.eq_of_toNat_eq (by rw [BitVec.toNat_ofNat]; omega)
    have hlast : (2#32 - y >>> 1) &&& -boolWord (y &&& 1#32 = 0#32) = 1#32 := by rw [hy]; decide
    rw [hlast, BitVec.toNat_add, BitVec.toNat_ofNat]
    omega

/-! ## Double words -/

theorem toNat_low (x : BitVec 64) : (low x).toNat = x.toNat % 2 ^ 32 := by
  rw [low, BitVec.extractLsb'_toNat, Nat.shiftRight_zero]

theorem toNat_high (x : BitVec 64) : (high x).toNat = x.toNat / 2 ^ 32 := by
  have := x.isLt
  rw [high, BitVec.extractLsb'_toNat, Nat.shiftRight_eq_div_pow, Nat.mod_eq_of_lt (by omega)]

theorem high_eq_zero_iff (x : BitVec 64) : high x = 0#32 ↔ x.toNat < 2 ^ 32 := by
  rw [← BitVec.toNat_inj, toNat_high, BitVec.toNat_ofNat]
  omega

theorem low_eq_zero_iff (x : BitVec 64) : low x = 0#32 ↔ x.toNat % 2 ^ 32 = 0 := by
  rw [← BitVec.toNat_inj, toNat_low]
  rfl

theorem clzdi2_toNat {a : BitVec 64} {k : Nat} (h : IsTop a.toNat k) : (clzdi2 a).toNat = 63 - k := by
  have hk : k < 64 := (h.lt_iff 64).mp a.isLt
  unfold clzdi2
  dsimp only
  by_cases h0 : high a = 0#32
  · have hlt := (high_eq_zero_iff a).mp h0
    have hf : -boolWord (high a = 0#32) = BitVec.allOnes 32 := by rw [decide_eq_true h0]; rfl
    have hlow : IsTop (low a).toNat k := by rwa [toNat_low, Nat.mod_eq_of_lt hlt]
    have hk' := (h.lt_iff 32).mp hlt
    rw [hf, h0, BitVec.zero_and, BitVec.zero_or, BitVec.and_allOnes, BitVec.toNat_add,
      clzsi2_toNat hlow, BitVec.allOnes_and, BitVec.toNat_ofNat]
    omega
  · have hge := fun hlt => h0 ((high_eq_zero_iff a).mpr hlt)
    have hf : -boolWord (high a = 0#32) = 0#32 := by rw [decide_eq_false h0]; rfl
    have hk' : ¬k < 32 := fun hlt => hge ((h.lt_iff 32).mpr hlt)
    have hhigh : IsTop (high a).toNat (k - 32) := by
      rw [toNat_high]
      exact h.shift (by omega)
    rw [hf, BitVec.not_zero, BitVec.and_allOnes, BitVec.and_zero, BitVec.or_zero, BitVec.zero_and,
      BitVec.add_zero, clzsi2_toNat hhigh]
    omega

theorem ctzdi2_toNat {a : BitVec 64} {k : Nat} (h : IsLow a.toNat k) : (ctzdi2 a).toNat = k := by
  unfold ctzdi2
  dsimp only
  by_cases h0 : low a = 0#32
  · have hk : 32 ≤ k := (h.mod_eq_zero_iff 32).mp ((low_eq_zero_iff a).mp h0)
    have hf : -boolWord (low a = 0#32) = BitVec.allOnes 32 := by rw [decide_eq_true h0]; rfl
    have hhigh : IsLow (high a).toNat (k - 32) := by
      rw [toNat_high]
      exact h.shift hk
    have hlt : k < 64 := h.lt a.isLt
    rw [hf, h0, BitVec.zero_and, BitVec.or_zero, BitVec.and_allOnes, BitVec.toNat_add,
      ctzsi2_toNat hhigh, BitVec.allOnes_and, BitVec.toNat_ofNat]
    omega
  · have hk : ¬32 ≤ k := fun hle => h0 ((low_eq_zero_iff a).mpr ((h.mod_eq_zero_iff 32).mpr hle))
    have hf : -boolWord (low a = 0#32) = 0#32 := by rw [decide_eq_false h0]; rfl
    have hlow : IsLow (low a).toNat k := by
      rw [toNat_low]
      exact h.mod (Nat.lt_of_not_le hk)
    rw [hf, BitVec.not_zero, BitVec.and_allOnes, BitVec.and_zero, BitVec.zero_or, BitVec.zero_and,
      BitVec.add_zero, ctzsi2_toNat hlow]

/-- Every function counts the zeros above the highest 1, or below the lowest 1, of every argument but 0. -/
theorem counts_zeros (a : Word) (ha : a ≠ 0#32) (b : BitVec 64) (hb : b ≠ 0#64) :
    clzsi2 a = a.clz ∧ ctzsi2 a = a.ctz ∧ (clzdi2 b).toNat = b.clz.toNat ∧
      (ctzdi2 b).toNat = b.ctz.toNat := by
  have ha' : a.toNat ≠ 0 := fun h => ha (BitVec.eq_of_toNat_eq h)
  have hb' : b.toNat ≠ 0 := fun h => hb (BitVec.eq_of_toNat_eq h)
  obtain ⟨i, hi⟩ := exists_isTop ha'
  obtain ⟨j, hj⟩ := exists_isLow ha'
  obtain ⟨i', hi'⟩ := exists_isTop hb'
  obtain ⟨j', hj'⟩ := exists_isLow hb'
  refine ⟨BitVec.eq_of_toNat_eq ?_, BitVec.eq_of_toNat_eq ?_, ?_, ?_⟩
  · rw [clzsi2_toNat hi, clz_eq hi]
  · rw [ctzsi2_toNat hj, ctz_eq hj]
  · rw [clzdi2_toNat hi', clz_eq hi']
  · rw [ctzdi2_toNat hj', ctz_eq hj']

/-- A word and a double word with zeros at both ends. -/
theorem counts_zeros_both_ends : clzsi2 0x00F0#32 = BitVec.clz 0x00F0#32 ∧
    (ctzdi2 0x3000000000#64).toNat = (BitVec.ctz 0x3000000000#64).toNat := by
  obtain ⟨hc, -, -, ht⟩ := counts_zeros 0x00F0#32 (by decide) 0x3000000000#64 (by decide)
  exact ⟨hc, ht⟩

end MyCpu.Runtime
