import MyCpu.Runtime.DoubleWords
import MyCpu.Runtime.Divide

/-!
# Division of double words

`klib/src/int64.c`: `__udivmoddi4` and the functions over it, which is what `/` and `%` on 64-bit
integers are compiled to. `/` and `%` on words in it are the routines of `div.S`.

* `udivmoddi4` : the special cases and the loop, quotient and remainder;
* `Rounds` : the invariant of the loop, on the digits of quotient and dividend in `r`, `q` and `carry`;
* `udivLoop_eq` : the loop divides, `udivmoddi4_eq` : so do all cases together;
* `unsigned_double_divides`, `signed_double_divides` : what every function returns for a divisor but 0.
-/

namespace MyCpu.Runtime

open Rv32 Rv32.Isa Words

/-! ## The functions -/

/-- The rounds of `__udivmoddi4` and the shift after them. `sr` rounds are to go. -/
def udivLoop (d : DWord) : Nat → DWord → DWord → Word → DWord × DWord
  | 0, r, q, carry => ((q <<< 1) ||| carry.setWidth 64, r)
  | sr + 1, r, q, carry =>
      let r' : DWord := ((high r <<< 1) ||| (low r >>> 31)) ++ ((low r <<< 1) ||| (high q >>> 31))
      let q' : DWord := ((high q <<< 1) ||| (low q >>> 31)) ++ ((low q <<< 1) ||| carry)
      let s := (d - r' - 1#64).sshiftRight 63
      udivLoop d sr (r' - (d &&& s)) q' ((s &&& 1#64).setWidth 32)

/-- `__udivmoddi4`: the quotient and `*rem`. -/
def udivmoddi4 (n d : DWord) : DWord × DWord :=
  if high n = 0#32 then
    if high d = 0#32 then ((divu (low n) (low d)).setWidth 64, (remu (low n) (low d)).setWidth 64)
    else (0#64, (low n).setWidth 64)
  else if low d = 0#32 then
    if high d = 0#32 then ((divu (high n) (low d)).setWidth 64, (remu (high n) (low d)).setWidth 64)
    else if low n = 0#32 then ((divu (high n) (high d)).setWidth 64, remu (high n) (high d) ++ 0#32)
    else if high d &&& (high d - 1#32) = 0#32 then
      ((high n >>> ctzsi2 (high d)).setWidth 64, (high n &&& (high d - 1#32)) ++ low n)
    else
      let sr := clzsi2 (high d) - clzsi2 (high n)
      if 30#32 < sr then (0#64, n)
      else
        let sr := sr + 1#32
        udivLoop d sr.toNat ((high n >>> sr) ++ ((high n <<< (32#32 - sr)) ||| (low n >>> sr)))
          ((low n <<< (32#32 - sr)) ++ 0#32) 0#32
  else if high d = 0#32 then
    if low d &&& (low d - 1#32) = 0#32 then
      if low d = 1#32 then (n, (low n &&& (low d - 1#32)).setWidth 64)
      else
        let sr := ctzsi2 (low d)
        ((high n >>> sr) ++ ((high n <<< (32#32 - sr)) ||| (low n >>> sr)),
          (low n &&& (low d - 1#32)).setWidth 64)
    else
      let sr := 1#32 + 32#32 + clzsi2 (low d) - clzsi2 (high n)
      if sr = 32#32 then udivLoop d sr.toNat (0#32 ++ high n) (low n ++ 0#32) 0#32
      else if sr < 32#32 then
        udivLoop d sr.toNat ((high n >>> sr) ++ ((high n <<< (32#32 - sr)) ||| (low n >>> sr)))
          ((low n <<< (32#32 - sr)) ++ 0#32) 0#32
      else
        udivLoop d sr.toNat (0#32 ++ high n >>> (sr - 32#32))
          (((high n <<< (64#32 - sr)) ||| (low n >>> (sr - 32#32))) ++ low n <<< (64#32 - sr)) 0#32
  else
    let sr := clzsi2 (high d) - clzsi2 (high n)
    if 31#32 < sr then (0#64, n)
    else
      let sr := sr + 1#32
      if sr = 32#32 then udivLoop d sr.toNat (0#32 ++ high n) (low n ++ 0#32) 0#32
      else
        udivLoop d sr.toNat ((high n >>> sr) ++ ((high n <<< (32#32 - sr)) ||| (low n >>> sr)))
          ((low n <<< (32#32 - sr)) ++ 0#32) 0#32

def udivdi3 (a b : DWord) : DWord := (udivmoddi4 a b).1

def umoddi3 (a b : DWord) : DWord := (udivmoddi4 a b).2

/-- `__divdi3`. Signed 64-bit sums, differences and negations wrap around, as in two's complement, and `>>`
copies the sign: `int64.c` assumes this of `di_int`, which the language leaves open. -/
def divdi3 (a b : DWord) : DWord :=
  let sa := a.sshiftRight 63
  let sb := b.sshiftRight 63
  let a := (a ^^^ sa) - sa
  let b := (b ^^^ sb) - sb
  let sa := sa ^^^ sb
  ((udivmoddi4 a b).1 ^^^ sa) - sa

/-- `__divmoddi4`: the quotient and `*rem`. The signed product and difference wrap around. -/
def divmoddi4 (a b : DWord) : DWord × DWord :=
  let d := divdi3 a b
  (d, a - multi3 d b)

/-- `__moddi3`, with signed arithmetic that wraps around as in `divdi3`. -/
def moddi3 (a b : DWord) : DWord :=
  let s := b.sshiftRight 63
  let b := (b ^^^ s) - s
  let s := a.sshiftRight 63
  let a := (a ^^^ s) - s
  ((udivmoddi4 a b).2 ^^^ s) - s

/-! ## Double words -/

/-- `r:q` shifted left, the upper half. -/
theorem join_shift (r q : DWord) :
    (((high r <<< 1) ||| (low r >>> 31)) ++ ((low r <<< 1) ||| (high q >>> 31)) : DWord) =
      (r <<< 1) ||| (q >>> 63) := by
  refine BitVec.eq_of_getLsbD_eq fun i hi => ?_
  simp only [BitVec.getLsbD_append, BitVec.getLsbD_or, BitVec.getLsbD_shiftLeft,
    BitVec.getLsbD_ushiftRight, low, high, BitVec.getLsbD_extractLsb']
  grind

/-- `r:q` shifted left, the lower half. -/
theorem join_shift_carry (q : DWord) (carry : Word) :
    (((high q <<< 1) ||| (low q >>> 31)) ++ ((low q <<< 1) ||| carry) : DWord) =
      (q <<< 1) ||| carry.setWidth 64 := by
  refine BitVec.eq_of_getLsbD_eq fun i hi => ?_
  simp only [BitVec.getLsbD_append, BitVec.getLsbD_or, BitVec.getLsbD_shiftLeft,
    BitVec.getLsbD_ushiftRight, low, high, BitVec.getLsbD_extractLsb', BitVec.getLsbD_setWidth]
  grind

/-- A shift left by one place that takes in a bit. -/
theorem toNat_shift_or (x y : DWord) (hy : y.toNat < 2) :
    ((x <<< 1) ||| y).toNat = 2 * x.toNat % 2 ^ 64 + y.toNat := by
  have hx : x.toNat <<< 1 % 2 ^ 64 = 2 ^ 1 * (x.toNat % 2 ^ 63) := by
    rw [Nat.shiftLeft_eq]
    omega
  rw [BitVec.toNat_or, BitVec.toNat_shiftLeft, hx, ← Nat.two_pow_add_eq_or_of_lt hy]
  omega

/-- Every bit of `x >> 63` is the sign. -/
theorem sshiftRight_sign (x : DWord) :
    x.sshiftRight 63 = if x.msb then BitVec.allOnes 64 else 0#64 := by
  refine BitVec.eq_of_getLsbD_eq fun i hi => ?_
  have hsign : (x.sshiftRight 63).getLsbD i = x.msb := by
    rw [BitVec.getLsbD_sshiftRight, decide_eq_false (Nat.not_le.mpr hi), Bool.not_false, Bool.true_and]
    split
    · rw [show 63 + i = 63 by omega, BitVec.msb_eq_getLsbD_last]
    · rfl
  rw [hsign]
  cases x.msb with
  | true => rw [if_pos rfl, BitVec.getLsbD_allOnes, decide_eq_true hi]
  | false => rw [if_neg Bool.false_ne_true, BitVec.getLsbD_zero]

/-- The comparison of `__udivmoddi4`, which is right where the two are not too far apart. -/
theorem sign_mask {d r : DWord} (hlt : r.toNat < d.toNat → d.toNat - r.toNat ≤ 2 ^ 63)
    (hge : d.toNat ≤ r.toNat → r.toNat - d.toNat < 2 ^ 63) :
    (d - r - 1#64).sshiftRight 63 = if d.toNat ≤ r.toNat then BitVec.allOnes 64 else 0#64 := by
  have hd := d.isLt
  have hr := r.isLt
  have hsub : (d - r - 1#64).toNat = (d.toNat + (2 ^ 64 - r.toNat) + (2 ^ 64 - 1)) % 2 ^ 64 := by
    rw [BitVec.toNat_sub, BitVec.toNat_sub, BitVec.toNat_ofNat]
    omega
  have hmsb : (d - r - 1#64).msb = decide (d.toNat ≤ r.toNat) := by
    rw [BitVec.msb_eq_decide, hsub, decide_eq_decide]
    constructor
    · intro h
      refine Nat.le_of_not_lt fun hlt' => ?_
      have := hlt hlt'
      omega
    · intro h
      have := hge h
      omega
  rw [sshiftRight_sign, hmsb]
  simp only [decide_eq_true_eq]

/-! ## The loop -/

/-- `__udivmoddi4` with `k` rounds to go and the digits `Q` found. `q` holds the low digits of the
dividend above all digits found but the last, which is `carry`; in every round to come the remainder is
within `2 ^ 63` of the divisor. -/
structure Rounds (n d : DWord) (k Q : Nat) (r q : DWord) (carry : Word) : Prop where
  digits : q.toNat = n.toNat % 2 ^ k * 2 ^ (64 - k) + Q / 2
  carry : carry.toNat = Q % 2
  dividing : Dividing n.toNat d.toNat k (Q * 2 ^ k) (r.toNat * 2 ^ k + n.toNat % 2 ^ k)
  near : k = 0 ∨ d.toNat ≤ 2 ^ 63 ∨ (k = 1 ∧ 2 ^ 62 ≤ r.toNat)

theorem Rounds.digits_lt {n d : DWord} {k Q : Nat} {r q : DWord} {carry : Word}
    (h : Rounds n d k Q r q carry) (hd : d ≠ 0#64) (hk : k ≤ 64) : Q < 2 ^ (64 - k) := by
  have hd' : 0 < d.toNat := Nat.pos_of_ne_zero fun h0 => hd (BitVec.eq_of_toNat_eq h0)
  refine Nat.lt_of_mul_lt_mul_right (a := 2 ^ k) ?_
  rw [← Nat.pow_add, Nat.sub_add_cancel hk]
  exact Nat.lt_of_le_of_lt (h.dividing.le hd') n.isLt

/-- A round: the shift of `r:q` brings the next digit of the dividend into `r`. -/
theorem Rounds.shift {n d : DWord} {k Q : Nat} {r q : DWord} {carry : Word}
    (h : Rounds n d (k + 1) Q r q carry) (hd : d ≠ 0#64) (hk : k < 64) :
    ((r <<< 1) ||| (q >>> 63)).toNat * 2 ^ k + n.toNat % 2 ^ k =
        r.toNat * 2 ^ (k + 1) + n.toNat % 2 ^ (k + 1) ∧
      ((q <<< 1) ||| carry.setWidth 64).toNat = n.toNat % 2 ^ k * 2 ^ (64 - k) + Q ∧
      2 * r.toNat ≤ ((r <<< 1) ||| (q >>> 63)).toNat := by
  have hn := n.isLt
  have hQ := h.digits_lt hd hk
  have hdigits := h.digits
  have hcarry := h.carry
  have hpow : 2 ^ (64 - k) = 2 * 2 ^ (64 - (k + 1)) := by
    rw [← Nat.pow_succ', show (64 - (k + 1)).succ = 64 - k by omega]
  have hpow' : 2 ^ k * 2 ^ (64 - (k + 1)) = 2 ^ 63 := by
    rw [← Nat.pow_add, show k + (64 - (k + 1)) = 63 by omega]
  have hmod : n.toNat % 2 ^ (k + 1) = n.toNat % 2 ^ k + 2 ^ k * (n.toNat / 2 ^ k % 2) := Nat.mod_mul
  have hbit : n.toNat / 2 ^ k % 2 < 2 := Nat.mod_lt _ (by decide)
  have hrest : n.toNat % 2 ^ k * 2 ^ (64 - (k + 1)) + Q / 2 < 2 ^ 63 := by
    have hle : (n.toNat % 2 ^ k + 1) * 2 ^ (64 - (k + 1)) ≤ 2 ^ k * 2 ^ (64 - (k + 1)) :=
      Nat.mul_le_mul_right _ (Nat.mod_lt _ (Nat.two_pow_pos k))
    rw [hpow', Nat.add_one_mul] at hle
    omega
  have hq : q.toNat = n.toNat / 2 ^ k % 2 * 2 ^ 63 + (n.toNat % 2 ^ k * 2 ^ (64 - (k + 1)) + Q / 2) := by
    rw [hdigits, hmod, Nat.add_mul, ← hpow']
    ring
  have hhigh : (q >>> 63).toNat = n.toNat / 2 ^ k % 2 := by
    rw [BitVec.toNat_ushiftRight, Nat.shiftRight_eq_div_pow]
    omega
  have hsmall : 2 * r.toNat < 2 ^ 64 := by
    have hle : r.toNat * 2 ^ (k + 1) ≤ n.toNat := by
      have := h.dividing.sum
      omega
    rw [Nat.pow_succ', ← Nat.mul_assoc] at hle
    have := Nat.le_mul_of_pos_right (r.toNat * 2) (Nat.two_pow_pos k)
    omega
  have hc : (carry.setWidth 64).toNat = Q % 2 := by
    rw [BitVec.toNat_setWidth, hcarry]
    omega
  refine ⟨?_, ?_, ?_⟩
  · rw [toNat_shift_or r _ (hhigh ▸ hbit), hhigh, Nat.mod_eq_of_lt hsmall, hmod]
    ring
  · rw [toNat_shift_or q _ (hc ▸ Nat.mod_lt _ (by decide)), hc, hpow]
    generalize 2 ^ (64 - (k + 1)) = p at *
    rw [Nat.mul_left_comm]
    omega
  · rw [toNat_shift_or r _ (hhigh ▸ hbit), Nat.mod_eq_of_lt hsmall]
    exact Nat.le_add_right _ _

section

variable {n d : DWord} {k Q : Nat} {r q r' q' : DWord} {carry : Word} (h : Rounds n d (k + 1) Q r q carry)
  (hr : r'.toNat * 2 ^ k + n.toNat % 2 ^ k = r.toNat * 2 ^ (k + 1) + n.toNat % 2 ^ (k + 1))
  (hq : q'.toNat = n.toNat % 2 ^ k * 2 ^ (64 - k) + Q)

include h

theorem Rounds.near_next : k = 0 ∨ d.toNat ≤ 2 ^ 63 := by
  rcases h.near with h0 | hd | ⟨h1, -⟩
  · exact absurd h0 (Nat.succ_ne_zero k)
  · exact .inr hd
  · exact .inl (Nat.succ.inj h1)

include hr

theorem Rounds.dividing_next :
    Dividing n.toNat d.toNat (k + 1) (Q * 2 * 2 ^ k) (r'.toNat * 2 ^ k + n.toNat % 2 ^ k) := by
  have hdividing := h.dividing
  rwa [← hr, Nat.pow_succ', ← Nat.mul_assoc] at hdividing

/-- What is left after the shift is less than twice the divisor. -/
theorem Rounds.rest_lt : r'.toNat < 2 * d.toNat := by
  have hlt := Nat.lt_of_le_of_lt (Nat.le_add_right _ _) (h.dividing_next hr).rest
  rw [Nat.pow_succ', ← Nat.mul_assoc, Nat.mul_comm d.toNat] at hlt
  exact Nat.lt_of_mul_lt_mul_right hlt

include hq

/-- A round in which the divisor goes in. -/
theorem Rounds.subtract (hle : d.toNat ≤ r'.toNat) : Rounds n d k (Q * 2 + 1) (r' - d) q' 1#32 where
  digits := by rw [hq, show (Q * 2 + 1) / 2 = Q by omega]
  carry := by
    rw [show (Q * 2 + 1) % 2 = 1 by omega]
    rfl
  dividing := by
    have hsub : (r' - d).toNat = r'.toNat - d.toNat := BitVec.toNat_sub_of_le hle
    have hmul : d.toNat * 2 ^ k ≤ r'.toNat * 2 ^ k := Nat.mul_le_mul_right _ hle
    have hnew := (h.dividing_next hr).subtract (Nat.le_trans hmul (Nat.le_add_right _ _))
    rwa [← Nat.add_one_mul, Nat.sub_add_comm hmul, ← Nat.sub_mul, ← hsub] at hnew
  near := h.near_next.imp_right .inl

/-- A round in which it does not. -/
theorem Rounds.skip (hlt : r'.toNat < d.toNat) : Rounds n d k (Q * 2) r' q' 0#32 where
  digits := by rw [hq, show Q * 2 / 2 = Q by omega]
  carry := by
    rw [show Q * 2 % 2 = 0 by omega]
    rfl
  dividing := by
    refine (h.dividing_next hr).skip ?_
    have hm : n.toNat % 2 ^ k < 2 ^ k := Nat.mod_lt _ (Nat.two_pow_pos k)
    have hmul : (r'.toNat + 1) * 2 ^ k ≤ d.toNat * 2 ^ k := Nat.mul_le_mul_right _ hlt
    rw [Nat.add_one_mul] at hmul
    omega
  near := h.near_next.imp_right .inl

end

/-- The shift after the last round. -/
theorem udivLoop_zero {n d : DWord} {Q : Nat} {r q : DWord} {carry : Word} (h : Rounds n d 0 Q r q carry) :
    udivLoop d 0 r q carry = (n / d, n % d) := by
  have hcarry := h.carry
  have hdigits := h.digits
  have hdividing := h.dividing
  rw [Nat.pow_zero, Nat.mod_one, Nat.zero_mul, Nat.zero_add] at hdigits
  rw [Nat.pow_zero, Nat.mod_one, Nat.mul_one, Nat.mul_one, Nat.add_zero] at hdividing
  have hc : (carry.setWidth 64).toNat = Q % 2 := by
    rw [BitVec.toNat_setWidth, hcarry]
    omega
  have hQ : Q < 2 ^ 64 := by
    rw [hdividing.done.1]
    exact Nat.lt_of_le_of_lt (Nat.div_le_self _ _) n.isLt
  rw [udivLoop, Prod.mk.injEq]
  refine ⟨BitVec.eq_of_toNat_eq ?_, BitVec.eq_of_toNat_eq ?_⟩
  · rw [toNat_shift_or q _ (hc ▸ Nat.mod_lt _ (by decide)), hc, BitVec.toNat_udiv, ← hdividing.done.1]
    omega
  · rw [BitVec.toNat_umod]
    exact hdividing.done.2

/-- The rounds and the shift after them give quotient and remainder. -/
theorem udivLoop_eq {n d : DWord} (hd : d ≠ 0#64) {k : Nat} (hk : k ≤ 64) :
    ∀ {Q : Nat} {r q : DWord} {carry : Word}, Rounds n d k Q r q carry →
      udivLoop d k r q carry = (n / d, n % d) := by
  induction k with
  | zero => exact udivLoop_zero
  | succ k ih =>
      intro Q r q carry h
      obtain ⟨hr, hq, hdouble⟩ := h.shift hd hk
      rw [udivLoop, join_shift, join_shift_carry]
      generalize (q <<< 1) ||| carry.setWidth 64 = q' at hq ⊢
      generalize (r <<< 1) ||| (q >>> 63) = r' at hr hdouble ⊢
      have hd' := d.isLt
      have hr' := r'.isLt
      have hrest := h.rest_lt hr
      rw [sign_mask (d := d) (r := r')]
      · by_cases hle : d.toNat ≤ r'.toNat
        · rw [if_pos hle, BitVec.and_allOnes]
          exact ih (Nat.le_of_succ_le hk) (h.subtract hr hq hle)
        · rw [if_neg hle, BitVec.and_zero, BitVec.sub_zero]
          exact ih (Nat.le_of_succ_le hk) (h.skip hr hq (Nat.lt_of_not_le hle))
      · intro hlt
        rcases h.near with h0 | hd | ⟨-, hlarge⟩ <;> omega
      · intro hge
        omega

/-- Where the loop starts: no digit found, and the dividend `k` digits longer than the divisor. -/
theorem udivLoop_start {n d : DWord} (hd : d ≠ 0#64) {k : Nat} (hk : k ≤ 64)
    (hn : n.toNat < d.toNat * 2 ^ k) (hnear : d.toNat ≤ 2 ^ 63 ∨ (k = 1 ∧ 2 ^ 63 ≤ n.toNat)) :
    udivLoop d k (n >>> k) (n <<< (64 - k)) 0#32 = (n / d, n % d) := by
  refine udivLoop_eq hd hk (Q := 0) ⟨?_, rfl, ?_, .inr (hnear.imp_right fun ⟨h1, h⟩ => ⟨h1, ?_⟩)⟩
  · have hpow : 2 ^ 64 = 2 ^ k * 2 ^ (64 - k) := by
      rw [← Nat.pow_add, Nat.add_sub_cancel' hk]
    rw [BitVec.toNat_shiftLeft, Nat.shiftLeft_eq, hpow, Nat.mul_mod_mul_right, Nat.zero_div, Nat.add_zero]
  · rw [BitVec.toNat_ushiftRight, Nat.shiftRight_eq_div_pow, Nat.mul_comm (n.toNat / 2 ^ k),
      Nat.div_add_mod, Nat.zero_mul]
    exact Dividing.start hn
  · rw [BitVec.toNat_ushiftRight, Nat.shiftRight_eq_div_pow, h1]
    omega

/-! ## The cases -/

theorem isPow_iff {x : Word} (h : x ≠ 0#32) : x &&& (x - 1#32) = 0#32 ↔ ∃ i, x.toNat = 2 ^ i := by
  have h' : x.toNat ≠ 0 := fun h0 => h (BitVec.eq_of_toNat_eq h0)
  have hx := x.isLt
  have hsub : (x - 1#32).toNat = x.toNat - 1 := by
    rw [BitVec.toNat_sub, BitVec.toNat_ofNat]
    omega
  rw [← BitVec.toNat_inj, BitVec.toNat_and, hsub]
  exact Nat.and_sub_one_eq_zero_iff_isPowerOfTwo h'

theorem isTop_pow (i : Nat) : IsTop (2 ^ i) i :=
  ⟨Nat.le_refl _, Nat.pow_lt_pow_right (by decide) (Nat.lt_succ_self i)⟩

theorem isLow_pow (i : Nat) : IsLow (2 ^ i) i := ⟨0, (Nat.mul_one _).symm⟩

theorem pair_eq {n d q r : DWord} (hq : q.toNat = n.toNat / d.toNat)
    (hr : r.toNat = n.toNat % d.toNat) : (q, r) = (n / d, n % d) := by
  rw [BitVec.eq_of_toNat_eq (hq.trans (BitVec.toNat_udiv).symm),
    BitVec.eq_of_toNat_eq (hr.trans (BitVec.toNat_umod).symm)]

theorem pair_eq_of_lt {n d : DWord} (h : n.toNat < d.toNat) : (0#64, n) = (n / d, n % d) := by
  refine pair_eq ?_ (Nat.mod_eq_of_lt h).symm
  rw [Nat.div_eq_of_lt h]
  rfl

theorem pair_eq_of_tops {n d : DWord} {i j : Nat} (hi : IsTop d.toNat i) (hj : IsTop n.toNat j)
    (hij : j < i) : (0#64, n) = (n / d, n % d) :=
  pair_eq_of_lt <| calc
    n.toNat < 2 ^ (j + 1) := hj.2
    _ ≤ 2 ^ i := Nat.pow_le_pow_right (by decide) hij
    _ ≤ d.toNat := hi.1

/-- The loop over the difference of the highest 1s and one more. -/
theorem udivLoop_tops {n d : DWord} {i j : Nat} (hi : IsTop d.toNat i) (hj : IsTop n.toNat j)
    (hij : i ≤ j) :
    udivLoop d (j - i + 1) (n >>> (j - i + 1)) (n <<< (64 - (j - i + 1))) 0#32 = (n / d, n % d) := by
  have hd : d ≠ 0#64 := by
    rintro rfl
    exact absurd hi.1 (Nat.not_le.mpr (Nat.two_pow_pos i))
  have hj64 : j < 64 := (hj.lt_iff 64).mp n.isLt
  refine udivLoop_start hd (by omega) ?_ ?_
  · calc n.toNat < 2 ^ (j + 1) := hj.2
      _ = 2 ^ i * 2 ^ (j - i + 1) := by rw [← Nat.pow_add, show i + (j - i + 1) = j + 1 by omega]
      _ ≤ d.toNat * 2 ^ (j - i + 1) := Nat.mul_le_mul_right _ hi.1
  · by_cases h63 : i < 63
    · exact .inl (Nat.le_of_lt ((hi.lt_iff 63).mpr h63))
    · have hj63 : j = 63 := by omega
      exact .inr ⟨by omega, hj63 ▸ hj.1⟩

/-- The start of the loop where fewer rounds than the bits of a word are needed. -/
theorem udivLoop_halves {n d : DWord} {i j : Nat} (hi : IsTop d.toNat i) (hj : IsTop n.toNat j)
    (hij : i ≤ j) {sr : Word} (hsr : sr.toNat = j - i + 1) (hlt : sr.toNat < 32) :
    udivLoop d sr.toNat ((high n >>> sr) ++ ((high n <<< (32#32 - sr)) ||| (low n >>> sr)))
      ((low n <<< (32#32 - sr)) ++ 0#32) 0#32 = (n / d, n % d) := by
  have hsub : (32#32 - sr).toNat = 32 - sr.toNat := by
    rw [BitVec.toNat_sub, BitVec.toNat_ofNat]
    omega
  have hrange : 0 < sr.toNat ∧ sr.toNat < 32 := ⟨by omega, hlt⟩
  have hleft : (low n <<< (32 - sr.toNat) ++ 0#32 : DWord) = n <<< (64 - sr.toNat) := by
    rw [← shiftLeft_word n (b := 64 - sr.toNat) ⟨by omega, by omega⟩,
      show 64 - sr.toNat - 32 = 32 - sr.toNat by omega]
  rw [BitVec.ushiftRight_eq', BitVec.ushiftRight_eq', BitVec.shiftLeft_eq', BitVec.shiftLeft_eq', hsub,
    shiftRight_part n hrange, hleft, hsr]
  exact udivLoop_tops hi hj hij

/-- The start of the loop where as many rounds as the bits of a word are needed. -/
theorem udivLoop_word {n d : DWord} {i j : Nat} (hi : IsTop d.toNat i) (hj : IsTop n.toNat j)
    (hij : i ≤ j) {sr : Word} (hsr : sr.toNat = j - i + 1) (heq : sr.toNat = 32) :
    udivLoop d sr.toNat (0#32 ++ high n) (low n ++ 0#32) 0#32 = (n / d, n % d) := by
  have h := udivLoop_tops hi hj hij
  rw [← hsr, heq] at h
  have hright := shiftRight_word n (b := 32) ⟨Nat.le_refl _, by decide⟩
  have hleft := shiftLeft_word n (b := 32) ⟨Nat.le_refl _, by decide⟩
  rw [Nat.sub_self, BitVec.ushiftRight_zero] at hright
  rw [Nat.sub_self, BitVec.shiftLeft_zero] at hleft
  rw [hright, hleft, heq]
  exact h

/-- The start of the loop where more rounds than the bits of a word are needed. -/
theorem udivLoop_long {n d : DWord} {i j : Nat} (hi : IsTop d.toNat i) (hj : IsTop n.toNat j)
    (hij : i ≤ j) {sr : Word} (hsr : sr.toNat = j - i + 1) (hgt : 32 < sr.toNat) (hlt : sr.toNat < 64) :
    udivLoop d sr.toNat (0#32 ++ high n >>> (sr - 32#32))
      (((high n <<< (64#32 - sr)) ||| (low n >>> (sr - 32#32))) ++ low n <<< (64#32 - sr)) 0#32 =
      (n / d, n % d) := by
  have hsub : (sr - 32#32).toNat = sr.toNat - 32 := by
    rw [BitVec.toNat_sub, BitVec.toNat_ofNat]
    omega
  have hsub' : (64#32 - sr).toNat = 64 - sr.toNat := by
    rw [BitVec.toNat_sub, BitVec.toNat_ofNat]
    omega
  have hleft := shiftLeft_part n (b := 64 - sr.toNat) ⟨by omega, by omega⟩
  rw [show 32 - (64 - sr.toNat) = sr.toNat - 32 by omega] at hleft
  rw [BitVec.ushiftRight_eq', BitVec.ushiftRight_eq', BitVec.shiftLeft_eq', BitVec.shiftLeft_eq', hsub,
    hsub', shiftRight_word n ⟨Nat.le_of_lt hgt, hlt⟩, hleft, hsr]
  exact udivLoop_tops hi hj hij

theorem and_pow_toNat (x : Word) {d : Word} {i : Nat} (h : d.toNat = 2 ^ i) :
    (x &&& (d - 1#32)).toNat = x.toNat % 2 ^ i := by
  have hd := d.isLt
  have hpos := Nat.two_pow_pos i
  have hsub : (d - 1#32).toNat = 2 ^ i - 1 := by
    rw [BitVec.toNat_sub, BitVec.toNat_ofNat]
    omega
  rw [BitVec.toNat_and, hsub, Nat.and_two_pow_sub_one_eq_mod]

/-- `K 0 / K 0`. -/
theorem divide_high {n d : DWord} (hd : low d = 0#32) (hd' : high d ≠ 0#32) (hn : low n = 0#32) :
    ((divu (high n) (high d)).setWidth 64, remu (high n) (high d) ++ 0#32) = (n / d, n % d) := by
  rw [divu_eq_udiv _ hd', remu_eq_umod]
  refine pair_eq ?_ ?_
  · rw [toNat_setWidth, BitVec.toNat_udiv, toNat_halves n, toNat_halves d, hn, hd, BitVec.toNat_ofNat,
      Nat.zero_mod, Nat.add_zero, Nat.add_zero, Nat.mul_div_mul_right _ _ (Nat.two_pow_pos 32)]
  · rw [toNat_append, BitVec.toNat_umod, toNat_halves n, toNat_halves d, hn, hd, BitVec.toNat_ofNat,
      Nat.zero_mod, Nat.add_zero, Nat.add_zero, Nat.add_zero, Nat.mul_mod_mul_right]

/-- `K K / K 0` by a power of two. -/
theorem divide_high_pow {n d : DWord} (hd : low d = 0#32) {i : Nat} (hi : (high d).toNat = 2 ^ i) :
    ((high n >>> ctzsi2 (high d)).setWidth 64, (high n &&& (high d - 1#32)) ++ low n) =
      (n / d, n % d) := by
  have hctz : (ctzsi2 (high d)).toNat = i := ctzsi2_toNat (hi ▸ isLow_pow i)
  have hd' : d.toNat = 2 ^ 32 * 2 ^ i := by
    rw [toNat_halves d, hd, hi, Nat.mul_comm]
    rfl
  refine pair_eq ?_ ?_
  · rw [toNat_setWidth, BitVec.ushiftRight_eq', BitVec.toNat_ushiftRight, hctz,
      Nat.shiftRight_eq_div_pow, toNat_high, hd', Nat.div_div_eq_div_mul]
  · rw [toNat_append, and_pow_toNat (high n) hi, toNat_high, toNat_low, hd', Nat.mod_mul, Nat.add_comm,
      Nat.mul_comm]

/-- `K X / 0 K` by a power of two. -/
theorem divide_low_pow {n d : DWord} (hd : high d = 0#32) {i : Nat} (hi : (low d).toNat = 2 ^ i) :
    (if low d = 1#32 then (n, (low n &&& (low d - 1#32)).setWidth 64)
      else
        let sr := ctzsi2 (low d)
        ((high n >>> sr) ++ ((high n <<< (32#32 - sr)) ||| (low n >>> sr)),
          (low n &&& (low d - 1#32)).setWidth 64)) = (n / d, n % d) := by
  have hctz : (ctzsi2 (low d)).toNat = i := ctzsi2_toNat (hi ▸ isLow_pow i)
  have hlt : i < 32 := ((isTop_pow i).lt_iff 32).mp (hi ▸ (low d).isLt)
  have hd' : d.toNat = 2 ^ i := by
    rw [toNat_halves d, hd, hi]
    exact Nat.zero_add _
  have hrem : ((low n &&& (low d - 1#32)).setWidth 64).toNat = n.toNat % d.toNat := by
    rw [toNat_setWidth, and_pow_toNat (low n) hi, toNat_low, hd']
    exact Nat.mod_mod_of_dvd _ (Nat.pow_dvd_pow 2 (Nat.le_of_lt hlt))
  by_cases h1 : low d = 1#32
  · rw [if_pos h1]
    refine pair_eq ?_ hrem
    have hone : d.toNat = 1 := by rw [toNat_halves d, hd, h1]; rfl
    rw [hone, Nat.div_one]
  · have h0 : i ≠ 0 := by
      rintro rfl
      exact h1 (BitVec.eq_of_toNat_eq hi)
    have hsub : (32#32 - ctzsi2 (low d)).toNat = 32 - i := by
      rw [BitVec.toNat_sub, hctz, BitVec.toNat_ofNat]
      omega
    rw [if_neg h1]
    dsimp only
    refine pair_eq ?_ hrem
    rw [BitVec.ushiftRight_eq', BitVec.ushiftRight_eq', BitVec.shiftLeft_eq', hsub, hctz,
      shiftRight_part n ⟨Nat.pos_of_ne_zero h0, hlt⟩, BitVec.toNat_ushiftRight,
      Nat.shiftRight_eq_div_pow, hd']

theorem clz_high {x : DWord} {k : Nat} (h : IsTop x.toNat k) (hx : high x ≠ 0#32) :
    32 ≤ k ∧ k < 64 ∧ (clzsi2 (high x)).toNat = 63 - k := by
  have hk : 32 ≤ k := Nat.le_of_not_lt fun hlt => hx ((high_eq_zero_iff x).mpr ((h.lt_iff 32).mpr hlt))
  have htop : IsTop (high x).toNat (k - 32) := by
    rw [toNat_high]
    exact h.shift hk
  have hlt : k < 64 := (h.lt_iff 64).mp x.isLt
  refine ⟨hk, hlt, ?_⟩
  rw [clzsi2_toNat htop]
  omega

theorem clz_low {x : DWord} {k : Nat} (h : IsTop x.toNat k) (hx : high x = 0#32) :
    k < 32 ∧ (clzsi2 (low x)).toNat = 31 - k := by
  have hlt := (high_eq_zero_iff x).mp hx
  refine ⟨(h.lt_iff 32).mp hlt, clzsi2_toNat ?_⟩
  rwa [toNat_low, Nat.mod_eq_of_lt hlt]

/-- The difference of the counts of zeros of the upper halves. -/
theorem clz_sub {n d : DWord} {i j : Nat} (hi : IsTop d.toNat i) (hj : IsTop n.toNat j)
    (hd : high d ≠ 0#32) (hn : high n ≠ 0#32) :
    (i ≤ j → (clzsi2 (high d) - clzsi2 (high n)).toNat = j - i) ∧
      (j < i → 31 < (clzsi2 (high d) - clzsi2 (high n)).toNat) := by
  obtain ⟨hi', hi64, hclzd⟩ := clz_high hi hd
  obtain ⟨hj', hj64, hclzn⟩ := clz_high hj hn
  rw [BitVec.toNat_sub, hclzd, hclzn]
  omega

/-- `K K / K 0` by no power of two. -/
theorem divide_high_loop {n d : DWord} (hn : high n ≠ 0#32) (hd' : high d ≠ 0#32)
    (hpow : ¬high d &&& (high d - 1#32) = 0#32) :
    (let sr := clzsi2 (high d) - clzsi2 (high n)
      if 30#32 < sr then (0#64, n)
      else
        let sr := sr + 1#32
        udivLoop d sr.toNat ((high n >>> sr) ++ ((high n <<< (32#32 - sr)) ||| (low n >>> sr)))
          ((low n <<< (32#32 - sr)) ++ 0#32) 0#32) = (n / d, n % d) := by
  have hd0 : d.toNat ≠ 0 := fun h0 => hd' ((high_eq_zero_iff d).mpr (by omega))
  have hn0 : n.toNat ≠ 0 := fun h0 => hn ((high_eq_zero_iff n).mpr (by omega))
  obtain ⟨i, hi⟩ := exists_isTop hd0
  obtain ⟨j, hj⟩ := exists_isTop hn0
  obtain ⟨hi32, hi64, -⟩ := clz_high hi hd'
  obtain ⟨-, hj64, -⟩ := clz_high hj hn
  obtain ⟨hle, hgt⟩ := clz_sub hi hj hd' hn
  -- a divisor with its highest 1 at 32 would be a power of two
  have hi33 : i ≠ 32 := by
    rintro rfl
    refine hpow ((isPow_iff hd').mpr ⟨0, ?_⟩)
    have htop := hi.shift (n := 32) (Nat.le_refl _)
    rw [← toNat_high] at htop
    obtain ⟨h1, h2⟩ := htop
    rw [Nat.sub_self] at h1 h2
    omega
  dsimp only
  generalize clzsi2 (high d) - clzsi2 (high n) = sr at hle hgt ⊢
  have hcmp : 30#32 < sr ↔ 30 < sr.toNat := Iff.rfl
  by_cases hij : i ≤ j
  · have hsr := hle hij
    have hadd : (sr + 1#32).toNat = j - i + 1 := by
      rw [BitVec.toNat_add, BitVec.toNat_ofNat]
      omega
    rw [if_neg (mt hcmp.mp (by omega))]
    exact udivLoop_halves hi hj hij hadd (by omega)
  · have hsr := hgt (Nat.lt_of_not_le hij)
    rw [if_pos (hcmp.mpr (by omega))]
    exact pair_eq_of_tops hi hj (Nat.lt_of_not_le hij)

/-- `K X / K K`. -/
theorem divide_both_loop {n d : DWord} (hn : high n ≠ 0#32) (hd' : high d ≠ 0#32) :
    (let sr := clzsi2 (high d) - clzsi2 (high n)
      if 31#32 < sr then (0#64, n)
      else
        let sr := sr + 1#32
        if sr = 32#32 then udivLoop d sr.toNat (0#32 ++ high n) (low n ++ 0#32) 0#32
        else
          udivLoop d sr.toNat ((high n >>> sr) ++ ((high n <<< (32#32 - sr)) ||| (low n >>> sr)))
            ((low n <<< (32#32 - sr)) ++ 0#32) 0#32) = (n / d, n % d) := by
  have hd0 : d.toNat ≠ 0 := fun h0 => hd' ((high_eq_zero_iff d).mpr (by omega))
  have hn0 : n.toNat ≠ 0 := fun h0 => hn ((high_eq_zero_iff n).mpr (by omega))
  obtain ⟨i, hi⟩ := exists_isTop hd0
  obtain ⟨j, hj⟩ := exists_isTop hn0
  obtain ⟨hi32, hi64, -⟩ := clz_high hi hd'
  obtain ⟨-, hj64, -⟩ := clz_high hj hn
  obtain ⟨hle, hgt⟩ := clz_sub hi hj hd' hn
  dsimp only
  generalize clzsi2 (high d) - clzsi2 (high n) = sr at hle hgt ⊢
  have hcmp : 31#32 < sr ↔ 31 < sr.toNat := Iff.rfl
  by_cases hij : i ≤ j
  · have hsr := hle hij
    have hadd : (sr + 1#32).toNat = j - i + 1 := by
      rw [BitVec.toNat_add, BitVec.toNat_ofNat]
      omega
    rw [if_neg (mt hcmp.mp (by omega))]
    by_cases hword : sr + 1#32 = 32#32
    · rw [if_pos hword]
      exact udivLoop_word hi hj hij hadd (by rw [hword]; rfl)
    · have hne : (sr + 1#32).toNat ≠ 32 := fun h => hword (BitVec.eq_of_toNat_eq h)
      rw [if_neg hword]
      exact udivLoop_halves hi hj hij hadd (by omega)
  · have hsr := hgt (Nat.lt_of_not_le hij)
    rw [if_pos (hcmp.mpr (by omega))]
    exact pair_eq_of_tops hi hj (Nat.lt_of_not_le hij)

/-- `K X / 0 K` by no power of two. -/
theorem divide_low_loop {n d : DWord} (hn : high n ≠ 0#32) (hd : high d = 0#32) (hd' : low d ≠ 0#32)
    (hpow : ¬low d &&& (low d - 1#32) = 0#32) :
    (let sr := 1#32 + 32#32 + clzsi2 (low d) - clzsi2 (high n)
      if sr = 32#32 then udivLoop d sr.toNat (0#32 ++ high n) (low n ++ 0#32) 0#32
      else if sr < 32#32 then
        udivLoop d sr.toNat ((high n >>> sr) ++ ((high n <<< (32#32 - sr)) ||| (low n >>> sr)))
          ((low n <<< (32#32 - sr)) ++ 0#32) 0#32
      else
        udivLoop d sr.toNat (0#32 ++ high n >>> (sr - 32#32))
          (((high n <<< (64#32 - sr)) ||| (low n >>> (sr - 32#32))) ++ low n <<< (64#32 - sr)) 0#32) =
      (n / d, n % d) := by
  have hlow : d.toNat = (low d).toNat := by
    rw [toNat_halves d, hd]
    exact Nat.zero_add _
  have hd0 : d.toNat ≠ 0 := fun h0 => hd' (BitVec.eq_of_toNat_eq (hlow ▸ h0))
  have hn0 : n.toNat ≠ 0 := fun h0 => hn ((high_eq_zero_iff n).mpr (by omega))
  obtain ⟨i, hi⟩ := exists_isTop hd0
  obtain ⟨j, hj⟩ := exists_isTop hn0
  obtain ⟨hi32, hclzd⟩ := clz_low hi hd
  obtain ⟨hj32, hj64, hclzn⟩ := clz_high hj hn
  have hij : i ≤ j := by omega
  -- 1 is a power of two
  have hi0 : i ≠ 0 := by
    rintro rfl
    refine hpow ((isPow_iff hd').mpr ⟨0, ?_⟩)
    obtain ⟨h1, h2⟩ := hi
    omega
  have hsr : (1#32 + 32#32 + clzsi2 (low d) - clzsi2 (high n)).toNat = j - i + 1 := by
    rw [BitVec.toNat_sub, BitVec.toNat_add, hclzd, hclzn, BitVec.toNat_add, BitVec.toNat_ofNat,
      BitVec.toNat_ofNat]
    omega
  dsimp only
  generalize 1#32 + 32#32 + clzsi2 (low d) - clzsi2 (high n) = sr at hsr ⊢
  by_cases hword : sr = 32#32
  · rw [if_pos hword]
    exact udivLoop_word hi hj hij hsr (by rw [hword]; rfl)
  · have hne : sr.toNat ≠ 32 := fun h => hword (BitVec.eq_of_toNat_eq h)
    rw [if_neg hword]
    by_cases hlt : sr < 32#32
    · rw [if_pos hlt]
      exact udivLoop_halves hi hj hij hsr hlt
    · have hle : 32 ≤ sr.toNat := Nat.le_of_not_lt hlt
      rw [if_neg hlt]
      exact udivLoop_long hi hj hij hsr (by omega) (by omega)

theorem udivmoddi4_eq (n : DWord) {d : DWord} (hd : d ≠ 0#64) : udivmoddi4 n d = (n / d, n % d) := by
  have hd0 : d.toNat ≠ 0 := fun h0 => hd (BitVec.eq_of_toNat_eq h0)
  unfold udivmoddi4
  by_cases hnh : high n = 0#32
  · have hn := (high_eq_zero_iff n).mp hnh
    have hnl : n.toNat = (low n).toNat := by rw [toNat_low, Nat.mod_eq_of_lt hn]
    rw [if_pos hnh]
    by_cases hdh : high d = 0#32
    · have hdl : d.toNat = (low d).toNat := by rw [toNat_low, Nat.mod_eq_of_lt ((high_eq_zero_iff d).mp hdh)]
      have hdl0 : low d ≠ 0#32 := fun h0 => hd0 (by rw [hdl, h0]; rfl)
      rw [if_pos hdh, divu_eq_udiv _ hdl0, remu_eq_umod]
      refine pair_eq ?_ ?_
      · rw [toNat_setWidth, BitVec.toNat_udiv, hnl, hdl]
      · rw [toNat_setWidth, BitVec.toNat_umod, hnl, hdl]
    · have hlow : (low n).setWidth 64 = n := BitVec.eq_of_toNat_eq (by rw [toNat_setWidth, hnl])
      have hge : ¬d.toNat < 2 ^ 32 := fun hlt => hdh ((high_eq_zero_iff d).mpr hlt)
      rw [if_neg hdh, hlow]
      exact pair_eq_of_lt (by omega)
  · rw [if_neg hnh]
    by_cases hdl : low d = 0#32
    · have hdh : high d ≠ 0#32 := fun h0 => hd0 (by rw [toNat_halves d, h0, hdl]; rfl)
      rw [if_pos hdl, if_neg hdh]
      by_cases hnl : low n = 0#32
      · rw [if_pos hnl]
        exact divide_high hdl hdh hnl
      · rw [if_neg hnl]
        by_cases hpow : high d &&& (high d - 1#32) = 0#32
        · obtain ⟨i, hi⟩ := (isPow_iff hdh).mp hpow
          rw [if_pos hpow]
          exact divide_high_pow hdl hi
        · rw [if_neg hpow]
          exact divide_high_loop hnh hdh hpow
    · rw [if_neg hdl]
      by_cases hdh : high d = 0#32
      · rw [if_pos hdh]
        by_cases hpow : low d &&& (low d - 1#32) = 0#32
        · obtain ⟨i, hi⟩ := (isPow_iff hdl).mp hpow
          rw [if_pos hpow]
          exact divide_low_pow hdh hi
        · rw [if_neg hpow]
          exact divide_low_loop hnh hdh hdl hpow
      · rw [if_neg hdh]
        exact divide_both_loop hnh hdh

/-! ## Signs -/

/-- `(x ^ s) - s` for `s = x >> 63` and its like. -/
theorem xor_sub_sign (x : DWord) (neg : Bool) :
    (x ^^^ if neg then BitVec.allOnes 64 else 0#64) - (if neg then BitVec.allOnes 64 else 0#64) =
      if neg then -x else x := by
  cases neg with
  | true =>
      rw [if_pos rfl, if_pos rfl, BitVec.xor_allOnes, BitVec.neg_eq_not_add, BitVec.sub_eq_add_neg]
      rfl
  | false => rw [if_neg Bool.false_ne_true, if_neg Bool.false_ne_true, BitVec.xor_zero, BitVec.sub_zero]

theorem xor_sign (p q : Bool) :
    ((if p then BitVec.allOnes 64 else 0#64) ^^^ if q then BitVec.allOnes 64 else 0#64) =
      if p ^^ q then BitVec.allOnes 64 else 0#64 := by
  cases p <;> cases q <;> decide

theorem abs_ne_zero {b : DWord} (hb : b ≠ 0#64) (neg : Bool) : (if neg then -b else b) ≠ 0#64 := by
  cases neg with
  | true => exact fun h => hb (BitVec.neg_eq_zero_iff.mp h)
  | false => exact hb

theorem divdi3_eq (a : DWord) {b : DWord} (hb : b ≠ 0#64) : divdi3 a b = a.sdiv b := by
  unfold divdi3
  dsimp only
  rw [sshiftRight_sign, sshiftRight_sign, xor_sub_sign, xor_sub_sign, xor_sign, xor_sub_sign,
    udivmoddi4_eq _ (abs_ne_zero hb _), BitVec.sdiv_eq]
  cases a.msb <;> cases b.msb <;> rfl

theorem moddi3_eq (a : DWord) {b : DWord} (hb : b ≠ 0#64) : moddi3 a b = a.srem b := by
  unfold moddi3
  dsimp only
  rw [sshiftRight_sign, sshiftRight_sign, xor_sub_sign, xor_sub_sign, xor_sub_sign,
    udivmoddi4_eq _ (abs_ne_zero hb _), BitVec.srem_eq]
  cases a.msb <;> cases b.msb <;> rfl

theorem sub_sdiv_mul (a b : DWord) : a - a.sdiv b * b = a.srem b := by
  refine BitVec.eq_of_toInt_eq ?_
  calc (a - a.sdiv b * b).toInt
      = (a.toInt - a.toInt.tdiv b.toInt * b.toInt).bmod (2 ^ 64) := by
        rw [BitVec.toInt_sub, BitVec.toInt_mul, BitVec.toInt_sdiv, Int.sub_bmod_bmod,
          ← Int.sub_bmod_bmod, Int.bmod_mul_bmod, Int.sub_bmod_bmod]
    _ = (a.srem b).toInt.bmod (2 ^ 64) := by
        rw [BitVec.toInt_srem, Int.tmod_def, Int.mul_comm]
    _ = (a.srem b).toInt := BitVec.toInt_bmod_cancel _

/-- The unsigned functions, for every dividend and every divisor but 0. -/
theorem unsigned_double_divides (a b : DWord) (hb : b ≠ 0#64) :
    udivmoddi4 a b = (a / b, a % b) ∧ udivdi3 a b = a / b ∧ umoddi3 a b = a % b := by
  have h := udivmoddi4_eq a hb
  refine ⟨h, ?_, ?_⟩
  · rw [udivdi3, h]
  · rw [umoddi3, h]

/-- A dividend of more than a word by a divisor whose highest 1 is the highest bit. -/
theorem unsigned_double_divides_top : udivmoddi4 0xFFFFFFFF00000001#64 0x8000000000000001#64 =
    (0xFFFFFFFF00000001#64 / 0x8000000000000001#64, 0xFFFFFFFF00000001#64 % 0x8000000000000001#64) :=
  (unsigned_double_divides _ _ (by decide)).1

/-- The signed functions, for every dividend and every divisor but 0: quotients are rounded to 0 and the
one that does not fit wraps around, and remainders have the sign of the dividend. -/
theorem signed_double_divides (a b : DWord) (hb : b ≠ 0#64) :
    (divdi3 a b).toInt = (a.toInt.tdiv b.toInt).bmod (2 ^ 64) ∧
      (moddi3 a b).toInt = a.toInt.tmod b.toInt ∧ divmoddi4 a b = (divdi3 a b, moddi3 a b) := by
  refine ⟨?_, ?_, ?_⟩
  · rw [divdi3_eq a hb, BitVec.toInt_sdiv]
  · rw [moddi3_eq a hb, BitVec.toInt_srem]
  · rw [divmoddi4, multi3_eq, divdi3_eq a hb, moddi3_eq a hb, sub_sdiv_mul]

/-- The quotient that does not fit. -/
theorem signed_double_divides_overflow :
    (divdi3 (BitVec.intMin 64) (-1#64)).toInt =
      ((BitVec.intMin 64).toInt.tdiv (-1#64 : DWord).toInt).bmod (2 ^ 64) :=
  (signed_double_divides _ _ (by decide)).1

end MyCpu.Runtime
