import Mathlib.Algebra.Group.Int.Defs
import Mathlib.Algebra.Group.Nat.Defs
import Mathlib.Tactic.SplitIfs
import Mathlib.Tactic.Tauto

/-!
# Flags and signed order

A sum or a difference of `w`-bit words is the exact one wrapped to `w` bits. Its sign and the fact
that it has wrapped give the sign of the exact one, and that decides every signed relation.

* `Fits` : the integers that are values of `w`-bit words;
* `sign_xor_wrapped` : the sign of an integer, from the wrapped one and whether it has wrapped;
* `add_sign`, `sub_sign` : the same for sums and differences of words;
* `Rel`, `Rel.ofFlags_iff` : the six relations, read off the flags `equal` and `less`.
-/

namespace MyCpu.Words

variable {w : Nat}

/-- The integer is the value of a `w`-bit word. -/
def Fits (w : Nat) (x : Int) : Prop := -2 ^ (w - 1) ≤ x ∧ x < 2 ^ (w - 1)

instance (w : Nat) (x : Int) : Decidable (Fits w x) := by unfold Fits; infer_instance

theorem fits_toInt (x : BitVec w) : Fits w x.toInt := ⟨x.le_toInt, x.toInt_lt⟩

/-! ## Wrapping -/

theorem two_pow_half (hw : 0 < w) : ((2 ^ w : Nat) : Int) = 2 * 2 ^ (w - 1) := by
  have h : 2 ^ w = 2 * 2 ^ (w - 1) := by rw [← Nat.pow_succ', Nat.succ_eq_add_one, Nat.sub_add_cancel hw]
  rw [h, Int.natCast_mul, Int.natCast_pow]
  rfl

theorem bmod_eq_self_iff (hw : 0 < w) (x : Int) : x.bmod (2 ^ w) = x ↔ Fits w x := by
  have h2 := two_pow_half hw
  rw [Int.bmod_eq_iff (Nat.two_pow_pos w)]
  unfold Fits
  constructor
  · rintro ⟨h1, h3, -⟩
    omega
  · rintro ⟨h1, h3⟩
    exact ⟨by omega, by omega, Int.sub_self x ▸ Int.dvd_zero _⟩

/-- An integer of `w + 1` bits is negative just when its wrapped value is, or has been wrapped, but
not both. -/
theorem sign_xor_wrapped (hw : 0 < w) {x : Int} (hlo : -(2 * 2 ^ (w - 1)) ≤ x) (hhi : x < 2 * 2 ^ (w - 1)) :
    (decide (x.bmod (2 ^ w) < 0) ^^ decide (x.bmod (2 ^ w) ≠ x)) = decide (x < 0) := by
  have h2 := two_pow_half hw
  have hself := bmod_eq_self_iff hw x
  have hneg := Int.bmod_neg_iff (m := 2 ^ w) (x := x) (by omega) (by omega)
  unfold Fits at hself
  by_cases hfit : x.bmod (2 ^ w) = x
  · rw [hfit, decide_eq_false (not_not.mpr rfl), Bool.xor_false]
  · rw [decide_eq_true hfit, Bool.xor_true, ← decide_not]
    apply decide_eq_decide.mpr
    omega

/-! ## Sums and differences -/

theorem toInt_of_width_zero (x : BitVec 0) : x.toInt = 0 := by
  rw [BitVec.eq_nil x]
  rfl

theorem toInt_add_eq_iff (b a : BitVec w) :
    (b + a).toInt = b.toInt + a.toInt ↔ Fits w (b.toInt + a.toInt) := by
  constructor
  · intro h
    exact h ▸ fits_toInt (b + a)
  · intro h
    cases w with
    | zero => rw [toInt_of_width_zero, toInt_of_width_zero, toInt_of_width_zero, Int.add_zero]
    | succ n => rw [BitVec.toInt_add, (bmod_eq_self_iff (Nat.succ_pos n) _).mpr h]

theorem toInt_sub_eq_iff (b a : BitVec w) :
    (b - a).toInt = b.toInt - a.toInt ↔ Fits w (b.toInt - a.toInt) := by
  constructor
  · intro h
    exact h ▸ fits_toInt (b - a)
  · intro h
    cases w with
    | zero => rw [toInt_of_width_zero, toInt_of_width_zero, toInt_of_width_zero, Int.sub_zero]
    | succ n => rw [BitVec.toInt_sub, (bmod_eq_self_iff (Nat.succ_pos n) _).mpr h]

theorem add_sign (b a : BitVec w) :
    (decide ((b + a).toInt < 0) ^^ decide ((b + a).toInt ≠ b.toInt + a.toInt)) =
      decide (b.toInt + a.toInt < 0) := by
  obtain ⟨hb, hb'⟩ := fits_toInt b
  obtain ⟨ha, ha'⟩ := fits_toInt a
  cases w with
  | zero =>
      rw [toInt_of_width_zero, toInt_of_width_zero b, toInt_of_width_zero a]
      rfl
  | succ n =>
      rw [BitVec.toInt_add]
      exact sign_xor_wrapped (w := n + 1) (Nat.succ_pos n) (by omega) (by omega)

theorem sub_sign (b a : BitVec w) :
    (decide ((b - a).toInt < 0) ^^ decide ((b - a).toInt ≠ b.toInt - a.toInt)) =
      decide (b.toInt < a.toInt) := by
  have hsign : (decide ((b - a).toInt < 0) ^^ decide ((b - a).toInt ≠ b.toInt - a.toInt)) =
      decide (b.toInt - a.toInt < 0) := by
    obtain ⟨hb, hb'⟩ := fits_toInt b
    obtain ⟨ha, ha'⟩ := fits_toInt a
    cases w with
    | zero =>
        rw [toInt_of_width_zero, toInt_of_width_zero b, toInt_of_width_zero a]
        rfl
    | succ n =>
        rw [BitVec.toInt_sub]
        exact sign_xor_wrapped (w := n + 1) (Nat.succ_pos n) (by omega) (by omega)
  rw [hsign]
  exact decide_eq_decide.mpr ⟨Int.lt_of_sub_neg, Int.sub_neg_of_lt⟩

theorem sub_eq_zero_iff (b a : BitVec w) : b - a = 0#w ↔ b.toInt = a.toInt := by
  rw [BitVec.sub_eq_iff_eq_add, BitVec.zero_add, BitVec.toInt_inj]

/-! ## Relations -/

/-- The six relations of conditional instructions. -/
inductive Rel
  | le | l | e | ne | ge | g
  deriving DecidableEq

/-- `x` stands in the relation to `y`. -/
def Rel.Holds (r : Rel) (x y : Int) : Prop :=
  match r with
  | .le => x ≤ y
  | .l => x < y
  | .e => x = y
  | .ne => x ≠ y
  | .ge => y ≤ x
  | .g => y < x

instance (r : Rel) (x y : Int) : Decidable (r.Holds x y) := by
  cases r <;> unfold Rel.Holds <;> infer_instance

/-- The relation, from whether the two are equal and whether the first is less. -/
def Rel.ofFlags (r : Rel) (equal less : Bool) : Bool :=
  match r with
  | .le => less || equal
  | .l => less
  | .e => equal
  | .ne => !equal
  | .ge => !less
  | .g => !less && !equal

theorem Rel.ofFlags_iff (r : Rel) (x y : Int) :
    r.ofFlags (decide (x = y)) (decide (x < y)) = true ↔ r.Holds x y := by
  cases r <;>
    simp only [Rel.ofFlags, Rel.Holds, Bool.or_eq_true, Bool.and_eq_true, Bool.not_eq_true',
      decide_eq_true_iff, decide_eq_false_iff_not] <;>
    omega

/-- Where a wrong `less` does no harm. -/
theorem Rel.ofFlags_xor_iff (r : Rel) (equal less wrong : Bool) :
    r.ofFlags equal less = r.ofFlags equal (less ^^ wrong) ↔
      wrong = false ∨ r = .e ∨ r = .ne ∨ (equal = true ∧ (r = .le ∨ r = .g)) := by
  cases r <;> cases equal <;> cases less <;> cases wrong <;> decide

end MyCpu.Words
