import MyCpu.Klib.Decimal

/-!
# Numbers out of numerals

`atoi` of `klib/src/stdlib.c`. A digit is added as `x * 10 + *nptr - '0'`, which C adds up from the left:
the sum before the subtraction has to be an `int` as well.

* `leadingNumber` : the number at the front of a text;
* `returns_atoi_iff` : when `atoi` returns, and what;
* `atoi_after_conversion` : what it makes of the numerals of `int_to_str` and `uint_to_str`.
-/

namespace MyCpu.Klib

open Bytes Loop
open Rv32 (Word)

section

variable (signed : Bool) (m : Memory)

/-- A round of the first loop, on the pointer. -/
def atoiSpaceRound (p : Int) : Fueled (Int ⊕ Int) :=
  if m p = chr ' ' then return .inl (p + 1) else return .inr p

/-- A round of the second loop, on `x` and the pointer. -/
def atoiDigitRound : Int × Int → Fueled ((Int × Int) ⊕ Int)
  | (x, p) =>
      let c := charVal signed (m p)
      if (chr '0').toNat ≤ c ∧ c ≤ (chr '9').toNat then do
        let x ← int (x * 10)
        let x ← int (x + c)
        return .inl (← int (x - (chr '0').toNat), p + 1)
      else return .inr x

def atoi (nptr : Ptr) : Fueled Int :=
  match nptr with
  | none => fail
  | some p => do
      let p ← loop (atoiSpaceRound m) p
      loop (atoiDigitRound signed m) (0, p)

end

/-! ## Digits -/

def isSpace (b : Byte) : Bool := b = chr ' '

def isDigit (b : Byte) : Bool := 48 ≤ b.toNat ∧ b.toNat ≤ 57

/-- The number whose digits are at the front of a text, behind the digits of `v`. -/
def numberFrom (v : Nat) (bs : List Byte) : Nat :=
  (bs.takeWhile isDigit).foldl (fun v b => 10 * v + (b.toNat - 48)) v

/-- The number at the front of a text, behind any spaces; 0 if there is no digit. -/
def leadingNumber (bs : List Byte) : Nat := numberFrom 0 (bs.dropWhile isSpace)

theorem charVal_digit_iff (signed : Bool) (b : Byte) :
    (((chr '0').toNat : Int) ≤ charVal signed b ∧ charVal signed b ≤ (chr '9').toNat) ↔
      isDigit b = true := by
  have hb := b.isLt
  have h0 : (chr '0').toNat = 48 := rfl
  have h9 : (chr '9').toNat = 57 := rfl
  rw [h0, h9, isDigit, decide_eq_true_iff]
  cases signed with
  | false =>
      simp only [charVal, Bool.false_eq_true, if_false]
      omega
  | true =>
      simp only [charVal, if_true, BitVec.toInt_eq_toNat_cond]
      split <;> omega

theorem charVal_of_digit (signed : Bool) {b : Byte} (h : isDigit b = true) :
    charVal signed b = b.toNat := by
  rw [isDigit, decide_eq_true_iff] at h
  cases signed with
  | false => rfl
  | true =>
      simp only [charVal, if_true, BitVec.toInt_eq_toNat_cond]
      rw [if_pos (by omega)]

theorem numberFrom_cons_of_digit (v : Nat) {b : Byte} (h : isDigit b = true) (bs : List Byte) :
    numberFrom v (b :: bs) = numberFrom (10 * v + (b.toNat - 48)) bs := by
  rw [numberFrom, List.takeWhile_cons_of_pos h, List.foldl_cons]
  rfl

theorem le_numberFrom (v : Nat) (bs : List Byte) : v ≤ numberFrom v bs := by
  unfold numberFrom
  generalize bs.takeWhile isDigit = ds
  induction ds generalizing v with
  | nil => exact Nat.le_refl v
  | cons d ds ih =>
      have hstep : v ≤ 10 * v + (d.toNat - 48) := by omega
      exact Nat.le_trans hstep (ih _)

/-! ## The two loops -/

section

variable {signed : Bool} {m : Memory}

theorem returns_spaces {p : Int} {bs : List Byte} (h : IsStr m p bs) :
    ∃ q, Returns (loop (atoiSpaceRound m) p) q ∧ IsStr m q (bs.dropWhile isSpace) := by
  induction bs generalizing p with
  | nil =>
      refine ⟨p, Returns.loop_exit ?_, h⟩
      rw [atoiSpaceRound, isStr_nil_iff.mp h, if_neg (by decide)]
      exact returns_pure _
  | cons b bs ih =>
      obtain ⟨hb, -, htail⟩ := isStr_cons_iff.mp h
      by_cases hs : b = chr ' '
      · obtain ⟨q, hq, hstr⟩ := ih htail
        have hround : Returns (atoiSpaceRound m p) (.inl (p + 1)) := by
          rw [atoiSpaceRound, hb, if_pos hs]
          exact returns_pure _
        refine ⟨q, (Returns.loop_iff hround).mpr hq, ?_⟩
        rwa [List.dropWhile_cons_of_pos (p := isSpace) (decide_eq_true hs)]
      · refine ⟨p, Returns.loop_exit ?_, ?_⟩
        · rw [atoiSpaceRound, hb, if_neg hs]
          exact returns_pure _
        · rwa [List.dropWhile_cons_of_neg (p := isSpace) fun hs' => hs (of_decide_eq_true hs')]

/-- A round on a digit. -/
theorem returns_digitRound_iff {p : Int} {v : Nat} (h : isDigit (m p) = true)
    (x : (Int × Int) ⊕ Int) : Returns (atoiDigitRound signed m (v, p)) x ↔
      10 * v + (m p).toNat < 2 ^ 31 ∧ x = .inl (((10 * v + ((m p).toNat - 48) : Nat) : Int), p + 1) := by
  have hd := h
  rw [isDigit, decide_eq_true_iff] at hd
  have h0 : (chr '0').toNat = 48 := rfl
  unfold atoiDigitRound
  dsimp only
  rw [if_pos ((charVal_digit_iff signed (m p)).mpr h), charVal_of_digit signed h, h0]
  by_cases hfits : 10 * v + (m p).toNat < 2 ^ 31
  · have hmul : Returns (int (v * 10)) (v * 10) := returns_int (by omega) (by omega)
    have hadd : Returns (int ((v : Int) * 10 + (m p).toNat)) (v * 10 + (m p).toNat) :=
      returns_int (by omega) (by omega)
    have hsub : Returns (int ((v : Int) * 10 + (m p).toNat - (48 : Nat)))
        ((10 * v + ((m p).toNat - 48) : Nat) : Int) := by
      rw [show (v : Int) * 10 + (m p).toNat - (48 : Nat) =
        ((10 * v + ((m p).toNat - 48) : Nat) : Int) by omega]
      exact returns_int (by omega) (by omega)
    rw [and_iff_right hfits]
    refine Returns.iff_eq ?_
    exact hmul.bind (hadd.bind (hsub.bind (returns_pure _)))
  · refine iff_of_false ?_ fun hx => hfits hx.1
    rw [returns_bind_iff]
    rintro ⟨y, hy, hrest⟩
    by_cases hmul : 10 * v < 2 ^ 31
    · obtain rfl := hy.unique (returns_int (by omega) (by omega))
      rw [int_of_ge (by omega), returns_bind_iff] at hrest
      obtain ⟨z, hz, -⟩ := hrest
      exact not_returns_fail z hz
    · rw [int_of_ge (by omega)] at hy
      exact not_returns_fail y hy

theorem returns_digits_iff {p : Int} {bs : List Byte} (h : IsStr m p bs) {v : Nat}
    (hv : v + 48 < 2 ^ 31) (r : Int) : Returns (loop (atoiDigitRound signed m) (v, p)) r ↔
      numberFrom v bs + 48 < 2 ^ 31 ∧ r = numberFrom v bs := by
  have hexit : ∀ {v : Nat} {q : Int}, isDigit (m q) = false →
      Returns (loop (atoiDigitRound signed m) (v, q)) v := by
    intro v q hq
    refine Returns.loop_exit ?_
    unfold atoiDigitRound
    dsimp only
    rw [if_neg fun hc => Bool.false_ne_true (hq.symm.trans ((charVal_digit_iff signed _).mp hc))]
    exact returns_pure _
  induction bs generalizing p v with
  | nil =>
      rw [(hexit (by rw [isStr_nil_iff.mp h]; rfl)).iff_eq]
      exact (and_iff_right hv).symm
  | cons b bs ih =>
      obtain ⟨hb, -, htail⟩ := isStr_cons_iff.mp h
      by_cases hdigit : isDigit b = true
      · have hd := hdigit
        rw [isDigit, decide_eq_true_iff] at hd
        rw [numberFrom_cons_of_digit v hdigit]
        by_cases hfits : 10 * v + b.toNat < 2 ^ 31
        · have hround : Returns (atoiDigitRound signed m (v, p))
              (.inl (((10 * v + (b.toNat - 48) : Nat) : Int), p + 1)) := by
            rw [returns_digitRound_iff (by rw [hb]; exact hdigit), hb]
            exact ⟨hfits, rfl⟩
          rw [hround.loop_iff]
          exact ih htail (by omega)
        · have hle := le_numberFrom (10 * v + (b.toNat - 48)) bs
          refine iff_of_false ?_ fun hx => ?_
          · rw [returns_loop_iff]
            rintro ⟨x, hx, -⟩
            rw [returns_digitRound_iff (by rw [hb]; exact hdigit), hb] at hx
            exact hfits hx.1
          · omega
      · have hnot : isDigit b = false := eq_false_of_ne_true hdigit
        rw [(hexit (by rw [hb]; exact hnot)).iff_eq, numberFrom,
          List.takeWhile_cons_of_neg hdigit]
        exact (and_iff_right hv).symm

/-- `atoi` returns the number at the front of a string if that leaves room for a character code in an
`int`, and has no meaning otherwise. -/
theorem returns_atoi_iff {p : Int} {bs : List Byte} (h : IsStr m p bs) (r : Int) :
    Returns (atoi signed m (some p)) r ↔ leadingNumber bs + 48 < 2 ^ 31 ∧ r = leadingNumber bs := by
  obtain ⟨q, hq, hstr⟩ := returns_spaces h
  unfold atoi
  dsimp only
  rw [returns_bind_iff]
  have hdigits := @returns_digits_iff signed m q _ hstr 0 (by decide) r
  refine Iff.trans ?_ hdigits
  constructor
  · rintro ⟨q', hq', hr⟩
    rwa [hq'.unique hq] at hr
  · exact fun hr => ⟨q, hq, hr⟩

end

/-! ## Numerals -/

theorem isDigit_digitChar {d : Nat} (hd : d < 10) : isDigit (digitChar d) = true := by
  rw [isDigit, decide_eq_true_iff, toNat_digitChar hd]
  omega

theorem numberFrom_map_digitChar (v : Nat) {ds : List Nat} (hds : ∀ x ∈ ds, x < 10) :
    numberFrom v (ds.map digitChar) = ds.foldl (fun v d => 10 * v + d) v := by
  induction ds generalizing v with
  | nil => rfl
  | cons d ds ih =>
      have hd := hds d List.mem_cons_self
      rw [List.map_cons, numberFrom_cons_of_digit v (isDigit_digitChar hd), toNat_digitChar hd,
        Nat.add_sub_cancel, ih _ fun x hx => hds x (List.mem_cons_of_mem d hx), List.foldl_cons]

/-- The sign of a negative number is no digit. -/
theorem leadingNumber_numeral (n : Int) : leadingNumber (numeral n) = if n < 0 then 0 else n.natAbs := by
  obtain ⟨d, ds, hlt, -, hval, htext⟩ := canonical_numeral n
  rw [htext]
  by_cases hneg : n < 0
  · rw [if_pos hneg, if_pos hneg]
    rfl
  · have hspace : isSpace (digitChar d) = false :=
      decide_eq_false (digitChar_ne (hlt d List.mem_cons_self) (by decide))
    rw [if_neg hneg, if_neg hneg, List.nil_append, leadingNumber, List.map_cons,
      List.dropWhile_cons_of_neg (by rw [hspace]; exact Bool.false_ne_true), ← List.map_cons,
      numberFrom_map_digitChar 0 hlt]
    exact hval

/-- Behind `int_to_str`, `atoi` gives the number back exactly when it is not negative and leaves room for a
character code; of a negative number it makes 0. Behind `uint_to_str` it is the same, but for the
numbers that are no `int`. -/
theorem atoi_after_conversion (signed : Bool) (m : Memory) (s : Int) (num : Word) :
    (∃ m', Returns (intToStr m (some s) num) m' ∧ ∀ r, Returns (atoi signed m' (some s)) r ↔
      if num.toInt < 0 then r = 0 else num.toInt + 48 < 2 ^ 31 ∧ r = num.toInt) ∧
    (∃ m', Returns (uintToStr m (some s) num) m' ∧ ∀ r, Returns (atoi signed m' (some s)) r ↔
      num.toNat + 48 < 2 ^ 31 ∧ r = num.toNat) := by
  refine ⟨⟨_, returns_intToStr m s num, fun r => ?_⟩, ⟨_, returns_uintToStr m s num, fun r => ?_⟩⟩
  · rw [returns_atoi_iff (isStr_place m s (numeral_ne_zero _)), leadingNumber_numeral]
    by_cases hneg : num.toInt < 0
    · rw [if_pos hneg, if_pos hneg]
      exact and_iff_right (by decide)
    · rw [if_neg hneg, if_neg hneg]
      omega
  · rw [returns_atoi_iff (isStr_place m s (numeral_ne_zero _)), leadingNumber_numeral,
      if_neg (Int.not_lt.mpr (Int.natCast_nonneg _)), Int.natAbs_natCast]

end MyCpu.Klib
