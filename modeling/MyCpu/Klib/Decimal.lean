import Mathlib.Data.Nat.Digits.Lemmas
import MyCpu.Klib.String
import MyCpu.Rv32.Memory

/-!
# Decimal numerals

The conversions of `klib/src/stdio.c`. Digits are written from the last to the first and then turned
round in place; the least `int`, whose negation is not an `int`, is spelled out.

* `swapStr`, `intToStr`, `uintToStr` : the functions;
* `numeral`, `Canonical` : the numeral of an integer, and what makes a text its canonical numeral;
* `returns_swapStr`, `returns_digits` : the two loops;
* `returns_intToStr`, `returns_uintToStr` : the numeral and its end, and nothing else, are written;
* `decimal_conversions_exact` : for every 32-bit value, and one text for one value.
-/

namespace MyCpu.Klib

open Bytes Loop
open Rv32 (Word)

def chr (c : Char) : Byte := BitVec.ofNat 8 c.toNat

/-! ## The functions -/

/-- A round of `swap_str`, on the string and the indices `l` and `r`. -/
def swapStrRound (str : Int) : Memory × Int × Int → Fueled ((Memory × Int × Int) ⊕ Memory)
  | (m, l, r) =>
      if l ≤ r then do
        let tmp := m (str + l)
        let m := Function.update m (str + l) (m (str + r))
        let m := Function.update m (str + r) tmp
        return .inl (m, ← int (l + 1), ← int (r - 1))
      else return .inr m

def swapStr (m : Memory) (str : Ptr) (l r : Int) : Fueled Memory :=
  match str with
  | none => fail
  | some str => loop (swapStrRound str) (m, l, r)

/-- `INT32_MIN`. -/
def intMin : Int := -2 ^ 31

/-- A round of the digit loop of `int_to_str`, on the string, the index `i` and what is left of the
number. -/
def intDigitRound (str : Int) : Memory × Int × Int → Fueled ((Memory × Int × Int) ⊕ Memory × Int)
  | (m, i, num) =>
      if num ≠ 0 then do
        let c ← int (num.tmod 10 + (chr '0').toNat)
        return .inl (Function.update m (str + i) (BitVec.ofInt 8 c), ← int (i + 1), num.tdiv 10)
      else return .inr (m, i)

/-- The four cases are the four of the source; the assignments `str[i++] = c` of the first are one
`place`. -/
def intToStr (m : Memory) (str : Ptr) (num : Word) : Fueled Memory :=
  match str with
  | none => fail
  | some s =>
      if num.toInt = intMin then return place m s ("-2147483648".toList.map chr ++ [0])
      else do
        let (m, i, num, l) ← (
          if num.toInt = 0 then return (Function.update m s (chr '0'), 1, num.toInt, 0)
          else if num.toInt < 0 then do
            return (Function.update m s (chr '-'), 1, ← int (-num.toInt), 1)
          else return (m, 0, num.toInt, 0) : Fueled (Memory × Int × Int × Int))
        let (m, i) ← loop (intDigitRound s) (m, i, num)
        let m := Function.update m (s + i) 0
        swapStr m str l (← int (i - 1))

/-- The same for `uint_to_str`, whose numbers are not negative. -/
def uintDigitRound (str : Int) : Memory × Int × Int → Fueled ((Memory × Int × Int) ⊕ Memory × Int)
  | (m, i, num) =>
      if num > 0 then do
        let c := num % 10 + (chr '0').toNat
        return .inl (Function.update m (str + i) (BitVec.ofInt 8 c), ← int (i + 1), num / 10)
      else return .inr (m, i)

/-- There is no assertion here but that of `swap_str`. -/
def uintToStr (m : Memory) (str : Ptr) (num : Word) : Fueled Memory :=
  match str with
  | none => fail
  | some s =>
      if num = 0 then return Function.update (Function.update m s (chr '0')) (s + 1) 0
      else do
        let (m, i) ← loop (uintDigitRound s) (m, 0, (num.toNat : Int))
        let m := Function.update m (s + i) 0
        swapStr m str 0 (← int (i - 1))

/-! ## Numerals -/

def digitChar (d : Nat) : Byte := BitVec.ofNat 8 (d + 48)

/-- The numeral of a natural number. -/
def natNumeral (n : Nat) : List Byte :=
  if n = 0 then [digitChar 0] else ((Nat.digits 10 n).map digitChar).reverse

/-- The numeral of an integer. -/
def numeral (n : Int) : List Byte := if n < 0 then chr '-' :: natNumeral n.natAbs else natNumeral n.natAbs

/-- The number that digits stand for, the first being the highest. -/
def digitsValue (ds : List Nat) : Nat := ds.foldl (fun v d => 10 * v + d) 0

/-- `s` is a minus sign exactly when `n` is negative, and then digits without a leading zero that
stand for the absolute value of `n`. -/
def Canonical (n : Int) (s : List Byte) : Prop :=
  ∃ d ds, (∀ x ∈ d :: ds, x < 10) ∧ (d = 0 → ds = []) ∧ digitsValue (d :: ds) = n.natAbs ∧
    s = (if n < 0 then [chr '-'] else []) ++ (d :: ds).map digitChar

/-! ## The two loops -/

theorem returns_swapStr (m : Memory) (s : Int) {l r : Int} (hl : 0 ≤ l) (hr : r < 2 ^ 31 - 1) :
    Returns (swapStr m (some s) l r) (reversed m (s + l) (s + r)) := by
  change Returns (loop (swapStrRound s) (m, l, r)) _
  obtain ⟨n, hn⟩ : ∃ n : Nat, r + 1 - l ≤ n := ⟨(r + 1 - l).toNat, by omega⟩
  induction n generalizing m l r with
  | zero =>
      refine Returns.loop_exit ?_
      rw [reversed_of_lt (by omega), swapStrRound, if_neg (by omega)]
      exact returns_pure _
  | succ n ih =>
      by_cases hlr : l ≤ r
      · have hround : Returns (swapStrRound s (m, l, r)) (.inl
            (Function.update (Function.update m (s + l) (m (s + r))) (s + r) (m (s + l)), l + 1, r - 1)) := by
          rw [swapStrRound, if_pos hlr]
          exact (returns_int (by omega) (by omega)).bind
            ((returns_int (by omega) (by omega)).bind (returns_pure _))
        have hrest := ih (Function.update (Function.update m (s + l) (m (s + r))) (s + r) (m (s + l)))
          (l := l + 1) (r := r - 1) (by omega) (by omega) (by omega)
        rw [← Int.add_assoc, ← Int.add_sub_assoc, reversed_exchange m (by omega)] at hrest
        exact hround.loop_iff.mpr hrest
      · refine Returns.loop_exit ?_
        rw [reversed_of_lt (by omega), swapStrRound, if_neg hlr]
        exact returns_pure _

/-- What a round of either digit loop does, with the number `k`. -/
structure DigitRound (s : Int) (round : Memory × Int × Int → Fueled ((Memory × Int × Int) ⊕ Memory × Int)) :
    Prop where
  digit : ∀ (m : Memory) (i k : Nat), k ≠ 0 → i + 1 < 2 ^ 31 → Returns (round (m, (i : Int), (k : Int)))
    (.inl (Function.update m (s + i) (digitChar (k % 10)), ((i + 1 : Nat) : Int), ((k / 10 : Nat) : Int)))
  done : ∀ (m : Memory) (i : Int), Returns (round (m, i, 0)) (.inr (m, i))

theorem digitRound_int (s : Int) : DigitRound s (intDigitRound s) where
  digit m i k hk hi := by
    have hc : (k : Int).tmod 10 + (chr '0').toNat = ((k % 10 + 48 : Nat) : Int) := rfl
    have hlt : k % 10 < 10 := Nat.mod_lt k (by decide)
    rw [intDigitRound, if_pos (Int.natCast_ne_zero.mpr hk), hc]
    refine (returns_int (by omega) (by omega)).bind ((returns_int (by omega) (by omega)).bind ?_)
    rw [BitVec.ofInt_natCast]
    exact returns_pure _
  done m i := by
    rw [intDigitRound, if_neg (not_not.mpr rfl)]
    exact returns_pure _

theorem digitRound_uint (s : Int) : DigitRound s (uintDigitRound s) where
  digit m i k hk hi := by
    have hc : (k : Int) % 10 + (chr '0').toNat = ((k % 10 + 48 : Nat) : Int) := rfl
    rw [uintDigitRound, if_pos (by omega), hc]
    refine (returns_int (by omega) (by omega)).bind ?_
    rw [BitVec.ofInt_natCast]
    exact returns_pure _
  done m i := by
    rw [uintDigitRound, if_neg (Int.lt_irrefl 0)]
    exact returns_pure _

/-- The digits of `k` are written from the last to the first. -/
theorem returns_digits {s : Int} {round : Memory × Int × Int → Fueled ((Memory × Int × Int) ⊕ Memory × Int)}
    (H : DigitRound s round) (m : Memory) (i k : Nat) (hi : i + (Nat.digits 10 k).length < 2 ^ 31) :
    Returns (loop round (m, (i : Int), (k : Int)))
      (place m (s + i) ((Nat.digits 10 k).map digitChar), ((i + (Nat.digits 10 k).length : Nat) : Int)) := by
  induction k using Nat.strong_induction_on generalizing m i with
  | _ k ih =>
      rcases Nat.eq_zero_or_pos k with rfl | hk
      · rw [Nat.digits_zero]
        exact (H.done m i).loop_exit
      · have hdigits := Nat.digits_def' (by decide : 1 < 10) hk
        rw [hdigits, List.length_cons] at hi ⊢
        have hround := H.digit m i k (Nat.ne_of_gt hk) (by omega)
        have hrest := ih (k / 10) (Nat.div_lt_self hk (by decide))
          (Function.update m (s + i) (digitChar (k % 10))) (i + 1) (by omega)
        rw [hround.loop_iff, List.map_cons, place, ← Nat.add_assoc, Nat.add_right_comm, Int.add_assoc]
        exact hrest

/-- The end of both functions: the digits of `k` after `as ++ bs`, the final `NUL`, and everything
after `as` turned round. -/
theorem returns_digits_swapped {s : Int}
    {round : Memory × Int × Int → Fueled ((Memory × Int × Int) ⊕ Memory × Int)} (H : DigitRound s round)
    (m : Memory) (as bs : List Byte) (k : Nat)
    (hlen : as.length + bs.length + (Nat.digits 10 k).length < 2 ^ 31) :
    Returns (do
        let (m, i) ← loop round (place m s (as ++ bs), ((as ++ bs).length : Int), (k : Int))
        let m := Function.update m (s + i) 0
        swapStr m (some s) as.length (← int (i - 1)))
      (place m s (as ++ (bs ++ (Nat.digits 10 k).map digitChar).reverse ++ [0])) := by
  have hloop := returns_digits H (place m s (as ++ bs)) (as ++ bs).length k
    (by rwa [List.length_append])
  rw [← place_append, List.append_assoc] at hloop
  generalize hmid : bs ++ (Nat.digits 10 k).map digitChar = mid at hloop ⊢
  have hi : (as ++ bs).length + (Nat.digits 10 k).length = (as ++ mid).length := by
    rw [← hmid, ← List.append_assoc, List.length_append, List.length_append, List.length_append,
      List.length_map]
  rw [← List.length_append, hi] at hlen
  rw [hi] at hloop
  refine hloop.bind ((returns_int (by omega) (by omega)).bind ?_)
  have hr : s + (((as ++ mid).length : Int) - 1) = s + as.length + mid.length - 1 := by
    rw [List.length_append]
    omega
  have hswap := returns_swapStr (place m s (as ++ mid ++ [0])) s (l := as.length)
    (r := (as ++ mid).length - 1) (by omega) (by omega)
  rwa [hr, reversed_place, place_concat] at hswap

/-! ## The conversions -/

theorem length_digits_le {k : Nat} (hk : k < 2 ^ 32) : (Nat.digits 10 k).length ≤ 10 :=
  (Nat.digits_length_le_iff (by decide) k).mpr (Nat.lt_trans hk (by decide))

theorem natNumeral_of_pos {k : Nat} (hk : k ≠ 0) :
    natNumeral k = ((Nat.digits 10 k).map digitChar).reverse := if_neg hk

theorem numeral_of_nonneg {n : Int} (hn : 0 ≤ n) : numeral n = natNumeral n.natAbs :=
  if_neg (Int.not_lt.mpr hn)

theorem numeral_of_neg {n : Int} (hn : n < 0) : numeral n = chr '-' :: natNumeral n.natAbs := if_pos hn

theorem numeral_intMin : numeral intMin = "-2147483648".toList.map chr := by
  have hdigits : Nat.digits 10 2147483648 = [8, 4, 6, 3, 8, 4, 7, 4, 1, 2] := by simp
  have habs : natNumeral 2147483648 = "2147483648".toList.map chr := by
    rw [natNumeral_of_pos (by decide), hdigits]
    decide
  rw [numeral_of_neg (by decide), show intMin.natAbs = 2147483648 from rfl, habs]
  decide

/-- `int_to_str` writes the numeral, its end and nothing else. -/
theorem returns_intToStr (m : Memory) (s : Int) (num : Word) :
    Returns (intToStr m (some s) num) (place m s (numeral num.toInt ++ [0])) := by
  have hlo : -2 ^ 31 ≤ num.toInt := BitVec.le_toInt num
  have hhi : num.toInt < 2 ^ 31 := BitVec.toInt_lt
  have hlen : (Nat.digits 10 num.toInt.natAbs).length ≤ 10 := length_digits_le (by omega)
  unfold intToStr
  dsimp only
  split_ifs with hmin hzero hneg
  · rw [hmin, numeral_intMin]
    exact returns_pure _
  · rw [hzero]
    exact (returns_pure _).bind
      (returns_digits_swapped (digitRound_int s) m [] [chr '0'] 0 (by decide))
  · have hne : num.toInt.natAbs ≠ 0 := by omega
    have habs : -num.toInt = (num.toInt.natAbs : Int) := by omega
    unfold intMin at hmin
    have hneg' : Returns (int (num.toInt.natAbs : Int)) num.toInt.natAbs :=
      returns_int (by omega) (by omega)
    rw [numeral_of_neg hneg, natNumeral_of_pos hne, habs]
    refine Returns.bind (a := (Function.update m s (chr '-'), 1, (num.toInt.natAbs : Int), 1))
      (hneg'.bind (returns_pure _)) ?_
    exact returns_digits_swapped (digitRound_int s) m [chr '-'] [] num.toInt.natAbs
      (Nat.lt_of_le_of_lt (Nat.add_le_add_left hlen _) (by decide))
  · obtain ⟨k, hk⟩ := Int.eq_ofNat_of_zero_le (Int.not_lt.mp hneg)
    have hne : k ≠ 0 := fun h => hzero (hk.trans (congrArg Int.ofNat h))
    rw [hk, Int.natAbs_natCast] at hlen
    rw [hk, numeral_of_nonneg (Int.natCast_nonneg k), Int.natAbs_natCast, natNumeral_of_pos hne]
    exact (returns_pure _).bind (returns_digits_swapped (digitRound_int s) m [] [] k
      (Nat.lt_of_le_of_lt (Nat.add_le_add_left hlen _) (by decide)))

/-- `uint_to_str` writes the numeral, its end and nothing else. -/
theorem returns_uintToStr (m : Memory) (s : Int) (num : Word) :
    Returns (uintToStr m (some s) num) (place m s (numeral num.toNat ++ [0])) := by
  have hlen : (Nat.digits 10 num.toNat).length ≤ 10 := length_digits_le num.isLt
  unfold uintToStr
  dsimp only
  rw [numeral_of_nonneg (Int.natCast_nonneg _), Int.natAbs_natCast]
  split_ifs with hzero
  · rw [hzero]
    exact returns_pure _
  · have hne : num.toNat ≠ 0 := fun h => hzero (BitVec.eq_of_toNat_eq h)
    rw [natNumeral_of_pos hne]
    exact returns_digits_swapped (digitRound_uint s) m [] [] num.toNat
      (Nat.lt_of_le_of_lt (Nat.add_le_add_left hlen _) (by decide))

/-! ## Canonical numerals -/

theorem toNat_digitChar {d : Nat} (hd : d < 10) : (digitChar d).toNat = d + 48 := by
  rw [digitChar, BitVec.toNat_ofNat]
  exact Nat.mod_eq_of_lt (by omega)

theorem digitChar_ne {d : Nat} (hd : d < 10) {b : Byte} (hb : b.toNat < 48) : digitChar d ≠ b := by
  rintro rfl
  rw [toNat_digitChar hd] at hb
  omega

theorem digitsValue_reverse (ds : List Nat) : digitsValue ds.reverse = Nat.ofDigits 10 ds := by
  rw [digitsValue, List.foldl_reverse, Nat.ofDigits_eq_foldr]
  simp only [Nat.cast_id, Nat.add_comm]

/-- A natural number has digits without a leading zero. -/
theorem natNumeral_eq_map (k : Nat) : ∃ d ds, (∀ x ∈ d :: ds, x < 10) ∧ (d = 0 → ds = []) ∧
    digitsValue (d :: ds) = k ∧ natNumeral k = (d :: ds).map digitChar := by
  rcases Nat.eq_zero_or_pos k with rfl | hk
  · exact ⟨0, [], by decide, fun _ => rfl, rfl, rfl⟩
  · have hne : k ≠ 0 := Nat.ne_of_gt hk
    have hlast := Nat.getLast_digit_ne_zero 10 hne
    obtain ⟨d, ds, hds⟩ := List.exists_cons_of_ne_nil (List.reverse_ne_nil_iff.mpr
      (Nat.digits_ne_nil_iff_ne_zero.mpr hne : Nat.digits 10 k ≠ []))
    refine ⟨d, ds, fun x hx => ?_, fun h0 => ?_, ?_, ?_⟩
    · rw [← hds, List.mem_reverse] at hx
      exact Nat.digits_lt_base (by decide) hx
    · have hd : (Nat.digits 10 k).getLast? = some d := by
        rw [← List.head?_reverse, hds, List.head?_cons]
      rw [List.getLast?_eq_some_getLast (Nat.digits_ne_nil_iff_ne_zero.mpr hne), Option.some.injEq] at hd
      exact absurd (hd.trans h0) hlast
    · rw [← hds, digitsValue_reverse, Nat.ofDigits_digits]
    · rw [natNumeral_of_pos hne, ← hds, List.map_reverse]

theorem canonical_numeral (n : Int) : Canonical n (numeral n) := by
  obtain ⟨d, ds, hlt, hlead, hval, htext⟩ := natNumeral_eq_map n.natAbs
  refine ⟨d, ds, hlt, hlead, hval, ?_⟩
  rw [numeral, htext]
  split_ifs <;> rfl

theorem map_digitChar_inj {as bs : List Nat} (ha : ∀ x ∈ as, x < 10) (hb : ∀ x ∈ bs, x < 10)
    (h : as.map digitChar = bs.map digitChar) : as = bs := by
  have hback : ∀ {l : List Nat}, (∀ x ∈ l, x < 10) → (l.map digitChar).map (fun c => c.toNat - 48) = l := by
    intro l hl
    rw [List.map_map]
    refine (List.map_congr_left fun x hx => ?_).trans (List.map_id l)
    rw [Function.comp_apply, toNat_digitChar (hl x hx), Nat.add_sub_cancel, id]
  rw [← hback ha, h, hback hb]

/-- A text is the canonical numeral of one integer. -/
theorem Canonical.unique {a b : Int} {s : List Byte} (ha : Canonical a s) (hb : Canonical b s) : a = b := by
  obtain ⟨d, ds, hd, -, hdv, rfl⟩ := ha
  obtain ⟨e, es, he, -, hev, heq⟩ := hb
  have hminus : ∀ {x : Nat}, x < 10 → digitChar x ≠ chr '-' := fun hx => digitChar_ne hx (by decide)
  split_ifs at heq with hneg hneg' hneg'
  · have habs := map_digitChar_inj hd he (List.cons.inj heq).2
    rw [habs, hev] at hdv
    omega
  · exact absurd (List.cons.inj heq).1.symm (hminus (he e List.mem_cons_self))
  · exact absurd (List.cons.inj heq).1 (hminus (hd d List.mem_cons_self))
  · have habs := map_digitChar_inj hd he heq
    rw [habs, hev] at hdv
    omega

theorem numeral_ne_zero (n : Int) : ∀ b ∈ numeral n, b ≠ 0 := by
  obtain ⟨d, ds, hd, -, -, htext⟩ := canonical_numeral n
  rw [htext]
  intro b hb
  rcases List.mem_append.mp hb with hb | hb
  · split_ifs at hb
    · rw [List.mem_singleton.mp hb]
      decide
    · exact absurd hb List.not_mem_nil
  · obtain ⟨x, hx, rfl⟩ := List.mem_map.mp hb
    exact digitChar_ne (hd x hx) (by decide)

/-- `m'` is `m` with the string `s` at `str`. -/
structure WritesStr (m m' : Memory) (str : Int) (s : List Byte) : Prop where
  isStr : IsStr m' str s
  kept : ∀ x, x < str ∨ str + s.length < x → m' x = m x

theorem writesStr_place (m : Memory) (str : Int) {s : List Byte} (hs : ∀ b ∈ s, b ≠ 0) :
    WritesStr m (place m str (s ++ [0])) str s where
  isStr := isStr_place m str hs
  kept x hx := place_of_outside (by rw [List.length_append, List.length_singleton]; omega) m

/-- Both conversions return, for every value, with its canonical numeral written; an `int` overflow
would not return. No two values have the same text. -/
theorem decimal_conversions_exact (m : Memory) (str : Int) :
    (∀ num : Word, ∃ m' s, Returns (intToStr m (some str) num) m' ∧ WritesStr m m' str s ∧
      Canonical num.toInt s) ∧
    (∀ num : Word, ∃ m' s, Returns (uintToStr m (some str) num) m' ∧ WritesStr m m' str s ∧
      Canonical num.toNat s) ∧
    (∀ (num num' : Word) (m₁ m₂ : Memory) (s : List Byte),
      Returns (intToStr m (some str) num) m₁ → Returns (intToStr m (some str) num') m₂ →
        IsStr m₁ str s → IsStr m₂ str s → num = num') ∧
    (∀ (num num' : Word) (m₁ m₂ : Memory) (s : List Byte),
      Returns (uintToStr m (some str) num) m₁ → Returns (uintToStr m (some str) num') m₂ →
        IsStr m₁ str s → IsStr m₂ str s → num = num') := by
  have htext : ∀ n : Int, ∀ s, IsStr (place m str (numeral n ++ [0])) str s → Canonical n s := by
    intro n s hs
    rw [hs.unique (isStr_place m str (numeral_ne_zero n))]
    exact canonical_numeral n
  refine ⟨fun num => ⟨_, _, returns_intToStr m str num, writesStr_place m str (numeral_ne_zero _),
    canonical_numeral _⟩, fun num => ⟨_, _, returns_uintToStr m str num,
    writesStr_place m str (numeral_ne_zero _), canonical_numeral _⟩, ?_, ?_⟩
  · rintro num num' m₁ m₂ s h₁ h₂ hs₁ hs₂
    rw [h₁.unique (returns_intToStr m str num)] at hs₁
    rw [h₂.unique (returns_intToStr m str num')] at hs₂
    exact BitVec.eq_of_toInt_eq ((htext _ s hs₁).unique (htext _ s hs₂))
  · rintro num num' m₁ m₂ s h₁ h₂ hs₁ hs₂
    rw [h₁.unique (returns_uintToStr m str num)] at hs₁
    rw [h₂.unique (returns_uintToStr m str num')] at hs₂
    exact BitVec.eq_of_toNat_eq (Int.ofNat_inj.mp ((htext _ s hs₁).unique (htext _ s hs₂)))

end MyCpu.Klib
