import MyCpu.Klib.Format

/-!
# The words a `%u` takes

`vsprintf` reads the argument of a `%u` as a 64-bit value: the next word with an even number, and with
it the word after. The conversions after it go on too far, and the first does too when the next word
has an odd number.

* `Format` : a format made of characters, `%%`, `%d`, `%s` and `%u`;
* `UnsignedFits` : the only `%u` takes the last argument, from a word with an even number;
* `text_aligned_of_fits` : then the code takes the words that were passed;
* `exists_word_beyond` : otherwise it takes a word beyond them;
* `vsprintf_right_iff` : so the text is right for every list of arguments only in the first case.
-/

namespace MyCpu.Klib

open Bytes Loop
open Rv32 (Word)

/-! ## Formats as they are written -/

/-- A `%` that stands for itself is written twice. -/
def Piece.bytes : Piece → List Byte
  | .char c => if c = chr '%' then [chr '%', chr '%'] else [c]
  | .d => [chr '%', chr 'd']
  | .s => [chr '%', chr 's']
  | .u => [chr '%', chr 'u']

/-- A format with no `NUL` in it. -/
structure Format where
  pieces : List Piece
  ne_zero : ∀ c, Piece.char c ∈ pieces → c ≠ 0

def Format.bytes (f : Format) : List Byte := f.pieces.flatMap Piece.bytes

theorem reads_flatMap_bytes (ps : List Piece) : Reads (ps.flatMap Piece.bytes) ps := by
  induction ps with
  | nil => exact .nil
  | cons p ps ih =>
      rw [List.flatMap_cons]
      cases p with
      | char c =>
          rw [Piece.bytes]
          split_ifs with hc
          · rw [hc]
            exact .conversion (c := chr '%') ih
          · exact .char hc ih
      | d => exact .conversion (c := chr 'd') ih
      | s => exact .conversion (c := chr 's') ih
      | u => exact .conversion (c := chr 'u') ih

theorem Format.bytes_ne_zero (f : Format) : ∀ b ∈ f.bytes, b ≠ 0 := by
  intro b hb
  obtain ⟨p, hp, hb⟩ := List.mem_flatMap.mp hb
  cases p with
  | char c =>
      rw [Piece.bytes] at hb
      split_ifs at hb with hc
      · simp only [List.mem_cons, List.not_mem_nil, or_false, or_self] at hb
        rw [hb]
        decide
      · rw [List.mem_singleton.mp hb]
        exact f.ne_zero c hp
  | d | s | u =>
      simp only [Piece.bytes, List.mem_cons, List.not_mem_nil, or_false] at hb
      rcases hb with rfl | rfl <;> decide

/-! ## The words that are taken -/

/-- How many arguments the pieces take. -/
def argCount : List Piece → Nat
  | [] => 0
  | .char _ :: ps => argCount ps
  | .d :: ps | .s :: ps | .u :: ps => argCount ps + 1

/-- No `%u`, or a single one that takes the last argument, from a word with an even number. -/
def UnsignedFits (k : Nat) : List Piece → Prop
  | [] => True
  | .char _ :: ps => UnsignedFits k ps
  | .d :: ps | .s :: ps => UnsignedFits (k + 1) ps
  | .u :: ps => k % 2 = 0 ∧ argCount ps = 0

/-- The word that a piece takes. -/
def Piece.argWord (uArg : Nat → Nat × Nat) (k : Nat) : Piece → Option Nat
  | .char _ => none
  | .d | .s => some k
  | .u => some (uArg k).1

/-- The next word after a piece. -/
def Piece.nextWord (uArg : Nat → Nat × Nat) (k : Nat) : Piece → Nat
  | .char _ => k
  | .d | .s => k + 1
  | .u => (uArg k).2

/-- How many of the pieces take word `q`. -/
def timesTaken (uArg : Nat → Nat × Nat) (q : Nat) : Nat → List Piece → Nat
  | _, [] => 0
  | k, p :: ps => (if p.argWord uArg k = some q then 1 else 0) + timesTaken uArg q (p.nextWord uArg k) ps

/-- Without further arguments, the words do not matter. -/
theorem text_of_argCount_eq_zero {uArg uArg' : Nat → Nat × Nat} {m : Memory} {w : Nat → Word} {k k' : Nat}
    {ps : List Piece} {t : List Byte} (h : argCount ps = 0) (hT : Text uArg m w k ps t) :
    Text uArg' m w k' ps t := by
  induction hT generalizing k' with
  | nil => exact .nil k'
  | cons hp _ ih =>
      cases hp with
      | char => exact .cons (.char k' _) (ih h)
      | d | s | u => exact nomatch h

theorem text_aligned_of_fits {m : Memory} {w : Nat → Word} {k : Nat} {ps : List Piece} {t : List Byte}
    (h : UnsignedFits k ps) (hT : Text oneWord m w k ps t) : Text alignedPair m w k ps t := by
  induction hT with
  | nil k => exact .nil k
  | @cons k k' p ps bs t hp hT ih =>
      cases hp with
      | char => exact .cons (.char k _) (ih h)
      | d => exact .cons (.d k) (ih h)
      | s hw hs => exact .cons (.s hw hs) (ih h)
      | u =>
          obtain ⟨heven, hlast⟩ := h
          have hword : (oneWord k).1 = (alignedPair k).1 := by
            unfold oneWord alignedPair
            omega
          rw [hword]
          exact .cons (.u k) (text_of_argCount_eq_zero hlast hT)

/-- By the calling convention, a word beyond the arguments is not taken. -/
theorem timesTaken_oneWord_of_le {q k : Nat} {ps : List Piece} (h : k + argCount ps ≤ q) :
    timesTaken oneWord q k ps = 0 := by
  induction ps generalizing k with
  | nil => rfl
  | cons p ps ih =>
      cases p with
      | char c => exact (Nat.zero_add _).trans (ih h)
      | d | s | u =>
          have hne : k ≠ q := by
            unfold argCount at h
            omega
          have hrest : timesTaken oneWord q (k + 1) ps = 0 := ih (by unfold argCount at h; omega)
          exact (congrArg₂ (· + ·) (if_neg fun h => hne (Option.some.inj h)) hrest)

theorem timesTaken_pos_of_argWord {uArg : Nat → Nat × Nat} {q k : Nat} {p : Piece} (ps : List Piece)
    (h : p.argWord uArg k = some q) : 0 < timesTaken uArg q k (p :: ps) := by
  rw [timesTaken, if_pos h]
  exact Nat.lt_of_lt_of_le Nat.zero_lt_one (Nat.le_add_right _ _)

theorem timesTaken_pos_of_rest {uArg : Nat → Nat × Nat} {q k : Nat} (p : Piece) {ps : List Piece}
    (h : 0 < timesTaken uArg q (p.nextWord uArg k) ps) : 0 < timesTaken uArg q k (p :: ps) :=
  Nat.lt_of_lt_of_le h (Nat.le_add_left _ _)

/-- The code takes a word that comes next or later, and goes on after it. -/
theorem Piece.argWord_bounds {p : Piece} {k q : Nat} (h : p.argWord alignedPair k = some q) :
    k ≤ q ∧ q < p.nextWord alignedPair k := by
  cases p with
  | char c => exact nomatch h
  | d | s => exact Option.some.inj h ▸ ⟨Nat.le_refl k, Nat.lt_succ_self k⟩
  | u => exact Option.some.inj h ▸ ⟨Nat.le_add_right _ _, Nat.lt_add_of_pos_right Nat.two_pos⟩

theorem Piece.le_nextWord (p : Piece) (k : Nat) : k ≤ p.nextWord alignedPair k := by
  rcases hq : p.argWord alignedPair k with _ | q
  · cases p with
    | char c => exact Nat.le_refl k
    | d | s | u => exact nomatch hq
  · have := argWord_bounds hq
    omega

/-- Ahead by a word or more, the code takes a word beyond the arguments. -/
theorem exists_word_of_ahead {k j : Nat} {ps : List Piece} (hj : k < j) (hps : argCount ps ≠ 0) :
    ∃ q, k + argCount ps ≤ q ∧ 0 < timesTaken alignedPair q j ps := by
  induction ps generalizing k j with
  | nil => exact absurd rfl hps
  | cons p ps ih =>
      -- The last argument is the word sought; after any other the code is still ahead.
      have harg : ∀ q, p.argWord alignedPair j = some q →
          ∃ q, k + (argCount ps + 1) ≤ q ∧ 0 < timesTaken alignedPair q j (p :: ps) := by
        intro q hq
        have hbounds := Piece.argWord_bounds hq
        by_cases h0 : argCount ps = 0
        · exact ⟨q, by omega, timesTaken_pos_of_argWord ps hq⟩
        · obtain ⟨q', hq', htaken⟩ := ih (k := k + 1) (j := p.nextWord alignedPair j) (by omega) h0
          exact ⟨q', by omega, timesTaken_pos_of_rest p htaken⟩
      cases p with
      | char c =>
          obtain ⟨q, hq, htaken⟩ := ih hj hps
          exact ⟨q, hq, timesTaken_pos_of_rest _ htaken⟩
      | d | s | u => exact harg _ rfl

theorem exists_word_beyond {k : Nat} {ps : List Piece} (h : ¬UnsignedFits k ps) :
    ∃ q, k + argCount ps ≤ q ∧ 0 < timesTaken alignedPair q k ps := by
  induction ps generalizing k with
  | nil => exact absurd trivial h
  | cons p ps ih =>
      cases p with
      | char c =>
          obtain ⟨q, hq, htaken⟩ := ih h
          exact ⟨q, hq, timesTaken_pos_of_rest _ htaken⟩
      | d | s =>
          obtain ⟨q, hq, htaken⟩ := ih h
          exact ⟨q, by rw [argCount]; omega, timesTaken_pos_of_rest _ htaken⟩
      | u =>
          by_cases h0 : argCount ps = 0
          · have hodd : k % 2 = 1 := by
              by_contra hne
              exact h ⟨by omega, h0⟩
            exact ⟨k + k % 2, by rw [argCount]; omega, timesTaken_pos_of_argWord ps rfl⟩
          · obtain ⟨q, hq, htaken⟩ := exists_word_of_ahead
              (k := k + 1) (j := (alignedPair k).2) (by simp only [alignedPair]; omega) h0
            exact ⟨q, by rw [argCount]; omega, timesTaken_pos_of_rest _ htaken⟩

/-- The code takes no word twice. -/
theorem timesTaken_of_lt {q k : Nat} {ps : List Piece} (h : q < k) : timesTaken alignedPair q k ps = 0 := by
  induction ps generalizing k with
  | nil => rfl
  | cons p ps ih =>
      have hne : ¬p.argWord alignedPair k = some q := fun hq => by
        have := Piece.argWord_bounds hq
        omega
      rw [timesTaken, if_neg hne, ih (Nat.lt_of_lt_of_le h (p.le_nextWord k))]

theorem timesTaken_le_one (q k : Nat) (ps : List Piece) : timesTaken alignedPair q k ps ≤ 1 := by
  induction ps generalizing k with
  | nil => exact Nat.zero_le 1
  | cons p ps ih =>
      rw [timesTaken]
      split_ifs with hq
      · rw [timesTaken_of_lt (Piece.argWord_bounds hq).2]
      · exact (Nat.zero_add _).symm ▸ ih _

/-! ## Arguments that tell one word from the others -/

/-- The length of the shortest text of a piece. -/
def Piece.leastLength : Piece → Nat
  | .s => 0
  | .char _ | .d | .u => 1

def leastLength (ps : List Piece) : Nat := (ps.map Piece.leastLength).sum

theorem leastLength_cons (p : Piece) (ps : List Piece) :
    leastLength (p :: ps) = p.leastLength + leastLength ps := List.sum_cons

/-- The format at 64, the empty string at 8 and a string of one character at 16. -/
def sampleMemory (f : Format) : Memory := place (place (fun _ => 0) 16 [chr 'x']) 64 (f.bytes ++ [0])

/-- 16 in word `q`, 8 in the others. -/
def sampleWords (q : Nat) : Nat → Word := fun j => if j = q then 16 else 8

theorem sampleMemory_of_lt (f : Format) {x : Int} (hx : x < 64) :
    sampleMemory f x = place (fun _ => 0) 16 [chr 'x'] x := place_of_outside (Or.inl hx) _

theorem isStr_sampleMemory (f : Format) : IsStr (sampleMemory f) 64 f.bytes :=
  isStr_place _ _ f.bytes_ne_zero

theorem length_numeral_of_lt_ten {k : Nat} (hk : k ≠ 0) (hlt : k < 10) : (numeral k).length = 1 := by
  rw [numeral_of_nonneg (Int.natCast_nonneg k), Int.natAbs_natCast, natNumeral_of_pos hk,
    Nat.digits_of_lt 10 k hk hlt]
  rfl

theorem length_numeral_of_lt_hundred {k : Nat} (hge : 10 ≤ k) (hlt : k < 100) : (numeral k).length = 2 := by
  have hk : k ≠ 0 := by omega
  have hdiv : k / 10 ≠ 0 ∧ k / 10 < 10 := by omega
  rw [numeral_of_nonneg (Int.natCast_nonneg k), Int.natAbs_natCast, natNumeral_of_pos hk,
    Nat.digits_def' (by decide) (Nat.pos_of_ne_zero hk), Nat.digits_of_lt 10 _ hdiv.1 hdiv.2]
  rfl

theorem length_numeral_sampleWords (q k : Nat) :
    (numeral (sampleWords q k).toInt).length = 1 + (if k = q then 1 else 0) ∧
      (numeral (sampleWords q k).toNat).length = 1 + (if k = q then 1 else 0) := by
  unfold sampleWords
  split_ifs
  · exact ⟨length_numeral_of_lt_hundred (k := 16) (by decide) (by decide),
      length_numeral_of_lt_hundred (k := 16) (by decide) (by decide)⟩
  · exact ⟨length_numeral_of_lt_ten (k := 8) (by decide) (by decide),
      length_numeral_of_lt_ten (k := 8) (by decide) (by decide)⟩

theorem exists_isStr_sampleWords (f : Format) (q k : Nat) : sampleWords q k ≠ 0 ∧
    ∃ bs, IsStr (sampleMemory f) (sampleWords q k).toNat bs ∧ bs.length = if k = q then 1 else 0 := by
  unfold sampleWords
  split_ifs
  · refine ⟨by decide, [chr 'x'], isStr_cons_iff.mpr ⟨?_, by decide, isStr_nil_iff.mpr ?_⟩, rfl⟩ <;>
      exact (sampleMemory_of_lt f (by decide)).trans (by decide)
  · refine ⟨by decide, [], isStr_nil_iff.mpr ?_, rfl⟩
    exact (sampleMemory_of_lt f (by decide)).trans (by decide)

theorem exists_item_sample (uArg : Nat → Nat × Nat) (f : Format) (q k : Nat) (p : Piece) :
    ∃ bs, Item uArg (sampleMemory f) (sampleWords q) k p bs (p.nextWord uArg k) ∧
      bs.length = p.leastLength + (if p.argWord uArg k = some q then 1 else 0) := by
  cases p with
  | char c => exact ⟨[c], .char k c, rfl⟩
  | d =>
      refine ⟨_, .d k, (length_numeral_sampleWords q k).1.trans ?_⟩
      simp only [Piece.leastLength, Piece.argWord, Option.some.injEq]
  | s =>
      obtain ⟨hne, bs, hbs, hlen⟩ := exists_isStr_sampleWords f q k
      refine ⟨bs, .s hne hbs, hlen.trans ?_⟩
      simp only [Piece.leastLength, Piece.argWord, Option.some.injEq, Nat.zero_add]
  | u =>
      refine ⟨_, .u k, (length_numeral_sampleWords q _).2.trans ?_⟩
      simp only [Piece.leastLength, Piece.argWord, Option.some.injEq]

/-- The text is longer than the shortest by one character for each piece that takes word `q`. -/
theorem exists_text_sample (uArg : Nat → Nat × Nat) (f : Format) (q k : Nat) (ps : List Piece) :
    ∃ t, Text uArg (sampleMemory f) (sampleWords q) k ps t ∧
      t.length = leastLength ps + timesTaken uArg q k ps := by
  induction ps generalizing k with
  | nil => exact ⟨[], .nil k, rfl⟩
  | cons p ps ih =>
      obtain ⟨bs, hitem, hbs⟩ := exists_item_sample uArg f q k p
      obtain ⟨t, hT, hlen⟩ := ih (p.nextWord uArg k)
      refine ⟨bs ++ t, .cons hitem hT, ?_⟩
      rw [List.length_append, hbs, hlen, leastLength_cons, timesTaken]
      exact Nat.add_add_add_comm ..

theorem length_pos_numeral (n : Int) : 1 ≤ (numeral n).length := by
  obtain ⟨d, ds, -, -, -, htext⟩ := canonical_numeral n
  rw [htext, List.length_append, List.length_map, List.length_cons]
  omega

theorem leastLength_le {uArg : Nat → Nat × Nat} {m : Memory} {w : Nat → Word} {k : Nat} {ps : List Piece}
    {t : List Byte} (hT : Text uArg m w k ps t) : leastLength ps ≤ t.length := by
  induction hT with
  | nil => exact Nat.le_refl 0
  | cons hp _ ih =>
      rw [leastLength_cons, List.length_append]
      refine Nat.add_le_add ?_ ih
      cases hp with
      | char => exact Nat.le_refl 1
      | d | u => exact length_pos_numeral _
      | s => exact Nat.zero_le _

/-! ## What is promised of the formatter -/

/-- The formatter returns the length of `t`, having written `t` and its end to `out` and nothing outside
them. -/
def FormatsRight (x : Fueled (Scan × Int)) (out : Buffer) (t : List Byte) : Prop :=
  ∃ v, Returns x (v, (t.length : Int)) ∧ Formatted out v.out t

/-- When the words that the code takes have the text `t`, it is right for no other text. -/
theorem length_eq_of_formatsRight {f : Format} {m : Memory} {w : Nat → Word} {out : Buffer} {fmt : Int}
    {k : Nat} {t t' : List Byte} (hstr : IsStr m fmt f.bytes) (hT : Text alignedPair m w k f.pieces t')
    (h : FormatsRight (vsprintf m w out fmt k) out t) : (t.length : Int) = toInt32 t'.length := by
  obtain ⟨v, hv, -⟩ := h
  obtain ⟨v', hv', -⟩ := returns_vsprintf (reads_flatMap_bytes f.pieces) hstr hT out
  exact (Prod.mk.inj (hv.unique hv')).2

theorem toInt32_succ_ne {n : Nat} (hn : n < 2 ^ 31) : toInt32 ((n + 1 : Nat) : Int) ≠ n := by
  rcases Nat.lt_or_ge (n + 1) (2 ^ 31) with hlt | hge
  · rw [toInt32_of_lt (by omega) (by omega)]
    omega
  · obtain rfl : n = 2 ^ 31 - 1 := by omega
    decide

/-- An `int` is the result, so a text that is longer is not right. -/
theorem not_formatsRight_of_ge {m : Memory} {w : Nat → Word} {out : Buffer} {fmt : Int} {k : Nat}
    {t : List Byte} (ht : 2 ^ 31 ≤ t.length) : ¬FormatsRight (vsprintf m w out fmt k) out t := by
  rintro ⟨v, hv, -⟩
  have hint := ensures_vsprintf m w out fmt k _ hv
  dsimp only at hint
  omega

/-- For arguments of every kind passed by the calling convention and texts whose length is an `int`,
`vsprintf` is right exactly when the format has no `%u`, or a single one that takes the last argument
from a word with an even number (or when no text is that short). Longer texts are never right. -/
theorem vsprintf_right_iff (f : Format) (k : Nat) (out : Buffer) :
    ((∀ m w fmt t, IsStr m fmt f.bytes → Text oneWord m w k f.pieces t → t.length < 2 ^ 31 →
        FormatsRight (vsprintf m w out fmt k) out t) ↔ UnsignedFits k f.pieces ∨ 2 ^ 31 ≤ leastLength f.pieces) ∧
      ∀ m w fmt t, IsStr m fmt f.bytes → Text oneWord m w k f.pieces t → 2 ^ 31 ≤ t.length →
        ¬FormatsRight (vsprintf m w out fmt k) out t := by
  refine ⟨⟨fun h => ?_, fun h m w fmt t hstr hT hlt => ?_⟩, fun _ _ _ _ _ _ => not_formatsRight_of_ge⟩
  · by_contra hnot
    obtain ⟨hfits, hleast⟩ := not_or.mp hnot
    obtain ⟨q, hq, htaken⟩ := exists_word_beyond hfits
    obtain ⟨t, hT, hlen⟩ := exists_text_sample oneWord f q k f.pieces
    obtain ⟨t', hT', hlen'⟩ := exists_text_sample alignedPair f q k f.pieces
    rw [timesTaken_oneWord_of_le hq, Nat.add_zero] at hlen
    have hone := timesTaken_le_one q k f.pieces
    have hright := h _ _ 64 t (isStr_sampleMemory f) hT (by omega)
    have heq := length_eq_of_formatsRight (isStr_sampleMemory f) hT' hright
    rw [hlen', show timesTaken alignedPair q k f.pieces = 1 by omega, hlen] at heq
    exact toInt32_succ_ne (Nat.lt_of_not_le hleast) heq.symm
  · rcases h with hfits | hleast
    · obtain ⟨v, hv, hdone⟩ :=
        returns_vsprintf (reads_flatMap_bytes f.pieces) hstr (text_aligned_of_fits hfits hT) out
      rw [toInt32_of_lt (by omega) (by omega)] at hv
      exact ⟨v, hv, hdone.formatted hlt⟩
    · have := leastLength_le hT
      omega

/-- `%u%d`. -/
def unsignedThenInt : Format := ⟨[.u, .d], fun c h => by simp at h⟩

/-- The arguments 1 and 2 of a `sprintf`; after them there happens to be a 10. -/
def oneTwo : Nat → Word := fun j => if j = 2 then 1 else if j = 3 then 2 else 10

/-- `sprintf(out, "%u%d", 1u, 2)` takes 10 for the `%d`. -/
theorem sprintf_not_right :
    ¬∀ (f : Format) (m : Memory) (w : Nat → Word) (out : Buffer) (fmt : Int) (t : List Byte),
      IsStr m fmt f.bytes → Text oneWord m w 2 f.pieces t → FormatsRight (sprintf m w out fmt) out t := by
  intro h
  have hT : Text oneWord (sampleMemory unsignedThenInt) oneTwo 2 unsignedThenInt.pieces
      (numeral (1 : Nat) ++ (numeral (2 : Nat) ++ [])) := .cons (.u 2) (.cons (.d 3) (.nil 4))
  have hT' : Text alignedPair (sampleMemory unsignedThenInt) oneTwo 2 unsignedThenInt.pieces
      (numeral (1 : Nat) ++ (numeral (10 : Nat) ++ [])) := .cons (.u 2) (.cons (.d 4) (.nil 5))
  have hstr := isStr_sampleMemory unsignedThenInt
  have hlen := length_eq_of_formatsRight hstr hT' (h _ _ _ ⟨localArray, []⟩ 64 _ hstr hT)
  rw [List.append_nil, List.append_nil, List.length_append, List.length_append,
    length_numeral_of_lt_ten (k := 1) (by decide) (by decide),
    length_numeral_of_lt_ten (k := 2) (by decide) (by decide),
    length_numeral_of_lt_hundred (k := 10) (by decide) (by decide)] at hlen
  exact absurd hlen (by decide)

end MyCpu.Klib
