import MyCpu.Klib.Printf

/-!
# What a format stands for

A format is a list of pieces, and each piece takes argument words and gives a text. Which words a
`%u` takes is a parameter: one word by the calling convention, an aligned pair in the code.

* `Piece`, `Reads` : the pieces that a format is read as;
* `Item`, `Text` : the text of a piece and of a list of pieces, with the words they take;
* `Wrote` : a text has been written to an array, the bytes before it being kept;
* `Ran`, `returns_conversion`, `rounds_of_reads` : what the code does for a piece, and for a format;
* `returns_vsprintf` : the text is written, with its end, and only the format is read;
* `exists_text_of_returns_vsprintf` : it returns only when the words that it takes have a text.
-/

namespace MyCpu.Klib

open Bytes Loop
open Rv32 (Word)

/-! ## Formats -/

inductive Piece where
  | char (c : Byte)
  | d
  | s
  | u
  deriving DecidableEq, Repr

/-- The piece that a character after a `%` makes. -/
def Piece.ofConversion (c : Byte) : Piece :=
  if c = chr 'd' then .d else if c = chr 's' then .s else if c = chr 'u' then .u else .char c

/-- A format is read as a list of pieces. -/
inductive Reads : List Byte → List Piece → Prop
  | nil : Reads [] []
  | char {c : Byte} {bs : List Byte} {ps : List Piece} (hc : c ≠ chr '%') (h : Reads bs ps) :
      Reads (c :: bs) (.char c :: ps)
  | conversion {c : Byte} {bs : List Byte} {ps : List Piece} (h : Reads bs ps) :
      Reads (chr '%' :: c :: bs) (.ofConversion c :: ps)

/-- The text of a piece, when the arguments go on with word `k`, and the word with which they go on
after it. A `%u` that comes when word `k` is next takes the word `(uArg k).1` and leaves
`(uArg k).2` as the next. -/
inductive Item (uArg : Nat → Nat × Nat) (m : Memory) (w : Nat → Word) :
    Nat → Piece → List Byte → Nat → Prop
  | char (k : Nat) (c : Byte) : Item uArg m w k (.char c) [c] k
  | d (k : Nat) : Item uArg m w k .d (numeral (w k).toInt) (k + 1)
  | s {k : Nat} {bs : List Byte} (hw : w k ≠ 0) (hs : IsStr m (w k).toNat bs) : Item uArg m w k .s bs (k + 1)
  | u (k : Nat) : Item uArg m w k .u (numeral (w (uArg k).1).toNat) (uArg k).2

/-- The text of a list of pieces. -/
inductive Text (uArg : Nat → Nat × Nat) (m : Memory) (w : Nat → Word) : Nat → List Piece → List Byte → Prop
  | nil (k : Nat) : Text uArg m w k [] []
  | cons {k k' : Nat} {p : Piece} {ps : List Piece} {bs t : List Byte} (hp : Item uArg m w k p bs k')
      (h : Text uArg m w k' ps t) : Text uArg m w k (p :: ps) (bs ++ t)

/-- An `unsigned int` is one word. -/
def oneWord (k : Nat) : Nat × Nat := (k, k + 1)

/-- A 64-bit argument is two words, the first of them with an even number. -/
def alignedPair (k : Nat) : Nat × Nat := (k + k % 2, k + k % 2 + 2)

/-! ## Texts in an array -/

/-- From `d` to `d'`, the text `t` has been written at `o`, with perhaps a `NUL` after it. -/
structure Wrote (d d' : Buffer) (o : Int) (t : List Byte) : Prop where
  before : ∀ x < o, d'.bytes x = d.bytes x
  text : At d'.bytes o t
  written : ∃ l, d'.written = d.written ++ l ∧ ∀ x ∈ l, o ≤ x ∧ x ≤ o + t.length
  last : t ≠ [] → o + t.length - 1 ∈ d'.written

theorem wrote_nil (d : Buffer) (o : Int) : Wrote d d o [] :=
  ⟨fun _ _ => rfl, at_nil _ _, ⟨[], (List.append_nil _).symm, nofun⟩, fun h => absurd rfl h⟩

/-- What had been written has been written. -/
theorem Wrote.mem {d d' : Buffer} {o x : Int} {t : List Byte} (h : Wrote d d' o t) (hx : x ∈ d.written) :
    x ∈ d'.written := by
  obtain ⟨l, hl, -⟩ := h.written
  exact hl ▸ List.mem_append_left l hx

/-- A text that goes beyond an index has been written there or beyond. -/
theorem Wrote.beyond {d d' : Buffer} {o n : Int} {t : List Byte} (h : Wrote d d' o t) (ho : o ≤ n)
    (hn : n < o + t.length) : ∃ x ∈ d'.written, n ≤ x := by
  have hne : t ≠ [] := by
    rintro rfl
    rw [List.length_nil] at hn
    omega
  exact ⟨_, h.last hne, by omega⟩

theorem Wrote.append {d d' d'' : Buffer} {o : Int} {t t' : List Byte} (h : Wrote d d' o t)
    (h' : Wrote d' d'' (o + t.length) t') : Wrote d d'' o (t ++ t') := by
  obtain ⟨l, hl, hlb⟩ := h.written
  obtain ⟨l', hl', hlb'⟩ := h'.written
  refine ⟨fun x hx => (h'.before x (by omega)).trans (h.before x hx),
    at_append_iff.mpr ⟨h.text.congr fun x _ hx => h'.before x hx, h'.text⟩,
    ⟨l ++ l', ?_, fun x hx => ?_⟩, fun hne => ?_⟩
  · rw [hl', hl, List.append_assoc]
  · rw [List.length_append]
    rcases List.mem_append.mp hx with hx | hx
    · have := hlb x hx
      omega
    · have := hlb' x hx
      omega
  · by_cases hne' : t' = []
    · subst hne'
      rw [List.append_nil] at hne ⊢
      exact h'.mem (h.last hne)
    · rw [List.length_append, Int.natCast_add, ← Int.add_assoc]
      exact h'.last hne'

theorem wrote_set (d : Buffer) (o : Int) (c : Byte) : Wrote d (d.set o c) o [c] := by
  have hbytes : (d.set o c).bytes = Function.update d.bytes o c := rfl
  refine ⟨fun x hx => ?_, at_singleton_iff.mpr ?_, ⟨[o], rfl, fun x hx => ?_⟩, fun _ => ?_⟩
  · rw [hbytes, Function.update_of_ne (Int.ne_of_lt hx)]
  · rw [hbytes, Function.update_self]
  · rw [List.mem_singleton.mp hx, List.length_singleton]
    omega
  · rw [List.length_singleton, Int.natCast_one, Int.add_sub_cancel]
    exact List.mem_concat_self

theorem mem_written_put (d : Buffer) (o : Int) {bs : List Byte} {i : Nat} (hi : i < bs.length) :
    o + i ∈ (d.put o bs).written :=
  List.mem_append_right _ (List.mem_map.mpr ⟨i, List.mem_range.mpr hi, rfl⟩)

theorem wrote_put (d : Buffer) (o : Int) (t : List Byte) : Wrote d (d.put o (t ++ [0])) o t := by
  refine ⟨fun x hx => place_of_outside (Or.inl hx) d.bytes, (at_append_iff.mp (at_place _ _ _)).1,
    ⟨_, rfl, fun x hx => ?_⟩, fun hne => ?_⟩
  · obtain ⟨i, hi, rfl⟩ := List.mem_map.mp hx
    rw [List.mem_range, List.length_append, List.length_singleton] at hi
    omega
  · have hpos := List.length_pos_iff.mpr hne
    have hmem : o + ((t.length - 1 : Nat) : Int) ∈ (d.put o (t ++ [0])).written :=
      mem_written_put d o (by rw [List.length_append]; omega)
    rwa [show o + t.length - 1 = o + ((t.length - 1 : Nat) : Int) by omega]

/-! ## The code -/

theorem toInt32_toInt32_add (a b : Int) : toInt32 (toInt32 a + b) = toInt32 (a + b) := Int.bmod_add_bmod

theorem toInt32_toInt32 (a : Int) : toInt32 (toInt32 a) = toInt32 a := Int.bmod_bmod

/-- What `vsprintf` has done from `v` to `v'`: it has read `n` characters of the format and written
the text `t`, and goes on with word `k`. -/
structure Ran (v v' : Scan) (n : Nat) (t : List Byte) (k : Nat) : Prop where
  fmt_eq : v'.fmt = v.fmt + n
  ap_eq : v'.ap = k
  outIndex_eq : v'.outIndex = toInt32 (v.outIndex + t.length)
  seen_eq : ∃ l, v'.seen = v.seen ++ l ∧ ∀ a ∈ l, v.fmt ≤ a ∧ a < v.fmt + n
  wrote : 0 ≤ v.outIndex → v.outIndex + t.length < 2 ^ 31 → Wrote v.out v'.out v.outIndex t
  mem : ∀ x ∈ v.out.written, x ∈ v'.out.written
  beyond : ∀ n, 0 ≤ v.outIndex → v.outIndex ≤ n → n < 2 ^ 31 → n < v.outIndex + t.length →
    ∃ x ∈ v'.out.written, n ≤ x

/-- A single piece. -/
theorem ran_of_wrote {v v' : Scan} {n k : Nat} {t : List Byte} (hfmt : v'.fmt = v.fmt + n) (hap : v'.ap = k)
    (hidx : v'.outIndex = toInt32 (v.outIndex + t.length))
    (hseen : ∃ l, v'.seen = v.seen ++ l ∧ ∀ a ∈ l, v.fmt ≤ a ∧ a < v.fmt + n)
    (hwrote : Wrote v.out v'.out v.outIndex t) : Ran v v' n t k :=
  ⟨hfmt, hap, hidx, hseen, fun _ _ => hwrote, fun _ => hwrote.mem, fun _ _ ho _ hn => hwrote.beyond ho hn⟩

theorem ran_nil {v : Scan} (hv : toInt32 v.outIndex = v.outIndex) : Ran v v 0 [] v.ap :=
  ran_of_wrote (Int.add_zero _).symm rfl ((congrArg toInt32 (Int.add_zero _)).trans hv).symm
    ⟨[], (List.append_nil _).symm, nofun⟩ (wrote_nil _ _)

theorem Ran.outIndex_fits {v v' : Scan} {n k : Nat} {t : List Byte} (h : Ran v v' n t k) :
    toInt32 v'.outIndex = v'.outIndex := by rw [h.outIndex_eq, toInt32_toInt32]

theorem Ran.append {v v' v'' : Scan} {n n' k k' : Nat} {t t' : List Byte} (h : Ran v v' n t k)
    (h' : Ran v' v'' n' t' k') : Ran v v'' (n + n') (t ++ t') k' := by
  obtain ⟨l, hl, hlb⟩ := h.seen_eq
  obtain ⟨l', hl', hlb'⟩ := h'.seen_eq
  have hidx : v.outIndex + t.length < 2 ^ 31 → 0 ≤ v.outIndex → v'.outIndex = v.outIndex + t.length :=
    fun hlt h0 => h.outIndex_eq.trans (toInt32_of_lt (by omega) hlt)
  refine ⟨?_, h'.ap_eq, ?_, ⟨l ++ l', ?_, fun a ha => ?_⟩, fun h0 hlt => ?_,
    fun x hx => h'.mem x (h.mem x hx), fun n h0 ho hint hn => ?_⟩
  · rw [h'.fmt_eq, h.fmt_eq, Int.natCast_add, Int.add_assoc]
  · rw [h'.outIndex_eq, h.outIndex_eq, toInt32_toInt32_add, List.length_append, Int.natCast_add,
      Int.add_assoc]
  · rw [hl', hl, List.append_assoc]
  · rcases List.mem_append.mp ha with ha | ha
    · have := hlb a ha
      omega
    · have := hlb' a ha
      rw [h.fmt_eq] at this
      omega
  · rw [List.length_append] at hlt
    have hidx := hidx (by omega) h0
    have hrest := h'.wrote (by omega) (by omega)
    rw [hidx] at hrest
    exact (h.wrote h0 (by omega)).append hrest
  · rw [List.length_append] at hn
    by_cases hfirst : n < v.outIndex + t.length
    · obtain ⟨x, hx, hxn⟩ := h.beyond n h0 ho hint hfirst
      exact ⟨x, h'.mem x hx, hxn⟩
    · have hidx := hidx (by omega) h0
      exact h'.beyond n (by omega) (by omega) hint (by omega)

/-- A string is copied to the output. -/
theorem returns_putStr {ms : Memory} {p : Int} {bs : List Byte} (h : IsStr ms p bs) (v : Scan) :
    Returns (v.putStr ms (some p))
      { v with out := v.out.put v.outIndex (bs ++ [0]), outIndex := toInt32 (v.outIndex + bs.length) } :=
  (returns_strcpy h v.out v.outIndex).bind ((returns_strlen h).bind (returns_pure _))

theorem ptr_of_ne {a : Word} (h : a ≠ 0) : ptr a = some (a.toNat : Int) := if_neg h

/-- The `switch` writes the text of the piece that its character makes. -/
theorem returns_conversion {m : Memory} {w : Nat → Word} {v : Scan} {bs : List Byte} {k : Nat}
    (h : Item alignedPair m w v.ap (.ofConversion (m v.fmt)) bs k) :
    ∃ v', Returns (conversion m w v) v' ∧ v'.fmt = v.fmt ∧ v'.ap = k ∧ v'.seen = v.seen ∧
      v'.outIndex = toInt32 (v.outIndex + bs.length) ∧ Wrote v.out v'.out v.outIndex bs := by
  unfold Piece.ofConversion at h
  unfold conversion
  dsimp only
  split_ifs at h ⊢ with hd hs hu
  · cases h
    exact ⟨_, (returns_intToStr localArray 0 _).bind
      (returns_putStr (isStr_place _ _ (numeral_ne_zero _)) _), rfl, rfl, rfl, rfl, wrote_put _ _ _⟩
  · cases h with
    | s hw hs =>
        have hput := returns_putStr hs (v.vaArg w).2
        rw [← ptr_of_ne hw] at hput
        exact ⟨_, hput, rfl, rfl, rfl, rfl, wrote_put _ _ _⟩
  · cases h
    have hlow : (w (v.ap + v.ap % 2 + 1) ++ w (v.ap + v.ap % 2)).setWidth 32 = w (v.ap + v.ap % 2) :=
      BitVec.setWidth_append_eq_right
    have hstr := returns_uintToStr localArray 0 (w (v.ap + v.ap % 2))
    rw [← hlow] at hstr
    refine ⟨_, hstr.bind (returns_putStr (isStr_place _ _ (numeral_ne_zero _)) _), rfl, rfl, rfl, ?_, ?_⟩
    · rw [hlow]
      rfl
    · rw [hlow]
      exact wrote_put _ _ _
  · cases h
    exact ⟨_, returns_pure _, rfl, rfl, rfl, rfl, wrote_set _ _ _⟩

/-- The end of the format. -/
theorem round_end {m : Memory} {v : Scan} (w : Nat → Word) (hm : m v.fmt = 0) :
    Returns (vsprintfRound m w v) (.inr v.look) := by
  unfold vsprintfRound
  dsimp only
  rw [show m v.look.fmt = 0 from hm, if_pos rfl]
  exact returns_pure _

/-- A character that is not a `%`. -/
theorem round_char {m : Memory} {v : Scan} {c : Byte} (w : Nat → Word) (hm : m v.fmt = c) (hc : c ≠ 0)
    (hp : c ≠ chr '%') :
    ∃ v', Returns (vsprintfRound m w v) (.inl v') ∧ Ran v v' 1 [c] v.ap := by
  refine ⟨(v.look.putChar c).advance, ?_,
    ran_of_wrote rfl rfl rfl ⟨[v.fmt], rfl, fun a ha => ?_⟩ (wrote_set _ _ _)⟩
  · unfold vsprintfRound Scan.look
    dsimp only
    rw [hm, if_neg hc, if_neg hp]
    exact returns_pure _
  · rw [List.mem_singleton.mp ha]
    omega

/-- A `%` and the character after it. -/
theorem round_conversion {m : Memory} {w : Nat → Word} {v : Scan} {c : Byte} {bs : List Byte} {k : Nat}
    (hm : m v.fmt = chr '%') (hc : m (v.fmt + 1) = c)
    (h : Item alignedPair m w v.ap (.ofConversion c) bs k) :
    ∃ v', Returns (vsprintfRound m w v) (.inl v') ∧ Ran v v' 2 bs k := by
  rw [← hc] at h
  obtain ⟨v', hv', hfmt, hap, hseen, hidx, hwrote⟩ := returns_conversion (v := v.look.advance.look) h
  refine ⟨v'.advance, ?_,
    ran_of_wrote ?_ hap hidx ⟨[v.fmt, v.fmt + 1], ?_, fun a ha => ?_⟩ hwrote⟩
  · unfold vsprintfRound
    dsimp only
    rw [show m v.look.fmt = chr '%' from hm, if_neg (by decide), if_pos rfl]
    exact hv'.bind (returns_pure _)
  · change v'.fmt + 1 = v.fmt + (2 : Nat)
    rw [hfmt]
    exact Int.add_assoc v.fmt 1 1
  · exact hseen.trans (List.append_assoc _ _ _)
  · simp only [List.mem_cons, List.not_mem_nil, or_false] at ha
    omega

/-- The loop goes through the pieces of a format and writes their texts. -/
theorem rounds_of_reads {m : Memory} {w : Nat → Word} {bs t : List Byte} {ps : List Piece}
    (hR : Reads bs ps) {v : Scan} (hT : Text alignedPair m w v.ap ps t) (hat : At m v.fmt bs)
    (hne : ∀ b ∈ bs, b ≠ 0) (hv : toInt32 v.outIndex = v.outIndex) :
    ∃ v' k, Rounds (vsprintfRound m w) v v' ∧ Ran v v' bs.length t k := by
  induction hR generalizing v t with
  | nil =>
      cases hT
      exact ⟨v, v.ap, .refl, ran_nil hv⟩
  | @char c bs ps hc _ ih =>
      obtain ⟨hm, hat⟩ := at_cons_iff.mp hat
      obtain ⟨hc0, hne⟩ := List.forall_mem_cons.mp hne
      cases hT with
      | cons hitem hT =>
          cases hitem
          obtain ⟨v₁, hround, hran⟩ := round_char w hm hc0 hc
          obtain ⟨v₂, k, hrounds, hran'⟩ := ih (hran.ap_eq ▸ hT) (hran.fmt_eq ▸ hat) hne hran.outIndex_fits
          refine ⟨v₂, k, hrounds.head hround, ?_⟩
          rw [List.length_cons, Nat.add_comm]
          exact hran.append hran'
  | @conversion c bs ps _ ih =>
      obtain ⟨hm, hat⟩ := at_cons_iff.mp hat
      obtain ⟨hc, hat⟩ := at_cons_iff.mp hat
      rw [Int.add_assoc] at hat
      cases hT with
      | cons hitem hT =>
          obtain ⟨v₁, hround, hran⟩ := round_conversion hm hc hitem
          obtain ⟨v₂, k, hrounds, hran'⟩ := ih (hran.ap_eq ▸ hT) (hran.fmt_eq ▸ hat)
            (fun b hb => hne b (List.mem_cons_of_mem _ (List.mem_cons_of_mem _ hb))) hran.outIndex_fits
          refine ⟨v₂, k, hrounds.head hround, ?_⟩
          rw [List.length_cons, List.length_cons, Nat.add_assoc, Nat.add_comm]
          exact hran.append hran'

/-- The array after `vsprintf`: the text and its end are at index 0, and what has been written lies
within them. -/
structure Formatted (d d' : Buffer) (t : List Byte) : Prop where
  text : At d'.bytes 0 (t ++ [0])
  written : ∃ l, d'.written = d.written ++ l ∧ (t.length : Int) ∈ l ∧ ∀ x ∈ l, 0 ≤ x ∧ x ≤ t.length

theorem Wrote.formatted {d d' : Buffer} {t : List Byte} (h : Wrote d d' 0 t) :
    Formatted d (d'.set t.length 0) t := by
  have hend : Wrote d (d'.set t.length 0) 0 (t ++ [0]) := h.append (Int.zero_add _ ▸ wrote_set d' _ 0)
  obtain ⟨l, hl, hlb⟩ := h.written
  refine ⟨hend.text, l ++ [(t.length : Int)], ?_, List.mem_concat_self, fun x hx => ?_⟩
  · rw [← List.append_assoc, ← hl]
    rfl
  · rcases List.mem_append.mp hx with hx | hx
    · have := hlb x hx
      omega
    · rw [List.mem_singleton.mp hx]
      omega

/-- What `vsprintf` has done when it returns: it has read the format up to its end; if the length of the
text is an `int`, the text and its end are in the array; and no array that is shorter holds them. -/
structure Done (out : Buffer) (fmt : Int) (bs t : List Byte) (v : Scan) : Prop where
  seen : ∀ a ∈ v.seen, fmt ≤ a ∧ a ≤ fmt + bs.length
  formatted : t.length < 2 ^ 31 → Formatted out v.out t
  beyond : ∀ n : Int, 0 ≤ n → n < 2 ^ 31 → n ≤ t.length → ∃ x ∈ v.out.written, n ≤ x

/-- `vsprintf` returns when the arguments are those that the code takes. -/
theorem returns_vsprintf {m : Memory} {w : Nat → Word} {bs t : List Byte} {ps : List Piece} {fmt : Int}
    {k : Nat} (hR : Reads bs ps) (hstr : IsStr m fmt bs) (hT : Text alignedPair m w k ps t) (out : Buffer) :
    ∃ v, Returns (vsprintf m w out fmt k) (v, toInt32 t.length) ∧ Done out fmt bs t v := by
  obtain ⟨v, k', hrounds, hran⟩ := rounds_of_reads hR (v := ⟨fmt, k, 0, out, []⟩) hT hstr.at_chars
    hstr.ne_zero rfl
  have hfmt : v.fmt = fmt + bs.length := hran.fmt_eq
  have hidx : v.outIndex = toInt32 t.length :=
    hran.outIndex_eq.trans (congrArg toInt32 (Int.zero_add _))
  have hexit : Returns (vsprintfRound m w v) (.inr v.look) := round_end w (hfmt ▸ hstr.at_end)
  refine ⟨{ v.look with out := v.out.set v.outIndex 0 }, ?_, fun a ha => ?_, fun hlt => ?_,
    fun n h0 hint hn => ?_⟩
  · rw [← hidx]
    exact (hrounds.loop_iff.mpr hexit.loop_exit).bind (returns_pure _)
  · obtain ⟨l, hl, hlb⟩ : ∃ l, v.seen = [] ++ l ∧ ∀ a ∈ l, fmt ≤ a ∧ a < fmt + bs.length := hran.seen_eq
    rw [show v.look.seen = v.seen ++ [v.fmt] from rfl, hl, List.nil_append] at ha
    rcases List.mem_append.mp ha with ha | ha
    · have := hlb a ha
      omega
    · rw [List.mem_singleton.mp ha, hfmt]
      omega
  · have hwrote : Wrote out v.out 0 t :=
      hran.wrote (Int.le_refl 0) (by rw [Int.zero_add]; omega)
    rw [toInt32_of_lt (by omega) (by omega)] at hidx
    rw [hidx]
    exact hwrote.formatted
  · rcases Int.lt_or_eq_of_le hn with hlt | heq
    · obtain ⟨x, hx, hxn⟩ := hran.beyond n (Int.le_refl 0) h0 hint (by rwa [Int.zero_add])
      exact ⟨x, List.mem_append_left _ hx, hxn⟩
    · rw [← heq, toInt32_of_lt (by omega) hint] at hidx
      exact ⟨n, hidx ▸ List.mem_concat_self, Int.le_refl n⟩

/-! ## Whatever the arguments -/

/-- What a round can do. -/
theorem vsprintfRound_cases {m : Memory} {w : Nat → Word} {v : Scan} {x : Scan ⊕ Scan}
    (h : Returns (vsprintfRound m w v) x) :
    (m v.fmt = 0 ∧ x = .inr v.look) ∨
      (m v.fmt = chr '%' ∧ ∃ v', Returns (conversion m w v.look.advance.look) v' ∧ x = .inl v'.advance) ∨
      (m v.fmt ≠ chr '%' ∧ x = .inl (v.look.putChar (m v.fmt)).advance) := by
  unfold vsprintfRound at h
  dsimp only at h
  split_ifs at h with hend hpercent
  · exact Or.inl ⟨hend, h.unique (returns_pure _)⟩
  · obtain ⟨v', hv', hret⟩ := returns_bind_iff.mp h
    exact Or.inr (Or.inl ⟨hpercent, v', hv', hret.unique (returns_pure _)⟩)
  · exact Or.inr (Or.inr ⟨hpercent, h.unique (returns_pure _)⟩)

theorem toInt32_lt (a : Int) : toInt32 a < 2 ^ 31 := Int.bmod_lt (by decide)

/-- A piece leaves `out_index` an `int` and reads no more of the format. -/
theorem ensures_putStr (v : Scan) (ms : Memory) (s : Ptr) :
    Ensures (v.putStr ms s) fun v' => v'.outIndex < 2 ^ 31 ∧ v'.seen = v.seen :=
  (ensures_true _).bind fun _ _ =>
    (ensures_true _).bind fun _ _ =>
      ensures_pure ⟨toInt32_lt _, rfl⟩

theorem ensures_conversion (m : Memory) (w : Nat → Word) (v : Scan) :
    Ensures (conversion m w v) fun v' => v'.outIndex < 2 ^ 31 ∧ v'.seen = v.seen := by
  unfold conversion
  dsimp only
  split_ifs
  · exact (ensures_true _).bind fun _ _ => ensures_putStr _ _ _
  · exact ensures_putStr _ _ _
  · exact (ensures_true _).bind fun _ _ => ensures_putStr _ _ _
  · exact ensures_pure ⟨toInt32_lt _, rfl⟩

/-- Only a string is copied. -/
theorem ensures_putStr_isStr (v : Scan) (ms : Memory) (s : Ptr) :
    Ensures (v.putStr ms s) fun _ => ∃ p bs, s = some p ∧ IsStr ms p bs :=
  (ensures_true _).bind fun _ _ =>
    (ensures_strlen ms s).bind fun _ ⟨p, hp, hbs⟩ =>
      ensures_pure ⟨p, _, hp, hbs⟩

theorem ensures_item (m : Memory) (w : Nat → Word) (v : Scan) :
    Ensures (conversion m w v) fun _ =>
      ∃ bs k, Item alignedPair m w v.ap (.ofConversion (m v.fmt)) bs k := by
  unfold conversion Piece.ofConversion
  dsimp only
  split_ifs with hd hs hu
  · exact fun _ _ => ⟨_, _, .d v.ap⟩
  · rintro v' hv'
    obtain ⟨p, bs, hp, hbs⟩ := ensures_putStr_isStr _ _ _ v' hv'
    have hw : w v.ap ≠ 0 := fun h => nomatch (if_pos h).symm.trans hp
    obtain rfl := Option.some.inj ((ptr_of_ne hw).symm.trans hp)
    exact ⟨bs, _, .s hw hbs⟩
  · exact fun _ _ => ⟨_, _, .u v.ap⟩
  · exact fun _ _ => ⟨_, _, .char v.ap _⟩

/-- A `%` is gone past only when the character after it has a text. -/
theorem ensures_round_item {m : Memory} {v : Scan} (w : Nat → Word) (hm : m v.fmt = chr '%') :
    Ensures (vsprintfRound m w v) fun _ =>
      ∃ bs k, Item alignedPair m w v.ap (.ofConversion (m (v.fmt + 1))) bs k := by
  intro x hx
  obtain ⟨hend, -⟩ | ⟨-, v', hv', -⟩ | ⟨hpercent, -⟩ := vsprintfRound_cases hx
  · exact absurd (hend.symm.trans hm) (by decide)
  · exact ensures_item m w v.look.advance.look v' hv'
  · exact absurd hm hpercent

/-- The loop ends only when the words that it takes have a text. -/
theorem exists_text_of_returns {m : Memory} {w : Nat → Word} {bs : List Byte} {ps : List Piece}
    (hR : Reads bs ps) {v v' : Scan} (hat : At m v.fmt bs) (hne : ∀ b ∈ bs, b ≠ 0)
    (h : Returns (loop (vsprintfRound m w) v) v') : ∃ t, Text alignedPair m w v.ap ps t := by
  induction hR generalizing v with
  | nil => exact ⟨[], .nil v.ap⟩
  | @char c bs ps hc _ ih =>
      obtain ⟨hm, hat⟩ := at_cons_iff.mp hat
      obtain ⟨hc0, hne⟩ := List.forall_mem_cons.mp hne
      obtain ⟨v₁, hround, hran⟩ := round_char w hm hc0 hc
      obtain ⟨t, hT⟩ := ih (hran.fmt_eq ▸ hat) hne (hround.loop_iff.mp h)
      exact ⟨_, .cons (.char v.ap c) (hran.ap_eq ▸ hT)⟩
  | @conversion c bs ps _ ih =>
      obtain ⟨hm, hat⟩ := at_cons_iff.mp hat
      obtain ⟨hc, hat⟩ := at_cons_iff.mp hat
      rw [Int.add_assoc] at hat
      obtain ⟨x, hx, -⟩ := returns_loop_iff.mp h
      obtain ⟨item, k, hitem⟩ := ensures_round_item w hm x hx
      rw [hc] at hitem
      obtain ⟨v₁, hround, hran⟩ := round_conversion hm hc hitem
      obtain ⟨t, hT⟩ := ih (hran.fmt_eq ▸ hat)
        (fun b hb => hne b (List.mem_cons_of_mem _ (List.mem_cons_of_mem _ hb))) (hround.loop_iff.mp h)
      exact ⟨_, .cons hitem (hran.ap_eq ▸ hT)⟩

theorem exists_text_of_returns_vsprintf {m : Memory} {w : Nat → Word} {bs : List Byte} {ps : List Piece}
    {out : Buffer} {fmt : Int} {k : Nat} (hR : Reads bs ps) (hstr : IsStr m fmt bs) {r : Scan × Int}
    (h : Returns (vsprintf m w out fmt k) r) : ∃ t, Text alignedPair m w k ps t := by
  obtain ⟨v, hv, -⟩ := returns_bind_iff.mp h
  exact exists_text_of_returns hR hstr.at_chars hstr.ne_zero hv

/-- Whatever it returns is an `int`. -/
theorem ensures_vsprintf (m : Memory) (w : Nat → Word) (out : Buffer) (fmt : Int) (k : Nat) :
    Ensures (vsprintf m w out fmt k) fun r => r.2 < 2 ^ 31 := by
  have hround : ∀ v : Scan, v.outIndex < 2 ^ 31 → Ensures (vsprintfRound m w v)
      (Sum.elim (fun v => v.outIndex < 2 ^ 31) fun v => v.outIndex < 2 ^ 31) := by
    intro v hv x hx
    obtain ⟨-, rfl⟩ | ⟨-, v', hv', rfl⟩ | ⟨-, rfl⟩ := vsprintfRound_cases hx
    · exact hv
    · exact (ensures_conversion m w _ v' hv').1
    · exact toInt32_lt _
  have hstart : (Scan.mk fmt k 0 out []).outIndex < 2 ^ 31 := (by decide : (0 : Int) < 2 ^ 31)
  exact (Ensures.loop hround hstart).bind fun v hv => ensures_pure hv

end MyCpu.Klib
