import MyCpu.Klib.Arguments

/-!
# The end of the format and the end of the buffer

Two places where nothing stops the formatter: a lone `%` takes the `NUL` for its character, and the
array of `printf` has 1024 bytes whatever the text.

* `Scans` : the pieces of a format, up to a lone `%` at its end; `exists_scans` : every format has some;
* `trailingPercents_even`, `trailingPercents_odd` : a lone `%` is left when their number is odd;
* `vsprintf_stops_iff` : the format is read within its bounds exactly when none is left;
* `returns_printf` : what `printf` puts out;
* `printf_safe_iff` : its array is not left exactly when the text is shorter than the array.
-/

namespace MyCpu.Klib

open Bytes Loop
open Rv32 (Word)

/-! ## A lone `%` -/

/-- The number of `%` at the end of a format. -/
def trailingPercents (bs : List Byte) : Nat := (bs.reverse.takeWhile fun c => c = chr '%').length

/-- The pieces of a format, without a `%` at the end that is the start of none. -/
def Scans (bs : List Byte) (ps : List Piece) : Prop :=
  Reads bs ps ∨ ∃ pre, bs = pre ++ [chr '%'] ∧ Reads pre ps

/-- Every format has pieces. -/
theorem exists_scans : ∀ bs : List Byte, ∃ ps, Scans bs ps
  | [] => ⟨[], Or.inl .nil⟩
  | [c] => by
      by_cases hc : c = chr '%'
      · exact ⟨[], Or.inr ⟨[], by rw [hc]; rfl, .nil⟩⟩
      · exact ⟨_, Or.inl (.char hc .nil)⟩
  | c :: e :: bs => by
      by_cases hc : c = chr '%'
      · obtain ⟨ps, h | ⟨pre, rfl, h⟩⟩ := exists_scans bs
        · exact ⟨.ofConversion e :: ps, Or.inl (hc ▸ .conversion h)⟩
        · exact ⟨.ofConversion e :: ps, Or.inr ⟨c :: e :: pre, rfl, hc ▸ .conversion h⟩⟩
      · obtain ⟨ps, h | ⟨pre, hpre, h⟩⟩ := exists_scans (e :: bs)
        · exact ⟨.char c :: ps, Or.inl (.char hc h)⟩
        · exact ⟨.char c :: ps, Or.inr ⟨c :: pre, by rw [hpre]; rfl, .char hc h⟩⟩

theorem trailingPercents_le (bs : List Byte) : trailingPercents bs ≤ bs.length := by
  have h := (List.takeWhile_sublist (fun c => c = chr '%') (l := bs.reverse)).length_le
  rwa [List.length_reverse] at h

theorem trailingPercents_cons (c : Byte) (bs : List Byte) :
    trailingPercents (c :: bs) =
      if c = chr '%' ∧ trailingPercents bs = bs.length then bs.length + 1 else trailingPercents bs := by
  unfold trailingPercents
  rw [List.reverse_cons, List.takeWhile_append, List.length_reverse]
  by_cases hall : (bs.reverse.takeWhile fun c => c = chr '%').length = bs.length
  · by_cases hc : c = chr '%' <;> simp [hall, hc]
  · simp [hall]

/-- The pieces of a format leave an even number of `%` at its end. -/
theorem trailingPercents_even {bs : List Byte} {ps : List Piece} (h : Reads bs ps) :
    trailingPercents bs % 2 = 0 := by
  induction h with
  | nil => rfl
  | char hc _ ih => rwa [trailingPercents_cons, if_neg fun h => hc h.1]
  | @conversion c bs ps _ ih =>
      have hle := trailingPercents_le bs
      rw [trailingPercents_cons, trailingPercents_cons, List.length_cons]
      by_cases hall : c = chr '%' ∧ trailingPercents bs = bs.length
      · rw [if_pos hall, if_pos ⟨rfl, rfl⟩]
        omega
      · rwa [if_neg hall, if_neg fun h => by omega]

theorem trailingPercents_odd {pre : List Byte} {ps : List Piece} (h : Reads pre ps) :
    trailingPercents (pre ++ [chr '%']) % 2 = 1 := by
  have heven := trailingPercents_even h
  unfold trailingPercents at heven ⊢
  rw [List.reverse_concat, List.takeWhile_cons_of_pos (by simp), List.length_cons]
  omega

/-! ## The end of the format -/

/-- `vsprintf` returns, and reads no character beyond the `NUL` of a format of `n` characters. -/
def StopsAtEnd (m : Memory) (w : Nat → Word) (out : Buffer) (fmt : Int) (k n : Nat) : Prop :=
  ∃ v r, Returns (vsprintf m w out fmt k) (v, r) ∧ ∀ a ∈ v.seen, fmt ≤ a ∧ a ≤ fmt + n

/-- What has been read, or is read next, has been read in the end. -/
theorem ensures_seen (m : Memory) (w : Nat → Word) {v : Scan} {a : Int} (h : a ∈ v.seen ∨ v.fmt = a) :
    Ensures (loop (vsprintfRound m w) v) fun v' => a ∈ v'.seen := by
  have hround : ∀ v : Scan, (a ∈ v.seen ∨ v.fmt = a) → Ensures (vsprintfRound m w v)
      (Sum.elim (fun v => a ∈ v.seen ∨ v.fmt = a) fun v => a ∈ v.seen) := by
    intro v hv x hx
    have hlook : a ∈ v.look.seen :=
      List.mem_append.mpr (hv.imp_right fun h => List.mem_singleton.mpr h.symm)
    obtain ⟨-, rfl⟩ | ⟨-, v', hv', rfl⟩ | ⟨-, rfl⟩ := vsprintfRound_cases hx
    · exact hlook
    · refine Or.inl ?_
      change a ∈ v'.seen
      rw [(ensures_conversion m w _ v' hv').2]
      exact List.mem_append_left _ hlook
    · exact Or.inl hlook
  exact Ensures.loop hround h

/-- With a lone `%` at its end, the format is read beyond its `NUL`. -/
theorem not_stopsAtEnd_of_lone {m : Memory} {w : Nat → Word} {pre t : List Byte} {ps : List Piece}
    {fmt : Int} {k : Nat} (hR : Reads pre ps) (hstr : IsStr m fmt (pre ++ [chr '%']))
    (hT : Text alignedPair m w k ps t) (out : Buffer) :
    ¬StopsAtEnd m w out fmt k (pre ++ [chr '%']).length := by
  rintro ⟨v', r, hv', hseen⟩
  obtain ⟨hat, hpercent⟩ := at_append_iff.mp hstr.at_chars
  obtain ⟨v, k', hrounds, hran⟩ := rounds_of_reads hR (v := ⟨fmt, k, 0, out, []⟩) hT hat
    (fun b hb => hstr.ne_zero b (List.mem_append_left _ hb)) rfl
  have hfmt : v.fmt = fmt + pre.length := hran.fmt_eq
  have hnul : m (v.fmt + 1) = 0 := by
    rw [hfmt, Int.add_assoc, ← Int.natCast_succ, ← hstr.at_end, List.length_append]
    rfl
  have hitem : Item alignedPair m w v.ap (.ofConversion 0) [0] v.ap := .char v.ap 0
  obtain ⟨v₁, hround, hran₁⟩ := round_conversion (hfmt ▸ at_singleton_iff.mp hpercent) hnul hitem
  have hfmt₁ : v₁.fmt = v.fmt + (2 : Nat) := hran₁.fmt_eq
  -- The next character that is read is the one after the `NUL`.
  obtain ⟨v₂, hv₂, hret⟩ := returns_bind_iff.mp hv'
  have hrest := (Rounds.loop_iff (hrounds.tail hround)).mp hv₂
  have hafter : v₁.fmt ∈ v₂.seen := ensures_seen m w (Or.inr rfl) v₂ hrest
  obtain ⟨rfl, -⟩ := Prod.mk.inj ((returns_pure _).unique hret)
  have hbound := hseen _ hafter
  rw [hfmt₁, hfmt, List.length_append, List.length_singleton] at hbound
  omega

/-- `vsprintf` returns having read no character beyond the `NUL` of its format, for any format and any
arguments that the code can take, exactly when the format does not end in an odd number of `%`. -/
theorem vsprintf_stops_iff {m : Memory} {w : Nat → Word} {bs t : List Byte} {ps : List Piece} {fmt : Int}
    {k : Nat} (hstr : IsStr m fmt bs) (hps : Scans bs ps) (hT : Text alignedPair m w k ps t) (out : Buffer) :
    StopsAtEnd m w out fmt k bs.length ↔ trailingPercents bs % 2 = 0 := by
  rcases hps with hR | ⟨pre, rfl, hR⟩
  · obtain ⟨v, hv, hdone⟩ := returns_vsprintf hR hstr hT out
    exact iff_of_true ⟨v, _, hv, hdone.seen⟩ (trailingPercents_even hR)
  · have hodd := trailingPercents_odd hR
    exact iff_of_false (not_stopsAtEnd_of_lone hR hstr hT out) (by omega)

theorem isStr_percent : IsStr (place (fun _ => 0) 64 ([chr '%'] ++ [0])) 64 [chr '%'] :=
  isStr_place _ _ (by decide)

/-- The format `%`, without arguments. -/
theorem vsprintf_stops_iff_percent :
    StopsAtEnd (place (fun _ => 0) 64 ([chr '%'] ++ [0])) (fun _ => 0) ⟨localArray, []⟩ 64 2 1 ↔
      trailingPercents [chr '%'] % 2 = 0 :=
  vsprintf_stops_iff isStr_percent (Or.inr ⟨[], rfl, .nil⟩) (.nil 2) ⟨localArray, []⟩

/-- The format `%` is read beyond its end. -/
theorem vsprintf_not_stops :
    ¬∀ (m : Memory) (w : Nat → Word) (bs t : List Byte) (ps : List Piece) (fmt : Int) (k : Nat)
      (out : Buffer), IsStr m fmt bs → Scans bs ps → Text alignedPair m w k ps t →
        StopsAtEnd m w out fmt k bs.length := fun h =>
  not_stopsAtEnd_of_lone .nil isStr_percent (.nil 2) ⟨localArray, []⟩
    (h _ (fun _ => 0) _ [] [] 64 2 _ isStr_percent (Or.inr ⟨[], rfl, .nil⟩) (.nil 2))

/-! ## The buffer of `printf` -/

/-- What is put out is the start of the array. -/
theorem returns_putch (out : Memory) {num : Int} (hnum : num < 2 ^ 31) (console : List Byte) :
    Returns (loop (printfRound out num) (0, console)) (console ++ slice out 0 num.toNat) := by
  have hstart : ((0 : Int), console) = (((0 : Nat) : Int), console ++ slice out 0 0) := by
    rw [slice_zero, List.append_nil]
    rfl
  rw [hstart]
  refine Returns.loop_states (n := num.toNat) (fun i => ((i : Int), console ++ slice out 0 i))
    (fun i hi => ?_) ?_
  · rw [printfRound, if_pos (by omega), slice_succ, ← List.append_assoc, Int.zero_add]
    exact (returns_int (by omega) (by omega)).bind (returns_pure _)
  · rw [printfRound, if_neg (by omega)]
    exact returns_pure _

/-- `printf` returns; it puts out as much of its array as the result says. -/
theorem returns_printf {m : Memory} {w : Nat → Word} {bs t : List Byte} {ps : List Piece} {fmt : Int}
    (hR : Reads bs ps) (hstr : IsStr m fmt bs) (hT : Text alignedPair m w 1 ps t) (console : List Byte) :
    ∃ v, Returns (printf m w fmt console)
        (v, console ++ slice v.out.bytes 0 (toInt32 t.length).toNat, toInt32 t.length) ∧
      Done ⟨localArray, []⟩ fmt bs t v := by
  obtain ⟨v, hv, hdone⟩ := returns_vsprintf hR hstr hT ⟨localArray, []⟩
  exact ⟨v, hv.bind ((returns_putch v.out.bytes (toInt32_lt _) console).bind (returns_pure _)), hdone⟩

/-- `printf` returns, writes no index outside its array of 1024 bytes, and puts out the text. -/
def PrintfSafe (m : Memory) (w : Nat → Word) (fmt : Int) (console t : List Byte) : Prop :=
  ∃ v console' r, Returns (printf m w fmt console) (v, console', r) ∧
    (∀ i ∈ v.out.written, 0 ≤ i ∧ i < bufSize) ∧ console' = console ++ t

/-- When the words that the code takes have the text `t'`, it stays in the array if that is shorter, and
then puts out `t'`. -/
theorem printfSafe_iff_of_text {m : Memory} {w : Nat → Word} {bs t t' : List Byte} {ps : List Piece}
    {fmt : Int} (hR : Reads bs ps) (hstr : IsStr m fmt bs) (hT : Text alignedPair m w 1 ps t')
    (console : List Byte) : PrintfSafe m w fmt console t ↔ t'.length < bufSize ∧ t' = t := by
  obtain ⟨v, hv, hdone⟩ := returns_printf hR hstr hT console
  have hout : t'.length < bufSize → slice v.out.bytes 0 (toInt32 t'.length).toNat = t' := by
    intro hlt
    have hint : (t'.length : Int) < 2 ^ 31 := Int.lt_trans hlt (by decide)
    rw [toInt32_of_lt (by omega) hint, Int.toNat_natCast]
    exact (at_append_iff.mp (hdone.formatted (by omega)).text).1.slice_eq
  constructor
  · rintro ⟨v', console', r, hr, hbound, hconsole⟩
    obtain ⟨rfl, hrest⟩ := Prod.mk.inj (hr.unique hv)
    have hlt : t'.length < bufSize := by
      by_contra hge
      obtain ⟨x, hx, hxn⟩ := hdone.beyond bufSize (by decide) (by decide) (Int.not_lt.mp hge)
      have := hbound x hx
      omega
    rw [← (Prod.mk.inj hrest).1.symm.trans hconsole |> List.append_cancel_left, hout hlt]
    exact ⟨hlt, rfl⟩
  · rintro ⟨hlt, rfl⟩
    have hint : (t'.length : Int) < 2 ^ 31 := Int.lt_trans hlt (by decide)
    refine ⟨v, _, _, hv, fun i hi => ?_, by rw [hout hlt]⟩
    obtain ⟨l, hl, -, hlb⟩ := (hdone.formatted (by omega)).written
    have hrange := hlb i (by rwa [hl, List.nil_append] at hi)
    omega

theorem reads_chars {bs : List Byte} (h : ∀ b ∈ bs, b ≠ chr '%') : Reads bs (bs.map .char) := by
  induction bs with
  | nil => exact .nil
  | cons b bs ih =>
      obtain ⟨hb, hbs⟩ := List.forall_mem_cons.mp h
      exact .char hb (ih hbs)

theorem text_chars (uArg : Nat → Nat × Nat) (m : Memory) (w : Nat → Word) (k : Nat) (bs : List Byte) :
    Text uArg m w k (bs.map .char) bs := by
  induction bs with
  | nil => exact .nil k
  | cons b bs ih => exact .cons (.char k b) ih

/-- A format of `n` ordinary characters. -/
def plain (n : Nat) : List Byte := List.replicate n (chr 'x')

/-- It is at 64. -/
def plainMemory (n : Nat) : Memory := place (fun _ => 0) 64 (plain n ++ [0])

theorem isStr_plain (n : Nat) : IsStr (plainMemory n) 64 (plain n) :=
  isStr_place _ _ fun b hb => by
    rw [List.eq_of_mem_replicate hb]
    decide

theorem reads_plain (n : Nat) : Reads (plain n) ((plain n).map .char) :=
  reads_chars fun b hb => by
    rw [List.eq_of_mem_replicate hb]
    decide

/-- For arguments passed by the calling convention, and a format without a lone `%` at its end, `printf`
stays in its array and puts out the text exactly when the text is shorter than the array and the words
that the code takes have that text. They have it when the format has no `%u`, or a single one that takes
the last argument from a word with an even number. -/
theorem printf_safe_iff {m : Memory} {w : Nat → Word} {bs t : List Byte} {ps : List Piece} {fmt : Int}
    (hR : Reads bs ps) (hstr : IsStr m fmt bs) (hT : Text oneWord m w 1 ps t) (console : List Byte) :
    (PrintfSafe m w fmt console t ↔ t.length < bufSize ∧ Text alignedPair m w 1 ps t) ∧
      (UnsignedFits 1 ps → (PrintfSafe m w fmt console t ↔ t.length < bufSize)) := by
  refine ⟨⟨fun hsafe => ?_, fun ⟨hlt, hT'⟩ => ?_⟩, fun hfits => ?_⟩
  · obtain ⟨v, console', r, hr, -⟩ := id hsafe
    obtain ⟨x, hx, -⟩ := returns_bind_iff.mp hr
    obtain ⟨t', hT'⟩ := exists_text_of_returns_vsprintf hR hstr hx
    obtain ⟨hlt, rfl⟩ := (printfSafe_iff_of_text hR hstr hT' console).mp hsafe
    exact ⟨hlt, hT'⟩
  · exact (printfSafe_iff_of_text hR hstr hT' console).mpr ⟨hlt, rfl⟩
  · rw [printfSafe_iff_of_text hR hstr (text_aligned_of_fits hfits hT) console, and_iff_left rfl]

/-- A format of three characters. -/
theorem printf_safe_iff_three :
    (PrintfSafe (plainMemory 3) (fun _ => 0) 64 [] (plain 3) ↔
      (plain 3).length < bufSize ∧
        Text alignedPair (plainMemory 3) (fun _ => 0) 1 ((plain 3).map .char) (plain 3)) ∧
      (UnsignedFits 1 ((plain 3).map .char) →
        (PrintfSafe (plainMemory 3) (fun _ => 0) 64 [] (plain 3) ↔ (plain 3).length < bufSize)) :=
  printf_safe_iff (reads_plain 3) (isStr_plain 3) (text_chars _ _ _ 1 _) []

/-- A format of 1024 characters: the `NUL` is written at index 1024. -/
theorem printf_not_safe :
    ¬∀ (m : Memory) (w : Nat → Word) (bs t : List Byte) (ps : List Piece) (fmt : Int)
      (console : List Byte), Reads bs ps → IsStr m fmt bs → Text oneWord m w 1 ps t →
        PrintfSafe m w fmt console t := by
  intro h
  have hR := reads_plain 1024
  have hstr := isStr_plain 1024
  have hsafe := h _ (fun _ => 0) _ _ _ 64 [] hR hstr (text_chars _ _ _ 1 _)
  rw [printfSafe_iff_of_text hR hstr (text_chars _ _ _ 1 _) [], plain, List.length_replicate] at hsafe
  exact absurd hsafe.1 (by decide)

end MyCpu.Klib
