import Mathlib.Data.List.Induction
import MyCpu.Ring.Buffer
import MyCpu.Rv32.Memory

/-!
# Instruction traces

`simulator/src/trace/instr_trace.c`: the pool of the last instructions, and the patterns that select
the instructions of the special trace. `disassemble` is another file's and is a parameter; `printf`
is what it prints, a line at a time.

* `Itrace`, `instrItrace`, `instrItraceDisplay` : the pool, one more instruction, and what is shown;
* `holds_record` : the pool is a ring that has been given the whole history;
* `display_record` : the display lists the last 30, oldest first, and marks the last;
* `parsePattern`, `instrSpecialTrace` : a pattern's key and mask, and the patterns in use;
* `parsePattern_matches_iff` : a word matches when its bits are those of the pattern.
-/

namespace MyCpu.Simulator

open Rv32 (Word)
open MyCpu.Ring

/-! ## The pool -/

/-- `ITRACE_POOL_SIZE`. -/
abbrev itracePoolSize : Nat := 30

structure TraceEntry where
  pc : Word
  instr : Word
  deriving DecidableEq, Repr

/-- `itrace_pool`, `itrace_ptr`, `pool_full`. -/
structure Itrace where
  pool : Fin itracePoolSize → TraceEntry
  ptr : Fin itracePoolSize
  full : Bool

/-- Static storage: everything is zero. -/
def Itrace.initial : Itrace := ⟨fun _ => ⟨0#32, 0#32⟩, Fin.ofNat _ 0, false⟩

def instrItrace (t : Itrace) (pc instr : Word) : Itrace :=
  let pool := Function.update t.pool t.ptr ⟨pc, instr⟩
  let ptr := Fin.ofNat itracePoolSize (t.ptr + 1)
  ⟨pool, ptr, if ptr = Fin.ofNat _ 0 then true else t.full⟩

/-- The lines that are printed. -/
inductive Line where
  | header (total : Nat) (simInstrCount : BitVec 64)
  | entry (currentFlag : Char) (pc instr : Word) (instStr : String)
  | noInstructions
  | endOfTrace
  | special (instrCount : BitVec 64) (pc instr : Word) (instStr : String)
  deriving DecidableEq, Repr

section Display

variable (disassemble : Word → Word → String)

/-- The loop of `instr_itrace_display`, with the rounds that are left. -/
def displayFrom (t : Itrace) (i : Fin itracePoolSize) : Nat → List Line
  | 0 => []
  | count + 1 =>
      let e := t.pool i
      let lastIdx := Fin.ofNat itracePoolSize (t.ptr + itracePoolSize - 1)
      let currentFlag := if i = lastIdx then '>' else ' '
      Line.entry currentFlag e.pc e.instr (disassemble e.pc e.instr) ::
        displayFrom t (Fin.ofNat itracePoolSize (i + 1)) count

def instrItraceDisplay (simInstrCount : BitVec 64) (t : Itrace) : List Line :=
  let total := if t.full then itracePoolSize else t.ptr
  let i := if t.full then t.ptr else Fin.ofNat _ 0
  [Line.header total simInstrCount] ++ displayFrom disassemble t i total ++
    (if total = 0 then [Line.noInstructions] else []) ++ [Line.endOfTrace]

/-- The pool after a history of calls. -/
def record (h : List TraceEntry) : Itrace :=
  h.foldl (fun t e => instrItrace t e.pc e.instr) Itrace.initial

/-- The lines of a list of instructions of which the last is the current one. -/
def entryLines (es : List TraceEntry) : List Line :=
  es.mapIdx fun j e =>
    Line.entry (if j + 1 = es.length then '>' else ' ') e.pc e.instr (disassemble e.pc e.instr)

theorem record_concat (h : List TraceEntry) (e : TraceEntry) :
    record (h ++ [e]) = instrItrace (record h) e.pc e.instr := List.foldl_append

theorem instrItrace_full (t : Itrace) (pc instr : Word) :
    (instrItrace t pc instr).full =
      (decide ((Fin.ofNat itracePoolSize (t.ptr + 1)) = Fin.ofNat itracePoolSize 0) || t.full) := by
  change (if _ then true else t.full) = _
  split_ifs with h
  · rw [decide_eq_true h, Bool.true_or]
  · rw [decide_eq_false h, Bool.false_or]

/-- The pool is a ring. -/
theorem holds_record (h : List TraceEntry) :
    Holds (record h).pool (record h).ptr (record h).full h := by
  induction h using List.reverseRecOn with
  | nil => exact holds_nil _
  | append_singleton h e ih =>
      rw [record_concat, instrItrace_full]
      exact ih.push e

theorem displayFrom_eq (t : Itrace) (i : Fin itracePoolSize) (count : Nat) :
    displayFrom disassemble t i count = (slotsFrom i count).map fun i =>
      Line.entry (if i = Fin.ofNat itracePoolSize (t.ptr + itracePoolSize - 1) then '>' else ' ')
        (t.pool i).pc (t.pool i).instr (disassemble (t.pool i).pc (t.pool i).instr) := by
  induction count generalizing i with
  | zero => rfl
  | succ count ih => exact congrArg _ (ih _)

/-- From the oldest slot on, the loop prints the last instructions. -/
theorem displayFrom_record (h : List TraceEntry) :
    displayFrom disassemble (record h) (Fin.ofNat _ (h.length - itracePoolSize))
        (latest itracePoolSize h).length =
      entryLines disassemble (latest itracePoolSize h) := by
  have H := holds_record h
  unfold entryLines
  rw [displayFrom_eq, slotsFrom_ofNat, List.map_map]
  refine List.ext_getElem (by simp) fun j hj _ => ?_
  have hj' : j < (latest itracePoolSize h).length := by simpa using hj
  rw [List.getElem_map, List.getElem_range, List.getElem_mapIdx, Function.comp_apply, H.latest_eq hj']
  simp only [H.last_slot_iff hj']

/-- Whatever has been recorded, the display lists the last 30 instructions, or as many as there are,
oldest first, and marks the last one. -/
theorem display_record (simInstrCount : BitVec 64) (h : List TraceEntry) :
    instrItraceDisplay disassemble simInstrCount (record h) =
      [Line.header (min h.length 30) simInstrCount] ++
        entryLines disassemble (h.drop (h.length - min h.length 30)) ++
        (if h = [] then [Line.noInstructions] else []) ++ [Line.endOfTrace] := by
  have H := holds_record h
  have hcount : min h.length itracePoolSize = (latest itracePoolSize h).length :=
    (length_latest itracePoolSize h).symm
  have hdrop : h.length - min h.length 30 = h.length - 30 := by omega
  have hnone : min h.length 30 = 0 ↔ h = [] := by
    rw [← List.length_eq_zero_iff]
    omega
  unfold instrItraceDisplay
  simp only [H.count_eq, H.first_eq, hnone]
  rw [hcount, displayFrom_record, length_latest, hdrop]
  rfl

end Display

/-! ## Patterns -/

/-- The loop of `parse_pattern`, on the characters that are left before the `NUL`. -/
def parseFrom (key mask : Word) : List Char → Word × Word
  | [] => (key, mask)
  | c :: p =>
      if c = ' ' ∨ c = '_' then parseFrom key mask p
      else
        let key := key <<< 1
        let mask := mask <<< 1
        if c = '1' then parseFrom (key ||| 1#32) (mask ||| 1#32) p
        else if c = '0' then parseFrom key (mask ||| 1#32) p
        else parseFrom key mask p

/-- `key` and `mask`. -/
def parsePattern (p : List Char) : Word × Word := parseFrom 0#32 0#32 p

/-- The test of `INSTPAT`. -/
def instpat (p : List Char) (instr : Word) : Bool :=
  instr &&& (parsePattern p).2 = (parsePattern p).1

/-- `wfi`. -/
def wfi : List Char := "0001000 00101 00000 000 00000 11100 11".toList

/-- `sfence_vma`. -/
def sfenceVma : List Char := "0001001 ????? ????? 000 00000 11100 11".toList

/-- `csrrw`. -/
def csrrw : List Char := "??????? ????? ????? 001 ????? 11100 11".toList

/-- `csrrs`. -/
def csrrs : List Char := "??????? ????? ????? 010 ????? 11100 11".toList

/-- `csrrw_satp`. -/
def csrrwSatp : List Char := "000110000000 ????? 001 ????? 1110011".toList

/-- `csrrs_satp`. -/
def csrrsSatp : List Char := "000110000000 ????? 010 ????? 1110011".toList

/-- The patterns of `instr_special_trace`, in the order in which they are tried. -/
def specialPatterns : List (List Char) := [wfi, sfenceVma, csrrw, csrrs, csrrwSatp, csrrsSatp]

/-- The first pattern that matches has the instruction logged and ends the call. -/
def instrSpecialTrace (disassemble : Word → Word → String) (pc instr : Word)
    (instrCount : BitVec 64) : List Line :=
  match specialPatterns.find? fun p => instpat p instr with
  | some _ => [Line.special instrCount pc instr (disassemble pc instr)]
  | none => []

/-- The characters that stand for a bit. -/
def significant (p : List Char) : List Char := p.filter fun c => !(c = ' ' || c = '_')

/-- `0` or `1`. -/
def bitChar (b : Bool) : Char := if b then '1' else '0'

/-- What `key` and `mask` are after the significant characters `s`: bit `i` is about the character
`i` places before the end. -/
structure Parsed (key mask : Word) (s : List Char) : Prop where
  key_eq : ∀ i < 32, key.getLsbD i = decide (s.reverse[i]? = some '1')
  mask_eq : ∀ i < 32, mask.getLsbD i = decide (s.reverse[i]? = some '1' ∨ s.reverse[i]? = some '0')

theorem parsed_nil : Parsed 0#32 0#32 [] := ⟨fun _ _ => by simp, fun _ _ => by simp⟩

/-- A shift makes room for one more bit. -/
theorem getLsbD_shift_or (w : Word) (b : Bool) {i : Nat} (hi : i < 32) :
    (w <<< 1 ||| BitVec.setWidth 32 (BitVec.ofBool b)).getLsbD i =
      if i = 0 then b else w.getLsbD (i - 1) := by
  rcases Nat.eq_zero_or_pos i with rfl | hpos
  · cases b <;> simp
  · have hne : i ≠ 0 := Nat.ne_of_gt hpos
    have h1 : ¬i < 1 := Nat.not_lt.mpr hpos
    have hlt : i - 1 < 32 := Nat.lt_of_le_of_lt (Nat.sub_le i 1) hi
    cases b <;> simp [hne, h1, hi, BitVec.getLsbD_eq_getElem hlt]

theorem Parsed.push {key mask : Word} {s : List Char} (H : Parsed key mask s) (c : Char) :
    Parsed (key <<< 1 ||| BitVec.setWidth 32 (BitVec.ofBool (c = '1')))
      (mask <<< 1 ||| BitVec.setWidth 32 (BitVec.ofBool (c = '1' ∨ c = '0'))) (s ++ [c]) := by
  constructor <;> intro i hi <;> rw [getLsbD_shift_or _ _ hi, List.reverse_concat]
  · cases i with
    | zero => simp
    | succ i => simpa using H.key_eq i (Nat.lt_of_succ_lt hi)
  · cases i with
    | zero => simp
    | succ i => simpa using H.mask_eq i (Nat.lt_of_succ_lt hi)

theorem parseFrom_cons {c : Char} (hc : ¬(c = ' ' ∨ c = '_')) (key mask : Word) (p : List Char) :
    parseFrom key mask (c :: p) =
      parseFrom (key <<< 1 ||| BitVec.setWidth 32 (BitVec.ofBool (c = '1')))
        (mask <<< 1 ||| BitVec.setWidth 32 (BitVec.ofBool (c = '1' ∨ c = '0'))) p := by
  rw [parseFrom, if_neg hc]
  by_cases h1 : c = '1'
  · simp [h1]
  · by_cases h0 : c = '0'
    · simp [h0]
    · simp [h1, h0]

theorem parsed_parseFrom {key mask : Word} {s : List Char} (H : Parsed key mask s) (p : List Char) :
    Parsed (parseFrom key mask p).1 (parseFrom key mask p).2 (s ++ significant p) := by
  induction p generalizing key mask s with
  | nil => simpa [parseFrom, significant] using H
  | cons c p ih =>
      by_cases hc : c = ' ' ∨ c = '_'
      · have hskip : significant (c :: p) = significant p := by
          rcases hc with rfl | rfl <;> rfl
        rw [parseFrom, if_pos hc, hskip]
        exact ih H
      · have htake : significant (c :: p) = c :: significant p := by
          obtain ⟨hs, hu⟩ := not_or.mp hc
          simp [significant, hs, hu]
        rw [parseFrom_cons hc, htake, List.append_cons]
        exact ih (H.push c)

/-- The key and the mask of a pattern. -/
theorem parsed_parsePattern (p : List Char) :
    Parsed (parsePattern p).1 (parsePattern p).2 (significant p) := parsed_parseFrom parsed_nil p

theorem Parsed.matches_iff {key mask : Word} {s : List Char} (H : Parsed key mask s) (w : Word) :
    w &&& mask = key ↔ ∀ i < 32, ∀ b, s.reverse[i]? = some (bitChar b) → w.getLsbD i = b := by
  constructor
  · rintro rfl i hi b hb
    have hkey := H.key_eq i hi
    rw [BitVec.getLsbD_and, H.mask_eq i hi, hb] at hkey
    cases b <;> simpa [bitChar] using hkey
  · intro h
    refine BitVec.eq_of_getLsbD_eq fun i hi => ?_
    rw [BitVec.getLsbD_and, H.mask_eq i hi, H.key_eq i hi]
    by_cases h1 : s.reverse[i]? = some '1'
    · simp [h1, h i hi true h1]
    · by_cases h0 : s.reverse[i]? = some '0'
      · simp [h0, h i hi false h0]
      · simp [h1, h0]

/-- The same, with the characters counted from the left. -/
theorem Parsed.matches_left_iff {key mask : Word} {s : List Char} (H : Parsed key mask s)
    (hs : s.length ≤ 32) (w : Word) :
    w &&& mask = key ↔ ∀ j b, s[j]? = some (bitChar b) → w.getLsbD (s.length - 1 - j) = b := by
  rw [H.matches_iff w]
  constructor
  · intro h j b hj
    have hlt : j < s.length := (List.getElem?_eq_some_iff.mp hj).1
    refine h _ (by omega) b ?_
    rw [List.getElem?_reverse (by omega), show _ - 1 - (_ - 1 - j) = j by omega]
    exact hj
  · intro h i _ b hi
    have hlt : i < s.length := List.length_reverse ▸ (List.getElem?_eq_some_iff.mp hi).1
    rw [List.getElem?_reverse hlt] at hi
    have hbit := h _ b hi
    rwa [show _ - 1 - (_ - 1 - i) = i by omega] at hbit

/-- A word matches a pattern of up to 32 significant characters when every `0` and every `1` in it,
counted from the left, is the bit of the word at its place. -/
theorem parsePattern_matches_iff (p : List Char) (hp : (significant p).length ≤ 32) (w : Word) :
    w &&& (parsePattern p).2 = (parsePattern p).1 ↔
      ∀ j b, (significant p)[j]? = some (bitChar b) →
        w.getLsbD ((significant p).length - 1 - j) = b :=
  (parsed_parsePattern p).matches_left_iff hp w

/-- `csrr a0, mhartid` and the pattern of `csrrs`. -/
theorem parsePattern_matches_iff_csrrs :
    (significant csrrs).length ≤ 32 ∧
      (0xf1402573#32 &&& (parsePattern csrrs).2 = (parsePattern csrrs).1 ↔
        ∀ j b, (significant csrrs)[j]? = some (bitChar b) →
          (0xf1402573#32).getLsbD ((significant csrrs).length - 1 - j) = b) :=
  ⟨by decide, parsePattern_matches_iff csrrs (by decide) 0xf1402573#32⟩

/-- Every pattern in use gives all 32 bits. -/
theorem length_specialPatterns : ∀ p ∈ specialPatterns, (significant p).length = 32 := by decide +kernel

/-- An instruction is logged, once, when its bits are those of one of the patterns. -/
theorem instrSpecialTrace_eq_iff (disassemble : Word → Word → String) (pc instr : Word)
    (instrCount : BitVec 64) :
    instrSpecialTrace disassemble pc instr instrCount =
        [Line.special instrCount pc instr (disassemble pc instr)] ↔
      ∃ p ∈ specialPatterns, ∀ j b, (significant p)[j]? = some (bitChar b) →
        instr.getLsbD (31 - j) = b := by
  have hmatch : ∀ p ∈ specialPatterns, (instpat p instr = true ↔
      ∀ j b, (significant p)[j]? = some (bitChar b) → instr.getLsbD (31 - j) = b) := by
    intro p hp
    have hlen := length_specialPatterns p hp
    unfold instpat
    rw [decide_eq_true_iff, (parsed_parsePattern p).matches_left_iff (Nat.le_of_eq hlen), hlen]
  rw [← exists_congr fun p => and_congr_right (hmatch p), ← List.find?_isSome]
  unfold instrSpecialTrace
  cases specialPatterns.find? fun p => instpat p instr <;> simp

end MyCpu.Simulator
