import Mathlib.Tactic.SplitIfs
import MyCpu.Y86.Isa
import MyCpu.Y86.SingleCycle

/-!
# The single-cycle Y86 implements Y86-64

The five modules decode the instruction again and again. `instr` says which instruction the outputs
of `fetch` stand for; the rest follows one clock for each of them.

* `instr_at`, `instr_of_at` : `fetch` finds the instruction that stands at `PC`, and no other;
* `newCc_eq` : the condition codes are the flags of the exact result;
* `step_isa` : one clock of the CPU is one instruction.
-/

namespace MyCpu.Y86.Single

open Isa

/-! ## Bytes -/

theorem byte_eq_nibbles (b : Byte) : b = b.extractLsb' 4 4 ++ b.extractLsb' 0 4 := by
  revert b
  decide

theorem nibbles (a b : BitVec 4) : (a ++ b).extractLsb' 4 4 = a ∧ (a ++ b).extractLsb' 0 4 = b := by
  revert a b
  decide

theorem extract_hi {n : Nat} (b : Byte) (lo : BitVec n) : (b ++ lo).extractLsb' n 8 = b := by
  rw [BitVec.extractLsb'_append_eq_of_le (Nat.le_refl n), Nat.sub_self]
  exact BitVec.extractLsb'_eq_self

theorem extract_lo {n k : Nat} (b : Byte) (lo : BitVec n) (h : k + 8 ≤ n) :
    (b ++ lo).extractLsb' k 8 = lo.extractLsb' k 8 := BitVec.extractLsb'_append_eq_of_add_le h

theorem wordBytes_append (b0 b1 b2 b3 b4 b5 b6 b7 : Byte) :
    wordBytes (b7 ++ (b6 ++ (b5 ++ (b4 ++ (b3 ++ (b2 ++ (b1 ++ b0))))))) =
      [b0, b1, b2, b3, b4, b5, b6, b7] := by
  unfold wordBytes
  simp only [List.range_succ, List.range_zero, List.nil_append, List.cons_append, List.map_cons,
    List.map_nil, Nat.mul_zero, Nat.mul_one, Nat.reduceMul, List.cons.injEq, and_true]
  -- byte by byte, dropping the bytes above it
  refine ⟨?_, ?_, ?_, ?_, ?_, ?_, ?_, ?_⟩ <;>
    (repeat rw [extract_lo _ _ (by decide)]) <;>
    first
      | exact extract_hi _ _
      | exact BitVec.extractLsb'_eq_self

theorem wordBytes_word (imem : IMem) (a : Word) : wordBytes (imem.word a) = bytesAt imem a 8 := by
  unfold IMem.word
  rw [wordBytes_append]
  simp [bytesAt, BitVec.add_assoc]

theorem wordBytes_injective {v w : Word} (h : wordBytes v = wordBytes w) : v = w := by
  have hb : ∀ k < 8, v.extractLsb' (8 * k) 8 = w.extractLsb' (8 * k) 8 := by
    intro k hk
    exact List.map_inj_left.mp h k (List.mem_range.mpr hk)
  apply BitVec.eq_of_getLsbD_eq
  intro i hi
  have hi' := congrArg (fun b => b.getLsbD (i % 8)) (hb (i / 8) (by omega))
  simp only [BitVec.getLsbD_extractLsb'] at hi'
  rw [show 8 * (i / 8) + i % 8 = i by omega, decide_eq_true (show i % 8 < 8 by omega)] at hi'
  rwa [Bool.true_and, Bool.true_and] at hi'

/-! ## Instructions -/

/-- The instruction the outputs of `fetch` stand for, when there is one. -/
def FetchOut.instr (f : FetchOut) : Instr :=
  if f.icode = icRrmovl then .rrmovq f.rA f.rB
  else if f.icode = icIrmovl then .irmovq f.rA f.rB f.valC
  else if f.icode = icRmmovl then .rmmovq f.rA f.rB f.valC
  else if f.icode = icMrmovl then .mrmovq f.rA f.rB f.valC
  else if f.icode = icAlu then
    .opq (if f.ifun = 0x0#4 then .addq else if f.ifun = 0x1#4 then .subq
      else if f.ifun = 0x2#4 then .andq else .xorq) f.rA f.rB
  else if f.icode = icJxx then .jmp f.valC
  else if f.icode = icCall then .call f.valC
  else if f.icode = icRet then .ret
  else if f.icode = icPushl then .pushq f.rA f.rB
  else if f.icode = icPopl then .popq f.rA f.rB
  else .nop

/-- The number of bytes `fetch` counts for the instruction. -/
def instrLength (icode : BitVec 4) : Nat :=
  1 + (if needRegids icode then 1 else 0) + (if needValC icode then 8 else 0)

/-- The codes of the instructions that go on unconditionally. -/
def Unconditional (icode ifun : BitVec 4) : Prop :=
  (ifun = 0x0#4 ∧ (icode = icNop ∨ icode = icRrmovl ∨ icode = icIrmovl ∨ icode = icRmmovl ∨
      icode = icMrmovl ∨ icode = icJxx ∨ icode = icCall ∨ icode = icRet ∨ icode = icPushl ∨
      icode = icPopl)) ∨
    (icode = icAlu ∧ (ifun = 0x0#4 ∨ ifun = 0x1#4 ∨ ifun = 0x2#4 ∨ ifun = 0x3#4))

theorem unconditional_of_valid {icode ifun : BitVec 4} (hvalid : instrValid icode ifun = true)
    (hhalt : icode ≠ icHalt) (hcond : ¬((icode = icRrmovl ∨ icode = icJxx) ∧ ifun ≠ 0x0#4)) :
    Unconditional icode ifun := by
  unfold Unconditional
  revert icode ifun
  decide

/-- The bytes `fetch` takes its outputs from. -/
theorem bytesAt_fetch (imem : IMem) (pc : Word) :
    bytesAt imem pc (instrLength (fetch imem pc).icode) =
      ((fetch imem pc).icode ++ (fetch imem pc).ifun) ::
        ((if needRegids (fetch imem pc).icode then [(fetch imem pc).rA ++ (fetch imem pc).rB] else []) ++
          if needValC (fetch imem pc).icode then wordBytes (fetch imem pc).valC else []) := by
  have hpc : pc + 2#64 = pc + 1#64 + 1#64 := by rw [BitVec.add_assoc]; rfl
  have hicode : (fetch imem pc).icode = (imem pc).extractLsb' 4 4 := rfl
  have hifun : (fetch imem pc).ifun = (imem pc).extractLsb' 0 4 := rfl
  rw [hifun, hicode]
  unfold instrLength fetch
  dsimp only
  cases hr : needRegids ((imem pc).extractLsb' 4 4) <;> cases hc : needValC ((imem pc).extractLsb' 4 4)
  · simp only [Bool.false_eq_true, if_false, Nat.add_zero, bytesAt, List.append_nil, ← byte_eq_nibbles]
  · simp only [if_true, Bool.false_eq_true, if_false, ← byte_eq_nibbles, wordBytes_word, List.nil_append]
    rfl
  · simp only [if_true, Bool.false_eq_true, if_false, ← byte_eq_nibbles, List.append_nil]
    rfl
  · simp only [if_true, ← byte_eq_nibbles, wordBytes_word, hpc]
    rfl

/-- The instruction is encoded by the outputs of `fetch` that it is read from. -/
theorem encode_instr {f : FetchOut} (hcode : Unconditional f.icode f.ifun) :
    f.instr.encode = (f.icode ++ f.ifun) ::
      ((if needRegids f.icode then [f.rA ++ f.rB] else []) ++
        if needValC f.icode then wordBytes f.valC else []) := by
  obtain ⟨icode, ifun, rA, rB, valC, valP, instrValid, imemError⟩ := f
  dsimp only at hcode ⊢
  rcases hcode with ⟨rfl, rfl | rfl | rfl | rfl | rfl | rfl | rfl | rfl | rfl | rfl⟩ |
    ⟨rfl, rfl | rfl | rfl | rfl⟩ <;> rfl

theorem length_encode_instr {f : FetchOut} (hcode : Unconditional f.icode f.ifun) :
    f.instr.encode.length = instrLength f.icode := by
  rw [encode_instr hcode]
  unfold instrLength
  split_ifs <;> rfl

/-- `fetch` finds an instruction that stands at `PC`. -/
theorem instr_at {imem : IMem} {pc : Word}
    (hcode : Unconditional (fetch imem pc).icode (fetch imem pc).ifun)
    (hin : pc.toNat + instrLength (fetch imem pc).icode ≤ 1024) :
    (fetch imem pc).instr.At imem pc := by
  unfold Instr.At
  rw [length_encode_instr hcode]
  exact ⟨hin, (bytesAt_fetch imem pc).trans (encode_instr hcode).symm⟩

theorem append_inj {a b c d : BitVec 4} (h : a ++ b = c ++ d) : a = c ∧ b = d := by
  obtain ⟨ha, hb⟩ := nibbles a b
  rw [h] at ha hb
  obtain ⟨hc, hd⟩ := nibbles c d
  exact ⟨ha.symm.trans hc, hb.symm.trans hd⟩

theorem bytesAt_instrLength (imem : IMem) (pc : Word) (icode : BitVec 4) :
    bytesAt imem pc (instrLength icode) = imem pc :: bytesAt imem (pc + 1#64) (instrLength icode - 1) := by
  have h : instrLength icode = instrLength icode - 1 + 1 := by
    unfold instrLength
    omega
  rw [h]
  rfl

/-- What `fetch` makes of the bytes it finds. -/
theorem fetch_of_bytes {imem : IMem} {pc : Word} (icode ifun rA rB : BitVec 4) (v : Word)
    (h : bytesAt imem pc (instrLength icode) = (icode ++ ifun) ::
      ((if needRegids icode then [rA ++ rB] else []) ++ if needValC icode then wordBytes v else [])) :
    (fetch imem pc).icode = icode ∧ (fetch imem pc).ifun = ifun ∧
      (needRegids icode = true → (fetch imem pc).rA = rA ∧ (fetch imem pc).rB = rB) ∧
      (needValC icode = true → (fetch imem pc).valC = v) := by
  have h0 : imem pc = icode ++ ifun := by
    rw [bytesAt_instrLength] at h
    exact (List.cons.inj h).1
  have hic : (fetch imem pc).icode = icode := by
    show (imem pc).extractLsb' 4 4 = icode
    rw [h0]
    exact (nibbles icode ifun).1
  have hif : (fetch imem pc).ifun = ifun := by
    show (imem pc).extractLsb' 0 4 = ifun
    rw [h0]
    exact (nibbles icode ifun).2
  have hbytes := bytesAt_fetch imem pc
  rw [hic, hif, h] at hbytes
  have htail := (List.cons.inj hbytes).2
  refine ⟨hic, hif, ?_, ?_⟩
  · intro hr
    rw [hr, if_pos rfl, if_pos rfl] at htail
    obtain ⟨hA, hB⟩ := append_inj (List.cons.inj htail).1
    exact ⟨hA.symm, hB.symm⟩
  · intro hc
    rw [hc, if_pos rfl, if_pos rfl] at htail
    have hregs : (if needRegids icode then [rA ++ rB] else []).length =
        (if needRegids icode then [(fetch imem pc).rA ++ (fetch imem pc).rB] else []).length := by
      split_ifs <;> rfl
    exact (wordBytes_injective (List.append_inj htail hregs).2).symm

/-- `fetch` finds no other instruction than the one that stands at `PC`. -/
theorem instr_of_at {imem : IMem} {pc : Word} {i : Instr} (h : i.At imem pc) :
    (fetch imem pc).instr = i := by
  obtain ⟨-, h⟩ := h
  unfold FetchOut.instr
  cases i with
  | nop =>
      obtain ⟨hic, -⟩ := fetch_of_bytes icNop 0x0#4 noReg noReg 0#64 h
      rw [hic]
      rfl
  | rrmovq rA rB =>
      obtain ⟨hic, -, hr, -⟩ := fetch_of_bytes icRrmovl 0x0#4 rA rB 0#64 h
      rw [hic, (hr rfl).1, (hr rfl).2]
      rfl
  | irmovq rA rB v =>
      obtain ⟨hic, -, hr, hc⟩ := fetch_of_bytes icIrmovl 0x0#4 rA rB v h
      rw [hic, (hr rfl).1, (hr rfl).2, hc rfl]
      rfl
  | rmmovq rA rB v =>
      obtain ⟨hic, -, hr, hc⟩ := fetch_of_bytes icRmmovl 0x0#4 rA rB v h
      rw [hic, (hr rfl).1, (hr rfl).2, hc rfl]
      rfl
  | mrmovq rA rB v =>
      obtain ⟨hic, -, hr, hc⟩ := fetch_of_bytes icMrmovl 0x0#4 rA rB v h
      rw [hic, (hr rfl).1, (hr rfl).2, hc rfl]
      rfl
  | opq op rA rB =>
      obtain ⟨hic, hif, hr, -⟩ := fetch_of_bytes icAlu op.ifun rA rB 0#64 h
      rw [hic, hif, (hr rfl).1, (hr rfl).2]
      cases op <;> rfl
  | jmp dest =>
      obtain ⟨hic, -, -, hc⟩ := fetch_of_bytes icJxx 0x0#4 noReg noReg dest h
      rw [hic, hc rfl]
      rfl
  | call dest =>
      obtain ⟨hic, -, -, hc⟩ := fetch_of_bytes icCall 0x0#4 noReg noReg dest h
      rw [hic, hc rfl]
      rfl
  | ret =>
      obtain ⟨hic, -⟩ := fetch_of_bytes icRet 0x0#4 noReg noReg 0#64 h
      rw [hic]
      rfl
  | pushq rA rB =>
      obtain ⟨hic, -, hr, -⟩ := fetch_of_bytes icPushl 0x0#4 rA rB 0#64 h
      rw [hic, (hr rfl).1, (hr rfl).2]
      rfl
  | popq rA rB =>
      obtain ⟨hic, -, hr, -⟩ := fetch_of_bytes icPopl 0x0#4 rA rB 0#64 h
      rw [hic, (hr rfl).1, (hr rfl).2]
      rfl

/-! ## Condition codes -/

/-- The sign bit, and the signed value by the unsigned one. -/
theorem toInt_cases (x : Word) : (x.getLsbD 63 = true ↔ x.toInt < 0) ∧
    (x.toInt < 0 ∧ x.toInt = x.toNat - 18446744073709551616 ∨ 0 ≤ x.toInt ∧ x.toInt = x.toNat) ∧
    x.toInt < 9223372036854775808 ∧ -9223372036854775808 ≤ x.toInt := by
  have hlt := x.isLt
  have hmsb : x.getLsbD 63 = x.msb := (BitVec.msb_eq_getLsbD_last x).symm
  rw [hmsb, BitVec.msb_eq_decide, BitVec.toInt_eq_toNat_cond, decide_eq_true_iff]
  split_ifs with h <;> omega

theorem overflow_add (a b : Word) :
    (!b.getLsbD 63 && !a.getLsbD 63 && (b + a).getLsbD 63 ||
      b.getLsbD 63 && a.getLsbD 63 && !(b + a).getLsbD 63) = AluOp.overflow .addq b a := by
  obtain ⟨ha, ha', ha1, ha2⟩ := toInt_cases a
  obtain ⟨hb, hb', hb1, hb2⟩ := toInt_cases b
  obtain ⟨hc, hc', hc1, hc2⟩ := toInt_cases (b + a)
  have hsum : (b + a).toNat = (b.toNat + a.toNat) % 18446744073709551616 := BitVec.toNat_add b a
  unfold AluOp.overflow
  rw [Bool.eq_iff_iff]
  simp only [Bool.or_eq_true, Bool.and_eq_true, Bool.not_eq_true', ← Bool.not_eq_true, ha, hb, hc,
    decide_eq_true_iff]
  omega

theorem overflow_sub (a b : Word) :
    (!b.getLsbD 63 && a.getLsbD 63 && (b - a).getLsbD 63 ||
      b.getLsbD 63 && !a.getLsbD 63 && !(b - a).getLsbD 63) = AluOp.overflow .subq b a := by
  obtain ⟨ha, ha', ha1, ha2⟩ := toInt_cases a
  obtain ⟨hb, hb', hb1, hb2⟩ := toInt_cases b
  obtain ⟨hc, hc', hc1, hc2⟩ := toInt_cases (b - a)
  have hsum : (b - a).toNat = (18446744073709551616 - a.toNat + b.toNat) % 18446744073709551616 :=
    BitVec.toNat_sub b a
  unfold AluOp.overflow
  rw [Bool.eq_iff_iff]
  simp only [Bool.or_eq_true, Bool.and_eq_true, Bool.not_eq_true', ← Bool.not_eq_true, ha, hb, hc,
    decide_eq_true_iff]
  omega

theorem aluOut_eq (op : AluOp) (a b : Word) : aluOut op.ifun a b = op.eval b a := by
  cases op <;> rfl

/-- The condition codes are the flags of the exact result. -/
theorem newCc_eq (op : AluOp) (a b : Word) : newCc op.ifun a b = op.flags b a := by
  unfold newCc AluOp.flags
  dsimp only
  rw [aluOut_eq, CC.mk.injEq]
  refine ⟨rfl, ?_, ?_⟩
  · rw [Bool.eq_iff_iff, (toInt_cases (op.eval b a)).1, decide_eq_true_iff]
  · cases op with
    | addq => exact overflow_add a b
    | subq => exact overflow_sub a b
    | andq => rfl
    | xorq => rfl

/-! ## One clock -/

/-- The architectural state of the CPU. -/
def State.arch (s : State) : Arch := ⟨s.pc, s.regFile, s.cc, s.dataMem⟩

theorem cell_eq (a : Word) : wordAddr a = cell a := by
  show BitVec.ofNat 8 (a.toNat >>> 3) = BitVec.ofNat 8 (a.toNat / 8)
  rw [Nat.shiftRight_eq_div_pow]

theorem write_eq_set (s : Arch) (r : BitVec 4) (v : Word) :
    RegFile.write s.reg r v = (s.set r v).reg := by
  funext q
  unfold RegFile.write Arch.set
  dsimp only
  by_cases hr : r = noReg
  · rw [if_pos hr, if_neg fun h => h.2 hr]
  · rw [if_neg hr, Function.update_apply]
    exact if_congr (and_iff_left hr).symm rfl rfl

theorem after_eq_store (s : Arch) (a v : Word) :
    DataMem.after s.mem (some (wordAddr a, v)) = (s.store a v).mem := by
  funext c
  unfold Arch.store DataMem.after
  dsimp only
  rw [cell_eq, Function.update_apply]

section

variable {imem : IMem} {s : State}

theorem stat_aok (hstat : s.stat imem = statAok) : (s.fetch imem).instrValid = true ∧
    (s.fetch imem).icode ≠ icHalt ∧ memError (s.memControl imem) = false := by
  unfold State.stat stat at hstat
  split_ifs at hstat with h1 h2 h3 h4
  · exact absurd hstat (by decide)
  · exact absurd hstat (by decide)
  · exact absurd hstat (by decide)
  · exact absurd hstat (by decide)
  · exact ⟨by simpa using h2, h4, eq_false_of_ne_true h3⟩

/-- One clock, wire by wire. -/
theorem arch_step (hstat : s.stat imem = statAok) : (step imem s).arch =
    ⟨pcUpdate statAok (s.fetch imem).icode (s.cnd imem) (s.fetch imem).valC (s.valM imem)
        (s.fetch imem).valP s.pc,
      writeBack (s.fetch imem).icode (dstE (s.fetch imem).icode (s.fetch imem).rB)
        (dstM (s.fetch imem).icode (s.fetch imem).rA) (s.cnd imem) (s.valE imem) (s.valM imem) s.regFile,
      ccReg (s.fetch imem).icode (s.fetch imem).ifun (s.valA imem) (s.valB imem) s.cc,
      s.dataMem.after (memWrite (s.memControl imem))⟩ := by
  rw [← hstat]
  rfl

theorem valA_eq {r : BitVec 4} (h : srcA (s.fetch imem).icode (s.fetch imem).rA = r) :
    s.valA imem = s.arch.get r := by
  subst h
  rfl

theorem valB_eq {r : BitVec 4} (h : srcB (s.fetch imem).icode (s.fetch imem).rB = r) :
    s.valB imem = s.arch.get r := by
  subst h
  rfl

/-- What an instruction that loads gets. -/
theorem valM_of_read {a : Word} (hstat : s.stat imem = statAok)
    (h : s.memControl imem = ⟨true, false, a, 0#64⟩) : s.valM imem = s.arch.load a := by
  obtain ⟨-, -, herr⟩ := stat_aok hstat
  unfold State.valM memRead
  rw [herr, h]
  show s.dataMem (wordAddr a) = _
  rw [cell_eq]
  rfl

/-- What an instruction that stores does to the data memory. -/
theorem after_of_write {a v : Word} (hstat : s.stat imem = statAok)
    (h : s.memControl imem = ⟨false, true, a, v⟩) :
    s.dataMem.after (memWrite (s.memControl imem)) = (s.arch.store a v).mem := by
  obtain ⟨-, -, herr⟩ := stat_aok hstat
  rw [h] at herr ⊢
  have hvalid : addrValid a = true := by simpa [memError] using herr
  rw [← after_eq_store]
  unfold memWrite
  rw [if_pos ⟨rfl, hvalid⟩]
  rfl

/-- `nop` and `jmp`. -/
theorem step_goto {pc : Word} (hstat : s.stat imem = statAok)
    (hic : (s.fetch imem).icode = icNop ∧ (s.fetch imem).valP = pc ∨
      (s.fetch imem).icode = icJxx ∧ s.cnd imem = true ∧ (s.fetch imem).valC = pc) :
    (step imem s).arch = s.arch.goto pc := by
  rw [arch_step hstat]
  unfold State.memControl
  rcases hic with ⟨hic, rfl⟩ | ⟨hic, hcnd, rfl⟩
  · rw [hic]
    rfl
  · rw [hic, hcnd]
    rfl

/-- The instructions that only compute: `rrmovq`, `irmovq`, `OPq`. -/
theorem step_compute {v : Word} (cc : CC) (hstat : s.stat imem = statAok)
    (hic : (s.fetch imem).icode = icRrmovl ∧ s.cnd imem = true ∨ (s.fetch imem).icode = icIrmovl ∨
      (s.fetch imem).icode = icAlu) (hE : s.valE imem = v)
    (hcc : ccReg (s.fetch imem).icode (s.fetch imem).ifun (s.valA imem) (s.valB imem) s.cc = cc) :
    (step imem s).arch =
      { (s.arch.set (s.fetch imem).rB v).goto (s.fetch imem).valP with cc := cc } := by
  have hreg : writeBack (s.fetch imem).icode (dstE (s.fetch imem).icode (s.fetch imem).rB)
      (dstM (s.fetch imem).icode (s.fetch imem).rA) (s.cnd imem) (s.valE imem) (s.valM imem) s.regFile =
        (s.arch.set (s.fetch imem).rB v).reg := by
    rw [← write_eq_set, hE]
    rcases hic with ⟨hic, hcnd⟩ | hic | hic
    · rw [hic, hcnd]
      exact regFile_write_noReg _ _
    · rw [hic]
      exact regFile_write_noReg _ _
    · rw [hic]
      exact regFile_write_noReg _ _
  rw [arch_step hstat, hreg, hcc]
  unfold State.memControl
  rcases hic with ⟨hic, -⟩ | hic | hic <;>
  · rw [hic]
    rfl

/-- `mrmovq`, `ret` and `popq`. -/
theorem step_load {a v : Word} (hstat : s.stat imem = statAok)
    (hic : (s.fetch imem).icode = icMrmovl ∨ (s.fetch imem).icode = icRet ∨
      (s.fetch imem).icode = icPopl)
    (hctl : s.memControl imem = ⟨true, false, a, 0#64⟩) (hE : s.valE imem = v) :
    (step imem s).arch =
      ((s.arch.set (dstE (s.fetch imem).icode (s.fetch imem).rB) v).set
        (dstM (s.fetch imem).icode (s.fetch imem).rA) (s.arch.load a)).goto
          (if (s.fetch imem).icode = icRet then s.arch.load a else (s.fetch imem).valP) := by
  rw [arch_step hstat, valM_of_read hstat hctl, hE, hctl]
  have hreg : writeBack (s.fetch imem).icode (dstE (s.fetch imem).icode (s.fetch imem).rB)
      (dstM (s.fetch imem).icode (s.fetch imem).rA) (s.cnd imem) v (s.arch.load a) s.regFile =
        ((s.arch.set (dstE (s.fetch imem).icode (s.fetch imem).rB) v).set
          (dstM (s.fetch imem).icode (s.fetch imem).rA) (s.arch.load a)).reg := by
    rw [← write_eq_set, ← write_eq_set]
    unfold writeBack
    rw [if_neg]
    · rfl
    · rintro ⟨h, -⟩
      rw [h] at hic
      exact absurd hic (by decide)
  rw [hreg]
  rcases hic with hic | hic | hic <;>
  · rw [hic]
    rfl

/-- `rmmovq`, `call` and `pushq`. -/
theorem step_store {a v w : Word} (hstat : s.stat imem = statAok)
    (hic : (s.fetch imem).icode = icRmmovl ∨ (s.fetch imem).icode = icCall ∨
      (s.fetch imem).icode = icPushl)
    (hctl : s.memControl imem = ⟨false, true, a, v⟩) (hE : s.valE imem = w) :
    (step imem s).arch =
      ((s.arch.set (dstE (s.fetch imem).icode (s.fetch imem).rB) w).store a v).goto
        (if (s.fetch imem).icode = icCall then (s.fetch imem).valC else (s.fetch imem).valP) := by
  rw [arch_step hstat, after_of_write hstat hctl, hE]
  have hreg : writeBack (s.fetch imem).icode (dstE (s.fetch imem).icode (s.fetch imem).rB)
      (dstM (s.fetch imem).icode (s.fetch imem).rA) (s.cnd imem) w (s.valM imem) s.regFile =
        (s.arch.set (dstE (s.fetch imem).icode (s.fetch imem).rB) w).reg := by
    rw [← write_eq_set]
    rcases hic with hic | hic | hic <;>
    · rw [hic]
      exact regFile_write_noReg _ _
  rw [hreg]
  rcases hic with hic | hic | hic <;>
  · rw [hic]
    rfl

theorem set_noReg (s : Arch) (v : Word) : s.set noReg v = s := by
  unfold Arch.set
  simp

theorem valP_eq (imem : IMem) (pc : Word) :
    (fetch imem pc).valP = pc + BitVec.ofNat 64 (instrLength (fetch imem pc).icode) := by
  unfold fetch instrLength
  dsimp only
  split_ifs <;> simp [BitVec.add_assoc]

theorem cnd_of_ifun (hic : (s.fetch imem).icode = icRrmovl ∨ (s.fetch imem).icode = icJxx)
    (hif : (s.fetch imem).ifun = 0x0#4) : s.cnd imem = true := by
  unfold State.cnd
  rw [hif]
  rcases hic with hic | hic <;>
  · rw [hic]
    rfl

theorem step_rrmovq (hstat : s.stat imem = statAok) (hic : (s.fetch imem).icode = icRrmovl)
    (hif : (s.fetch imem).ifun = 0x0#4) : (step imem s).arch =
      (s.arch.set (s.fetch imem).rB (s.arch.get (s.fetch imem).rA)).goto (s.fetch imem).valP := by
  have hA : s.valA imem = s.arch.get (s.fetch imem).rA := valA_eq (by rw [hic]; rfl)
  have hE : s.valE imem = s.arch.get (s.fetch imem).rA := by
    rw [← hA]
    unfold State.valE
    rw [hic]
    rfl
  exact step_compute s.cc hstat (.inl ⟨hic, cnd_of_ifun (.inl hic) hif⟩) hE (by rw [hic]; rfl)

theorem step_irmovq (hstat : s.stat imem = statAok) (hic : (s.fetch imem).icode = icIrmovl) :
    (step imem s).arch =
      (s.arch.set (s.fetch imem).rB (s.fetch imem).valC).goto (s.fetch imem).valP := by
  have hE : s.valE imem = (s.fetch imem).valC := by
    unfold State.valE
    rw [hic]
    rfl
  exact step_compute s.cc hstat (.inr (.inl hic)) hE (by rw [hic]; rfl)

theorem step_opq (op : AluOp) (hstat : s.stat imem = statAok) (hic : (s.fetch imem).icode = icAlu)
    (hif : (s.fetch imem).ifun = op.ifun) : (step imem s).arch =
      { (s.arch.set (s.fetch imem).rB (op.eval (s.arch.get (s.fetch imem).rB)
          (s.arch.get (s.fetch imem).rA))).goto (s.fetch imem).valP with
        cc := op.flags (s.arch.get (s.fetch imem).rB) (s.arch.get (s.fetch imem).rA) } := by
  have hA : s.valA imem = s.arch.get (s.fetch imem).rA := valA_eq (by rw [hic]; rfl)
  have hB : s.valB imem = s.arch.get (s.fetch imem).rB := valB_eq (by rw [hic]; rfl)
  have hE : s.valE imem = op.eval (s.arch.get (s.fetch imem).rB) (s.arch.get (s.fetch imem).rA) := by
    rw [← aluOut_eq, ← hA, ← hB, ← hif]
    unfold State.valE
    rw [hic]
    rfl
  apply step_compute _ hstat (.inr (.inr hic)) hE
  rw [← newCc_eq, ← hA, ← hB, ← hif, hic]
  rfl

theorem step_mrmovq (hstat : s.stat imem = statAok) (hic : (s.fetch imem).icode = icMrmovl) :
    (step imem s).arch = (s.arch.set (s.fetch imem).rA (s.arch.load
      (s.arch.get (s.fetch imem).rB + (s.fetch imem).valC))).goto (s.fetch imem).valP := by
  have hB : s.valB imem = s.arch.get (s.fetch imem).rB := valB_eq (by rw [hic]; rfl)
  have hE : s.valE imem = s.arch.get (s.fetch imem).rB + (s.fetch imem).valC := by
    rw [← hB]
    unfold State.valE
    rw [hic]
    rfl
  have hctl : s.memControl imem =
      ⟨true, false, s.arch.get (s.fetch imem).rB + (s.fetch imem).valC, 0#64⟩ := by
    rw [← hE]
    unfold State.memControl
    rw [hic]
    rfl
  have h := step_load hstat (.inl hic) hctl hE
  rw [hic] at h
  rw [h]
  show ((s.arch.set noReg _).set _ _).goto _ = _
  rw [set_noReg]
  rfl

theorem step_rmmovq (hstat : s.stat imem = statAok) (hic : (s.fetch imem).icode = icRmmovl) :
    (step imem s).arch = (s.arch.store (s.arch.get (s.fetch imem).rB + (s.fetch imem).valC)
      (s.arch.get (s.fetch imem).rA)).goto (s.fetch imem).valP := by
  have hA : s.valA imem = s.arch.get (s.fetch imem).rA := valA_eq (by rw [hic]; rfl)
  have hB : s.valB imem = s.arch.get (s.fetch imem).rB := valB_eq (by rw [hic]; rfl)
  have hE : s.valE imem = s.arch.get (s.fetch imem).rB + (s.fetch imem).valC := by
    rw [← hB]
    unfold State.valE
    rw [hic]
    rfl
  have hctl : s.memControl imem = ⟨false, true, s.arch.get (s.fetch imem).rB + (s.fetch imem).valC,
      s.arch.get (s.fetch imem).rA⟩ := by
    rw [← hE, ← hA]
    unfold State.memControl
    rw [hic]
    rfl
  have h := step_store hstat (.inl hic) hctl hE
  rw [hic] at h
  rw [h]
  show ((s.arch.set noReg _).store _ _).goto _ = _
  rw [set_noReg]
  rfl

/-! ### Stack instructions -/

theorem valB_stack (hic : (s.fetch imem).icode = icCall ∨ (s.fetch imem).icode = icRet ∨
    (s.fetch imem).icode = icPushl ∨ (s.fetch imem).icode = icPopl) :
    s.valB imem = s.arch.get rsp := by
  apply valB_eq
  rcases hic with hic | hic | hic | hic <;>
  · rw [hic]
    rfl

theorem step_call (hstat : s.stat imem = statAok) (hic : (s.fetch imem).icode = icCall) :
    (step imem s).arch = ((s.arch.set rsp (s.arch.get rsp - 8#64)).store (s.arch.get rsp - 8#64)
      (s.fetch imem).valP).goto (s.fetch imem).valC := by
  have hE : s.valE imem = s.arch.get rsp - 8#64 := by
    rw [← valB_stack (.inl hic)]
    unfold State.valE
    rw [hic]
    rfl
  have hctl : s.memControl imem = ⟨false, true, s.arch.get rsp - 8#64, (s.fetch imem).valP⟩ := by
    rw [← hE]
    unfold State.memControl
    rw [hic]
    rfl
  have h := step_store hstat (.inr (.inl hic)) hctl hE
  rw [hic] at h
  exact h

theorem step_pushq (hstat : s.stat imem = statAok) (hic : (s.fetch imem).icode = icPushl) :
    (step imem s).arch = ((s.arch.set rsp (s.arch.get rsp - 8#64)).store (s.arch.get rsp - 8#64)
      (s.arch.get (s.fetch imem).rA)).goto (s.fetch imem).valP := by
  have hA : s.valA imem = s.arch.get (s.fetch imem).rA := valA_eq (by rw [hic]; rfl)
  have hE : s.valE imem = s.arch.get rsp - 8#64 := by
    rw [← valB_stack (.inr (.inr (.inl hic)))]
    unfold State.valE
    rw [hic]
    rfl
  have hctl : s.memControl imem =
      ⟨false, true, s.arch.get rsp - 8#64, s.arch.get (s.fetch imem).rA⟩ := by
    rw [← hE, ← hA]
    unfold State.memControl
    rw [hic]
    rfl
  have h := step_store hstat (.inr (.inr hic)) hctl hE
  rw [hic] at h
  exact h

/-- `ret` and `popq` read at the old pointer and leave the incremented one. -/
theorem pop_eq (hic : (s.fetch imem).icode = icRet ∨ (s.fetch imem).icode = icPopl) :
    s.memControl imem = ⟨true, false, s.arch.get rsp, 0#64⟩ ∧ s.valE imem = s.arch.get rsp + 8#64 := by
  have hA : s.valA imem = s.arch.get rsp := by
    apply valA_eq
    rcases hic with hic | hic <;>
    · rw [hic]
      rfl
  constructor
  · rw [← hA]
    unfold State.memControl
    rcases hic with hic | hic <;>
    · rw [hic]
      rfl
  · rw [← valB_stack (hic.elim (fun h => .inr (.inl h)) fun h => .inr (.inr (.inr h)))]
    unfold State.valE
    rcases hic with hic | hic <;>
    · rw [hic]
      rfl

theorem step_ret (hstat : s.stat imem = statAok) (hic : (s.fetch imem).icode = icRet) :
    (step imem s).arch =
      (s.arch.set rsp (s.arch.get rsp + 8#64)).goto (s.arch.load (s.arch.get rsp)) := by
  obtain ⟨hctl, hE⟩ := pop_eq (.inl hic)
  have h := step_load hstat (.inr (.inl hic)) hctl hE
  rw [hic] at h
  rw [h]
  show ((s.arch.set rsp _).set noReg _).goto _ = _
  rw [set_noReg]
  rfl

theorem step_popq (hstat : s.stat imem = statAok) (hic : (s.fetch imem).icode = icPopl) :
    (step imem s).arch = ((s.arch.set rsp (s.arch.get rsp + 8#64)).set (s.fetch imem).rA
      (s.arch.load (s.arch.get rsp))).goto (s.fetch imem).valP := by
  obtain ⟨hctl, hE⟩ := pop_eq (.inr hic)
  have h := step_load hstat (.inr (.inr hic)) hctl hE
  rw [hic] at h
  exact h

end

/-- One clock of the CPU, at an instruction that is valid, stands wholly inside instruction memory,
gives AOK and is no conditional one, is the instruction that stands there. -/
theorem step_isa (imem : IMem) (s : State) (hvalid : (s.fetch imem).instrValid = true)
    (hin : s.pc.toNat + instrLength (s.fetch imem).icode ≤ 1024) (hstat : s.stat imem = statAok)
    (hcond : ¬(((s.fetch imem).icode = icRrmovl ∨ (s.fetch imem).icode = icJxx) ∧
      (s.fetch imem).ifun ≠ 0x0#4)) :
    ∃ i : Instr, i.At imem s.pc ∧ (∀ j : Instr, j.At imem s.pc → j = i) ∧
      (step imem s).arch = exec i s.arch := by
  obtain ⟨-, hhalt, -⟩ := stat_aok hstat
  have hcode : Unconditional (s.fetch imem).icode (s.fetch imem).ifun :=
    unconditional_of_valid hvalid hhalt hcond
  refine ⟨(s.fetch imem).instr, instr_at hcode hin, fun j hj => (instr_of_at hj).symm, ?_⟩
  have hnext : s.arch.pc + BitVec.ofNat 64 (s.fetch imem).instr.encode.length = (s.fetch imem).valP := by
    rw [length_encode_instr hcode]
    exact (valP_eq imem s.pc).symm
  unfold FetchOut.instr at hnext ⊢
  rcases hcode with ⟨hif, hic | hic | hic | hic | hic | hic | hic | hic | hic | hic⟩ | ⟨hic, hif⟩ <;>
    rw [hic] at hnext ⊢
  · exact step_goto hstat (.inl ⟨hic, hnext.symm⟩)
  · rw [step_rrmovq hstat hic hif, ← hnext]
    rfl
  · rw [step_irmovq hstat hic, ← hnext]
    rfl
  · rw [step_rmmovq hstat hic, ← hnext]
    rfl
  · rw [step_mrmovq hstat hic, ← hnext]
    rfl
  · exact step_goto hstat (.inr ⟨hic, cnd_of_ifun (.inr hic) hif, rfl⟩)
  · rw [step_call hstat hic, ← hnext]
    rfl
  · rw [step_ret hstat hic]
    rfl
  · rw [step_pushq hstat hic, ← hnext]
    rfl
  · rw [step_popq hstat hic, ← hnext]
    rfl
  · rcases hif with hif | hif | hif | hif <;> rw [hif] at hnext ⊢
    · rw [step_opq .addq hstat hic hif, ← hnext]
      rfl
    · rw [step_opq .subq hstat hic hif, ← hnext]
      rfl
    · rw [step_opq .andq hstat hic hif, ← hnext]
      rfl
    · rw [step_opq .xorq hstat hic hif, ← hnext]
      rfl

/-- `popq %rsp`. -/
def popRsp : IMem := IMem.ofBytes [0xB0#8, 0x4F#8]

/-- The instruction found is `popq %rsp`, which leaves the popped value in `%rsp`. -/
theorem step_isa_popRsp : ∃ i : Instr, i.At popRsp 0#64 ∧ (∀ j : Instr, j.At popRsp 0#64 → j = i) ∧
    (step popRsp (start fun _ => 7#64)).arch = exec i (start fun _ => 7#64).arch :=
  step_isa popRsp (start fun _ => 7#64) (by decide +kernel) (by decide +kernel) (by decide +kernel)
    (by decide +kernel)

end MyCpu.Y86.Single
