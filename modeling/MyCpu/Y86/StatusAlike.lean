import MyCpu.Y86.FetchBounds
import MyCpu.Y86.Operands
import MyCpu.Y86.Status

/-!
# The status of an instruction in both Y86 machines

The single-cycle machine decides the status in one chain. In the pipeline F decides first, M
overrides it for a bad address, and W overrides both for `halt`.

* `Pass` : one instruction on its way through the stages of the pipeline;
* `exists_pass` : every instruction that reaches W in a run has made such a pass;
* `wStat_eq_iff` : W shows what `stat` computes unless two conditions meet that the two machines
  rank differently.
-/

namespace MyCpu.Y86

open Clocked

/-- `stat_o` of the single-cycle machine for the instruction at `pc` with operands `a` and `b`. -/
def Single.statOf (imem : IMem) (pc a b : Word) : BitVec 2 :=
  let f := Single.fetch imem pc
  Single.stat f.icode f.instrValid f.imemError
    (Single.memError (Single.memControl f.icode (valE f.icode f.ifun a b f.valC) a f.valP))

theorem Single.stat_eq_statOf (imem : IMem) (s : Single.State) :
    s.stat imem = Single.statOf imem s.pc (s.valA imem) (s.valB imem) := rfl

/-! ## A pass through the pipeline -/

/-- Everything an instruction meets between F and W. -/
structure Pass where
  imem : IMem
  pc : Word
  regFile : RegFile
  dFwd : List Fwd
  cc : CC
  eFwd : List Fwd
  net : Word
  dataMem : DataMem

namespace Pass

variable (q : Pass)

def E : DE := pipeStageDecode (pipeStageFetch q.imem q.pc) q.regFile q.dFwd

def aluA : Word := select q.E.srcA q.E.valA q.eFwd

def aluB : Word := select q.E.srcB q.E.valB q.eFwd

def M : EM := emInput (pipeStageExecute q.E q.cc q.eFwd) q.net

/-- `w_stat`. -/
def wStat : BitVec 2 := pipeStageWriteback (pipeStageMemory q.M q.dataMem)

end Pass

/-- An instruction that reaches W has gone through the stages one after the other. -/
theorem exists_pass {p : Setup} {t : Nat} {x : Fetched} (h : (slotsAt p (t + 2)).w = some x) :
    ∃ q : Pass, q.imem = p.imem ∧ q.pc = x.pc ∧ q.aluA = (trace p t).aluA ∧
      q.aluB = (trace p t).aluB ∧ q.wStat = (trace p (t + 2)).wStat := by
  have hm : (slotsAt p (t + 1)).m = some x := h
  obtain ⟨-, he, hM, -⟩ := e_of_m hm
  cases t with
  | zero => contradiction
  | succ t =>
      obtain ⟨hb, hd⟩ := d_of_e he
      obtain ⟨hE, -⟩ := step_em_of_free hb
      have hD := (shows_trace p t).d x hd
      let q : Pass := ⟨p.imem, x.pc, (trace p t).regFile, (trace p t).dFwd, (trace p (t + 1)).cc,
        (trace p (t + 1)).eFwd, p.net (t + 1), (trace p (t + 2)).dataMem⟩
      have hqE : q.E = (trace p (t + 1)).E := by
        rw [hE]
        show pipeStageDecode (pipeStageFetch p.imem x.pc) (trace p t).regFile (trace p t).dFwd = _
        rw [← hD]
        rfl
      have hqM : q.M = (trace p (t + 2)).M := by
        rw [hM]
        show emInput (pipeStageExecute q.E _ _) _ = _
        rw [hqE]
        rfl
      refine ⟨q, rfl, rfl, ?_, ?_, ?_⟩
      · show select q.E.srcA q.E.valA _ = _
        rw [hqE]
        rfl
      · show select q.E.srcB q.E.valB _ = _
        rw [hqE]
        rfl
      · show pipeStageWriteback (pipeStageMemory q.M _) = _
        rw [hqM]
        rfl

/-! ## Where the two agree -/

/-- Where the instruction accesses data memory. -/
def dataAddr (icode : BitVec 4) (a b valC : Word) : Option Word :=
  if icode = icRmmovl ∨ icode = icMrmovl then some (b + valC)
  else if icode = icCall ∨ icode = icPushl then some (b - 8#64)
  else if icode = icRet ∨ icode = icPopl then some a
  else none

/-- It accesses data memory, and there is none. -/
def BadData (imem : IMem) (pc a b : Word) : Prop :=
  ∃ addr, dataAddr (Single.fetch imem pc).icode a b (Single.fetch imem pc).valC = some addr ∧
    2047 < addr.toNat

/-- The conditions that the machines rank differently do not meet: `halt` with a function code or
outside instruction memory, and an invalid function code at an instruction with a bad data
address. -/
def StatAgrees (imem : IMem) (pc a b : Word) : Prop :=
  ¬((Single.fetch imem pc).icode = icHalt ∧ (1023 < pc.toNat ∨ (Single.fetch imem pc).ifun ≠ 0x0#4)) ∧
    ¬(pc.toNat ≤ 1023 ∧ (Single.fetch imem pc).ifun ≠ 0x0#4 ∧ BadData imem pc a b)

/-! ## Data addresses -/

theorem memError_iff {c : MemControl} {o : Option Word} (hacc : (c.read || c.write) = o.isSome)
    (haddr : ∀ addr, o = some addr → c.addr = addr) :
    Single.memError c = true ↔ ∃ addr, o = some addr ∧ 2047 < addr.toNat := by
  unfold Single.memError addrValid
  rw [hacc, Bool.and_eq_true, Bool.not_eq_true', decide_eq_false_iff_not, Nat.not_le]
  cases o with
  | none => exact iff_of_false (fun h => Bool.false_ne_true h.1) fun ⟨_, h, _⟩ => absurd h.symm (Option.some_ne_none _)
  | some addr =>
      rw [haddr addr rfl]
      exact ⟨fun h => ⟨addr, rfl, h.2⟩, fun ⟨_, h, hlt⟩ => ⟨rfl, (Option.some.inj h) ▸ hlt⟩⟩

theorem memory_cases (icode : BitVec 4) :
    icode = icMrmovl ∨ icode = icRmmovl ∨ icode = icCall ∨ icode = icRet ∨ icode = icPushl ∨
      icode = icPopl ∨ (icode ≠ icMrmovl ∧ icode ≠ icRmmovl ∧ icode ≠ icCall ∧ icode ≠ icRet ∧
        icode ≠ icPushl ∧ icode ≠ icPopl) := by
  revert icode
  decide

theorem memError_memControl (icode ifun : BitVec 4) (a b valC valP : Word) :
    Single.memError (Single.memControl icode (valE icode ifun a b valC) a valP) = true ↔
      ∃ addr, dataAddr icode a b valC = some addr ∧ 2047 < addr.toNat := by
  rcases memory_cases icode with rfl | rfl | rfl | rfl | rfl | rfl | ⟨h1, h2, h3, h4, h5, h6⟩
  · exact memError_iff rfl fun _ h => Option.some.inj h
  · exact memError_iff rfl fun _ h => Option.some.inj h
  · exact memError_iff rfl fun _ h => Option.some.inj h
  · exact memError_iff rfl fun _ h => Option.some.inj h
  · exact memError_iff rfl fun _ h => Option.some.inj h
  · exact memError_iff rfl fun _ h => Option.some.inj h
  · have hnone : dataAddr icode a b valC = none := by simp [dataAddr, h1, h2, h3, h4, h5, h6]
    have hctl : Single.memControl icode (valE icode ifun a b valC) a valP = ⟨false, false, 0#64, 0#64⟩ := by
      simp [Single.memControl, h1, h2, h3, h4, h5, h6]
    rw [hnone, hctl]
    exact memError_iff rfl fun _ h => absurd h.symm (Option.some_ne_none _)

/-- Both machines ask the data memory for the same. -/
theorem memControl_eq (M : EM) : memControl M = Single.memControl M.icode M.valE M.valA M.valP := by
  obtain ⟨stat, icode, valA, valE, valC, valP, dstE, dstM, cnd⟩ := M
  rcases memory_cases icode with rfl | rfl | rfl | rfl | rfl | rfl | ⟨h1, h2, h3, h4, h5, h6⟩
  · rfl
  · rfl
  · rfl
  · rfl
  · rfl
  · rfl
  · simp [memControl, Single.memControl, h1, h2, h3, h4, h5, h6]

theorem memError_pass (q : Pass) : memError q.M = true ↔ BadData q.imem q.pc q.aluA q.aluB := by
  have h : memError q.M = Single.memError (memControl q.M) := rfl
  rw [h, memControl_eq]
  exact memError_memControl _ _ _ _ _ _

theorem memError_statOf (imem : IMem) (pc a b : Word) : Single.memError
    (Single.memControl (Single.fetch imem pc).icode
      (valE (Single.fetch imem pc).icode (Single.fetch imem pc).ifun a b (Single.fetch imem pc).valC) a
      (Single.fetch imem pc).valP) = true ↔ BadData imem pc a b := memError_memControl _ _ _ _ _ _

theorem not_badData_of_halt {imem : IMem} {pc a b : Word} (h : (Single.fetch imem pc).icode = icHalt) :
    ¬BadData imem pc a b := by
  rintro ⟨addr, haddr, -⟩
  rw [h] at haddr
  exact absurd haddr.symm (Option.some_ne_none addr)

/-- Of the instructions that access data memory, and of `halt`, only function code 0 is valid. -/
theorem instrValid_iff {icode ifun : BitVec 4} {a b c : Word}
    (h : icode = icHalt ∨ dataAddr icode a b c ≠ none) : instrValid icode ifun = true ↔ ifun = 0x0#4 := by
  have hic : icode = icHalt ∨ icode = icMrmovl ∨ icode = icRmmovl ∨ icode = icCall ∨ icode = icRet ∨
      icode = icPushl ∨ icode = icPopl := by
    refine h.imp_right fun h => ?_
    rcases memory_cases icode with h1 | h1 | h1 | h1 | h1 | h1 | ⟨h1, h2, h3, h4, h5, h6⟩
    · exact .inl h1
    · exact .inr (.inl h1)
    · exact .inr (.inr (.inl h1))
    · exact .inr (.inr (.inr (.inl h1)))
    · exact .inr (.inr (.inr (.inr (.inl h1))))
    · exact .inr (.inr (.inr (.inr (.inr h1))))
    · refine absurd ?_ h
      simp [dataAddr, h1, h2, h3, h4, h5, h6]
  clear h
  revert icode ifun
  decide

/-! ## The status in W -/

/-- The chain of the single-cycle machine against that of the pipeline, for an instruction that is
`halt` (`hlt`), comes from outside instruction memory (`out`), is valid (`ok`) or has a bad data
address (`bad`). -/
theorem chains_iff (hlt out ok bad : Bool) (h : hlt = true → bad = false) :
    (if hlt then statHlt else if bad then statAdr
        else if out then statAdr else if !ok then statIns else statAok) =
      (if out then statAdr else if !ok then statIns else if bad then statAdr
        else if hlt then statHlt else statAok) ↔
      ¬(hlt = true ∧ (out = true ∨ ok = false)) ∧ ¬(out = false ∧ ok = false ∧ bad = true) := by
  revert hlt out ok bad
  decide

/-- In a pass `w_stat` is what the single-cycle machine reports if and only if no two conditions
meet that are ranked differently. -/
theorem wStat_pass_iff (q : Pass) :
    q.wStat = Single.statOf q.imem q.pc q.aluA q.aluB ↔ StatAgrees q.imem q.pc q.aluA q.aluB := by
  have hbad : memError q.M = Single.memError (Single.memControl (Single.fetch q.imem q.pc).icode
      (valE (Single.fetch q.imem q.pc).icode (Single.fetch q.imem q.pc).ifun q.aluA q.aluB
        (Single.fetch q.imem q.pc).valC) q.aluA (Single.fetch q.imem q.pc).valP) := by
    rw [Bool.eq_iff_iff, memError_pass, memError_statOf]
  have hpass : q.wStat = if decide ((Single.fetch q.imem q.pc).icode = icHalt) then statHlt
      else if memError q.M then statAdr else if decide (1023 < q.pc.toNat) then statAdr
      else if !(Single.fetch q.imem q.pc).instrValid then statIns else statAok := by
    simp only [decide_eq_true_iff]
    rfl
  have hsingle : Single.statOf q.imem q.pc q.aluA q.aluB = if decide (1023 < q.pc.toNat) then statAdr
      else if !(Single.fetch q.imem q.pc).instrValid then statIns else if memError q.M then statAdr
      else if decide ((Single.fetch q.imem q.pc).icode = icHalt) then statHlt else statAok := by
    have himem : (Single.fetch q.imem q.pc).imemError = decide (1023 < q.pc.toNat) := rfl
    rw [hbad]
    simp only [Single.statOf, Single.stat, himem, decide_eq_true_iff]
  rw [hpass, hsingle, chains_iff]
  · simp only [decide_eq_true_iff, decide_eq_false_iff_not, Nat.not_lt]
    have hvalid : (Single.fetch q.imem q.pc).instrValid =
        instrValid (Single.fetch q.imem q.pc).icode (Single.fetch q.imem q.pc).ifun := rfl
    rw [memError_pass, hvalid, ← Bool.not_eq_true]
    unfold StatAgrees
    constructor
    · rintro ⟨hhalt, hmem⟩
      refine ⟨fun ⟨hic, h⟩ => hhalt ⟨hic, h.imp_right fun h' => ?_⟩, fun ⟨hpc, hif, hb⟩ => hmem ⟨hpc, ?_, hb⟩⟩
      · rwa [instrValid_iff (a := 0#64) (b := 0#64) (c := 0#64) (.inl hic)]
      · obtain ⟨addr, haddr, -⟩ := hb
        rwa [instrValid_iff (.inr (haddr ▸ Option.some_ne_none addr))]
    · rintro ⟨hhalt, hmem⟩
      refine ⟨fun ⟨hic, h⟩ => hhalt ⟨hic, h.imp_right fun h' => ?_⟩, fun ⟨hpc, hok, hb⟩ => hmem ⟨hpc, ?_, hb⟩⟩
      · rwa [instrValid_iff (a := 0#64) (b := 0#64) (c := 0#64) (.inl hic)] at h'
      · have hb' := hb
        obtain ⟨addr, haddr, -⟩ := hb'
        rwa [instrValid_iff (.inr (haddr ▸ Option.some_ne_none addr))] at hok
  · intro hic
    rw [← Bool.not_eq_true, memError_pass]
    exact not_badData_of_halt (decide_eq_true_iff.mp hic)

/-- Whatever an instruction meets on its way, and in every run, the pipeline retires it with the
status of the single-cycle machine exactly when no two conditions meet that are ranked
differently. -/
theorem wStat_eq_iff (q : Pass) (p : Setup) (t : Nat) (x : Fetched) :
    (q.wStat = Single.statOf q.imem q.pc q.aluA q.aluB ↔ StatAgrees q.imem q.pc q.aluA q.aluB) ∧
    ((slotsAt p (t + 2)).w = some x →
      ((trace p (t + 2)).wStat = Single.statOf p.imem x.pc (trace p t).aluA (trace p t).aluB ↔
        StatAgrees p.imem x.pc (trace p t).aluA (trace p t).aluB)) := by
  refine ⟨wStat_pass_iff q, fun h => ?_⟩
  obtain ⟨q, himem, hpc, hA, hB, hstat⟩ := exists_pass h
  rw [← himem, ← hpc, ← hA, ← hB, ← hstat]
  exact wStat_pass_iff q

/-- `halt` with function code 1. -/
def haltOne : Setup := Setup.ofBytes [0x11#8]

/-- The pipeline retires it as HLT, for the single-cycle machine it is no instruction. -/
theorem wStat_ne_haltOne : (slotsAt haltOne 4).w = some ⟨0, 0#64⟩ ∧
    (trace haltOne 4).wStat = statHlt ∧
    Single.statOf haltOne.imem 0#64 (trace haltOne 2).aluA (trace haltOne 2).aluB = statIns := by
  decide +kernel

end MyCpu.Y86
