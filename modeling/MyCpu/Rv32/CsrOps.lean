import MyCpu.Rv32.Trap

/-!
# CSR instructions of `rv32-pipeline-cpu-new`

The read port takes `mcycle` and `minstret` from two counters, the write port has only the register
file. What a CSR instruction writes to one of the two is never read.

* `CsrCycle` : a clock in which a CSR instruction takes effect;
* `csrfile_step` : what it does to the register file;
* `csrLaw_iff` : the next clock reads what was written, and everything else as before, exactly when
  no counter was to be changed.
-/

namespace MyCpu.Rv32.CsrPipe

open Clocked

/-- What the read port delivers for the address `a`. -/
def readAt (s : State) (i : Inputs) (a : CsrAddr) : Word := csrReadVal s { i with idCsrAddr := a }

/-- What the instruction asks for: the datum, or the old value with the bits of the datum set or
cleared. -/
def csrNewVal (op : BitVec 3) (old wdata : Word) : Word :=
  if op = 0b001#3 ∨ op = 0b101#3 then wdata
  else if op = 0b010#3 ∨ op = 0b110#3 then old ||| wdata
  else old &&& ~~~wdata

/-- A CSR instruction, and no reset, no trap and no `mret`. -/
structure CsrCycle (s : State) (i : Inputs) : Prop where
  rst : i.rst = false
  write : CsrWrite i i.idCsrAddr
  noTrap : ∃ n, settle s i = some n ∧ n.trapEnter = false
  noMret : isMret i = false

/-- Two values of one CSR agree; `mip` follows the interrupt lines in bits 7 and 11. -/
def SameBits (a : CsrAddr) (v v' : Word) : Prop :=
  ∀ k < 32, (a = csrMip → k ≠ 7 ∧ k ≠ 11) → v'.getLsbD k = v.getLsbD k

/-- A counter may also have counted. -/
def Agrees (a : CsrAddr) (v v' : Word) : Prop :=
  if a = csrMcycle ∨ a = csrMinstret then v' = v ∨ v' = v + 1#32 else SameBits a v v'

/-- From `s` to `s'` the CSR that is addressed gets the value asked for, and every other one but the
counters stays as it is. -/
structure CsrLaw (s : State) (i : Inputs) (s' : State) : Prop where
  written : Agrees i.idCsrAddr (csrNewVal i.idCsrOp (csrReadVal s i) i.idCsrWdata)
    (readAt s' i i.idCsrAddr)
  others : ∀ a, a ≠ i.idCsrAddr → a ≠ csrMcycle → a ≠ csrMinstret →
    SameBits a (readAt s i a) (readAt s' i a)

/-! ## One clock -/

section

variable {s : State} {i : Inputs}

theorem settle_of_noTrap {n : Nets} (hs : settle s i = some n) (ht : n.trapEnter = false) :
    n = ⟨false, false⟩ := by
  have hn : n.Consistent s i := ((settle_eq_some_iff s i n).mp hs n).mpr rfl
  obtain ⟨it, te⟩ := n
  obtain rfl : te = false := ht
  have hor := hn.2.symm
  rw [Bool.or_eq_false_iff] at hor
  obtain rfl : it = false := hor.2
  rfl

theorem step_csr (h : CsrCycle s i) : step s i = some (posedge s i ⟨false, false⟩) := by
  obtain ⟨n, hs, ht⟩ := h.noTrap
  obtain rfl := settle_of_noTrap hs ht
  unfold step
  rw [hs]
  rfl

theorem csrOpWrites_eq (h : CsrWrite i i.idCsrAddr) : csrOpWrites s i =
    [.word i.idCsrAddr (csrNewVal i.idCsrOp (csrReadVal s i) i.idCsrWdata)] := by
  obtain ⟨-, -, hop⟩ := h
  simp only [List.mem_cons, List.not_mem_nil, or_false] at hop
  unfold csrOpWrites csrNewVal
  rcases hop with hop | hop | hop | hop | hop | hop <;> rw [hop] <;> rfl

/-- The register file gets one word, and the interrupt lines. -/
theorem csrfile_step (h : CsrCycle s i) {a : CsrAddr} {k : Nat} (hk : k < 32)
    (ha : a = csrMip → k ≠ 7 ∧ k ≠ 11) :
    ((posedge s i ⟨false, false⟩).csrfile a).getLsbD k =
      (Function.update s.csrfile i.idCsrAddr
        (csrNewVal i.idCsrOp (csrReadVal s i) i.idCsrWdata) a).getLsbD k := by
  have hbranch : branchWrites s i ⟨false, false⟩ = csrOpWrites s i := by
    unfold branchWrites
    rw [if_neg Bool.false_ne_true, h.noMret, if_neg Bool.false_ne_true, if_pos h.write.1]
  rw [posedge_csrfile h.rst, hbranch, csrOpWrites_eq h.write, commit_append,
    getLsbD_commit_of_keeps hk (mip_keeps hk ha), commit_cons, commit_nil, Nba.word_apply]

theorem readAt_of_ne {a : CsrAddr} (s : State) (i : Inputs) (hc : a ≠ csrMcycle) (hi : a ≠ csrMinstret) :
    readAt s i a = s.csrfile a := by
  unfold readAt csrReadVal
  rw [if_neg hc, if_neg hi]

theorem readAt_mcycle (h : i.rst = false) (n : Nets) :
    readAt (posedge s i n) i csrMcycle = readAt s i csrMcycle + 1#32 := by
  unfold readAt csrReadVal posedge
  rw [if_pos rfl, if_pos rfl, h]
  show (s.cycleCnt + 1#64).extractLsb' 0 32 = s.cycleCnt.extractLsb' 0 32 + 1#32
  apply BitVec.eq_of_toNat_eq
  simp

theorem readAt_minstret (h : i.rst = false) (n : Nets) :
    readAt (posedge s i n) i csrMinstret = readAt s i csrMinstret := by
  unfold readAt csrReadVal posedge
  rw [h]
  rfl

/-! ## The law -/

theorem others_of_csr (h : CsrCycle s i) {a : CsrAddr} (hne : a ≠ i.idCsrAddr) (hc : a ≠ csrMcycle)
    (hi : a ≠ csrMinstret) : SameBits a (readAt s i a) (readAt (posedge s i ⟨false, false⟩) i a) := by
  intro k hk ha
  rw [readAt_of_ne _ _ hc hi, readAt_of_ne _ _ hc hi, csrfile_step h hk ha, Function.update_of_ne hne]

/-- The address is read again after the write. -/
theorem written_iff (h : CsrCycle s i) :
    Agrees i.idCsrAddr (csrNewVal i.idCsrOp (csrReadVal s i) i.idCsrWdata)
        (readAt (posedge s i ⟨false, false⟩) i i.idCsrAddr) ↔
      (i.idCsrAddr = csrMcycle → csrNewVal i.idCsrOp (csrReadVal s i) i.idCsrWdata = csrReadVal s i ∨
        csrNewVal i.idCsrOp (csrReadVal s i) i.idCsrWdata = csrReadVal s i + 1#32) ∧
      (i.idCsrAddr = csrMinstret → csrNewVal i.idCsrOp (csrReadVal s i) i.idCsrWdata = csrReadVal s i ∨
        csrNewVal i.idCsrOp (csrReadVal s i) i.idCsrWdata + 1#32 = csrReadVal s i) := by
  have hold : readAt s i i.idCsrAddr = csrReadVal s i := rfl
  have hfile := fun k hk ha => csrfile_step h (a := i.idCsrAddr) (k := k) hk ha
  simp only [Function.update_self] at hfile
  generalize csrNewVal i.idCsrOp (csrReadVal s i) i.idCsrWdata = v at hfile ⊢
  by_cases hc : i.idCsrAddr = csrMcycle
  · have hi : i.idCsrAddr ≠ csrMinstret := by
      rw [hc]
      decide
    unfold Agrees
    rw [if_pos (.inl hc), ← hold, hc, readAt_mcycle h.rst]
    refine ⟨fun hv => ⟨fun _ => ?_, fun hi' => absurd (hc.trans hi') hi⟩, fun hv => ?_⟩
    · rcases hv with hv | hv
      · exact .inr hv.symm
      · exact .inl ((BitVec.add_left_inj 1#32).mp hv).symm
    · rcases hv.1 rfl with hv | hv
      · exact .inr (by rw [hv])
      · exact .inl hv.symm
  · by_cases hi : i.idCsrAddr = csrMinstret
    · unfold Agrees
      rw [if_pos (.inr hi), ← hold, hi, readAt_minstret h.rst]
      constructor
      · intro hv
        refine ⟨fun hc' => absurd hc' (by decide), fun _ => ?_⟩
        exact hv.imp Eq.symm Eq.symm
      · intro hv
        exact (hv.2 rfl).imp Eq.symm Eq.symm
    · refine iff_of_true ?_ ⟨fun h' => absurd h' hc, fun h' => absurd h' hi⟩
      unfold Agrees
      rw [if_neg (not_or.mpr ⟨hc, hi⟩), readAt_of_ne _ _ hc hi]
      exact hfile

/-- In a clock in which a CSR instruction takes effect, the next clock reads what it wrote and every
other CSR as before, if and only if it writes no counter or one with the value it has, give or take
a count. -/
theorem csrLaw_iff {s' : State} (h : CsrCycle s i) (hs' : step s i = some s') : CsrLaw s i s' ↔
    (i.idCsrAddr = csrMcycle → csrNewVal i.idCsrOp (csrReadVal s i) i.idCsrWdata = csrReadVal s i ∨
      csrNewVal i.idCsrOp (csrReadVal s i) i.idCsrWdata = csrReadVal s i + 1#32) ∧
    (i.idCsrAddr = csrMinstret → csrNewVal i.idCsrOp (csrReadVal s i) i.idCsrWdata = csrReadVal s i ∨
      csrNewVal i.idCsrOp (csrReadVal s i) i.idCsrWdata + 1#32 = csrReadVal s i) := by
  obtain rfl : posedge s i ⟨false, false⟩ = s' := Option.some.inj ((step_csr h).symm.trans hs')
  rw [← written_iff h]
  exact ⟨CsrLaw.written, fun hw => ⟨hw, fun _ hne hc hi => others_of_csr h hne hc hi⟩⟩

end

/-- The state after a reset. -/
def resetState : State where
  csrfile := commit resetWrites fun _ => 0#32
  cycleCnt := 0#64
  instrCnt := 0#64
  trapEnteredLast := false

/-- `csrrw x0, a, x1` with `x1` = 0x55. -/
def csrrwInputs (a : CsrAddr) : Inputs :=
  { requestInputs with
    meip := false
    idCsrWe := true
    idCsrOp := 0b001#3
    idCsrAddr := a
    idCsrWdata := 0x55#32
    idInstr := a ++ 0x09073#20 }

theorem csrCycle_csrrwInputs : CsrCycle resetState (csrrwInputs csrMscratch) ∧
    CsrCycle resetState (csrrwInputs csrMcycle) := by
  have hs : ∀ a, settle resetState (csrrwInputs a) = some ⟨false, false⟩ := fun a =>
    (step_masked rfl (by decide)).1
  constructor
  · exact ⟨rfl, by decide, ⟨_, hs _, rfl⟩, by decide⟩
  · exact ⟨rfl, by decide, ⟨_, hs _, rfl⟩, by decide⟩

/-- `mscratch` is not a counter. -/
theorem csrLaw_mscratch : CsrLaw resetState (csrrwInputs csrMscratch)
    (posedge resetState (csrrwInputs csrMscratch) ⟨false, false⟩) :=
  (csrLaw_iff csrCycle_csrrwInputs.1 (step_csr csrCycle_csrrwInputs.1)).mpr
    ⟨fun h => absurd h (by decide), fun h => absurd h (by decide)⟩

/-- After 0x55 has been written to `mcycle`, 1 is read. -/
theorem not_csrLaw_mcycle : CsrCycle resetState (csrrwInputs csrMcycle) ∧
    ¬CsrLaw resetState (csrrwInputs csrMcycle)
      (posedge resetState (csrrwInputs csrMcycle) ⟨false, false⟩) := by
  refine ⟨csrCycle_csrrwInputs.2, fun h => ?_⟩
  have hw : readAt _ _ csrMcycle = 0x55#32 ∨ readAt _ _ csrMcycle = 0x56#32 := h.written
  revert hw
  decide

end MyCpu.Rv32.CsrPipe
