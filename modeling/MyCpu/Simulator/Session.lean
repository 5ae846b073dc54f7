import MyCpu.Rv32.Commit
import MyCpu.Rv32.Execution
import MyCpu.Simulator.Difftest

/-!
# Difftest sessions

`execute` of `simulator/src/sim/exec.c` with `CONFIG_DIFFTEST`: the five-stage pipeline commits an
instruction, `update_cpu_state` copies its registers, and `difftest_step` compares them with the
reference.

* `executeDiff` : the loop, from a state of the CPU and the globals;
* `session_fails_iff` : a session ends in a report exactly when the reference differs from the
  architectural state at one of the instructions;
* `session_quiet` : a reference that implements the instruction set gives no report.
-/

namespace MyCpu.Simulator

open Rv32 (Word RegFile Mem resetVector)
open Rv32.Pipe (Executable awaitCommit instEbreak trace retiredAt nop)

/-! ## The loop -/

/-- `get_commit_info`: the memory ports of the pipeline are tied to 0. -/
def getCommitInfo (c : Rv32.Commit) : Commit := ⟨c.pc, c.nextPc, c.instr, 0#32, 0#32, 0#32⟩

/-- `update_cpu_state`: `cur_pc` is the address being fetched, and the CSR file is all 0. -/
def updateCpuState (s : Rv32.Pipe.State) : CpuState where
  gpr i := s.regfile (BitVec.ofFin i)
  pc := s.PC
  csr _ := 0#32

section

variable {ρ : Type} (R : Reference ρ) (traceStart : BitVec 64)

/-- `execute(n)` with `difftest_step`. `fuel` bounds each wait for a commit. -/
def executeDiff (fuel : Nat) : Nat → Rv32.Pipe.State → World ρ →
    Option (Except DiffError (Rv32.Pipe.State × World ρ))
  | 0, s, w => some (.ok (s, w))
  | n + 1, s, w =>
      (awaitCommit fuel s).bind fun s' =>
        if s'.commit.instr = instEbreak then some (.ok (Rv32.Pipe.step s', w))
        else
          let t := Rv32.Pipe.step s'
          match difftestStep R traceStart
              { w with cpu := updateCpuState t, simInstrCount := w.simInstrCount + 1#64 }
              (getCommitInfo s'.commit) with
          | .error e => some (.error e)
          | .ok w' => executeDiff fuel n t w'

/-! ## One step -/

/-- A check that passes leaves what follows it. -/
theorem bind_of_not_fails {ε α : Type} {x : Except ε Unit} (h : ¬Fails x) (y : Except ε α) :
    (x >>= fun _ => y) = y := by
  cases x with
  | error e => exact absurd (fails_throw e) h
  | ok u => rfl

/-- A step that reports nothing has only stepped the reference. -/
theorem difftestStep_ok {w : World ρ} {commit : Commit} (hs : isSpecialInstr commit = false)
    (h : checkInstTrigger traceStart w.simInstrCount = true →
      ¬RegsDiffer w.cpu (refAfter R w) commit.nextPc) :
    difftestStep R traceStart w commit = .ok { w with ref := R.exec 1#64 w.ref } := by
  unfold difftestStep
  simp only [hs, Bool.false_eq_true, if_false]
  by_cases ht : checkInstTrigger traceStart w.simInstrCount = true
  · have hregs : ¬Fails (checkregs w.cpu (R.regcpyToDut (R.exec 1#64 w.ref)) commit.pc
        commit.nextPc) := fun hf => h ht ((fails_checkregs _ _ _ _).mp hf)
    rw [if_pos ht, bind_of_not_fails hregs, bind_of_not_fails (not_fails_checkcsrs _ _ _ _)]
    rfl
  · rw [if_neg ht]
    rfl

end

/-! ## The commits of a program -/

section

variable {rf : RegFile} {m : Mem}

/-- The loop stops at the first state that commits. -/
theorem awaitCommit_of_first {d t : Nat} (hno : ∀ i < d, (trace rf m (t + i)).wbValid = false)
    (hv : (trace rf m (t + d)).wbValid = true) {fuel : Nat} (hfuel : d < fuel) :
    awaitCommit fuel (trace rf m t) = some (trace rf m (t + d)) := by
  obtain ⟨fuel, rfl⟩ := Nat.exists_eq_add_of_lt hfuel
  induction d generalizing t with
  | zero =>
      rw [Nat.add_zero] at hv
      rw [awaitCommit, if_pos hv, Nat.add_zero]
  | succ d ih =>
      have h0 := hno 0 (Nat.succ_pos d)
      rw [Nat.add_zero] at h0
      rw [awaitCommit, h0, if_neg Bool.false_ne_true, ← Rv32.Pipe.trace_succ,
        show d + 1 + fuel = d + fuel + 1 by omega, ih (t := t + 1) ?_ ?_ (by omega),
        Nat.add_right_comm, Nat.add_assoc]
      · intro i hi
        rw [Nat.add_right_comm, Nat.add_assoc]
        exact hno (i + 1) (Nat.succ_lt_succ hi)
      · rwa [Nat.add_right_comm, Nat.add_assoc]

/-- A word that is not like a bubble is committed when it retires, and a bubble is not. -/
theorem wbValid_of_retire {n : Nat} (hx : Executable rf m n) {t : Nat} (ht : (retiredAt rf m t).length < n)
    (hnop : ¬((Rv32.Single.trace rf m (retiredAt rf m t).length).PC = resetVector ∧
      (Rv32.Single.trace rf m (retiredAt rf m t).length).f.instr = nop)) :
    (trace rf m t).wbValid = true ↔ (Rv32.Pipe.slotsAt rf m t).w ≠ none := by
  refine (Rv32.Pipe.wbValid_iff t).trans ⟨?_, fun hw => ?_⟩
  · rintro ⟨x, hx, -⟩
    simp [hx]
  · obtain ⟨x, hxw⟩ := Option.ne_none_iff_exists'.mp hw
    have hs := (Rv32.Pipe.shows_trace rf m t).w
    rw [hxw, (Rv32.Pipe.sim_trace hx t).1.wb hw ht] at hs
    refine ⟨x, hxw, fun hc => hnop ⟨?_, ?_⟩⟩
    · exact (congrArg Prod.fst hs).trans hc.1
    · exact (congrArg Prod.snd hs).trans hc.2

/-- The pipeline commits each instruction of the program in turn: from any clock `execute` gets to the
next one, which is number `k` if `k` have retired, and a clock later its result is in the registers. -/
theorem awaitCommit_retire {n : Nat} (hx : Executable rf m n) {t : Nat}
    (ht : (retiredAt rf m t).length < n)
    (hnop : ¬((Rv32.Single.trace rf m (retiredAt rf m t).length).PC = resetVector ∧
      (Rv32.Single.trace rf m (retiredAt rf m t).length).f.instr = nop)) :
    ∃ u fuel₀, (retiredAt rf m (u + 1)).length = (retiredAt rf m t).length + 1 ∧
      (trace rf m u).commit = (Rv32.Single.trace rf m (retiredAt rf m t).length).commit ∧
      (∀ fuel, fuel₀ ≤ fuel → awaitCommit fuel (trace rf m t) = some (trace rf m u)) ∧
      (trace rf m (u + 1)).regfile =
        (Rv32.Single.trace rf m ((retiredAt rf m t).length + 1)).regfile := by
  obtain ⟨d, hw, hno⟩ := Rv32.Pipe.exists_first_retiredAt rf m t
  have hlen : ∀ i ≤ d, (retiredAt rf m (t + i)).length = (retiredAt rf m t).length := by
    intro i hi
    induction i with
    | zero => rfl
    | succ i ih =>
        rw [← Nat.add_assoc, Rv32.Pipe.retiredAt_length_succ, Clocked.Slots.posM, hno i hi,
          ih (Nat.le_of_succ_le hi)]
        rfl
  have hvalid : ∀ i ≤ d, ((trace rf m (t + i)).wbValid = true ↔
      (Rv32.Pipe.slotsAt rf m (t + i)).w ≠ none) := fun i hi =>
    wbValid_of_retire hx (by rwa [hlen i hi]) (by rwa [hlen i hi])
  have hlen' : (retiredAt rf m (t + d + 1)).length = (retiredAt rf m t).length + 1 := by
    obtain ⟨x, hxw⟩ := Option.ne_none_iff_exists'.mp hw
    rw [Rv32.Pipe.retiredAt_length_succ, Clocked.Slots.posM, hxw, hlen d (Nat.le_refl d)]
    rfl
  refine ⟨t + d, d + 1, hlen', ?_, fun fuel hfuel => ?_, ?_⟩
  · rw [Rv32.Pipe.State.commit, (Rv32.Pipe.sim_trace hx (t + d)).1.wb hw (by rwa [hlen d (Nat.le_refl d)]),
      hlen d (Nat.le_refl d)]
    rfl
  · refine awaitCommit_of_first (fun i hi => ?_) ((hvalid d (Nat.le_refl d)).mpr hw) hfuel
    rw [← Bool.not_eq_true, hvalid i (Nat.le_of_lt hi), not_not]
    exact hno i hi
  · rw [← hlen']
    exact (Rv32.Pipe.sim_trace hx (t + d + 1)).1.regfile (by rw [hlen']; exact ht)

end

/-! ## Sessions -/

/-- The reference has another PC or another register than the architectural state. -/
def Diverges (a : Rv32.Isa.Arch) (ref : CpuState) : Prop :=
  a.pc ≠ ref.pc ∨ ∃ i, ref.gpr i ≠ a.x (BitVec.ofFin i)

/-- The session can follow the first `n` instructions: the CPU executes them, and none of them looks
like a bubble of the pipeline, ends the session or is left to the CPU's own clock. -/
structure Followed (rf : RegFile) (m : Mem) (n : Nat) : Prop where
  executable : Executable rf m n
  no_nop : ∀ i < n, ¬((Rv32.Single.trace rf m i).PC = resetVector ∧
    (Rv32.Single.trace rf m i).f.instr = nop)
  no_ebreak : ∀ i < n, (Rv32.Single.trace rf m i).f.instr ≠ instEbreak
  ordinary : ∀ i < n, isSpecialInstr (getCommitInfo (Rv32.Single.trace rf m i).commit) = false

section

variable {ρ : Type} (R : Reference ρ) (traceStart : BitVec 64) (rf : RegFile) (m : Mem) (r₀ : ρ)

/-- The comparison after instruction `j` is made, and finds a difference. -/
def Reported (j : Nat) : Prop :=
  checkInstTrigger traceStart (BitVec.ofNat 64 (j + 1)) = true ∧
    Diverges (Rv32.Single.trace rf m (j + 1)).arch (R.regcpyToDut ((R.exec 1#64)^[j + 1] r₀))

variable {rf m}

/-- Where the comparison after instruction number `k` is made. -/
structure Compared (rf : RegFile) (m : Mem) (k : Nat) (w w₁ : World ρ) : Prop where
  gpr : w₁.cpu.gpr = fun i => (Rv32.Single.trace rf m (k + 1)).regfile (BitVec.ofFin i)
  ref : w₁.ref = w.ref
  count : w₁.simInstrCount = w.simInstrCount + 1#64

/-- One instruction of the loop. -/
theorem executeDiff_step {N : Nat} (hf : Followed rf m N) {t : Nat}
    (ht : (retiredAt rf m t).length < N) (n : Nat) (w : World ρ) :
    ∃ u fuel₀ w₁, (retiredAt rf m (u + 1)).length = (retiredAt rf m t).length + 1 ∧
      Compared rf m (retiredAt rf m t).length w w₁ ∧ ∀ fuel, fuel₀ ≤ fuel →
        (∀ e, difftestStep R traceStart w₁
            (getCommitInfo (Rv32.Single.trace rf m (retiredAt rf m t).length).commit) = .error e →
          executeDiff R traceStart fuel (n + 1) (trace rf m t) w = some (.error e)) ∧
        ∀ w₂, difftestStep R traceStart w₁
            (getCommitInfo (Rv32.Single.trace rf m (retiredAt rf m t).length).commit) = .ok w₂ →
          executeDiff R traceStart fuel (n + 1) (trace rf m t) w =
            executeDiff R traceStart fuel n (trace rf m (u + 1)) w₂ := by
  obtain ⟨u, fuel₀, hlen, hcom, hawait, hregs⟩ := awaitCommit_retire hf.executable ht (hf.no_nop _ ht)
  have hne : (Rv32.Single.trace rf m (retiredAt rf m t).length).commit.instr ≠ instEbreak :=
    hf.no_ebreak _ ht
  refine ⟨u, fuel₀, ⟨updateCpuState (trace rf m (u + 1)), w.ref, w.simInstrCount + 1#64⟩, hlen,
    ⟨?_, rfl, rfl⟩, fun fuel hfuel => ?_⟩
  · rw [← hregs]
    rfl
  · rw [executeDiff, hawait fuel hfuel, Option.bind_some, hcom, if_neg hne, ← Rv32.Pipe.trace_succ]
    dsimp only
    exact ⟨fun e he => by rw [he], fun w₂ hok => by rw [hok]⟩

/-- The comparison finds what `Reported` says. -/
theorem Compared.regsDiffer_iff {k : Nat} {w w₁ : World ρ} (h : Compared rf m k w w₁)
    (href : w.ref = (R.exec 1#64)^[k] r₀) :
    RegsDiffer w₁.cpu (refAfter R w₁) (getCommitInfo (Rv32.Single.trace rf m k).commit).nextPc ↔
      Diverges (Rv32.Single.trace rf m (k + 1)).arch (R.regcpyToDut ((R.exec 1#64)^[k + 1] r₀)) := by
  rw [Function.iterate_succ_apply', ← href, ← h.ref, RegsDiffer, h.gpr]
  exact Iff.rfl

/-- A session from the clock at which `retiredAt` instructions have retired. -/
theorem executeDiff_fails_iff {N : Nat} (hf : Followed rf m N) (n t : Nat)
    (hn : (retiredAt rf m t).length + n ≤ N) {w : World ρ}
    (href : w.ref = (R.exec 1#64)^[(retiredAt rf m t).length] r₀)
    (hcnt : w.simInstrCount = BitVec.ofNat 64 (retiredAt rf m t).length) :
    ∃ fuel₀, ∀ fuel, fuel₀ ≤ fuel → ∃ out,
      executeDiff R traceStart fuel n (trace rf m t) w = some out ∧
      (Fails out ↔ ∃ j, (retiredAt rf m t).length ≤ j ∧ j < (retiredAt rf m t).length + n ∧
        Reported R traceStart rf m r₀ j) := by
  induction n generalizing t w with
  | zero =>
      refine ⟨0, fun fuel _ => ⟨_, rfl, iff_of_false (not_fails_pure _) ?_⟩⟩
      rintro ⟨j, hle, hlt, -⟩
      omega
  | succ n ih =>
      have ht : (retiredAt rf m t).length < N := by omega
      obtain ⟨u, fuel₁, w₁, hlen, hcmp, hexec⟩ := executeDiff_step R traceStart hf ht n w
      have hdiff := hcmp.regsDiffer_iff R r₀ href
      have hs := hf.ordinary _ ht
      generalize (retiredAt rf m t).length = k at *
      have hcnt₁ : w₁.simInstrCount = BitVec.ofNat 64 (k + 1) := by
        rw [hcmp.count, hcnt, BitVec.ofNat_add]
      by_cases hD : Reported R traceStart rf m r₀ k
      · -- the difference is reported here, and the session is over
        have htrig : checkInstTrigger traceStart w₁.simInstrCount = true := hcnt₁ ▸ hD.1
        obtain ⟨e, he⟩ := (fails_difftestStep hs htrig).mpr (hdiff.mpr hD.2)
        refine ⟨fuel₁, fun fuel hfuel => ⟨.error e, (hexec fuel hfuel).1 e he, ?_⟩⟩
        exact iff_of_true (fails_throw e) ⟨k, Nat.le_refl k, by omega, hD⟩
      · have hok := difftestStep_ok R traceStart hs (w := w₁) fun ht hd =>
          hD ⟨hcnt₁ ▸ ht, hdiff.mp hd⟩
        have href₁ : R.exec 1#64 w₁.ref = (R.exec 1#64)^[k + 1] r₀ := by
          rw [Function.iterate_succ_apply', ← href, hcmp.ref]
        obtain ⟨fuel₂, hrest⟩ := ih (u + 1) (by omega)
          (w := { w₁ with ref := R.exec 1#64 w₁.ref }) (by rw [href₁, hlen]) (by rw [hcnt₁, hlen])
        refine ⟨max fuel₁ fuel₂, fun fuel hfuel => ?_⟩
        obtain ⟨out, hout, hiff⟩ := hrest fuel (by omega)
        refine ⟨out, ((hexec fuel (by omega)).2 _ hok).trans hout, hiff.trans ?_⟩
        rw [hlen]
        constructor
        · rintro ⟨j, hj, hlt, hr⟩
          exact ⟨j, by omega, by omega, hr⟩
        · rintro ⟨j, hj, hlt, hr⟩
          have hne : j ≠ k := fun h => hD (h ▸ hr)
          exact ⟨j, by omega, by omega, hr⟩

/-- A session over the first `n` instructions of a program ends in a report if and only if, after one
of them whose comparison is switched on, the reference differs from the architectural state in its PC
or in a register. It ends in any case. -/
theorem session_fails_iff {n : Nat} (hf : Followed rf m n) (cpu : CpuState) :
    ∃ fuel₀, ∀ fuel, fuel₀ ≤ fuel →
      ∃ out, executeDiff R traceStart fuel n (Rv32.Pipe.start rf m) ⟨cpu, r₀, 0#64⟩ = some out ∧
        (Fails out ↔ ∃ j < n, Reported R traceStart rf m r₀ j) := by
  obtain ⟨fuel₀, h⟩ := executeDiff_fails_iff R traceStart r₀ hf n 0 (Nat.le_of_eq (Nat.zero_add n))
    (w := ⟨cpu, r₀, 0#64⟩) rfl rfl
  refine ⟨fuel₀, fun fuel hfuel => ?_⟩
  obtain ⟨out, hout, hiff⟩ := h fuel hfuel
  refine ⟨out, hout, hiff.trans ⟨?_, ?_⟩⟩
  · rintro ⟨j, -, hlt, hr⟩
    exact ⟨j, Nat.zero_add n ▸ hlt, hr⟩
  · rintro ⟨j, hlt, hr⟩
    exact ⟨j, Nat.zero_le j, (Nat.zero_add n).symm ▸ hlt, hr⟩

end

/-- `addi a0, x0, 5` and a jump to itself. -/
def haltProgram : Mem := Mem.ofWords resetVector [0x00500513#32, 0x0000006F#32]

theorem followed_haltProgram : Followed (fun _ => 0#32) haltProgram 2 where
  executable := ⟨by decide +kernel, by decide +kernel⟩
  no_nop := by decide +kernel
  no_ebreak := by decide +kernel
  ordinary := by decide +kernel

/-- A reference that never moves is caught at the first instruction. -/
theorem session_fails_idle : ∃ fuel₀, ∀ fuel, fuel₀ ≤ fuel → ∃ out,
    executeDiff idleReference 0#64 fuel 2 (Rv32.Pipe.start (fun _ => 0#32) haltProgram)
      ⟨mstatusState 0#32, mstatusState 0#32, 0#64⟩ = some out ∧ Fails out := by
  obtain ⟨fuel₀, h⟩ := session_fails_iff idleReference 0#64 (mstatusState 0#32) followed_haltProgram
    (mstatusState 0#32)
  refine ⟨fuel₀, fun fuel hfuel => ?_⟩
  obtain ⟨out, hout, hiff⟩ := h fuel hfuel
  exact ⟨out, hout, hiff.mpr ⟨0, by decide, by decide, Or.inr ⟨10, by decide +kernel⟩⟩⟩

/-! ## A reference that implements the instruction set -/

open Rv32.Isa in
/-- The reference, seen as an architectural state, executes legal encodings and shows its PC and its
registers, `$0` as 0. -/
structure Implements {ρ : Type} (R : Reference ρ) (view : ρ → Arch) : Prop where
  exec : ∀ r i, Rv32.dpiInstrMemRead (view r).mem (view r).pc = Instr.encode i →
    view (R.exec 1#64 r) = Rv32.Isa.exec (view r) i
  pc : ∀ r, (R.regcpyToDut r).pc = (view r).pc
  gpr : ∀ r i, (R.regcpyToDut r).gpr i = (view r).get (BitVec.ofFin i)

section

variable {ρ : Type} {R : Reference ρ} {view : ρ → Rv32.Isa.Arch} {m : Mem} {r₀ : ρ}

/-- The reference and the CPU go through the same architectural states. -/
theorem view_iterate (hR : Implements R view) (h₀ : view r₀ = ⟨resetVector, fun _ => 0#32, m⟩) {n : Nat}
    (hlegal : ∀ k < n, ∃ i : Rv32.Isa.Instr,
      (Rv32.Single.trace (fun _ => 0#32) m k).f.instr = i.encode) {k : Nat} (hk : k ≤ n) :
    view ((R.exec 1#64)^[k] r₀) = (Rv32.Single.trace (fun _ => 0#32) m k).arch := by
  induction k with
  | zero => exact h₀
  | succ k ih =>
      obtain ⟨i, hi⟩ := hlegal k hk
      have ih' := ih (Nat.le_of_lt hk)
      rw [Function.iterate_succ_apply', Rv32.Single.trace_succ, Rv32.Single.step_exec hi, ← ih']
      refine hR.exec _ i ?_
      rw [ih']
      exact hi

/-- Register 0 stays 0 after reset. -/
theorem regfile_zero_trace (k : Nat) : (Rv32.Single.trace (fun _ => 0#32) m k).regfile 0#5 = 0#32 := by
  induction k with
  | zero => rfl
  | succ k ih => exact (Rv32.Single.regfile_zero _ _).trans ih

theorem not_reported (hR : Implements R view) (h₀ : view r₀ = ⟨resetVector, fun _ => 0#32, m⟩) {n : Nat}
    (hlegal : ∀ k < n, ∃ i : Rv32.Isa.Instr,
      (Rv32.Single.trace (fun _ => 0#32) m k).f.instr = i.encode) (traceStart : BitVec 64) {j : Nat}
    (hj : j < n) : ¬Reported R traceStart (fun _ => 0#32) m r₀ j := by
  have hview := view_iterate hR h₀ hlegal (Nat.succ_le_of_lt hj)
  rintro ⟨-, hpc | ⟨i, hi⟩⟩
  · rw [hR.pc, hview] at hpc
    exact hpc rfl
  · rw [hR.gpr, hview, Rv32.Isa.Arch.get] at hi
    by_cases h0 : BitVec.ofFin i = 0#5
    · rw [if_pos h0, h0] at hi
      exact hi (regfile_zero_trace (j + 1)).symm
    · rw [if_neg h0] at hi
      exact hi rfl

end

/-- With a reference that implements the instruction set and starts from the same memory, a session
over legal encodings gives no report. -/
theorem session_quiet {ρ : Type} {R : Reference ρ} {view : ρ → Rv32.Isa.Arch} (hR : Implements R view)
    {m : Mem} {n : Nat} (hf : Followed (fun _ => 0#32) m n)
    (hlegal : ∀ k < n, ∃ i : Rv32.Isa.Instr,
      (Rv32.Single.trace (fun _ => 0#32) m k).f.instr = i.encode)
    {r₀ : ρ} (h₀ : view r₀ = ⟨resetVector, fun _ => 0#32, m⟩) (traceStart : BitVec 64)
    (cpu : CpuState) :
    ∃ fuel₀, ∀ fuel, fuel₀ ≤ fuel → ∃ s w,
      executeDiff R traceStart fuel n (Rv32.Pipe.start (fun _ => 0#32) m) ⟨cpu, r₀, 0#64⟩ =
        some (.ok (s, w)) := by
  obtain ⟨fuel₀, h⟩ := executeDiff_fails_iff R traceStart r₀ hf n 0 (Nat.le_of_eq (Nat.zero_add n))
    (w := ⟨cpu, r₀, 0#64⟩) rfl rfl
  refine ⟨fuel₀, fun fuel hfuel => ?_⟩
  obtain ⟨out, hout, hiff⟩ := h fuel hfuel
  cases out with
  | ok sw => exact ⟨sw.1, sw.2, hout⟩
  | error e =>
      obtain ⟨j, -, hlt, hr⟩ := hiff.mp (fails_throw e)
      exact absurd hr (not_reported hR h₀ hlegal traceStart (Nat.zero_add n ▸ hlt))

/-- The single-cycle CPU as the reference. -/
def singleReference : Reference Rv32.Single.State where
  exec _ s := Rv32.Single.step s
  regcpyToRef cpu s := { s with PC := cpu.pc, regfile := fun r => cpu.gpr r.toFin }
  regcpyToDut s := ⟨fun i => s.arch.get (BitVec.ofFin i), s.PC, fun _ => 0#32⟩

theorem session_quiet_single : ∃ fuel₀, ∀ fuel, fuel₀ ≤ fuel → ∃ s w,
    executeDiff singleReference 0#64 fuel 2 (Rv32.Pipe.start (fun _ => 0#32) haltProgram)
      ⟨mstatusState 0#32, Rv32.Single.start (fun _ => 0#32) haltProgram, 0#64⟩ = some (.ok (s, w)) := by
  have hR : Implements singleReference Rv32.Single.State.arch :=
    ⟨fun _ _ h => Rv32.Single.step_exec h, fun _ => rfl, fun _ _ => rfl⟩
  refine session_quiet hR followed_haltProgram ?_ rfl 0#64 (mstatusState 0#32)
  rintro (_ | _ | k) hk
  · exact ⟨.opImm .addi 10#5 0#5 5#12, by decide +kernel⟩
  · exact ⟨.jal 0#5 0#20, by decide +kernel⟩
  · omega

end MyCpu.Simulator
