import MyCpu.Runtime.Divide
import MyCpu.Runtime.Multiply
import MyCpu.Rv32.Execution

/-!
# Arithmetic on the pipeline

The routines on the five-stage pipeline. Whatever else is in flight when a program calls one of them,
the pipeline gets back to the caller with the result in the register file.

* `Routine` : the routines with their files, entries, registers and results;
* `call_returns` : a call that the pipeline has retired is answered.
-/

namespace MyCpu.Runtime

open Machine Rv32 Isa

inductive Routine
  | mulsi3 | udivsi3 | umodsi3 | divsi3 | modsi3

namespace Routine

def code : Routine → List Instr
  | mulsi3 => assemble muldi3
  | _ => assemble divS

def entry : Routine → Nat
  | mulsi3 => position .mulsi3 muldi3
  | udivsi3 => position .udivsi3 divS
  | umodsi3 => position .umodsi3 divS
  | divsi3 => position .divsi3 divS
  | modsi3 => position .modsi3 divS

/-- The registers the routine may write. -/
def regs : Routine → List (BitVec 5)
  | mulsi3 => mulRegs
  | udivsi3 => udivRegs
  | umodsi3 | divsi3 | modsi3 => divRegs

/-- What the routine returns for its arguments. -/
def value (a b : Word) : Routine → Word
  | mulsi3 => a * b
  | udivsi3 => divu a b
  | umodsi3 => remu a b
  | divsi3 => div a b
  | modsi3 => rem a b

end Routine

theorem routine_leads {m : Word → Byte} {base : Word} (r : Routine) (hb : base &&& 1#32 = 0#32)
    (hc : HasCode m base r.code) (x : Regs) :
    Leads Step (atInstr m base r.entry x) fun t =>
      Returned r.regs (atInstr m base r.entry x) t ∧ t.x a0 = r.value (x a0) (x a1) := by
  cases r with
  | mulsi3 => exact mulsi3_leads hc x
  | udivsi3 => exact (udivsi3_leads hc x).mono fun _ ⟨hret, hv, _⟩ => ⟨hret, hv⟩
  | umodsi3 => exact umodsi3_leads hc hb x
  | divsi3 => exact divsi3_leads hc hb x
  | modsi3 => exact modsi3_leads hc hb x

/-- When the next instruction the pipeline retires is the first of a routine, a later clock finds it
about to retire the instruction at the return address, with the result in `a0`; memory and all
registers but those in the list of this routine, `r.regs`, are as they were. -/
theorem call_returns {rf : RegFile} {m : Mem} (hx : ∀ n, Pipe.Executable rf m n) (r : Routine)
    {base : Word} (hb : base &&& 1#32 = 0#32) {t : Nat} (hc : HasCode (Pipe.archAt rf m t).mem base r.code)
    (hpc : Pipe.nextPcAt rf m t = codeAddr base r.entry) :
    ∃ u, t ≤ u ∧ Pipe.nextPcAt rf m u = (Pipe.trace rf m t).regfile ra &&& ~~~1#32 ∧
      (Pipe.trace rf m u).regfile a0 =
        r.value ((Pipe.trace rf m t).regfile a0) ((Pipe.trace rf m t).regfile a1) ∧
      Frame r.regs (Pipe.trace rf m t).regfile (Pipe.trace rf m u).regfile ∧
      (Pipe.archAt rf m u).mem = (Pipe.archAt rf m t).mem := by
  have hat : Pipe.archAt rf m t = atInstr (Pipe.archAt rf m t).mem base r.entry
      (Pipe.trace rf m t).regfile := Arch.ext hpc rfl rfl
  have h := routine_leads r hb hc (Pipe.trace rf m t).regfile
  rw [← hat] at h
  obtain ⟨u, hu, ⟨hpc', hmem, hf⟩, hv⟩ := Pipe.leads_retired hx h
  exact ⟨u, hu, hpc', hv, hf, hmem⟩

/-- `addi a0, x0, 5`, `addi a1, x0, 1`, a call of `__mulsi3` behind the stop, the stop. -/
def mulProgram : Mem := Mem.ofWords resetVector
  ((.opImm .addi a0 x0 5#12 :: .opImm .addi a1 x0 1#12 :: .jal ra 4#20 :: .jal x0 0#20 ::
    assemble muldi3).map Instr.encode)

theorem executable_mulProgram : ∀ n, Pipe.Executable (fun _ => 0#32) mulProgram n := by
  refine Pipe.executable_of_halt (N := 12) ?_ ?_ ?_ <;> decide +kernel

/-- After 7 clocks the call has retired. -/
theorem call_returns_mulProgram : ∃ u, 7 ≤ u ∧
    Pipe.nextPcAt (fun _ => 0#32) mulProgram u = 0x8000000C#32 ∧
    (Pipe.trace (fun _ => 0#32) mulProgram u).regfile a0 = 5#32 := by
  have hra : (Pipe.trace (fun _ => 0#32) mulProgram 7).regfile ra &&& ~~~1#32 = 0x8000000C#32 := by
    decide +kernel
  have hv : (Pipe.trace (fun _ => 0#32) mulProgram 7).regfile a0 *
      (Pipe.trace (fun _ => 0#32) mulProgram 7).regfile a1 = 5#32 := by decide +kernel
  have hc : HasCode (Pipe.archAt (fun _ => 0#32) mulProgram 7).mem 0x80000010#32
      (Routine.code .mulsi3) := by
    unfold HasCode
    decide +kernel
  have hb : 0x80000010#32 &&& 1#32 = 0#32 := by decide
  obtain ⟨u, hu, hpc, hval, -, -⟩ := call_returns executable_mulProgram .mulsi3 hb hc (by decide +kernel)
  exact ⟨u, hu, hpc.trans hra, hval.trans hv⟩

end MyCpu.Runtime
