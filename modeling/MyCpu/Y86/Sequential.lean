import MyCpu.Y86.Pipeline

/-!
# The stages one instruction at a time

The stage functions of the pipeline run in one go for each instruction, with nothing on its way to
forward. For `exec` the word is an argument, so that a bubble can be executed too.

* `exec_bubble` : a bubble at address 0 changes nothing;
* `seq p k` : the machine after the first `k` instructions of `p`.
-/

namespace MyCpu.Y86

open Clocked

/-- What an instruction finds and leaves. -/
structure SeqState where
  pc : Word
  regFile : RegFile
  cc : CC
  dataMem : DataMem

namespace SeqState

variable (s : SeqState) (D : FD)

def decode : DE := pipeStageDecode D s.regFile []

def execute : ExecuteOut := pipeStageExecute (s.decode D) s.cc []

def memIn : EM := emInput (s.execute D) D.valP

def result : MW := pipeStageMemory (s.memIn D) s.dataMem

/-- The word the instruction stores, and where. -/
def memWrite : Option (BitVec 8 × Word) := Y86.memWrite (s.memIn D)

/-- The condition codes the instruction sets. -/
def ccUpdate : Option CC :=
  if D.icode = icAlu then some (ccReg (s.decode D) false s.cc []) else none

def exec : SeqState where
  pc := newPc D.valP (s.memIn D) (s.result D)
  regFile := s.regFile.after (s.result D)
  cc := ccReg (s.decode D) false s.cc []
  dataMem := s.dataMem.after (s.memWrite D)

end SeqState

section

variable (p : Setup)

/-- The sequential machine after `k` instructions. -/
def seq (k : Nat) : SeqState :=
  run (fun _ s => s.exec (pipeStageFetch p.imem s.pc)) ⟨0#64, p.regFile, p.cc, p.dataMem⟩ k

/-- Its `k`-th instruction. -/
def seqInstr (k : Nat) : FD := pipeStageFetch p.imem (seq p k).pc

theorem seq_succ (k : Nat) : seq p (k + 1) = (seq p k).exec (seqInstr p k) := rfl

end

namespace SeqState

theorem exec_bubble {s : SeqState} (h : s.pc = 0#64) : s.exec FD.bubble = s := by
  obtain ⟨pc, rf, cc, m⟩ := s
  rw [show pc = 0#64 from h]
  rfl

end SeqState

end MyCpu.Y86
