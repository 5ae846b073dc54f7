import MyCpu.Clocked.Nonblocking
import MyCpu.Rv32.Memory

/-!
# The CSR and trap unit of `rv32-pipeline-cpu-new`

`csr_pipe.v`. The wires are functions of the registers and the ports, except for `interrupt_taken`
and `trap_enter`: each is defined from the other, so they are a solution of two equations.

* `State`, `Inputs` : the registers and the input ports;
* `Nets.Consistent` : the two equations, `settle` : their solution when there is exactly one;
* `posedge` : the clock edge, given values of the two nets;
* `step`, `trace` : the clock edge with the nets settled, and its runs.
-/

namespace MyCpu.Rv32.CsrPipe

open Clocked (Nba commit)

/-- A CSR number. -/
abbrev CsrAddr := BitVec 12

abbrev csrMstatus : CsrAddr := 0x300#12
abbrev csrMisa : CsrAddr := 0x301#12
abbrev csrMie : CsrAddr := 0x304#12
abbrev csrMtvec : CsrAddr := 0x305#12
abbrev csrMscratch : CsrAddr := 0x340#12
abbrev csrMepc : CsrAddr := 0x341#12
abbrev csrMcause : CsrAddr := 0x342#12
abbrev csrMtval : CsrAddr := 0x343#12
abbrev csrMip : CsrAddr := 0x344#12
abbrev csrMcycle : CsrAddr := 0xb00#12
abbrev csrMinstret : CsrAddr := 0xb02#12

abbrev causeMei : Word := 0x8000000b#32
abbrev causeMti : Word := 0x80000007#32
abbrev mstatusReset : Word := 0x00001800#32
abbrev misaReset : Word := 0x40001100#32

structure State where
  csrfile : CsrAddr → Word
  cycleCnt : BitVec 64
  instrCnt : BitVec 64
  trapEnteredLast : Bool

structure Inputs where
  rst : Bool
  idCsrAddr : CsrAddr
  idCsrWdata : Word
  idCsrOp : BitVec 3
  idCsrWe : Bool
  idInstr : Word
  exTrapValid : Bool
  exTrapPc : Word
  exTrapCause : Word
  exTrapTval : Word
  meip : Bool
  mtip : Bool

/-! ## Wires -/

def mstatusMie (s : State) : Bool := (s.csrfile csrMstatus).getLsbD 3
def mieMeie (s : State) : Bool := (s.csrfile csrMie).getLsbD 11
def mieMtie (s : State) : Bool := (s.csrfile csrMie).getLsbD 7

def isMret (i : Inputs) : Bool := i.idInstr == 0x30200073#32

/-- The CSR read port: the two counters are not in the register file. -/
def csrReadVal (s : State) (i : Inputs) : Word :=
  if i.idCsrAddr = csrMcycle then s.cycleCnt.extractLsb' 0 32
  else if i.idCsrAddr = csrMinstret then s.instrCnt.extractLsb' 0 32
  else s.csrfile i.idCsrAddr

def interruptPendingMei (s : State) (i : Inputs) : Bool := mieMeie s && i.meip
def interruptPendingMti (s : State) (i : Inputs) : Bool := mieMtie s && i.mtip

def interruptCause (s : State) (i : Inputs) : Word :=
  if interruptPendingMei s i then causeMei
  else if interruptPendingMti s i then causeMti
  else 0#32

def interruptTval (_s : State) (_i : Inputs) : Word := 0#32

/-- An interrupt is enabled and pending. -/
def interruptRequest (s : State) (i : Inputs) : Bool :=
  mstatusMie s && (interruptPendingMei s i || interruptPendingMti s i)

def mretTargetPc (s : State) : Word := s.csrfile csrMepc

/-! ## The two nets that are defined from each other -/

structure Nets where
  interruptTaken : Bool
  trapEnter : Bool
deriving DecidableEq

/-- The two continuous assignments hold. -/
def Nets.Consistent (s : State) (i : Inputs) (n : Nets) : Prop :=
  n.interruptTaken = (if n.trapEnter then false else interruptRequest s i) ∧
    n.trapEnter = (i.exTrapValid || n.interruptTaken)

instance (s : State) (i : Inputs) (n : Nets) : Decidable (n.Consistent s i) := by
  unfold Nets.Consistent; infer_instance

/-- Every valuation of the two nets. -/
def Nets.all : List Nets := [⟨false, false⟩, ⟨false, true⟩, ⟨true, false⟩, ⟨true, true⟩]

theorem Nets.mem_all (n : Nets) : n ∈ Nets.all := by
  obtain ⟨it, te⟩ := n
  cases it <;> cases te <;> simp [all]

/-- The values the nets settle at: the solution of the equations, when there is exactly one. -/
def settle (s : State) (i : Inputs) : Option Nets :=
  match Nets.all.filter fun n => decide (n.Consistent s i) with
  | [n] => some n
  | _ => none

/-- A synchronous trap keeps interrupts out. -/
theorem consistent_iff_of_exTrapValid {s : State} {i : Inputs} (h : i.exTrapValid = true) (n : Nets) :
    n.Consistent s i ↔ n = ⟨false, true⟩ := by
  obtain ⟨it, te⟩ := n
  unfold Nets.Consistent
  rw [h]
  cases it <;> cases te <;> simp

/-- Without a request nothing happens. -/
theorem consistent_iff_of_not_request {s : State} {i : Inputs} (h : i.exTrapValid = false)
    (hr : interruptRequest s i = false) (n : Nets) :
    n.Consistent s i ↔ n = ⟨false, false⟩ := by
  obtain ⟨it, te⟩ := n
  unfold Nets.Consistent
  rw [h, hr]
  cases it <;> cases te <;> simp

/-- A request without a synchronous trap: taking the interrupt withdraws it, and withdrawing it
takes it. -/
theorem not_consistent_of_request {s : State} {i : Inputs} (h : i.exTrapValid = false)
    (hr : interruptRequest s i = true) (n : Nets) : ¬n.Consistent s i := by
  obtain ⟨it, te⟩ := n
  unfold Nets.Consistent
  rw [h, hr]
  cases it <;> cases te <;> simp

theorem settle_of_consistent_iff {s : State} {i : Inputs} {n₀ : Nets}
    (h : ∀ n : Nets, n.Consistent s i ↔ n = n₀) : settle s i = some n₀ := by
  have hfun : (fun n : Nets => decide (n.Consistent s i)) = fun n => decide (n = n₀) :=
    funext fun n => decide_eq_decide.mpr (h n)
  unfold settle
  rw [hfun]
  obtain ⟨it, te⟩ := n₀
  cases it <;> cases te <;> decide

/-- `settle` gives the one solution. -/
theorem settle_eq_some_iff (s : State) (i : Inputs) (n₀ : Nets) :
    settle s i = some n₀ ↔ ∀ n : Nets, n.Consistent s i ↔ n = n₀ := by
  refine ⟨fun h n => ?_, settle_of_consistent_iff⟩
  unfold settle at h
  split at h
  next m hm =>
    cases h
    constructor
    · intro hn
      have hmem : n ∈ [n₀] := by
        rw [← hm]
        exact List.mem_filter.mpr ⟨Nets.mem_all n, decide_eq_true hn⟩
      exact List.mem_singleton.mp hmem
    · rintro rfl
      have hmem : n ∈ Nets.all.filter fun k => decide (k.Consistent s i) := by
        rw [hm]
        exact List.mem_singleton_self n
      exact of_decide_eq_true (List.mem_filter.mp hmem).2
  next => cases h

/-! ## The clock edge -/

/-- Entering a trap. -/
def trapWrites (s : State) (i : Inputs) : List (Nba CsrAddr 32) :=
  (if i.exTrapValid then
    [.word csrMepc i.exTrapPc, .word csrMcause i.exTrapCause, .word csrMtval i.exTrapTval]
  else
    [.word csrMepc i.exTrapPc, .word csrMcause (interruptCause s i),
      .word csrMtval (interruptTval s i)]) ++
  [.field csrMstatus 11 0b11#2, .field csrMstatus 7 (BitVec.ofBool (mstatusMie s)),
    .field csrMstatus 3 0#1]

/-- Returning from one. -/
def mretWrites (s : State) : List (Nba CsrAddr 32) :=
  [.field csrMstatus 3 (BitVec.ofBool ((s.csrfile csrMstatus).getLsbD 7)),
    .field csrMstatus 7 1#1, .field csrMstatus 11 0b00#2]

/-- A CSR instruction; the other two operations write nothing. -/
def csrOpWrites (s : State) (i : Inputs) : List (Nba CsrAddr 32) :=
  if i.idCsrOp = 0b001#3 then [.word i.idCsrAddr i.idCsrWdata]
  else if i.idCsrOp = 0b010#3 then [.word i.idCsrAddr (csrReadVal s i ||| i.idCsrWdata)]
  else if i.idCsrOp = 0b011#3 then [.word i.idCsrAddr (csrReadVal s i &&& ~~~i.idCsrWdata)]
  else if i.idCsrOp = 0b101#3 then [.word i.idCsrAddr i.idCsrWdata]
  else if i.idCsrOp = 0b110#3 then [.word i.idCsrAddr (csrReadVal s i ||| i.idCsrWdata)]
  else if i.idCsrOp = 0b111#3 then [.word i.idCsrAddr (csrReadVal s i &&& ~~~i.idCsrWdata)]
  else []

/-- The interrupt lines, sampled at every edge. -/
def mipWrites (i : Inputs) : List (Nba CsrAddr 32) :=
  [.field csrMip 11 (BitVec.ofBool i.meip), .field csrMip 7 (BitVec.ofBool i.mtip)]

def resetWrites : List (Nba CsrAddr 32) :=
  [.word csrMstatus mstatusReset, .word csrMisa misaReset, .word csrMie 0#32, .word csrMtvec 0#32,
    .word csrMscratch 0#32, .word csrMepc 0#32, .word csrMcause 0#32, .word csrMtval 0#32,
    .word csrMip 0#32]

/-- What the first of the three branches that applies assigns. -/
def branchWrites (s : State) (i : Inputs) (n : Nets) : List (Nba CsrAddr 32) :=
  if n.trapEnter then trapWrites s i
  else if isMret i then mretWrites s
  else if i.idCsrWe then csrOpWrites s i
  else []

def posedge (s : State) (i : Inputs) (n : Nets) : State :=
  if i.rst then
    { csrfile := commit resetWrites s.csrfile, cycleCnt := 0#64, instrCnt := 0#64,
      trapEnteredLast := false }
  else
    { csrfile := commit (branchWrites s i n ++ mipWrites i) s.csrfile
      cycleCnt := s.cycleCnt + 1#64
      instrCnt := s.instrCnt
      trapEnteredLast := n.trapEnter }

/-- The clock edge; no value when the nets do not settle. -/
def step (s : State) (i : Inputs) : Option State := (settle s i).map (posedge s i)

/-- The state before clock `t`. -/
def trace (s₀ : State) (inp : Nat → Inputs) : Nat → Option State
  | 0 => some s₀
  | t + 1 => (trace s₀ inp t).bind fun s => step s (inp t)

end MyCpu.Rv32.CsrPipe
