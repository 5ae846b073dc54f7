import MyCpu.Rv32.Csr
import Mathlib.Tactic.SplitIfs

/-!
# Traps of `rv32-pipeline-cpu-new`: entry, interrupts, `mret`

* `oneOutcome_iff` : the trap nets have one solution with the intended meaning exactly when no
  interrupt is requested or a synchronous trap hides it; a request alone has no solution;
* `step_trap`, `step_handler`, `step_mret` : what one clock does to the register file;
* `trap_mret` : from a trap through any handler to its `mret`.
-/

namespace MyCpu.Rv32.CsrPipe

open Clocked

/-! ## One outcome in every situation -/

/-- The trap nets have exactly one solution, it enters a trap for the right reasons, and the cause
recorded for an interrupt is that of the line with the higher priority. -/
def OneOutcome (s : State) (i : Inputs) : Prop :=
  ∃ n : Nets, n.Consistent s i ∧ (∀ m : Nets, m.Consistent s i → m = n) ∧
    (n.trapEnter = true ↔ i.exTrapValid = true ∨ mstatusMie s = true ∧
      (mieMeie s = true ∧ i.meip = true ∨ mieMtie s = true ∧ i.mtip = true)) ∧
    (n.interruptTaken = true → i.rst = false → (posedge s i n).csrfile csrMcause =
      if mieMeie s = true ∧ i.meip = true then causeMei else causeMti)

theorem interruptRequest_iff (s : State) (i : Inputs) :
    interruptRequest s i = true ↔ mstatusMie s = true ∧
      (mieMeie s = true ∧ i.meip = true ∨ mieMtie s = true ∧ i.mtip = true) := by
  unfold interruptRequest interruptPendingMei interruptPendingMti
  rw [Bool.and_eq_true, Bool.or_eq_true, Bool.and_eq_true, Bool.and_eq_true]

theorem oneOutcome_iff (s : State) (i : Inputs) :
    OneOutcome s i ↔ i.exTrapValid = true ∨ interruptRequest s i = false := by
  constructor
  · rintro ⟨n, hn, -⟩
    by_contra hneg
    obtain ⟨hx, hr⟩ := not_or.mp hneg
    exact not_consistent_of_request (eq_false_of_ne_true hx) (eq_true_of_ne_false hr) n hn
  · intro h
    unfold OneOutcome
    rw [← interruptRequest_iff]
    by_cases hx : i.exTrapValid = true
    · refine ⟨⟨false, true⟩, (consistent_iff_of_exTrapValid hx _).mpr rfl,
        fun m hm => (consistent_iff_of_exTrapValid hx m).mp hm, ?_, fun hf => absurd hf Bool.false_ne_true⟩
      exact ⟨fun _ => Or.inl hx, fun _ => rfl⟩
    · have hr := h.resolve_left hx
      have hiff := consistent_iff_of_not_request (eq_false_of_ne_true hx) hr
      refine ⟨⟨false, false⟩, (hiff _).mpr rfl, fun m hm => (hiff m).mp hm, ?_,
        fun hf => absurd hf Bool.false_ne_true⟩
      constructor
      · intro hf
        exact absurd hf Bool.false_ne_true
      · rintro (hx' | hr')
        · exact absurd hx' hx
        · rw [hr] at hr'
          exact absurd hr' Bool.false_ne_true

/-- Interrupts on, the external one enabled and pending. -/
def requestState : State where
  csrfile a := if a = csrMstatus then 0x8#32 else if a = csrMie then 0x800#32 else 0#32
  cycleCnt := 0#64
  instrCnt := 0#64
  trapEnteredLast := false

def requestInputs : Inputs where
  rst := false
  idCsrAddr := 0#12
  idCsrWdata := 0#32
  idCsrOp := 0#3
  idCsrWe := false
  idInstr := 0x13#32
  exTrapValid := false
  exTrapPc := 0x80000000#32
  exTrapCause := 0#32
  exTrapTval := 0#32
  meip := true
  mtip := false

/-- An external interrupt with nothing else going on: the nets have no value. -/
theorem not_oneOutcome_request : ¬OneOutcome requestState requestInputs := by
  rintro ⟨n, hn, -⟩
  exact not_consistent_of_request (by decide) (by decide) n hn

/-! ## One clock -/

/-- A CSR instruction assigns the word `a`, unless a trap or an `mret` comes before it. -/
def CsrWrite (i : Inputs) (a : CsrAddr) : Prop :=
  i.idCsrWe = true ∧ i.idCsrAddr = a ∧
    i.idCsrOp ∈ [0b001#3, 0b010#3, 0b011#3, 0b101#3, 0b110#3, 0b111#3]

instance (i : Inputs) (a : CsrAddr) : Decidable (CsrWrite i a) := by
  unfold CsrWrite; infer_instance

/-- What trap entry, `mret` and the interrupt lines never assign. -/
def Outside (a : CsrAddr) (k : Nat) : Prop :=
  a ∉ [csrMstatus, csrMepc, csrMcause, csrMtval] ∧ (a = csrMip → k ≠ 7 ∧ k ≠ 11)

theorem csrWrite_of_mem {s : State} {i : Inputs} {n : Nba CsrAddr 32} (hwe : i.idCsrWe = true)
    (hn : n ∈ csrOpWrites s i) : CsrWrite i n.addr := by
  unfold csrOpWrites at hn
  split_ifs at hn with h1 h2 h3 h5 h6 h7
  all_goals first
    | exact absurd hn List.not_mem_nil
    | (rw [List.mem_singleton] at hn
       subst hn
       exact ⟨hwe, rfl, by simp [*]⟩)

theorem mip_keeps {i : Inputs} {a : CsrAddr} {k : Nat} (hk : k < 32) (ha : a = csrMip → k ≠ 7 ∧ k ≠ 11)
    (n : Nba CsrAddr 32) (hn : n ∈ mipWrites i) (hna : n.addr = a) : n.mask.getLsbD k = false := by
  simp only [mipWrites, List.mem_cons, List.not_mem_nil, or_false] at hn
  rcases hn with rfl | rfl
  all_goals
    have hbits := ha hna.symm
    rw [Nba.getLsbD_field_mask _ _ _ hk, decide_eq_false_iff_not]
    omega

theorem mip_addr {i : Inputs} {n : Nba CsrAddr 32} (hn : n ∈ mipWrites i) : n.addr = csrMip := by
  simp only [mipWrites, List.mem_cons, List.not_mem_nil, or_false] at hn
  rcases hn with rfl | rfl <;> rfl

theorem trap_addr {s : State} {i : Inputs} {n : Nba CsrAddr 32} (hn : n ∈ trapWrites s i) :
    n.addr ∈ [csrMstatus, csrMepc, csrMcause, csrMtval] := by
  unfold trapWrites at hn
  split_ifs at hn <;>
  · simp only [List.cons_append, List.nil_append, List.mem_cons, List.not_mem_nil, or_false] at hn
    rcases hn with rfl | rfl | rfl | rfl | rfl | rfl <;> simp

theorem mret_addr {s : State} {n : Nba CsrAddr 32} (hn : n ∈ mretWrites s) : n.addr = csrMstatus := by
  unfold mretWrites at hn
  simp only [List.mem_cons, List.not_mem_nil, or_false] at hn
  rcases hn with rfl | rfl | rfl <;> rfl

theorem posedge_csrfile {i : Inputs} (hr : i.rst = false) (s : State) (n : Nets) :
    (posedge s i n).csrfile = commit (branchWrites s i n ++ mipWrites i) s.csrfile := by
  unfold posedge
  rw [hr]
  rfl

/-- Bits that no branch may assign only change by a CSR instruction. -/
theorem posedge_outside {s : State} {i : Inputs} {n : Nets} {a : CsrAddr} {k : Nat} (hk : k < 32)
    (hr : i.rst = false) (ha : Outside a k)
    (hw : n.trapEnter = false → isMret i = false → ¬CsrWrite i a) :
    ((posedge s i n).csrfile a).getLsbD k = (s.csrfile a).getLsbD k := by
  rw [posedge_csrfile hr]
  apply getLsbD_commit_of_keeps hk
  intro m hm hma
  rcases List.mem_append.mp hm with hm | hm
  · exfalso
    unfold branchWrites at hm
    split_ifs at hm with ht hret hwe
    · exact ha.1 (hma ▸ trap_addr hm)
    · exact ha.1 (by simp [← hma, mret_addr hm])
    · exact hw (eq_false_of_ne_true ht) (eq_false_of_ne_true hret)
        (hma ▸ csrWrite_of_mem hwe hm)
    · exact List.not_mem_nil hm
  · exact mip_keeps hk ha.2 m hm hma

theorem posedge_of_ne_mip {i : Inputs} {a : CsrAddr} (hr : i.rst = false) (ha : a ≠ csrMip) (s : State)
    (n : Nets) : (posedge s i n).csrfile a = commit (branchWrites s i n) s.csrfile a := by
  rw [posedge_csrfile hr, commit_append]
  apply commit_of_ne
  intro m hm hma
  exact ha (hma ▸ mip_addr hm)

/-- A synchronous trap saves the PC. -/
theorem posedge_trap_mepc {s : State} {i : Inputs} (hr : i.rst = false) (hx : i.exTrapValid = true) :
    (posedge s i ⟨false, true⟩).csrfile csrMepc = i.exTrapPc := by
  rw [posedge_of_ne_mip hr (by decide)]
  unfold branchWrites trapWrites
  rw [if_pos rfl, if_pos hx, List.cons_append, commit_word_cons]
  intro n hn
  simp only [List.cons_append, List.nil_append, List.mem_cons, List.not_mem_nil, or_false] at hn
  rcases hn with rfl | rfl | rfl | rfl | rfl <;> simp +decide

/-- The bits of `mstatus` that traps move, and the others. -/
theorem mstatus_bit (k : Nat) :
    k = 3 ∨ k = 7 ∨ k = 11 ∨ k = 12 ∨ (k ≠ 3 ∧ k ≠ 7 ∧ k ≠ 11 ∧ k ≠ 12) := by omega

/-- A synchronous trap saves the interrupt enable and clears it. -/
theorem posedge_trap_mstatus {s : State} {i : Inputs} {k : Nat} (hk : k < 32) (hr : i.rst = false)
    (hx : i.exTrapValid = true) :
    ((posedge s i ⟨false, true⟩).csrfile csrMstatus).getLsbD k =
      if k = 3 then false else if k = 7 then mstatusMie s else if k = 11 ∨ k = 12 then true
      else (s.csrfile csrMstatus).getLsbD k := by
  rw [posedge_of_ne_mip hr (by decide)]
  unfold branchWrites trapWrites
  rw [if_pos rfl, if_pos hx]
  simp only [List.cons_append, List.nil_append, commit_cons, commit_nil,
    Nba.getLsbD_field_apply _ _ _ _ _ hk, Nba.word_apply]
  rw [Function.update_of_ne (by decide), Function.update_of_ne (by decide),
    Function.update_of_ne (by decide)]
  rcases mstatus_bit k with rfl | rfl | rfl | rfl | ⟨h3, h7, h11, h12⟩
  · rfl
  · simp
  · rfl
  · rfl
  · rw [if_neg (by omega), if_neg (by omega), if_neg (by omega), if_neg h3, if_neg h7, if_neg (by omega)]

/-- `mret` restores the interrupt enable. -/
theorem posedge_mret_mstatus {s : State} {i : Inputs} {k : Nat} (hk : k < 32) (hr : i.rst = false)
    (hm : isMret i = true) :
    ((posedge s i ⟨false, false⟩).csrfile csrMstatus).getLsbD k =
      if k = 3 then (s.csrfile csrMstatus).getLsbD 7 else if k = 7 then true
      else if k = 11 ∨ k = 12 then false else (s.csrfile csrMstatus).getLsbD k := by
  rw [posedge_of_ne_mip hr (by decide)]
  unfold branchWrites mretWrites
  rw [if_neg Bool.false_ne_true, if_pos hm]
  simp only [commit_cons, commit_nil, Nba.getLsbD_field_apply _ _ _ _ _ hk]
  rcases mstatus_bit k with rfl | rfl | rfl | rfl | ⟨h3, h7, h11, h12⟩
  · simp
  · rfl
  · rfl
  · rfl
  · rw [if_neg (by omega), if_neg (by omega), if_neg (by omega), if_neg h3, if_neg h7, if_neg (by omega)]

/-- A word that neither a trap nor an `mret` nor a CSR instruction assigns. -/
theorem posedge_of_quiet {s : State} {i : Inputs} {a : CsrAddr} (hr : i.rst = false)
    (hm : isMret i = false) (ha : a ≠ csrMip) (hw : ¬CsrWrite i a) :
    (posedge s i ⟨false, false⟩).csrfile a = s.csrfile a := by
  rw [posedge_of_ne_mip hr ha]
  unfold branchWrites
  rw [if_neg Bool.false_ne_true, hm, if_neg Bool.false_ne_true]
  split_ifs with hwe
  · apply commit_of_ne
    intro n hn hna
    exact hw (hna ▸ csrWrite_of_mem hwe hn)
  · rfl

theorem step_trap {s : State} {i : Inputs} (hx : i.exTrapValid = true) :
    settle s i = some ⟨false, true⟩ ∧ step s i = some (posedge s i ⟨false, true⟩) := by
  have hs : settle s i = some ⟨false, true⟩ :=
    settle_of_consistent_iff (consistent_iff_of_exTrapValid hx)
  refine ⟨hs, ?_⟩
  unfold step
  rw [hs]
  rfl

/-- A CSR instruction in the clock of a trap is dropped. -/
theorem step_trap_csr {s : State} {i : Inputs} (hx : i.exTrapValid = true) (addr : CsrAddr) (wdata : Word)
    (op : BitVec 3) (we : Bool) :
    step s { i with idCsrAddr := addr, idCsrWdata := wdata, idCsrOp := op, idCsrWe := we } =
      step s i := by
  rw [(step_trap hx).2, (step_trap (by exact hx)).2]
  unfold posedge branchWrites
  rw [if_pos rfl, if_pos rfl]
  rfl

/-- With interrupts off no line is taken. -/
theorem step_masked {s : State} {i : Inputs} (hx : i.exTrapValid = false) (hm : mstatusMie s = false) :
    settle s i = some ⟨false, false⟩ ∧ step s i = some (posedge s i ⟨false, false⟩) := by
  have hreq : interruptRequest s i = false := by
    unfold interruptRequest
    rw [hm, Bool.false_and]
  have hs : settle s i = some ⟨false, false⟩ :=
    settle_of_consistent_iff (consistent_iff_of_not_request hx hreq)
  refine ⟨hs, ?_⟩
  unfold step
  rw [hs]
  rfl

/-! ## From a trap to its `mret` -/

/-- A clock of a trap handler. -/
structure HandlerInputs (i : Inputs) : Prop where
  rst : i.rst = false
  exTrapValid : i.exTrapValid = false
  mret : isMret i = false
  mstatus : ¬CsrWrite i csrMstatus
  mepc : ¬CsrWrite i csrMepc

/-- The state before clock `t` of a handler that was entered from `s₀` at clock 0. -/
structure Handling (s₀ : State) (inp : Nat → Inputs) (t : Nat) (s : State) : Prop where
  mepc : s.csrfile csrMepc = (inp 0).exTrapPc
  mie : mstatusMie s = false
  mpie : (s.csrfile csrMstatus).getLsbD 7 = mstatusMie s₀
  mstatus : ∀ k < 32, k ≠ 3 → k ≠ 7 → k ≠ 11 → k ≠ 12 →
    (s.csrfile csrMstatus).getLsbD k = (s₀.csrfile csrMstatus).getLsbD k
  outside : ∀ a, ∀ k < 32, Outside a k → (∀ u, 0 < u → u < t → ¬CsrWrite (inp u) a) →
    (s.csrfile a).getLsbD k = (s₀.csrfile a).getLsbD k

theorem handling_enter {s₀ : State} {inp : Nat → Inputs} (hr : (inp 0).rst = false)
    (hx : (inp 0).exTrapValid = true) : Handling s₀ inp 1 (posedge s₀ (inp 0) ⟨false, true⟩) where
  mepc := posedge_trap_mepc hr hx
  mie := by
    unfold mstatusMie
    rw [posedge_trap_mstatus (by decide) hr hx, if_pos rfl]
  mpie := by
    rw [posedge_trap_mstatus (by decide) hr hx]
    rfl
  mstatus := by
    intro k hk h3 h7 h11 h12
    rw [posedge_trap_mstatus hk hr hx, if_neg h3, if_neg h7, if_neg (by omega)]
  outside := by
    intro a k hk ha _
    exact posedge_outside hk hr ha fun h => absurd h.symm Bool.false_ne_true

theorem handling_step {s₀ s : State} {inp : Nat → Inputs} {t : Nat} (hi : HandlerInputs (inp t))
    (ht : 0 < t) (h : Handling s₀ inp t s) :
    Handling s₀ inp (t + 1) (posedge s (inp t) ⟨false, false⟩) := by
  have hmstatus : (posedge s (inp t) ⟨false, false⟩).csrfile csrMstatus = s.csrfile csrMstatus :=
    posedge_of_quiet hi.rst hi.mret (by decide) hi.mstatus
  constructor
  · rw [posedge_of_quiet hi.rst hi.mret (by decide) hi.mepc]
    exact h.mepc
  · unfold mstatusMie
    rw [hmstatus]
    exact h.mie
  · rw [hmstatus]
    exact h.mpie
  · intro k hk h3 h7 h11 h12
    rw [hmstatus]
    exact h.mstatus k hk h3 h7 h11 h12
  · intro a k hk ha hw
    rw [posedge_outside hk hi.rst ha fun _ _ => hw t ht (Nat.lt_succ_self t)]
    exact h.outside a k hk ha fun u hu hut => hw u hu (Nat.lt_succ_of_lt hut)

/-- Every clock of the handler is reached, with interrupts off. -/
theorem handling_trace {s₀ : State} {inp : Nat → Inputs} {n : Nat} (hr : (inp 0).rst = false)
    (hx : (inp 0).exTrapValid = true) (hh : ∀ t, 0 < t → t ≤ n → HandlerInputs (inp t)) :
    ∀ t ≤ n, ∃ s, trace s₀ inp (t + 1) = some s ∧ Handling s₀ inp (t + 1) s := by
  intro t
  induction t with
  | zero =>
      intro _
      exact ⟨_, (step_trap hx).2, handling_enter hr hx⟩
  | succ t ih =>
      intro ht
      obtain ⟨s, hs, h⟩ := ih (by omega)
      have hi := hh (t + 1) (Nat.succ_pos t) ht
      refine ⟨_, ?_, handling_step hi (Nat.succ_pos t) h⟩
      show (trace s₀ inp (t + 1)).bind (fun s => step s (inp (t + 1))) = _
      rw [hs, Option.bind_some]
      exact (step_masked hi.exTrapValid h.mie).2

/-- Trap entry and `mret` are inverse, and nothing interrupts the handler in between: from the
trap in clock 0 through the handler in clocks 1 to `n` to the `mret` in clock `n + 1`. -/
theorem trap_mret (s₀ : State) (inp : Nat → Inputs) (n : Nat) (hr : (inp 0).rst = false)
    (hx : (inp 0).exTrapValid = true) (hh : ∀ t, 0 < t → t ≤ n → HandlerInputs (inp t))
    (hr' : (inp (n + 1)).rst = false) (hx' : (inp (n + 1)).exTrapValid = false)
    (hm : isMret (inp (n + 1)) = true) :
    ∃ s s', trace s₀ inp (n + 1) = some s ∧ trace s₀ inp (n + 2) = some s' ∧
      (∀ t, 0 < t → t ≤ n + 1 → ∃ u, trace s₀ inp t = some u ∧
        ∃ nets, settle u (inp t) = some nets ∧ nets.interruptTaken = false) ∧
      mretTargetPc s = (inp 0).exTrapPc ∧
      mstatusMie s' = mstatusMie s₀ ∧
      (s'.csrfile csrMstatus).getLsbD 7 = true ∧
      (s'.csrfile csrMstatus).extractLsb' 11 2 = 0#2 ∧
      (∀ k < 32, k ≠ 3 → k ≠ 7 → k ≠ 11 → k ≠ 12 →
        (s'.csrfile csrMstatus).getLsbD k = (s₀.csrfile csrMstatus).getLsbD k) ∧
      (∀ a, a ∉ [csrMstatus, csrMepc, csrMcause, csrMtval, csrMip] →
        (∀ t, 0 < t → t ≤ n → ¬CsrWrite (inp t) a) → s'.csrfile a = s₀.csrfile a) ∧
      ((∀ t, 0 < t → t ≤ n → ¬CsrWrite (inp t) csrMip) → ∀ k < 32, k ≠ 7 → k ≠ 11 →
        (s'.csrfile csrMip).getLsbD k = (s₀.csrfile csrMip).getLsbD k) ∧
      ∀ addr wdata op we, step s₀ { inp 0 with
        idCsrAddr := addr, idCsrWdata := wdata, idCsrOp := op, idCsrWe := we } = step s₀ (inp 0) := by
  obtain ⟨s, hs, h⟩ := handling_trace hr hx hh n (Nat.le_refl n)
  have hs' : trace s₀ inp (n + 2) = some (posedge s (inp (n + 1)) ⟨false, false⟩) := by
    show (trace s₀ inp (n + 1)).bind (fun s => step s (inp (n + 1))) = _
    rw [hs, Option.bind_some]
    exact (step_masked hx' h.mie).2
  have hbits : ∀ a, ∀ k < 32, Outside a k → (∀ t, 0 < t → t ≤ n → ¬CsrWrite (inp t) a) →
      ((posedge s (inp (n + 1)) ⟨false, false⟩).csrfile a).getLsbD k = (s₀.csrfile a).getLsbD k := by
    intro a k hk ha hw
    rw [posedge_outside hk hr' ha fun _ h' => absurd (hm.symm.trans h') Bool.true_eq_false.mp]
    exact h.outside a k hk ha fun u hu hun => hw u hu (Nat.lt_succ_iff.mp hun)
  refine ⟨s, _, hs, hs', ?_, h.mepc, ?_, ?_, ?_, ?_, ?_, ?_, ?_⟩
  · intro t ht htn
    obtain ⟨t, rfl⟩ := Nat.exists_eq_succ_of_ne_zero (Nat.ne_of_gt ht)
    have hu : ∃ u, trace s₀ inp (t + 1) = some u ∧ Handling s₀ inp (t + 1) u :=
      handling_trace hr hx hh t (by omega)
    obtain ⟨u, hu, hut⟩ := hu
    refine ⟨u, hu, ⟨false, false⟩, ?_, rfl⟩
    rcases Nat.lt_or_eq_of_le htn with hlt | heq
    · exact (step_masked (hh (t + 1) ht (by omega)).exTrapValid hut.mie).1
    · rw [heq]
      exact (step_masked hx' hut.mie).1
  · unfold mstatusMie
    rw [posedge_mret_mstatus (by decide) hr' hm, if_pos rfl]
    exact h.mpie
  · rw [posedge_mret_mstatus (by decide) hr' hm]
    rfl
  · apply BitVec.eq_of_getLsbD_eq
    intro k hk
    rw [BitVec.getLsbD_extractLsb', posedge_mret_mstatus (by omega) hr' hm, if_neg (by omega),
      if_neg (by omega), if_pos (by omega)]
    simp
  · intro k hk h3 h7 h11 h12
    rw [posedge_mret_mstatus hk hr' hm, if_neg h3, if_neg h7, if_neg (by omega)]
    exact h.mstatus k hk h3 h7 h11 h12
  · intro a ha hw
    apply BitVec.eq_of_getLsbD_eq
    intro k hk
    exact hbits a k hk ⟨fun hmem => ha (List.mem_append_left [csrMip] hmem),
      fun hmip => absurd (by simp [hmip]) ha⟩ hw
  · intro hw k hk h7 h11
    exact hbits csrMip k hk ⟨by decide, fun _ => ⟨h7, h11⟩⟩ hw
  · exact step_trap_csr hx

/-- A trap, one clock of a handler that writes `mscratch`, an `mret`; both lines are up throughout. -/
def handlerInputs (t : Nat) : Inputs :=
  { requestInputs with
    mtip := true
    exTrapValid := t == 0
    idCsrWe := t == 1
    idCsrOp := 0b001#3
    idCsrAddr := csrMscratch
    idCsrWdata := 0x55#32
    idInstr := if t = 2 then 0x30200073#32 else 0x34051073#32 }

theorem trap_mret_handlerInputs : ∃ s s', trace requestState handlerInputs 2 = some s ∧
    trace requestState handlerInputs 3 = some s' ∧ mretTargetPc s = 0x80000000#32 ∧
    mstatusMie s' = true := by
  have hh : ∀ t, 0 < t → t ≤ 1 → HandlerInputs (handlerInputs t) := by
    intro t h0 h1
    obtain rfl : t = 1 := by omega
    constructor <;> decide
  obtain ⟨s, s', hs, hs', -, hpc, hmie, -⟩ := trap_mret requestState handlerInputs 1 (by decide)
    (by decide) hh (by decide) (by decide) (by decide)
  exact ⟨s, s', hs, hs', hpc, hmie⟩

end MyCpu.Rv32.CsrPipe
