import MyCpu.Y86.PipelineSlots

/-!
# The reported status of the pipelined Y86

`cpu_stat_reg` takes over every status other than AOK that W shows, so a later instruction that
does not end in AOK replaces the status of the one that stopped the machine.

* `arrivals` : the instructions that have reached W and what W showed for them;
* `exists_arrival_of_cpuStat` : where the reported status comes from;
* `statusFinal_iff` : the reported status is final exactly when W never shows two different
  statuses other than AOK.
-/

namespace MyCpu.Y86

open Clocked

/-- `w_stat`. -/
def State.wStat (s : State) : BitVec 2 := pipeStageWriteback s.W

section

variable (p : Setup)

/-- The instruction in W with the status W shows for it. -/
def arrival (t : Nat) : Option (Fetched × BitVec 2) :=
  (slotsAt p t).w.map fun x => (x, (trace p t).wStat)

/-- The instructions that have left W in the first `t` clocks with their statuses, in program
order. -/
def arrivals (t : Nat) : List (Fetched × BitVec 2) := emitted (arrival p) t

/-- The first of them that was not AOK. -/
def firstStop (t : Nat) : Option (Fetched × BitVec 2) :=
  (arrivals p t).find? fun a => a.2 != statAok

/-- A reported status other than AOK stays, and it is that of the first instruction in program order
that was not AOK. -/
def StatusFinal : Prop :=
  ∀ t, (trace p t).cpuStat ≠ statAok →
    (∀ u, t ≤ u → (trace p u).cpuStat = (trace p t).cpuStat) ∧
      (firstStop p t).map Prod.snd = some (trace p t).cpuStat

/-- All instructions that are not AOK when they reach W have the same status. -/
def OneStatus : Prop :=
  ∀ t, ∀ a ∈ arrivals p t, ∀ b ∈ arrivals p t, a.2 ≠ statAok → b.2 ≠ statAok → a.2 = b.2

end

section

variable {p : Setup}

/-- A bubble in W shows AOK. -/
theorem wStat_of_bubble {t : Nat} (h : (slotsAt p t).w = none) : (trace p t).wStat = statAok := by
  cases t with
  | zero => rfl
  | succ t =>
      obtain ⟨hic, hst, -, -⟩ := (bubbles_trace p t).m h
      have hctl : memControl (trace p t).M = ⟨false, false, 0#64, 0#64⟩ := by
        unfold memControl
        rw [hic]
        rfl
      show pipeStageWriteback (pipeStageMemory (trace p t).M (trace p t).dataMem) = statAok
      unfold pipeStageWriteback pipeStageMemory memError
      rw [hctl, hic, hst]
      rfl

theorem cpuStat_succ (t : Nat) : (trace p (t + 1)).cpuStat =
    if (trace p t).wStat ≠ statAok then (trace p t).wStat else (trace p t).cpuStat := rfl

/-- A status other than AOK never becomes AOK again. -/
theorem cpuStat_ne_aok {t u : Nat} (htu : t ≤ u) (h : (trace p t).cpuStat ≠ statAok) :
    (trace p u).cpuStat ≠ statAok := by
  induction u, htu using Nat.le_induction with
  | base => exact h
  | succ u _ ih =>
      rw [cpuStat_succ]
      split_ifs with hw
      · exact hw
      · exact ih

/-- A reported status is that of an instruction that has reached W. -/
theorem exists_arrival_of_cpuStat {t : Nat} (h : (trace p t).cpuStat ≠ statAok) :
    ∃ a ∈ arrivals p t, a.2 = (trace p t).cpuStat := by
  induction t with
  | zero => exact absurd rfl h
  | succ t ih =>
      rw [cpuStat_succ] at h ⊢
      split_ifs at h ⊢ with hw
      · cases hx : (slotsAt p t).w with
        | none => exact absurd (wStat_of_bubble hx) hw
        | some x =>
            refine ⟨(x, (trace p t).wStat), ?_, rfl⟩
            apply mem_emitted.mpr
            refine ⟨t, Nat.lt_succ_self t, ?_⟩
            unfold arrival
            rw [hx]
            rfl
      · obtain ⟨a, ha, hst⟩ := ih h
        exact ⟨a, (emitted_prefix_of_le _ (Nat.le_succ t)).subset ha, hst⟩

/-- An instruction that is not AOK is reported in the clock after it reached W. -/
theorem cpuStat_of_arrival {t : Nat} {a : Fetched × BitVec 2} (ha : a ∈ arrivals p t)
    (hst : a.2 ≠ statAok) : ∃ i < t, (trace p (i + 1)).cpuStat = a.2 := by
  obtain ⟨i, hi, hai⟩ := mem_emitted.mp ha
  refine ⟨i, hi, ?_⟩
  unfold arrival at hai
  obtain ⟨x, -, rfl⟩ := Option.map_eq_some_iff.mp hai
  rw [cpuStat_succ, if_pos hst]

theorem firstStop_of_le {t u : Nat} {a : Fetched × BitVec 2} (h : t ≤ u) (ha : firstStop p t = some a) :
    firstStop p u = some a := (emitted_prefix_of_le (arrival p) h).find?_eq_some ha

theorem exists_firstStop {t : Nat} {a : Fetched × BitVec 2} (ha : a ∈ arrivals p t)
    (hst : a.2 ≠ statAok) : ∃ b ∈ arrivals p t, firstStop p t = some b ∧ b.2 ≠ statAok := by
  have hsome : (firstStop p t).isSome = true := List.find?_isSome.mpr ⟨a, ha, bne_iff_ne.mpr hst⟩
  obtain ⟨b, hb⟩ := Option.isSome_iff_exists.mp hsome
  have hbst : (b.2 != statAok) = true := List.find?_some (p := fun c : Fetched × BitVec 2 => c.2 != statAok) hb
  exact ⟨b, List.mem_of_find?_eq_some hb, hb, bne_iff_ne.mp hbst⟩

end

/-- The reported status is final exactly when no two instructions stop with different statuses. -/
theorem statusFinal_iff (p : Setup) : StatusFinal p ↔ OneStatus p := by
  constructor
  · intro h t a ha b hb hast hbst
    have hfirst : ∀ c ∈ arrivals p t, c.2 ≠ statAok → (firstStop p t).map Prod.snd = some c.2 := by
      intro c hc hcst
      obtain ⟨i, hi, hci⟩ := cpuStat_of_arrival hc hcst
      obtain ⟨-, hfirst⟩ := h (i + 1) (hci ▸ hcst)
      obtain ⟨d, hd, hdst⟩ := Option.map_eq_some_iff.mp hfirst
      rw [firstStop_of_le hi hd, Option.map_some, hdst, hci]
    exact Option.some.inj ((hfirst a ha hast).symm.trans (hfirst b hb hbst))
  · intro h t hst
    obtain ⟨a, ha, hat⟩ := exists_arrival_of_cpuStat hst
    constructor
    · intro u hu
      obtain ⟨b, hb, hbu⟩ := exists_arrival_of_cpuStat (cpuStat_ne_aok hu hst)
      rw [← hbu, ← hat]
      exact h u b hb a ((emitted_prefix_of_le _ hu).subset ha) (hbu ▸ cpuStat_ne_aok hu hst) (hat ▸ hst)
    · obtain ⟨b, hb, hfirst, hbst⟩ := exists_firstStop ha (hat ▸ hst)
      rw [hfirst, Option.map_some, ← hat]
      exact congrArg some (h t b hb a ha hbst (hat ▸ hst))

/-- `halt`, then a byte that is no instruction. -/
def haltThenInvalid : Setup := Setup.ofBytes [0x10#8, 0xC0#8]

/-- The status HLT is replaced by INS one clock later. -/
theorem not_statusFinal_haltThenInvalid : ¬StatusFinal haltThenInvalid := by
  intro h
  have h5 : (trace haltThenInvalid 5).cpuStat = statHlt := by decide +kernel
  have h6 : (trace haltThenInvalid 6).cpuStat = statIns := by decide +kernel
  obtain ⟨hstay, -⟩ := h 5 (by rw [h5]; decide)
  have h56 := hstay 6 (by decide)
  rw [h5, h6] at h56
  exact absurd h56 (by decide)

end MyCpu.Y86
