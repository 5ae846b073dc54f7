import MyCpu.Y86.Stall

/-!
# Taken jumps

A jump found taken in M turns the instructions in F, D and E into bubbles and selects its target as
the next PC. The PC register obeys `F_stall` first, and the instructions being discarded can raise
it.

* `squashed_of_mispredicted` : what is in F, D and E never writes anything;
* `recovered_iff` : the target is fetched next exactly when the discarded instructions hold no `ret`
  and no load with its use, or F happens to be at the target already.
-/

namespace MyCpu.Y86

open Clocked

/-- Recovery from the jump in M after `t` clocks: its target is next in F, and what F delivers in
this clock and what D and E hold writes nothing from now on. -/
structure Recovered (p : Setup) (t : Nat) : Prop where
  redirect : (trace p (t + 1)).fPc = (trace p t).M.valC
  squashed : ∀ x, x = fetchedAt p t ∨ (slotsAt p t).d = some x ∨ (slotsAt p t).e = some x →
    ∀ t', t ≤ t' → ¬Writes p t' x

section

variable {p : Setup} {t : Nat}

theorem inFlight_of_mispredicted
    (h : mispredicted (trace p t).M.icode (trace p t).M.cnd = true) :
    (slotsAt p (t + 1)).inFlight = (slotsAt p t).m.toList := by
  have hE : (trace p t).control.eBubble = true := by rw [eBubble_eq, h, Bool.true_or]
  have hD : (trace p t).control.dBubble = true := by rw [dBubble_eq, h, Bool.true_or]
  rw [slotsAt_succ, Slots.inFlight, Slots.younger, Slots.advance]
  simp [State.slotControl, hE, hD]

theorem squashed_of_mispredicted
    (h : mispredicted (trace p t).M.icode (trace p t).M.cnd = true) {x : Fetched}
    (hx : x = fetchedAt p t ∨ (slotsAt p t).d = some x ∨ (slotsAt p t).e = some x) {t' : Nat}
    (ht : t ≤ t') : ¬Writes p t' x := by
  have hstamp := cycle_fetchedAt p
  have hcyc : x.cycle < t + 1 := by
    rcases hx with rfl | hx | hx
    · exact Nat.lt_succ_self t
    · exact Nat.lt_succ_of_lt (stamp_lt_of_mem hstamp
        (Slots.mem_inFlight.mpr (.inr (.inr (.inr hx)))))
    · exact Nat.lt_succ_of_lt (stamp_lt_of_mem hstamp
        (Slots.mem_inFlight.mpr (.inr (.inr (.inl hx)))))
  have hold : ∀ y, (slotsAt p t).w = some y ∨ (slotsAt p t).m = some y → y.cycle < x.cycle := by
    intro y hy
    rcases hx with rfl | hx | hx
    · exact stamp_lt_of_mem hstamp
        (Slots.mem_inFlight.mpr (hy.elim .inl fun h => .inr (.inl h)))
    · exact stamp_lt_of_older hstamp hy (.inr hx)
    · exact stamp_lt_of_older hstamp hy (.inl hx)
  have hgone : x ∉ (slotsAt p (t + 1)).inFlight := by
    rw [inFlight_of_mispredicted h, Option.mem_toList]
    exact fun hm => Nat.lt_irrefl _ (hold x (.inr hm))
  intro hw
  rcases Nat.lt_or_eq_of_le ht with hlt | rfl
  · exact not_mem_inFlight_of_le hstamp hgone hcyc t' hlt (mem_inFlight_of_writes hw)
  · rcases hw with ⟨-, hcc⟩ | ⟨hm, -⟩ | ⟨hwb, -⟩
    · -- the condition codes are held by `E_bubble`
      rw [State.setCc, eBubble_eq, h, Bool.true_or] at hcc
      simp at hcc
    · exact Nat.lt_irrefl _ (hold x (.inr hm))
    · exact Nat.lt_irrefl _ (hold x (.inl hwb))

/-- With a taken jump in M recovery works if and only if neither D nor E holds a `ret`, nor the two
of them a load and its use, unless F is at the target of the jump already. -/
theorem recovered_iff (p : Setup) (t : Nat)
    (h : mispredicted (trace p t).M.icode (trace p t).M.cnd = true) :
    Recovered p t ↔ ((trace p t).D.icode ≠ icRet ∧ (trace p t).E.icode ≠ icRet ∧
      ¬(trace p t).LoadUse) ∨ (trace p t).fPc = (trace p t).M.valC := by
  have hM : (trace p t).M.icode = icJxx ∧ (trace p t).M.cnd = true := by
    simpa [mispredicted] using h
  have hF : (trace p t).control.fStall = false ↔ (trace p t).D.icode ≠ icRet ∧
      (trace p t).E.icode ≠ icRet ∧ ¬(trace p t).LoadUse := by
    rw [fStall_eq, ← dStall_iff, retHazard, hM.1]
    simp only [Bool.or_eq_false_iff, beq_eq_false_iff_ne, Bool.not_eq_true]
    constructor
    · rintro ⟨h1, ⟨h2, h3⟩, -⟩
      exact ⟨h2, h3, h1⟩
    · rintro ⟨h2, h3, h1⟩
      exact ⟨h1, ⟨h2, h3⟩, by decide⟩
  have hpc : (trace p (t + 1)).fPc = if (trace p t).control.fStall = false
      then (trace p t).M.valC else (trace p t).fPc := by
    rw [fPc_succ, newPc, if_pos hM]
  rw [← hF]
  constructor
  · intro hr
    by_cases hs : (trace p t).control.fStall = false
    · exact .inl hs
    · rw [if_neg hs] at hpc
      exact .inr (hpc.symm.trans hr.redirect)
  · intro hc
    refine ⟨?_, fun x hx t' ht => squashed_of_mispredicted h hx ht⟩
    rw [hpc]
    split
    · rfl
    · next hs => exact hc.resolve_left hs

/-- `jmp 64`, then `nop`s. -/
def jumpThenNop : Setup := Setup.ofBytes [0x70#8, 0x40#8]

theorem recovered_jumpThenNop : Recovered jumpThenNop 3 :=
  (recovered_iff jumpThenNop 3 (by decide +kernel)).mpr (.inl (by decide +kernel))

/-- `jmp 64`, `ret`. -/
def jumpThenRet : Setup :=
  Setup.ofBytes [0x70#8, 0x40#8, 0#8, 0#8, 0#8, 0#8, 0#8, 0#8, 0#8, 0x90#8]

/-- The `ret` behind the jump, about to be discarded, holds the PC at the address behind itself. -/
theorem not_recovered_jumpThenRet :
    mispredicted (trace jumpThenRet 3).M.icode (trace jumpThenRet 3).M.cnd = true ∧
      ¬Recovered jumpThenRet 3 := by
  refine ⟨by decide +kernel, fun h => ?_⟩
  have hpc : (trace jumpThenRet 4).fPc ≠ (trace jumpThenRet 3).M.valC := by decide +kernel
  exact hpc h.redirect

end

end MyCpu.Y86
