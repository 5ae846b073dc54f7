import Mathlib.Data.Nat.Init
import MyCpu.Clocked.Run

/-!
# Which instruction is where in a five-stage pipeline

The registers of an in-order pipeline hold values; this module follows the instructions
themselves. `Slots` names the instruction in each register behind fetch (`none` is a bubble) and
`Slots.advance` moves them under the stall and bubble inputs of one clock.

* `inFlight_advance` : a clock drops, keeps or moves on what is in flight, in order, and may add
  the word just fetched at the young end;
* `retired_append_inFlight_sublist` : over a whole run the retired instructions followed by those
  in flight are a subsequence of the fetched ones, so each retires at most once and in order;
* `not_mem_inFlight_of_le` : what has left the pipeline never comes back;
* `mem_younger_of_lt`, `d_of_mem_inFlight` : where an instruction in flight has been before;
* `retired_of_flow` : what retires when nothing is stalled or flushed;
* `exists_retire` : a pipeline that only stalls or flushes on account of an instruction in its
  execute stage retires something within any four clocks.
-/

namespace MyCpu.Clocked

variable {α : Type*}

/-- The stall and bubble inputs of the pipeline registers in one clock. A held decode register
must not also be passed on, so its stall comes with a bubble for execute. -/
structure Control where
  stallD : Bool
  bubbleD : Bool
  bubbleE : Bool
  bubbleM : Bool
  bubbleE_of_stallD : stallD = true → bubbleE = true

/-- The instructions in the decode, execute, memory and write-back registers. -/
structure Slots (α : Type*) where
  d : Option α
  e : Option α
  m : Option α
  w : Option α

namespace Slots

/-- Only bubbles, as after reset. -/
def empty : Slots α := ⟨none, none, none, none⟩

/-- One clock: `f` is the word fetch delivers. A bubble wins over a stall. -/
def advance (c : Control) (f : α) (s : Slots α) : Slots α where
  d := if c.bubbleD then none else if c.stallD then s.d else some f
  e := if c.bubbleE then none else s.d
  m := if c.bubbleM then none else s.e
  w := s.m

/-- The instructions that stay in flight when the one in write-back leaves, oldest first. -/
def younger (s : Slots α) : List α := s.m.toList ++ (s.e.toList ++ s.d.toList)

/-- The instructions in flight, oldest first. -/
def inFlight (s : Slots α) : List α := s.w.toList ++ s.younger

@[simp] theorem mem_younger {x : α} {s : Slots α} :
    x ∈ s.younger ↔ s.m = some x ∨ s.e = some x ∨ s.d = some x := by
  simp [younger, Option.mem_toList]

@[simp] theorem mem_inFlight {x : α} {s : Slots α} :
    x ∈ s.inFlight ↔ s.w = some x ∨ s.m = some x ∨ s.e = some x ∨ s.d = some x := by
  rw [inFlight, List.mem_append, Option.mem_toList, mem_younger]

/-- What one clock does to the instructions in flight. -/
theorem inFlight_advance (c : Control) (f : α) (s : Slots α) :
    (s.advance c f).inFlight.Sublist (s.younger ++ [f]) := by
  have hm : (if c.bubbleM then none else s.e).toList.Sublist s.e.toList := by
    split
    · exact List.nil_sublist _
    · exact List.Sublist.refl _
  have hde : ((if c.bubbleE then none else s.d).toList ++
      (if c.bubbleD then none else if c.stallD then s.d else some f).toList).Sublist
        (s.d.toList ++ [f]) := by
    by_cases hE : c.bubbleE = true
    · -- execute takes a bubble, so decode may hold its instruction
      rw [if_pos hE]
      split
      · exact List.nil_sublist _
      split
      · exact List.sublist_append_left _ _
      · exact List.sublist_append_right _ _
    · rw [if_neg hE, if_neg (fun h => hE (c.bubbleE_of_stallD h))]
      refine List.Sublist.append (List.Sublist.refl _) ?_
      split
      · exact List.nil_sublist _
      · exact List.Sublist.refl _
  simp only [inFlight, younger, advance, List.append_assoc]
  exact List.Sublist.append (List.Sublist.refl _) (List.Sublist.append hm hde)

/-! ### Positions

With `k` instructions retired, the instruction in write-back is number `k` in program order, and
those behind it follow without gaps. -/

/-- The number of the instruction in memory, which is how many have left the memory stage. -/
def posM (s : Slots α) (k : Nat) : Nat := k + s.w.toList.length

/-- The number of the instruction in execute. -/
def posE (s : Slots α) (k : Nat) : Nat := s.posM k + s.m.toList.length

/-- The number of the instruction in decode. -/
def posD (s : Slots α) (k : Nat) : Nat := s.posE k + s.e.toList.length

theorem posM_advance (c : Control) (f : α) (s : Slots α) (k : Nat) :
    (s.advance c f).posM (s.posM k) = s.posE k := rfl

theorem posE_advance {c : Control} (hM : c.bubbleM = false) (f : α) (s : Slots α) (k : Nat) :
    (s.advance c f).posE (s.posM k) = s.posD k := by
  simp [posE, posD, posM, advance, hM]

theorem posD_advance {c : Control} (hM : c.bubbleM = false) (f : α) (s : Slots α) (k : Nat) :
    (s.advance c f).posD (s.posM k) = s.posD k + (s.advance c f).e.toList.length := by
  rw [posD, posE_advance hM]

end Slots

/-! ## Runs -/

section Runs

variable (ctl : Nat → Control) (fetched : Nat → α)

/-- Where the instructions are before clock `t`, when clock `i` runs under `ctl i` and fetch
delivers `fetched i` in it. -/
def slots : Nat → Slots α :=
  run (fun t s => s.advance (ctl t) (fetched t)) Slots.empty

/-- The instructions that have left write-back in the first `t` clocks, oldest first. -/
def retired (t : Nat) : List α := emitted (fun i => (slots ctl fetched i).w) t

theorem slots_succ (t : Nat) :
    slots ctl fetched (t + 1) = (slots ctl fetched t).advance (ctl t) (fetched t) := rfl

theorem retired_succ (t : Nat) :
    retired ctl fetched (t + 1) = retired ctl fetched t ++ (slots ctl fetched t).w.toList :=
  emitted_succ _ t

theorem retired_length_succ (t : Nat) : (retired ctl fetched (t + 1)).length =
    (slots ctl fetched t).posM (retired ctl fetched t).length := by
  rw [retired_succ, List.length_append, Slots.posM]

/-- In order, at most once, and nothing that was not fetched. -/
theorem retired_append_inFlight_sublist (t : Nat) :
    (retired ctl fetched t ++ (slots ctl fetched t).inFlight).Sublist
      ((List.range t).map fetched) := by
  induction t with
  | zero => exact List.Sublist.refl _
  | succ t ih =>
      have h := Slots.inFlight_advance (ctl t) (fetched t) (slots ctl fetched t)
      calc retired ctl fetched (t + 1) ++ (slots ctl fetched (t + 1)).inFlight
          = retired ctl fetched t ++ ((slots ctl fetched t).w.toList ++
              ((slots ctl fetched t).advance (ctl t) (fetched t)).inFlight) := by
            rw [retired_succ, slots_succ, List.append_assoc]
        List.Sublist _ (retired ctl fetched t ++ ((slots ctl fetched t).w.toList ++
              ((slots ctl fetched t).younger ++ [fetched t]))) :=
            (List.Sublist.refl _).append ((List.Sublist.refl _).append h)
        _ = (retired ctl fetched t ++ (slots ctl fetched t).inFlight) ++ [fetched t] := by
            simp only [Slots.inFlight, List.append_assoc]
        List.Sublist _ ((List.range t).map fetched ++ [fetched t]) :=
            ih.append (List.Sublist.refl _)
        _ = (List.range (t + 1)).map fetched := by
            rw [List.range_succ, List.map_append, List.map_singleton]

theorem retired_length_succ_le (t : Nat) :
    (retired ctl fetched (t + 1)).length ≤ (retired ctl fetched t).length + 1 := by
  rw [retired_succ, List.length_append]
  cases (slots ctl fetched t).w <;> simp

theorem retired_length_mono {t u : Nat} (h : t ≤ u) :
    (retired ctl fetched t).length ≤ (retired ctl fetched u).length := by
  induction u, h using Nat.le_induction with
  | base => exact Nat.le_refl _
  | succ u _ ih =>
      rw [retired_succ, List.length_append]
      omega

theorem mem_retired_of_le {t u : Nat} (h : t ≤ u) {x : α} (hx : x ∈ retired ctl fetched t) :
    x ∈ retired ctl fetched u := by
  induction u, h using Nat.le_induction with
  | base => exact hx
  | succ u _ ih =>
      rw [retired_succ]
      exact List.mem_append_left _ ih

theorem mem_inFlight_succ {t : Nat} {x : α} (h : x ∈ (slots ctl fetched (t + 1)).inFlight) :
    x ∈ (slots ctl fetched t).younger ∨ x = fetched t := by
  simpa using (Slots.inFlight_advance (ctl t) (fetched t) (slots ctl fetched t)).subset h

end Runs

/-! ## Stamps

When every fetched item carries the number of its clock, items are told apart and ordered. -/

section Stamps

variable {ctl : Nat → Control} {fetched : Nat → α} {stamp : α → Nat}
  (hstamp : ∀ t, stamp (fetched t) = t)

include hstamp

variable (ctl) in
theorem pairwise_stamp (t : Nat) :
    (retired ctl fetched t ++ (slots ctl fetched t).inFlight).Pairwise
      (fun x y => stamp x < stamp y) := by
  refine List.Pairwise.sublist (retired_append_inFlight_sublist ctl fetched t) ?_
  refine List.pairwise_map.mpr (List.Pairwise.imp ?_ List.pairwise_lt_range)
  intro i j hij
  rwa [hstamp, hstamp]

theorem stamp_lt_of_mem {t : Nat} {x : α} (hx : x ∈ (slots ctl fetched t).inFlight) :
    stamp x < t := by
  have h := (retired_append_inFlight_sublist ctl fetched t).subset (List.mem_append_right _ hx)
  obtain ⟨i, hi, rfl⟩ := List.mem_map.mp h
  rw [hstamp]
  exact List.mem_range.mp hi

/-- What has left the pipeline, or never entered it, does not come back. -/
theorem not_mem_inFlight_of_le {t : Nat} {x : α} (hx : x ∉ (slots ctl fetched t).inFlight)
    (hlt : stamp x < t) (t' : Nat) (ht : t ≤ t') : x ∉ (slots ctl fetched t').inFlight := by
  induction t', ht using Nat.le_induction with
  | base => exact hx
  | succ t' ht ih =>
      intro h
      rcases mem_inFlight_succ ctl fetched h with h | h
      · exact ih (List.mem_append_right _ h)
      · have : stamp x = t' := by rw [h, hstamp]
        omega

/-- In flight, the older an instruction the further it is. -/
theorem stamp_lt_stamp_younger {t : Nat} {x y : α} (hx : (slots ctl fetched t).w = some x)
    (hy : y ∈ (slots ctl fetched t).younger) : stamp x < stamp y := by
  have h := (List.pairwise_append.mp (pairwise_stamp ctl hstamp t)).2.1
  rw [Slots.inFlight, hx] at h
  exact (List.pairwise_append.mp h).2.2 x (by simp) y hy

theorem stamp_lt_of_older {t : Nat} {x y : α}
    (hx : (slots ctl fetched t).w = some x ∨ (slots ctl fetched t).m = some x)
    (hy : (slots ctl fetched t).e = some y ∨ (slots ctl fetched t).d = some y) :
    stamp x < stamp y := by
  rcases hx with hx | hx
  · exact stamp_lt_stamp_younger hstamp hx (Slots.mem_younger.mpr (.inr hy))
  · have h := (List.pairwise_append.mp (pairwise_stamp ctl hstamp t)).2.1
    rw [Slots.inFlight, Slots.younger, hx] at h
    exact (List.pairwise_append.mp (List.pairwise_append.mp h).2.1).2.2 x (by simp) y
      (by simpa [Option.mem_toList] using hy)

theorem stamp_lt_of_e {t : Nat} {x y : α} (hx : (slots ctl fetched t).e = some x)
    (hy : (slots ctl fetched t).d = some y) : stamp x < stamp y := by
  have h := (List.pairwise_append.mp (pairwise_stamp ctl hstamp t)).2.1
  rw [Slots.inFlight, Slots.younger, hx, hy] at h
  have h' := (List.pairwise_append.mp (List.pairwise_append.mp h).2.1).2.1
  exact (List.pairwise_append.mp h').2.2 x (by simp) y (by simp)

theorem stamp_lt_of_retired {t : Nat} {x y : α} (hx : x ∈ retired ctl fetched t)
    (hy : y ∈ (slots ctl fetched t).inFlight) : stamp x < stamp y :=
  (List.pairwise_append.mp (pairwise_stamp ctl hstamp t)).2.2 x hx y hy

/-- Whatever execute holds from then on is younger than what memory holds. -/
theorem stamp_lt_of_m_of_le {t u : Nat} {x y : α} (hx : (slots ctl fetched t).m = some x)
    (htu : t ≤ u) (hy : (slots ctl fetched u).e = some y) : stamp x < stamp y := by
  have hw : (slots ctl fetched (t + 1)).w = some x := hx
  obtain rfl | rfl | h : t = u ∨ t + 1 = u ∨ t + 2 ≤ u := by omega
  · exact stamp_lt_of_older hstamp (.inr hx) (.inl hy)
  · exact stamp_lt_of_older hstamp (.inl hw) (.inl hy)
  · refine stamp_lt_of_retired hstamp (mem_retired_of_le ctl fetched h ?_)
      (Slots.mem_inFlight.mpr (.inr (.inr (.inl hy))))
    rw [retired_succ, hw]
    exact List.mem_append_right _ (List.mem_singleton_self x)

/-- What is in flight has been behind write-back since it was fetched. -/
theorem mem_younger_of_lt {t : Nat} {x : α} (hx : x ∈ (slots ctl fetched t).inFlight) {u : Nat}
    (hxu : stamp x < u) (hut : u < t) : x ∈ (slots ctl fetched u).younger := by
  induction t, hut using Nat.le_induction with
  | base =>
      rcases mem_inFlight_succ ctl fetched hx with h | h
      · exact h
      · rw [h, hstamp] at hxu
        omega
  | succ t hut ih =>
      rcases mem_inFlight_succ ctl fetched hx with h | h
      · exact ih (List.mem_append_right _ h)
      · rw [h, hstamp] at hxu
        omega

/-- What is in flight has entered the decode register in its own clock. -/
theorem d_of_mem_inFlight {t : Nat} {x : α} (hx : x ∈ (slots ctl fetched t).inFlight) :
    (slots ctl fetched (stamp x + 1)).d = some x := by
  have hlt := stamp_lt_of_mem hstamp hx
  have hmem : x ∈ (slots ctl fetched (stamp x + 1)).inFlight := by
    rcases Nat.lt_or_eq_of_le (Nat.succ_le_of_lt hlt) with h | h
    · exact List.mem_append_right _ (mem_younger_of_lt hstamp hx (Nat.lt_succ_self _) h)
    · rw [show stamp x + 1 = t from h]
      exact hx
  have hno : x ∉ (slots ctl fetched (stamp x)).inFlight := fun h =>
    Nat.lt_irrefl _ (stamp_lt_of_mem hstamp h)
  simp only [Slots.mem_inFlight, not_or] at hno
  rw [Slots.mem_inFlight] at hmem
  rcases hmem with h | h | h | h
  · exact absurd h hno.2.1
  · rw [slots_succ, Slots.advance] at h
    simp only at h
    split at h
    · contradiction
    · exact absurd h hno.2.2.1
  · rw [slots_succ, Slots.advance] at h
    simp only at h
    split at h
    · contradiction
    · exact absurd h hno.2.2.2
  · exact h

/-- What decode holds beyond its first clock there it holds by a stall. -/
theorem stall_of_d_succ {t : Nat} {x : α} (hx : (slots ctl fetched (t + 1)).d = some x)
    (hne : stamp x ≠ t) : (ctl t).stallD = true ∧ (slots ctl fetched t).d = some x := by
  rw [slots_succ, Slots.advance] at hx
  simp only at hx
  split at hx
  · contradiction
  split at hx
  · next hs => exact ⟨hs, hx⟩
  · rw [Option.some.injEq] at hx
    exact absurd (hx ▸ hstamp t) hne

/-- What is in decode has been there since it was fetched. -/
theorem d_of_lt {t : Nat} {x : α} (hx : (slots ctl fetched t).d = some x) {u : Nat}
    (hxu : stamp x < u) (hut : u ≤ t) : (slots ctl fetched u).d = some x := by
  induction t, hut using Nat.le_induction with
  | base => exact hx
  | succ t hut ih => exact ih (stall_of_d_succ hstamp hx (by omega)).2

end Stamps

/-! ## Flow -/

section Flow

variable {ctl : Nat → Control} {fetched : Nat → α}

/-- It takes four clocks from fetch to write-back. -/
theorem w_of_lt {t : Nat} (ht : t < 4) : (slots ctl fetched t).w = none := by
  obtain rfl | rfl | rfl | rfl : t = 0 ∨ t = 1 ∨ t = 2 ∨ t = 3 := by omega
  all_goals simp [slots, run, Slots.advance, Slots.empty]

/-- A pipeline that neither stalls nor flushes retires what it fetches four clocks later. -/
theorem retired_of_flow {t : Nat} (h : ∀ i < t, (ctl i).stallD = false ∧
    (ctl i).bubbleD = false ∧ (ctl i).bubbleE = false ∧ (ctl i).bubbleM = false) :
    retired ctl fetched t = (List.range (t - 4)).map fetched := by
  rw [retired, ← emitted_some]
  refine emitted_sub (fun i hi _ => w_of_lt hi) fun i hi => ?_
  obtain ⟨h1, h2, -, -⟩ := h i (by omega)
  obtain ⟨-, -, h3, -⟩ := h (i + 1) (by omega)
  obtain ⟨-, -, -, h4⟩ := h (i + 2) (by omega)
  have hd : (slots ctl fetched (i + 1)).d = some (fetched i) := by
    simp [slots_succ, Slots.advance, h1, h2]
  have he : (slots ctl fetched (i + 2)).e = some (fetched i) := by
    simpa [slots_succ ctl fetched (i + 1), Slots.advance, h3] using hd
  have hm : (slots ctl fetched (i + 3)).m = some (fetched i) := by
    simpa [slots_succ ctl fetched (i + 2), Slots.advance, h4] using he
  rw [Nat.add_comm]
  exact hm

end Flow

/-! ## Progress -/

section Progress

variable {ctl : Nat → Control} {fetched : Nat → α}
  (hM : ∀ t, (ctl t).bubbleM = false)
  (hE : ∀ t, (slots ctl fetched t).e = none →
    (ctl t).stallD = false ∧ (ctl t).bubbleD = false ∧ (ctl t).bubbleE = false)

include hM hE

/-- A pipeline that only stalls or flushes on account of an instruction in execute retires
something within any four clocks. -/
theorem exists_retire (t : Nat) : ∃ u, t ≤ u ∧ (slots ctl fetched u).w ≠ none := by
  have hw : ∀ u, (slots ctl fetched u).e ≠ none → (slots ctl fetched (u + 2)).w ≠ none := by
    intro u hu
    simp only [slots_succ, Slots.advance, hM]
    exact hu
  have he : ∀ u, (slots ctl fetched u).e = none → (slots ctl fetched u).d ≠ none →
      (slots ctl fetched (u + 1)).e ≠ none := by
    intro u hu hd
    simp only [slots_succ, Slots.advance, (hE u hu).2.2]
    exact hd
  by_cases h1 : (slots ctl fetched t).e = none
  · by_cases h2 : (slots ctl fetched t).d = none
    · -- nothing behind memory: fetch fills decode, and two clocks later execute holds it
      have h3 : (slots ctl fetched (t + 1)).e = none := by
        simp only [slots_succ, Slots.advance, h2, ite_self]
      have h4 : (slots ctl fetched (t + 1)).d ≠ none := by
        simp [slots_succ, Slots.advance, (hE t h1).1, (hE t h1).2.1]
      exact ⟨t + 4, by omega, hw (t + 2) (he (t + 1) h3 h4)⟩
    · exact ⟨t + 3, by omega, hw (t + 1) (he t h1 h2)⟩
  · exact ⟨t + 2, by omega, hw t h1⟩

theorem exists_le_retired_length (k : Nat) : ∃ t, k ≤ (retired ctl fetched t).length := by
  induction k with
  | zero => exact ⟨0, Nat.zero_le _⟩
  | succ k ih =>
      obtain ⟨t, ht⟩ := ih
      obtain ⟨u, hu, hw⟩ := exists_retire hM hE t
      obtain ⟨x, hx⟩ := Option.ne_none_iff_exists'.mp hw
      have hmono := retired_length_mono ctl fetched hu
      refine ⟨u + 1, ?_⟩
      rw [retired_succ, hx, List.length_append]
      simp only [Option.toList_some, List.length_singleton]
      omega

/-- Every number of instructions is at some clock the number retired. -/
theorem exists_retired_length (k : Nat) : ∃ t, (retired ctl fetched t).length = k := by
  obtain ⟨t, ht⟩ := exists_le_retired_length hM hE k
  induction t with
  | zero => exact ⟨0, by simpa [retired, eq_comm] using ht⟩
  | succ t ih =>
      by_cases hle : k ≤ (retired ctl fetched t).length
      · exact ih hle
      · -- at most one instruction leaves in a clock, so the count cannot step over `k`
        have hstep := retired_length_succ_le ctl fetched t
        exact ⟨t + 1, by omega⟩

end Progress

end MyCpu.Clocked
