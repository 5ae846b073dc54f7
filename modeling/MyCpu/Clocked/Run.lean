import Mathlib.Data.List.Basic
import Mathlib.Data.Nat.Init

/-!
# Runs of a clocked machine

A synchronous design is a state and a function applied at every rising edge. The function may
depend on the number of the clock, which is how an input that is not part of the state enters.

* `run step s₀ t` : the state before clock `t`;
* `run_invariant` : what holds at first and is kept by every clock holds before every clock;
* `emitted out t` : what an output port has delivered in the first `t` clocks, in order.
-/

namespace MyCpu.Clocked

variable {σ α : Type*}

/-- The state before clock `t`, starting from `s₀`. -/
def run (step : Nat → σ → σ) (s₀ : σ) : Nat → σ
  | 0 => s₀
  | t + 1 => step t (run step s₀ t)

/-- What holds at first and is kept by every clock holds before every clock. -/
theorem run_invariant {step : Nat → σ → σ} {s₀ : σ} (Inv : Nat → σ → Prop) (h0 : Inv 0 s₀)
    (hstep : ∀ t s, Inv t s → Inv (t + 1) (step t s)) (t : Nat) : Inv t (run step s₀ t) := by
  induction t with
  | zero => exact h0
  | succ t ih => exact hstep t _ ih

/-- What the port `out` has delivered in the first `t` clocks; `none` is an idle clock. -/
def emitted (out : Nat → Option α) (t : Nat) : List α := (List.range t).filterMap out

@[simp] theorem emitted_zero (out : Nat → Option α) : emitted out 0 = [] := rfl

theorem emitted_succ (out : Nat → Option α) (t : Nat) :
    emitted out (t + 1) = emitted out t ++ (out t).toList := by
  rw [emitted, emitted, List.range_succ, List.filterMap_append]
  cases h : out t <;> simp [h]

theorem mem_emitted {out : Nat → Option α} {t : Nat} {a : α} :
    a ∈ emitted out t ↔ ∃ i < t, out i = some a := by
  unfold emitted
  rw [List.mem_filterMap]
  simp only [List.mem_range]

/-- What has been delivered stays delivered. -/
theorem emitted_prefix_of_le (out : Nat → Option α) {t u : Nat} (h : t ≤ u) :
    emitted out t <+: emitted out u := by
  induction u, h using Nat.le_induction with
  | base => exact List.prefix_rfl
  | succ u _ ih =>
      rw [emitted_succ]
      exact ih.trans (List.prefix_append _ _)

theorem emitted_congr {out out' : Nat → Option α} {t : Nat} (h : ∀ i < t, out i = out' i) :
    emitted out t = emitted out' t := by
  induction t with
  | zero => rfl
  | succ t ih =>
      rw [emitted_succ, emitted_succ, ih fun i hi => h i (Nat.lt_succ_of_lt hi),
        h t (Nat.lt_succ_self t)]

/-- A port that is idle in the first `n` clocks runs `n` clocks behind. -/
theorem emitted_sub {out out' : Nat → Option α} {n t : Nat} (h0 : ∀ i, i < n → i < t → out i = none)
    (h : ∀ i, n + i < t → out (n + i) = out' i) : emitted out t = emitted out' (t - n) := by
  induction t with
  | zero => rw [Nat.zero_sub, emitted_zero, emitted_zero]
  | succ t ih =>
      rw [emitted_succ, ih (fun i hi ht => h0 i hi (Nat.lt_succ_of_lt ht))
        fun i hi => h i (Nat.lt_succ_of_lt hi)]
      rcases Nat.lt_or_ge t n with ht | ht
      · rw [h0 t ht (Nat.lt_succ_self t), Nat.sub_eq_zero_of_le (Nat.le_of_lt ht), Nat.sub_eq_zero_of_le ht]
        rfl
      · obtain ⟨i, rfl⟩ := Nat.exists_eq_add_of_le ht
        rw [h i (Nat.lt_succ_self _), Nat.add_sub_cancel_left, Nat.add_assoc,
          Nat.add_sub_cancel_left, emitted_succ]

theorem emitted_some (f : Nat → α) (t : Nat) :
    emitted (fun i => some (f i)) t = (List.range t).map f :=
  congrFun List.filterMap_eq_map' _

end MyCpu.Clocked
