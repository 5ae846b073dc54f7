import Mathlib.Logic.Relation

/-!
# Runs that lead somewhere

Total correctness of a program on a machine with a step relation: from a state, some steps lead to a
state that satisfies the postcondition. Nothing is said about the machine.

* `Leads R s Q` : some steps of `R` lead from `s` to a state in `Q`;
* `Leads.step`, `Leads.seq`, `Leads.mono` : one step first, one part after another, a weaker end;
* `Leads.loop` : a loop whose rounds decrease a number while they keep an invariant;
* `Leads.sim` : a run of one machine as a run of another that simulates it.
-/

namespace MyCpu.Machine

open Relation

variable {σ τ : Type*} {R : σ → σ → Prop} {P Q : σ → Prop} {s t : σ}

/-- From `s`, some steps lead to a state that satisfies `Q`. -/
def Leads (R : σ → σ → Prop) (s : σ) (Q : σ → Prop) : Prop := ∃ t, ReflTransGen R s t ∧ Q t

theorem Leads.now (h : Q s) : Leads R s Q := ⟨s, .refl, h⟩

theorem Leads.step (h : R s t) (ht : Leads R t Q) : Leads R s Q := by
  obtain ⟨u, hu, hQ⟩ := ht
  exact ⟨u, hu.head h, hQ⟩

theorem Leads.seq (h : Leads R s P) (hP : ∀ t, P t → Leads R t Q) : Leads R s Q := by
  obtain ⟨t, hst, ht⟩ := h
  obtain ⟨u, htu, hu⟩ := hP t ht
  exact ⟨u, hst.trans htu, hu⟩

theorem Leads.mono (h : Leads R s P) (hP : ∀ t, P t → Q t) : Leads R s Q :=
  h.seq fun t ht => .now (hP t ht)

/-- A loop whose rounds keep `Inv` with a smaller number, or end. -/
theorem Leads.loop (Inv : Nat → σ → Prop)
    (hround : ∀ n s, Inv n s → Leads R s fun t => Q t ∨ ∃ k < n, Inv k t) {n : Nat} (hs : Inv n s) :
    Leads R s Q := by
  induction n using Nat.strongRecOn generalizing s with
  | ind n ih =>
      refine (hround n s hs).seq fun t ht => ?_
      rcases ht with hQ | ⟨k, hk, hInv⟩
      · exact .now hQ
      · exact ih k hk hInv

/-- If every step of one machine is one of the other, seen through `f`, so is every run. -/
theorem Leads.sim {R' : τ → τ → Prop} {f : τ → σ} (hsim : ∀ b t, R (f b) t → ∃ b', R' b b' ∧ f b' = t)
    {b : τ} (h : Leads R (f b) Q) : Leads R' b fun b' => Q (f b') := by
  obtain ⟨t, hrun, hQ⟩ := h
  have hrun' : ∃ b', ReflTransGen R' b b' ∧ f b' = t := by
    clear hQ
    induction hrun with
    | refl => exact ⟨b, .refl, rfl⟩
    | tail _ hstep ih =>
        obtain ⟨c, hbc, rfl⟩ := ih
        obtain ⟨c', hcc', rfl⟩ := hsim c _ hstep
        exact ⟨c', hbc.tail hcc', rfl⟩
  obtain ⟨b', hb, rfl⟩ := hrun'
  exact ⟨b', hb, hQ⟩

end MyCpu.Machine
