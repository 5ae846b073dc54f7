import Mathlib.Data.Nat.Init
import Mathlib.Logic.Relation

/-!
# Programs that may not return

A program is run with an amount of fuel, which bounds the rounds of the loops in it; what it gives with
some fuel it gives with more. It gives nothing when the fuel runs out, and never anything when what it
does has no meaning.

* `Fueled`, `fail`, `loop` : programs; a loop is a body that goes on with another state or gives a result;
* `Returns x a` : with enough fuel, `x` gives `a`;
* `returns_bind_iff`, `Returns.loop_iff` : a program by its parts, a loop after a round;
* `Rounds`, `Returns.loop_states` : some rounds, and a loop whose states are known one by one;
* `Ensures x P` : if `x` returns, the result satisfies `P`; `Ensures.loop` is the rule of the invariant.
-/

namespace MyCpu.Loop

variable {α β σ ρ : Type}

/-- What a program gives with so much fuel. -/
structure Fueled (α : Type) where
  run : Nat → Option α
  mono : ∀ {n N : Nat} {a : α}, n ≤ N → run n = some a → run N = some a

instance : Monad Fueled where
  pure a := ⟨fun _ => some a, fun _ h => h⟩
  bind x f := ⟨fun n => (x.run n).bind fun a => (f a).run n, fun hn h => by
    obtain ⟨a, ha, hb⟩ := Option.bind_eq_some_iff.mp h
    exact Option.bind_eq_some_iff.mpr ⟨a, x.mono hn ha, (f a).mono hn hb⟩⟩

/-- A program that never returns. -/
def fail : Fueled α := ⟨fun _ => none, fun _ h => nomatch h⟩

/-- At most so many rounds of `body`, from `s` on. -/
def loopFrom (body : σ → Fueled (σ ⊕ ρ)) : Nat → σ → Option ρ
  | 0, _ => none
  | n + 1, s => ((body s).run n).bind fun
      | .inl s' => loopFrom body n s'
      | .inr r => some r

theorem loopFrom_mono (body : σ → Fueled (σ ⊕ ρ)) {n N : Nat} {s : σ} {r : ρ} (hn : n ≤ N)
    (h : loopFrom body n s = some r) : loopFrom body N s = some r := by
  induction n generalizing N s with
  | zero => exact nomatch h
  | succ n ih =>
      obtain ⟨M, rfl⟩ := Nat.exists_eq_succ_of_ne_zero (Nat.ne_of_gt (Nat.lt_of_lt_of_le n.succ_pos hn))
      have hM : n ≤ M := Nat.le_of_succ_le_succ hn
      obtain ⟨x, hx, hr⟩ := Option.bind_eq_some_iff.mp h
      refine Option.bind_eq_some_iff.mpr ⟨x, (body s).mono hM hx, ?_⟩
      cases x with
      | inl s' => exact ih hM hr
      | inr r' => exact hr

def loop (body : σ → Fueled (σ ⊕ ρ)) (s : σ) : Fueled ρ :=
  ⟨fun n => loopFrom body n s, fun hn h => loopFrom_mono body hn h⟩

/-- With enough fuel, `x` gives `a`. -/
def Returns (x : Fueled α) (a : α) : Prop := ∃ n, x.run n = some a

/-- If `x` returns, then with a result that satisfies `P`. -/
def Ensures (x : Fueled α) (P : α → Prop) : Prop := ∀ a, Returns x a → P a

/-! ## Programs -/

theorem Returns.unique {x : Fueled α} {a b : α} (ha : Returns x a) (hb : Returns x b) : a = b := by
  obtain ⟨n, hn⟩ := ha
  obtain ⟨k, hk⟩ := hb
  have hn' := x.mono (Nat.le_max_left n k) hn
  have hk' := x.mono (Nat.le_max_right n k) hk
  exact Option.some.inj (hn'.symm.trans hk')

theorem Returns.iff_eq {x : Fueled α} {a b : α} (h : Returns x a) : Returns x b ↔ b = a := by
  constructor
  · exact fun hb => hb.unique h
  · rintro rfl
    exact h

theorem returns_pure (a : α) : Returns (pure a) a := ⟨0, rfl⟩

theorem not_returns_fail (a : α) : ¬Returns fail a := fun ⟨_, h⟩ => nomatch h

theorem returns_bind_iff {x : Fueled α} {f : α → Fueled β} {b : β} :
    Returns (x >>= f) b ↔ ∃ a, Returns x a ∧ Returns (f a) b := by
  constructor
  · rintro ⟨n, hn⟩
    obtain ⟨a, ha, hb⟩ := Option.bind_eq_some_iff.mp hn
    exact ⟨a, ⟨n, ha⟩, n, hb⟩
  · rintro ⟨a, ⟨n, hn⟩, k, hk⟩
    exact ⟨max n k, Option.bind_eq_some_iff.mpr
      ⟨a, x.mono (Nat.le_max_left n k) hn, (f a).mono (Nat.le_max_right n k) hk⟩⟩

theorem Returns.bind {x : Fueled α} {a : α} (hx : Returns x a) {f : α → Fueled β} {b : β}
    (hf : Returns (f a) b) : Returns (x >>= f) b := returns_bind_iff.mpr ⟨a, hx, hf⟩

/-! ## Loops -/

section

variable {body : σ → Fueled (σ ⊕ ρ)}

theorem returns_loop_iff {s : σ} {r : ρ} : Returns (loop body s) r ↔
    ∃ x, Returns (body s) x ∧ Sum.elim (fun s' => Returns (loop body s') r) (fun r' => r' = r) x := by
  constructor
  · rintro ⟨_ | n, hn⟩
    · exact nomatch hn
    · obtain ⟨x, hx, hr⟩ := Option.bind_eq_some_iff.mp hn
      refine ⟨x, ⟨n, hx⟩, ?_⟩
      cases x with
      | inl s' => exact ⟨n, hr⟩
      | inr r' => exact Option.some.inj hr
  · rintro ⟨s' | r', ⟨n, hn⟩, hr⟩
    · obtain ⟨k, hk⟩ := hr
      exact ⟨max n k + 1, Option.bind_eq_some_iff.mpr ⟨.inl s', (body s).mono (Nat.le_max_left n k) hn,
        (loop body s').mono (Nat.le_max_right n k) hk⟩⟩
    · exact ⟨n + 1, Option.bind_eq_some_iff.mpr ⟨.inr r', hn, congrArg some hr⟩⟩

/-- A loop after a round. -/
theorem Returns.loop_iff {s s' : σ} (h : Returns (body s) (.inl s')) {r : ρ} :
    Returns (loop body s) r ↔ Returns (loop body s') r := by
  rw [returns_loop_iff]
  constructor
  · rintro ⟨x, hx, hr⟩
    obtain rfl := hx.unique h
    exact hr
  · exact fun hr => ⟨_, h, hr⟩

/-- The last round. -/
theorem Returns.loop_exit {s : σ} {r : ρ} (h : Returns (body s) (.inr r)) : Returns (loop body s) r :=
  returns_loop_iff.mpr ⟨_, h, rfl⟩

/-- A round that never ends. -/
theorem not_returns_loop {s : σ} (h : body s = fail) (r : ρ) : ¬Returns (loop body s) r := by
  rw [returns_loop_iff, h]
  rintro ⟨x, hx, -⟩
  exact not_returns_fail x hx

/-- `s'` comes after some rounds from `s`. -/
abbrev Rounds (body : σ → Fueled (σ ⊕ ρ)) : σ → σ → Prop :=
  Relation.ReflTransGen fun s s' => Returns (body s) (.inl s')

theorem Rounds.loop_iff {s s' : σ} (h : Rounds body s s') {r : ρ} :
    Returns (loop body s) r ↔ Returns (loop body s') r := by
  induction h with
  | refl => exact Iff.rfl
  | tail _ hround ih => exact ih.trans hround.loop_iff

/-- A loop that goes through the states `st 0` to `st n`. -/
theorem rounds_states (st : Nat → σ) {n : Nat}
    (hgo : ∀ k < n, Returns (body (st k)) (.inl (st (k + 1)))) : Rounds body (st 0) (st n) := by
  induction n with
  | zero => exact .refl
  | succ n ih => exact (ih fun k hk => hgo k (Nat.lt_succ_of_lt hk)).tail (hgo n (Nat.lt_succ_self n))

theorem Returns.loop_states (st : Nat → σ) {n : Nat} {r : ρ}
    (hgo : ∀ k < n, Returns (body (st k)) (.inl (st (k + 1))))
    (hexit : Returns (body (st n)) (.inr r)) : Returns (loop body (st 0)) r :=
  (rounds_states st hgo).loop_iff.mpr hexit.loop_exit

end

/-! ## Programs that may not return -/

theorem ensures_pure {a : α} {P : α → Prop} (h : P a) : Ensures (pure a) P := fun _ hb =>
  (returns_pure a).unique hb ▸ h

theorem ensures_true (x : Fueled α) : Ensures x fun _ => True := fun _ _ => trivial

theorem Ensures.bind {x : Fueled α} {f : α → Fueled β} {P : α → Prop} {Q : β → Prop}
    (hx : Ensures x P) (hf : ∀ a, P a → Ensures (f a) Q) : Ensures (x >>= f) Q := by
  intro b hb
  obtain ⟨a, ha, hfa⟩ := returns_bind_iff.mp hb
  exact hf a (hx a ha) b hfa

/-- What every round keeps holds of the result. -/
theorem Ensures.loop {body : σ → Fueled (σ ⊕ ρ)} {Inv : σ → Prop} {P : ρ → Prop}
    (hbody : ∀ s, Inv s → Ensures (body s) (Sum.elim Inv P)) {s : σ} (hs : Inv s) :
    Ensures (loop body s) P := by
  rintro r ⟨n, hn⟩
  change loopFrom body n s = some r at hn
  induction n generalizing s with
  | zero => exact nomatch hn
  | succ n ih =>
      obtain ⟨x, hx, hr⟩ := Option.bind_eq_some_iff.mp hn
      have hround := hbody s hs x ⟨n, hx⟩
      cases x with
      | inl s' => exact ih hround hr
      | inr r' => exact Option.some.inj hr ▸ hround

end MyCpu.Loop
