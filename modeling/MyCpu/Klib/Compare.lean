import MyCpu.Klib.String

/-!
# Comparisons

The order of two ranges of bytes is that of the first two bytes that differ, as unsigned numbers. The
code subtracts the two as plain `char`s, and its loops on an `int` end where the `int` does.

* `firstDiff`, `byteOrder`, `upToNul` : the order, and the range of the string functions;
* `charDiff` : what the code computes; `charDiff_total`, `charDiff_trans`;
* `returns_strcmp_iff`, `returns_strncmp`, `returns_memcmp` : what the three functions return;
* `sign_charDiff_iff` : when its sign is that of the order;
* `comparisons_right_iff` : the three functions.
-/

namespace MyCpu.Klib

open Bytes Loop

/-- The first two bytes that differ. -/
def firstDiff : List Byte → List Byte → Option (Byte × Byte)
  | a :: as, b :: bs => if a = b then firstDiff as bs else some (a, b)
  | _, _ => none

/-- How many bytes agree before that. -/
def agreeing : List Byte → List Byte → Nat
  | a :: as, b :: bs => if a = b then agreeing as bs + 1 else 0
  | _, _ => 0

/-- The bytes up to the first `NUL`. -/
def upToNul : List Byte → List Byte
  | [] => []
  | b :: bs => if b = 0 then [0] else b :: upToNul bs

/-- The order of two ranges of bytes: negative, zero or positive. -/
def byteOrder (as bs : List Byte) : Int :=
  match firstDiff as bs with
  | none => 0
  | some (a, b) => ((a.toNat : Int) - b.toNat).sign

/-- The first two bytes that differ, subtracted as `char`s. -/
def charDiff (signed : Bool) (as bs : List Byte) : Int :=
  match firstDiff as bs with
  | none => 0
  | some (a, b) => charVal signed a - charVal signed b

/-! ## Characters -/

theorem charVal_inj {signed : Bool} {a b : Byte} : charVal signed a = charVal signed b ↔ a = b := by
  cases signed
  · exact Int.ofNat_inj.trans BitVec.toNat_inj
  · exact BitVec.toInt_inj

theorem charVal_eq_zero {signed : Bool} {a : Byte} : charVal signed a = 0 ↔ a = 0 := by
  have hzero : charVal signed 0 = 0 := by cases signed <;> rfl
  exact Iff.trans (by rw [hzero]) charVal_inj

theorem sign_eq_ite {d : Int} (hd : d ≠ 0) : d.sign = if 0 < d then 1 else -1 := by
  split_ifs with h
  · exact Int.sign_eq_one_of_pos h
  · exact Int.sign_eq_neg_one_of_neg (by omega)

theorem sign_eq_sign_iff {d e : Int} (hd : d ≠ 0) (he : e ≠ 0) : d.sign = e.sign ↔ (0 < d ↔ 0 < e) := by
  rw [sign_eq_ite hd, sign_eq_ite he]
  by_cases hd' : 0 < d <;> by_cases he' : 0 < e <;> simp [hd', he']

theorem toInt_eq (a : Byte) :
    (a.msb = true ∧ 128 ≤ a.toNat ∧ a.toInt = a.toNat - 256) ∨
      (a.msb = false ∧ a.toNat < 128 ∧ a.toInt = a.toNat) := by
  rw [BitVec.toInt_eq_msb_cond]
  cases h : a.msb
  · exact Or.inr ⟨rfl, (BitVec.msb_eq_false_iff_two_mul_lt ..).mp h |> fun h => by omega, rfl⟩
  · exact Or.inl ⟨rfl, (BitVec.msb_eq_true_iff_two_mul_ge ..).mp h |> fun h => by omega, rfl⟩

/-- As signed `char`s, two bytes are in the order of their unsigned values when bit 7 is the same. -/
theorem sign_charVal_sub_iff {signed : Bool} {a b : Byte} (hne : a ≠ b) :
    (charVal signed a - charVal signed b).sign = ((a.toNat : Int) - b.toNat).sign ↔
      (signed = true → a.msb = b.msb) := by
  have hnat : a.toNat ≠ b.toNat := fun h => hne (BitVec.eq_of_toNat_eq h)
  have hval : charVal signed a ≠ charVal signed b := fun h => hne (charVal_inj.mp h)
  rw [sign_eq_sign_iff (by omega) (by omega)]
  cases signed with
  | false => exact ⟨fun _ => nofun, fun _ => Iff.rfl⟩
  | true =>
      change (0 < a.toInt - b.toInt ↔ _) ↔ _
      rw [eq_self, true_implies]
      rcases toInt_eq a with ⟨ha, ha', hai⟩ | ⟨ha, ha', hai⟩ <;>
        rcases toInt_eq b with ⟨hb, hb', hbi⟩ | ⟨hb, hb', hbi⟩ <;>
        rw [ha, hb, hai, hbi] <;>
        simp only [Bool.true_eq_false, Bool.false_eq_true, iff_true, iff_false] <;>
        omega

/-! ## The order -/

theorem firstDiff_cons_eq_none {a b : Byte} {as bs : List Byte} :
    firstDiff (a :: as) (b :: bs) = none ↔ a = b ∧ firstDiff as bs = none := by
  rw [firstDiff]
  split_ifs with h <;> simp [h]

theorem ne_of_firstDiff {as bs : List Byte} {a b : Byte} (h : firstDiff as bs = some (a, b)) : a ≠ b := by
  induction as generalizing bs with
  | nil => exact nomatch h
  | cons x as ih =>
      cases bs with
      | nil => exact nomatch h
      | cons y bs =>
          unfold firstDiff at h
          split_ifs at h with hxy
          · exact ih h
          · cases h
            exact hxy

theorem charDiff_cons (signed : Bool) (a b : Byte) (as bs : List Byte) :
    charDiff signed (a :: as) (b :: bs) =
      if a = b then charDiff signed as bs else charVal signed a - charVal signed b := by
  unfold charDiff
  rw [firstDiff]
  split_ifs <;> rfl

/-- The sign is that of the order unless `char` is signed and the first two bytes that differ are not
both below 0x80 or both from there on. -/
theorem sign_charDiff_iff (signed : Bool) (as bs : List Byte) :
    (charDiff signed as bs).sign = byteOrder as bs ↔
      (signed = true → ∀ a b, firstDiff as bs = some (a, b) → a.msb = b.msb) := by
  unfold charDiff byteOrder
  rcases h : firstDiff as bs with _ | ⟨a, b⟩
  · exact ⟨fun _ _ _ _ h => (nomatch h), fun _ => rfl⟩
  · refine (sign_charVal_sub_iff (ne_of_firstDiff h)).trans (forall_congr' fun _ => ?_)
    constructor
    · rintro hab _ _ ⟨⟩
      exact hab
    · exact fun hab => hab a b rfl

/-- Exchanging the two ranges exchanges the sign. -/
theorem charDiff_comm (signed : Bool) (as bs : List Byte) :
    charDiff signed bs as = -charDiff signed as bs := by
  induction as generalizing bs with
  | nil => cases bs <;> rfl
  | cons a as ih =>
      cases bs with
      | nil => rfl
      | cons b bs =>
          rw [charDiff_cons, charDiff_cons]
          by_cases hab : a = b
          · rw [if_pos hab, if_pos hab.symm, ih]
          · rw [if_neg hab, if_neg (Ne.symm hab), Int.neg_sub]

/-- Ranges that do not end one before the other are in a transitive order. -/
theorem charDiff_trans {signed : Bool} {as bs cs : List Byte} (hab : firstDiff as bs = none → as = bs)
    (hbc : firstDiff bs cs = none → bs = cs) (h : charDiff signed as bs ≤ 0)
    (h' : charDiff signed bs cs ≤ 0) : charDiff signed as cs ≤ 0 := by
  induction as generalizing bs cs with
  | nil =>
      obtain rfl := hab rfl
      exact h'
  | cons a as ih =>
      cases bs with
      | nil => exact nomatch hab rfl
      | cons b bs =>
          cases cs with
          | nil => exact nomatch hbc rfl
          | cons c cs =>
              rw [charDiff_cons] at h h' ⊢
              rw [firstDiff] at hab hbc
              by_cases hxy : a = b <;> by_cases hyz : b = c
              · subst hxy hyz
                rw [if_pos rfl] at h h' hab hbc ⊢
                exact ih (fun h => (List.cons.inj (hab h)).2) (fun h => (List.cons.inj (hbc h)).2) h h'
              · subst hxy
                rwa [if_neg hyz] at h' ⊢
              · subst hyz
                rwa [if_neg hxy] at h ⊢
              · rw [if_neg hxy] at h
                rw [if_neg hyz] at h'
                have hlt : charVal signed a ≠ charVal signed b := fun h => hxy (charVal_inj.mp h)
                have hac : a ≠ c := by
                  rintro rfl
                  omega
                rw [if_neg hac]
                omega

/-! ## The functions -/

section

variable (signed : Bool) (m : Memory) (p q : Int)

/-- From two bytes that differ, `strcmp` returns at once. -/
theorem returns_strcmpRound_of_ne {i : Nat} {x y : Byte} (hx : m (p + i) = x) (hy : m (q + i) = y)
    (hne : x ≠ y) (as bs : List Byte) :
    Returns (loop (strcmpRound signed m p q) i) (charDiff signed (x :: as) (y :: bs)) := by
  refine Returns.loop_exit ?_
  unfold strcmpRound
  rw [charDiff_cons, if_neg hne, hx, hy, if_neg fun h => hne (charVal_inj.mp h)]
  exact returns_pure _

/-- The loop of `strcmp` from index `i` on: it needs one more index for every byte that agrees. -/
theorem returns_strcmpRound_iff {as bs : List Byte} {i : Nat} (ha : IsStr m (p + i) as)
    (hb : IsStr m (q + i) bs) (hi : i < 2 ^ 31) (r : Int) :
    Returns (loop (strcmpRound signed m p q) i) r ↔
      i + agreeing as bs < 2 ^ 31 ∧ r = charDiff signed (as ++ [0]) (bs ++ [0]) := by
  induction as generalizing i bs with
  | nil =>
      have hx := isStr_nil_iff.mp ha
      cases bs with
      | nil =>
          have hround : Returns (strcmpRound signed m p q i) (.inr 0) := by
            unfold strcmpRound
            rw [hx, isStr_nil_iff.mp hb, if_pos rfl, if_pos (charVal_eq_zero.mpr rfl)]
            exact returns_pure _
          exact hround.loop_exit.iff_eq.trans (iff_and_self.mpr fun _ => hi)
      | cons b bs =>
          obtain ⟨hy, hb0, -⟩ := isStr_cons_iff.mp hb
          exact (returns_strcmpRound_of_ne signed m p q hx hy hb0.symm [] _).iff_eq.trans
            (iff_and_self.mpr fun _ => hi)
  | cons a as ih =>
      obtain ⟨hx, ha0, ha⟩ := isStr_cons_iff.mp ha
      cases bs with
      | nil =>
          exact (returns_strcmpRound_of_ne signed m p q hx (isStr_nil_iff.mp hb) ha0 _ []).iff_eq.trans
            (iff_and_self.mpr fun _ => hi)
      | cons b bs =>
          obtain ⟨hy, -, hb⟩ := isStr_cons_iff.mp hb
          rw [agreeing]
          split_ifs with hab
          · have hround : strcmpRound signed m p q i =
                (do return .inl (← int ((i : Int) + 1))) := by
              unfold strcmpRound
              rw [hx, hy, hab, if_pos rfl, if_neg fun h => ha0 (hab.trans (charVal_eq_zero.mp h))]
            rcases Nat.lt_or_ge (i + 1) (2 ^ 31) with hlt | hge
            · have hnext : Returns (strcmpRound signed m p q i) (.inl ((i + 1 : Nat) : Int)) := by
                rw [hround]
                exact (returns_int (by omega) (by omega)).bind (returns_pure _)
              rw [Int.add_assoc] at ha hb
              rw [hnext.loop_iff, ih ha hb hlt, List.cons_append, List.cons_append, charDiff_cons,
                if_pos hab, Nat.add_right_comm, Nat.add_assoc]
            · rw [int_of_ge (by omega)] at hround
              constructor
              · exact fun h => absurd h (not_returns_loop hround r)
              · rintro ⟨h, -⟩
                omega
          · exact (returns_strcmpRound_of_ne signed m p q hx hy hab _ _).iff_eq.trans
              (iff_and_self.mpr fun _ => hi)

theorem returns_strcmp_iff {as bs : List Byte} (ha : IsStr m p as) (hb : IsStr m q bs) (r : Int) :
    Returns (strcmp signed m (some p) (some q)) r ↔
      agreeing as bs < 2 ^ 31 ∧ r = charDiff signed (as ++ [0]) (bs ++ [0]) := by
  have h := returns_strcmpRound_iff signed m p q (i := 0) (by rwa [Int.natCast_zero, Int.add_zero])
    (by rwa [Int.natCast_zero, Int.add_zero]) (by decide) r
  rwa [Nat.zero_add] at h

theorem charDiff_upToNul_of_ne {a b : Byte} (hne : a ≠ b) (as bs : List Byte) :
    charDiff signed (upToNul (a :: as)) (upToNul (b :: bs)) = charVal signed a - charVal signed b := by
  have hhead : ∀ c cs, ∃ ds, upToNul (c :: cs) = c :: ds := fun c cs => by
    unfold upToNul
    split_ifs with hc
    · exact ⟨[], hc ▸ rfl⟩
    · exact ⟨_, rfl⟩
  obtain ⟨as', ha⟩ := hhead a as
  obtain ⟨bs', hb⟩ := hhead b bs
  rw [ha, hb, charDiff_cons, if_neg hne]

/-- The loop of `strncmp` from index `i` on, when `k` more bytes may be compared. -/
theorem returns_strncmpRound {n : Nat} (hn : n < 2 ^ 31) (k i : Nat) (hi : i + k = n) :
    Returns (loop (strncmpRound signed m p q n) i)
      (charDiff signed (upToNul (slice m (p + i) k)) (upToNul (slice m (q + i) k))) := by
  induction k generalizing i with
  | zero =>
      refine Returns.loop_exit ?_
      unfold strncmpRound
      rw [if_neg fun h => by omega, if_pos (by omega)]
      exact returns_pure _
  | succ k ih =>
      rw [slice_succ_eq_cons, slice_succ_eq_cons]
      have hlt : (i : Int) < n := by omega
      by_cases heq : m (p + i) = m (q + i)
      · by_cases hz : m (q + i) = 0
        · refine Returns.loop_exit ?_
          unfold strncmpRound
          rw [heq, hz, if_pos ⟨hlt, rfl⟩, if_pos (charVal_eq_zero.mpr rfl)]
          exact returns_pure _
        · have hnext : Returns (strncmpRound signed m p q n i) (.inl ((i + 1 : Nat) : Int)) := by
            unfold strncmpRound
            rw [heq, if_pos ⟨hlt, rfl⟩, if_neg fun h => hz (charVal_eq_zero.mp h)]
            exact (returns_int (by omega) (by omega)).bind (returns_pure _)
          have hrest := ih (i + 1) (by omega)
          rw [Int.natCast_succ, ← Int.add_assoc, ← Int.add_assoc] at hrest
          rw [hnext.loop_iff, heq, upToNul, upToNul, if_neg hz, if_neg hz, charDiff_cons, if_pos rfl]
          exact hrest
      · refine Returns.loop_exit ?_
        unfold strncmpRound
        rw [charDiff_upToNul_of_ne signed heq, if_neg fun h => heq (charVal_inj.mp h.2),
          if_neg (by omega)]
        exact returns_pure _

theorem returns_strncmp {n : Nat} (hn : n < 2 ^ 31) :
    Returns (strncmp signed m (some p) (some q) n)
      (charDiff signed (upToNul (slice m p n)) (upToNul (slice m q n))) := by
  have h := returns_strncmpRound signed m p q hn n 0 (Nat.zero_add n)
  rwa [Int.natCast_zero, Int.add_zero, Int.add_zero] at h

/-- The loop of `memcmp` from index `i` on, when `k` more bytes are compared. -/
theorem returns_memcmpRound (n k i : Nat) (hi : i + k = n) :
    Returns (loop (memcmpRound signed m (some p) (some q) n) i)
      (charDiff signed (slice m (p + i) k) (slice m (q + i) k)) := by
  induction k generalizing i with
  | zero =>
      refine Returns.loop_exit ?_
      unfold memcmpRound
      rw [if_neg (by omega)]
      exact returns_pure _
  | succ k ih =>
      rw [slice_succ_eq_cons, slice_succ_eq_cons, charDiff_cons]
      have hlt : i < n := by omega
      split_ifs with heq
      · have hnext : Returns (memcmpRound signed m (some p) (some q) n i) (.inl (i + 1)) := by
          unfold memcmpRound
          rw [if_pos hlt]
          dsimp only
          rw [heq, if_neg fun h => h rfl]
          exact returns_pure _
        have hrest := ih (i + 1) (by omega)
        rw [Int.natCast_succ, ← Int.add_assoc, ← Int.add_assoc] at hrest
        exact hnext.loop_iff.mpr hrest
      · refine Returns.loop_exit ?_
        unfold memcmpRound
        rw [if_pos hlt]
        dsimp only
        rw [if_pos fun h => heq (charVal_inj.mp h)]
        exact returns_pure _

theorem returns_memcmp (n : Nat) :
    Returns (memcmp signed m (some p) (some q) n) (charDiff signed (slice m p n) (slice m q n)) := by
  have h := returns_memcmpRound signed m p q n n 0 (Nat.zero_add n)
  rwa [Int.natCast_zero, Int.add_zero, Int.add_zero] at h

end

/-! ## Ranges of bytes -/

theorem agreeing_le_length (as bs : List Byte) : agreeing as bs ≤ as.length := by
  induction as generalizing bs with
  | nil => exact Nat.le_refl _
  | cons a as ih =>
      cases bs with
      | nil => exact Nat.zero_le _
      | cons b bs =>
          rw [agreeing]
          split_ifs
          · exact Nat.succ_le_succ (ih bs)
          · exact Nat.zero_le _

/-- Within enough bytes, the range of a string is the string with its end. -/
theorem upToNul_slice {m : Memory} {p : Int} {as : List Byte} (h : IsStr m p as) {n : Nat}
    (hn : as.length < n) : upToNul (slice m p n) = as ++ [0] := by
  induction as generalizing p n with
  | nil =>
      obtain ⟨k, rfl⟩ := Nat.exists_eq_succ_of_ne_zero (Nat.ne_of_gt hn)
      rw [slice_succ_eq_cons, isStr_nil_iff.mp h]
      rfl
  | cons a as ih =>
      obtain ⟨ha, ha0, h⟩ := isStr_cons_iff.mp h
      obtain ⟨k, rfl⟩ := Nat.exists_eq_succ_of_ne_zero (Nat.ne_of_gt (Nat.zero_lt_of_lt hn))
      rw [slice_succ_eq_cons, ha, upToNul, if_neg ha0, ih h (Nat.lt_of_succ_lt_succ hn)]
      rfl

theorem eq_of_firstDiff {as bs : List Byte} (hlen : as.length = bs.length)
    (h : firstDiff as bs = none) : as = bs := by
  induction as generalizing bs with
  | nil => exact (List.length_eq_zero_iff.mp hlen.symm).symm
  | cons a as ih =>
      cases bs with
      | nil => exact nomatch hlen
      | cons b bs =>
          obtain ⟨hab, h⟩ := firstDiff_cons_eq_none.mp h
          rw [hab, ih (Nat.succ.inj hlen) h]

theorem upToNul_eq_of_firstDiff {as bs : List Byte} (hlen : as.length = bs.length)
    (h : firstDiff (upToNul as) (upToNul bs) = none) : upToNul as = upToNul bs := by
  induction as generalizing bs with
  | nil => rw [List.length_eq_zero_iff.mp hlen.symm]
  | cons a as ih =>
      cases bs with
      | nil => exact nomatch hlen
      | cons b bs =>
          unfold upToNul at h ⊢
          by_cases ha : a = 0 <;> by_cases hb : b = 0
          · rw [if_pos ha, if_pos hb]
          · rw [if_pos ha, if_neg hb] at h
            exact absurd (firstDiff_cons_eq_none.mp h).1.symm hb
          · rw [if_neg ha, if_pos hb] at h
            exact absurd (firstDiff_cons_eq_none.mp h).1 ha
          · rw [if_neg ha, if_neg hb] at h ⊢
            obtain ⟨hab, h⟩ := firstDiff_cons_eq_none.mp h
            rw [hab, ih (Nat.succ.inj hlen) h]

theorem str_eq_of_firstDiff {as bs : List Byte} (ha : ∀ a ∈ as, a ≠ 0) (hb : ∀ b ∈ bs, b ≠ 0)
    (h : firstDiff (as ++ [0]) (bs ++ [0]) = none) : as = bs := by
  induction as generalizing bs with
  | nil =>
      cases bs with
      | nil => rfl
      | cons b bs =>
          exact absurd (firstDiff_cons_eq_none.mp h).1.symm (hb b List.mem_cons_self)
  | cons a as ih =>
      cases bs with
      | nil =>
          exact absurd (firstDiff_cons_eq_none.mp h).1 (ha a List.mem_cons_self)
      | cons b bs =>
          obtain ⟨hab, h⟩ := firstDiff_cons_eq_none.mp h
          rw [hab, ih (fun x hx => ha x (List.mem_cons_of_mem a hx))
            (fun x hx => hb x (List.mem_cons_of_mem b hx)) h]

/-! ## What a caller may rely on -/

/-- `cmp` returns that the first is not above the second. -/
def LeBy (cmp : Int → Int → Fueled Int) (p q : Int) : Prop := ∃ r, Returns (cmp p q) r ∧ r ≤ 0

/-- On the pointers in `S`, what `cmp` returns is a total preorder. -/
structure IsTotalPreorder (S : Int → Prop) (cmp : Int → Int → Fueled Int) : Prop where
  total : ∀ p q, S p → S q → LeBy cmp p q ∨ LeBy cmp q p
  trans : ∀ p q s, S p → S q → S s → LeBy cmp p q → LeBy cmp q s → LeBy cmp p s

/-- A function that compares the ranges its pointers have by `K`. -/
theorem isTotalPreorder_of_charDiff (signed : Bool) {S : Int → Prop} {cmp : Int → Int → Fueled Int}
    (K : Int → List Byte → Prop) (hS : ∀ p, S p → ∃ as, K p as)
    (hcmp : ∀ p q as bs, K p as → K q bs → Returns (cmp p q) (charDiff signed as bs))
    (hK : ∀ p q as bs, K p as → K q bs → firstDiff as bs = none → as = bs) :
    IsTotalPreorder S cmp := by
  have hle : ∀ p q as bs, K p as → K q bs → (LeBy cmp p q ↔ charDiff signed as bs ≤ 0) := by
    intro p q as bs ha hb
    constructor
    · rintro ⟨r, hr, hr0⟩
      exact hr.unique (hcmp p q as bs ha hb) ▸ hr0
    · exact fun h => ⟨_, hcmp p q as bs ha hb, h⟩
  constructor
  · intro p q hp hq
    obtain ⟨as, ha⟩ := hS p hp
    obtain ⟨bs, hb⟩ := hS q hq
    rw [hle p q as bs ha hb, hle q p bs as hb ha, charDiff_comm signed as bs]
    omega
  · intro p q s hp hq hs hpq hqs
    obtain ⟨as, ha⟩ := hS p hp
    obtain ⟨bs, hb⟩ := hS q hq
    obtain ⟨cs, hc⟩ := hS s hs
    rw [hle p q as bs ha hb] at hpq
    rw [hle q s bs cs hb hc] at hqs
    exact (hle p s as cs ha hc).mpr (charDiff_trans (hK p q as bs ha hb) (hK q s bs cs hb hc) hpq hqs)

section

variable (signed : Bool) (m : Memory)

theorem isTotalPreorder_strcmp :
    IsTotalPreorder (fun p => ∃ as, IsStr m p as ∧ as.length < 2 ^ 31) fun p q =>
      strcmp signed m (some p) (some q) := by
  refine isTotalPreorder_of_charDiff signed
    (fun p l => ∃ as, IsStr m p as ∧ as.length < 2 ^ 31 ∧ l = as ++ [0])
    (fun p ⟨as, h, hlen⟩ => ⟨_, as, h, hlen, rfl⟩) ?_ ?_
  · rintro p q _ _ ⟨as, ha, hlen, rfl⟩ ⟨bs, hb, -, rfl⟩
    have hagree := Nat.lt_of_le_of_lt (agreeing_le_length as bs) hlen
    exact (returns_strcmp_iff signed m p q ha hb _).mpr ⟨hagree, rfl⟩
  · rintro p q _ _ ⟨as, ha, -, rfl⟩ ⟨bs, hb, -, rfl⟩ h
    rw [str_eq_of_firstDiff ha.ne_zero hb.ne_zero h]

theorem isTotalPreorder_strncmp {n : Nat} (hn : n < 2 ^ 31) :
    IsTotalPreorder (fun _ => True) fun p q => strncmp signed m (some p) (some q) n := by
  refine isTotalPreorder_of_charDiff signed (fun p l => l = upToNul (slice m p n))
    (fun p _ => ⟨_, rfl⟩) ?_ ?_
  · rintro p q _ _ rfl rfl
    exact returns_strncmp signed m p q hn
  · rintro p q _ _ rfl rfl h
    exact upToNul_eq_of_firstDiff (by rw [length_slice, length_slice]) h

theorem isTotalPreorder_memcmp (n : Nat) :
    IsTotalPreorder (fun _ => True) fun p q => memcmp signed m (some p) (some q) n := by
  refine isTotalPreorder_of_charDiff signed (fun p l => l = slice m p n)
    (fun p _ => ⟨_, rfl⟩) ?_ ?_
  · rintro p q _ _ rfl rfl
    exact returns_memcmp signed m p q n
  · rintro p q _ _ rfl rfl h
    exact eq_of_firstDiff (by rw [length_slice, length_slice]) h

/-- When `n` is beyond both strings, `strncmp` returns what `strcmp` does. -/
theorem returns_strncmp_iff_strcmp {p q : Int} {as bs : List Byte} (ha : IsStr m p as)
    (hb : IsStr m q bs) {n : Nat} (hn : n < 2 ^ 31) (han : as.length < n) (hbn : bs.length < n) (r : Int) :
    Returns (strncmp signed m (some p) (some q) n) r ↔ Returns (strcmp signed m (some p) (some q)) r := by
  have hagree := Nat.lt_of_le_of_lt (agreeing_le_length as bs) (Nat.lt_trans han hn)
  rw [(returns_strncmp signed m p q hn).iff_eq, returns_strcmp_iff signed m p q ha hb,
    upToNul_slice ha han, upToNul_slice hb hbn]
  exact (and_iff_right hagree).symm

end

/-- `char` is unsigned, or the first two bytes that differ have the same bit 7. -/
def KeepsOrder (signed : Bool) (as bs : List Byte) : Prop :=
  signed = true → ∀ a b, firstDiff as bs = some (a, b) → a.msb = b.msb

/-- A program that returns a number with the sign of the order. -/
def Compares (x : Fueled Int) (as bs : List Byte) : Prop := ∃ r, Returns x r ∧ r.sign = byteOrder as bs

theorem compares_iff {x : Fueled Int} {signed : Bool} {as bs : List Byte}
    (h : Returns x (charDiff signed as bs)) : Compares x as bs ↔ KeepsOrder signed as bs := by
  refine Iff.trans ?_ (sign_charDiff_iff signed as bs)
  constructor
  · rintro ⟨r, hr, hsign⟩
    exact hr.unique h ▸ hsign
  · exact fun hsign => ⟨_, h, hsign⟩

/-- `strcmp` gives the byte order of two strings exactly when its `int` index reaches the bytes that
decide and these have the same bit 7 or `char` is unsigned; for `strncmp` and `memcmp` the second is
enough. The results are total preorders in any case, and `strncmp` with room for both strings is
`strcmp`. -/
theorem comparisons_right_iff (signed : Bool) (m : Memory) :
    (∀ p q as bs, IsStr m p as → IsStr m q bs →
      (Compares (strcmp signed m (some p) (some q)) (as ++ [0]) (bs ++ [0]) ↔
        agreeing as bs < 2 ^ 31 ∧ KeepsOrder signed (as ++ [0]) (bs ++ [0]))) ∧
    (∀ p q n, n < 2 ^ 31 →
      (Compares (strncmp signed m (some p) (some q) n) (upToNul (slice m p n)) (upToNul (slice m q n)) ↔
        KeepsOrder signed (upToNul (slice m p n)) (upToNul (slice m q n)))) ∧
    (∀ p q n, n < 2 ^ 31 →
      (Compares (memcmp signed m (some p) (some q) n) (slice m p n) (slice m q n) ↔
        KeepsOrder signed (slice m p n) (slice m q n))) ∧
    IsTotalPreorder (fun p => ∃ as, IsStr m p as ∧ as.length < 2 ^ 31)
      (fun p q => strcmp signed m (some p) (some q)) ∧
    (∀ n, n < 2 ^ 31 →
      IsTotalPreorder (fun _ => True) (fun p q => strncmp signed m (some p) (some q) n) ∧
      IsTotalPreorder (fun _ => True) (fun p q => memcmp signed m (some p) (some q) n)) ∧
    (∀ p q as bs n, IsStr m p as → IsStr m q bs → as.length < n → bs.length < n → n < 2 ^ 31 → ∀ r,
      (Returns (strncmp signed m (some p) (some q) n) r ↔
        Returns (strcmp signed m (some p) (some q)) r)) := by
  refine ⟨fun p q as bs ha hb => ?_, fun p q n hn => compares_iff (returns_strncmp signed m p q hn),
    fun p q n _ => compares_iff (returns_memcmp signed m p q n), isTotalPreorder_strcmp signed m,
    fun n hn => ⟨isTotalPreorder_strncmp signed m hn, isTotalPreorder_memcmp signed m n⟩,
    fun p q as bs n ha hb han hbn hn => returns_strncmp_iff_strcmp signed m ha hb hn han hbn⟩
  constructor
  · rintro ⟨r, hr, hsign⟩
    obtain ⟨hagree, rfl⟩ := (returns_strcmp_iff signed m p q ha hb r).mp hr
    exact ⟨hagree, (sign_charDiff_iff signed _ _).mp hsign⟩
  · rintro ⟨hagree, horder⟩
    have hr := (returns_strcmp_iff signed m p q ha hb _).mpr ⟨hagree, rfl⟩
    exact (compares_iff hr).mpr horder

/-- The strings of the byte 0x80 and of the byte 0x01. -/
def highAndLow : Memory := place (fun _ => 0) 16 [0x80, 0, 0x01, 0]

/-- With a signed `char`, the string of the byte 0x80 comes before the string of the byte 0x01. -/
theorem strcmp_not_byteOrder :
    ¬∀ (signed : Bool) (m : Memory) (p q : Int) (as bs : List Byte), IsStr m p as → IsStr m q bs →
      Compares (strcmp signed m (some p) (some q)) (as ++ [0]) (bs ++ [0]) := by
  intro h
  have ha : IsStr highAndLow 16 [0x80] :=
    isStr_cons_iff.mpr ⟨by decide, by decide, isStr_nil_iff.mpr (by decide)⟩
  have hb : IsStr highAndLow 18 [0x01] :=
    isStr_cons_iff.mpr ⟨by decide, by decide, isStr_nil_iff.mpr (by decide)⟩
  obtain ⟨r, hr, hsign⟩ := h true highAndLow 16 18 _ _ ha hb
  obtain ⟨-, rfl⟩ := (returns_strcmp_iff true highAndLow 16 18 ha hb r).mp hr
  exact absurd hsign (by decide)

end MyCpu.Klib
