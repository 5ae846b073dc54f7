import MyCpu.Bytes.LittleEndian

/-!
# Blocks of bytes

Lists of bytes in a memory, and the strings that end in a zero byte.

* `At`, `slice` : the bytes at a place;
* `place` : a list of bytes written one after another; `place_append`, `place_concat`, `place_cons`;
* `reversed` : a range of bytes in the opposite order; `reversed_exchange`, `reversed_place`;
* `IsStr` : a string, its characters and its end; `IsStr.unique`, `isStr_cons_iff`.
-/

namespace MyCpu.Bytes

/-- The bytes `bs` are at `p`. -/
def At (m : Memory) (p : Int) (bs : List Byte) : Prop := ∀ i (hi : i < bs.length), m (p + i) = bs[i]

/-- The `n` bytes from `p` on. -/
def slice (m : Memory) (p : Int) (n : Nat) : List Byte := (List.range n).map fun i : Nat => m (p + i)

/-- The bytes `bs` written one after another from `p` on. -/
def place (m : Memory) (p : Int) : List Byte → Memory
  | [] => m
  | b :: bs => place (Function.update m p b) (p + 1) bs

/-- The bytes from `l` to `r` in the opposite order. -/
def reversed (m : Memory) (l r : Int) : Memory := fun x =>
  if l ≤ x ∧ x ≤ r then m (l + r - x) else m x

/-! ## Bytes at a place -/

theorem at_nil (m : Memory) (p : Int) : At m p [] := fun _ h => absurd h (Nat.not_lt_zero _)

theorem at_append_iff {m : Memory} {p : Int} {as bs : List Byte} :
    At m p (as ++ bs) ↔ At m p as ∧ At m (p + as.length) bs := by
  constructor
  · intro h
    refine ⟨fun i hi => ?_, fun i hi => ?_⟩
    · rw [h i (by rw [List.length_append]; omega), List.getElem_append_left hi]
    · have hlt : as.length + i < (as ++ bs).length := by rw [List.length_append]; omega
      rw [Int.add_assoc, ← Int.natCast_add, h _ hlt, List.getElem_append_right (Nat.le_add_right _ _)]
      simp only [Nat.add_sub_cancel_left]
  · rintro ⟨ha, hb⟩ i hi
    rcases Nat.lt_or_ge i as.length with hlt | hge
    · rw [ha i hlt, List.getElem_append_left hlt]
    · obtain ⟨j, rfl⟩ := Nat.exists_eq_add_of_le hge
      have hj : j < bs.length := by rw [List.length_append] at hi; omega
      rw [Int.natCast_add, ← Int.add_assoc, hb j hj, List.getElem_append_right hge]
      simp only [Nat.add_sub_cancel_left]

theorem at_singleton_iff {m : Memory} {p : Int} {b : Byte} : At m p [b] ↔ m p = b := by
  constructor
  · exact fun h => (congrArg m (Int.add_zero p)).symm.trans (h 0 Nat.zero_lt_one)
  · intro h i hi
    obtain rfl : i = 0 := Nat.lt_one_iff.mp hi
    exact (congrArg m (Int.add_zero p)).trans h

theorem at_cons_iff {m : Memory} {p : Int} {b : Byte} {bs : List Byte} :
    At m p (b :: bs) ↔ m p = b ∧ At m (p + 1) bs := by
  rw [← List.singleton_append, at_append_iff, at_singleton_iff]
  rfl

theorem At.congr {m m' : Memory} {p : Int} {bs : List Byte} (h : At m p bs)
    (heq : ∀ x, p ≤ x → x < p + bs.length → m' x = m x) : At m' p bs := fun i hi =>
  (heq _ (by omega) (by omega)).trans (h i hi)

@[simp] theorem length_slice (m : Memory) (p : Int) (n : Nat) : (slice m p n).length = n := by
  simp [slice]

theorem getElem_slice (m : Memory) (p : Int) {n i : Nat} (hi : i < (slice m p n).length) :
    (slice m p n)[i] = m (p + i) := by simp [slice]

theorem at_slice (m : Memory) (p : Int) (n : Nat) : At m p (slice m p n) := fun _ hi =>
  (getElem_slice m p hi).symm

theorem At.slice_eq {m : Memory} {p : Int} {bs : List Byte} (h : At m p bs) :
    slice m p bs.length = bs :=
  List.ext_getElem (length_slice m p _) fun i hi hi' => (getElem_slice m p hi).trans (h i hi')

theorem slice_zero (m : Memory) (p : Int) : slice m p 0 = [] := rfl

theorem slice_succ (m : Memory) (p : Int) (n : Nat) : slice m p (n + 1) = slice m p n ++ [m (p + n)] := by
  simp [slice, List.range_succ]

theorem slice_succ_eq_cons (m : Memory) (p : Int) (n : Nat) :
    slice m p (n + 1) = m p :: slice m (p + 1) n := by
  have h : At m p (m p :: slice m (p + 1) n) := at_cons_iff.mpr ⟨rfl, at_slice m (p + 1) n⟩
  have hlen : (m p :: slice m (p + 1) n).length = n + 1 := congrArg (· + 1) (length_slice m (p + 1) n)
  exact hlen ▸ h.slice_eq

/-! ## Bytes written at a place -/

theorem place_of_outside {p x : Int} {bs : List Byte} (h : x < p ∨ p + bs.length ≤ x) (m : Memory) :
    place m p bs x = m x := by
  induction bs generalizing m p with
  | nil => rfl
  | cons b bs ih =>
      rw [List.length_cons] at h
      rw [place, ih (by omega), Function.update_of_ne (by omega)]

theorem at_place (m : Memory) (p : Int) (bs : List Byte) : At (place m p bs) p bs := by
  induction bs generalizing m p with
  | nil => exact at_nil _ _
  | cons b bs ih =>
      refine at_cons_iff.mpr ⟨?_, ih _ _⟩
      rw [place, place_of_outside (by omega), Function.update_self]

/-- A memory is given by what is at the place and what is outside. -/
theorem eq_place {m m' : Memory} {p : Int} {bs : List Byte} (hat : At m' p bs)
    (hout : ∀ x, x < p ∨ p + bs.length ≤ x → m' x = m x) : m' = place m p bs := by
  funext x
  by_cases hx : x < p ∨ p + bs.length ≤ x
  · rw [hout x hx, place_of_outside hx]
  · obtain ⟨i, rfl⟩ : ∃ i : Nat, x = p + i := ⟨(x - p).toNat, by omega⟩
    have hi : i < bs.length := by omega
    rw [hat i hi, at_place m p bs i hi]

theorem place_append (m : Memory) (p : Int) (as bs : List Byte) :
    place m p (as ++ bs) = place (place m p as) (p + as.length) bs := by
  induction as generalizing m p with
  | nil => rw [List.length_nil, Int.natCast_zero, Int.add_zero]; rfl
  | cons a as ih =>
      rw [List.cons_append, place, ih, List.length_cons, Int.natCast_succ, Int.add_comm as.length 1,
        ← Int.add_assoc]
      rfl

/-- One more byte at the end. -/
theorem place_concat (m : Memory) (p : Int) (bs : List Byte) (b : Byte) :
    place m p (bs ++ [b]) = Function.update (place m p bs) (p + bs.length) b := place_append m p bs [b]

/-- One more byte in front. -/
theorem place_cons (m : Memory) (p : Int) (b : Byte) (bs : List Byte) :
    place m p (b :: bs) = Function.update (place m (p + 1) bs) p b := by
  refine (eq_place (at_cons_iff.mpr ⟨Function.update_self .., ?_⟩) fun x hx => ?_).symm
  · exact (at_place m (p + 1) bs).congr fun x hx _ => Function.update_of_ne (by omega) ..
  · rw [List.length_cons] at hx
    rw [Function.update_of_ne (by omega), place_of_outside (by omega)]

/-! ## Bytes in the opposite order -/

theorem reversed_of_outside {l r x : Int} (h : ¬(l ≤ x ∧ x ≤ r)) (m : Memory) : reversed m l r x = m x :=
  if_neg h

theorem reversed_of_lt {l r : Int} (h : r < l) (m : Memory) : reversed m l r = m :=
  funext fun _ => reversed_of_outside (by omega) m

/-- Two bytes exchanged, and what is between them turned round. -/
theorem reversed_exchange (m : Memory) {l r : Int} (h : l ≤ r) :
    reversed (Function.update (Function.update m l (m r)) r (m l)) (l + 1) (r - 1) = reversed m l r := by
  funext x
  unfold reversed
  by_cases hin : l + 1 ≤ x ∧ x ≤ r - 1
  · rw [if_pos hin, if_pos (by omega), Function.update_of_ne (by omega), Function.update_of_ne (by omega)]
    exact congrArg m (by omega)
  · rw [if_neg hin]
    by_cases hr : x = r
    · rw [hr, Function.update_self, if_pos ⟨h, Int.le_refl r⟩]
      exact congrArg m (by omega)
    · rw [Function.update_of_ne hr]
      by_cases hl : x = l
      · rw [hl, Function.update_self, if_pos ⟨Int.le_refl l, h⟩]
        exact congrArg m (by omega)
      · rw [Function.update_of_ne hl, if_neg (by omega)]

/-- The middle part of a block turned round. -/
theorem reversed_place (m : Memory) (p : Int) (as bs cs : List Byte) :
    reversed (place m p (as ++ bs ++ cs)) (p + as.length) (p + as.length + bs.length - 1) =
      place m p (as ++ bs.reverse ++ cs) := by
  obtain ⟨hab, hc⟩ := at_append_iff.mp (at_place m p (as ++ bs ++ cs))
  obtain ⟨ha, hb⟩ := at_append_iff.mp hab
  rw [List.length_append] at hc
  refine eq_place (at_append_iff.mpr ⟨at_append_iff.mpr ⟨?_, fun i hi => ?_⟩, ?_⟩) fun x hx => ?_
  · exact ha.congr fun x _ hx => reversed_of_outside (by omega) _
  · rw [List.length_reverse] at hi
    have hlt : bs.length - 1 - i < bs.length := by omega
    rw [reversed, if_pos (by omega), List.getElem_reverse, ← hb _ hlt]
    exact congrArg _ (by omega)
  · rw [List.length_append, List.length_reverse]
    exact hc.congr fun x hx _ => reversed_of_outside (by omega) _
  · simp only [List.length_append, List.length_reverse] at hx
    rw [reversed_of_outside (by omega), place_of_outside (by simp only [List.length_append]; omega)]

/-! ## Strings -/

/-- The string `bs` and the zero byte that ends it are at `p`. -/
structure IsStr (m : Memory) (p : Int) (bs : List Byte) : Prop where
  at_chars : At m p bs
  at_end : m (p + bs.length) = 0
  ne_zero : ∀ b ∈ bs, b ≠ 0

theorem isStr_nil_iff {m : Memory} {p : Int} : IsStr m p [] ↔ m p = 0 := by
  constructor
  · exact fun h => (congrArg m (Int.add_zero p)).symm.trans h.at_end
  · exact fun h => ⟨at_nil m p, (congrArg m (Int.add_zero p)).trans h, nofun⟩

theorem isStr_cons_iff {m : Memory} {p : Int} {b : Byte} {bs : List Byte} :
    IsStr m p (b :: bs) ↔ m p = b ∧ b ≠ 0 ∧ IsStr m (p + 1) bs := by
  have hend : p + (b :: bs).length = p + 1 + bs.length := by rw [List.length_cons]; omega
  constructor
  · rintro ⟨hat, hz, hne⟩
    obtain ⟨hb, hat⟩ := at_cons_iff.mp hat
    exact ⟨hb, hne b List.mem_cons_self, hat, hend ▸ hz, fun x hx => hne x (List.mem_cons_of_mem b hx)⟩
  · rintro ⟨hb, hb0, hat, hz, hne⟩
    exact ⟨at_cons_iff.mpr ⟨hb, hat⟩, hend ▸ hz, List.forall_mem_cons.mpr ⟨hb0, hne⟩⟩

/-- There is one string at a place. -/
theorem IsStr.unique {m : Memory} {p : Int} {as bs : List Byte} (ha : IsStr m p as) (hb : IsStr m p bs) :
    as = bs := by
  induction as generalizing p bs with
  | nil =>
      cases bs with
      | nil => rfl
      | cons b bs =>
          obtain ⟨h, hb0, -⟩ := isStr_cons_iff.mp hb
          exact absurd (h.symm.trans (isStr_nil_iff.mp ha)) hb0
  | cons a as ih =>
      obtain ⟨h, ha0, ha⟩ := isStr_cons_iff.mp ha
      cases bs with
      | nil => exact absurd (h.symm.trans (isStr_nil_iff.mp hb)) ha0
      | cons b bs =>
          obtain ⟨h', -, hb⟩ := isStr_cons_iff.mp hb
          rw [ih ha hb, ← h, h']

theorem isStr_of_at {m : Memory} {p : Int} {bs : List Byte} (h : At m p (bs ++ [0]))
    (hne : ∀ b ∈ bs, b ≠ 0) : IsStr m p bs :=
  have ⟨hat, hend⟩ := at_append_iff.mp h
  ⟨hat, at_singleton_iff.mp hend, hne⟩

theorem isStr_place (m : Memory) (p : Int) {bs : List Byte} (hne : ∀ b ∈ bs, b ≠ 0) :
    IsStr (place m p (bs ++ [0])) p bs := isStr_of_at (at_place m p _) hne

/-- A byte of a string. -/
theorem IsStr.get_ne_zero {m : Memory} {p : Int} {bs : List Byte} (h : IsStr m p bs) {i : Nat}
    (hi : i < bs.length) : m (p + i) ≠ 0 := by
  rw [h.at_chars i hi]
  exact h.ne_zero _ (List.getElem_mem hi)

end MyCpu.Bytes
