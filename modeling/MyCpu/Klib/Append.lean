import MyCpu.Klib.Copy

/-!
# Strings written into a memory they are read from

`strcat`, `strncpy` and `memset` of `klib/src/string.c`. `strcat` stops at the end of the source, which it
may have written over by then.

* `strcat`, `strncpy`, `memset` : the functions;
* `strcat_returns_iff` : `strcat` returns exactly when its first write is not into the source;
* `strncpy_writes`, `returns_memset` : what the other two write, `strncpy` also over its own source.
-/

namespace MyCpu.Klib

open Bytes Loop

/-! ## The functions -/

def strcatRound (dst len src : Int) : Nat × Memory → Fueled ((Nat × Memory) ⊕ (Nat × Memory))
  | (i, m) =>
      if m (src + i) ≠ 0 then return .inl (i + 1, Function.update m (dst + len + i) (m (src + i)))
      else return .inr (i, m)

def strcat (m : Memory) (dst src : Ptr) : Fueled (Ptr × Memory) :=
  match dst, src with
  | some d, some s => do
      let len ← strlen m dst
      let (i, m) ← loop (strcatRound d len s) (0, m)
      return (dst, Function.update m (d + len + i) 0)
  | _, _ => fail

/-- Nothing is accessed when `n` is 0. -/
def strncpy (m : Memory) (dst src : Ptr) (n : Nat) : Fueled (Ptr × Memory) :=
  match dst, src with
  | some d, some s => do
      let (i, m) ← loop (fun (i, m) =>
        if i < n ∧ m (s + i) ≠ 0 then return .inl (i + 1, Function.update m (d + i) (m (s + i)))
        else return .inr (i, m)) ((0 : Nat), m)
      let m ← loop (fun (i, m) =>
        if i < n then return .inl (i + 1, Function.update m (d + i) 0) else return .inr m) (i, m)
      return (dst, m)
  | _, _ => if n = 0 then return (dst, m) else fail

def memset (m : Memory) (s : Ptr) (c : Int) (n : Nat) : Fueled (Ptr × Memory) :=
  match s with
  | none => return (none, m)
  | some p => do
      let m ← loop (fun (i, m) =>
        if i < n then return .inl (i + 1, Function.update m (p + i) (BitVec.ofInt 8 c))
        else return .inr m) ((0 : Nat), m)
      return (s, m)

/-! ## `strcat` -/

section

variable {m : Memory} {d s : Int} {bs : List Byte}

/-- Behind the source, or in front of all of it, the copy does not reach what is still to be read. -/
theorem strcatRound_apart {e : Int} (hapart : e ≤ s ∨ s + bs.length < e) {i : Nat}
    (hi : i ≤ bs.length) : place m e (bs.take i) (s + i) = m (s + i) := by
  have hlen : (bs.take i).length = i := List.length_take_of_le hi
  exact place_of_outside (by rw [hlen]; omega) m

theorem returns_strcat_loop (h : IsStr m s bs) {len : Int} (hapart : d + len ≤ s ∨ s + bs.length < d + len) :
    Returns (loop (strcatRound d len s) (0, m)) (bs.length, place m (d + len) bs) := by
  have hstart : (0, m) = (0, place m (d + len) (bs.take 0)) := rfl
  rw [hstart]
  refine Returns.loop_states (n := bs.length) (fun i => (i, place m (d + len) (bs.take i)))
    (fun i hi => ?_) ?_
  · have hlen : (bs.take i).length = i := List.length_take_of_le (Nat.le_of_lt hi)
    have hread := strcatRound_apart (m := m) hapart (Nat.le_of_lt hi)
    unfold strcatRound
    dsimp only
    rw [hread, if_pos (h.get_ne_zero hi), List.take_succ_eq_append_getElem hi, place_concat, hlen,
      h.at_chars i hi]
    exact returns_pure _
  · have hread := strcatRound_apart (m := m) hapart (Nat.le_refl bs.length)
    unfold strcatRound
    dsimp only
    rw [hread, if_neg (not_not.mpr h.at_end), List.take_length]
    exact returns_pure _

/-- Once a character has been written into what is still to be read, the end is never found: what has been
written is not 0, and what will be read has been written before. -/
theorem ensures_strcat_loop (h : IsStr m s bs) {len : Int} (hinto : s < d + len)
    (hover : d + len ≤ s + bs.length) : Ensures (loop (strcatRound d len s) (0, m)) fun _ => False := by
  have hbody : ∀ x : Nat × Memory, (∀ y, y < d + len → x.2 y = m y) ∧
      (∀ k : Nat, k < x.1 → x.2 (d + len + k) ≠ 0) → Ensures (strcatRound d len s x)
        (Sum.elim (fun x => (∀ y, y < d + len → x.2 y = m y) ∧
          ∀ k : Nat, k < x.1 → x.2 (d + len + k) ≠ 0) fun _ => False) := ?_
  · exact Ensures.loop hbody ⟨fun _ _ => rfl, fun k hk => absurd hk (Nat.not_lt_zero k)⟩
  rintro ⟨i, m'⟩ ⟨hfront, hwritten⟩
  dsimp only at hfront hwritten
  have hread : m' (s + i) ≠ 0 := by
    by_cases hi : s + i < d + len
    · rw [hfront _ hi]
      exact h.get_ne_zero (by omega)
    · obtain ⟨k, hk⟩ : ∃ k : Nat, s + i = d + len + k := ⟨(s + i - (d + len)).toNat, by omega⟩
      rw [hk]
      exact hwritten k (by omega)
  unfold strcatRound
  dsimp only
  rw [if_pos hread]
  refine ensures_pure ⟨fun x hx => ?_, fun k hk => ?_⟩ <;> dsimp only at *
  · rw [Function.update_of_ne (by omega)]
    exact hfront x hx
  · by_cases hki : k = i
    · rw [hki, Function.update_self]
      exact hread
    · rw [Function.update_of_ne (by omega)]
      exact hwritten k (by omega)

/-- On strings in one memory, `strcat` returns exactly when the end of the destination is not in the
source, not even at its end unless that is its start, and has then appended the source, its end and
nothing else. In particular it never returns from appending to itself a string that is not empty. -/
theorem strcat_returns_iff {as : List Byte} (ha : IsStr m d as) (hb : IsStr m s bs) (r : Ptr × Memory) :
    Returns (strcat m (some d) (some s)) r ↔ (d + as.length ≤ s ∨ s + bs.length < d + as.length) ∧
      r = (some d, place m (d + as.length) (bs ++ [0])) ∧ IsStr r.2 d (as ++ bs) := by
  have hstr : IsStr (place m (d + as.length) (bs ++ [0])) d (as ++ bs) := by
    refine isStr_of_at ?_ fun b hb' => ?_
    · rw [List.append_assoc, at_append_iff]
      exact ⟨ha.at_chars.congr fun x _ hx => place_of_outside (.inl hx) m, at_place m _ _⟩
    · rcases List.mem_append.mp hb' with h | h
      · exact ha.ne_zero b h
      · exact hb.ne_zero b h
  unfold strcat
  dsimp only
  by_cases hapart : d + as.length ≤ s ∨ s + bs.length < d + as.length
  · have hloop := returns_strcat_loop hb hapart
    have hall := (returns_strlen ha).bind (f := fun len => do
      let (i, m) ← loop (strcatRound d len s) (0, m)
      return (some d, Function.update m (d + len + i) 0)) (hloop.bind (returns_pure _))
    rw [hall.iff_eq, and_iff_right hapart, place_concat]
    constructor
    · rintro rfl
      refine ⟨rfl, ?_⟩
      rwa [place_concat] at hstr
    · exact fun h => h.1
  · refine iff_of_false ?_ fun h => hapart h.1
    rw [returns_bind_iff]
    rintro ⟨len, hlen, hrest⟩
    obtain rfl := hlen.unique (returns_strlen ha)
    obtain ⟨x, hx, -⟩ := returns_bind_iff.mp hrest
    exact ensures_strcat_loop hb (by omega) (by omega) x hx

/-- Two characters appended to nothing, ten bytes further up. -/
theorem strcat_returns_two :
    let m := place (fun _ => 0) 0 ([97, 98] ++ [0])
    IsStr m 10 [] ∧ IsStr m 0 [97, 98] ∧
      (Returns (strcat m (some 10) (some 0)) (some 10, place m 10 [97, 98, 0]) ↔
        (10 + ((0 : Nat) : Int) ≤ 0 ∨ 0 + ((2 : Nat) : Int) < 10 + ((0 : Nat) : Int)) ∧
          (some 10, place m 10 [97, 98, 0]) = (some (10 : Int), place m 10 [97, 98, 0]) ∧
          IsStr (place m 10 [97, 98, 0]) 10 [97, 98]) := by
  have ha : IsStr (place (fun _ => 0) 0 ([97, 98] ++ [0])) 10 [] := isStr_nil_iff.mpr rfl
  have hb : IsStr (place (fun _ => 0) 0 ([97, 98] ++ [0])) 0 [97, 98] := isStr_place _ 0 (by decide)
  exact ⟨ha, hb, strcat_returns_iff ha hb (some 10, _)⟩

end

/-! ## `strncpy` and `memset` -/

def isChar (b : Byte) : Bool := b ≠ 0

/-- The characters `strncpy` copies: up to the end of the string, but at most `n`. -/
def chars (m : Memory) (s : Int) (n : Nat) : List Byte := (slice m s n).takeWhile isChar

theorem chars_spec (m : Memory) (s : Int) (n : Nat) : At m s (chars m s n) ∧ (∀ b ∈ chars m s n, b ≠ 0) ∧
    ((chars m s n).length = n ∨ (chars m s n).length < n ∧ m (s + (chars m s n).length) = 0) := by
  induction n generalizing s with
  | zero => exact ⟨at_nil m s, nofun, .inl rfl⟩
  | succ n ih =>
      unfold chars
      rw [slice_succ_eq_cons]
      by_cases h0 : m s = 0
      · rw [List.takeWhile_cons_of_neg (p := isChar) fun h => of_decide_eq_true h h0]
        refine ⟨at_nil m s, nofun, .inr ⟨Nat.succ_pos n, ?_⟩⟩
        exact (congrArg m (Int.add_zero s)).trans h0
      · rw [List.takeWhile_cons_of_pos (p := isChar) (decide_eq_true h0)]
        obtain ⟨hat, hne, hend⟩ := ih (s + 1)
        refine ⟨at_cons_iff.mpr ⟨rfl, hat⟩, List.forall_mem_cons.mpr ⟨h0, hne⟩, ?_⟩
        rw [List.length_cons]
        refine hend.imp (congrArg (· + 1)) fun ⟨hlt, hz⟩ => ⟨Nat.succ_lt_succ hlt, ?_⟩
        rw [← hz]
        exact congrArg m (by unfold chars; omega)

/-- Bytes written behind some bytes, all alike. -/
theorem returns_fill (m : Memory) (p : Int) (c : Byte) (as : List Byte) (n : Nat) (hn : as.length ≤ n) :
    Returns (loop (fun (i, m) =>
      if i < n then
        (return .inl (i + 1, Function.update m (p + (i : Nat)) c) : Fueled ((Nat × Memory) ⊕ Memory))
      else return .inr m) (as.length, place m p as))
      (place m p (as ++ List.replicate (n - as.length) c)) := by
  have hstart : (as.length, place m p as) =
      (as.length + 0, place m p (as ++ List.replicate 0 c)) := by
    rw [List.replicate_zero, List.append_nil]
    rfl
  rw [hstart]
  refine Returns.loop_states (n := n - as.length)
    (fun k => (as.length + k, place m p (as ++ List.replicate k c))) (fun k hk => ?_) ?_
  · dsimp only
    rw [if_pos (by omega), List.replicate_succ', ← List.append_assoc, place_concat, List.length_append,
      List.length_replicate]
    exact returns_pure _
  · dsimp only
    rw [if_neg (by omega)]
    exact returns_pure _

/-- The two loops of `strncpy`, when the first one reads the bytes `bs`. -/
theorem returns_strncpy_of_rounds {m : Memory} {d s : Int} {n : Nat} {bs : List Byte} (hle : bs.length ≤ n)
    (hread : ∀ i (hi : i < bs.length), place m d (bs.take i) (s + i) = bs[i] ∧ bs[i] ≠ 0)
    (hend : bs.length = n ∨ place m d bs (s + bs.length) = 0) :
    Returns (strncpy m (some d) (some s) n)
      (some d, place m d (bs ++ List.replicate (n - bs.length) 0)) := by
  have hcopy : Returns (loop (fun ((i : Nat), (m : Memory)) =>
      if i < n ∧ m (s + i) ≠ 0 then
        (return .inl (i + 1, Function.update m (d + i) (m (s + i))) :
          Fueled ((Nat × Memory) ⊕ (Nat × Memory)))
      else return .inr (i, m)) (0, m)) (bs.length, place m d bs) := by
    have hstart : (0, m) = (0, place m d (bs.take 0)) := rfl
    rw [hstart]
    refine Returns.loop_states (n := bs.length) (fun i => (i, place m d (bs.take i))) (fun i hi => ?_) ?_
    · have hlen : (bs.take i).length = i := List.length_take_of_le (Nat.le_of_lt hi)
      obtain ⟨hbyte, hne⟩ := hread i hi
      dsimp only
      rw [hbyte, if_pos ⟨Nat.lt_of_lt_of_le hi hle, hne⟩, List.take_succ_eq_append_getElem hi,
        place_concat, hlen]
      exact returns_pure _
    · dsimp only
      rw [List.take_length, if_neg]
      · exact returns_pure _
      · rintro ⟨hlt, hne⟩
        exact hend.elim (Nat.ne_of_lt hlt) hne
  unfold strncpy
  dsimp only
  exact hcopy.bind ((returns_fill m d 0 bs n hle).bind (returns_pure _))

theorem returns_strncpy_apart (m : Memory) {d s : Int} {n : Nat}
    (h : d ≤ s ∨ s + (chars m s n).length < d ∨ s + n ≤ d) :
    Returns (strncpy m (some d) (some s) n)
      (some d, place m d (chars m s n ++ List.replicate (n - (chars m s n).length) 0)) := by
  obtain ⟨hat, hne, hend⟩ := chars_spec m s n
  generalize chars m s n = bs at hat hne hend h ⊢
  refine returns_strncpy_of_rounds (by omega) (fun i hi => ?_) (hend.imp_right fun ⟨hlt, hz⟩ => ?_)
  · have hlen : (bs.take i).length = i := List.length_take_of_le (Nat.le_of_lt hi)
    rw [place_of_outside (by rw [hlen]; omega) m, hat i hi]
    exact ⟨rfl, hne _ (List.getElem_mem hi)⟩
  · rw [place_of_outside (by omega) m, hz]

/-- The first `k` bytes at `s`, over and over. -/
def repeated (m : Memory) (s : Int) (k n : Nat) : List Byte :=
  (List.range n).map fun i => m (s + (i % k : Nat))

theorem returns_strncpy_over (m : Memory) {d s : Int} {n : Nat} (hlt : s < d)
    (hover : d ≤ s + (chars m s n).length) :
    (∀ b ∈ repeated m s (d - s).toNat n, b ≠ 0) ∧
      Returns (strncpy m (some d) (some s) n) (some d, place m d (repeated m s (d - s).toNat n)) := by
  obtain ⟨k, rfl⟩ : ∃ k : Nat, d = s + k := ⟨(d - s).toNat, by omega⟩
  obtain ⟨hat, hne, -⟩ := chars_spec m s n
  have hk : 0 < k := by omega
  have hbyte : ∀ i, m (s + (i % k : Nat)) ≠ 0 := by
    intro i
    have hik : i % k < (chars m s n).length := Nat.lt_of_lt_of_le (Nat.mod_lt i hk) (by omega)
    rw [hat _ hik]
    exact hne _ (List.getElem_mem hik)
  rw [show (s + k - s).toNat = k by omega]
  have hlen : (repeated m s k n).length = n := by rw [repeated, List.length_map, List.length_range]
  have hget : ∀ i (hi : i < (repeated m s k n).length), (repeated m s k n)[i] = m (s + (i % k : Nat)) := by
    intro i hi
    simp only [repeated, List.getElem_map, List.getElem_range]
  refine ⟨?_, ?_⟩
  · intro b hb
    obtain ⟨i, -, rfl⟩ := List.mem_map.mp hb
    exact hbyte i
  · have hcopy := returns_strncpy_of_rounds (m := m) (d := s + k) (s := s) (n := n)
      (Nat.le_of_eq hlen) (fun i hi => ?_) (.inl hlen)
    · rwa [hlen, Nat.sub_self, List.replicate_zero, List.append_nil] at hcopy
    · rw [hget i hi]
      refine ⟨?_, hbyte i⟩
      have htake : ((repeated m s k n).take i).length = i := List.length_take_of_le (Nat.le_of_lt hi)
      -- in the first round over the distance the bytes are the old ones, later those written `k` before
      by_cases hik : i < k
      · rw [place_of_outside (.inl (by omega)) m, Nat.mod_eq_of_lt hik]
      · obtain ⟨j, rfl⟩ := Nat.exists_eq_add_of_le (Nat.not_lt.mp hik)
        have hj := at_place m (s + k) ((repeated m s k n).take (k + j)) j (by omega)
        rw [List.getElem_take, hget j (by omega)] at hj
        rw [show s + ((k + j : Nat) : Int) = s + k + j by omega, hj, Nat.add_mod_left]

/-- `strncpy` writes `n` bytes and no others. They are the characters of the source with zeros behind them,
and so a string exactly when the source was shorter than `n`, unless the destination begins within these
characters or at their end: then the characters in front of it come over and over, and there is no end. -/
theorem strncpy_writes (m : Memory) (d s : Int) (n : Nat) :
    ∃ bs : List Byte, bs.length = n ∧ Returns (strncpy m (some d) (some s) n) (some d, place m d bs) ∧
      if s < d ∧ d ≤ s + (chars m s n).length ∧ d < s + n then
        bs = repeated m s (d - s).toNat n ∧ 0 ∉ bs
      else
        bs = chars m s n ++ List.replicate (n - (chars m s n).length) 0 ∧
          (0 ∈ bs ↔ (chars m s n).length < n) := by
  obtain ⟨-, hne, hend⟩ := chars_spec m s n
  by_cases hover : s < d ∧ d ≤ s + (chars m s n).length ∧ d < s + n
  · obtain ⟨hnone, hret⟩ := returns_strncpy_over m hover.1 hover.2.1
    refine ⟨_, ?_, hret, ?_⟩
    · rw [repeated, List.length_map, List.length_range]
    · rw [if_pos hover]
      exact ⟨rfl, fun h0 => hnone 0 h0 rfl⟩
  · refine ⟨_, ?_, returns_strncpy_apart m (by omega), ?_⟩
    · rw [List.length_append, List.length_replicate]
      omega
    · rw [if_neg hover, List.mem_append, List.mem_replicate]
      refine ⟨rfl, ?_, fun hlt => .inr ⟨by omega, rfl⟩⟩
      rintro (h0 | ⟨h0, -⟩)
      · exact absurd rfl (hne 0 h0)
      · omega

theorem returns_memset (m : Memory) (p c : Int) (n : Nat) :
    Returns (memset m (some p) c n) (some p, place m p (List.replicate n (BitVec.ofInt 8 c))) :=
  (returns_fill m p (BitVec.ofInt 8 c) [] n (Nat.zero_le n)).bind (returns_pure _)

end MyCpu.Klib
