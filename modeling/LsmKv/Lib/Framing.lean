import Mathlib.Data.List.Infix
import Mathlib.Order.Lattice

namespace framing

open List

variable {α R S ε : Type}

/-- Reads records off a stream and applies them one after the other. `next` gives a record
    and the rest of the stream, or nothing at its end. -/
def replay (next : List α → Except ε (Option (R × List α))) (apply : S → R → S) :
    Nat → List α → S → Except ε S
  | 0, _, s => .ok s
  | fuel + 1, input, s =>
    match next input with
    | .error e => .error e
    | .ok none => .ok s
    | .ok (some (r, rest)) => replay next apply fuel rest (apply s r)

section Replay

variable {next : List α → Except ε (Option (R × List α))} {apply : S → R → S} {enc : R → List α}

variable {records : List R}

/-- Whole records are applied in their order; what follows them decides the outcome. -/
theorem replay_flatMap (hnext : ∀ r ∈ records, ∀ rest, next (enc r ++ rest) = .ok (some (r, rest)))
    (fuel : Nat) (tail : List α) (s : S) :
    replay next apply (records.length + fuel) (records.flatMap enc ++ tail) s =
      replay next apply fuel tail (records.foldl apply s) := by
  induction records generalizing s with
  | nil => simp
  | cons r records ih =>
    obtain ⟨hr, hrecords⟩ := forall_mem_cons.mp hnext
    rw [length_cons, Nat.add_right_comm, flatMap_cons, append_assoc, replay, hr]
    exact ih hrecords (apply s r)

theorem length_le_flatMap (hne : ∀ r ∈ records, enc r ≠ []) : records.length ≤ (records.flatMap enc).length := by
  induction records with
  | nil => exact Nat.le_refl 0
  | cons r records ih =>
    obtain ⟨hr, hrecords⟩ := forall_mem_cons.mp hne
    have hpos := length_pos_of_ne_nil hr
    have := ih hrecords
    rw [flatMap_cons, length_append, length_cons]
    omega

section

variable (hne : ∀ r ∈ records, enc r ≠ [])
  (hnext : ∀ r ∈ records, ∀ rest, next (enc r ++ rest) = .ok (some (r, rest)))

include hne hnext

/-- The length of the stream is enough fuel: all records are applied, and `tail` is read next. -/
theorem replay_stream (tail : List α) (s : S) :
    ∃ fuel, replay next apply ((records.flatMap enc ++ tail).length + 1) (records.flatMap enc ++ tail) s =
      replay next apply (fuel + 1) tail (records.foldl apply s) := by
  have hlength := length_le_flatMap hne
  have hfuel : (records.flatMap enc ++ tail).length + 1 =
      records.length + ((records.flatMap enc).length - records.length + tail.length + 1) := by
    rw [length_append]
    omega
  exact ⟨(records.flatMap enc).length - records.length + tail.length, by rw [hfuel, replay_flatMap hnext]⟩

/-- A stream of whole records is applied to its end. -/
theorem replay_whole (hend : next [] = .ok none) (s : S) :
    replay next apply ((records.flatMap enc).length + 1) (records.flatMap enc) s = .ok (records.foldl apply s) := by
  obtain ⟨fuel, hreplay⟩ := @replay_stream α R S ε next apply enc records hne hnext [] s
  rw [append_nil] at hreplay
  rw [hreplay, replay, hend]

end

end Replay

/-- Reads records off a stream up to the first error, which comes with those before it. -/
def read_all (next : List α → Except ε (R × List α)) : Nat → List α → List R × Option ε
  | 0, _ => ([], none)
  | fuel + 1, input =>
    match next input with
    | .error e => ([], some e)
    | .ok (r, rest) => (r :: (read_all next fuel rest).1, (read_all next fuel rest).2)

/-- Whole records are read in their order; what follows them decides the error. The length
    of the stream is enough fuel. -/
theorem read_all_stream {next : List α → Except ε (R × List α)} {enc : R → List α} {records : List R}
    (hne : ∀ r ∈ records, enc r ≠ []) (hnext : ∀ r ∈ records, ∀ rest, next (enc r ++ rest) = .ok (r, rest))
    {tail : List α} {e : ε} (htail : next tail = .error e) {fuel : Nat}
    (hfuel : (records.flatMap enc ++ tail).length < fuel) :
    read_all next fuel (records.flatMap enc ++ tail) = (records, some e) := by
  induction records generalizing fuel with
  | nil =>
    obtain ⟨fuel, rfl⟩ := Nat.exists_eq_succ_of_ne_zero (Nat.ne_zero_of_lt hfuel)
    rw [flatMap_nil, nil_append, read_all, htail]
  | cons r records ih =>
    obtain ⟨hr, hrecords⟩ := forall_mem_cons.mp hnext
    obtain ⟨hrne, hne⟩ := forall_mem_cons.mp hne
    obtain ⟨fuel, rfl⟩ := Nat.exists_eq_succ_of_ne_zero (Nat.ne_zero_of_lt hfuel)
    have hpos := length_pos_of_ne_nil hrne
    rw [flatMap_cons, append_assoc] at hfuel ⊢
    rw [length_append] at hfuel
    rw [read_all, hr]
    dsimp only
    rw [ih hne hrecords (by omega)]

section Cut

variable (enc : R → List α)

/-- The records that are whole in the first `n` places of a stream. -/
def whole : Nat → List R → List R
  | _, [] => []
  | n, r :: records => if (enc r).length ≤ n then r :: whole (n - (enc r).length) records else []

/-- What follows the whole records: a broken one, or nothing. -/
def broken : Nat → List R → List α
  | _, [] => []
  | n, r :: records => if (enc r).length ≤ n then broken (n - (enc r).length) records else (enc r).take n

theorem take_flatMap (n : Nat) (records : List R) :
    (records.flatMap enc).take n = (whole enc n records).flatMap enc ++ broken enc n records := by
  induction records generalizing n with
  | nil => simp [whole, broken]
  | cons r records ih =>
    rw [flatMap_cons, take_append, whole, broken]
    split
    · next hle => rw [ih, take_of_length_le hle, flatMap_cons, append_assoc]
    · next hlt => simp [Nat.sub_eq_zero_of_le (not_le.mp hlt).le]

theorem whole_eq_take (n : Nat) (records : List R) : whole enc n records = records.take (whole enc n records).length := by
  induction records generalizing n with
  | nil => rfl
  | cons r records ih =>
    rw [whole]
    split
    · rw [length_cons, take_succ_cons, ← ih]
    · rfl

variable {n : Nat} {records : List R}

theorem mem_of_mem_whole {r : R} (hr : r ∈ whole enc n records) : r ∈ records := by
  rw [whole_eq_take] at hr
  exact mem_of_mem_take hr

/-- The whole records are those that end at or before the cut. -/
theorem le_length_whole_iff {i : Nat} (hi : i ≤ records.length) :
    i ≤ (whole enc n records).length ↔ ((records.take i).flatMap enc).length ≤ n := by
  induction records generalizing n i with
  | nil => simp [Nat.le_zero.mp hi]
  | cons r records ih =>
    cases i with
    | zero => simp
    | succ i =>
      rw [whole, take_succ_cons, flatMap_cons, length_append]
      split
      · next hle =>
        rw [length_cons, Nat.succ_le_succ_iff, ih (Nat.le_of_succ_le_succ hi)]
        omega
      · next hlt =>
        rw [length_nil]
        omega

/-- A broken record is a proper part of the record that follows the whole ones. -/
theorem broken_cases (n : Nat) (records : List R) :
    broken enc n records = [] ∨ ∃ r, records[(whole enc n records).length]? = some r ∧
      ∃ m < (enc r).length, broken enc n records = (enc r).take m := by
  induction records generalizing n with
  | nil => exact .inl rfl
  | cons r records ih =>
    rw [whole, broken]
    split
    · simpa using ih (n - (enc r).length)
    · next hlt => exact .inr ⟨r, rfl, n, not_le.mp hlt, rfl⟩

/-- Nothing is broken exactly when the cut falls between two records. -/
theorem broken_eq_nil_iff :
    broken enc n records = [] ↔ ∃ i, (records.flatMap enc).take n = (records.take i).flatMap enc := by
  rw [take_flatMap]
  constructor
  · intro hnil
    exact ⟨(whole enc n records).length, by rw [hnil, append_nil, ← whole_eq_take]⟩
  · rintro ⟨i, htake⟩
    rcases broken_cases enc n records with hnil | ⟨r, hr, m, hm, hbroken⟩
    · exact hnil
    have hlength := congrArg List.length htake
    rw [whole_eq_take, length_append] at hlength
    set j := (whole enc n records).length
    rcases Nat.lt_or_ge j i with hji | hij
    · -- the cut would have the broken record whole
      have hsplit : (records.take (j + 1)).flatMap enc = (records.take j).flatMap enc ++ enc r := by
        simp [take_add_one, hr]
      have hle := ((take_prefix_take_left (l := records) hji).flatMap enc).length_le
      rw [hsplit, length_append] at hle
      rw [hbroken, length_take] at hlength
      omega
    · have hle := ((take_prefix_take_left (l := records) hij).flatMap enc).length_le
      exact length_eq_zero_iff.mp (by omega)

end Cut

end framing
