import LsmKv.Lib.Bytes

namespace decimal

open List Option

/-- The decimal digits of a number, without leading zeros. -/
def encode (n : Nat) : Bytes := (Nat.toDigits 10 n).map fun c => UInt8.ofNat c.toNat

def digit (b : UInt8) : Option Nat := if 48 ≤ b.toNat ∧ b.toNat ≤ 57 then some (b.toNat - 48) else none

/-- Digits read on from a number; `none` at a byte that is not a digit. -/
def decodeFrom (n : Nat) : Bytes → Option Nat
  | [] => some n
  | b :: bytes => (digit b).bind fun d => decodeFrom (10 * n + d) bytes

def decode (bytes : Bytes) : Option Nat := if bytes = [] then none else decodeFrom 0 bytes

/-- A minus sign stands before the digits of a negative number. -/
def encodeInt (n : Int) : Bytes := if n < 0 then 45 :: encode n.natAbs else encode n.natAbs

def decodeInt : Bytes → Option Int
  | [] => none
  | b :: bytes =>
    if b = 45 then (decode bytes).map fun n : Nat => -(n : Int) else (decode (b :: bytes)).map fun n : Nat => (n : Int)

theorem toNat_ofNat_digit {c : Char} (hdigit : c.isDigit = true) : (UInt8.ofNat c.toNat).toNat = c.toNat ∧
    48 ≤ c.toNat ∧ c.toNat ≤ 57 := by
  have hbounds : 48 ≤ c.toNat ∧ c.toNat ≤ 57 := by
    simp only [Char.isDigit, Bool.and_eq_true, decide_eq_true_eq] at hdigit
    exact ⟨hdigit.1, hdigit.2⟩
  refine ⟨?_, hbounds⟩
  rw [UInt8.toNat_ofNat']
  omega

theorem decodeFrom_digits {digits : List Char} (hdigits : ∀ c ∈ digits, c.isDigit = true) (n : Nat) :
    decodeFrom n (digits.map fun c => UInt8.ofNat c.toNat) = some (Nat.ofDigitChars 10 digits n) := by
  induction digits generalizing n with
  | nil => rfl
  | cons c digits ih =>
    obtain ⟨hbyte, hlow, hhigh⟩ := toNat_ofNat_digit (hdigits c (mem_cons_self ..))
    have hdigit : digit (UInt8.ofNat c.toNat) = some (c.toNat - 48) := by
      rw [digit, hbyte]
      exact if_pos ⟨hlow, hhigh⟩
    rw [map_cons, decodeFrom, hdigit]
    exact ih (fun c' hc' => hdigits c' (mem_cons_of_mem _ hc')) _

variable {n : Nat} {b : UInt8} {bytes : Bytes}

theorem isDigit_of_mem {c : Char} (hc : c ∈ Nat.toDigits 10 n) : c.isDigit = true :=
  Nat.isDigit_of_mem_toDigits (by omega) (by omega) hc

/-- The written digits are digits. -/
theorem digit_of_mem_encode (hb : b ∈ encode n) : 48 ≤ b.toNat ∧ b.toNat ≤ 57 := by
  obtain ⟨c, hc, rfl⟩ := List.mem_map.mp hb
  obtain ⟨hbyte, hbounds⟩ := toNat_ofNat_digit (isDigit_of_mem hc)
  rw [hbyte]
  exact hbounds

theorem encode_ne_nil (n : Nat) : encode n ≠ [] := by
  intro hnil
  have hdigits := Nat.length_toDigits_pos (b := 10) (n := n)
  rw [map_eq_nil_iff.mp hnil] at hdigits
  exact absurd hdigits (by decide)

theorem decode_encode (n : Nat) : decode (encode n) = some n := by
  rw [decode, if_neg (encode_ne_nil n), encode, decodeFrom_digits fun c hc => isDigit_of_mem hc,
    Nat.ofDigitChars_toDigits (by omega) (by omega)]

theorem digit_isSome_iff : (digit b).isSome ↔ 48 ≤ b.toNat ∧ b.toNat ≤ 57 := by
  unfold digit
  split <;> simp [*]

/-- A text is a number if it has digits and nothing else. -/
theorem decodeFrom_isSome_iff (n : Nat) : (decodeFrom n bytes).isSome ↔ ∀ b ∈ bytes, (digit b).isSome := by
  induction bytes generalizing n with
  | nil => simp [decodeFrom]
  | cons b bytes ih =>
    rw [decodeFrom, forall_mem_cons]
    cases hdigit : digit b with
    | none => simp
    | some d => simpa using ih (10 * n + d)

theorem decode_isSome_iff : (decode bytes).isSome ↔ bytes ≠ [] ∧ ∀ b ∈ bytes, (digit b).isSome := by
  unfold decode
  split
  · next hnil => simp [hnil]
  · next hne => rw [decodeFrom_isSome_iff, and_iff_right hne]

theorem decodeInt_isSome_iff : (decodeInt bytes).isSome ↔
    ∃ digits, digits ≠ [] ∧ (∀ b ∈ digits, (digit b).isSome) ∧ (bytes = digits ∨ bytes = 45 :: digits) := by
  cases bytes with
  | nil => simp [decodeInt]
  | cons b bytes =>
    rw [decodeInt]
    split
    · next hsign =>
      subst hsign
      rw [isSome_map, decode_isSome_iff]
      constructor
      · rintro ⟨hne, hdigits⟩
        exact ⟨bytes, hne, hdigits, .inr rfl⟩
      · rintro ⟨digits, hne, hdigits, rfl | heq⟩
        · exact absurd (hdigits 45 (mem_cons_self ..)) (by decide)
        · obtain rfl := (List.cons.inj heq).2
          exact ⟨hne, hdigits⟩
    · next hsign =>
      rw [isSome_map, decode_isSome_iff]
      constructor
      · rintro ⟨hne, hdigits⟩
        exact ⟨b :: bytes, hne, hdigits, .inl rfl⟩
      · rintro ⟨digits, hne, hdigits, rfl | heq⟩
        · exact ⟨hne, hdigits⟩
        · exact absurd (List.cons.inj heq).1 hsign

theorem not_mem_encode (hb : b.toNat < 48 ∨ 57 < b.toNat) : b ∉ encode n := by
  intro hmem
  have hbounds := digit_of_mem_encode hmem
  omega

theorem not_mem_encodeInt {n : Int} (hsign : b ≠ 45) (hb : b.toNat < 48 ∨ 57 < b.toNat) : b ∉ encodeInt n := by
  unfold encodeInt
  split
  · exact not_mem_cons_of_ne_of_not_mem hsign (not_mem_encode hb)
  · exact not_mem_encode hb

theorem decodeInt_encodeInt (n : Int) : decodeInt (encodeInt n) = some n := by
  unfold encodeInt
  split
  · next hneg =>
    rw [decodeInt, if_pos rfl, decode_encode, map_some]
    exact congrArg some (by omega)
  · next hneg =>
    cases hbytes : encode n.natAbs with
    | nil => exact absurd hbytes (encode_ne_nil _)
    | cons b bytes =>
      have hdigit := digit_of_mem_encode (hbytes ▸ mem_cons_self .. : b ∈ encode n.natAbs)
      have hsign : b ≠ 45 := by
        rintro rfl
        exact absurd hdigit.1 (by decide)
      rw [decodeInt, if_neg hsign, ← hbytes, decode_encode, map_some]
      exact congrArg some (by omega)

end decimal
