import LsmKv.Lib.Bytes

namespace lsmkv.encoding

open List

/-- The `n` low bytes of a value, least significant first. -/
def put_fixed : Nat → Nat → Bytes
  | 0, _ => []
  | n + 1, v => UInt8.ofNat v :: put_fixed n (v / 256)

def put_fixed32 (v : Nat) : Bytes := put_fixed 4 v

def put_fixed64 (v : Nat) : Bytes := put_fixed 8 v

def decode_fixed : Bytes → Nat
  | [] => 0
  | b :: bs => b.toNat + 256 * decode_fixed bs

def decode_fixed32 (b : Bytes) : Nat := decode_fixed (b.take 4)

def decode_fixed64 (b : Bytes) : Nat := decode_fixed (b.take 8)

/-- The loop of `PutVarint32` and `PutVarint64`. Every round shifts the value
    right, so the value itself is enough fuel. -/
def put_varint : Nat → Nat → Bytes
  | 0, v => [UInt8.ofNat v]
  | fuel + 1, v =>
    if 0x80 ≤ v then UInt8.ofNat (v ||| 0x80) :: put_varint fuel (v >>> 7)
    else [UInt8.ofNat v]

def put_varint32 (v : Nat) : Bytes := put_varint v v

def put_varint64 (v : Nat) : Bytes := put_varint v v

/-- The length is cast to 32 bits, as `PutLengthPrefixedSlice` casts it. -/
def put_length_prefixed_slice (value : Bytes) : Bytes :=
  put_varint32 (value.length % 2 ^ 32) ++ value

def get_fixed32 (input : Bytes) : Option (Nat × Bytes) :=
  if input.length < 4 then none else some (decode_fixed32 input, input.drop 4)

def get_fixed64 (input : Bytes) : Option (Nat × Bytes) :=
  if input.length < 8 then none else some (decode_fixed64 input, input.drop 8)

/-- The loop of `GetVarint32Ptr` and `GetVarint64Ptr` over words of `width` bits:
    `rounds` more bytes may follow. -/
def get_varint_loop (width : Nat) : Nat → Nat → Nat → Bytes → Option (Nat × Bytes)
  | rounds + 1, shift, result, byte :: input =>
    if byte.toNat &&& 0x80 ≠ 0 then
      get_varint_loop width rounds (shift + 7) (result ||| ((byte.toNat &&& 0x7F) <<< shift) % 2 ^ width) input
    else some (result ||| (byte.toNat <<< shift) % 2 ^ width, input)
  | _, _, _, _ => none

def get_varint32 (input : Bytes) : Option (Nat × Bytes) := get_varint_loop 32 5 0 0 input

def get_varint64 (input : Bytes) : Option (Nat × Bytes) := get_varint_loop 64 10 0 0 input

def get_length_prefixed_slice (input : Bytes) : Option (Bytes × Bytes) :=
  match get_varint32 input with
  | none => none
  | some (len, input) => if input.length < len then none else some (input.take len, input.drop len)

@[simp] theorem put_fixed_length (n v : Nat) : (put_fixed n v).length = n := by
  induction n generalizing v with
  | zero => rfl
  | succ n ih => simp [put_fixed, ih]

/-- Decoding keeps the bytes that were written and drops the higher ones. -/
theorem decode_put_fixed (n v : Nat) : decode_fixed (put_fixed n v) = v % 256 ^ n := by
  induction n generalizing v with
  | zero => simp [put_fixed, decode_fixed, Nat.mod_one]
  | succ n ih =>
    simp only [put_fixed, decode_fixed, ih, UInt8.toNat_ofNat']
    have hsplit : v % 256 ^ (n + 1) = v % 256 + 256 * (v / 256 % 256 ^ n) := by
      rw [Nat.pow_succ', Nat.mod_mul]
    rw [hsplit]

@[simp] theorem put_fixed64_length (v : Nat) : (put_fixed64 v).length = 8 := put_fixed_length 8 v

@[simp] theorem put_fixed32_length (v : Nat) : (put_fixed32 v).length = 4 := put_fixed_length 4 v

theorem decode_put_fixed32 {v : Nat} (hv : v < 2 ^ 32) (rest : Bytes) : decode_fixed32 (put_fixed32 v ++ rest) = v := by
  rw [decode_fixed32, take_append_of_le_length (put_fixed32_length v).ge,
    take_of_length_le (put_fixed32_length v).le, put_fixed32, decode_put_fixed]
  exact Nat.mod_eq_of_lt hv

theorem get_put_fixed32 {v : Nat} (hv : v < 2 ^ 32) (rest : Bytes) :
    get_fixed32 (put_fixed32 v ++ rest) = some (v, rest) := by
  rw [get_fixed32, if_neg (by simp), decode_put_fixed32 hv, drop_left' (put_fixed32_length v)]

theorem decode_put_fixed64 {v : Nat} (hv : v < 2 ^ 64) : decode_fixed64 (put_fixed64 v) = v := by
  have htake : (put_fixed64 v).take 8 = put_fixed64 v := take_of_length_le (by simp)
  rw [decode_fixed64, htake, put_fixed64, decode_put_fixed]
  exact Nat.mod_eq_of_lt hv

theorem get_put_fixed64 {v : Nat} (hv : v < 2 ^ 64) (rest : Bytes) :
    get_fixed64 (put_fixed64 v ++ rest) = some (v, rest) := by
  have hlength : (put_fixed64 v).length = 8 := put_fixed64_length v
  have hdecode : decode_fixed64 (put_fixed64 v ++ rest) = v := by
    rw [decode_fixed64, take_append_of_le_length hlength.ge]
    exact decode_put_fixed64 hv
  rw [get_fixed64, if_neg (by simp), hdecode, drop_left' hlength]

/-- A value is its low seven bits and the rest. -/
theorem shiftLeft_split (v shift : Nat) : (v % 128) <<< shift ||| (v >>> 7) <<< (shift + 7) = v <<< shift := by
  refine Nat.eq_of_testBit_eq fun i => ?_
  have hmod : ∀ j, (v % 128).testBit j = (decide (j < 7) && v.testBit j) := fun j => Nat.testBit_mod_two_pow v 7 j
  simp only [Nat.testBit_or, Nat.testBit_shiftLeft, Nat.testBit_shiftRight, hmod]
  by_cases hlow : shift ≤ i
  · by_cases hhigh : shift + 7 ≤ i
    · have heq : 7 + (i - (shift + 7)) = i - shift := by omega
      have hnot : ¬ i - shift < 7 := by omega
      simp [hlow, hhigh, heq, hnot]
    · have hlt : i - shift < 7 := by omega
      simp [hlow, hhigh, hlt]
  · have hhigh : ¬ shift + 7 ≤ i := by omega
    simp [hlow, hhigh]

/-- The bytes of a varint that is not the last: seven bits and a mark. -/
theorem varint_byte_more (v : Nat) :
    (UInt8.ofNat (v ||| 0x80)).toNat &&& 0x80 ≠ 0 ∧ (UInt8.ofNat (v ||| 0x80)).toNat &&& 0x7F = v % 128 := by
  have hbits : ∀ j, ((v ||| 0x80) % 2 ^ 8).testBit j = (decide (j < 8) && (v.testBit j || Nat.testBit 0x80 j)) := by
    intro j
    rw [Nat.testBit_mod_two_pow, Nat.testBit_or]
  rw [UInt8.toNat_ofNat']
  refine ⟨fun hzero => ?_, Nat.eq_of_testBit_eq fun j => ?_⟩
  · have hbit := congrArg (fun n => Nat.testBit n 7) hzero
    simp only [Nat.testBit_and, hbits, Nat.zero_testBit] at hbit
    revert hbit
    simp [show Nat.testBit 0x80 7 = true from rfl]
  · have hmask : Nat.testBit 0x7F j = decide (j < 7) := Nat.testBit_two_pow_sub_one 7 j
    have hmod : (v % 128).testBit j = (decide (j < 7) && v.testBit j) := Nat.testBit_mod_two_pow v 7 j
    have hmark : Nat.testBit 0x80 j = decide (7 = j) := Nat.testBit_two_pow (n := 7) (m := j)
    rw [Nat.testBit_and, hbits, hmask, hmod, hmark]
    by_cases hj : j < 7
    · simp [hj, show j < 8 by omega, show ¬ 7 = j by omega]
    · simp [hj]

theorem shiftRight_seven_lt {v n : Nat} (hv : v < 128 ^ (n + 1)) : v >>> 7 < 128 ^ n := by
  rw [show v >>> 7 = v / 128 from Nat.shiftRight_eq_div_pow v 7]
  exact Nat.div_lt_of_lt_mul (by rw [← pow_succ']; exact hv)

theorem get_put_varint_last {width rounds shift result fuel v : Nat} (hv : v < 0x80) (rest : Bytes) :
    get_varint_loop width (rounds + 1) shift result (put_varint fuel v ++ rest) =
      some (result ||| (v <<< shift) % 2 ^ width, rest) := by
  have hbyte : put_varint fuel v = [UInt8.ofNat v] := by
    cases fuel with
    | zero => rfl
    | succ fuel => rw [put_varint, if_neg (by omega)]
  have hvalue : (UInt8.ofNat v).toNat = v := by
    rw [UInt8.toNat_ofNat']
    omega
  have hunmarked : ¬ (v &&& 0x80 ≠ 0) := by
    rw [not_not]
    refine Nat.eq_of_testBit_eq fun j => ?_
    have hmark : Nat.testBit 0x80 j = decide (7 = j) := Nat.testBit_two_pow (n := 7) (m := j)
    rw [Nat.testBit_and, hmark, Nat.zero_testBit]
    by_cases hj : 7 = j
    · subst hj
      simp [Nat.testBit_lt_two_pow (show v < 2 ^ 7 from hv)]
    · simp [hj]
  rw [hbyte, singleton_append, get_varint_loop, hvalue, if_neg hunmarked]

theorem get_put_varint_loop {width rounds shift result fuel v : Nat} (hfuel : v ≤ fuel) (hv : v < 128 ^ (rounds + 1))
    (rest : Bytes) :
    get_varint_loop width (rounds + 1) shift result (put_varint fuel v ++ rest) =
      some (result ||| (v <<< shift) % 2 ^ width, rest) := by
  induction rounds generalizing shift result fuel v with
  | zero => exact get_put_varint_last hv rest
  | succ rounds ih =>
    by_cases hlast : v < 0x80
    · exact get_put_varint_last hlast rest
    · obtain ⟨fuel, rfl⟩ : ∃ n, fuel = n + 1 := Nat.exists_eq_add_one.mpr (by omega)
      obtain ⟨hmarked, hbits⟩ := varint_byte_more v
      have hshift : v >>> 7 = v / 128 := Nat.shiftRight_eq_div_pow v 7
      have hrest : ∀ result', get_varint_loop width (rounds + 1) (shift + 7) result' (put_varint fuel (v >>> 7) ++ rest) =
          some (result' ||| ((v >>> 7) <<< (shift + 7)) % 2 ^ width, rest) := fun _ => ih (by omega) (shiftRight_seven_lt hv)
      rw [put_varint, if_pos (not_lt.mp hlast), cons_append, get_varint_loop, if_pos hmarked, hbits, hrest,
        Nat.or_assoc, ← Nat.or_mod_two_pow, shiftLeft_split]

theorem get_put_varint32 {v : Nat} (hv : v < 2 ^ 32) (rest : Bytes) :
    get_varint32 (put_varint32 v ++ rest) = some (v, rest) := by
  rw [get_varint32, put_varint32, get_put_varint_loop le_rfl (hv.trans_le (by norm_num)), Nat.zero_or,
    Nat.shiftLeft_zero, Nat.mod_eq_of_lt hv]

theorem get_put_varint64 {v : Nat} (hv : v < 2 ^ 64) (rest : Bytes) :
    get_varint64 (put_varint64 v ++ rest) = some (v, rest) := by
  rw [get_varint64, put_varint64, get_put_varint_loop le_rfl (hv.trans_le (by norm_num)), Nat.zero_or,
    Nat.shiftLeft_zero, Nat.mod_eq_of_lt hv]

/-- An encoding that is cut off is missing its last byte, and all bytes before it are marked. -/
theorem get_put_varint_take {width rounds shift result fuel v n : Nat} (hn : n < (put_varint fuel v).length) :
    get_varint_loop width rounds shift result ((put_varint fuel v).take n) = none := by
  have hnil : ∀ rounds shift result, get_varint_loop width rounds shift result [] = none := by
    intro rounds
    cases rounds <;> exact fun _ _ => rfl
  induction fuel generalizing rounds shift result v n with
  | zero =>
    obtain rfl : n = 0 := Nat.lt_one_iff.mp hn
    exact hnil ..
  | succ fuel ih =>
    rw [put_varint] at hn ⊢
    split at hn
    · next hmore =>
      rw [if_pos hmore]
      cases n with
      | zero => exact hnil ..
      | succ n =>
        cases rounds with
        | zero => rfl
        | succ rounds =>
          rw [take_succ_cons, get_varint_loop, if_pos (varint_byte_more v).1]
          exact ih (Nat.lt_of_succ_lt_succ hn)
    · next hlast =>
      obtain rfl : n = 0 := Nat.lt_one_iff.mp hn
      exact hnil ..

/-- Every byte takes seven bits. -/
theorem put_varint_length_le {rounds fuel v : Nat} (hv : v < 128 ^ (rounds + 1)) :
    (put_varint fuel v).length ≤ rounds + 1 := by
  induction fuel generalizing rounds v with
  | zero => exact Nat.succ_le_succ (Nat.zero_le _)
  | succ fuel ih =>
    rw [put_varint]
    split
    · next hmore =>
      cases rounds with
      | zero => omega
      | succ rounds => exact Nat.succ_le_succ (ih (shiftRight_seven_lt hv))
    · exact Nat.succ_le_succ (Nat.zero_le _)

/-- `GetVarint32` and `GetVarint64` on the slice that they are given: the value if they return
    true, and the slice afterwards. -/
def on_slice (get : Bytes → Option (Nat × Bytes)) (input : Bytes) : Option Nat × Bytes :=
  match get input with
  | none => (none, input)
  | some (value, rest) => (some value, rest)

/-- A varint is read back, and what follows it is left; an encoding that is cut off is refused and
    left as it was. A 32-bit value takes five bytes at most, and a 64-bit value ten. -/
theorem varint_round_trip :
    (∀ v : UInt32, (∀ rest, on_slice get_varint32 (put_varint32 v.toNat ++ rest) = (some v.toNat, rest)) ∧
      (∀ input, input <+: put_varint32 v.toNat → input ≠ put_varint32 v.toNat →
        on_slice get_varint32 input = (none, input)) ∧ (put_varint32 v.toNat).length ≤ 5) ∧
    ∀ v : UInt64, (∀ rest, on_slice get_varint64 (put_varint64 v.toNat ++ rest) = (some v.toNat, rest)) ∧
      (∀ input, input <+: put_varint64 v.toNat → input ≠ put_varint64 v.toNat →
        on_slice get_varint64 input = (none, input)) ∧ (put_varint64 v.toNat).length ≤ 10 := by
  have hcut : ∀ {width rounds v : Nat} {input : Bytes}, input <+: put_varint v v → input ≠ put_varint v v →
      on_slice (get_varint_loop width rounds 0 0) input = (none, input) := by
    intro width rounds v input hinput hne
    have hlength : input.length < (put_varint v v).length :=
      lt_of_le_of_ne hinput.length_le fun heq => hne (hinput.eq_of_length heq)
    have hnone := @get_put_varint_take width rounds 0 0 v v input.length hlength
    rw [← prefix_iff_eq_take.mp hinput] at hnone
    rw [on_slice, hnone]
  refine ⟨fun v => ⟨fun rest => ?_, fun input => hcut, ?_⟩, fun v => ⟨fun rest => ?_, fun input => hcut, ?_⟩⟩
  · rw [on_slice, get_put_varint32 v.toNat_lt]
  · exact put_varint_length_le (v.toNat_lt.trans_le (by norm_num))
  · rw [on_slice, get_put_varint64 v.toNat_lt]
  · exact put_varint_length_le (v.toNat_lt.trans_le (by norm_num))

/-- A slice shorter than 2 ^ 32 bytes comes back whole. -/
theorem get_put_slice {value : Bytes} (hvalue : value.length < 2 ^ 32) (rest : Bytes) :
    get_length_prefixed_slice (put_length_prefixed_slice value ++ rest) = some (value, rest) := by
  rw [get_length_prefixed_slice, put_length_prefixed_slice, Nat.mod_eq_of_lt hvalue, append_assoc,
    get_put_varint32 hvalue]
  simp

end lsmkv.encoding
