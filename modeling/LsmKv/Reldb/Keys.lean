import LsmKv.Encoding
import LsmKv.Reldb.Mvcc

namespace reldb

open lsmkv (Status)
open lsmkv.encoding List

namespace Row

def type_byte : ColumnType → UInt8
  | .kNull => 0
  | .kInt64 => 1
  | .kString => 2
  | .kBool => 3

def encode_value (v : Value) : Bytes :=
  type_byte v.type ::
    match v with
    | .null => []
    | .int64 n => put_fixed64 n.toUInt64.toNat
    | .string s => put_length_prefixed_slice s
    | .bool b => [if b then 1 else 0]

def consume_value : Bytes → Option (Value × Bytes)
  | [] => none
  | type :: input =>
    if type = 0 then some (.null, input)
    else if type = 1 then
      (get_fixed64 input).map fun (bits, input) => (.int64 (UInt64.ofNat bits).toInt64, input)
    else if type = 2 then (get_length_prefixed_slice input).map fun (s, input) => (.string s, input)
    else if type = 3 then
      match input with
      | [] => none
      | b :: input => some (.bool (b ≠ 0), input)
    else none

def decode_value (bytes : Bytes) : Except Status Value :=
  match consume_value bytes with
  | none => .error (.Corruption "bad value encoding")
  | some (v, input) => if input ≠ [] then .error (.Corruption "value: trailing bytes") else .ok v

end Row

/-- A key of the store. A character stands for a byte. -/
abbrev Key := List Char

def hex_digit (n : Nat) : Char := "0123456789abcdef".toList.getD n '0'

def to_hex (bytes : Bytes) : Key := bytes.flatMap fun b => [hex_digit (b.toNat >>> 4), hex_digit (b.toNat &&& 0xf)]

def nibble (c : Char) : Option Nat :=
  if '0' ≤ c ∧ c ≤ '9' then some (c.toNat - '0'.toNat)
  else if 'a' ≤ c ∧ c ≤ 'f' then some (c.toNat - 'a'.toNat + 10)
  else if 'A' ≤ c ∧ c ≤ 'F' then some (c.toNat - 'A'.toNat + 10)
  else none

def from_hex : Key → Option Bytes
  | [] => some []
  | [_] => none
  | c :: c' :: hex => do
    let hi ← nibble c
    let lo ← nibble c'
    let bytes ← from_hex hex
    return UInt8.ofNat (hi <<< 4 ||| lo) :: bytes

def encode_pk_for_key (pk : Value) : Key := to_hex (Row.encode_value pk)

def decode_pk_from_key (hex : Key) : Except Status Value :=
  match from_hex hex with
  | none => .error (.Corruption "bad pk hex")
  | some raw => Row.decode_value raw

def fixed64_be (v : Nat) : Key := (put_fixed64 v).reverse.map fun b => Char.ofNat b.toNat

/-- What the keys of the row heads of a table start with. -/
def row_head_stem (table : String) : Key := "d/".toList ++ table.toList ++ "/".toList

def row_head_key (key : RowKey) : Key := row_head_stem key.1 ++ encode_pk_for_key key.2

/-- What the keys of the versions of a table start with. -/
def version_stem (table : String) : Key := "v/".toList ++ table.toList ++ "/".toList

def version_key (key : RowKey) (version_id : Nat) : Key :=
  version_stem key.1 ++ encode_pk_for_key key.2 ++ "/".toList ++ fixed64_be version_id

section Hex

theorem nibble_hex_digit {n : Nat} (h : n < 16) : nibble (hex_digit n) = some n := by
  revert n
  decide

theorem mem_to_hex {bytes : Bytes} {c : Char} (hc : c ∈ to_hex bytes) : ∃ n < 16, hex_digit n = c := by
  obtain ⟨b, -, hc⟩ := mem_flatMap.mp hc
  rcases mem_cons.mp hc with rfl | hc
  · refine ⟨_, ?_, rfl⟩
    have hbound := b.toNat_lt
    rw [Nat.shiftRight_eq_div_pow]
    omega
  · refine ⟨_, ?_, (mem_singleton.mp hc).symm⟩
    rw [show (0xf : Nat) = 2 ^ 4 - 1 from rfl, Nat.and_two_pow_sub_one_eq_mod]
    omega

theorem slash_not_mem_to_hex (bytes : Bytes) : '/' ∉ to_hex bytes := by
  have hdigit : ∀ n < 16, hex_digit n ≠ '/' := by decide
  intro hmem
  obtain ⟨n, hn, hslash⟩ := mem_to_hex hmem
  exact hdigit n hn hslash

theorem length_to_hex (bytes : Bytes) : (to_hex bytes).length = 2 * bytes.length := by
  simp [to_hex, Nat.mul_comm]

theorem from_hex_to_hex (bytes : Bytes) : from_hex (to_hex bytes) = some bytes := by
  induction bytes with
  | nil => rfl
  | cons b bytes ih =>
    have hhigh : b.toNat >>> 4 = b.toNat / 16 := Nat.shiftRight_eq_div_pow b.toNat 4
    have hlow : b.toNat &&& 0xf = b.toNat % 16 := Nat.and_two_pow_sub_one_eq_mod b.toNat 4
    have hbound := b.toNat_lt
    have hbyte : (b.toNat >>> 4) <<< 4 ||| (b.toNat &&& 0xf) = b.toNat := by
      rw [hlow, hhigh, ← Nat.shiftLeft_add_eq_or_of_lt (by omega), Nat.shiftLeft_eq]
      omega
    show from_hex (hex_digit _ :: hex_digit _ :: to_hex bytes) = _
    rw [from_hex, nibble_hex_digit (by omega), nibble_hex_digit (by omega), ih]
    show some (UInt8.ofNat _ :: bytes) = _
    rw [hbyte, UInt8.ofNat_toNat]

/-- A text with a slash is not hexadecimal. -/
theorem from_hex_of_slash {hex : Key} (h : '/' ∈ hex) : from_hex hex = none := by
  induction hex using from_hex.induct with
  | case1 => cases h
  | case2 c => rfl
  | case3 c c' hex ih =>
    have hslash : nibble '/' = none := by decide
    rw [from_hex]
    rcases mem_cons.mp h with rfl | h
    · rw [hslash]
      rfl
    · rcases mem_cons.mp h with rfl | h
      · rw [hslash]
        cases nibble c <;> rfl
      · rw [ih h]
        cases nibble c <;> cases nibble c' <;> rfl

end Hex

/-- The length of a string fits the 32 bits that are written of it. -/
def Value.fits : Value → Bool
  | .string s => s.length < 2 ^ 32
  | _ => true

theorem get_put_length_prefixed_slice (s : Bytes) : get_length_prefixed_slice (put_length_prefixed_slice s) =
    some (s.take (s.length % 2 ^ 32), s.drop (s.length % 2 ^ 32)) := by
  rw [get_length_prefixed_slice, put_length_prefixed_slice, get_put_varint32 (Nat.mod_lt _ (by norm_num))]
  exact if_neg (Nat.not_lt.mpr (Nat.mod_le _ _))

theorem Row.consume_encode_value {v : Value} (hfits : v.fits = true) (rest : Bytes) :
    consume_value (encode_value v ++ rest) = some (v, rest) := by
  cases v with
  | null => rfl
  | bool b => cases b <;> rfl
  | int64 n =>
    have hvalue : (UInt64.ofNat n.toUInt64.toNat).toInt64 = n := by rw [UInt64.ofNat_toNat, Int64.toInt64_toUInt64]
    unfold consume_value encode_value
    simp only [Value.type, type_byte, cons_append]
    rw [if_neg (by decide), if_pos trivial, get_put_fixed64 n.toUInt64.toNat_lt, Option.map_some, hvalue]
  | string s =>
    change (get_length_prefixed_slice (put_length_prefixed_slice s ++ rest)).map _ = _
    rw [get_put_slice (of_decide_eq_true hfits)]
    rfl

theorem Row.decode_encode_value (v : Value) :
    decode_value (encode_value v) = if v.fits then .ok v else .error (.Corruption "value: trailing bytes") := by
  by_cases hfits : v.fits = true
  · have hconsume := consume_encode_value hfits []
    rw [append_nil] at hconsume
    rw [decode_value, hconsume, if_pos hfits]
    rfl
  · cases v with
    | string s =>
      have hlong : ¬ s.length < 2 ^ 32 := fun hlt => hfits (decide_eq_true hlt)
      have hvalue : consume_value (encode_value (.string s)) =
          some (.string (s.take (s.length % 2 ^ 32)), s.drop (s.length % 2 ^ 32)) := by
        show (get_length_prefixed_slice (put_length_prefixed_slice s)).map _ = _
        rw [get_put_length_prefixed_slice]
        rfl
      have hrest : s.drop (s.length % 2 ^ 32) ≠ [] := by
        rw [ne_eq, drop_eq_nil_iff]
        exact not_le.mpr ((Nat.mod_lt _ (by norm_num)).trans_le (not_lt.mp hlong))
      rw [decode_value, hvalue, if_neg hfits]
      exact if_pos hrest
    | _ => exact absurd rfl hfits

/-- A stored primary key is read back, or its string is too long. -/
theorem decode_encode_pk (pk : Value) : decode_pk_from_key (encode_pk_for_key pk) =
    if pk.fits then .ok pk else .error (.Corruption "value: trailing bytes") := by
  rw [decode_pk_from_key, encode_pk_for_key, from_hex_to_hex]
  exact Row.decode_encode_value pk

theorem decode_encode_pk_eq {pk pk' : Value} (h : decode_pk_from_key (encode_pk_for_key pk) = .ok pk') : pk' = pk := by
  rw [decode_encode_pk] at h
  split at h
  · exact (Except.ok.inj h).symm
  · cases h

/-- The tables whose row heads lie under the stem of a name: the table itself, and
    those whose names go on after a slash. -/
def Under (name table : String) : Prop := table = name ∨ name.toList ++ ['/'] <+: table.toList

instance (name table : String) : Decidable (Under name table) := inferInstanceAs (Decidable (_ ∨ _))

section Under

variable {name : String} {key : RowKey}

theorem row_head_key_eq (key : RowKey) :
    row_head_key key = 'd' :: '/' :: (key.1.toList ++ '/' :: encode_pk_for_key key.2) := by
  simp [row_head_key, row_head_stem]

theorem row_head_stem_eq (name : String) : row_head_stem name = 'd' :: '/' :: (name.toList ++ ['/']) := by
  simp [row_head_stem]

theorem stem_prefix_iff_under : row_head_stem name <+: row_head_key key ↔ Under name key.1 := by
  rw [row_head_key_eq, row_head_stem_eq, cons_prefix_cons, cons_prefix_cons]
  refine ⟨?_, fun h => ⟨rfl, rfl, ?_⟩⟩
  · rintro ⟨-, -, tail, htail⟩
    have hhex := slash_not_mem_to_hex (Row.encode_value key.2)
    rcases append_eq_append_iff.mp htail with ⟨more, htable, -⟩ | ⟨more, hname, hrest⟩
    · exact .inr ⟨more, htable.symm⟩
    · cases more with
      | nil =>
        rw [append_nil] at hname
        exact .inr (hname ▸ prefix_refl _)
      | cons c more =>
        obtain ⟨rfl, hmore⟩ := cons_eq_cons.mp hrest
        rcases more.eq_nil_or_concat with rfl | ⟨front, last, rfl⟩
        · exact .inl (String.toList_inj.mp (append_cancel_right hname).symm)
        · -- the slash at the end of the stem would be a hexadecimal digit
          have hlast : last = '/' := by
            have hends := congrArg List.getLast? hname
            rw [concat_eq_append, ← cons_append, ← append_assoc, List.getLast?_concat,
              List.getLast?_concat] at hends
            exact (Option.some.inj hends).symm
          refine absurd ?_ hhex
          show '/' ∈ encode_pk_for_key key.2
          rw [hmore, hlast]
          simp
  · rcases h with htable | hunder
    · exact ⟨encode_pk_for_key key.2, by rw [htable]; simp⟩
    · exact hunder.trans (prefix_append _ _)

/-- What follows the stem in the key of a row: its primary key, or a text that does not decode. -/
theorem drop_row_head_stem (h : Under name key.1) :
    (key.1 = name ∧ (row_head_key key).drop (row_head_stem name).length = encode_pk_for_key key.2) ∨
      (key.1 ≠ name ∧ '/' ∈ (row_head_key key).drop (row_head_stem name).length) := by
  by_cases heq : key.1 = name
  · refine .inl ⟨heq, ?_⟩
    rw [row_head_key, heq]
    exact drop_left
  · refine .inr ⟨heq, ?_⟩
    obtain ⟨more, hmore⟩ := h.resolve_left heq
    have hkey : row_head_key key = row_head_stem name ++ (more ++ '/' :: encode_pk_for_key key.2) := by
      rw [row_head_key_eq, row_head_stem_eq, ← hmore]
      simp
    rw [hkey, drop_left]
    simp

/-- Under a name without a slash lie only versions of its own tables. -/
theorem under_of_version_stem (hslash : '/' ∉ name.toList) {version_id : Nat}
    (h : version_stem name <+: version_key key version_id) : Under name key.1 := by
  have hkey : version_key key version_id =
      'v' :: '/' :: (key.1.toList ++ '/' :: (encode_pk_for_key key.2 ++ "/".toList ++ fixed64_be version_id)) := by
    simp [version_key, version_stem]
  have hstem : version_stem name = 'v' :: '/' :: (name.toList ++ ['/']) := by simp [version_stem]
  rw [hkey, hstem, cons_prefix_cons, cons_prefix_cons] at h
  obtain ⟨-, -, tail, htail⟩ := h
  rcases append_eq_append_iff.mp htail with ⟨more, htable, -⟩ | ⟨more, hname, hrest⟩
  · exact .inr ⟨more, htable.symm⟩
  · cases more with
    | nil =>
      rw [append_nil] at hname
      exact .inr (hname ▸ prefix_refl _)
    | cons c more =>
      obtain ⟨rfl, -⟩ := cons_eq_cons.mp hrest
      rcases more.eq_nil_or_concat with rfl | ⟨front, last, rfl⟩
      · exact .inl (String.toList_inj.mp (append_cancel_right hname).symm)
      · rw [concat_eq_append, ← cons_append, ← append_assoc] at hname
        refine absurd ?_ hslash
        rw [(append_inj' hname rfl).1]
        simp

end Under

section Injective

theorem put_length_prefixed_slice_injective : Function.Injective put_length_prefixed_slice := by
  intro s s' h
  have hget := get_put_length_prefixed_slice s
  rw [h, get_put_length_prefixed_slice s', Option.some.injEq, Prod.mk.injEq] at hget
  rw [← take_append_drop (s.length % 2 ^ 32) s, ← hget.1, ← hget.2, take_append_drop]

theorem Row.encode_value_injective : Function.Injective Row.encode_value := by
  intro v v' h
  by_cases hfits : v.fits = true
  · have hdecode := Row.decode_encode_value v
    rw [h, Row.decode_encode_value v', if_pos hfits] at hdecode
    split at hdecode
    · exact (Except.ok.inj hdecode).symm
    · cases hdecode
  · -- a string whose length does not fit is still followed by its bytes
    cases v with
    | string s =>
      cases v' with
      | string s' =>
        exact congrArg Value.string (put_length_prefixed_slice_injective (List.cons.inj h).2)
      | null | int64 | bool => exact absurd (List.cons.inj h).1 (by simp [Row.type_byte, Value.type])
    | null | int64 | bool => exact absurd rfl hfits

theorem encode_pk_injective : Function.Injective encode_pk_for_key := by
  intro pk pk' h
  refine Row.encode_value_injective (Option.some.inj ?_)
  rw [← from_hex_to_hex, ← from_hex_to_hex]
  exact congrArg from_hex h

theorem row_head_key_injective : Function.Injective row_head_key := by
  intro k k' h
  have hunder : Under k.1 k'.1 := stem_prefix_iff_under.mp (h ▸ stem_prefix_iff_under.mpr (.inl rfl))
  have hunder' : Under k'.1 k.1 := stem_prefix_iff_under.mp (h ▸ stem_prefix_iff_under.mpr (.inl rfl))
  have htable : k.1 = k'.1 := by
    rcases hunder with heq | hlonger
    · exact heq.symm
    rcases hunder' with heq | hlonger'
    · exact heq
    have hlength := hlonger.length_le
    have hlength' := hlonger'.length_le
    simp only [length_append, length_singleton] at hlength hlength'
    omega
  rw [row_head_key, row_head_key, htable] at h
  exact Prod.ext htable (encode_pk_injective (append_cancel_left h))

theorem fixed64_be_injective {v v' : UInt64} (h : fixed64_be v.toNat = fixed64_be v'.toNat) : v = v' := by
  have hchar : ∀ b : UInt8, (Char.ofNat b.toNat).toNat = b.toNat := by decide +kernel
  have hbyte : Function.Injective fun b : UInt8 => Char.ofNat b.toNat := fun b b' hb =>
    UInt8.toNat_inj.mp ((hchar b).symm.trans ((congrArg Char.toNat hb).trans (hchar b')))
  have hbytes := reverse_injective (map_injective_iff.mpr hbyte h)
  refine UInt64.toNat_inj.mp ?_
  rw [← decode_put_fixed64 v.toNat_lt, hbytes, decode_put_fixed64 v'.toNat_lt]

/-- The key of a version is made of the parts of the key of its row, with the id behind them. -/
theorem version_key_injective {key key' : RowKey} {v v' : UInt64}
    (h : version_key key v.toNat = version_key key' v'.toNat) : key = key' ∧ v = v' := by
  obtain ⟨hfront, hid⟩ := append_inj' h (by simp [fixed64_be])
  have hrow : row_head_key key = row_head_key key' := by
    have hrest := (List.cons.inj (append_cancel_right hfront)).2
    exact congrArg ('d' :: ·) hrest
  exact ⟨row_head_key_injective hrow, fixed64_be_injective hid⟩

end Injective

def txn_key (id : Nat) : Key := "m/txn/".toList ++ fixed64_be id

def kNextTsKey : Key := "m/next_ts".toList

def kNextTxnKey : Key := "m/next_txn".toList

def kNextVidKey : Key := "m/next_vid".toList

def Catalog.table_key (table_name : String) : Key := "c/t/".toList ++ table_name.toList

/-- What the relational layer has keys for. -/
inductive StoredKey where
  | row_head (key : RowKey)
  | version (key : RowKey) (version_id : UInt64)
  | txn (id : UInt64)
  | next_ts
  | next_txn
  | next_vid
  | table (name : String)
deriving DecidableEq

def StoredKey.key : StoredKey → Key
  | .row_head key => row_head_key key
  | .version key version_id => version_key key version_id.toNat
  | .txn id => txn_key id.toNat
  | .next_ts => kNextTsKey
  | .next_txn => kNextTxnKey
  | .next_vid => kNextVidKey
  | .table name => Catalog.table_key name

/-- The letter that tells the kinds of keys apart: the first one, or the third one after `m/`. -/
def StoredKey.letter : StoredKey → Char
  | .row_head _ => 'd'
  | .version _ _ => 'v'
  | .txn _ => 't'
  | .table _ => 'c'
  | _ => 'n'

theorem StoredKey.letter_eq (k : StoredKey) :
    some k.letter = if k.key.head? = some 'm' then k.key[2]? else k.key.head? := by
  cases k <;> rfl

theorem StoredKey.key_injective : Function.Injective StoredKey.key := by
  intro k k' h
  have hletter : k.letter = k'.letter := Option.some.inj (by rw [k.letter_eq, k'.letter_eq, h])
  cases k with
  | row_head key =>
    cases k' with
    | row_head key' => exact congrArg StoredKey.row_head (row_head_key_injective h)
    | _ => simp [StoredKey.letter] at hletter
  | version key version_id =>
    cases k' with
    | version key' version_id' =>
      obtain ⟨rfl, rfl⟩ := version_key_injective h
      rfl
    | _ => simp [StoredKey.letter] at hletter
  | txn id =>
    cases k' with
    | txn id' => exact congrArg StoredKey.txn (fixed64_be_injective (append_cancel_left h))
    | _ => simp [StoredKey.letter] at hletter
  | table name =>
    cases k' with
    | table name' => exact congrArg StoredKey.table (String.toList_inj.mp (append_cancel_left h))
    | _ => simp [StoredKey.letter] at hletter
  | next_ts | next_txn | next_vid =>
    cases k' with
    | next_ts | next_txn | next_vid => first | rfl | exact absurd h (by decide)
    | _ => simp [StoredKey.letter] at hletter

/-- No two keys of the store collide, neither those of one kind nor those of two, and a primary
    key is read back from its encoding. Keys are strings of characters that stand for bytes;
    ids are the 64-bit words of the source, and nothing is assumed about table names. -/
theorem stored_keys_distinct :
    Function.Injective StoredKey.key ∧
      ∀ v : Value, v.fits = true → decode_pk_from_key (encode_pk_for_key v) = .ok v :=
  ⟨StoredKey.key_injective, fun v hfits => by rw [decode_encode_pk, if_pos hfits]⟩

end reldb
