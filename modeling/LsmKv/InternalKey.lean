import LsmKv.Encoding
import LsmKv.Lib.Versioned

open lsmkv.encoding

namespace lsmkv

inductive ValueType where
  | kTypeDeletion
  | kTypeValue
deriving DecidableEq, Repr

def ValueType.toNat : ValueType → Nat
  | .kTypeDeletion => 0
  | .kTypeValue => 1

/-- Packed sequence (56 bits) and type (8 bits). The shift happens in 64 bits and
    leaves the low byte free for the type. -/
def pack_sequence_and_type (seq : Nat) (t : ValueType) : Nat :=
  seq * 256 % 2 ^ 64 + t.toNat

def sequence_from_pack (packed : Nat) : Nat := packed / 256

/-- The type byte; only the comparison with `kTypeDeletion` is ever made. -/
def type_from_pack (packed : Nat) : ValueType :=
  if packed % 256 = 0 then .kTypeDeletion else .kTypeValue

/-- `internal_key = user_key + fixed64(pack(seq, type))`. -/
def make_internal_key (user_key : Bytes) (seq : Nat) (t : ValueType) : Bytes :=
  user_key ++ put_fixed64 (pack_sequence_and_type seq t)

def extract_user_key (internal_key : Bytes) : Bytes :=
  if internal_key.length < 8 then internal_key
  else internal_key.take (internal_key.length - 8)

/-- The last eight bytes of an internal key as a number. -/
def extract_packed (internal_key : Bytes) : Nat :=
  decode_fixed64 (internal_key.drop (internal_key.length - 8))

def extract_sequence (internal_key : Bytes) : Nat :=
  if internal_key.length < 8 then 0 else sequence_from_pack (extract_packed internal_key)

def extract_value_type (internal_key : Bytes) : ValueType :=
  if internal_key.length < 8 then .kTypeValue else type_from_pack (extract_packed internal_key)

/-- Ascending user key, then descending packed sequence and type. Keys too short
    to be internal keys fall back to the byte order. -/
def compare_internal_key (a b : Bytes) : Ordering :=
  if a.length < 8 ∨ b.length < 8 then cmp a b
  else
    match cmp (extract_user_key a) (extract_user_key b) with
    | .eq => cmp (extract_packed b) (extract_packed a)
    | r => r

/-- An internal key taken apart: the tables of the model hold these in place of
    the encoded strings. -/
abbrev InternalKey := versioned.VersionedKey Bytes

namespace InternalKey

def make (user_key : Bytes) (seq : Nat) (t : ValueType) : InternalKey :=
  ⟨user_key, pack_sequence_and_type seq t⟩

def encode (k : InternalKey) : Bytes := k.key ++ put_fixed64 k.stamp

def sequence (k : InternalKey) : Nat := sequence_from_pack k.stamp

def value_type (k : InternalKey) : ValueType := type_from_pack k.stamp

@[simp] theorem encode_length (k : InternalKey) : (encode k).length = k.key.length + 8 := by
  simp [encode]

theorem encode_ne_nil (k : InternalKey) : encode k ≠ [] := by
  intro h
  have := congrArg List.length h
  simp at this

/-- The user key of an encoded key is the one it was made from, whatever bytes
    it holds. -/
@[simp] theorem extract_user_key_encode (k : InternalKey) : extract_user_key (encode k) = k.key := by
  have hlen : ¬ (encode k).length < 8 := by simp
  rw [extract_user_key, if_neg hlen]
  simp [encode]

theorem extract_packed_encode {k : InternalKey} (hk : k.stamp < 2 ^ 64) :
    extract_packed (encode k) = k.stamp := by
  have hdrop : (encode k).drop ((encode k).length - 8) = put_fixed64 k.stamp := by
    simp [encode]
  rw [extract_packed, hdrop, decode_put_fixed64 hk]

/-- An encoded key taken apart again. -/
def ofBytes (k : Bytes) : InternalKey := ⟨extract_user_key k, extract_packed k⟩

/-- On keys long enough to be internal keys the comparison is the version order. -/
theorem compare_eq_lt_iff {a b : Bytes} (ha : 8 ≤ a.length) (hb : 8 ≤ b.length) :
    compare_internal_key a b = .lt ↔ (ofBytes a).Precedes (ofBytes b) := by
  have hlong : ¬ (a.length < 8 ∨ b.length < 8) := by omega
  rw [compare_internal_key, if_neg hlong, versioned.VersionedKey.Precedes]
  simp only [ofBytes]
  cases hcmp : cmp (extract_user_key a) (extract_user_key b) with
  | lt =>
    have hlt := (cmp_eq_lt_iff _ _).mp hcmp
    simp [hlt]
  | eq =>
    have heq := (cmp_eq_eq_iff _ _).mp hcmp
    simp [heq, cmp_eq_lt_iff]
  | gt =>
    have hgt := (cmp_eq_gt_iff _ _).mp hcmp
    simp [hgt.not_gt, hgt.ne']

theorem ofBytes_encode {k : InternalKey} (hk : k.stamp < 2 ^ 64) : ofBytes (encode k) = k := by
  rw [ofBytes, extract_user_key_encode, extract_packed_encode hk]

/-- The byte comparison of encoded keys is the version order of the keys. -/
theorem compare_encode_eq_lt_iff {a b : InternalKey} (ha : a.stamp < 2 ^ 64) (hb : b.stamp < 2 ^ 64) :
    compare_internal_key (encode a) (encode b) = .lt ↔ a.Precedes b := by
  rw [compare_eq_lt_iff (by simp) (by simp), ofBytes_encode ha, ofBytes_encode hb]

theorem compare_encode_eq_eq_iff {a b : InternalKey} (ha : a.stamp < 2 ^ 64) (hb : b.stamp < 2 ^ 64) :
    compare_internal_key (encode a) (encode b) = .eq ↔ a = b := by
  have hlong : ¬ ((encode a).length < 8 ∨ (encode b).length < 8) := by simp
  rw [compare_internal_key, if_neg hlong, extract_user_key_encode, extract_user_key_encode, extract_packed_encode ha,
    extract_packed_encode hb]
  constructor
  · intro h
    cases hcmp : cmp a.key b.key with
    | lt => simp [hcmp] at h
    | gt => simp [hcmp] at h
    | eq =>
      rw [hcmp] at h
      have hkey := (cmp_eq_eq_iff _ _).mp hcmp
      have hstamp := (cmp_eq_eq_iff _ _).mp h
      cases a
      cases b
      exact congrArg₂ _ hkey hstamp.symm
  · rintro rfl
    rw [cmp_self_eq_eq]
    exact cmp_self_eq_eq _

end InternalKey

section Pack

variable {seq : Nat} (hseq : seq < 2 ^ 56) (t : ValueType)

include hseq

theorem pack_eq : pack_sequence_and_type seq t = seq * 256 + t.toNat := by
  unfold pack_sequence_and_type
  rw [Nat.mod_eq_of_lt (by omega)]

theorem sequence_from_pack_pack : sequence_from_pack (pack_sequence_and_type seq t) = seq := by
  rw [pack_eq hseq, sequence_from_pack]
  cases t <;> simp only [ValueType.toNat] <;> omega

theorem type_from_pack_pack : type_from_pack (pack_sequence_and_type seq t) = t := by
  rw [pack_eq hseq, type_from_pack]
  cases t with
  | kTypeDeletion => rw [if_pos (by simp only [ValueType.toNat]; omega)]
  | kTypeValue => rw [if_neg (by simp only [ValueType.toNat]; omega)]

end Pack

/-- Below `2^56` a larger sequence number packs to a larger stamp, whatever the
    types are. -/
theorem pack_lt_pack {seq seq' : Nat} (hlt : seq < seq') (hseq' : seq' < 2 ^ 56) (t t' : ValueType) :
    pack_sequence_and_type seq t < pack_sequence_and_type seq' t' := by
  rw [pack_eq (hlt.trans hseq'), pack_eq hseq']
  cases t <;> cases t' <;> simp only [ValueType.toNat] <;> omega

/-- Every entry not newer than a snapshot is admitted by its lookup key. -/
theorem pack_le_lookup {seq snapshot : Nat} (hle : seq ≤ snapshot) (hsnap : snapshot < 2 ^ 56)
    (t : ValueType) :
    pack_sequence_and_type seq t ≤ pack_sequence_and_type snapshot .kTypeValue := by
  rw [pack_eq (hle.trans_lt hsnap), pack_eq hsnap]
  cases t <;> simp only [ValueType.toNat] <;> omega

end lsmkv
