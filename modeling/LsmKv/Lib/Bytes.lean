import Mathlib

/-- Bytes are ordered as unsigned numbers, which makes byte strings linearly
    ordered by the lexicographic order that `memcmp` decides. -/
instance byteLinearOrder : LinearOrder UInt8 where
  le_refl := UInt8.le_refl
  le_trans _ _ _ := UInt8.le_trans
  le_antisymm _ _ := UInt8.le_antisymm
  le_total := UInt8.le_total
  lt_iff_le_not_ge a b := by
    simp only [UInt8.lt_iff_toNat_lt, UInt8.le_iff_toNat_le]
    omega
  toDecidableLE := inferInstance
  toDecidableEq := inferInstance
  toDecidableLT := inferInstance

/-- A byte string (`std::string`, `Slice`). -/
abbrev Bytes := List UInt8

/-- Byte strings are compared through the linear order, so that lemmas about
    linear orders apply to their `<` as it is written. -/
instance : LT Bytes := (List.instLinearOrder : LinearOrder (List UInt8)).toLT

instance : LE Bytes := (List.instLinearOrder : LinearOrder (List UInt8)).toLE

instance (a b : Bytes) : Decidable (a < b) :=
  (List.instLinearOrder : LinearOrder (List UInt8)).toDecidableLT a b

instance (a b : Bytes) : Decidable (a ≤ b) :=
  (List.instLinearOrder : LinearOrder (List UInt8)).toDecidableLE a b

namespace Bytes

/-- The bytes of a source literal. -/
def ofString (s : String) : Bytes :=
  s.toList.map fun c => UInt8.ofNat c.toNat

/-- Bytes shown inside a message. -/
def toText (b : Bytes) : String :=
  String.ofList (b.map fun x => Char.ofNat x.toNat)

end Bytes
