import LsmKv.Lib.Crc
import LsmKv.SSTable.Table
import LsmKv.Wal

open lsmkv.encoding

namespace lsmkv

open List

/-- The bits of a byte string, those of a byte from the least significant one on. -/
def bits (data : Bytes) : List Bool := data.flatMap fun b => (List.range 8).map b.toBitVec.getLsbD

theorem bits_cons (b : UInt8) (data : Bytes) : bits (b :: data) = (List.range 8).map b.toBitVec.getLsbD ++ bits data := rfl

def kPolynomial : BitVec 32 := 0xEDB88320#32

theorem crc_shift_bit_toBitVec (c : UInt32) : (crc_shift_bit c).toBitVec = crc.shift kPolynomial c.toBitVec := by
  have hlow : (c &&& 1 = 1) ↔ c.toBitVec.getLsbD 0 = true := by
    rw [← UInt32.toBitVec_inj, UInt32.toBitVec_and]
    have hone : c.toBitVec &&& (1 : UInt32).toBitVec = BitVec.setWidth 32 (BitVec.ofBool (c.toBitVec.getLsbD 0)) :=
      BitVec.and_one_eq_setWidth_ofBool_getLsbD
    rw [hone]
    cases c.toBitVec.getLsbD 0 <;> decide
  unfold crc_shift_bit crc.shift
  by_cases h : c.toBitVec.getLsbD 0 = true
  · rw [if_pos (hlow.mpr h), if_pos h, UInt32.toBitVec_xor, BitVec.xor_comm]
    rfl
  · rw [if_neg (mt hlow.mp h), if_neg h]
    rfl

theorem crc_table_toBitVec (i : UInt32) : (crc_table i).toBitVec = (crc.shift kPolynomial)^[8] i.toBitVec :=
  (Function.Semiconj.iterate_right crc_shift_bit_toBitVec 8) i

/-- A step of the table loop feeds the bits of its byte. -/
theorem crc_step_eq (c : UInt32) (b : UInt8) :
    (crc_table ((c ^^^ b.toUInt32) &&& 0xFF) ^^^ (c >>> 8)).toBitVec =
      crc.feedAll kPolynomial c.toBitVec ((List.range 8).map b.toBitVec.getLsbD) := by
  have hword : (crc.word ((List.range 8).map b.toBitVec.getLsbD) : BitVec 32) = b.toUInt32.toBitVec := by
    refine BitVec.eq_of_getLsbD_eq fun i hi => ?_
    rw [crc.getLsbD_word _ hi, UInt8.toBitVec_toUInt32, BitVec.getLsbD_setWidth]
    by_cases hlow : i < 8
    · simp [hlow, hi]
    · simp [hlow, BitVec.getLsbD_of_ge b.toBitVec i (by omega)]
  have hhigh : b.toUInt32.toBitVec >>> 8 = 0#32 := by
    refine BitVec.eq_of_getLsbD_eq fun i hi => ?_
    rw [UInt8.toBitVec_toUInt32, BitVec.getLsbD_ushiftRight, BitVec.getLsbD_setWidth,
      BitVec.getLsbD_of_ge b.toBitVec (8 + i) (by omega)]
    simp
  rw [crc.feedAll_eq_shifts (by simp), hword, length_map, length_range, crc.shifts_eq_low_xor,
    BitVec.ushiftRight_xor_distrib, hhigh, BitVec.xor_zero, UInt32.toBitVec_xor, crc_table_toBitVec]
  rfl

theorem crc32_extend_toBitVec (c : UInt32) (data : Bytes) :
    (crc32_extend c data).toBitVec =
      crc.feedAll kPolynomial (c.toBitVec ^^^ 0xFFFFFFFF#32) (bits data) ^^^ 0xFFFFFFFF#32 := by
  have hfold : ∀ (data : Bytes) (c : UInt32),
      (data.foldl (fun c b => crc_table ((c ^^^ b.toUInt32) &&& 0xFF) ^^^ (c >>> 8)) c).toBitVec =
        crc.feedAll kPolynomial c.toBitVec (bits data) := by
    intro data
    induction data with
    | nil => exact fun _ => rfl
    | cons b data ih =>
      intro c
      rw [foldl_cons, ih, crc_step_eq, bits_cons]
      exact (foldl_append ..).symm
  rw [crc32_extend, UInt32.toBitVec_xor, hfold]
  rfl

theorem bits_length (data : Bytes) : (bits data).length = 8 * data.length := by
  induction data with
  | nil => rfl
  | cons b data ih =>
    rw [bits_cons, length_append, ih, length_cons, length_map, length_range]
    omega

theorem bits_injective {a b : Bytes} (h : bits a = bits b) : a = b := by
  induction a generalizing b with
  | nil =>
    cases b with
    | nil => rfl
    | cons y b => cases h
  | cons x a ih =>
    cases b with
    | nil => cases h
    | cons y b =>
      rw [bits_cons, bits_cons] at h
      obtain ⟨hbyte, hrest⟩ := append_inj h (by simp)
      have hxy : x = y := by
        refine UInt8.toBitVec_inj.mp (BitVec.eq_of_getLsbD_eq fun i hi => ?_)
        exact map_inj_left.mp hbyte i (mem_range.mpr hi)
      rw [hxy, ih hrest]

/-- The checksum sees every burst of up to 32 bits. -/
theorem crc32_ne_of_burst {a b : Bytes} (hlength : a.length = b.length) (hne : a ≠ b) {start : Nat}
    (hburst : ∀ i, (bits a)[i]? ≠ (bits b)[i]? → start ≤ i ∧ i < start + 32) : crc32 a ≠ crc32 b := by
  intro heq
  have hbits : (bits a).length = (bits b).length := by rw [bits_length, bits_length, hlength]
  have hfeed : crc.feedAll kPolynomial (0#32 ^^^ 0xFFFFFFFF#32) (bits a) =
      crc.feedAll kPolynomial (0#32 ^^^ 0xFFFFFFFF#32) (bits b) := by
    have htoBitVec := congrArg UInt32.toBitVec heq
    rw [crc32, crc32, crc32_extend_toBitVec, crc32_extend_toBitVec] at htoBitVec
    exact (BitVec.xor_left_inj _).mp htoBitVec
  exact crc.feedAll_ne (by decide) hbits (fun h => hne (bits_injective h)) hburst _ hfeed

def unmask_crc (masked : UInt32) : UInt32 :=
  let rot : UInt32 := masked - 0xA282EAD8
  (rot >>> 17) ||| (rot <<< 15)

theorem unmask_mask_crc (c : UInt32) : unmask_crc (mask_crc c) = c := by
  have hrot : mask_crc c - (0xA282EAD8 : UInt32) = (c >>> 15) ||| (c <<< 17) := UInt32.add_sub_cancel _ _
  rw [unmask_crc, hrot]
  refine UInt32.toBitVec_inj.mp (BitVec.eq_of_getLsbD_eq fun i hi => ?_)
  simp only [UInt32.toBitVec_or, UInt32.toBitVec_shiftRight, UInt32.toBitVec_shiftLeft]
  change ((c.toBitVec >>> 15 ||| c.toBitVec <<< 17) >>> 17 ||| (c.toBitVec >>> 15 ||| c.toBitVec <<< 17) <<< 15).getLsbD i = _
  simp only [BitVec.getLsbD_or, BitVec.getLsbD_ushiftRight, BitVec.getLsbD_shiftLeft]
  by_cases hlow : i < 15
  · simp [hlow, show 17 + i < 32 by omega, BitVec.getLsbD_of_ge c.toBitVec (15 + (17 + i)) (by omega)]
  · have hback : 15 + (i - 15) = i := by omega
    simp [hlow, hi, hback, show ¬ 17 + i < 32 by omega, show i - 15 < 17 by omega,
      BitVec.getLsbD_of_ge c.toBitVec (15 + (17 + i)) (by omega)]

theorem mask_crc_injective : Function.Injective mask_crc := Function.LeftInverse.injective unmask_mask_crc

section Readers

variable {a b : Bytes} (hlength : a.length = b.length) (hmask : mask_crc (crc32 a) ≠ mask_crc (crc32 b))

include hlength hmask

/-- A record whose payload was replaced by one of another checksum. -/
theorem read_record_altered {header rest : Bytes} (hheader : header.length = 8)
    (hread : wal.read_record (header ++ (a ++ rest)) = .ok (a, rest)) :
    wal.read_record (header ++ (b ++ rest)) = .error (.Corruption "wal crc mismatch") := by
  have hne : ∀ data : Bytes, header ++ (data ++ rest) ≠ [] := fun data hnil => by
    have := congrArg List.length hnil
    simp only [length_append, length_nil] at this
    omega
  have hlong : ∀ data : Bytes, ¬ (header ++ (data ++ rest)).length < 8 := fun data => by
    rw [length_append]
    omega
  have hfixed : ∀ data : Bytes, decode_fixed32 (header ++ (data ++ rest)) = decode_fixed32 header := fun data => by
    rw [decode_fixed32, decode_fixed32, take_append_of_le_length (by omega)]
  have hmasked : ∀ data : Bytes, decode_fixed32 ((header ++ (data ++ rest)).drop 4) = decode_fixed32 (header.drop 4) :=
    fun data => by
      rw [drop_append_of_le_length (by omega), decode_fixed32, decode_fixed32,
        take_append_of_le_length (by rw [length_drop]; omega)]
  have hpayload : ∀ data : Bytes, (header ++ (data ++ rest)).drop 8 = data ++ rest := fun data => drop_left' hheader
  rw [wal.read_record, if_neg (hne a), if_neg (hlong a)] at hread
  rw [wal.read_record, if_neg (hne b), if_neg (hlong b)]
  dsimp only at hread ⊢
  rw [hfixed, hmasked, hpayload] at hread ⊢
  split at hread
  · cases hread
  · next hfits =>
    split at hread
    · cases hread
    · next hcrc =>
      have hparts : (a ++ rest).take (decode_fixed32 header) = a := by
        simp only [Except.ok.injEq, Prod.mk.injEq] at hread
        exact hread.1
      have hlen : decode_fixed32 header = a.length := by
        conv_rhs => rw [← hparts]
        exact (length_take_of_le (not_lt.mp hfits)).symm
      rw [hlen] at hcrc ⊢
      rw [take_left] at hcrc
      rw [hlength, take_left, if_neg (by simp), if_pos]
      intro heq
      exact hmask (UInt32.toNat_inj.mp ((not_not.mp hcrc).trans heq.symm))

/-- A block whose contents were replaced by some of another checksum. -/
theorem read_block_altered {t t' : SSTable.Image} {front back : Bytes} (hfile : t.file_data = front ++ (a ++ back))
    (hfile' : t'.file_data = front ++ (b ++ back)) (hread : t.read_block front.length a.length = .ok a) :
    t'.read_block front.length a.length = .error (.Corruption "block crc mismatch") := by
  have hcontents : ∀ data : Bytes, ((front ++ (data ++ back)).drop front.length).take data.length = data := fun data => by
    rw [drop_left, take_left]
  have hback : ∀ data : Bytes, (front ++ (data ++ back)).drop (front.length + data.length) = back := fun data => by
    rw [← append_assoc, ← length_append, drop_left]
  have hsize : (front ++ (b ++ back)).length = (front ++ (a ++ back)).length := by
    simp only [length_append, hlength]
  rw [SSTable.Image.read_block, hfile] at hread
  rw [SSTable.Image.read_block, hfile', hsize]
  split at hread
  · cases hread
  · next hrange =>
    dsimp only at hread
    rw [hcontents, hback] at hread
    split at hread
    · cases hread
    · next hcrc =>
      rw [if_neg hrange]
      dsimp only
      rw [hlength, hcontents, hback, if_pos]
      intro heq
      exact hmask (UInt32.toNat_inj.mp ((not_not.mp hcrc).trans heq.symm))

end Readers

/-- Two byte strings that differ in a burst of up to 32 bits have different checksums,
    masked or not, and neither reader takes the one for the other. Nothing but their
    length is assumed of the strings, and nothing of what stands around them. -/
theorem burst_detected (a b : Bytes) (hlength : a.length = b.length) (hne : a ≠ b) (start : Nat)
    (hburst : ∀ i, (bits a)[i]? ≠ (bits b)[i]? → start ≤ i ∧ i < start + 32) :
    crc32 a ≠ crc32 b ∧ mask_crc (crc32 a) ≠ mask_crc (crc32 b) ∧
      (∀ header rest, header.length = 8 → wal.read_record (header ++ (a ++ rest)) = .ok (a, rest) →
        ∃ msg, wal.read_record (header ++ (b ++ rest)) = .error (.Corruption msg)) ∧
      ∀ (t t' : SSTable.Image) front back, t.file_data = front ++ (a ++ back) → t'.file_data = front ++ (b ++ back) →
        t.read_block front.length a.length = .ok a →
          ∃ msg, t'.read_block front.length a.length = .error (.Corruption msg) := by
  have hcrc := crc32_ne_of_burst hlength hne hburst
  have hmask := mask_crc_injective.ne hcrc
  refine ⟨hcrc, hmask, fun header rest hheader hread => ?_, fun t t' front back hfile hfile' hread => ?_⟩
  · exact ⟨_, read_record_altered hlength hmask hheader hread⟩
  · exact ⟨_, read_block_altered hlength hmask hfile hfile' hread⟩

/-- Four bytes, all of them altered. -/
theorem burst_detected_word :
    crc32 [1, 2, 3, 4] ≠ crc32 [9, 9, 9, 9] ∧ mask_crc (crc32 [1, 2, 3, 4]) ≠ mask_crc (crc32 [9, 9, 9, 9]) ∧
      (∀ header rest, header.length = 8 → wal.read_record (header ++ ([1, 2, 3, 4] ++ rest)) = .ok ([1, 2, 3, 4], rest) →
        ∃ msg, wal.read_record (header ++ ([9, 9, 9, 9] ++ rest)) = .error (.Corruption msg)) ∧
      ∀ (t t' : SSTable.Image) front back, t.file_data = front ++ ([1, 2, 3, 4] ++ back) →
        t'.file_data = front ++ ([9, 9, 9, 9] ++ back) → t.read_block front.length 4 = .ok [1, 2, 3, 4] →
          ∃ msg, t'.read_block front.length 4 = .error (.Corruption msg) := by
  refine burst_detected [1, 2, 3, 4] [9, 9, 9, 9] rfl (by decide) 0 fun i hdiffer => ⟨Nat.zero_le i, ?_⟩
  by_contra hout
  refine hdiffer ?_
  rw [List.getElem?_eq_none (by rw [bits_length]; simp; omega), List.getElem?_eq_none (by rw [bits_length]; simp; omega)]

end lsmkv
