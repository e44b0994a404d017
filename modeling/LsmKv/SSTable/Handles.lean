import LsmKv.SSTable.Table

open lsmkv.encoding

namespace lsmkv.SSTable.Image

theorem open_data_file {file_data : Bytes} {t : Image} (hopen : open_data file_data = .ok t) : t.file_data = file_data := by
  unfold open_data at hopen
  dsimp only at hopen
  split at hopen
  · cases hopen
  · split at hopen
    · cases hopen
    · cases hopen
      rfl

/-- The check of `ReadBlock` is one of the sum in 64 bits. -/
theorem read_block_out_of_range_iff (t : Image) (offset size : Nat) :
    t.read_block offset size = .error (.Corruption "block out of range") ↔
      t.file_data.length < (offset + size + 4) % 2 ^ 64 := by
  unfold read_block
  dsimp only
  split
  · next hout => exact iff_of_true rfl hout
  · next hin =>
    refine iff_of_false ?_ hin
    split
    · decide
    · exact fun h => by cases h

/-- Whatever the footer and the index say, a block goes past the range check only if it
    lies in the file, and is Corruption otherwise, exactly if its end does not wrap around
    to a place in the file. The file is any that `Open` accepts and whose size fits 64
    bits. -/
theorem read_block_range_iff (file_data : Bytes) (t : Image) (hsize : file_data.length < 2 ^ 64)
    (hopen : open_data file_data = .ok t) (offset size : Nat) :
    ((t.read_block offset size ≠ .error (.Corruption "block out of range") → offset + size + 4 ≤ file_data.length) ∧
      (file_data.length < offset + size + 4 → ∃ msg, t.read_block offset size = .error (.Corruption msg))) ↔
      offset + size + 4 < 2 ^ 64 ∨ file_data.length < (offset + size + 4) % 2 ^ 64 := by
  rw [← open_data_file hopen] at hsize ⊢
  have hcheck := t.read_block_out_of_range_iff offset size
  constructor
  · rintro ⟨hpast, -⟩
    by_contra hwraps
    push Not at hwraps
    have := hpast (mt hcheck.mp (not_lt.mpr hwraps.2))
    omega
  · intro hsound
    have hpast : t.read_block offset size ≠ .error (.Corruption "block out of range") →
        offset + size + 4 ≤ t.file_data.length := by
      intro hne
      have hin := mt hcheck.mpr hne
      rcases hsound with hsmall | hout
      · rw [Nat.mod_eq_of_lt hsmall] at hin
        omega
      · exact absurd hout hin
    refine ⟨hpast, fun hout => ⟨"block out of range", ?_⟩⟩
    by_contra hne
    exact absurd (hpast hne) (not_le.mpr hout)

/-- The footer alone, with an index block of no bytes at its start. -/
theorem read_block_range_iff_footer :
    let t : Image := ⟨[0, 0, 0, 0, 0, 0, 0, 0, 0, 0, 0, 0, 0, 0, 0, 0, 0x4E, 0x73, 0x04, 0xDB], 0, 0⟩
    t.file_data.length < 2 ^ 64 ∧ open_data t.file_data = .ok t ∧
      (((t.read_block 0 0 ≠ .error (.Corruption "block out of range") → 0 + 0 + 4 ≤ t.file_data.length) ∧
        (t.file_data.length < 0 + 0 + 4 → ∃ msg, t.read_block 0 0 = .error (.Corruption msg))) ↔
        0 + 0 + 4 < 2 ^ 64 ∨ t.file_data.length < (0 + 0 + 4) % 2 ^ 64) :=
  ⟨by decide, by decide +kernel, read_block_range_iff _ _ (by decide) (by decide +kernel) 0 0⟩

/-- A footer that places the index block at the end of the address space. Its end is 0 in 64
    bits, so that it goes past the check. -/
theorem wrapped_handle :
    ∃ t, open_data [0xFC, 0xFF, 0xFF, 0xFF, 0xFF, 0xFF, 0xFF, 0xFF, 0, 0, 0, 0, 0, 0, 0, 0, 0x4E, 0x73, 0x04, 0xDB] = .ok t ∧
      t.file_data.length = 20 ∧ t.index_offset = 2 ^ 64 - 4 ∧ t.index_size = 0 ∧
      t.read_block t.index_offset t.index_size ≠ .error (.Corruption "block out of range") ∧
      ¬ t.index_offset + t.index_size + 4 ≤ t.file_data.length :=
  ⟨⟨[0xFC, 0xFF, 0xFF, 0xFF, 0xFF, 0xFF, 0xFF, 0xFF, 0, 0, 0, 0, 0, 0, 0, 0, 0x4E, 0x73, 0x04, 0xDB], 2 ^ 64 - 4, 0⟩,
    by decide +kernel, by decide, rfl, rfl, by decide +kernel, by decide⟩

end lsmkv.SSTable.Image
