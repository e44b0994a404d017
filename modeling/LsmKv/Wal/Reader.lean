import LsmKv.Wal

namespace lsmkv.wal

/-- The next batch of a log: a record read and decoded. -/
def read_batch (input : Bytes) : Except Status (LogRecord × Bytes) :=
  match read_record input with
  | .error s => .error s
  | .ok (record, rest) => (decode_write_batch record).map fun batch => (batch, rest)

/-- The batches that are read before the first error, and the error. -/
def read_batches (content : Bytes) : List LogRecord × Option Status :=
  framing.read_all read_batch (content.length + 1) content

theorem read_batch_frame {batch : LogRecord} (h : Fits batch) (rest : Bytes) :
    read_batch (frame batch ++ rest) = .ok (batch, rest) := by
  rw [read_batch, frame, read_record_add_record h.payload]
  dsimp only
  rw [decode_write_batch_encode h]
  rfl

/-- What is read where a file ends. -/
theorem read_batch_broken {batches : List LogRecord} (hfits : ∀ batch ∈ batches, Fits batch) (size : Nat) :
    ∃ status, read_batch (framing.broken frame size batches) = .error status ∧
      status.code = if framing.broken frame size batches = [] then .kNotFound else .kCorruption := by
  rcases framing.broken_cases frame size batches with hnil | ⟨batch, hbatch, m, hm, hbroken⟩
  · rw [hnil]
    exact ⟨_, rfl, rfl⟩
  · rw [hbroken]
    rcases Nat.eq_zero_or_pos m with rfl | hpos
    · exact ⟨_, rfl, rfl⟩
    · have hne : (frame batch).take m ≠ [] := by
        refine List.ne_nil_of_length_pos ?_
        rw [List.length_take_of_le hm.le]
        exact hpos
      rw [if_neg hne, read_batch, frame,
        read_record_broken (hfits batch (List.mem_of_getElem? hbatch)).payload hpos hm]
      exact ⟨_, rfl, rfl⟩

/-- A log that was cut off anywhere is read up to the last batch that is complete, and
    then the reader tells whether the cut fell between two records. The batches are
    assumed to fit the fields of their records. -/
theorem read_batches_take (batches : List LogRecord)
    (hbatches : ∀ batch ∈ batches, batch.seq < 2 ^ 64 ∧ batch.entries.length < 2 ^ 32 ∧
      (encode_write_batch batch).length < 2 ^ 32) (size : Nat) :
    ∃ complete status, read_batches ((log_bytes batches).take size) = (batches.take complete, some status) ∧
      (∀ i ≤ batches.length, i ≤ complete ↔ (log_bytes (batches.take i)).length ≤ size) ∧
      ((∃ i, (log_bytes batches).take size = log_bytes (batches.take i)) → status.code = .kNotFound) ∧
      ((¬ ∃ i, (log_bytes batches).take size = log_bytes (batches.take i)) → status.code = .kCorruption) := by
  have hfits : ∀ batch ∈ batches, Fits batch := fun batch hbatch =>
    ⟨(hbatches batch hbatch).1, (hbatches batch hbatch).2.2⟩
  have hread : ∀ batch ∈ framing.whole frame size batches, ∀ rest, read_batch (frame batch ++ rest) = .ok (batch, rest) :=
    fun batch hbatch => read_batch_frame (hfits batch (framing.mem_of_mem_whole _ hbatch))
  obtain ⟨status, htail, hcode⟩ := read_batch_broken hfits size
  refine ⟨(framing.whole frame size batches).length, status, ?_, fun i hi => framing.le_length_whole_iff frame hi, ?_, ?_⟩
  · rw [read_batches, log_bytes, framing.take_flatMap, ← framing.whole_eq_take]
    exact framing.read_all_stream (fun batch _ => frame_ne_nil batch) hread htail (Nat.lt_succ_self _)
  · intro hbetween
    rw [hcode, if_pos ((framing.broken_eq_nil_iff frame).mpr hbetween)]
  · intro hinside
    rw [hcode, if_neg (mt (framing.broken_eq_nil_iff frame).mp hinside)]

/-- Two batches, and a file that breaks off in the second one. -/
theorem read_batches_take_second :
    ∃ complete status, read_batches ((log_bytes [⟨1, [(.kTypeValue, [97], [1, 2])]⟩, ⟨2, [(.kTypeDeletion, [97], [])]⟩]).take 40) =
        ([⟨1, [(.kTypeValue, [97], [1, 2])]⟩, ⟨2, [(.kTypeDeletion, [97], [])]⟩].take complete, some status) ∧
      (∀ i ≤ 2, i ≤ complete ↔
        (log_bytes ([⟨1, [(.kTypeValue, [97], [1, 2])]⟩, ⟨2, [(.kTypeDeletion, [97], [])]⟩].take i)).length ≤ 40) ∧
      ((∃ i, (log_bytes [⟨1, [(.kTypeValue, [97], [1, 2])]⟩, ⟨2, [(.kTypeDeletion, [97], [])]⟩]).take 40 =
        log_bytes ([⟨1, [(.kTypeValue, [97], [1, 2])]⟩, ⟨2, [(.kTypeDeletion, [97], [])]⟩].take i)) →
          status.code = .kNotFound) ∧
      ((¬ ∃ i, (log_bytes [⟨1, [(.kTypeValue, [97], [1, 2])]⟩, ⟨2, [(.kTypeDeletion, [97], [])]⟩]).take 40 =
        log_bytes ([⟨1, [(.kTypeValue, [97], [1, 2])]⟩, ⟨2, [(.kTypeDeletion, [97], [])]⟩].take i)) →
          status.code = .kCorruption) :=
  read_batches_take [⟨1, [(.kTypeValue, [97], [1, 2])]⟩, ⟨2, [(.kTypeDeletion, [97], [])]⟩] (by decide) 40

end lsmkv.wal
