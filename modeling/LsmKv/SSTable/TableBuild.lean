import LsmKv.SSTable.BlockBuild
import LsmKv.SSTable.TableFormat

open lsmkv.encoding
open lsmkv.SSTable

namespace lsmkv

open List

namespace SSTableBuilder

def add_all (b : SSTableBuilder) (es : List (Bytes × Bytes)) : SSTableBuilder := es.foldl (fun b e => b.add e.1 e.2) b

/-- The file that the builder leaves behind. -/
def file (options : Options) (es : List (Bytes × Bytes)) : Bytes :=
  (add_all { options } es).finish.1.out

/-- The sizes of the blocks that are written while entries are added and the table is finished,
    that of the index block last. -/
def block_sizes (b : SSTableBuilder) : List (Bytes × Bytes) → List Nat
  | [] => (if b.data_block.buffer = [] then [] else [b.data_block.finish.length]) ++
      [b.flush_data_block.add_pending_index_entry.index_block.finish.length]
  | e :: es => (b.add e.1 e.2).pending_index_entry.toList.map (fun handle => handle.2.2) ++
      (b.add e.1 e.2).block_sizes es

/-- A block with its checksum. -/
def framed (contents : Bytes) : Bytes := contents ++ put_fixed32 (mask_crc (crc32 contents)).toNat

/-- The contents of a data block with these entries. -/
def contents (restart_interval : Int) (es : List (Bytes × Bytes)) : Bytes :=
  (BlockBuilder.add_all { restart_interval } es).finish

/-- A file that holds a block at its handle. -/
def Stored (out data : Bytes) (offset : Nat) : Prop :=
  ∃ front back, out = front ++ (framed data ++ back) ∧ front.length = offset

theorem Stored.append {out data : Bytes} {offset : Nat} (h : Stored out data offset) (more : Bytes) :
    Stored (out ++ more) data offset := by
  obtain ⟨front, back, rfl, hlength⟩ := h
  exact ⟨front, back ++ more, by simp only [append_assoc], hlength⟩

/-- A builder that has written these blocks and holds the entries of the next one. -/
structure Written (b : SSTableBuilder) (parts : List Part) (current : List (Bytes × Bytes)) : Prop where
  data : b.data_block = BlockBuilder.add_all { restart_interval := b.options.block_restart_interval } current
  index : b.add_pending_index_entry.index_block =
    BlockBuilder.add_all { restart_interval := 1 } (parts.map Part.index_entry)
  pending : b.pending_index_entry ≠ none → current = []
  last_key : current ≠ [] → b.last_key = Block.lastKey [] current
  offset : b.offset = b.out.length
  length : b.out.length = (parts.map fun p => p.size + 4).sum
  stored : ∀ p ∈ parts, p.entries ≠ [] ∧
    p.size = (contents b.options.block_restart_interval p.entries).length ∧
    Stored b.out (contents b.options.block_restart_interval p.entries) p.offset

variable {b : SSTableBuilder} {parts : List Part} {current : List (Bytes × Bytes)}

theorem written_empty (options : Options) : Written { options } [] [] :=
  ⟨rfl, rfl, fun hne => absurd rfl hne, fun hne => absurd rfl hne, rfl, rfl, by simp⟩

/-- Listing the pending block touches nothing but the index. -/
theorem add_pending_index_entry_eq (b : SSTableBuilder) : b.add_pending_index_entry =
    { b with index_block := b.add_pending_index_entry.index_block, pending_index_entry := none } := by
  unfold add_pending_index_entry
  split
  · next hnone => rw [← hnone]
  · rfl

theorem Written.add_pending_index_entry (h : b.Written parts current) :
    b.add_pending_index_entry.Written parts current ∧ b.add_pending_index_entry.pending_index_entry = none := by
  rw [b.add_pending_index_entry_eq]
  exact ⟨⟨h.data, h.index, fun hne => absurd rfl hne, h.last_key, h.offset, h.length, h.stored⟩, rfl⟩

/-- The block that a flush writes. -/
def flushed (b : SSTableBuilder) (current : List (Bytes × Bytes)) : Part :=
  ⟨current, b.offset, b.data_block.finish.length⟩

theorem Written.flush (h : b.Written parts current) (hne : current ≠ []) :
    b.flush_data_block.Written (parts ++ [b.flushed current]) [] ∧
      b.flush_data_block.pending_index_entry = some (b.last_key, b.offset, b.data_block.finish.length) := by
  have hpending : b.pending_index_entry = none := by
    by_contra hsome
    exact hne (h.pending hsome)
  have hbuffer : b.data_block.buffer ≠ [] := by
    rw [h.data]
    exact mt BlockBuilder.add_all_buffer_eq_nil.mp hne
  have hlisted : b.index_block = BlockBuilder.add_all { restart_interval := 1 } (parts.map Part.index_entry) := by
    rw [← h.index, SSTableBuilder.add_pending_index_entry, hpending]
  have hcontents : b.data_block.finish = contents b.options.block_restart_interval current := by rw [h.data, contents]
  rw [flush_data_block, if_neg hbuffer]
  refine ⟨⟨?_, ?_, fun _ => rfl, fun hcontra => absurd rfl hcontra, ?_, ?_, ?_⟩, rfl⟩
  · simp only [write_block, h.data, BlockBuilder.add_all_restart_interval]
    rfl
  · simp only [write_block, SSTableBuilder.add_pending_index_entry, map_append, BlockBuilder.add_all_append]
    rw [hlisted, h.last_key hne]
    rfl
  · simp only [write_block, h.offset, length_append]
    omega
  · simp only [write_block, length_append, map_append, sum_append, h.length, put_fixed32_length,
      map_cons, map_nil, sum_cons, sum_nil, flushed]
    omega
  · simp only [write_block]
    rw [append_assoc, hcontents]
    intro p hp
    rcases mem_append.mp hp with hp | hp
    · obtain ⟨hentries, hsize, hstored⟩ := h.stored p hp
      exact ⟨hentries, hsize, hstored.append _⟩
    · obtain rfl := mem_singleton.mp hp
      exact ⟨hne, congrArg List.length hcontents, b.out, [], by simp [framed, flushed], h.offset.symm⟩

/-- One entry more: it joins the current block, which may then be written. -/
theorem Written.add (h : b.Written parts current) (key value : Bytes) :
    ∃ parts' current', (b.add key value).Written parts' current' ∧
      parts'.flatMap Part.entries ++ current' = parts.flatMap Part.entries ++ current ++ [(key, value)] ∧
      parts'.map Part.size = parts.map Part.size ++
        (b.add key value).pending_index_entry.toList.map fun handle => handle.2.2 := by
  obtain ⟨hlisted, hnone⟩ := h.add_pending_index_entry
  have hjoined : ∀ smallest largest, Written { b.add_pending_index_entry with
      smallest := smallest, has_keys := true, largest := largest, last_key := key,
      data_block := b.add_pending_index_entry.data_block.add key value } parts (current ++ [(key, value)]) := by
    intro smallest largest
    refine ⟨?_, ?_, fun hne => absurd hnone hne, fun _ => ?_, hlisted.offset, hlisted.length, hlisted.stored⟩
    · rw [BlockBuilder.add_all_append, ← hlisted.data]
      rfl
    · rw [← hlisted.index, SSTableBuilder.add_pending_index_entry.eq_def, hnone]
      simp only [SSTableBuilder.add_pending_index_entry.eq_def b.add_pending_index_entry, hnone]
    · simp [Block.lastKey]
  rw [SSTableBuilder.add]
  dsimp only
  split
  · obtain ⟨hwritten, hpending⟩ := (hjoined _ _).flush (by simp)
    refine ⟨_, _, hwritten, ?_, ?_⟩
    · simp only [flatMap_append, flatMap_cons, flatMap_nil, flushed, append_nil, append_assoc]
    · rw [hpending, map_append]
      rfl
  · refine ⟨_, _, hjoined _ _, by rw [append_assoc], ?_⟩
    simp only [hnone, Option.toList_none, map_nil, append_nil]

theorem Written.add_all (h : b.Written parts current) (es : List (Bytes × Bytes)) :
    ∃ parts' current', (b.add_all es).Written parts' current' ∧
      parts'.flatMap Part.entries ++ current' = parts.flatMap Part.entries ++ current ++ es ∧
      parts.map Part.size ++ b.block_sizes es = parts'.map Part.size ++ (b.add_all es).block_sizes [] := by
  induction es generalizing b parts current with
  | nil => exact ⟨parts, current, h, by simp, rfl⟩
  | cons e es ih =>
    obtain ⟨parts', current', hadd, hentries, hsizes⟩ := h.add e.1 e.2
    obtain ⟨parts'', current'', hall, hentries', hsizes'⟩ := ih hadd
    refine ⟨parts'', current'', hall, ?_, ?_⟩
    · rw [hentries', hentries, append_assoc]
      rfl
    · calc parts.map Part.size ++ b.block_sizes (e :: es)
        _ = parts'.map Part.size ++ (b.add e.1 e.2).block_sizes es := by
          rw [hsizes, append_assoc]
          rfl
        _ = parts''.map Part.size ++ (b.add_all (e :: es)).block_sizes [] := hsizes'

/-- Everything is written before the index block. -/
theorem Written.flush_all (h : b.Written parts current) :
    ∃ parts', b.flush_data_block.add_pending_index_entry.Written parts' [] ∧
      b.flush_data_block.add_pending_index_entry.index_block =
        BlockBuilder.add_all { restart_interval := 1 } (parts'.map Part.index_entry) ∧
      parts'.flatMap Part.entries = parts.flatMap Part.entries ++ current ∧
      parts.map Part.size ++ b.block_sizes [] = parts'.map Part.size ++
        [(BlockBuilder.add_all { restart_interval := 1 } (parts'.map Part.index_entry)).finish.length] := by
  have hbuffer : b.data_block.buffer = [] ↔ current = [] := by
    rw [h.data]
    exact BlockBuilder.add_all_buffer_eq_nil
  by_cases hcurrent : current = []
  · have hflush : b.flush_data_block = b := by rw [flush_data_block, if_pos (hbuffer.mpr hcurrent)]
    subst hcurrent
    refine ⟨parts, ?_, ?_, by simp, ?_⟩
    · rw [hflush]
      exact h.add_pending_index_entry.1
    · rw [hflush, h.index]
    · rw [block_sizes, if_pos (hbuffer.mpr rfl), hflush, h.index]
      rfl
  · obtain ⟨hflush, hpending⟩ := h.flush hcurrent
    refine ⟨_, hflush.add_pending_index_entry.1, hflush.index, by simp [flushed], ?_⟩
    rw [block_sizes, if_neg (mt hbuffer.mp hcurrent), hflush.index, @List.map_append _ _ Part.size, append_assoc]
    rfl

/-- A block that is stored in a file passes its checksum. -/
theorem Stored.read_block {t : Image} {data : Bytes} {offset : Nat} (h : Stored t.file_data data offset)
    (hlength : t.file_data.length < 2 ^ 64) : t.read_block offset data.length = .ok data := by
  obtain ⟨front, back, hfile, hoffset⟩ := h
  have hcrc : (mask_crc (crc32 data)).toNat < 2 ^ 32 := UInt32.toNat_lt _
  have hend : offset + data.length + 4 ≤ t.file_data.length := by
    rw [hfile, ← hoffset]
    simp only [framed, length_append, put_fixed32_length]
    omega
  have hcontents : (t.file_data.drop offset).take data.length = data := by
    rw [hfile, drop_left' hoffset, framed, append_assoc, take_left]
  have hmasked : decode_fixed32 (t.file_data.drop (offset + data.length)) = (mask_crc (crc32 data)).toNat := by
    rw [← drop_drop, hfile, drop_left' hoffset, framed, append_assoc, drop_left,
      decode_put_fixed32 hcrc]
  rw [Image.read_block, Nat.mod_eq_of_lt (by omega), if_neg (by omega), hcontents, hmasked, if_neg (not_not.mpr rfl)]

/-- The footer points at the index block. -/
theorem open_data_footer (front : Bytes) {index_offset index_size : Nat} (hoffset : index_offset < 2 ^ 64)
    (hsize : index_size < 2 ^ 64) :
    Image.open_data (front ++ (put_fixed64 index_offset ++ put_fixed64 index_size ++ put_fixed32 kTableMagic)) =
      .ok { file_data := front ++ (put_fixed64 index_offset ++ put_fixed64 index_size ++ put_fixed32 kTableMagic)
            index_offset, index_size } := by
  have hlength : (put_fixed64 index_offset ++ put_fixed64 index_size ++ put_fixed32 kTableMagic).length =
      kFooterSize := by
    simp [kFooterSize]
  have hmagic : decode_fixed32 (put_fixed32 kTableMagic) = kTableMagic := by decide
  have hdrop : ∀ footer : Bytes, footer.length = kFooterSize →
      (front ++ footer).drop ((front ++ footer).length - kFooterSize) = footer := by
    intro footer hfooter
    rw [length_append, hfooter, Nat.add_sub_cancel, drop_left]
  have hsecond : (put_fixed64 index_offset ++ put_fixed64 index_size ++ put_fixed32 kTableMagic).drop 8 =
      put_fixed64 index_size ++ put_fixed32 kTableMagic := by
    rw [append_assoc, drop_left' (put_fixed64_length _)]
  have hthird : (put_fixed64 index_offset ++ put_fixed64 index_size ++ put_fixed32 kTableMagic).drop 16 =
      put_fixed32 kTableMagic := drop_left' (by simp)
  rw [Image.open_data, if_neg (by rw [length_append, hlength]; omega)]
  simp only [hdrop _ hlength, hthird, hmagic, ne_eq, not_true_eq_false, if_false, hsecond,
    decode_fixed64_append hsize]
  rw [append_assoc, decode_fixed64_append hoffset]

theorem sum_le_of_size_lt (hsize : ∀ p ∈ parts, p.size < 2 ^ 32) :
    (parts.map fun p => p.size + 4).sum ≤ parts.length * 2 ^ 33 := by
  have hle := sum_le_card_nsmul (parts.map fun p => p.size + 4) (2 ^ 33) (by
    intro n hn
    obtain ⟨p, hp, rfl⟩ := mem_map.mp hn
    have := hsize p hp
    omega)
  rwa [length_map, smul_eq_mul] at hle

theorem finish_out (b : SSTableBuilder) : b.finish.1.out =
    b.flush_data_block.add_pending_index_entry.out ++
      framed b.flush_data_block.add_pending_index_entry.index_block.finish ++
      (put_fixed64 b.flush_data_block.add_pending_index_entry.offset ++
        put_fixed64 b.flush_data_block.add_pending_index_entry.index_block.finish.length ++
        put_fixed32 kTableMagic) := by
  simp only [finish, write_block, framed, append_assoc]

/-- The handles of an index that fits a block are too few for a file of 2 ^ 64 bytes. -/
theorem Written.length_lt (h : b.Written parts current) (hsize : ∀ p ∈ parts, p.size < 2 ^ 32)
    {index_block : BlockBuilder} (hindex : index_block.Holds (parts.map Part.index_entry))
    (hbuffer : index_block.buffer.length < 2 ^ 32) : b.out.length ≤ 2 ^ 61 := by
  have hhandles : ∀ e ∈ parts.map Part.index_entry, 16 ≤ e.2.length := by
    intro e he
    obtain ⟨p, -, rfl⟩ := mem_map.mp he
    simp [Part.index_entry]
  have hcount := hindex.entries.values_le hhandles
  have hsum := sum_le_of_size_lt hsize
  rw [length_map] at hcount
  rw [h.length]
  omega

/-- The file of a table, opened again: its index lists blocks that are undamaged and hold the
    entries in their order. No bound on the file is needed, since its index fits a block. -/
theorem file_lists (options : Options) {es : List (Bytes × Bytes)}
    (hsizes : ∀ size ∈ block_sizes { options } es, size < 2 ^ 32) :
    ∃ t index parts, Image.open_data (file options es) = .ok t ∧ t.Lists index parts ∧
      (∀ p ∈ parts, (t.read_block p.offset p.size).isOk = true) ∧ parts.flatMap Part.entries = es := by
  obtain ⟨parts₀, current, hall, hentries₀, hsizes₀⟩ := (written_empty options).add_all es
  obtain ⟨parts, hwritten, hindex, hentries, hsizes₁⟩ := hall.flush_all
  rw [map_nil, nil_append] at hsizes₀
  rw [flatMap_nil, nil_append, nil_append] at hentries₀
  have hall' : ∀ size ∈ parts.map Part.size ++
      [(BlockBuilder.add_all { restart_interval := 1 } (parts.map Part.index_entry)).finish.length], size < 2 ^ 32 := by
    rw [← hsizes₁, ← hsizes₀]
    exact hsizes
  have hfile := (add_all { options } es).finish_out
  rw [hindex] at hfile
  generalize (add_all { options } es).flush_data_block.add_pending_index_entry = b at hwritten hfile
  generalize hcontents : BlockBuilder.add_all { restart_interval := 1 } (parts.map Part.index_entry) = index_block
    at hfile hall'
  have hindexSize : index_block.finish.length < 2 ^ 32 := hall' _ (by simp)
  have hpartSize : ∀ p ∈ parts, p.size < 2 ^ 32 := fun p hp => hall' _ (by simp [mem_map_of_mem hp])
  have hbuffer : ∀ block : BlockBuilder, block.finish.length < 2 ^ 32 → block.buffer.length < 2 ^ 32 := by
    intro block hfinish
    rw [block.finish_length, BlockBuilder.current_size_estimate] at hfinish
    omega
  have hindexHolds : index_block.Holds (parts.map Part.index_entry) := by
    subst hcontents
    exact BlockBuilder.holds_add_all 1 (hbuffer _ hindexSize)
  have hout := hwritten.length_lt hpartSize hindexHolds (hbuffer _ hindexSize)
  have hoffset := hwritten.offset
  have hlength : (file options es).length < 2 ^ 64 := by
    rw [file, hfile]
    simp only [framed, length_append, put_fixed64_length, put_fixed32_length]
    omega
  have hopen := open_data_footer (b.out ++ framed index_block.finish) (show b.offset < 2 ^ 64 by omega)
    (show index_block.finish.length < 2 ^ 64 by omega)
  rw [← hfile] at hopen
  -- each block is where its handle says
  have hstored : ∀ p ∈ parts, Stored (file options es) (contents b.options.block_restart_interval p.entries) p.offset := by
    intro p hp
    rw [file, hfile, append_assoc]
    exact (hwritten.stored p hp).2.2.append _
  have hread : ∀ p ∈ parts, Image.read_block ⟨file options es, b.offset, index_block.finish.length⟩ p.offset p.size =
      .ok (contents b.options.block_restart_interval p.entries) := by
    intro p hp
    rw [(hwritten.stored p hp).2.1]
    exact Stored.read_block (hstored p hp) hlength
  have hindexStored : Stored (file options es) index_block.finish b.offset :=
    ⟨b.out, _, by rw [file, hfile, append_assoc], hoffset.symm⟩
  refine ⟨_, Block.new index_block.finish, parts, hopen, ⟨⟨?_, ?_, ?_⟩, ⟨_, hindexStored.read_block hlength, rfl⟩, ?_⟩,
    ?_, ?_⟩
  · exact fun p hp => (hwritten.stored p hp).1
  · intro p hp
    have hpartOffset : p.offset ≤ b.out.length := by
      obtain ⟨front, back, heq, hfront⟩ := (hwritten.stored p hp).2.2
      rw [heq, length_append]
      omega
    have := hpartSize p hp
    omega
  · intro p hp data hdata
    rw [file] at hread
    have heq := (hread p hp).symm.trans hdata
    obtain rfl := Except.ok.inj heq
    have hsize : (contents b.options.block_restart_interval p.entries).length < 2 ^ 32 :=
      (hwritten.stored p hp).2.1 ▸ hpartSize p hp
    exact (BlockBuilder.holds_add_all _ (hbuffer _ hsize)).finish hsize
  · exact hindexHolds.finish hindexSize
  · intro p hp
    rw [file] at hread
    rw [hread p hp]
    rfl
  · rw [hentries, hentries₀]

end SSTableBuilder

end lsmkv
