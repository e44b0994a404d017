import LsmKv.InternalKey

open lsmkv.encoding

namespace lsmkv

open List

structure Options where
  create_if_missing : Bool := false
  error_if_exists : Bool := false
  write_buffer_size : Nat := 4 * 1024 * 1024
  block_size : Nat := 4 * 1024
  block_restart_interval : Int := 16
  level0_compaction_trigger : Int := 4
deriving DecidableEq, Repr

/-- Table identity and key bounds; the bounds are encoded internal keys and are
    empty for a table without entries. -/
structure FileMetaData where
  number : Nat := 0
  file_size : Nat := 0
  smallest : Bytes := []
  largest : Bytes := []
deriving DecidableEq, Repr

/-- One bit of the reflected division by the polynomial. -/
def crc_shift_bit (c : UInt32) : UInt32 :=
  if c &&& 1 = 1 then (0xEDB88320 : UInt32) ^^^ (c >>> 1) else c >>> 1

def crc_table (i : UInt32) : UInt32 := crc_shift_bit^[8] i

def crc32_extend (crc : UInt32) (data : Bytes) : UInt32 :=
  let step (c : UInt32) (b : UInt8) : UInt32 :=
    crc_table ((c ^^^ b.toUInt32) &&& 0xFF) ^^^ (c >>> 8)
  data.foldl step (crc ^^^ 0xFFFFFFFF) ^^^ 0xFFFFFFFF

def crc32 (data : Bytes) : UInt32 := crc32_extend 0 data

def mask_crc (crc : UInt32) : UInt32 := ((crc >>> 15) ||| (crc <<< 17)) + 0xA282EAD8

structure BlockBuilder where
  restart_interval : Int
  buffer : Bytes := []
  restarts : List Nat := [0]
  last_key : Bytes := []
  counter : Int := 0

namespace BlockBuilder

def shared_length : Bytes → Bytes → Nat
  | a :: as, b :: bs => if a = b then shared_length as bs + 1 else 0
  | _, _ => 0

/-- Entries share a leading part of the previous key, except at a restart point. -/
def add (block : BlockBuilder) (key value : Bytes) : BlockBuilder :=
  let compress := decide (block.counter < block.restart_interval)
  let shared := if compress then shared_length block.last_key key else 0
  let delta := key.drop shared
  { block with
    buffer := block.buffer ++ put_varint32 (shared % 2 ^ 32) ++ put_varint32 (delta.length % 2 ^ 32) ++
      put_varint32 (value.length % 2 ^ 32) ++ delta ++ value
    restarts := if compress then block.restarts
      else block.restarts ++ [block.buffer.length % 2 ^ 32]
    last_key := block.last_key.take shared ++ delta
    counter := (if compress then block.counter else 0) + 1 }

def finish (block : BlockBuilder) : Bytes :=
  block.buffer ++ block.restarts.flatMap put_fixed32 ++ put_fixed32 (block.restarts.length % 2 ^ 32)

def current_size_estimate (block : BlockBuilder) : Nat :=
  block.buffer.length + block.restarts.length * 4 + 4

end BlockBuilder

/-- `out` is what the builder wrote to its file so far; `pending_index_entry` is
    the last data block written, not yet listed in the index. -/
structure SSTableBuilder where
  options : Options
  out : Bytes := []
  offset : Nat := 0
  data_block : BlockBuilder := { restart_interval := options.block_restart_interval }
  index_block : BlockBuilder := { restart_interval := 1 }
  last_key : Bytes := []
  smallest : Bytes := []
  largest : Bytes := []
  has_keys : Bool := false
  pending_index_entry : Option (Bytes × Nat × Nat) := none

namespace SSTableBuilder

def kTableMagic : Nat := 0xDB04734E

/-- Writes the block contents and their checksum; returns the block's handle,
    which leaves the checksum out. -/
def write_block (b : SSTableBuilder) (block : BlockBuilder) : SSTableBuilder × Nat × Nat :=
  let contents := block.finish
  let trailer := put_fixed32 (mask_crc (crc32 contents)).toNat
  ({ b with
      out := b.out ++ contents ++ trailer
      offset := b.offset + (contents.length + trailer.length) },
    b.offset, contents.length)

def flush_data_block (b : SSTableBuilder) : SSTableBuilder :=
  if b.data_block.buffer = [] then b
  else
    let (b', block_offset, block_size) := b.write_block b.data_block
    { b' with
      data_block := { restart_interval := b.data_block.restart_interval }
      pending_index_entry := some (b.last_key, block_offset, block_size) }

def add_pending_index_entry (b : SSTableBuilder) : SSTableBuilder :=
  match b.pending_index_entry with
  | none => b
  | some (key, offset, size) =>
    { b with
      index_block := b.index_block.add key (put_fixed64 offset ++ put_fixed64 size)
      pending_index_entry := none }

def add (b : SSTableBuilder) (key value : Bytes) : SSTableBuilder :=
  let b := b.add_pending_index_entry
  let b := { b with
    smallest := if b.has_keys then b.smallest else key
    has_keys := true
    largest := key
    last_key := key
    data_block := b.data_block.add key value }
  if b.options.block_size ≤ b.data_block.current_size_estimate then b.flush_data_block else b

def finish (b : SSTableBuilder) : SSTableBuilder × FileMetaData :=
  let b := b.flush_data_block.add_pending_index_entry
  let (b, index_offset, index_size) := b.write_block b.index_block
  let footer := put_fixed64 index_offset ++ put_fixed64 index_size ++ put_fixed32 kTableMagic
  let b := { b with out := b.out ++ footer, offset := b.offset + footer.length }
  (b, { file_size := b.offset, smallest := b.smallest, largest := b.largest })

/-- The metadata of a table built from entries in their order. -/
def build (options : Options) (entries : List (InternalKey × Bytes)) (number : Nat) : FileMetaData :=
  let b : SSTableBuilder :=
    entries.foldl (fun b e => b.add (InternalKey.encode e.1) e.2) { options := options }
  { b.finish.2 with number := number }

section

variable (b : SSTableBuilder)

include b

@[simp] theorem flush_data_block_smallest :
    b.flush_data_block.smallest = b.smallest := by
  unfold flush_data_block
  split <;> rfl

@[simp] theorem flush_data_block_largest :
    b.flush_data_block.largest = b.largest := by
  unfold flush_data_block
  split <;> rfl

@[simp] theorem flush_data_block_has_keys :
    b.flush_data_block.has_keys = b.has_keys := by
  unfold flush_data_block
  split <;> rfl

theorem add_pending_index_entry_bounds :
    b.add_pending_index_entry.smallest = b.smallest ∧ b.add_pending_index_entry.largest = b.largest ∧
      b.add_pending_index_entry.has_keys = b.has_keys := by
  unfold add_pending_index_entry
  split <;> exact ⟨rfl, rfl, rfl⟩

/-- Adding an entry moves the upper bound to it and sets the lower one only
    for the first entry. -/
theorem add_bounds (key value : Bytes) :
    (b.add key value).smallest = (if b.has_keys then b.smallest else key) ∧
      (b.add key value).largest = key ∧ (b.add key value).has_keys = true := by
  obtain ⟨hsmallest, -, hkeys⟩ := b.add_pending_index_entry_bounds
  unfold add
  simp only [hsmallest, hkeys]
  split <;> simp

theorem foldl_add_bounds (entries : List (InternalKey × Bytes)) (hkeys : b.has_keys = true) :
    let b' := entries.foldl (fun b e => b.add (InternalKey.encode e.1) e.2) b
    b'.smallest = b.smallest ∧
      b'.largest = (entries.getLast?.map fun e => InternalKey.encode e.1).getD b.largest := by
  induction entries generalizing b with
  | nil => exact ⟨rfl, rfl⟩
  | cons e entries ih =>
    obtain ⟨hsmallest, hlargest, hkeys'⟩ := b.add_bounds (InternalKey.encode e.1) e.2
    obtain ⟨ihs, ihl⟩ := ih _ hkeys'
    simp only [foldl_cons]
    refine ⟨by rw [ihs, hsmallest, if_pos hkeys], ?_⟩
    rw [ihl, hlargest]
    cases entries with
    | nil => rfl
    | cons e' entries =>
      rw [List.getLast?_cons_cons, List.getLast?_cons]
      rfl

theorem finish_bounds :
    b.finish.2.smallest = b.smallest ∧ b.finish.2.largest = b.largest ∧ 0 < b.finish.2.file_size := by
  obtain ⟨hsmallest, hlargest, -⟩ := b.flush_data_block.add_pending_index_entry_bounds
  refine ⟨?_, ?_, ?_⟩
  · simp only [finish, write_block, hsmallest, flush_data_block_smallest]
  · simp only [finish, write_block, hlargest, flush_data_block_largest]
  · simp only [finish, write_block, length_append, put_fixed64_length]
    omega

end

/-- The bounds of a finished table are its first and its last internal key, and
    every finished table has a size. -/
theorem build_spec (options : Options) (e : InternalKey × Bytes) (entries : List (InternalKey × Bytes))
    (number : Nat) :
    (build options (e :: entries) number).smallest = InternalKey.encode e.1 ∧
      (build options (e :: entries) number).largest =
        InternalKey.encode ((e :: entries).getLast (cons_ne_nil _ _)).1 ∧
      0 < (build options (e :: entries) number).file_size := by
  obtain ⟨hsmallest, hlargest, hkeys⟩ :=
    ({ options := options } : SSTableBuilder).add_bounds (InternalKey.encode e.1) e.2
  obtain ⟨hs, hl⟩ := foldl_add_bounds _ entries hkeys
  obtain ⟨hfs, hfl, hsize⟩ := (entries.foldl (fun b e => b.add (InternalKey.encode e.1) e.2)
    (({ options := options } : SSTableBuilder).add (InternalKey.encode e.1) e.2)).finish_bounds
  refine ⟨hfs.trans (hs.trans hsmallest), ?_, hsize⟩
  refine hfl.trans (hl.trans ?_)
  rw [hlargest]
  cases entries with
  | nil => rfl
  | cons e' entries =>
    rw [getLast_cons (cons_ne_nil _ _), List.getLast?_eq_getLast_of_ne_nil (cons_ne_nil _ _)]
    rfl

theorem build_nil_smallest (options : Options) (number : Nat) :
    (build options [] number).smallest = [] := by
  exact (({ options := options } : SSTableBuilder).finish_bounds).1

end SSTableBuilder

end lsmkv
