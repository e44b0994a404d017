import LsmKv.SSTable.Block

open lsmkv.encoding

namespace lsmkv

namespace SSTable

def kFooterSize : Nat := 20

/-- An open table: the file in memory and the handle of its index block. -/
structure Image where
  file_data : Bytes
  index_offset : Nat
  index_size : Nat
deriving DecidableEq, Repr

namespace Image

/-- What `SSTable::Open` does with the contents of a file that it could read. -/
def open_data (file_data : Bytes) : Except Status Image :=
  if file_data.length < kFooterSize then .error (.Corruption "sstable too small")
  else
    let footer := file_data.drop (file_data.length - kFooterSize)
    if decode_fixed32 (footer.drop 16) ≠ SSTableBuilder.kTableMagic then .error (.Corruption "bad sstable magic")
    else .ok { file_data, index_offset := decode_fixed64 footer, index_size := decode_fixed64 (footer.drop 8) }

/-- The end of the block is computed in 64 bits. -/
def read_block (t : Image) (offset size : Nat) : Except Status Bytes :=
  if t.file_data.length < (offset + size + 4) % 2 ^ 64 then .error (.Corruption "block out of range")
  else
    let contents := (t.file_data.drop offset).take size
    let masked := decode_fixed32 (t.file_data.drop (offset + size))
    if (mask_crc (crc32 contents)).toNat ≠ masked then .error (.Corruption "block crc mismatch")
    else .ok contents

/-- The offset and the size of the block that an index value names. -/
def read_handle (t : Image) (handle : Bytes) : Except Status Bytes :=
  if handle.length < 16 then .error (.Corruption "bad handle")
  else t.read_block (decode_fixed64 handle) (decode_fixed64 (handle.drop 8))

/-- What `Get` returns, with its two output parameters. -/
structure Reply where
  status : Except Status Unit
  value : Bytes
  found : Bool
deriving DecidableEq

/-- The checks on the entry that the seek inside a data block found. -/
def check_found (internal_key value : Bytes) : Option (Bytes × Bytes) → Reply
  | none => ⟨.ok (), value, false⟩
  | some (key, found) =>
    if extract_user_key key ≠ extract_user_key internal_key then ⟨.ok (), value, false⟩
    else if extract_sequence internal_key < extract_sequence key then ⟨.ok (), value, false⟩
    else if extract_value_type key = .kTypeDeletion then ⟨.error (.NotFound ""), [], true⟩
    else ⟨.ok (), found, true⟩

/-- Index seek, block handle, data block seek, checks. `value` is what the caller passed in. -/
def get (t : Image) (internal_key value : Bytes) : Reply :=
  match t.read_block t.index_offset t.index_size with
  | .error s => ⟨.error s, value, false⟩
  | .ok index_data =>
    let index := Block.new index_data
    match index.status with
    | some s => ⟨.error s, value, false⟩
    | none =>
      match (index.new_iterator.seek internal_key).current with
      | none => ⟨.ok (), value, false⟩
      | some (_, handle) =>
        match t.read_handle handle with
        | .error s => ⟨.error s, value, false⟩
        | .ok block_data =>
          check_found internal_key value ((Block.new block_data).new_iterator.seek internal_key).current

/-- `index_iter` is missing when the index block could not be read, `data_iter` when there is
    no data block to read from. -/
structure Iterator where
  table : Image
  index_iter : Option Block.Iterator := none
  data_iter : Option Block.Iterator := none
  status : Option Status := none
deriving DecidableEq, Repr

def new_iterator (t : Image) : Iterator :=
  match t.read_block t.index_offset t.index_size with
  | .error s => { table := t, status := some s }
  | .ok index_data =>
    match (Block.new index_data).status with
    | some s => { table := t, status := some s }
    | none => { table := t, index_iter := some (Block.new index_data).new_iterator }

namespace Iterator

/-- The data block that the index iterator stands on. -/
def init_data_block (it : Iterator) : Iterator :=
  match it.index_iter.bind Block.Iterator.current with
  | none => { it with data_iter := none }
  | some (_, handle) =>
    match it.table.read_handle handle with
    | .error s => { it with data_iter := none, status := some s }
    | .ok block_data =>
      match (Block.new block_data).status with
      | some s => { it with data_iter := none, status := some s }
      | none => { it with data_iter := some (Block.new block_data).new_iterator, status := none }

def current (it : Iterator) : Option (Bytes × Bytes) := it.data_iter.bind Block.Iterator.current

def valid (it : Iterator) : Bool := it.current.isSome

/-- Starts the data block on which the index iterator stands. -/
def start_block (it : Iterator) : Iterator :=
  let it := it.init_data_block
  { it with data_iter := it.data_iter.map Block.Iterator.seek_to_first }

/-- Called on a valid iterator only. -/
def next (it : Iterator) : Iterator :=
  let it := { it with data_iter := it.data_iter.map Block.Iterator.next }
  if it.valid then it
  else
    let it := { it with index_iter := it.index_iter.map Block.Iterator.next }
    if (it.index_iter.bind Block.Iterator.current).isSome then it.start_block else it

def seek_to_first (it : Iterator) : Iterator :=
  match it.index_iter with
  | none => it
  | some index => start_block { it with index_iter := some index.seek_to_first }

def seek (it : Iterator) (target : Bytes) : Iterator :=
  match it.index_iter with
  | none => it
  | some index =>
    let it := init_data_block { it with index_iter := some (index.seek target) }
    { it with data_iter := it.data_iter.map fun d => d.seek target }

end Iterator

end Image

end SSTable

end lsmkv
