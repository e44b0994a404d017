import LsmKv.SSTable.Builder
import LsmKv.Status

open lsmkv.encoding

namespace lsmkv

/-- A block image as a table file holds it; `status` is `none` when its trailer was accepted. -/
structure Block where
  data : Bytes
  restart_offset : Nat := 0
  status : Option Status := none
deriving DecidableEq, Repr

namespace Block

/-- The last word of a block. -/
def trailer (data : Bytes) : Nat := decode_fixed32 (data.drop (data.length - 4))

/-- The restart array stands before the trailer that counts it. Its offset is computed in
    32 bits and may wrap around. -/
def new (data : Bytes) : Block :=
  if data.length < 4 then { data, status := some (.Corruption "block too small") }
  else
    let restart_offset := (UInt32.ofNat data.length - 4 - UInt32.ofNat (trailer data) * 4).toNat
    if data.length - 4 < restart_offset then
      { data, restart_offset, status := some (.Corruption "bad restart offset") }
    else { data, restart_offset }

def num_restarts (block : Block) : Nat := trailer block.data

def restart_point (block : Block) (index : Nat) : Nat :=
  decode_fixed32 (block.data.drop (block.restart_offset + index * 4))

/-- The three lengths at the head of an entry, and the bytes that follow them. -/
def entry_header (input : Bytes) : Option (Nat × Nat × Nat × Bytes) := do
  let (shared, q) ← get_varint32 input
  let (non_shared, q) ← get_varint32 q
  let (value_len, q) ← get_varint32 q
  return (shared, non_shared, value_len, q)

/-- Positions are offsets into the block. The slice `key_` is all of `key_buf_` whenever it is read. -/
structure Iterator where
  block : Block
  p : Nat := 0
  limit : Nat := 0
  key_buf : Bytes := []
  value : Bytes := []
  valid : Bool := false
  status : Option Status := none
deriving DecidableEq, Repr

def new_iterator (block : Block) : Iterator := { block, status := block.status }

namespace Iterator

/-- The bytes from the position to the limit. -/
def region (it : Iterator) : Bytes := (it.block.data.take it.limit).drop it.p

def bad_entry (it : Iterator) : Iterator :=
  { it with valid := false, status := some (.Corruption "bad block entry") }

/-- Decodes one entry; the key is rebuilt from the one before it. The two lengths are added
    in 32 bits. -/
def parse_next (it : Iterator) : Iterator :=
  if it.limit ≤ it.p then { it with valid := false }
  else
    match entry_header it.region with
    | none => it.bad_entry
    | some (shared, non_shared, value_len, q) =>
      if q.length < (non_shared + value_len) % 2 ^ 32 ∨ it.key_buf.length < shared then it.bad_entry
      else
        { it with
          key_buf := it.key_buf.take shared ++ q.take non_shared
          value := (q.drop non_shared).take value_len
          p := it.limit - q.length + non_shared + value_len
          valid := true }

def next (it : Iterator) : Iterator := it.parse_next

/-- Moves to a restart point, where the next key is stored in full. -/
def to_restart (it : Iterator) (index : Nat) : Iterator :=
  parse_next { it with
    p := it.block.restart_point index
    limit := it.block.restart_offset
    key_buf := [] }

def seek_to_first (it : Iterator) : Iterator :=
  if it.status ≠ none then { it with valid := false } else it.to_restart 0

/-- The key at a restart point. The source does not look at the outcome of its reads, which
    fail only in a block that no builder wrote. -/
def restart_key (it : Iterator) (index : Nat) : Bytes :=
  match entry_header ((it.block.data.take it.block.restart_offset).drop (it.block.restart_point index)) with
  | none => []
  | some (_, non_shared, _, q) => q.take non_shared

/-- The binary search over the restart keys. `right` is enough fuel. -/
def search (it : Iterator) (target : Bytes) : Nat → Nat → Nat → Nat
  | 0, left, _ => left
  | fuel + 1, left, right =>
    if left + 1 < right then
      let mid := (left + right) % 2 ^ 32 / 2
      if compare_internal_key (it.restart_key mid) target = .lt then search it target fuel mid right
      else search it target fuel left mid
    else left

/-- The linear scan; every round consumes at least three bytes. -/
def skip (target : Bytes) : Nat → Iterator → Iterator
  | 0, it => it
  | fuel + 1, it =>
    if it.valid ∧ compare_internal_key it.key_buf target = .lt then skip target fuel it.parse_next else it

def seek (it : Iterator) (target : Bytes) : Iterator :=
  if it.status ≠ none then { it with valid := false }
  else
    let left := it.search target it.block.num_restarts 0 it.block.num_restarts
    skip target it.block.restart_offset (it.to_restart left)

/-- The entry an iterator stands on. -/
def current (it : Iterator) : Option (Bytes × Bytes) :=
  if it.valid then some (it.key_buf, it.value) else none

end Iterator

end Block

end lsmkv
