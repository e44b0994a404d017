import LsmKv.Lib.Cursor
import LsmKv.SSTable.TableRead

open lsmkv.encoding

namespace lsmkv

open List Option

namespace SSTable

/-- What a file was written with: its data blocks, each with the number of entries that stand
    ahead of the damage in it, and the number of blocks that the index still lists. -/
structure Contents where
  blocks : List (Part × Nat)
  listed : Nat

namespace Contents

def stored (c : Contents) : List (Bytes × Bytes) := c.blocks.flatMap fun w => w.1.entries

/-- An iterator ends at a block whose first entry is lost, and skips the damaged end of a block
    that still has one. -/
def readableBlocks : List (Part × Nat) → List (Bytes × Bytes)
  | [] => []
  | w :: blocks => if w.1.entries.take w.2 = [] then [] else w.1.entries.take w.2 ++ readableBlocks blocks

def readable (c : Contents) : List (Bytes × Bytes) := readableBlocks (c.blocks.take c.listed)

end Contents

namespace Image

/-- The entries that an iterator over a block returns: none when the block fails its checksum,
    and those ahead of the first entry that cannot be decoded. -/
def Reads (t : Image) (offset size : Nat) (es : List (Bytes × Bytes)) : Prop :=
  match t.read_block offset size with
  | .error _ => es = []
  | .ok data =>
    cursor.Yields Block.Iterator.current Block.Iterator.next (Block.new data).new_iterator.seek_to_first es

variable {t : Image} {offset size : Nat} {es : List (Bytes × Bytes)}

/-- A block whose trailer is refused has no entries to return. -/
theorem Reads.cases (h : t.Reads offset size es) :
    (es = [] ∧ ∃ s, t.read_block offset size = .error s ∨
        ∃ data, t.read_block offset size = .ok data ∧ (Block.new data).status = some s) ∨
      ∃ data, t.read_block offset size = .ok data ∧ (Block.new data).status = none ∧
        cursor.Yields Block.Iterator.current Block.Iterator.next (Block.new data).new_iterator.seek_to_first es := by
  unfold Reads at h
  split at h
  · next s hread => exact .inl ⟨h, s, .inl hread⟩
  · next data hread =>
    cases hstatus : (Block.new data).status with
    | none => exact .inr ⟨data, hread, hstatus, h⟩
    | some s =>
      refine .inl ⟨h.eq_nil ?_, s, .inr ⟨data, hread, hstatus⟩⟩
      have hnot : (Block.new data).new_iterator.status ≠ none := by
        rw [Block.new_iterator, hstatus]
        exact some_ne_none s
      rw [Block.Iterator.seek_to_first, if_pos hnot]
      rfl

namespace Iterator

variable {it : Iterator} {i : Block.Iterator}

end Iterator

end Image

end SSTable

end lsmkv
