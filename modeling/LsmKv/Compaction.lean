import LsmKv.Lib.Merge
import LsmKv.Version

namespace lsmkv

/-- The inputs as (level, number) pairs and the metadata of the output table. -/
structure CompactionResult where
  inputs : List (Fin kNumLevels × Nat)
  output : FileMetaData
deriving DecidableEq, Repr

def file_overlaps_range (f : FileMetaData) (smallest largest : Bytes) : Bool :=
  if extract_user_key f.largest < smallest then false
  else if largest < extract_user_key f.smallest then false
  else true

def widen_range (range : Bytes × Bytes) (f : FileMetaData) : Bytes × Bytes :=
  (if extract_user_key f.smallest < range.1 then extract_user_key f.smallest else range.1,
    if range.2 < extract_user_key f.largest then extract_user_key f.largest else range.2)

/-- The user-key range of the level-0 files. Both ends stay empty when there are none. -/
def level0_range : List FileMetaData → Bytes × Bytes
  | [] => ([], [])
  | f :: fs => fs.foldl widen_range (extract_user_key f.smallest, extract_user_key f.largest)

/-- The level-1 files that the merge takes in. -/
def level1_inputs (current : Version) : List FileMetaData :=
  let range := level0_range current.files0
  current.files1.filter fun f => file_overlaps_range f range.1 range.2

def open_tables (d : Disk) (dbname : String) :
    List FileMetaData → Except Status (List (List (InternalKey × Bytes)))
  | [] => .ok []
  | f :: fs => do
    let table ← SSTable.open_file d dbname f.number
    let tables ← open_tables d dbname fs
    .ok (table :: tables)

/-- Merges all of level 0 with the overlapping part of level 1. The entries
    written are returned with the result; tombstones are kept. -/
def compact_level0 (options : Options) (d : Disk) (dbname : String) (current : Version)
    (output_number : Nat) : Except Status (CompactionResult × List (InternalKey × Bytes)) := do
  let tables0 ← open_tables d dbname current.files0
  let tables1 ← open_tables d dbname (level1_inputs current)
  let tables := tables0 ++ tables1
  let merged := versioned.mergeNewest tables.flatten.length none tables
  .ok ({ inputs := current.files0.map (fun f => (0, f.number)) ++
            (level1_inputs current).map (fun f => (1, f.number))
         output := SSTableBuilder.build options merged output_number },
    merged)

end lsmkv
