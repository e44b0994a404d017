import LsmKv.Db

namespace lsmkv

/-- `DBIterator`: the children of its merge with what is left of each, and the entry that it
    stands on. A table that does not open is no child, and the first such error is kept. -/
structure DBIterator where
  children : List (List (InternalKey × Bytes))
  positions : List (List (InternalKey × Bytes))
  snapshot : Nat
  status : Option Status
  entry : Option (Bytes × Bytes)

namespace DBIterator

/-- Opens the tables one after the other. -/
def add_sstables (d : Disk) (dbname : String) :
    List FileMetaData → List (List (InternalKey × Bytes)) × Option Status
  | [] => ([], none)
  | f :: fs =>
    let (tables, status) := add_sstables d dbname fs
    match SSTable.open_file d dbname f.number with
    | .ok entries => (entries :: tables, status)
    | .error s => (tables, some s)

/-- The files in the order in which they are opened. -/
def files (v : Version) : List FileMetaData := v.files0.reverse ++ v.files1

def make (mem : MemTable) (imm : Option MemTable) (version : Version) (d : Disk) (dbname : String) (snapshot : Nat) :
    DBIterator :=
  let (tables, status) := add_sstables d dbname (files version)
  { children := [mem.table] ++ imm.toList.map MemTable.table ++ tables
    positions := [], snapshot := snapshot, status := status, entry := none }

/-- Skips the versions of a user key on which the merge stands. -/
def skip_key (user_key : Bytes) : Nat → List (List (InternalKey × Bytes)) → List (List (InternalKey × Bytes))
  | 0, positions => positions
  | fuel + 1, positions =>
    match versioned.pickBest positions with
    | none => positions
    | some (e, positions') => if e.1.key = user_key then skip_key user_key fuel positions' else positions

/-- The loop of `AdvanceToNextVisibleKey`. Every round takes an entry off the children. -/
def advance_loop (snapshot : Nat) :
    Nat → List (List (InternalKey × Bytes)) → Option (Bytes × Bytes) × List (List (InternalKey × Bytes))
  | 0, positions => (none, positions)
  | fuel + 1, positions =>
    match versioned.pickBest positions with
    | none => (none, positions)
    | some (e, positions') =>
      if snapshot < InternalKey.sequence e.1 then advance_loop snapshot fuel positions'
      else
        let positions' := skip_key e.1.key positions'.flatten.length positions'
        if InternalKey.value_type e.1 = .kTypeDeletion then advance_loop snapshot fuel positions'
        else (some (e.1.key, e.2), positions')

/-- With a table missing nothing is ever shown. -/
def advance (it : DBIterator) : DBIterator :=
  match it.status with
  | some _ => { it with entry := none }
  | none =>
    let (entry, positions) := advance_loop it.snapshot it.positions.flatten.length it.positions
    { it with entry := entry, positions := positions }

def seek_to_first (it : DBIterator) : DBIterator := advance { it with positions := it.children }

/-- Every child is moved to its first entry at or after the lookup key. -/
def seek (it : DBIterator) (target : Bytes) : DBIterator :=
  let ikey := make_lookup_key target it.snapshot
  advance { it with positions := it.children.map (List.dropWhile fun e => e.1.Precedes ikey) }

def next (it : DBIterator) : DBIterator := it.advance

/-- What a loop over the iterator shows, from where it stands until it is no longer valid. -/
inductive Yields : DBIterator → List (Bytes × Bytes) → Prop where
  | done {it : DBIterator} (hentry : it.entry = none) : Yields it []
  | item {it : DBIterator} {kv : Bytes × Bytes} {rest : List (Bytes × Bytes)} (hentry : it.entry = some kv)
      (hrest : Yields it.next rest) : Yields it (kv :: rest)

end DBIterator

/-- `NewIterator` with nothing in between. -/
def DBImpl.new_iterator (db : DBImpl) (d : Disk) (read_snapshot : Nat := 0) : DBIterator :=
  DBIterator.make db.mem db.imm db.versions.current d db.dbname
    (if read_snapshot ≠ 0 then read_snapshot else db.versions.last_sequence)

end lsmkv
