import LsmKv.Status
import LsmKv.SSTable.Builder
import LsmKv.MemTable

namespace lsmkv

open Function

abbrev kNumLevels : Nat := 2

instance kNumLevels_neZero : NeZero kNumLevels := ⟨two_ne_zero⟩

/-- One record of the manifest; a field is `none` when its `has_` flag is off. -/
structure VersionEdit where
  next_file_number : Option Nat := none
  last_sequence : Option Nat := none
  log_number : Option Nat := none
  deleted_files : List (Fin kNumLevels × Nat) := []
  added_files : List (Fin kNumLevels × FileMetaData) := []
deriving DecidableEq, Repr

/-- The live tables: `files0` in the order of their flushes, `files1` by their
    smallest user key. -/
structure Version where
  files0 : List FileMetaData := []
  files1 : List FileMetaData := []
deriving DecidableEq, Repr

namespace Version

def files (v : Version) : Fin kNumLevels → List FileMetaData
  | 0 => v.files0
  | 1 => v.files1

def set_files (v : Version) (level : Fin kNumLevels) (fs : List FileMetaData) : Version :=
  match level with
  | 0 => { v with files0 := fs }
  | 1 => { v with files1 := fs }

def delete_file (v : Version) (d : Fin kNumLevels × Nat) : Version :=
  v.set_files d.1 ((v.files d.1).filter fun f => f.number ≠ d.2)

def push_file (v : Version) (a : Fin kNumLevels × FileMetaData) : Version :=
  v.set_files a.1 (v.files a.1 ++ [a.2])

def smallest_le (x y : FileMetaData) : Prop := extract_user_key x.smallest ≤ extract_user_key y.smallest

instance : DecidableRel smallest_le := fun _ _ => inferInstanceAs (Decidable (_ ≤ _))

instance : Std.Total smallest_le := ⟨fun _ _ => le_total _ _⟩

instance : IsTrans FileMetaData smallest_le := ⟨fun _ _ _ => le_trans⟩

def sort_level1 (v : Version) : Version :=
  { v with files1 := v.files1.insertionSort smallest_le }

/-- Adding to level 1 sorts that level again. -/
def add_file (v : Version) (a : Fin kNumLevels × FileMetaData) : Version :=
  if a.1 = 1 then (v.push_file a).sort_level1 else v.push_file a

def live (v : Version) : List Nat := (v.files0 ++ v.files1).map FileMetaData.number

end Version

/-- A write batch as the log holds it: the first sequence number and the entries
    with their type, key and value. -/
structure LogRecord where
  seq : Nat
  entries : List (ValueType × Bytes × Bytes)
deriving DecidableEq, Repr

/-- Where a record breaks off at the end of a log. -/
inductive TornRecord where
  | header
  | payload
deriving DecidableEq, Repr

/-- A log file: its whole records, and the broken one that may follow them. -/
structure LogFile where
  records : List LogRecord := []
  torn : Option TornRecord := none
deriving DecidableEq, Repr

/-- A table file: created and still empty, or finished with its entries. -/
inductive TableFile where
  | created
  | finished (entries : List (InternalKey × Bytes))
deriving DecidableEq, Repr

/-- The database directory. `current` is the manifest number that CURRENT names. -/
structure Disk where
  current : Option Nat := none
  manifests : Nat → Option (List VersionEdit) := fun _ => none
  logs : Nat → Option LogFile := fun _ => none
  tables : Nat → Option TableFile := fun _ => none

/-- The file operations of the store, each on one file. -/
inductive FileOp where
  | write_manifest (n : Nat) (edit : VersionEdit)
  | write_current (n : Nat)
  | append_manifest (n : Nat) (edit : VersionEdit)
  | open_log (n : Nat)
  | append_log (n : Nat) (records : List LogRecord)
  | create_table (n : Nat)
  | finish_table (n : Nat) (entries : List (InternalKey × Bytes))
  | remove_table (n : Nat)
deriving DecidableEq, Repr

namespace Disk

/-- Logs are opened for appending and keep what they hold; tables and manifests
    are truncated when they are created. -/
def apply (d : Disk) : FileOp → Disk
  | .write_manifest n edit => { d with manifests := update d.manifests n (some [edit]) }
  | .write_current n => { d with current := some n }
  | .append_manifest n edit =>
    { d with manifests := update d.manifests n (some ((d.manifests n).getD [] ++ [edit])) }
  | .open_log n => { d with logs := update d.logs n (some ((d.logs n).getD {})) }
  | .append_log n records =>
    let log := (d.logs n).getD {}
    { d with logs := update d.logs n (some { log with records := log.records ++ records }) }
  | .create_table n => { d with tables := update d.tables n (some .created) }
  | .finish_table n entries => { d with tables := update d.tables n (some (.finished entries)) }
  | .remove_table n => { d with tables := update d.tables n none }

def apply_all (d : Disk) (ops : List FileOp) : Disk := ops.foldl apply d

@[simp] theorem apply_all_nil (d : Disk) : d.apply_all [] = d := rfl

@[simp] theorem apply_all_cons (d : Disk) (op : FileOp) (ops : List FileOp) :
    d.apply_all (op :: ops) = (d.apply op).apply_all ops := rfl

theorem apply_all_append (d : Disk) (ops ops' : List FileOp) :
    d.apply_all (ops ++ ops') = (d.apply_all ops).apply_all ops' := List.foldl_append

end Disk

def table_file_name (dbname : String) (number : Nat) : String := dbname ++ "/" ++ toString number ++ ".sst"

namespace SSTable

/-- Opening a table reads its footer; a file that was created and not finished is
    shorter than one. -/
def open_file (d : Disk) (dbname : String) (number : Nat) : Except Status (List (InternalKey × Bytes)) :=
  match d.tables number with
  | none => .error (.IOError ("cannot open sstable: " ++ table_file_name dbname number))
  | some .created => .error (.Corruption "sstable too small")
  | some (.finished entries) => .ok entries

/-- The snapshot is the sequence number of the lookup key itself. -/
def get (entries : List (InternalKey × Bytes)) (internal_key : InternalKey) : Option (Option Bytes) :=
  check_entry internal_key.key (InternalKey.sequence internal_key) (versioned.seek entries internal_key)

end SSTable

namespace Version

/-- The loop of `Version::Get` over the files in the order they are probed. -/
def get_loop (d : Disk) (dbname : String) (user_key : Bytes) (lkey : InternalKey) :
    List FileMetaData → Except Status (Option (Option Bytes))
  | [] => .ok none
  | f :: fs =>
    if user_key < extract_user_key f.smallest then get_loop d dbname user_key lkey fs
    else if extract_user_key f.largest < user_key then get_loop d dbname user_key lkey fs
    else do
      let table ← SSTable.open_file d dbname f.number
      match SSTable.get table lkey with
      | some found => .ok (some found)
      | none => get_loop d dbname user_key lkey fs

/-- Newest first within each level, level 0 before level 1. -/
def get (v : Version) (d : Disk) (dbname : String) (user_key : Bytes) (snapshot : Nat) :
    Except Status Bytes := do
  match ← get_loop d dbname user_key (make_lookup_key user_key snapshot)
      (v.files0.reverse ++ v.files1.reverse) with
  | some (some value) => .ok value
  | some none => .error (.NotFound "")
  | none => .error (.NotFound "")

end Version

structure VersionSet where
  current : Version := {}
  next_file_number : Nat := 2
  last_sequence : Nat := 0
  log_number : Nat := 0
  manifest_file_number : Nat := 1
deriving DecidableEq, Repr

namespace VersionSet

def take_file_number (vs : VersionSet) : VersionSet :=
  { vs with next_file_number := vs.next_file_number + 1 }

def write_snapshot (vs : VersionSet) : VersionEdit where
  next_file_number := some vs.next_file_number
  last_sequence := some vs.last_sequence
  log_number := some vs.log_number
  added_files := vs.current.files0.map (fun f => (0, f)) ++ vs.current.files1.map (fun f => (1, f))

def new_db : VersionSet × List FileOp :=
  let vs : VersionSet := { manifest_file_number := 1, next_file_number := 2 }
  (vs, [.write_manifest vs.manifest_file_number vs.write_snapshot, .write_current vs.manifest_file_number])

/-- Counters are merged, deletions come before additions, and the edit reaches
    the manifest before the new version is published. -/
def log_and_apply (vs : VersionSet) (edit : VersionEdit) : VersionSet × List FileOp :=
  ({ vs with
      next_file_number := max vs.next_file_number (edit.next_file_number.getD 0)
      last_sequence := max vs.last_sequence (edit.last_sequence.getD 0)
      log_number := edit.log_number.getD vs.log_number
      current := edit.added_files.foldl Version.add_file
        (edit.deleted_files.foldl Version.delete_file vs.current) },
    [.append_manifest vs.manifest_file_number edit])

/-- One manifest record replayed by `Recover`, which assigns the counters and
    leaves the sorting of level 1 to the end. -/
def recover_edit (vs : VersionSet) (edit : VersionEdit) : VersionSet :=
  { vs with
    next_file_number := edit.next_file_number.getD vs.next_file_number
    last_sequence := edit.last_sequence.getD vs.last_sequence
    log_number := edit.log_number.getD vs.log_number
    current := edit.added_files.foldl Version.push_file
      (edit.deleted_files.foldl Version.delete_file vs.current) }

def recover (d : Disk) (dbname : String) : Except Status VersionSet :=
  match d.current with
  | none => .error (.IOError "missing CURRENT")
  | some n =>
    match d.manifests n with
    | none => .error (.IOError ("missing manifest: " ++ dbname ++ "/MANIFEST-" ++ toString n))
    | some edits =>
      let vs := edits.foldl recover_edit { manifest_file_number := n }
      .ok { vs with current := vs.current.sort_level1 }

end VersionSet

end lsmkv
