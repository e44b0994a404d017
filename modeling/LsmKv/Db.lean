import LsmKv.Compaction

namespace lsmkv

structure WriteOptions where
  sync : Bool := false
deriving DecidableEq, Repr

/-- The log being written. `pending` are the records that the stream buffers and
    has not flushed to the file. -/
structure WalWriter where
  number : Nat
  pending : List LogRecord := []
deriving DecidableEq, Repr

def WalWriter.flush (w : WalWriter) : List FileOp :=
  if w.pending = [] then [] else [.append_log w.number w.pending]

/-- Where the background thread stands. Between two states it holds the mutex, or
    works on files and on state no other thread changes. -/
inductive BgState where
  | idle
  | flush_start
  | flush_build (imm : MemTable) (file_number : Nat)
  | flush_built (file : FileMetaData)
  | flush_edit (edit : VersionEdit)
  | flush_clear
  | flush_done
  | compact_start
  | compact_merge (current : Version) (out_number : Nat)
  | compact_built (result : CompactionResult)
  | compact_edit (result : CompactionResult) (edit : VersionEdit)

structure DBImpl where
  options : Options
  dbname : String
  versions : VersionSet
  mem : MemTable
  imm : Option MemTable
  wal : WalWriter
  logfile_number : Nat
  flush_scheduled : Bool
  compaction_scheduled : Bool
  bg_error : Option Status
  bg : BgState

namespace DBImpl

/-- `seq + i` is the sequence number of the entry at position `i`. -/
def replay_entries (seq : Nat) : List (ValueType × Bytes × Bytes) → MemTable × Nat → MemTable × Nat
  | [], state => state
  | (type, key, value) :: entries, (mem, max_seq) =>
    replay_entries (seq + 1) entries (mem.add seq type key value, max max_seq seq)

def replay_record (state : MemTable × Nat) (record : LogRecord) : MemTable × Nat :=
  replay_entries record.seq record.entries state

/-- A missing log is fine; a broken record ends the replay with an error. -/
def recover_log_file (d : Disk) (log_number : Nat) (mem : MemTable) (last_sequence : Nat) :
    Except Status (MemTable × Nat) :=
  match d.logs log_number with
  | none => .ok (mem, last_sequence)
  | some log =>
    match log.torn with
    | some .header => .error (.Corruption "truncated wal header")
    | some .payload => .error (.Corruption "truncated wal record")
    | none => .ok (log.records.foldl replay_record (mem, last_sequence))

/-- The file operations that an `Open` performed, and its outcome. -/
def open_db (options : Options) (dbname : String) (d : Disk) : List FileOp × Except Status DBImpl :=
  let exist := d.current.isSome
  if exist && options.error_if_exists then ([], .error (.InvalidArgument "database already exists"))
  else if !exist && !options.create_if_missing then
    ([], .error (.InvalidArgument "database does not exist"))
  else
    let (init_ops, recovered) : List FileOp × Except Status VersionSet :=
      if exist then ([], VersionSet.recover d dbname) else (VersionSet.new_db.2, .ok VersionSet.new_db.1)
    match recovered with
    | .error s => (init_ops, .error s)
    | .ok versions =>
      let logfile_number := versions.next_file_number
      let versions := versions.take_file_number
      let ops := init_ops ++ [.open_log logfile_number]
      let replayed : Except Status (MemTable × Nat) :=
        if exist && decide (0 < versions.log_number) then
          recover_log_file (d.apply_all ops) versions.log_number .empty versions.last_sequence
        else .ok (.empty, versions.last_sequence)
      match replayed with
      | .error s => (ops, .error s)
      | .ok (mem, last_sequence) =>
        let edit : VersionEdit :=
          { log_number := some logfile_number, next_file_number := some versions.next_file_number }
        let versions := { versions.take_file_number with last_sequence := last_sequence }
        let (versions, edit_ops) := versions.log_and_apply edit
        (ops ++ edit_ops, .ok
          { options := options, dbname := dbname, versions := versions, mem := mem, imm := none
            wal := { number := logfile_number }, logfile_number := logfile_number
            flush_scheduled := false, compaction_scheduled := false, bg_error := none, bg := .idle })

/-- A full memtable becomes the immutable one, a new log is begun and the manifest
    switched to it. Replacing the writer closes the old log, which flushes it. -/
def rotate (db : DBImpl) : DBImpl × List FileOp :=
  let logfile_number := db.versions.next_file_number
  let (versions, edit_ops) := db.versions.take_file_number.log_and_apply { log_number := some logfile_number }
  ({ db with
      imm := some db.mem, mem := .empty, logfile_number := logfile_number
      wal := { number := logfile_number }, versions := versions, flush_scheduled := true },
    db.wal.flush ++ [.open_log logfile_number] ++ edit_ops)

/-- `none` while the memtable is full and the one before it is still being flushed:
    the writer waits. -/
def make_room_for_write (db : DBImpl) : Option (DBImpl × List FileOp) :=
  if db.mem.memory_usage < db.options.write_buffer_size then some (db, [])
  else if db.imm.isSome then none
  else some db.rotate

/-- The write takes the next sequence number and goes to the log, then to the memtable. -/
def add_record (db : DBImpl) (options : WriteOptions) (type : ValueType) (key value : Bytes) :
    DBImpl × List FileOp :=
  let seq := db.versions.last_sequence + 1
  let wal := { db.wal with pending := db.wal.pending ++ [⟨seq, [(type, key, value)]⟩] }
  let mem := db.mem.add seq type key value
  ({ db with
      versions := { db.versions with last_sequence := seq }
      wal := if options.sync then { wal with pending := [] } else wal
      mem := mem
      flush_scheduled := db.flush_scheduled || decide (db.options.write_buffer_size ≤ mem.memory_usage) },
    if options.sync then wal.flush else [])

def write (db : DBImpl) (options : WriteOptions) (type : ValueType) (key value : Bytes) :
    Option ((DBImpl × Except Status Unit) × List FileOp) :=
  match db.bg_error with
  | some s => some ((db, .error s), [])
  | none =>
    (make_room_for_write db).map fun (db, room_ops) =>
      let (db, ops) := db.add_record options type key value
      ((db, .ok ()), room_ops ++ ops)

def put (db : DBImpl) (options : WriteOptions) (key value : Bytes) :
    Option ((DBImpl × Except Status Unit) × List FileOp) :=
  db.write options .kTypeValue key value

def delete (db : DBImpl) (options : WriteOptions) (key : Bytes) :
    Option ((DBImpl × Except Status Unit) × List FileOp) :=
  db.write options .kTypeDeletion key []

def get (db : DBImpl) (d : Disk) (key : Bytes) (read_snapshot : Nat := 0) : Except Status Bytes :=
  let snapshot := if read_snapshot ≠ 0 then read_snapshot else db.versions.last_sequence
  match (db.mem.get key snapshot).or (db.imm.bind fun imm => imm.get key snapshot) with
  | some (some value) => .ok value
  | some none => .error (.NotFound "")
  | none => db.versions.current.get d db.dbname key snapshot

/-- One step of `FlushMemTable`, and of what the background thread does when it returns. -/
def flush_step (db : DBImpl) : DBImpl × List FileOp :=
  match db.bg with
  | .flush_start =>
    match db.imm with
    | none => ({ db with bg := .flush_done }, [])
    | some imm =>
      ({ db with
          versions := db.versions.take_file_number
          bg := .flush_build imm db.versions.next_file_number }, [])
  | .flush_build imm file_number =>
    let file := SSTableBuilder.build db.options imm.table file_number
    ({ db with bg := if 0 < file.file_size ∧ file.smallest ≠ [] then .flush_built file else .flush_clear },
      [.create_table file_number, .finish_table file_number imm.table])
  | .flush_built file =>
    -- the last sequence number is read before the mutex is taken again
    ({ db with
        bg := .flush_edit { added_files := [(0, file)], last_sequence := some db.versions.last_sequence } }, [])
  | .flush_edit edit =>
    let (versions, ops) := db.versions.log_and_apply edit
    ({ db with versions := versions, bg := .flush_clear }, ops)
  | .flush_clear => ({ db with imm := none, bg := .flush_done }, [])
  | .flush_done => ({ db with compaction_scheduled := true, bg := .idle }, [])
  | _ => (db, [])

/-- One step of `CompactIfNeeded`. -/
def compact_step (db : DBImpl) (d : Disk) : DBImpl × List FileOp :=
  match db.bg with
  | .compact_start =>
    if (db.versions.current.files0.length : Int) < db.options.level0_compaction_trigger then
      ({ db with bg := .idle }, [])
    else
      ({ db with
          versions := db.versions.take_file_number
          bg := .compact_merge db.versions.current db.versions.next_file_number }, [])
  | .compact_merge current out_number =>
    match compact_level0 db.options d db.dbname current out_number with
    | .error s => ({ db with bg_error := some s, bg := .idle }, [])
    | .ok (result, merged) =>
      ({ db with bg := .compact_built result },
        [.create_table out_number, .finish_table out_number merged])
  | .compact_built result =>
    let added := if 0 < result.output.file_size ∧ result.output.smallest ≠ [] then [(1, result.output)] else []
    ({ db with
        bg := .compact_edit result
          { deleted_files := result.inputs, added_files := added
            last_sequence := some db.versions.last_sequence } }, [])
  | .compact_edit result edit =>
    let (versions, ops) := db.versions.log_and_apply edit
    ({ db with versions := versions, bg := .idle },
      ops ++ result.inputs.map fun input => .remove_table input.2)
  | _ => (db, [])

/-- One step of `BackgroundThreadMain`. With nothing scheduled the thread waits. -/
def bg_step (db : DBImpl) (d : Disk) : DBImpl × List FileOp :=
  match db.bg with
  | .idle =>
    if !db.flush_scheduled && !db.compaction_scheduled then (db, [])
    else if db.flush_scheduled && db.imm.isSome then
      ({ db with flush_scheduled := false, bg := .flush_start }, [])
    else if db.compaction_scheduled then
      ({ db with compaction_scheduled := false, bg := .compact_start }, [])
    else ({ db with flush_scheduled := false, compaction_scheduled := false }, [])
  | .compact_start | .compact_merge .. | .compact_built .. | .compact_edit .. => compact_step db d
  | _ => flush_step db

def run_flush : Nat → DBImpl → DBImpl × List FileOp
  | 0, db => (db, [])
  | n + 1, db =>
    let (db, ops) := flush_step db
    let (db, ops') := run_flush n db
    (db, ops ++ ops')

/-- The destructor, once the background thread has stopped: an immutable memtable is
    flushed, in at most five steps, and the log closed. -/
def close (db : DBImpl) : List FileOp :=
  if db.imm.isSome then
    let (db, ops) := run_flush 5 { db with bg := .flush_start }
    ops ++ db.wal.flush
  else db.wal.flush

end DBImpl

end lsmkv
