import LsmKv.Db.Crash
import LsmKv.Db.Iterator

namespace lsmkv

/-- The memtable that a read has a pointer to: the one that is still written to, or one that a
    rotation has replaced, with its last content. -/
inductive HeldMem where
  | current
  | rotated (mem : MemTable)

inductive ReadCall where
  | get (key : Bytes)
  | new_iterator

/-- Where a read stands. `pinned` is what it has taken under the mutex; after that it goes on
    without the mutex, and opens the tables one by one. -/
inductive Reader where
  | pinned (call : ReadCall) (mem : HeldMem) (imm : Option MemTable) (version : Version) (snapshot : Nat)
  | probing (key : Bytes) (snapshot : Nat) (files : List FileMetaData)
  | opening (it : DBIterator) (files : List FileMetaData)
  | got (result : Except Status Bytes)
  | opened (it : DBIterator)

def HeldMem.table (db : DBImpl) : HeldMem → MemTable
  | .current => db.mem
  | .rotated mem => mem

/-- A write that is let through replaces a full memtable first. -/
def DBImpl.rotates (db : DBImpl) : Label → Bool
  | .bg => false
  | _ => db.bg_error.isNone && !decide (db.mem.memory_usage < db.options.write_buffer_size)

namespace Reader

/-- The next step of a read: both memtables, or one more table of its version. -/
def step (s : Session) : Reader → Reader
  | .pinned (.get key) mem imm version snapshot =>
    match ((mem.table s.db).get key snapshot).or (imm.bind fun imm => imm.get key snapshot) with
    | some (some value) => .got (.ok value)
    | some none => .got (.error (.NotFound ""))
    | none => .probing key snapshot (version.files0.reverse ++ version.files1.reverse)
  | .pinned .new_iterator mem imm version snapshot =>
    .opening
      { children := [(mem.table s.db).table] ++ imm.toList.map MemTable.table
        positions := [], snapshot := snapshot, status := none, entry := none }
      (DBIterator.files version)
  | .probing _ _ [] => .got (.error (.NotFound ""))
  | .probing key snapshot (f :: files) =>
    if key < extract_user_key f.smallest then .probing key snapshot files
    else if extract_user_key f.largest < key then .probing key snapshot files
    else
      match SSTable.open_file s.disk s.db.dbname f.number with
      | .error status => .got (.error status)
      | .ok table =>
        match SSTable.get table (make_lookup_key key snapshot) with
        | some (some value) => .got (.ok value)
        | some none => .got (.error (.NotFound ""))
        | none => .probing key snapshot files
  | .opening it [] => .opened it
  | .opening it (f :: files) =>
    match SSTable.open_file s.disk s.db.dbname f.number with
    | .ok table => .opening { it with children := it.children ++ [table] } files
    | .error status => .opening { it with status := it.status.or (some status) } files
  | r => r

/-- A read keeps its memtable when the store replaces it. -/
def follow (db : DBImpl) (label : Label) : Reader → Reader
  | .pinned call .current imm version snapshot =>
    if db.rotates label then .pinned call (.rotated db.mem) imm version snapshot
    else .pinned call .current imm version snapshot
  | r => r

end Reader

/-- The tables that the loop of `Version::Get` opens. -/
def Version.probes (d : Disk) (key : Bytes) (snapshot : Nat) : List FileMetaData → List Nat
  | [] => []
  | f :: files =>
    if key < extract_user_key f.smallest then probes d key snapshot files
    else if extract_user_key f.largest < key then probes d key snapshot files
    else
      match SSTable.get (d.entries f) (make_lookup_key key snapshot) with
      | some _ => [f.number]
      | none => f.number :: probes d key snapshot files

/-- The tables that a read has still to open, by the state at its snapshot step. -/
def Reader.needs (s : Session) : Reader → List Nat
  | .pinned (.get key) _ _ version snapshot =>
    match (s.db.mem.get key snapshot).or (s.db.imm.bind fun imm => imm.get key snapshot) with
    | some _ => []
    | none => Version.probes s.disk key snapshot (version.files0.reverse ++ version.files1.reverse)
  | .pinned .new_iterator _ _ version _ => (DBIterator.files version).map FileMetaData.number
  | .probing key snapshot files => Version.probes s.disk key snapshot files
  | .opening _ files => files.map FileMetaData.number
  | .got _ | .opened _ => []

/-- A session with a read beside it. `pending` are the file operations that the step under way has
    not done yet; it holds the mutex until they are. -/
structure Reading where
  session : Session
  pending : List FileOp := []
  reader : Reader

namespace Reading

inductive Event where
  | call (label : Label)
  | file_op
  | read
deriving DecidableEq

/-- `none` when the event has to wait, or does not apply. -/
def step (r : Reading) : Event → Option Reading
  | .call label =>
    match r.pending with
    | [] => do
      let s ← r.session.step label
      let ops ← r.session.stepOps label
      some { session := { s with disk := r.session.disk }, pending := ops
             reader := r.reader.follow r.session.db label }
    | _ => none
  | .file_op =>
    match r.pending with
    | [] => none
    | op :: pending =>
      some { r with session := { r.session with disk := r.session.disk.apply op }, pending := pending }
  | .read => some { r with reader := r.reader.step r.session }

def run (r : Reading) : List Event → Option Reading
  | [] => some r
  | event :: events => (r.step event).bind fun r => r.run events

/-- No table is removed that the read has still to open. -/
def Spares (s : Session) (r : Reading) : List Event → Prop
  | [] => True
  | event :: events =>
    (event = .file_op → ∀ n ∈ r.reader.needs s, r.pending.head? ≠ some (.remove_table n)) ∧
      match r.step event with
      | some r' => r'.Spares s events
      | none => True

instance decidableSpares (s : Session) : ∀ (events : List Event) (r : Reading), Decidable (r.Spares s events)
  | [], _ => isTrue trivial
  | event :: events, r =>
    match h : r.step event with
    | some r' =>
      have := decidableSpares s events r'
      decidable_of_iff ((event = .file_op → ∀ n ∈ r.reader.needs s, r.pending.head? ≠ some (.remove_table n)) ∧
        r'.Spares s events) (by rw [Spares, h])
    | none => decidable_of_iff (event = .file_op → ∀ n ∈ r.reader.needs s, r.pending.head? ≠ some (.remove_table n))
        (by simp [Spares, h])

end Reading

end lsmkv
