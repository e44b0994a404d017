import LsmKv.Reldb.Database

namespace reldb

open lsmkv (Status)
open effects (Prog)
open effects.Prog (query perform fail attempt)

namespace Transaction

/-- What the head of a key makes the predecessor of a new version: an open owner is a
    conflict, and an aborted version is left out of the chain. -/
def prev_of_head (kv : Kv) (txn : Transaction) (head_id : Nat) (head : VersionRecord) : Except Status Nat :=
  if head.is_provisional then
    match kv.get_txn_meta head.created_by with
    | .error s => .error s
    | .ok txn_meta =>
      if txn_meta.state = .kOpen ∧ head.created_by ≠ txn.txn_id then
        .error (.Conflict "write-write conflict: key held by open txn")
      else if txn_meta.state = .kOpen ∧ head.created_by = txn.txn_id then
        .error (.Corruption "missing written_ entry for own provisional")
      else if txn_meta.state = .kAborted then .ok head.prev_id
      else .ok head_id
  else .ok head_id

/-- First committer wins: the walk to the newest committed version. The fuel is as in
    `Kv.visible_version`. -/
def check_newest_committed (kv : Kv) (txn : Transaction) (key : RowKey) : Nat → Nat → Except Status Unit
  | fuel, walk =>
    if walk = 0 then .ok ()
    else
      match fuel with
      | 0 => .error (.Corruption "version chain does not end")
      | fuel + 1 =>
        match kv.get_version key walk with
        | .error s => .error s
        | .ok cur =>
          if !cur.is_provisional then
            if txn.start_ts < cur.start_ts then
              .error (.Conflict "write-write conflict: key committed after snapshot")
            else .ok ()
          else if cur.created_by ≠ txn.txn_id then
            match kv.get_txn_meta cur.created_by with
            | .error s => .error s
            | .ok txn_meta =>
              if txn_meta.state = .kCommitted ∧ txn.start_ts < txn_meta.commit_ts then
                .error (.Conflict "write-write conflict: key committed after snapshot")
              else check_newest_committed kv txn key fuel cur.prev_id
          else check_newest_committed kv txn key fuel cur.prev_id

/-- An insert needs a row that is absent in the snapshot, an update or a delete one
    that is there. -/
def check_existing (is_insert : Bool) : Except Status Row → Except Status Unit
  | .ok _ => if is_insert then .error (.InvalidArgument "duplicate primary key") else .ok ()
  | .error s =>
    if is_insert then
      if s.is_not_found then .ok () else .error s
    else if s.is_not_found then .error (.NotFound "row not found") else .error s

def get_row (kv : Kv) (txn : Transaction) (key : RowKey) : Except Status Row :=
  kv.get_row key txn.start_ts txn.txn_id (some kv.get_txn_meta)

/-- All checks before the first write of a key, down to the predecessor of the new version. -/
def check_write (kv : Kv) (txn : Transaction) (key : RowKey) (is_insert : Bool) : Except Status Nat :=
  match kv.heads key with
  | none => if is_insert then .ok 0 else .error (.NotFound "row not found")
  | some head_id => do
    let head ← kv.get_version key head_id
    let prev_id ← prev_of_head kv txn head_id head
    check_newest_committed kv txn key head_id head_id
    check_existing is_insert (get_row kv txn key)
    return prev_id

/-- Another write of a key that the transaction wrote before changes the same version. -/
def rewrite (w : TxnWrite) (is_delete : Bool) (row : Row) (is_insert : Bool) : KvProg Unit := do
  let rec ← query fun kv => kv.get_version w.key w.version_id
  if is_insert && !rec.is_tombstone then
    fail (.InvalidArgument "duplicate primary key in transaction")
  else if is_delete then
    if rec.is_tombstone then fail (.NotFound "row already deleted in transaction")
    else perform (.put_version_value w.key { rec with is_tombstone := true, payload := [] })
  else perform (.put_version_value w.key { rec with is_tombstone := false, payload := row })

/-- The first write of a key installs a provisional version, makes it the head, and
    then lists it in the transaction's record. -/
def install (db : Database) (txn : Transaction) (key : RowKey) (prev_id : Nat) (is_delete : Bool) (row : Row) :
    KvProg (Database × Transaction) := do
  let vid := db.next_version_id
  let db := { db with next_version_id := db.next_version_id + 1 }
  db.persist_oracles
  perform (.put_version_value key
    { version_id := vid, prev_id := prev_id, created_by := txn.txn_id, is_tombstone := is_delete
      payload := if is_delete then [] else row })
  perform (.set_head key vid)
  let txn := { txn with written := txn.written ++ [⟨key.1, key.2, vid⟩] }
  perform (.put_txn_meta txn.txn_id { writes := txn.written })
  return (db, txn)

/-- `row` is not looked at by a delete. -/
def write (db : Database) (txn : Transaction) (key : RowKey) (is_delete : Bool) (row : Row) (is_insert : Bool) :
    KvProg (Database × Transaction) :=
  if txn.finished then fail (.InvalidArgument "transaction finished")
  else
    match txn.written.find? fun w => w.key = key with
    | some w => do
      rewrite w is_delete row is_insert
      return (db, txn)
    | none => do
      let prev_id ← query fun kv => check_write kv txn key is_insert
      install db txn key prev_id is_delete row

/-- The primary key of a row that fits its table. -/
def row_key (db : Database) (table : String) (row : Row) : Except Status RowKey := do
  let schema ← db.get_table table
  row.validate_against schema
  let pk ← row.primary_key schema
  return (table, pk)

def insert (db : Database) (txn : Transaction) (table : String) (row : Row) : KvProg (Database × Transaction) := do
  let key ← query fun _ => row_key db table row
  write db txn key false row true

def update (db : Database) (txn : Transaction) (table : String) (row : Row) : KvProg (Database × Transaction) := do
  let key ← query fun _ => row_key db table row
  write db txn key false row false

def delete (db : Database) (txn : Transaction) (table : String) (pk : Value) : KvProg (Database × Transaction) := do
  let _ ← query fun _ => db.get_table table
  write db txn (table, pk) true [] false

def get (kv : Kv) (db : Database) (txn : Transaction) (table : String) (pk : Value) : Except Status Row :=
  if txn.finished then .error (.InvalidArgument "transaction finished")
  else do
    let _ ← db.get_table table
    get_row kv txn (table, pk)

/-- The re-check of one written key: `some` is the conflict that aborts the commit. -/
def check_commit_write (kv : Kv) (txn : Transaction) (w : TxnWrite) : Except Status (Option Status) := do
  let head ← kv.get_latest_version_id w.key
  if head ≠ w.version_id then return some (.Conflict "write-write conflict: head moved")
  else
    let rec ← kv.get_version w.key w.version_id
    if rec.prev_id = 0 then return none
    else
      match kv.versions w.key rec.prev_id with
      | none => return none
      | some prev =>
        if !prev.is_provisional && txn.start_ts < prev.start_ts then
          return some (.Conflict "write-write conflict: key committed after snapshot")
        else return none

def check_commit (kv : Kv) (txn : Transaction) : List TxnWrite → Except Status (Option Status)
  | [] => .ok none
  | w :: ws => do
    match ← check_commit_write kv txn w with
    | some conflict => return some conflict
    | none => check_commit kv txn ws

/-- Heads go back, then the transaction is marked aborted. -/
def roll_back (db : Database) (txn : Transaction) : KvProg (Database × Transaction) := do
  Database.restore_heads txn.written
  perform (.put_txn_meta txn.txn_id { state := .kAborted })
  return db.mark_txn_finished txn

/-- The intent with its write list, the stamps, the mark, and the counters at last. -/
def commit_writes (db : Database) (txn : Transaction) :
    KvProg (Database × Transaction × Except Status Unit) := do
  let commit_ts := db.next_ts
  let db := { db with next_ts := db.next_ts + 1 }
  perform (.put_txn_meta txn.txn_id { state := .kCommitting, commit_ts := commit_ts, writes := txn.written })
  match ← attempt (Database.apply_commit_writes txn.txn_id commit_ts txn.written) with
  | .error s => return (db, txn, .error s)
  | .ok () =>
    perform (.put_txn_meta txn.txn_id { state := .kCommitted, commit_ts := commit_ts })
    db.persist_oracles
    let (db, txn) := db.mark_txn_finished txn
    return (db, txn, .ok ())

/-- The database and the transaction after the call, and its status. -/
def commit (db : Database) (txn : Transaction) : KvProg (Database × Transaction × Except Status Unit) :=
  if txn.finished then fail (.InvalidArgument "transaction finished")
  else do
    match ← query fun kv => check_commit kv txn txn.written with
    | some conflict => do
      let (db, txn) ← roll_back db txn
      return (db, txn, .error conflict)
    | none => commit_writes db txn

def abort (db : Database) (txn : Transaction) : KvProg (Database × Transaction) :=
  if txn.finished then return (db, txn) else roll_back db txn

end Transaction

end reldb
