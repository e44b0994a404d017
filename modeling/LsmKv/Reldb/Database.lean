import LsmKv.Reldb.Mvcc

namespace reldb

open lsmkv (Status)
open effects (Prog)
open effects.Prog (query look perform fail attempt forEach)

abbrev KvProg := Prog Kv KvOp Status

/-- The counters and gates that `Database` holds in memory, and its catalog. -/
structure Database where
  catalog : String → Option TableSchema
  next_ts : Nat := 1
  next_txn_id : Nat := 1
  next_version_id : Nat := 1
  open_txn_count : Nat := 0
  ddl_in_progress : Bool := false

structure Transaction where
  txn_id : Nat
  start_ts : Nat
  finished : Bool := false
  written : List TxnWrite := []

namespace Database

def get_table (db : Database) (name : String) : Except Status TableSchema :=
  match db.catalog name with
  | some schema => .ok schema
  | none => .error (.NotFound ("table not found: " ++ name))

def persist_oracles (db : Database) : KvProg Unit := do
  perform (.put_next_ts db.next_ts)
  perform (.put_next_txn db.next_txn_id)
  perform (.put_next_vid db.next_version_id)

/-- A stored counter of zero counts as absent. -/
def load (stored : Option Nat) (default : Nat) : Nat :=
  match stored with
  | none => default
  | some v => if v = 0 then default else v

def init_oracles (catalog : String → Option TableSchema) : KvProg Database := do
  let next_ts ← look fun kv => load kv.next_ts 1
  let next_txn_id ← look fun kv => load kv.next_txn 1
  let next_version_id ← look fun kv => load kv.next_vid 1
  let db : Database := { catalog, next_ts, next_txn_id, next_version_id }
  db.persist_oracles
  return db

def mark_txn_finished (db : Database) (txn : Transaction) : Database × Transaction :=
  ({ db with open_txn_count := db.open_txn_count - 1 }, { txn with finished := true })

def begin_txn (db : Database) : KvProg (Database × Transaction) :=
  if db.ddl_in_progress then fail (.InvalidArgument "DDL in progress")
  else do
    let id := db.next_txn_id
    let db := { db with next_txn_id := db.next_txn_id + 1 }
    db.persist_oracles
    perform (.put_txn_meta id {})
    return ({ db with open_txn_count := db.open_txn_count + 1 }, { txn_id := id, start_ts := db.next_ts - 1 })

/-- A head that is still the given version moves back to the version before it. -/
def restore_head (w : TxnWrite) : KvProg Unit := do
  match ← look fun kv => kv.heads w.key with
  | none => return ()
  | some head =>
    if head ≠ w.version_id then return ()
    else
      let rec ← query fun kv => kv.get_version w.key w.version_id
      if rec.prev_id = 0 then perform (.clear_head w.key)
      else perform (.set_head w.key rec.prev_id)

/-- The last write is undone first. -/
def restore_heads (writes : List TxnWrite) : KvProg Unit := forEach restore_head writes.reverse

/-- Closing the version that a commit supersedes. -/
def close_prev (key : RowKey) (prev_id commit_ts : Nat) : KvProg Unit :=
  if prev_id = 0 then return ()
  else do
    match ← look fun kv => kv.versions key prev_id with
    | none => return ()
    | some prev =>
      if !prev.is_provisional && prev.end_ts = 0 then
        perform (.put_version_value key { prev with end_ts := commit_ts })
      else return ()

def apply_commit_write (txn_id commit_ts : Nat) (w : TxnWrite) : KvProg Unit := do
  let rec ← query fun kv => kv.get_version w.key w.version_id
  if rec.created_by ≠ txn_id then fail (.Corruption "apply: version owned by other txn")
  else if !rec.is_provisional then
    -- stamped already: this is a redo after a partial apply
    if rec.start_ts ≠ commit_ts then fail (.Corruption "apply: version stamped with unexpected ts")
    else return ()
  else do
    close_prev w.key rec.prev_id commit_ts
    perform (.put_version_value w.key { rec with start_ts := commit_ts })

def apply_commit_writes (txn_id commit_ts : Nat) (writes : List TxnWrite) : KvProg Unit :=
  forEach (apply_commit_write txn_id commit_ts) writes

/-- One round of `RecoverTxns`. -/
def recover_txn (db : Database) (id : Nat) : KvProg Database := do
  match ← look fun kv => kv.txns id with
  | none => return db
  | some txn_meta =>
    match txn_meta.state with
    | .kCommitting =>
      if txn_meta.commit_ts = 0 then fail (.Corruption "committing txn missing commit_ts")
      else do
        apply_commit_writes id txn_meta.commit_ts txn_meta.writes
        perform (.put_txn_meta id { state := .kCommitted, commit_ts := txn_meta.commit_ts })
        if db.next_ts ≤ txn_meta.commit_ts then
          let db := { db with next_ts := txn_meta.commit_ts + 1 }
          db.persist_oracles
          return db
        else return db
    | .kOpen =>
      restore_heads txn_meta.writes
      perform (.put_txn_meta id { state := .kAborted })
      return db
    | _ => return db

def recover_loop : Nat → Nat → Database → KvProg Database
  | 0, _, db => return db
  | n + 1, id, db => do
    let db ← db.recover_txn id
    recover_loop n (id + 1) db

def recover_txns (db : Database) : KvProg Database := recover_loop (db.next_txn_id - 1) 1 db

def open_db (catalog : String → Option TableSchema) : KvProg Database := do
  let db ← init_oracles catalog
  db.recover_txns

end Database

end reldb
