import LsmKv.Reldb.Disk

namespace reldb

open lsmkv (Status)
open effects.Prog (query look perform fail attempt forEach)

namespace Database

/-- DDL holds the mutex throughout, so the flag it raises is not seen by others. -/
def ddl_gate (db : Database) : Except Status Unit :=
  if db.open_txn_count ≠ 0 then .error (.InvalidArgument "DDL requires no open transactions")
  else if db.ddl_in_progress then .error (.InvalidArgument "DDL in progress")
  else .ok ()

def check_create_table (db : Database) (schema : TableSchema) : Except Status Unit := do
  db.ddl_gate
  schema.validate
  if (db.catalog schema.name).isSome then .error (.InvalidArgument ("table already exists: " ++ schema.name))
  else .ok ()

/-- The cache of the catalog is written through. -/
def put_table (db : Database) (schema : TableSchema) : DiskProg Database := do
  perform (.put_table schema)
  return { db with catalog := Function.update db.catalog schema.name (some schema) }

def create_table (db : Database) (schema : TableSchema) : DiskProg (Database × Except Status Unit) :=
  match db.check_create_table schema with
  | .error s => return (db, .error s)
  | .ok () => do
    let db ← db.put_table schema
    return (db, .ok ())

/-- `DeleteKeyPrefix` on row heads: all keys are collected first. -/
def delete_heads (stem : Key) : DiskProg Unit := do
  let keys ← look fun disk => disk.seek_heads stem stem
  forEach (fun key => perform (.kv (.clear_head key))) keys

/-- `DeleteKeyPrefix` on versions. -/
def delete_versions (stem : Key) : DiskProg Unit := do
  let keys ← look fun disk => disk.seek_versions stem
  forEach (fun key => perform (.delete_version key.1 key.2)) keys

def check_drop_table (db : Database) (name : String) : Except Status Unit := do
  db.ddl_gate
  if (db.catalog name).isNone then .error (.NotFound ("table not found: " ++ name))
  else .ok ()

/-- The catalog entry goes first, then the heads, then the versions. -/
def drop_table (db : Database) (name : String) : DiskProg (Database × Except Status Unit) :=
  match db.check_drop_table name with
  | .error s => return (db, .error s)
  | .ok () => do
    perform (.delete_table name)
    delete_heads (row_head_stem name)
    delete_versions (version_stem name)
    return ({ db with catalog := Function.update db.catalog name none }, .ok ())

/-- The walk of ALTER over provisional versions. One that has no committed ancestor
    counts as deleted. The fuel is as in `Kv.visible_version`. -/
def committed_prior (kv : Kv) (key : RowKey) : Nat → VersionRecord → Except Status VersionRecord
  | fuel, prior =>
    if prior.is_provisional then
      if prior.prev_id = 0 then .ok { prior with is_tombstone := true }
      else
        match fuel with
        | 0 => .error (.Corruption "version chain does not end")
        | fuel + 1 =>
          match kv.get_version key prior.prev_id with
          | .error s => .error s
          | .ok prior => committed_prior kv key fuel prior
    else .ok prior

/-- The schemas before and after an ALTER, and what it does to a row. -/
structure Alteration where
  old : TableSchema
  neu : TableSchema
  change : Row → Row

/-- What ALTER finds of a row: `none` for a row to leave alone. -/
def altered_row (kv : Kv) (key : RowKey) (a : Alteration) : Except Status (Option (VersionRecord × Row)) := do
  let head_id ← kv.get_latest_version_id key
  let head ← kv.get_version key head_id
  let prior ← committed_prior kv key head_id head
  if prior.is_tombstone then return none
  else if prior.end_ts ≠ 0 then return none
  else if prior.start_ts = 0 then .error (.Corruption "ALTER: unexpected provisional head")
  else if prior.payload.length = a.neu.columns.length then return none
  else if prior.payload.length ≠ a.old.columns.length then
    .error (.Corruption "ALTER: row width does not match schema")
  else do
    (a.change prior.payload).validate_against a.neu
    return some (prior, a.change prior.payload)

/-- The old version is closed, then the rewritten one is installed as the head. -/
def replace_version (db : Database) (key : RowKey) (commit_ts : Nat) (prior : VersionRecord) (row : Row) :
    KvProg Database := do
  perform (.put_version_value key { prior with end_ts := commit_ts })
  perform (.put_version_value key
    { version_id := db.next_version_id, start_ts := commit_ts, prev_id := prior.version_id, payload := row })
  perform (.set_head key db.next_version_id)
  return { db with next_version_id := db.next_version_id + 1 }

def alter_row (db : Database) (key : RowKey) (commit_ts : Nat) (a : Alteration) : KvProg Database := do
  match ← query fun kv => altered_row kv key a with
  | none => return db
  | some (prior, row) => replace_version db key commit_ts prior row

/-- Ids drawn before an error stay drawn. -/
def alter_rows (table : String) (commit_ts : Nat) (a : Alteration) :
    List Value → Database → KvProg (Database × Except Status Unit)
  | [], db => return (db, .ok ())
  | pk :: pks, db => do
    match ← attempt (alter_row db (table, pk) commit_ts a) with
    | .error s => return (db, .error s)
    | .ok db => alter_rows table commit_ts a pks db

/-- Phase 1: the primary keys under the stem of the table. -/
def collect_pks (disk : Disk) (table : String) : Except Status (List Value) :=
  (disk.seek_heads (row_head_stem table) (row_head_stem table)).mapM fun key =>
    decode_pk_from_key ((row_head_key key).drop (row_head_stem table).length)

/-- Both forms of ALTER from phase 1 on. -/
def alter_table (db : Database) (table : String) (a : Alteration) : DiskProg (Database × Except Status Unit) := do
  match ← attempt (query fun disk => collect_pks disk table) with
  | .error s => return (db, .error s)
  | .ok pks =>
    let commit_ts := db.next_ts
    let db := { db with next_ts := db.next_ts + 1 }
    match ← lift (alter_rows table commit_ts a pks db) with
    | (db, .error s) => return (db, .error s)
    | (db, .ok ()) =>
      lift db.persist_oracles
      let db ← db.put_table a.neu
      return (db, .ok ())

def check_add_column (db : Database) (table : String) (col : ColumnDef) (default_value : Value) :
    Except Status Alteration := do
  if col.name = "" then .error (.InvalidArgument "column name is empty")
  else if col.primary_key then .error (.InvalidArgument "ALTER ADD COLUMN cannot add a PRIMARY KEY")
  else if default_value.is_null then .error (.InvalidArgument "ALTER ADD COLUMN requires a non-NULL DEFAULT")
  else if default_value.type ≠ col.type then .error (.InvalidArgument "DEFAULT type does not match column type")
  else do
    db.ddl_gate
    let old ← db.get_table table
    if (old.find_column col.name).isSome then .error (.InvalidArgument ("column already exists: " ++ col.name))
    else do
      let neu : TableSchema := ⟨old.name, old.columns ++ [col]⟩
      neu.validate
      return ⟨old, neu, fun row => row ++ [default_value]⟩

def alter_table_add_column (db : Database) (table : String) (col : ColumnDef) (default_value : Value) :
    DiskProg (Database × Except Status Unit) :=
  match db.check_add_column table col default_value with
  | .error s => return (db, .error s)
  | .ok a => db.alter_table table a

def check_drop_column (db : Database) (table col_name : String) : Except Status Alteration := do
  if col_name = "" then .error (.InvalidArgument "column name is empty")
  else do
    db.ddl_gate
    let old ← db.get_table table
    match old.column_index col_name with
    | none => .error (.InvalidArgument ("unknown column: " ++ col_name))
    | some drop_idx =>
      if ((old.columns[drop_idx]?).map ColumnDef.primary_key).getD false then
        .error (.InvalidArgument "cannot drop PRIMARY KEY column")
      else do
        let neu : TableSchema := ⟨old.name, old.columns.eraseIdx drop_idx⟩
        neu.validate
        return ⟨old, neu, fun row => row.eraseIdx drop_idx⟩

def alter_table_drop_column (db : Database) (table col_name : String) : DiskProg (Database × Except Status Unit) :=
  match db.check_drop_column table col_name with
  | .error s => return (db, .error s)
  | .ok a => db.alter_table table a

end Database

inductive Ddl where
  | create_table (schema : TableSchema)
  | drop_table (name : String)
  | alter_table_add_column (table : String) (col : ColumnDef) (default_value : Value)
  | alter_table_drop_column (table col_name : String)

def Ddl.prog (db : Database) : Ddl → DiskProg (Database × Except Status Unit)
  | .create_table schema => db.create_table schema
  | .drop_table name => db.drop_table name
  | .alter_table_add_column table col default_value => db.alter_table_add_column table col default_value
  | .alter_table_drop_column table col_name => db.alter_table_drop_column table col_name

end reldb
