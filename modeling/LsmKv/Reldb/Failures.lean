import LsmKv.Lib.Failing
import LsmKv.Reldb.Programs
import LsmKv.Reldb.Server

namespace reldb

open lsmkv (Status)
open effects (applyAll)
open failing (Plan never)
open failing.Act (fail view change inquire operate operateAll ofExcept)
open List Transaction

/-- The calls once more, on a store whose operations can fail: what a call has changed
    in memory before it returns an error stays changed. -/
abbrev ServerAct := failing.Act Server Status

namespace Server

def apply (server : Server) (op : KvOp) : Server := { server with disk := server.disk.apply (.kv op) }

def set_txn (server : Server) (txn : Transaction) : Server :=
  { server with txns := Function.update server.txns txn.txn_id (some txn) }

end Server

namespace ServerAct

variable {α : Type}

/-- Reads of a call that come before its first write. -/
def read (f : Kv → Except Status α) : ServerAct α := inquire fun server => f server.disk.kv

def put (op : KvOp) : ServerAct Unit := operate fun server => server.apply op

def put_all (ops : List KvOp) : ServerAct Unit := operateAll (ops.map fun op server => server.apply op)

/-- The writes of a program, one by one. A read between them fails as the write after
    it does: nothing reaches the store in between. -/
def enact (p : KvProg α) : ServerAct α := do
  let (ops, result) ← view fun server => p server.disk.kv
  put_all ops
  ofExcept result

def change_db (f : Database → Database) : ServerAct Unit := change fun server => { server with db := f server.db }

def set_txn (txn : Transaction) : ServerAct Unit := change fun server => server.set_txn txn

def persist_oracles : ServerAct Unit := do
  let db ← view Server.db
  enact db.persist_oracles

def mark_txn_finished (txn : Transaction) : ServerAct Unit := do
  set_txn { txn with finished := true }
  change_db fun db => { db with open_txn_count := db.open_txn_count - 1 }

def begin_txn : ServerAct Unit := do
  let db ← view Server.db
  if db.ddl_in_progress then fail (.InvalidArgument "DDL in progress")
  else do
    change_db fun db => { db with next_txn_id := db.next_txn_id + 1 }
    persist_oracles
    put (.put_txn_meta db.next_txn_id {})
    set_txn { txn_id := db.next_txn_id, start_ts := db.next_ts - 1 }
    change_db fun db => { db with open_txn_count := db.open_txn_count + 1 }

/-- The version is in the transaction's list before the list is stored. -/
def install (txn : Transaction) (key : RowKey) (prev_id : Nat) (is_delete : Bool) (row : Row) : ServerAct Unit := do
  let db ← view Server.db
  change_db fun db => { db with next_version_id := db.next_version_id + 1 }
  persist_oracles
  put (.put_version_value key
    { version_id := db.next_version_id, prev_id := prev_id, created_by := txn.txn_id, is_tombstone := is_delete
      payload := if is_delete then [] else row })
  put (.set_head key db.next_version_id)
  let txn := { txn with written := txn.written ++ [⟨key.1, key.2, db.next_version_id⟩] }
  set_txn txn
  put (.put_txn_meta txn.txn_id { writes := txn.written })

def write (txn : Transaction) (key : RowKey) (is_delete : Bool) (row : Row) (is_insert : Bool) : ServerAct Unit :=
  if txn.finished then fail (.InvalidArgument "transaction finished")
  else
    match txn.written.find? fun w => w.key = key with
    | some w => enact (Transaction.rewrite w is_delete row is_insert)
    | none => do
      let prev_id ← read fun kv => check_write kv txn key is_insert
      install txn key prev_id is_delete row

/-- A table that is not in the cache is read from the store. -/
def insert (txn : Transaction) (table : String) (row : Row) : ServerAct Unit := do
  let key ← inquire fun server => row_key server.db table row
  write txn key false row true

def update (txn : Transaction) (table : String) (row : Row) : ServerAct Unit := do
  let key ← inquire fun server => row_key server.db table row
  write txn key false row false

def delete (txn : Transaction) (table : String) (pk : Value) : ServerAct Unit := do
  let key ← inquire fun server => table_key server.db table pk
  write txn key true [] false

def roll_back (txn : Transaction) : ServerAct Unit := do
  enact (Database.restore_heads txn.written)
  put (.put_txn_meta txn.txn_id { state := .kAborted })
  mark_txn_finished txn

def commit_writes (txn : Transaction) : ServerAct Unit := do
  let db ← view Server.db
  change_db fun db => { db with next_ts := db.next_ts + 1 }
  put (.put_txn_meta txn.txn_id { state := .kCommitting, commit_ts := db.next_ts, writes := txn.written })
  enact (Database.apply_commit_writes txn.txn_id db.next_ts txn.written)
  put (.put_txn_meta txn.txn_id { state := .kCommitted, commit_ts := db.next_ts })
  persist_oracles
  mark_txn_finished txn

def commit (txn : Transaction) : ServerAct Unit :=
  if txn.finished then fail (.InvalidArgument "transaction finished")
  else do
    match ← read fun kv => check_commit kv txn txn.written with
    | some conflict => do
      roll_back txn
      fail conflict
    | none => commit_writes txn

def abort (txn : Transaction) : ServerAct Unit := if txn.finished then return () else roll_back txn

end ServerAct

namespace Server

/-- `none` for a transaction object that does not exist. -/
def act (server : Server) : Call → Option (ServerAct Unit)
  | .begin_txn => some ServerAct.begin_txn
  | .insert id table row => (server.txns id).map fun txn => ServerAct.insert txn table row
  | .update id table row => (server.txns id).map fun txn => ServerAct.update txn table row
  | .delete id table pk => (server.txns id).map fun txn => ServerAct.delete txn table pk
  | .commit id => (server.txns id).map ServerAct.commit
  | .abort id => (server.txns id).map ServerAct.abort

end Server

namespace ServerAct

variable {α : Type} {server : Server} {plan : Plan Status} {n : Nat}

theorem foldl_apply (server : Server) (ops : List KvOp) :
    (ops.map fun op server => Server.apply server op).foldl (fun server f => f server) server =
      { server with disk := applyAll server.disk (ops.map .kv) } := by
  induction ops generalizing server with
  | nil => rfl
  | cons op ops ih => exact ih (server.apply op)

theorem put_all_ok {ops : List KvOp} (h : ∀ i < ops.length, plan (n + i) = none) :
    put_all ops plan server n =
      ⟨.ok (), { server with disk := applyAll server.disk (ops.map .kv) }, n + ops.length⟩ := by
  rw [put_all, failing.Act.operateAll_ok (by rwa [length_map]), foldl_apply, length_map]

theorem put_all_error {ops : List KvOp} (h : ∃ i < ops.length, plan (n + i) ≠ none) :
    ∃ i e, plan (n + i) = some e ∧ put_all ops plan server n =
        ⟨.error e, { server with disk := applyAll server.disk ((ops.take i).map .kv) }, n + i + 1⟩ := by
  obtain ⟨i, e, hfail, hrun⟩ :=
    @failing.Act.operateAll_error _ _ plan server n (ops.map fun op server => server.apply op) (by rwa [length_map])
  refine ⟨i, e, hfail, ?_⟩
  rw [put_all, hrun, ← map_take, foldl_apply]

/-- A program on a store that serves all its operations. -/
theorem enact_served {p : KvProg α} (h : ∀ i < (p server.disk.kv).1.length, plan (n + i) = none) :
    enact p plan server n =
      ⟨(p server.disk.kv).2, { server with disk := applyAll server.disk ((p server.disk.kv).1.map .kv) },
        n + (p server.disk.kv).1.length⟩ := by
  show (put_all (p server.disk.kv).1 >>= fun _ => ofExcept (p server.disk.kv).2) plan server n = _
  rw [failing.Act.bind_ok (put_all_ok h)]
  cases (p server.disk.kv).2 <;> rfl

/-- A program that a failure ends: a part of its writes is in the store. -/
theorem enact_interrupted {p : KvProg α} (h : ∃ i < (p server.disk.kv).1.length, plan (n + i) ≠ none) :
    ∃ i e, enact p plan server n =
        ⟨.error e, { server with disk := applyAll server.disk (((p server.disk.kv).1.take i).map .kv) }, n + i + 1⟩ := by
  obtain ⟨i, e, -, hrun⟩ := @put_all_error server plan n _ h
  refine ⟨i, e, ?_⟩
  show (put_all (p server.disk.kv).1 >>= fun _ => ofExcept (p server.disk.kv).2) plan server n = _
  rw [failing.Act.bind_error hrun]

theorem put_ok (h : plan n = none) (op : KvOp) : put op plan server n = ⟨.ok (), server.apply op, n + 1⟩ :=
  failing.Act.operate_ok h _

theorem put_error {e : Status} (h : plan n = some e) (op : KvOp) : put op plan server n = ⟨.error e, server, n + 1⟩ :=
  failing.Act.operate_error h _

end ServerAct

namespace Server

variable {server : Server} {p : ServerAct Unit} {call : Call}

end Server

namespace ServerAct

variable {server : Server} {txn : Transaction}

end ServerAct

end reldb
