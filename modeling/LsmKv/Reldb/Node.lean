import LsmKv.Lib.Snapshot
import LsmKv.Reldb.Txn

namespace reldb

open lsmkv (Status)
open effects (applyAll)
open Function

/-- A process with its store, its database and the transactions it has begun. -/
structure Node where
  kv : Kv
  db : Database
  txns : Nat → Option Transaction := fun _ => none

/-- The calls of the clients, each atomic under the mutex of the database. -/
inductive Call where
  | begin_txn
  | insert (id : Nat) (table : String) (row : Row)
  | update (id : Nat) (table : String) (row : Row)
  | delete (id : Nat) (table : String) (pk : Value)
  | commit (id : Nat)
  | abort (id : Nat)

namespace Node

/-- The call as a program, with the database and the transaction that it leaves and its
    status; `none` for a transaction that was never begun. -/
def prog (node : Node) : Call → Option (KvProg (Database × Transaction × Except Status Unit))
  | .begin_txn => some do
    let (db, txn) ← node.db.begin_txn
    return (db, txn, .ok ())
  | .insert id table row => (node.txns id).map fun txn => do
    let (db, txn) ← txn.insert node.db table row
    return (db, txn, .ok ())
  | .update id table row => (node.txns id).map fun txn => do
    let (db, txn) ← txn.update node.db table row
    return (db, txn, .ok ())
  | .delete id table pk => (node.txns id).map fun txn => do
    let (db, txn) ← txn.delete node.db table pk
    return (db, txn, .ok ())
  | .commit id => (node.txns id).map fun txn => txn.commit node.db
  | .abort id => (node.txns id).map fun txn => do
    let (db, txn) ← txn.abort node.db
    return (db, txn, .ok ())

/-- The writes of a call, in their order. -/
def ops (node : Node) (call : Call) : Option (List KvOp) := (node.prog call).map fun p => (p node.kv).1

/-- The node after a call, and the status returned. A call that ends early leaves
    nothing changed in memory. -/
def step (node : Node) (call : Call) : Option (Node × Except Status Unit) :=
  (node.prog call).map fun p =>
    match p node.kv with
    | (ops, .error s) => ({ node with kv := applyAll node.kv ops }, .error s)
    | (ops, .ok (db, txn, status)) =>
      ({ kv := applyAll node.kv ops, db := db, txns := update node.txns txn.txn_id (some txn) }, status)

/-- The key and the new content that a call asks to write. -/
def update? (node : Node) : Call → Option (Nat × history.Update RowKey Row)
  | .insert id table row | .update id table row =>
    match Transaction.row_key node.db table row with
    | .ok key => some (id, ⟨key, some row⟩)
    | .error _ => none
  | .delete id table pk => some (id, ⟨(table, pk), none⟩)
  | _ => none

/-- What the clients know of a call from its status: what each transaction wrote, and
    which ones committed, under the timestamp in the registry. -/
def observe (before after : Node) (log : snapshot.State RowKey Row) (call : Call) :
    Except Status Unit → snapshot.State RowKey Row
  | .error _ =>
    match call with
    | .commit id =>
      if ((after.txns id).map Transaction.finished).getD false then log.drop id else log
    | _ => log
  | .ok () =>
    match call with
    | .begin_txn => log.start before.db.next_txn_id (before.db.next_ts - 1)
    | .commit id => log.commit id (((after.kv.txns id).map TxnMeta.commit_ts).getD 0)
    | .abort id => log.drop id
    | call =>
      match before.update? call with
      | some (id, update) => log.write id update
      | none => log

/-- A run of calls and the log of what the clients saw. -/
def run (node : Node) (log : snapshot.State RowKey Row) : List Call → Option (Node × snapshot.State RowKey Row)
  | [] => some (node, log)
  | call :: calls =>
    (node.step call).bind fun (after, status) => run after (node.observe after log call status) calls

/-- A process that opened the store. -/
def opened (kv : Kv) (catalog : String → Option TableSchema) : Option Node :=
  match Database.open_db catalog kv with
  | (ops, .ok db) => some { kv := applyAll kv ops, db := db }
  | (_, .error _) => none

/-- A run of calls on an empty store. -/
def session (catalog : String → Option TableSchema) (calls : List Call) : Option (Node × snapshot.State RowKey Row) :=
  (opened {} catalog).bind fun node => node.run {} calls

section Run

variable {node after : Node} {call : Call} {status : Except Status Unit}
  {p : KvProg (Database × Transaction × Except Status Unit)} {ops : List KvOp}

theorem step_ok (hprog : node.prog call = some p) {db' : Database} {txn' : Transaction} {status' : Except Status Unit}
    (hrun : p node.kv = (ops, .ok (db', txn', status'))) (hstep : node.step call = some (after, status)) :
    after = ⟨applyAll node.kv ops, db', update node.txns txn'.txn_id (some txn')⟩ ∧ status = status' := by
  rw [step, hprog, Option.map_some, hrun] at hstep
  cases hstep
  exact ⟨rfl, rfl⟩

theorem then_ok_run {q : KvProg (Database × Transaction)} {kv : Kv} {db' : Database} {txn' : Transaction}
    (hrun : q kv = (ops, .ok (db', txn'))) :
    (do let (db, txn) ← q
        return (db, txn, .ok ()) : KvProg (Database × Transaction × Except Status Unit)) kv =
      (ops, .ok (db', txn', .ok ())) := by
  rw [effects.Prog.bind_ok hrun]
  simp

end Run

end Node

/-- A catalog with one table of numbers. -/
def numbers : String → Option TableSchema := fun name =>
  if name = "t" then some ⟨"t", [⟨"id", .kInt64, true⟩, ⟨"n", .kInt64, false⟩]⟩ else none

end reldb
