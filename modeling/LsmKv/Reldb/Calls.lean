import LsmKv.Reldb.Node
import LsmKv.Reldb.Programs

namespace reldb

open lsmkv (Status)
open Function Option Transaction effects

/-- The transaction that a call is made on. -/
def Call.txn : Call → Option Nat
  | .begin_txn => none
  | .insert id _ _ => some id
  | .update id _ _ => some id
  | .delete id _ _ => some id
  | .commit id => some id
  | .abort id => some id

namespace Node

variable {node after : Node} {call : Call} {status : Except Status Unit} {id : Nat} {txn : Transaction}

/-- A call that writes one row. -/
structure RowCall where
  id : Nat
  key : Except Status RowKey
  is_delete : Bool
  row : Row
  is_insert : Bool

def row_call (db : Database) : Call → Option RowCall
  | .insert id table row => some ⟨id, row_key db table row, false, row, true⟩
  | .update id table row => some ⟨id, row_key db table row, false, row, false⟩
  | .delete id table pk => some ⟨id, table_key db table pk, true, [], false⟩
  | _ => none

variable {r : RowCall}

theorem row_call_id {db : Database} (h : row_call db call = some r) : call.txn = some r.id := by
  cases call <;> cases h <;> rfl

theorem row_call_table {db : Database} {key : RowKey} (h : row_call db call = some r)
    (hkey : r.key = .ok key) : (db.catalog key.1).isSome := by
  cases call <;> cases h
  · exact row_key_table hkey
  · exact row_key_table hkey
  · exact (table_key_ok hkey).2

/-- The writes of a row call after its checks, and the result. -/
def row_run (node : Node) (txn : Transaction) (r : RowCall) :
    List KvOp × Except Status (Database × Transaction × Except Status Unit) :=
  match r.key with
  | .error s => ([], .error s)
  | .ok key =>
    match txn.write_outcome node.kv key r.is_delete r.is_insert with
    | .error s => ([], .error s)
    | .ok (.rewrite w rec) =>
      ([.put_version_value w.key (Transaction.rewritten rec r.is_delete r.row)], .ok (node.db, txn, .ok ()))
    | .ok (.install prev_id) => (txn.install_ops node.db key prev_id r.is_delete r.row,
        .ok (drew_version node.db, txn.wrote node.db key, .ok ()))

theorem then_ok_row {q : KvProg (Database × Transaction)} (hq : q node.kv =
      match r.key with
      | .ok key => txn.write node.db key r.is_delete r.row r.is_insert node.kv
      | .error s => ([], .error s)) :
    (do let (db, txn) ← q
        return (db, txn, .ok ()) : KvProg (Database × Transaction × Except Status Unit)) node.kv =
      node.row_run txn r := by
  rw [row_run]
  cases hkey : r.key with
  | error s =>
    rw [hkey] at hq
    exact Prog.bind_error hq
  | ok key =>
    rw [hkey] at hq
    dsimp only at hq ⊢
    rw [write_eq] at hq
    cases houtcome : txn.write_outcome node.kv key r.is_delete r.is_insert with
    | error s =>
      rw [houtcome] at hq
      exact Prog.bind_error hq
    | ok outcome =>
      rw [houtcome] at hq
      cases outcome with
      | rewrite w rec => exact then_ok_run hq
      | install prev_id => exact then_ok_run hq

theorem row_prog (hcall : row_call node.db call = some r) :
    (node.prog call).map (fun p => p node.kv) = (node.txns r.id).map fun txn => node.row_run txn r := by
  cases call <;> cases hcall <;> rw [prog, map_map] <;>
    refine congrArg (fun f => (node.txns _).map f) (funext fun txn => then_ok_row ?_)
  · exact txn.insert_run ..
  · exact txn.update_run ..
  · exact txn.delete_run ..

/-- What the process makes of the writes and the result of a call. -/
def finish (node : Node) :
    List KvOp × Except Status (Database × Transaction × Except Status Unit) → Node × Except Status Unit
  | (ops, .error s) => ({ node with kv := applyAll node.kv ops }, .error s)
  | (ops, .ok (db, txn, status)) =>
    (⟨applyAll node.kv ops, db, update node.txns txn.txn_id (some txn)⟩, status)

theorem finish_kv (run : List KvOp × Except Status (Database × Transaction × Except Status Unit)) :
    (node.finish run).1.kv = applyAll node.kv run.1 := by
  rcases run with ⟨ops, _ | _⟩ <;> rfl

theorem step_eq_finish : node.step call = ((node.prog call).map fun p => p node.kv).map node.finish := by
  rw [step, map_map]
  rfl

/-- What a call comes to: the writes of its program and its result. -/
inductive Comes (node : Node) :
    Call → List KvOp × Except Status (Database × Transaction × Except Status Unit) → Prop
  | fails (call : Call) (s : Status) : Comes node call ([], .error s)
  | begins (hddl : node.db.ddl_in_progress = false) : Comes node .begin_txn
      (node.db.begun.oracle_ops ++ [.put_txn_meta node.db.next_txn_id {}],
        .ok (node.db.begun, { txn_id := node.db.next_txn_id, start_ts := node.db.next_ts - 1 }, .ok ()))
  | rewrites {call : Call} {r : RowCall} {txn : Transaction} {w : TxnWrite} {rec : VersionRecord}
      (hcall : row_call node.db call = some r) (hkey : r.key = .ok w.key) (htxn : node.txns r.id = some txn)
      (hopen : txn.finished = false) (hw : w ∈ txn.written) (hrec : node.kv.versions w.key w.version_id = some rec) :
      Comes node call
        ([.put_version_value w.key (Transaction.rewritten rec r.is_delete r.row)], .ok (node.db, txn, .ok ()))
  | installs {call : Call} {r : RowCall} {txn : Transaction} {key : RowKey} {prev_id : Nat}
      (hcall : row_call node.db call = some r) (hkey : r.key = .ok key) (htxn : node.txns r.id = some txn)
      (hopen : txn.finished = false) (hnew : ∀ w ∈ txn.written, w.key ≠ key)
      (hcheck : txn.check_write node.kv key r.is_insert = .ok prev_id) :
      Comes node call (txn.install_ops node.db key prev_id r.is_delete r.row,
        .ok (drew_version node.db, txn.wrote node.db key, .ok ()))
  | skips {id : Nat} {txn : Transaction} (htxn : node.txns id = some txn) (hfinished : txn.finished = true) :
      Comes node (.abort id) ([], .ok (node.db, txn, .ok ()))
  | aborts {id : Nat} {txn : Transaction} {ops : List KvOp} (htxn : node.txns id = some txn)
      (hopen : txn.finished = false)
      (hroll : txn.roll_back node.db node.kv = (ops, .ok (node.db.mark_txn_finished txn))) :
      Comes node (.abort id)
        (ops, .ok ((node.db.mark_txn_finished txn).1, (node.db.mark_txn_finished txn).2, .ok ()))
  | conflicts {id : Nat} {txn : Transaction} {ops : List KvOp} {s : Status} (htxn : node.txns id = some txn)
      (hopen : txn.finished = false) (hcheck : txn.check_commit node.kv txn.written = .ok (some s))
      (hroll : txn.roll_back node.db node.kv = (ops, .ok (node.db.mark_txn_finished txn))) :
      Comes node (.commit id)
        (ops, .ok ((node.db.mark_txn_finished txn).1, (node.db.mark_txn_finished txn).2, .error s))
  | stuck {call : Call} {id : Nat} {txn : Transaction} {ops : List KvOp} {s : Status} (hcall : call.txn = some id)
      (htxn : node.txns id = some txn) (hopen : txn.finished = false)
      (hroll : txn.roll_back node.db node.kv = (ops, .error s)) : Comes node call (ops, .error s)
  | commits {id : Nat} {txn : Transaction} (htxn : node.txns id = some txn) (hopen : txn.finished = false)
      (hcheck : txn.check_commit node.kv txn.written = .ok none) :
      Comes node (.commit id) (txn.commit_writes node.db node.kv)

variable {p : KvProg (Database × Transaction × Except Status Unit)}

theorem row_comes (hcall : row_call node.db call = some r) (hprog : node.prog call = some p) :
    node.Comes call (p node.kv) := by
  have hrun := row_prog hcall
  rw [hprog, map_some] at hrun
  obtain ⟨txn, htxn, hrun⟩ := map_eq_some_iff.mp hrun.symm
  rw [← hrun, row_run]
  cases hkey : r.key with
  | error s => exact .fails ..
  | ok key =>
    dsimp only
    cases houtcome : txn.write_outcome node.kv key r.is_delete r.is_insert with
    | error s => exact .fails ..
    | ok outcome =>
      cases outcome with
      | rewrite w rec =>
        obtain ⟨hopen, hw, rfl, hrec⟩ := write_outcome_rewrite houtcome
        exact .rewrites hcall hkey htxn hopen hw hrec
      | install prev_id =>
        obtain ⟨hopen, hnew, hcheck⟩ := write_outcome_install houtcome
        exact .installs hcall hkey htxn hopen hnew hcheck

theorem prog_comes (hprog : node.prog call = some p) : node.Comes call (p node.kv) := by
  cases call with
  | insert id table row => exact row_comes rfl hprog
  | update id table row => exact row_comes rfl hprog
  | delete id table pk => exact row_comes rfl hprog
  | begin_txn =>
    cases hprog
    cases hddl : node.db.ddl_in_progress with
    | true =>
      have hrun : node.db.begin_txn node.kv = ([], .error (.InvalidArgument "DDL in progress")) := by
        rw [Database.begin_txn, if_pos hddl]
        rfl
      rw [Prog.bind_error hrun]
      exact .fails ..
    | false =>
      rw [then_ok_run (Database.begin_txn_run hddl node.kv)]
      exact .begins hddl
  | commit id =>
    obtain ⟨txn, htxn, rfl⟩ := map_eq_some_iff.mp hprog
    rw [Transaction.commit]
    split
    · exact .fails ..
    next hopen =>
    have hopen : txn.finished = false := by simpa using hopen
    rw [Prog.query_bind]
    cases hcheck : txn.check_commit node.kv txn.written with
    | error s => exact .fails ..
    | ok conflict =>
      cases conflict with
      | none => exact .commits htxn hopen hcheck
      | some s =>
        dsimp only
        cases hroll : txn.roll_back node.db node.kv with
        | mk ops result =>
        cases result with
        | error s' =>
          rw [Prog.bind_error hroll]
          exact .stuck rfl htxn hopen hroll
        | ok pair =>
          obtain rfl := roll_back_result (congrArg Prod.snd hroll)
          rw [Prog.bind_ok hroll]
          simpa using Comes.conflicts htxn hopen hcheck hroll
  | abort id =>
    obtain ⟨txn, htxn, rfl⟩ := map_eq_some_iff.mp hprog
    cases hopen : txn.finished with
    | true =>
      have hrun : txn.abort node.db node.kv = ([], .ok (node.db, txn)) := by
        rw [Transaction.abort, if_pos hopen]
        rfl
      rw [then_ok_run hrun]
      exact .skips htxn hopen
    | false =>
      have habort : txn.abort node.db node.kv = txn.roll_back node.db node.kv := by
        rw [Transaction.abort, if_neg (by simp [hopen])]
      cases hroll : txn.roll_back node.db node.kv with
      | mk ops result =>
      rw [hroll] at habort
      cases result with
      | error s' =>
        rw [Prog.bind_error habort]
        exact .stuck rfl htxn hopen hroll
      | ok pair =>
        obtain rfl := roll_back_result (congrArg Prod.snd hroll)
        rw [then_ok_run habort]
        exact .aborts htxn hopen hroll

theorem step_comes (hstep : node.step call = some (after, status)) :
    ∃ run, node.Comes call run ∧ node.finish run = (after, status) := by
  rw [step_eq_finish, map_map] at hstep
  obtain ⟨p, hprog, hfinish⟩ := map_eq_some_iff.mp hstep
  exact ⟨_, prog_comes hprog, hfinish⟩

/-- The node after each thing that a call can come to. -/
def began (node : Node) : Node :=
  ⟨applyAll node.kv (node.db.begun.oracle_ops ++ [.put_txn_meta node.db.next_txn_id {}]), node.db.begun,
    update node.txns node.db.next_txn_id
      (some { txn_id := node.db.next_txn_id, start_ts := node.db.next_ts - 1 })⟩

def rewrote (node : Node) (w : TxnWrite) (rec : VersionRecord) (is_delete : Bool) (row : Row) : Node :=
  { node with kv := node.kv.apply (.put_version_value w.key (Transaction.rewritten rec is_delete row)) }

def installed (node : Node) (txn : Transaction) (key : RowKey) (prev_id : Nat) (is_delete : Bool) (row : Row) : Node :=
  ⟨applyAll node.kv (txn.install_ops node.db key prev_id is_delete row), drew_version node.db,
    update node.txns txn.txn_id (some (txn.wrote node.db key))⟩

def aborted (node : Node) (txn : Transaction) (heads : RowKey → Option Nat) : Node :=
  ⟨{ node.kv with heads := heads, txns := update node.kv.txns txn.txn_id (some { state := .kAborted }) },
    (node.db.mark_txn_finished txn).1, update node.txns txn.txn_id (some (node.db.mark_txn_finished txn).2)⟩

def committed (node : Node) (txn : Transaction) (versions : RowKey → Nat → Option VersionRecord) : Node :=
  ⟨{ node.kv with
      next_ts := some (node.db.next_ts + 1), next_txn := some node.db.next_txn_id
      next_vid := some node.db.next_version_id
      txns := update node.kv.txns txn.txn_id (some { state := .kCommitted, commit_ts := node.db.next_ts })
      versions := versions },
    ((drew_ts node.db).mark_txn_finished txn).1,
    update node.txns txn.txn_id (some ((drew_ts node.db).mark_txn_finished txn).2)⟩

/-- The node after the checks of a write, and the status. -/
def wrote_row (node : Node) (txn : Transaction) (key : RowKey) (is_delete : Bool) (row : Row) :
    Except Status WriteOutcome → Node × Except Status Unit
  | .error s => (node, .error s)
  | .ok (.rewrite w rec) => (node.rewrote w rec is_delete row, .ok ())
  | .ok (.install prev_id) => (node.installed txn key prev_id is_delete row, .ok ())

/-- The checks of a row call. -/
def row_outcome (node : Node) (txn : Transaction) (r : RowCall) : Node × Except Status Unit :=
  match r.key with
  | .error s => (node, .error s)
  | .ok key => node.wrote_row txn key r.is_delete r.row (txn.write_outcome node.kv key r.is_delete r.is_insert)

theorem update_txn (hids : ∀ id txn, node.txns id = some txn → txn.txn_id = id) (htxn : node.txns id = some txn) :
    update node.txns txn.txn_id (some txn) = node.txns := by
  rw [hids id txn htxn, ← htxn, update_eq_self]

theorem row_step_eq (hcall : row_call node.db call = some r)
    (hids : ∀ id txn, node.txns id = some txn → txn.txn_id = id) :
    node.step call = (node.txns r.id).map fun txn => node.row_outcome txn r := by
  rw [step_eq_finish, row_prog hcall, map_map]
  refine Option.map_congr fun txn htxn => ?_
  rw [comp_apply, row_run, row_outcome]
  cases r.key with
  | error s => rfl
  | ok key =>
    dsimp only
    cases txn.write_outcome node.kv key r.is_delete r.is_insert with
    | error s => rfl
    | ok outcome =>
      cases outcome with
      | rewrite w rec =>
        rw [finish, update_txn hids htxn]
        rfl
      | install prev_id => rfl

end Node

end reldb
