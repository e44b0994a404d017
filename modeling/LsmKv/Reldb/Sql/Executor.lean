import LsmKv.Lib.Pulling
import LsmKv.Reldb.Scan
import LsmKv.Reldb.Sql.Eval

namespace reldb

open lsmkv (Status)
open pulling (Producer Output)

/-- A tree of executors that is not opened yet. Each keeps the schema of the rows
    that it reads. -/
inductive Query where
  | seq_scan (schema : TableSchema)
  | pk_point_get (schema : TableSchema) (pk : Value)
  | pk_range_scan (schema : TableSchema) (start_pk end_pk : Option Value)
  | filter (child : Query) (input_schema : TableSchema) (predicate : Expr)
  | project (child : Query) (input_schema : TableSchema) (projections : List (String × Expr))
  | sort (child : Query) (keys : List SortKey)
  | limit (child : Query) (n : Nat)

namespace Query

/-- The columns of the rows that come out. -/
def column_names : Query → List String
  | .seq_scan schema | .pk_point_get schema _ | .pk_range_scan schema _ _ => schema.columns.map ColumnDef.name
  | .filter child _ _ | .sort child _ | .limit child _ => child.column_names
  | .project _ _ projections => projections.map Prod.fst

def plan_tag : Query → String
  | .seq_scan _ => "SeqScan"
  | .pk_point_get _ _ => "PkPointGet"
  | .pk_range_scan _ _ _ => "PkRangeScan"
  | .filter child _ _ => "Filter<-" ++ child.plan_tag
  | .project child _ _ => "Project<-" ++ child.plan_tag
  | .sort child _ => "Sort<-" ++ child.plan_tag
  | .limit child _ => "Limit<-" ++ child.plan_tag

end Query

/-- `Next` of a scan. The scan moves on before the row is given out, so that a row is
    lost when the one behind it cannot be read. -/
def TableRowScan.pull (kv : Kv) (scan : TableRowScan) : Except Status (Option (Row × TableRowScan)) :=
  match scan.current with
  | none => scan.status.map fun _ => none
  | some (_, row) => (scan.next kv).status.map fun _ => some (row, scan.next kv)

/-- One more than the keys before the cursor, while it stands on a row. -/
def TableRowScan.rank (scan : TableRowScan) : Nat := if scan.current.isSome then scan.keys.length + 1 else 0

theorem TableRowScan.rank_advance_keys (scan : TableRowScan) (kv : Kv) (keys : List RowKey) :
    (scan.advance_keys kv keys).rank ≤ keys.length + 1 := by
  induction keys with
  | nil => exact Nat.zero_le _
  | cons key keys ih =>
    rw [advance_keys]
    split
    · exact le_rfl
    · exact ih.trans (Nat.le_succ _)
    · exact Nat.zero_le _
    · exact Nat.zero_le _

theorem TableRowScan.rank_pull {kv : Kv} {scan scan' : TableRowScan} {row : Row}
    (h : scan.pull kv = .ok (some (row, scan'))) : scan'.rank < scan.rank := by
  cases hcurrent : scan.current with
  | none => cases hstatus : scan.status <;> simp [pull, hcurrent, hstatus, Except.map] at h
  | some current =>
    obtain rfl : scan.next kv = scan' := by
      cases hstatus : (scan.next kv).status <;> simp_all [pull, Except.map]
    have hrank : scan.rank = scan.keys.length + 1 := if_pos (by rw [hcurrent]; rfl)
    rw [hrank, next, if_neg (by simp [hcurrent]), advance]
    split
    · exact Nat.succ_pos _
    · have hle := ({ scan with keys := scan.keys.tail } : TableRowScan).rank_advance_keys kv scan.keys.tail
      dsimp only
      cases hkeys : scan.keys with
      | nil => exact Nat.succ_pos _
      | cons key keys =>
        rw [hkeys] at hle
        exact Nat.lt_succ_of_le hle

def TableRowScan.producer (kv : Kv) : Producer TableRowScan Status Row := ⟨pull kv, rank, rank_pull⟩

/-- The store, the database and the transaction that a statement reads through. -/
structure Reader where
  disk : Disk
  db : Database
  txn : Transaction

/-- What a query needs to be opened into something that gives rows. -/
structure Ops (E : Type u) where
  scan : TableRowScan → E
  rows : List Row → E
  pick : (Row → Except Status (Option Row)) → E → E
  take : Nat → E → E
  all : E → Except Status (List Row)

/-- The row of a `Get`, if it is there. -/
def found : Except Status Row → Except Status (List Row)
  | .ok row => .ok [row]
  | .error s => if s.is_not_found then .ok [] else .error s

def filter_row (schema : TableSchema) (predicate : Expr) (row : Row) : Except Status (Option Row) :=
  (predicate.eval_bool row schema).map fun keep => if keep then some row else none

def project_row (schema : TableSchema) (exprs : List Expr) (row : Row) : Except Status (Option Row) :=
  (exprs.mapM fun (e : Expr) => e.eval row schema).map some

/-- `Open`, from the root down. `Sort` drains its child there. -/
def Query.open_with {E : Type u} (ops : Ops E) (r : Reader) : Query → Except Status E
  | .seq_scan schema => (r.txn.scan r.disk r.db schema.name none none).map ops.scan
  | .pk_range_scan schema start_pk end_pk => (r.txn.scan r.disk r.db schema.name start_pk end_pk).map ops.scan
  | .pk_point_get schema pk => (found (r.txn.get r.disk.kv r.db schema.name pk)).map ops.rows
  | .filter child schema predicate =>
    (predicate.bind schema).bind fun predicate => (child.open_with ops r).map (ops.pick (filter_row schema predicate))
  | .project child schema projections =>
    if projections = [] then .error (.InvalidArgument "empty projection list")
    else (projections.mapM fun (p : String × Expr) => p.2.bind schema).bind fun exprs =>
      (child.open_with ops r).map (ops.pick (project_row schema exprs))
  | .sort child keys =>
    if keys = [] then .error (.InvalidArgument "empty sort keys")
    else (child.open_with ops r).bind fun e => ((ops.all e).bind (sort_rows keys)).map ops.rows
  | .limit child n => (child.open_with ops r).map (ops.take n)

/-- An opened executor, which is asked for its rows one after another. -/
structure Executor where
  State : Type
  producer : Producer State Status Row
  state : State

def Executor.output (e : Executor) : Output Status Row := e.producer.output e.state

/-- The executors of the code. -/
def Executor.ops (kv : Kv) : Ops Executor where
  scan scan := ⟨_, TableRowScan.producer kv, scan⟩
  rows rows := ⟨_, .ofList, rows⟩
  pick f e := ⟨_, e.producer.pick f, e.state⟩
  take n e := ⟨_, e.producer.take, (e.state, n)⟩
  all e := e.output.all

/-- Whole lists of rows in their place. -/
def table_ops (kv : Kv) : Ops (Output Status Row) where
  scan := (TableRowScan.producer kv).output
  rows rows := ⟨rows, none⟩
  pick := Output.pick
  take := Output.take
  all := Output.all

def Query.result (query : Query) (rows : List Row) : QueryResult :=
  { column_names := query.column_names.map Bytes.ofString, rows := rows, plan_tag := Bytes.ofString query.plan_tag }

def collect (r : Reader) (query : Query) : Except Status QueryResult :=
  (query.open_with (Executor.ops r.disk.kv) r).bind fun e => e.output.all.map query.result

theorem map_output {E : Type u} {E' : Type v} {f : E → E} {g : E' → E'} {h : E → E'} (hcomm : ∀ e, h (f e) = g (h e))
    (x : Except Status E) : (x.map f).map h = (x.map h).map g := by
  cases x with
  | error s => rfl
  | ok e => exact congrArg Except.ok (hcomm e)

/-- Every operator on executors does to the rows that come out what the operator on
    lists of rows does. -/
theorem Query.open_output (kv : Kv) (r : Reader) (query : Query) :
    (query.open_with (Executor.ops kv) r).map Executor.output = query.open_with (table_ops kv) r := by
  have hrows (x : Except Status (List Row)) :
      (x.map (Executor.ops kv).rows).map Executor.output = x.map (table_ops kv).rows := by
    cases x with
    | error s => rfl
    | ok rows => exact congrArg Except.ok (Producer.output_ofList rows)
  induction query with
  | seq_scan schema | pk_range_scan schema start_pk end_pk =>
    rw [open_with, open_with]
    cases r.txn.scan r.disk r.db schema.name _ _ <;> rfl
  | pk_point_get schema pk =>
    rw [open_with, open_with]
    exact hrows _
  | filter child schema predicate ih =>
    rw [open_with, open_with, ← ih]
    cases predicate.bind schema with
    | error e => rfl
    | ok predicate => exact map_output (fun e => e.producer.output_pick _ _) _
  | project child schema projections ih =>
    rw [open_with, open_with, ← ih]
    split
    · rfl
    · cases projections.mapM fun p => p.2.bind schema with
      | error e => rfl
      | ok exprs => exact map_output (fun e => e.producer.output_pick _ _) _
  | sort child keys ih =>
    rw [open_with, open_with, ← ih]
    split
    · rfl
    · cases child.open_with (Executor.ops kv) r with
      | error e => rfl
      | ok e => exact hrows _
  | limit child n ih =>
    rw [open_with, open_with, ← ih]
    exact map_output (fun e => e.producer.output_take _ _) _

/-- Collecting the rows that a query gives one after another is the same as to work
    through whole lists of rows, operator by operator, with the same failures. In
    particular a limit does not see what fails behind its last row. -/
theorem collect_eq (r : Reader) (query : Query) :
    collect r query = (query.open_with (table_ops r.disk.kv) r).bind fun o => o.all.map query.result := by
  rw [collect, ← Query.open_output]
  cases query.open_with (Executor.ops r.disk.kv) r <;> rfl

end reldb
