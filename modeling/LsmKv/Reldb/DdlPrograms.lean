import LsmKv.Reldb.Ddl
import LsmKv.Reldb.Programs

namespace reldb

open lsmkv (Status)
open List Function effects Transaction Except Database

namespace Database

variable {db : Database} {disk : Disk} {name table : String}

/-- The database with a table put in its catalog. -/
def with_table (db : Database) (schema : TableSchema) : Database :=
  { db with catalog := update db.catalog schema.name (some schema) }

def without_table (db : Database) (name : String) : Database :=
  { db with catalog := update db.catalog name none }

theorem ddl_gate_ok (h : db.ddl_gate = .ok ()) : db.open_txn_count = 0 ∧ db.ddl_in_progress = false := by
  simp only [ddl_gate, ite_error_eq_ok] at h
  exact ⟨not_not.mp h.1, by simpa using h.2.1⟩

/-- CREATE goes through only without transactions and for a new name. -/
theorem check_create_table_ok {schema : TableSchema} (h : db.check_create_table schema = .ok ()) :
    db.open_txn_count = 0 ∧ db.catalog schema.name = none := by
  simp only [check_create_table, bind_eq_ok, ite_error_eq_ok] at h
  obtain ⟨_, hgate, _, -, hnew, -⟩ := h
  exact ⟨(ddl_gate_ok hgate).1, by simpa using hnew⟩

theorem check_drop_table_ok (h : db.check_drop_table name = .ok ()) :
    db.open_txn_count = 0 ∧ (db.catalog name).isSome := by
  simp only [check_drop_table, bind_eq_ok, ite_error_eq_ok] at h
  obtain ⟨_, hgate, hsome, -⟩ := h
  exact ⟨(ddl_gate_ok hgate).1, Option.isSome_iff_ne_none.mpr (by simpa using hsome)⟩

/-- ADD COLUMN goes through only without transactions, for a valid schema with one column
    more, and with a default of the type of the column. -/
theorem check_add_column_ok {col : ColumnDef} {default_value : Value} {a : Alteration}
    (h : db.check_add_column table col default_value = .ok a) :
    db.open_txn_count = 0 ∧ db.catalog table = some a.old ∧ a.neu = ⟨a.old.name, a.old.columns ++ [col]⟩ ∧
      a.neu.validate = .ok () ∧ default_value.is_null = false ∧ default_value.type = col.type ∧
      a.change = fun row => row ++ [default_value] := by
  simp only [check_add_column, bind_eq_ok, ite_error_eq_ok] at h
  obtain ⟨-, -, hnull, htype, _, hgate, old, hold, -, _, hvalid, ha⟩ := h
  cases ha
  exact ⟨(ddl_gate_ok hgate).1, get_table_ok hold, rfl, hvalid, by simpa using hnull, not_not.mp htype, rfl⟩

/-- DROP COLUMN goes through only without transactions and for a valid schema with that
    column less. -/
theorem check_drop_column_ok {col_name : String} {a : Alteration} (h : db.check_drop_column table col_name = .ok a) :
    db.open_txn_count = 0 ∧ db.catalog table = some a.old ∧ ∃ i, a.old.column_index col_name = some i ∧
      a.neu = ⟨a.old.name, a.old.columns.eraseIdx i⟩ ∧ a.neu.validate = .ok () ∧
      ((a.old.columns[i]?).map ColumnDef.primary_key).getD false = false ∧ a.change = fun row => row.eraseIdx i := by
  simp only [check_drop_column, bind_eq_ok, ite_error_eq_ok] at h
  obtain ⟨-, _, hgate, old, hold, h⟩ := h
  cases hindex : old.column_index col_name with
  | none =>
    rw [hindex] at h
    cases h
  | some i =>
    simp only [hindex, bind_eq_ok, ite_error_eq_ok] at h
    obtain ⟨hpk, _, hvalid, ha⟩ := h
    cases ha
    exact ⟨(ddl_gate_ok hgate).1, get_table_ok hold, i, hindex, rfl, hvalid, by simpa using hpk, rfl⟩

theorem create_table_run (db : Database) (schema : TableSchema) (disk : Disk) : db.create_table schema disk =
    match db.check_create_table schema with
    | .error s => ([], .ok (db, .error s))
    | .ok () => ([.put_table schema], .ok (db.with_table schema, .ok ())) := by
  rw [create_table]
  cases db.check_create_table schema <;> rfl

/-- The writes of DROP: the catalog entry, the heads, the versions. -/
def drop_ops (disk : Disk) (name : String) : List DiskOp :=
  .delete_table name ::
    ((disk.seek_heads (row_head_stem name) (row_head_stem name)).map (fun key => .kv (.clear_head key)) ++
      (disk.seek_versions (version_stem name)).map fun key => .delete_version key.1 key.2)

/-- What DROP deletes: the catalog entry, and the heads and the versions whose keys start
    with the stems of the table. -/
theorem mem_drop_ops {op : DiskOp} : op ∈ drop_ops disk name ↔ op = .delete_table name ∨
    (∃ k, (disk.kv.heads k).isSome ∧ Under name k.1 ∧ op = .kv (.clear_head k)) ∨
    ∃ k v, (disk.kv.versions k v).isSome ∧ version_stem name <+: version_key k v ∧ op = .delete_version k v := by
  simp only [drop_ops, mem_cons, mem_append, mem_map, Disk.mem_seek_heads, Disk.seek_versions, listing.mem_seek_stem,
    Prod.exists, disk.mem_version_keys, and_assoc, eq_comm (a := op)]

/-- Deleting heads leaves the versions. -/
theorem applyAll_clear_heads (disk : Disk) (keys : List RowKey) :
    (applyAll disk (keys.map fun key => DiskOp.kv (.clear_head key))).version_keys = disk.version_keys ∧
      (applyAll disk (keys.map fun key => DiskOp.kv (.clear_head key))).kv.versions = disk.kv.versions := by
  induction keys generalizing disk with
  | nil => exact ⟨rfl, rfl⟩
  | cons key keys ih => exact ih (disk.apply (.kv (.clear_head key)))

theorem drop_tables (disk : Disk) (name : String) :
    (applyAll disk (drop_ops disk name)).tables = update disk.tables name none := by
  refine applyAll_same Disk.tables (fun op hop disk' => ?_) (disk.apply (.delete_table name))
  rcases mem_append.mp hop with hop | hop
  · obtain ⟨key, -, rfl⟩ := mem_map.mp hop
    rfl
  · obtain ⟨key, -, rfl⟩ := mem_map.mp hop
    rfl

/-- DROP removes heads and versions and adds none. -/
theorem drop_ops_removes {op : DiskOp} (hop : op ∈ drop_ops disk name) : op.Removes := by
  rcases mem_drop_ops.mp hop with rfl | ⟨key, -, -, rfl⟩ | ⟨key, version_id, -, -, rfl⟩
  · exact fun _ => ⟨fun _ _ hhead => hhead, fun _ _ _ hrec => hrec, rfl⟩
  · exact .clear_head key
  · exact .delete_version key version_id

theorem drop_table_run (db : Database) (name : String) (disk : Disk) : db.drop_table name disk =
    match db.check_drop_table name with
    | .error s => ([], .ok (db, .error s))
    | .ok () => (drop_ops disk name, .ok (db.without_table name, .ok ())) := by
  have hheads : delete_heads (row_head_stem name) (disk.apply (.delete_table name)) =
      ((disk.seek_heads (row_head_stem name) (row_head_stem name)).map (fun key => .kv (.clear_head key)), .ok ()) :=
    Prog.forEach_perform _ _ _
  have hversions : ∀ disk' : Disk, delete_versions (version_stem name) disk' =
      ((disk'.seek_versions (version_stem name)).map (fun key => .delete_version key.1 key.2), .ok ()) :=
    fun disk' => Prog.forEach_perform _ _ _
  rw [drop_table]
  cases db.check_drop_table name with
  | error s => rfl
  | ok _ =>
    dsimp only
    rw [Prog.perform_bind, Disk.store_apply, Prog.bind_ok hheads,
      Prog.bind_ok (hversions _)]
    refine Prod.ext ?_ rfl
    simp only [drop_ops, Disk.seek_versions, applyAll_clear_heads, Prog.pure_run, append_nil]
    rfl

section Alter

variable {kv : Kv} {key : RowKey} {a : Alteration} {commit_ts : Nat}

/-- The version that ALTER puts in the place of another one. -/
def rewritten (db : Database) (commit_ts : Nat) (prior : VersionRecord) (row : Row) : VersionRecord :=
  { version_id := db.next_version_id, start_ts := commit_ts, prev_id := prior.version_id, payload := row }

def replace_ops (db : Database) (key : RowKey) (commit_ts : Nat) (prior : VersionRecord) (row : Row) : List KvOp :=
  [.put_version_value key { prior with end_ts := commit_ts },
    .put_version_value key (rewritten db commit_ts prior row), .set_head key db.next_version_id]

theorem alter_row_run (db : Database) (key : RowKey) (commit_ts : Nat) (a : Alteration) (kv : Kv) :
    alter_row db key commit_ts a kv =
      match altered_row kv key a with
      | .error s => ([], .error s)
      | .ok none => ([], .ok db)
      | .ok (some (prior, row)) => (replace_ops db key commit_ts prior row, .ok (drew_version db)) := by
  rw [alter_row, Prog.query_bind]
  cases altered_row kv key a with
  | error s => rfl
  | ok found =>
    cases found with
    | none => rfl
    | some pair => rfl

theorem alter_rows_cons (table : String) (pk : Value) (pks : List Value) (db : Database) :
    alter_rows table commit_ts a (pk :: pks) db kv =
      match altered_row kv (table, pk) a with
      | .error s => ([], .ok (db, .error s))
      | .ok none => alter_rows table commit_ts a pks db kv
      | .ok (some (prior, row)) =>
        let ops := replace_ops db (table, pk) commit_ts prior row
        let rest := alter_rows table commit_ts a pks (drew_version db) (applyAll kv ops)
        (ops ++ rest.1, rest.2) := by
  have hattempt : Prog.attempt (alter_row db (table, pk) commit_ts a) kv =
      ((alter_row db (table, pk) commit_ts a kv).1, .ok (alter_row db (table, pk) commit_ts a kv).2) := rfl
  rw [alter_rows]
  rw [alter_row_run] at hattempt
  cases hfound : altered_row kv (table, pk) a with
  | error s =>
    rw [hfound] at hattempt
    rw [Prog.bind_ok hattempt]
    rfl
  | ok found =>
    rw [hfound] at hattempt
    cases found with
    | none =>
      rw [Prog.bind_ok hattempt]
      rfl
    | some pair =>
      rw [Prog.bind_ok hattempt]

theorem alter_rows_returns (table : String) (pks : List Value) (db : Database) (kv : Kv) :
    ∃ db' status, (alter_rows table commit_ts a pks db kv).2 = .ok (db', status) := by
  induction pks generalizing db kv with
  | nil => exact ⟨db, .ok (), rfl⟩
  | cons pk pks ih =>
    rw [alter_rows_cons]
    cases altered_row kv (table, pk) a with
    | error s => exact ⟨db, .error s, rfl⟩
    | ok found =>
      cases found with
      | none => exact ih db kv
      | some pair => exact ih _ _

/-- Of the memory, ALTER of the rows changes the counter of versions only. -/
theorem alter_rows_db {table : String} {pks : List Value} {db db' : Database} {kv : Kv} {status : Except Status Unit}
    (h : (alter_rows table commit_ts a pks db kv).2 = .ok (db', status)) :
    db' = { db with next_version_id := db'.next_version_id } := by
  induction pks generalizing db kv with
  | nil =>
    cases h
    rfl
  | cons pk pks ih =>
    rw [alter_rows_cons] at h
    cases hfound : altered_row kv (table, pk) a with
    | error s =>
      rw [hfound] at h
      cases h
      rfl
    | ok found =>
      rw [hfound] at h
      cases found with
      | none => exact ih h
      | some pair => exact @ih (drew_version db) _ h

/-- The writes of ALTER: the rows, the counters, the catalog entry. -/
theorem alter_table_run (db : Database) (table : String) (a : Alteration) (disk : Disk) : db.alter_table table a disk =
    match collect_pks disk table with
    | .error s => ([], .ok (db, .error s))
    | .ok pks =>
      match alter_rows table db.next_ts a pks (drew_ts db) disk.kv with
      | (ops, .ok (db', .ok ())) =>
        (ops.map .kv ++ (db'.oracle_ops.map .kv ++ [.put_table a.neu]), .ok (db'.with_table a.neu, .ok ()))
      | (ops, .ok (db', .error s)) => (ops.map .kv, .ok (db', .error s))
      | (ops, .error s) => (ops.map .kv, .error s) := by
  have hattempt : Prog.attempt (Prog.query fun disk => collect_pks disk table) disk =
      (([] : List DiskOp), (.ok (collect_pks disk table) : Except Status _)) := rfl
  rw [alter_table, Prog.bind_ok hattempt]
  simp only [applyAll_nil, nil_append]
  cases collect_pks disk table with
  | error s => rfl
  | ok pks =>
    dsimp only
    cases hrows : alter_rows table db.next_ts a pks (drew_ts db) disk.kv with
    | mk ops result =>
    have hlift : lift (alter_rows table db.next_ts a pks (drew_ts db)) disk = (ops.map .kv, result) := by
      rw [lift, hrows]
    cases result with
    | error s => exact Prog.bind_error hlift
    | ok pair =>
      obtain ⟨db', status⟩ := pair
      cases status with
      | error s =>
        refine (Prog.bind_ok hlift).trans ?_
        simp
      | ok _ => exact Prog.bind_ok hlift

variable {P : VersionRecord → Prop} {prior : VersionRecord}

/-- The walk of ALTER ends at a stamped version of the chain, or the row counts as deleted. -/
theorem committed_prior_ok
    (hclosed : ∀ rec prev, P rec → rec.prev_id ≠ 0 → kv.versions key rec.prev_id = some prev → P prev) {fuel : Nat}
    {rec : VersionRecord} (hrec : P rec) (h : committed_prior kv key fuel rec = .ok prior) :
    prior.is_tombstone = true ∨ P prior := by
  induction fuel generalizing rec with
  | zero =>
    rw [committed_prior] at h
    split at h
    · split at h
      · cases h
        exact .inl rfl
      · cases h
    · cases h
      exact .inr hrec
  | succ fuel ih =>
    rw [committed_prior] at h
    split at h
    · split at h
      · cases h
        exact .inl rfl
      next hnonzero =>
      split at h
      · cases h
      · next prev hprev => exact ih (hclosed rec prev hrec hnonzero (Kv.get_version_eq_ok.mp hprev)) h
    · cases h
      exact .inr hrec

/-- A row that ALTER rewrites. -/
structure Rewritable (kv : Kv) (key : RowKey) (prior : VersionRecord) : Prop where
  head : ∃ head rec, kv.heads key = some head ∧ kv.versions key head = some rec ∧
    committed_prior kv key head rec = .ok prior
  live : prior.is_tombstone = false

/-- What holds of the head and along the chain holds of the version that is rewritten. -/
theorem Rewritable.reaches (h : Rewritable kv key prior)
    (hhead : ∀ head rec, kv.heads key = some head → kv.versions key head = some rec → P rec)
    (hclosed : ∀ rec prev, P rec → rec.prev_id ≠ 0 → kv.versions key rec.prev_id = some prev → P prev) : P prior := by
  obtain ⟨head, rec, hhead', hrec, hwalk⟩ := h.head
  exact (committed_prior_ok hclosed (hhead head rec hhead' hrec) hwalk).resolve_left (by simp [h.live])

theorem altered_row_some {row : Row} (h : altered_row kv key a = .ok (some (prior, row))) :
    Rewritable kv key prior := by
  simp only [altered_row, bind_eq_ok, Kv.get_latest_version_id_eq_ok, Kv.get_version_eq_ok] at h
  obtain ⟨head, hhead, rec, hrec, prior', hprior, h⟩ := h
  split at h
  · cases h
  next hlive =>
  split at h
  · cases h
  simp only [ite_error_eq_ok] at h
  obtain ⟨-, h⟩ := h
  split at h
  · cases h
  simp only [ite_error_eq_ok, bind_eq_ok] at h
  obtain ⟨-, _, -, h⟩ := h
  cases h
  exact ⟨⟨head, rec, hhead, hrec, hprior⟩, by simpa using hlive⟩

section Throughout

variable {I : List DiskOp → Disk → Prop} {past : List DiskOp}

/-- What the replacing of each row keeps. -/
theorem alter_rows_throughout (hreplace : ∀ {past disk} {db' : Database} {pk prior row},
      db'.next_txn_id = db.next_txn_id → db.next_version_id ≤ db'.next_version_id → I past disk →
      Rewritable disk.kv (table, pk) prior →
      Throughout I past disk ((replace_ops db' (table, pk) commit_ts prior row).map .kv))
    (h : I past disk) (a : Alteration) (pks : List Value) {db' : Database}
    (hdb' : db'.next_txn_id = db.next_txn_id) (hvid : db.next_version_id ≤ db'.next_version_id) :
    Throughout I past disk ((alter_rows table commit_ts a pks db' disk.kv).1.map .kv) := by
  induction pks generalizing past disk db' with
  | nil => exact h
  | cons pk pks ih =>
    rw [alter_rows_cons]
    cases hfound : altered_row disk.kv (table, pk) a with
    | error s => exact h
    | ok found =>
      cases found with
      | none => exact ih h hdb' hvid
      | some pair =>
        have hrow := @hreplace _ _ _ _ _ pair.2 hdb' hvid h (altered_row_some hfound)
        dsimp only
        rw [map_append]
        refine hrow.append ?_
        rw [← Disk.applyAll_kv]
        exact ih hrow.last hdb' (Nat.le_succ_of_le hvid)

/-- An invariant of ALTER, which draws no id of a transaction. -/
theorem alter_table_throughout (hreplace : ∀ {past disk} {db' : Database} {pk prior row},
      db'.next_txn_id = db.next_txn_id → db.next_version_id ≤ db'.next_version_id → I past disk →
      Rewritable disk.kv (table, pk) prior →
      Throughout I past disk ((replace_ops db' (table, pk) db.next_ts prior row).map .kv))
    (hcounters : ∀ {past disk} {db' : Database}, db'.next_txn_id = db.next_txn_id → I past disk →
      Throughout I past disk (db'.oracle_ops.map .kv))
    (htable : ∀ {past disk}, I past disk → I (past ++ [.put_table a.neu]) (disk.apply (.put_table a.neu)))
    (h : I past disk) : Throughout I past disk (db.alter_table table a disk).1 := by
  rw [alter_table_run]
  cases collect_pks disk table with
  | error s => exact h
  | ok pks =>
    have hrows := alter_rows_throughout hreplace h a pks (show (drew_ts db).next_txn_id = _ from rfl) le_rfl
    dsimp only
    cases hcase : alter_rows table db.next_ts a pks (drew_ts db) disk.kv with
    | mk ops result =>
    rw [hcase] at hrows
    cases result with
    | error s => exact hrows
    | ok pair =>
      obtain ⟨db', status⟩ := pair
      cases status with
      | error s => exact hrows
      | ok _ =>
        have hdb' : db'.next_txn_id = db.next_txn_id := by
          rw [@alter_rows_db a db.next_ts table pks _ db' disk.kv (.ok ()) (by rw [hcase])]
          rfl
        have hsaved := hcounters hdb' hrows.last
        exact hrows.append (hsaved.append ⟨hsaved.last, htable hsaved.last⟩)

end Throughout

end Alter

end Database

/-- The two forms of ALTER after their checks. -/
def Ddl.Alters (db : Database) (ddl : Ddl) (table : String) (a : Database.Alteration) : Prop :=
  (∃ col default_value, ddl = .alter_table_add_column table col default_value ∧
    db.check_add_column table col default_value = .ok a) ∨
  ∃ col_name, ddl = .alter_table_drop_column table col_name ∧ db.check_drop_column table col_name = .ok a

/-- What DDL is: its checks fail, or it creates, drops or alters a table. -/
theorem Ddl.prog_cases (db : Database) (ddl : Ddl) :
    (∃ s, ∀ disk, ddl.prog db disk = ([], .ok (db, .error s))) ∨
    (∃ schema, ddl = .create_table schema ∧ db.check_create_table schema = .ok () ∧
      ∀ disk, ddl.prog db disk = ([.put_table schema], .ok (db.with_table schema, .ok ()))) ∨
    (∃ name, ddl = .drop_table name ∧ db.check_drop_table name = .ok () ∧
      ∀ disk, ddl.prog db disk = (drop_ops disk name, .ok (db.without_table name, .ok ()))) ∨
    ∃ table a, ddl.Alters db table a ∧ ∀ disk, ddl.prog db disk = db.alter_table table a disk := by
  cases ddl with
  | create_table schema =>
    simp only [Ddl.prog, create_table_run]
    cases hcheck : db.check_create_table schema with
    | error s => exact .inl ⟨s, fun _ => rfl⟩
    | ok _ => exact .inr (.inl ⟨schema, rfl, hcheck, fun _ => rfl⟩)
  | drop_table name =>
    simp only [Ddl.prog, drop_table_run]
    cases hcheck : db.check_drop_table name with
    | error s => exact .inl ⟨s, fun _ => rfl⟩
    | ok _ => exact .inr (.inr (.inl ⟨name, rfl, hcheck, fun _ => rfl⟩))
  | alter_table_add_column table col default_value =>
    rw [Ddl.prog, Database.alter_table_add_column]
    cases hcheck : db.check_add_column table col default_value with
    | error s => exact .inl ⟨s, fun _ => rfl⟩
    | ok a => exact .inr (.inr (.inr ⟨table, a, .inl ⟨col, default_value, rfl, hcheck⟩, fun _ => rfl⟩))
  | alter_table_drop_column table col_name =>
    rw [Ddl.prog, Database.alter_table_drop_column]
    cases hcheck : db.check_drop_column table col_name with
    | error s => exact .inl ⟨s, fun _ => rfl⟩
    | ok a => exact .inr (.inr (.inr ⟨table, a, .inr ⟨col_name, rfl, hcheck⟩, fun _ => rfl⟩))

theorem Ddl.Alters.none_open {db : Database} {ddl : Ddl} {table : String} {a : Database.Alteration}
    (h : ddl.Alters db table a) : db.open_txn_count = 0 := by
  rcases h with ⟨col, default_value, -, hcheck⟩ | ⟨col_name, -, hcheck⟩
  · exact (check_add_column_ok hcheck).1
  · exact (check_drop_column_ok hcheck).1

/-- What DDL leaves in memory. -/
structure DdlLeaves (db : Database) (disk : Disk) (ops : List DiskOp) (db' : Database) : Prop where
  next_ts : db.next_ts ≤ db'.next_ts
  next_txn_id : db'.next_txn_id = db.next_txn_id
  open_txn_count : db'.open_txn_count = db.open_txn_count
  ddl_in_progress : db'.ddl_in_progress = db.ddl_in_progress
  catalog : db.catalog = disk.tables → db'.catalog = (applyAll disk ops).tables

namespace Ddl

variable {db : Database} {disk : Disk}

theorem alter_table_leaves (table : String) (a : Database.Alteration) :
    ∃ ops db' status, db.alter_table table a disk = (ops, .ok (db', status)) ∧ DdlLeaves db disk ops db' := by
  rw [alter_table_run]
  cases collect_pks disk table with
  | error s => exact ⟨[], db, .error s, rfl, le_rfl, rfl, rfl, rfl, id⟩
  | ok pks =>
    dsimp only
    obtain ⟨db', status, hresult⟩ := @Database.alter_rows_returns a db.next_ts table pks (drew_ts db) disk.kv
    have hdb' := alter_rows_db hresult
    cases hrows : alter_rows table db.next_ts a pks (drew_ts db) disk.kv with
    | mk ops result =>
    rw [hrows] at hresult
    subst hresult
    cases status with
    | error s =>
      refine ⟨_, db', _, rfl, ?_⟩
      rw [hdb']
      exact ⟨Nat.le_succ _, rfl, rfl, rfl, fun hcatalog => by rw [Disk.applyAll_tables]; exact hcatalog⟩
    | ok _ =>
      refine ⟨_, db'.with_table a.neu, _, rfl, ?_⟩
      rw [hdb']
      refine ⟨Nat.le_succ _, rfl, rfl, rfl, fun hcatalog => ?_⟩
      rw [applyAll_append, applyAll_append]
      show update db.catalog _ _ = update (applyAll (applyAll disk _) _).tables _ _
      rw [Disk.applyAll_tables, Disk.applyAll_tables, hcatalog]

theorem leaves (ddl : Ddl) :
    ∃ ops db' status, ddl.prog db disk = (ops, .ok (db', status)) ∧ DdlLeaves db disk ops db' := by
  rcases ddl.prog_cases db with ⟨s, hrun⟩ | ⟨schema, -, -, hrun⟩ | ⟨name, -, -, hrun⟩ | ⟨table, a, -, hrun⟩
  · exact ⟨_, _, _, hrun disk, le_rfl, rfl, rfl, rfl, id⟩
  · refine ⟨_, _, _, hrun disk, le_rfl, rfl, rfl, rfl, fun hcatalog => ?_⟩
    rw [with_table, hcatalog]
    rfl
  · refine ⟨_, _, _, hrun disk, le_rfl, rfl, rfl, rfl, fun hcatalog => ?_⟩
    rw [without_table, drop_tables, hcatalog]
  · rw [hrun]
    exact alter_table_leaves table a

end Ddl

end reldb
