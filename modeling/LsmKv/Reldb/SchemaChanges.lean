import LsmKv.Reldb.ByteStore
import LsmKv.Reldb.Conformance
import LsmKv.Reldb.VersionChains

namespace reldb

open lsmkv (Status)
open effects (applyAll)
open history (latest)
open snapshot (keyCommits committedAt Wrote)
open Option

/-- The table that an ALTER is about and what it is to do to the rows: ADD COLUMN appends
    the default, DROP COLUMN removes the cell of the column. -/
def Ddl.row_change (db : Database) : Ddl → Option (String × (Row → Row))
  | .alter_table_add_column table _ default_value => some (table, fun row => row ++ [default_value])
  | .alter_table_drop_column table col_name =>
    (db.catalog table).bind fun schema =>
      (schema.column_index col_name).map fun i => (table, fun row => row.eraseIdx i)
  | _ => none

/-- The code changes rows as it is to. -/
theorem Ddl.Alters.change_eq {db : Database} {ddl : Ddl} {table table' : String} {a : Database.Alteration}
    {change : Row → Row} (h : ddl.Alters db table a) (hchange : ddl.row_change db = some (table', change)) :
    table' = table ∧ change = a.change := by
  rcases h with ⟨col, default_value, rfl, hcheck⟩ | ⟨col_name, rfl, hcheck⟩
  · cases hchange
    exact ⟨rfl, (Database.check_add_column_ok hcheck).2.2.2.2.2.2.symm⟩
  · obtain ⟨-, hold, i, hindex, -, -, -, ha⟩ := Database.check_drop_column_ok hcheck
    simp only [Ddl.row_change, hold, bind_some, hindex, map_some] at hchange
    cases hchange
    exact ⟨rfl, ha.symm⟩

/-- What is in step of a server: the log of the clients, and the rows with their tables. -/
def Server.InStep (server : Server) : Prop :=
  (∃ since log floor, Simulates since server.node log ∧ Conforms server.node log floor) ∧ server.Sound

namespace Server.InStep

variable {server after : Server} {status : Except Status Unit}

theorem opened (h : Server.opened {} = some server) : server.InStep := by
  obtain ⟨hsim, hsound⟩ := Server.opened_simulates h
  refine ⟨⟨0, {}, 0, hsim, Conforms.quiet ?_ hsim.ts_pos ?_ ?_⟩, hsound⟩
  · cases h
    rintro id txn ⟨⟩
  · cases h
    rintro name schema ⟨⟩
  · rintro k schema row ts - - ⟨⟩

theorem step (h : server.InStep) {command : Command} (hconfined : server.confined command = true)
    (hstep : server.step command = some (after, status)) : after.InStep := by
  obtain ⟨⟨since, log, floor, hsim, hconforms⟩, hsound⟩ := h
  exact ⟨hconforms.command hsim hsound hconfined hstep, hsound.step hstep⟩

theorem session {commands : List Command}
    (hrun : System.run (.down {}) (Action.session commands) = some (.up server))
    (hconfined : System.every System.confined (.down {}) (Action.session commands) = true) : server.InStep :=
  System.run_session (I := Server.InStep) (C := System.confined) opened
    (fun h hconfined hstep => h.step hconfined hstep) hconfined hrun

end Server.InStep

/-- An ALTER that succeeds. -/
theorem Server.alters_of_step {since : Nat} {server after : Server} {log : snapshot.State RowKey Row}
    (hsim : Simulates since server.node log) (hsound : server.Sound) {ddl : Ddl} {table : String} {change : Row → Row}
    (hchange : ddl.row_change server.db = some (table, change))
    (hstep : server.step (.ddl ddl) = some (after, .ok ())) :
    ∃ table a, ddl.Alters server.db table a ∧ ∃ pks pre, Alters server log table a after (.ok ()) pks pre := by
  have hconfined : server.confined (.ddl ddl) = true := by
    cases ddl with
    | drop_table name => cases hchange
    | _ => rfl
  rcases ddl_cases hsim hsound hconfined hstep with ⟨-, s, hs⟩ | ⟨-, ⟨schema, rfl, -⟩ | ⟨name, rfl, -⟩ | halters⟩
  · cases hs
  · cases hchange
  · cases hchange
  · exact halters

section Changes

variable {since floor : Nat} {server after : Server} {log : snapshot.State RowKey Row}

/-- What a transaction that begins now reads: all that is committed. -/
theorem first_reads (hsim : Simulates since server.node log) {before : Node} {reader : Transaction}
    (hbegin : server.node.step .begin_txn = some (before, .ok ()))
    (hreader : before.txns server.db.next_txn_id = some reader) (k : RowKey) :
    Reads (reader.get before.kv before.db k.1 k.2)
      (committedAt (keyCommits log.commits k) (server.db.next_ts - 1)).join := by
  have hsim' := hsim.step hbegin
  have hrun := Node.then_ok_run (Database.begin_txn_run hsim.no_ddl server.node.kv)
  obtain ⟨rfl, -⟩ := Node.step_ok rfl hrun hbegin
  cases (Function.update_self ..).symm.trans hreader
  obtain ⟨t, hactive⟩ := hsim'.active _ _ hreader rfl
  cases (Function.update_self ..).symm.trans hactive.active
  exact hsim'.get_reads_active hreader rfl hactive k.1 k.2

/-- What a transaction reads that began after ALTER, of a row that nobody wrote since. -/
theorem altered_reads (h : Conforms server.node log floor) (hsim : Simulates since server.node log) {table : String}
    {a : Database.Alteration} {pks pre : List Value} (hold : server.db.catalog table = some a.old) (hok : a.Ok)
    (halters : Server.Alters server log table a after (.ok ()) pks pre) {calls : List Call} {node : Node}
    {later : snapshot.State RowKey Row} (hrun : after.node.run {} calls = some (node, later)) {id : Nat}
    {txn : Transaction} {t : snapshot.Txn RowKey Row} (htxn : node.txns id = some txn) (hopen : txn.finished = false)
    (hactive : later.active id = some t) {k : RowKey} (hown : ¬ Wrote t.writes k)
    (hlater : ∀ c ∈ later.commits, Wrote c.writes k → txn.start_ts < c.commit_ts) :
    let value := (committedAt (keyCommits log.commits k) (server.db.next_ts - 1)).join
    let value' := if k.1 = table then value.map a.change else value
    Reads (txn.get node.kv node.db k.1 k.2) value' ∧ Reads (txn.get_row node.kv k) value' := by
  intro value value'
  have hsim' := halters.simulates.reset halters.quiet
  have hconforms := (h.alter hsim hold hok halters).reset
  have hrun' := run_withOlder (log.commits ++ [a.commit log.commits table server.db.next_ts pre]) hrun
  rw [withOlder, List.append_nil] at hrun'
  have hnode := hsim'.run hrun'
  have hfloor := (hconforms.run hsim' hrun').snapshots id txn htxn hopen
  obtain ⟨t', hactive'⟩ := hnode.active id txn htxn hopen
  cases hactive.symm.trans hactive'.active
  rw [snapshot.wrote_iff_latest, not_isSome_iff_eq_none] at hown
  have hvalue : ((latest t.writes k).getD
      (committedAt (keyCommits (withOlder (log.commits ++ [a.commit log.commits table server.db.next_ts pre])
        later).commits k) txn.start_ts).join) = value' := by
    rw [hown, getD_none, withOlder, snapshot.committedAt_append hlater]
    exact h.altered_view hsim hold hok halters k hfloor
  rw [← hvalue]
  exact ⟨hnode.get_reads_active htxn hopen hactive' k.1 k.2, hnode.get_row_reads htxn hopen hactive' k⟩

end Changes

/-- If DROP deletes the versions of no other row, then in every run of transactions and
    DDL without a crash the rows that a transaction under way reads fit the schema, by key
    or by a scan. And a transaction that begins after an ALTER finds the rows of the table
    changed and all other rows as they were before, but for what was written since. What is
    written up to the read, by ALTER too, fits the records: then it is read back. -/
theorem rows_follow_schema {commands : List Command} {server : Server}
    (hrun : System.run (.down {}) (Action.session commands) = some (.up server))
    (hconfined : System.every System.confined (.down {}) (Action.session commands) = true)
    (hfits : System.fits (Action.session commands) = true) :
    server.disk.kv.ReadFrom (System.bytes (Action.session commands)) ∧
    (∀ id txn table schema, server.txns id = some txn → txn.finished = false → server.db.catalog table = some schema →
      (∀ pk row, txn.get server.disk.kv server.db table pk = .ok row → row.validate_against schema = .ok ()) ∧
      ∀ (scan : TableRowScan) pk row, scan.table = table → scan.txn_id = txn.txn_id → scan.start_ts = txn.start_ts →
        (scan.advance server.disk.kv).current = some (pk, row) → row.validate_against schema = .ok ()) ∧
    ∀ ddl table change after, ddl.row_change server.db = some (table, change) →
      server.step (.ddl ddl) = some (after, .ok ()) →
      ∀ before reader, server.node.step .begin_txn = some (before, .ok ()) →
        before.txns server.db.next_txn_id = some reader →
      ∀ calls node later, after.node.run {} calls = some (node, later) →
        System.fits (Action.session (commands ++ .ddl ddl :: calls.map .call)) = true →
      node.kv.ReadFrom (System.bytes (Action.session (commands ++ .ddl ddl :: calls.map .call))) ∧
      ∀ id txn t, node.txns id = some txn → txn.finished = false → later.active id = some t →
      ∀ k, ¬ Wrote t.writes k → (∀ c ∈ later.commits, Wrote c.writes k → txn.start_ts < c.commit_ts) →
      ∃ value, Reads (reader.get before.kv before.db k.1 k.2) value ∧
        Reads (txn.get node.kv node.db k.1 k.2) (if k.1 = table then value.map change else value) ∧
        ∀ scan : TableRowScan, scan.table = k.1 → scan.txn_id = txn.txn_id → scan.start_ts = txn.start_ts →
          scan.end_key = none → k.2.fits = true →
          scan.visit node.kv k = Visit.of_value k.2 (if k.1 = table then value.map change else value) := by
  obtain ⟨⟨since, log, floor, hsim, h⟩, hsound⟩ := Server.InStep.session hrun hconfined
  refine ⟨System.readFrom_run hrun hfits, fun id txn table schema htxn hopen hschema => ⟨fun pk row hget => ?_,
    fun scan pk row htable hid hstart hcurrent => ?_⟩, ?_⟩
  · rw [Transaction.get, if_neg (by simp [hopen]), Database.get_table, hschema] at hget
    exact h.get_row_fits hsim htxn hopen (k := (table, pk)) hschema hget
  · have hrow := TableRowScan.advance_current hcurrent
    rw [htable, hid, hstart] at hrow
    exact h.get_row_fits hsim htxn hopen (k := (table, pk)) hschema hrow
  · intro ddl table change after hchange hstep before reader hbegin hreader calls node later hcalls hmore
    obtain ⟨last, hlast, rfl⟩ := System.run_of_node hcalls
    refine ⟨System.readFrom_later hrun hmore (by simpa [System.run, System.step, hstep] using hlast), ?_⟩
    intro id txn t htxn hopen hactive k hown hlater
    obtain ⟨table', a, hddl, pks, pre, halters⟩ := Server.alters_of_step hsim hsound hchange hstep
    obtain ⟨rfl, rfl⟩ := hddl.change_eq hchange
    obtain ⟨hold, hok⟩ := hddl.ok
    obtain ⟨hget, hget_row⟩ := altered_reads h hsim hold hok halters hcalls htxn hopen hactive hown hlater
    refine ⟨_, first_reads hsim hbegin hreader k, hget, fun scan htable hid hstart hend hfits => ?_⟩
    refine TableRowScan.visit_eq htable (by rw [hend]; rfl) hfits ?_
    rw [hid, hstart]
    exact hget_row

def oneNumber : List Command :=
  [.ddl (.create_table numbersTable), .call .begin_txn, .call (.insert 1 "t" [.int64 1, .int64 10]), .call (.commit 1)]

/-- A row before and after ADD COLUMN. -/
theorem rows_follow_schema_added : ∃ server after before reader node later txn,
    System.run (.down {}) (Action.session oneNumber) = some (.up server) ∧
    server.step addFlag = some (after, .ok ()) ∧ server.node.step .begin_txn = some (before, .ok ()) ∧
    before.txns 2 = some reader ∧ after.node.run {} [.begin_txn] = some (node, later) ∧ node.txns 2 = some txn ∧
    ∃ value, Reads (reader.get before.kv before.db "t" (.int64 1)) value ∧
      Reads (txn.get node.kv node.db "t" (.int64 1)) (value.map fun row => row ++ [.bool true]) := by
  have hfacts : ((System.run (.down {}) (Action.session oneNumber)).bind System.server?).bind (fun server =>
      (server.step addFlag).bind fun altered => (altered.1.node.run {} [.begin_txn]).bind fun ran =>
        (server.node.step .begin_txn).map fun begun =>
          ((altered.2, (ran.1.txns 2).any (fun txn => !txn.finished), (ran.2.active 2).any (fun t => t.writes.isEmpty),
            ran.2.commits.isEmpty), server.db.next_txn_id, begun.2, (begun.1.txns 2).isSome)) =
      some ((.ok (), true, true, true), 2, .ok (), true) := by decide +kernel
  obtain ⟨server, hrun, hfacts⟩ := System.run_up hfacts
  simp only [Prod.mk.injEq, bind_eq_some_iff, map_eq_some_iff, Prod.exists, any_eq_true,
    List.isEmpty_iff, Bool.not_eq_true'] at hfacts
  obtain ⟨after, status, hstep, node, later, hcalls, before, status', hbegin, ⟨rfl, ⟨txn, htxn, hopen⟩,
    ⟨t, hactive, hwrites⟩, hcommits⟩, hnext, rfl, hreader⟩ := hfacts
  obtain ⟨reader, hreader⟩ := isSome_iff_exists.mp hreader
  refine ⟨server, after, before, reader, node, later, txn, hrun, hstep, hbegin, hreader, hcalls, htxn, ?_⟩
  obtain ⟨value, hbefore, hafter, -⟩ := ((rows_follow_schema hrun (by decide +kernel) (by decide +kernel)).2.2
    (.alter_table_add_column "t" ⟨"flag", .kBool, false⟩ (.bool true)) "t" _ after rfl hstep before reader hbegin
    (by rw [hnext]; exact hreader) [.begin_txn] node later hcalls (by decide +kernel)).2 2 txn t htxn hopen hactive
    ("t", .int64 1) (by rw [hwrites]; rintro ⟨u, ⟨⟩, -⟩)
    (by rw [hcommits]; rintro c ⟨⟩)
  exact ⟨value, hbefore, hafter⟩

/-- Of two rows one loses its versions to the DROP of a table whose name goes on like its
    key; then ALTER fails at it and has rewritten the other. -/
def alterFailsMidway : List Command :=
  [.ddl (.create_table numbersTable), .call .begin_txn, .call (.insert 1 "t" [.int64 1, .int64 10]),
    .call (.insert 1 "t" [.int64 2, .int64 20]), .call (.commit 1),
    .ddl (.create_table ⟨"t/010200000000000000", numbersTable.columns⟩), .ddl (.drop_table "t/010200000000000000"),
    addFlag, .call .begin_txn]

/-- A transaction reads a row with three cells from a table with two columns. -/
theorem row_wider_than_schema : ∃ server txn row,
    System.run (.down {}) (Action.session alterFailsMidway) = some (.up server) ∧ server.txns 2 = some txn ∧
    txn.finished = false ∧ server.db.catalog "t" = some numbersTable ∧
    txn.get server.disk.kv server.db "t" (.int64 1) = .ok row ∧
    row.validate_against numbersTable = .error (.InvalidArgument "row column count mismatch") := by
  have hfacts : ((System.run (.down {}) (Action.session alterFailsMidway)).bind System.server?).bind (fun server =>
      (server.txns 2).map fun txn =>
        (server.db.catalog "t", txn.finished, txn.get server.disk.kv server.db "t" (.int64 1))) =
      some (some numbersTable, false, .ok [.int64 1, .int64 10, .bool true]) := by decide +kernel
  obtain ⟨server, hrun, hfacts⟩ := System.run_up hfacts
  simp only [Prod.mk.injEq, map_eq_some_iff] at hfacts
  obtain ⟨txn, htxn, hschema, hopen, hget⟩ := hfacts
  exact ⟨server, txn, _, hrun, htxn, hopen, hschema, hget, by decide +kernel⟩

end reldb
