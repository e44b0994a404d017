import LsmKv.Reldb.Fresh
import LsmKv.Reldb.Scan
import LsmKv.Reldb.VersionIds

namespace reldb

open lsmkv (Status)
open effects (applyAll Each Throughout)
open List Function Option Database

/-- Rows of the table are in the store only while the catalog has it. -/
structure Housed (next_txn : Nat) (table : String) (disk : Disk) : Prop where
  keyed : disk.kv.Keyed
  saved : next_txn ≤ Database.load disk.kv.next_txn 1
  heads : ∀ pk head, disk.kv.heads (table, pk) = some head → (disk.tables table).isSome

/-- A write that adds no row to a table that is not there. -/
def DiskOp.Lodges (next_txn : Nat) (table : String) (disk : Disk) : DiskOp → Prop
  | .kv (.set_head key _) => key.1 = table → (disk.kv.heads key).isSome ∨ (disk.tables table).isSome
  | .kv (.put_next_txn v) => next_txn ≤ v
  | .delete_table name => name ≠ table
  | _ => True

namespace Housed

variable {next_txn : Nat} {table : String} {disk : Disk} {db : Database}

theorem le_load (v : Nat) : v ≤ Database.load (some v) 1 := by
  rw [Database.load]
  split <;> omega

theorem apply (h : Housed next_txn table disk) {op : DiskOp} (hop : op.Lodges next_txn table disk) :
    Housed next_txn table (disk.apply op) := by
  cases op with
  | kv op =>
    cases op with
    | set_head key v =>
      refine ⟨h.keyed, h.saved, fun pk head hhead => ?_⟩
      rcases update_some_cases hhead with ⟨rfl, -⟩ | ⟨-, hold⟩
      · rcases hop rfl with hold | htable
        · obtain ⟨head', hhead'⟩ := isSome_iff_exists.mp hold
          exact h.heads pk head' hhead'
        · exact htable
      · exact h.heads pk head hold
    | clear_head key => exact ⟨h.keyed, h.saved, fun pk head hhead => h.heads pk head (Kv.heads_of_clear hhead)⟩
    | put_next_txn v => exact ⟨h.keyed, le_trans hop (le_load v), h.heads⟩
    | put_version_value key rec => exact ⟨h.keyed.apply (.put_version_value key rec), h.saved, h.heads⟩
    | _ => exact ⟨h.keyed, h.saved, h.heads⟩
  | put_table schema =>
    refine ⟨h.keyed, h.saved, fun pk head hhead => ?_⟩
    show (update disk.tables schema.name (some schema) table).isSome
    rw [update_apply]
    split
    · rfl
    · exact h.heads pk head hhead
  | delete_table name =>
    refine ⟨h.keyed, h.saved, fun pk head hhead => ?_⟩
    show (update disk.tables name none table).isSome
    rw [update_of_ne (Ne.symm hop)]
    exact h.heads pk head hhead
  | delete_version key version_id =>
    have hwithin := DiskOp.Removes.delete_version key version_id disk
    exact ⟨fun k v rec hrec => h.keyed k v rec (hwithin.versions k v rec hrec), h.saved, h.heads⟩

theorem run (h : Housed next_txn table disk) (past : List DiskOp) {ops : List DiskOp}
    (hops : Each (DiskOp.Lodges next_txn table) disk ops) :
    Throughout (fun _ => Housed next_txn table) past disk ops :=
  Throughout.of_each (fun _ _ _ h hop => h.apply hop) h hops

theorem rewrites_run (h : Housed next_txn table disk) (past : List DiskOp) {ops : List KvOp} {m n : Nat}
    (hops : Each (KvOp.Rewrites m n) disk.kv ops) (hm : next_txn ≤ m) :
    Throughout (fun _ => Housed next_txn table) past disk (ops.map .kv) := by
  induction ops generalizing past disk with
  | nil => exact h
  | cons op ops ih =>
    refine ⟨h, ih (h.apply ?_) _ hops.2⟩
    cases op with
    | set_head key v =>
      obtain ⟨-, head, cur, hhead, -⟩ := hops.1
      exact fun _ => .inl (by rw [hhead]; rfl)
    | put_next_txn v =>
      have hv : v = m := hops.1
      exact hv ▸ hm
    | _ => trivial

theorem first_write_run (h : Housed db.next_txn_id table disk) (past : List DiskOp) {txn : Transaction} {key : RowKey}
    (htable : key.1 = table → (disk.tables table).isSome) (prev_id : Nat) (is_delete : Bool) (row : Row) :
    Throughout (fun _ => Housed db.next_txn_id table) past disk
      ((txn.install_ops db key prev_id is_delete row).map .kv) :=
  h.run past ⟨trivial, le_rfl, trivial, trivial, fun hkey => .inr (htable hkey), trivial, trivial⟩

theorem alter_table_run (h : Housed db.next_txn_id table disk) (past : List DiskOp) (name : String) (a : Database.Alteration) :
    Throughout (fun _ => Housed db.next_txn_id table) past disk (db.alter_table name a disk).1 := by
  refine alter_table_throughout (fun {past disk db' pk prior row} _ _ h hrow => ?_)
    (fun {past disk db'} hdb' h => ?_) (fun h => h.apply trivial) h
  · obtain ⟨head, rec, hhead, -⟩ := hrow.head
    have hsome : (disk.kv.heads (name, pk)).isSome := by
      rw [hhead]
      rfl
    exact h.run _ ⟨trivial, trivial, fun _ => .inl hsome, trivial⟩
  · exact h.run _ ⟨trivial, hdb'.ge, trivial, trivial⟩

/-- A part of DROP: of another table, or nothing, or up to the last head at least. -/
theorem drop_take (h : Housed next_txn table disk) {name : String} {writes : Nat}
    (hdone : name = table → 0 < writes →
      ∀ k ∈ (disk.seek_heads (row_head_stem name) (row_head_stem name)).drop (writes - 1), k.1 ≠ table) :
    Housed next_txn table (applyAll disk ((drop_ops disk name).take writes)) := by
  by_cases heq : name = table
  · cases writes with
    | zero => exact h
    | succ i =>
      have hremoves : ∀ op ∈ (drop_ops disk name).take (i + 1), op.Removes :=
        fun op hop => drop_ops_removes (mem_of_mem_take hop)
      have hwithin := Disk.applyAll_within hremoves disk
      refine ⟨fun k v rec hrec => h.keyed k v rec (hwithin.versions k v rec hrec),
        by rw [hwithin.next_txn]; exact h.saved, fun pk head hhead => ?_⟩
      have hkey : (table, pk) ∈ disk.seek_heads (row_head_stem name) (row_head_stem name) :=
        Disk.mem_seek_heads.mpr ⟨by rw [hwithin.heads _ _ hhead]; rfl, .inl heq.symm⟩
      rw [← take_append_drop i (disk.seek_heads _ _), mem_append] at hkey
      have htaken := hkey.resolve_right fun hleft => hdone heq i.succ_pos _ hleft rfl
      have hcleared : .kv (.clear_head (table, pk)) ∈ (drop_ops disk name).take (i + 1) := by
        refine mem_cons_of_mem _ ?_
        rw [take_append, ← map_take]
        exact mem_append_left _ (mem_map_of_mem htaken)
      rw [Disk.applyAll_cleared hremoves hcleared] at hhead
      cases hhead
  · have hlodges : Each (DiskOp.Lodges next_txn table) disk (drop_ops disk name) := ?_
    · exact (h.run [] hlodges).take writes
    refine Each.of_forall (fun op hop disk' => ?_) _
    rcases mem_drop_ops.mp hop with rfl | ⟨key, -, -, rfl⟩ | ⟨key, version_id, -, -, rfl⟩
    · exact heq
    · trivial
    · trivial

/-- A part of DDL. -/
theorem ddl_take (h : Housed db.next_txn_id table disk) {ddl : Ddl} {writes : Nat}
    (hdone : ∀ name, ddl = .drop_table name → db.check_drop_table name = .ok () → name = table → 0 < writes →
      ∀ k ∈ (disk.seek_heads (row_head_stem name) (row_head_stem name)).drop (writes - 1), k.1 ≠ table) :
    Housed db.next_txn_id table (applyAll disk ((ddl.prog db disk).1.take writes)) := by
  rcases ddl.prog_cases db with ⟨s, hrun⟩ | ⟨schema, -, -, hrun⟩ | ⟨name, heq, hcheck, hrun⟩ | ⟨name, a, -, hrun⟩
  all_goals rw [hrun]
  · rw [take_nil]
    exact h
  · have hput : Each (DiskOp.Lodges db.next_txn_id table) disk [.put_table schema] := ⟨trivial, trivial⟩
    exact (h.run [] hput).take writes
  · exact h.drop_take (hdone name heq hcheck)
  · exact (h.alter_table_run [] name a).take writes

end Housed

namespace System

/-- A process that dies in DROP of the table has written nothing yet, or is past the heads
    of the rows of the table: DROP deletes the catalog entry and then, in key order, the
    heads whose keys start with the stem of the table. -/
def drops_rows (table : String) : System → Action → Bool
  | .up server, .crash (.ddl (.drop_table name)) writes =>
    name ≠ table || server.db.check_drop_table name ≠ .ok () || writes = 0 ||
      ((server.disk.seek_heads (row_head_stem name) (row_head_stem name)).drop (writes - 1)).all fun k => k.1 ≠ table
  | _, _ => true

/-- Before the creation of a table. -/
def Orderly (table : String) : System → Prop
  | .up server => Housed server.db.next_txn_id table server.disk ∧ server.Sound
  | .down disk => Housed 0 table disk

end System

namespace Housed

variable {next_txn : Nat} {table : String} {disk : Disk}

theorem weaken (h : Housed next_txn table disk) : Housed 0 table disk := ⟨h.keyed, Nat.zero_le _, h.heads⟩

theorem call_run {server : Server} (h : (System.up server).Orderly table) (past : List DiskOp) {call : Call} {ops : List KvOp}
    (hops : server.node.ops call = some ops) :
    Throughout (fun _ => Housed server.db.next_txn_id table) past server.disk (ops.map .kv) := by
  obtain ⟨hhoused, hsound⟩ := h
  obtain ⟨p, hprog, rfl⟩ := map_eq_some_iff.mp hops
  rcases Node.prog_cases hhoused.keyed hprog with ⟨next_txn, hle, -, heach, -⟩ |
    ⟨txn, key, prev_id, is_delete, row, hinstalls⟩
  · exact hhoused.rewrites_run past heach hle
  · rw [hinstalls.run]
    refine hhoused.first_write_run past (fun hkey => ?_) prev_id is_delete row
    rw [← hsound.catalog, ← hkey]
    exact hinstalls.table

/-- After a call the counter of transactions is saved. -/
theorem call_saved {server after : Server} (h : (System.up server).Orderly table) {call : Call} {ops : List KvOp}
    {status : Except Status Unit} (hops : server.node.ops call = some ops)
    (hstep : server.node.step call = some (after.node, status)) :
    after.db.next_txn_id ≤ Database.load (applyAll server.disk.kv ops).next_txn 1 := by
  obtain ⟨hhoused, -⟩ := h
  obtain ⟨p, hprog, rfl⟩ := map_eq_some_iff.mp hops
  rcases Node.prog_cases hhoused.keyed hprog with ⟨next_txn, hle, hsame, heach, hcounters⟩ |
    ⟨txn, key, prev_id, is_delete, row, hinstalls⟩
  · have hnext : after.db.next_txn_id ≤ next_txn ∧
        (after.db.next_txn_id = server.db.next_txn_id ∨ .put_next_txn next_txn ∈ (p server.node.kv).1) := by
      rw [Node.step, hprog, map_some] at hstep
      cases hcase : p server.node.kv with
      | mk ops result =>
      rw [hcase] at hstep hcounters hsame
      cases result with
      | error s =>
        have hdb : server.db = after.db := congrArg (fun r => r.1.db) (Option.some.inj hstep)
        exact ⟨hdb ▸ hle, .inl (hdb ▸ rfl)⟩
      | ok r =>
        have hdb : r.1 = after.db := congrArg (fun r => r.1.db) (Option.some.inj hstep)
        rw [← hdb, (hcounters r rfl).1]
        exact ⟨le_rfl, hsame⟩
    rcases KvOp.Rewrites.next_txn heach with hsaved | ⟨hkept, hnot⟩
    · rw [show (applyAll server.disk.kv (p server.node.kv).1).next_txn = some next_txn from hsaved]
      exact hnext.1.trans (le_load _)
    · rw [show (applyAll server.disk.kv (p server.node.kv).1).next_txn = server.disk.kv.next_txn from hkept,
        hnext.2.resolve_right hnot]
      exact hhoused.saved
  · obtain ⟨hdb, -⟩ := Node.step_ok hprog hinstalls.run hstep
    rw [hinstalls.run]
    have hafter : after.db = Transaction.drew_version server.db := congrArg Node.db hdb
    rw [hafter]
    exact le_load server.db.next_txn_id

end Housed

section Orderly

variable {table : String} {s s' : System} {action : Action} {ops : List DiskOp}

theorem orderly_command {server after : Server} {command : Command} {status : Except Status Unit}
    (h : (System.up server).Orderly table) (hstep : server.step command = some (after, status)) :
    (System.up after).Orderly table := by
  refine ⟨?_, h.2.step hstep⟩
  cases command with
  | call call =>
    obtain ⟨ops, hops, hnode, hdisk⟩ := Server.step_call hstep
    have hlast := (Housed.call_run h [] hops).last
    rw [← hdisk] at hlast
    refine ⟨hlast.keyed, ?_, hlast.heads⟩
    rw [hdisk, Disk.applyAll_kv]
    exact Housed.call_saved h hops hnode
  | ddl ddl =>
    obtain ⟨ops, db', status', hrun, hleaves⟩ := @Ddl.leaves server.db server.disk ddl
    obtain ⟨rfl, -⟩ := Server.ddl_after hrun hstep
    have hall := @Housed.ddl_take _ _ _ h.1 ddl ops.length
    rw [hrun, take_length] at hall
    rw [hleaves.next_txn_id]
    refine hall fun name heq hcheck _ _ k hk => ?_
    rw [heq, Ddl.prog, drop_table_run, hcheck] at hrun
    cases hrun
    rw [drop_eq_nil_of_le (by simp [drop_ops])] at hk
    cases hk

theorem orderly_crash {server : Server} {command : Command} (h : (System.up server).Orderly table)
    (hops : server.ops command = some ops) {writes : Nat}
    (hrows : System.drops_rows table (.up server) (.crash command writes) = true) :
    Housed 0 table (applyAll server.disk (ops.take writes)) := by
  cases command with
  | call call =>
    obtain ⟨kvops, hkvops, rfl⟩ := map_eq_some_iff.mp hops
    exact ((Housed.call_run h [] hkvops).take writes).weaken
  | ddl ddl =>
    cases hops
    refine (h.1.ddl_take fun name heq hcheck htable hpos => ?_).weaken
    subst heq htable
    simpa [System.drops_rows, hcheck, hpos.ne'] using hrows

theorem orderly_step (h : s.Orderly table) (hrows : s.drops_rows table action = true)
    (hstep : System.Steps s action ops s') : s'.Orderly table := by
  cases hstep with
  | command hops hstep hdisk => exact orderly_command h hstep
  | crash hops writes => exact orderly_crash h hops hrows
  | @reopen disk ops db hopen =>
    obtain ⟨heach, hcounters⟩ := open_db_rewrites disk.tables disk.kv h.keyed
    rw [hopen] at heach hcounters
    have hloaded : Housed (Database.load disk.kv.next_txn 1) table disk := ⟨h.keyed, le_rfl, h.heads⟩
    refine ⟨?_, Server.sound_opened hopen⟩
    rw [(hcounters db rfl).1]
    exact (hloaded.rewrites_run [] heach le_rfl).last
  | reopen_crash disk writes =>
    have heach := (open_db_rewrites disk.tables disk.kv h.keyed).1
    exact (h.rewrites_run [] heach (Nat.zero_le _)).take writes

/-- A table that is created has no rows, and no transaction is under way. -/
theorem created_new {server created : Server} {schema : TableSchema}
    (h : (System.up server).Orderly schema.name)
    (hcreate : server.step (.ddl (.create_table schema)) = some (created, .ok ())) :
    (System.up created).New created.db.next_txn_id schema.name [] := by
  obtain ⟨hhoused, hsound⟩ := h
  have hrun : Ddl.prog server.db (.create_table schema) server.disk = _ := create_table_run ..
  cases hcheck : server.db.check_create_table schema with
  | error s =>
    rw [hcheck] at hrun
    cases (Server.ddl_after hrun hcreate).2
  | ok _ =>
    rw [hcheck] at hrun
    obtain ⟨rfl, -⟩ := Server.ddl_after hrun hcreate
    obtain ⟨hzero, hnone⟩ := check_create_table_ok hcheck
    refine ⟨?_, le_rfl, fun id txn htxn hopen => ?_⟩
    · refine ⟨hhoused.keyed, hhoused.saved, fun _ _ => False, fun _ _ hv => hv.elim, fun pk head hhead => ?_,
        fun _ _ _ hv => hv.elim⟩
      have htable := hhoused.heads pk head hhead
      rw [← hsound.catalog, hnone] at htable
      cases htable
    · rw [hsound.counted.none_open hzero htxn] at hopen
      cases hopen

/-- What is read of a table whose rows are new. -/
theorem Fresh.get_row {since : Nat} {table : String} {past : List DiskOp} {disk : Disk}
    (h : Fresh since table past disk) {pk : Value} {snapshot reader : Nat}
    {txn_status : Option (Nat → Except Status TxnMeta)} {row : Row}
    (hrow : disk.kv.get_row (table, pk) snapshot reader txn_status = .ok row) :
    ∃ v rec, Born since past (table, pk) v ∧ disk.kv.versions (table, pk) v = some rec ∧ rec.payload = row := by
  obtain ⟨N, hclosed⟩ := h.closed
  obtain ⟨v, rec, hv, hrec, -, hpayload⟩ :=
    Kv.get_row_reaches (P := N pk) (hclosed.heads pk) (hclosed.prevs pk) hrow
  exact ⟨v, rec, hclosed.born pk v hv, hrec, hpayload⟩

end Orderly

theorem System.New.disk {since : Nat} {table : String} {past : List DiskOp} {s : System} (h : s.New since table past) :
    Fresh since table past s.disk := by
  cases s with
  | up server => exact h.1
  | down disk => exact h

/-- If no process dies in DROP of the table while heads of its rows are left, then after
    CREATE every row that a transaction reads, by key or by a scan, was written since: its
    version was installed by a transaction that began after CREATE, or by an ALTER that
    rewrote such a row. Crashes anywhere else, in DROP of another table, in ALTER or in
    `Open`, are part of the run before CREATE, and all crashes of the one after it. -/
theorem recreated_table_empty {before later : List Action} {server created : Server} {schema : TableSchema} {s : System}
    (hbefore : System.run (.down {}) before = some (.up server))
    (hdrops : System.every (System.drops_rows schema.name) (.down {}) before = true)
    (hcreate : server.step (.ddl (.create_table schema)) = some (created, .ok ()))
    (hlater : System.run (.up created) later = some s) :
    (∀ (db : Database) (txn : Transaction) (pk : Value) (row : Row),
      txn.get s.disk.kv db schema.name pk = .ok row →
      ∃ v rec, Born created.db.next_txn_id (System.writes (.up created) later) (schema.name, pk) v ∧
        s.disk.kv.versions (schema.name, pk) v = some rec ∧ rec.payload = row) ∧
    ∀ (scan : TableRowScan) (pk : Value) (row : Row), scan.table = schema.name →
      (scan.advance s.disk.kv).current = some (pk, row) →
      ∃ v rec, Born created.db.next_txn_id (System.writes (.up created) later) (schema.name, pk) v ∧
        s.disk.kv.versions (schema.name, pk) v = some rec ∧ rec.payload = row := by
  have hempty : (System.down {}).Orderly schema.name := ⟨by rintro k v rec ⟨⟩, Nat.zero_le _, by rintro pk head ⟨⟩⟩
  have horderly := @System.run_invariant _ _ (fun _ => System.Orderly schema.name) _
    (fun h hrows hstep => orderly_step h hrows hstep) [] _ hempty hdrops hbefore
  have hnew := System.run_invariant (I := System.New created.db.next_txn_id schema.name) (C := fun _ _ => true)
    (fun h _ hstep => h.step hstep) (created_new horderly hcreate) (System.every_true _ _) hlater
  rw [nil_append] at hnew
  refine ⟨fun db txn pk row hget => ?_, fun scan pk row htable hcurrent => ?_⟩
  · rw [Transaction.get] at hget
    split at hget
    · cases hget
    cases hfound : db.get_table schema.name with
    | error s =>
      rw [hfound] at hget
      cases hget
    | ok _ =>
      rw [hfound] at hget
      exact hnew.disk.get_row hget
  · have hrow := TableRowScan.advance_current hcurrent
    rw [htable] at hrow
    exact hnew.disk.get_row hrow

/-- A row is inserted, and the process dies in DROP when heads are deleted and versions
    are not. -/
def crashedAfterHeads : List Action := oneRow ++ [.crash (.ddl (.drop_table "t")) 2, .reopen]

/-- A row with the same key is inserted. -/
def rowAgain : List Action :=
  [.command (.call .begin_txn), .command (.call (.insert 2 "t" [.int64 1, .int64 20])), .command (.call (.commit 2))]

theorem recreated_table_empty_after_heads : ∃ server created s,
    System.run (.down {}) crashedAfterHeads = some (.up server) ∧
    server.step (.ddl (.create_table numbersTable)) = some (created, .ok ()) ∧
    System.run (.up created) rowAgain = some s ∧
    ∀ (db : Database) (txn : Transaction) (pk : Value) (row : Row), txn.get s.disk.kv db "t" pk = .ok row →
      ∃ v rec, Born created.db.next_txn_id (System.writes (.up created) rowAgain) ("t", pk) v ∧
        s.disk.kv.versions ("t", pk) v = some rec ∧ rec.payload = row := by
  have hfacts : ((System.run (.down {}) crashedAfterHeads).bind System.server?).bind (fun server =>
      (server.step (.ddl (.create_table numbersTable))).map fun result =>
        (result.2, (System.run (.up result.1) rowAgain).isSome)) = some (.ok (), true) := by decide +kernel
  obtain ⟨server, hbefore, hfacts⟩ := System.run_up hfacts
  obtain ⟨⟨created, status⟩, hcreate, hfacts⟩ := map_eq_some_iff.mp hfacts
  obtain ⟨rfl, hlater⟩ := Prod.mk.inj hfacts
  obtain ⟨s, hlater⟩ := isSome_iff_exists.mp hlater
  exact ⟨server, created, s, hbefore, hcreate, hlater,
    (recreated_table_empty hbefore (by decide +kernel) hcreate hlater).1⟩

/-- The process dies in DROP when the catalog entry is deleted and no head is; the table
    is then created again. -/
def recreatedAfterCrash : List Action :=
  oneRow ++ [.crash (.ddl (.drop_table "t")) 1, .reopen, .command (.ddl (.create_table numbersTable)),
    .command (.call .begin_txn)]

/-- A transaction finds the row of the table that was dropped. -/
theorem dropped_row_returns : ∃ server txn, System.run (.down {}) recreatedAfterCrash = some (.up server) ∧
    server.txns 2 = some txn ∧ txn.get server.disk.kv server.db "t" (.int64 1) = .ok [.int64 1, .int64 10] := by
  have hfacts : ((System.run (.down {}) recreatedAfterCrash).bind System.server?).bind (fun server =>
      (server.txns 2).map fun txn => txn.get server.disk.kv server.db "t" (.int64 1)) =
      some (.ok [.int64 1, .int64 10]) := by decide +kernel
  obtain ⟨server, hrun, hfacts⟩ := System.run_up hfacts
  obtain ⟨txn, htxn, hget⟩ := map_eq_some_iff.mp hfacts
  exact ⟨server, txn, hrun, htxn, hget⟩

end reldb
