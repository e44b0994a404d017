import LsmKv.Reldb.DdlPrograms
import LsmKv.Reldb.OpenTxns

namespace reldb

open lsmkv (Status)
open effects (applyAll Each Throughout)
open List Function Database

/-- `PutVersion`: a version and then the head that names it. -/
def Installed (writes : List DiskOp) (key : RowKey) (rec : VersionRecord) : Prop :=
  [.kv (.put_version_value key rec), .kv (.set_head key rec.version_id)] <:+: writes

/-- A version of which the row comes from a transaction with an id from `since` on: the
    transaction wrote it, or ALTER rewrote such a version. -/
inductive Born (since : Nat) (writes : List DiskOp) (key : RowKey) : Nat → Prop
  | written {rec : VersionRecord} (hinstalled : Installed writes key rec) (howner : since ≤ rec.created_by) :
      Born since writes key rec.version_id
  | altered {rec : VersionRecord} (hinstalled : Installed writes key rec) (howner : rec.created_by = 0)
      (hprev : Born since writes key rec.prev_id) : Born since writes key rec.version_id

theorem Installed.mono {writes : List DiskOp} {key : RowKey} {rec : VersionRecord} (h : Installed writes key rec)
    (more : List DiskOp) : Installed (writes ++ more) key rec :=
  List.IsInfix.trans h (prefix_append writes more).isInfix

theorem Born.mono {since : Nat} {writes : List DiskOp} {key : RowKey} {v : Nat} (h : Born since writes key v)
    (more : List DiskOp) : Born since (writes ++ more) key v := by
  induction h with
  | written hinstalled howner => exact .written (hinstalled.mono more) howner
  | altered hinstalled howner _ ih => exact .altered (hinstalled.mono more) howner ih

/-- All that the heads of a table lead to was born since. -/
structure Closed (since : Nat) (table : String) (writes : List DiskOp) (kv : Kv) (N : Value → Nat → Prop) : Prop where
  born : ∀ pk v, N pk v → Born since writes (table, pk) v
  heads : ∀ pk head, kv.heads (table, pk) = some head → N pk head
  prevs : ∀ pk v rec, N pk v → kv.versions (table, pk) v = some rec → rec.prev_id = 0 ∨ N pk rec.prev_id

/-- The rows of a table are new. -/
structure Fresh (since : Nat) (table : String) (writes : List DiskOp) (disk : Disk) : Prop where
  keyed : disk.kv.Keyed
  next_txn : since ≤ Database.load disk.kv.next_txn 1
  closed : ∃ N, Closed since table writes disk.kv N

namespace Closed

variable {since : Nat} {table : String} {writes : List DiskOp} {kv kv' : Kv} {N : Value → Nat → Prop}

section

variable (h : Closed since table writes kv N)

include h

/-- Writes that remove, or leave heads and versions alone. -/
theorem shrink (more : List DiskOp) (hheads : ∀ k head, kv'.heads k = some head → kv.heads k = some head)
    (hversions : ∀ k v rec, kv'.versions k v = some rec → kv.versions k v = some rec) :
    Closed since table (writes ++ more) kv' N :=
  ⟨fun pk v hv => (h.born pk v hv).mono more, fun pk head hhead => h.heads pk head (hheads _ _ hhead),
    fun pk v rec hv hrec => h.prevs pk v rec hv (hversions _ _ _ hrec)⟩

theorem put {key : RowKey} {rec : VersionRecord}
    (hprev : key.1 = table → N key.2 rec.version_id → rec.prev_id = 0 ∨ N key.2 rec.prev_id) :
    Closed since table (writes ++ [.kv (.put_version_value key rec)]) (kv.apply (.put_version_value key rec)) N := by
  refine ⟨fun pk v hv => (h.born pk v hv).mono _, h.heads, fun pk v cur hv hcur => ?_⟩
  rw [Kv.versions_put] at hcur
  split at hcur
  · next hat =>
    obtain ⟨rfl, rfl⟩ := hat
    cases hcur
    exact hprev rfl hv
  · exact h.prevs pk v cur hv hcur

theorem set_head {key : RowKey} {v : Nat} (hv : key.1 = table → N key.2 v) :
    Closed since table (writes ++ [.kv (.set_head key v)]) (kv.apply (.set_head key v)) N := by
  refine ⟨fun pk v hv => (h.born pk v hv).mono _, fun pk head hhead => ?_, h.prevs⟩
  rcases update_some_cases hhead with ⟨rfl, rfl⟩ | ⟨-, hold⟩
  · exact hv rfl
  · exact h.heads pk head hold

/-- The writes of a transaction and of recovery that install nothing. -/
theorem rewrites {op : KvOp} {m n : Nat} (hop : op.Rewrites m n kv) :
    Closed since table (writes ++ [.kv op]) (kv.apply op) N := by
  cases op with
  | put_version_value key rec =>
    obtain ⟨cur, hcur, hsame⟩ := hop
    refine h.put fun hkey hv => ?_
    rw [hsame.prev_id]
    subst hkey
    exact h.prevs key.2 _ cur hv hcur
  | set_head key v =>
    obtain ⟨hpos, head, cur, hhead, hcur, rfl⟩ := hop
    refine h.set_head fun hkey => ?_
    subst hkey
    exact (h.prevs key.2 head cur (h.heads key.2 head hhead) hcur).resolve_left hpos
  | clear_head key => exact h.shrink _ (fun _ _ hhead => Kv.heads_of_clear hhead) fun _ _ _ hrec => hrec
  | _ => exact h.shrink _ (fun _ _ hhead => hhead) fun _ _ _ hrec => hrec

/-- A version installed on one that is new, by a transaction that is new or by ALTER. -/
theorem install {key : RowKey} {rec : VersionRecord} (hprev : key.1 = table → rec.prev_id = 0 ∨ N key.2 rec.prev_id)
    (howner : since ≤ rec.created_by ∨ (rec.created_by = 0 ∧ (key.1 = table → N key.2 rec.prev_id))) :
    ∃ N', Closed since table (writes ++ [.kv (.put_version_value key rec)] ++ [.kv (.set_head key rec.version_id)])
      ((kv.apply (.put_version_value key rec)).apply (.set_head key rec.version_id)) N' := by
  have hput : Closed since table (writes ++ [.kv (.put_version_value key rec)]) (kv.apply (.put_version_value key rec)) N :=
    h.put fun hkey _ => hprev hkey
  have hinstalled : Installed (writes ++ [.kv (.put_version_value key rec)] ++ [.kv (.set_head key rec.version_id)]) key rec := by
    rw [append_assoc]
    exact (suffix_append writes _).isInfix
  refine ⟨fun pk v => N pk v ∨ ((table, pk) = key ∧ v = rec.version_id), fun pk v hv => ?_, fun pk head hhead => ?_,
    fun pk v cur hv hcur => ?_⟩
  · rcases hv with hv | ⟨rfl, rfl⟩
    · exact (hput.born pk v hv).mono _
    · rcases howner with howner | ⟨howner, hprev'⟩
      · exact .written hinstalled howner
      · exact .altered hinstalled howner ((hput.born pk _ (hprev' rfl)).mono _)
  · rcases update_some_cases hhead with hnew | ⟨-, hold⟩
    · exact .inr hnew
    · exact .inl (h.heads pk head hold)
  · rcases hv with hv | ⟨rfl, rfl⟩
    · exact (hput.prevs pk v cur hv hcur).imp_right .inl
    · have hrec : (kv.apply (.put_version_value (table, pk) rec)).versions (table, pk) rec.version_id = some rec := by
        rw [Kv.versions_put, if_pos ⟨rfl, rfl⟩]
      cases hrec.symm.trans hcur
      exact (hprev rfl).imp_right .inl

end

end Closed

namespace Fresh

variable {since : Nat} {table : String} {past : List DiskOp} {disk : Disk} {db : Database}

section

variable (h : Fresh since table past disk)

include h

theorem rewrites {op : KvOp} {m n : Nat} (hop : op.Rewrites m n disk.kv) (hm : since ≤ m) :
    Fresh since table (past ++ [.kv op]) (disk.apply (.kv op)) := by
  obtain ⟨N, hclosed⟩ := h.closed
  refine ⟨h.keyed.apply op, ?_, N, hclosed.rewrites hop⟩
  cases op with
  | put_next_txn v =>
    have hv : v = m := hop
    show since ≤ if v = 0 then 1 else v
    split <;> omega
  | _ => exact h.next_txn

theorem rewrites_run {ops : List KvOp} {m n : Nat} (hops : Each (KvOp.Rewrites m n) disk.kv ops) (hm : since ≤ m) :
    Throughout (Fresh since table) past disk (ops.map .kv) := by
  induction ops generalizing past disk with
  | nil => exact h
  | cons op ops ih => exact ⟨h, ih (h.rewrites hops.1 hm) hops.2⟩

theorem removes_run {ops : List DiskOp} (hops : ∀ op ∈ ops, op.Removes) :
    Throughout (Fresh since table) past disk ops := by
  induction ops generalizing past disk with
  | nil => exact h
  | cons op ops ih =>
    have hwithin := hops op (mem_cons_self ..) disk
    obtain ⟨N, hclosed⟩ := h.closed
    refine ⟨h, ih ⟨fun k v rec hrec => h.keyed k v rec (hwithin.versions k v rec hrec), ?_, N,
      hclosed.shrink _ hwithin.heads hwithin.versions⟩ fun op' hop' => hops op' (mem_cons_of_mem _ hop')⟩
    rw [Disk.store_apply, hwithin.next_txn]
    exact h.next_txn

/-- A version and the head that names it. -/
theorem install_run {N : Value → Nat → Prop} (hclosed : Closed since table past disk.kv N) (key : RowKey)
    (rec : VersionRecord) (hprev : key.1 = table → rec.prev_id = 0 ∨ N key.2 rec.prev_id)
    (howner : since ≤ rec.created_by ∨ (rec.created_by = 0 ∧ (key.1 = table → N key.2 rec.prev_id))) :
    Throughout (Fresh since table) past disk
      [.kv (.put_version_value key rec), .kv (.set_head key rec.version_id)] := by
  have hkeyed : (disk.kv.apply (.put_version_value key rec)).Keyed := h.keyed.apply _
  exact ⟨h, ⟨hkeyed, h.next_txn, N, hclosed.put fun hkey _ => hprev hkey⟩,
    hkeyed.apply (.set_head key rec.version_id), h.next_txn, hclosed.install hprev howner⟩

theorem oracle_ops_run (db : Database) (hdb : since ≤ db.next_txn_id) :
    Throughout (Fresh since table) past disk (db.oracle_ops.map .kv) :=
  h.rewrites_run (m := db.next_txn_id) (n := db.next_version_id) ⟨trivial, rfl, rfl, trivial⟩ hdb

/-- A transaction that is new installs a version. -/
theorem first_write_run (hdb : since ≤ db.next_txn_id) {txn : Transaction} (htxn : since ≤ txn.txn_id) {key : RowKey}
    {is_insert : Bool} {prev_id : Nat} (hcheck : txn.check_write disk.kv key is_insert = .ok prev_id)
    (is_delete : Bool) (row : Row) :
    Throughout (Fresh since table) past disk ((txn.install_ops db key prev_id is_delete row).map .kv) := by
  have hcounters := h.oracle_ops_run (Transaction.drew_version db) hdb
  obtain ⟨N, hclosed⟩ := hcounters.last.closed
  have hprev : key.1 = table → prev_id = 0 ∨ N key.2 prev_id := by
    rintro rfl
    rw [Disk.applyAll_kv] at hclosed
    rcases Transaction.check_write_prev hcheck with ⟨-, rfl⟩ | ⟨head, rec, hhead, hrec, rfl | rfl⟩
    · exact .inl rfl
    · exact .inr (hclosed.heads key.2 _ hhead)
    · exact hclosed.prevs key.2 head rec (hclosed.heads key.2 head hhead) hrec
  have hinstall := hcounters.last.install_run hclosed key (txn.new_version db prev_id is_delete row) hprev
    (.inl htxn)
  rw [Transaction.install_ops, map_append]
  refine hcounters.append (hinstall.append ?_)
  have hmeta : ∀ kv, Each (KvOp.Rewrites db.next_txn_id db.next_version_id) kv
      [.put_txn_meta txn.txn_id { writes := (txn.wrote db key).written }] := fun _ => ⟨trivial, trivial⟩
  exact hinstall.last.rewrites_run (hmeta _) hdb

/-- ALTER replaces a version that is new by a version that is new. -/
theorem replace_run (hdb : since ≤ db.next_txn_id) {key : RowKey} {prior : VersionRecord} {row : Row}
    (hrow : Database.Rewritable disk.kv key prior) (commit_ts : Nat) :
    Throughout (Fresh since table) past disk ((replace_ops db key commit_ts prior row).map .kv) := by
  obtain ⟨N, hclosed⟩ := h.closed
  obtain ⟨v, hprior, hnew⟩ : ∃ v, disk.kv.versions key v = some prior ∧ (key.1 = table → N key.2 v) := by
    refine hrow.reaches (P := fun rec => ∃ v, disk.kv.versions key v = some rec ∧ (key.1 = table → N key.2 v))
      (fun head rec hhead hrec => ⟨head, hrec, ?_⟩) ?_
    · rintro rfl
      exact hclosed.heads key.2 head hhead
    · rintro rec prev ⟨v, hrec, hv⟩ hpos hprev
      refine ⟨_, hprev, ?_⟩
      rintro rfl
      exact (hclosed.prevs key.2 v rec (hv rfl) hrec).resolve_left hpos
  have hid := h.keyed key v prior hprior
  subst hid
  have hclose : KvOp.Rewrites db.next_txn_id db.next_version_id disk.kv
      (.put_version_value key { prior with end_ts := commit_ts }) := ⟨prior, hprior, rfl, rfl, .inr rfl⟩
  refine ⟨h, ?_⟩
  exact (h.rewrites hclose hdb).install_run (hclosed.rewrites hclose) key
    (Database.rewritten db commit_ts prior row) (fun hkey => .inr (hnew hkey)) (.inr ⟨rfl, hnew⟩)

theorem put_table (schema : TableSchema) :
    Fresh since table (past ++ [.put_table schema]) (disk.apply (.put_table schema)) := by
  obtain ⟨N, hclosed⟩ := h.closed
  exact ⟨h.keyed, h.next_txn, N, hclosed.shrink _ (fun _ _ hhead => hhead) fun _ _ _ hrec => hrec⟩

theorem alter_table_run (hdb : since ≤ db.next_txn_id) (name : String) (a : Database.Alteration) :
    Throughout (Fresh since table) past disk (db.alter_table name a disk).1 :=
  alter_table_throughout (fun hdb' _ h hrow => h.replace_run (by rw [hdb']; exact hdb) hrow _)
    (fun hdb' h => h.oracle_ops_run _ (by rw [hdb']; exact hdb)) (fun h => h.put_table a.neu) h

theorem ddl_run (hdb : since ≤ db.next_txn_id) (ddl : Ddl) :
    Throughout (Fresh since table) past disk (ddl.prog db disk).1 := by
  rcases ddl.prog_cases db with ⟨s, hrun⟩ | ⟨schema, -, -, hrun⟩ | ⟨name, -, -, hrun⟩ | ⟨name, a, -, hrun⟩
  all_goals rw [hrun]
  · exact h
  · exact ⟨h, h.put_table schema⟩
  · exact h.removes_run fun op hop => drop_ops_removes hop
  · exact h.alter_table_run hdb name a

end

end Fresh

/-- After the creation of a table: its rows are new, and so are the transactions under way. -/
def System.New (since : Nat) (table : String) (past : List DiskOp) : System → Prop
  | .up server => Fresh since table past server.disk ∧ since ≤ server.db.next_txn_id ∧
      ∀ id txn, server.txns id = some txn → txn.finished = false → since ≤ txn.txn_id
  | .down disk => Fresh since table past disk

section Runs

variable {since : Nat} {table : String} {past : List DiskOp}

theorem call_fresh {server : Server} (h : (System.up server).New since table past) {call : Call} {ops : List KvOp}
    (hops : server.node.ops call = some ops) :
    Throughout (Fresh since table) past server.disk (ops.map .kv) := by
  obtain ⟨hfresh, hnext, hnewer⟩ := h
  obtain ⟨p, hprog, rfl⟩ := Option.map_eq_some_iff.mp hops
  rcases Node.prog_cases hfresh.keyed hprog with ⟨next_txn, hle, -, heach, -⟩ |
    ⟨txn, key, prev_id, is_delete, row, hinstalls⟩
  · exact hfresh.rewrites_run heach (hnext.trans hle)
  · obtain ⟨is_insert, hcheck⟩ := hinstalls.check
    obtain ⟨id, htxn⟩ := hinstalls.begun
    rw [hinstalls.run]
    exact hfresh.first_write_run hnext (hnewer id txn htxn hinstalls.unfinished) hcheck is_delete row

theorem command_fresh {server : Server} (h : (System.up server).New since table past) {command : Command}
    {ops : List DiskOp} (hops : server.ops command = some ops) :
    Throughout (Fresh since table) past server.disk ops := by
  cases command with
  | call call =>
    obtain ⟨kvops, hkvops, rfl⟩ := Option.map_eq_some_iff.mp hops
    exact call_fresh h hkvops
  | ddl ddl =>
    cases hops
    exact h.1.ddl_run h.2.1 ddl

theorem open_fresh {disk : Disk} (h : Fresh since table past disk) :
    Throughout (Fresh since table) past disk (lift (open_db disk.tables) disk).1 :=
  h.rewrites_run (open_db_rewrites disk.tables disk.kv h.keyed).1 h.next_txn

/-- Transactions that begin later are newer still. -/
theorem command_newer {server after : Server} {command : Command} {status : Except Status Unit}
    (hnext : since ≤ server.db.next_txn_id)
    (hnewer : ∀ id txn, server.txns id = some txn → txn.finished = false → since ≤ txn.txn_id)
    (hstep : server.step command = some (after, status)) :
    since ≤ after.db.next_txn_id ∧ ∀ id txn, after.txns id = some txn → txn.finished = false → since ≤ txn.txn_id := by
  cases command with
  | call call =>
    obtain ⟨-, -, hnode, -⟩ := Server.step_call hstep
    rcases Node.step_leaves hnode with ⟨hdb, htxns⟩ | ⟨txn', htxns, hleaves⟩
    · rw [show after.db = server.db from hdb, show after.txns = server.txns from htxns]
      exact ⟨hnext, hnewer⟩
    · rw [show after.txns = update server.txns txn'.txn_id (some txn') from htxns]
      have hle : server.db.next_txn_id ≤ after.db.next_txn_id := by
        rcases hleaves.change with ⟨-, hdrew, -⟩ | ⟨-, -, -, -, -, hsame, -⟩
        · exact (Nat.le_succ _).trans hdrew.ge
        · exact hsame.ge
      refine ⟨hnext.trans hle, fun id txn htxn hopen => ?_⟩
      rcases update_some_cases htxn with ⟨rfl, rfl⟩ | ⟨-, hold⟩
      · rcases hleaves.change with ⟨rfl, -⟩ | ⟨id, txn, htxn, hid, -, -, hdone⟩
        · exact hnext
        · rw [hid]
          refine hnewer id txn htxn ?_
          rcases hdone with ⟨hfinished, -⟩ | ⟨hopen', -⟩
          · exact hfinished.symm.trans hopen
          · exact hopen'
      · exact hnewer id txn hold hopen
  | ddl ddl =>
    obtain ⟨ops, db', status', hrun, hleaves⟩ := @Ddl.leaves server.db server.disk ddl
    obtain ⟨rfl, -⟩ := Server.ddl_after hrun hstep
    exact ⟨hnext.trans hleaves.next_txn_id.ge, hnewer⟩

theorem System.New.step {s s' : System} {action : Action} {ops : List DiskOp} (h : s.New since table past)
    (hstep : System.Steps s action ops s') : s'.New since table (past ++ ops) := by
  cases hstep with
  | command hops hstep hdisk =>
    refine ⟨?_, command_newer h.2.1 h.2.2 hstep⟩
    rw [hdisk]
    exact (command_fresh h hops).last
  | crash hops writes => exact (command_fresh h hops).take writes
  | @reopen disk ops db hopen =>
    have hfresh := open_fresh h
    rw [lift, hopen] at hfresh
    refine ⟨hfresh.last, ?_, by rintro id txn ⟨⟩⟩
    rw [((open_db_rewrites disk.tables disk.kv h.keyed).2 db (by rw [hopen])).1]
    exact h.next_txn
  | reopen_crash disk writes => exact (open_fresh h).take writes

end Runs

end reldb
