import LsmKv.Reldb.AlterRows
import LsmKv.Reldb.OpenTxns
import LsmKv.Reldb.SnapshotIsolation

namespace reldb

open lsmkv (Status)
open effects (applyAll)
open snapshot (keyCommits Wrote)
open List Function Option Database Disk

namespace Database

variable {disk : Disk} {name : String}

/-- DROP deletes the heads under the stem of the table. -/
theorem drop_heads (disk : Disk) (name : String) (k : RowKey) :
    (applyAll disk (drop_ops disk name)).kv.heads k = if Under name k.1 then none else disk.kv.heads k := by
  have hremoves : ∀ op ∈ drop_ops disk name, op.Removes := fun op hop => drop_ops_removes hop
  split
  · next hunder =>
    cases hhead : disk.kv.heads k with
    | none =>
      rw [eq_none_iff_forall_ne_some]
      intro head hhead'
      rw [(applyAll_within hremoves disk).heads k head hhead'] at hhead
      cases hhead
    | some head => exact applyAll_cleared hremoves (mem_drop_ops.mpr (.inr (.inl ⟨k, by rw [hhead]; rfl, hunder, rfl⟩))) disk
  · next hother =>
    refine effects.applyAll_same (fun disk => disk.kv.heads k) (fun op hop disk' => ?_) disk
    rcases mem_drop_ops.mp hop with rfl | ⟨key, -, hunder, rfl⟩ | ⟨key, version_id, -, -, rfl⟩
    · rfl
    · refine update_of_ne ?_ _ _
      rintro rfl
      exact hother hunder
    · rfl

/-- DROP deletes the versions under the stem of the table. -/
theorem drop_versions (disk : Disk) (name : String) (k : RowKey) (v : Nat) :
    (applyAll disk (drop_ops disk name)).kv.versions k v =
      if version_stem name <+: version_key k v then none else disk.kv.versions k v := by
  have hremoves : ∀ op ∈ drop_ops disk name, op.Removes := fun op hop => drop_ops_removes hop
  split
  · next hstem =>
    cases hversion : disk.kv.versions k v with
    | none =>
      rw [eq_none_iff_forall_ne_some]
      intro rec hrec
      rw [(applyAll_within hremoves disk).versions k v rec hrec] at hversion
      cases hversion
    | some rec =>
      have hmem : .delete_version k v ∈ drop_ops disk name :=
        mem_drop_ops.mpr (.inr (.inr ⟨k, v, by rw [hversion]; rfl, hstem, rfl⟩))
      obtain ⟨before, after, hsplit⟩ := append_of_mem hmem
      rw [hsplit, effects.applyAll_append, eq_none_iff_forall_ne_some]
      intro rec' hrec'
      have hrest : ∀ op ∈ after, op.Removes := fun op hop => hremoves op (by simp [hsplit, hop])
      have hafter := (applyAll_within hrest ((applyAll disk before).apply (.delete_version k v))).versions k v rec'
        hrec'
      rw [versions_delete, if_pos ⟨rfl, rfl⟩] at hafter
      cases hafter
  · next hother =>
    refine effects.applyAll_same (fun disk => disk.kv.versions k v) (fun op hop disk' => ?_) disk
    rcases mem_drop_ops.mp hop with rfl | ⟨key, -, -, rfl⟩ | ⟨key, version_id, -, hstem, rfl⟩
    · rfl
    · rfl
    · rw [store_apply, versions_delete, if_neg]
      rintro ⟨rfl, rfl⟩
      exact hother hstem

/-- DROP leaves the transaction records and the counters. -/
theorem drop_rest (disk : Disk) (name : String) :
    (applyAll disk (drop_ops disk name)).kv.txns = disk.kv.txns ∧
      (applyAll disk (drop_ops disk name)).kv.next_ts = disk.kv.next_ts ∧
      (applyAll disk (drop_ops disk name)).kv.next_txn = disk.kv.next_txn ∧
      (applyAll disk (drop_ops disk name)).kv.next_vid = disk.kv.next_vid := by
  have hrest := @effects.applyAll_same _ _ _ _
    (fun disk => (disk.kv.txns, disk.kv.next_ts, disk.kv.next_txn, disk.kv.next_vid)) (drop_ops disk name) ?_ disk
  · simpa using hrest
  intro op hop disk'
  rcases mem_drop_ops.mp hop with rfl | ⟨key, -, -, rfl⟩ | ⟨key, version_id, -, -, rfl⟩ <;> rfl

end Database

/-- A DROP that is let through finds, among the versions whose keys start with the stem of
    its table, only versions of rows whose heads it deletes too, the rows of the table and
    of the tables under it, and versions of rows that have no head. -/
def Server.confined (server : Server) : Command → Bool
  | .ddl (.drop_table name) =>
    server.db.check_drop_table name ≠ .ok () || server.disk.version_keys.all fun k =>
      decide (version_stem name <+: version_key k.1 k.2 → (server.disk.kv.heads k.1).isSome → Under name k.1.1)
  | _ => true

theorem Server.confined_drop_iff {server : Server} {name : String} : server.confined (.ddl (.drop_table name)) = true ↔
    (server.db.check_drop_table name = .ok () → ∀ k ∈ server.disk.version_keys,
      version_stem name <+: version_key k.1 k.2 → (server.disk.kv.heads k.1).isSome → Under name k.1.1) := by
  simp only [confined, Bool.or_eq_true, decide_eq_true_eq, List.all_eq_true, ← imp_iff_not_or]

theorem Server.confined_of_no_slash (server : Server) {name : String} (h : '/' ∉ name.toList) :
    server.confined (.ddl (.drop_table name)) = true :=
  confined_drop_iff.mpr fun _ _ _ hstem _ => under_of_version_stem h hstem

def System.confined : System → Action → Bool
  | .up server, .command command => server.confined command
  | _, _ => true

namespace Simulates

variable {since : Nat} {node : Node} {log : snapshot.State RowKey Row}

/-- With no transaction under way all rows are free. -/
theorem free (h : Simulates since node log) (hquiet : ∀ id txn, node.txns id = some txn → txn.finished = true)
    (k : RowKey) : Free node.kv k (keyCommits log.commits k) := by
  rcases h.keys k with hfree | ⟨id, txn, htxn, hopen, -⟩
  · exact hfree
  · rw [hquiet id txn htxn] at hopen
    cases hopen

/-- A step with no transaction under way. The log then begins anew. -/
theorem quiet (h : Simulates since node log) (hquiet : ∀ id txn, node.txns id = some txn → txn.finished = true)
    (kv' : Kv) {db' : Database} (commits' : List (snapshot.Commit RowKey Row)) (hddl : db'.ddl_in_progress = false)
    (hts : node.db.next_ts ≤ db'.next_ts) (hvid : node.db.next_version_id ≤ db'.next_version_id)
    (hnext : db'.next_txn_id = node.db.next_txn_id) (htxns : kv'.txns = node.kv.txns)
    (hheads : ∀ k head, kv'.heads k = some head →
      0 < head ∧ head < db'.next_version_id ∧ (db'.catalog k.1).isSome)
    (hfree : ∀ k, Free kv' k (keyCommits commits' k)) (hordered : snapshot.Ordered commits')
    (hwins : snapshot.FirstCommitterWins commits') (hstamps : ∀ c ∈ commits', c.commit_ts < db'.next_ts) :
    Simulates node.db.next_txn_id ⟨kv', db', node.txns⟩ { log with commits := commits' } where
  no_ddl := hddl
  ts_pos := h.ts_pos.trans_le hts
  vid_pos := h.vid_pos.trans_le hvid
  heads := hheads
  txns := by
    intro id txn htxn
    obtain ⟨hid, hlt, hstart⟩ := h.txns id txn htxn
    exact ⟨hid, by rw [hnext]; exact hlt, hstart.trans_le hts⟩
  active := by
    intro id txn htxn hopen
    rw [hquiet id txn htxn] at hopen
    cases hopen
  keys := fun k => .inl (hfree k)
  since_le := hnext.ge
  committed := by
    -- a transaction that is registered has begun
    intro id txn_meta hsince hmeta hstate
    change kv'.txns id = _ at hmeta
    rw [htxns] at hmeta
    obtain ⟨txn, htxn, -⟩ := h.committed id txn_meta (h.since_le.trans hsince) hmeta hstate
    exact absurd (h.txns id txn htxn).2.1 (not_lt.mpr hsince)
  ordered := hordered
  wins := hwins
  stamps := hstamps

end Simulates

namespace Server

variable {server : Server} {since : Nat} {log : snapshot.State RowKey Row}

section

variable (h : Simulates since server.node log) (hquiet : ∀ id txn, server.txns id = some txn → txn.finished = true)

include h hquiet

theorem create_simulates (schema : TableSchema) :
    Simulates server.db.next_txn_id
      (Server.node ⟨server.disk.apply (.put_table schema), server.db.with_table schema, server.txns⟩) log := by
  refine h.quiet hquiet _ log.commits h.no_ddl le_rfl le_rfl rfl rfl (fun k head hhead => ?_)
    (h.free hquiet) h.ordered h.wins h.stamps
  obtain ⟨hpos, hlt, hsome⟩ := h.heads k head hhead
  refine ⟨hpos, hlt, ?_⟩
  show (update server.db.catalog schema.name (some schema) k.1).isSome
  rw [update_apply]
  split
  · rfl
  · exact hsome

theorem drop_simulates {name : String}
    (hconfined : ∀ k ∈ server.disk.version_keys, version_stem name <+: version_key k.1 k.2 →
      (server.disk.kv.heads k.1).isSome → Under name k.1.1) :
    Simulates server.db.next_txn_id
      (Server.node ⟨applyAll server.disk (drop_ops server.disk name), server.db.without_table name, server.txns⟩)
      { log with commits := snapshot.forget (fun k => decide (Under name k.1)) log.commits } := by
  refine h.quiet hquiet (applyAll server.disk (drop_ops server.disk name)).kv
    (snapshot.forget (fun k => decide (Under name k.1)) log.commits) h.no_ddl le_rfl le_rfl rfl
    (drop_rest server.disk name).1 (fun k head hhead => ?_) (fun k => ?_) (h.ordered.forget _) (h.wins.forget _)
    (fun c hc => ?_)
  · rw [drop_heads] at hhead
    split at hhead
    · cases hhead
    next hother =>
    obtain ⟨hpos, hlt, hsome⟩ := h.heads k head hhead
    refine ⟨hpos, hlt, ?_⟩
    show (update server.db.catalog name none k.1).isSome
    rw [update_of_ne fun heq => hother (.inl heq)]
    exact hsome
  · rw [snapshot.keyCommits_forget]
    have hheads := drop_heads server.disk name k
    by_cases hunder : Under name k.1
    · rw [if_pos hunder] at hheads
      rw [if_pos (decide_eq_true hunder)]
      exact .inl ⟨hheads, rfl⟩
    · rw [if_neg hunder] at hheads
      rw [if_neg (by simpa using hunder)]
      have hfree := h.free hquiet k
      by_cases hhead : (server.disk.kv.heads k).isSome
      · refine hfree.congr hheads (funext fun v => ?_)
        refine (drop_versions ..).trans (ite_eq_right_iff.mpr fun hstem => ?_)
        by_contra hne
        have hkey := (server.disk.mem_version_keys k v).mpr (isSome_iff_ne_none.mpr (Ne.symm hne))
        exact hunder (hconfined (k, v) hkey hstem hhead)
      · rw [not_isSome_iff_eq_none] at hhead
        rcases hfree with ⟨-, hentries⟩ | ⟨head, hsome, -⟩
        · exact .inl ⟨hheads.trans hhead, hentries⟩
        · cases hhead.symm.trans hsome
  · obtain ⟨c', hc', rfl⟩ := List.mem_map.mp hc
    exact h.stamps c' hc'

end

/-- The counters and the catalog leave the rows alone. -/
theorem saved_rows (disk : Disk) (ops : List KvOp) (db : Database) (schema : TableSchema) :
    let kv := (applyAll disk (ops.map DiskOp.kv ++ (db.oracle_ops.map DiskOp.kv ++ [.put_table schema]))).kv
    kv.heads = (applyAll disk.kv ops).heads ∧ kv.versions = (applyAll disk.kv ops).versions ∧
      kv.txns = (applyAll disk.kv ops).txns := by
  have hkv : (applyAll disk (ops.map DiskOp.kv ++ (db.oracle_ops.map DiskOp.kv ++ [.put_table schema]))).kv =
      applyAll (applyAll disk.kv ops) db.oracle_ops := by
    rw [effects.applyAll_append, effects.applyAll_append, ← applyAll_kv, ← applyAll_kv]
    rfl
  intro kv
  rw [show kv = _ from hkv]
  exact ⟨rfl, rfl, rfl⟩

section Alter

variable {table : String} {a : Database.Alteration} {ops : List DiskOp} {db' : Database} {status : Except Status Unit}

/-- What ALTER does: nothing, or one commit of the rows up to where it fails. -/
structure Alters (server : Server) (log : snapshot.State RowKey Row) (table : String) (a : Database.Alteration)
    (after : Server) (status : Except Status Unit) (pks pre : List Value) : Prop where
  collected : collect_pks server.disk table = .ok pks
  done : status = .ok () → pre = pks ∧ after.db.catalog = (server.db.with_table a.neu).catalog
  stuck : ∀ s, status = .error s → ∃ pk ∈ pks, pk ∉ pre ∧ altered_row after.disk.kv (table, pk) a = .error s
  next_ts : after.db.next_ts = server.db.next_ts + 1
  txns : after.txns = server.txns
  quiet : ∀ id txn, after.txns id = some txn → txn.finished = true
  heads : ∀ k, (after.disk.kv.heads k).isSome = (server.disk.kv.heads k).isSome
  simulates : Simulates server.db.next_txn_id after.node
    { log with commits := log.commits ++ [a.commit log.commits table server.db.next_ts pre] }

theorem alter_simulates (h : Simulates since server.node log)
    (hquiet : ∀ id txn, server.txns id = some txn → txn.finished = true)
    (hrun : server.db.alter_table table a server.disk = (ops, .ok (db', status))) :
    ((∃ s, status = .error s) ∧ ops = [] ∧ db' = server.db) ∨
      ∃ pks pre, Alters server log table a ⟨applyAll server.disk ops, db', server.txns⟩ status pks pre := by
  rw [alter_table_run] at hrun
  cases hcollect : collect_pks server.disk table with
  | error s =>
    rw [hcollect] at hrun
    cases hrun
    exact .inl ⟨⟨s, rfl⟩, rfl, rfl⟩
  | ok pks =>
    rw [hcollect] at hrun
    dsimp only at hrun
    right
    obtain ⟨db'', status', hreturns⟩ :=
      @Database.alter_rows_returns a server.db.next_ts table pks (Transaction.drew_ts server.db) server.disk.kv
    cases hrows : alter_rows table server.db.next_ts a pks (Transaction.drew_ts server.db) server.disk.kv with
    | mk kvops result =>
    rw [hrows] at hreturns hrun
    subst hreturns
    have hdb := @Database.alter_rows_db a server.db.next_ts table pks (Transaction.drew_ts server.db) db''
      server.disk.kv status' (by rw [hrows])
    have hstart : Database.Altered log.commits table a server.db.next_ts [] (Transaction.drew_ts server.db).next_version_id
        server.disk.kv := by
      refine ⟨fun k => ?_, fun k head hhead => ⟨(h.heads k head hhead).1, (h.heads k head hhead).2.1⟩⟩
      rw [keyCommits_altered_of_not_mem fun _ => not_mem_nil]
      exact h.free hquiet k
    have hnodup := (collect_pks_ok hcollect).1
    obtain ⟨pre, post, hpks, hok, hstuck, haltered, htxns, hheads, hle⟩ := alter_rows_altered h.ts_pos.ne' hstart
      (by rw [nil_append]; exact hnodup) hrows
    rw [nil_append] at haltered
    have hordered : snapshot.Ordered (log.commits ++ [a.commit log.commits table server.db.next_ts pre]) :=
      h.ordered.concat h.stamps
    have hwins : snapshot.FirstCommitterWins (log.commits ++ [a.commit log.commits table server.db.next_ts pre]) :=
      h.wins.concat fun c hc _ _ _ => Nat.le_sub_one_of_lt (h.stamps c hc)
    have hstamps : ∀ c ∈ log.commits ++ [a.commit log.commits table server.db.next_ts pre],
        c.commit_ts < server.db.next_ts + 1 := by
      intro c hc
      rcases mem_append.mp hc with hmem | hmem
      · exact (h.stamps c hmem).trans (Nat.lt_succ_self _)
      · obtain rfl := mem_singleton.mp hmem
        exact Nat.lt_succ_self _
    have hcatalog : ∀ k head, (applyAll server.disk.kv kvops).heads k = some head →
        (server.db.catalog k.1).isSome := by
      intro k head hhead
      have hsome := hheads k
      rw [hhead] at hsome
      obtain ⟨head', hhead'⟩ := isSome_iff_exists.mp hsome.symm
      exact (h.heads k head' hhead').2.2
    have hts' : db''.next_ts = server.db.next_ts + 1 := by
      rw [hdb]
      rfl
    cases status' with
    | error s =>
      cases hrun
      refine ⟨pks, pre, hcollect, by rintro ⟨⟩, fun s hs => ?_, hts', rfl, hquiet,
        fun k => by rw [applyAll_kv]; exact hheads k, ?_⟩
      · obtain ⟨pk, hpk, hfound⟩ := hstuck s hs
        rw [hpks] at hnodup
        refine ⟨pk, hpks ▸ mem_append_right _ hpk, fun hmem => ?_, by rw [applyAll_kv]; exact hfound⟩
        exact (nodup_append.mp hnodup).2.2 pk hmem pk hpk rfl
      refine h.quiet hquiet _ _ ?_ (Nat.le_of_lt (Nat.lt_of_lt_of_eq (Nat.lt_succ_self _) hts'.symm)) hle ?_ ?_ ?_ ?_
        hordered hwins ?_
      · rw [hdb]
        exact h.no_ddl
      · rw [hdb]
        rfl
      · rw [applyAll_kv]
        exact htxns
      · rw [applyAll_kv]
        intro k head hhead
        refine ⟨(haltered.bound k head hhead).1, (haltered.bound k head hhead).2, ?_⟩
        rw [hdb]
        exact hcatalog k head hhead
      · rw [applyAll_kv]
        exact haltered.free
      · rw [hts']
        exact hstamps
    | ok _ =>
      cases hrun
      obtain ⟨hheads', hversions', htxns'⟩ := saved_rows server.disk kvops db'' a.neu
      refine ⟨pks, pre, hcollect, fun _ => ⟨?_, by rw [hdb]; rfl⟩, by rintro s ⟨⟩,
        hts', rfl, hquiet, fun k => (congrArg (fun f => (f k).isSome) hheads').trans (hheads k), ?_⟩
      · rw [hpks, hok rfl, append_nil]
      refine h.quiet hquiet _ _ ?_ (Nat.le_of_lt (Nat.lt_of_lt_of_eq (Nat.lt_succ_self _) hts'.symm)) hle ?_
        (htxns'.trans htxns) ?_ ?_ hordered hwins ?_
      · rw [hdb]
        exact h.no_ddl
      · rw [hdb]
        rfl
      · intro k head hhead
        rw [hheads'] at hhead
        refine ⟨(haltered.bound k head hhead).1, (haltered.bound k head hhead).2, ?_⟩
        show (update db''.catalog a.neu.name (some a.neu) k.1).isSome
        rw [update_apply]
        split
        · rfl
        · rw [hdb]
          exact hcatalog k head hhead
      · intro k
        exact (haltered.free k).congr (by rw [hheads']) (by rw [hversions'])
      · rw [show (db''.with_table a.neu).next_ts = _ from hts']
        exact hstamps

end Alter

section Ddl

variable {after : Server} {status : Except Status Unit} {ddl : Ddl}

/-- What DDL does to the server and to the log. -/
theorem ddl_cases (h : Simulates since server.node log) (hsound : server.Sound)
    (hconfined : server.confined (.ddl ddl) = true) (hstep : server.step (.ddl ddl) = some (after, status)) :
    (after = server ∧ ∃ s, status = .error s) ∨
    ((∀ id txn, server.txns id = some txn → txn.finished = true) ∧
      ((∃ schema, ddl = .create_table schema ∧ server.db.check_create_table schema = .ok () ∧ status = .ok () ∧
          after = ⟨server.disk.apply (.put_table schema), server.db.with_table schema, server.txns⟩ ∧
          Simulates server.db.next_txn_id after.node log) ∨
        (∃ name, ddl = .drop_table name ∧ server.db.check_drop_table name = .ok () ∧ status = .ok () ∧
          after = ⟨applyAll server.disk (drop_ops server.disk name), server.db.without_table name, server.txns⟩ ∧
          Simulates server.db.next_txn_id after.node
            { log with commits := snapshot.forget (fun k => decide (Under name k.1)) log.commits }) ∨
        ∃ table a, ddl.Alters server.db table a ∧ ∃ pks pre, Alters server log table a after status pks pre)) := by
  rcases ddl.prog_cases server.db with ⟨s, hrun⟩ | ⟨schema, rfl, hcheck, hrun⟩ | ⟨name, rfl, hcheck, hrun⟩ |
    ⟨table, a, halters, hrun⟩
  · obtain ⟨rfl, rfl⟩ := ddl_after (hrun _) hstep
    exact .inl ⟨rfl, s, rfl⟩
  · obtain ⟨rfl, rfl⟩ := ddl_after (hrun _) hstep
    have hquiet := fun id txn => @Node.Counted.none_open server.node hsound.counted
      (check_create_table_ok hcheck).1 id txn
    exact .inr ⟨hquiet, .inl ⟨schema, rfl, hcheck, rfl, rfl, create_simulates h hquiet schema⟩⟩
  · obtain ⟨rfl, rfl⟩ := ddl_after (hrun _) hstep
    have hquiet := fun id txn => @Node.Counted.none_open server.node hsound.counted
      (check_drop_table_ok hcheck).1 id txn
    refine .inr ⟨hquiet, .inr (.inl ⟨name, rfl, hcheck, rfl, rfl, drop_simulates h hquiet ?_⟩)⟩
    exact confined_drop_iff.mp hconfined hcheck
  · have hquiet := fun id txn => @Node.Counted.none_open server.node hsound.counted halters.none_open id txn
    obtain ⟨ops, db', status', hreturns, -⟩ := @Ddl.alter_table_leaves server.db server.disk table a
    obtain ⟨rfl, rfl⟩ := ddl_after ((hrun _).trans hreturns) hstep
    rcases alter_simulates h hquiet hreturns with ⟨hstatus, rfl, rfl⟩ | halters'
    · exact .inl ⟨rfl, hstatus⟩
    · exact .inr ⟨hquiet, .inr (.inr ⟨table, a, halters, halters'⟩)⟩

/-- Every command keeps the node in step with some log. -/
theorem step_simulates (h : Simulates since server.node log) (hsound : server.Sound) {command : Command}
    (hconfined : server.confined command = true) (hstep : server.step command = some (after, status)) :
    ∃ since' log', Simulates since' after.node log' := by
  cases command with
  | call call =>
    obtain ⟨-, -, hnode, -⟩ := step_call hstep
    exact ⟨since, _, h.step hnode⟩
  | ddl ddl =>
    rcases ddl_cases h hsound hconfined hstep with ⟨rfl, -⟩ | ⟨-, ⟨_, -, -, -, -, hsim⟩ | ⟨_, -, -, -, -, hsim⟩ |
      ⟨_, _, -, _, _, halters⟩⟩
    · exact ⟨since, log, h⟩
    · exact ⟨_, _, hsim⟩
    · exact ⟨_, _, hsim⟩
    · exact ⟨_, _, halters.simulates⟩

end Ddl

/-- A process that opened an empty store. -/
theorem opened_simulates (hopened : opened {} = some server) : Simulates 0 server.node {} ∧ server.Sound := by
  cases hopened
  exact ⟨Simulates.fresh rfl, @sound_opened {} _ _ rfl⟩

end Server

end reldb
