import LsmKv.Reldb.DdlSteps
import LsmKv.Reldb.Scan

namespace reldb

open lsmkv (Status)
open effects (applyAll)
open history (Update latest)
open snapshot (keyCommits committedAt)
open List Function Option Database

namespace Row

/-- What a row that fits its table is. -/
theorem validate_against_iff {row : Row} {schema : TableSchema} : row.validate_against schema = .ok () ↔
    schema.validate = .ok () ∧ row.length = schema.columns.length ∧ validate_cells schema.columns row = .ok () := by
  rw [validate_against]
  cases schema.validate with
  | error s => exact ⟨(by rintro ⟨⟩), (by rintro ⟨⟨⟩, -⟩)⟩
  | ok _ =>
    show (if _ then _ else _) = _ ↔ _
    split
    · next hne => exact ⟨(by rintro ⟨⟩), fun h => absurd h.2.1 hne⟩
    · next heq => exact ⟨fun h => ⟨rfl, not_not.mp heq, h⟩, fun h => h.2.2⟩

variable {cols : List ColumnDef} {cells : List Value}

theorem validate_cells_cons {col : ColumnDef} {cell : Value} : validate_cells (col :: cols) (cell :: cells) = .ok () ↔
      cell.is_null = false ∧ cell.type = col.type ∧ validate_cells cols cells = .ok () := by
  rw [validate_cells]
  split
  · next hnull => exact ⟨(by rintro ⟨⟩), fun h => absurd hnull (by simp [h.1])⟩
  next hnull =>
  split
  · next htype => exact ⟨(by rintro ⟨⟩), fun h => absurd h.2.1 htype⟩
  · next htype => exact ⟨fun h => ⟨by simpa using hnull, not_not.mp htype, h⟩, fun h => h.2.2⟩

theorem validate_cells_concat (hlength : cells.length = cols.length)
    (h : validate_cells cols cells = .ok ()) {col : ColumnDef} {cell : Value} (hnull : cell.is_null = false)
    (htype : cell.type = col.type) : validate_cells (cols ++ [col]) (cells ++ [cell]) = .ok () := by
  induction cols generalizing cells with
  | nil =>
    rw [length_nil, length_eq_zero_iff] at hlength
    subst hlength
    exact validate_cells_cons.mpr ⟨hnull, htype, rfl⟩
  | cons c cols ih =>
    cases cells with
    | nil => cases hlength
    | cons v cells =>
      obtain ⟨hv, hc, hrest⟩ := validate_cells_cons.mp h
      exact validate_cells_cons.mpr ⟨hv, hc, ih (Nat.succ_inj.mp hlength) hrest⟩

theorem validate_cells_eraseIdx (hlength : cells.length = cols.length)
    (h : validate_cells cols cells = .ok ()) (i : Nat) :
    validate_cells (cols.eraseIdx i) (cells.eraseIdx i) = .ok () := by
  induction cols generalizing cells i with
  | nil =>
    rw [length_nil, length_eq_zero_iff] at hlength
    subst hlength
    rfl
  | cons c cols ih =>
    cases cells with
    | nil => cases hlength
    | cons v cells =>
      obtain ⟨hv, hc, hrest⟩ := validate_cells_cons.mp h
      cases i with
      | zero => exact hrest
      | succ i => exact validate_cells_cons.mpr ⟨hv, hc, ih (Nat.succ_inj.mp hlength) hrest i⟩

end Row

/-- What ALTER does to schemas and rows. -/
structure Database.Alteration.Ok (a : Database.Alteration) : Prop where
  name : a.neu.name = a.old.name
  width : a.neu.columns.length ≠ a.old.columns.length
  fits : ∀ row : Row, row.validate_against a.old = .ok () → (a.change row).validate_against a.neu = .ok ()

theorem Ddl.Alters.ok {db : Database} {ddl : Ddl} {table : String} {a : Database.Alteration}
    (h : ddl.Alters db table a) : db.catalog table = some a.old ∧ a.Ok := by
  rcases h with ⟨col, default_value, -, hcheck⟩ | ⟨col_name, -, hcheck⟩
  · obtain ⟨-, hold, hneu, hvalid, hnull, htype, hchange⟩ := check_add_column_ok hcheck
    refine ⟨hold, by rw [hneu], by rw [hneu]; simp, fun row hrow => ?_⟩
    obtain ⟨-, hlength, hcells⟩ := Row.validate_against_iff.mp hrow
    rw [Row.validate_against_iff, hchange]
    refine ⟨hvalid, ?_, ?_⟩
    · rw [hneu]
      simp [hlength]
    · rw [hneu]
      exact Row.validate_cells_concat hlength hcells hnull htype
  · obtain ⟨-, hold, i, hindex, hneu, hvalid, -, hchange⟩ := check_drop_column_ok hcheck
    have hlt : i < a.old.columns.length := (List.findIdx?_eq_some_iff_getElem.mp hindex).1
    refine ⟨hold, by rw [hneu], ?_, fun row hrow => ?_⟩
    · rw [hneu, length_eraseIdx_of_lt hlt]
      omega
    obtain ⟨-, hlength, hcells⟩ := Row.validate_against_iff.mp hrow
    rw [Row.validate_against_iff, hchange]
    refine ⟨hvalid, ?_, ?_⟩
    · rw [hneu, length_eraseIdx_of_lt hlt, length_eraseIdx_of_lt (hlength ▸ hlt), hlength]
    · rw [hneu]
      exact Row.validate_cells_eraseIdx hlength hcells i

/-- Rows fit their tables: those that a snapshot from the floor on sees, and those that
    transactions under way have written. Their snapshots are from the floor on. -/
structure Conforms (node : Node) (log : snapshot.State RowKey Row) (floor : Nat) : Prop where
  floor_lt : floor < node.db.next_ts
  named : ∀ name schema, node.db.catalog name = some schema → schema.name = name
  rows : ∀ k schema row ts, floor ≤ ts → node.db.catalog k.1 = some schema →
    committedAt (keyCommits log.commits k) ts = some (some row) → row.validate_against schema = .ok ()
  snapshots : ∀ id txn, node.txns id = some txn → txn.finished = false → floor ≤ txn.start_ts
  writes : ∀ id txn t, node.txns id = some txn → txn.finished = false → log.active id = some t →
    ∀ u ∈ t.writes, ∀ row, u.value = some row → ∀ schema, node.db.catalog u.key.1 = some schema →
      row.validate_against schema = .ok ()

section Observe

variable {node after : Node} {log : snapshot.State RowKey Row} {call : Call} {status : Except Status Unit}

/-- What a call adds to the commits. -/
theorem observe_commits (node after : Node) (log : snapshot.State RowKey Row) (call : Call) (status : Except Status Unit) :
    (node.observe after log call status).commits = log.commits ∨
    ∃ id t commit_ts, call = .commit id ∧ status = .ok () ∧ log.active id = some t ∧
      (node.observe after log call status).commits = log.commits ++ [⟨id, t.start_ts, commit_ts, t.writes⟩] := by
  have hwrite : ∀ id u, (log.write id u).commits = log.commits := by
    intro id u
    rw [snapshot.State.write]
    split <;> rfl
  cases status with
  | error s =>
    left
    cases call with
    | commit id =>
      simp only [Node.observe]
      split <;> rfl
    | _ => rfl
  | ok _ =>
    cases call with
    | begin_txn => exact .inl rfl
    | abort id => exact .inl rfl
    | commit id =>
      cases hactive : log.active id with
      | none =>
        left
        simp only [Node.observe, snapshot.State.commit, hactive]
      | some t =>
        right
        refine ⟨id, t, ((after.kv.txns id).map TxnMeta.commit_ts).getD 0, rfl, rfl, hactive, ?_⟩
        simp only [Node.observe, snapshot.State.commit, hactive]
    | delete id table pk => exact .inl (hwrite id _)
    | insert id table row | update id table row =>
      left
      simp only [Node.observe, Node.update?]
      cases Transaction.row_key node.db table row with
      | ok key => exact hwrite id _
      | error s => rfl

/-- The writes of a transaction after a call: none, those from before, or one more. -/
def Grown (node : Node) (log : snapshot.State RowKey Row) (call : Call) (id : Nat) (t' : snapshot.Txn RowKey Row) : Prop :=
  t'.writes = [] ∨ ∃ t, log.active id = some t ∧
    (t'.writes = t.writes ∨ ∃ u, node.update? call = some (id, u) ∧ t'.writes = t.writes ++ [u])

theorem observe_active {id : Nat} {t' : snapshot.Txn RowKey Row}
    (h : (node.observe after log call status).active id = some t') : Grown node log call id t' := by
  have hsame : log.active id = some t' → Grown node log call id t' := fun hsome => .inr ⟨t', hsome, .inl rfl⟩
  have hdrop : ∀ {id'}, (log.drop id').active id = some t' → Grown node log call id t' := by
    intro id' hsome
    by_cases heq : id = id'
    · subst heq
      cases (update_self ..).symm.trans hsome
    · exact hsame ((update_of_ne heq _ _).symm.trans hsome)
  have hwrite : ∀ {id' u}, node.update? call = some (id', u) → (log.write id' u).active id = some t' →
      Grown node log call id t' := by
    intro id' u hupdate hsome
    cases hactive : log.active id' with
    | none =>
      rw [snapshot.State.write, hactive] at hsome
      exact hsame hsome
    | some t =>
      rw [snapshot.State.write_eq hactive] at hsome
      rcases update_some_cases hsome with ⟨rfl, rfl⟩ | ⟨-, hsome⟩
      · exact .inr ⟨t, hactive, .inr ⟨u, hupdate, rfl⟩⟩
      · exact hsame hsome
  cases status with
  | error s =>
    cases call with
    | commit id' =>
      simp only [Node.observe] at h
      split at h
      · exact hdrop h
      · exact hsame h
    | _ => exact hsame h
  | ok _ =>
    cases call with
    | begin_txn =>
      rcases update_some_cases h with ⟨-, rfl⟩ | ⟨-, hsome⟩
      · exact .inl rfl
      · exact hsame hsome
    | abort id' => exact hdrop h
    | commit id' =>
      simp only [Node.observe] at h
      cases hactive : log.active id' with
      | none =>
        rw [snapshot.State.commit, hactive] at h
        exact hsame h
      | some t =>
        rw [snapshot.State.commit_eq hactive] at h
        exact hdrop h
    | delete id' table pk => exact hwrite rfl h
    | insert id' table row | update id' table row =>
      simp only [Node.observe] at h
      cases hupdate : node.update? _ with
      | none =>
        rw [hupdate] at h
        exact hsame h
      | some pair =>
        rw [hupdate] at h
        exact hwrite hupdate h

/-- A row that a call asks to write fits its table. -/
theorem update_fits {id : Nat} {u : Update RowKey Row} (h : node.update? call = some (id, u)) {row : Row}
    (hrow : u.value = some row) {schema : TableSchema} (hschema : node.db.catalog u.key.1 = some schema) :
    row.validate_against schema = .ok () := by
  have hrow_key : ∀ {table row'} {key : RowKey}, Transaction.row_key node.db table row' = .ok key →
      node.db.catalog key.1 = some schema → row'.validate_against schema = .ok () := by
    intro table row' key hkey hschema
    rw [Transaction.row_key] at hkey
    cases htable : node.db.get_table table with
    | error s =>
      rw [htable] at hkey
      cases hkey
    | ok schema' =>
      rw [htable] at hkey
      change (row'.validate_against schema' >>= _) = _ at hkey
      cases hvalid : row'.validate_against schema' with
      | error s =>
        rw [hvalid] at hkey
        cases hkey
      | ok _ =>
        rw [hvalid] at hkey
        change (row'.primary_key schema' >>= _) = _ at hkey
        cases hpk : row'.primary_key schema' with
        | error s =>
          rw [hpk] at hkey
          cases hkey
        | ok pk =>
          rw [hpk] at hkey
          cases hkey
          cases (get_table_ok htable).symm.trans hschema
          exact hvalid
  cases call with
  | insert id' table row' | update id' table row' =>
    simp only [Node.update?] at h
    cases hkey : Transaction.row_key node.db table row' with
    | error s =>
      rw [hkey] at h
      cases h
    | ok key =>
      rw [hkey] at h
      cases h
      cases hrow
      exact hrow_key hkey hschema
  | delete id' table pk =>
    cases h
    cases hrow
  | begin_txn => cases h
  | commit id' => cases h
  | abort id' => cases h

end Observe

namespace Conforms

variable {since floor : Nat} {node after : Node} {log : snapshot.State RowKey Row}

section Call

variable {call : Call} {status : Except Status Unit}

/-- A transaction under way after a call has just begun, or was under way before. -/
theorem live_before (hsim : Simulates since node log) (hstep : node.step call = some (after, status)) {id : Nat}
    {txn' : Transaction} (htxn' : after.txns id = some txn') (hopen' : txn'.finished = false) :
    (txn'.written = [] ∧ txn'.start_ts = node.db.next_ts - 1) ∨
      ∃ txn, node.txns id = some txn ∧ txn.finished = false ∧ txn'.start_ts = txn.start_ts := by
  rcases Node.step_leaves hstep with ⟨-, htxns⟩ | ⟨changed, htxns, hleaves⟩
  · rw [htxns] at htxn'
    exact .inr ⟨txn', htxn', hopen', rfl⟩
  · rw [htxns] at htxn'
    rcases update_some_cases htxn' with ⟨rfl, rfl⟩ | ⟨-, hold⟩
    · rcases hleaves.change with ⟨rfl, -⟩ | ⟨id, txn, htxn, hid, hstart, -, hdone⟩
      · exact .inl ⟨rfl, rfl⟩
      · rw [hid, (hsim.txns id txn htxn).1]
        refine .inr ⟨txn, htxn, ?_, hstart⟩
        rcases hdone with ⟨hsame, -⟩ | ⟨hopen, -⟩
        · exact hsame.symm.trans hopen'
        · exact hopen
    · exact .inr ⟨txn', hold, hopen', rfl⟩

/-- Only a transaction under way commits. -/
theorem commit_open {id : Nat} (hstep : node.step (.commit id) = some (after, .ok ())) :
    ∃ txn, node.txns id = some txn ∧ txn.finished = false := by
  obtain ⟨run, hcomes, hrun⟩ := Node.step_comes hstep
  cases hcomes with
  | fails | stuck | conflicts => cases congrArg Prod.snd hrun
  | rewrites hcall | installs hcall => cases hcall
  | commits htxn hopen => exact ⟨_, htxn, hopen⟩

theorem step (h : Conforms node log floor) (hsim : Simulates since node log)
    (hsim' : Simulates since after (node.observe after log call status))
    (hstep : node.step call = some (after, status)) : Conforms after (node.observe after log call status) floor := by
  have hdb : after.db.catalog = node.db.catalog ∧ node.db.next_ts ≤ after.db.next_ts := by
    rcases Node.step_leaves hstep with ⟨hdb, -⟩ | ⟨_, -, hleaves⟩
    · rw [hdb]
      exact ⟨rfl, le_rfl⟩
    · exact ⟨hleaves.catalog, hleaves.next_ts⟩
  refine ⟨h.floor_lt.trans_le hdb.2, fun name schema hschema => h.named name schema (hdb.1 ▸ hschema),
    fun k schema row ts hts hschema hrow => ?_, fun id txn' htxn' hopen' => ?_,
    fun id txn' t' htxn' hopen' hactive' u hu row hrow schema hschema => ?_⟩
  · rw [hdb.1] at hschema
    rcases observe_commits node after log call status with
      hsame | ⟨id, t, commit_ts, rfl, rfl, hactive, hcommits⟩
    · rw [hsame] at hrow
      exact h.rows k schema row ts hts hschema hrow
    · rw [hcommits, snapshot.keyCommits_concat] at hrow
      cases hlatest : latest t.writes k with
      | none =>
        rw [hlatest] at hrow
        exact h.rows k schema row ts hts hschema hrow
      | some value =>
        rw [hlatest, map_some, toList_some, singleton_append, snapshot.committedAt_cons] at hrow
        split at hrow
        · cases hrow
          obtain ⟨txn, htxn, hopen⟩ := commit_open hstep
          obtain ⟨u, hu, rfl, hvalue⟩ := history.latest_mem hlatest
          exact h.writes id txn t htxn hopen hactive u hu row hvalue schema hschema
        · exact h.rows k schema row ts hts hschema hrow
  · rcases live_before hsim hstep htxn' hopen' with ⟨-, hstart⟩ | ⟨txn, htxn, hopen, hstart⟩
    · rw [hstart]
      exact Nat.le_sub_one_of_lt h.floor_lt
    · rw [hstart]
      exact h.snapshots id txn htxn hopen
  · rw [hdb.1] at hschema
    rcases live_before hsim hstep htxn' hopen' with ⟨hwritten, -⟩ | ⟨txn, htxn, hopen, -⟩
    · -- a transaction that has just begun has written nothing
      obtain ⟨t, hactive⟩ := hsim'.active id txn' htxn' hopen'
      cases hactive'.symm.trans hactive.active
      obtain ⟨w, hw, -⟩ := hactive.wrote u.key ⟨u, hu, rfl⟩
      rw [hwritten] at hw
      cases hw
    · rcases observe_active hactive' with hnone | ⟨t, hactive, hsame | ⟨u', hupdate, hwrites⟩⟩
      · rw [hnone] at hu
        cases hu
      · rw [hsame] at hu
        exact h.writes id txn t htxn hopen hactive u hu row hrow schema hschema
      · rw [hwrites] at hu
        rcases mem_append.mp hu with hu | hu
        · exact h.writes id txn t htxn hopen hactive u hu row hrow schema hschema
        · obtain rfl := mem_singleton.mp hu
          exact update_fits hupdate hrow hschema

end Call

section Quiet

variable {node after : Node} {log : snapshot.State RowKey Row}

/-- A step with no transaction under way. -/
theorem quiet (hquiet : ∀ id txn, after.txns id = some txn → txn.finished = true) (hfloor : floor < after.db.next_ts)
    (hnamed : ∀ name schema, after.db.catalog name = some schema → schema.name = name)
    (hrows : ∀ k schema row ts, floor ≤ ts → after.db.catalog k.1 = some schema →
      committedAt (keyCommits log.commits k) ts = some (some row) → row.validate_against schema = .ok ()) :
    Conforms after log floor := by
  refine ⟨hfloor, hnamed, hrows, fun id txn htxn hopen => ?_, fun id txn t htxn hopen => ?_⟩ <;>
  · rw [hquiet id txn htxn] at hopen
    cases hopen

end Quiet

section Ddl

variable {server after : Server} {log : snapshot.State RowKey Row} {status : Except Status Unit}

/-- Nothing is committed of a row without a head. -/
theorem keyCommits_nil (hsim : Simulates since server.node log)
    (hquiet : ∀ id txn, server.txns id = some txn → txn.finished = true) {k : RowKey}
    (hnone : server.disk.kv.heads k = none) : keyCommits log.commits k = [] := by
  rcases hsim.free hquiet k with ⟨-, hentries⟩ | ⟨head, hhead, -⟩
  · exact hentries
  · cases hnone.symm.trans hhead

/-- The newest committed content of a row fits the table. -/
theorem newest_fits (h : Conforms server.node log floor) {k : RowKey} {schema : TableSchema}
    (hschema : server.db.catalog k.1 = some schema) {ts : Nat} {payload : Row}
    {rest : List (Nat × Option Row)} (hentries : keyCommits log.commits k = (ts, some payload) :: rest) :
    payload.validate_against schema = .ok () := by
  refine h.rows k schema payload (max floor ts) (le_max_left _ _) hschema ?_
  rw [hentries, snapshot.committedAt_cons, if_pos (le_max_right _ _)]

theorem create (h : Conforms server.node log floor) (hsim : Simulates since server.node log)
    (hquiet : ∀ id txn, server.txns id = some txn → txn.finished = true) {schema : TableSchema}
    (hnew : server.db.catalog schema.name = none) {disk : Disk} :
    Conforms (Server.node ⟨disk, server.db.with_table schema, server.txns⟩) log floor := by
  refine quiet hquiet h.floor_lt (fun name schema' hschema => ?_) fun k schema' row ts hts hschema hrow => ?_
  · change update server.db.catalog schema.name (some schema) name = some schema' at hschema
    rw [update_apply] at hschema
    split at hschema
    · next heq =>
      cases hschema
      exact heq.symm
    · exact h.named name schema' hschema
  · change update server.db.catalog schema.name (some schema) k.1 = some schema' at hschema
    rw [update_apply] at hschema
    split at hschema
    · next heq =>
      -- a table that was not there has no rows
      have hnone : server.disk.kv.heads k = none := by
        rw [eq_none_iff_forall_ne_some]
        intro head hhead
        have hsome := (hsim.heads k head hhead).2.2
        rw [heq, show server.node.db.catalog schema.name = none from hnew] at hsome
        cases hsome
      rw [keyCommits_nil hsim hquiet hnone] at hrow
      cases hrow
    · exact h.rows k schema' row ts hts hschema hrow

theorem drop (h : Conforms server.node log floor)
    (hquiet : ∀ id txn, server.txns id = some txn → txn.finished = true) {name : String} {disk : Disk}
    (p : RowKey → Bool) :
    Conforms (Server.node ⟨disk, server.db.without_table name, server.txns⟩)
      { log with commits := snapshot.forget p log.commits } floor := by
  have hcatalog : ∀ {name' schema}, update server.db.catalog name none name' = some schema →
      server.db.catalog name' = some schema := by
    intro name' schema hschema
    rw [update_apply] at hschema
    split at hschema
    · cases hschema
    · exact hschema
  refine quiet hquiet h.floor_lt (fun name' schema hschema => h.named name' schema (hcatalog hschema))
    fun k schema row ts hts hschema hrow => ?_
  change committedAt (keyCommits (snapshot.forget p log.commits) k) ts = _ at hrow
  rw [snapshot.keyCommits_forget] at hrow
  split at hrow
  · cases hrow
  · exact h.rows k schema row ts hts (hcatalog hschema) hrow

section Alter

variable {table : String} {a : Database.Alteration} {pks pre : List Value}

/-- Where rows fit their tables, ALTER does not fail in the middle. -/
theorem alter_succeeds (h : Conforms server.node log floor) (hold : server.db.catalog table = some a.old) (hok : a.Ok)
    (halters : Server.Alters server log table a after status pks pre) : status = .ok () := by
  cases status with
  | ok _ => rfl
  | error s =>
    exfalso
    obtain ⟨pk, hpk, hnot, hfound⟩ := halters.stuck s rfl
    have hquiet : ∀ id txn, after.txns id = some txn → txn.finished = true := halters.quiet
    have hfree := halters.simulates.free hquiet (table, pk)
    change Free after.disk.kv (table, pk) (keyCommits (log.commits ++ _) (table, pk)) at hfree
    rw [keyCommits_altered_of_not_mem fun _ => hnot] at hfree
    have hhead : (after.disk.kv.heads (table, pk)).isSome := by
      rw [halters.heads]
      exact ((collect_pks_ok halters.collected).2.1 pk).mp hpk
    obtain ⟨head, rec, rest, hhead', hrec, hstart, hend, -, hentries, -⟩ := free_head hfree hhead
    rw [altered_row_eq hhead' hrec hstart hend] at hfound
    split at hfound
    · cases hfound
    next hlive =>
    have hvalue : rec.value = some rec.payload := by simp [VersionRecord.value, hlive]
    rw [hvalue] at hentries
    have hfits := h.newest_fits hold hentries
    split at hfound
    · cases hfound
    rw [if_neg (not_not.mpr (Row.validate_against_iff.mp hfits).2.1), hok.fits _ hfits] at hfound
    cases hfound

/-- What ALTER makes of a row that fits the table. -/
theorem rewrite_eq (h : Conforms server.node log floor) (hold : server.db.catalog table = some a.old) (hok : a.Ok) (pk : Value) :
    a.rewrite (keyCommits log.commits (table, pk)) =
      ((keyCommits log.commits (table, pk)).head?.bind Prod.snd).map a.change := by
  cases hentries : keyCommits log.commits (table, pk) with
  | nil => rfl
  | cons e rest =>
    obtain ⟨ts, value⟩ := e
    cases value with
    | none => rfl
    | some payload =>
      have hfits := h.newest_fits hold hentries
      have hwidth : payload.length ≠ a.neu.columns.length := by
        rw [(Row.validate_against_iff.mp hfits).2.1]
        exact hok.width.symm
      simp [Database.Alteration.rewrite, hwidth]

section

variable (h : Conforms server.node log floor) (hsim : Simulates since server.node log)
  (hold : server.db.catalog table = some a.old) (hok : a.Ok)
  (halters : Server.Alters server log table a after (.ok ()) pks pre)

include h hsim hold hok halters

/-- What a snapshot from ALTER on sees: of the table the rewritten rows, of other tables
    the same as before. -/
theorem altered_view (k : RowKey) {ts : Nat} (hts : server.db.next_ts ≤ ts) :
    (committedAt (keyCommits (log.commits ++ [a.commit log.commits table server.db.next_ts pre]) k) ts).join =
      if k.1 = table then
        (committedAt (keyCommits log.commits k) (server.db.next_ts - 1)).join.map a.change
      else (committedAt (keyCommits log.commits k) (server.db.next_ts - 1)).join := by
  obtain ⟨rfl, -⟩ := halters.done rfl
  have hstamps : ∀ e ∈ keyCommits log.commits k, e.1 < server.db.next_ts := by
    intro e he
    obtain ⟨c, hc, hts, -⟩ := snapshot.mem_keyCommits he
    rw [← hts]
    exact hsim.stamps c hc
  have hnewest : ∀ ts, server.db.next_ts - 1 ≤ ts →
      committedAt (keyCommits log.commits k) ts = (keyCommits log.commits k).head?.map Prod.snd :=
    fun ts hts => snapshot.committedAt_newest fun e he => (Nat.le_sub_one_of_lt (hstamps e he)).trans hts
  rw [hnewest _ le_rfl]
  have hsame : (k.1 = table → k.2 ∉ pre) →
      (committedAt (keyCommits (log.commits ++ [a.commit log.commits table server.db.next_ts pre]) k) ts).join =
        ((keyCommits log.commits k).head?.map Prod.snd).join := by
    intro hnot
    rw [keyCommits_altered_of_not_mem hnot, hnewest ts (by omega)]
  split
  · next htable =>
    obtain ⟨table', pk⟩ := k
    obtain rfl : table' = table := htable
    obtain ⟨hnodup, hmem, -⟩ := collect_pks_ok halters.collected
    by_cases hpk : pk ∈ pre
    · have hrewrite := h.rewrite_eq hold hok pk
      rw [keyCommits_altered hnodup hpk, hrewrite]
      cases hentries : keyCommits log.commits (table', pk) with
      | nil => rfl
      | cons e rest =>
        obtain ⟨ts', value⟩ := e
        have hlt := hstamps (ts', value) (by rw [hentries]; exact mem_cons_self ..)
        cases value with
        | none =>
          show (committedAt ((ts', none) :: rest) ts).join = _
          rw [snapshot.committedAt_cons, if_pos (hlt.le.trans hts)]
          rfl
        | some payload =>
          show (committedAt ((server.db.next_ts, some (a.change payload)) :: _) ts).join = _
          rw [snapshot.committedAt_cons, if_pos hts]
          rfl
    · -- no row was there
      have hnone : server.disk.kv.heads (table', pk) = none := by
        rw [← not_isSome_iff_eq_none]
        exact fun hsome => hpk ((hmem pk).mpr hsome)
      rw [hsame fun _ => hpk, keyCommits_nil hsim (halters.txns ▸ halters.quiet) hnone]
      rfl
  · next hother => exact hsame fun htable => absurd htable hother

theorem alter :
    Conforms after.node { log with commits := log.commits ++ [a.commit log.commits table server.db.next_ts pre] }
      server.db.next_ts := by
  have hname : a.neu.name = table := hok.name.trans (h.named table a.old hold)
  have hcatalog : ∀ name, after.db.catalog name = if name = table then some a.neu else server.db.catalog name := by
    intro name
    rw [(halters.done rfl).2, ← hname]
    exact update_apply ..
  refine quiet halters.quiet (by show _ < after.db.next_ts; rw [halters.next_ts]; exact Nat.lt_succ_self _)
    (fun name schema hschema => ?_) fun k schema row ts hts hschema hrow => ?_
  · change after.db.catalog name = _ at hschema
    rw [hcatalog] at hschema
    split at hschema
    · next heq =>
      cases hschema
      exact hname.trans heq.symm
    · exact h.named name schema hschema
  · change after.db.catalog k.1 = _ at hschema
    rw [hcatalog] at hschema
    have hview := h.altered_view hsim hold hok halters k hts
    rw [show (committedAt (keyCommits (log.commits ++ [_]) k) ts) = some (some row) from hrow] at hview
    have hold_fits : ∀ payload, some payload = (committedAt (keyCommits log.commits k) (server.db.next_ts - 1)).join →
        ∀ schema, server.db.catalog k.1 = some schema → payload.validate_against schema = .ok () := by
      intro payload hpayload schema hschema
      refine h.rows k schema payload (server.db.next_ts - 1) (Nat.le_sub_one_of_lt h.floor_lt) hschema ?_
      exact join_eq_some_iff.mp hpayload.symm
    split at hview
    · next htable =>
      rw [if_pos htable] at hschema
      cases hschema
      obtain ⟨payload, hpayload, rfl⟩ := map_eq_some_iff.mp hview.symm
      exact hok.fits payload (hold_fits payload hpayload.symm a.old (htable ▸ hold))
    · next hother =>
      rw [if_neg hother] at hschema
      exact hold_fits row hview schema hschema

end

end Alter

end Ddl

/-- The log may forget the transactions that were under way. -/
theorem reset (h : Conforms node log floor) : Conforms node { commits := log.commits } floor :=
  ⟨h.floor_lt, h.named, h.rows, h.snapshots, by rintro id txn t - - ⟨⟩⟩

theorem run {calls : List Call} {log' : snapshot.State RowKey Row} (h : Conforms node log floor)
    (hsim : Simulates since node log) (hrun : node.run log calls = some (after, log')) :
    Conforms after log' floor := by
  induction calls generalizing node log with
  | nil =>
    cases hrun
    exact h
  | cons call calls ih =>
    obtain ⟨⟨next, status⟩, hstep, hrest⟩ := bind_eq_some_iff.mp hrun
    exact ih (h.step hsim (hsim.step hstep) hstep) (hsim.step hstep) hrest

/-- What a transaction under way reads fits the table. -/
theorem get_row_fits (h : Conforms node log floor) (hsim : Simulates since node log) {id : Nat} {txn : Transaction}
    (htxn : node.txns id = some txn) (hopen : txn.finished = false) {k : RowKey} {schema : TableSchema}
    (hschema : node.db.catalog k.1 = some schema) {row : Row} (hrow : txn.get_row node.kv k = .ok row) :
    row.validate_against schema = .ok () := by
  obtain ⟨t, hactive⟩ := hsim.active id txn htxn hopen
  have hreads := hsim.get_row_reads htxn hopen hactive k
  rw [hrow] at hreads
  cases hlatest : latest t.writes k with
  | some value =>
    rw [hlatest, getD_some] at hreads
    cases value with
    | none =>
      obtain ⟨msg, hmsg⟩ := hreads
      cases hmsg
    | some row' =>
      cases hreads
      obtain ⟨u, hu, rfl, hvalue⟩ := history.latest_mem hlatest
      exact h.writes id txn t htxn hopen hactive.active u hu row hvalue schema hschema
  | none =>
    rw [hlatest, getD_none] at hreads
    cases hcommitted : (committedAt (keyCommits log.commits k) txn.start_ts).join with
    | none =>
      rw [hcommitted] at hreads
      obtain ⟨msg, hmsg⟩ := hreads
      cases hmsg
    | some row' =>
      rw [hcommitted] at hreads
      cases hreads
      exact h.rows k schema row txn.start_ts (h.snapshots id txn htxn hopen) hschema
        (join_eq_some_iff.mp hcommitted)

/-- Every command keeps rows and tables in step. -/
theorem command {server after : Server} {log : snapshot.State RowKey Row} {command : Command}
    {status : Except Status Unit} (h : Conforms server.node log floor) (hsim : Simulates since server.node log)
    (hsound : server.Sound) (hconfined : server.confined command = true)
    (hstep : server.step command = some (after, status)) :
    ∃ since log floor, Simulates since after.node log ∧ Conforms after.node log floor := by
  cases command with
  | call call =>
    obtain ⟨-, -, hnode, -⟩ := Server.step_call hstep
    exact ⟨since, _, floor, hsim.step hnode, h.step hsim (hsim.step hnode) hnode⟩
  | ddl ddl =>
    rcases Server.ddl_cases hsim hsound hconfined hstep with ⟨rfl, -⟩ | ⟨hquiet, hdone⟩
    · exact ⟨since, log, floor, hsim, h⟩
    rcases hdone with ⟨schema, -, hcheck, -, rfl, hsim'⟩ | ⟨name, -, -, -, rfl, hsim'⟩ | ⟨table, a, hddl, pks, pre, halters⟩
    · exact ⟨_, _, floor, hsim', h.create hsim hquiet (check_create_table_ok hcheck).2⟩
    · exact ⟨_, _, floor, hsim', h.drop hquiet _⟩
    · obtain ⟨hold, hok⟩ := hddl.ok
      obtain rfl := h.alter_succeeds hold hok halters
      exact ⟨_, _, _, halters.simulates, h.alter hsim hold hok halters⟩

end Conforms

end reldb
