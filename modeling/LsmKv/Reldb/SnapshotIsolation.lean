import LsmKv.Reldb.ByteStore
import LsmKv.Reldb.SimulationSteps

namespace reldb

open lsmkv (Status)
open history (latest)
open effects (applyAll)
open snapshot (keyCommits Wrote IsNewest)
open Option Transaction

namespace Simulates

variable {since : Nat} {node after : Node} {log : snapshot.State RowKey Row} {id : Nat} {txn : Transaction}
  {status : Except Status Unit}

/-- A finished transaction has no part in the log any more. -/
theorem drop_finished (h : Simulates since node log) (htxn : node.txns id = some txn) (hfinished : txn.finished = true) :
    Simulates since node (log.drop id) := by
  refine { h with active := fun id' txn' htxn' hopen' => ?_ }
  have hne : id' ≠ id := by
    rintro rfl
    cases htxn.symm.trans htxn'
    rw [hfinished] at hopen'
    cases hopen'
  obtain ⟨t, hactive⟩ := h.active id' txn' htxn' hopen'
  exact ⟨t, hactive.congr (Function.update_of_ne hne _ _) rfl fun _ _ => ⟨rfl, rfl, rfl⟩⟩

/-- A call that fails before it writes. -/
theorem failed (h : Simulates since node log) (call : Call) (s : Status) :
    Simulates since node (node.observe node log call (.error s)) := by
  cases call with
  | commit id =>
    cases htxn : node.txns id with
    | none => simpa [Node.observe, htxn] using h
    | some txn =>
      cases hopen : txn.finished with
      | true => simpa [Node.observe, htxn, hopen] using h.drop_finished htxn hopen
      | false => simpa [Node.observe, htxn, hopen] using h
  | _ => exact h

end Simulates

/-- What the clients see of a write. -/
theorem Node.observe_row {node after : Node} {log : snapshot.State RowKey Row} {call : Call} {r : RowCall} {key : RowKey}
    (hcall : row_call node.db call = some r) (hkey : r.key = .ok key) :
    node.observe after log call (.ok ()) = log.write r.id ⟨key, if r.is_delete then none else some r.row⟩ := by
  cases call <;> cases hcall
  · simp only [observe, update?, show row_key node.db _ _ = _ from hkey]
    rfl
  · simp only [observe, update?, show row_key node.db _ _ = _ from hkey]
    rfl
  · simp only [observe, update?, (table_key_ok hkey).1]
    rfl

namespace Simulates

variable {since : Nat} {node after : Node} {log : snapshot.State RowKey Row} {id : Nat} {txn : Transaction} {call : Call}
  {status : Except Status Unit}

/-- Every call keeps the node in step with the log of the clients. -/
theorem step (h : Simulates since node log) (hstep : node.step call = some (after, status)) :
    Simulates since after (node.observe after log call status) := by
  obtain ⟨run, hcomes, hfinish⟩ := Node.step_comes hstep
  cases hcomes with
  | fails call s =>
    cases hfinish
    exact h.failed call s
  | begins hddl =>
    cases hfinish
    exact h.begin_txn
  | @rewrites _ r txn w rec hcall hkey htxn hopen hw hrec =>
    cases hfinish
    obtain ⟨id, key, is_delete, row, is_insert⟩ := r
    have hstep := h.rewrite htxn hopen hw hrec (Transaction.rewritten rec is_delete row) rfl rfl rfl rfl rfl
    rw [Node.observe_row hcall hkey, (h.txns _ txn htxn).1]
    cases is_delete <;> exact hstep
  | @installs _ r txn key prev_id hcall hkey htxn hopen hnew hcheck =>
    cases hfinish
    have htable := Node.row_call_table hcall hkey
    obtain ⟨id, key?, is_delete, row, is_insert⟩ := r
    have hstep := h.install htxn hopen htable hnew hcheck is_delete row
    rw [Node.observe_row hcall hkey, show (txn.wrote node.db key).txn_id = id from (h.txns _ txn htxn).1]
    cases is_delete <;> exact hstep
  | skips htxn hfinished =>
    obtain rfl := (h.txns _ _ htxn).1
    cases hfinish
    exact (h.unchanged htxn).drop_finished (Function.update_self ..) hfinished
  | aborts htxn hopen hroll =>
    obtain rfl := (h.txns _ _ htxn).1
    obtain ⟨ops, hroll', hafter⟩ := h.roll_back htxn hopen
    cases hroll.symm.trans hroll'
    cases hfinish
    exact hafter
  | conflicts htxn hopen hcheck => cases (h.check_commit_none htxn hopen).symm.trans hcheck
  | stuck _ htxn hopen hroll =>
    obtain rfl := (h.txns _ _ htxn).1
    obtain ⟨ops, hroll', -⟩ := h.roll_back htxn hopen
    cases hroll.symm.trans hroll'
  | commits htxn hopen =>
    obtain rfl := (h.txns _ _ htxn).1
    obtain ⟨ops, hwrites, hregistry, hafter⟩ := h.commit_writes htxn hopen
    rw [hwrites] at hfinish
    cases hfinish
    simp only [Node.observe, hregistry, map_some, getD_some]
    exact hafter

theorem run (h : Simulates since node log) {calls : List Call} {log' : snapshot.State RowKey Row}
    (hrun : node.run log calls = some (after, log')) : Simulates since after log' := by
  induction calls generalizing node log with
  | nil =>
    cases hrun
    exact h
  | cons call calls ih =>
    obtain ⟨⟨next, status⟩, hstep, hrest⟩ := bind_eq_some_iff.mp hrun
    exact ih (h.step hstep) hrest

/-- With no transaction under way the log may forget those that were. -/
theorem reset (h : Simulates since node log) (hquiet : ∀ id txn, node.txns id = some txn → txn.finished = true) :
    Simulates since node { commits := log.commits } := by
  refine { h with active := fun id txn htxn hopen => ?_ }
  rw [hquiet id txn htxn] at hopen
  cases hopen

variable {catalog : String → Option TableSchema}

theorem fresh (hopened : Node.opened {} catalog = some node) : Simulates 0 node {} := by
  cases hopened
  exact ⟨rfl, Nat.one_pos, Nat.one_pos, by rintro k head ⟨⟩, by rintro id txn ⟨⟩, by rintro id txn ⟨⟩,
    fun k => .inl (.inl ⟨rfl, rfl⟩), Nat.zero_le _, by rintro id txn_meta - ⟨⟩, List.Pairwise.nil, List.Pairwise.nil,
    by rintro c ⟨⟩⟩

theorem session {calls : List Call}
    (hrun : Node.session catalog calls = some (node, log)) : Simulates 0 node log := by
  obtain ⟨first, hopened, hrest⟩ := bind_eq_some_iff.mp hrun
  exact (fresh hopened).run hrest

/-- `Get` of a transaction under way. -/
theorem get_reads_active (h : Simulates since node log) (htxn : node.txns id = some txn) (hopen : txn.finished = false)
    {t : snapshot.Txn RowKey Row} (hactive : Active node.kv log id txn t) (table : String) (pk : Value) :
    Reads (txn.get node.kv node.db table pk) ((latest t.writes (table, pk)).getD
      (snapshot.committedAt (keyCommits log.commits (table, pk)) txn.start_ts).join) := by
  have hreads := h.get_row_reads htxn hopen hactive (table, pk)
  have hgate : ¬ txn.finished = true := by simp [hopen]
  rw [Transaction.get, if_neg hgate, Database.get_table]
  cases hschema : node.db.catalog table with
  | some schema => exact hreads
  | none =>
    -- nothing was ever written to a table that is not there
    have hhead : node.kv.heads (table, pk) = none := by
      rw [eq_none_iff_forall_not_mem]
      intro head hhead
      have htable := (h.heads _ _ hhead).2.2
      rw [hschema] at htable
      cases htable
    rw [get_row, Kv.get_row, hhead] at hreads
    generalize (latest t.writes (table, pk)).getD _ = value at hreads ⊢
    cases value with
    | none => exact ⟨_, rfl⟩
    | some row => cases hreads

end Simulates

section Older

variable {older : List (snapshot.Commit RowKey Row)} {node after : Node} {log log' : snapshot.State RowKey Row}

/-- The log with commits from before. -/
def withOlder (older : List (snapshot.Commit RowKey Row)) (log : snapshot.State RowKey Row) : snapshot.State RowKey Row :=
  { log with commits := older ++ log.commits }

theorem observe_withOlder (call : Call) (status : Except Status Unit) :
    node.observe after (withOlder older log) call status = withOlder older (node.observe after log call status) := by
  have hwrite : ∀ id u, (withOlder older log).write id u = withOlder older (log.write id u) := by
    intro id u
    simp only [snapshot.State.write, withOlder]
    cases log.active id <;> rfl
  cases status with
  | error s =>
    cases call with
    | commit id =>
      simp only [Node.observe]
      split <;> rfl
    | _ => rfl
  | ok _ =>
    cases call with
    | begin_txn => rfl
    | abort id => rfl
    | commit id =>
      simp only [Node.observe, snapshot.State.commit, withOlder]
      cases log.active id with
      | none => rfl
      | some t => simp
    | delete id table pk => exact hwrite id _
    | insert id table row | update id table row =>
      simp only [Node.observe, Node.update?]
      cases row_key node.db table row with
      | ok key => exact hwrite id _
      | error s => rfl

/-- A run does not depend on commits from before. -/
theorem run_withOlder (older : List (snapshot.Commit RowKey Row)) {calls : List Call}
    (h : node.run log calls = some (after, log')) :
    node.run (withOlder older log) calls = some (after, withOlder older log') := by
  induction calls generalizing node log with
  | nil =>
    cases h
    rfl
  | cons call calls ih =>
    obtain ⟨⟨next, status⟩, hstep, hrest⟩ := bind_eq_some_iff.mp h
    rw [Node.run, hstep, bind_some]
    show next.run (node.observe next (withOlder older log) call status) calls = _
    rw [observe_withOlder]
    exact ih hrest

end Older

section Isolation

variable {catalog : String → Option TableSchema} {calls : List Call} {node : Node} {log : snapshot.State RowKey Row}

/-- A transaction under way reads its own last write of a key, or else what the newest
    commit in its snapshot wrote, or else nothing. The run has no crash and no failure of the
    store, and everything it writes fits the records: then what is decoded from the bytes of
    the store is what the calls read. -/
theorem get_eq_snapshot (hrun : Node.session catalog calls = some (node, log))
    (hfits : Machine.fits catalog (Event.session calls) = true) {id : Nat} {txn : Transaction}
    (htxn : node.txns id = some txn) (hopen : txn.finished = false) (table : String) (pk : Value) :
    node.kv.ReadFrom (Machine.bytes catalog (Event.session calls)) ∧ ∃ t, log.active id = some t ∧ t.start_ts = txn.start_ts ∧
      (∀ value, latest t.writes (table, pk) = some value → Reads (txn.get node.kv node.db table pk) value) ∧
      (¬ Wrote t.writes (table, pk) →
        (∀ c, IsNewest log.commits (table, pk) txn.start_ts c → ∀ value, latest c.writes (table, pk) = some value →
          Reads (txn.get node.kv node.db table pk) value) ∧
        ((∀ c ∈ log.commits, Wrote c.writes (table, pk) → txn.start_ts < c.commit_ts) →
          Reads (txn.get node.kv node.db table pk) none)) := by
  have h := Simulates.session hrun
  obtain ⟨t, hactive⟩ := h.active id txn htxn hopen
  have hreads := h.get_reads_active htxn hopen hactive table pk
  refine ⟨Node.readFrom_session hrun hfits, t, hactive.active, hactive.start_ts, ?_, fun hnot => ⟨?_, ?_⟩⟩
  · intro value hlatest
    rw [hlatest] at hreads
    exact hreads
  · intro c hnewest value hlatest
    rw [snapshot.wrote_iff_latest, not_isSome_iff_eq_none] at hnot
    rw [hnot, hnewest.committedAt_eq h.ordered, hlatest] at hreads
    exact hreads
  · intro hyoung
    rw [snapshot.wrote_iff_latest, not_isSome_iff_eq_none] at hnot
    rw [hnot, snapshot.committedAt_eq_none hyoung] at hreads
    exact hreads

/-- A transaction is under way while another one changes a row and commits. -/
def overtaken : List Call :=
  [.begin_txn, .insert 1 "t" [.int64 1, .int64 10], .commit 1, .begin_txn, .begin_txn,
    .update 3 "t" [.int64 1, .int64 20], .commit 3]

theorem get_eq_snapshot_overtaken : ∃ node log txn, Node.session numbers overtaken = some (node, log) ∧
    node.txns 2 = some txn ∧ txn.finished = false ∧
    node.kv.ReadFrom (Machine.bytes numbers (Event.session overtaken)) ∧ ∃ t, log.active 2 = some t ∧ t.start_ts = txn.start_ts ∧
      (∀ value, latest t.writes ("t", .int64 1) = some value →
        Reads (txn.get node.kv node.db "t" (.int64 1)) value) ∧
      (¬ Wrote t.writes ("t", .int64 1) →
        (∀ c, IsNewest log.commits ("t", .int64 1) txn.start_ts c → ∀ value,
          latest c.writes ("t", .int64 1) = some value → Reads (txn.get node.kv node.db "t" (.int64 1)) value) ∧
        ((∀ c ∈ log.commits, Wrote c.writes ("t", .int64 1) → txn.start_ts < c.commit_ts) →
          Reads (txn.get node.kv node.db "t" (.int64 1)) none)) := by
  have hfacts : (Node.session numbers overtaken).map (fun s => (s.1.txns 2).map Transaction.finished) =
      some (some false) := by decide +kernel
  obtain ⟨⟨node, log⟩, hrun, hfinished⟩ := map_eq_some_iff.mp hfacts
  obtain ⟨txn, htxn, hopen⟩ := map_eq_some_iff.mp hfinished
  exact ⟨node, log, txn, hrun, htxn, hopen, get_eq_snapshot hrun (by decide +kernel) htxn hopen "t" (.int64 1)⟩

/-- An insert of a string of 2 ^ 32 bytes succeeds, and the version that its transaction then
    finds at the head of the row is refused. -/
theorem own_write_refused : ∃ node log t,
    Node.session strings (insert_string (List.replicate (2 ^ 32) 97)) = some (node, log) ∧ log.active 1 = some t ∧
      latest t.writes ("t", .int64 1) = some (some [.int64 1, .string (List.replicate (2 ^ 32) 97)]) ∧
      node.kv.heads ("t", .int64 1) = some 1 ∧
      (Machine.bytes strings (Event.session (insert_string (List.replicate (2 ^ 32) 97)))).get_version
        ("t", .int64 1) 1 = .error (.Corruption "version: trailing bytes") := by
  have hrun : ∀ s, ∃ node log t, Node.session strings (insert_string s) = some (node, log) ∧ log.active 1 = some t ∧
      latest t.writes ("t", .int64 1) = some (some [.int64 1, .string s]) ∧ node.kv.heads ("t", .int64 1) = some 1 :=
    fun s => ⟨_, _, _, rfl, rfl, rfl, rfl⟩
  obtain ⟨node, log, t, hsession, hactive, hlatest, hhead⟩ := hrun (List.replicate (2 ^ 32) 97)
  exact ⟨node, log, t, hsession, hactive, hlatest, hhead,
    get_version_long (List.length_replicate ..).ge rfl⟩

/-- Of two committed transactions that wrote one row, one began after the other committed.
    The run is any interleaving of calls without a crash and without a failure of the
    store; nothing is assumed about the rows or the order of the commits. -/
theorem committed_not_overlapping (hrun : Node.session catalog calls = some (node, log)) {id id' : Nat} (hne : id ≠ id')
    {txn txn' : Transaction} (htxn : node.txns id = some txn) (htxn' : node.txns id' = some txn')
    {txn_meta txn_meta' : TxnMeta} (hmeta : node.kv.txns id = some txn_meta)
    (hmeta' : node.kv.txns id' = some txn_meta') (hstate : txn_meta.state = .kCommitted)
    (hstate' : txn_meta'.state = .kCommitted) {w w' : TxnWrite} (hw : w ∈ txn.written) (hw' : w' ∈ txn'.written)
    (hkey : w.key = w'.key) :
    ¬ (txn.start_ts < txn_meta'.commit_ts ∧ txn'.start_ts < txn_meta.commit_ts) := by
  have h := Simulates.session hrun
  obtain ⟨_, hsome, c, hc, hid, hstart, hcommit, hwrote⟩ := h.committed id txn_meta (Nat.zero_le _) hmeta hstate
  obtain ⟨_, hsome', c', hc', hid', hstart', hcommit', hwrote'⟩ := h.committed id' txn_meta' (Nat.zero_le _) hmeta' hstate'
  cases htxn.symm.trans hsome
  cases htxn'.symm.trans hsome'
  have hdiff : c ≠ c' := by
    rintro rfl
    exact hne (hid.symm.trans hid')
  rw [← hstart, ← hcommit, ← hstart', ← hcommit']
  exact h.wins.not_overlap h.ordered hc hc' hdiff (hwrote w hw) (hkey ▸ hwrote' w' hw')

theorem committed_not_overlapping_overtaken : ∃ node log txn txn' txn_meta txn_meta',
    Node.session numbers overtaken = some (node, log) ∧ node.txns 1 = some txn ∧ node.txns 3 = some txn' ∧
      node.kv.txns 1 = some txn_meta ∧ node.kv.txns 3 = some txn_meta' ∧
      ¬ (txn.start_ts < txn_meta'.commit_ts ∧ txn'.start_ts < txn_meta.commit_ts) := by
  have hfacts : (Node.session numbers overtaken).map (fun s =>
      ((s.1.txns 1).map Transaction.written, (s.1.txns 3).map Transaction.written,
        s.1.kv.txns 1, s.1.kv.txns 3)) =
      some (some [⟨"t", .int64 1, 1⟩], some [⟨"t", .int64 1, 2⟩], some { state := .kCommitted, commit_ts := 1 },
        some { state := .kCommitted, commit_ts := 2 }) := by decide +kernel
  obtain ⟨⟨node, log⟩, hrun, hsome⟩ := map_eq_some_iff.mp hfacts
  simp only [Prod.mk.injEq, map_eq_some_iff] at hsome
  obtain ⟨⟨txn, htxn, hwritten⟩, ⟨txn', htxn', hwritten'⟩, hmeta, hmeta'⟩ := hsome
  have hw : (⟨"t", .int64 1, 1⟩ : TxnWrite) ∈ txn.written := by simp [hwritten]
  have hw' : (⟨"t", .int64 1, 2⟩ : TxnWrite) ∈ txn'.written := by simp [hwritten']
  refine ⟨node, log, txn, txn', _, _, hrun, htxn, htxn', hmeta, hmeta', ?_⟩
  exact committed_not_overlapping hrun (by decide) htxn htxn' hmeta hmeta' rfl rfl hw hw' rfl

end Isolation

end reldb
