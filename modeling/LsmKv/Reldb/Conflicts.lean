import LsmKv.Reldb.SnapshotIsolation

namespace reldb

open lsmkv (Status)
open snapshot (keyCommits Wrote)
open Option Transaction

namespace Transaction

variable {kv : Kv} {txn : Transaction} {key : RowKey} {head : Nat} {is_insert : Bool}

theorem check_write_eq {rec : VersionRecord} (hhead : kv.heads key = some head)
    (hrec : kv.versions key head = some rec) :
    txn.check_write kv key is_insert = (txn.prev_of_head kv head rec).bind fun prev_id =>
      (txn.check_newest_committed kv key head head).bind fun _ =>
        (check_existing is_insert (txn.get_row kv key)).map fun _ => prev_id := by
  rw [check_write, hhead]
  dsimp only
  rw [Kv.get_version_eq_ok.mpr hrec]
  rfl

/-- The first write of a key whose newest version is committed. -/
theorem check_write_linked {ts : Nat} {value : Option Row} {rest : List (Nat × Option Row)}
    (hhead : kv.heads key = some head) (hlinked : Linked (kv.versions key) head 0 ((ts, value) :: rest)) :
    txn.check_write kv key is_insert =
      if txn.start_ts < ts then .error (.Conflict "write-write conflict: key committed after snapshot")
      else (check_existing is_insert (txn.get_row kv key)).map fun _ => head := by
  obtain ⟨hpos, hts, rec, hrec, -, rfl, -⟩ := hlinked
  obtain ⟨n, rfl⟩ := Nat.exists_eq_succ_of_ne_zero hpos
  have hstamped : rec.is_provisional = false := by simp [VersionRecord.is_provisional, hts]
  have hprev : txn.prev_of_head kv (n + 1) rec = .ok (n + 1) := by
    rw [prev_of_head, hstamped]
    rfl
  rw [check_write_eq hhead hrec, hprev, check_newest_committed, if_neg hpos, Kv.get_version_eq_ok.mpr hrec]
  dsimp only
  rw [hstamped, Bool.not_false, if_pos rfl]
  split <;> rfl

theorem check_existing_no_conflict {result : Except Status Row} {value : Option Row} (h : Reads result value)
    (msg : String) : check_existing is_insert result ≠ .error (.Conflict msg) := by
  cases value with
  | some row =>
    rw [show result = .ok row from h]
    cases is_insert <;> rintro ⟨⟩
  | none =>
    obtain ⟨_, rfl⟩ := h
    cases is_insert <;> rintro ⟨⟩

end Transaction

/-- Some transaction under way has written the row, or a commit after the snapshot did. -/
def Contended (node : Node) (log : snapshot.State RowKey Row) (key : RowKey) (start_ts : Nat) : Prop :=
  (∃ id txn, node.txns id = some txn ∧ txn.finished = false ∧ ∃ w ∈ txn.written, w.key = key) ∨
    ∃ c ∈ log.commits, Wrote c.writes key ∧ start_ts < c.commit_ts

namespace Simulates

variable {since : Nat} {node : Node} {log : snapshot.State RowKey Row} {id : Nat} {txn : Transaction} {key : RowKey}
  {is_insert : Bool}

/-- The first write of a key that another transaction under way has written. -/
theorem check_write_held (h : Simulates since node log) (htxn : node.txns id = some txn) {id' : Nat} (hne : id' ≠ id)
    {txn' : Transaction} (htxn' : node.txns id' = some txn') (hopen' : txn'.finished = false) {w : TxnWrite}
    (hw : w ∈ txn'.written) : txn.check_write node.kv w.key is_insert =
      .error (.Conflict "write-write conflict: key held by open txn") := by
  obtain ⟨t', hactive'⟩ := h.active id' txn' htxn' hopen'
  obtain ⟨rec, -, hheld⟩ := hactive'.held w hw
  have howner : rec.created_by ≠ txn.txn_id := by
    rw [hheld.created_by, (h.txns id txn htxn).1]
    exact hne
  have hmeta : node.kv.get_txn_meta rec.created_by = .ok { writes := txn'.written } := by
    rw [hheld.created_by, Kv.get_txn_meta, hactive'.registry]
  rw [check_write_eq hheld.head_eq hheld.version, prev_of_head,
    if_pos (by simp [VersionRecord.is_provisional, hheld.provisional]), hmeta]
  dsimp only
  rw [if_pos ⟨rfl, howner⟩]
  rfl

/-- The first write of a key that nobody holds. -/
theorem check_write_free (h : Simulates since node log) (htxn : node.txns id = some txn) (hopen : txn.finished = false)
    (hfree : Free node.kv key (keyCommits log.commits key)) :
    (∃ msg, txn.check_write node.kv key is_insert = .error (.Conflict msg)) ↔
      ∃ c ∈ log.commits, Wrote c.writes key ∧ txn.start_ts < c.commit_ts := by
  have hseen : (∀ e ∈ (keyCommits log.commits key).head?, e.1 ≤ txn.start_ts) →
      ¬ ∃ c ∈ log.commits, Wrote c.writes key ∧ txn.start_ts < c.commit_ts := by
    rintro hle ⟨c, hc, hwrote, hlt⟩
    exact absurd hlt (not_lt.mpr (h.ordered.commit_ts_le hle hc hwrote))
  rcases hfree with ⟨hhead, hentries⟩ | ⟨head, hhead, hne, hlinked⟩
  · rw [check_write, hhead]
    refine iff_of_false ?_ (hseen (by simp [hentries]))
    cases is_insert <;> rintro ⟨msg, ⟨⟩⟩
  obtain ⟨⟨ts, value⟩, rest, hentries⟩ := List.exists_cons_of_ne_nil hne
  rw [hentries] at hlinked hseen
  rw [check_write_linked hhead hlinked]
  by_cases hlater : txn.start_ts < ts
  · obtain ⟨c, hc, rfl, hlatest⟩ := snapshot.mem_keyCommits (hentries ▸ List.mem_cons_self)
    rw [if_pos hlater]
    exact iff_of_true ⟨_, rfl⟩ ⟨c, hc, snapshot.wrote_iff_latest.mpr (by simp [hlatest]), hlater⟩
  · rw [if_neg hlater]
    refine iff_of_false ?_ (hseen (by simpa using hlater))
    rintro ⟨msg, hconflict⟩
    obtain ⟨t, hactive⟩ := h.active id txn htxn hopen
    have hother := @Transaction.check_existing_no_conflict is_insert _ _ (h.get_row_reads htxn hopen hactive key) msg
    cases hexisting : check_existing is_insert (txn.get_row node.kv key) with
    | ok _ =>
      rw [hexisting] at hconflict
      cases hconflict
    | error s =>
      rw [hexisting] at hconflict
      cases hconflict
      exact hother hexisting

end Simulates

section Runs

variable {catalog : String → Option TableSchema} {calls : List Call} {node : Node} {log : snapshot.State RowKey Row}
  {txn : Transaction}

/-- No write conflicts without need: the first write of a row conflicts exactly if the row
    is contended, in a run without crashes and failures whose writes all fit the records. -/
theorem write_conflicts_iff (hrun : Node.session catalog calls = some (node, log))
    (hfits : Machine.fits catalog (Event.session calls) = true) {call : Call} {r : Node.RowCall} {key : RowKey}
    (hcall : Node.row_call node.db call = some r) (hkey : r.key = .ok key)
    (htxn : node.txns r.id = some txn) (hopen : txn.finished = false) (hnew : ∀ w ∈ txn.written, w.key ≠ key) :
    node.kv.ReadFrom (Machine.bytes catalog (Event.session calls)) ∧
      ((∃ after msg, node.step call = some (after, .error (.Conflict msg))) ↔ Contended node log key txn.start_ts) := by
  refine ⟨Node.readFrom_session hrun hfits, ?_⟩
  have h := Simulates.session hrun
  have hfind : txn.written.find? (fun w => w.key = key) = none := List.find?_eq_none.mpr (by simpa using hnew)
  trans ∃ msg, txn.check_write node.kv key r.is_insert = .error (.Conflict msg)
  · rw [Node.row_step_eq hcall fun id txn htxn => (h.txns id txn htxn).1, htxn, map_some, Node.row_outcome, hkey]
    dsimp only
    rw [write_outcome, if_neg (by simp [hopen]), hfind]
    cases txn.check_write node.kv key r.is_insert <;> simp [Node.wrote_row, bind, Except.bind, pure, Except.pure]
  rw [Contended]
  rcases h.keys key with hfree | hheld
  · rw [h.check_write_free htxn hopen hfree, or_iff_right]
    rintro ⟨id', txn', htxn', hopen', w, hw, rfl⟩
    obtain ⟨t', hactive'⟩ := h.active id' txn' htxn' hopen'
    obtain ⟨rec, -, hheld⟩ := hactive'.held w hw
    exact hheld.not_free hfree
  · refine iff_of_true ?_ (.inl hheld)
    obtain ⟨id', txn', htxn', hopen', w, hw, rfl⟩ := hheld
    refine ⟨_, h.check_write_held htxn ?_ htxn' hopen' hw⟩
    rintro rfl
    cases htxn.symm.trans htxn'
    exact hnew w hw rfl

theorem write_conflicts_iff_overtaken : ∃ node log txn, Node.session numbers overtaken = some (node, log) ∧
    node.txns 2 = some txn ∧ node.kv.ReadFrom (Machine.bytes numbers (Event.session overtaken)) ∧
      ((∃ after msg, node.step (.delete 2 "t" (.int64 1)) = some (after, .error (.Conflict msg))) ↔
      Contended node log ("t", .int64 1) txn.start_ts) := by
  have hfacts : (Node.session numbers overtaken).map (fun s => (table_key s.1.db "t" (.int64 1),
      (s.1.txns 2).map fun txn => (txn.finished, txn.written))) =
        some (.ok ("t", .int64 1), some (false, [])) := by decide +kernel
  obtain ⟨⟨node, log⟩, hrun, hsome⟩ := map_eq_some_iff.mp hfacts
  simp only [Prod.mk.injEq, map_eq_some_iff] at hsome
  obtain ⟨hkey, txn, htxn, hopen, hwritten⟩ := hsome
  exact ⟨node, log, txn, hrun, htxn, write_conflicts_iff hrun (by decide +kernel) rfl hkey htxn hopen (by simp [hwritten])⟩

/-- A transaction under way always commits: the check of `Commit` finds no conflict that
    the writes have not found. Nothing has crashed or failed, and all that was written fits. -/
theorem commit_succeeds (hrun : Node.session catalog calls = some (node, log))
    (hfits : Machine.fits catalog (Event.session calls) = true) {id : Nat} (htxn : node.txns id = some txn)
    (hopen : txn.finished = false) :
    node.kv.ReadFrom (Machine.bytes catalog (Event.session calls)) ∧ ∃ after, node.step (.commit id) = some (after, .ok ()) ∧
      after.kv.txns id = some { state := .kCommitted, commit_ts := node.db.next_ts } := by
  have h := Simulates.session hrun
  obtain ⟨ops, hwrites, hregistry, -⟩ := h.commit_writes htxn hopen
  have hcommit : txn.commit node.db node.kv = txn.commit_writes node.db node.kv := by
    rw [Transaction.commit, if_neg (by simp [hopen]), effects.Prog.query_bind, h.check_commit_none htxn hopen]
  have hstep : node.step (.commit id) = some (node.finish (txn.commit_writes node.db node.kv)) := by
    rw [Node.step_eq_finish, Node.prog, htxn, ← hcommit]
    rfl
  rw [hwrites] at hstep
  exact ⟨Node.readFrom_session hrun hfits, _, hstep, hregistry⟩

theorem commit_succeeds_overtaken : ∃ node log after, Node.session numbers overtaken = some (node, log) ∧
    node.step (.commit 2) = some (after, .ok ()) ∧
      after.kv.txns 2 = some { state := .kCommitted, commit_ts := node.db.next_ts } := by
  have hfacts : (Node.session numbers overtaken).map (fun s => (s.1.txns 2).map Transaction.finished) =
      some (some false) := by decide +kernel
  obtain ⟨⟨node, log⟩, hrun, hfinished⟩ := map_eq_some_iff.mp hfacts
  obtain ⟨txn, htxn, hopen⟩ := map_eq_some_iff.mp hfinished
  obtain ⟨-, after, hcommit⟩ := commit_succeeds hrun (by decide +kernel) htxn hopen
  exact ⟨node, log, after, hrun, hcommit⟩

end Runs

end reldb
