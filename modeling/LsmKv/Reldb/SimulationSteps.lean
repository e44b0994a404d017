import LsmKv.Reldb.Simulation

namespace reldb

open lsmkv (Status)
open history (latest)
open effects (applyAll)
open snapshot (keyCommits Wrote)
open List Function Transaction

namespace Simulates

variable {since : Nat} {node : Node} {log : snapshot.State RowKey Row} {id : Nat} {txn : Transaction}

/-- A step of one transaction. What it touches is free afterwards or its own, and
    everything else stays. -/
theorem change (h : Simulates since node log) {kv' : Kv} {db' : Database} {log' : snapshot.State RowKey Row}
    {txn' : Transaction} (touched : RowKey → Prop) (hddl : db'.ddl_in_progress = false)
    (hcatalog : db'.catalog = node.db.catalog) (hts : node.db.next_ts ≤ db'.next_ts)
    (hvid : node.db.next_version_id ≤ db'.next_version_id)
    (hid : node.db.next_txn_id ≤ db'.next_txn_id)
    (hheads : ∀ k, touched k → ∀ head, kv'.heads k = some head →
      0 < head ∧ head < db'.next_version_id ∧ (db'.catalog k.1).isSome)
    (htxn' : txn'.txn_id = id ∧ id < db'.next_txn_id ∧ txn'.start_ts < db'.next_ts)
    (hothers : ∀ id', id' ≠ id → kv'.txns id' = node.kv.txns id' ∧ log'.active id' = log.active id')
    (huntouched : ∀ k, ¬ touched k → kv'.heads k = node.kv.heads k ∧ kv'.versions k = node.kv.versions k ∧
      keyCommits log'.commits k = keyCommits log.commits k)
    (htouched : ∀ id' txn', id' ≠ id → node.txns id' = some txn' → txn'.finished = false →
      ∀ w ∈ txn'.written, ¬ touched w.key)
    (hactive : txn'.finished = false → ∃ t, Active kv' log' id txn' t)
    (hkeys : ∀ k, touched k → Free kv' k (keyCommits log'.commits k) ∨
      txn'.finished = false ∧ ∃ w ∈ txn'.written, w.key = k)
    (hkeep : ∀ txn, node.txns id = some txn → txn.finished = false → ∀ w ∈ txn.written, ¬ touched w.key →
      txn'.finished = false ∧ w ∈ txn'.written)
    (hcommits : ∀ c ∈ log.commits, c ∈ log'.commits)
    (hcommitted : ∀ txn_meta, kv'.txns id = some txn_meta → txn_meta.state = .kCommitted →
      ∃ c ∈ log'.commits, c.txn = id ∧ c.start_ts = txn'.start_ts ∧ c.commit_ts = txn_meta.commit_ts ∧
        ∀ w ∈ txn'.written, Wrote c.writes w.key)
    (hordered : snapshot.Ordered log'.commits) (hwins : snapshot.FirstCommitterWins log'.commits)
    (hstamps : ∀ c ∈ log'.commits, c.commit_ts < db'.next_ts) :
    Simulates since ⟨kv', db', update node.txns id (some txn')⟩ log' where
  no_ddl := hddl
  ts_pos := h.ts_pos.trans_le hts
  vid_pos := h.vid_pos.trans_le hvid
  heads := by
    intro k head hhead
    by_cases hk : touched k
    · exact hheads k hk head hhead
    · have hold := h.heads k head (by rw [← (huntouched k hk).1]; exact hhead)
      exact ⟨hold.1, hold.2.1.trans_le hvid, by rw [hcatalog]; exact hold.2.2⟩
  txns := by
    intro id' txn'' hsome
    rcases update_some_cases hsome with ⟨rfl, rfl⟩ | ⟨heq, hsome⟩
    · exact htxn'
    · obtain ⟨hid', hlt, hstart⟩ := h.txns id' txn'' hsome
      exact ⟨hid', hlt.trans_le hid, hstart.trans_le hts⟩
  active := by
    intro id' txn'' hsome hopen
    rcases update_some_cases hsome with ⟨rfl, rfl⟩ | ⟨heq, hsome⟩
    · exact hactive hopen
    · obtain ⟨t, hold⟩ := h.active id' txn'' hsome hopen
      refine ⟨t, hold.congr (hothers id' heq).2 (hothers id' heq).1 fun w hw => ?_⟩
      exact huntouched w.key (htouched id' txn'' heq hsome hopen w hw)
  keys := by
    intro k
    by_cases hk : touched k
    · exact (hkeys k hk).imp_right fun hheld => ⟨id, txn', update_self .., hheld⟩
    · obtain ⟨hheads', hversions', hcommits'⟩ := huntouched k hk
      rcases h.keys k with hfree | ⟨id', txn'', hsome, hopen, w, hw, rfl⟩
      · rw [hcommits']
        exact .inl (hfree.congr hheads' hversions')
      · by_cases heq : id' = id
        · subst heq
          obtain ⟨hopen', hw'⟩ := hkeep txn'' hsome hopen w hw hk
          exact .inr ⟨id', txn', update_self .., hopen', w, hw', rfl⟩
        · exact .inr ⟨id', txn'', (update_of_ne heq _ _).trans hsome, hopen, w, hw, rfl⟩
  since_le := h.since_le.trans hid
  committed := by
    intro id' txn_meta hsince hmeta hstate
    by_cases heq : id' = id
    · subst heq
      exact ⟨txn', update_self .., hcommitted txn_meta hmeta hstate⟩
    · rw [(hothers id' heq).1] at hmeta
      obtain ⟨txn, htxn, c, hc, hfacts⟩ := h.committed id' txn_meta hsince hmeta hstate
      exact ⟨txn, (update_of_ne heq _ _).trans htxn, c, hcommits c hc, hfacts⟩
  ordered := hordered
  wins := hwins
  stamps := hstamps

/-- A transaction whose record says otherwise is not committed. -/
theorem not_committed {kv : Kv} {txn_meta : TxnMeta} {P : TxnMeta → Prop} (hmeta : kv.txns id = some txn_meta)
    (hstate : (decide (txn_meta.state = .kCommitted)) = false) :
    ∀ txn_meta, kv.txns id = some txn_meta → txn_meta.state = .kCommitted → P txn_meta := by
  intro txn_meta' hmeta' hstate'
  cases hmeta.symm.trans hmeta'
  exact absurd hstate' (of_decide_eq_false hstate)

/-- `Begin` starts a transaction that has written nothing. -/
theorem begin_txn (h : Simulates since node log) :
    Simulates since ⟨applyAll node.kv (node.db.begun.oracle_ops ++ [.put_txn_meta node.db.next_txn_id {}]), node.db.begun,
        update node.txns node.db.next_txn_id
          (some { txn_id := node.db.next_txn_id, start_ts := node.db.next_ts - 1 })⟩
      (log.start node.db.next_txn_id (node.db.next_ts - 1)) := by
  have hpos := h.ts_pos
  have hnone : node.txns node.db.next_txn_id = none := by
    cases hcase : node.txns node.db.next_txn_id with
    | none => rfl
    | some txn => exact absurd (h.txns _ txn hcase).2.1 (lt_irrefl _)
  have hregistry : (applyAll node.kv (node.db.begun.oracle_ops ++ [.put_txn_meta node.db.next_txn_id {}])).txns
      node.db.next_txn_id = some {} := update_self ..
  refine h.change (fun _ => False) h.no_ddl rfl le_rfl le_rfl (Nat.le_succ _) (fun _ hk => hk.elim)
    ⟨rfl, Nat.lt_succ_self _, ?_⟩ ?_ (fun _ _ => ⟨rfl, rfl, rfl⟩) (fun _ _ _ _ _ _ _ => id) ?_
    (fun _ hk => hk.elim) ?_ (fun _ hc => hc) (not_committed hregistry rfl) h.ordered h.wins h.stamps
  · show node.db.next_ts - 1 < node.db.next_ts
    omega
  · intro id' hne
    exact ⟨update_of_ne hne _ _, update_of_ne hne _ _⟩
  · intro _
    refine ⟨{ start_ts := node.db.next_ts - 1 }, update_self .., rfl, ?_, hregistry, nodup_nil, ?_⟩
    · rintro k ⟨u, hu, -⟩
      cases hu
    · intro w hw
      cases hw
  · intro txn htxn
    rw [hnone] at htxn
    cases htxn

section

variable (h : Simulates since node log) (htxn : node.txns id = some txn)

include h htxn

/-- A call that changes nothing in the store. -/
theorem unchanged :
    Simulates since ⟨node.kv, node.db, update node.txns id (some txn)⟩ log := by
  rw [← htxn, update_eq_self]
  exact h

/-- A transaction under way holds no key that another one has written. -/
theorem others_key_ne (hopen : txn.finished = false) :
    ∀ id' txn', id' ≠ id → node.txns id' = some txn' → txn'.finished = false →
      ∀ w ∈ txn'.written, ¬ ∃ w' ∈ txn.written, w'.key = w.key := by
  rintro id' txn' hne htxn' hopen' w hw ⟨w', hw', hkey⟩
  exact h.keys_ne hne htxn' htxn hopen' hopen hw hw' hkey.symm

/-- Another write of a key that the transaction has written. -/
theorem rewrite (hopen : txn.finished = false) {w : TxnWrite} (hw : w ∈ txn.written) {rec : VersionRecord}
    (hrec : node.kv.versions w.key w.version_id = some rec) (rec' : VersionRecord)
    (hid : rec'.version_id = rec.version_id) (hstart : rec'.start_ts = rec.start_ts)
    (hprev : rec'.prev_id = rec.prev_id) (howner : rec'.created_by = rec.created_by) (hend : rec'.end_ts = rec.end_ts) :
    Simulates since ⟨node.kv.apply (.put_version_value w.key rec'), node.db, update node.txns id (some txn)⟩
      (log.write id ⟨w.key, rec'.value⟩) := by
  obtain ⟨t, hactive⟩ := h.active id txn htxn hopen
  rw [snapshot.State.write_eq hactive.active]
  refine h.change (· = w.key) h.no_ddl rfl le_rfl le_rfl le_rfl (fun k _ => h.heads k) (h.txns id txn htxn) ?_ ?_ ?_
    ?_ ?_ ?_ (fun _ hc => hc) (not_committed hactive.registry rfl) h.ordered h.wins h.stamps
  · exact fun id' hne => ⟨rfl, update_of_ne hne _ _⟩
  · exact fun k hk => ⟨rfl, update_of_ne hk _ _, rfl⟩
  · intro id' txn' hne htxn' hopen' w' hw' hkey
    exact h.others_key_ne htxn hopen id' txn' hne htxn' hopen' w' hw' ⟨w, hw, hkey.symm⟩
  · intro _
    refine ⟨_, update_self .., hactive.start_ts, ?_, hactive.registry, hactive.nodup, ?_⟩
    · intro k hwrote
      rcases snapshot.Wrote.append.mp hwrote with hold | ⟨u, hu, rfl⟩
      · exact hactive.wrote k hold
      · obtain rfl := mem_singleton.mp hu
        exact ⟨w, hw, rfl⟩
    · intro w' hw'
      obtain ⟨rec₀, hlatest, hheld⟩ := hactive.held w' hw'
      rw [history.latest_concat]
      by_cases hkey : w.key = w'.key
      · obtain rfl : w = w' := inj_on_of_nodup_map hactive.nodup hw hw' hkey
        cases hrec.symm.trans hheld.version
        have hrow : (node.kv.apply (.put_version_value w.key rec')).versions w.key =
            update (node.kv.versions w.key) w.version_id (some rec') := by
          rw [← hheld.version_id, ← hid]
          exact update_self ..
        refine ⟨rec', if_pos rfl, hheld.head_eq, ?_, hid.trans hheld.version_id, hstart.trans hheld.provisional,
          hend.trans hheld.not_closed, howner.trans hheld.created_by, by rw [hprev]; exact hheld.prev_lt, ?_, hheld.snapshot⟩
        · rw [hrow]
          exact update_self ..
        · rw [hrow, hprev]
          refine hheld.linked.congr fun n hn => ?_
          exact update_of_ne (hn.trans_lt hheld.prev_lt).ne _ _
      · refine ⟨rec₀, by rw [if_neg hkey]; exact hlatest, ?_⟩
        exact hheld.congr rfl (update_of_ne (Ne.symm hkey) _ _)
  · rintro k rfl
    exact .inr ⟨hopen, w, hw, rfl⟩
  · intro txn' htxn' hopen' w' hw' _
    cases htxn.symm.trans htxn'
    exact ⟨hopen, hw'⟩

end

section FirstWrite

variable {key : RowKey} {is_insert : Bool} {prev_id : Nat}

/-- The checks of a first write pass only on a key that nobody holds and whose newest
    commit is in the snapshot. -/
theorem check_write_ok (h : Simulates since node log) (hcheck : txn.check_write node.kv key is_insert = .ok prev_id) :
    Free node.kv key (keyCommits log.commits key) ∧ prev_id < node.db.next_version_id ∧
      Linked (node.kv.versions key) prev_id 0 (keyCommits log.commits key) ∧
      ∀ e ∈ (keyCommits log.commits key).head?, e.1 ≤ txn.start_ts := by
  rcases h.keys key with hfree | ⟨id', txn', htxn', hopen', w, hw, rfl⟩
  · refine ⟨hfree, ?_⟩
    rcases hfree with ⟨hhead, hentries⟩ | ⟨head, hhead, hne, hlinked⟩
    · rcases check_write_prev hcheck with ⟨-, rfl⟩ | ⟨head, rec, hsome, -⟩
      · rw [hentries]
        exact ⟨h.vid_pos, rfl, by simp⟩
      · cases hhead.symm.trans hsome
    · obtain ⟨rec, hrec, hstamped⟩ := hlinked.head_stamped hne
      obtain ⟨hprev, hnewest, -⟩ := Transaction.check_write_ok hhead hrec hcheck
      rcases Transaction.prev_of_head_ok hprev with ⟨-, rfl⟩ | ⟨hzero, -⟩
      · exact ⟨(h.heads key _ hhead).2.1, hlinked, Transaction.check_newest_committed_linked hlinked hnewest⟩
      · exact absurd hzero hstamped
  · obtain ⟨t', hactive'⟩ := h.active id' txn' htxn' hopen'
    obtain ⟨rec, -, hheld⟩ := hactive'.held w hw
    have hprev := (Transaction.check_write_ok hheld.head_eq hheld.version hcheck).1
    rcases Transaction.prev_of_head_ok hprev with ⟨hstamped, -⟩ | ⟨-, owner, howner, hstate, -⟩
    · exact absurd hheld.provisional hstamped
    · rw [hheld.created_by, hactive'.registry] at howner
      cases howner
      exact absurd rfl hstate

/-- The first write of a key. -/
theorem install (h : Simulates since node log) (htxn : node.txns id = some txn) (hopen : txn.finished = false)
    (htable : (node.db.catalog key.1).isSome) (hnew : ∀ w ∈ txn.written, w.key ≠ key)
    (hcheck : txn.check_write node.kv key is_insert = .ok prev_id) (is_delete : Bool) (row : Row) :
    Simulates since ⟨applyAll node.kv (txn.install_ops node.db key prev_id is_delete row), drew_version node.db,
        update node.txns id (some (txn.wrote node.db key))⟩
      (log.write id ⟨key, (txn.new_version node.db prev_id is_delete row).value⟩) := by
  obtain ⟨hfree, hprev, hlinked, hsnapshot⟩ := h.check_write_ok hcheck
  obtain ⟨t, hactive⟩ := h.active id txn htxn hopen
  obtain ⟨rfl, hlt, hstart⟩ := h.txns id txn htxn
  have hkey : TxnWrite.key ⟨key.1, key.2, node.db.next_version_id⟩ = key := rfl
  rw [snapshot.State.write_eq hactive.active]
  have hregistry : (applyAll node.kv (txn.install_ops node.db key prev_id is_delete row)).txns txn.txn_id =
      some { writes := (txn.wrote node.db key).written } := update_self ..
  refine h.change (· = key) h.no_ddl rfl le_rfl (Nat.le_succ _) le_rfl ?_ ⟨rfl, hlt, hstart⟩ ?_ ?_ ?_ ?_ ?_ ?_
    (fun _ hc => hc) (not_committed hregistry rfl) h.ordered h.wins h.stamps
  · rintro k rfl head hhead
    have hset : (applyAll node.kv (txn.install_ops node.db k prev_id is_delete row)).heads k =
        some node.db.next_version_id := update_self ..
    cases hset.symm.trans hhead
    exact ⟨h.vid_pos, Nat.lt_succ_self _, htable⟩
  · exact fun id' hne => ⟨update_of_ne hne _ _, update_of_ne hne _ _⟩
  · exact fun k hk => ⟨update_of_ne hk _ _, update_of_ne hk _ _, rfl⟩
  · rintro id' txn' hne htxn' hopen' w hw rfl
    obtain ⟨t', hactive'⟩ := h.active id' txn' htxn' hopen'
    obtain ⟨rec, -, hheld⟩ := hactive'.held w hw
    exact hheld.not_free hfree
  · intro _
    refine ⟨_, update_self .., hactive.start_ts, ?_, hregistry, ?_, ?_⟩
    · intro k hwrote
      rcases snapshot.Wrote.append.mp hwrote with hold | ⟨u, hu, rfl⟩
      · obtain ⟨w, hw, hk⟩ := hactive.wrote k hold
        exact ⟨w, mem_append_left _ hw, hk⟩
      · obtain rfl := mem_singleton.mp hu
        exact ⟨_, mem_append_right _ (mem_singleton_self _), rfl⟩
    · have hfresh : key ∉ txn.written.map TxnWrite.key := by
        intro hmem
        obtain ⟨w, hw, hk⟩ := mem_map.mp hmem
        exact hnew w hw hk
      rw [Transaction.wrote, map_append]
      exact hactive.nodup.append (nodup_singleton _) (by simpa [hkey] using hfresh)
    · intro w hw
      rw [history.latest_concat]
      rcases mem_append.mp hw with hold | hlast
      · obtain ⟨rec, hlatest, hheld⟩ := hactive.held w hold
        have hne : w.key ≠ key := hnew w hold
        refine ⟨rec, by rw [if_neg (Ne.symm hne)]; exact hlatest, ?_⟩
        exact hheld.congr (update_of_ne hne _ _) (update_of_ne hne _ _)
      · obtain rfl := mem_singleton.mp hlast
        have hrow : (applyAll node.kv (txn.install_ops node.db key prev_id is_delete row)).versions key =
            update (node.kv.versions key) node.db.next_version_id
              (some (txn.new_version node.db prev_id is_delete row)) := update_self ..
        refine ⟨txn.new_version node.db prev_id is_delete row, if_pos rfl, update_self .., ?_, rfl, rfl, rfl,
          rfl, hprev, ?_, hsnapshot⟩
        · rw [hkey, hrow]
          exact update_self ..
        · rw [hkey, hrow]
          refine hlinked.congr fun n hn => ?_
          exact update_of_ne (hn.trans_lt hprev).ne _ _
  · rintro k rfl
    exact .inr ⟨hopen, _, mem_append_right _ (mem_singleton_self _), rfl⟩
  · intro txn' htxn' _ w hw _
    cases htxn.symm.trans htxn'
    exact ⟨hopen, mem_append_left _ hw⟩

end FirstWrite

section Finish

variable (h : Simulates since node log) (htxn : node.txns id = some txn) (hopen : txn.finished = false)

include h htxn hopen

/-- A transaction that is rolled back leaves its keys as they were committed. -/
theorem roll_back : ∃ ops, txn.roll_back node.db node.kv = (ops, .ok (node.db.mark_txn_finished txn)) ∧
    Simulates since ⟨applyAll node.kv ops, (node.db.mark_txn_finished txn).1,
      update node.txns id (some (node.db.mark_txn_finished txn).2)⟩ (log.drop id) := by
  obtain ⟨t, hactive⟩ := h.active id txn htxn hopen
  obtain ⟨rfl, hlt, hstart⟩ := h.txns id txn htxn
  obtain ⟨ops, heads, hrun, hkv, hdone, hother⟩ := @Transaction.roll_back_run node.kv node.db txn hactive.nodup
    fun w hw => by
      obtain ⟨rec, -, hheld⟩ := hactive.held w hw
      exact ⟨hheld.head_eq, rec, hheld.version⟩
  refine ⟨ops, hrun, ?_⟩
  rw [hkv]
  refine h.change (fun k => ∃ w ∈ txn.written, w.key = k) h.no_ddl rfl le_rfl le_rfl le_rfl ?_ ⟨rfl, hlt, hstart⟩ ?_
    ?_ (h.others_key_ne htxn hopen) (by rintro ⟨⟩) ?_ ?_ (fun _ hc => hc) (not_committed (update_self ..) rfl)
    h.ordered h.wins h.stamps
  · rintro k ⟨w, hw, rfl⟩ head hhead
    obtain ⟨rec, -, hheld⟩ := hactive.held w hw
    replace hhead := (hdone w hw).symm.trans hhead
    rw [Database.restored_head, hheld.version] at hhead
    dsimp only at hhead
    split at hhead
    · cases hhead
    · next hpos =>
      cases hhead
      obtain ⟨-, hbound, htable⟩ := h.heads _ _ hheld.head_eq
      exact ⟨Nat.pos_of_ne_zero hpos, hheld.prev_lt.trans hbound, htable⟩
  · exact fun id' hne => ⟨update_of_ne hne _ _, update_of_ne hne _ _⟩
  · exact fun k hk => ⟨hother k fun w hw hkey => hk ⟨w, hw, hkey⟩, rfl, rfl⟩
  · rintro k ⟨w, hw, rfl⟩
    obtain ⟨rec, -, hheld⟩ := hactive.held w hw
    exact .inl (hheld.restored rfl rfl (hdone w hw) rfl)
  · intro txn' htxn' _ w hw hnot
    cases htxn.symm.trans htxn'
    exact absurd ⟨w, hw, rfl⟩ hnot

/-- The re-check of a commit finds no conflict: a write keeps its key from being committed by others. -/
theorem check_commit_none : txn.check_commit node.kv txn.written = .ok none := by
  obtain ⟨t, hactive⟩ := h.active id txn htxn hopen
  exact Held.check_commit fun w hw => (hactive.held w hw).imp fun rec hrec => hrec.2

/-- A commit puts the writes of the transaction in front of what was committed. -/
theorem commit_writes : ∃ ops, txn.commit_writes node.db node.kv =
      (ops, .ok (((drew_ts node.db).mark_txn_finished txn).1,
        ((drew_ts node.db).mark_txn_finished txn).2, .ok ())) ∧
    (applyAll node.kv ops).txns id = some { state := .kCommitted, commit_ts := node.db.next_ts } ∧
    Simulates since ⟨applyAll node.kv ops, ((drew_ts node.db).mark_txn_finished txn).1,
      update node.txns id (some ((drew_ts node.db).mark_txn_finished txn).2)⟩
      (log.commit id node.db.next_ts) := by
  obtain ⟨t, hactive⟩ := h.active id txn htxn hopen
  obtain ⟨rfl, hlt, hstart⟩ := h.txns id txn htxn
  obtain ⟨versions, hrun, hkv, hdone, hother⟩ := @Transaction.commit_writes_run node.kv node.db txn hactive.nodup
    fun w hw => by
      obtain ⟨rec, -, hheld⟩ := hactive.held w hw
      exact ⟨rec, hheld.version, hheld.created_by, hheld.provisional⟩
  refine ⟨_, hrun, by rw [hkv]; exact update_self .., ?_⟩
  rw [hkv, snapshot.State.commit_eq hactive.active]
  refine h.change (fun k => ∃ w ∈ txn.written, w.key = k) h.no_ddl rfl (Nat.le_succ _) le_rfl le_rfl
    (fun k _ => h.heads k) ⟨rfl, hlt, Nat.lt_succ_of_lt hstart⟩ ?_ ?_ (h.others_key_ne htxn hopen) (by rintro ⟨⟩) ?_ ?_
    (fun _ hc => mem_append_left _ hc) ?_ ?_ ?_ ?_
  · exact fun id' hne => ⟨update_of_ne hne _ _, update_of_ne hne _ _⟩
  · intro k hk
    refine ⟨rfl, hother k fun w hw hkey => hk ⟨w, hw, hkey⟩, ?_⟩
    have hnone : latest t.writes k = none := by
      rw [← Option.not_isSome_iff_eq_none, ← snapshot.wrote_iff_latest]
      exact fun hwrote => hk (hactive.wrote k hwrote)
    rw [snapshot.keyCommits_concat, hnone]
    rfl
  · rintro k ⟨w, hw, rfl⟩
    obtain ⟨rec, hlatest, hheld⟩ := hactive.held w hw
    rw [snapshot.keyCommits_concat, hlatest]
    refine .inl (.inr ⟨w.version_id, hheld.head_eq, cons_ne_nil _ _, ?_⟩)
    show Linked (versions w.key) _ _ _
    rw [hdone w hw rec hheld.version]
    exact hheld.stamped (h.heads _ _ hheld.head_eq).1 h.ts_pos.ne'
  · intro txn' htxn' _ w hw hnot
    cases htxn.symm.trans htxn'
    exact absurd ⟨w, hw, rfl⟩ hnot
  · intro txn_meta hmeta _
    have hmeta' : txn_meta = { state := .kCommitted, commit_ts := node.db.next_ts } :=
      Option.some.inj (hmeta.symm.trans (update_self ..))
    refine ⟨_, mem_append_right _ (mem_singleton_self _), rfl, hactive.start_ts, by rw [hmeta'], ?_⟩
    intro w hw
    obtain ⟨rec, hlatest, -⟩ := hactive.held w hw
    exact snapshot.wrote_iff_latest.mpr (by rw [hlatest]; rfl)
  · exact h.ordered.concat h.stamps
  · refine h.wins.concat fun c hc k hwc hwt => ?_
    obtain ⟨w, hw, rfl⟩ := hactive.wrote k hwt
    obtain ⟨rec, -, hheld⟩ := hactive.held w hw
    show c.commit_ts ≤ t.start_ts
    rw [hactive.start_ts]
    exact h.ordered.commit_ts_le hheld.snapshot hc hwc
  · intro c hc
    rcases mem_append.mp hc with hmem | hmem
    · exact (h.stamps c hmem).trans (Nat.lt_succ_self _)
    · obtain rfl := mem_singleton.mp hmem
      exact Nat.lt_succ_self _

end Finish

end Simulates

end reldb
