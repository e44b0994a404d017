import LsmKv.Reldb.Rewrites

namespace reldb

open lsmkv (Status)
open effects (applyAll)
open List Function Option Database Transaction

/-- A write of a transaction under way: its version is the head of the row, not yet
    stamped, and above nothing that was committed after the transaction began. -/
structure Holding (kv : Kv) (id start_ts : Nat) (w : TxnWrite) (rec : VersionRecord) : Prop where
  head : kv.heads w.key = some w.version_id
  version : kv.versions w.key w.version_id = some rec
  provisional : rec.start_ts = 0
  created_by : rec.created_by = id
  prev : ∀ prev, kv.versions w.key rec.prev_id = some prev → prev.start_ts ≠ 0 ∧ prev.start_ts ≤ start_ts

theorem Holding.congr {kv kv' : Kv} {id start_ts : Nat} {w : TxnWrite} {rec : VersionRecord}
    (h : Holding kv id start_ts w rec) (hheads : kv'.heads w.key = kv.heads w.key)
    (hversions : kv'.versions w.key = kv.versions w.key) : Holding kv' id start_ts w rec :=
  ⟨hheads.trans h.head, by rw [hversions]; exact h.version, h.provisional, h.created_by, by rw [hversions]; exact h.prev⟩

/-- What holds between two calls in every run without a crash, whatever tables were dropped:
    the rows that transactions under way have written are theirs, and no other row
    has a version on top that is not stamped. -/
structure Guarded (node : Node) : Prop where
  no_ddl : node.db.ddl_in_progress = false
  ts_pos : 0 < node.db.next_ts
  ids : ∀ id txn, node.txns id = some txn → txn.txn_id = id ∧ id < node.db.next_txn_id
  heads_pos : ∀ k head, node.kv.heads k = some head → 0 < head
  held : ∀ id txn, node.txns id = some txn → txn.finished = false →
    node.kv.txns id = some { writes := txn.written } ∧ (txn.written.map TxnWrite.key).Nodup ∧
      ∀ w ∈ txn.written, ∃ rec, Holding node.kv id txn.start_ts w rec
  stamped : ∀ k head rec, node.kv.heads k = some head → node.kv.versions k head = some rec → rec.start_ts = 0 →
    ∃ id txn, node.txns id = some txn ∧ txn.finished = false ∧ ∃ w ∈ txn.written, w.key = k

namespace Guarded

variable {node : Node} {id : Nat} {txn : Transaction}

theorem update_txn (h : Guarded node) (htxn : node.txns id = some txn) :
    update node.txns txn.txn_id (some txn) = node.txns :=
  Node.update_txn (fun id txn htxn => (h.ids id txn htxn).1) htxn

/-- Two transactions under way have written different rows. -/
theorem keys_ne (h : Guarded node) {id' : Nat} {txn' : Transaction} (hne : id' ≠ id) (htxn : node.txns id = some txn)
    (hopen : txn.finished = false) (htxn' : node.txns id' = some txn') (hopen' : txn'.finished = false)
    {w w' : TxnWrite} (hw : w ∈ txn.written) (hw' : w' ∈ txn'.written) : w.key ≠ w'.key := by
  intro hkey
  obtain ⟨rec, hrec⟩ := (h.held id txn htxn hopen).2.2 w hw
  obtain ⟨rec', hrec'⟩ := (h.held id' txn' htxn' hopen').2.2 w' hw'
  have hhead := hrec'.head
  have hversion := hrec'.version
  rw [← hkey, hrec.head] at hhead
  rw [← hkey, ← Option.some.inj hhead, hrec.version] at hversion
  exact hne (hrec'.created_by.symm.trans ((congrArg VersionRecord.created_by (Option.some.inj hversion)).symm.trans
    hrec.created_by))

/-- A step of one transaction. What it touches is its own afterwards or stamped, and
    everything else stays. -/
theorem change (h : Guarded node) {kv' : Kv} {db' : Database} {txn' : Transaction} (touched : RowKey → Prop)
    (hddl : db'.ddl_in_progress = false) (hts : node.db.next_ts ≤ db'.next_ts)
    (hnext : node.db.next_txn_id ≤ db'.next_txn_id) (htxn' : txn'.txn_id = id ∧ id < db'.next_txn_id)
    (hpos : ∀ k, touched k → ∀ head, kv'.heads k = some head → 0 < head)
    (hothers : ∀ id', id' ≠ id → kv'.txns id' = node.kv.txns id')
    (huntouched : ∀ k, ¬ touched k → kv'.heads k = node.kv.heads k ∧ kv'.versions k = node.kv.versions k)
    (htouched : ∀ id' txn', id' ≠ id → node.txns id' = some txn' → txn'.finished = false →
      ∀ w ∈ txn'.written, ¬ touched w.key)
    (hheld : txn'.finished = false → kv'.txns id = some { writes := txn'.written } ∧
      (txn'.written.map TxnWrite.key).Nodup ∧ ∀ w ∈ txn'.written, ∃ rec, Holding kv' id txn'.start_ts w rec)
    (hstamped : ∀ k, touched k → ∀ head rec, kv'.heads k = some head → kv'.versions k head = some rec →
      rec.start_ts = 0 → txn'.finished = false ∧ ∃ w ∈ txn'.written, w.key = k)
    (hkeep : ∀ txn, node.txns id = some txn → txn.finished = false → ∀ w ∈ txn.written, ¬ touched w.key →
      txn'.finished = false ∧ w ∈ txn'.written) :
    Guarded ⟨kv', db', update node.txns id (some txn')⟩ where
  no_ddl := hddl
  ts_pos := h.ts_pos.trans_le hts
  ids := by
    intro id' txn'' hsome
    rcases update_some_cases hsome with ⟨rfl, rfl⟩ | ⟨-, hsome⟩
    · exact htxn'
    · exact ⟨(h.ids id' txn'' hsome).1, (h.ids id' txn'' hsome).2.trans_le hnext⟩
  heads_pos := by
    intro k head hhead
    by_cases hk : touched k
    · exact hpos k hk head hhead
    · exact h.heads_pos k head ((huntouched k hk).1.symm.trans hhead)
  held := by
    intro id' txn'' hsome hopen
    rcases update_some_cases hsome with ⟨rfl, rfl⟩ | ⟨hne, hsome⟩
    · exact hheld hopen
    · obtain ⟨hregistry, hnodup, hws⟩ := h.held id' txn'' hsome hopen
      refine ⟨(hothers id' hne).trans hregistry, hnodup, fun w hw => ?_⟩
      obtain ⟨rec, hrec⟩ := hws w hw
      obtain ⟨hheads, hversions⟩ := huntouched w.key (htouched id' txn'' hne hsome hopen w hw)
      exact ⟨rec, hrec.congr hheads hversions⟩
  stamped := by
    intro k head rec hhead hrec hzero
    by_cases hk : touched k
    · obtain ⟨hopen, hw⟩ := hstamped k hk head rec hhead hrec hzero
      exact ⟨id, txn', update_self .., hopen, hw⟩
    · obtain ⟨hheads, hversions⟩ := huntouched k hk
      obtain ⟨id', txn'', hsome, hopen, w, hw, rfl⟩ :=
        h.stamped k head rec (hheads.symm.trans hhead) (by rw [← hversions]; exact hrec) hzero
      by_cases heq : id' = id
      · subst heq
        obtain ⟨hopen', hw'⟩ := hkeep txn'' hsome hopen w hw hk
        exact ⟨id', txn', update_self .., hopen', w, hw', rfl⟩
      · exact ⟨id', txn'', (update_of_ne heq _ _).trans hsome, hopen, w, hw, rfl⟩

theorem others_key_ne (h : Guarded node) (htxn : node.txns id = some txn) (hopen : txn.finished = false) :
    ∀ id' txn', id' ≠ id → node.txns id' = some txn' → txn'.finished = false →
      ∀ w ∈ txn'.written, ¬ ∃ w' ∈ txn.written, w'.key = w.key := by
  rintro id' txn' hne htxn' hopen' w hw ⟨w', hw', hkey⟩
  exact h.keys_ne hne htxn hopen htxn' hopen' hw' hw hkey

theorem begin_txn (h : Guarded node) : Guarded node.began := by
  refine h.change (fun _ => False) h.no_ddl le_rfl (Nat.le_succ _) ⟨rfl, Nat.lt_succ_self _⟩ (fun _ hk => hk.elim)
    (fun id' hne => update_of_ne hne _ _) (fun _ _ => ⟨rfl, rfl⟩) (fun _ _ _ _ _ _ _ => id)
    (fun _ => ⟨update_self .., nodup_nil, by rintro w ⟨⟩⟩) (fun _ hk => hk.elim) ?_
  intro txn htxn
  exact absurd (h.ids _ txn htxn).2 (lt_irrefl _)

/-- Another write of a row that the transaction has written. -/
theorem rewrite (h : Guarded node) (hkeyed : node.kv.Keyed)
    (hfalls : ∀ k v rec, node.kv.versions k v = some rec → rec.prev_id < v) (htxn : node.txns id = some txn)
    (hopen : txn.finished = false) {w : TxnWrite} (hw : w ∈ txn.written) {rec : VersionRecord}
    (hrec : node.kv.versions w.key w.version_id = some rec) (is_delete : Bool) (row : Row) :
    Guarded (node.rewrote w rec is_delete row) := by
  obtain ⟨hregistry, hnodup, hws⟩ := h.held id txn htxn hopen
  have hself : update node.txns id (some txn) = node.txns := by rw [← htxn, update_eq_self]
  have hrow : (node.kv.apply (.put_version_value w.key (Transaction.rewritten rec is_delete row))).versions w.key =
      update (node.kv.versions w.key) w.version_id (some (Transaction.rewritten rec is_delete row)) := by
    rw [← hkeyed _ _ _ hrec]
    exact update_self ..
  rw [Node.rewrote, ← hself]
  refine h.change (· = w.key) h.no_ddl le_rfl le_rfl (h.ids id txn htxn) (fun k _ => h.heads_pos k) (fun _ _ => rfl)
    (fun k hk => ⟨rfl, update_of_ne hk _ _⟩) ?_ (fun _ => ⟨hregistry, hnodup, fun w' hw' => ?_⟩) ?_ ?_
  · intro id' txn' hne htxn' hopen' w' hw' hkey
    exact h.keys_ne hne htxn hopen htxn' hopen' hw hw' hkey.symm
  · obtain ⟨rec', hold⟩ := hws w' hw'
    by_cases hkey : w.key = w'.key
    · obtain rfl : w = w' := inj_on_of_nodup_map hnodup hw hw' hkey
      cases hrec.symm.trans hold.version
      refine ⟨Transaction.rewritten rec is_delete row, hold.head, ?_, hold.provisional, hold.created_by, fun prev hprev => ?_⟩
      · rw [hrow]
        exact update_self ..
      · rw [hrow] at hprev
        have hne : rec.prev_id ≠ w.version_id := (hfalls _ _ _ hrec).ne
        exact hold.prev prev ((update_of_ne hne _ _).symm.trans hprev)
    · exact ⟨rec', hold.congr rfl (update_of_ne (Ne.symm hkey) _ _)⟩
  · rintro k rfl - - - - -
    exact ⟨hopen, w, hw, rfl⟩
  · intro txn' htxn' _ w' hw' _
    cases htxn.symm.trans htxn'
    exact ⟨hopen, hw'⟩

section FirstWrite

variable {key : RowKey} {is_insert : Bool} {prev_id : Nat}

/-- The checks of a first write pass only on a row that nobody holds, and find its head. -/
theorem check_write_ok (h : Guarded node) (hcheck : txn.check_write node.kv key is_insert = .ok prev_id) :
    (∀ id' txn', node.txns id' = some txn' → txn'.finished = false → ∀ w ∈ txn'.written, w.key ≠ key) ∧
      prev_id = (node.kv.heads key).getD 0 ∧
      ∀ prev, node.kv.heads key = some prev_id → node.kv.versions key prev_id = some prev →
        prev.start_ts ≠ 0 ∧ prev.start_ts ≤ txn.start_ts := by
  have hheld : ∀ {id' txn' w}, node.txns id' = some txn' → txn'.finished = false → w ∈ txn'.written → w.key = key →
      ∃ rec, Holding node.kv id' txn'.start_ts w rec ∧ node.kv.heads key = some w.version_id ∧
        node.kv.versions key w.version_id = some rec := by
    rintro id' txn' w htxn' hopen' hw rfl
    obtain ⟨rec, hold⟩ := (h.held id' txn' htxn' hopen').2.2 w hw
    exact ⟨rec, hold, hold.head, hold.version⟩
  rcases check_write_cases hcheck with ⟨hhead, rfl⟩ | ⟨head, rec, hhead, hrec, hprev, hnewest⟩
  · refine ⟨fun id' txn' htxn' hopen' w hw hkey => ?_, by rw [hhead]; rfl, fun prev hsome => ?_⟩
    · obtain ⟨rec, -, hsome, -⟩ := hheld htxn' hopen' hw hkey
      cases hhead.symm.trans hsome
    · cases hhead.symm.trans hsome
  rcases prev_of_head_ok hprev with ⟨hstamped, rfl⟩ | ⟨hzero, owner, howner, hstate, -⟩
  · refine ⟨fun id' txn' htxn' hopen' w hw hkey => ?_, by rw [hhead]; rfl, fun prev _ hprev => ?_⟩
    · obtain ⟨rec', hold, hhead', hrec'⟩ := hheld htxn' hopen' hw hkey
      cases hhead.symm.trans hhead'
      cases hrec.symm.trans hrec'
      exact hstamped hold.provisional
    · cases hrec.symm.trans hprev
      exact ⟨hstamped, check_newest_committed_stamped (h.heads_pos key _ hhead).ne' hrec hstamped hnewest⟩
  · -- an unstamped head is held by a transaction under way, which is a conflict
    obtain ⟨id', txn', htxn', hopen', w, hw, hkey⟩ := h.stamped key head rec hhead hrec hzero
    obtain ⟨rec', hold, hhead', hrec'⟩ := hheld htxn' hopen' hw hkey
    cases hhead.symm.trans hhead'
    cases hrec.symm.trans hrec'
    rw [hold.created_by, (h.held id' txn' htxn' hopen').1] at howner
    cases howner
    exact absurd rfl hstate

/-- The first write of a row. -/
theorem install (h : Guarded node) (hpos : 0 < node.db.next_version_id)
    (hversions : ∀ k v rec, node.kv.versions k v = some rec → rec.prev_id < v ∧ v < node.db.next_version_id)
    (hheads : ∀ k head, node.kv.heads k = some head → head < node.db.next_version_id)
    (htxn : node.txns id = some txn) (hopen : txn.finished = false) (hnew : ∀ w ∈ txn.written, w.key ≠ key)
    (hcheck : txn.check_write node.kv key is_insert = .ok prev_id) (is_delete : Bool) (row : Row) :
    Guarded (node.installed txn key prev_id is_delete row) := by
  obtain ⟨hfree, hprev, hsnapshot⟩ := h.check_write_ok hcheck
  obtain ⟨rfl, hlt⟩ := h.ids id txn htxn
  obtain ⟨-, hnodup, hws⟩ := h.held txn.txn_id txn htxn hopen
  have hrow : (applyAll node.kv (txn.install_ops node.db key prev_id is_delete row)).versions key =
      update (node.kv.versions key) node.db.next_version_id
        (some (txn.new_version node.db prev_id is_delete row)) := update_self ..
  refine h.change (· = key) h.no_ddl le_rfl le_rfl ⟨rfl, hlt⟩ ?_ (fun id' hne => update_of_ne hne _ _)
    (fun k hk => ⟨update_of_ne hk _ _, update_of_ne hk _ _⟩)
    (fun id' txn' _ htxn' hopen' w hw => hfree id' txn' htxn' hopen' w hw)
    (fun _ => ⟨update_self .., ?_, fun w hw => ?_⟩) ?_ ?_
  · rintro k rfl head hhead
    cases (update_self ..).symm.trans hhead
    exact hpos
  · have hfresh : key ∉ txn.written.map TxnWrite.key := by
      intro hmem
      obtain ⟨w, hw, hk⟩ := List.mem_map.mp hmem
      exact hnew w hw hk
    rw [Transaction.wrote, map_append]
    exact hnodup.append (nodup_singleton _) (by simpa [TxnWrite.key] using hfresh)
  · rcases mem_append.mp hw with hold | hlast
    · obtain ⟨rec, hheld⟩ := hws w hold
      exact ⟨rec, hheld.congr (update_of_ne (hnew w hold) _ _) (update_of_ne (hnew w hold) _ _)⟩
    · obtain rfl := mem_singleton.mp hlast
      refine ⟨txn.new_version node.db prev_id is_delete row, update_self .., ?_, rfl, rfl, fun prev hsome => ?_⟩
      · show (applyAll node.kv _).versions key _ = _
        rw [hrow]
        exact update_self ..
      · change (applyAll node.kv _).versions key prev_id = _ at hsome
        have hold : node.kv.versions key prev_id = some prev := by
          rw [hrow, update_of_ne] at hsome
          · exact hsome
          · rw [hprev]
            cases hhead : node.kv.heads key with
            | none => exact hpos.ne
            | some head => exact (hheads key head hhead).ne
        cases hhead : node.kv.heads key with
        | none =>
          rw [hhead] at hprev
          subst hprev
          exact absurd (hversions _ _ _ hold).1 (Nat.not_lt_zero _)
        | some head =>
          rw [hhead] at hprev
          exact hsnapshot prev (hhead.trans (congrArg some hprev.symm)) hold
  · rintro k rfl - - - - -
    exact ⟨hopen, _, mem_append_right _ (mem_singleton_self _), rfl⟩
  · intro txn' htxn' _ w hw _
    cases htxn.symm.trans htxn'
    exact ⟨hopen, mem_append_left _ hw⟩

end FirstWrite

section Finish

variable (h : Guarded node) (htxn : node.txns id = some txn) (hopen : txn.finished = false)

include h htxn hopen

/-- The heads go back to where they were. -/
theorem roll_back : ∃ ops heads, txn.roll_back node.db node.kv = (ops, .ok (node.db.mark_txn_finished txn)) ∧
    applyAll node.kv ops = { node.kv with
      heads := heads, txns := update node.kv.txns txn.txn_id (some { state := .kAborted }) } ∧
    (∀ w ∈ txn.written, heads w.key = restored_head node.kv w) ∧
    (∀ k, (∀ w ∈ txn.written, w.key ≠ k) → heads k = node.kv.heads k) ∧
    Guarded ⟨applyAll node.kv ops, (node.db.mark_txn_finished txn).1,
      update node.txns txn.txn_id (some (node.db.mark_txn_finished txn).2)⟩ := by
  obtain ⟨-, hnodup, hws⟩ := h.held id txn htxn hopen
  obtain ⟨rfl, hlt⟩ := h.ids id txn htxn
  obtain ⟨ops, heads, hrun, hkv, hdone, hother⟩ := @Transaction.roll_back_run node.kv node.db txn hnodup
    fun w hw => by
      obtain ⟨rec, hheld⟩ := hws w hw
      exact ⟨hheld.head, rec, hheld.version⟩
  refine ⟨ops, heads, hrun, hkv, hdone, hother, ?_⟩
  have hrestored : ∀ w ∈ txn.written, ∀ head, heads w.key = some head → ∃ rec,
      Holding node.kv txn.txn_id txn.start_ts w rec ∧ rec.prev_id ≠ 0 ∧ head = rec.prev_id := by
    intro w hw head hhead
    obtain ⟨rec, hheld⟩ := hws w hw
    replace hhead := (hdone w hw).symm.trans hhead
    rw [restored_head, hheld.version] at hhead
    dsimp only at hhead
    split at hhead
    · cases hhead
    · next hpos =>
      cases hhead
      exact ⟨rec, hheld, hpos, rfl⟩
  rw [hkv]
  refine h.change (fun k => ∃ w ∈ txn.written, w.key = k) h.no_ddl le_rfl le_rfl ⟨rfl, hlt⟩ ?_
    (fun id' hne => update_of_ne hne _ _)
    (fun k hk => ⟨hother k fun w hw hkey => hk ⟨w, hw, hkey⟩, rfl⟩) (h.others_key_ne htxn hopen) (by rintro ⟨⟩) ?_ ?_
  · rintro k ⟨w, hw, rfl⟩ head hhead
    obtain ⟨rec, -, hpos, rfl⟩ := hrestored w hw head hhead
    exact Nat.pos_of_ne_zero hpos
  · rintro k ⟨w, hw, rfl⟩ head rec hhead hrec hzero
    obtain ⟨rec', hheld, -, rfl⟩ := hrestored w hw head hhead
    exact absurd hzero (hheld.prev rec hrec).1
  · intro txn' htxn' _ w hw hnot
    cases htxn.symm.trans htxn'
    exact absurd ⟨w, hw, rfl⟩ hnot

/-- The re-check of a commit finds no conflict: a write keeps its key from being committed by others. -/
theorem check_commit_none : txn.check_commit node.kv txn.written = .ok none := by
  refine Transaction.check_commit_none fun w hw => ?_
  obtain ⟨rec, hheld⟩ := (h.held id txn htxn hopen).2.2 w hw
  exact ⟨hheld.head, rec, hheld.version, fun _ prev hprev => (hheld.prev prev hprev).2⟩

/-- A commit stamps the versions of the transaction. -/
theorem commit (hkeyed : node.kv.Keyed) : ∃ ops versions, txn.commit node.db node.kv =
      (ops, .ok (((drew_ts node.db).mark_txn_finished txn).1,
        ((drew_ts node.db).mark_txn_finished txn).2, .ok ())) ∧
    applyAll node.kv ops = { node.kv with
      next_ts := some (node.db.next_ts + 1), next_txn := some node.db.next_txn_id
      next_vid := some node.db.next_version_id
      txns := update node.kv.txns txn.txn_id (some { state := .kCommitted, commit_ts := node.db.next_ts })
      versions := versions } ∧
    (∀ w ∈ txn.written, ∀ rec, node.kv.versions w.key w.version_id = some rec →
      versions w.key = stamped_row (node.kv.versions w.key) node.db.next_ts rec) ∧
    (∀ k, (∀ w ∈ txn.written, w.key ≠ k) → versions k = node.kv.versions k) ∧
    Guarded ⟨applyAll node.kv ops, ((drew_ts node.db).mark_txn_finished txn).1,
      update node.txns txn.txn_id (some ((drew_ts node.db).mark_txn_finished txn).2)⟩ := by
  obtain ⟨-, hnodup, hws⟩ := h.held id txn htxn hopen
  have hcheck := h.check_commit_none htxn hopen
  obtain ⟨rfl, hlt⟩ := h.ids id txn htxn
  obtain ⟨versions, hrun, hkv, hdone, hother⟩ := @Transaction.commit_writes_run node.kv node.db txn hnodup
    fun w hw => by
      obtain ⟨rec, hheld⟩ := hws w hw
      exact ⟨rec, hheld.version, hheld.created_by, hheld.provisional⟩
  refine ⟨_, versions, ?_, hkv, hdone, hother, ?_⟩
  · rw [Transaction.commit, if_neg (by simp [hopen]), effects.Prog.query_bind, hcheck]
    exact hrun
  · rw [hkv]
    refine h.change (fun k => ∃ w ∈ txn.written, w.key = k) h.no_ddl (Nat.le_succ _) le_rfl ⟨rfl, hlt⟩
      (fun k _ => h.heads_pos k) (fun id' hne => update_of_ne hne _ _)
      (fun k hk => ⟨rfl, hother k fun w hw hkey => hk ⟨w, hw, hkey⟩⟩) (h.others_key_ne htxn hopen) (by rintro ⟨⟩) ?_ ?_
    · rintro k ⟨w, hw, rfl⟩ head rec' hhead hrec' hzero
      obtain ⟨rec, hheld⟩ := hws w hw
      cases hheld.head.symm.trans hhead
      change versions w.key w.version_id = _ at hrec'
      rw [hdone w hw rec hheld.version, stamped_row, hkeyed _ _ _ hheld.version, update_self] at hrec'
      cases hrec'
      exact absurd hzero h.ts_pos.ne'
    · intro txn' htxn' _ w hw hnot
      cases htxn.symm.trans htxn'
      exact absurd ⟨w, hw, rfl⟩ hnot

end Finish

section Step

variable {after : Node} {call : Call} {status : Except Status Unit}

/-- An abort puts the heads back and marks the transaction. -/
theorem step_abort (h : Guarded node) (htxn : node.txns id = some txn) (hopen : txn.finished = false) :
    ∃ heads, node.step (.abort id) = some (node.aborted txn heads, .ok ()) ∧
      (∀ w ∈ txn.written, heads w.key = restored_head node.kv w) ∧
      (∀ k, (∀ w ∈ txn.written, w.key ≠ k) → heads k = node.kv.heads k) ∧ Guarded (node.aborted txn heads) := by
  obtain ⟨ops, heads, hroll, hkv, hdone, hother, hguarded⟩ := h.roll_back htxn hopen
  have hrun : txn.abort node.db node.kv = (ops, .ok (node.db.mark_txn_finished txn)) := by
    rw [Transaction.abort, if_neg (by simp [hopen])]
    exact hroll
  rw [hkv] at hguarded
  refine ⟨heads, ?_, hdone, hother, hguarded⟩
  rw [Node.step, Node.prog, htxn, map_some, map_some, Node.then_ok_run hrun]
  dsimp only
  rw [hkv]
  rfl

/-- A commit succeeds. -/
theorem step_commit (h : Guarded node) (hkeyed : node.kv.Keyed) (htxn : node.txns id = some txn)
    (hopen : txn.finished = false) :
    ∃ versions, node.step (.commit id) = some (node.committed txn versions, .ok ()) ∧
      (∀ w ∈ txn.written, ∀ rec, node.kv.versions w.key w.version_id = some rec →
        versions w.key = stamped_row (node.kv.versions w.key) node.db.next_ts rec) ∧
      (∀ k, (∀ w ∈ txn.written, w.key ≠ k) → versions k = node.kv.versions k) ∧
      Guarded (node.committed txn versions) := by
  obtain ⟨ops, versions, hrun, hkv, hdone, hother, hguarded⟩ := h.commit htxn hopen hkeyed
  rw [hkv] at hguarded
  refine ⟨versions, ?_, hdone, hother, hguarded⟩
  rw [Node.step, Node.prog, htxn, map_some, map_some, hrun]
  dsimp only
  rw [hkv]
  rfl

/-- What a call comes to. -/
inductive Move (node : Node) : Call → Node → Prop
  | still (call : Call) : Move node call node
  | begin_txn : Move node .begin_txn node.began
  | rewrite {call : Call} {id : Nat} {txn : Transaction} {w : TxnWrite} {rec : VersionRecord} (hcall : call.txn = some id)
      (htxn : node.txns id = some txn) (hopen : txn.finished = false) (hw : w ∈ txn.written)
      (hrec : node.kv.versions w.key w.version_id = some rec) (is_delete : Bool) (row : Row) :
      Move node call (node.rewrote w rec is_delete row)
  | install {call : Call} {id : Nat} {txn : Transaction} {key : RowKey} {is_insert : Bool} {prev_id : Nat}
      (hcall : call.txn = some id) (htxn : node.txns id = some txn) (hopen : txn.finished = false)
      (hnew : ∀ w ∈ txn.written, w.key ≠ key) (hcheck : txn.check_write node.kv key is_insert = .ok prev_id)
      (is_delete : Bool) (row : Row) : Move node call (node.installed txn key prev_id is_delete row)
  | abort {id : Nat} {txn : Transaction} {heads : RowKey → Option Nat} (htxn : node.txns id = some txn)
      (hopen : txn.finished = false) (hguarded : Guarded (node.aborted txn heads))
      (hdone : ∀ w ∈ txn.written, heads w.key = restored_head node.kv w)
      (hother : ∀ k, (∀ w ∈ txn.written, w.key ≠ k) → heads k = node.kv.heads k) :
      Move node (.abort id) (node.aborted txn heads)
  | commit {id : Nat} {txn : Transaction} {versions : RowKey → Nat → Option VersionRecord}
      (htxn : node.txns id = some txn) (hopen : txn.finished = false) (hguarded : Guarded (node.committed txn versions))
      (hother : ∀ k, (∀ w ∈ txn.written, w.key ≠ k) → versions k = node.kv.versions k) :
      Move node (.commit id) (node.committed txn versions)

theorem move (h : Guarded node) (hkeyed : node.kv.Keyed) (hstep : node.step call = some (after, status)) :
    Move node call after := by
  obtain ⟨run, hcomes, hfinish⟩ := Node.step_comes hstep
  cases hcomes with
  | fails s =>
    cases hfinish
    exact .still call
  | begins =>
    cases hfinish
    exact .begin_txn
  | rewrites hcall hkey htxn hopen hw hrec =>
    rw [Node.finish, h.update_txn htxn] at hfinish
    cases hfinish
    exact .rewrite (Node.row_call_id hcall) htxn hopen hw hrec _ _
  | installs hcall hkey htxn hopen hnew hcheck =>
    cases hfinish
    exact .install (Node.row_call_id hcall) htxn hopen hnew hcheck _ _
  | skips htxn hfinished =>
    rw [Node.finish, h.update_txn htxn] at hfinish
    cases hfinish
    exact .still _
  | aborts htxn hopen =>
    obtain ⟨heads, habort, hdone, hother, hguarded⟩ := h.step_abort htxn hopen
    cases habort.symm.trans hstep
    exact .abort htxn hopen hguarded hdone hother
  | conflicts htxn hopen hcheck => cases (h.check_commit_none htxn hopen).symm.trans hcheck
  | stuck hcall htxn hopen hroll =>
    obtain ⟨ops, heads, hroll', -⟩ := h.roll_back htxn hopen
    cases hroll.symm.trans hroll'
  | commits htxn hopen =>
    obtain ⟨versions, hcommit, -, hother, hguarded⟩ := h.step_commit hkeyed htxn hopen
    cases hcommit.symm.trans hstep
    exact .commit htxn hopen hguarded hother

end Step

end Guarded

end reldb
