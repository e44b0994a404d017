import LsmKv.Reldb.Node
import LsmKv.Reldb.Recovery

namespace reldb

open lsmkv (Status)
open List Function Transaction Database effects

/-- What holds of a process between two calls. -/
structure Running (node : Node) : Prop where
  recoverable : Recoverable node.kv
  synced : Synced node.kv node.db
  no_ddl : node.db.ddl_in_progress = false
  idle : ∀ id txn_meta, node.kv.txns id = some txn_meta → txn_meta.state ≠ .kCommitting
  txns : ∀ id txn, node.txns id = some txn → txn.txn_id = id
  opened : ∀ id txn, node.txns id = some txn → txn.finished = false →
    node.kv.txns id = some { writes := txn.written } ∧ (txn.written.map TxnWrite.key).Nodup ∧
      ∀ w ∈ txn.written, node.kv.heads w.key = some w.version_id
  owned : ∀ k v rec, node.kv.versions k v = some rec → ∀ txn, node.txns rec.created_by = some txn →
    txn.finished = false → ⟨k.1, k.2, v⟩ ∈ txn.written

/-- Transactions that are over stay as they are. -/
def Kept (kv kv' : Kv) : Prop :=
  ∀ id txn_meta, kv.txns id = some txn_meta → txn_meta.Settled → kv'.txns id = some txn_meta

theorem Kept.of_eq {kv kv' : Kv} (h : kv'.txns = kv.txns) : Kept kv kv' :=
  fun id txn_meta hmeta _ => by rw [h]; exact hmeta

theorem Kept.trans {kv kv₁ kv₂ : Kv} (h : Kept kv kv₁) (h' : Kept kv₁ kv₂) : Kept kv kv₂ :=
  fun id txn_meta hmeta hsettled => h' id txn_meta (h id txn_meta hmeta hsettled) hsettled

/-- A record may change while its transaction is not over. -/
theorem Kept.put_txn_meta {kv : Kv} {id : Nat} (hopen : ∀ old, kv.txns id = some old → ¬ old.Settled)
    (txn_meta : TxnMeta) : Kept kv (kv.apply (.put_txn_meta id txn_meta)) := by
  intro id' old hold hsettled
  rw [Kv.txns_put, if_neg]
  · exact hold
  · rintro rfl
    exact hopen old hold hsettled

/-- What a crash after any of the writes of a call finds. -/
def CrashOk (kv : Kv) (_ : KvOp) (kv' : Kv) : Prop := Recoverable kv' ∧ Kept kv kv'

namespace Running

variable {node : Node} {id : Nat} {txn : Transaction}

variable {rec : VersionRecord} {key : RowKey} {is_insert : Bool} {prev_id : Nat}

section

variable (h : Running node)

include h

/-- The versions of a transaction under way are provisional. -/
theorem owned_open (htxn : node.txns id = some txn) (hopen : txn.finished = false) {k : RowKey} {v : Nat}
    (hrec : node.kv.versions k v = some rec) (hcreated : rec.created_by = id) :
    rec.start_ts = 0 ∧ rec.end_ts = 0 := by
  obtain ⟨owner, howner, hok⟩ := h.recoverable.owner k v rec hrec
  rw [hcreated, (h.opened id txn htxn hopen).1] at howner
  cases howner
  exact hok

/-- A provisional head whose owner is not being committed stands on a live version. -/
theorem head_prev {k : RowKey} {head : Nat} (hhead : node.kv.heads k = some head)
    (hrec : node.kv.versions k head = some rec) (hzero : rec.start_ts = 0) :
    PrevEnds node.kv k rec 0 := by
  obtain ⟨rec', hrec', -, hbelow⟩ := h.recoverable.heads k head hhead
  cases hrec.symm.trans hrec'
  rcases hbelow hzero with hprev | ⟨owner, howner, hcommitting⟩
  · exact hprev
  · exact absurd hcommitting (h.idle _ owner howner)

/-- A call of one transaction that leaves the rows of the others alone. -/
theorem change {kv' : Kv} {db' : Database} {txn' : Transaction} (hrec : Recoverable kv') (hsynced : Synced kv' db')
    (hddl : db'.ddl_in_progress = false) (hid : txn'.txn_id = id)
    (hothers : ∀ id', id' ≠ id → kv'.txns id' = node.kv.txns id')
    (hidle : ∀ txn_meta, kv'.txns id = some txn_meta → txn_meta.state ≠ .kCommitting)
    (hopened : txn'.finished = false → kv'.txns id = some { writes := txn'.written } ∧
      (txn'.written.map TxnWrite.key).Nodup ∧ ∀ w ∈ txn'.written, kv'.heads w.key = some w.version_id)
    (hheads : ∀ id' txn, id' ≠ id → node.txns id' = some txn → txn.finished = false →
      ∀ w ∈ txn.written, kv'.heads w.key = node.kv.heads w.key) (howned : ∀ k v rec, kv'.versions k v = some rec →
      rec.created_by = id ∧ (txn'.finished = false → ⟨k.1, k.2, v⟩ ∈ txn'.written) ∨
        rec.created_by ≠ id ∧ ∃ rec₀, node.kv.versions k v = some rec₀ ∧ rec₀.created_by = rec.created_by) :
    Running ⟨kv', db', update node.txns id (some txn')⟩ where
  recoverable := hrec
  synced := hsynced
  no_ddl := hddl
  idle := by
    intro id' txn_meta hmeta
    by_cases heq : id' = id
    · subst heq
      exact hidle txn_meta hmeta
    · rw [hothers id' heq] at hmeta
      exact h.idle id' txn_meta hmeta
  txns := by
    intro id' txn'' hsome
    rcases update_some_cases hsome with ⟨rfl, rfl⟩ | ⟨heq, hsome⟩
    · exact hid
    · exact h.txns id' txn'' hsome
  opened := by
    intro id' txn'' hsome hopen
    rcases update_some_cases hsome with ⟨rfl, rfl⟩ | ⟨heq, hsome⟩
    · exact hopened hopen
    · obtain ⟨hmeta, hnodup, hheld⟩ := h.opened id' txn'' hsome hopen
      refine ⟨(hothers id' heq).trans hmeta, hnodup, fun w hw => ?_⟩
      exact (hheads id' txn'' heq hsome hopen w hw).trans (hheld w hw)
  owned := by
    intro k v rec hversion txn'' hsome hopen
    rcases update_some_cases hsome with ⟨heq, rfl⟩ | ⟨heq, hsome⟩
    · rcases howned k v rec hversion with ⟨-, hmem⟩ | ⟨hne, -⟩
      · exact hmem hopen
      · exact absurd heq hne
    · rcases howned k v rec hversion with ⟨hcreated, -⟩ | ⟨-, rec₀, hversion₀, hcreated⟩
      · exact absurd hcreated heq
      · rw [← hcreated] at hsome
        exact h.owned k v rec₀ hversion₀ txn'' hsome hopen

theorem begin_txn :
    After (CrashOk node.kv) node.kv (node.db.begun.oracle_ops ++ [.put_txn_meta node.db.next_txn_id {}]) ∧
      Running ⟨applyAll node.kv (node.db.begun.oracle_ops ++ [.put_txn_meta node.db.next_txn_id {}]), node.db.begun,
        update node.txns node.db.next_txn_id
          (some { txn_id := node.db.next_txn_id, start_ts := node.db.next_ts - 1 })⟩ := by
  have hrec := h.recoverable
  obtain ⟨hafter, h₁, hsynced⟩ := hrec.persist_synced h.synced node.db.begun h.synced.ts_pos (Nat.le_succ _) le_rfl
  have hfresh : ∀ id txn_meta, node.kv.txns id = some txn_meta → id ≠ node.db.next_txn_id := by
    intro id txn_meta hmeta
    have hlt := (hrec.ids id txn_meta hmeta).2
    rw [h.synced.next_txn, load_some h.synced.txn_pos] at hlt
    exact hlt.ne
  have hunowned : ∀ k v rec, node.kv.versions k v = some rec → rec.created_by ≠ node.db.next_txn_id := by
    intro k v rec hversion
    obtain ⟨owner, howner, -⟩ := hrec.owner k v rec hversion
    exact hfresh _ owner howner
  have h₂ : Recoverable ((applyAll node.kv node.db.begun.oracle_ops).apply (.put_txn_meta node.db.next_txn_id {})) := by
    refine h₁.put_txn_meta h.synced.txn_pos ?_ ?_ ?_ (by rintro ⟨⟩) ?_
    · rw [hsynced.next_txn, load_some hsynced.txn_pos]
      exact Nat.lt_succ_self _
    · intro k v rec hversion hcreated
      exact absurd hcreated (hunowned k v rec hversion)
    · intro k head rec _ hversion hcreated
      exact absurd hcreated (hunowned k head rec hversion)
    · intro w hw
      cases hw
  have hkept : Kept node.kv ((applyAll node.kv node.db.begun.oracle_ops).apply
      (.put_txn_meta node.db.next_txn_id {})) :=
    Kept.put_txn_meta (fun old hold => absurd rfl (hfresh _ old hold)) {}
  refine ⟨?_, ?_⟩
  · exact (hafter.mono fun _ kv' hkv' => ⟨hkv'.1, hkv'.2.settled⟩).append ⟨⟨h₂, hkept⟩, trivial⟩
  · rw [applyAll_append]
    refine h.change h₂ ⟨hsynced.next_ts, hsynced.next_txn, hsynced.next_vid, hsynced.ts_pos, hsynced.txn_pos,
      hsynced.vid_pos⟩ h.no_ddl rfl (fun id' hne => update_of_ne hne _ _) ?_ ?_ (fun _ _ _ _ _ _ _ => rfl) ?_
    · intro txn_meta hmeta
      cases (update_self ..).symm.trans hmeta
      rintro ⟨⟩
    · exact fun _ => ⟨update_self .., nodup_nil, by rintro w ⟨⟩⟩
    · exact fun k v rec hversion => .inr ⟨hunowned k v rec hversion, rec, hversion, rfl⟩

/-- A write that changes the version which the transaction has of the row. -/
theorem rewrite (htxn : node.txns id = some txn) (hopen : txn.finished = false) {w : TxnWrite} (hw : w ∈ txn.written)
    (hversion : node.kv.versions w.key w.version_id = some rec) (rec' : VersionRecord)
    (hid : rec'.version_id = rec.version_id) (hstart : rec'.start_ts = rec.start_ts) (hend : rec'.end_ts = rec.end_ts)
    (hprev : rec'.prev_id = rec.prev_id) (hcreated : rec'.created_by = rec.created_by) :
    After (CrashOk node.kv) node.kv [.put_version_value w.key rec'] ∧
      Running ⟨applyAll node.kv [.put_version_value w.key rec'], node.db, update node.txns id (some txn)⟩ := by
  obtain ⟨hmeta, hnodup, hheld⟩ := h.opened id txn htxn hopen
  obtain ⟨rec₁, hrec₁, howner⟩ := h.recoverable.written id _ hmeta w hw
  cases hversion.symm.trans hrec₁
  obtain ⟨hzero, hlive⟩ := h.owned_open htxn hopen hversion howner
  obtain ⟨hvid, -, -, hlt⟩ := h.recoverable.versions _ _ _ hversion
  have hvid' : rec'.version_id = w.version_id := hid.trans hvid
  have hput : (node.kv.apply (.put_version_value w.key rec')).versions w.key w.version_id = some rec' := by
    rw [Kv.versions_put, if_pos ⟨rfl, hvid'.symm⟩]
  have hrecoverable : Recoverable (node.kv.apply (.put_version_value w.key rec')) := by
    refine h.recoverable.put_version rec (by rw [hvid']; exact hversion) hprev hcreated (fun _ => hstart)
      (fun _ => hend) (fun _ _ _ => ⟨hstart.trans hzero, hend.trans hlive⟩) ?_ ?_
    · intro head rec₀ hhead hrec₀
      cases (hheld w hw).symm.trans hhead
      cases hput.symm.trans hrec₀
      refine ⟨fun _ => hend.trans hlive, fun _ => .inl ?_⟩
      rcases h.head_prev (hheld w hw) hversion hzero with hnone | ⟨prev, hsome, hfacts⟩
      · exact .inl (hprev.trans hnone)
      · refine .inr ⟨prev, ?_, hfacts⟩
        rw [hprev, Kv.versions_put, if_neg]
        · exact hsome
        · rintro ⟨-, heq⟩
          exact hlt.ne (heq.trans hvid')
    · intro id' txn_meta hmeta' hstate'
      exact absurd hstate' (h.idle id' txn_meta hmeta')
  refine ⟨⟨⟨hrecoverable, .of_eq rfl⟩, trivial⟩, ?_⟩
  refine h.change hrecoverable ⟨h.synced.next_ts, h.synced.next_txn, h.synced.next_vid, h.synced.ts_pos,
    h.synced.txn_pos, h.synced.vid_pos⟩ h.no_ddl (h.txns id txn htxn) (fun _ _ => rfl)
    (fun txn_meta hmeta => h.idle id txn_meta hmeta) (fun _ => ⟨hmeta, hnodup, hheld⟩) (fun _ _ _ _ _ _ _ => rfl) ?_
  intro k v rec₀ hsome
  rw [applyAll_cons, applyAll_nil, Kv.store_apply, Kv.versions_put] at hsome
  split at hsome
  · next hat =>
    obtain ⟨rfl, rfl⟩ := hat
    cases hsome
    refine .inl ⟨hcreated.trans howner, fun _ => ?_⟩
    rw [hvid']
    exact hw
  · by_cases hcase : rec₀.created_by = id
    · exact .inl ⟨hcase, fun _ => h.owned k v rec₀ hsome txn (by rw [hcase]; exact htxn) hopen⟩
    · exact .inr ⟨hcase, rec₀, hsome, rfl⟩

/-- The checks of a first write find a live version to stand on, or none. -/
theorem check_write_prev (hcheck : txn.check_write node.kv key is_insert = .ok prev_id) :
    prev_id < node.db.next_version_id ∧ ∀ rec : VersionRecord, rec.prev_id = prev_id → PrevEnds node.kv key rec 0 := by
  have hbound : ∀ v rec, node.kv.versions key v = some rec → v < node.db.next_version_id := by
    intro v rec hversion
    have hlt := (h.recoverable.versions key v rec hversion).2.2.1
    rw [h.synced.next_vid, load_some h.synced.vid_pos] at hlt
    exact hlt
  rcases check_write_cases hcheck with ⟨-, rfl⟩ | ⟨head, rec, hhead, hversion, hprev, -⟩
  · exact ⟨h.synced.vid_pos, fun rec hzero => .inl hzero⟩
  obtain ⟨_, hversion', hlive, -⟩ := h.recoverable.heads key head hhead
  cases hversion.symm.trans hversion'
  rcases prev_of_head_ok hprev with ⟨hstamped, rfl⟩ | ⟨hzero, owner, howner, hopen, rfl⟩
  · refine ⟨hbound _ _ hversion, fun rec' hrec' => .inr ⟨rec, ?_, hstamped, hlive hstamped⟩⟩
    rw [hrec']
    exact hversion
  · obtain ⟨_, howner', hok⟩ := h.recoverable.owner key head rec hversion
    cases howner.symm.trans howner'
    rw [OwnerOk] at hok
    cases hstate : owner.state with
    | kOpen => exact absurd hstate hopen
    | kCommitted =>
      rw [hstate] at hok
      exact absurd (hok.2.1.symm.trans hzero) hok.1
    | kCommitting => exact absurd hstate (h.idle _ owner howner)
    | kAborted =>
      rw [if_pos rfl]
      refine ⟨(h.recoverable.versions key head rec hversion).2.2.2.trans (hbound _ _ hversion), fun rec' hrec' => ?_⟩
      rw [PrevEnds, hrec']
      exact h.head_prev hhead hversion hzero

/-- They find no row that another transaction has written. -/
theorem check_write_free (hcheck : txn.check_write node.kv key is_insert = .ok prev_id) :
    ∀ id' txn', node.txns id' = some txn' → txn'.finished = false → ∀ w ∈ txn'.written, w.key ≠ key := by
  rintro id' txn' htxn' hopen' w hw rfl
  obtain ⟨hmeta, -, hheld⟩ := h.opened id' txn' htxn' hopen'
  obtain ⟨rec, hversion, hcreated⟩ := h.recoverable.written id' _ hmeta w hw
  have hzero := (h.owned_open htxn' hopen' hversion hcreated).1
  rcases prev_of_head_ok (check_write_ok (hheld w hw) hversion hcheck).1 with
    ⟨hstamped, -⟩ | ⟨-, owner, howner, hstate, -⟩
  · exact absurd hzero hstamped
  · rw [hcreated, hmeta] at howner
    cases howner
    exact absurd rfl hstate

/-- The first write of a row. -/
theorem install (htxn : node.txns id = some txn) (hopen : txn.finished = false)
    (hnew : ∀ w ∈ txn.written, w.key ≠ key) (hcheck : txn.check_write node.kv key is_insert = .ok prev_id)
    (is_delete : Bool) (row : Row) :
    After (CrashOk node.kv) node.kv (txn.install_ops node.db key prev_id is_delete row) ∧
      Running ⟨applyAll node.kv (txn.install_ops node.db key prev_id is_delete row), drew_version node.db,
        update node.txns id (some (txn.wrote node.db key))⟩ := by
  obtain ⟨hlt, hprev⟩ := h.check_write_prev hcheck
  have hfree := h.check_write_free hcheck
  obtain ⟨hmeta, hnodup, hheld⟩ := h.opened id txn htxn hopen
  obtain rfl := h.txns id txn htxn
  obtain ⟨hids, -⟩ := h.recoverable.ids _ _ hmeta
  let rec₀ := txn.new_version node.db prev_id is_delete row
  obtain ⟨hafter, h₁, hsynced⟩ :=
    h.recoverable.persist_synced h.synced (drew_version node.db) h.synced.ts_pos le_rfl (Nat.le_succ _)
  have hfresh : node.kv.versions key node.db.next_version_id = none := by
    rw [Option.eq_none_iff_forall_not_mem]
    intro rec hversion
    have hlt := (h.recoverable.versions _ _ _ hversion).2.2.1
    rw [h.synced.next_vid, load_some h.synced.vid_pos] at hlt
    exact lt_irrefl _ hlt
  let kv₁ := applyAll node.kv (drew_version node.db).oracle_ops
  let kv₂ := kv₁.apply (.put_version_value key rec₀)
  let kv₃ := kv₂.apply (.set_head key node.db.next_version_id)
  let kv₄ := kv₃.apply (.put_txn_meta txn.txn_id { writes := (txn.wrote node.db key).written })
  have hput : kv₂.versions key node.db.next_version_id = some rec₀ := by
    rw [Kv.versions_put, if_pos ⟨rfl, rfl⟩]
  have hkeep : ∀ k v rec, node.kv.versions k v = some rec → kv₂.versions k v = some rec := by
    intro k v rec hsome
    rw [Kv.versions_put, if_neg]
    · exact hsome
    · rintro ⟨rfl, rfl⟩
      cases hfresh.symm.trans hsome
  have h₂ : Recoverable kv₂ := by
    refine h₁.new_version hfresh h.synced.vid_pos ?_ hlt rfl rfl hmeta rfl
    rw [hsynced.next_vid, load_some hsynced.vid_pos]
    exact Nat.lt_succ_self _
  have hbelow : PrevEnds kv₂ key rec₀ 0 := by
    rcases hprev rec₀ rfl with hzero | ⟨prev, hsome, hfacts⟩
    · exact .inl hzero
    · exact .inr ⟨prev, hkeep _ _ _ hsome, hfacts⟩
  have h₃ : Recoverable kv₃ := by
    refine h₂.move_head ?_ fun id' txn_meta hmeta' hstate' => absurd hstate' (h.idle id' txn_meta hmeta')
    intro v hv
    cases hv
    exact ⟨rec₀, hput, fun hne => absurd rfl hne, fun _ => .inl hbelow⟩
  have h₄ : Recoverable kv₄ := by
    refine h₃.put_txn_meta hids ?_ ?_ ?_ (by rintro ⟨⟩) ?_
    · exact (h₃.ids _ _ hmeta).2
    · intro k v rec hsome hcreated
      obtain ⟨owner, howner, hok⟩ := h₃.owner k v rec hsome
      rw [hcreated] at howner
      cases hmeta.symm.trans howner
      exact hok
    · intro k head rec hhead hsome hcreated hzero
      obtain ⟨rec', hsome', -, hprev'⟩ := h₃.heads k head hhead
      cases hsome.symm.trans hsome'
      rcases hprev' hzero with hends | ⟨owner, howner, hcommitting⟩
      · exact .inr hends
      · exact absurd hcommitting (h.idle _ owner howner)
    · intro w hw
      rcases mem_append.mp hw with hold | hlast
      · obtain ⟨rec, hsome, hcreated⟩ := h.recoverable.written _ _ hmeta w hold
        exact ⟨rec, hkeep _ _ _ hsome, hcreated⟩
      · obtain rfl := mem_singleton.mp hlast
        exact ⟨rec₀, hput, rfl⟩
  have hkept : Kept node.kv kv₄ := by
    show Kept kv₃ kv₄
    refine .put_txn_meta (fun old hold => ?_) _
    cases hmeta.symm.trans hold
    rintro (hstate | hstate) <;> cases hstate
  have hops : txn.install_ops node.db key prev_id is_delete row = (drew_version node.db).oracle_ops ++
      [.put_version_value key rec₀, .set_head key node.db.next_version_id,
        .put_txn_meta txn.txn_id { writes := (txn.wrote node.db key).written }] := rfl
  rw [hops]
  refine ⟨?_, ?_⟩
  · refine (hafter.mono fun _ kv' hkv' => ⟨hkv'.1, hkv'.2.settled⟩).append ?_
    exact ⟨⟨h₂, .of_eq rfl⟩, ⟨h₃, .of_eq rfl⟩, ⟨h₄, hkept⟩, trivial⟩
  · rw [applyAll_append]
    show Running ⟨kv₄, _, _⟩
    refine h.change h₄ ⟨hsynced.next_ts, hsynced.next_txn, hsynced.next_vid, hsynced.ts_pos, hsynced.txn_pos,
      hsynced.vid_pos⟩ h.no_ddl rfl (fun id' hne => update_of_ne hne _ _) ?_ ?_ ?_ ?_
    · intro txn_meta hsome
      cases (update_self ..).symm.trans hsome
      rintro ⟨⟩
    · refine fun _ => ⟨update_self .., ?_, ?_⟩
      · have hnotin : key ∉ txn.written.map TxnWrite.key := by
          intro hmem
          obtain ⟨w, hw, hkey⟩ := mem_map.mp hmem
          exact hnew w hw hkey
        have hkey : TxnWrite.key ⟨key.1, key.2, node.db.next_version_id⟩ = key := rfl
        rw [Transaction.wrote, map_append]
        exact hnodup.append (nodup_singleton _) (by simpa [hkey] using hnotin)
      · intro w hw
        rcases mem_append.mp hw with hold | hlast
        · exact (update_of_ne (hnew w hold) _ _).trans (hheld w hold)
        · obtain rfl := mem_singleton.mp hlast
          exact update_self ..
    · intro id' txn' hne htxn' hopen' w hw
      exact update_of_ne (hfree id' txn' htxn' hopen' w hw) _ _
    · intro k v rec hsome
      rw [show kv₄.versions = kv₂.versions from rfl, Kv.versions_put] at hsome
      split at hsome
      · next hat =>
        obtain ⟨rfl, rfl⟩ := hat
        cases hsome
        exact .inl ⟨rfl, fun _ => mem_append_right _ (mem_singleton_self _)⟩
      · by_cases hcase : rec.created_by = txn.txn_id
        · exact .inl ⟨hcase, fun _ => mem_append_left _ (h.owned k v rec hsome txn (by rw [hcase]; exact htxn) hopen)⟩
        · exact .inr ⟨hcase, rec, hsome, rfl⟩

end

section Finish

variable (h : Running node) (htxn : node.txns id = some txn) (hopen : txn.finished = false)

include h htxn hopen

/-- A roll-back. -/
theorem roll_back : ∃ ops, txn.roll_back node.db node.kv = (ops, .ok (node.db.mark_txn_finished txn)) ∧
    After (CrashOk node.kv) node.kv ops ∧
    Running ⟨applyAll node.kv ops, (node.db.mark_txn_finished txn).1,
      update node.txns id (some (node.db.mark_txn_finished txn).2)⟩ := by
  obtain ⟨hmeta, hnodup, hheld⟩ := h.opened id txn htxn hopen
  obtain rfl := h.txns id txn htxn
  have hws : ∀ w ∈ txn.written.reverse, ∃ rec, node.kv.versions w.key w.version_id = some rec ∧
      rec.created_by = txn.txn_id := fun w hw => h.recoverable.written _ _ hmeta w (mem_reverse.mp hw)
  obtain ⟨ops, hrun, hafter, h₁, hrestored⟩ := h.recoverable.forEach_restore_head hmeta rfl hws
  have hmeta₁ : (applyAll node.kv ops).txns txn.txn_id = some { writes := txn.written } := by
    rw [hrestored.txns]
    exact hmeta
  have h₂ := h₁.mark_aborted hmeta₁ rfl
  have hkept : Kept node.kv ((applyAll node.kv ops).apply (.put_txn_meta txn.txn_id { state := .kAborted })) := by
    refine (Kept.of_eq hrestored.txns).trans (.put_txn_meta (fun old hold => ?_) _)
    cases hmeta₁.symm.trans hold
    rintro (hstate | hstate) <;> cases hstate
  have hroll := @Transaction.roll_back_eq node.kv node.db txn (by rw [restore_heads, hrun])
  rw [restore_heads, hrun] at hroll
  refine ⟨_, hroll, ?_, ?_⟩
  · refine (hafter.mono fun _ kv' hkv' => ⟨hkv'.1, .of_eq hkv'.2.txns⟩).append ⟨⟨h₂, hkept⟩, trivial⟩
  · rw [applyAll_append]
    refine h.change h₂ ⟨hrestored.next_ts.trans h.synced.next_ts, hrestored.next_txn.trans h.synced.next_txn,
      hrestored.next_vid.trans h.synced.next_vid, h.synced.ts_pos, h.synced.txn_pos, h.synced.vid_pos⟩ h.no_ddl rfl ?_ ?_
      (by rintro ⟨⟩) ?_ ?_
    · intro id' hne
      exact (update_of_ne hne _ _).trans (congrFun hrestored.txns id')
    · intro txn_meta hsome
      cases (update_self ..).symm.trans hsome
      rintro ⟨⟩
    · intro id' txn' hne htxn' hopen' w hw
      obtain ⟨hmeta', -, hheld'⟩ := h.opened id' txn' htxn' hopen'
      rcases hrestored.heads w.key with hsame | ⟨v, rec, hhead, hversion, hcreated⟩
      · exact hsame
      · obtain ⟨rec', hversion', hcreated'⟩ := h.recoverable.written id' _ hmeta' w hw
        cases (hheld' w hw).symm.trans hhead
        cases hversion.symm.trans hversion'
        exact absurd (hcreated'.symm.trans hcreated) hne
    · intro k v rec hsome
      have hsome' : node.kv.versions k v = some rec := by
        rw [← hrestored.versions]
        exact hsome
      by_cases hcase : rec.created_by = txn.txn_id
      · exact .inl ⟨hcase, by rintro ⟨⟩⟩
      · exact .inr ⟨hcase, rec, hsome', rfl⟩

/-- The store with the intent to commit. -/
theorem intended : Recoverable (txn.intended node.db node.kv) := by
  obtain ⟨hmeta, hnodup, hheld⟩ := h.opened id txn htxn hopen
  obtain rfl := h.txns id txn htxn
  obtain ⟨hpos, hlt⟩ := h.recoverable.ids _ _ hmeta
  refine h.recoverable.put_txn_meta hpos hlt ?_ (fun _ _ _ _ _ _ _ => .inl rfl) ?_
    fun w hw => h.recoverable.written _ _ hmeta w hw
  · intro k v rec hversion hcreated
    exact h.owned k v rec hversion txn (by rw [hcreated]; exact htxn) hopen
  · refine fun _ => ⟨h.synced.ts_pos.ne', hnodup, fun w hw => ?_⟩
    obtain ⟨rec, hversion, hcreated⟩ := h.recoverable.written _ _ hmeta w hw
    obtain ⟨hzero, hlive⟩ := h.owned_open htxn hopen hversion hcreated
    exact ⟨rec, hversion, hcreated, hheld w hw, hlive,
      .inl ⟨hzero, .inl (h.head_prev (hheld w hw) hversion hzero)⟩⟩

/-- The writes of a commit, one part after another. -/
theorem commit_writes_parts : ∃ ops,
    apply_commit_writes txn.txn_id node.db.next_ts txn.written (txn.intended node.db node.kv) = (ops, .ok ()) ∧
      After (fun _ kv' => Recoverable kv' ∧ Applied node.db.next_ts (txn.intended node.db node.kv) kv')
        (txn.intended node.db node.kv) ops ∧
      Applied node.db.next_ts (txn.intended node.db node.kv) (applyAll (txn.intended node.db node.kv) ops) ∧
      Recoverable ((applyAll (txn.intended node.db node.kv) ops).apply
        (.put_txn_meta txn.txn_id { state := .kCommitted, commit_ts := node.db.next_ts })) := by
  have hintended := h.intended htxn hopen
  have hmeta : (txn.intended node.db node.kv).txns txn.txn_id =
      some { state := .kCommitting, commit_ts := node.db.next_ts, writes := txn.written } := update_self ..
  obtain ⟨ops, hrun, hafter, h₁, happlied, hstamped⟩ := hintended.apply_commit_writes hmeta rfl fun w hw => hw
  refine ⟨ops, hrun, hafter, happlied, h₁.mark_committed ?_ rfl hstamped⟩
  rw [happlied.txns]
  exact hmeta

/-- A commit. -/
theorem commit_writes : txn.commit_writes node.db node.kv = (txn.commit_ops node.db node.kv,
      .ok (((drew_ts node.db).mark_txn_finished txn).1,
        ((drew_ts node.db).mark_txn_finished txn).2, .ok ())) ∧
    After (CrashOk node.kv) node.kv (txn.commit_ops node.db node.kv) ∧
    Running ⟨applyAll node.kv (txn.commit_ops node.db node.kv), ((drew_ts node.db).mark_txn_finished txn).1,
      update node.txns id (some ((drew_ts node.db).mark_txn_finished txn).2)⟩ := by
  obtain ⟨hmeta, hnodup, hheld⟩ := h.opened id txn htxn hopen
  obtain ⟨ops, hrun, hafter, happlied, h₂⟩ := h.commit_writes_parts htxn hopen
  have hintended := h.intended htxn hopen
  obtain rfl := h.txns id txn htxn
  let kv₁ := txn.intended node.db node.kv
  let kv₂ := (applyAll kv₁ ops).apply (.put_txn_meta txn.txn_id { state := .kCommitted, commit_ts := node.db.next_ts })
  have hsynced₂ : Synced kv₂ node.db :=
    ⟨happlied.next_ts.trans h.synced.next_ts, happlied.next_txn.trans h.synced.next_txn,
      happlied.next_vid.trans h.synced.next_vid, h.synced.ts_pos, h.synced.txn_pos, h.synced.vid_pos⟩
  obtain ⟨hafter₃, h₃, hsynced₃⟩ :=
    h₂.persist_synced hsynced₂ (drew_ts node.db) (Nat.succ_pos _) le_rfl le_rfl
  have hunsettled : ∀ old, node.kv.txns txn.txn_id = some old → ¬ old.Settled := by
    intro old hold
    cases hmeta.symm.trans hold
    rintro (hstate | hstate) <;> cases hstate
  have hkept₁ : Kept node.kv kv₁ := .put_txn_meta hunsettled _
  have hkept₂ : Kept node.kv kv₂ := by
    refine (hkept₁.trans (.of_eq happlied.txns)).trans (.put_txn_meta (fun old hold => ?_) _)
    rw [happlied.txns] at hold
    cases (update_self ..).symm.trans hold
    rintro (hstate | hstate) <;> cases hstate
  have hops : txn.commit_ops node.db node.kv =
      .put_txn_meta txn.txn_id { state := .kCommitting, commit_ts := node.db.next_ts, writes := txn.written } ::
        (ops ++ .put_txn_meta txn.txn_id { state := .kCommitted, commit_ts := node.db.next_ts } ::
          (drew_ts node.db).oracle_ops) := by
    rw [commit_ops, hrun]
  have happly : applyAll node.kv (txn.commit_ops node.db node.kv) =
      applyAll kv₂ (drew_ts node.db).oracle_ops := by
    rw [hops, applyAll_cons]
    exact applyAll_append kv₁ ops _
  refine ⟨commit_writes_eq (by rw [hrun]), ?_, ?_⟩
  · rw [hops]
    refine ⟨⟨hintended, hkept₁⟩, ?_⟩
    refine (hafter.mono fun _ kv' hkv' => ⟨hkv'.1, hkept₁.trans (.of_eq hkv'.2.txns)⟩).append ⟨⟨h₂, hkept₂⟩, ?_⟩
    exact hafter₃.mono fun _ kv' hkv' => ⟨hkv'.1, hkept₂.trans hkv'.2.settled⟩
  · rw [happly]
    refine h.change h₃ ⟨hsynced₃.next_ts, hsynced₃.next_txn, hsynced₃.next_vid, hsynced₃.ts_pos, hsynced₃.txn_pos,
      hsynced₃.vid_pos⟩ h.no_ddl rfl ?_ ?_ (by rintro ⟨⟩) ?_ ?_
    · intro id' hne
      refine (update_of_ne hne _ _).trans ((congrFun happlied.txns id').trans ?_)
      exact update_of_ne hne _ _
    · intro txn_meta hsome
      cases (update_self ..).symm.trans hsome
      rintro ⟨⟩
    · intro id' txn' _ _ _ w _
      exact congrFun happlied.heads w.key
    · intro k v rec hsome
      obtain ⟨rec₀, hversion₀, hcreated, -⟩ := happlied.of_some hsome
      by_cases hcase : rec.created_by = txn.txn_id
      · exact .inl ⟨hcase, by rintro ⟨⟩⟩
      · exact .inr ⟨hcase, rec₀, hversion₀, hcreated.symm⟩

end Finish

end Running

end reldb
