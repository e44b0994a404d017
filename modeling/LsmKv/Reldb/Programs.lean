import LsmKv.Reldb.Txn

namespace reldb

open lsmkv (Status)
open List Function effects Database VersionRecord Except

namespace Database

variable {kv : Kv} {db : Database} {txn : Transaction}

def oracle_ops (db : Database) : List KvOp :=
  [.put_next_ts db.next_ts, .put_next_txn db.next_txn_id, .put_next_vid db.next_version_id]

/-- The counters in memory after a `Begin`. -/
def begun (db : Database) : Database :=
  { db with next_txn_id := db.next_txn_id + 1, open_txn_count := db.open_txn_count + 1 }

theorem begin_txn_run (hddl : db.ddl_in_progress = false) (kv : Kv) :
    db.begin_txn kv = (db.begun.oracle_ops ++ [.put_txn_meta db.next_txn_id {}],
      .ok (db.begun, { txn_id := db.next_txn_id, start_ts := db.next_ts - 1 })) := by
  have hgate : ¬ db.ddl_in_progress = true := by simp [hddl]
  rw [begin_txn, if_neg hgate]
  rfl

/-- The writes that move back one head. -/
def restore_ops (kv : Kv) (w : TxnWrite) : List KvOp :=
  match kv.heads w.key, kv.versions w.key w.version_id with
  | some head, some rec =>
    if head ≠ w.version_id then []
    else if rec.prev_id = 0 then [.clear_head w.key]
    else [.set_head w.key rec.prev_id]
  | _, _ => []

theorem restore_head_run {w : TxnWrite} (h : kv.heads w.key = some w.version_id →
    ∃ rec, kv.versions w.key w.version_id = some rec) : restore_head w kv = (restore_ops kv w, .ok ()) := by
  unfold restore_head restore_ops
  rw [Prog.look_bind]
  cases hhead : kv.heads w.key with
  | none => rfl
  | some head =>
    by_cases heq : head = w.version_id
    · subst heq
      obtain ⟨rec, hrec⟩ := h hhead
      simp only [ne_eq, not_true_eq_false, if_false, hrec]
      have hquery := Kv.get_version_eq_ok.mpr hrec
      rw [Prog.query_bind, hquery]
      dsimp only
      split <;> rfl
    · cases kv.versions w.key w.version_id <;> simp [heq]

/-- The writes that close the version before. -/
def close_ops (kv : Kv) (key : RowKey) (prev_id commit_ts : Nat) : List KvOp :=
  match kv.versions key prev_id with
  | some prev =>
    if prev_id ≠ 0 ∧ prev.start_ts ≠ 0 ∧ prev.end_ts = 0 then
      [.put_version_value key { prev with end_ts := commit_ts }]
    else []
  | none => []

theorem close_prev_run (kv : Kv) (key : RowKey) (prev_id commit_ts : Nat) :
    close_prev key prev_id commit_ts kv = (close_ops kv key prev_id commit_ts, .ok ()) := by
  unfold close_prev close_ops
  by_cases hzero : prev_id = 0
  · simp only [hzero, if_true]
    cases kv.versions key 0 <;> simp
  · rw [if_neg hzero, Prog.look_bind]
    cases hprev : kv.versions key prev_id with
    | none => rfl
    | some prev =>
      by_cases hclose : prev.start_ts ≠ 0 ∧ prev.end_ts = 0
      · simp [hzero, hclose, is_provisional]
      · by_cases hstart : prev.start_ts = 0
        · simp [hzero, hstart, is_provisional]
        · have hend : prev.end_ts ≠ 0 := fun h => hclose ⟨hstart, h⟩
          simp [hzero, hend, is_provisional]

/-- The writes that stamp one version. -/
def stamp_ops (kv : Kv) (commit_ts : Nat) (w : TxnWrite) (rec : VersionRecord) : List KvOp :=
  close_ops kv w.key rec.prev_id commit_ts ++ [.put_version_value w.key { rec with start_ts := commit_ts }]

theorem apply_commit_write_run {txn_id commit_ts : Nat} {w : TxnWrite} {rec : VersionRecord}
    (hrec : kv.versions w.key w.version_id = some rec) (howner : rec.created_by = txn_id)
    (hstart : rec.start_ts = 0 ∨ rec.start_ts = commit_ts) :
    apply_commit_write txn_id commit_ts w kv =
      (if rec.start_ts = 0 then stamp_ops kv commit_ts w rec else [], .ok ()) := by
  have hquery := Kv.get_version_eq_ok.mpr hrec
  unfold apply_commit_write
  rw [Prog.query_bind, hquery]
  dsimp only
  rw [if_neg (not_not.mpr howner)]
  by_cases hzero : rec.start_ts = 0
  · have hprovisional : ¬ (!rec.is_provisional) = true := by simp [is_provisional, hzero]
    rw [if_neg hprovisional, if_pos hzero, Prog.bind_ok (close_prev_run kv w.key rec.prev_id commit_ts)]
    rfl
  · have hstamped : (!rec.is_provisional) = true := by simp [is_provisional, hzero]
    rw [if_pos hstamped, if_neg (not_not.mpr (hstart.resolve_left hzero)), if_neg hzero]
    rfl

/-- Where the head of a written key goes when the write is undone. -/
def restored_head (kv : Kv) (w : TxnWrite) : Option Nat :=
  match kv.versions w.key w.version_id with
  | some rec => if rec.prev_id = 0 then none else some rec.prev_id
  | none => none

theorem applyAll_restore_ops {w : TxnWrite} (hhead : kv.heads w.key = some w.version_id) {rec : VersionRecord}
    (hrec : kv.versions w.key w.version_id = some rec) :
    applyAll kv (restore_ops kv w) =
      { kv with heads := Function.update kv.heads w.key (restored_head kv w) } := by
  simp only [restore_ops, hhead, hrec, restored_head]
  split
  · next hne => exact absurd rfl hne
  · split <;> rfl

/-- Undoing writes of different keys, each of which is still the head. -/
theorem forEach_restore_head (ws : List TxnWrite) (hnodup : (ws.map TxnWrite.key).Nodup)
    (hws : ∀ w ∈ ws, kv.heads w.key = some w.version_id ∧ ∃ rec, kv.versions w.key w.version_id = some rec) :
    ∃ heads, (Prog.forEach restore_head ws kv).2 = .ok () ∧
      applyAll kv (Prog.forEach restore_head ws kv).1 = { kv with heads := heads } ∧
      (∀ w ∈ ws, heads w.key = restored_head kv w) ∧ ∀ k, (∀ w ∈ ws, w.key ≠ k) → heads k = kv.heads k := by
  induction ws generalizing kv with
  | nil => exact ⟨kv.heads, rfl, rfl, by simp, fun _ _ => rfl⟩
  | cons w ws ih =>
    obtain ⟨⟨hhead, rec, hrec⟩, hws⟩ := forall_mem_cons.mp hws
    obtain ⟨hnotin, hnodup⟩ := nodup_cons.mp hnodup
    have hne : ∀ w' ∈ ws, w'.key ≠ w.key := fun w' hw' heq => hnotin (heq ▸ mem_map_of_mem hw')
    have happly := applyAll_restore_ops hhead hrec
    obtain ⟨heads, hok, hkv, hdone, hother⟩ :=
      @ih { kv with heads := Function.update kv.heads w.key (restored_head kv w) } hnodup fun w' hw' => by
        refine ⟨?_, (hws w' hw').2⟩
        exact (update_of_ne (hne w' hw') _ _).trans (hws w' hw').1
    have hrun := Prog.forEach_cons ws (restore_head_run fun _ => ⟨rec, hrec⟩ : restore_head w kv = _)
    rw [happly] at hrun
    refine ⟨heads, by rw [hrun]; exact hok, ?_, ?_, ?_⟩
    · rw [hrun, applyAll_append, happly]
      exact hkv
    · refine forall_mem_cons.mpr ⟨?_, hdone⟩
      rw [hother w.key hne]
      exact update_self ..
    · intro k hk
      obtain ⟨hkw, hkws⟩ := forall_mem_cons.mp hk
      rw [hother k hkws]
      exact update_of_ne (Ne.symm hkw) _ _

/-- The row of versions after closing one of them. -/
def closed_row (row : Nat → Option VersionRecord) (prev_id commit_ts : Nat) : Nat → Option VersionRecord :=
  match row prev_id with
  | some prev =>
    if prev_id ≠ 0 ∧ prev.start_ts ≠ 0 ∧ prev.end_ts = 0 then
      Function.update row prev.version_id (some { prev with end_ts := commit_ts })
    else row
  | none => row

/-- The row of versions after a commit stamped one of them. -/
def stamped_row (row : Nat → Option VersionRecord) (commit_ts : Nat) (rec : VersionRecord) :
    Nat → Option VersionRecord :=
  Function.update (closed_row row rec.prev_id commit_ts) rec.version_id (some { rec with start_ts := commit_ts })

theorem applyAll_close_ops (kv : Kv) (key : RowKey) (prev_id commit_ts : Nat) :
    applyAll kv (close_ops kv key prev_id commit_ts) =
      { kv with versions := Function.update kv.versions key (closed_row (kv.versions key) prev_id commit_ts) } := by
  have hsame : { kv with versions := Function.update kv.versions key (kv.versions key) } = kv := by
    rw [update_eq_self]
  unfold close_ops closed_row
  cases kv.versions key prev_id with
  | none => exact hsame.symm
  | some prev =>
    dsimp only
    split
    · rfl
    · exact hsame.symm

theorem applyAll_stamp_ops (kv : Kv) (commit_ts : Nat) (w : TxnWrite) (rec : VersionRecord) :
    applyAll kv (stamp_ops kv commit_ts w rec) =
      { kv with versions :=
          Function.update kv.versions w.key (stamped_row (kv.versions w.key) commit_ts rec) } := by
  rw [stamp_ops, applyAll_append, applyAll_close_ops]
  simp [Kv.apply, stamped_row]

/-- Stamping provisional versions of different keys. -/
theorem forEach_apply_commit_write {txn_id commit_ts : Nat} (ws : List TxnWrite)
    (hnodup : (ws.map TxnWrite.key).Nodup)
    (hws : ∀ w ∈ ws, ∃ rec, kv.versions w.key w.version_id = some rec ∧ rec.created_by = txn_id ∧ rec.start_ts = 0) :
    ∃ versions, (apply_commit_writes txn_id commit_ts ws kv).2 = .ok () ∧
      applyAll kv (apply_commit_writes txn_id commit_ts ws kv).1 = { kv with versions := versions } ∧
      (∀ w ∈ ws, ∀ rec, kv.versions w.key w.version_id = some rec →
        versions w.key = stamped_row (kv.versions w.key) commit_ts rec) ∧
      ∀ k, (∀ w ∈ ws, w.key ≠ k) → versions k = kv.versions k := by
  induction ws generalizing kv with
  | nil => exact ⟨kv.versions, rfl, rfl, by simp, fun _ _ => rfl⟩
  | cons w ws ih =>
    obtain ⟨⟨rec, hrec, howner, hzero⟩, hws⟩ := forall_mem_cons.mp hws
    obtain ⟨hnotin, hnodup⟩ := nodup_cons.mp hnodup
    have hne : ∀ w' ∈ ws, w'.key ≠ w.key := fun w' hw' heq => hnotin (heq ▸ mem_map_of_mem hw')
    have hrow : ∀ w' ∈ ws, Function.update kv.versions w.key (stamped_row (kv.versions w.key) commit_ts rec) w'.key =
        kv.versions w'.key := fun w' hw' => update_of_ne (hne w' hw') _ _
    obtain ⟨versions, hok, hkv, hdone, hother⟩ :=
      @ih { kv with versions := Function.update kv.versions w.key (stamped_row (kv.versions w.key) commit_ts rec) }
        hnodup fun w' hw' => by
          obtain ⟨rec', hrec', hfacts⟩ := hws w' hw'
          exact ⟨rec', (congrFun (hrow w' hw') _).trans hrec', hfacts⟩
    have hstep : apply_commit_write txn_id commit_ts w kv = (stamp_ops kv commit_ts w rec, .ok ()) := by
      rw [apply_commit_write_run hrec howner (.inl hzero), if_pos hzero]
    have hrun : apply_commit_writes txn_id commit_ts (w :: ws) kv = _ := Prog.forEach_cons ws hstep
    rw [applyAll_stamp_ops] at hrun
    refine ⟨versions, by rw [hrun]; exact hok, ?_, ?_, ?_⟩
    · rw [hrun, applyAll_append, applyAll_stamp_ops]
      exact hkv
    · refine forall_mem_cons.mpr ⟨?_, ?_⟩
      · intro rec' hrec'
        cases hrec.symm.trans hrec'
        rw [hother w.key hne]
        exact update_self ..
      · intro w' hw' rec' hrec'
        refine (hdone w' hw' rec' ((congrFun (hrow w' hw') _).trans hrec')).trans ?_
        exact congrArg (stamped_row · commit_ts rec') (hrow w' hw')
    · intro k hk
      obtain ⟨hkw, hkws⟩ := forall_mem_cons.mp hk
      rw [hother k hkws]
      exact update_of_ne (Ne.symm hkw) _ _

theorem get_table_ok {name : String} {schema : TableSchema} (h : db.get_table name = .ok schema) :
    db.catalog name = some schema := by
  rw [get_table] at h
  split at h
  · next hsome =>
    cases h
    exact hsome
  · cases h

theorem get_table_isSome {name : String} {schema : TableSchema} (h : db.get_table name = .ok schema) :
    (db.catalog name).isSome := by
  rw [get_table_ok h]
  rfl

end Database

/-- What a write of a row comes to: another write of the same version, or a first write
    on top of a version. -/
inductive WriteOutcome where
  | rewrite (w : TxnWrite) (rec : VersionRecord)
  | install (prev_id : Nat)

namespace Transaction

variable {kv : Kv} {db db' : Database} {txn txn' : Transaction} {key : RowKey} {is_delete is_insert : Bool}
  {row : Row} {ops : List KvOp}

/-- The version that a first write installs. -/
def new_version (db : Database) (txn : Transaction) (prev_id : Nat) (is_delete : Bool) (row : Row) : VersionRecord :=
  { version_id := db.next_version_id, prev_id := prev_id, created_by := txn.txn_id, is_tombstone := is_delete
    payload := if is_delete then [] else row }

/-- The transaction after a first write of a key. -/
def wrote (db : Database) (txn : Transaction) (key : RowKey) : Transaction :=
  { txn with written := txn.written ++ [⟨key.1, key.2, db.next_version_id⟩] }

def drew_version (db : Database) : Database := { db with next_version_id := db.next_version_id + 1 }

def install_ops (db : Database) (txn : Transaction) (key : RowKey) (prev_id : Nat) (is_delete : Bool) (row : Row) :
    List KvOp :=
  (drew_version db).oracle_ops ++ [.put_version_value key (new_version db txn prev_id is_delete row),
    .set_head key db.next_version_id, .put_txn_meta txn.txn_id { writes := (wrote db txn key).written }]

/-- Whether a version of the transaction's own may be written again. -/
def check_rewrite (rec : VersionRecord) (is_delete is_insert : Bool) : Except Status Unit :=
  if is_insert && !rec.is_tombstone then .error (.InvalidArgument "duplicate primary key in transaction")
  else if is_delete && rec.is_tombstone then .error (.NotFound "row already deleted in transaction")
  else .ok ()

/-- The checks of a write. -/
def write_outcome (kv : Kv) (txn : Transaction) (key : RowKey) (is_delete is_insert : Bool) : Except Status WriteOutcome :=
  if txn.finished then .error (.InvalidArgument "transaction finished")
  else
    match txn.written.find? fun w => w.key = key with
    | some w => do
      let rec ← kv.get_version w.key w.version_id
      check_rewrite rec is_delete is_insert
      return .rewrite w rec
    | none => do
      let prev_id ← check_write kv txn key is_insert
      return .install prev_id

/-- A version after another write of its owner. -/
def rewritten (rec : VersionRecord) (is_delete : Bool) (row : Row) : VersionRecord :=
  { rec with is_tombstone := is_delete, payload := if is_delete then [] else row }

theorem rewrite_run {w : TxnWrite} {rec : VersionRecord} (hrec : kv.get_version w.key w.version_id = .ok rec) :
    rewrite w is_delete row is_insert kv =
      match check_rewrite rec is_delete is_insert with
      | .error s => ([], .error s)
      | .ok () => ([.put_version_value w.key (rewritten rec is_delete row)], .ok ()) := by
  rw [rewrite, Prog.query_bind, hrec]
  obtain ⟨_, _, _, _, _, is_tombstone, _⟩ := rec
  cases is_insert <;> cases is_delete <;> cases is_tombstone <;> rfl

/-- A write is its checks and then its puts. -/
theorem write_eq : txn.write db key is_delete row is_insert kv =
    match txn.write_outcome kv key is_delete is_insert with
    | .error s => ([], .error s)
    | .ok (.rewrite w rec) => ([.put_version_value w.key (rewritten rec is_delete row)], .ok (db, txn))
    | .ok (.install prev_id) =>
      (txn.install_ops db key prev_id is_delete row, .ok (drew_version db, txn.wrote db key)) := by
  rw [write, write_outcome]
  split
  · rfl
  cases txn.written.find? fun w => w.key = key with
  | none =>
    dsimp only
    rw [Prog.query_bind]
    cases txn.check_write kv key is_insert <;> rfl
  | some w =>
    dsimp only
    cases hrec : kv.get_version w.key w.version_id with
    | error s =>
      have hrun : rewrite w is_delete row is_insert kv = ([], .error s) := by
        rw [rewrite, Prog.query_bind, hrec]
      rw [Prog.bind_error hrun]
      rfl
    | ok rec =>
      have hrun := @rewrite_run kv is_delete is_insert row w rec hrec
      rw [ok_bind]
      cases hcheck : check_rewrite rec is_delete is_insert with
      | error s =>
        rw [hcheck] at hrun
        rw [Prog.bind_error hrun]
        rfl
      | ok _ =>
        rw [hcheck] at hrun
        rw [Prog.bind_ok hrun]
        rfl

theorem write_outcome_rewrite {w : TxnWrite} {rec : VersionRecord}
    (h : txn.write_outcome kv key is_delete is_insert = .ok (.rewrite w rec)) :
    txn.finished = false ∧ w ∈ txn.written ∧ w.key = key ∧ kv.versions w.key w.version_id = some rec := by
  rw [write_outcome, ite_error_eq_ok] at h
  obtain ⟨hopen, h⟩ := h
  split at h
  · next w' hfind =>
    simp only [bind_eq_ok, Kv.get_version_eq_ok] at h
    obtain ⟨rec', hrec, _, -, h⟩ := h
    cases h
    exact ⟨by simpa using hopen, mem_of_find?_eq_some hfind, by simpa using List.find?_some hfind, hrec⟩
  · obtain ⟨prev_id, -, h⟩ := bind_eq_ok.mp h
    cases h

theorem write_outcome_install {prev_id : Nat}
    (h : txn.write_outcome kv key is_delete is_insert = .ok (.install prev_id)) :
    txn.finished = false ∧ (∀ w ∈ txn.written, w.key ≠ key) ∧ txn.check_write kv key is_insert = .ok prev_id := by
  rw [write_outcome, ite_error_eq_ok] at h
  obtain ⟨hopen, h⟩ := h
  split at h
  · simp only [bind_eq_ok] at h
    obtain ⟨rec, -, _, -, h⟩ := h
    cases h
  · next hfind =>
    obtain ⟨prev_id', hcheck, h⟩ := bind_eq_ok.mp h
    cases h
    exact ⟨by simpa using hopen, by simpa using List.find?_eq_none.mp hfind, hcheck⟩

/-- The checks of a first write of a row that has a head. -/
theorem check_write_ok {head prev_id : Nat} {rec : VersionRecord} (hhead : kv.heads key = some head)
    (hversion : kv.versions key head = some rec) (hcheck : txn.check_write kv key is_insert = .ok prev_id) :
    prev_of_head kv txn head rec = .ok prev_id ∧ txn.check_newest_committed kv key head head = .ok () ∧
      check_existing is_insert (txn.get_row kv key) = .ok () := by
  simp only [check_write, hhead, bind_eq_ok, Kv.get_version_eq_ok] at hcheck
  obtain ⟨rec', hrec', prev, hprev, _, hnewest, _, hexisting, h⟩ := hcheck
  cases hversion.symm.trans hrec'
  cases h
  exact ⟨hprev, hnewest, hexisting⟩

/-- The version that a new one is put on: the head, or the one below an aborted head. -/
theorem prev_of_head_ok {head prev_id : Nat} {rec : VersionRecord} (h : prev_of_head kv txn head rec = .ok prev_id) :
    (rec.start_ts ≠ 0 ∧ prev_id = head) ∨
      rec.start_ts = 0 ∧ ∃ owner, kv.txns rec.created_by = some owner ∧ owner.state ≠ .kOpen ∧
        prev_id = if owner.state = .kAborted then rec.prev_id else head := by
  rw [prev_of_head] at h
  split at h
  · next hprovisional =>
    split at h
    · cases h
    next owner howner =>
    simp only [ite_error_eq_ok] at h
    obtain ⟨hother, hself, h⟩ := h
    refine .inr ⟨by simpa [is_provisional] using hprovisional, owner, Kv.get_txn_meta_eq_ok.mp howner,
      fun hstate => hother ⟨hstate, fun hcreated => hself ⟨hstate, hcreated⟩⟩, ?_⟩
    rw [← apply_ite] at h
    exact (Except.ok.inj h).symm
  · next hstamped =>
    exact .inl ⟨by simpa [is_provisional] using hstamped, (Except.ok.inj h).symm⟩

/-- The checks of a first write: the row has no head, or they find its head. -/
theorem check_write_cases {prev_id : Nat} (hcheck : txn.check_write kv key is_insert = .ok prev_id) :
    (kv.heads key = none ∧ prev_id = 0) ∨ ∃ head rec, kv.heads key = some head ∧
      kv.versions key head = some rec ∧ prev_of_head kv txn head rec = .ok prev_id ∧
      txn.check_newest_committed kv key head head = .ok () := by
  cases hhead : kv.heads key with
  | none =>
    rw [check_write, hhead] at hcheck
    dsimp only at hcheck
    split at hcheck
    · cases hcheck
      exact .inl ⟨rfl, rfl⟩
    · cases hcheck
  | some head =>
    simp only [check_write, hhead, bind_eq_ok, Kv.get_version_eq_ok] at hcheck
    obtain ⟨rec, hrec, prev, hprev, _, hnewest, _, -, h⟩ := hcheck
    cases h
    exact .inr ⟨head, rec, rfl, hrec, hprev, hnewest⟩

theorem check_write_prev {prev_id : Nat} (hcheck : txn.check_write kv key is_insert = .ok prev_id) :
    (kv.heads key = none ∧ prev_id = 0) ∨ ∃ head rec, kv.heads key = some head ∧
      kv.versions key head = some rec ∧ (prev_id = head ∨ prev_id = rec.prev_id) := by
  rcases check_write_cases hcheck with hnone | ⟨head, rec, hhead, hrec, hprev, -⟩
  · exact .inl hnone
  · refine .inr ⟨head, rec, hhead, hrec, ?_⟩
    rcases prev_of_head_ok hprev with ⟨-, hprev⟩ | ⟨-, owner, -, -, hprev⟩
    · exact .inl hprev
    · split at hprev
      · exact .inr hprev
      · exact .inl hprev

/-- The walk from a committed version. -/
theorem check_newest_committed_stamped {fuel walk : Nat} {rec : VersionRecord} (hwalk : walk ≠ 0)
    (hrec : kv.versions key walk = some rec) (hstamped : rec.start_ts ≠ 0)
    (h : txn.check_newest_committed kv key fuel walk = .ok ()) : rec.start_ts ≤ txn.start_ts := by
  cases fuel with
  | zero => simp [check_newest_committed, hwalk] at h
  | succ fuel =>
    rw [check_newest_committed, if_neg hwalk, Kv.get_version_eq_ok.mpr hrec] at h
    dsimp only at h
    rw [if_pos (by simp [is_provisional, hstamped]), ite_error_eq_ok] at h
    exact not_lt.mp h.1

/-- The re-check of a commit passes if the writes are all still heads, above nothing that
    was committed after the transaction began. -/
theorem check_commit_none (hws : ∀ w ∈ txn.written, kv.heads w.key = some w.version_id ∧
    ∃ rec, kv.versions w.key w.version_id = some rec ∧
      (rec.prev_id ≠ 0 → ∀ prev, kv.versions w.key rec.prev_id = some prev → prev.start_ts ≤ txn.start_ts)) :
    txn.check_commit kv txn.written = .ok none := by
  have hwrite : ∀ w ∈ txn.written, txn.check_commit_write kv w = .ok none := by
    intro w hw
    obtain ⟨hhead, rec, hrec, hle⟩ := hws w hw
    rw [check_commit_write, Kv.get_latest_version_id_eq_ok.mpr hhead, ok_bind, if_neg (not_not.mpr rfl),
      Kv.get_version_eq_ok.mpr hrec, ok_bind]
    split
    · rfl
    · next hpos =>
      cases hprev : kv.versions w.key rec.prev_id with
      | none => rfl
      | some prev =>
        simp [not_lt.mpr (hle hpos prev hprev)]
        rfl
  generalize txn.written = ws at hwrite
  induction ws with
  | nil => rfl
  | cons w ws ih =>
    obtain ⟨hfirst, hrest⟩ := forall_mem_cons.mp hwrite
    rw [check_commit, hfirst]
    exact ih hrest

/-- The key of a row in a table that exists. -/
def table_key (db : Database) (table : String) (pk : Value) : Except Status RowKey :=
  (db.get_table table).map fun _ => (table, pk)

theorem table_key_ok {table : String} {pk : Value} (h : table_key db table pk = .ok key) :
    key = (table, pk) ∧ (db.catalog key.1).isSome := by
  rw [table_key] at h
  cases hschema : db.get_table table with
  | error s =>
    rw [hschema] at h
    cases h
  | ok schema =>
    rw [hschema] at h
    cases h
    exact ⟨rfl, get_table_isSome hschema⟩

theorem row_key_table {table : String}
    (h : row_key db table row = .ok key) : (db.catalog key.1).isSome := by
  simp only [row_key, bind_eq_ok] at h
  obtain ⟨schema, hschema, _, -, pk, -, h⟩ := h
  cases h
  exact get_table_isSome hschema

theorem insert_run (txn : Transaction) (db : Database) (table : String) (row : Row) (kv : Kv) :
    txn.insert db table row kv =
      match row_key db table row with
      | .ok key => txn.write db key false row true kv
      | .error s => ([], .error s) := by
  rw [insert, Prog.query_bind]
  cases row_key db table row <;> rfl

theorem update_run (txn : Transaction) (db : Database) (table : String) (row : Row) (kv : Kv) :
    txn.update db table row kv =
      match row_key db table row with
      | .ok key => txn.write db key false row false kv
      | .error s => ([], .error s) := by
  rw [update, Prog.query_bind]
  cases row_key db table row <;> rfl

theorem delete_run (txn : Transaction) (db : Database) (table : String) (pk : Value) (kv : Kv) :
    txn.delete db table pk kv =
      match table_key db table pk with
      | .ok key => txn.write db key true [] false kv
      | .error s => ([], .error s) := by
  rw [delete, table_key, Prog.query_bind]
  cases db.get_table table <;> rfl

theorem roll_back_eq (hok : (restore_heads txn.written kv).2 = .ok ()) :
    txn.roll_back db kv = ((restore_heads txn.written kv).1 ++
      [.put_txn_meta txn.txn_id { state := .kAborted }], .ok (db.mark_txn_finished txn)) :=
  Prog.bind_ok (Prod.ext rfl hok)

theorem roll_back_result {r : Database × Transaction} (h : (txn.roll_back db kv).2 = .ok r) :
    r = db.mark_txn_finished txn := by
  obtain ⟨_, -, h⟩ := Prog.bind_result h
  exact (Except.ok.inj h).symm

/-- A roll-back of writes that are all still heads. -/
theorem roll_back_run (hnodup : (txn.written.map TxnWrite.key).Nodup)
    (hws : ∀ w ∈ txn.written, kv.heads w.key = some w.version_id ∧
      ∃ rec, kv.versions w.key w.version_id = some rec) :
    ∃ ops heads, txn.roll_back db kv = (ops, .ok (db.mark_txn_finished txn)) ∧
      applyAll kv ops = { kv with
        heads := heads, txns := Function.update kv.txns txn.txn_id (some { state := .kAborted }) } ∧
      (∀ w ∈ txn.written, heads w.key = restored_head kv w) ∧
      ∀ k, (∀ w ∈ txn.written, w.key ≠ k) → heads k = kv.heads k := by
  obtain ⟨heads, hok, hkv, hdone, hother⟩ := forEach_restore_head txn.written.reverse
    (by rw [map_reverse]; exact nodup_reverse.mpr hnodup) fun w hw => hws w (mem_reverse.mp hw)
  refine ⟨_, heads, roll_back_eq hok, ?_, ?_, ?_⟩
  · rw [applyAll_append, restore_heads, hkv]
    rfl
  · exact fun w hw => hdone w (mem_reverse.mpr hw)
  · exact fun k hk => hother k fun w hw => hk w (mem_reverse.mp hw)

/-- The store once the intent to commit is there. -/
def intended (db : Database) (txn : Transaction) (kv : Kv) : Kv :=
  kv.apply (.put_txn_meta txn.txn_id { state := .kCommitting, commit_ts := db.next_ts, writes := txn.written })

/-- The counters in memory after a commit. -/
def drew_ts (db : Database) : Database := { db with next_ts := db.next_ts + 1 }

def commit_ops (db : Database) (txn : Transaction) (kv : Kv) : List KvOp :=
  .put_txn_meta txn.txn_id { state := .kCommitting, commit_ts := db.next_ts, writes := txn.written } ::
    ((apply_commit_writes txn.txn_id db.next_ts txn.written (intended db txn kv)).1 ++
      .put_txn_meta txn.txn_id { state := .kCommitted, commit_ts := db.next_ts } :: (drew_ts db).oracle_ops)

theorem commit_writes_eq
    (hok : (apply_commit_writes txn.txn_id db.next_ts txn.written (intended db txn kv)).2 = .ok ()) :
    txn.commit_writes db kv = (commit_ops db txn kv,
      .ok (((drew_ts db).mark_txn_finished txn).1, ((drew_ts db).mark_txn_finished txn).2, .ok ())) := by
  have hattempt : Prog.attempt (apply_commit_writes txn.txn_id db.next_ts txn.written)
      (intended db txn kv) =
        ((apply_commit_writes txn.txn_id db.next_ts txn.written (intended db txn kv)).1, .ok (.ok ())) := by
    rw [Prog.attempt_run, hok]
  unfold commit_writes
  rw [Prog.perform_bind]
  show (_ :: _, _) = _
  rw [show Store.apply kv _ = intended db txn kv from rfl, Prog.bind_ok hattempt]
  rfl

/-- A commit ends the transaction, or fails in the middle and leaves it open. -/
theorem commit_writes_result {status : Except Status Unit} (h : (txn.commit_writes db kv).2 = .ok (db', txn', status)) :
    (db' = drew_ts db ∧ txn' = txn) ∨ (db', txn') = (drew_ts db).mark_txn_finished txn := by
  rw [commit_writes, Prog.perform_bind] at h
  obtain ⟨outcome, -, h⟩ := Prog.bind_result h
  cases outcome with
  | error s =>
    cases h
    exact .inl ⟨rfl, rfl⟩
  | ok _ =>
    cases h
    exact .inr rfl

/-- A commit of provisional versions of its own. -/
theorem commit_writes_run (hnodup : (txn.written.map TxnWrite.key).Nodup)
    (hws : ∀ w ∈ txn.written, ∃ rec, kv.versions w.key w.version_id = some rec ∧ rec.created_by = txn.txn_id ∧
      rec.start_ts = 0) :
    ∃ versions, txn.commit_writes db kv = (commit_ops db txn kv,
        .ok (((drew_ts db).mark_txn_finished txn).1, ((drew_ts db).mark_txn_finished txn).2, .ok ())) ∧
      applyAll kv (commit_ops db txn kv) = { kv with
        next_ts := some (db.next_ts + 1), next_txn := some db.next_txn_id, next_vid := some db.next_version_id
        txns := Function.update kv.txns txn.txn_id (some { state := .kCommitted, commit_ts := db.next_ts })
        versions := versions } ∧
      (∀ w ∈ txn.written, ∀ rec, kv.versions w.key w.version_id = some rec →
        versions w.key = stamped_row (kv.versions w.key) db.next_ts rec) ∧
      ∀ k, (∀ w ∈ txn.written, w.key ≠ k) → versions k = kv.versions k := by
  obtain ⟨versions, hok, hkv, hdone, hother⟩ :=
    @Database.forEach_apply_commit_write (intended db txn kv) txn.txn_id db.next_ts txn.written hnodup hws
  refine ⟨versions, commit_writes_eq hok, ?_, hdone, hother⟩
  have hfirst : applyAll kv (commit_ops db txn kv) = applyAll (intended db txn kv) _ := rfl
  rw [hfirst, applyAll_append, hkv]
  simp [Kv.apply, intended, drew_ts, oracle_ops]

end Transaction

end reldb
