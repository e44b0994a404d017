import LsmKv.Reldb.ByteStore
import LsmKv.Reldb.Isolation
import LsmKv.Reldb.Orderly

namespace reldb

open lsmkv (Status)
open Option Transaction

/-- A read that comes to nothing. -/
def IsNotFound (result : Except Status Row) : Prop := ∃ msg, result = .error (.NotFound msg)

namespace Transaction

variable {kv : Kv} {txn : Transaction} {key : RowKey} {is_delete is_insert : Bool}

theorem check_existing_iff (result : Except Status Row) :
    check_existing is_insert result = .ok () ↔
      if is_insert then IsNotFound result else ∃ row, result = .ok row := by
  cases result with
  | ok row => cases is_insert <;> simp [check_existing, IsNotFound]
  | error s =>
    obtain ⟨code, msg⟩ := s
    cases is_insert <;> cases code <;>
      simp [check_existing, IsNotFound, Status.is_not_found, Status.NotFound]

theorem write_outcome_own (hopen : txn.finished = false) {w : TxnWrite}
    (hfind : (txn.written.find? fun w => w.key = key) = some w) {rec : VersionRecord}
    (hrec : kv.versions w.key w.version_id = some rec) :
    txn.write_outcome kv key is_delete is_insert =
      (check_rewrite rec is_delete is_insert).map fun _ => .rewrite w rec := by
  rw [write_outcome, if_neg (by simp [hopen]), hfind]
  dsimp only
  rw [Kv.get_version_eq_ok.mpr hrec]
  change (check_rewrite rec is_delete is_insert >>= fun _ => pure (WriteOutcome.rewrite w rec)) = _
  cases check_rewrite rec is_delete is_insert <;> rfl

theorem write_outcome_first (hopen : txn.finished = false)
    (hfind : (txn.written.find? fun w => w.key = key) = none) :
    txn.write_outcome kv key is_delete is_insert =
      (txn.check_write kv key is_insert).map fun prev_id => .install prev_id := by
  rw [write_outcome, if_neg (by simp [hopen]), hfind]
  dsimp only
  cases txn.check_write kv key is_insert <;> rfl

end Transaction

namespace Guarded

variable {node : Node} {id : Nat} {txn : Transaction} {key : RowKey} {is_insert : Bool}

/-- A transaction under way reads the rows that it wrote. -/
theorem own_reads (h : Guarded node) (htxn : node.txns id = some txn) (hopen : txn.finished = false) {w : TxnWrite}
    (hw : w ∈ txn.written) : ∃ rec, Holding node.kv id txn.start_ts w rec ∧ Reads (txn.get_row node.kv w.key) rec.value := by
  obtain ⟨rec, hheld⟩ := (h.held id txn htxn hopen).2.2 w hw
  refine ⟨rec, hheld, Kv.get_row_own hheld.head hheld.version (h.heads_pos _ _ hheld.head) hheld.provisional ?_⟩
  rw [hheld.created_by, (h.ids id txn htxn).1]

/-- The head of a row that the transaction has not written is a conflict, or what the
    transaction reads of the row decides. -/
theorem check_write_head (h : Guarded node) (htxn : node.txns id = some txn)
    (hfind : (txn.written.find? fun w => w.key = key) = none) {head : Nat} {rec : VersionRecord}
    (hhead : node.kv.heads key = some head) (hrec : node.kv.versions key head = some rec) :
    (∃ msg, txn.check_write node.kv key is_insert = .error (.Conflict msg)) ∨
      txn.check_write node.kv key is_insert =
        (check_existing is_insert (txn.get_row node.kv key)).map fun _ => head := by
  have hpos := h.heads_pos key head hhead
  have hcheck : txn.check_write node.kv key is_insert = (do
      let prev_id ← txn.prev_of_head node.kv head rec
      txn.check_newest_committed node.kv key head head
      check_existing is_insert (txn.get_row node.kv key)
      return prev_id) := by
    rw [check_write, hhead]
    dsimp only
    rw [Kv.get_version_eq_ok.mpr hrec]
    rfl
  rw [hcheck]
  by_cases hzero : rec.start_ts = 0
  · -- an unstamped head belongs to another transaction under way
    obtain ⟨id', txn', htxn', hopen', w, hw, rfl⟩ := h.stamped key head rec hhead hrec hzero
    have hne : id' ≠ id := by
      rintro rfl
      cases htxn.symm.trans htxn'
      simpa using List.find?_eq_none.mp hfind w hw
    obtain ⟨hregistry, -, hws⟩ := h.held id' txn' htxn' hopen'
    obtain ⟨rec', hheld⟩ := hws w hw
    cases hhead.symm.trans hheld.head
    cases hrec.symm.trans hheld.version
    refine .inl ⟨"write-write conflict: key held by open txn", ?_⟩
    have hprev : txn.prev_of_head node.kv w.version_id rec =
        .error (.Conflict "write-write conflict: key held by open txn") := by
      have hmeta : node.kv.get_txn_meta rec.created_by = .ok { writes := txn'.written } := by
        rw [hheld.created_by, Kv.get_txn_meta, hregistry]
      have howner : rec.created_by ≠ txn.txn_id := by
        rw [hheld.created_by, (h.ids id txn htxn).1]
        exact hne
      rw [prev_of_head, if_pos (by simp [VersionRecord.is_provisional, hzero]), hmeta]
      exact if_pos ⟨rfl, howner⟩
    rw [hprev]
    rfl
  · have hstamped : rec.is_provisional = false := by simp [VersionRecord.is_provisional, hzero]
    have hprev : txn.prev_of_head node.kv head rec = .ok head := by
      rw [prev_of_head, hstamped]
      rfl
    have hnewest : txn.check_newest_committed node.kv key head head =
        if txn.start_ts < rec.start_ts then .error (.Conflict "write-write conflict: key committed after snapshot")
        else .ok () := by
      obtain ⟨n, rfl⟩ : ∃ n, head = n + 1 := Nat.exists_eq_add_one.mpr hpos
      rw [check_newest_committed, if_neg (Nat.succ_ne_zero n), Kv.get_version_eq_ok.mpr hrec]
      exact if_pos (by simp [hstamped])
    rw [hprev, hnewest]
    by_cases hlater : txn.start_ts < rec.start_ts
    · rw [if_pos hlater]
      exact .inl ⟨_, rfl⟩
    · rw [if_neg hlater]
      refine .inr ?_
      change (check_existing is_insert (txn.get_row node.kv key) >>= fun _ => pure head) = _
      cases check_existing is_insert (txn.get_row node.kv key) <;> rfl

/-- After a write the transaction reads what it wrote. -/
theorem rewrote_reads (h : Guarded node) (hkeyed : node.kv.Keyed) (htxn : node.txns id = some txn)
    {w : TxnWrite} {rec : VersionRecord} (hheld : Holding node.kv id txn.start_ts w rec) (is_delete : Bool) (row : Row) :
    Reads (txn.get_row (node.rewrote w rec is_delete row).kv w.key) (if is_delete then none else some row) := by
  have hid : rec.version_id = w.version_id := hkeyed w.key w.version_id rec hheld.version
  have hversion : (node.rewrote w rec is_delete row).kv.versions w.key w.version_id =
      some (Transaction.rewritten rec is_delete row) := by
    simp [Node.rewrote, Kv.apply, Transaction.rewritten, hid]
  have hvalue : (Transaction.rewritten rec is_delete row).value = if is_delete then none else some row := by
    cases is_delete <;> rfl
  have hreads := @Kv.get_row_own (node.rewrote w rec is_delete row).kv w.key txn.start_ts txn.txn_id
    (some (node.rewrote w rec is_delete row).kv.get_txn_meta) _ _ hheld.head hversion (h.heads_pos _ _ hheld.head)
    hheld.provisional (hheld.created_by.trans (h.ids id txn htxn).1.symm)
  rw [hvalue] at hreads
  exact hreads

theorem installed_reads (txn : Transaction) (hpos : 0 < node.db.next_version_id) (prev_id : Nat) (is_delete : Bool)
    (row : Row) :
    Reads ((txn.wrote node.db key).get_row (node.installed txn key prev_id is_delete row).kv key)
      (if is_delete then none else some row) := by
  have hhead : (node.installed txn key prev_id is_delete row).kv.heads key = some node.db.next_version_id :=
    Function.update_self ..
  have hversion : (node.installed txn key prev_id is_delete row).kv.versions key node.db.next_version_id =
      some (txn.new_version node.db prev_id is_delete row) := by
    simp [Node.installed, install_ops, Database.oracle_ops, Kv.apply, new_version]
  have hvalue : (txn.new_version node.db prev_id is_delete row).value = if is_delete then none else some row := by
    cases is_delete <;> rfl
  have hreads := @Kv.get_row_own (node.installed txn key prev_id is_delete row).kv key txn.start_ts txn.txn_id
    (some (node.installed txn key prev_id is_delete row).kv.get_txn_meta) _ _ hhead hversion hpos rfl rfl
  rw [hvalue] at hreads
  exact hreads

end Guarded

theorem Transaction.get_eq {kv : Kv} {db : Database} {txn : Transaction} {key : RowKey} (hopen : txn.finished = false)
    (htable : (db.catalog key.1).isSome) : txn.get kv db key.1 key.2 = txn.get_row kv key := by
  obtain ⟨schema, hschema⟩ := isSome_iff_exists.mp htable
  rw [Transaction.get, if_neg (by simp [hopen]), Database.get_table, hschema]
  rfl

theorem Node.row_call_kind {db : Database} {call : Call} {r : Node.RowCall}
    (hcall : Node.row_call db call = some r) : r.is_insert = true → r.is_delete = false := by
  cases call <;> cases hcall <;> simp

namespace Server

/-- A write that is no conflict succeeds exactly when what the transaction reads of the row
    allows it, and the transaction then reads what it wrote. -/
def FollowsView (server : Server) (call : Call) (r : Node.RowCall) (key : RowKey) (txn : Transaction) : Prop :=
  ∀ after status, server.step (.call call) = some (after, status) → (∀ msg, status ≠ .error (.Conflict msg)) →
    (status = .ok () ↔
      if r.is_insert then IsNotFound (txn.get server.disk.kv server.db key.1 key.2)
      else ∃ row, txn.get server.disk.kv server.db key.1 key.2 = .ok row) ∧
    (status = .ok () → ∃ txn', after.txns r.id = some txn' ∧
      Reads (txn'.get after.disk.kv after.db key.1 key.2) (if r.is_delete then none else some r.row))

/-- An update does not meet a row that its transaction has deleted, and an insert does not meet
    a head that names no version. -/
def Decided (kv : Kv) (txn : Transaction) (key : RowKey) (r : Node.RowCall) : Prop :=
  match txn.written.find? fun w => w.key = key with
  | some w => r.is_insert = false → r.is_delete = false →
      ∀ rec, kv.versions w.key w.version_id = some rec → rec.is_tombstone = false
  | none => r.is_insert = true → ∀ head, kv.heads key = some head → kv.versions key head ≠ none

variable {server : Server} {call : Call} {r : Node.RowCall} {key : RowKey} {txn : Transaction}

/-- After a write the transaction reads what it wrote, whether it was the first of its row or not. -/
theorem wrote_reads (h : Guarded server.node) (hkeyed : server.disk.kv.Keyed) (hpos : 0 < server.db.next_version_id)
    (htxn : server.txns r.id = some txn) (hopen : txn.finished = false) {outcome : WriteOutcome}
    (houtcome : txn.write_outcome server.disk.kv key r.is_delete r.is_insert = .ok outcome) :
    ∃ txn', (server.node.wrote_row txn key r.is_delete r.row (.ok outcome)).1.txns r.id = some txn' ∧
      txn'.finished = false ∧
      (server.node.wrote_row txn key r.is_delete r.row (.ok outcome)).1.db.catalog = server.db.catalog ∧
      Reads (txn'.get_row (server.node.wrote_row txn key r.is_delete r.row (.ok outcome)).1.kv key)
        (if r.is_delete then none else some r.row) := by
  cases outcome with
  | rewrite w rec =>
    obtain ⟨-, hw, rfl, hrec⟩ := write_outcome_rewrite houtcome
    obtain ⟨rec', hheld⟩ := (h.held r.id txn htxn hopen).2.2 w hw
    cases hrec.symm.trans hheld.version
    exact ⟨txn, htxn, hopen, rfl, h.rewrote_reads hkeyed htxn hheld r.is_delete r.row⟩
  | install prev_id =>
    refine ⟨txn.wrote server.db key, ?_, hopen, rfl, Guarded.installed_reads txn hpos prev_id r.is_delete r.row⟩
    have hid := (h.ids r.id txn htxn).1
    exact (congrArg _ hid.symm).trans (Function.update_self ..)

/-- The view that a write has to follow, over the outcome of its checks. -/
theorem followsView_iff (h : server.Orderly) (hcall : Node.row_call server.db call = some r) (hkey : r.key = .ok key)
    (htxn : server.txns r.id = some txn) (hopen : txn.finished = false) :
    server.FollowsView call r key txn ↔
      ((∃ msg, txn.write_outcome server.disk.kv key r.is_delete r.is_insert = .error (.Conflict msg)) ∨
        ((∃ outcome, txn.write_outcome server.disk.kv key r.is_delete r.is_insert = .ok outcome) ↔
          if r.is_insert then IsNotFound (txn.get_row server.disk.kv key)
          else ∃ row, txn.get_row server.disk.kv key = .ok row)) := by
  have htable := Node.row_call_table hcall hkey
  obtain ⟨writes, hlive⟩ := h.live
  have hget := @Transaction.get_eq server.disk.kv server.db txn key hopen htable
  -- the call is its checks and what they lead to
  have hnode : server.node.step call = some (server.node.wrote_row txn key r.is_delete r.row
      (txn.write_outcome server.disk.kv key r.is_delete r.is_insert)) := by
    rw [Node.row_step_eq hcall fun id txn htxn => (h.guarded.ids id txn htxn).1]
    simp only [node, htxn, map_some, Node.row_outcome, hkey]
  rw [FollowsView, hget]
  cases houtcome : txn.write_outcome server.disk.kv key r.is_delete r.is_insert with
  | error s =>
    rw [houtcome] at hnode
    obtain ⟨after, hstep, -⟩ := @step_of_node server (.error s) call server.node hnode
    refine ⟨fun hfollows => ?_, fun hview after' status' hstep' hconflict => ?_⟩
    · by_cases hconflict : ∃ msg, s = .Conflict msg
      · obtain ⟨msg, rfl⟩ := hconflict
        exact .inl ⟨msg, rfl⟩
      · have hiff := (hfollows after _ hstep fun msg heq => hconflict ⟨msg, Except.error.inj heq⟩).1
        refine .inr (Iff.trans ?_ hiff)
        simp
    · rw [hstep] at hstep'
      cases hstep'
      rcases hview with ⟨msg, hmsg⟩ | hiff
      · exact absurd (congrArg Except.error (Except.error.inj hmsg)) (hconflict msg)
      · refine ⟨Iff.trans ?_ hiff, fun hok => by cases hok⟩
        simp
  | ok outcome =>
    obtain ⟨txn', htxn', hopen', hcatalog, hreads⟩ := wrote_reads h.guarded hlive.traced.keyed hlive.pos htxn hopen houtcome
    have hok : server.node.wrote_row txn key r.is_delete r.row (.ok outcome) =
        ((server.node.wrote_row txn key r.is_delete r.row (.ok outcome)).1, .ok ()) := by
      cases outcome <;> rfl
    rw [houtcome, hok] at hnode
    obtain ⟨after, hstep, hafter⟩ := step_of_node hnode
    rw [← hafter] at htxn' hcatalog hreads
    have hread : txn'.get after.disk.kv after.db key.1 key.2 = txn'.get_row after.disk.kv key :=
      get_eq hopen' (by rw [show after.db.catalog = server.db.catalog from hcatalog]; exact htable)
    refine ⟨fun hfollows => ?_, fun hview after' status' hstep' _ => ?_⟩
    · have hiff := (hfollows after _ hstep (by simp)).1
      refine .inr (Iff.trans ?_ hiff)
      simp
    · rw [hstep] at hstep'
      cases hstep'
      rcases hview with ⟨msg, hmsg⟩ | hiff
      · cases hmsg
      · refine ⟨Iff.trans ?_ hiff, fun _ => ⟨txn', htxn', by rw [hread]; exact hreads⟩⟩
        simp

/-- In every run without a crash a write follows its transaction's view, except for an update of
    a row that the transaction deleted and an insert under a head whose version is gone. What is
    written up to the call and by it fits the records, so that both reads find it again. -/
theorem write_follows_view_iff {commands : List Command}
    (hrun : System.run (.down {}) (Action.session commands) = some (.up server))
    (hfits : System.fits (Action.session (commands ++ [.call call])) = true)
    (hcall : Node.row_call server.db call = some r) (hkey : r.key = .ok key) (htxn : server.txns r.id = some txn)
    (hopen : txn.finished = false) :
    server.disk.kv.ReadFrom (System.bytes (Action.session commands)) ∧
      (∀ after status, server.step (.call call) = some (after, status) →
        after.disk.kv.ReadFrom (System.bytes (Action.session (commands ++ [.call call])))) ∧
      (server.FollowsView call r key txn ↔ Decided server.disk.kv txn key r) := by
  have hfits' : System.fits (Action.session commands) = true :=
    @System.fits_of_append _ [.command (.call call)] (by simpa [Action.session] using hfits)
  refine ⟨System.readFrom_run hrun hfits', fun after status hstep => ?_, ?_⟩
  · refine System.readFrom_later hrun hfits ?_
    simp [System.run, System.step, hstep]
  have horderly := Orderly.session hrun
  have hguarded := horderly.guarded
  have hkind := Node.row_call_kind hcall
  rw [followsView_iff horderly hcall hkey htxn hopen, Decided]
  cases hfind : txn.written.find? fun w => w.key = key with
  | some w =>
    have hw : w ∈ txn.written := List.mem_of_find?_eq_some hfind
    obtain rfl : w.key = key := by simpa using List.find?_some hfind
    obtain ⟨rec, hheld, hreads⟩ := hguarded.own_reads htxn hopen hw
    have hversion : server.disk.kv.versions w.key w.version_id = some rec := hheld.version
    rw [write_outcome_own hopen hfind hversion]
    have hview : (if r.is_insert then IsNotFound (txn.get_row server.disk.kv w.key)
        else ∃ row, txn.get_row server.disk.kv w.key = .ok row) ↔ r.is_insert = rec.is_tombstone := by
      have hreads : Reads (txn.get_row server.disk.kv w.key) rec.value := hreads
      rw [VersionRecord.value] at hreads
      cases htombstone : rec.is_tombstone <;> rw [htombstone] at hreads
      · have hrow : txn.get_row server.disk.kv w.key = .ok rec.payload := hreads
        cases r.is_insert <;> simp [hrow, IsNotFound]
      · obtain ⟨msg, hmsg⟩ : IsNotFound (txn.get_row server.disk.kv w.key) := hreads
        cases r.is_insert <;> simp [hmsg, IsNotFound]
    rw [hview]
    simp only [hversion, Option.some.injEq, forall_eq']
    cases hinsert : r.is_insert <;> cases hdelete : r.is_delete <;> cases htombstone : rec.is_tombstone <;>
      simp_all [check_rewrite, Except.map, Status.Conflict, Status.InvalidArgument, Status.NotFound]
  | none =>
    rw [write_outcome_first hopen hfind]
    cases hhead : server.disk.kv.heads key with
    | none =>
      have hmiss : txn.get_row server.disk.kv key = .error (.NotFound "row not found") := by
        rw [get_row, Kv.get_row, hhead]
      have hcheck : txn.check_write server.disk.kv key r.is_insert =
          if r.is_insert then .ok 0 else .error (.NotFound "row not found") := by
        rw [check_write, hhead]
      rw [hcheck, hmiss]
      cases r.is_insert <;> simp [Except.map, IsNotFound]
    | some head =>
      cases hrec : server.disk.kv.versions key head with
      | none =>
        have hversion : server.disk.kv.get_version key head = .error (.NotFound "") := by rw [Kv.get_version, hrec]
        have hmiss : txn.get_row server.disk.kv key = .error (.NotFound "") := by
          obtain ⟨n, rfl⟩ : ∃ n, head = n + 1 := Nat.exists_eq_add_one.mpr (hguarded.heads_pos key head hhead)
          rw [get_row, Kv.get_row, hhead]
          dsimp only
          rw [Kv.visible_version, if_neg (Nat.succ_ne_zero n), hversion]
        have hcheck : txn.check_write server.disk.kv key r.is_insert = .error (.NotFound "") := by
          rw [check_write, hhead]
          dsimp only
          rw [hversion]
          rfl
        rw [hcheck, hmiss]
        cases r.is_insert <;> simp [Except.map, IsNotFound, hrec, Status.Conflict, Status.NotFound]
      | some rec =>
        have hdecided : r.is_insert = true → ∀ head', some head = some head' → server.disk.kv.versions key head' ≠ none := by
          rintro - head' heq
          cases heq
          rw [hrec]
          exact some_ne_none rec
        refine iff_of_true ?_ hdecided
        rcases @Guarded.check_write_head _ _ _ _ r.is_insert hguarded htxn hfind _ _ hhead hrec with ⟨msg, hconflict⟩ | hcheck
        · exact .inl ⟨msg, congrArg _ hconflict⟩
        · refine .inr ?_
          have hcheck : txn.check_write server.disk.kv key r.is_insert =
            (check_existing r.is_insert (txn.get_row server.disk.kv key)).map fun _ => head := hcheck
          rw [hcheck, ← check_existing_iff]
          cases check_existing r.is_insert (txn.get_row server.disk.kv key) <;> simp [Except.map]

/-- A row deleted and written again by one transaction. -/
def deletedByOwner : List Command :=
  [.ddl (.create_table numbersTable), .call .begin_txn, .call (.insert 1 "t" [.int64 7, .int64 0]),
    .call (.delete 1 "t" (.int64 7))]

/-- A delete after the insert of its own transaction follows the view. -/
theorem write_follows_view_delete : ∃ server txn,
    System.run (.down {}) (Action.session (deletedByOwner.take 3)) = some (.up server) ∧ server.txns 1 = some txn ∧
      txn.finished = false ∧ server.FollowsView (.delete 1 "t" (.int64 7))
        ⟨1, table_key server.db "t" (.int64 7), true, [], false⟩ ("t", .int64 7) txn := by
  have hfits : System.fits (Action.session (deletedByOwner.take 3 ++ [.call (.delete 1 "t" (.int64 7))])) = true := by
    decide +kernel
  refine ⟨_, _, rfl, rfl, rfl,
    (@write_follows_view_iff _ _ _ _ _ (deletedByOwner.take 3) rfl hfits rfl rfl rfl rfl).2.2.mpr ?_⟩
  intro _ hdelete
  cases hdelete

/-- A transaction reads no row and yet updates it. -/
theorem update_of_own_deleted_row : ∃ server txn after,
    System.run (.down {}) (Action.session deletedByOwner) = some (.up server) ∧ server.txns 1 = some txn ∧
      txn.finished = false ∧
      txn.get server.disk.kv server.db "t" (.int64 7) = .error (.NotFound "row deleted at snapshot") ∧
      server.step (.call (.update 1 "t" [.int64 7, .int64 1])) = some (after, .ok ()) :=
  ⟨_, _, _, rfl, rfl, rfl, rfl, rfl⟩

end Server

end reldb
