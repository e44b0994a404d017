import LsmKv.Reldb.Calls
import LsmKv.Reldb.DdlPrograms
import LsmKv.Reldb.Rewrites
import LsmKv.Reldb.Server

namespace reldb

open lsmkv (Status)
open effects (applyAll)
open effects.Prog (bind_result)
open Function Finset

/-- What a call leaves in memory: a transaction is new, goes on or ends. -/
structure Leaves (node : Node) (db' : Database) (txn' : Transaction) : Prop where
  catalog : db'.catalog = node.db.catalog
  next_ts : node.db.next_ts ≤ db'.next_ts
  change :
    (txn' = { txn_id := node.db.next_txn_id, start_ts := node.db.next_ts - 1 } ∧
      db'.next_txn_id = node.db.next_txn_id + 1 ∧ db'.open_txn_count = node.db.open_txn_count + 1) ∨
    ∃ id txn, node.txns id = some txn ∧ txn'.txn_id = txn.txn_id ∧ txn'.start_ts = txn.start_ts ∧
      db'.next_txn_id = node.db.next_txn_id ∧
      ((txn'.finished = txn.finished ∧ db'.open_txn_count = node.db.open_txn_count) ∨
        (txn.finished = false ∧ txn'.finished = true ∧ db'.open_txn_count = node.db.open_txn_count - 1))

namespace Database

variable {db db' : Database} {kv : Kv}

/-- Of the memory, recovery moves the timestamps only. -/
theorem recover_txn_result {id : Nat} (h : (db.recover_txn id kv).2 = .ok db') :
    db' = { db with next_ts := db'.next_ts } := by
  obtain ⟨txn_meta?, -, h⟩ := bind_result h
  cases txn_meta? with
  | none =>
    cases h
    rfl
  | some txn_meta =>
    obtain ⟨state, commit_ts, writes⟩ := txn_meta
    cases state with
    | kCommitting =>
      dsimp only at h
      split at h
      · cases h
      obtain ⟨_, -, h⟩ := bind_result h
      obtain ⟨_, -, h⟩ := bind_result h
      split at h
      · obtain ⟨_, -, h⟩ := bind_result h
        cases h
        rfl
      · cases h
        rfl
    | kOpen =>
      obtain ⟨_, -, h⟩ := bind_result h
      obtain ⟨_, -, h⟩ := bind_result h
      cases h
      rfl
    | _ =>
      cases h
      rfl

theorem recover_loop_result {n id : Nat} (h : (recover_loop n id db kv).2 = .ok db') :
    db' = { db with next_ts := db'.next_ts } := by
  induction n generalizing id db kv with
  | zero =>
    cases h
    rfl
  | succ n ih =>
    obtain ⟨db'', hround, h⟩ := bind_result h
    rw [ih h, recover_txn_result hround]

/-- A process that opened the store has its catalog and no transaction under way. -/
theorem open_db_result {catalog : String → Option TableSchema} (h : (open_db catalog kv).2 = .ok db') :
    db'.catalog = catalog ∧ db'.open_txn_count = 0 ∧ db'.ddl_in_progress = false := by
  obtain ⟨db, hinit, h⟩ := bind_result h
  rw [recover_loop_result h]
  cases hinit
  exact ⟨rfl, rfl, rfl⟩

end Database

namespace Node

variable {node : Node} {call : Call} {p : KvProg (Database × Transaction × Except Status Unit)} {db' : Database}
  {txn' : Transaction} {status : Except Status Unit}

theorem prog_leaves (hprog : node.prog call = some p) (hresult : (p node.kv).2 = .ok (db', txn', status)) :
    Leaves node db' txn' := by
  have hcomes := prog_comes hprog
  generalize p node.kv = run at hcomes hresult
  cases hcomes with
  | fails | stuck => cases hresult
  | begins hddl =>
    cases hresult
    exact ⟨rfl, le_rfl, .inl ⟨rfl, rfl, rfl⟩⟩
  | rewrites _ _ htxn | installs _ _ htxn | skips htxn =>
    cases hresult
    exact ⟨rfl, le_rfl, .inr ⟨_, _, htxn, rfl, rfl, rfl, .inl ⟨rfl, rfl⟩⟩⟩
  | aborts htxn hopen | conflicts htxn hopen =>
    cases hresult
    exact ⟨rfl, le_rfl, .inr ⟨_, _, htxn, rfl, rfl, rfl, .inr ⟨hopen, rfl, rfl⟩⟩⟩
  | commits htxn hopen =>
    rcases Transaction.commit_writes_result hresult with ⟨rfl, rfl⟩ | hmarked
    · exact ⟨rfl, Nat.le_succ _, .inr ⟨_, _, htxn, rfl, rfl, rfl, .inl ⟨rfl, rfl⟩⟩⟩
    · cases hmarked
      exact ⟨rfl, Nat.le_succ _, .inr ⟨_, _, htxn, rfl, rfl, rfl, .inr ⟨hopen, rfl, rfl⟩⟩⟩

/-- A call that fails leaves memory as it was. -/
theorem step_leaves {after : Node} (hstep : node.step call = some (after, status)) :
    (after.db = node.db ∧ after.txns = node.txns) ∨
      ∃ txn', after.txns = update node.txns txn'.txn_id (some txn') ∧ Leaves node after.db txn' := by
  obtain ⟨p, hprog, hrun⟩ := Option.map_eq_some_iff.mp hstep
  cases hcase : p node.kv with
  | mk ops result =>
  rw [hcase] at hrun
  cases result with
  | error s =>
    cases hrun
    exact .inl ⟨rfl, rfl⟩
  | ok r =>
    obtain ⟨db', txn', status'⟩ := r
    cases hrun
    exact .inr ⟨txn', rfl, prog_leaves hprog (by rw [hcase])⟩

def unfinished (node : Node) (id : Nat) : Bool :=
  match node.txns id with
  | some txn => !txn.finished
  | none => false

/-- The database knows how many transactions are under way. -/
structure Counted (node : Node) : Prop where
  ids : ∀ id txn, node.txns id = some txn → txn.txn_id = id ∧ id < node.db.next_txn_id
  count : node.db.open_txn_count = ((Finset.range node.db.next_txn_id).filter fun id => node.unfinished id).card

theorem Counted.none_open (h : node.Counted) (hzero : node.db.open_txn_count = 0) {id : Nat} {txn : Transaction}
    (htxn : node.txns id = some txn) : txn.finished = true := by
  by_contra hopen
  have hmem : id ∈ (Finset.range node.db.next_txn_id).filter fun id => node.unfinished id := by
    rw [mem_filter, mem_range]
    exact ⟨(h.ids id txn htxn).2, by simp [unfinished, htxn, hopen]⟩
  rw [card_eq_zero.mp (h.count.symm.trans hzero)] at hmem
  exact absurd hmem (notMem_empty id)

theorem unfinished_update {node after : Node} {txn' : Transaction}
    (htxns : after.txns = update node.txns txn'.txn_id (some txn')) (id : Nat) :
    after.unfinished id = if id = txn'.txn_id then !txn'.finished else node.unfinished id := by
  rw [unfinished, htxns]
  by_cases heq : id = txn'.txn_id
  · subst heq
    rw [update_self, if_pos rfl]
  · rw [update_of_ne heq, if_neg heq]
    rfl

theorem Counted.step {after : Node} (h : node.Counted) (hstep : node.step call = some (after, status)) :
    after.Counted := by
  rcases step_leaves hstep with ⟨hdb, htxns⟩ | ⟨txn', htxns, hleaves⟩
  · have hsame : ∀ id, after.unfinished id = node.unfinished id := fun id => by rw [unfinished, htxns]; rfl
    refine ⟨fun id txn htxn => ?_, ?_⟩
    · rw [hdb]
      exact h.ids id txn (by rw [← htxns]; exact htxn)
    · simp only [hsame, hdb]
      exact h.count
  · have hunfinished := unfinished_update htxns
    rcases hleaves.change with ⟨rfl, hnext, hcount⟩ | ⟨id, txn, htxn, hid, -, hnext, hdone⟩
    · refine ⟨fun id txn htxn => ?_, ?_⟩
      · rw [htxns] at htxn
        rcases update_some_cases htxn with ⟨rfl, rfl⟩ | ⟨-, htxn⟩
        · exact ⟨rfl, by rw [hnext]; exact Nat.lt_succ_self _⟩
        · exact ⟨(h.ids id txn htxn).1, by rw [hnext]; exact Nat.lt_succ_of_lt (h.ids id txn htxn).2⟩
      · -- the new transaction is the only one that is added
        have hold : (Finset.range node.db.next_txn_id).filter (fun id => after.unfinished id) =
            (Finset.range node.db.next_txn_id).filter fun id => node.unfinished id := by
          refine filter_congr fun id hid => ?_
          rw [hunfinished, if_neg (mem_range.mp hid).ne]
        have hnew : after.unfinished node.db.next_txn_id = true := by
          rw [hunfinished, if_pos rfl]
          rfl
        rw [hcount, hnext, range_add_one, filter_insert, if_pos hnew, hold,
          card_insert_of_notMem (by simp), h.count]
    · obtain ⟨hid', hlt⟩ := h.ids id txn htxn
      rw [hid'] at hid
      rw [hid] at htxns hunfinished
      have hbefore : node.unfinished id = !txn.finished := by rw [unfinished, htxn]
      refine ⟨fun id' txn'' htxn'' => ?_, ?_⟩
      · rw [htxns] at htxn''
        rw [hnext]
        rcases update_some_cases htxn'' with ⟨rfl, rfl⟩ | ⟨-, hold⟩
        · exact ⟨hid, hlt⟩
        · exact h.ids id' txn'' hold
      · rcases hdone with ⟨hfinished, hcount⟩ | ⟨hopen, hfinished, hcount⟩
        · have hsame : ∀ id', after.unfinished id' = node.unfinished id' := by
            intro id'
            rw [hunfinished]
            split
            · next heq => rw [heq, hbefore, hfinished]
            · rfl
          simp only [hsame, hnext, hcount]
          exact h.count
        · have hrest : (Finset.range node.db.next_txn_id).filter (fun id' => after.unfinished id') =
              ((Finset.range node.db.next_txn_id).filter fun id' => node.unfinished id').erase id := by
            ext id'
            simp only [mem_filter, mem_erase, hunfinished]
            by_cases heq : id' = id
            · simp [heq, hfinished]
            · simp [heq]
          have hmem : id ∈ (Finset.range node.db.next_txn_id).filter fun id' => node.unfinished id' := by
            rw [mem_filter, mem_range, hbefore, hopen]
            exact ⟨hlt, rfl⟩
          rw [hnext, hrest, card_erase_of_mem hmem, hcount, h.count]

end Node

namespace Server

/-- The memory of a process agrees with its store and its transactions. -/
structure Sound (server : Server) : Prop where
  catalog : server.db.catalog = server.disk.tables
  counted : server.node.Counted

variable {server after : Server} {status : Except Status Unit}

theorem Sound.step (h : server.Sound) {command : Command} (hstep : server.step command = some (after, status)) :
    after.Sound := by
  cases command with
  | call call =>
    obtain ⟨ops, -, hnode, hdisk⟩ := step_call hstep
    refine ⟨?_, h.counted.step hnode⟩
    rw [hdisk, Disk.applyAll_tables, ← h.catalog]
    rcases Node.step_leaves hnode with ⟨hdb, -⟩ | ⟨txn', -, hleaves⟩
    · exact congrArg Database.catalog hdb
    · exact hleaves.catalog
  | ddl ddl =>
    obtain ⟨ops, db', status', hrun, hleaves⟩ := @Ddl.leaves server.db server.disk ddl
    obtain ⟨rfl, -⟩ := ddl_after hrun hstep
    refine ⟨hleaves.catalog h.catalog, ?_, ?_⟩
    · show ∀ id txn, server.txns id = some txn → txn.txn_id = id ∧ id < db'.next_txn_id
      rw [hleaves.next_txn_id]
      exact h.counted.ids
    · show db'.open_txn_count = ((Finset.range db'.next_txn_id).filter _).card
      rw [hleaves.next_txn_id, hleaves.open_txn_count]
      exact h.counted.count

/-- A process that opened the store. -/
theorem sound_opened {disk : Disk} {ops : List KvOp} {db : Database}
    (hopen : Database.open_db disk.tables disk.kv = (ops, .ok db)) :
    Sound { disk := applyAll disk (ops.map .kv), db := db } := by
  obtain ⟨hcatalog, hcount, -⟩ := Database.open_db_result (by rw [hopen])
  refine ⟨?_, by rintro id txn ⟨⟩, ?_⟩
  · rw [Disk.applyAll_tables]
    exact hcatalog
  · show db.open_txn_count = _
    rw [hcount, eq_comm, card_eq_zero, filter_eq_empty_iff]
    rintro id -
    exact Bool.false_ne_true

end Server

end reldb
