import LsmKv.Reldb.Calls
import LsmKv.Reldb.Recoverable

namespace reldb

open lsmkv (Status)
open effects (applyAll Each)
open effects.Prog (Writes)
open Database

/-- The same version, changed: its place in the chain and its owner stay, and so does a
    timestamp that it has. -/
structure VersionRecord.Same (rec cur : VersionRecord) : Prop where
  prev_id : rec.prev_id = cur.prev_id
  created_by : rec.created_by = cur.created_by
  start_ts : cur.start_ts = 0 ∨ rec.start_ts = cur.start_ts

/-- A write that installs no version: a version is changed where it is, and a head goes
    back to the version before. The counters of transactions and of versions are saved as
    given. -/
def KvOp.Rewrites (next_txn next_vid : Nat) (kv : Kv) : KvOp → Prop
  | .put_version_value key rec => ∃ cur, kv.versions key rec.version_id = some cur ∧ rec.Same cur
  | .set_head key version_id => version_id ≠ 0 ∧ ∃ head cur, kv.heads key = some head ∧
      kv.versions key head = some cur ∧ cur.prev_id = version_id
  | .put_next_txn v => v = next_txn
  | .put_next_vid v => v = next_vid
  | _ => True

/-- The counter of transactions is left alone or saved as given. -/
theorem KvOp.Rewrites.next_txn {next_txn next_vid : Nat} {kv : Kv} {ops : List KvOp}
    (h : Each (KvOp.Rewrites next_txn next_vid) kv ops) :
    (applyAll kv ops).next_txn = some next_txn ∨
      ((applyAll kv ops).next_txn = kv.next_txn ∧ .put_next_txn next_txn ∉ ops) := by
  induction ops generalizing kv with
  | nil => exact .inr ⟨rfl, List.not_mem_nil⟩
  | cons op ops ih =>
    rcases ih h.2 with hsaved | ⟨hsame, hnot⟩
    · exact .inl hsaved
    · cases op with
      | put_next_txn v =>
        have hv : v = next_txn := h.1
        subst hv
        exact .inl hsame
      | _ => exact .inr ⟨hsame, by simpa using hnot⟩

/-- Versions are stored under their ids. -/
def Kv.Keyed (kv : Kv) : Prop := ∀ k v rec, kv.versions k v = some rec → rec.version_id = v

theorem Kv.Keyed.apply {kv : Kv} (h : kv.Keyed) (op : KvOp) : (kv.apply op).Keyed := by
  cases op with
  | put_version_value key rec =>
    intro k v rec' hversion
    rw [Kv.versions_put] at hversion
    split at hversion
    · next heq =>
      cases hversion
      exact heq.2.symm
    · exact h k v rec' hversion
  | _ => exact h

theorem Kv.Keyed.applyAll {kv : Kv} (h : kv.Keyed) (ops : List KvOp) : (applyAll kv ops).Keyed := by
  induction ops generalizing kv with
  | nil => exact h
  | cons op ops ih => exact ih (h.apply op)

namespace Database

variable {next_txn next_vid : Nat} {db : Database}

theorem persist_oracles_rewrites (htxn : db.next_txn_id = next_txn) (hvid : db.next_version_id = next_vid) :
    Writes Kv.Keyed db.persist_oracles (fun _ => Kv.Keyed) (KvOp.Rewrites next_txn next_vid) := by
  intro kv hkeyed
  exact ⟨⟨trivial, htxn, hvid, trivial⟩, fun _ _ => hkeyed⟩

theorem restore_head_rewrites (w : TxnWrite) :
    Writes Kv.Keyed (restore_head w) (fun _ => Kv.Keyed) (KvOp.Rewrites next_txn next_vid) := by
  refine Writes.bind (Q := fun head kv => kv.Keyed ∧ kv.heads w.key = head) (.look fun kv hkeyed => ⟨hkeyed, rfl⟩)
    fun head => ?_
  cases head with
  | none => exact .pure _ fun kv h => h.1
  | some head =>
    dsimp only
    split
    · exact .pure _ fun kv h => h.1
    · next heq =>
      have hid : head = w.version_id := not_not.mp heq
      refine Writes.bind (Q := fun rec kv => kv.Keyed ∧ kv.heads w.key = some head ∧
        kv.versions w.key head = some rec) (.query fun kv h rec hrec => ⟨h.1, h.2, ?_⟩) fun rec => ?_
      · rw [hid]
        exact Kv.get_version_eq_ok.mp hrec
      · split
        · exact .perform (fun _ _ => trivial) fun kv h => h.1.apply _
        · next hpos =>
          exact .perform (fun kv h => ⟨hpos, head, rec, h.2.1, h.2.2, rfl⟩) fun kv h => h.1.apply _

theorem restore_heads_rewrites (writes : List TxnWrite) :
    Writes Kv.Keyed (restore_heads writes) (fun _ => Kv.Keyed) (KvOp.Rewrites next_txn next_vid) :=
  Writes.forEach (I := fun _ => Kv.Keyed) (fun w _ => restore_head_rewrites w) writes.reverse

/-- A provisional version is not what a commit closes. -/
theorem close_prev_rewrites (key : RowKey) (prev_id commit_ts : Nat) {rec : VersionRecord} {v : Nat}
    (hprovisional : rec.start_ts = 0) :
    Writes (fun kv => kv.Keyed ∧ kv.versions key v = some rec) (close_prev key prev_id commit_ts)
      (fun _ kv => kv.Keyed ∧ kv.versions key v = some rec) (KvOp.Rewrites next_txn next_vid) := by
  rintro kv ⟨hkeyed, hrec⟩
  rw [close_prev_run, close_ops]
  cases hprev : kv.versions key prev_id with
  | none => exact ⟨trivial, fun _ _ => ⟨hkeyed, hrec⟩⟩
  | some prev =>
    dsimp only
    split
    · next hlive =>
      have hid := hkeyed key prev_id prev hprev
      refine ⟨⟨⟨prev, by rw [← hid] at hprev; exact hprev, rfl, rfl, .inr rfl⟩, trivial⟩,
        fun _ _ => ⟨hkeyed.applyAll _, ?_⟩⟩
      have hne : ¬ (key = key ∧ v = prev.version_id) := by
        rintro ⟨-, rfl⟩
        rw [hid] at hrec
        cases hprev.symm.trans hrec
        exact hlive.2.1 hprovisional
      show (kv.apply (.put_version_value key { prev with end_ts := commit_ts })).versions key v = some rec
      rw [Kv.versions_put, if_neg hne]
      exact hrec
    · exact ⟨trivial, fun _ _ => ⟨hkeyed, hrec⟩⟩

theorem apply_commit_write_rewrites (txn_id commit_ts : Nat) (w : TxnWrite) :
    Writes Kv.Keyed (apply_commit_write txn_id commit_ts w) (fun _ => Kv.Keyed) (KvOp.Rewrites next_txn next_vid) := by
  refine Writes.bind (Q := fun rec kv => kv.Keyed ∧ kv.versions w.key w.version_id = some rec)
    (.query fun kv h rec hrec => ⟨h, Kv.get_version_eq_ok.mp hrec⟩) fun rec => ?_
  split
  · exact .fail _
  split
  · split
    · exact .fail _
    · exact .pure _ fun kv h => h.1
  · next hstamped =>
    have hprovisional : rec.start_ts = 0 := by simpa [VersionRecord.is_provisional] using hstamped
    refine (close_prev_rewrites w.key rec.prev_id commit_ts hprovisional).bind fun _ => ?_
    refine .perform (fun kv h => ⟨rec, ?_, rfl, rfl, .inl hprovisional⟩) fun kv h => h.1.apply _
    show kv.versions w.key rec.version_id = some rec
    rw [h.1 _ _ _ h.2]
    exact h.2

theorem apply_commit_writes_rewrites (txn_id commit_ts : Nat) (writes : List TxnWrite) :
    Writes Kv.Keyed (apply_commit_writes txn_id commit_ts writes) (fun _ => Kv.Keyed) (KvOp.Rewrites next_txn next_vid) :=
  Writes.forEach (I := fun _ => Kv.Keyed) (fun w _ => apply_commit_write_rewrites txn_id commit_ts w) writes

theorem put_txn_meta_rewrites (id : Nat) (txn_meta : TxnMeta) :
    Writes Kv.Keyed (effects.Prog.perform (.put_txn_meta id txn_meta) : KvProg Unit) (fun _ => Kv.Keyed)
      (KvOp.Rewrites next_txn next_vid) :=
  .perform (fun _ _ => trivial) fun _ h => h.apply _

theorem recover_txn_rewrites (hcounters : db.next_txn_id = next_txn ∧ db.next_version_id = next_vid) (id : Nat) :
    Writes Kv.Keyed (db.recover_txn id)
      (fun db' kv => kv.Keyed ∧ db'.next_txn_id = next_txn ∧ db'.next_version_id = next_vid)
      (KvOp.Rewrites next_txn next_vid) := by
  refine Writes.bind (Q := fun _ => Kv.Keyed) (.look fun _ h => h) fun txn_meta? => ?_
  cases txn_meta? with
  | none => exact .pure _ fun _ h => ⟨h, hcounters⟩
  | some txn_meta =>
    dsimp only
    split
    · split
      · exact .fail _
      · refine (apply_commit_writes_rewrites _ _ _).bind fun _ => (put_txn_meta_rewrites _ _).bind fun _ => ?_
        split
        · refine Writes.bind (persist_oracles_rewrites ?_ ?_) fun _ => .pure _ fun _ h => ⟨h, hcounters⟩
          · exact hcounters.1
          · exact hcounters.2
        · exact .pure _ fun _ h => ⟨h, hcounters⟩
    · exact (restore_heads_rewrites _).bind fun _ => (put_txn_meta_rewrites _ _).bind fun _ =>
        .pure _ fun _ h => ⟨h, hcounters⟩
    · exact .pure _ fun _ h => ⟨h, hcounters⟩

theorem recover_loop_rewrites (n id : Nat) (hcounters : db.next_txn_id = next_txn ∧ db.next_version_id = next_vid) :
    Writes Kv.Keyed (recover_loop n id db)
      (fun db' kv => kv.Keyed ∧ db'.next_txn_id = next_txn ∧ db'.next_version_id = next_vid)
      (KvOp.Rewrites next_txn next_vid) := by
  induction n generalizing id db with
  | zero => exact .pure _ fun _ h => ⟨h, hcounters⟩
  | succ n ih =>
    refine (recover_txn_rewrites hcounters id).bind fun db' => ?_
    by_cases hcounters' : db'.next_txn_id = next_txn ∧ db'.next_version_id = next_vid
    · exact (ih (id + 1) hcounters').conseq (fun _ h => h.1) fun _ _ h => h
    · exact fun _ h => absurd h.2 hcounters'

/-- `Open` installs nothing and keeps the counters of transactions and of versions. -/
theorem open_db_rewrites (catalog : String → Option TableSchema) (kv : Kv) (hkeyed : kv.Keyed) :
    Each (KvOp.Rewrites (load kv.next_txn 1) (load kv.next_vid 1)) kv (open_db catalog kv).1 ∧
      ∀ db, (open_db catalog kv).2 = .ok db →
        db.next_txn_id = load kv.next_txn 1 ∧ db.next_version_id = load kv.next_vid 1 := by
  have hopen : Writes (fun kv' => kv'.Keyed ∧ load kv'.next_txn 1 = load kv.next_txn 1 ∧
        load kv'.next_vid 1 = load kv.next_vid 1) (open_db catalog)
      (fun db kv' => kv'.Keyed ∧ db.next_txn_id = load kv.next_txn 1 ∧ db.next_version_id = load kv.next_vid 1)
      (KvOp.Rewrites (load kv.next_txn 1) (load kv.next_vid 1)) := by
    refine Writes.bind (Q := fun db kv' => kv'.Keyed ∧ db.next_txn_id = load kv.next_txn 1 ∧
      db.next_version_id = load kv.next_vid 1) ?_ fun db => ?_
    · rintro kv' ⟨hkeyed', hcounters⟩
      refine ⟨⟨trivial, hcounters.1, hcounters.2, trivial⟩, fun db hdb => ?_⟩
      cases hdb
      exact ⟨hkeyed', hcounters⟩
    · by_cases hcounters : db.next_txn_id = load kv.next_txn 1 ∧ db.next_version_id = load kv.next_vid 1
      · exact (recover_loop_rewrites _ _ hcounters).conseq (fun _ h => h.1) fun _ _ h => h
      · exact fun _ h => absurd h.2 hcounters
  obtain ⟨heach, hresult⟩ := hopen kv ⟨hkeyed, rfl, rfl⟩
  exact ⟨heach, fun db hdb => (hresult db hdb).2⟩

end Database

namespace Transaction

variable {next_txn next_vid : Nat} {db : Database} {txn : Transaction}

theorem roll_back_rewrites (hcounters : db.next_txn_id = next_txn ∧ db.next_version_id = next_vid) :
    Writes Kv.Keyed (txn.roll_back db)
      (fun r kv => kv.Keyed ∧ r.1.next_txn_id = next_txn ∧ r.1.next_version_id = next_vid)
      (KvOp.Rewrites next_txn next_vid) :=
  (restore_heads_rewrites _).bind fun _ => (put_txn_meta_rewrites _ _).bind fun _ =>
    .pure _ fun _ h => ⟨h, hcounters⟩

theorem commit_writes_rewrites (hcounters : db.next_txn_id = next_txn ∧ db.next_version_id = next_vid) :
    Writes Kv.Keyed (txn.commit_writes db)
      (fun r kv => kv.Keyed ∧ r.1.next_txn_id = next_txn ∧ r.1.next_version_id = next_vid)
      (KvOp.Rewrites next_txn next_vid) := by
  refine (put_txn_meta_rewrites _ _).bind fun _ => ?_
  refine Writes.bind (Q := fun _ => Kv.Keyed) ((apply_commit_writes_rewrites _ _ _).attempt
    (fun _ _ h => h) fun _ _ h _ => h.applyAll _) fun outcome => ?_
  cases outcome with
  | error s => exact .pure _ fun _ h => ⟨h, hcounters⟩
  | ok _ =>
    refine (put_txn_meta_rewrites _ _).bind fun _ => ?_
    refine Writes.bind (persist_oracles_rewrites ?_ ?_) fun _ => .pure _ fun _ h => ⟨h, hcounters⟩
    · exact hcounters.1
    · exact hcounters.2

end Transaction

namespace Node

variable {node : Node} {call : Call} {p : KvProg (Database × Transaction × Except Status Unit)}

/-- A program that only changes what is there, and begins a transaction at most. -/
def OnlyRewrites (node : Node) (p : KvProg (Database × Transaction × Except Status Unit)) : Prop :=
  ∃ next_txn, node.db.next_txn_id ≤ next_txn ∧
    (next_txn = node.db.next_txn_id ∨ .put_next_txn next_txn ∈ (p node.kv).1) ∧
    Each (KvOp.Rewrites next_txn node.db.next_version_id) node.kv (p node.kv).1 ∧
    ∀ r, (p node.kv).2 = .ok r → r.1.next_txn_id = next_txn ∧ r.1.next_version_id = node.db.next_version_id

/-- A program that writes a key for the first time. -/
structure Installs (node : Node) (p : KvProg (Database × Transaction × Except Status Unit)) (txn : Transaction)
    (key : RowKey) (prev_id : Nat) (is_delete : Bool) (row : Row) : Prop where
  begun : ∃ id, node.txns id = some txn
  unfinished : txn.finished = false
  table : (node.db.catalog key.1).isSome
  check : ∃ is_insert, txn.check_write node.kv key is_insert = .ok prev_id
  run : p node.kv = (txn.install_ops node.db key prev_id is_delete row,
    .ok (Transaction.drew_version node.db, txn.wrote node.db key, .ok ()))

/-- A call installs one version, or none. -/
theorem prog_cases (hkeyed : node.kv.Keyed) (hprog : node.prog call = some p) :
    node.OnlyRewrites p ∨ ∃ txn key prev_id is_delete row, node.Installs p txn key prev_id is_delete row := by
  have hcomes := prog_comes hprog
  generalize hrun : p node.kv = run at hcomes
  cases hcomes with
  | fails call s =>
    rw [OnlyRewrites, hrun]
    exact .inl ⟨_, le_rfl, .inl rfl, trivial, by rintro r ⟨⟩⟩
  | begins hddl =>
    rw [OnlyRewrites, hrun]
    exact .inl ⟨_, Nat.le_succ _, .inr (by simp [oracle_ops, Database.begun]),
      ⟨trivial, rfl, rfl, trivial, trivial⟩, by rintro r ⟨⟩; exact ⟨rfl, rfl⟩⟩
  | @rewrites _ r txn w rec hcall hkey htxn hopen hw hrec =>
    rw [OnlyRewrites, hrun]
    refine .inl ⟨_, le_rfl, .inl rfl, ⟨⟨rec, ?_, rfl, rfl, .inr rfl⟩, trivial⟩, by rintro r ⟨⟩; exact ⟨rfl, rfl⟩⟩
    show node.kv.versions w.key rec.version_id = some rec
    rw [hkeyed _ _ _ hrec]
    exact hrec
  | installs hcall hkey htxn hopen hnew hcheck =>
    exact .inr ⟨_, _, _, _, _, ⟨_, htxn⟩, hopen, row_call_table hcall hkey, ⟨_, hcheck⟩, hrun⟩
  | skips htxn =>
    rw [OnlyRewrites, hrun]
    exact .inl ⟨_, le_rfl, .inl rfl, trivial, by rintro r ⟨⟩; exact ⟨rfl, rfl⟩⟩
  | aborts htxn hopen hroll | conflicts htxn hopen _ hroll | stuck _ htxn hopen hroll =>
    obtain ⟨heach, -⟩ := Transaction.roll_back_rewrites ⟨rfl, rfl⟩ node.kv hkeyed
    rw [hroll] at heach
    rw [OnlyRewrites, hrun]
    exact .inl ⟨_, le_rfl, .inl rfl, heach, by rintro r ⟨⟩ <;> exact ⟨rfl, rfl⟩⟩
  | commits htxn =>
    obtain ⟨heach, hresult⟩ := Transaction.commit_writes_rewrites ⟨rfl, rfl⟩ node.kv hkeyed
    rw [OnlyRewrites, hrun]
    exact .inl ⟨_, le_rfl, .inl rfl, heach, fun r hr => (hresult r hr).2⟩

end Node

end reldb
