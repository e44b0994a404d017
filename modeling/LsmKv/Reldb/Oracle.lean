import LsmKv.Reldb.CrashAtomicity

namespace reldb

open lsmkv (Status)
open Option effects Transaction Machine Database

/-- A timestamp that no later commit gets: below the counter in the store, or of a
    transaction that is being committed. -/
def Issued (kv : Kv) (ts : Nat) : Prop :=
  ts < Database.load kv.next_ts 1 ∨
    ∃ id txn_meta, kv.txns id = some txn_meta ∧ txn_meta.state = .kCommitting ∧ txn_meta.commit_ts = ts

/-- Every timestamp in the store is taken, and no two commits have the same. -/
structure Stamps (kv : Kv) : Prop where
  versions : ∀ k v rec, kv.versions k v = some rec → Issued kv rec.start_ts ∧ Issued kv rec.end_ts
  committed : ∀ id txn_meta, kv.txns id = some txn_meta → txn_meta.state = .kCommitted → Issued kv txn_meta.commit_ts
  distinct : ∀ id id' txn_meta txn_meta' commit_ts, kv.txns id = some txn_meta → kv.txns id' = some txn_meta' →
    txn_meta.fate = some commit_ts → txn_meta'.fate = some commit_ts → id = id'

/-- The write that marks a transaction committed. -/
def KvOp.isCommitted : KvOp → Bool
  | .put_txn_meta _ txn_meta => txn_meta.state = .kCommitted
  | _ => false

/-- The timestamps are in order after every write but the one that marks a transaction
    committed: the counter follows it. -/
def TsOk (op : KvOp) (kv : Kv) : Prop := op.isCommitted = true ∨ Stamps kv

/-- Writes that keep the timestamps in order. -/
structure Stamping (kv : Kv) (ops : List KvOp) : Prop where
  after : After TsOk kv ops
  last : Stamps (applyAll kv ops)

theorem Stamping.append {kv : Kv} {ops ops' : List KvOp} (h : Stamping kv ops) (h' : Stamping (applyAll kv ops) ops') :
    Stamping kv (ops ++ ops') :=
  ⟨h.after.append h'.after, by rw [applyAll_append]; exact h'.last⟩

theorem Stamps.single {kv : Kv} {op : KvOp} (h : Stamps (kv.apply op)) : Stamping kv [op] := ⟨⟨.inr h, trivial⟩, h⟩

section Frame

variable {kv kv' : Kv}

theorem Issued.zero (kv : Kv) : Issued kv 0 := .inl (load_pos _)

theorem Issued.of_eq {ts : Nat} (h : Issued kv ts) (hnext : kv'.next_ts = kv.next_ts) (htxns : kv'.txns = kv.txns) :
    Issued kv' ts := by
  rw [Issued, hnext, htxns]
  exact h

variable {commit_ts id : Nat} {txn_meta : TxnMeta}

section

variable (h : Stamps kv)

include h

/-- A commit that is made or under way has a timestamp that is taken. -/
theorem Stamps.issued (hmeta : kv.txns id = some txn_meta) (hfate : txn_meta.fate = some commit_ts) :
    Issued kv commit_ts := by
  rw [TxnMeta.fate] at hfate
  cases hstate : txn_meta.state with
  | kOpen | kAborted =>
    rw [hstate] at hfate
    cases hfate
  | kCommitting =>
    rw [hstate] at hfate
    cases hfate
    exact .inr ⟨id, txn_meta, hmeta, hstate, rfl⟩
  | kCommitted =>
    rw [hstate] at hfate
    cases hfate
    exact h.committed id txn_meta hmeta hstate

/-- What is taken stays taken, and no record gets another fate. -/
theorem Stamps.frame (hissued : ∀ ts, Issued kv ts → Issued kv' ts)
    (hversions : ∀ k v rec', kv'.versions k v = some rec' → Issued kv rec'.start_ts ∧ Issued kv rec'.end_ts)
    (hfates : ∀ id txn_meta ts, kv'.txns id = some txn_meta → txn_meta.fate = some ts →
      ∃ old, kv.txns id = some old ∧ old.fate = some ts) : Stamps kv' := by
  refine ⟨fun k v rec' hversion => (hversions k v rec' hversion).imp (hissued _) (hissued _),
    fun id txn_meta hmeta hstate => ?_, fun id₁ id₂ m₁ m₂ ts h₁ h₂ hfate₁ hfate₂ => ?_⟩
  · obtain ⟨old, hold, hfate⟩ := hfates id txn_meta txn_meta.commit_ts hmeta (by rw [TxnMeta.fate, hstate])
    exact hissued _ (h.issued hold hfate)
  · obtain ⟨old₁, hold₁, heq₁⟩ := hfates id₁ m₁ ts h₁ hfate₁
    obtain ⟨old₂, hold₂, heq₂⟩ := hfates id₂ m₂ ts h₂ hfate₂
    exact h.distinct id₁ id₂ old₁ old₂ ts hold₁ hold₂ heq₁ heq₂

/-- Nothing but the other counters, the heads and the contents of versions changed. -/
theorem Stamps.of_eq (hnext : kv'.next_ts = kv.next_ts) (htxns : kv'.txns = kv.txns)
    (hversions : ∀ k v rec', kv'.versions k v = some rec' →
      Issued kv rec'.start_ts ∧ Issued kv rec'.end_ts) : Stamps kv' :=
  h.frame (fun _ hts => hts.of_eq hnext htxns) hversions fun _ txn_meta _ hmeta hfate => ⟨txn_meta, htxns ▸ hmeta, hfate⟩

theorem Stamps.applied (happlied : Applied commit_ts kv kv') (hissued : Issued kv commit_ts) : Stamps kv' := by
  refine h.of_eq happlied.next_ts happlied.txns fun k v rec' hversion => ?_
  obtain ⟨rec, hrec, -, hstart, hend⟩ := happlied.of_some hversion
  obtain ⟨hold, hold'⟩ := h.versions k v rec hrec
  refine ⟨?_, ?_⟩
  · rcases hstart with heq | heq <;> rw [heq] <;> assumption
  · rcases hend with heq | heq <;> rw [heq] <;> assumption

theorem Stamps.restored (hrestored : Restored id kv kv') : Stamps kv' := by
  refine h.of_eq hrestored.next_ts hrestored.txns fun k v rec' hversion => h.versions k v rec' ?_
  rw [← hrestored.versions]
  exact hversion

theorem Stamps.put_version {k : RowKey} {rec : VersionRecord} (hstart : Issued kv rec.start_ts)
    (hend : Issued kv rec.end_ts) : Stamps (kv.apply (.put_version_value k rec)) := by
  refine h.of_eq rfl rfl fun k' v rec' hsome => ?_
  rw [Kv.versions_put] at hsome
  split at hsome
  · cases hsome
    exact ⟨hstart, hend⟩
  · exact h.versions k' v rec' hsome

/-- A record that is neither of a commit before nor after. -/
theorem Stamps.put_txn_meta (id : Nat) (txn_meta : TxnMeta) (hold : ∀ old, kv.txns id = some old → old.fate = none)
    (hnew : txn_meta.fate = none) :
    Stamps (kv.apply (.put_txn_meta id txn_meta)) := by
  have hissued : ∀ ts, Issued kv ts → Issued (kv.apply (.put_txn_meta id txn_meta)) ts := by
    rintro ts (hlt | ⟨id', owner, howner, hstate, hts⟩)
    · exact .inl hlt
    · refine .inr ⟨id', owner, ?_, hstate, hts⟩
      rw [Kv.txns_put, if_neg]
      · exact howner
      · rintro rfl
        have hfate := hold owner howner
        rw [TxnMeta.fate, hstate] at hfate
        cases hfate
  refine h.frame hissued h.versions fun id' owner ts howner hfate => ?_
  rw [Kv.txns_put] at howner
  split at howner
  · cases howner
    rw [hnew] at hfate
    cases hfate
  · exact ⟨owner, howner, hfate⟩

/-- Writing back counters that are not lower. -/
theorem Stamps.persist (db : Database) (hpos : 0 < db.next_ts) (hle : Database.load kv.next_ts 1 ≤ db.next_ts) :
    Stamping kv db.oracle_ops := by
  have hstamps : ∀ kv' : Kv, kv'.next_ts = some db.next_ts → kv'.txns = kv.txns → kv'.versions = kv.versions →
      Stamps kv' := by
    intro kv' hnext htxns hversions
    refine h.frame ?_ (hversions ▸ h.versions) fun _ txn_meta _ hmeta hfate => ⟨txn_meta, htxns ▸ hmeta, hfate⟩
    rintro ts (hlt | hcommitting)
    · refine .inl (hlt.trans_le ?_)
      rw [hnext, load_some hpos]
      exact hle
    · exact .inr (htxns ▸ hcommitting)
  have hlast : Stamps (applyAll kv db.oracle_ops) := hstamps _ rfl rfl rfl
  exact ⟨⟨.inr (hstamps _ rfl rfl rfl), .inr (hstamps _ rfl rfl rfl), .inr hlast, trivial⟩, hlast⟩

/-- The intent to commit under the next timestamp. -/
theorem Stamps.intend (hidle : ∀ id txn_meta, kv.txns id = some txn_meta → txn_meta.state ≠ .kCommitting)
    (hstate : txn_meta.state = .kCommitting) (hts : txn_meta.commit_ts = Database.load kv.next_ts 1) :
    Stamps (kv.apply (.put_txn_meta id txn_meta)) := by
  have hissued : ∀ ts, Issued kv ts → ts < Database.load kv.next_ts 1 := by
    rintro ts (hlt | ⟨id', owner, howner, hcommitting, -⟩)
    · exact hlt
    · exact absurd hcommitting (hidle id' owner howner)
  -- the new timestamp is above all that have one
  have hfresh : ∀ id' owner commit_ts, kv.txns id' = some owner → owner.fate = some commit_ts →
      commit_ts < txn_meta.commit_ts := by
    intro id' owner commit_ts howner hfate
    rw [hts]
    exact hissued _ (h.issued howner hfate)
  have hfate : txn_meta.fate = some txn_meta.commit_ts := by rw [TxnMeta.fate, hstate]
  refine ⟨fun k v rec hversion => ?_, ?_, ?_⟩
  · exact (h.versions k v rec hversion).imp (fun hts => .inl (hissued _ hts)) (fun hts => .inl (hissued _ hts))
  · intro id' owner howner hcommitted
    rw [Kv.txns_put] at howner
    split at howner
    · cases howner
      rw [hstate] at hcommitted
      cases hcommitted
    · exact .inl (hissued _ (h.committed id' owner howner hcommitted))
  · intro id₁ id₂ m₁ m₂ commit_ts h₁ h₂ hfate₁ hfate₂
    rw [Kv.txns_put] at h₁ h₂
    split at h₁
    · next heq =>
      split at h₂
      · next heq' => exact heq.trans heq'.symm
      · cases h₁
        rw [hfate] at hfate₁
        cases hfate₁
        exact absurd (hfresh id₂ m₂ _ h₂ hfate₂) (lt_irrefl _)
    · split at h₂
      · cases h₂
        rw [hfate] at hfate₂
        cases hfate₂
        exact absurd (hfresh id₁ m₁ _ h₁ hfate₁) (lt_irrefl _)
      · exact h.distinct id₁ id₂ m₁ m₂ commit_ts h₁ h₂ hfate₁ hfate₂

/-- A transaction is marked committed, and the counter is above its timestamp. -/
theorem Stamps.marked (hmeta : kv.txns id = some txn_meta) (hstate : txn_meta.state = .kCommitting)
    (hts : txn_meta.commit_ts = commit_ts)
    (htxns : kv'.txns = (kv.apply (.put_txn_meta id { state := .kCommitted, commit_ts := commit_ts })).txns)
    (hversions : kv'.versions = kv.versions) (hlt : commit_ts < Database.load kv'.next_ts 1)
    (hle : Database.load kv.next_ts 1 ≤ Database.load kv'.next_ts 1) : Stamps kv' := by
  have hfate : txn_meta.fate = some commit_ts := by rw [TxnMeta.fate, hstate, hts]
  have hissued : ∀ ts, Issued kv ts → Issued kv' ts := by
    rintro ts (hbelow | ⟨id', owner, howner, hcommitting, rfl⟩)
    · exact .inl (hbelow.trans_le hle)
    · by_cases heq : id' = id
      · subst heq
        cases hmeta.symm.trans howner
        rw [hts]
        exact .inl hlt
      · refine .inr ⟨id', owner, ?_, hcommitting, rfl⟩
        rw [htxns, Kv.txns_put, if_neg heq]
        exact howner
  refine h.frame hissued (hversions ▸ h.versions) fun id' owner ts howner hfate' => ?_
  rw [htxns, Kv.txns_put] at howner
  split at howner
  · next heq =>
    cases howner
    exact ⟨txn_meta, by rw [heq]; exact hmeta, hfate.trans hfate'⟩
  · exact ⟨owner, howner, hfate'⟩

/-- The mark and then the counters. -/
theorem Stamps.mark_and_persist (db : Database) (hmeta : kv.txns id = some txn_meta)
    (hstate : txn_meta.state = .kCommitting) (hts : txn_meta.commit_ts = commit_ts) (hlt : commit_ts < db.next_ts)
    (hle : Database.load kv.next_ts 1 ≤ db.next_ts) :
    Stamping kv (.put_txn_meta id { state := .kCommitted, commit_ts := commit_ts } :: db.oracle_ops) := by
  have hload : Database.load (some db.next_ts) 1 = db.next_ts := load_some (by omega)
  have hstamps : ∀ kv' : Kv, kv'.next_ts = some db.next_ts →
      kv'.txns = (kv.apply (.put_txn_meta id { state := .kCommitted, commit_ts := commit_ts })).txns →
      kv'.versions = kv.versions → Stamps kv' := by
    intro kv' hnext htxns hversions
    refine h.marked hmeta hstate hts htxns hversions ?_ ?_
    · rw [hnext, hload]
      exact hlt
    · rw [hnext, hload]
      exact hle
  have hlast := hstamps (applyAll kv
    (.put_txn_meta id { state := .kCommitted, commit_ts := commit_ts } :: db.oracle_ops)) rfl rfl rfl
  exact ⟨⟨.inl rfl, .inr (hstamps _ rfl rfl rfl), .inr (hstamps _ rfl rfl rfl), .inr hlast, trivial⟩, hlast⟩

end

end Frame

namespace Running

variable {node : Node} {id : Nat} {txn : Transaction} {call : Call}

theorem load_next_ts (h : Running node) : Database.load node.kv.next_ts 1 = node.db.next_ts := by
  rw [h.synced.next_ts, load_some h.synced.ts_pos]

theorem open_fate (h : Running node) (htxn : node.txns id = some txn) (hopen : txn.finished = false) :
    ∀ old, node.kv.txns id = some old → old.fate = none := by
  intro old hold
  cases (h.opened id txn htxn hopen).1.symm.trans hold
  rfl

theorem begin_txn_stamps (h : Running node) (hstamps : Stamps node.kv) :
    Stamping node.kv (node.db.begun.oracle_ops ++ [.put_txn_meta node.db.next_txn_id {}]) := by
  have hcounters := hstamps.persist node.db.begun h.synced.ts_pos h.load_next_ts.le
  refine hcounters.append (hcounters.last.put_txn_meta node.db.next_txn_id {} (fun old hold => ?_) rfl).single
  have hlt := (h.recoverable.ids _ old hold).2
  rw [h.synced.next_txn, load_some h.synced.txn_pos] at hlt
  exact absurd hlt (lt_irrefl _)

section

variable (h : Running node) (hstamps : Stamps node.kv) (htxn : node.txns id = some txn) (hopen : txn.finished = false)

include h hstamps htxn hopen

theorem install_stamps (key : RowKey) (prev_id : Nat) (is_delete : Bool) (row : Row) :
    Stamping node.kv (txn.install_ops node.db key prev_id is_delete row) := by
  obtain rfl := h.txns id txn htxn
  obtain ⟨hafter, hstamps₁⟩ := hstamps.persist (drew_version node.db) h.synced.ts_pos h.load_next_ts.le
  have hstamps₂ : Stamps ((applyAll node.kv (drew_version node.db).oracle_ops).apply
      (.put_version_value key (txn.new_version node.db prev_id is_delete row))) :=
    hstamps₁.put_version (.zero _) (.zero _)
  have hstamps₃ : Stamps (((applyAll node.kv (drew_version node.db).oracle_ops).apply
      (.put_version_value key (txn.new_version node.db prev_id is_delete row))).apply
        (.set_head key node.db.next_version_id)) := hstamps₂.of_eq rfl rfl hstamps₂.versions
  have hlast := hstamps₃.put_txn_meta txn.txn_id { writes := (txn.wrote node.db key).written }
    (h.open_fate htxn hopen) rfl
  exact ⟨hafter.append ⟨.inr hstamps₂, .inr hstamps₃, .inr hlast, trivial⟩, hlast⟩

theorem roll_back_stamps : Stamping node.kv (txn.roll_back node.db node.kv).1 := by
  obtain ⟨hmeta, -, -⟩ := h.opened id txn htxn hopen
  obtain rfl := h.txns id txn htxn
  have hws : ∀ w ∈ txn.written.reverse, ∃ rec, node.kv.versions w.key w.version_id = some rec ∧
      rec.created_by = txn.txn_id := fun w hw => h.recoverable.written _ _ hmeta w (List.mem_reverse.mp hw)
  obtain ⟨ops, hrun, hafter, -, hrestored⟩ := h.recoverable.forEach_restore_head hmeta rfl hws
  have hroll := @Transaction.roll_back_eq node.kv node.db txn (by rw [restore_heads, hrun])
  rw [restore_heads, hrun] at hroll
  have hlast := (hstamps.restored hrestored).put_txn_meta txn.txn_id { state := .kAborted }
    (by rw [hrestored.txns]; exact h.open_fate htxn hopen) rfl
  have hheads : Stamping node.kv ops :=
    ⟨hafter.mono fun _ kv' hkv' => .inr (hstamps.restored hkv'.2), hstamps.restored hrestored⟩
  rw [hroll]
  exact hheads.append hlast.single

theorem commit_writes_stamps : Stamping node.kv (txn.commit_ops node.db node.kv) := by
  obtain ⟨ops, hrun, hafter, happlied, -⟩ := h.commit_writes_parts htxn hopen
  obtain rfl := h.txns id txn htxn
  have hmeta : (txn.intended node.db node.kv).txns txn.txn_id =
      some { state := .kCommitting, commit_ts := node.db.next_ts, writes := txn.written } := Function.update_self ..
  have hstamps₁ : Stamps (txn.intended node.db node.kv) := hstamps.intend h.idle rfl h.load_next_ts.symm
  have hissued : Issued (txn.intended node.db node.kv) node.db.next_ts := .inr ⟨_, _, hmeta, rfl, rfl⟩
  have hstamps₂ := hstamps₁.applied happlied hissued
  have hmeta₂ := hmeta
  rw [← happlied.txns] at hmeta₂
  have hload : Database.load (applyAll (txn.intended node.db node.kv) ops).next_ts 1 = node.db.next_ts := by
    rw [happlied.next_ts]
    exact h.load_next_ts
  have hmarked := hstamps₂.mark_and_persist (drew_ts node.db) hmeta₂ rfl rfl (Nat.lt_succ_self _)
    (hload.trans_le (Nat.le_succ _))
  have happlying : Stamping (txn.intended node.db node.kv) ops :=
    ⟨hafter.mono fun _ kv' hkv' => .inr (hstamps₁.applied hkv'.2 hissued), hstamps₂⟩
  rw [commit_ops, hrun]
  exact hstamps₁.single.append (happlying.append hmarked)

end

/-- What every call does to the timestamps. -/
theorem prog_stamps (h : Running node) (hstamps : Stamps node.kv)
    {p : KvProg (Database × Transaction × Except Status Unit)} (hprog : node.prog call = some p) :
    Stamping node.kv (p node.kv).1 := by
  have hcomes := Node.prog_comes hprog
  generalize p node.kv = run at hcomes ⊢
  cases hcomes with
  | fails | skips => exact ⟨trivial, hstamps⟩
  | begins => exact h.begin_txn_stamps hstamps
  | @rewrites _ r _ w rec _ _ _ _ _ hrec =>
    obtain ⟨hstart, hend⟩ := hstamps.versions _ _ _ hrec
    have hlast : Stamps (node.kv.apply (.put_version_value w.key (Transaction.rewritten rec r.is_delete r.row))) :=
      hstamps.put_version hstart hend
    exact hlast.single
  | installs _ _ htxn hopen => exact h.install_stamps hstamps htxn hopen ..
  | aborts htxn hopen hroll | conflicts htxn hopen _ hroll | stuck _ htxn hopen hroll =>
    have hparts := h.roll_back_stamps hstamps htxn hopen
    rw [hroll] at hparts
    exact hparts
  | commits htxn hopen =>
    rw [(h.commit_writes htxn hopen).1]
    exact h.commit_writes_stamps hstamps htxn hopen

end Running

namespace Recoverable

variable {kv : Kv} {db : Database}

theorem recover_txn_stamps (h : Recoverable kv) (hsynced : Synced kv db) (hstamps : Stamps kv) (id : Nat) :
    Stamping kv (db.recover_txn id kv).1 := by
  by_cases hsettled : ∀ txn_meta, kv.txns id = some txn_meta → txn_meta.Settled
  · rw [recover_settled hsettled db]
    exact ⟨trivial, hstamps⟩
  · push Not at hsettled
    obtain ⟨txn_meta, hmeta, hopen⟩ := hsettled
    cases hstate : txn_meta.state with
    | kCommitted => exact absurd (.inl hstate) hopen
    | kAborted => exact absurd (.inr hstate) hopen
    | kOpen =>
      obtain ⟨ops, hrun, hafter, -, hrestored, -⟩ := h.recover_open hmeta hstate db
      have hlast := (hstamps.restored hrestored).put_txn_meta id { state := .kAborted } (fun old hold => ?_) rfl
      · have hheads : Stamping kv ops :=
          ⟨hafter.mono fun _ kv' hkv' => .inr (hstamps.restored hkv'.2), hstamps.restored hrestored⟩
        rw [hrun]
        exact hheads.append hlast.single
      · rw [hrestored.txns] at hold
        cases hmeta.symm.trans hold
        rw [TxnMeta.fate, hstate]
    | kCommitting =>
      obtain ⟨ops, hafter, -, happlied, -, hrun⟩ := h.recover_committing hmeta hstate db
      have hissued : Issued kv txn_meta.commit_ts := .inr ⟨id, txn_meta, hmeta, hstate, rfl⟩
      have hstamps₁ := hstamps.applied happlied hissued
      have hmeta₁ : (applyAll kv ops).txns id = some txn_meta := by
        rw [happlied.txns]
        exact hmeta
      have hload : Database.load (applyAll kv ops).next_ts 1 = db.next_ts := by
        rw [happlied.next_ts, hsynced.next_ts, load_some hsynced.ts_pos]
      have hfirst : Stamping kv ops := ⟨hafter.mono fun _ kv' hkv' => .inr (hstamps.applied hkv'.2 hissued), hstamps₁⟩
      rw [hrun]
      by_cases hbehind : db.next_ts ≤ txn_meta.commit_ts
      · rw [if_pos hbehind]
        exact hfirst.append (hstamps₁.mark_and_persist { db with next_ts := txn_meta.commit_ts + 1 } hmeta₁ hstate rfl
          (Nat.lt_succ_self _) (hload.trans_le (hbehind.trans (Nat.le_succ _))))
      · rw [if_neg hbehind]
        have hlast : Stamps ((applyAll kv ops).apply
            (.put_txn_meta id { state := .kCommitted, commit_ts := txn_meta.commit_ts })) :=
          hstamps₁.marked hmeta₁ hstate rfl rfl rfl (hload.symm ▸ not_le.mp hbehind) le_rfl
        exact hfirst.append hlast.single

theorem recover_loop_stamps (h : Recoverable kv) (hsynced : Synced kv db) (hstamps : Stamps kv) (n id : Nat) :
    Stamping kv (Database.recover_loop n id db kv).1 := by
  induction n generalizing kv db id with
  | zero => exact ⟨trivial, hstamps⟩
  | succ n ih =>
    obtain ⟨ops, db₁, hrun, -, h₁, -, hsynced₁, -, -⟩ := h.recover_txn hsynced id
    have hround := h.recover_txn_stamps hsynced hstamps id
    rw [hrun] at hround
    rw [Database.recover_loop, Prog.bind_ok hrun]
    exact hround.append (ih h₁ hsynced₁ hround.last (id + 1))

theorem open_db_stamps (h : Recoverable kv) (hstamps : Stamps kv) (catalog : String → Option TableSchema) :
    Stamping kv (Database.open_db catalog kv).1 := by
  let db₀ : Database := { catalog, next_ts := Database.load kv.next_ts 1, next_txn_id := Database.load kv.next_txn 1,
                          next_version_id := Database.load kv.next_vid 1 }
  have hinit : init_oracles catalog kv = (db₀.oracle_ops, .ok db₀) := rfl
  obtain ⟨-, h₁, hsynced⟩ := h.persist db₀ (load_pos _) le_rfl le_rfl
  have hcounters := hstamps.persist db₀ (load_pos _) le_rfl
  rw [Database.open_db, Prog.bind_ok hinit, recover_txns]
  exact hcounters.append (h₁.recover_loop_stamps hsynced hcounters.last (db₀.next_txn_id - 1) 1)

end Recoverable

namespace Machine

variable {catalog : String → Option TableSchema} {m m' : Machine}

/-- The writes of an event that a crash cut off. -/
def performed (catalog : String → Option TableSchema) : Machine → Event → List KvOp
  | .up node, .crash call writes => ((node.ops call).getD []).take writes
  | .down kv, .reopen_crash writes => (Database.open_db catalog kv).1.take writes
  | _, _ => []

/-- The process dies right after it marked a transaction committed. -/
def torn (catalog : String → Option TableSchema) (m : Machine) (event : Event) : Bool :=
  (m.performed catalog event).getLast?.any KvOp.isCommitted

/-- A run without such a crash. -/
def careful (catalog : String → Option TableSchema) : Machine → List Event → Bool
  | _, [] => true
  | m, event :: events =>
    !m.torn catalog event &&
      match m.step catalog event with
      | some m => careful catalog m events
      | none => true

theorem stamps_take {kv : Kv} {ops : List KvOp} (hafter : After TsOk kv ops) (hstamps : Stamps kv) {writes : Nat}
    (hcareful : (ops.take writes).getLast?.any KvOp.isCommitted = false) : Stamps (applyAll kv (ops.take writes)) := by
  rcases hafter.take writes with hnil | ⟨op, hop, hcommitted | hlast⟩
  · rw [hnil]
    exact hstamps
  · rw [mem_def.mp hop, any_some, hcommitted] at hcareful
    cases hcareful
  · exact hlast

theorem stamps_step (hok : m.Ok) (hstamps : Stamps m.kv) {event : Event} (hcareful : m.torn catalog event = false)
    (hstep : m.step catalog event = some m') : Stamps m'.kv := by
  rw [step_ops hstep]
  cases m with
  | up node =>
    cases event with
    | call call =>
      obtain ⟨after, hafter, -⟩ := map_eq_some_iff.mp hstep
      obtain ⟨p, hprog, -⟩ := map_eq_some_iff.mp hafter
      rw [ops, Node.ops, hprog]
      exact (Running.prog_stamps hok hstamps hprog).last
    | crash call writes =>
      obtain ⟨ops, hops, -⟩ := map_eq_some_iff.mp hstep
      obtain ⟨p, hprog, rfl⟩ := map_eq_some_iff.mp (id hops)
      rw [torn, performed, hops] at hcareful
      rw [Machine.ops, hops]
      exact stamps_take (Running.prog_stamps hok hstamps hprog).after hstamps hcareful
    | reopen | reopen_crash => cases hstep
  | down kv =>
    cases event with
    | call | crash => cases hstep
    | reopen => exact (Recoverable.open_db_stamps hok hstamps catalog).last
    | reopen_crash writes => exact stamps_take (Recoverable.open_db_stamps hok hstamps catalog).after hstamps hcareful

theorem stamps_run (hok : m.Ok) (hstamps : Stamps m.kv) {events : List Event}
    (hcareful : careful catalog m events = true) (hrun : run catalog m events = some m') : Stamps m'.kv := by
  induction events generalizing m with
  | nil =>
    cases hrun
    exact hstamps
  | cons event events ih =>
    obtain ⟨next, hstep, hrest⟩ := bind_eq_some_iff.mp hrun
    rw [careful, hstep, Bool.and_eq_true, Bool.not_eq_true'] at hcareful
    exact ih (ok_step hok hstep).1 (stamps_step hok hstamps hcareful.1 hstep) hcareful.2 hrest

theorem stamps_empty : Stamps (Machine.down {}).kv :=
  ⟨by rintro k v rec ⟨⟩, by rintro id txn_meta ⟨⟩, by rintro id id' txn_meta txn_meta' commit_ts ⟨⟩⟩

end Machine

/-- As long as no process dies right after it marked a transaction committed, the counter
    is above every timestamp, so that later transactions see every commit and no timestamp
    is given out twice. Calls and `Open` may die after any other write, any number of
    times; DDL is not part of the run. -/
theorem next_ts_above_stamps {catalog : String → Option TableSchema} {events : List Event} {node : Node}
    (hrun : Machine.run catalog (.down {}) events = some (.up node))
    (hcareful : Machine.careful catalog (.down {}) events = true) :
    (∀ id txn_meta, node.kv.txns id = some txn_meta → txn_meta.state = .kCommitted →
      txn_meta.commit_ts < node.db.next_ts) ∧
      (∀ k v rec, node.kv.versions k v = some rec →
        rec.start_ts < node.db.next_ts ∧ rec.end_ts < node.db.next_ts) ∧
      (∀ ops db' txn, node.db.begin_txn node.kv = (ops, .ok (db', txn)) → ∀ id txn_meta,
        node.kv.txns id = some txn_meta → txn_meta.state = .kCommitted → txn_meta.commit_ts ≤ txn.start_ts) ∧
      ∀ id id' txn_meta txn_meta', node.kv.txns id = some txn_meta → node.kv.txns id' = some txn_meta' →
        txn_meta.state = .kCommitted → txn_meta'.state = .kCommitted → txn_meta.commit_ts = txn_meta'.commit_ts →
          id = id' := by
  have hrunning : Running node := (ok_run ok_empty hrun).1
  have hstamps : Stamps node.kv := stamps_run ok_empty stamps_empty hcareful hrun
  have hbelow : ∀ ts, Issued node.kv ts → ts < node.db.next_ts := by
    rintro ts (hlt | ⟨id, txn_meta, hmeta, hstate, -⟩)
    · rw [hrunning.load_next_ts] at hlt
      exact hlt
    · exact absurd hstate (hrunning.idle id txn_meta hmeta)
  have hcommitted : ∀ id txn_meta, node.kv.txns id = some txn_meta → txn_meta.state = .kCommitted →
      txn_meta.commit_ts < node.db.next_ts :=
    fun id txn_meta hmeta hstate => hbelow _ (hstamps.committed id txn_meta hmeta hstate)
  refine ⟨hcommitted, ?_, ?_, ?_⟩
  · intro k v rec hversion
    exact (hstamps.versions k v rec hversion).imp (hbelow _) (hbelow _)
  · intro ops db' txn hbegin id txn_meta hmeta hstate
    rw [begin_txn_run hrunning.no_ddl] at hbegin
    cases hbegin
    exact Nat.le_sub_one_of_lt (hcommitted id txn_meta hmeta hstate)
  · intro id id' txn_meta txn_meta' hmeta hmeta' hstate hstate' hts
    refine hstamps.distinct id id' txn_meta txn_meta' txn_meta.commit_ts hmeta hmeta' ?_ ?_
    · rw [TxnMeta.fate, hstate]
    · rw [TxnMeta.fate, hstate', hts]

/-- A crash that leaves the intent only, and the recovery from it. -/
theorem next_ts_above_recovered : ∃ node,
    Machine.run numbers (.down {}) (aboutToCommit ++ [.crash (.commit 1) 1, .reopen]) = some (.up node) ∧
      ∀ id txn_meta, node.kv.txns id = some txn_meta → txn_meta.state = .kCommitted →
        txn_meta.commit_ts < node.db.next_ts := by
  have hfacts : ((Machine.run numbers (.down {}) (aboutToCommit ++ [.crash (.commit 1) 1, .reopen])).bind
      Machine.node?).bind (fun node => some node.db.next_ts) = some 2 := by decide +kernel
  obtain ⟨node, hrun, -⟩ := run_up hfacts
  exact ⟨node, hrun, (next_ts_above_stamps hrun (by decide +kernel)).1⟩

/-- The process dies between the mark and the counter: the next timestamp is the one
    that the committed transaction has. -/
theorem next_ts_of_committed_txn : ∃ node txn_meta,
    Machine.run numbers (.down {}) (aboutToCommit ++ [.crash (.commit 1) 3, .reopen]) = some (.up node) ∧
      node.kv.txns 1 = some txn_meta ∧ txn_meta.state = .kCommitted ∧ ¬ txn_meta.commit_ts < node.db.next_ts := by
  have hfacts : ((Machine.run numbers (.down {}) (aboutToCommit ++ [.crash (.commit 1) 3, .reopen])).bind
      Machine.node?).bind (fun node => (node.kv.txns 1).map fun txn_meta => (txn_meta, node.db.next_ts)) =
      some ({ state := .kCommitted, commit_ts := 1 }, 1) := by decide +kernel
  obtain ⟨node, hrun, hfacts⟩ := run_up hfacts
  obtain ⟨txn_meta, hmeta, hfacts⟩ := map_eq_some_iff.mp hfacts
  obtain ⟨rfl, hnext⟩ := Prod.mk.inj hfacts
  refine ⟨node, _, hrun, hmeta, rfl, ?_⟩
  rw [hnext]
  decide

end reldb
