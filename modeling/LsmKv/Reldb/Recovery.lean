import LsmKv.Reldb.Redo

namespace reldb

open lsmkv (Status)
open Option effects Database

/-- The commit timestamp of a transaction that is to be committed, `none` for one that
    is to be aborted. -/
def TxnMeta.fate (txn_meta : TxnMeta) : Option Nat :=
  match txn_meta.state with
  | .kCommitted | .kCommitting => some txn_meta.commit_ts
  | .kOpen | .kAborted => none

/-- A transaction that is over. -/
def TxnMeta.Settled (txn_meta : TxnMeta) : Prop := txn_meta.state = .kCommitted ∨ txn_meta.state = .kAborted

instance (txn_meta : TxnMeta) : Decidable txn_meta.Settled :=
  inferInstanceAs (Decidable (txn_meta.state = .kCommitted ∨ txn_meta.state = .kAborted))

/-- The store later on in a recovery: the fate of no transaction has changed, and every
    version has kept its owner. -/
structure Recovered (kv kv' : Kv) : Prop where
  fates : ∀ id, (kv'.txns id).map TxnMeta.fate = (kv.txns id).map TxnMeta.fate
  settled : ∀ id txn_meta, kv.txns id = some txn_meta → txn_meta.Settled → kv'.txns id = some txn_meta
  owners : ∀ k v, (kv'.versions k v).map VersionRecord.created_by = (kv.versions k v).map VersionRecord.created_by

section Recovered

variable {kv kv₁ kv₂ : Kv}

theorem Recovered.of_eq (htxns : kv₁.txns = kv.txns) (hversions : kv₁.versions = kv.versions) : Recovered kv kv₁ :=
  ⟨fun id => by rw [htxns], fun id txn_meta hmeta _ => by rw [htxns]; exact hmeta, fun k v => by rw [hversions]⟩

theorem Recovered.refl (kv : Kv) : Recovered kv kv := .of_eq rfl rfl

theorem Recovered.trans (h : Recovered kv kv₁) (h' : Recovered kv₁ kv₂) : Recovered kv kv₂ :=
  ⟨fun id => (h'.fates id).trans (h.fates id),
    fun id txn_meta hmeta hsettled => h'.settled id txn_meta (h.settled id txn_meta hmeta hsettled) hsettled,
    fun k v => (h'.owners k v).trans (h.owners k v)⟩

theorem Applied.recovered {commit_ts : Nat} (h : Applied commit_ts kv kv₁) : Recovered kv kv₁ := by
  refine ⟨fun id => by rw [h.txns], fun id txn_meta hmeta _ => by rw [h.txns]; exact hmeta, fun k v => ?_⟩
  cases hcase : kv.versions k v with
  | none => rw [h.absent k v hcase]
  | some rec =>
    obtain ⟨rec', hrec', hcreated, -⟩ := h.versions k v rec hcase
    rw [hrec', map_some, hcreated, map_some]

theorem Restored.recovered {id : Nat} (h : Restored id kv kv₁) : Recovered kv kv₁ := .of_eq h.txns h.versions

/-- A new record with the old fate. -/
theorem Recovered.put_txn_meta {id : Nat} {old txn_meta : TxnMeta} (hold : kv.txns id = some old)
    (hopen : ¬ old.Settled) (hfate : txn_meta.fate = old.fate) :
    Recovered kv (kv.apply (.put_txn_meta id txn_meta)) := by
  refine ⟨fun id' => ?_, fun id' old' hold' hsettled => ?_, fun _ _ => rfl⟩
  · rw [Kv.txns_put]
    split
    · next heq =>
      rw [heq, hold, map_some, map_some, hfate]
    · rfl
  · rw [Kv.txns_put, if_neg]
    · exact hold'
    · rintro rfl
      cases hold.symm.trans hold'
      exact hopen hsettled

end Recovered

/-- The counters in memory are those in the store. -/
structure Synced (kv : Kv) (db : Database) : Prop where
  next_ts : kv.next_ts = some db.next_ts
  next_txn : kv.next_txn = some db.next_txn_id
  next_vid : kv.next_vid = some db.next_version_id
  ts_pos : 0 < db.next_ts
  txn_pos : 0 < db.next_txn_id
  vid_pos : 0 < db.next_version_id

theorem Database.load_some {v : Nat} (hv : 0 < v) : load (some v) 1 = v := if_neg hv.ne'

theorem Database.load_pos (stored : Option Nat) : 0 < load stored 1 := by
  unfold load
  split
  · exact Nat.one_pos
  · split
    · exact Nat.one_pos
    · next hne => exact Nat.pos_of_ne_zero hne

namespace Recoverable

variable {kv : Kv} {db db' : Database}

/-- Writing the counters back. -/
theorem persist (h : Recoverable kv) (db : Database) (hts : 0 < db.next_ts)
    (htxn : Database.load kv.next_txn 1 ≤ db.next_txn_id) (hvid : Database.load kv.next_vid 1 ≤ db.next_version_id) :
    After (fun _ kv' => Recoverable kv' ∧ Recovered kv kv') kv db.oracle_ops ∧
      Recoverable (applyAll kv db.oracle_ops) ∧ Synced (applyAll kv db.oracle_ops) db := by
  have htxn_pos := (load_pos kv.next_txn).trans_le htxn
  have hvid_pos := (load_pos kv.next_vid).trans_le hvid
  have h₁ : Recoverable { kv with next_ts := some db.next_ts } := h.counters rfl rfl rfl le_rfl le_rfl
  have h₂ : Recoverable { kv with next_ts := some db.next_ts, next_txn := some db.next_txn_id } := by
    refine h.counters rfl rfl rfl ?_ le_rfl
    rw [load_some htxn_pos]
    exact htxn
  have h₃ : Recoverable (applyAll kv db.oracle_ops) := by
    refine h₂.counters rfl rfl rfl le_rfl ?_
    show _ ≤ Database.load (some db.next_version_id) 1
    rw [load_some hvid_pos]
    exact hvid
  exact ⟨⟨⟨h₁, .of_eq rfl rfl⟩, ⟨h₂, .of_eq rfl rfl⟩, ⟨h₃, .of_eq rfl rfl⟩, trivial⟩, h₃,
    ⟨rfl, rfl, rfl, hts, htxn_pos, hvid_pos⟩⟩

theorem persist_synced (h : Recoverable kv) (hsynced : Synced kv db) (db' : Database) (hts : 0 < db'.next_ts)
    (htxn : db.next_txn_id ≤ db'.next_txn_id) (hvid : db.next_version_id ≤ db'.next_version_id) :
    After (fun _ kv' => Recoverable kv' ∧ Recovered kv kv') kv db'.oracle_ops ∧
      Recoverable (applyAll kv db'.oracle_ops) ∧ Synced (applyAll kv db'.oracle_ops) db' := by
  refine h.persist db' hts ?_ ?_
  · rw [hsynced.next_txn, load_some hsynced.txn_pos]
    exact htxn
  · rw [hsynced.next_vid, load_some hsynced.vid_pos]
    exact hvid

/-- What one round of the recovery does to an open transaction. -/
theorem recover_open (h : Recoverable kv) {id : Nat} {txn_meta : TxnMeta} (hmeta : kv.txns id = some txn_meta)
    (hstate : txn_meta.state = .kOpen) (db : Database) :
    ∃ ops, db.recover_txn id kv = (ops ++ [.put_txn_meta id { state := .kAborted }], .ok db) ∧
      After (fun _ kv' => Recoverable kv' ∧ Restored id kv kv') kv ops ∧ Recoverable (applyAll kv ops) ∧
      Restored id kv (applyAll kv ops) ∧
      Recoverable ((applyAll kv ops).apply (.put_txn_meta id { state := .kAborted })) := by
  have hws : ∀ w ∈ txn_meta.writes.reverse, ∃ rec, kv.versions w.key w.version_id = some rec ∧ rec.created_by = id :=
    fun w hw => h.written id txn_meta hmeta w (List.mem_reverse.mp hw)
  obtain ⟨ops, hrun, hafter, h₁, hrestored⟩ := h.forEach_restore_head hmeta hstate hws
  refine ⟨ops, ?_, hafter, h₁, hrestored, h₁.mark_aborted (by rw [hrestored.txns]; exact hmeta) hstate⟩
  unfold recover_txn
  rw [Prog.look_bind, hmeta]
  simp only [hstate]
  rw [Prog.bind_ok (show restore_heads txn_meta.writes kv = _ from hrun)]
  rfl

/-- What one round of the recovery does to a transaction that was being committed. -/
theorem recover_committing (h : Recoverable kv) {id : Nat} {txn_meta : TxnMeta} (hmeta : kv.txns id = some txn_meta)
    (hstate : txn_meta.state = .kCommitting) (db : Database) :
    ∃ ops, After (fun _ kv' => Recoverable kv' ∧ Applied txn_meta.commit_ts kv kv') kv ops ∧
      Recoverable (applyAll kv ops) ∧ Applied txn_meta.commit_ts kv (applyAll kv ops) ∧
      Recoverable ((applyAll kv ops).apply
        (.put_txn_meta id { state := .kCommitted, commit_ts := txn_meta.commit_ts })) ∧
      db.recover_txn id kv =
        if db.next_ts ≤ txn_meta.commit_ts then
          (ops ++ .put_txn_meta id { state := .kCommitted, commit_ts := txn_meta.commit_ts } ::
            { db with next_ts := txn_meta.commit_ts + 1 }.oracle_ops, .ok { db with next_ts := txn_meta.commit_ts + 1 })
        else (ops ++ [.put_txn_meta id { state := .kCommitted, commit_ts := txn_meta.commit_ts }], .ok db) := by
  obtain ⟨hts, -, -⟩ := h.committing id txn_meta hmeta hstate
  obtain ⟨ops, hrun, hafter, h₁, happlied, hstamped⟩ := h.apply_commit_writes hmeta hstate fun w hw => hw
  have hmeta₁ : (applyAll kv ops).txns id = some txn_meta := by
    rw [happlied.txns]
    exact hmeta
  refine ⟨ops, hafter, h₁, happlied, h₁.mark_committed hmeta₁ hstate hstamped, ?_⟩
  unfold recover_txn
  rw [Prog.look_bind, hmeta]
  simp only [hstate]
  rw [if_neg hts, Prog.bind_ok hrun, Prog.perform_bind]
  split <;> rfl

theorem recover_settled {id : Nat} (hsettled : ∀ txn_meta, kv.txns id = some txn_meta → txn_meta.Settled)
    (db : Database) : db.recover_txn id kv = ([], .ok db) := by
  unfold recover_txn
  rw [Prog.look_bind]
  cases hmeta : kv.txns id with
  | none => rfl
  | some txn_meta => rcases hsettled txn_meta hmeta with hstate | hstate <;> simp only [hstate] <;> rfl

/-- One round of the recovery. -/
theorem recover_txn (h : Recoverable kv) (hsynced : Synced kv db) (id : Nat) :
    ∃ ops db', db.recover_txn id kv = (ops, .ok db') ∧
      After (fun _ kv' => Recoverable kv' ∧ Recovered kv kv') kv ops ∧ Recoverable (applyAll kv ops) ∧
      Recovered kv (applyAll kv ops) ∧ Synced (applyAll kv ops) db' ∧ (∃ ts, db' = { db with next_ts := ts }) ∧
      ∀ txn_meta, (applyAll kv ops).txns id = some txn_meta → txn_meta.Settled := by
  by_cases hsettled : ∀ txn_meta, kv.txns id = some txn_meta → txn_meta.Settled
  · exact ⟨[], db, recover_settled hsettled db, trivial, h, .refl kv, hsynced, ⟨_, rfl⟩, hsettled⟩
  · push Not at hsettled
    obtain ⟨txn_meta, hmeta, hopen⟩ := hsettled
    cases hstate : txn_meta.state with
    | kCommitted => exact absurd (.inl hstate) hopen
    | kAborted => exact absurd (.inr hstate) hopen
    | kOpen =>
      obtain ⟨ops, hrun, hafter, h₁, hrestored, h₂⟩ := h.recover_open hmeta hstate db
      have hmeta₁ : (applyAll kv ops).txns id = some txn_meta := by
        rw [hrestored.txns]
        exact hmeta
      have hrecovered : Recovered kv ((applyAll kv ops).apply (.put_txn_meta id { state := .kAborted })) := by
        refine hrestored.recovered.trans (.put_txn_meta hmeta₁ hopen ?_)
        rw [TxnMeta.fate, TxnMeta.fate, hstate]
      refine ⟨_, db, hrun, ?_, ?_⟩
      · refine (hafter.mono fun _ kv' hkv' => ⟨hkv'.1, hkv'.2.recovered⟩).append ⟨⟨h₂, hrecovered⟩, trivial⟩
      · rw [applyAll_append]
        refine ⟨h₂, hrecovered, ?_, ⟨_, rfl⟩, ?_⟩
        · exact ⟨hrestored.next_ts.trans hsynced.next_ts, hrestored.next_txn.trans hsynced.next_txn,
            hrestored.next_vid.trans hsynced.next_vid, hsynced.ts_pos, hsynced.txn_pos, hsynced.vid_pos⟩
        · intro txn_meta' hsome
          cases (Function.update_self ..).symm.trans hsome
          exact .inr rfl
    | kCommitting =>
      obtain ⟨ops, hafter, h₁, happlied, h₂, hrun⟩ := h.recover_committing hmeta hstate db
      have hmeta₁ : (applyAll kv ops).txns id = some txn_meta := by
        rw [happlied.txns]
        exact hmeta
      have hrecovered : Recovered kv ((applyAll kv ops).apply
          (.put_txn_meta id { state := .kCommitted, commit_ts := txn_meta.commit_ts })) := by
        refine happlied.recovered.trans (.put_txn_meta hmeta₁ hopen ?_)
        rw [TxnMeta.fate, TxnMeta.fate, hstate]
      have hsynced₂ : Synced ((applyAll kv ops).apply
          (.put_txn_meta id { state := .kCommitted, commit_ts := txn_meta.commit_ts })) db :=
        ⟨happlied.next_ts.trans hsynced.next_ts, happlied.next_txn.trans hsynced.next_txn,
          happlied.next_vid.trans hsynced.next_vid, hsynced.ts_pos, hsynced.txn_pos, hsynced.vid_pos⟩
      have hdone : ((applyAll kv ops).apply
          (.put_txn_meta id { state := .kCommitted, commit_ts := txn_meta.commit_ts })).txns id =
            some { state := .kCommitted, commit_ts := txn_meta.commit_ts } := Function.update_self ..
      have hfirst : After (fun _ kv' => Recoverable kv' ∧ Recovered kv kv') kv ops :=
        hafter.mono fun _ kv' hkv' => ⟨hkv'.1, hkv'.2.recovered⟩
      by_cases hbehind : db.next_ts ≤ txn_meta.commit_ts
      · rw [if_pos hbehind] at hrun
        obtain ⟨hafter₃, h₃, hsynced₃⟩ :=
          h₂.persist_synced hsynced₂ { db with next_ts := txn_meta.commit_ts + 1 } (Nat.succ_pos _) le_rfl le_rfl
        refine ⟨_, _, hrun, ?_, ?_⟩
        · exact hfirst.append ⟨⟨h₂, hrecovered⟩, hafter₃.mono fun _ kv' hkv' => ⟨hkv'.1, hrecovered.trans hkv'.2⟩⟩
        · rw [applyAll_append]
          refine ⟨h₃, hrecovered.trans (.of_eq rfl rfl), hsynced₃, ⟨_, rfl⟩, fun txn_meta' hsome => ?_⟩
          cases hdone.symm.trans hsome
          exact .inl rfl
      · rw [if_neg hbehind] at hrun
        refine ⟨_, _, hrun, hfirst.append ⟨⟨h₂, hrecovered⟩, trivial⟩, ?_⟩
        rw [applyAll_append]
        refine ⟨h₂, hrecovered, hsynced₂, ⟨_, rfl⟩, fun txn_meta' hsome => ?_⟩
        cases hdone.symm.trans hsome
        exact .inl rfl

/-- The rounds of the recovery, from one id on. -/
theorem recover_loop (h : Recoverable kv) (hsynced : Synced kv db) {id : Nat}
    (hbefore : ∀ id' < id, ∀ txn_meta, kv.txns id' = some txn_meta → txn_meta.Settled) (n : Nat) :
    ∃ ops db', Database.recover_loop n id db kv = (ops, .ok db') ∧
      After (fun _ kv' => Recoverable kv' ∧ Recovered kv kv') kv ops ∧ Recoverable (applyAll kv ops) ∧
      Recovered kv (applyAll kv ops) ∧ Synced (applyAll kv ops) db' ∧ (∃ ts, db' = { db with next_ts := ts }) ∧
      ∀ id' < id + n, ∀ txn_meta, (applyAll kv ops).txns id' = some txn_meta → txn_meta.Settled := by
  induction n generalizing kv db id with
  | zero => exact ⟨[], db, rfl, trivial, h, .refl kv, hsynced, ⟨_, rfl⟩, hbefore⟩
  | succ n ih =>
    obtain ⟨ops, db₁, hrun, hafter, h₁, hrecovered, hsynced₁, ⟨ts, rfl⟩, hsettled⟩ := h.recover_txn hsynced id
    have hbefore₁ : ∀ id' < id + 1, ∀ txn_meta, (applyAll kv ops).txns id' = some txn_meta → txn_meta.Settled := by
      intro id' hlt txn_meta hsome
      rcases Nat.lt_succ_iff_lt_or_eq.mp hlt with hlt | rfl
      · -- an earlier transaction was over before, and its record has stayed
        have hfate := hrecovered.fates id'
        rw [hsome] at hfate
        cases hmeta : kv.txns id' with
        | none =>
          rw [hmeta] at hfate
          cases hfate
        | some old =>
          have hover := hbefore id' hlt old hmeta
          cases hsome.symm.trans (hrecovered.settled id' old hmeta hover)
          exact hover
      · exact hsettled txn_meta hsome
    obtain ⟨ops', db₂, hrun', hafter', h₂, hrecovered', hsynced₂, ⟨ts', rfl⟩, hsettled'⟩ := ih h₁ hsynced₁ hbefore₁
    refine ⟨ops ++ ops', { db with next_ts := ts' }, ?_, ?_, ?_⟩
    · rw [Database.recover_loop, Prog.bind_ok hrun, hrun']
    · exact hafter.append (hafter'.mono fun _ kv' hkv' => ⟨hkv'.1, hrecovered.trans hkv'.2⟩)
    · rw [applyAll_append]
      refine ⟨h₂, hrecovered.trans hrecovered', hsynced₂, ⟨ts', rfl⟩, ?_⟩
      intro id' hlt
      exact hsettled' id' (by omega)

/-- Every recovery returns, keeps the fate of every transaction at every point, and
    settles them all. -/
theorem open_db (h : Recoverable kv) (catalog : String → Option TableSchema) :
    ∃ ops db, Database.open_db catalog kv = (ops, .ok db) ∧
      After (fun _ kv' => Recoverable kv' ∧ Recovered kv kv') kv ops ∧ Recoverable (applyAll kv ops) ∧
      Recovered kv (applyAll kv ops) ∧ Synced (applyAll kv ops) db ∧ db.ddl_in_progress = false ∧
      ∀ id txn_meta, (applyAll kv ops).txns id = some txn_meta → txn_meta.Settled := by
  let db₀ : Database := { catalog, next_ts := Database.load kv.next_ts 1, next_txn_id := Database.load kv.next_txn 1,
                          next_version_id := Database.load kv.next_vid 1 }
  have hinit : init_oracles catalog kv = (db₀.oracle_ops, .ok db₀) := rfl
  obtain ⟨hafter, h₁, hsynced⟩ := h.persist db₀ (load_pos _) le_rfl le_rfl
  have hbefore : ∀ id' < 1, ∀ txn_meta, (applyAll kv db₀.oracle_ops).txns id' = some txn_meta →
      txn_meta.Settled := by
    intro id' hlt txn_meta hmeta
    have hpos := (h.ids id' txn_meta hmeta).1
    omega
  obtain ⟨ops, db', hrun, hafter', h₂, hrecovered, hsynced', ⟨ts, rfl⟩, hsettled⟩ :=
    h₁.recover_loop hsynced hbefore (db₀.next_txn_id - 1)
  have hfirst : Recovered kv (applyAll kv db₀.oracle_ops) := .of_eq rfl rfl
  refine ⟨db₀.oracle_ops ++ ops, { db₀ with next_ts := ts }, ?_, ?_, ?_⟩
  · rw [Database.open_db, Prog.bind_ok hinit, Database.recover_txns, hrun]
  · exact hafter.append (hafter'.mono fun _ kv' hkv' => ⟨hkv'.1, hfirst.trans hkv'.2⟩)
  · rw [applyAll_append]
    refine ⟨h₂, hfirst.trans hrecovered, hsynced', rfl, fun id txn_meta hmeta => ?_⟩
    have hlt := (h₂.ids id txn_meta hmeta).2
    rw [hsynced'.next_txn, load_some hsynced'.txn_pos] at hlt
    change id < db₀.next_txn_id at hlt
    exact hsettled id (by omega) txn_meta hmeta

/-- A recovery after a recovery writes nothing but counters. -/
theorem recover_loop_settled (hsettled : ∀ id txn_meta, kv.txns id = some txn_meta → txn_meta.Settled) (n id : Nat)
    (db : Database) : Database.recover_loop n id db kv = ([], .ok db) := by
  induction n generalizing id with
  | zero => rfl
  | succ n ih =>
    rw [Database.recover_loop, Prog.bind_ok (recover_settled (hsettled id) db)]
    exact Prod.ext (by rw [List.nil_append]; exact congrArg Prod.fst (ih (id + 1))) (congrArg Prod.snd (ih (id + 1)))

theorem open_db_settled (hsettled : ∀ id txn_meta, kv.txns id = some txn_meta → txn_meta.Settled)
    (catalog : String → Option TableSchema) :
    (applyAll kv (Database.open_db catalog kv).1).txns = kv.txns ∧
      (applyAll kv (Database.open_db catalog kv).1).heads = kv.heads ∧
      (applyAll kv (Database.open_db catalog kv).1).versions = kv.versions := by
  let db₀ : Database := { catalog, next_ts := Database.load kv.next_ts 1, next_txn_id := Database.load kv.next_txn 1,
                          next_version_id := Database.load kv.next_vid 1 }
  have hinit : init_oracles catalog kv = (db₀.oracle_ops, .ok db₀) := rfl
  have hloop := @recover_loop_settled (applyAll kv db₀.oracle_ops) hsettled (db₀.next_txn_id - 1) 1 db₀
  rw [Database.open_db, Prog.bind_ok hinit, Database.recover_txns, hloop]
  exact ⟨rfl, rfl, rfl⟩

end Recoverable

end reldb
