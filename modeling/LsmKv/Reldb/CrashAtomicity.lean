import LsmKv.Reldb.ByteStore

namespace reldb

open lsmkv (Status)
open effects (applyAll After)
open Option Machine

namespace Machine

variable {catalog : String → Option TableSchema} {m m' : Machine}

/-- What holds of a machine at every moment. -/
def Ok : Machine → Prop
  | .up node => Running node
  | .down kv => Recoverable kv

theorem Ok.recoverable (h : m.Ok) : Recoverable m.kv := by
  cases m with
  | up node => exact h.recoverable
  | down kv => exact h

/-- A process that has just opened the store. -/
theorem opened_running {kv : Kv} (h : Recoverable kv) {node : Node} (hopened : Node.opened kv catalog = some node) :
    Running node ∧ Kept kv node.kv := by
  obtain ⟨ops, db, hrun, -, h', hrecovered, hsynced, hddl, hsettled⟩ := h.open_db catalog
  rw [Node.opened, hrun] at hopened
  cases hopened
  refine ⟨⟨h', hsynced, hddl, fun id txn_meta hmeta hstate => ?_, by rintro id txn ⟨⟩, by rintro id txn ⟨⟩,
    by rintro k v rec _ txn ⟨⟩⟩, hrecovered.settled⟩
  rcases hsettled id txn_meta hmeta with hover | hover <;> rw [hover] at hstate <;> cases hstate

theorem ok_step (h : m.Ok) {event : Event} (hstep : m.step catalog event = some m') :
    m'.Ok ∧ Kept m.kv m'.kv := by
  cases m with
  | up node =>
    cases event with
    | call call =>
      obtain ⟨⟨after, status⟩, hafter, rfl⟩ := map_eq_some_iff.mp hstep
      obtain ⟨run, hcomes, hfinish⟩ := Node.step_comes hafter
      obtain ⟨hcrash, hrunning⟩ := Running.comes h hcomes
      have hlast := hcrash.invariant (I := fun kv' => Recoverable kv' ∧ Kept node.kv kv')
        ⟨Running.recoverable h, .of_eq rfl⟩ run.1.length
      rw [List.take_length, ← Node.finish_kv, hfinish] at hlast
      rw [hfinish] at hrunning
      exact ⟨hrunning, hlast.2⟩
    | crash call writes =>
      obtain ⟨ops, hops, rfl⟩ := map_eq_some_iff.mp hstep
      obtain ⟨p, hprog, rfl⟩ := map_eq_some_iff.mp hops
      exact (Running.comes h (Node.prog_comes hprog)).crash.invariant (I := fun kv' => Recoverable kv' ∧ Kept node.kv kv')
        ⟨h.recoverable, .of_eq rfl⟩ writes
    | reopen | reopen_crash => cases hstep
  | down kv =>
    cases event with
    | call | crash => cases hstep
    | reopen =>
      obtain ⟨node, hopened, rfl⟩ := map_eq_some_iff.mp hstep
      exact opened_running h hopened
    | reopen_crash writes =>
      cases hstep
      obtain ⟨ops, db, hrun, hafter, -⟩ := Recoverable.open_db h catalog
      have hcrash := hafter.invariant (I := fun kv' => Recoverable kv' ∧ Recovered kv kv') ⟨h, .refl kv⟩ writes
      rw [hrun]
      exact ⟨hcrash.1, hcrash.2.settled⟩

theorem ok_run (h : m.Ok) {events : List Event} (hrun : run catalog m events = some m') : m'.Ok ∧ Kept m.kv m'.kv := by
  induction events generalizing m with
  | nil =>
    cases hrun
    exact ⟨h, .of_eq rfl⟩
  | cons event events ih =>
    obtain ⟨next, hstep, hrest⟩ := bind_eq_some_iff.mp hrun
    obtain ⟨hnext, hkept⟩ := ok_step h hstep
    obtain ⟨hlast, hkept'⟩ := ih hnext hrest
    exact ⟨hlast, hkept.trans hkept'⟩

/-- An empty store. -/
theorem ok_empty : (Machine.down {}).Ok :=
  ⟨by rintro id txn_meta ⟨⟩, by rintro k v rec ⟨⟩, by rintro k v rec ⟨⟩, by rintro k head ⟨⟩,
    by rintro id txn_meta ⟨⟩, by rintro id txn_meta ⟨⟩⟩

end Machine

theorem interrupted_recovered {kv : Kv} (h : Recoverable kv) (catalog : String → Option TableSchema)
    (crashes : List Nat) : Recoverable (interrupted catalog kv crashes) ∧ Recovered kv (interrupted catalog kv crashes) := by
  induction crashes generalizing kv with
  | nil => exact ⟨h, .refl kv⟩
  | cons writes crashes ih =>
    obtain ⟨ops, db, hrun, hafter, -⟩ := h.open_db catalog
    have hcrash := hafter.invariant (I := fun kv' => Recoverable kv' ∧ Recovered kv kv') ⟨h, .refl kv⟩ writes
    rw [interrupted, hrun]
    obtain ⟨h', hrecovered⟩ := ih hcrash.1
    exact ⟨h', hcrash.2.trans hrecovered⟩

/-- What a recovery leaves of a transaction whose record the crash found. -/
def Outcome (kv₀ kv : Kv) (id : Nat) (txn_meta₀ txn_meta : TxnMeta) : Prop :=
  match txn_meta₀.fate with
  | some commit_ts => txn_meta.state = .kCommitted ∧ txn_meta.commit_ts = commit_ts ∧
      (∀ k v, (kv.versions k v).map VersionRecord.created_by = (kv₀.versions k v).map VersionRecord.created_by) ∧
      (∀ w ∈ txn_meta₀.writes, ∃ rec, kv.versions w.key w.version_id = some rec ∧ rec.created_by = id) ∧
      ∀ k v rec, kv.versions k v = some rec → rec.created_by = id →
        rec.start_ts = commit_ts ∧ PrevEnds kv k rec commit_ts
  | none => txn_meta.state = .kAborted ∧
      ∀ k v rec, kv.versions k v = some rec → rec.created_by = id → rec.start_ts = 0

/-- A settled record of a recovered store is what became of the record found by the crash. -/
theorem Recovered.outcome {kv₀ kv : Kv} (h₀ : Recoverable kv₀) (h : Recoverable kv) (hrecovered : Recovered kv₀ kv)
    {id : Nat} {txn_meta : TxnMeta} (hmeta : kv.txns id = some txn_meta) (hsettled : txn_meta.Settled) :
    ∃ txn_meta₀, kv₀.txns id = some txn_meta₀ ∧ Outcome kv₀ kv id txn_meta₀ txn_meta := by
  have hfate := hrecovered.fates id
  rw [hmeta, map_some] at hfate
  obtain ⟨txn_meta₀, hmeta₀, hfate₀⟩ := map_eq_some_iff.mp hfate.symm
  refine ⟨txn_meta₀, hmeta₀, ?_⟩
  have howned : ∀ k v rec, kv.versions k v = some rec → rec.created_by = id → OwnerOk kv k v rec txn_meta := by
    intro k v rec hversion hcreated
    obtain ⟨owner, howner, hok⟩ := h.owner k v rec hversion
    rw [hcreated, hmeta] at howner
    cases howner
    exact hok
  rw [Outcome, hfate₀]
  unfold OwnerOk at howned
  rcases hsettled with hstate | hstate
  · simp only [TxnMeta.fate, hstate] at howned ⊢
    refine ⟨trivial, trivial, hrecovered.owners, fun w hw => ?_, fun k v rec hversion hcreated => ?_⟩
    · -- the versions of the write list are there since the crash
      obtain ⟨rec₀, hversion₀, hcreated₀⟩ := h₀.written id txn_meta₀ hmeta₀ w hw
      have howner := hrecovered.owners w.key w.version_id
      rw [hversion₀, map_some, hcreated₀] at howner
      exact map_eq_some_iff.mp howner
    · obtain ⟨-, hstart, hends⟩ := howned k v rec hversion hcreated
      exact ⟨hstart, hends⟩
  · simp only [TxnMeta.fate, hstate] at howned ⊢
    exact ⟨trivial, fun k v rec hversion hcreated => (howned k v rec hversion hcreated).1⟩

/-- The process dies inside a call, and then inside some runs of `Open`. -/
def Event.crashed (call : Call) (writes : Nat) (crashes : List Nat) : List Event :=
  .crash call writes :: crashes.map .reopen_crash

theorem Machine.run_crashed {catalog : String → Option TableSchema} {node : Node} {call : Call} {ops : List KvOp}
    (hops : node.ops call = some ops) (writes : Nat) (crashes : List Nat) :
    run catalog (.up node) (Event.crashed call writes crashes) =
      some (.down (interrupted catalog (applyAll node.kv (ops.take writes)) crashes)) := by
  rw [Event.crashed, run, step, hops]
  have hall : ∀ kv, run catalog (.down kv) (crashes.map .reopen_crash) = some (.down (interrupted catalog kv crashes)) := by
    induction crashes with
    | nil => exact fun _ => rfl
    | cons writes crashes ih => exact fun _ => ih _
  exact hall _

/-- Whatever a crash and any number of interrupted recoveries leave, the next `Open`
    returns, commits the transactions whose intent was durable and aborts all others; no
    later transaction meets a version of an aborted one, and `Open` once more changes
    nothing. A crash loses no write that was made and keeps none that was not; what the
    process and `Open` have written fits the records, so that it can be read back. -/
theorem open_after_crash_atomic {catalog : String → Option TableSchema} {events : List Event} {node : Node}
    (hrun : Machine.run catalog (.down {}) events = some (.up node)) {call : Call} {ops : List KvOp}
    (hops : node.ops call = some ops) (writes : Nat) (crashes : List Nat)
    (hfits : Machine.fits catalog (events ++ Event.crashed call writes crashes ++ [.reopen]) = true) :
    (interrupted catalog (applyAll node.kv (ops.take writes)) crashes).ReadFrom
      (Machine.bytes catalog (events ++ Event.crashed call writes crashes)) ∧
    ∃ ops' db, Database.open_db catalog (interrupted catalog (applyAll node.kv (ops.take writes)) crashes) =
        (ops', .ok db) ∧
      ∀ kv, kv = applyAll (interrupted catalog (applyAll node.kv (ops.take writes)) crashes) ops' →
        kv.ReadFrom (Machine.bytes catalog (events ++ Event.crashed call writes crashes ++ [.reopen])) ∧
        (∀ id txn_meta, kv.txns id = some txn_meta → ∃ txn_meta₀,
          (applyAll node.kv (ops.take writes)).txns id = some txn_meta₀ ∧
            Outcome (applyAll node.kv (ops.take writes)) kv id txn_meta₀ txn_meta) ∧
        (∀ id, ((applyAll node.kv (ops.take writes)).txns id).isSome → (kv.txns id).isSome) ∧
        (∀ later node', Machine.run catalog (.up ⟨kv, db, fun _ => none⟩) later = some (.up node') →
          ∀ id txn_meta, kv.txns id = some txn_meta → txn_meta.state = .kAborted →
            (∀ k v rec, node'.kv.versions k v = some rec → rec.created_by = id → rec.start_ts = 0) ∧
            ∀ id' txn, node'.txns id' = some txn → txn.finished = false → ∀ k fuel v rec,
              node'.kv.visible_version k txn.start_ts txn.txn_id (some node'.kv.get_txn_meta) fuel v = .ok (some rec) →
                rec.created_by ≠ id) ∧
        (applyAll kv (Database.open_db catalog kv).1).txns = kv.txns ∧
        (applyAll kv (Database.open_db catalog kv).1).heads = kv.heads ∧
        (applyAll kv (Database.open_db catalog kv).1).versions = kv.versions := by
  have hrunning : Running node := (ok_run ok_empty hrun).1
  have h₀ : Recoverable (applyAll node.kv (ops.take writes)) := by
    have hstep : (Machine.up node).step catalog (.crash call writes) =
        some (.down (applyAll node.kv (ops.take writes))) := by
      rw [Machine.step, hops]
      rfl
    exact (ok_step (m := .up node) hrunning hstep).1
  obtain ⟨h₁, hrecovered₁⟩ := interrupted_recovered h₀ catalog crashes
  obtain ⟨ops', db, hopen, -, h₂, hrecovered₂, -, -, hsettled⟩ := h₁.open_db catalog
  have hrecovered := hrecovered₁.trans hrecovered₂
  have hdown : Machine.run catalog (.down {}) (events ++ Event.crashed call writes crashes) =
      some (.down (interrupted catalog (applyAll node.kv (ops.take writes)) crashes)) := by
    rw [run_append, hrun]
    exact run_crashed hops writes crashes
  refine ⟨readFrom_run hdown (fits_of_append hfits), ops', db, hopen, fun kv hkv => ?_⟩
  rw [← hkv] at h₂ hrecovered hsettled
  have hopened : Node.opened (interrupted catalog (applyAll node.kv (ops.take writes)) crashes) catalog =
      some ⟨kv, db, fun _ => none⟩ := by
    rw [Node.opened, hopen, hkv]
  have hup : Running ⟨kv, db, fun _ => none⟩ := (opened_running h₁ hopened).1
  have hreopened : Machine.run catalog (.down {}) (events ++ Event.crashed call writes crashes ++ [.reopen]) =
      some (.up ⟨kv, db, fun _ => none⟩) := by
    rw [run_append, hdown]
    exact congrArg (Option.bind · _) (congrArg (Option.map Machine.up) hopened)
  refine ⟨readFrom_run hreopened hfits,
    fun id txn_meta hmeta => hrecovered.outcome h₀ h₂ hmeta (hsettled id txn_meta hmeta), fun id hsome => ?_,
    fun later node' hlater id txn_meta hmeta hstate => ?_, Recoverable.open_db_settled hsettled catalog⟩
  · have hfate := congrArg Option.isSome (hrecovered.fates id)
    rw [isSome_map, isSome_map] at hfate
    rw [hfate]
    exact hsome
  · obtain ⟨hok', hkept⟩ := ok_run (m := .up ⟨kv, db, fun _ => none⟩) hup hlater
    have hrunning' : Running node' := hok'
    have hmeta' : node'.kv.txns id = some txn_meta := hkept id txn_meta hmeta (.inr hstate)
    have hunstamped : ∀ k v rec, node'.kv.versions k v = some rec → rec.created_by = id → rec.start_ts = 0 := by
      intro k v rec hversion hcreated
      obtain ⟨owner, howner, hok⟩ := hrunning'.recoverable.owner k v rec hversion
      rw [hcreated, hmeta'] at howner
      cases howner
      rw [OwnerOk, hstate] at hok
      exact hok.1
    refine ⟨hunstamped, fun id' txn htxn hlive k fuel v rec hvisible hcreated => ?_⟩
    obtain ⟨⟨v', hversion⟩, hown⟩ := Kv.visible_version_some hvisible
    have hreader := hown (hunstamped k v' rec hversion hcreated)
    rw [hcreated, hrunning'.txns id' txn htxn] at hreader
    subst hreader
    rw [(hrunning'.opened id txn htxn hlive).1] at hmeta'
    cases hmeta'
    cases hstate

/-- A row is written and the transaction is about to commit. -/
def aboutToCommit : List Event :=
  [.reopen, .call .begin_txn, .call (.insert 1 "t" [.int64 1, .int64 10])]

/-- The process dies when the intent to commit is durable, and dies once more in recovery. -/
theorem open_after_crash_atomic_intent : ∃ node ops, Machine.run numbers (.down {}) aboutToCommit = some (.up node) ∧
    node.ops (.commit 1) = some ops ∧
    ∃ ops' db, Database.open_db numbers (interrupted numbers (applyAll node.kv (ops.take 1)) [4]) = (ops', .ok db) ∧
      ∀ kv, kv = applyAll (interrupted numbers (applyAll node.kv (ops.take 1)) [4]) ops' →
        ∀ id txn_meta, kv.txns id = some txn_meta → ∃ txn_meta₀,
          (applyAll node.kv (ops.take 1)).txns id = some txn_meta₀ ∧
            Outcome (applyAll node.kv (ops.take 1)) kv id txn_meta₀ txn_meta := by
  have hfacts : (((Machine.run numbers (.down {}) aboutToCommit).bind Machine.node?).bind (fun node =>
      node.ops (.commit 1))).isSome = true := by decide +kernel
  obtain ⟨ops, hfacts⟩ := isSome_iff_exists.mp hfacts
  obtain ⟨node, hrun, hops⟩ := run_up hfacts
  obtain ⟨-, ops', db, hopen, hall⟩ := open_after_crash_atomic hrun hops 1 [4] (by decide +kernel)
  exact ⟨node, ops, hrun, hops, ops', db, hopen, fun kv hkv => (hall kv hkv).2.1⟩

/-- A string of 2 ^ 32 bytes is inserted before the crash: recovery has to read its version
    for the open transaction, and the record is refused. -/
theorem crash_after_long_insert : ∃ kv, Machine.run strings (.down {})
      (Event.session (insert_string (List.replicate (2 ^ 32) 97)) ++ Event.crashed (.abort 1) 0 []) = some (.down kv) ∧
    kv.txns 1 = some { writes := [⟨"t", .int64 1, 1⟩] } ∧ kv.heads ("t", .int64 1) = some 1 ∧
    (Machine.bytes strings (Event.session (insert_string (List.replicate (2 ^ 32) 97)) ++
      Event.crashed (.abort 1) 0 [])).get_version ("t", .int64 1) 1 =
        .error (.Corruption "version: trailing bytes") := by
  have hrun : ∀ s, ∃ kv, Machine.run strings (.down {})
      (Event.session (insert_string s) ++ Event.crashed (.abort 1) 0 []) = some (.down kv) ∧
        kv.txns 1 = some { writes := [⟨"t", .int64 1, 1⟩] } ∧ kv.heads ("t", .int64 1) = some 1 ∧
        Machine.writes strings (.down {}) (Event.session (insert_string s) ++ Event.crashed (.abort 1) 0 []) =
          Machine.writes strings (.down {}) (Event.session (insert_string s)) :=
    fun s => ⟨_, rfl, rfl, rfl, rfl⟩
  obtain ⟨kv, hdown, hmeta, hhead, hwrites⟩ := hrun (List.replicate (2 ^ 32) 97)
  exact ⟨kv, hdown, hmeta, hhead, get_version_long (List.length_replicate ..).ge hwrites⟩

end reldb
