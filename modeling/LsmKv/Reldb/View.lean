import LsmKv.Reldb.SchemaChanges

namespace reldb

open lsmkv (Status)
open effects (applyAll)
open effects.Prog (bind_result)
open history (latest)
open snapshot (keyCommits committedAt)
open Function

/-- The transaction that a command is made on. -/
def Command.txn : Command → Option Nat
  | Command.call c => c.txn
  | Command.ddl _ => none

namespace Node

variable {node after : Node} {call : Call} {status : Except Status Unit} {log : snapshot.State RowKey Row}
  {since id : Nat} {txn : Transaction}

/-- A call changes the transaction that it is made on, or adds the one that it begins. -/
theorem prog_txn_id {p : KvProg (Database × Transaction × Except Status Unit)} {db' : Database} {txn' : Transaction}
    (hprog : node.prog call = some p) (hresult : (p node.kv).2 = .ok (db', txn', status)) :
    (call.txn = none ∧ txn'.txn_id = node.db.next_txn_id) ∨
      ∃ id txn, call.txn = some id ∧ node.txns id = some txn ∧ txn'.txn_id = txn.txn_id := by
  have hcomes := prog_comes hprog
  generalize p node.kv = run at hcomes hresult
  cases hcomes with
  | fails | stuck => cases hresult
  | begins hddl =>
    cases hresult
    exact .inl ⟨rfl, rfl⟩
  | rewrites hcall _ htxn | installs hcall _ htxn =>
    cases hresult
    exact .inr ⟨_, _, row_call_id hcall, htxn, rfl⟩
  | skips htxn | aborts htxn | conflicts htxn =>
    cases hresult
    exact .inr ⟨_, _, rfl, htxn, rfl⟩
  | commits htxn =>
    rcases Transaction.commit_writes_result hresult with ⟨-, rfl⟩ | hmarked
    · exact .inr ⟨_, _, rfl, htxn, rfl⟩
    · cases hmarked
      exact .inr ⟨_, _, rfl, htxn, rfl⟩

/-- The other transactions stay as they are. -/
theorem step_txns_other (h : Simulates since node log) (hstep : node.step call = some (after, status))
    (hother : call.txn ≠ some id) (hlt : id < node.db.next_txn_id) : after.txns id = node.txns id := by
  obtain ⟨p, hprog, hrun⟩ := Option.map_eq_some_iff.mp hstep
  cases hcase : p node.kv with
  | mk ops result =>
  rw [hcase] at hrun
  cases result with
  | error s =>
    cases hrun
    rfl
  | ok r =>
    obtain ⟨db', txn', status'⟩ := r
    cases hrun
    refine update_of_ne (fun heq => ?_) _ _
    rcases prog_txn_id hprog (by rw [hcase]) with ⟨-, hid⟩ | ⟨id', txn, hcall, htxn, hid⟩
    · exact (heq.trans hid).not_lt hlt
    · rw [hid, (h.txns id' txn htxn).1] at heq
      exact hother (heq ▸ hcall)

/-- What the clients know of the other transactions stays, too. -/
theorem observe_active_other (hother : call.txn ≠ some id) (hne : id ≠ node.db.next_txn_id) :
    (node.observe after log call status).active id = log.active id := by
  have hdrop : ∀ {id'}, some id' ≠ some id → (log.drop id').active id = log.active id := fun hne' =>
    update_of_ne (fun heq => hne' (congrArg some heq.symm)) _ _
  have hwrite : ∀ {id' u}, some id' ≠ some id → (log.write id' u).active id = log.active id := by
    intro id' u hne'
    rw [snapshot.State.write]
    split
    · rfl
    · exact update_of_ne (fun heq => hne' (congrArg some heq.symm)) _ _
  cases status with
  | error s =>
    cases call with
    | commit id' =>
      simp only [observe]
      split
      · exact hdrop hother
      · rfl
    | _ => rfl
  | ok _ =>
    cases call with
    | begin_txn => exact update_of_ne hne _ _
    | abort id' => exact hdrop hother
    | commit id' =>
      simp only [observe, snapshot.State.commit]
      split
      · rfl
      · exact hdrop hother
    | delete id' table pk => exact hwrite hother
    | insert id' table row | update id' table row =>
      simp only [observe, update?]
      cases Transaction.row_key node.db table row with
      | ok key => exact hwrite hother
      | error s => rfl

end Node

namespace Simulates

variable {since : Nat} {node after : Node} {log : snapshot.State RowKey Row} {call : Call} {status : Except Status Unit}
  {id : Nat} {txn : Transaction}

/-- A commit is stamped with the next timestamp. -/
theorem commit_stamp (h : Simulates since node log) (hstep : node.step (.commit id) = some (after, .ok ())) :
    ((after.kv.txns id).map TxnMeta.commit_ts).getD 0 = node.db.next_ts := by
  obtain ⟨txn, htxn, hopen⟩ := Conforms.commit_open hstep
  have hprog : node.prog (.commit id) = some (txn.commit node.db) := by rw [Node.prog, htxn, Option.map_some]
  obtain ⟨ops, hwrites, hregistry, -⟩ := h.commit_writes htxn hopen
  have hrun : txn.commit node.db node.kv = txn.commit_writes node.db node.kv := by
    rw [Transaction.commit, if_neg (by simp [hopen]), effects.Prog.query_bind, h.check_commit_none htxn hopen]
  obtain ⟨rfl, -⟩ := Node.step_ok hprog (hrun.trans hwrites) hstep
  rw [show (applyAll node.kv ops).txns id = _ from hregistry]
  rfl

/-- What is committed in a snapshot stays. -/
theorem committedAt_step (h : Simulates since node log) (hstep : node.step call = some (after, status)) {ts : Nat}
    (hts : ts < node.db.next_ts) (k : RowKey) :
    committedAt (keyCommits (node.observe after log call status).commits k) ts =
      committedAt (keyCommits log.commits k) ts := by
  rcases observe_commits node after log call status with hsame | ⟨id, t, commit_ts, rfl, rfl, hactive, hcommits⟩
  · rw [hsame]
  · have hobserve : (node.observe after log (.commit id) (.ok ())).commits =
        log.commits ++ [⟨id, t.start_ts, node.db.next_ts, t.writes⟩] := by
      simp only [Node.observe, snapshot.State.commit, hactive, h.commit_stamp hstep]
    rw [hobserve]
    refine snapshot.committedAt_append fun c hc _ => ?_
    obtain rfl := List.mem_singleton.mp hc
    exact hts

end Simulates

/-- With a transaction under way DDL is refused, whatever there is in the store. -/
theorem Ddl.refused (ddl : Ddl) {db : Database} (hbusy : db.open_txn_count ≠ 0) (disk : Disk) :
    ∃ s, ddl.prog db disk = ([], .ok (db, .error s)) := by
  rcases ddl.prog_cases db with ⟨s, hrefused⟩ | ⟨schema, -, hcheck, -⟩ | ⟨name, -, hcheck, -⟩ | ⟨table, a, halters, -⟩
  · exact ⟨s, hrefused disk⟩
  · exact absurd (Database.check_create_table_ok hcheck).1 hbusy
  · exact absurd (Database.check_drop_table_ok hcheck).1 hbusy
  · exact absurd halters.none_open hbusy

/-- What a transaction under way sees of each row: what it wrote last, or else what was
    committed when it began. -/
structure Server.Sees (server : Server) (id : Nat) (txn : Transaction) (view : RowKey → Option Row) : Prop where
  sound : server.Sound
  begun : server.txns id = some txn
  unfinished : txn.finished = false
  log : ∃ since log t, Simulates since server.node log ∧ Active server.disk.kv log id txn t ∧
    ∀ k, view k = (latest t.writes k).getD (committedAt (keyCommits log.commits k) txn.start_ts).join

namespace Server

variable {server after : Server} {id : Nat} {txn : Transaction} {view : RowKey → Option Row} {status : Except Status Unit}

theorem InStep.sees (h : server.InStep) (htxn : server.txns id = some txn) (hopen : txn.finished = false) :
    ∃ view, server.Sees id txn view := by
  obtain ⟨⟨since, log, floor, hsim, -⟩, hsound⟩ := h
  obtain ⟨t, hactive⟩ := hsim.active id txn htxn hopen
  exact ⟨_, hsound, htxn, hopen, since, log, t, hsim, hactive, fun _ => rfl⟩

theorem busy (hsound : server.Sound) (htxn : server.txns id = some txn) (hopen : txn.finished = false) :
    server.db.open_txn_count ≠ 0 := by
  intro hnone
  rw [@Node.Counted.none_open server.node hsound.counted hnone id txn htxn] at hopen
  cases hopen

/-- DDL is refused while a transaction is under way. -/
theorem ddl_refused (hsound : server.Sound) (htxn : server.txns id = some txn) (hopen : txn.finished = false) {ddl : Ddl}
    (hstep : server.step (.ddl ddl) = some (after, status)) : after = server ∧ ∃ s, status = .error s := by
  obtain ⟨s, hrefused⟩ := ddl.refused (busy hsound htxn hopen) server.disk
  obtain ⟨rfl, rfl⟩ := ddl_after hrefused hstep
  exact ⟨rfl, s, rfl⟩

namespace Sees

/-- `GetRow` finds what the transaction sees. -/
theorem get_row (h : server.Sees id txn view) (k : RowKey) : Reads (txn.get_row server.disk.kv k) (view k) := by
  obtain ⟨since, log, t, hsim, hactive, hview⟩ := h.log
  rw [hview]
  exact hsim.get_row_reads h.begun h.unfinished hactive k

theorem get (h : server.Sees id txn view) (table : String) (pk : Value) :
    Reads (txn.get server.disk.kv server.db table pk) (view (table, pk)) := by
  obtain ⟨since, log, t, hsim, hactive, hview⟩ := h.log
  rw [hview]
  exact hsim.get_reads_active h.begun h.unfinished hactive table pk

/-- The view of a transaction stays while others run. -/
theorem step (h : server.Sees id txn view) {command : Command} (hother : command.txn ≠ some id)
    (hstep : server.step command = some (after, status)) : after.Sees id txn view := by
  cases command with
  | ddl ddl =>
    obtain ⟨rfl, -⟩ := ddl_refused h.sound h.begun h.unfinished hstep
    exact h
  | call call =>
    obtain ⟨since, log, t, hsim, hactive, hview⟩ := h.log
    obtain ⟨-, -, hnode, -⟩ := step_call hstep
    have hsim' := hsim.step hnode
    obtain ⟨-, hlt, hstart⟩ := hsim.txns id txn h.begun
    have htxn : after.txns id = some txn := (Node.step_txns_other hsim hnode hother hlt).trans h.begun
    obtain ⟨t', hactive'⟩ := hsim'.active id txn htxn h.unfinished
    have hsame : t = t' := by
      have hobserved := hactive'.active
      rw [Node.observe_active_other hother hlt.ne, hactive.active] at hobserved
      exact Option.some.inj hobserved
    subst hsame
    refine ⟨h.sound.step hstep, htxn, h.unfinished, since, _, t, hsim', hactive', fun k => ?_⟩
    rw [hview, hsim.committedAt_step hnode hstart]

end Sees

end Server

end reldb
