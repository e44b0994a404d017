import LsmKv.Reldb.Ddl
import LsmKv.Reldb.Node

namespace reldb

open lsmkv (Status)
open effects (applyAll)
open List Option Database

/-- A process on the whole store: transactions and DDL. -/
structure Server where
  disk : Disk
  db : Database
  txns : Nat → Option Transaction := fun _ => none

/-- What clients ask for. -/
inductive Command where
  | call (call : Call)
  | ddl (ddl : Ddl)

theorem Node.step_ops {node after : Node} {call : Call} {status : Except Status Unit}
    (h : node.step call = some (after, status)) :
    ∃ ops, node.ops call = some ops ∧ after.kv = applyAll node.kv ops := by
  obtain ⟨p, hprog, hrun⟩ := map_eq_some_iff.mp h
  refine ⟨(p node.kv).1, by rw [Node.ops, hprog, map_some], ?_⟩
  cases hcase : p node.kv with
  | mk ops result =>
    rw [hcase] at hrun
    cases result <;> cases hrun <;> rfl

namespace Server

/-- The part that transactions work on. -/
def node (server : Server) : Node := ⟨server.disk.kv, server.db, server.txns⟩

/-- The writes of a command, in their order. -/
def ops (server : Server) : Command → Option (List DiskOp)
  | .call call => (server.node.ops call).map fun ops => ops.map .kv
  | .ddl ddl => some (ddl.prog server.db server.disk).1

/-- What a command leaves in memory and its status; a call that ends early leaves
    memory as it was. -/
def result (server : Server) : Command → Option (Database × (Nat → Option Transaction) × Except Status Unit)
  | .call call => (server.node.step call).map fun (after, status) => (after.db, after.txns, status)
  | .ddl ddl =>
    match (ddl.prog server.db server.disk).2 with
    | .error s => some (server.db, server.txns, .error s)
    | .ok (db, status) => some (db, server.txns, status)

def step (server : Server) (command : Command) : Option (Server × Except Status Unit) := do
  let ops ← server.ops command
  let (db, txns, status) ← server.result command
  return (⟨applyAll server.disk ops, db, txns⟩, status)

/-- A process that opened the store. -/
def opened (disk : Disk) : Option Server :=
  match lift (open_db disk.tables) disk with
  | (ops, .ok db) => some { disk := applyAll disk ops, db := db }
  | (_, .error _) => none

section Step

variable {server after : Server} {status : Except Status Unit}

/-- A call does to the server what it does to its node. -/
theorem step_call {call : Call} (h : server.step (.call call) = some (after, status)) :
    ∃ ops, server.node.ops call = some ops ∧ server.node.step call = some (after.node, status) ∧
      after.disk = applyAll server.disk (ops.map .kv) := by
  obtain ⟨ops, hops, h⟩ := bind_eq_some_iff.mp h
  obtain ⟨⟨db, txns, status'⟩, hresult, h⟩ := bind_eq_some_iff.mp h
  cases h
  obtain ⟨kvops, hkvops, rfl⟩ := map_eq_some_iff.mp hops
  obtain ⟨⟨node', status'⟩, hstep, heq⟩ := map_eq_some_iff.mp hresult
  cases heq
  obtain ⟨ops', hops', hkv⟩ := Node.step_ops hstep
  cases hkvops.symm.trans hops'
  refine ⟨kvops, hkvops, hstep.trans ?_, rfl⟩
  have hnode : node' = ⟨applyAll server.node.kv kvops, node'.db, node'.txns⟩ := by rw [← hkv]
  rw [node, Disk.applyAll_kv]
  exact congrArg (fun n => some (n, status)) hnode

/-- DDL changes the catalog and the store; the transactions stay. -/
theorem ddl_after {ddl : Ddl} {ops : List DiskOp} {db' : Database} {status' : Except Status Unit}
    (hrun : ddl.prog server.db server.disk = (ops, .ok (db', status')))
    (hstep : server.step (.ddl ddl) = some (after, status)) :
    after = ⟨applyAll server.disk ops, db', server.txns⟩ ∧ status = status' := by
  simp only [step, Server.ops, result, hrun] at hstep
  cases hstep
  exact ⟨rfl, rfl⟩

/-- A call of the node is one of the server. -/
theorem step_of_node {call : Call} {node : Node} (h : server.node.step call = some (node, status)) :
    ∃ after, server.step (.call call) = some (after, status) ∧ after.node = node := by
  obtain ⟨ops, hops, hkv⟩ := Node.step_ops h
  refine ⟨⟨applyAll server.disk (ops.map .kv), node.db, node.txns⟩, ?_, ?_⟩
  · rw [step, Server.ops, hops, map_some, result, h]
    rfl
  · rw [Server.node, Disk.applyAll_kv]
    exact congrArg (fun kv => (⟨kv, node.db, node.txns⟩ : Node)) hkv.symm

end Step

end Server

/-- A store with a process on it, or after the process has died. -/
inductive System where
  | up (server : Server)
  | down (disk : Disk)

inductive Action where
  /-- A command that runs to its end. -/
  | command (command : Command)
  /-- A command whose process dies after some of its writes. -/
  | crash (command : Command) (writes : Nat)
  /-- `Open` that runs to its end. -/
  | reopen
  /-- `Open` whose process dies after some of its writes. -/
  | reopen_crash (writes : Nat)

/-- A process opens the store and runs commands without a crash. -/
def Action.session (commands : List Command) : List Action := .reopen :: commands.map .command

namespace System

/-- The writes that an action makes. -/
def ops : System → Action → Option (List DiskOp)
  | .up server, .command command => server.ops command
  | .up server, .crash command writes => (server.ops command).map fun ops => ops.take writes
  | .down disk, .reopen => some (lift (open_db disk.tables) disk).1
  | .down disk, .reopen_crash writes => some ((lift (open_db disk.tables) disk).1.take writes)
  | _, _ => none

def step : System → Action → Option System
  | .up server, .command command => (server.step command).map fun (after, _) => .up after
  | .up server, .crash command writes =>
    (server.ops command).map fun ops => .down (applyAll server.disk (ops.take writes))
  | .down disk, .reopen => (Server.opened disk).map .up
  | .down disk, .reopen_crash writes =>
    some (.down (applyAll disk ((lift (open_db disk.tables) disk).1.take writes)))
  | _, _ => none

def run : System → List Action → Option System
  | s, [] => some s
  | s, action :: actions => (s.step action).bind fun s => run s actions

def disk : System → Disk
  | .up server => server.disk
  | .down disk => disk

/-- All writes of a run. -/
def writes : System → List Action → List DiskOp
  | _, [] => []
  | s, action :: actions =>
    match s.ops action, s.step action with
    | some ops, some s' => ops ++ writes s' actions
    | _, _ => []

def is_up : System → Bool
  | .up _ => true
  | .down _ => false

/-- The process, where there is one. -/
def server? : System → Option Server
  | .up server => some server
  | .down _ => none

/-- A condition on every action of a run, in the state that it finds. -/
def every (C : System → Action → Bool) : System → List Action → Bool
  | _, [] => true
  | s, action :: actions =>
    C s action &&
      match s.step action with
      | some s' => every C s' actions
      | none => true

/-- An action with its writes. -/
inductive Steps : System → Action → List DiskOp → System → Prop
  | command {server after : Server} {command : Command} {ops : List DiskOp} {status : Except Status Unit}
      (hops : server.ops command = some ops) (hstep : server.step command = some (after, status))
      (hdisk : after.disk = applyAll server.disk ops) : Steps (.up server) (.command command) ops (.up after)
  | crash {server : Server} {command : Command} {ops : List DiskOp} (hops : server.ops command = some ops)
      (writes : Nat) : Steps (.up server) (.crash command writes) (ops.take writes)
        (.down (applyAll server.disk (ops.take writes)))
  | reopen {disk : Disk} {ops : List KvOp} {db : Database} (hopen : open_db disk.tables disk.kv = (ops, .ok db)) :
      Steps (.down disk) .reopen (ops.map .kv) (.up { disk := applyAll disk (ops.map .kv), db := db })
  | reopen_crash (disk : Disk) (writes : Nat) :
      Steps (.down disk) (.reopen_crash writes) ((lift (open_db disk.tables) disk).1.take writes)
        (.down (applyAll disk ((lift (open_db disk.tables) disk).1.take writes)))

variable {s s' : System} {action : Action}

theorem steps_of_step (hstep : s.step action = some s') :
    ∃ ops, s.ops action = some ops ∧ Steps s action ops s' := by
  cases s with
  | up server =>
    cases action with
    | command command =>
      obtain ⟨⟨after, status⟩, hafter, rfl⟩ := map_eq_some_iff.mp hstep
      obtain ⟨ops, hops, hresult⟩ := bind_eq_some_iff.mp hafter
      obtain ⟨result, -, heq⟩ := bind_eq_some_iff.mp hresult
      refine ⟨ops, hops, .command hops hafter ?_⟩
      cases heq
      rfl
    | crash command writes =>
      obtain ⟨ops, hops, rfl⟩ := map_eq_some_iff.mp hstep
      exact ⟨ops.take writes, by rw [System.ops, hops, map_some], .crash hops writes⟩
    | reopen => cases hstep
    | reopen_crash writes => cases hstep
  | down disk =>
    cases action with
    | command command => cases hstep
    | crash command writes => cases hstep
    | reopen =>
      obtain ⟨server, hopened, rfl⟩ := map_eq_some_iff.mp hstep
      refine ⟨_, rfl, ?_⟩
      cases hcase : open_db disk.tables disk.kv with
      | mk ops result =>
      rw [Server.opened, lift, hcase] at hopened
      rw [lift, hcase]
      cases result with
      | error s => cases hopened
      | ok db =>
        cases hopened
        exact .reopen hcase
    | reopen_crash writes =>
      cases hstep
      exact ⟨_, rfl, .reopen_crash disk writes⟩

/-- What was computed of the process that a run leaves. -/
theorem run_up {α : Type} {f : Server → Option α} {a : α} {actions : List Action}
    (h : ((run s actions).bind server?).bind f = some a) :
    ∃ server, run s actions = some (.up server) ∧ f server = some a := by
  obtain ⟨server, hserver, hf⟩ := bind_eq_some_iff.mp h
  obtain ⟨s', hrun, hs'⟩ := bind_eq_some_iff.mp hserver
  cases s' with
  | down disk => cases hs'
  | up server' =>
    cases hs'
    exact ⟨_, hrun, hf⟩

theorem every_of_forall {C : System → Action → Bool} {actions : List Action}
    (h : ∀ s, ∀ action ∈ actions, C s action = true) (s : System) : every C s actions = true := by
  induction actions generalizing s with
  | nil => rfl
  | cons action actions ih =>
    rw [every, h s action (mem_cons_self ..), Bool.true_and]
    split
    · exact ih (fun s action' haction' => h s action' (mem_cons_of_mem _ haction')) _
    · rfl

theorem every_true (s : System) (actions : List Action) : every (fun _ _ => true) s actions = true :=
  every_of_forall (fun _ _ _ => rfl) s

/-- What every action keeps that meets the condition holds at the end of a run. -/
theorem run_invariant {I : List DiskOp → System → Prop} {C : System → Action → Bool}
    (hstep : ∀ {past s action ops s'}, I past s → C s action = true → Steps s action ops s' → I (past ++ ops) s')
    {past : List DiskOp} {actions : List Action} (h : I past s) (hevery : every C s actions = true)
    (hrun : run s actions = some s') : I (past ++ writes s actions) s' := by
  induction actions generalizing s past with
  | nil =>
    cases hrun
    rw [writes, append_nil]
    exact h
  | cons action actions ih =>
    obtain ⟨next, hnext, hrest⟩ := bind_eq_some_iff.mp hrun
    obtain ⟨ops, hops, hsteps⟩ := steps_of_step hnext
    simp only [every, hnext, Bool.and_eq_true] at hevery
    simp only [writes, hops, hnext]
    rw [← append_assoc]
    exact ih (hstep h hevery.1 hsteps) hevery.2 hrest

/-- What every command keeps that meets the condition holds at the end of a run of
    commands. -/
theorem run_commands {I : Server → Prop} {C : System → Action → Bool}
    (hstep : ∀ {server after command status}, I server → C (.up server) (.command command) = true →
      server.step command = some (after, status) → I after)
    {commands : List Command} {server after : Server} (h : I server)
    (hevery : every C (.up server) (commands.map .command) = true)
    (hrun : run (.up server) (commands.map .command) = some (.up after)) : I after := by
  induction commands generalizing server with
  | nil =>
    cases hrun
    exact h
  | cons command commands ih =>
    obtain ⟨next, hnext, hrest⟩ := bind_eq_some_iff.mp hrun
    simp only [map_cons, every, hnext, Bool.and_eq_true] at hevery
    obtain ⟨⟨after, status⟩, hafter, rfl⟩ := map_eq_some_iff.mp hnext
    exact ih (hstep h hevery.1 hafter) hevery.2 hrest

/-- The same from an empty store on. -/
theorem run_session {I : Server → Prop} {C : System → Action → Bool}
    (hopened : ∀ {server}, Server.opened {} = some server → I server)
    (hstep : ∀ {server after command status}, I server → C (.up server) (.command command) = true →
      server.step command = some (after, status) → I after)
    {commands : List Command} {after : Server} (hevery : every C (.down {}) (Action.session commands) = true)
    (hrun : run (.down {}) (Action.session commands) = some (.up after)) : I after := by
  obtain ⟨next, hnext, hrest⟩ := bind_eq_some_iff.mp hrun
  simp only [Action.session, every, hnext, Bool.and_eq_true] at hevery
  have hnext : (Server.opened {}).map System.up = some next := hnext
  obtain ⟨server, hserver, rfl⟩ := map_eq_some_iff.mp hnext
  exact run_commands hstep (hopened hserver) hevery.2 hrest

end System

end reldb
