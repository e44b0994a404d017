import LsmKv.Reldb.Calls
import LsmKv.Reldb.Chain
import LsmKv.Reldb.Running

namespace reldb

open lsmkv (Status)
open effects (applyAll After)
open Function

/-- A store with a process on it, or after the process has died. -/
inductive Machine where
  | up (node : Node)
  | down (kv : Kv)

inductive Event where
  /-- A call that runs to its end. -/
  | call (call : Call)
  /-- A call whose process dies after some of its writes. -/
  | crash (call : Call) (writes : Nat)
  /-- `Open` that runs to its end. -/
  | reopen
  /-- `Open` whose process dies after some of its writes. -/
  | reopen_crash (writes : Nat)

namespace Machine

def step (catalog : String → Option TableSchema) : Machine → Event → Option Machine
  | .up node, .call call => (node.step call).map fun (after, _) => .up after
  | .up node, .crash call writes => (node.ops call).map fun ops => .down (applyAll node.kv (ops.take writes))
  | .down kv, .reopen => (Node.opened kv catalog).map .up
  | .down kv, .reopen_crash writes => some (.down (applyAll kv ((Database.open_db catalog kv).1.take writes)))
  | _, _ => none

def run (catalog : String → Option TableSchema) : Machine → List Event → Option Machine
  | m, [] => some m
  | m, event :: events => (m.step catalog event).bind fun m => run catalog m events

def kv : Machine → Kv
  | .up node => node.kv
  | .down kv => kv

/-- The process, where there is one. -/
def node? : Machine → Option Node
  | .up node => some node
  | .down _ => none

/-- What was computed of the process that a run leaves. -/
theorem run_up {catalog : String → Option TableSchema} {m : Machine} {events : List Event} {α : Type}
    {f : Node → Option α} {a : α} (h : ((run catalog m events).bind node?).bind f = some a) :
    ∃ node, run catalog m events = some (.up node) ∧ f node = some a := by
  obtain ⟨node, hnode, hf⟩ := Option.bind_eq_some_iff.mp h
  obtain ⟨m', hrun, hm'⟩ := Option.bind_eq_some_iff.mp hnode
  cases m' with
  | down kv => cases hm'
  | up node' =>
    cases hm'
    exact ⟨_, hrun, hf⟩

end Machine

/-- The store after some recoveries that died. -/
def interrupted (catalog : String → Option TableSchema) (kv : Kv) : List Nat → Kv
  | [] => kv
  | writes :: rest => interrupted catalog (applyAll kv ((Database.open_db catalog kv).1.take writes)) rest

/-- What every call does, whatever its outcome. -/
structure CallOk (node : Node) (run : List KvOp × Except Status (Database × Transaction × Except Status Unit)) :
    Prop where
  crash : After (CrashOk node.kv) node.kv run.1
  after : Running (node.finish run).1

theorem Running.comes {node : Node} {call : Call}
    {run : List KvOp × Except Status (Database × Transaction × Except Status Unit)} (h : Running node)
    (hcomes : node.Comes call run) : CallOk node run := by
  cases hcomes with
  | fails call s => exact ⟨trivial, h⟩
  | begins hddl =>
    obtain ⟨hcrash, hafter⟩ := h.begin_txn
    exact ⟨hcrash, hafter⟩
  | @rewrites _ r txn w rec hcall hkey htxn hopen hw hrec =>
    obtain ⟨hcrash, hafter⟩ := h.rewrite htxn hopen hw hrec (Transaction.rewritten rec r.is_delete r.row) rfl rfl rfl rfl rfl
    rw [← h.txns _ txn htxn] at hafter
    exact ⟨hcrash, hafter⟩
  | @installs _ r txn key prev_id hcall hkey htxn hopen hnew hcheck =>
    obtain ⟨hcrash, hafter⟩ := h.install htxn hopen hnew hcheck r.is_delete r.row
    rw [← h.txns _ txn htxn] at hafter
    exact ⟨hcrash, hafter⟩
  | skips htxn =>
    refine ⟨trivial, ?_⟩
    rw [Node.finish, Node.update_txn h.txns htxn]
    exact h
  | aborts htxn hopen hroll | conflicts htxn hopen _ hroll =>
    obtain rfl := h.txns _ _ htxn
    obtain ⟨ops, hroll', hcrash, hafter⟩ := h.roll_back htxn hopen
    cases hroll.symm.trans hroll'
    exact ⟨hcrash, hafter⟩
  | stuck _ htxn hopen hroll =>
    obtain rfl := h.txns _ _ htxn
    obtain ⟨ops, hroll', -, -⟩ := h.roll_back htxn hopen
    cases hroll.symm.trans hroll'
  | commits htxn hopen =>
    obtain rfl := h.txns _ _ htxn
    obtain ⟨hwrites, hcrash, hafter⟩ := h.commit_writes htxn hopen
    rw [hwrites]
    exact ⟨hcrash, hafter⟩

end reldb
