import Mathlib.Control.Monad.Basic
import LsmKv.Reldb.OpenCount
import LsmKv.Reldb.SchemaChanges

namespace reldb

open lsmkv (Status)
open failing (Plan never once)
open failing.Act (operateAll)
open snapshot (keyCommits committedAt)
open List Function Option Transaction effects Database

namespace ServerAct

variable {server : Server} {txn : Transaction} {plan : Plan Status} {n : Nat} {β : Type}

theorem put_all_append_bind (ops ops' : List KvOp) (f : Unit → ServerAct β) (plan : Plan Status) (server : Server)
    (n : Nat) : (put_all (ops ++ ops') >>= f) plan server n =
      (put_all ops >>= fun _ => put_all ops' >>= f) plan server n := by
  rw [put_all, map_append]
  exact failing.Act.operateAll_append_bind _ _ f plan server n

variable {ops : List KvOp}

/-- A program that returns nothing is its writes. -/
theorem enact_bind {p : KvProg Unit} (hrun : p server.disk.kv = (ops, .ok ())) (f : Unit → ServerAct β)
    (plan : Plan Status) (n : Nat) : (enact p >>= f) plan server n = (put_all ops >>= f) plan server n := by
  have henact : enact p plan server n = (put_all ops >>= fun _ => pure ()) plan server n := by
    show (put_all (p server.disk.kv).1 >>= fun _ => failing.Act.ofExcept (p server.disk.kv).2) plan server n = _
    rw [hrun]
    rfl
  cases hops : put_all ops plan server n with
  | mk result server' n' =>
    cases result with
    | error e =>
      rw [failing.Act.bind_error hops] at henact ⊢
      exact failing.Act.bind_error henact
    | ok u =>
      rw [failing.Act.bind_ok hops] at henact ⊢
      exact failing.Act.bind_ok henact

/-- What follows the writes finds them in the store. -/
theorem put_all_bind_congr {f g : Unit → ServerAct β}
    (h : ∀ n, f () plan { server with disk := applyAll server.disk (ops.map .kv) } n =
      g () plan { server with disk := applyAll server.disk (ops.map .kv) } n) (n : Nat) :
    (put_all ops >>= f) plan server n = (put_all ops >>= g) plan server n := by
  by_cases hfail : ∃ i < ops.length, plan (n + i) ≠ none
  · obtain ⟨i, e, -, hrun⟩ := @put_all_error server plan n ops hfail
    rw [failing.Act.bind_error hrun, failing.Act.bind_error hrun]
  · have hserved : ∀ i < ops.length, plan (n + i) = none := fun i hi => by_contra fun hne => hfail ⟨i, hi, hne⟩
    rw [failing.Act.bind_ok (put_all_ok hserved), failing.Act.bind_ok (put_all_ok hserved), h]

theorem put_bind (op : KvOp) (f : Unit → ServerAct β) (plan : Plan Status) (server : Server) (n : Nat) :
    (put op >>= f) plan server n = (put_all [op] >>= f) plan server n :=
  (failing.Act.bind_assoc_run (put op) (fun _ => pure ()) f plan server n).symm

theorem put_all_cons_bind (op : KvOp) (ops : List KvOp) (f : Unit → ServerAct β) (plan : Plan Status) (server : Server)
    (n : Nat) : (put_all (op :: ops) >>= f) plan server n = (put_all [op] >>= fun _ => put_all ops >>= f) plan server n :=
  put_all_append_bind [op] ops f plan server n

/-- The writes of a commit, one after the other. -/
theorem commit_writes_run (hrun : apply_commit_writes txn.txn_id server.db.next_ts txn.written
      (Transaction.intended server.db txn server.disk.kv) = (ops, .ok ())) (plan : Plan Status) (n : Nat) :
    commit_writes txn plan server n =
      (put_all (txn.commit_ops server.db server.disk.kv) >>= fun _ => mark_txn_finished txn) plan
        { server with db := drew_ts server.db } n := by
  rw [commit_ops, hrun, put_all_cons_bind, commit_writes, failing.Act.view_bind, change_db,
    failing.Act.change_bind, put_bind]
  refine put_all_bind_congr (fun n => ?_) n
  rw [enact_bind hrun, put_all_append_bind]
  refine put_all_bind_congr (fun n => ?_) n
  rw [put_all_cons_bind, put_bind]
  refine put_all_bind_congr (fun n => ?_) n
  rw [persist_oracles, failing.Act.bind_assoc_run, failing.Act.view_bind]
  exact enact_bind rfl _ plan n

end ServerAct

namespace Database

variable {kv : Kv} {txn_id commit_ts : Nat}

/-- The write replaces a version of the row. -/
def has_prev (kv : Kv) (w : TxnWrite) : Bool :=
  match kv.versions w.key w.version_id with
  | some rec => rec.prev_id ≠ 0
  | none => false

/-- The writes whose predecessors are closed by the first operations of the stamping:
    one operation closes the predecessor, if there is one, and one stamps the version. -/
def closed_by (kv : Kv) : Nat → List TxnWrite → List TxnWrite
  | _, [] => []
  | ops, w :: ws =>
    if has_prev kv w then
      if ops = 0 then [] else w :: closed_by kv (ops - 2) ws
    else closed_by kv (ops - 1) ws

variable {kv' : Kv} {w : TxnWrite} {rec : VersionRecord} {entries : List (Nat × Option Row)}

/-- What a commit that fails has made of a row that it was to write: the version is
    there, and the one before it is closed or not. -/
structure Interrupted (kv' : Kv) (w : TxnWrite) (rec : VersionRecord) (entries : List (Nat × Option Row)) (succ : Nat) :
    Prop where
  version : ∃ rec', kv'.versions w.key w.version_id = some rec' ∧ rec'.prev_id = rec.prev_id
  linked : Linked (kv'.versions w.key) rec.prev_id succ entries

theorem Interrupted.congr {kv : Kv} {succ : Nat}
    (h : Interrupted kv w rec entries succ) (hversions : kv'.versions = kv.versions) : Interrupted kv' w rec entries succ :=
  ⟨by rw [hversions]; exact h.version, by rw [hversions]; exact h.linked⟩

end Database

namespace Held

variable {kv kv' : Kv} {owner start_ts : Nat} {w : TxnWrite} {rec : VersionRecord} {entries : List (Nat × Option Row)}
  (h : Held kv w.key entries owner w.version_id start_ts rec)

include h

/-- A predecessor is the newest commit of its row. -/
theorem prev (hprev : rec.prev_id ≠ 0) :
    ∃ prev, kv.versions w.key rec.prev_id = some prev ∧ prev.version_id = rec.prev_id ∧ prev.start_ts ≠ 0 ∧
      prev.end_ts = 0 ∧ (entries.head?.map Prod.snd).join = prev.value := by
  have hlinked := h.linked
  cases entries with
  | nil => exact absurd hlinked hprev
  | cons e rest =>
    obtain ⟨-, hts, prev, hrec, hid, hstart, hend, hvalue, -⟩ := hlinked
    exact ⟨prev, hrec, hid, by rw [hstart]; exact hts, hend, by rw [hvalue]; rfl⟩

end Held

namespace Database

variable {kv kv' : Kv} {txn_id commit_ts start_ts : Nat}

end Database

variable {entries : List (Nat × Option Row)}

theorem Reads.unique {result : Except Status Row} {value value' : Option Row} (h : Reads result value)
    (h' : Reads result value') : value = value' := by
  cases value with
  | none =>
    obtain ⟨msg, hmsg⟩ := h
    cases value' with
    | none => rfl
    | some row => cases hmsg.symm.trans h'
  | some row =>
    cases value' with
    | none =>
      obtain ⟨msg, hmsg⟩ := h'
      cases hmsg.symm.trans h
    | some row' => cases h.symm.trans h'; rfl

namespace Kv

end Kv

namespace Server

instance : Nonempty VersionRecord := ⟨{}⟩

variable {server : Server} {id : Nat} {txn : Transaction} {entries : TxnWrite → List (Nat × Option Row)}

end Server

end reldb
