import LsmKv.Lib.Effects
import LsmKv.Reldb.Types

namespace reldb

open lsmkv (Status)
open Function

inductive TxnState where
  | kOpen
  | kCommitted
  | kAborted
  | kCommitting
deriving DecidableEq, Repr

/-- The table and the primary key of a row. -/
abbrev RowKey := String × Value

structure TxnWrite where
  table : String
  pk : Value
  version_id : Nat
deriving DecidableEq

def TxnWrite.key (w : TxnWrite) : RowKey := (w.table, w.pk)

structure TxnMeta where
  state : TxnState := .kOpen
  commit_ts : Nat := 0
  writes : List TxnWrite := []
deriving DecidableEq

/-- One version of a row. Zero stands for "none" in all ids and timestamps. -/
structure VersionRecord where
  version_id : Nat := 0
  start_ts : Nat := 0
  end_ts : Nat := 0
  prev_id : Nat := 0
  created_by : Nat := 0
  is_tombstone : Bool := false
  payload : Row := []
deriving DecidableEq

def VersionRecord.is_provisional (v : VersionRecord) : Bool := v.start_ts = 0

def is_committed_visible (v : VersionRecord) (snapshot : Nat) : Bool :=
  if v.is_provisional then false
  else if snapshot < v.start_ts then false
  else if v.end_ts ≠ 0 ∧ v.end_ts ≤ snapshot then false
  else true

/-- The key-value store as the relational layer uses it: the counters, the
    transaction registry, the row heads and the versions. -/
structure Kv where
  next_ts : Option Nat := none
  next_txn : Option Nat := none
  next_vid : Option Nat := none
  txns : Nat → Option TxnMeta := fun _ => none
  heads : RowKey → Option Nat := fun _ => none
  versions : RowKey → Nat → Option VersionRecord := fun _ _ => none

/-- The single writes, each one `Put` or `Delete` of the store. -/
inductive KvOp where
  | put_next_ts (v : Nat)
  | put_next_txn (v : Nat)
  | put_next_vid (v : Nat)
  | put_txn_meta (id : Nat) (txn_meta : TxnMeta)
  | put_version_value (key : RowKey) (rec : VersionRecord)
  | set_head (key : RowKey) (version_id : Nat)
  | clear_head (key : RowKey)
deriving DecidableEq

theorem update_some_cases {κ α : Type} [DecidableEq κ] {f : κ → Option α} {k k' : κ} {x y : α}
    (h : update f k (some x) k' = some y) : (k' = k ∧ y = x) ∨ (k' ≠ k ∧ f k' = some y) := by
  by_cases heq : k' = k
  · subst heq
    rw [update_self] at h
    exact .inl ⟨rfl, (Option.some.inj h).symm⟩
  · rw [update_of_ne heq] at h
    exact .inr ⟨heq, h⟩

namespace Kv

def apply (kv : Kv) : KvOp → Kv
  | .put_next_ts v => { kv with next_ts := some v }
  | .put_next_txn v => { kv with next_txn := some v }
  | .put_next_vid v => { kv with next_vid := some v }
  | .put_txn_meta id txn_meta => { kv with txns := update kv.txns id (some txn_meta) }
  | .put_version_value key rec =>
    let row := update (kv.versions key) rec.version_id (some rec)
    { kv with versions := update kv.versions key row }
  | .set_head key version_id => { kv with heads := update kv.heads key (some version_id) }
  | .clear_head key => { kv with heads := update kv.heads key none }

instance : effects.Store Kv KvOp := ⟨Kv.apply⟩

@[simp] theorem store_apply (kv : Kv) (op : KvOp) : effects.Store.apply kv op = kv.apply op := rfl

theorem heads_of_clear {kv : Kv} {key k : RowKey} {head : Nat}
    (h : (kv.apply (.clear_head key)).heads k = some head) : kv.heads k = some head := by
  by_cases heq : k = key
  · subst heq
    cases (update_self ..).symm.trans h
  · exact (update_of_ne heq _ _).symm.trans h

def get_version (kv : Kv) (key : RowKey) (version_id : Nat) : Except Status VersionRecord :=
  match kv.versions key version_id with
  | some rec => .ok rec
  | none => .error (.NotFound "")

def get_latest_version_id (kv : Kv) (key : RowKey) : Except Status Nat :=
  match kv.heads key with
  | some id => .ok id
  | none => .error (.NotFound "")

def get_txn_meta (kv : Kv) (id : Nat) : Except Status TxnMeta :=
  match kv.txns id with
  | some txn_meta => .ok txn_meta
  | none => .error (.NotFound "txn not found")

variable {kv : Kv} {key : RowKey} {id : Nat}

theorem get_version_eq_ok {rec : VersionRecord} : kv.get_version key id = .ok rec ↔ kv.versions key id = some rec := by
  rw [get_version]
  cases kv.versions key id <;> simp

theorem get_latest_version_id_eq_ok {head : Nat} : kv.get_latest_version_id key = .ok head ↔ kv.heads key = some head := by
  rw [get_latest_version_id]
  cases kv.heads key <;> simp

theorem get_txn_meta_eq_ok {txn_meta : TxnMeta} : kv.get_txn_meta id = .ok txn_meta ↔ kv.txns id = some txn_meta := by
  rw [get_txn_meta]
  cases kv.txns id <;> simp

/-- Whether the reader sees this version. `txn_status` looks up the owner of a
    provisional version; without it such a version is skipped. -/
def visible (rec : VersionRecord) (snapshot reader_txn : Nat)
    (txn_status : Option (Nat → Except Status TxnMeta)) : Except Status Bool :=
  if rec.is_provisional then
    if rec.created_by = reader_txn then .ok true
    else
      match txn_status with
      | none => .ok false
      | some txn_status =>
        match txn_status rec.created_by with
        | .error s => .error s
        | .ok txn_meta =>
          if txn_meta.state = .kCommitted then
            .error (.Corruption "provisional version owned by committed txn")
          else .ok false
  else .ok (is_committed_visible rec snapshot)

/-- The loop of `GetRow` up to the first visible version. Ids fall along a chain, so
    that the id it starts at bounds the iterations; a chain that does not end, on
    which the loop would not end either, is reported as an error of its own. -/
def visible_version (kv : Kv) (key : RowKey) (snapshot reader_txn : Nat)
    (txn_status : Option (Nat → Except Status TxnMeta)) : Nat → Nat → Except Status (Option VersionRecord)
  | fuel, id =>
    if id = 0 then .ok none
    else
      match fuel with
      | 0 => .error (.Corruption "version chain does not end")
      | fuel + 1 =>
        match kv.get_version key id with
        | .error s => .error s
        | .ok rec =>
          match visible rec snapshot reader_txn txn_status with
          | .error s => .error s
          | .ok true => .ok (some rec)
          | .ok false => visible_version kv key snapshot reader_txn txn_status fuel rec.prev_id

def get_row (kv : Kv) (key : RowKey) (snapshot reader_txn : Nat)
    (txn_status : Option (Nat → Except Status TxnMeta)) : Except Status Row :=
  match kv.heads key with
  | none => .error (.NotFound "row not found")
  | some id =>
    match visible_version kv key snapshot reader_txn txn_status id id with
    | .error s => .error s
    | .ok none => .error (.NotFound "no visible version")
    | .ok (some rec) =>
      if rec.is_tombstone then .error (.NotFound "row deleted at snapshot") else .ok rec.payload

end Kv

end reldb
