import LsmKv.Reldb.Machine
import LsmKv.Reldb.Records
import LsmKv.Reldb.Server

/-!
The typed store against the bytes under its keys. Every write of the model is one `Put` or
`Delete` of encoded bytes. As long as the numbers fit 64 bits and no value has 2 ^ 32 bytes
or more, what the code decodes from the bytes is what the model reads.
-/

namespace reldb

open lsmkv (Status)
open lsmkv.encoding List Function Option effects

section Images

def TxnState.byte : TxnState → UInt8
  | .kOpen => 1
  | .kCommitted => 2
  | .kAborted => 3
  | .kCommitting => 4

def name_bytes (name : String) : Bytes := stored.key_bytes name.toList

/-- The record that is stored of a version; a deletion has no payload. -/
def VersionRecord.image (rec : VersionRecord) : stored.VersionRecord where
  version_id := .ofNat rec.version_id
  start_ts := .ofNat rec.start_ts
  end_ts := .ofNat rec.end_ts
  prev_id := .ofNat rec.prev_id
  created_by := .ofNat rec.created_by
  is_tombstone := rec.is_tombstone
  payload := if rec.is_tombstone then [] else Row.encode rec.payload

def TxnMeta.image (txn_meta : TxnMeta) : stored.TxnMeta where
  state := txn_meta.state.byte
  commit_ts := .ofNat txn_meta.commit_ts
  writes := txn_meta.writes.map fun w => ⟨name_bytes w.table, w.pk, .ofNat w.version_id⟩

def TableSchema.image (schema : TableSchema) : stored.TableSchema where
  name := name_bytes schema.name
  columns := schema.columns.map fun c => ⟨name_bytes c.name, Row.type_byte c.type, c.primary_key⟩

end Images

/-- The map that `lsmkv::DB` is. -/
abbrev ByteStore := Key → Option Bytes

namespace ByteStore

def empty : ByteStore := fun _ => none

def get_version (store : ByteStore) (key : RowKey) (version_id : UInt64) : Except Status stored.VersionRecord :=
  match store (version_key key version_id.toNat) with
  | none => .error (.NotFound "")
  | some bytes => stored.VersionRecord.decode bytes

def get_latest_version_id (store : ByteStore) (key : RowKey) : Except Status UInt64 :=
  match store (row_head_key key) with
  | none => .error (.NotFound "")
  | some bytes =>
    if bytes.length ≠ 8 then .error (.Corruption "row head: bad length") else .ok (.ofNat (decode_fixed64 bytes))

def get_txn_meta (store : ByteStore) (id : UInt64) : Except Status stored.TxnMeta :=
  match store (txn_key id.toNat) with
  | none => .error (.NotFound "txn not found")
  | some bytes => stored.decode_txn_meta bytes

end ByteStore

/-- What a key of the store can stand for. -/
inductive Cell where
  | word (v : Nat)
  | version (rec : VersionRecord)
  | txn_meta (m : TxnMeta)
  | schema (s : TableSchema)

namespace Cell

def encode : Cell → Bytes
  | .word v => put_fixed64 v
  | .version rec => rec.image.encode
  | .txn_meta m => stored.encode_txn_meta m.image
  | .schema s => s.image.encode

def numbers : Cell → List Nat
  | .word v => [v]
  | .version rec => [rec.version_id, rec.start_ts, rec.end_ts, rec.prev_id, rec.created_by]
  | .txn_meta m => m.commit_ts :: m.writes.map TxnWrite.version_id
  | .schema _ => []

/-- Numbers of 64 bits in less than 2 ^ 32 bytes. -/
def fits (c : Cell) : Bool := c.numbers.all (fun n => n < 2 ^ 64) && c.encode.length < 2 ^ 32

variable {rec : VersionRecord} {txn_meta : TxnMeta}

theorem number_lt {c : Cell} (h : c.fits = true) {n : Nat} (hn : n ∈ c.numbers) : n < 2 ^ 64 :=
  of_decide_eq_true (List.all_eq_true.mp (Bool.and_eq_true_iff.mp h).1 n hn)

theorem encode_lt {c : Cell} (h : c.fits = true) : c.encode.length < 2 ^ 32 :=
  of_decide_eq_true (Bool.and_eq_true_iff.mp h).2

/-- Items of at least one byte each, within what is put of them. -/
theorem length_le_flatMap {α : Type} {put : α → Bytes} (hput : ∀ x, 1 ≤ (put x).length) (xs : List α) :
    xs.length ≤ (xs.flatMap put).length ∧ ∀ x ∈ xs, (put x).length ≤ (xs.flatMap put).length := by
  rw [length_flatMap]
  refine ⟨?_, fun x hx => single_le_sum (fun _ _ => Nat.zero_le _) _ (List.mem_map_of_mem hx)⟩
  have hsum := length_le_sum_of_one_le (xs.map fun x => (put x).length) (by simpa using fun x _ => hput x)
  rwa [length_map] at hsum

theorem decode_row {row : Row} (h : (Row.encode row).length < 2 ^ 32) : Row.decode (Row.encode row) = .ok row := by
  obtain ⟨hcount, hcells⟩ := @length_le_flatMap _ Row.encode_value (fun _ => by simp [Row.encode_value]) row
  have hsum := h
  rw [Row.encode, length_append] at hsum
  have hdecode := @Row.decode_encode_append row (by omega)
    (fun v hv => Value.fits_of_length (by have hcell := hcells v hv; omega)) []
  rw [append_nil] at hdecode
  exact hdecode

theorem payload_lt (h : fits (.version rec) = true) : rec.image.payload.length < 2 ^ 32 := by
  have hlength : rec.image.encode.length < 2 ^ 32 := encode_lt h
  simp only [stored.VersionRecord.encode, put_length_prefixed_slice, length_append] at hlength
  omega

theorem decode_txn_meta (h : fits (.txn_meta txn_meta) = true) :
    stored.decode_txn_meta (stored.encode_txn_meta txn_meta.image) = .ok txn_meta.image := by
  have hlength : (stored.encode_txn_meta txn_meta.image).length < 2 ^ 32 := encode_lt h
  by_cases hnil : txn_meta.image.writes = []
  · exact stored.decode_encode_txn_meta_nil hnil
  rw [stored.encode_txn_meta, if_neg hnil, length_cons, length_append, length_append] at hlength
  obtain ⟨hcount, hwrites⟩ := @length_le_flatMap _ stored.put_txn_write
    (fun _ => by simp [stored.put_txn_write]; omega) txn_meta.image.writes
  refine stored.decode_encode_txn_meta (by omega) fun w hw => ?_
  have hw := hwrites w hw
  omega

end Cell

instance : Store ByteStore (StoredKey × Option Cell) :=
  ⟨fun store entry => update store entry.1.key (entry.2.map Cell.encode)⟩

/-- The key of a `Put` and what is put there; nothing for a `Delete`. -/
def KvOp.entry : KvOp → StoredKey × Option Cell
  | .put_next_ts v => (.next_ts, some (.word v))
  | .put_next_txn v => (.next_txn, some (.word v))
  | .put_next_vid v => (.next_vid, some (.word v))
  | .put_txn_meta id txn_meta => (.txn (.ofNat id), some (.txn_meta txn_meta))
  | .put_version_value key rec => (.version key (.ofNat rec.version_id), some (.version rec))
  | .set_head key version_id => (.row_head key, some (.word version_id))
  | .clear_head key => (.row_head key, none)

def DiskOp.entry : DiskOp → StoredKey × Option Cell
  | .kv op => op.entry
  | .put_table schema => (.table schema.name, some (.schema schema))
  | .delete_table name => (.table name, none)
  | .delete_version key version_id => (.version key (.ofNat version_id), none)

def KvOp.fits (op : KvOp) : Bool :=
  op.entry.2.all Cell.fits &&
    match op with
    | .put_txn_meta id _ => id < 2 ^ 64
    | _ => true

def DiskOp.fits : DiskOp → Bool
  | .kv op => op.fits
  | .delete_version _ version_id => version_id < 2 ^ 64
  | op => op.entry.2.all Cell.fits

theorem KvOp.entry_fits {op : KvOp} (hop : op.fits = true) : ∀ c ∈ op.entry.2, c.fits = true := by
  intro c hc
  have hcell := (Bool.and_eq_true_iff.mp hop).1
  rwa [mem_def.mp hc] at hcell

theorem DiskOp.entry_fits {op : DiskOp} (hop : op.fits = true) : ∀ c ∈ op.entry.2, c.fits = true := by
  cases op with
  | kv op => exact KvOp.entry_fits hop
  | put_table schema =>
    rintro c ⟨⟩
    exact hop
  | _ => rintro c ⟨⟩

/-- What the typed store has under a key. -/
def Kv.cell (kv : Kv) (tables : String → Option TableSchema) : StoredKey → Option Cell
  | .row_head key => (kv.heads key).map .word
  | .version key version_id => (kv.versions key version_id.toNat).map .version
  | .txn id => (kv.txns id.toNat).map .txn_meta
  | .next_ts => kv.next_ts.map .word
  | .next_txn => kv.next_txn.map .word
  | .next_vid => kv.next_vid.map .word
  | .table name => (tables name).map .schema

theorem toNat_eq_iff {n : Nat} (h : n < 2 ^ 64) (k : UInt64) : k.toNat = n ↔ k = .ofNat n := by
  rw [← UInt64.toNat_inj, UInt64.toNat_ofNat', Nat.mod_eq_of_lt h]

theorem Kv.cell_apply {kv : Kv} {tables : String → Option TableSchema} {op : KvOp} (hop : op.fits = true) :
    (kv.apply op).cell tables = update (kv.cell tables) op.entry.1 op.entry.2 := by
  obtain ⟨hcell, hid⟩ := Bool.and_eq_true_iff.mp hop
  funext k
  rw [update_apply]
  cases op with
  | put_version_value key rec =>
    have hid : rec.version_id < 2 ^ 64 := Cell.number_lt hcell mem_cons_self
    cases k with
    | version key' id =>
      simp only [Kv.cell, versions_put, KvOp.entry, StoredKey.version.injEq, ← toNat_eq_iff hid]
      split <;> rfl
    | _ => simp [Kv.apply, Kv.cell, KvOp.entry]
  | put_txn_meta id txn_meta =>
    cases k with
    | txn id' =>
      simp only [Kv.apply, Kv.cell, KvOp.entry, update_apply, StoredKey.txn.injEq,
        ← toNat_eq_iff (of_decide_eq_true hid)]
      split <;> rfl
    | _ => simp [Kv.apply, Kv.cell, KvOp.entry]
  | set_head key id | clear_head key =>
    cases k with
    | row_head key' =>
      simp only [Kv.apply, Kv.cell, KvOp.entry, update_apply, StoredKey.row_head.injEq]
      split <;> rfl
    | _ => simp [Kv.apply, Kv.cell, KvOp.entry]
  | _ => cases k <;> simp [Kv.apply, Kv.cell, KvOp.entry]

theorem Disk.cell_apply {disk : Disk} {op : DiskOp} (hop : op.fits = true) :
    (disk.apply op).kv.cell (disk.apply op).tables =
      update (disk.kv.cell disk.tables) op.entry.1 op.entry.2 := by
  cases op with
  | kv op => exact Kv.cell_apply hop
  | put_table schema | delete_table name =>
    funext k
    rw [update_apply]
    cases k with
    | table name' =>
      simp only [Disk.apply, Kv.cell, DiskOp.entry, update_apply, StoredKey.table.injEq]
      split <;> rfl
    | _ => simp [Disk.apply, Kv.cell, DiskOp.entry]
  | delete_version key version_id =>
    funext k
    rw [update_apply]
    cases k with
    | version k v =>
      simp only [Kv.cell, versions_delete, DiskOp.entry, StoredKey.version.injEq,
        ← toNat_eq_iff (of_decide_eq_true hop)]
      split <;> rfl
    | _ => simp [Disk.apply, Kv.cell, DiskOp.entry]

/-- The bytes are those of the cells, and all of them fit. -/
structure HeldIn (cell : StoredKey → Option Cell) (store : ByteStore) : Prop where
  bytes : ∀ k, store k.key = (cell k).map Cell.encode
  fits : ∀ k c, cell k = some c → c.fits = true

/-- Whatever the code reads from the bytes is what the typed store has. -/
structure Kv.ReadFrom (kv : Kv) (store : ByteStore) : Prop where
  version : ∀ key id, store.get_version key id = (kv.get_version key id.toNat).map VersionRecord.image
  row : ∀ key (id : UInt64) rec, kv.versions key id.toNat = some rec → rec.is_tombstone = false →
    Row.decode rec.image.payload = .ok rec.payload
  head : ∀ key, store.get_latest_version_id key = (kv.get_latest_version_id key).map UInt64.ofNat
  txn_meta : ∀ id, store.get_txn_meta id = (kv.get_txn_meta id.toNat).map TxnMeta.image

section HeldIn

variable {cell : StoredKey → Option Cell} {store : ByteStore} {kv : Kv} {tables : String → Option TableSchema}

theorem HeldIn.empty : HeldIn (({} : Kv).cell fun _ => none) .empty :=
  ⟨fun k => by cases k <;> rfl, fun k c hc => by cases k <;> cases hc⟩

theorem HeldIn.put (h : HeldIn cell store) {entry : StoredKey × Option Cell} (hfits : ∀ c ∈ entry.2, c.fits = true) :
    HeldIn (update cell entry.1 entry.2) (Store.apply store entry) where
  bytes k := by
    show update store entry.1.key (entry.2.map Cell.encode) k.key = _
    rw [update_apply, update_apply]
    simp only [StoredKey.key_injective.eq_iff, h.bytes k]
    split <;> rfl
  fits k c hc := by
    rw [update_apply] at hc
    split at hc
    · exact hfits c hc
    · exact h.fits k c hc

theorem HeldIn.apply_kv (h : HeldIn (kv.cell tables) store) {ops : List KvOp} (hops : ops.all KvOp.fits = true) :
    HeldIn ((applyAll kv ops).cell tables) (applyAll store (ops.map KvOp.entry)) :=
  applyAll_related (R := fun (kv : Kv) store => HeldIn (kv.cell tables) store)
    (fun h hop => Kv.cell_apply hop ▸ h.put (KvOp.entry_fits hop)) (List.all_eq_true.mp hops) h

/-- The cells of the whole store. -/
abbrev Disk.HeldIn (disk : Disk) (store : ByteStore) : Prop := reldb.HeldIn (disk.kv.cell disk.tables) store

theorem Disk.HeldIn.apply {disk : Disk} (h : disk.HeldIn store) {ops : List DiskOp} (hops : ops.all DiskOp.fits = true) :
    (applyAll disk ops).HeldIn (applyAll store (ops.map DiskOp.entry)) :=
  applyAll_related (R := fun (disk : Disk) store => reldb.HeldIn (disk.kv.cell disk.tables) store)
    (fun h hop => Disk.cell_apply hop ▸ h.put (DiskOp.entry_fits hop)) (List.all_eq_true.mp hops) h

theorem HeldIn.readFrom (h : HeldIn (kv.cell tables) store) : kv.ReadFrom store where
  version key id := by
    have hbytes : store (version_key key id.toNat) = _ := h.bytes (.version key id)
    rw [ByteStore.get_version, hbytes, Kv.cell, Kv.get_version]
    cases hrec : kv.versions key id.toNat with
    | none => rfl
    | some rec =>
      have hfits := h.fits (.version key id) (.version rec) (by rw [Kv.cell, hrec]; rfl)
      have hdecode := stored.VersionRecord.decode_encode_append (Cell.payload_lt hfits) []
      rw [append_nil] at hdecode
      exact hdecode
  row key id rec hrec htombstone := by
    have hfits := h.fits (.version key id) (.version rec) (by rw [Kv.cell, hrec]; rfl)
    have hpayload := Cell.payload_lt hfits
    have hrow : rec.image.payload = Row.encode rec.payload := if_neg (by simp [htombstone])
    rw [hrow] at hpayload ⊢
    exact Cell.decode_row hpayload
  head key := by
    have hbytes : store (row_head_key key) = _ := h.bytes (.row_head key)
    rw [ByteStore.get_latest_version_id, hbytes, Kv.cell, Kv.get_latest_version_id]
    cases hhead : kv.heads key with
    | none => rfl
    | some id =>
      have hfits := h.fits (.row_head key) (.word id) (by rw [Kv.cell, hhead]; rfl)
      simp [Cell.encode, decode_put_fixed64 (Cell.number_lt hfits mem_cons_self), Except.map]
  txn_meta id := by
    have hbytes : store (txn_key id.toNat) = _ := h.bytes (.txn id)
    rw [ByteStore.get_txn_meta, hbytes, Kv.cell, Kv.get_txn_meta]
    cases hmeta : kv.txns id.toNat with
    | none => rfl
    | some txn_meta =>
      have hfits := h.fits (.txn id) (.txn_meta txn_meta) (by rw [Kv.cell, hmeta]; rfl)
      exact Cell.decode_txn_meta hfits

end HeldIn

namespace System

variable {s s' : System} {actions : List Action}

/-- The bytes in the store after a run. -/
def bytes (actions : List Action) : ByteStore := applyAll .empty ((writes (.down {}) actions).map DiskOp.entry)

/-- Everything that a run writes fits. -/
def fits (actions : List Action) : Bool := (writes (.down {}) actions).all DiskOp.fits

theorem run_writes (hrun : run s actions = some s') : s'.disk = applyAll s.disk (writes s actions) := by
  have hstep : ∀ {past t action ops t'}, t.disk = applyAll s.disk past → Steps t action ops t' →
      t'.disk = applyAll s.disk (past ++ ops) := by
    intro past t action ops t' h hsteps
    rw [applyAll_append, ← h]
    cases hsteps with
    | command _ _ hdisk => exact hdisk
    | _ => rfl
  exact @run_invariant s s' (fun past t => t.disk = applyAll s.disk past) (fun _ _ => true)
    (fun h _ => hstep h) [] actions rfl (every_true s actions) hrun

theorem held_run (hrun : run (.down {}) actions = some s) (hfits : fits actions = true) :
    s.disk.HeldIn (bytes actions) := by
  rw [run_writes hrun]
  exact Disk.HeldIn.apply .empty hfits

theorem readFrom_run (hrun : run (.down {}) actions = some s) (hfits : fits actions = true) :
    s.disk.kv.ReadFrom (bytes actions) := (held_run hrun hfits).readFrom

theorem run_append (later : List Action) : run s (actions ++ later) = (run s actions).bind fun s => run s later := by
  induction actions generalizing s with
  | nil => rfl
  | cons action actions ih => cases hstep : s.step action <;> simp [run, hstep, ih]

theorem writes_of_append (later : List Action) : writes s actions <+: writes s (actions ++ later) := by
  induction actions generalizing s with
  | nil => exact nil_prefix
  | cons action actions ih =>
    rw [cons_append, writes, writes]
    split
    · exact (prefix_append_right_inj _).mpr ih
    · exact prefix_rfl

theorem fits_of_append {later : List Action} (hfits : fits (actions ++ later) = true) : fits actions = true :=
  List.all_eq_true.mpr fun op hop => List.all_eq_true.mp hfits op ((writes_of_append later).subset hop)

/-- A run of commands that goes on. -/
theorem readFrom_later {commands more : List Command} {server after : Server}
    (hrun : run (.down {}) (Action.session commands) = some (.up server))
    (hfits : fits (Action.session (commands ++ more)) = true)
    (hmore : run (.up server) (more.map .command) = some (.up after)) :
    after.disk.kv.ReadFrom (bytes (Action.session (commands ++ more))) := by
  refine readFrom_run (s := .up after) ?_ hfits
  rw [Action.session, map_append, ← cons_append, run_append]
  exact bind_eq_some_iff.mpr ⟨_, hrun, hmore⟩

/-- The calls of a node are commands of the server. -/
theorem run_of_node {calls : List Call} {server : Server} {node : Node} {log later : snapshot.State RowKey Row}
    (hrun : server.node.run log calls = some (node, later)) :
    ∃ after, run (.up server) ((calls.map Command.call).map .command) = some (.up after) ∧ after.node = node := by
  induction calls generalizing server log with
  | nil =>
    cases hrun
    exact ⟨server, rfl, rfl⟩
  | cons call calls ih =>
    obtain ⟨⟨next, status⟩, hstep, hrest⟩ := bind_eq_some_iff.mp hrun
    obtain ⟨after, hafter, rfl⟩ := Server.step_of_node hstep
    obtain ⟨last, hlast, hnode⟩ := ih hrest
    exact ⟨last, by simpa [run, step, hafter] using hlast, hnode⟩

end System

namespace Machine

variable {catalog : String → Option TableSchema} {m m' : Machine} {event : Event} {events : List Event}

/-- The writes that an event makes. -/
def ops (catalog : String → Option TableSchema) : Machine → Event → List KvOp
  | .up node, .call call => (node.ops call).getD []
  | .up node, .crash call writes => ((node.ops call).getD []).take writes
  | .down kv, .reopen => (Database.open_db catalog kv).1
  | .down kv, .reopen_crash writes => (Database.open_db catalog kv).1.take writes
  | _, _ => []

/-- All writes of a run. -/
def writes (catalog : String → Option TableSchema) : Machine → List Event → List KvOp
  | _, [] => []
  | m, event :: events =>
    m.ops catalog event ++
      match m.step catalog event with
      | some m' => writes catalog m' events
      | none => []

def bytes (catalog : String → Option TableSchema) (events : List Event) : ByteStore :=
  applyAll .empty ((writes catalog (.down {}) events).map KvOp.entry)

def fits (catalog : String → Option TableSchema) (events : List Event) : Bool :=
  (writes catalog (.down {}) events).all KvOp.fits

theorem step_ops (hstep : m.step catalog event = some m') : m'.kv = applyAll m.kv (m.ops catalog event) := by
  cases m with
  | up node =>
    cases event with
    | call call =>
      obtain ⟨⟨after, status⟩, hafter, rfl⟩ := map_eq_some_iff.mp hstep
      obtain ⟨ops, hops, hkv⟩ := Node.step_ops hafter
      rw [Machine.ops, hops]
      exact hkv
    | crash call writes =>
      obtain ⟨ops, hops, rfl⟩ := map_eq_some_iff.mp hstep
      rw [Machine.ops, hops]
      rfl
    | reopen | reopen_crash => cases hstep
  | down kv =>
    cases event with
    | call | crash => cases hstep
    | reopen =>
      obtain ⟨node, hopened, rfl⟩ := map_eq_some_iff.mp hstep
      rw [Node.opened] at hopened
      split at hopened <;> cases hopened
      next hrun =>
        rw [ops, hrun]
        rfl
    | reopen_crash writes =>
      cases hstep
      rfl

theorem run_writes (hrun : run catalog m events = some m') : m'.kv = applyAll m.kv (writes catalog m events) := by
  induction events generalizing m with
  | nil =>
    cases hrun
    rfl
  | cons event events ih =>
    obtain ⟨next, hnext, hrest⟩ := bind_eq_some_iff.mp hrun
    rw [writes, hnext, applyAll_append, ← step_ops hnext]
    exact ih hrest

theorem run_append (later : List Event) :
    run catalog m (events ++ later) = (run catalog m events).bind fun m => run catalog m later := by
  induction events generalizing m with
  | nil => rfl
  | cons event events ih => cases hstep : m.step catalog event <;> simp [run, hstep, ih]

theorem writes_of_append (later : List Event) : writes catalog m events <+: writes catalog m (events ++ later) := by
  induction events generalizing m with
  | nil => exact nil_prefix
  | cons event events ih =>
    rw [cons_append, writes, writes, prefix_append_right_inj]
    cases m.step catalog event with
    | none => exact prefix_rfl
    | some m' => exact ih

theorem fits_of_append {later : List Event} (hfits : fits catalog (events ++ later) = true) :
    fits catalog events = true :=
  List.all_eq_true.mpr fun op hop => List.all_eq_true.mp hfits op ((writes_of_append later).subset hop)

theorem readFrom_run (hrun : run catalog (.down {}) events = some m) (hfits : fits catalog events = true) :
    m.kv.ReadFrom (bytes catalog events) := by
  rw [run_writes hrun]
  exact (HeldIn.apply_kv .empty hfits).readFrom

end Machine

/-- A process opens the store and runs calls without a crash. -/
def Event.session (calls : List Call) : List Event := .reopen :: calls.map .call

theorem Node.session_machine {catalog : String → Option TableSchema} {calls : List Call} {node : Node}
    {log : snapshot.State RowKey Row} (hrun : session catalog calls = some (node, log)) :
    Machine.run catalog (.down {}) (Event.session calls) = some (.up node) := by
  have hcalls : ∀ (calls : List Call) (first : Node) (log₀ : snapshot.State RowKey Row),
      first.run log₀ calls = some (node, log) → Machine.run catalog (.up first) (calls.map .call) = some (.up node) := by
    intro calls
    induction calls with
    | nil =>
      rintro first log₀ hrun
      cases hrun
      rfl
    | cons call calls ih =>
      intro first log₀ hrun
      obtain ⟨⟨after, status⟩, hstep, hrest⟩ := bind_eq_some_iff.mp hrun
      rw [map_cons, Machine.run, Machine.step, hstep]
      exact ih after _ hrest
  obtain ⟨first, hopened, hrest⟩ := bind_eq_some_iff.mp hrun
  rw [Event.session, Machine.run, Machine.step, hopened]
  exact hcalls calls first {} hrest

theorem Node.readFrom_session {catalog : String → Option TableSchema} {calls : List Call} {node : Node}
    {log : snapshot.State RowKey Row} (hrun : session catalog calls = some (node, log))
    (hfits : Machine.fits catalog (Event.session calls) = true) :
    node.kv.ReadFrom (Machine.bytes catalog (Event.session calls)) :=
  Machine.readFrom_run (session_machine hrun) hfits

/-- A catalog with one table of strings. -/
def strings : String → Option TableSchema := fun name =>
  if name = "t" then some ⟨"t", [⟨"id", .kInt64, true⟩, ⟨"s", .kString, false⟩]⟩ else none

def insert_string (s : Bytes) : List Call := [.begin_txn, .insert 1 "t" [.int64 1, .string s]]

/-- The record of a row with a string of 2 ^ 32 bytes is written, and refused when it is read. -/
theorem get_version_long {s : Bytes} (hs : 2 ^ 32 ≤ s.length) {events : List Event}
    (hevents : Machine.writes strings (.down {}) events =
      Machine.writes strings (.down {}) (Event.session (insert_string s))) :
    (Machine.bytes strings events).get_version ("t", .int64 1) 1 =
      .error (.Corruption "version: trailing bytes") := by
  let long : VersionRecord := { version_id := 1, created_by := 1, payload := [.int64 1, .string s] }
  have hwrites : Machine.writes strings (.down {}) (Event.session (insert_string s)) =
      (Machine.writes strings (.down {}) (Event.session (insert_string s))).take 10 ++
        [.put_version_value ("t", .int64 1) long, .set_head ("t", .int64 1) 1,
          .put_txn_meta 1 { writes := [⟨"t", .int64 1, 1⟩] }] := rfl
  have hbytes : Machine.bytes strings events (version_key ("t", .int64 1) (1 : UInt64).toNat) =
      some long.image.encode := by
    change Machine.bytes strings events (StoredKey.key (.version ("t", .int64 1) 1)) = _
    rw [Machine.bytes, hevents, hwrites, map_append, applyAll_append]
    simp [applyAll, Store.apply, StoredKey.key_injective.eq_iff, KvOp.entry, Cell.encode, long]
  have hlong : 2 ^ 32 ≤ long.image.payload.length := by
    simp [long, VersionRecord.image, Row.encode, Row.encode_value, put_length_prefixed_slice]
    omega
  rw [ByteStore.get_version, hbytes]
  exact stored.VersionRecord.decode_encode_long hlong

end reldb
