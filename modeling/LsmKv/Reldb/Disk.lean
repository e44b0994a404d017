import LsmKv.Lib.Listing
import LsmKv.Reldb.Database
import LsmKv.Reldb.Keys

namespace reldb

open lsmkv (Status)
open effects (Prog applyAll)
open List Function

/-- The whole store, with the catalog and the keys that an iterator meets. -/
structure Disk where
  kv : Kv := {}
  tables : String → Option TableSchema := fun _ => none
  row_keys : List RowKey := []
  version_keys : List (RowKey × Nat) := []
  mem_row_keys : ∀ k, k ∈ row_keys ↔ (kv.heads k).isSome := by simp
  row_keys_nodup : row_keys.Nodup := by simp
  mem_version_keys : ∀ k v, (k, v) ∈ version_keys ↔ (kv.versions k v).isSome := by simp

/-- The single writes: those of rows and counters, and those of the catalog and its upkeep. -/
inductive DiskOp where
  | kv (op : KvOp)
  | put_table (schema : TableSchema)
  | delete_table (name : String)
  | delete_version (key : RowKey) (version_id : Nat)

namespace Disk

def row_keys_after (keys : List RowKey) : KvOp → List RowKey
  | .set_head key _ => if key ∈ keys then keys else key :: keys
  | .clear_head key => keys.filter fun k => k ≠ key
  | _ => keys

def version_keys_after (keys : List (RowKey × Nat)) : KvOp → List (RowKey × Nat)
  | .put_version_value key rec => if (key, rec.version_id) ∈ keys then keys else (key, rec.version_id) :: keys
  | _ => keys

variable {kv : Kv} {keys : List RowKey} {version_keys : List (RowKey × Nat)}

theorem mem_row_keys_after (h : ∀ k, k ∈ keys ↔ (kv.heads k).isSome) (op : KvOp) (k : RowKey) :
    k ∈ row_keys_after keys op ↔ ((kv.apply op).heads k).isSome := by
  cases op with
  | set_head key v =>
    simp only [row_keys_after, Kv.apply, update_apply]
    by_cases heq : k = key
    · subst heq
      by_cases hmem : k ∈ keys <;> simp [hmem]
    · by_cases hmem : key ∈ keys <;> simp [hmem, heq, h k]
  | clear_head key =>
    simp only [row_keys_after, Kv.apply, update_apply, mem_filter]
    by_cases heq : k = key <;> simp [heq, h k]
  | _ => exact h k

theorem row_keys_after_nodup (h : keys.Nodup) (op : KvOp) : (row_keys_after keys op).Nodup := by
  cases op with
  | set_head key v =>
    rw [row_keys_after]
    split
    · exact h
    · next hnew => exact nodup_cons.mpr ⟨hnew, h⟩
  | clear_head key => exact h.filter _
  | _ => exact h

theorem mem_version_keys_after (h : ∀ k v, (k, v) ∈ version_keys ↔ (kv.versions k v).isSome) (op : KvOp) (k : RowKey)
    (v : Nat) : (k, v) ∈ version_keys_after version_keys op ↔ ((kv.apply op).versions k v).isSome := by
  cases op with
  | put_version_value key rec =>
    simp only [version_keys_after, Kv.apply, update_apply]
    by_cases heq : k = key
    · subst heq
      by_cases hid : v = rec.version_id
      · subst hid
        by_cases hmem : (k, rec.version_id) ∈ version_keys <;> simp [hmem]
      · by_cases hmem : (k, rec.version_id) ∈ version_keys <;> simp [hmem, hid, h k v]
    · by_cases hmem : (key, rec.version_id) ∈ version_keys <;> simp [hmem, heq, h k v]
  | _ => exact h k v

def apply (disk : Disk) : DiskOp → Disk
  | .kv op =>
    { kv := disk.kv.apply op
      tables := disk.tables
      row_keys := row_keys_after disk.row_keys op
      version_keys := version_keys_after disk.version_keys op
      mem_row_keys := mem_row_keys_after disk.mem_row_keys op
      row_keys_nodup := row_keys_after_nodup disk.row_keys_nodup op
      mem_version_keys := mem_version_keys_after disk.mem_version_keys op }
  | .put_table schema => { disk with tables := update disk.tables schema.name (some schema) }
  | .delete_table name => { disk with tables := update disk.tables name none }
  | .delete_version key version_id =>
    { kv := { disk.kv with
        versions := update disk.kv.versions key (update (disk.kv.versions key) version_id none) }
      tables := disk.tables
      row_keys := disk.row_keys
      version_keys := disk.version_keys.filter fun k => k ≠ (key, version_id)
      mem_row_keys := disk.mem_row_keys
      row_keys_nodup := disk.row_keys_nodup
      mem_version_keys := by
        intro k v
        have hmem := disk.mem_version_keys k v
        by_cases heq : k = key
        · subst heq
          by_cases hid : v = version_id <;> simp [hid, hmem]
        · simp [heq, hmem] }

instance : effects.Store Disk DiskOp := ⟨Disk.apply⟩

@[simp] theorem store_apply (disk : Disk) (op : DiskOp) : effects.Store.apply disk op = disk.apply op := rfl

@[simp] theorem apply_kv (disk : Disk) (op : KvOp) : (disk.apply (.kv op)).kv = disk.kv.apply op := rfl

@[simp] theorem apply_tables (disk : Disk) (op : KvOp) : (disk.apply (.kv op)).tables = disk.tables := rfl

theorem versions_delete (disk : Disk) (key : RowKey) (version_id : Nat) (k : RowKey) (v : Nat) :
    (disk.apply (.delete_version key version_id)).kv.versions k v =
      if k = key ∧ v = version_id then none else disk.kv.versions k v := by
  simp only [apply, update_apply]
  by_cases heq : k = key
  · subst heq
    rw [if_pos rfl, update_apply]
    simp
  · simp [heq]

@[simp] theorem applyAll_kv (disk : Disk) (ops : List KvOp) :
    (applyAll disk (ops.map .kv)).kv = applyAll disk.kv ops := by
  induction ops generalizing disk with
  | nil => rfl
  | cons op ops ih => exact ih (disk.apply (.kv op))

@[simp] theorem applyAll_tables (disk : Disk) (ops : List KvOp) :
    (applyAll disk (ops.map .kv)).tables = disk.tables := by
  induction ops generalizing disk with
  | nil => rfl
  | cons op ops ih => exact ih (disk.apply (.kv op))

/-- What is in the second store is in the first, and the counter of transactions is the same. -/
structure Within (disk disk' : Disk) : Prop where
  heads : ∀ k head, disk'.kv.heads k = some head → disk.kv.heads k = some head
  versions : ∀ k v rec, disk'.kv.versions k v = some rec → disk.kv.versions k v = some rec
  next_txn : disk'.kv.next_txn = disk.kv.next_txn

theorem Within.trans {disk disk' disk'' : Disk} (h : Within disk disk') (h' : Within disk' disk'') :
    Within disk disk'' :=
  ⟨fun k head hhead => h.heads k head (h'.heads k head hhead),
    fun k v rec hrec => h.versions k v rec (h'.versions k v rec hrec), h'.next_txn.trans h.next_txn⟩

/-- The row heads from a key on, in key order, as long as the keys start with the stem. -/
def seek_heads (disk : Disk) (target stem : Key) : List RowKey := listing.seek row_head_key disk.row_keys target stem

/-- The versions whose keys start with the stem. -/
def seek_versions (disk : Disk) (stem : Key) : List (RowKey × Nat) :=
  listing.seek (fun k => version_key k.1 k.2) disk.version_keys stem stem

theorem mem_seek_heads {disk : Disk} {name : String} {k : RowKey} :
    k ∈ disk.seek_heads (row_head_stem name) (row_head_stem name) ↔
      (disk.kv.heads k).isSome ∧ Under name k.1 := by
  rw [seek_heads, listing.mem_seek_stem, disk.mem_row_keys, stem_prefix_iff_under]

end Disk

/-- A write that removes, or leaves heads and versions alone. -/
def DiskOp.Removes (op : DiskOp) : Prop := ∀ disk : Disk, disk.Within (disk.apply op)

theorem DiskOp.Removes.clear_head (key : RowKey) : (DiskOp.kv (.clear_head key)).Removes :=
  fun _ => ⟨fun _ _ hhead => Kv.heads_of_clear hhead, fun _ _ _ hrec => hrec, rfl⟩

theorem DiskOp.Removes.delete_version (key : RowKey) (version_id : Nat) :
    (DiskOp.delete_version key version_id).Removes := by
  refine fun disk => ⟨fun _ _ hhead => hhead, fun k v rec hrec => ?_, rfl⟩
  rw [Disk.versions_delete] at hrec
  split at hrec
  · cases hrec
  · exact hrec

theorem Disk.applyAll_within {ops : List DiskOp} (h : ∀ op ∈ ops, op.Removes) (disk : Disk) :
    disk.Within (applyAll disk ops) := by
  induction ops generalizing disk with
  | nil => exact ⟨fun _ _ hhead => hhead, fun _ _ _ hrec => hrec, rfl⟩
  | cons op ops ih =>
    exact (h op (mem_cons_self ..) disk).trans (ih (fun op' hop' => h op' (mem_cons_of_mem _ hop')) _)

/-- A head that is deleted among other deletions stays so. -/
theorem Disk.applyAll_cleared {ops : List DiskOp} (h : ∀ op ∈ ops, op.Removes) {k : RowKey}
    (hmem : .kv (.clear_head k) ∈ ops) (disk : Disk) : (applyAll disk ops).kv.heads k = none := by
  obtain ⟨before, after, rfl⟩ := append_of_mem hmem
  rw [effects.applyAll_append, Option.eq_none_iff_forall_ne_some]
  intro head hhead
  have hrest : ∀ op ∈ after, op.Removes := fun op hop => h op (by simp [hop])
  cases (update_self ..).symm.trans
    ((applyAll_within hrest ((applyAll disk before).apply (.kv (.clear_head k)))).heads k head hhead)

abbrev DiskProg := Prog Disk DiskOp Status

/-- A program that leaves the catalog alone. -/
def lift {α : Type} (p : KvProg α) : DiskProg α := fun disk => ((p disk.kv).1.map .kv, (p disk.kv).2)

end reldb
