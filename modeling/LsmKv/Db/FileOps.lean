import LsmKv.Db.Durable

namespace lsmkv

open List Function

section Ops

/-- The log file that an operation touches. -/
def FileOp.logNumber : FileOp → Option Nat
  | .open_log n | .append_log n _ => some n
  | _ => none

/-- The table file that an operation touches. -/
def FileOp.tableNumber : FileOp → Option Nat
  | .create_table n | .finish_table n _ | .remove_table n => some n
  | _ => none

/-- The operation leaves CURRENT and the recorded next file number alone. -/
def FileOp.KeepsNext : FileOp → Prop
  | .write_manifest .. | .write_current _ => False
  | .append_manifest _ edit => edit.next_file_number = none
  | _ => True

/-- The next file number that a manifest records. -/
def Disk.recordedNext (d : Disk) (n : Nat) : Nat :=
  (replayManifest n ((d.manifests n).getD [])).next_file_number

theorem Disk.recordedNext_apply (d : Disk) (n : Nat) {op : FileOp} (hop : op.KeepsNext) :
    (d.apply op).recordedNext n = d.recordedNext n := by
  cases op with
  | write_manifest | write_current => exact absurd hop id
  | append_manifest m edit =>
    unfold Disk.recordedNext
    by_cases hm : n = m
    · subst hm
      have hedits : (d.apply (.append_manifest n edit)).manifests n =
          some ((d.manifests n).getD [] ++ [edit]) := by simp [Disk.apply]
      rw [hedits, Option.getD_some, replayManifest_concat]
      show edit.next_file_number.getD _ = _
      rw [hop]
      rfl
    · have hedits : (d.apply (.append_manifest m edit)).manifests n = d.manifests n := by
        simp [Disk.apply, update, hm]
      rw [hedits]
  | _ => rfl

variable {ops : List FileOp}

theorem Disk.recordedNext_apply_all (d : Disk) (n : Nat) (hops : ∀ op ∈ ops, op.KeepsNext) :
    (d.apply_all ops).recordedNext n = d.recordedNext n := by
  induction ops generalizing d with
  | nil => rfl
  | cons op ops ih =>
    obtain ⟨hop, hops⟩ := forall_mem_cons.mp hops
    rw [Disk.apply_all_cons, ih _ hops, d.recordedNext_apply n hop]

theorem Disk.logs_apply_all (d : Disk) {n : Nat}
    (hops : ∀ op ∈ ops, op.logNumber ≠ some n) : (d.apply_all ops).logs n = d.logs n := by
  induction ops generalizing d with
  | nil => rfl
  | cons op ops ih =>
    obtain ⟨hop, hops⟩ := forall_mem_cons.mp hops
    rw [Disk.apply_all_cons, ih _ hops]
    cases op with
    | open_log m | append_log m =>
      have hm : n ≠ m := fun heq => hop (by rw [heq]; rfl)
      simp [Disk.apply, update, hm]
    | _ => rfl

/-- The directory as `Open` reads it: CURRENT, the manifests, the logs and the given tables. -/
structure Disk.Agree (d d' : Disk) (live : List Nat) : Prop where
  current : d'.current = d.current
  manifests : d'.manifests = d.manifests
  logs : d'.logs = d.logs
  tables : ∀ m ∈ live, d'.tables m = d.tables m

theorem Disk.Agree.refl (d : Disk) (live : List Nat) : d.Agree d live := ⟨rfl, rfl, rfl, fun _ _ => rfl⟩

theorem Disk.agree_apply_all (d : Disk) {live : List Nat}
    (hops : ∀ op ∈ ops, ∃ m, op.tableNumber = some m ∧ m ∉ live) : d.Agree (d.apply_all ops) live := by
  induction ops generalizing d with
  | nil => exact .refl d live
  | cons op ops ih =>
    obtain ⟨⟨m, hnumber, hm⟩, hops⟩ := forall_mem_cons.mp hops
    have hrest := ih (d.apply op) hops
    have hop : d.Agree (d.apply op) live := by
      cases op <;> cases hnumber
      all_goals
        refine ⟨rfl, rfl, rfl, fun m' hm' => ?_⟩
        have hne : m' ≠ m := fun heq => hm (heq ▸ hm')
        simp [Disk.apply, update, hne]
    rw [Disk.apply_all_cons]
    exact ⟨hrest.current.trans hop.current, hrest.manifests.trans hop.manifests, hrest.logs.trans hop.logs,
      fun m' hm' => (hrest.tables m' hm').trans (hop.tables m' hm')⟩

end Ops

namespace DBImpl

variable {db db' : DBImpl} {d : Disk} {l : Layout}

/-- What the operations of a step of the background thread can touch. -/
theorem BgHolds.bg_step_ops (hbg : db.BgHolds d l) :
    ∀ op ∈ (db.bg_step d).2, op.KeepsNext ∧ op.logNumber = none := by
  unfold BgHolds at hbg
  unfold DBImpl.bg_step DBImpl.flush_step DBImpl.compact_step
  cases hcase : db.bg <;> simp only [hcase] at hbg ⊢
  case idle => split <;> [skip; split <;> [skip; split]] <;> simp
  case flush_start => cases db.imm <;> simp
  case flush_build => simp [FileOp.KeepsNext, FileOp.logNumber]
  case flush_edit edit =>
    obtain ⟨f, seq, imm, -, rfl, -⟩ := hbg
    simp [VersionSet.log_and_apply, FileOp.KeepsNext, FileOp.logNumber]
  case compact_start => split <;> simp
  case compact_merge current n =>
    cases compact_level0 db.options d db.dbname current n <;> simp [FileOp.KeepsNext, FileOp.logNumber]
  case compact_edit result edit =>
    obtain ⟨n, seq, -, rfl, -⟩ := hbg
    intro op hop
    rcases mem_append.mp hop with hop | hop
    · obtain rfl := mem_singleton.mp hop
      exact ⟨rfl, rfl⟩
    · obtain ⟨input, -, rfl⟩ := mem_map.mp hop
      exact ⟨trivial, rfl⟩
  all_goals simp

/-- All but the first operation of a background step touch tables that the version
    it leads to does not list. -/
theorem Holds.bg_step_tail (h : db.Holds d l) :
    ∀ op ∈ (db.bg_step d).2.tail, ∃ m, op.tableNumber = some m ∧ m ∉ (db.bg_step d).1.versions.current.live := by
  have hbg := h.bg
  unfold BgHolds at hbg
  unfold DBImpl.bg_step DBImpl.flush_step DBImpl.compact_step
  cases hcase : db.bg <;> simp only [hcase] at hbg ⊢
  case idle => split <;> [skip; split <;> [skip; split]] <;> simp
  case flush_start => cases db.imm <;> simp
  case flush_build imm n =>
    intro op hop
    obtain rfl := mem_singleton.mp hop
    exact ⟨n, rfl, hbg.2⟩
  case compact_start => split <;> simp
  case compact_merge current n =>
    cases compact_level0 db.options d db.dbname current n with
    | error status => simp
    | ok outcome =>
      intro op hop
      obtain rfl := mem_singleton.mp hop
      exact ⟨n, rfl, hbg.2⟩
  case compact_edit result edit =>
    obtain ⟨n, seq, htable, hedit, -, -⟩ := hbg
    obtain ⟨files, hcurrent, hperm, -⟩ := htable.install edit h.levels.nodup (by rw [hedit]) (by rw [hedit])
    obtain ⟨hout, hrest⟩ := htable.not_mem_inputs h.levels.nodup
    intro op hop
    obtain ⟨input, hinput, rfl⟩ := mem_map.mp hop
    refine ⟨input.2, rfl, fun hlive => ?_⟩
    have hinput : input.2 ∈ result.inputs.map Prod.snd := mem_map_of_mem hinput
    rw [hcurrent] at hlive
    obtain ⟨f, hf, hnumber⟩ := mem_map.mp hlive
    rcases mem_compactedFiles (hperm.mem_iff.mpr hf) with hf | hf
    · exact hrest f hf (hnumber ▸ hinput)
    · exact hout (hf ▸ hnumber ▸ hinput)
  all_goals simp [VersionSet.log_and_apply]

/-- A rotation without buffered records, operation by operation. -/
theorem rotate_ops (hpending : db.wal.pending = []) :
    db.rotate.2 = [.open_log db.versions.next_file_number,
      .append_manifest db.versions.manifest_file_number { log_number := some db.versions.next_file_number }] := by
  simp [DBImpl.rotate, WalWriter.flush, hpending, VersionSet.log_and_apply, VersionSet.take_file_number]

/-- A synchronous write without buffered records flushes exactly its own record. -/
theorem add_record_ops (hpending : db.wal.pending = []) {options : WriteOptions} (hsync : options.sync = true)
    (type : ValueType) (key value : Bytes) :
    (db.add_record options type key value).2 =
      [.append_log db.wal.number [⟨db.versions.last_sequence + 1, [(type, key, value)]⟩]] := by
  simp [DBImpl.add_record, WalWriter.flush, hpending, hsync]

end DBImpl

end lsmkv
