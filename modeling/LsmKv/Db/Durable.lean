import LsmKv.Db.Recovery

namespace lsmkv

open List VersionSet

section Disk

variable (d : Disk) (w : WalWriter)

@[simp] theorem Disk.apply_flush_current : (d.apply_all w.flush).current = d.current := by
  unfold WalWriter.flush
  split <;> rfl

@[simp] theorem Disk.apply_flush_manifests : (d.apply_all w.flush).manifests = d.manifests := by
  unfold WalWriter.flush
  split <;> rfl

theorem Disk.apply_flush_logs_of_ne {n : Nat} (hn : n ≠ w.number) :
    (d.apply_all w.flush).logs n = d.logs n := by
  unfold WalWriter.flush
  split
  · rfl
  · simp [Disk.apply, Function.update, hn]

/-- Flushing moves the buffered records to the end of the log. -/
theorem Disk.apply_flush_log {log : LogFile} (hlog : d.logs w.number = some log) :
    (d.apply_all w.flush).logs w.number = some { log with records := log.records ++ w.pending } := by
  unfold WalWriter.flush
  split
  · next hpending => simp [hlog, hpending]
  · simp [Disk.apply, hlog]

theorem Disk.apply_remove_same (inputs : List (Fin kNumLevels × Nat)) :
    (d.apply_all (inputs.map fun input => .remove_table input.2)).current = d.current ∧
      (d.apply_all (inputs.map fun input => .remove_table input.2)).manifests = d.manifests ∧
      (d.apply_all (inputs.map fun input => .remove_table input.2)).logs = d.logs := by
  induction inputs generalizing d with
  | nil => exact ⟨rfl, rfl, rfl⟩
  | cons input inputs ih => exact ih _

end Disk

namespace DBImpl

variable {db db' : DBImpl} {d d' : Disk} {l l' : Layout} {replayed logged : List Write}

/-- A step that touches tables only. -/
theorem Durable.congr (h : db.Durable d l replayed logged) (hcurrent : d'.current = d.current)
    (hmanifests : d'.manifests = d.manifests) (hlogs : d'.logs = d.logs)
    (hversion : db'.versions.current = db.versions.current)
    (hmanifest : db'.versions.manifest_file_number = db.versions.manifest_file_number)
    (hlog : db'.versions.log_number = db.versions.log_number)
    (hlast : db.versions.last_sequence ≤ db'.versions.last_sequence)
    (hnext : db.versions.next_file_number ≤ db'.versions.next_file_number) (hwal : db'.wal = db.wal)
    (hlogfile : db'.logfile_number = db.logfile_number) (htables : l'.tables = l.tables)
    (hmem : l'.mem = l.mem) : db'.Durable d' l' replayed logged := by
  obtain ⟨edits, hedits, hmatch⟩ := h.manifest
  refine ⟨by rw [hcurrent, hmanifest]; exact h.current, ⟨edits, by rw [hmanifests, hmanifest]; exact hedits, ?_⟩,
    by rw [hlog, hwal]; exact h.log_number, by rw [hlogfile, hwal]; exact h.logfile_number,
    by rw [hwal]; exact h.log_pos, by rw [hwal]; exact h.log_lt.trans_le hnext,
    by rw [hwal, hlogs]; exact h.log, by rw [hmem]; exact h.mem⟩
  rw [hmanifest]
  exact ⟨by rw [hversion]; exact hmatch.files0, by rw [hversion]; exact hmatch.files1,
    by rw [hlog]; exact hmatch.log_number, hmatch.next_pos, hmatch.last_sequence.trans hlast,
    by rw [htables]; exact hmatch.bound⟩

/-- After a rotation the memtable is empty and so is the log that the manifest names. -/
theorem Durable.rotate (h : db.Durable d l replayed logged)
    (hfresh : LogFresh d db.versions.next_file_number) :
    db.rotate.1.Durable (d.apply_all db.rotate.2) l.rotate [] [] := by
  obtain ⟨edits, hedits, hmatch⟩ := h.manifest
  have hops : db.rotate.2 = db.wal.flush ++ [.open_log db.versions.next_file_number,
      .append_manifest db.versions.manifest_file_number
        { log_number := some db.versions.next_file_number }] := by
    simp [DBImpl.rotate, log_and_apply, take_file_number]
  have hnext : db.versions.next_file_number < db.rotate.1.versions.next_file_number := by
    simp [DBImpl.rotate, log_and_apply, take_file_number]
  have hempty : (d.apply_all db.wal.flush).logs db.versions.next_file_number =
      d.logs db.versions.next_file_number := Disk.apply_flush_logs_of_ne _ _ h.log_lt.ne'
  rw [hops, Disk.apply_all_append]
  refine ⟨?_, ⟨edits ++ [{ log_number := some db.versions.next_file_number }], ?_, ?_⟩, rfl, rfl,
    h.log_pos.trans h.log_lt, hnext, ⟨{}, ?_, rfl, rfl⟩, rfl⟩
  · show (d.apply_all db.wal.flush).current = some db.versions.manifest_file_number
    rw [Disk.apply_flush_current]
    exact h.current
  · simp [Disk.apply, DBImpl.rotate, log_and_apply, take_file_number, hedits]
  · show ManifestMatches _ _ (replayManifest db.versions.manifest_file_number _)
    rw [replayManifest_concat]
    refine ⟨hmatch.files0, hmatch.files1, rfl, hmatch.next_pos, ?_, hmatch.bound⟩
    rw [rotate_last_sequence]
    exact hmatch.last_sequence
  · show ((d.apply_all db.wal.flush).apply (.open_log db.versions.next_file_number)).logs
      db.versions.next_file_number = some {}
    refine LogFresh.open_log ?_
    rw [LogFresh, hempty]
    exact hfresh

/-- A write goes to the log, at once or when the buffer is flushed. -/
theorem Durable.add_record (h : db.Durable d l replayed logged) (options : WriteOptions)
    (type : ValueType) (key value : Bytes) :
    let w : Write := ⟨db.versions.last_sequence + 1, type, key, value⟩
    (db.add_record options type key value).1.Durable (d.apply_all (db.add_record options type key value).2)
      (l.add w) replayed (logged ++ [w]) := by
  intro w
  obtain ⟨edits, hedits, hmatch⟩ := h.manifest
  obtain ⟨log, hlog, htorn, hwrites⟩ := h.log
  have hmem : (l.add w).mem = replayed ++ (logged ++ [w]) := by
    rw [Layout.add, h.mem, append_assoc]
  have hmatches : ∀ db' : DBImpl, db'.versions = { db.versions with last_sequence := w.seq } →
      ManifestMatches db' (l.add w) (replayManifest db.versions.manifest_file_number edits) := by
    intro db' hversions
    refine ⟨by rw [hversions]; exact hmatch.files0, by rw [hversions]; exact hmatch.files1,
      by rw [hversions]; exact hmatch.log_number, hmatch.next_pos, ?_, hmatch.bound⟩
    rw [hversions]
    exact hmatch.last_sequence.trans (Nat.le_succ _)
  set wal : WalWriter := { db.wal with pending := db.wal.pending ++ [⟨w.seq, [(type, key, value)]⟩] } with hwal
  cases hsync : options.sync with
  | false =>
    have hrecord : db.add_record options type key value = ({ db with
        versions := { db.versions with last_sequence := w.seq }, wal := wal
        mem := db.mem.add w.seq type key value
        flush_scheduled := db.flush_scheduled ||
          decide (db.options.write_buffer_size ≤ (db.mem.add w.seq type key value).memory_usage) }, []) := by
      simp [DBImpl.add_record, hsync, hwal, w]
    rw [hrecord]
    refine ⟨h.current, ⟨edits, hedits, hmatches _ rfl⟩, h.log_number, h.logfile_number, h.log_pos, h.log_lt,
      ⟨log, hlog, htorn, ?_⟩, hmem⟩
    show logWrites (log.records ++ (db.wal.pending ++ [_])) = logged ++ [w]
    rw [← append_assoc, logWrites_append, hwrites]
    rfl
  | true =>
    have hrecord : db.add_record options type key value = ({ db with
        versions := { db.versions with last_sequence := w.seq }, wal := { db.wal with pending := [] }
        mem := db.mem.add w.seq type key value
        flush_scheduled := db.flush_scheduled ||
          decide (db.options.write_buffer_size ≤ (db.mem.add w.seq type key value).memory_usage) },
        wal.flush) := by
      simp [DBImpl.add_record, hsync, hwal, w]
    rw [hrecord]
    refine ⟨?_, ⟨edits, ?_, hmatches _ rfl⟩, h.log_number, h.logfile_number, h.log_pos, h.log_lt,
      ⟨_, Disk.apply_flush_log d wal hlog, htorn, ?_⟩, hmem⟩
    · rw [Disk.apply_flush_current]
      exact h.current
    · rw [Disk.apply_flush_manifests]
      exact hedits
    · show logWrites ((log.records ++ (db.wal.pending ++ [_])) ++ []) = logged ++ [w]
      rw [append_nil, ← append_assoc, logWrites_append, hwrites]
      rfl

/-- The manifest after a flush lists the new file last on level 0. -/
theorem ManifestMatches.flush_edit {vs : VersionSet} (h : ManifestMatches db l vs) {f : FileMetaData} {seq : Nat}
    (hbound : ∀ w ∈ l.tables ++ l.imm, w.seq ≤ seq)
    (hdb' : db'.versions = (db.versions.log_and_apply
      { added_files := [(0, f)], last_sequence := some seq }).1) :
    ManifestMatches db' { l with pieces := l.pieces ++ [l.imm] }
      (vs.recover_edit { added_files := [(0, f)], last_sequence := some seq }) := by
  refine ⟨?_, ?_, ?_, h.next_pos, ?_, ?_⟩
  · rw [hdb']
    show vs.current.files0 ++ [f] = db.versions.current.files0 ++ [f]
    rw [h.files0]
  · rw [hdb']
    exact h.files1
  · rw [hdb']
    exact h.log_number
  · rw [hdb']
    exact le_max_right _ _
  · have htables : Layout.tables { l with pieces := l.pieces ++ [l.imm] } = l.tables ++ l.imm := by
      simp [Layout.tables]
    rw [htables]
    exact hbound

/-- The manifest after a merge lists the same files as the version installed. -/
theorem ManifestMatches.compact_edit {vs : VersionSet} (h : ManifestMatches db l vs) {result : CompactionResult}
    {edit : VersionEdit} {seq : Nat} (hedit : edit =
      { deleted_files := result.inputs
        added_files := if 0 < result.output.file_size ∧ result.output.smallest ≠ [] then
          [(1, result.output)] else []
        last_sequence := some seq })
    (hbound : ∀ w ∈ l.tables, w.seq ≤ seq) (hdb' : db'.versions = (db.versions.log_and_apply edit).1) :
    ManifestMatches db' { l with older := l.tables, pieces := [] } (vs.recover_edit edit) := by
  have hdeleted : ∀ level, ((result.inputs.foldl Version.delete_file vs.current).files level).Perm
      ((result.inputs.foldl Version.delete_file db.versions.current).files level) := by
    intro level
    rw [foldl_delete_file_files, foldl_delete_file_files]
    refine List.Perm.filter _ ?_
    fin_cases level
    · exact List.Perm.of_eq h.files0
    · exact h.files1
  have hdeleted0 : (result.inputs.foldl Version.delete_file vs.current).files0 =
      (result.inputs.foldl Version.delete_file db.versions.current).files0 := by
    have h0 := foldl_delete_file_files vs.current result.inputs 0
    have h0' := foldl_delete_file_files db.versions.current result.inputs 0
    refine h0.trans (Eq.trans ?_ h0'.symm)
    show List.filter _ vs.current.files0 = List.filter _ db.versions.current.files0
    rw [h.files0]
  have htables : Layout.tables { l with older := l.tables, pieces := [] } = l.tables := by
    simp [Layout.tables]
  subst hedit
  refine ⟨?_, ?_, by rw [hdb']; exact h.log_number, h.next_pos, by rw [hdb']; exact le_max_right _ _,
    by rw [htables]; exact hbound⟩
  · rw [hdb']
    dsimp only [recover_edit, log_and_apply]
    split <;> exact hdeleted0
  · rw [hdb']
    dsimp only [recover_edit, log_and_apply]
    split
    · exact ((hdeleted 1).append_right [result.output]).trans (perm_insertionSort _ _).symm
    · exact hdeleted 1

theorem Durable.log_and_apply (h : db.Durable d l replayed logged) (edit : VersionEdit)
    (hcurrent : d'.current = d.current) (hmanifests : d'.manifests =
      (d.apply (.append_manifest db.versions.manifest_file_number edit)).manifests) (hlogs : d'.logs = d.logs)
    (hdb' : db'.versions = (db.versions.log_and_apply edit).1) (hlog : edit.log_number = none)
    (hwal : db'.wal = db.wal) (hlogfile : db'.logfile_number = db.logfile_number) (hmem : l'.mem = l.mem)
    (hmatches : ∀ vs, ManifestMatches db l vs → ManifestMatches db' l' (vs.recover_edit edit)) :
    db'.Durable d' l' replayed logged := by
  obtain ⟨edits, hedits, hmatch⟩ := h.manifest
  have hnumber : db'.versions.manifest_file_number = db.versions.manifest_file_number := by rw [hdb']; rfl
  refine ⟨by rw [hcurrent, hnumber]; exact h.current, ⟨edits ++ [edit], ?_, ?_⟩, ?_,
    by rw [hlogfile, hwal]; exact h.logfile_number, by rw [hwal]; exact h.log_pos, ?_,
    by rw [hwal, hlogs]; exact h.log, by rw [hmem]; exact h.mem⟩
  · rw [hmanifests, hnumber]
    simp [Disk.apply, hedits]
  · rw [hnumber, replayManifest_concat]
    exact hmatches _ hmatch
  · rw [hdb', hwal]
    show edit.log_number.getD db.versions.log_number = db.wal.number
    rw [hlog]
    exact h.log_number
  · rw [hdb', hwal]
    exact h.log_lt.trans_le (le_max_left _ _)

/-- Every step of the background thread keeps the directory in line. -/
theorem Durable.bg_step (h : db.Durable d l replayed logged) (hbg : db.BgHolds d l) :
    (db.bg_step d).1.Durable (d.apply_all (db.bg_step d).2) (db.bg_layout l) replayed logged := by
  unfold BgHolds at hbg
  unfold DBImpl.bg_step DBImpl.flush_step DBImpl.compact_step bg_layout
  cases hcase : db.bg <;> simp only [hcase] at hbg ⊢
  case idle =>
    split
    · exact h
    split
    · exact h.congr rfl rfl rfl rfl rfl rfl le_rfl le_rfl rfl rfl rfl rfl
    split <;> exact h.congr rfl rfl rfl rfl rfl rfl le_rfl le_rfl rfl rfl rfl rfl
  case flush_start =>
    cases db.imm with
    | none => exact h.congr rfl rfl rfl rfl rfl rfl le_rfl le_rfl rfl rfl rfl rfl
    | some imm => exact h.congr rfl rfl rfl rfl rfl rfl le_rfl (Nat.le_succ _) rfl rfl rfl rfl
  case flush_edit edit =>
    obtain ⟨f, seq, imm, -, rfl, -, hbound⟩ := hbg
    exact h.log_and_apply _ rfl rfl rfl rfl rfl rfl rfl rfl fun vs hmatch => hmatch.flush_edit hbound rfl
  case compact_start =>
    split
    · exact h.congr rfl rfl rfl rfl rfl rfl le_rfl le_rfl rfl rfl rfl rfl
    · exact h.congr rfl rfl rfl rfl rfl rfl le_rfl (Nat.le_succ _) rfl rfl rfl rfl
  case compact_merge current n =>
    cases compact_level0 db.options d db.dbname current n with
    | error status => exact h.congr rfl rfl rfl rfl rfl rfl le_rfl le_rfl rfl rfl rfl rfl
    | ok outcome => exact h.congr rfl rfl rfl rfl rfl rfl le_rfl le_rfl rfl rfl rfl rfl
  case compact_edit result edit =>
    obtain ⟨n, seq, -, hedit, -, hbound⟩ := hbg
    obtain ⟨hcurrent, hmanifests, hlogs⟩ := Disk.apply_remove_same
      (d.apply (.append_manifest db.versions.manifest_file_number edit)) result.inputs
    refine h.log_and_apply edit ?_ ?_ ?_ rfl (by rw [hedit]) rfl rfl rfl
      fun vs hmatch => hmatch.compact_edit hedit hbound rfl
    all_goals rw [Disk.apply_all_append]
    · exact hcurrent
    · exact hmanifests
    · exact hlogs
  all_goals exact h.congr rfl rfl rfl rfl rfl rfl le_rfl le_rfl rfl rfl rfl rfl

end DBImpl

end lsmkv
