import LsmKv.Db.Background

namespace lsmkv

open List DBImpl

def writesFrom (seq : Nat) : List (ValueType × Bytes × Bytes) → List Write
  | [] => []
  | (type, key, value) :: entries => ⟨seq, type, key, value⟩ :: writesFrom (seq + 1) entries

/-- The writes that a log holds. -/
def logWrites (records : List LogRecord) : List Write :=
  records.flatMap fun record => writesFrom record.seq record.entries

@[simp] theorem logWrites_nil : logWrites [] = [] := rfl

@[simp] theorem logWrites_append (records records' : List LogRecord) :
    logWrites (records ++ records') = logWrites records ++ logWrites records' := flatMap_append

theorem MemTable.empty_represents : Represents MemTable.empty.table [] := Represents.nil

namespace DBImpl

theorem replay_entries_spec (seq : Nat) (entries : List (ValueType × Bytes × Bytes)) {m : MemTable}
    {h : List Write} (hrep : Represents m.table h) (last : Nat) :
    Represents (replay_entries seq entries (m, last)).1.table (h ++ writesFrom seq entries) ∧
      (replay_entries seq entries (m, last)).2 =
        (writesFrom seq entries).foldl (fun last w => max last w.seq) last := by
  induction entries generalizing seq m h last with
  | nil =>
    simp only [writesFrom, append_nil]
    exact ⟨hrep, rfl⟩
  | cons entry entries ih =>
    obtain ⟨type, key, value⟩ := entry
    have hadd := hrep.add ⟨seq, type, key, value⟩
    obtain ⟨hmem, hlast⟩ := ih (seq + 1) hadd (max last seq)
    refine ⟨?_, hlast⟩
    simpa only [replay_entries, writesFrom, append_assoc, singleton_append] using hmem

/-- Replaying a log adds its writes to the memtable and moves the last sequence
    number to the largest one met. -/
theorem replay_records_spec (records : List LogRecord) {m : MemTable} {h : List Write}
    (hrep : Represents m.table h) (last : Nat) :
    Represents (records.foldl replay_record (m, last)).1.table (h ++ logWrites records) ∧
      (records.foldl replay_record (m, last)).2 =
        (logWrites records).foldl (fun last w => max last w.seq) last := by
  induction records generalizing m h last with
  | nil =>
    simp only [logWrites_nil, append_nil]
    exact ⟨hrep, rfl⟩
  | cons record records ih =>
    obtain ⟨hmem, hlast⟩ := replay_entries_spec record.seq record.entries hrep last
    obtain ⟨hmem', hlast'⟩ := ih hmem (replay_entries record.seq record.entries (m, last)).2
    have hcons : logWrites (record :: records) = writesFrom record.seq record.entries ++ logWrites records :=
      flatMap_cons
    rw [hcons, ← append_assoc, foldl_append, ← hlast]
    exact ⟨hmem', hlast'⟩

end DBImpl

theorem foldl_max_seq (h : List Write) (last : Nat) :
    last ≤ h.foldl (fun last w => max last w.seq) last ∧
      (∀ w ∈ h, w.seq ≤ h.foldl (fun last w => max last w.seq) last) ∧
      ∀ top, last ≤ top → (∀ w ∈ h, w.seq ≤ top) → h.foldl (fun last w => max last w.seq) last ≤ top := by
  induction h generalizing last with
  | nil => simp
  | cons w h ih =>
    obtain ⟨hlast, hall, htop⟩ := ih (max last w.seq)
    rw [foldl_cons]
    refine ⟨(le_max_left _ _).trans hlast, forall_mem_cons.mpr ⟨(le_max_right _ _).trans hlast, hall⟩, ?_⟩
    intro top hle hws
    obtain ⟨hw, hws⟩ := forall_mem_cons.mp hws
    exact htop top (max_le hle hw) hws

/-- What `Recover` makes of the manifest records, before it sorts level 1. -/
def replayManifest (n : Nat) (edits : List VersionEdit) : VersionSet :=
  edits.foldl VersionSet.recover_edit { manifest_file_number := n }

theorem replayManifest_concat (n : Nat) (edits : List VersionEdit) (edit : VersionEdit) :
    replayManifest n (edits ++ [edit]) = (replayManifest n edits).recover_edit edit := by
  simp [replayManifest]

@[simp] theorem replayManifest_manifest_file_number (n : Nat) (edits : List VersionEdit) :
    (replayManifest n edits).manifest_file_number = n := by
  induction edits using List.reverseRecOn with
  | nil => rfl
  | append_singleton edits edit ih =>
    rw [replayManifest_concat]
    exact ih

/-- No log of the number exists, or one that holds nothing. -/
def LogFresh (d : Disk) (n : Nat) : Prop := d.logs n = none ∨ d.logs n = some {}

instance (d : Disk) (n : Nat) : Decidable (LogFresh d n) := inferInstanceAs (Decidable (_ ∨ _))

theorem LogFresh.open_log {d : Disk} {n : Nat} (h : LogFresh d n) :
    (d.apply (.open_log n)).logs n = some {} := by
  rcases h with h | h <;> simp [Disk.apply, h]

/-- A directory from which `Open` recovers two consecutive runs of writes: the
    tables of the manifest and the log it names. -/
structure Recoverable (d : Disk) (n : Nat) (edits : List VersionEdit) (older : List Write)
    (pieces : List (List Write)) (logged : List Write) : Prop where
  current : d.current = some n
  manifest : d.manifests n = some edits
  levels : LevelsHold d (replayManifest n edits).current older pieces
  log_pos : 0 < (replayManifest n edits).log_number
  next_pos : 0 < (replayManifest n edits).next_file_number
  log : match d.logs (replayManifest n edits).log_number with
    | none => logged = []
    | some log => log.torn = none ∧ logWrites log.records = logged
  sequenced : Sequenced (older ++ pieces.flatten ++ logged)
  bound : ∀ w ∈ older ++ pieces.flatten, w.seq ≤ (replayManifest n edits).last_sequence

namespace DBImpl

/-- The manifest describes the running version: the same files, level 1 in any
    order, the current log, and a sequence number that covers the tables. -/
structure ManifestMatches (db : DBImpl) (l : Layout) (vs : VersionSet) : Prop where
  files0 : vs.current.files0 = db.versions.current.files0
  files1 : vs.current.files1.Perm db.versions.current.files1
  log_number : vs.log_number = db.versions.log_number
  next_pos : 0 < vs.next_file_number
  last_sequence : vs.last_sequence ≤ db.versions.last_sequence
  bound : ∀ w ∈ l.tables, w.seq ≤ vs.last_sequence

/-- The directory of a running database: the manifest matches, and the current log
    has the memtable's writes since the last rotation. Writes that `Open` replayed
    from an older log are in the memtable only. -/
structure Durable (db : DBImpl) (d : Disk) (l : Layout) (replayed logged : List Write) : Prop where
  current : d.current = some db.versions.manifest_file_number
  manifest : ∃ edits, d.manifests db.versions.manifest_file_number = some edits ∧
    ManifestMatches db l (replayManifest db.versions.manifest_file_number edits)
  log_number : db.versions.log_number = db.wal.number
  logfile_number : db.logfile_number = db.wal.number
  log_pos : 0 < db.wal.number
  log_lt : db.wal.number < db.versions.next_file_number
  log : ∃ log, d.logs db.wal.number = some log ∧ log.torn = none ∧
    logWrites (log.records ++ db.wal.pending) = logged
  mem : l.mem = replayed ++ logged

end DBImpl

namespace Recoverable

variable {d : Disk} {n : Nat} {edits : List VersionEdit} {older : List Write} {pieces : List (List Write)}
  {logged : List Write}

/-- The old log is read after the new one is opened, which adds nothing to it. -/
theorem recover_log_file (h : Recoverable d n edits older pieces logged) {m : Nat} (hfresh : LogFresh d m)
    (last : Nat) :
    ∃ records, DBImpl.recover_log_file (d.apply (.open_log m)) (replayManifest n edits).log_number .empty last =
        .ok (records.foldl replay_record (.empty, last)) ∧ logWrites records = logged := by
  have hlog := h.log
  by_cases hm : (replayManifest n edits).log_number = m
  · have hopen : (d.apply (.open_log m)).logs (replayManifest n edits).log_number = some {} := by
      rw [hm]
      exact hfresh.open_log
    refine ⟨[], ?_, ?_⟩
    · rw [DBImpl.recover_log_file, hopen]
    · rcases hfresh with hnone | hempty
      · rw [hm, hnone] at hlog
        exact hlog.symm
      · rw [hm, hempty] at hlog
        exact hlog.2
  · have hopen : (d.apply (.open_log m)).logs (replayManifest n edits).log_number =
        d.logs (replayManifest n edits).log_number := by
      simp [Disk.apply, Function.update, hm]
    rw [DBImpl.recover_log_file, hopen]
    cases hcase : d.logs (replayManifest n edits).log_number with
    | none =>
      rw [hcase] at hlog
      exact ⟨[], rfl, hlog.symm⟩
    | some log =>
      rw [hcase] at hlog
      refine ⟨log.records, ?_, hlog.2⟩
      dsimp only
      rw [hlog.1]

/-- The database that `Open` returns after replaying a log into an empty memtable. -/
def openedDb (options : Options) (dbname : String) (n : Nat) (edits : List VersionEdit)
    (replayed : MemTable × Nat) : DBImpl :=
  let vs := replayManifest n edits
  { options := options, dbname := dbname
    versions :=
      { current := vs.current.sort_level1, next_file_number := vs.next_file_number + 2
        last_sequence := replayed.2, log_number := vs.next_file_number, manifest_file_number := n }
    mem := replayed.1, imm := none
    wal := { number := vs.next_file_number }, logfile_number := vs.next_file_number
    flush_scheduled := false, compaction_scheduled := false, bg_error := none, bg := .idle }

/-- The manifest record that `Open` appends. -/
def openEdit (vs : VersionSet) : VersionEdit :=
  { log_number := some vs.next_file_number, next_file_number := some (vs.next_file_number + 1) }

theorem open_db_eq (h : Recoverable d n edits older pieces logged) {options : Options}
    (hoptions : options.error_if_exists = false) (dbname : String)
    (hfresh : LogFresh d (replayManifest n edits).next_file_number) :
    ∃ records, logWrites records = logged ∧
      open_db options dbname d =
        ([.open_log (replayManifest n edits).next_file_number,
            .append_manifest n (openEdit (replayManifest n edits))],
          .ok (openedDb options dbname n edits
            (records.foldl replay_record (.empty, (replayManifest n edits).last_sequence)))) := by
  obtain ⟨records, hreplay, hrecords⟩ := h.recover_log_file hfresh (replayManifest n edits).last_sequence
  have hrecover : VersionSet.recover d dbname =
      .ok { replayManifest n edits with current := (replayManifest n edits).current.sort_level1 } := by
    rw [VersionSet.recover, h.current]
    dsimp only
    rw [h.manifest]
    rfl
  refine ⟨records, hrecords, ?_⟩
  unfold open_db
  simp only [h.current, Option.isSome_some, hoptions, Bool.and_false, Bool.false_eq_true, if_false,
    Bool.not_true, Bool.false_and, if_true, hrecover, nil_append, VersionSet.take_file_number,
    Bool.true_and, Disk.apply_all_cons, Disk.apply_all_nil, hreplay]
  obtain ⟨mem, last⟩ := records.foldl replay_record (.empty, (replayManifest n edits).last_sequence)
  simp [VersionSet.log_and_apply, openedDb, openEdit, h.log_pos]

section Opened

variable (h : Recoverable d n edits older pieces logged) (options : Options) (dbname : String)
  {records : List LogRecord} (hrecords : logWrites records = logged)

include h hrecords

/-- The opened database holds the tables' run and the replayed log. -/
theorem opened_holds :
    (openedDb options dbname n edits
      (records.foldl replay_record (.empty, (replayManifest n edits).last_sequence))).Holds
      (d.apply_all [.open_log (replayManifest n edits).next_file_number,
        .append_manifest n (openEdit (replayManifest n edits))]) ⟨older, pieces, [], logged⟩ := by
  obtain ⟨hmem, hlast⟩ := replay_records_spec records MemTable.empty_represents
    (replayManifest n edits).last_sequence
  rw [hrecords] at hmem hlast
  obtain ⟨hle, hall, -⟩ := foldl_max_seq logged (replayManifest n edits).last_sequence
  have hhistory : DBImpl.history (openedDb options dbname n edits
      (records.foldl replay_record (.empty, (replayManifest n edits).last_sequence)))
      ⟨older, pieces, [], logged⟩ = older ++ pieces.flatten ++ logged := by
    simp [DBImpl.history, DBImpl.flushed, Layout.tables, openedDb]
  refine ⟨?_, fun _ => rfl, fun imm himm => (by cases himm), hmem, ?_, ?_, trivial, rfl⟩
  · exact (h.levels.perm (perm_insertionSort _ _).symm).congr fun _ _ => rfl
  · rw [hhistory]
    exact h.sequenced
  · rw [hhistory]
    intro w hw
    show w.seq ≤ (records.foldl replay_record (.empty, (replayManifest n edits).last_sequence)).2
    rw [hlast]
    rcases mem_append.mp hw with hw | hw
    · exact (h.bound w hw).trans hle
    · exact hall w hw

/-- The manifest now names the new log, which is empty: the replayed writes are in
    the memtable only. -/
theorem opened_durable (hfresh : LogFresh d (replayManifest n edits).next_file_number) :
    (openedDb options dbname n edits
      (records.foldl replay_record (.empty, (replayManifest n edits).last_sequence))).Durable
      (d.apply_all [.open_log (replayManifest n edits).next_file_number,
        .append_manifest n (openEdit (replayManifest n edits))]) ⟨older, pieces, [], logged⟩ logged [] := by
  obtain ⟨-, hlast⟩ := replay_records_spec records MemTable.empty_represents
    (replayManifest n edits).last_sequence
  rw [hrecords] at hlast
  refine ⟨h.current, ⟨edits ++ [openEdit (replayManifest n edits)], ?_, ?_⟩, rfl, rfl, h.next_pos, ?_, ?_, by simp⟩
  · simp [Disk.apply, openedDb, h.manifest]
  · have hrecovered : replayManifest n (edits ++ [openEdit (replayManifest n edits)]) =
        { replayManifest n edits with
          log_number := (replayManifest n edits).next_file_number
          next_file_number := (replayManifest n edits).next_file_number + 1 } := by
      rw [replayManifest_concat]
      rfl
    show DBImpl.ManifestMatches _ _ (replayManifest n (edits ++ [openEdit (replayManifest n edits)]))
    rw [hrecovered]
    refine ⟨rfl, (perm_insertionSort _ _).symm, rfl, Nat.succ_pos _, ?_, h.bound⟩
    show (replayManifest n edits).last_sequence ≤
      (records.foldl replay_record (.empty, (replayManifest n edits).last_sequence)).2
    rw [hlast]
    exact (foldl_max_seq logged _).1
  · show (replayManifest n edits).next_file_number < (replayManifest n edits).next_file_number + 2
    omega
  · exact ⟨{}, hfresh.open_log, rfl, rfl⟩

end Opened

end Recoverable

end lsmkv
