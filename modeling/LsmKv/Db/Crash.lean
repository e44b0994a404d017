import LsmKv.Db.FileOps
import LsmKv.Db.Reopen

namespace lsmkv

open List Option DBImpl

/-- The immutable memtable as long as the manifest does not list its table. Its
    writes are in a log that the manifest names no more. -/
def DBImpl.unlisted (db : DBImpl) : Option MemTable := if db.flushed then none else db.imm

namespace Label

def sync : Label → Bool
  | .put options .. | .delete options _ => options.sync
  | .bg => true

def update : Label → Option (history.Update Bytes Bytes)
  | .put _ key value => some ⟨key, some value⟩
  | .delete _ key => some ⟨key, none⟩
  | .bg => none

end Label

/-- The writes of the log from which `Open` recovers. -/
def recoveredLog (d : Disk) (dbname : String) : List Write :=
  match VersionSet.recover d dbname with
  | .error _ => []
  | .ok vs =>
    match d.logs vs.log_number with
    | none => []
    | some log => logWrites log.records

namespace Recoverable

variable {d d' : Disk} {n : Nat} {edits : List VersionEdit} {older : List Write} {pieces : List (List Write)}
  {logged : List Write}

section

variable (h : Recoverable d n edits older pieces logged)

include h

/-- `Recoverable` is about nothing but what `Open` reads. -/
theorem congr (hcurrent : d'.current = d.current) (hmanifests : d'.manifests = d.manifests)
    (hlog : d'.logs (replayManifest n edits).log_number = d.logs (replayManifest n edits).log_number)
    (htables : ∀ m ∈ (replayManifest n edits).current.live, d'.tables m = d.tables m) :
    Recoverable d' n edits older pieces logged where
  current := hcurrent.trans h.current
  manifest := (congrFun hmanifests n).trans h.manifest
  levels := h.levels.congr htables
  log_pos := h.log_pos
  next_pos := h.next_pos
  log := by
    rw [hlog]
    exact h.log
  sequenced := h.sequenced
  bound := h.bound

theorem recoveredLog_eq (dbname : String) :
    recoveredLog d dbname = logged := by
  have hlog := h.log
  simp only [recoveredLog, VersionSet.recover, h.current, h.manifest]
  change (match d.logs (replayManifest n edits).log_number with
    | none => []
    | some log => logWrites log.records) = logged
  cases hcase : d.logs (replayManifest n edits).log_number with
  | none =>
    rw [hcase] at hlog
    exact hlog.symm
  | some log =>
    rw [hcase] at hlog
    exact hlog.2

/-- `Open` succeeds and what it returns reads the writes of the tables and of the log. -/
theorem start_get {options : Options} (hoptions : options.error_if_exists = false) (dbname : String)
    (hfresh : LogFresh d (replayManifest n edits).next_file_number) {top : Nat} (htop : top < 2 ^ 56)
    (hlast : (replayManifest n edits).last_sequence ≤ top) (hbound : ∀ w ∈ logged, w.seq ≤ top)
    (acked : List (history.Update Bytes Bytes)) :
    ∃ s, Session.start options dbname d acked = some s ∧
      ∀ k, s.db.get s.disk k = readStatus (history.read (updates (older ++ pieces.flatten ++ logged)) k) := by
  obtain ⟨records, hrecords, hopen⟩ := h.open_db_eq hoptions dbname hfresh
  have hholds := h.opened_holds options dbname hrecords
  refine ⟨_, by rw [Session.start, hopen], fun k => ?_⟩
  obtain ⟨-, hreplayed⟩ := replay_records_spec records MemTable.empty_represents
    (replayManifest n edits).last_sequence
  have hbelow : (records.foldl replay_record (.empty, (replayManifest n edits).last_sequence)).2 < 2 ^ 56 := by
    rw [hreplayed, hrecords]
    exact ((foldl_max_seq logged _).2.2 _ hlast hbound).trans_lt htop
  refine (hholds.get_eq hbelow k).trans ?_
  simp [DBImpl.history, DBImpl.flushed, Layout.tables, Recoverable.openedDb]

end

end Recoverable

namespace Session

/-- The database in memory when the first operations of a step are done, as far as
    its immutable memtable goes: a rotation is complete with the second one. -/
def dbAfter (s : Session) (label : Label) (done : Nat) : DBImpl :=
  match label with
  | .bg => if done = 0 then s.db else (s.db.bg_step s.disk).1
  | _ => if s.db.mem.memory_usage < s.db.options.write_buffer_size ∨ done < 2 then s.db else s.db.rotate.1

/-- Every key of an immutable memtable that the manifest does not list occurs again
    in the log that the manifest names. -/
def CrashCovered (s : Session) (label : Label) (done : Nat) (d : Disk) : Prop :=
  ∀ imm, (s.dbAfter label done).unlisted = some imm →
    ∀ e ∈ imm.table, ∃ w ∈ recoveredLog d s.db.dbname, w.key = e.1.key

/-- A running session on a new database. The number that the manifest records as the next
    one is behind the counter, and no log has it. -/
structure First (s : Session) (l : Layout) (logged : List Write) : Prop where
  running : s.Running l [] logged
  numbers : s.db.NumbersBelow
  logs : ∀ n, s.db.versions.next_file_number ≤ n → s.disk.logs n = none
  recorded_lt : s.disk.recordedNext s.db.versions.manifest_file_number < s.db.versions.next_file_number
  recorded_log : s.disk.logs (s.disk.recordedNext s.db.versions.manifest_file_number) = none

/-- A running session on a new database whose writes are all synchronous. -/
structure Synced (s : Session) (l : Layout) (logged : List Write) : Prop extends s.First l logged where
  pending : s.db.wal.pending = []

variable {s s' : Session} {l : Layout} {logged : List Write} {label : Label} {ops : List FileOp}

theorem freshSession_first (options : Options) (dbname : String) :
    (freshSession options dbname).First ⟨[], [], [], []⟩ [] := by
  refine ⟨freshSession_running options dbname, (freshSession_holds options dbname).2, ?_, ?_, rfl⟩
  · intro n hn
    have hn : 4 ≤ n := hn
    have hne : n ≠ 2 := by omega
    simp [freshSession, Disk.apply, Function.update, hne]
  · show 3 < 4
    decide

theorem freshSession_synced (options : Options) (dbname : String) :
    (freshSession options dbname).Synced ⟨[], [], [], []⟩ [] := ⟨freshSession_first options dbname, rfl⟩

/-- A write step is a write of the database. -/
theorem write_of_stepOps (hlabel : label ≠ .bg) (hops : s.stepOps label = some ops) :
    ∃ (options : WriteOptions) (w : Write) (outcome : (DBImpl × Except Status Unit) × List FileOp),
      s.db.write options w.type w.key w.value = some outcome ∧ outcome.2 = ops ∧
      s.step label = some (s.wrote ⟨w.key, w.result⟩ outcome) ∧ label.update = some ⟨w.key, w.result⟩ ∧
      options.sync = label.sync := by
  cases label with
  | bg => exact absurd rfl hlabel
  | put options key value =>
    obtain ⟨outcome, hwrite, hout⟩ := map_eq_some_iff.mp hops
    exact ⟨options, ⟨0, .kTypeValue, key, value⟩, outcome, hwrite, hout, by rw [step, hwrite]; rfl, rfl, rfl⟩
  | delete options key =>
    obtain ⟨outcome, hwrite, hout⟩ := map_eq_some_iff.mp hops
    exact ⟨options, ⟨0, .kTypeDeletion, key, []⟩, outcome, hwrite, hout, by rw [step, hwrite]; rfl, rfl, rfl⟩

/-- Everything a synchronous write can do, operation by operation. -/
theorem Synced.write_cases (h : s.Synced l logged) (hlabel : label ≠ .bg) (hsync : label.sync = true)
    (hops : s.stepOps label = some ops) :
    ∃ (options : WriteOptions) (w : Write) (record : LogRecord), label.update = some ⟨w.key, w.result⟩ ∧
      ((s.db.mem.memory_usage < s.db.options.write_buffer_size ∧
          ops = [.append_log s.db.wal.number [record]] ∧
          s.step label = some
            { db := (s.db.add_record options w.type w.key w.value).1, disk := s.disk.apply_all ops
              acked := s.acked ++ [⟨w.key, w.result⟩] } ∧ options.sync = true) ∨
        (s.db.options.write_buffer_size ≤ s.db.mem.memory_usage ∧ s.db.imm = none ∧
          ops = s.db.rotate.2 ++ [.append_log s.db.versions.next_file_number [record]] ∧
          s.step label = some
            { db := (s.db.rotate.1.add_record options w.type w.key w.value).1, disk := s.disk.apply_all ops
              acked := s.acked ++ [⟨w.key, w.result⟩] } ∧ options.sync = true)) := by
  obtain ⟨options, w, ⟨⟨db', result⟩, ops⟩, hwrite, rfl, hstep, hupdate, hoptions⟩ := write_of_stepOps hlabel hops
  rw [hsync] at hoptions
  obtain ⟨rfl, hcases⟩ := DBImpl.write_cases hwrite h.running.holds.1.no_error
  refine ⟨options, w, ⟨s.db.versions.last_sequence + 1, [(w.type, w.key, w.value)]⟩, hupdate, ?_⟩
  rcases hcases with ⟨hroom, rfl, rfl⟩ | ⟨hfull, himm, rfl, rfl⟩
  · exact .inl ⟨hroom, add_record_ops h.pending hoptions _ _ _, hstep, hoptions⟩
  · refine .inr ⟨hfull, himm, ?_, hstep, hoptions⟩
    have hrecord : (s.db.rotate.1.add_record options w.type w.key w.value).2 = _ :=
      add_record_ops rfl hoptions w.type w.key w.value
    rw [hrecord, rotate_last_sequence]
    rfl

theorem step_of_stepOps (hops : s.stepOps label = some ops) : ∃ s', s.step label = some s' := by
  cases label with
  | bg => exact ⟨_, rfl⟩
  | put options key value | delete options key =>
    obtain ⟨outcome, hwrite, -⟩ := map_eq_some_iff.mp hops
    exact ⟨_, by rw [step, hwrite]; rfl⟩

/-- A write step and its operations: the record goes to the current log, or to a new one
    after a rotation. -/
theorem First.write_cases (h : s.First l logged) (hlabel : label ≠ .bg) (hops : s.stepOps label = some ops)
    (hstep : s.step label = some s') : ∃ (options : WriteOptions) (w : Write),
      (s'.db = (s.db.add_record options w.type w.key w.value).1 ∧
          ops = (s.db.add_record options w.type w.key w.value).2) ∨
        (s'.db = (s.db.rotate.1.add_record options w.type w.key w.value).1 ∧
          ops = s.db.rotate.2 ++ (s.db.rotate.1.add_record options w.type w.key w.value).2) := by
  obtain ⟨options, w, ⟨⟨db', result⟩, ops⟩, hwrite, rfl, hwrote, -⟩ := write_of_stepOps hlabel hops
  cases hwrote.symm.trans hstep
  obtain ⟨-, hcases⟩ := DBImpl.write_cases hwrite h.running.holds.1.no_error
  refine ⟨options, w, ?_⟩
  rcases hcases with ⟨-, hdb, hadd⟩ | ⟨-, -, hdb, hadd⟩
  · exact .inl ⟨hdb, hadd⟩
  · exact .inr ⟨hdb, hadd⟩

section

variable (h : s.First l logged) (hops : s.stepOps label = some ops)

include h hops

/-- The operations of a step leave the recorded next number alone, and touch no log
    but the current one and the one under the next number. -/
theorem First.step_ops :
    ∀ op ∈ ops, op.KeepsNext ∧
      ∀ n, op.logNumber = some n → n = s.db.wal.number ∨ n = s.db.versions.next_file_number := by
  by_cases hlabel : label = .bg
  · subst hlabel
    cases hops
    intro op hop
    obtain ⟨hkeeps, hlog⟩ := h.running.holds.1.bg.bg_step_ops op hop
    exact ⟨hkeeps, fun n hn => by rw [hlog] at hn; cases hn⟩
  · obtain ⟨s', hstep⟩ := step_of_stepOps hops
    have hflush : ∀ (w : WalWriter), ∀ op ∈ w.flush, op.KeepsNext ∧ op.logNumber = some w.number := by
      intro w op hop
      unfold WalWriter.flush at hop
      split at hop
      · cases hop
      · obtain rfl := mem_singleton.mp hop
        exact ⟨trivial, rfl⟩
    have hadd : ∀ (db : DBImpl) (options : WriteOptions) (w : Write),
        ∀ op ∈ (db.add_record options w.type w.key w.value).2, op.KeepsNext ∧ op.logNumber = some db.wal.number := by
      intro db options w op hop
      unfold add_record at hop
      split at hop
      · exact hflush ⟨db.wal.number, db.wal.pending ++ [⟨_, [(w.type, w.key, w.value)]⟩]⟩ op hop
      · cases hop
    obtain ⟨options, w, ⟨-, rfl⟩ | ⟨-, rfl⟩⟩ := h.write_cases hlabel hops hstep
    · intro op hop
      obtain ⟨hkeeps, hlog⟩ := hadd _ _ _ op hop
      exact ⟨hkeeps, fun n hn => .inl (Option.some.inj (hn.symm.trans hlog))⟩
    · intro op hop
      rcases mem_append.mp hop with hop | hop
      · rcases mem_append.mp hop with hop | hop
        · rcases mem_append.mp hop with hop | hop
          · obtain ⟨hkeeps, hlog⟩ := hflush _ op hop
            exact ⟨hkeeps, fun n hn => .inl (Option.some.inj (hn.symm.trans hlog))⟩
          · obtain rfl := mem_singleton.mp hop
            exact ⟨trivial, fun n hn => .inr (Option.some.inj hn).symm⟩
        · obtain rfl := mem_singleton.mp hop
          exact ⟨rfl, fun n hn => by cases hn⟩
      · obtain ⟨hkeeps, hlog⟩ := hadd _ _ _ op hop
        exact ⟨hkeeps, fun n hn => .inr (Option.some.inj (hn.symm.trans hlog))⟩

/-- What a step leaves of the numbers. -/
theorem First.step_numbers (hstep : s.step label = some s') :
    s'.db.versions.manifest_file_number = s.db.versions.manifest_file_number ∧
      s.db.versions.next_file_number ≤ s'.db.versions.next_file_number ∧
      ∀ op ∈ ops, op.logNumber = some s.db.versions.next_file_number →
        s.db.versions.next_file_number < s'.db.versions.next_file_number := by
  by_cases hlabel : label = .bg
  · subst hlabel
    cases hops
    cases hstep
    refine ⟨bg_step_frame.2.2.2.1, bg_step_frame.2.2.2.2, fun op hop hlog => ?_⟩
    rw [(h.running.holds.1.bg.bg_step_ops op hop).2] at hlog
    cases hlog
  · obtain ⟨options, w, ⟨hdb, rfl⟩ | ⟨hdb, rfl⟩⟩ := h.write_cases hlabel hops hstep
    · rw [hdb]
      refine ⟨rfl, le_rfl, fun op hop hlog => ?_⟩
      unfold add_record WalWriter.flush at hop
      have hne := h.running.durable.log_lt.ne
      revert hop
      split <;> simp only [not_mem_nil, false_imp_iff]
      split <;> simp only [not_mem_nil, false_imp_iff, mem_singleton]
      rintro rfl
      exact absurd (Option.some.inj hlog) hne
    · have hnext : s.db.versions.next_file_number <
          (s.db.rotate.1.add_record options w.type w.key w.value).1.versions.next_file_number := by
        simp [DBImpl.rotate, add_record, VersionSet.log_and_apply, VersionSet.take_file_number]
      rw [hdb]
      exact ⟨rfl, hnext.le, fun _ _ _ => hnext⟩

/-- A number that neither the current log nor the next one has: its log is untouched. -/
theorem First.logs_apply_all {n : Nat} (hwal : n ≠ s.db.wal.number) (hnext : n ≠ s.db.versions.next_file_number)
    (done : Nat) :
    (s.disk.apply_all (ops.take done)).logs n = s.disk.logs n := by
  refine Disk.logs_apply_all _ fun op hop hlog => ?_
  rcases (h.step_ops hops op (mem_of_mem_take hop)).2 n hlog with heq | heq
  · exact hwal heq
  · exact hnext heq

/-- The recorded next number names no log, before, during and after a step. -/
theorem First.recorded_take (done : Nat) :
    (s.disk.apply_all (ops.take done)).recordedNext s.db.versions.manifest_file_number =
        s.disk.recordedNext s.db.versions.manifest_file_number ∧
      (s.disk.apply_all (ops.take done)).logs (s.disk.recordedNext s.db.versions.manifest_file_number) = none := by
  obtain ⟨log, hlog, -⟩ := h.running.durable.log
  refine ⟨Disk.recordedNext_apply_all _ _ fun op hop => (h.step_ops hops op (mem_of_mem_take hop)).1, ?_⟩
  rw [h.logs_apply_all hops ?_ h.recorded_lt.ne, h.recorded_log]
  intro heq
  rw [← heq, h.recorded_log] at hlog
  cases hlog

end

/-- Every step of a first session keeps its numbers in line. -/
theorem First.step (h : s.First l logged) (hstep : s.step label = some s') (hlen : s.acked.length < 2 ^ 56) :
    ∃ l' logged', s'.First l' logged' := by
  obtain ⟨ops, hops, hdisk⟩ := stepOps_of_step hstep
  obtain ⟨hmanifest, hnext, hopened⟩ := h.step_numbers hops hstep
  have htake : ops.take ops.length = ops := take_length
  obtain ⟨hrecorded, hrecordedLog⟩ := h.recorded_take hops ops.length
  rw [htake, ← hdisk] at hrecorded hrecordedLog
  have hfresh : s.DrawsFresh label := by
    cases label with
    | bg => exact fun _ hmem => lt_irrefl _ (h.numbers.live _ hmem)
    | put | delete => exact fun _ => .inl (h.logs _ le_rfl)
  obtain ⟨l', replayed', logged', hrunning, hreplayed⟩ := h.running.step hfresh hstep hlen
  have hnone : replayed' = [] := by
    rcases hreplayed with ⟨rfl, -⟩ | ⟨rfl, -⟩ <;> rfl
  subst hnone
  refine ⟨l', logged', hrunning, numbersBelow_step h.numbers h.running.holds.1.no_error hstep, ?_, ?_, ?_⟩
  · intro n hn
    rw [hdisk]
    have hne : n ≠ s.db.wal.number := ((h.running.durable.log_lt.trans_le hnext).trans_le hn).ne'
    rw [Disk.logs_apply_all, h.logs n (hnext.trans hn)]
    intro op hop hlog
    rcases (h.step_ops hops op hop).2 n hlog with heq | heq
    · exact hne heq
    · subst heq
      exact absurd (hopened op hop hlog) (not_lt.mpr hn)
  · rw [hmanifest, hrecorded]
    exact h.recorded_lt.trans_le hnext
  · rw [hmanifest, hrecorded]
    exact hrecordedLog

theorem First.run (h : s.First l logged) {labels : List Label} (hrun : s.run labels = some s')
    (hlen : s'.acked.length < 2 ^ 56) : ∃ l' logged', s'.First l' logged' := by
  refine run_keeps (I := fun t => ∃ l logged, t.First l logged) ⟨l, logged, h⟩ hrun ?_
  rintro label - t t' rest ⟨l, logged, h⟩ hstep hrest
  exact h.step hstep (((acked_length_le_step hstep).trans (acked_length_le_run hrest)).trans_lt hlen)

/-- A synchronous step leaves nothing buffered. -/
theorem Synced.step_pending (h : s.Synced l logged) (hsync : label.sync = true) (hstep : s.step label = some s') :
    s'.db.wal.pending = [] := by
  obtain ⟨ops, hops, -⟩ := stepOps_of_step hstep
  by_cases hlabel : label = .bg
  · subst hlabel
    cases hstep
    show (s.db.bg_step s.disk).1.wal.pending = []
    rw [bg_step_frame.1]
    exact h.pending
  · obtain ⟨options, w, record, -, ⟨-, -, heq, hoptions⟩ | ⟨-, -, -, heq, hoptions⟩⟩ :=
      h.write_cases hlabel hsync hops
    all_goals
      cases heq.symm.trans hstep
      simp [add_record, hoptions]

/-- Every step keeps a session synced. -/
theorem Synced.step (h : s.Synced l logged) (hsync : label.sync = true) (hstep : s.step label = some s')
    (hlen : s.acked.length < 2 ^ 56) : ∃ l' logged', s'.Synced l' logged' := by
  obtain ⟨l', logged', hfirst⟩ := h.toFirst.step hstep hlen
  exact ⟨l', logged', hfirst, h.step_pending hsync hstep⟩

/-- A directory left by a crash, as `Open` reads it, is that of a running session
    with nothing buffered. -/
structure CrashedAs (d : Disk) (s : Session) (l : Layout) (logged : List Write) : Prop where
  running : s.Running l [] logged
  pending : s.db.wal.pending = []
  current : d.current = s.disk.current
  manifests : d.manifests = s.disk.manifests
  log : d.logs s.db.wal.number = s.disk.logs s.db.wal.number
  tables : ∀ m ∈ s.db.versions.current.live, d.tables m = s.disk.tables m

variable {d : Disk}

theorem CrashedAs.of_agree (hrunning : s.Running l [] logged) (hpending : s.db.wal.pending = [])
    (hagree : d.Agree s.disk s.db.versions.current.live) : CrashedAs d s l logged :=
  ⟨hrunning, hpending, hagree.current.symm, hagree.manifests.symm, congrFun hagree.logs.symm _,
    fun m hm => (hagree.tables m hm).symm⟩

theorem CrashedAs.recoverable (h : CrashedAs d s l logged) :
    ∃ edits, Recoverable d s.db.versions.manifest_file_number edits l.older l.pieces logged ∧
      s.db.ManifestMatches l (replayManifest s.db.versions.manifest_file_number edits) := by
  obtain ⟨edits, hrec, hmatch⟩ := h.running.durable.recoverable h.running.holds.1
  have hflush : s.db.wal.flush = [] := by rw [WalWriter.flush, if_pos h.pending]
  rw [hflush, Disk.apply_all_nil] at hrec
  refine ⟨edits, hrec.congr h.current h.manifests ?_ ?_, hmatch⟩
  · rw [hmatch.log_number, h.running.durable.log_number]
    exact h.log
  · intro m hm
    refine h.tables m ?_
    have hperm : (replayManifest s.db.versions.manifest_file_number edits).current.live.Perm
        s.db.versions.current.live := by
      rw [Version.live, Version.live, hmatch.files0]
      exact (hmatch.files1.append_left _).map _
    exact hperm.mem_iff.mp hm

/-- A crash in the middle of a background step. All operations after the first touch
    tables that nobody reads, so the directory is that before or that after the step. -/
theorem Synced.crash_bg (h : s.Synced l logged) (hlen : s.acked.length < 2 ^ 56) (done : Nat) :
    ∃ s₀ l₀ logged₀, CrashedAs (s.disk.apply_all ((s.db.bg_step s.disk).2.take done)) s₀ l₀ logged₀ ∧
      s₀.db.versions.manifest_file_number = s.db.versions.manifest_file_number ∧
      s₀.db = s.dbAfter .bg done ∧ s₀.acked = s.acked := by
  cases done with
  | zero => exact ⟨s, l, logged, .of_agree h.running h.pending (.refl _ _), rfl, rfl, rfl⟩
  | succ done =>
    obtain ⟨l', logged', hsynced⟩ := h.step rfl (step_bg s) hlen
    refine ⟨_, l', logged', .of_agree hsynced.running hsynced.pending ?_, bg_step_frame.2.2.2.1, rfl, rfl⟩
    have hsplit : s.disk.apply_all (s.db.bg_step s.disk).2 =
        (s.disk.apply_all ((s.db.bg_step s.disk).2.take (done + 1))).apply_all
          ((s.db.bg_step s.disk).2.drop (done + 1)) := by
      rw [← Disk.apply_all_append, take_append_drop]
    show (s.disk.apply_all _).Agree (s.disk.apply_all (s.db.bg_step s.disk).2) _
    rw [hsplit]
    refine Disk.agree_apply_all _ fun op hop => h.running.holds.1.bg_step_tail op ?_
    rw [← drop_one]
    rw [Nat.add_comm, ← drop_drop] at hop
    exact mem_of_mem_drop hop

/-- A crash in the middle of a write: before it, after it, or between the rotation
    and the record. -/
theorem Synced.crash_write (h : s.Synced l logged) (hlabel : label ≠ .bg) (hsync : label.sync = true)
    (hops : s.stepOps label = some ops) (hlen : s.acked.length < 2 ^ 56) (done : Nat) :
    ∃ s₀ l₀ logged₀, CrashedAs (s.disk.apply_all (ops.take done)) s₀ l₀ logged₀ ∧
      s₀.db.versions.manifest_file_number = s.db.versions.manifest_file_number ∧
      s₀.db.unlisted = (s.dbAfter label done).unlisted ∧
      (s₀.acked = s.acked ∨ ∃ u, label.update = some u ∧ s₀.acked = s.acked ++ [u]) := by
  have hafter : s.dbAfter label done = if s.db.mem.memory_usage < s.db.options.write_buffer_size ∨ done < 2
      then s.db else s.db.rotate.1 := by
    cases label with
    | bg => exact absurd rfl hlabel
    | put | delete => rfl
  obtain ⟨options, w, record, hupdate, ⟨hroom, rfl, hstep, -⟩ | ⟨hfull, himm, rfl, hstep, -⟩⟩ :=
    h.write_cases hlabel hsync hops
  all_goals obtain ⟨l', logged', hsynced⟩ := h.step hsync hstep hlen
  · rw [hafter, if_pos (.inl hroom)]
    cases done with
    | zero => exact ⟨s, l, logged, .of_agree h.running h.pending (.refl _ _), rfl, rfl, .inl rfl⟩
    | succ done =>
      refine ⟨_, l', logged', .of_agree hsynced.running hsynced.pending ?_, rfl, rfl, .inr ⟨_, hupdate, rfl⟩⟩
      rw [take_of_length_le (by simp)]
      exact .refl _ _
  · rw [hafter]
    have hnotroom : ¬ s.db.mem.memory_usage < s.db.options.write_buffer_size := not_lt.mpr hfull
    rcases done with _ | _ | _ | done
    · rw [if_pos (.inr (by decide))]
      exact ⟨s, l, logged, .of_agree h.running h.pending (.refl _ _), rfl, rfl, .inl rfl⟩
    · rw [if_pos (.inr (by decide)), rotate_ops h.pending]
      refine ⟨s, l, logged, ⟨h.running, h.pending, rfl, rfl, ?_, fun _ _ => rfl⟩, rfl, rfl, .inl rfl⟩
      exact Function.update_of_ne h.running.durable.log_lt.ne _ _
    · rw [if_neg (by simp [hnotroom])]
      have htake : (s.db.rotate.2 ++ [FileOp.append_log s.db.versions.next_file_number [record]]).take 2 =
          s.db.rotate.2 := by rw [rotate_ops h.pending]; rfl
      rw [htake]
      obtain ⟨hholds, hhistory⟩ := h.running.holds.1.rotate himm
      have hrunning : Running ⟨s.db.rotate.1, s.disk.apply_all s.db.rotate.2, s.acked⟩ l.rotate [] [] := by
        refine ⟨⟨hholds, ?_⟩, h.running.durable.rotate (.inl (h.logs _ le_rfl)), ?_⟩
        · exact (congrArg updates hhistory).trans h.running.holds.2
        · exact rotate_last_sequence.trans_le h.running.last_sequence
      exact ⟨_, _, _, .of_agree hrunning rfl (.refl _ _), rfl, rfl, .inl rfl⟩
    · rw [if_neg (by simp [hnotroom])]
      refine ⟨_, l', logged', .of_agree hsynced.running hsynced.pending ?_, rfl, rfl, .inr ⟨_, hupdate, rfl⟩⟩
      rw [take_of_length_le (by simp [rotate_ops h.pending])]
      exact .refl _ _

theorem Synced.crash (h : s.Synced l logged) (hsync : label.sync = true) (hops : s.stepOps label = some ops)
    (hlen : s.acked.length < 2 ^ 56) (done : Nat) :
    ∃ s₀ l₀ logged₀, CrashedAs (s.disk.apply_all (ops.take done)) s₀ l₀ logged₀ ∧
      s₀.db.versions.manifest_file_number = s.db.versions.manifest_file_number ∧
      s₀.db.unlisted = (s.dbAfter label done).unlisted ∧
      (s₀.acked = s.acked ∨ ∃ u, label.update = some u ∧ s₀.acked = s.acked ++ [u]) := by
  by_cases hlabel : label = .bg
  · subst hlabel
    cases hops
    obtain ⟨s₀, l₀, logged₀, hcrash, hmanifest, hdb, hacked⟩ := h.crash_bg hlen done
    exact ⟨s₀, l₀, logged₀, hcrash, hmanifest, by rw [hdb], .inl hacked⟩
  · exact h.crash_write hlabel hsync hops hlen done

/-- The acknowledged writes are those of the tables, of an unlisted memtable and of
    the log. With the keys of the memtable in the log, it is not missed. -/
theorem CrashedAs.read_eq {logged : List Write} (h : CrashedAs d s l logged)
    (hcovered : ∀ imm, s.db.unlisted = some imm → ∀ e ∈ imm.table, ∃ w ∈ logged, w.key = e.1.key) (k : Bytes) :
    history.read (updates (l.older ++ l.pieces.flatten ++ logged)) k = history.read s.acked k := by
  have hholds := h.running.holds.1
  have hmem := h.running.durable.mem
  rw [nil_append] at hmem
  set lost : List Write := if s.db.flushed then [] else l.imm with hlost
  have hacked : s.acked = updates (l.tables ++ lost ++ logged) := by
    rw [← h.running.holds.2, DBImpl.history, hmem]
  have hshadow : ∀ u ∈ updates lost, ∃ w ∈ updates logged, w.key = u.key := by
    intro u hu
    obtain ⟨w, hw, rfl⟩ := List.mem_map.mp hu
    cases hflushed : s.db.flushed with
    | true => simp [hlost, hflushed] at hw
    | false =>
      simp only [hlost, hflushed, Bool.false_eq_true, if_false] at hw
      cases himm : s.db.imm with
      | none =>
        rw [hholds.imm_none himm] at hw
        cases hw
      | some imm =>
        have hunlisted : s.db.unlisted = some imm := by simp [DBImpl.unlisted, hflushed, himm]
        obtain ⟨w', hlast, hkey⟩ := history.exists_isLast Write.key ⟨w, hw, rfl⟩
        have hentry := (hholds.imm_some imm himm w.key).complete w' hlast hkey
        obtain ⟨x, hx, hxkey⟩ := hcovered imm hunlisted _ hentry
        exact ⟨⟨x.key, x.result⟩, List.mem_map_of_mem hx, hxkey.trans hkey⟩
  rw [hacked, history.read, history.read, updates_append, updates_append _ logged, updates_append l.tables]
  exact congrArg Option.join (history.latest_drop_shadowed hshadow k)

theorem Synced.run (h : s.Synced l logged) {labels : List Label} (hsync : ∀ label ∈ labels, label.sync = true)
    (hrun : s.run labels = some s') (hlen : s'.acked.length < 2 ^ 56) : ∃ l' logged', s'.Synced l' logged' := by
  refine run_keeps (I := fun t => ∃ l logged, t.Synced l logged) ⟨l, logged, h⟩ hrun ?_
  rintro label hlabel t t' rest ⟨l, logged, h⟩ hstep hrest
  exact h.step (hsync label hlabel) hstep
    (((acked_length_le_step hstep).trans (acked_length_le_run hrest)).trans_lt hlen)

/-- A crash between two file operations of a session of synchronous writes on a new
    database: if every key of a memtable rotated out of the log and not yet listed by
    the manifest occurs again in the log, then the next `Open` succeeds and every
    `Get` returns the last acknowledged write, or that of the write in progress. All
    that was written is assumed to fit its length fields; then the files, as bytes, are
    read back as what the directory says, and the memtable that `Open` fills is stored. -/
theorem crash_get_eq_last_write {options : Options} {dbname : String} {labels : List Label} {s : Session}
    (hrun : run_fresh options dbname labels = some s) (hsync : ∀ label ∈ labels, label.sync = true)
    {label : Label} (hlabel : label.sync = true) {ops : List FileOp} (hops : s.stepOps label = some ops)
    {done : Nat} (hcovered : s.CrashCovered label done (s.disk.apply_all (ops.take done)))
    (hlen : s.acked.length + 1 < 2 ^ 56) (hfits : FreshFits options dbname (labels ++ [label]))
    (reopen : Options) (hreopen : reopen.error_if_exists = false) :
    (s.disk.apply_all (ops.take done)).Readable ∧ ∃ s',
      start reopen dbname (s.disk.apply_all (ops.take done)) s.acked = some s' ∧ s'.db.Stored ∧
        ((∀ k, s'.db.get s'.disk k = readStatus (history.read s.acked k)) ∨
          ∃ u, label.update = some u ∧
            ∀ k, s'.db.get s'.disk k = readStatus (history.read (s.acked ++ [u]) k)) := by
  obtain ⟨hfits, hopsFit⟩ := hfits.of_concat hrun
  have hdisk : (s.disk.apply_all (ops.take done)).Fits :=
    (fits_run_fresh hfits hrun).2.apply_all fun op hop => hopsFit ops hops op (mem_of_mem_take hop)
  have hlen' := (Nat.lt_succ_self _).trans hlen
  obtain ⟨l, logged, hsynced⟩ := (freshSession_synced options dbname).run hsync (run_of_fresh hrun) hlen'
  obtain ⟨s₀, l₀, logged₀, hcrash, hmanifest, hunlisted, hacked⟩ := hsynced.crash hlabel hops hlen' done
  obtain ⟨edits, hrec, hmatch⟩ := hcrash.recoverable
  obtain ⟨hrecorded, hnolog⟩ := hsynced.toFirst.recorded_take hops done
  rw [← hrecorded, Disk.recordedNext, ← hmanifest, hrec.manifest] at hnolog
  have hlast : s₀.db.versions.last_sequence < 2 ^ 56 := by
    refine hcrash.running.last_sequence.trans_lt ?_
    rcases hacked with heq | ⟨u, -, heq⟩
    · rw [heq]
      exact hlen'
    · rw [heq, length_append]
      exact hlen
  have hbound : ∀ w ∈ logged₀, w.seq ≤ s₀.db.versions.last_sequence := by
    intro w hw
    refine hcrash.running.holds.1.bound w (history_mem_sublist.subset ?_)
    rw [hcrash.running.durable.mem]
    exact hw
  obtain ⟨s', hstart, hget⟩ := hrec.start_get hreopen dbname (.inl hnolog) hlast hmatch.last_sequence hbound s.acked
  have hread := hcrash.read_eq (by
    intro imm himm
    rw [hunlisted] at himm
    rw [← hrec.recoveredLog_eq s.db.dbname]
    exact hcovered imm himm)
  refine ⟨hdisk.readable, s', hstart, start_stored hdisk hstart, ?_⟩
  rcases hacked with heq | ⟨u, hu, heq⟩
  · exact .inl fun k => by rw [hget, hread, heq]
  · exact .inr ⟨u, hu, fun k => by rw [hget, hread, heq]⟩

/-- A crash of a merge after its manifest record and before its inputs are removed. -/
theorem crash_get_inside_merge :
    ∃ s ops s', run_fresh { create_if_missing := true, write_buffer_size := 1, level0_compaction_trigger := 1 } "db"
        ([.put ⟨true⟩ [97] [49], .put ⟨true⟩ [98] [50]] ++ List.replicate 11 .bg) = some s ∧
      s.stepOps .bg = some ops ∧ ops.length = 2 ∧ start {} "db" (s.disk.apply_all (ops.take 1)) s.acked = some s' ∧
      ∀ k, s'.db.get s'.disk k = readStatus (history.read [⟨[97], some [49]⟩, ⟨[98], some [50]⟩] k) := by
  have hfacts : (run_fresh { create_if_missing := true, write_buffer_size := 1, level0_compaction_trigger := 1 }
      "db" ([.put ⟨true⟩ [97] [49], .put ⟨true⟩ [98] [50]] ++ List.replicate 11 .bg)).bind (fun s =>
        (s.stepOps .bg).map fun ops => (ops.length, (s.dbAfter .bg 1).unlisted.isNone, s.acked)) =
      some (2, true, [⟨[97], some [49]⟩, ⟨[98], some [50]⟩]) := by decide
  obtain ⟨s, hrun, hs⟩ := bind_eq_some_iff.mp hfacts
  obtain ⟨ops, hops, hs⟩ := map_eq_some_iff.mp hs
  simp only [Prod.mk.injEq, isNone_iff_eq_none] at hs
  obtain ⟨hlength, hunlisted, hacked⟩ := hs
  have hcovered : s.CrashCovered .bg 1 (s.disk.apply_all (ops.take 1)) := by
    intro imm himm
    rw [hunlisted] at himm
    cases himm
  obtain ⟨-, s', hstart, -, hget⟩ := crash_get_eq_last_write hrun (by decide) rfl hops hcovered
    (by rw [hacked]; decide) (by decide +kernel) {} rfl
  refine ⟨s, ops, s', hrun, hops, hlength, hstart, ?_⟩
  rcases hget with hget | ⟨u, hu, -⟩
  · rwa [hacked] at hget
  · cases hu

/-- A crash right after a rotation: the manifest names the new log already and lists
    no table of the old memtable, whose synchronous write is gone. -/
theorem crash_after_rotation_loses_write :
    ∃ s s', run_fresh { create_if_missing := true, write_buffer_size := 1 } "db"
        [.put ⟨true⟩ [97] [49], .put ⟨true⟩ [98] [50]] = some s ∧
      start {} "db" s.disk s.acked = some s' ∧ history.read s.acked [97] = some [49] ∧
      s'.db.get s'.disk [97] = .error (.NotFound "") := by
  have hfacts : (run_fresh { create_if_missing := true, write_buffer_size := 1 } "db"
      [.put ⟨true⟩ [97] [49], .put ⟨true⟩ [98] [50]]).bind (fun s => (start {} "db" s.disk s.acked).map fun s' =>
        (history.read s.acked [97], s'.db.get s'.disk [97])) = some (some [49], .error (.NotFound "")) := by rfl
  obtain ⟨s, hrun, hs⟩ := bind_eq_some_iff.mp hfacts
  obtain ⟨s', hstart, hs⟩ := map_eq_some_iff.mp hs
  obtain ⟨hread, hget⟩ := Prod.mk.inj hs
  exact ⟨s, s', hrun, hstart, hread, hget⟩

end Session

end lsmkv
