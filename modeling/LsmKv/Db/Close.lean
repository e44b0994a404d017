import LsmKv.Db.Durable

namespace lsmkv.DBImpl

open DBImpl

variable {db : DBImpl} {d : Disk} {l : Layout} {replayed logged : List Write}

/-- The last sequence number recorded by an edit was read before, so installing the
    edit does not move it. -/
theorem BgHolds.last_sequence_bg_step (hbg : db.BgHolds d l) :
    (db.bg_step d).1.versions.last_sequence = db.versions.last_sequence := by
  unfold BgHolds at hbg
  unfold bg_step flush_step compact_step
  cases hcase : db.bg <;> simp only [hcase] at hbg ⊢
  case idle => split <;> [skip; split <;> [skip; split]] <;> rfl
  case flush_start => cases db.imm <;> rfl
  case flush_edit edit =>
    obtain ⟨f, seq, imm, -, rfl, hseq, -⟩ := hbg
    exact max_eq_left hseq
  case compact_start => split <;> rfl
  case compact_merge current n => cases compact_level0 db.options d db.dbname current n <;> rfl
  case compact_edit result edit =>
    obtain ⟨n, seq, -, rfl, hseq, -⟩ := hbg
    exact max_eq_left hseq

/-- Between its first and its last step a flush is what the background thread does. -/
theorem flush_step_cases (hcompact : db.bg ≠ .compact_start) :
    (db.flush_step = db.bg_step d ∨ db.flush_step = (db, [])) ∧
      db.flush_step.1.bg ≠ .flush_start ∧ db.flush_step.1.bg ≠ .compact_start := by
  unfold bg_step flush_step
  cases hcase : db.bg <;> simp only
  case flush_start => cases db.imm <;> simp
  case flush_build imm n =>
    refine ⟨.inl trivial, ?_⟩
    split <;> simp
  case compact_start => exact absurd hcase hcompact
  all_goals simp [hcase]

/-- A flush that runs to its end keeps the layers, the history and the directory. -/
theorem Holds.run_flush (h : db.Holds d l) (hdurable : db.Durable d l replayed logged)
    (hfresh : db.DrawsFreshTable) (hcompact : db.bg ≠ .compact_start)
    (hlast : db.versions.last_sequence < 2 ^ 56) (fuel : Nat) :
    ∃ l', (run_flush fuel db).1.Holds (d.apply_all (run_flush fuel db).2) l' ∧
      (run_flush fuel db).1.history l' = db.history l ∧
      (run_flush fuel db).1.Durable (d.apply_all (run_flush fuel db).2) l' replayed logged ∧
      (run_flush fuel db).1.versions.last_sequence = db.versions.last_sequence := by
  induction fuel generalizing db d l with
  | zero => exact ⟨l, h, rfl, hdurable, rfl⟩
  | succ fuel ih =>
    obtain ⟨hcases, hnotflush, hnotcompact⟩ := flush_step_cases (d := d) hcompact
    -- one step, then the rest of the flush from there
    obtain ⟨l₁, h₁, hhistory₁, hdurable₁, hlast₁⟩ : ∃ l₁, db.flush_step.1.Holds (d.apply_all db.flush_step.2) l₁ ∧
        db.flush_step.1.history l₁ = db.history l ∧
        db.flush_step.1.Durable (d.apply_all db.flush_step.2) l₁ replayed logged ∧
        db.flush_step.1.versions.last_sequence = db.versions.last_sequence := by
      rcases hcases with hstep | hstep
      · rw [hstep]
        obtain ⟨hholds, hhistory⟩ := h.bg_step hfresh hlast
        exact ⟨_, hholds, hhistory, hdurable.bg_step h.bg, h.bg.last_sequence_bg_step⟩
      · rw [hstep]
        exact ⟨l, h, rfl, hdurable, rfl⟩
    have hfresh₁ : db.flush_step.1.DrawsFreshTable := by
      intro hdraws
      unfold drawsTable at hdraws
      cases hcase : db.flush_step.1.bg <;> simp only [hcase, Bool.false_eq_true] at hdraws
      · exact absurd hcase hnotflush
      · exact absurd hcase hnotcompact
    obtain ⟨l₂, h₂, hhistory₂, hdurable₂, hlast₂⟩ :=
      ih h₁ hdurable₁ hfresh₁ hnotcompact (hlast₁ ▸ hlast)
    have hops : d.apply_all (run_flush (fuel + 1) db).2 =
        (d.apply_all db.flush_step.2).apply_all (run_flush fuel db.flush_step.1).2 :=
      Disk.apply_all_append _ _ _
    refine ⟨l₂, ?_, hhistory₂.trans hhistory₁, ?_, hlast₂.trans hlast₁⟩
    · rw [hops]
      exact h₂
    · rw [hops]
      exact hdurable₂

/-- Five steps take a flush to its end. -/
theorem run_flush_imm (hbg : db.bg = .flush_start) : (run_flush 5 db).1.imm = none := by
  cases himm : db.imm with
  | none => simp [run_flush, flush_step, hbg, himm]
  | some imm =>
    by_cases hinstall : 0 < (SSTableBuilder.build db.options imm.table db.versions.next_file_number).file_size ∧
        (SSTableBuilder.build db.options imm.table db.versions.next_file_number).smallest ≠ []
    · simp [run_flush, flush_step, hbg, himm, hinstall]
    · simp [run_flush, flush_step, hbg, himm, hinstall]

/-- With no write that only a replay put into the memtable, the tables and the log
    have all writes but those of an immutable memtable, once the log is flushed. -/
theorem Durable.recoverable (hdurable : db.Durable d l [] logged) (h : db.Holds d l) :
    ∃ edits, Recoverable (d.apply_all db.wal.flush) db.versions.manifest_file_number edits
        l.older l.pieces logged ∧
      ManifestMatches db l (replayManifest db.versions.manifest_file_number edits) := by
  obtain ⟨edits, hedits, hmatch⟩ := hdurable.manifest
  obtain ⟨log, hlog, htorn, hwrites⟩ := hdurable.log
  have hlevels : LevelsHold d (replayManifest db.versions.manifest_file_number edits).current l.older l.pieces := by
    have hperm := h.levels.perm hmatch.files1.symm
    rw [← hmatch.files0] at hperm
    exact hperm
  have hsublist : (l.tables ++ logged).Sublist (db.history l) := by
    rw [DBImpl.history, hdurable.mem]
    exact (List.sublist_append_left _ _).append_right _
  refine ⟨edits, ⟨?_, ?_, hlevels.congr fun n _ => ?_, ?_, hmatch.next_pos, ?_, h.sequenced.sublist hsublist,
    hmatch.bound⟩, hmatch⟩
  · rw [Disk.apply_flush_current]
    exact hdurable.current
  · rw [Disk.apply_flush_manifests]
    exact hedits
  · rw [Disk.apply_flush_tables]
  · rw [hmatch.log_number, hdurable.log_number]
    exact hdurable.log_pos
  · rw [hmatch.log_number, hdurable.log_number, Disk.apply_flush_log d db.wal hlog]
    exact ⟨htorn, hwrites⟩

theorem Durable.history_of_imm_none (hdurable : db.Durable d l [] logged) (h : db.Holds d l)
    (himm : db.imm = none) : db.history l = l.older ++ l.pieces.flatten ++ logged := by
  rw [DBImpl.history, h.imm_none himm, hdurable.mem]
  simp [Layout.tables]

end lsmkv.DBImpl
