import LsmKv.Db.Steps

namespace lsmkv.DBImpl

open List DBImpl

variable {db db' : DBImpl} {d d' : Disk} {l l' : Layout}

/-- The layers after a step of the background thread that keeps the memtables, the
    history and the tables of the levels. -/
theorem Holds.of_same_layers (h : db.Holds d l) (hlevels : LevelsHold d' db'.versions.current l.older l.pieces)
    (himm : db'.imm = db.imm) (hmem : db'.mem = db.mem)
    (hlast : db'.versions.last_sequence = db.versions.last_sequence) (herror : db'.bg_error = db.bg_error)
    (hhistory : db'.history l = db.history l) (hbg : db'.BgHolds d' l) : db'.Holds d' l := by
  refine ⟨hlevels, himm ▸ h.imm_none, himm ▸ h.imm_some, hmem ▸ h.mem, ?_, ?_, hbg, herror ▸ h.no_error⟩
  · rw [hhistory]
    exact h.sequenced
  · rw [hhistory, hlast]
    exact h.bound

theorem history_eq_of_flushed (hflushed : db'.flushed = db.flushed) : db'.history l = db.history l := by
  rw [history, history, hflushed]

/-- A step that only moves the background thread on. -/
theorem Holds.set_bg (h : db.Holds d l) (hlevels : db'.versions.current = db.versions.current)
    (himm : db'.imm = db.imm) (hmem : db'.mem = db.mem)
    (hlast : db'.versions.last_sequence = db.versions.last_sequence) (herror : db'.bg_error = db.bg_error)
    (hflushed : db'.flushed = db.flushed) (hbg : db'.BgHolds d l) : db'.Holds d l :=
  h.of_same_layers (hlevels ▸ h.levels) himm hmem hlast herror (history_eq_of_flushed hflushed) hbg

/-- What a background step makes of the layout: an installed flush is a new piece of
    level 0, an installed merge turns both levels into level 1. -/
def bg_layout (db : DBImpl) (l : Layout) : Layout :=
  match db.bg with
  | .flush_edit _ => { l with pieces := l.pieces ++ [l.imm] }
  | .flush_clear => { l with imm := [] }
  | .compact_edit .. => { l with older := l.tables, pieces := [] }
  | _ => l

/-- The outcome of a step holds a layout of the same history. -/
def StepHolds (db : DBImpl) (d : Disk) (l : Layout) (step : DBImpl × List FileOp) (l' : Layout) : Prop :=
  step.1.Holds (d.apply_all step.2) l' ∧ step.1.history l' = db.history l

theorem StepHolds.of_set_bg (h : db.Holds d l) (hlevels : db'.versions.current = db.versions.current)
    (himm : db'.imm = db.imm) (hmem : db'.mem = db.mem)
    (hlast : db'.versions.last_sequence = db.versions.last_sequence) (herror : db'.bg_error = db.bg_error)
    (hflushed : db'.flushed = db.flushed) (hbg : db'.BgHolds d l) : db.StepHolds d l (db', []) l :=
  ⟨h.set_bg hlevels himm hmem hlast herror hflushed hbg, history_eq_of_flushed hflushed⟩

theorem StepHolds.of_history {step : DBImpl × List FileOp} (hhistory : step.1.history l' = db.history l)
    (hholds : step.1.history l' = db.history l → step.1.Holds (d.apply_all step.2) l') :
    db.StepHolds d l step l' :=
  ⟨hholds hhistory, hhistory⟩

section

variable (h : db.Holds d l)

include h

theorem Holds.flush_start (hcase : db.bg = .flush_start)
    (hfresh : db.versions.next_file_number ∉ db.versions.current.live) :
    db.StepHolds d l db.flush_step l := by
  have hflushed : db.flushed = false := by rw [flushed, hcase]
  unfold flush_step
  rw [hcase]
  cases himm : db.imm with
  | none => exact .of_set_bg h rfl himm.symm rfl rfl rfl hflushed.symm trivial
  | some imm => exact .of_set_bg h rfl himm.symm rfl rfl rfl hflushed.symm ⟨rfl, hfresh⟩

/-- The table is built beside the live ones. One without entries is not installed. -/
theorem Holds.flush_build {imm : MemTable} {n : Nat} (hcase : db.bg = .flush_build imm n) :
    db.StepHolds d l db.flush_step l := by
  have hflushed : db.flushed = false := by rw [flushed, hcase]
  have hbg := h.bg
  simp only [BgHolds, hcase] at hbg
  obtain ⟨himm, hfresh⟩ := hbg
  set f := SSTableBuilder.build db.options imm.table n with hf
  have hstep : db.flush_step = ({ db with
      bg := if 0 < f.file_size ∧ f.smallest ≠ [] then .flush_built f else .flush_clear },
      [.create_table n, .finish_table n imm.table]) := by
    unfold flush_step
    rw [hcase]
  have hsame : ∀ m ∈ db.versions.current.live,
      (d.apply_all [.create_table n, .finish_table n imm.table]).tables m = d.tables m := by
    intro m hm
    rw [Disk.apply_build_tables, if_neg]
    rintro rfl
    exact hfresh hm
  have hlevels := h.levels.congr hsame
  rw [hstep]
  by_cases hempty : imm.table = []
  · have hnot : ¬ (0 < f.file_size ∧ f.smallest ≠ []) := by
      rw [hf, build_installable]
      exact not_not.mpr hempty
    have hnil : l.imm = [] := (hempty ▸ h.imm_some imm himm).eq_nil
    have hhistory : DBImpl.history { db with bg := .flush_clear } l = db.history l := by
      rw [DBImpl.history, DBImpl.history, hnil]
      simp
    rw [if_neg hnot]
    exact ⟨h.of_same_layers hlevels rfl rfl rfl rfl hhistory ⟨imm, himm, .inl hempty⟩, hhistory⟩
  · have hinstall : 0 < f.file_size ∧ f.smallest ≠ [] := by
      rw [hf, build_installable]
      exact hempty
    rw [if_pos hinstall]
    refine ⟨h.of_same_layers hlevels rfl rfl rfl rfl (history_eq_of_flushed hflushed.symm) ⟨imm, ?_⟩,
      history_eq_of_flushed hflushed.symm⟩
    refine ⟨himm, hempty, rfl, ?_, hfresh⟩
    exact (Disk.apply_build_tables d n n imm.table).trans (if_pos rfl)

theorem Holds.flush_built {f : FileMetaData} (hcase : db.bg = .flush_built f) :
    db.StepHolds d l db.flush_step l := by
  have hflushed : db.flushed = false := by rw [flushed, hcase]
  have hbg := h.bg
  simp only [BgHolds, hcase] at hbg
  obtain ⟨imm, htable⟩ := hbg
  unfold flush_step
  rw [hcase]
  refine .of_set_bg h rfl rfl rfl rfl rfl hflushed.symm
    ⟨f, db.versions.last_sequence, imm, ⟨htable.1, htable.2, htable.3, htable.4, htable.5⟩, rfl, le_rfl, ?_⟩
  intro w hw
  refine h.bound w ?_
  rw [DBImpl.history, hflushed, if_neg (by simp)]
  exact mem_append_left _ hw

/-- Installing the table makes the immutable memtable's run the newest piece of level 0. -/
theorem Holds.flush_edit {edit : VersionEdit} (hcase : db.bg = .flush_edit edit) :
    db.StepHolds d l db.flush_step { l with pieces := l.pieces ++ [l.imm] } := by
  have hflushed : db.flushed = false := by rw [flushed, hcase]
  have hbg := h.bg
  simp only [BgHolds, hcase] at hbg
  obtain ⟨f, seq, imm, htable, rfl, -, -⟩ := hbg
  have hfile : TableHolds d f := by
    rw [htable.file_eq]
    exact tableHolds_build imm.ordered htable.ne_nil htable.finished
  have hentries : d.entries f = imm.table := by
    rw [Disk.entries, htable.finished]
  have hlevels := h.levels.push hfile (hentries ▸ h.imm_some imm htable.imm_eq) htable.fresh
  have htables : Layout.tables { l with pieces := l.pieces ++ [l.imm] } = l.tables ++ l.imm := by
    simp [Layout.tables]
  unfold flush_step
  rw [hcase]
  refine StepHolds.of_history ?_ ?_
  · rw [DBImpl.history, DBImpl.history, htables, hflushed]
    simp [flushed]
  · intro hhistory
    refine ⟨hlevels.congr fun _ _ => rfl, h.imm_none, h.imm_some, h.mem, ?_, ?_, ?_, h.no_error⟩
    · rw [hhistory]
      exact h.sequenced
    · rw [hhistory]
      intro w hw
      exact (h.bound w hw).trans (le_max_left _ _)
    · exact ⟨imm, htable.imm_eq, .inr ⟨l.pieces, db.versions.current.files0, f, rfl, rfl, hentries⟩⟩

theorem Holds.flush_clear (hcase : db.bg = .flush_clear) :
    db.StepHolds d l db.flush_step { l with imm := [] } := by
  have hflushed : db.flushed = true := flushed_eq_true.mpr hcase
  unfold flush_step
  rw [hcase]
  refine StepHolds.of_history ?_ ?_
  · rw [DBImpl.history, DBImpl.history, hflushed]
    simp [flushed, Layout.tables]
  · intro hhistory
    refine ⟨h.levels, fun _ => rfl, fun imm himm => (by cases himm), h.mem, ?_, ?_, trivial, h.no_error⟩
    · rw [hhistory]
      exact h.sequenced
    · rw [hhistory]
      exact h.bound

theorem Holds.flush_done (hcase : db.bg = .flush_done) :
    db.StepHolds d l db.flush_step l := by
  have hflushed : db.flushed = false := by rw [flushed, hcase]
  unfold flush_step
  rw [hcase]
  exact .of_set_bg h rfl rfl rfl rfl rfl hflushed.symm trivial

theorem Holds.idle (hcase : db.bg = .idle) : db.StepHolds d l (db.bg_step d) l := by
  have hflushed : db.flushed = false := by rw [flushed, hcase]
  have hsame : ∀ db' : DBImpl, db'.versions = db.versions → db'.imm = db.imm → db'.mem = db.mem →
      db'.bg_error = db.bg_error → (db'.bg = .idle ∨ db'.bg = .flush_start ∨ db'.bg = .compact_start) →
      db.StepHolds d l (db', []) l := by
    rintro db' hversions himm hmem herror hbg
    have hflushed' : db'.flushed = false := by rcases hbg with hbg | hbg | hbg <;> rw [flushed, hbg]
    have hprepared : db'.BgHolds d l := by rcases hbg with hbg | hbg | hbg <;> simp only [BgHolds, hbg]
    exact .of_set_bg h (by rw [hversions]) himm hmem (by rw [hversions]) herror
      (hflushed'.trans hflushed.symm) hprepared
  unfold bg_step
  rw [hcase]
  dsimp only
  split
  · exact hsame db rfl rfl rfl rfl (.inl hcase)
  split
  · exact hsame _ rfl rfl rfl rfl (.inr (.inl rfl))
  split
  · exact hsame _ rfl rfl rfl rfl (.inr (.inr rfl))
  · exact hsame _ rfl rfl rfl rfl (.inl rfl)

end

section Compaction

theorem Holds.compact_start (h : db.Holds d l) (hcase : db.bg = .compact_start)
    (hfresh : db.versions.next_file_number ∉ db.versions.current.live) :
    db.StepHolds d l (db.compact_step d) l := by
  have hflushed : db.flushed = false := by rw [flushed, hcase]
  unfold compact_step
  rw [hcase]
  dsimp only
  split
  · exact .of_set_bg h rfl rfl rfl rfl rfl hflushed.symm trivial
  · exact .of_set_bg h rfl rfl rfl rfl rfl hflushed.symm ⟨rfl, hfresh⟩

variable {n : Nat} {result : CompactionResult}

/-- The merge reads the live tables and builds its output beside them. -/
theorem Holds.compact_merge (h : db.Holds d l) {current : Version}
    (hcase : db.bg = .compact_merge current n) : db.StepHolds d l (db.compact_step d) l := by
  have hflushed : db.flushed = false := by rw [flushed, hcase]
  have hbg := h.bg
  simp only [BgHolds, hcase] at hbg
  obtain ⟨rfl, hfresh⟩ := hbg
  unfold compact_step
  rw [hcase]
  dsimp only
  rw [h.levels.tablesHold.compact_level0_eq]
  set merged := mergedEntries d db.versions.current
  have hsame : ∀ m ∈ db.versions.current.live,
      (d.apply_all [.create_table n, .finish_table n merged]).tables m = d.tables m := by
    intro m hm
    rw [Disk.apply_build_tables, if_neg]
    rintro rfl
    exact hfresh hm
  refine ⟨h.of_same_layers (h.levels.congr hsame) rfl rfl rfl rfl (history_eq_of_flushed hflushed.symm) ⟨n, ?_⟩,
    history_eq_of_flushed hflushed.symm⟩
  have hmerged := mergedEntries_congr hsame
  refine ⟨rfl, ?_, ?_, hfresh⟩
  · rw [hmerged]
  · rw [hmerged]
    exact (Disk.apply_build_tables d n n merged).trans (if_pos rfl)

theorem Holds.compact_built (h : db.Holds d l)
    (hcase : db.bg = .compact_built result) : db.StepHolds d l (db.compact_step d) l := by
  have hflushed : db.flushed = false := by rw [flushed, hcase]
  have hbg := h.bg
  simp only [BgHolds, hcase] at hbg
  obtain ⟨n, htable⟩ := hbg
  unfold compact_step
  rw [hcase]
  refine .of_set_bg h rfl rfl rfl rfl rfl hflushed.symm
    ⟨n, db.versions.last_sequence, ⟨htable.1, htable.2, htable.3, htable.4⟩, rfl, le_rfl, ?_⟩
  exact fun w hw => h.bound w (history_tables_sublist.subset hw)

/-- The version that a merge installs, up to the order of level 1. -/
theorem MergeTable.install (htable : MergeTable db d result n)
    (edit : VersionEdit) (hnodup : db.versions.current.live.Nodup) (hdeleted : edit.deleted_files = result.inputs)
    (hadded : edit.added_files = if 0 < result.output.file_size ∧ result.output.smallest ≠ [] then
      [(1, result.output)] else []) :
    ∃ files, (db.versions.log_and_apply edit).1.current = { files0 := [], files1 := files } ∧
      (compactedFiles db.options d db.versions.current n).Perm files ∧
      (mergedEntries d db.versions.current ≠ [] → files.Pairwise Version.smallest_le) := by
  have hdelete := delete_inputs hnodup
  rw [← htable.inputs_eq] at hdelete
  have hcurrent : (db.versions.log_and_apply edit).1.current =
      edit.added_files.foldl Version.add_file { files0 := [], files1 := level1_rest db.versions.current } := by
    rw [← hdelete, ← hdeleted]
    rfl
  rw [hcurrent, hadded, htable.output_eq, compactedFiles]
  by_cases hempty : mergedEntries d db.versions.current = []
  · rw [if_neg (by rw [build_installable]; exact not_not.mpr hempty), if_pos hempty, append_nil]
    exact ⟨_, rfl, List.Perm.refl _, fun hne => absurd hempty hne⟩
  · rw [if_pos (build_installable.mpr hempty), if_neg hempty]
    exact ⟨_, rfl, (perm_insertionSort _ _).symm, fun _ => pairwise_insertionSort _ _⟩

theorem MergeTable.mem_inputs {m : Nat} (htable : MergeTable db d result n) : m ∈ result.inputs.map Prod.snd ↔
      ∃ f ∈ db.versions.current.files0 ++ level1_inputs db.versions.current, f.number = m := by
  have hnumbers : result.inputs.map Prod.snd =
      (db.versions.current.files0 ++ level1_inputs db.versions.current).map FileMetaData.number := by
    rw [htable.inputs_eq]
    simp [Function.comp_def]
  rw [hnumbers, mem_map]

/-- Removing the inputs of a merge removes neither its output nor a file it left alone. -/
theorem MergeTable.not_mem_inputs (htable : MergeTable db d result n) (hnodup : db.versions.current.live.Nodup) :
    n ∉ result.inputs.map Prod.snd ∧
      ∀ f ∈ level1_rest db.versions.current, f.number ∉ result.inputs.map Prod.snd := by
  have hinput : ∀ f ∈ db.versions.current.files0 ++ level1_inputs db.versions.current,
      f ∈ db.versions.current.files0 ++ db.versions.current.files1 := by
    intro f hf
    rcases mem_append.mp hf with hf | hf
    · exact mem_append_left _ hf
    · exact mem_append_right _ (mem_level1_inputs.mp hf).1
  refine ⟨?_, ?_⟩
  · intro hmem
    obtain ⟨f, hf, rfl⟩ := htable.mem_inputs.mp hmem
    exact htable.fresh (mem_map_of_mem (hinput f hf))
  · intro g hg hmem
    obtain ⟨hg1, hbeside⟩ := mem_level1_rest.mp hg
    obtain ⟨f, hf, hnumber⟩ := htable.mem_inputs.mp hmem
    have hfg : f = g := inj_on_of_nodup_map hnodup (hinput f hf) (mem_append_right _ hg1) hnumber
    subst hfg
    rcases mem_append.mp hf with hf0 | hf1
    · -- the same number on both levels
      rw [Version.live, map_append] at hnodup
      have hdisjoint := (nodup_append.mp hnodup).2.2
      exact hdisjoint _ (mem_map_of_mem hf0) _ (mem_map_of_mem hg1) rfl
    · rw [(mem_level1_inputs.mp hf1).2] at hbeside
      cases hbeside

/-- Installing the merge replaces both levels by level 1. -/
theorem Holds.compact_edit (h : db.Holds d l) (hlast : db.versions.last_sequence < 2 ^ 56)
    {edit : VersionEdit} (hcase : db.bg = .compact_edit result edit) :
    db.StepHolds d l (db.compact_step d) { l with older := l.tables, pieces := [] } := by
  have hflushed : db.flushed = false := by rw [flushed, hcase]
  have hbg := h.bg
  simp only [BgHolds, hcase] at hbg
  obtain ⟨n, seq, htable, hedit, -, -⟩ := hbg
  obtain ⟨files, hcurrent, hperm, -⟩ := htable.install edit h.levels.nodup (by rw [hedit]) (by rw [hedit])
  obtain ⟨hout, hrest⟩ := htable.not_mem_inputs h.levels.nodup
  unfold compact_step
  rw [hcase]
  set d' := d.apply_all ((db.versions.log_and_apply edit).2 ++
    result.inputs.map fun input => .remove_table input.2) with hd'
  have htables : ∀ m, m ∉ result.inputs.map Prod.snd → d'.tables m = d.tables m := by
    intro m hm
    rw [hd', Disk.apply_all_append, Disk.apply_remove_tables, if_neg hm]
    rfl
  have hlevels : LevelsHold d' { files0 := [], files1 := compactedFiles db.options d db.versions.current n }
      l.tables [] :=
    h.levels.compacted (h.sequenced.sublist history_tables_sublist)
      (fun w hw => (h.bound w (history_tables_sublist.subset hw)).trans_lt hlast) db.options htable.fresh
      ((htables n hout).trans htable.finished) fun f hf => htables _ (hrest f hf)
  refine StepHolds.of_history ?_ ?_
  · rw [DBImpl.history, DBImpl.history, hflushed]
    simp [flushed, Layout.tables]
  · intro hhistory
    refine ⟨?_, h.imm_none, h.imm_some, h.mem, ?_, ?_, trivial, h.no_error⟩
    · show LevelsHold d' (db.versions.log_and_apply edit).1.current l.tables []
      rw [hcurrent]
      exact hlevels.perm hperm
    · rw [hhistory]
      exact h.sequenced
    · rw [hhistory]
      intro w hw
      exact (h.bound w hw).trans (le_max_left _ _)

end Compaction

/-- The step at hand may draw a table number. -/
def drawsTable (db : DBImpl) : Bool :=
  match db.bg with
  | .flush_start | .compact_start => true
  | _ => false

/-- A table number that the step at hand draws is that of no live table. -/
def DrawsFreshTable (db : DBImpl) : Prop :=
  db.drawsTable = true → db.versions.next_file_number ∉ db.versions.current.live

instance (db : DBImpl) : Decidable db.DrawsFreshTable := inferInstanceAs (Decidable (_ → _))

/-- Every step of the background thread keeps the layers and the history. -/
theorem Holds.bg_step (h : db.Holds d l) (hfresh : db.DrawsFreshTable)
    (hlast : db.versions.last_sequence < 2 ^ 56) :
    db.StepHolds d l (db.bg_step d) (db.bg_layout l) := by
  unfold bg_layout
  cases hcase : db.bg with
  | idle => exact h.idle hcase
  | flush_start =>
    rw [DBImpl.bg_step, hcase]
    exact h.flush_start hcase (hfresh (by rw [drawsTable, hcase]))
  | flush_build imm n =>
    rw [DBImpl.bg_step, hcase]
    exact h.flush_build hcase
  | flush_built f =>
    rw [DBImpl.bg_step, hcase]
    exact h.flush_built hcase
  | flush_edit edit =>
    rw [DBImpl.bg_step, hcase]
    exact h.flush_edit hcase
  | flush_clear =>
    rw [DBImpl.bg_step, hcase]
    exact h.flush_clear hcase
  | flush_done =>
    rw [DBImpl.bg_step, hcase]
    exact h.flush_done hcase
  | compact_start =>
    rw [DBImpl.bg_step, hcase]
    exact h.compact_start hcase (hfresh (by rw [drawsTable, hcase]))
  | compact_merge current n =>
    rw [DBImpl.bg_step, hcase]
    exact h.compact_merge hcase
  | compact_built result =>
    rw [DBImpl.bg_step, hcase]
    exact h.compact_built hcase
  | compact_edit result edit =>
    rw [DBImpl.bg_step, hcase]
    exact h.compact_edit hlast hcase

end lsmkv.DBImpl
