import LsmKv.Db.Read

namespace lsmkv

open List Option

section Disk

variable (d : Disk)

@[simp] theorem Disk.apply_append_manifest_tables (n : Nat) (edit : VersionEdit) :
    (d.apply (.append_manifest n edit)).tables = d.tables := rfl

@[simp] theorem Disk.apply_open_log_tables (n : Nat) : (d.apply (.open_log n)).tables = d.tables := rfl

@[simp] theorem Disk.apply_append_log_tables (n : Nat) (records : List LogRecord) :
    (d.apply (.append_log n records)).tables = d.tables := rfl

@[simp] theorem Disk.apply_flush_tables (w : WalWriter) : (d.apply_all w.flush).tables = d.tables := by
  unfold WalWriter.flush
  split <;> rfl

/-- A table that is created and finished replaces one file and leaves the others. -/
theorem Disk.apply_build_tables (n m : Nat) (entries : List (InternalKey × Bytes)) :
    (d.apply_all [.create_table n, .finish_table n entries]).tables m =
      if m = n then some (.finished entries) else d.tables m := by
  by_cases hm : m = n <;> simp [Disk.apply, Function.update, hm]

theorem Disk.apply_remove_tables (inputs : List (Fin kNumLevels × Nat)) (m : Nat) :
    (d.apply_all (inputs.map fun input => .remove_table input.2)).tables m =
      if m ∈ inputs.map Prod.snd then none else d.tables m := by
  induction inputs generalizing d with
  | nil => simp
  | cons input inputs ih =>
    rw [map_cons, Disk.apply_all_cons, ih]
    by_cases hm : m = input.2
    · by_cases hin : m ∈ inputs.map Prod.snd <;> simp [Disk.apply, hm]
    · by_cases hin : m ∈ inputs.map Prod.snd <;> simp [Disk.apply, Function.update, hm, hin]

end Disk

theorem Disk.entries_eq {d d' : Disk} (h : d'.tables = d.tables) : d'.entries = d.entries :=
  funext fun _ => Disk.entries_congr (congrFun h _)

theorem mergedEntries_congr {d d' : Disk} {v : Version}
    (h : ∀ n ∈ v.live, d'.tables n = d.tables n) : mergedEntries d' v = mergedEntries d v := by
  have h0 : v.files0.map d'.entries = v.files0.map d.entries :=
    map_congr_left fun f hf => Disk.entries_congr (h _ (mem_live_of_mem_files0 hf))
  have h1 : (level1_inputs v).map d'.entries = (level1_inputs v).map d.entries :=
    map_congr_left fun f hf =>
      Disk.entries_congr (h _ (mem_live_of_mem_files1 (mem_level1_inputs.mp hf).1))
  rw [mergedEntries, mergedEntries, h0, h1]

namespace DBImpl

variable {db db' : DBImpl} {d d' : Disk} {l l' : Layout}

theorem BgHolds.imm_of_flushing (h : db.BgHolds d l) (hflushing : db.flushing = true) :
    ∃ imm, db.imm = some imm := by
  unfold BgHolds at h
  unfold flushing at hflushing
  cases hcase : db.bg <;> simp only [hcase, Bool.false_eq_true] at h hflushing
  · exact ⟨_, h.1⟩
  · exact ⟨_, h.choose_spec.imm_eq⟩
  · obtain ⟨_, _, imm, htable, -⟩ := h
    exact ⟨imm, htable.imm_eq⟩
  · obtain ⟨imm, himm, -⟩ := h
    exact ⟨imm, himm⟩

/-- A step that leaves the tables and the version alone, and the immutable memtable
    while it is being flushed, keeps what the background thread has prepared. -/
theorem BgHolds.congr (h : db.BgHolds d l) (hbg : db'.bg = db.bg)
    (himm : db.flushing = true → db'.imm = db.imm ∧ l'.imm = l.imm)
    (hoptions : db'.options = db.options) (hcurrent : db'.versions.current = db.versions.current)
    (hlast : db.versions.last_sequence ≤ db'.versions.last_sequence) (htables : d'.tables = d.tables)
    (holder : l'.older = l.older) (hpieces : l'.pieces = l.pieces) : db'.BgHolds d' l' := by
  have hltables : l'.tables = l.tables := by rw [Layout.tables, Layout.tables, holder, hpieces]
  have hmerged : mergedEntries d' db'.versions.current = mergedEntries d db.versions.current := by
    rw [hcurrent]
    exact mergedEntries_congr fun n _ => congrFun htables n
  have himmTable : ∀ f imm, db'.imm = db.imm → ImmTable db d f imm → ImmTable db' d' f imm := by
    rintro f imm heq ⟨h1, h2, h3, h4, h5⟩
    exact ⟨heq.trans h1, h2, hoptions ▸ h3, htables ▸ h4, hcurrent ▸ h5⟩
  have hmergeTable : ∀ result n, MergeTable db d result n → MergeTable db' d' result n := by
    rintro result n ⟨h1, h2, h3, h4⟩
    refine ⟨hcurrent ▸ h1, ?_, ?_, hcurrent ▸ h4⟩
    · rw [hoptions, hmerged]; exact h2
    · rw [htables, hmerged]; exact h3
  unfold BgHolds at h ⊢
  unfold flushing at himm
  rw [hbg]
  cases hcase : db.bg <;> simp only [hcase, forall_const] at h himm ⊢
  case flush_build imm n =>
    rw [himm.1, hcurrent]
    exact h
  case flush_built f =>
    obtain ⟨imm, htable⟩ := h
    exact ⟨imm, himmTable f imm himm.1 htable⟩
  case flush_edit edit =>
    obtain ⟨f, seq, imm, htable, hedit, hseq, hw⟩ := h
    exact ⟨f, seq, imm, himmTable f imm himm.1 htable, hedit, hseq.trans hlast,
      by rw [hltables, himm.2]; exact hw⟩
  case flush_clear =>
    unfold FlushedCopy at h ⊢
    rw [himm.1, hpieces, himm.2, hcurrent, Disk.entries_eq htables]
    exact h
  case compact_merge current n =>
    rw [hcurrent]
    exact h
  case compact_built result =>
    obtain ⟨n, htable⟩ := h
    exact ⟨n, hmergeTable result n htable⟩
  case compact_edit result edit =>
    obtain ⟨n, seq, htable, hedit, hseq, hw⟩ := h
    exact ⟨n, seq, hmergeTable result n htable, hedit, hseq.trans hlast, by rw [hltables]; exact hw⟩

theorem flushing_of_flushed (h : db.flushed = true) : db.flushing = true := by
  rw [flushing, flushed_eq_true.mp h]

theorem Holds.not_flushing (h : db.Holds d l) (himm : db.imm = none) : db.flushing = false := by
  rw [Bool.eq_false_iff]
  intro hflushing
  obtain ⟨imm, hsome⟩ := h.bg.imm_of_flushing hflushing
  rw [himm] at hsome
  cases hsome

@[simp] theorem rotate_last_sequence : db.rotate.1.versions.last_sequence = db.versions.last_sequence := by
  simp [DBImpl.rotate, VersionSet.log_and_apply, VersionSet.take_file_number]

/-- Rotation moves the memtable's run to the immutable memtable. -/
theorem Holds.rotate (h : db.Holds d l) (himm : db.imm = none) :
    db.rotate.1.Holds (d.apply_all db.rotate.2) l.rotate ∧
      db.rotate.1.history l.rotate = db.history l := by
  have hflushing := h.not_flushing himm
  have hflushed : db.flushed = false := by
    rw [Bool.eq_false_iff]
    intro hflushed
    rw [flushing_of_flushed hflushed] at hflushing
    cases hflushing
  have hflushed' : db.rotate.1.flushed = false := hflushed
  have htables : (d.apply_all db.rotate.2).tables = d.tables := by
    simp [DBImpl.rotate, VersionSet.log_and_apply, Disk.apply_all_append]
  have hhistory : db.rotate.1.history l.rotate = db.history l := by
    rw [DBImpl.history, DBImpl.history, hflushed, hflushed', h.imm_none himm]
    simp [Layout.tables, Layout.rotate]
  refine ⟨⟨?_, ?_, ?_, Represents.nil, ?_, ?_, ?_, h.no_error⟩, hhistory⟩
  · exact h.levels.congr fun n _ => congrFun htables n
  · intro hnone
    cases hnone
  · intro imm hsome
    cases hsome
    exact h.mem
  · rw [hhistory]
    exact h.sequenced
  · rw [hhistory]
    intro w hw
    exact (h.bound w hw).trans (le_max_left _ _)
  · refine h.bg.congr rfl ?_ rfl rfl (le_max_left _ _) htables rfl rfl
    rw [hflushing]
    intro hfalse
    cases hfalse

/-- Recording a write appends it to the memtable's run under the next sequence number. -/
theorem Holds.add_record (h : db.Holds d l) (options : WriteOptions) (type : ValueType) (key value : Bytes) :
    let w : Write := ⟨db.versions.last_sequence + 1, type, key, value⟩
    (db.add_record options type key value).1.Holds (d.apply_all (db.add_record options type key value).2)
        (l.add w) ∧
      (db.add_record options type key value).1.history (l.add w) =
        db.history l ++ [w] := by
  intro w
  have htables : (d.apply_all (db.add_record options type key value).2).tables = d.tables := by
    unfold DBImpl.add_record
    dsimp only
    split <;> simp
  have hhistory : (db.add_record options type key value).1.history (l.add w) =
      db.history l ++ [w] := by
    exact (append_assoc _ _ _).symm
  refine ⟨⟨?_, h.imm_none, h.imm_some, ?_, ?_, ?_, ?_, h.no_error⟩, hhistory⟩
  · exact h.levels.congr fun n _ => congrFun htables n
  · exact h.mem.add w
  · rw [hhistory]
    refine pairwise_append.mpr ⟨h.sequenced, pairwise_singleton _ _, ?_⟩
    intro x hx y hy
    rw [mem_singleton.mp hy]
    exact Nat.lt_succ_of_le (h.bound x hx)
  · rw [hhistory]
    intro x hx
    rcases mem_append.mp hx with hx | hx
    · exact (h.bound x hx).trans (Nat.le_succ _)
    · rw [mem_singleton.mp hx]
      exact le_rfl
  · exact h.bg.congr rfl (fun _ => ⟨rfl, rfl⟩) rfl rfl (Nat.le_succ _) htables rfl rfl

variable {options : WriteOptions} {type : ValueType} {key value : Bytes} {result : Except Status Unit}
  {ops : List FileOp}

/-- Everything a write can do: it goes straight to the memtable, or to a new one
    after a rotation. -/
theorem write_cases
    (hwrite : db.write options type key value = some ((db', result), ops)) (hok : db.bg_error = none) :
    result = .ok () ∧
      ((db.mem.memory_usage < db.options.write_buffer_size ∧
          db' = (db.add_record options type key value).1 ∧ ops = (db.add_record options type key value).2) ∨
        (db.options.write_buffer_size ≤ db.mem.memory_usage ∧ db.imm = none ∧
          db' = (db.rotate.1.add_record options type key value).1 ∧
          ops = db.rotate.2 ++ (db.rotate.1.add_record options type key value).2)) := by
  unfold write make_room_for_write at hwrite
  rw [hok] at hwrite
  dsimp only at hwrite
  by_cases hroom : db.mem.memory_usage < db.options.write_buffer_size
  · rw [if_pos hroom] at hwrite
    simp only [map_some, nil_append, Option.some.injEq, Prod.mk.injEq] at hwrite
    obtain ⟨⟨hdb, hres⟩, hops⟩ := hwrite
    exact ⟨hres.symm, .inl ⟨hroom, hdb.symm, hops.symm⟩⟩
  · rw [if_neg hroom] at hwrite
    cases himm : db.imm with
    | some imm => simp [himm] at hwrite
    | none =>
      simp only [himm, isSome_none, Bool.false_eq_true, if_false, map_some,
        Option.some.injEq, Prod.mk.injEq] at hwrite
      obtain ⟨⟨hdb, hres⟩, hops⟩ := hwrite
      exact ⟨hres.symm, .inr ⟨not_lt.mp hroom, rfl, hdb.symm, hops.symm⟩⟩

theorem last_sequence_le_write (hwrite : db.write options type key value = some ((db', result), ops)) :
    db.versions.last_sequence ≤ db'.versions.last_sequence := by
  cases hok : db.bg_error with
  | some status =>
    simp only [DBImpl.write, hok, Option.some.injEq, Prod.mk.injEq] at hwrite
    rw [hwrite.1.1]
  | none =>
    obtain ⟨-, ⟨-, rfl, -⟩ | ⟨-, -, rfl, -⟩⟩ := write_cases hwrite hok
    · exact Nat.le_succ _
    · show db.versions.last_sequence ≤ db.rotate.1.versions.last_sequence + 1
      rw [rotate_last_sequence]
      exact Nat.le_succ _

theorem last_sequence_le_bg_step :
    db.versions.last_sequence ≤ (db.bg_step d).1.versions.last_sequence := by
  unfold DBImpl.bg_step DBImpl.flush_step DBImpl.compact_step
  cases hcase : db.bg <;> simp only
  case idle => split <;> [skip; split <;> [skip; split]] <;> exact le_rfl
  case flush_start => cases db.imm <;> exact le_rfl
  case flush_edit | compact_edit => exact le_max_left _ _
  case compact_start => split <;> exact le_rfl
  case compact_merge current n => cases compact_level0 db.options d db.dbname current n <;> exact le_rfl
  all_goals exact le_rfl

/-- What no step of the background thread changes, and the counter it may move. -/
theorem bg_step_frame : (db.bg_step d).1.wal = db.wal ∧ (db.bg_step d).1.logfile_number = db.logfile_number ∧
    (db.bg_step d).1.dbname = db.dbname ∧
    (db.bg_step d).1.versions.manifest_file_number = db.versions.manifest_file_number ∧
    db.versions.next_file_number ≤ (db.bg_step d).1.versions.next_file_number := by
  have hstep : db.versions.next_file_number ≤ db.versions.next_file_number + 1 := Nat.le_succ _
  unfold DBImpl.bg_step DBImpl.flush_step DBImpl.compact_step
  cases hcase : db.bg
  case idle => dsimp only; split <;> [skip; split <;> [skip; split]] <;> exact ⟨rfl, rfl, rfl, rfl, le_rfl⟩
  case flush_start => dsimp only; cases db.imm <;> exact ⟨rfl, rfl, rfl, rfl, by first | exact le_rfl | exact hstep⟩
  case flush_edit edit => exact ⟨rfl, rfl, rfl, rfl, le_max_left _ _⟩
  case compact_start => dsimp only; split <;> exact ⟨rfl, rfl, rfl, rfl, by first | exact le_rfl | exact hstep⟩
  case compact_merge current n =>
    dsimp only
    cases compact_level0 db.options d db.dbname current n <;> exact ⟨rfl, rfl, rfl, rfl, le_rfl⟩
  case compact_edit result edit => exact ⟨rfl, rfl, rfl, rfl, le_max_left _ _⟩
  all_goals exact ⟨rfl, rfl, rfl, rfl, le_rfl⟩

/-- A write is acknowledged and extends the history by exactly itself. -/
theorem Holds.write (h : db.Holds d l) (hwrite : db.write options type key value = some ((db', result), ops)) :
    result = .ok () ∧ ∃ l', db'.Holds (d.apply_all ops) l' ∧
      db'.history l' = db.history l ++ [⟨db.versions.last_sequence + 1, type, key, value⟩] := by
  obtain ⟨hresult, ⟨-, rfl, rfl⟩ | ⟨-, himm, rfl, rfl⟩⟩ := write_cases hwrite h.no_error
  · exact ⟨hresult, _, h.add_record options type key value⟩
  · obtain ⟨hrotate, hhistory⟩ := h.rotate himm
    obtain ⟨hadd, hhistory'⟩ := hrotate.add_record options type key value
    rw [rotate_last_sequence, hhistory] at hhistory'
    rw [← Disk.apply_all_append, rotate_last_sequence] at hadd
    exact ⟨hresult, _, hadd, hhistory'⟩

end DBImpl

end lsmkv
