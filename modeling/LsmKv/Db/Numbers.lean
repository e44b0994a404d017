import LsmKv.Db.Background

namespace lsmkv

open List

/-- The table numbers that the background thread has drawn and not installed yet. -/
def BgState.reserved : BgState → List Nat
  | .flush_build _ n | .compact_merge _ n => [n]
  | .flush_built f => [f.number]
  | .compact_built result => [result.output.number]
  | .flush_edit edit | .compact_edit _ edit => edit.added_files.map fun a => a.2.number
  | _ => []

/-- Every number of a live or of a coming table is below the next one. -/
structure DBImpl.NumbersBelow (db : DBImpl) : Prop where
  live : ∀ n ∈ db.versions.current.live, n < db.versions.next_file_number
  reserved : ∀ n ∈ db.bg.reserved, n < db.versions.next_file_number

namespace VersionSet

variable {v : Version} {a : Fin kNumLevels × FileMetaData} {n : Nat}

theorem live_delete_file {x : Fin kNumLevels × Nat} : (v.delete_file x).live ⊆ v.live := by
  obtain ⟨level, number⟩ := x
  intro n hn
  obtain ⟨f, hf, rfl⟩ := mem_map.mp hn
  refine mem_map_of_mem ?_
  fin_cases level
  · rcases mem_append.mp hf with hf | hf
    · exact mem_append_left _ (mem_of_mem_filter hf)
    · exact mem_append_right _ hf
  · rcases mem_append.mp hf with hf | hf
    · exact mem_append_left _ hf
    · exact mem_append_right _ (mem_of_mem_filter hf)

theorem live_push_file (hn : n ∈ (v.push_file a).live) : n ∈ v.live ∨ n = a.2.number := by
  obtain ⟨level, file⟩ := a
  obtain ⟨f, hf, rfl⟩ := mem_map.mp hn
  have hcases : f ∈ v.files0 ++ v.files1 ∨ f = file := by
    fin_cases level
    · have hf' : f ∈ (v.files0 ++ [file]) ++ v.files1 := hf
      simp only [mem_append, mem_singleton] at hf' ⊢
      tauto
    · have hf' : f ∈ v.files0 ++ (v.files1 ++ [file]) := hf
      simp only [mem_append, mem_singleton] at hf' ⊢
      tauto
  rcases hcases with hf | rfl
  · exact .inl (mem_map_of_mem hf)
  · exact .inr rfl

@[simp] theorem mem_live_sort_level1 : n ∈ v.sort_level1.live ↔ n ∈ v.live := by
  have hperm : v.sort_level1.live.Perm v.live := ((perm_insertionSort _ _).append_left _).map _
  exact hperm.mem_iff

theorem live_add_file (hn : n ∈ (v.add_file a).live) : n ∈ v.live ∨ n = a.2.number := by
  unfold Version.add_file at hn
  split at hn
  · exact live_push_file (mem_live_sort_level1.mp hn)
  · exact live_push_file hn

/-- Deleting and adding files, one after the other, makes no table live that was not
    live and is not added. -/
theorem live_edit {add : Version → Fin kNumLevels × FileMetaData → Version}
    (hadd : ∀ v a n, n ∈ (add v a).live → n ∈ v.live ∨ n = a.2.number)
    {deleted : List (Fin kNumLevels × Nat)} {added : List (Fin kNumLevels × FileMetaData)}
    (hn : n ∈ (added.foldl add (deleted.foldl Version.delete_file v)).live) :
    n ∈ v.live ∨ ∃ a ∈ added, n = a.2.number := by
  have hdeletes : ∀ v : Version, (deleted.foldl Version.delete_file v).live ⊆ v.live := by
    clear hn
    induction deleted with
    | nil => exact fun v => List.Subset.refl _
    | cons x deleted ih => exact fun v => List.Subset.trans (ih _) live_delete_file
  have hadds : ∀ v : Version, n ∈ (added.foldl add v).live → n ∈ v.live ∨ ∃ a ∈ added, n = a.2.number := by
    clear hn
    induction added with
    | nil => exact fun v hn => .inl hn
    | cons a added ih =>
      intro v hn
      rcases ih _ hn with hn | ⟨b, hb, hn⟩
      · rcases hadd _ _ _ hn with hn | hn
        · exact .inl hn
        · exact .inr ⟨a, mem_cons_self, hn⟩
      · exact .inr ⟨b, mem_cons_of_mem _ hb, hn⟩
  rcases hadds _ hn with hn | hn
  · exact .inl (hdeletes _ hn)
  · exact .inr hn

/-- An edit makes no table live that was not live and that it does not add. -/
theorem live_log_and_apply {vs : VersionSet} {edit : VersionEdit} (hn : n ∈ (vs.log_and_apply edit).1.current.live) :
    n ∈ vs.current.live ∨ ∃ a ∈ edit.added_files, n = a.2.number :=
  live_edit (fun _ _ _ => live_add_file) hn

theorem live_recover_edit {vs : VersionSet} {edit : VersionEdit} (hn : n ∈ (vs.recover_edit edit).current.live) :
    n ∈ vs.current.live ∨ ∃ a ∈ edit.added_files, n = a.2.number :=
  live_edit (fun _ _ _ => live_push_file) hn

theorem next_file_number_le_log_and_apply (vs : VersionSet) (edit : VersionEdit) :
    vs.next_file_number ≤ (vs.log_and_apply edit).1.next_file_number := le_max_left _ _

end VersionSet

theorem compact_level0_number {options : Options} {d : Disk} {dbname : String} {v : Version} {n : Nat}
    {outcome : CompactionResult × List (InternalKey × Bytes)}
    (h : compact_level0 options d dbname v n = .ok outcome) : outcome.1.output.number = n := by
  unfold compact_level0 at h
  cases h0 : open_tables d dbname v.files0 with
  | error status =>
    rw [h0] at h
    cases h
  | ok tables0 =>
    cases h1 : open_tables d dbname (level1_inputs v) with
    | error status =>
      rw [h0, h1] at h
      cases h
    | ok tables1 =>
      rw [h0, h1] at h
      cases h
      rfl

namespace DBImpl

variable {db db' : DBImpl} {d : Disk}

section

variable (h : db.NumbersBelow)

include h

/-- Installing an edit whose added tables are numbered below the counter. -/
theorem NumbersBelow.log_and_apply {edit : VersionEdit}
    (hadded : ∀ n ∈ edit.added_files.map (fun a => a.2.number), n < db.versions.next_file_number) :
    ∀ n ∈ (db.versions.log_and_apply edit).1.current.live,
      n < (db.versions.log_and_apply edit).1.next_file_number := by
  intro n hn
  refine lt_of_lt_of_le ?_ (VersionSet.next_file_number_le_log_and_apply _ _)
  rcases VersionSet.live_log_and_apply hn with hn | ⟨a, ha, rfl⟩
  · exact h.live n hn
  · exact hadded _ (mem_map_of_mem ha)

/-- Moving the counter on while the version stays and no number is reserved anew. -/
theorem NumbersBelow.mono (hcurrent : db'.versions.current = db.versions.current)
    (hreserved : db'.bg.reserved ⊆ db.bg.reserved)
    (hnext : db.versions.next_file_number ≤ db'.versions.next_file_number) : db'.NumbersBelow := by
  refine ⟨?_, fun n hn => (h.reserved n (hreserved hn)).trans_le hnext⟩
  rw [hcurrent]
  exact fun n hn => (h.live n hn).trans_le hnext

/-- Drawing a table number reserves it. -/
theorem NumbersBelow.draw (hcurrent : db'.versions.current = db.versions.current)
    (hreserved : db'.bg.reserved = [db.versions.next_file_number])
    (hnext : db'.versions.next_file_number = db.versions.next_file_number + 1) : db'.NumbersBelow := by
  refine ⟨?_, ?_⟩
  · rw [hcurrent, hnext]
    exact fun n hn => (h.live n hn).trans (Nat.lt_succ_self _)
  · rw [hreserved, hnext]
    simp

theorem NumbersBelow.write {options : WriteOptions} {type : ValueType} {key value : Bytes}
    {result : Except Status Unit} {ops : List FileOp}
    (hwrite : db.write options type key value = some ((db', result), ops)) (hok : db.bg_error = none) :
    db'.NumbersBelow := by
  obtain ⟨-, ⟨-, rfl, -⟩ | ⟨-, -, rfl, -⟩⟩ := write_cases hwrite hok
  · exact h.mono rfl (List.Subset.refl _) le_rfl
  · exact h.mono rfl (List.Subset.refl _) ((Nat.le_succ _).trans (le_max_left _ _))

theorem NumbersBelow.flush_step : db.flush_step.1.NumbersBelow := by
  have hreserved := h.reserved
  unfold DBImpl.flush_step
  cases hcase : db.bg <;> simp only [hcase] at hreserved ⊢
  case flush_start =>
    cases db.imm with
    | none => exact h.mono rfl (by simp [BgState.reserved]) le_rfl
    | some imm => exact h.draw rfl rfl rfl
  case flush_build imm n =>
    refine h.mono rfl ?_ le_rfl
    rw [hcase]
    dsimp only
    split
    · exact List.Subset.refl [n]
    · exact nil_subset _
  case flush_edit edit => exact ⟨h.log_and_apply hreserved, by simp [BgState.reserved]⟩
  case flush_built f => exact h.mono rfl (by rw [hcase]; exact List.Subset.refl [f.number]) le_rfl
  case flush_clear => exact h.mono rfl (by simp [BgState.reserved]) le_rfl
  case flush_done => exact h.mono rfl (by simp [BgState.reserved]) le_rfl
  all_goals exact h

theorem NumbersBelow.compact_step : (db.compact_step d).1.NumbersBelow := by
  have hreserved := h.reserved
  unfold DBImpl.compact_step
  cases hcase : db.bg <;> simp only [hcase] at hreserved ⊢
  case compact_start =>
    split
    · exact h.mono rfl (by simp [BgState.reserved]) le_rfl
    · exact h.draw rfl rfl rfl
  case compact_merge current n =>
    cases hmerge : compact_level0 db.options d db.dbname current n with
    | error status => exact h.mono rfl (by simp [BgState.reserved]) le_rfl
    | ok outcome =>
      refine h.mono rfl ?_ le_rfl
      rw [hcase]
      have hnumber : outcome.1.output.number = n := compact_level0_number hmerge
      simp [BgState.reserved, hnumber]
  case compact_built result =>
    refine h.mono rfl ?_ le_rfl
    rw [hcase]
    dsimp only [BgState.reserved]
    split <;> simp
  case compact_edit result edit => exact ⟨h.log_and_apply hreserved, by simp [BgState.reserved]⟩
  all_goals exact h

/-- Every step of the background thread draws upwards. -/
theorem NumbersBelow.bg_step : (db.bg_step d).1.NumbersBelow := by
  unfold DBImpl.bg_step
  cases hcase : db.bg <;> dsimp only
  case idle =>
    have hempty : ∀ db' : DBImpl, db'.versions = db.versions →
        (db'.bg = .idle ∨ db'.bg = .flush_start ∨ db'.bg = .compact_start) → db'.NumbersBelow := by
      intro db' hversions hbg
      refine h.mono (by rw [hversions]) ?_ (by rw [hversions])
      rcases hbg with hbg | hbg | hbg <;> simp [hbg, BgState.reserved]
    split
    · exact h
    split
    · exact hempty _ rfl (.inr (.inl rfl))
    split
    · exact hempty _ rfl (.inr (.inr rfl))
    · exact hempty _ rfl (.inl rfl)
  case compact_start | compact_merge | compact_built | compact_edit => exact h.compact_step
  all_goals exact h.flush_step

end

end DBImpl

end lsmkv
