import LsmKv.Compaction
import LsmKv.Db.Levels

namespace lsmkv

open List

variable {entries : List (InternalKey × Bytes)}

/-- A table built from ordered entries and finished under its number is a table
    that a version can list. -/
theorem tableHolds_build {d : Disk} {options : Options} {n : Nat}
    (hordered : versioned.Ordered entries) (hne : entries ≠ [])
    (hfile : d.tables n = some (.finished entries)) :
    TableHolds d (SSTableBuilder.build options entries n) := by
  have hentries : d.entries (SSTableBuilder.build options entries n) = entries := Disk.entries_finished hfile
  cases entries with
  | nil => exact absurd rfl hne
  | cons e es =>
    obtain ⟨hsmallest, hlargest, -⟩ := SSTableBuilder.build_spec options e es n
    refine ⟨?_, ?_, ?_, ?_, ?_⟩
    · rw [hentries]; exact hfile
    · rw [hentries]; exact hordered
    · rw [hentries]; exact hne
    · rw [hentries, hsmallest, InternalKey.extract_user_key_encode]
      intro x hx
      rcases mem_cons.mp hx with rfl | hx
      · exact le_rfl
      · exact versioned.key_le_of_precedes (hordered.head_precedes hx)
    · rw [hentries, hlargest, InternalKey.extract_user_key_encode]
      exact hordered.key_le_getLast hne

theorem build_installable {options : Options} {n : Nat} : (0 < (SSTableBuilder.build options entries n).file_size ∧
      (SSTableBuilder.build options entries n).smallest ≠ []) ↔ entries ≠ [] := by
  cases entries with
  | nil => simp [SSTableBuilder.build_nil_smallest]
  | cons e es =>
    obtain ⟨hsmallest, -, hsize⟩ := SSTableBuilder.build_spec options e es n
    simp [hsmallest, hsize, InternalKey.encode_ne_nil]

section Level0

variable {d : Disk} {files : List FileMetaData} {pieces : List (List Write)}

theorem FilesHold.sound (h : FilesHold d files pieces) {f : FileMetaData} (hf : f ∈ files)
    {e : InternalKey × Bytes} (he : e ∈ d.entries f) : ∃ w ∈ pieces.flatten, e = w.entry := by
  induction h with
  | nil => cases hf
  | cons hhead _ ih =>
    rw [flatten_cons]
    rcases mem_cons.mp hf with rfl | hf
    · obtain ⟨w, hw, heq⟩ := (hhead.2 e.1.key).sound e he rfl
      exact ⟨w, mem_append_left _ hw, heq⟩
    · obtain ⟨w, hw, heq⟩ := ih hf
      exact ⟨w, mem_append_right _ hw, heq⟩

theorem FilesHold.complete (h : FilesHold d files pieces) {w : Write}
    (hw : history.IsLast Write.key pieces.flatten w) : ∃ f ∈ files, w.entry ∈ d.entries f := by
  induction h with
  | nil => exact absurd hw.mem not_mem_nil
  | @cons f piece _ _ hhead _ ih =>
    rw [flatten_cons] at hw
    rcases hw.append with hnewer | ⟨hpiece, -⟩
    · obtain ⟨g, hg, hmem⟩ := ih hnewer
      exact ⟨g, mem_cons_of_mem _ hg, hmem⟩
    · exact ⟨f, mem_cons_self, (hhead.2 w.key).complete w hpiece rfl⟩

end Level0

section Levels

variable {d : Disk} {v : Version} {older : List Write} {pieces : List (List Write)}

variable {f : FileMetaData}

/-- Every entry of a live table records a write of the levels' run. -/
theorem LevelsHold.sound (h : LevelsHold d v older pieces)
    (hf : f ∈ v.files0 ++ v.files1) {e : InternalKey × Bytes} (he : e ∈ d.entries f) :
    ∃ w ∈ older ++ pieces.flatten, e = w.entry := by
  rcases mem_append.mp hf with hf | hf
  · obtain ⟨w, hw, heq⟩ := h.level0.sound hf he
    exact ⟨w, mem_append_right _ hw, heq⟩
  · obtain ⟨w, hw, heq⟩ := (h.level1 e.1.key).sound e (mem_flatMap.mpr ⟨f, hf, he⟩) rfl
    exact ⟨w, mem_append_left _ hw, heq⟩

/-- The last write of a key stands in some live table. -/
theorem LevelsHold.complete (h : LevelsHold d v older pieces) {w : Write}
    (hw : history.IsLast Write.key (older ++ pieces.flatten) w) :
    ∃ f ∈ v.files0 ++ v.files1, w.entry ∈ d.entries f := by
  rcases hw.append with hnewer | ⟨holder, -⟩
  · obtain ⟨f, hf, hmem⟩ := h.level0.complete hnewer
    exact ⟨f, mem_append_left _ hf, hmem⟩
  · obtain ⟨f, hf, hmem⟩ := mem_flatMap.mp ((h.level1 w.key).complete w holder rfl)
    exact ⟨f, mem_append_right _ hf, hmem⟩

/-- The order in which level 1 is listed does not matter. -/
theorem LevelsHold.perm (h : LevelsHold d v older pieces) {files : List FileMetaData}
    (hperm : v.files1.Perm files) : LevelsHold d { v with files1 := files } older pieces := by
  refine ⟨h.level0, fun f hf => h.tables1 f (hperm.mem_iff.mpr hf), ?_, ?_, ?_⟩
  · intro k
    have hmem : ∀ e, e ∈ files.flatMap d.entries ↔ e ∈ v.files1.flatMap d.entries := fun e => by
      simp only [mem_flatMap, hperm.mem_iff]
    refine ⟨fun e he => (h.level1 k).sound e ((hmem e).mp he), fun w hw hwk => ?_⟩
    exact (hmem _).mpr ((h.level1 k).complete w hw hwk)
  · exact (hperm.pairwise_iff RangesDisjoint.symm).mp h.disjoint
  · exact ((List.Perm.append_left _ hperm).map _).nodup_iff.mp h.nodup

theorem nodup_live_push (hnodup : v.live.Nodup) (hfresh : f.number ∉ v.live) :
    ({ v with files0 := v.files0 ++ [f] } : Version).live.Nodup := by
  have hperm : ({ v with files0 := v.files0 ++ [f] } : Version).live.Perm (f.number :: v.live) := by
    simp only [Version.live, map_append, append_assoc, map_cons,
      singleton_append]
    exact perm_middle
  exact hperm.nodup_iff.mpr (nodup_cons.mpr ⟨hfresh, hnodup⟩)

/-- A flush adds the newest piece to level 0. -/
theorem LevelsHold.push (h : LevelsHold d v older pieces) {piece : List Write}
    (hf : TableHolds d f) (hrep : Represents (d.entries f) piece) (hfresh : f.number ∉ v.live) :
    LevelsHold d (v.add_file (0, f)) older (pieces ++ [piece]) := by
  have hadd : v.add_file (0, f) = { v with files0 := v.files0 ++ [f] } := rfl
  rw [hadd]
  refine ⟨?_, h.tables1, h.level1, h.disjoint, nodup_live_push h.nodup hfresh⟩
  exact rel_append h.level0 (List.Forall₂.cons ⟨hf, hrep⟩ List.Forall₂.nil)

end Levels

end lsmkv
