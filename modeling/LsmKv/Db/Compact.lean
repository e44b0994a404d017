import LsmKv.Db.Install

namespace lsmkv

open List

theorem open_tables_eq {d : Disk} (dbname : String) {files : List FileMetaData}
    (h : ∀ f ∈ files, TableHolds d f) : open_tables d dbname files = .ok (files.map d.entries) := by
  induction files with
  | nil => rfl
  | cons f files ih =>
    obtain ⟨hf, hfiles⟩ := forall_mem_cons.mp h
    rw [open_tables, hf.open_file, ih hfiles]
    rfl

theorem widen_range_spec (range : Bytes × Bytes) (f : FileMetaData) :
    (widen_range range f).1 ≤ range.1 ∧ range.2 ≤ (widen_range range f).2 ∧
      (widen_range range f).1 ≤ extract_user_key f.smallest ∧
      extract_user_key f.largest ≤ (widen_range range f).2 := by
  unfold widen_range
  refine ⟨?_, ?_, ?_, ?_⟩ <;> dsimp only <;> split <;> first | exact le_rfl | exact le_of_lt ‹_› | exact not_lt.mp ‹_›

theorem foldl_widen_range_spec (range : Bytes × Bytes) (files : List FileMetaData) :
    ((files.foldl widen_range range).1 ≤ range.1 ∧ range.2 ≤ (files.foldl widen_range range).2) ∧
      ∀ f ∈ files, (files.foldl widen_range range).1 ≤ extract_user_key f.smallest ∧
        extract_user_key f.largest ≤ (files.foldl widen_range range).2 := by
  induction files generalizing range with
  | nil => simp
  | cons f files ih =>
    obtain ⟨hlow, hhigh, hlow', hhigh'⟩ := widen_range_spec range f
    obtain ⟨⟨ihlow, ihhigh⟩, ihall⟩ := ih (widen_range range f)
    refine ⟨⟨ihlow.trans hlow, hhigh.trans ihhigh⟩, forall_mem_cons.mpr ⟨?_, ihall⟩⟩
    exact ⟨ihlow.trans hlow', hhigh'.trans ihhigh⟩

/-- The range of level 0 contains that of each of its files. -/
theorem level0_range_spec (files : List FileMetaData) :
    ∀ f ∈ files, (level0_range files).1 ≤ extract_user_key f.smallest ∧
      extract_user_key f.largest ≤ (level0_range files).2 := by
  cases files with
  | nil => simp
  | cons f files =>
    obtain ⟨hfirst, hall⟩ :=
      foldl_widen_range_spec (extract_user_key f.smallest, extract_user_key f.largest) files
    exact forall_mem_cons.mpr ⟨hfirst, hall⟩

/-- The level-1 files that the merge leaves alone. -/
def level1_rest (v : Version) : List FileMetaData :=
  v.files1.filter fun f => !file_overlaps_range f (level0_range v.files0).1 (level0_range v.files0).2

theorem file_overlaps_range_eq_true {f : FileMetaData} {lo hi : Bytes} :
    file_overlaps_range f lo hi = true ↔
      lo ≤ extract_user_key f.largest ∧ extract_user_key f.smallest ≤ hi := by
  unfold file_overlaps_range
  split
  · next hlt => simp [not_le.mpr hlt]
  · next hlt =>
    split
    · next hgt => simp [not_le.mpr hgt]
    · next hgt => simp [not_lt.mp hlt, not_lt.mp hgt]

section Merge

variable {d : Disk} {v : Version} {older : List Write} {pieces : List (List Write)}

/-- What the merge writes: all of level 0 with the overlapping part of level 1. -/
def mergedEntries (d : Disk) (v : Version) : List (InternalKey × Bytes) :=
  let tables := v.files0.map d.entries ++ (level1_inputs v).map d.entries
  versioned.mergeNewest tables.flatten.length none tables

variable {f : FileMetaData} {e : InternalKey × Bytes}

theorem mem_level1_inputs : f ∈ level1_inputs v ↔ f ∈ v.files1 ∧
      file_overlaps_range f (level0_range v.files0).1 (level0_range v.files0).2 = true := by
  simp [level1_inputs]

theorem mem_level1_rest : f ∈ level1_rest v ↔ f ∈ v.files1 ∧
      file_overlaps_range f (level0_range v.files0).1 (level0_range v.files0).2 = false := by
  simp [level1_rest]

theorem mem_inputs : e ∈ (v.files0.map d.entries ++ (level1_inputs v).map d.entries).flatten ↔
      ∃ f ∈ v.files0 ++ level1_inputs v, e ∈ d.entries f := by
  rw [← map_append, ← flatMap_def, mem_flatMap]

theorem TablesHold.compact_level0_eq (h : TablesHold d v) (options : Options)
    (dbname : String) (n : Nat) :
    compact_level0 options d dbname v n =
      .ok ({ inputs := v.files0.map (fun f => (0, f.number)) ++
                (level1_inputs v).map (fun f => (1, f.number))
             output := SSTableBuilder.build options (mergedEntries d v) n }, mergedEntries d v) := by
  have h1 : ∀ f ∈ level1_inputs v, TableHolds d f := fun f hf =>
    h.tables1 f (mem_level1_inputs.mp hf).1
  rw [compact_level0, open_tables_eq dbname h.tables0, open_tables_eq dbname h1]
  rfl

theorem TablesHold.merged_spec (h : TablesHold d v) :
    (mergedEntries d v).Pairwise (fun a b => a.1.key < b.1.key) ∧
      (∀ e ∈ mergedEntries d v, (∃ f ∈ v.files0 ++ level1_inputs v, e ∈ d.entries f) ∧
        ∀ f ∈ v.files0 ++ level1_inputs v, ∀ x ∈ d.entries f, x.1.key = e.1.key → x.1.stamp ≤ e.1.stamp) ∧
      ∀ f ∈ v.files0 ++ level1_inputs v, ∀ x ∈ d.entries f, ∃ e ∈ mergedEntries d v, e.1.key = x.1.key := by
  have hordered : ∀ input ∈ v.files0.map d.entries ++ (level1_inputs v).map d.entries,
      versioned.Ordered input := by
    rw [← map_append]
    intro input hinput
    obtain ⟨f, hf, rfl⟩ := mem_map.mp hinput
    rcases mem_append.mp hf with hf | hf
    · exact (h.tables0 f hf).ordered
    · exact (h.tables1 f (mem_level1_inputs.mp hf).1).ordered
  obtain ⟨hpair, hsound, hcover⟩ := versioned.mergeNewest_spec _ none _ le_rfl hordered (by simp)
  refine ⟨hpair, ?_, ?_⟩
  · intro e he
    obtain ⟨hmem, -, hnewest⟩ := hsound e he
    exact ⟨mem_inputs.mp hmem, fun f hf x hx => hnewest x (mem_inputs.mpr ⟨f, hf, hx⟩)⟩
  · intro f hf x hx
    exact hcover x (mem_inputs.mpr ⟨f, hf, hx⟩) (by simp)

/-- Level 1 after the merge, in the order in which the edit lists it. -/
def compactedFiles (options : Options) (d : Disk) (v : Version) (n : Nat) : List FileMetaData :=
  level1_rest v ++
    if mergedEntries d v = [] then [] else [SSTableBuilder.build options (mergedEntries d v) n]

theorem mem_compactedFiles {options : Options} {d : Disk} {v : Version} {n : Nat}
    (hf : f ∈ compactedFiles options d v n) : f ∈ level1_rest v ∨ f.number = n := by
  rcases mem_append.mp hf with hf | hf
  · exact .inl hf
  · split at hf
    · cases hf
    · obtain rfl := mem_singleton.mp hf
      exact .inr rfl

theorem TablesHold.input_tableHolds (h : TablesHold d v) (hf : f ∈ v.files0 ++ level1_inputs v) : TableHolds d f := by
  rcases mem_append.mp hf with hf | hf
  · exact h.tables0 f hf
  · exact h.tables1 f (mem_level1_inputs.mp hf).1

/-- A file left alone lies below all files merged or above all of them: it lies
    beside the range of level 0, and a merged level-1 file reaches into that range. -/
theorem TablesHold.rest_beside (h : TablesHold d v) (hf : f ∈ level1_rest v) :
    (∀ g ∈ v.files0 ++ level1_inputs v, extract_user_key f.largest < extract_user_key g.smallest) ∨
      ∀ g ∈ v.files0 ++ level1_inputs v, extract_user_key g.largest < extract_user_key f.smallest := by
  obtain ⟨hf1, hbeside⟩ := mem_level1_rest.mp hf
  have hcases : extract_user_key f.largest < (level0_range v.files0).1 ∨
      (level0_range v.files0).2 < extract_user_key f.smallest := by
    by_contra hno
    rw [not_or, not_lt, not_lt] at hno
    rw [file_overlaps_range_eq_true.mpr hno] at hbeside
    cases hbeside
  have hfrange := (h.tables1 f hf1).smallest_le_largest
  have hdisjoint : ∀ g ∈ level1_inputs v, RangesDisjoint f g := by
    intro g hg
    obtain ⟨hg1, hoverlap⟩ := mem_level1_inputs.mp hg
    refine h.disjoint.forall hf1 hg1 ?_
    rintro rfl
    rw [hoverlap] at hbeside
    cases hbeside
  rcases hcases with hlt | hlt
  · refine .inl fun g hg => ?_
    rcases mem_append.mp hg with hg | hg
    · exact hlt.trans_le (level0_range_spec v.files0 g hg).1
    · obtain ⟨hreach, -⟩ := file_overlaps_range_eq_true.mp (mem_level1_inputs.mp hg).2
      refine (hdisjoint g hg).resolve_right fun hgf => ?_
      exact absurd hreach (not_le.mpr ((hgf.trans_le hfrange).trans hlt))
  · refine .inr fun g hg => ?_
    rcases mem_append.mp hg with hg | hg
    · exact (level0_range_spec v.files0 g hg).2.trans_lt hlt
    · obtain ⟨-, hreach⟩ := file_overlaps_range_eq_true.mp (mem_level1_inputs.mp hg).2
      refine (hdisjoint g hg).resolve_left fun hfg => ?_
      exact absurd hreach (not_le.mpr (hlt.trans (hfrange.trans_lt hfg)))

/-- Each bound of the output is the key of some entry of a merged file, so the
    output lies on the same side of a file left alone as the merged files. -/
theorem TablesHold.rest_disjoint_output (h : TablesHold d v) {out : FileMetaData}
    (hf : f ∈ level1_rest v) {e' : InternalKey × Bytes} (he : e ∈ mergedEntries d v)
    (hsmallest : extract_user_key out.smallest = e.1.key) (he' : e' ∈ mergedEntries d v)
    (hlargest : extract_user_key out.largest = e'.1.key) : RangesDisjoint f out := by
  obtain ⟨-, hsound, -⟩ := h.merged_spec
  rcases h.rest_beside hf with hbelow | habove
  · obtain ⟨⟨g, hg, hmem⟩, -⟩ := hsound e he
    refine .inl ?_
    rw [hsmallest]
    exact (hbelow g hg).trans_le ((h.input_tableHolds hg).lower e hmem)
  · obtain ⟨⟨g, hg, hmem⟩, -⟩ := hsound e' he'
    refine .inr ?_
    rw [hlargest]
    exact ((h.input_tableHolds hg).upper e' hmem).trans_lt (habove g hg)

/-- The merge output and the files left alone hold the runs of both levels together. -/
theorem LevelsHold.compacted_represents (h : LevelsHold d v older pieces)
    (hseq : Sequenced (older ++ pieces.flatten)) (hbound : ∀ w ∈ older ++ pieces.flatten, w.seq < 2 ^ 56) :
    Represents ((level1_rest v).flatMap d.entries ++ mergedEntries d v) (older ++ pieces.flatten) := by
  obtain ⟨-, hsound, hcover⟩ := h.tablesHold.merged_spec
  have hinput : ∀ f ∈ v.files0 ++ level1_inputs v, f ∈ v.files0 ++ v.files1 := by
    intro f hf
    rcases mem_append.mp hf with hf | hf
    · exact mem_append_left _ hf
    · exact mem_append_right _ (mem_level1_inputs.mp hf).1
  have hmerged : ∀ e ∈ mergedEntries d v, ∃ w ∈ older ++ pieces.flatten, e = w.entry := by
    intro e he
    obtain ⟨⟨f, hf, hmem⟩, -⟩ := hsound e he
    exact h.sound (hinput f hf) hmem
  intro k
  refine ⟨?_, ?_⟩
  · intro e he _
    rcases mem_append.mp he with he | he
    · obtain ⟨f, hf, he⟩ := mem_flatMap.mp he
      exact h.sound (mem_append_right _ (mem_level1_rest.mp hf).1) he
    · exact hmerged e he
  · intro w hlast _
    obtain ⟨f, hf, hmem⟩ := h.complete hlast
    by_cases hin : f ∈ v.files0 ++ level1_inputs v
    · -- the merge keeps the newest version of the key, which is this write
      obtain ⟨e, he, hkey⟩ := hcover f hin _ hmem
      obtain ⟨w', hw', rfl⟩ := hmerged e he
      have hle := hseq.le_of_isLast hlast hw' hkey
      have hge : w.seq ≤ w'.seq := by
        by_contra hlt
        have hstamp := (hsound _ he).2 f hin _ hmem hkey.symm
        exact absurd (pack_lt_pack (not_le.mp hlt) (hbound w hlast.mem) w'.type w.type) (not_lt.mpr hstamp)
      rw [hseq.eq_of_seq_eq hlast.mem hw' (le_antisymm hge hle)]
      exact mem_append_right _ he
    · refine mem_append_left _ (mem_flatMap.mpr ⟨f, ?_, hmem⟩)
      rcases mem_append.mp hf with hf | hf
      · exact absurd (mem_append_left _ hf) hin
      · refine mem_level1_rest.mpr ⟨hf, ?_⟩
        by_contra hoverlap
        exact hin (mem_append_right _ (mem_level1_inputs.mpr ⟨hf, by simpa using hoverlap⟩))

theorem level1_rest_sublist : (level1_rest v).Sublist v.files1 := filter_sublist

/-- Installing the merge: level 0 becomes empty and level 1 holds both runs. -/
theorem LevelsHold.compacted (h : LevelsHold d v older pieces)
    (hseq : Sequenced (older ++ pieces.flatten)) (hbound : ∀ w ∈ older ++ pieces.flatten, w.seq < 2 ^ 56)
    (options : Options) {n : Nat} (hfresh : n ∉ v.live) {d' : Disk}
    (hout : d'.tables n = some (.finished (mergedEntries d v)))
    (hrest : ∀ f ∈ level1_rest v, d'.tables f.number = d.tables f.number) :
    LevelsHold d' { files0 := [], files1 := compactedFiles options d v n } (older ++ pieces.flatten) [] := by
  have hordered := versioned.ordered_of_pairwise_key_lt h.tablesHold.merged_spec.1
  have hrestTables : ∀ f ∈ level1_rest v, TableHolds d' f := fun f hf =>
    (h.tables1 f (mem_level1_rest.mp hf).1).congr (hrest f hf)
  have hflat : (level1_rest v).flatMap d'.entries = (level1_rest v).flatMap d.entries :=
    flatMap_congr fun f hf => Disk.entries_congr (hrest f hf)
  have hlive : ∀ f ∈ level1_rest v, f.number ∈ v.live := fun f hf =>
    mem_live_of_mem_files1 (mem_level1_rest.mp hf).1
  have hrestNodup : ((level1_rest v).map FileMetaData.number).Nodup :=
    h.nodup.sublist ((level1_rest_sublist.map _).trans
      ((sublist_append_right v.files0 v.files1).map _))
  have hrep := h.compacted_represents hseq hbound
  have hrestDisjoint : (level1_rest v).Pairwise RangesDisjoint := h.disjoint.sublist level1_rest_sublist
  unfold compactedFiles
  by_cases hempty : mergedEntries d v = []
  · rw [if_pos hempty, append_nil]
    refine ⟨List.Forall₂.nil, hrestTables, ?_, hrestDisjoint, by simpa [Version.live] using hrestNodup⟩
    rw [hflat]
    simpa [hempty] using hrep
  · rw [if_neg hempty]
    set out := SSTableBuilder.build options (mergedEntries d v) n with houtdef
    have houtTable : TableHolds d' out := tableHolds_build hordered hempty hout
    have houtEntries : d'.entries out = mergedEntries d v := Disk.entries_finished hout
    refine ⟨List.Forall₂.nil, ?_, ?_, ?_, ?_⟩
    · intro f hf
      rcases mem_append.mp hf with hf | hf
      · exact hrestTables f hf
      · rw [mem_singleton.mp hf]
        exact houtTable
    · simp only [flatMap_append, flatMap_cons, flatMap_nil, append_nil, hflat, houtEntries]
      exact hrep
    · refine pairwise_append.mpr ⟨hrestDisjoint, pairwise_singleton _ _, ?_⟩
      intro f hf g hg
      rw [mem_singleton.mp hg, houtdef]
      obtain ⟨e, es, hmerged⟩ := exists_cons_of_ne_nil hempty
      obtain ⟨hsmallest, hlargest, -⟩ := SSTableBuilder.build_spec options e es n
      have hfirst : e ∈ mergedEntries d v := by
        rw [hmerged]
        exact mem_cons_self
      have hlast : (e :: es).getLast (cons_ne_nil e es) ∈ mergedEntries d v := by
        rw [hmerged]
        exact getLast_mem _
      refine h.tablesHold.rest_disjoint_output hf hfirst ?_ hlast ?_ <;> rw [hmerged]
      · rw [hsmallest, InternalKey.extract_user_key_encode]
      · rw [hlargest, InternalKey.extract_user_key_encode]
    · have hnotin : n ∉ (level1_rest v).map FileMetaData.number := by
        intro hmem
        obtain ⟨f, hf, rfl⟩ := mem_map.mp hmem
        exact hfresh (hlive f hf)
      have : ((level1_rest v ++ [out]).map FileMetaData.number).Nodup := by
        rw [map_append, nodup_append]
        refine ⟨hrestNodup, by simp, ?_⟩
        intro a ha b hb
        rw [map_singleton, mem_singleton] at hb
        intro hab
        have hout : a = n := hab.trans hb
        exact hnotin (hout ▸ ha)
      simpa [Version.live] using this

end Merge

section Delete

theorem foldl_delete_file_files (v : Version) (deleted : List (Fin kNumLevels × Nat)) (level : Fin kNumLevels) :
    (deleted.foldl Version.delete_file v).files level =
      (v.files level).filter fun f => (level, f.number) ∉ deleted := by
  induction deleted generalizing v with
  | nil => simp
  | cons x deleted ih =>
    rw [foldl_cons, ih]
    have hset : (v.delete_file x).files level =
        if x.1 = level then (v.files level).filter fun f => f.number ≠ x.2 else v.files level := by
      obtain ⟨l, n⟩ := x
      fin_cases l <;> fin_cases level <;> rfl
    rw [hset]
    by_cases hlevel : x.1 = level
    · rw [if_pos hlevel, filter_filter]
      refine filter_congr fun f _ => ?_
      subst hlevel
      by_cases hn : f.number = x.2 <;> simp [hn, Prod.ext_iff]
    · rw [if_neg hlevel]
      refine filter_congr fun f _ => ?_
      have hne : (level, f.number) ≠ x := fun heq => hlevel (congrArg Prod.fst heq.symm)
      simp [hne]

/-- Deleting the inputs of a merge leaves level 0 empty and keeps the level-1 files
    that the merge left alone. -/
theorem delete_inputs {v : Version} (hnodup : v.live.Nodup) :
    (v.files0.map (fun f => ((0 : Fin kNumLevels), f.number)) ++
      (level1_inputs v).map (fun f => ((1 : Fin kNumLevels), f.number))).foldl Version.delete_file v =
      { files0 := [], files1 := level1_rest v } := by
  set inputs := v.files0.map (fun f => ((0 : Fin kNumLevels), f.number)) ++
    (level1_inputs v).map (fun f => ((1 : Fin kNumLevels), f.number)) with hinputs
  have h0 : (inputs.foldl Version.delete_file v).files0 = [] := by
    refine (foldl_delete_file_files v inputs 0).trans (filter_eq_nil_iff.mpr fun f hf => ?_)
    have hmem : ((0 : Fin kNumLevels), f.number) ∈ inputs :=
      mem_append_left _ (mem_map_of_mem hf)
    simp [hmem]
  have hnodup1 : (v.files1.map FileMetaData.number).Nodup :=
    hnodup.sublist ((sublist_append_right v.files0 v.files1).map _)
  have h1 : (inputs.foldl Version.delete_file v).files1 = level1_rest v := by
    refine (foldl_delete_file_files v inputs 1).trans (filter_congr fun f hf => ?_)
    have hiff : ((1 : Fin kNumLevels), f.number) ∈ inputs ↔ f ∈ level1_inputs v := by
      constructor
      · intro hmem
        rcases mem_append.mp hmem with hmem | hmem
        · obtain ⟨g, -, heq⟩ := mem_map.mp hmem
          cases (Prod.mk.inj heq).1
        · obtain ⟨g, hg, heq⟩ := mem_map.mp hmem
          have hsame : g = f := inj_on_of_nodup_map hnodup1 (mem_level1_inputs.mp hg).1 hf
            (Prod.mk.inj heq).2
          exact hsame ▸ hg
      · intro hmem
        exact mem_append_right _ (mem_map_of_mem hmem)
    have hf1 : f ∈ v.files1 := hf
    simp [hiff, mem_level1_inputs, hf1]
  cases hv : inputs.foldl Version.delete_file v with
  | mk files0 files1 =>
    rw [hv] at h0 h1
    rw [← h0, ← h1]

end Delete

end lsmkv
