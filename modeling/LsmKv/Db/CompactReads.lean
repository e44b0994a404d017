import LsmKv.Db.Background
import LsmKv.Db.Read

namespace lsmkv

open List Option InternalKey Version

/-- An entry as the store writes it: the stamp packs a sequence number and a type. -/
def Stamped (e : InternalKey × Bytes) : Prop :=
  ∃ seq t, seq < 2 ^ 56 ∧ e.1.stamp = pack_sequence_and_type seq t

/-- A finished table, not empty and in order, whose metadata give its first and its last
    internal key. -/
structure Intact (d : Disk) (f : FileMetaData) : Prop where
  finished : d.tables f.number = some (.finished (d.entries f))
  ordered : versioned.Ordered (d.entries f)
  ne_nil : d.entries f ≠ []
  smallest : f.smallest = InternalKey.encode ((d.entries f).head ne_nil).1
  largest : f.largest = InternalKey.encode ((d.entries f).getLast ne_nil).1
  stamped : ∀ e ∈ d.entries f, Stamped e

theorem Intact.tableHolds {d : Disk} {f : FileMetaData} (h : Intact d f) : TableHolds d f := by
  refine ⟨h.finished, h.ordered, h.ne_nil, fun e he => ?_, fun e he => ?_⟩
  · rw [h.smallest, extract_user_key_encode]
    obtain ⟨first, rest, hentries⟩ := exists_cons_of_ne_nil h.ne_nil
    have hordered := h.ordered
    simp only [hentries, head_cons] at he hordered ⊢
    rcases mem_cons.mp he with rfl | he
    · exact le_rfl
    · exact versioned.key_le_of_precedes (hordered.head_precedes he)
  · rw [h.largest, extract_user_key_encode]
    exact h.ordered.key_le_getLast h.ne_nil e he

/-- All keys of a file lie before those of another one. -/
def RangeBefore (f g : FileMetaData) : Prop := extract_user_key f.largest < extract_user_key g.smallest

/-- The entries of a key in the second file are newer than those in the first one. -/
def NewerIn (d : Disk) (f g : FileMetaData) : Prop :=
  ∀ e ∈ d.entries f, ∀ e' ∈ d.entries g, e.1.key = e'.1.key → InternalKey.sequence e.1 < InternalKey.sequence e'.1

/-- A version as flushes and compactions leave it: intact tables, level 1 in the order of
    its ranges, level 0 in the order of its flushes and newer than level 1. -/
structure WellFormed (d : Disk) (v : Version) : Prop where
  intact : ∀ f ∈ v.files0 ++ v.files1, Intact d f
  sorted : v.files1.Pairwise RangeBefore
  newer0 : v.files0.Pairwise (NewerIn d)
  newer1 : ∀ f ∈ v.files1, ∀ g ∈ v.files0, NewerIn d f g

/-- What a reader makes of an entry. -/
def entryResult (e : InternalKey × Bytes) : Option Bytes :=
  if value_type e.1 = .kTypeDeletion then none else some e.2

section Probe

variable {d : Disk} {k : Bytes} {snapshot : Nat}

theorem Stamped.stamp_le {e : InternalKey × Bytes} (h : Stamped e) (hle : InternalKey.sequence e.1 ≤ snapshot)
    (hsnap : snapshot < 2 ^ 56) : e.1.stamp ≤ (make_lookup_key k snapshot).stamp := by
  obtain ⟨seq, t, hseq, hstamp⟩ := h
  rw [InternalKey.sequence, hstamp, sequence_from_pack_pack hseq] at hle
  rw [hstamp]
  exact pack_le_lookup hle hsnap t

/-- A probe of one table finds the first entry of the key. -/
theorem check_entry_seek_first {entries : List (InternalKey × Bytes)} (hordered : versioned.Ordered entries)
    (hstamped : ∀ e ∈ entries, Stamped e) (hbound : ∀ e ∈ entries, InternalKey.sequence e.1 ≤ snapshot)
    (hsnap : snapshot < 2 ^ 56) :
    check_entry k snapshot (versioned.seek entries (make_lookup_key k snapshot)) =
      (versioned.first entries k).map entryResult := by
  cases hfirst : versioned.first entries k with
  | none =>
    have hnone := versioned.first_eq_none.mp hfirst
    cases hseek : versioned.seek entries (make_lookup_key k snapshot) with
    | none => rfl
    | some e =>
      have hne : e.1.key ≠ k := versioned.seek_key_ne (fun e he hek => absurd hek (hnone e he)) hseek
      simp [check_entry, hne]
  | some e =>
    obtain ⟨hmem, hkey, hnewest⟩ := hordered.newestFirst.first_spec hfirst
    have hisNewest : versioned.IsNewest entries k (make_lookup_key k snapshot).stamp e := by
      refine ⟨hmem, hkey, (hstamped e hmem).stamp_le (hbound e hmem) hsnap, fun e' he' hkey' _ => ?_⟩
      rcases hnewest e' he' hkey' with rfl | hlt
      · exact le_rfl
      · exact hlt.le
    rw [show make_lookup_key k snapshot = ⟨k, (make_lookup_key k snapshot).stamp⟩ from rfl,
      versioned.seek_of_isNewest hordered hisNewest, check_entry, if_neg (not_not.mpr hkey),
      if_neg (not_lt.mpr (hbound e hmem)), map_some, entryResult]
    split <;> rfl

/-- The loop over the files finds the first entry of the key in all of them. -/
theorem Version.get_loop_eq_first {dbname : String} {files : List FileMetaData} (hintact : ∀ f ∈ files, Intact d f)
    (hbound : ∀ f ∈ files, ∀ e ∈ d.entries f, InternalKey.sequence e.1 ≤ snapshot) (hsnap : snapshot < 2 ^ 56) :
    get_loop d dbname k (make_lookup_key k snapshot) files =
      .ok ((versioned.first (files.flatMap d.entries) k).map entryResult) := by
  induction files with
  | nil => rfl
  | cons f files ih =>
    obtain ⟨hf, hfiles⟩ := forall_mem_cons.mp hintact
    obtain ⟨hbf, hbfiles⟩ := forall_mem_cons.mp hbound
    have ih := ih hfiles hbfiles
    have hfirst : versioned.first ((f :: files).flatMap d.entries) k =
        (versioned.first (d.entries f) k).or (versioned.first (files.flatMap d.entries) k) := by
      rw [flatMap_cons, versioned.first, List.find?_append]
      rfl
    have hpass : (∀ e ∈ d.entries f, e.1.key ≠ k) →
        versioned.first ((f :: files).flatMap d.entries) k = versioned.first (files.flatMap d.entries) k := by
      intro hnone
      rw [hfirst, versioned.first_eq_none.mpr hnone, none_or]
    rw [get_loop]
    by_cases hlow : k < extract_user_key f.smallest
    · rw [if_pos hlow, ih, hpass fun e he hek => absurd (hf.tableHolds.lower e he) (not_le.mpr (hek ▸ hlow))]
    · by_cases hhigh : extract_user_key f.largest < k
      · rw [if_neg hlow, if_pos hhigh, ih,
          hpass fun e he hek => absurd (hf.tableHolds.upper e he) (not_le.mpr (hek ▸ hhigh))]
      · rw [if_neg hlow, if_neg hhigh, hf.tableHolds.open_file, hfirst]
        have hget := (SSTable.get_lookup (d.entries f) hsnap).trans
          (@check_entry_seek_first k snapshot _ hf.ordered hf.stamped hbf hsnap)
        simp only [bind, Except.bind, hget, ih]
        cases versioned.first (d.entries f) k <;> rfl

end Probe

section Levels

variable {d : Disk} {v : Version}

theorem RangeBefore.disjoint {f g : FileMetaData} (h : RangeBefore f g) : RangesDisjoint f g := .inl h

theorem WellFormed.tablesHold (h : WellFormed d v) : TablesHold d v :=
  ⟨fun f hf => (h.intact f (mem_append_left _ hf)).tableHolds,
    fun f hf => (h.intact f (mem_append_right _ hf)).tableHolds, h.sorted.imp RangeBefore.disjoint⟩

/-- Files with disjoint ranges have no key in common. -/
theorem RangesDisjoint.key_ne {f g : FileMetaData} (h : RangesDisjoint f g) (hf : TableHolds d f) (hg : TableHolds d g)
    {e e' : InternalKey × Bytes} (he : e ∈ d.entries f) (he' : e' ∈ d.entries g) : e.1.key ≠ e'.1.key := by
  intro hkey
  rcases h with hlt | hlt
  · exact absurd ((hf.upper e he).trans_lt hlt) (not_lt.mpr (hkey ▸ hg.lower e' he'))
  · exact absurd ((hg.upper e' he').trans_lt hlt) (not_lt.mpr (hkey ▸ hf.lower e he))

/-- Newer by sequence number is newer by stamp. -/
theorem stamp_lt_of_sequence_lt {a b : InternalKey} (h : InternalKey.sequence a < InternalKey.sequence b) :
    a.stamp < b.stamp := by
  rw [InternalKey.sequence, InternalKey.sequence, sequence_from_pack, sequence_from_pack] at h
  omega

/-- The entries in the order in which the files are probed. -/
def probed (d : Disk) (v : Version) : List (InternalKey × Bytes) :=
  (v.files0.reverse ++ v.files1.reverse).flatMap d.entries

theorem newestFirst_flatMap {files : List FileMetaData} (hordered : ∀ f ∈ files, versioned.Ordered (d.entries f))
    (hfiles : files.Pairwise fun f g => ∀ e ∈ d.entries f, ∀ e' ∈ d.entries g, e.1.key = e'.1.key →
      e'.1.stamp < e.1.stamp) : versioned.NewestFirst (files.flatMap d.entries) :=
  pairwise_flatMap.mpr ⟨fun f hf => (hordered f hf).newestFirst, hfiles⟩

theorem WellFormed.newestFirst (h : WellFormed d v) : versioned.NewestFirst (probed d v) := by
  refine newestFirst_flatMap (fun f hf => (h.intact f ?_).ordered) (pairwise_append.mpr ⟨?_, ?_, ?_⟩)
  · simpa using hf
  · refine pairwise_reverse.mpr (h.newer0.imp fun hnewer e he e' he' hkey => ?_)
    exact stamp_lt_of_sequence_lt (hnewer e' he' e he hkey.symm)
  · refine pairwise_reverse.mpr (h.sorted.imp_of_mem fun hf hg hbefore e he e' he' hkey => ?_)
    exact absurd hkey.symm (hbefore.disjoint.key_ne (h.tablesHold.tables1 _ hf) (h.tablesHold.tables1 _ hg) he' he)
  · intro g hg f hf e he e' he' hkey
    exact stamp_lt_of_sequence_lt (h.newer1 f (mem_reverse.mp hf) g (mem_reverse.mp hg) e' he' e he hkey.symm)

/-- Reading a version is reading the first entry in probe order. -/
theorem WellFormed.get_eq (h : WellFormed d v) {snapshot : Nat}
    (hbound : ∀ f ∈ v.files0 ++ v.files1, ∀ e ∈ d.entries f, InternalKey.sequence e.1 ≤ snapshot)
    (hsnap : snapshot < 2 ^ 56) (dbname : String) (k : Bytes) :
    v.get d dbname k snapshot = readStatus ((versioned.first (probed d v) k).bind entryResult) := by
  have hmem : ∀ f ∈ v.files0.reverse ++ v.files1.reverse, f ∈ v.files0 ++ v.files1 := fun f hf => by simpa using hf
  rw [Version.get, get_loop_eq_first (fun f hf => h.intact f (hmem f hf)) (fun f hf => hbound f (hmem f hf)) hsnap,
    Except.ok_bind, probed]
  cases versioned.first ((v.files0.reverse ++ v.files1.reverse).flatMap d.entries) k with
  | none => rfl
  | some e =>
    rw [map_some, bind_some]
    cases entryResult e <;> rfl

end Levels

/-- Steps of `CompactIfNeeded` in a row. -/
def DBImpl.run_compact : Nat → DBImpl → Disk → DBImpl × Disk
  | 0, db, d => (db, d)
  | n + 1, db, d =>
    let (db, ops) := db.compact_step d
    run_compact n db (d.apply_all ops)

section Compact

variable {d : Disk} {v : Version} {db : DBImpl} {n : Nat}

/-- No two files of a version have one number. -/
theorem WellFormed.nodup (h : WellFormed d v) : v.live.Nodup := by
  have hsame : ∀ {f g : FileMetaData}, f.number = g.number → ∀ e ∈ d.entries f, e ∈ d.entries g := by
    intro f g hnumber e he
    rw [Disk.entries, hnumber] at he
    exact he
  have hnewer : ∀ {f g : FileMetaData}, f ∈ v.files0 ++ v.files1 → NewerIn d f g → f.number ≠ g.number := by
    intro f g hf hnewer hnumber
    obtain ⟨e, he⟩ := exists_mem_of_ne_nil _ (h.intact f hf).ne_nil
    exact lt_irrefl _ (hnewer e he e (hsame hnumber e he) rfl)
  refine pairwise_map.mpr (pairwise_append.mpr ⟨?_, ?_, ?_⟩)
  · exact h.newer0.imp_of_mem fun hf _ hnew => hnewer (mem_append_left _ hf) hnew
  · refine h.sorted.imp_of_mem fun hf hg hbefore hnumber => ?_
    obtain ⟨e, he⟩ := exists_mem_of_ne_nil _ (h.intact _ (mem_append_right _ hf)).ne_nil
    exact hbefore.disjoint.key_ne (h.tablesHold.tables1 _ hf) (h.tablesHold.tables1 _ hg) he (hsame hnumber e he) rfl
  · intro g hg f hf hnumber
    exact hnewer (mem_append_right _ hf) (h.newer1 f hf g hg) hnumber.symm

variable {d' : Disk} {files : List FileMetaData}

theorem Intact.congr {f : FileMetaData} (h : Intact d f) (hsame : d'.tables f.number = d.tables f.number) :
    Intact d' f := by
  have hentries := Disk.entries_congr hsame
  refine ⟨?_, ?_, hentries ▸ h.ne_nil, ?_, ?_, ?_⟩
  · rw [hsame, hentries, h.finished]
  · rw [hentries]
    exact h.ordered
  · simp only [hentries]
    exact h.smallest
  · simp only [hentries]
    exact h.largest
  · rw [hentries]
    exact h.stamped

/-- The output of the builder is intact. -/
theorem intact_build {options : Options} {entries : List (InternalKey × Bytes)}
    (hordered : versioned.Ordered entries) (hne : entries ≠ []) (hstamped : ∀ e ∈ entries, Stamped e)
    (hfile : d.tables n = some (.finished entries)) : Intact d (SSTableBuilder.build options entries n) := by
  have htable := @tableHolds_build entries d options n hordered hne hfile
  have hentries : d.entries (SSTableBuilder.build options entries n) = entries := Disk.entries_finished hfile
  refine ⟨htable.finished, htable.ordered, htable.ne_nil, ?_, ?_, by rw [hentries]; exact hstamped⟩
  all_goals
    simp only [hentries]
    obtain ⟨e, es, rfl⟩ := exists_cons_of_ne_nil hne
    obtain ⟨hsmallest, hlargest, -⟩ := SSTableBuilder.build_spec options e es n
  · exact hsmallest
  · exact hlargest

/-- The version and the disk after the merge, the edit and the removal of the inputs. -/
theorem WellFormed.run_compact (h : WellFormed d v) (hbg : db.bg = .compact_merge v n)
    (hcurrent : db.versions.current = v) (hfresh : n ∉ v.live) (hne : mergedEntries d v ≠ []) :
    ∃ files, (db.run_compact 3 d).1.versions.current = { files0 := [], files1 := files } ∧
      (level1_rest v ++ [SSTableBuilder.build db.options (mergedEntries d v) n]).Perm files ∧
      files.Pairwise smallest_le ∧
      (db.run_compact 3 d).2.tables n = some (.finished (mergedEntries d v)) ∧
      ∀ f ∈ level1_rest v, (db.run_compact 3 d).2.tables f.number = d.tables f.number := by
  subst hcurrent
  set v := db.versions.current
  set result : CompactionResult :=
    ⟨v.files0.map (fun f => (0, f.number)) ++ (level1_inputs v).map (fun f => (1, f.number)),
      SSTableBuilder.build db.options (mergedEntries d v) n⟩ with hresult
  set edit : VersionEdit :=
    { deleted_files := result.inputs
      added_files := if 0 < result.output.file_size ∧ result.output.smallest ≠ [] then [(1, result.output)] else []
      last_sequence := some db.versions.last_sequence } with hedit
  set d₁ := d.apply_all [.create_table n, .finish_table n (mergedEntries d v)] with hd₁
  have htables : ∀ m, d₁.tables m = if m = n then some (.finished (mergedEntries d v)) else d.tables m :=
    fun m => Disk.apply_build_tables d n m _
  have hsame : ∀ m ∈ v.live, d₁.tables m = d.tables m := by
    intro m hm
    refine (htables m).trans (if_neg ?_)
    rintro rfl
    exact hfresh hm
  have hmerged := mergedEntries_congr hsame
  have htable : DBImpl.MergeTable db d₁ result n :=
    ⟨rfl, by rw [hmerged], by rw [hmerged, htables, if_pos rfl], hfresh⟩
  have hrun : db.run_compact 3 d = ({ db with versions := (db.versions.log_and_apply edit).1, bg := .idle },
      d₁.apply_all ((db.versions.log_and_apply edit).2 ++ result.inputs.map fun input => .remove_table input.2)) := by
    have hmerge : db.compact_step d = ({ db with bg := .compact_built result },
        [.create_table n, .finish_table n (mergedEntries d v)]) := by
      unfold DBImpl.compact_step
      rw [hbg]
      dsimp only
      rw [h.tablesHold.compact_level0_eq]
    rw [DBImpl.run_compact, hmerge]
    rfl
  obtain ⟨files, hinstall, hperm, hsorted⟩ := htable.install edit h.nodup rfl rfl
  obtain ⟨hout, hrest⟩ := htable.not_mem_inputs h.nodup
  have hkept : ∀ m, m ∉ result.inputs.map Prod.snd → (db.run_compact 3 d).2.tables m = d₁.tables m := by
    intro m hm
    rw [hrun]
    dsimp only
    rw [Disk.apply_all_append, Disk.apply_remove_tables, if_neg hm]
    rfl
  rw [compactedFiles, hmerged, if_neg hne] at hperm
  refine ⟨files, by rw [hrun]; exact hinstall, hperm, hsorted (hmerged ▸ hne), ?_, fun f hf => ?_⟩
  · rw [hkept n hout, htables, if_pos rfl]
  · rw [hkept _ (hrest f hf), hsame _ (mem_live_of_mem_files1 (mem_level1_rest.mp hf).1)]

/-- A level with disjoint ranges that is sorted by its smallest keys is sorted by its ranges. -/
theorem pairwise_rangeBefore (htables : ∀ f ∈ files, TableHolds d f)
    (hsorted : files.Pairwise smallest_le) (hdisjoint : files.Pairwise RangesDisjoint) :
    files.Pairwise RangeBefore := by
  refine (hsorted.and hdisjoint).imp_of_mem fun {f g} _ hg hboth => ?_
  obtain ⟨hle, hlt | hlt⟩ := hboth
  · exact hlt
  · exact absurd (hlt.trans_le hle) (not_lt.mpr (htables g hg).smallest_le_largest)

/-- Installing a merge: the output is intact, and level 1 is again in the order of its ranges. -/
theorem WellFormed.compacted (h : WellFormed d v) (hne : mergedEntries d v ≠ []) {options : Options}
    (hout : d'.tables n = some (.finished (mergedEntries d v)))
    (hrest : ∀ f ∈ level1_rest v, d'.tables f.number = d.tables f.number)
    (hperm : (level1_rest v ++ [SSTableBuilder.build options (mergedEntries d v) n]).Perm files)
    (hsorted : files.Pairwise smallest_le) : WellFormed d' { files0 := [], files1 := files } := by
  obtain ⟨hpair, hsound, -⟩ := h.tablesHold.merged_spec
  set out := SSTableBuilder.build options (mergedEntries d v) n with houtdef
  have hinput : ∀ f ∈ v.files0 ++ level1_inputs v, Intact d f := by
    intro f hf
    refine h.intact f ?_
    rcases mem_append.mp hf with hf | hf
    · exact mem_append_left _ hf
    · exact mem_append_right _ (mem_level1_inputs.mp hf).1
  have houtIntact : Intact d' out := by
    refine intact_build (versioned.ordered_of_pairwise_key_lt hpair) hne (fun e he => ?_) hout
    obtain ⟨⟨f, hf, hmem⟩, -⟩ := hsound e he
    exact (hinput f hf).stamped e hmem
  have hintact : ∀ f ∈ files, Intact d' f := by
    intro f hf
    rcases mem_append.mp (hperm.mem_iff.mpr hf) with hf | hf
    · exact (h.intact f (mem_append_right _ (mem_level1_rest.mp hf).1)).congr (hrest f hf)
    · rw [mem_singleton.mp hf]
      exact houtIntact
  have hdisjoint : (level1_rest v ++ [out]).Pairwise RangesDisjoint := by
    refine pairwise_append.mpr
      ⟨h.tablesHold.disjoint.sublist level1_rest_sublist, pairwise_singleton _ _, fun f hf g hg => ?_⟩
    rw [mem_singleton.mp hg]
    have hentries : ∀ e ∈ d'.entries out, e ∈ mergedEntries d v := by
      intro e he
      have hfinished := houtIntact.finished.symm.trans hout
      simp only [Option.some.injEq, TableFile.finished.injEq] at hfinished
      exact hfinished ▸ he
    refine h.tablesHold.rest_disjoint_output hf (hentries _ (head_mem houtIntact.ne_nil)) ?_
      (hentries _ (getLast_mem houtIntact.ne_nil)) ?_
    · rw [houtIntact.smallest, extract_user_key_encode]
    · rw [houtIntact.largest, extract_user_key_encode]
  refine ⟨hintact, ?_, List.Pairwise.nil, by simp⟩
  exact pairwise_rangeBefore (fun f hf => (hintact f hf).tableHolds) hsorted
    ((hperm.pairwise_iff RangesDisjoint.symm).mp hdisjoint)

section TwoFlushes

end TwoFlushes

end Compact

end lsmkv
