import LsmKv.Version

namespace lsmkv

open List history

/-- The entries of a table file, none when it is missing or unfinished. -/
def Disk.entries (d : Disk) (f : FileMetaData) : List (InternalKey × Bytes) :=
  match d.tables f.number with
  | some (.finished es) => es
  | _ => []

/-- A finished table whose entries are in order and within the bounds that its
    metadata gives. -/
structure TableHolds (d : Disk) (f : FileMetaData) : Prop where
  finished : d.tables f.number = some (.finished (d.entries f))
  ordered : versioned.Ordered (d.entries f)
  ne_nil : d.entries f ≠ []
  lower : ∀ e ∈ d.entries f, extract_user_key f.smallest ≤ e.1.key
  upper : ∀ e ∈ d.entries f, e.1.key ≤ extract_user_key f.largest

/-- The user-key ranges of two files have no key in common. -/
def RangesDisjoint (f g : FileMetaData) : Prop :=
  extract_user_key f.largest < extract_user_key g.smallest ∨
    extract_user_key g.largest < extract_user_key f.smallest

variable {f : FileMetaData} {d d' : Disk} {files : List FileMetaData} {pieces : List (List Write)} {v : Version}

theorem RangesDisjoint.symm {g : FileMetaData} (h : RangesDisjoint f g) : RangesDisjoint g f :=
  Or.symm h

instance : Std.Symm RangesDisjoint := ⟨fun _ _ => RangesDisjoint.symm⟩

theorem TableHolds.smallest_le_largest (h : TableHolds d f) :
    extract_user_key f.smallest ≤ extract_user_key f.largest := by
  obtain ⟨e, he⟩ := exists_mem_of_ne_nil _ h.ne_nil
  exact (h.lower e he).trans (h.upper e he)

theorem TableHolds.open_file (h : TableHolds d f) (dbname : String) :
    SSTable.open_file d dbname f.number = .ok (d.entries f) := by
  rw [SSTable.open_file, h.finished]

theorem Disk.entries_congr (h : d'.tables f.number = d.tables f.number) : d'.entries f = d.entries f := by
  rw [Disk.entries, Disk.entries, h]

theorem Disk.entries_finished {es : List (InternalKey × Bytes)}
    (h : d.tables f.number = some (.finished es)) : d.entries f = es := by
  rw [Disk.entries, h]

theorem TableHolds.congr (hf : TableHolds d f) (h : d'.tables f.number = d.tables f.number) : TableHolds d' f := by
  have hentries := Disk.entries_congr h
  refine ⟨?_, ?_, ?_, ?_, ?_⟩
  · rw [h, hentries, hf.finished]
  · rw [hentries]; exact hf.ordered
  · rw [hentries]; exact hf.ne_nil
  · rw [hentries]; exact hf.lower
  · rw [hentries]; exact hf.upper

/-- Files in flush order hold consecutive pieces of a run, one piece a file. -/
def FilesHold (d : Disk) (files : List FileMetaData) (pieces : List (List Write)) : Prop :=
  List.Forall₂ (fun f piece => TableHolds d f ∧ Represents (d.entries f) piece) files pieces

theorem FilesHold.tableHolds (h : FilesHold d files pieces) : ∀ f ∈ files, TableHolds d f := by
  induction h with
  | nil => simp
  | cons hhead _ ih => exact forall_mem_cons.mpr ⟨hhead.1, ih⟩

theorem FilesHold.congr (h : FilesHold d files pieces) (hsame : ∀ f ∈ files, d'.tables f.number = d.tables f.number) :
    FilesHold d' files pieces := by
  induction h with
  | nil => exact List.Forall₂.nil
  | cons hhead _ ih =>
    obtain ⟨hf, htail⟩ := forall_mem_cons.mp hsame
    refine List.Forall₂.cons ⟨hhead.1.congr hf, ?_⟩ (ih htail)
    rw [Disk.entries_congr hf]
    exact hhead.2

/-- The levels of a version hold two consecutive runs of writes: level 1 the older
    one, spread over files with disjoint ranges, and level 0 the newer one, one
    consecutive piece a file. -/
structure LevelsHold (d : Disk) (v : Version) (older : List Write) (pieces : List (List Write)) : Prop where
  level0 : FilesHold d v.files0 pieces
  tables1 : ∀ f ∈ v.files1, TableHolds d f
  level1 : Represents (v.files1.flatMap d.entries) older
  disjoint : v.files1.Pairwise RangesDisjoint
  nodup : v.live.Nodup

/-- The tables of a version alone: all are sound, and level 1 has disjoint ranges. -/
structure TablesHold (d : Disk) (v : Version) : Prop where
  tables0 : ∀ f ∈ v.files0, TableHolds d f
  tables1 : ∀ f ∈ v.files1, TableHolds d f
  disjoint : v.files1.Pairwise RangesDisjoint

theorem LevelsHold.tablesHold {older : List Write} (h : LevelsHold d v older pieces) : TablesHold d v :=
  ⟨h.level0.tableHolds, h.tables1, h.disjoint⟩

theorem mem_live_of_mem_files0 (hf : f ∈ v.files0) : f.number ∈ v.live :=
  mem_map_of_mem (mem_append_left _ hf)

theorem mem_live_of_mem_files1 (hf : f ∈ v.files1) : f.number ∈ v.live :=
  mem_map_of_mem (mem_append_right _ hf)

/-- Only the live tables matter. -/
theorem LevelsHold.congr {older : List Write}
    (h : LevelsHold d v older pieces) (hsame : ∀ n ∈ v.live, d'.tables n = d.tables n) :
    LevelsHold d' v older pieces := by
  have h0 : ∀ f ∈ v.files0, d'.tables f.number = d.tables f.number := fun f hf =>
    hsame _ (mem_live_of_mem_files0 hf)
  have h1 : ∀ f ∈ v.files1, d'.tables f.number = d.tables f.number := fun f hf =>
    hsame _ (mem_live_of_mem_files1 hf)
  refine ⟨h.level0.congr h0, fun f hf => (h.tables1 f hf).congr (h1 f hf), ?_, h.disjoint, h.nodup⟩
  have hflat : v.files1.flatMap d'.entries = v.files1.flatMap d.entries :=
    flatMap_congr fun f hf => Disk.entries_congr (h1 f hf)
  rw [hflat]
  exact h.level1

section Get

variable {d : Disk} {dbname : String} {k : Bytes} {snapshot : Nat}

theorem SSTable.get_lookup (entries : List (InternalKey × Bytes)) (hsnap : snapshot < 2 ^ 56) :
    SSTable.get entries (make_lookup_key k snapshot) =
      check_entry k snapshot (versioned.seek entries (make_lookup_key k snapshot)) := by
  have hseq : InternalKey.sequence (make_lookup_key k snapshot) = snapshot :=
    sequence_from_pack_pack hsnap .kTypeValue
  rw [SSTable.get, hseq]
  rfl

variable {h : List Write} {files : List FileMetaData} {pieces : List (List Write)}

/-- Probing one file asks it for the last write of the key and goes on to the
    remaining files when it has none. A file passed over has none. -/
theorem Version.get_loop_cons {f : FileMetaData} {fs : List FileMetaData}
    (hf : TableHolds d f) (hrep : RepresentsAt (d.entries f) h k) (hseq : Sequenced h)
    (hbound : ∀ w ∈ h, w.seq ≤ snapshot) (hsnap : snapshot < 2 ^ 56) :
    Version.get_loop d dbname k (make_lookup_key k snapshot) (f :: fs) =
      match latest (updates h) k with
      | some found => .ok (some found)
      | none => Version.get_loop d dbname k (make_lookup_key k snapshot) fs := by
  rw [Version.get_loop]
  by_cases hlow : k < extract_user_key f.smallest
  · have hnone : latest (updates h) k = none :=
      hrep.latest_eq_none fun e he hek => absurd (hf.lower e he) (not_le.mpr (hek ▸ hlow))
    rw [if_pos hlow, hnone]
  · by_cases hhigh : extract_user_key f.largest < k
    · have hnone : latest (updates h) k = none :=
        hrep.latest_eq_none fun e he hek => absurd (hf.upper e he) (not_le.mpr (hek ▸ hhigh))
      rw [if_neg hlow, if_pos hhigh, hnone]
    · rw [if_neg hlow, if_neg hhigh, hf.open_file]
      have hget : SSTable.get (d.entries f) (make_lookup_key k snapshot) = latest (updates h) k :=
        (SSTable.get_lookup _ hsnap).trans (check_entry_seek hf.ordered hrep hseq hbound hsnap)
      cases hlatest : latest (updates h) k <;> simp only [bind, Except.bind, hget, hlatest]

theorem Sequenced.of_append {h' : List Write} (hseq : Sequenced (h ++ h')) : Sequenced h ∧ Sequenced h' :=
  ⟨(pairwise_append.mp hseq).1, (pairwise_append.mp hseq).2.1⟩

/-- Level 0 is asked from the newest file on, and answers for all of its pieces. -/
theorem Version.get_loop_level0 {rest : List FileMetaData}
    (hfiles : FilesHold d files pieces) (hseq : Sequenced pieces.flatten)
    (hbound : ∀ w ∈ pieces.flatten, w.seq ≤ snapshot) (hsnap : snapshot < 2 ^ 56)
    {found : Option (Option Bytes)}
    (hrest : Version.get_loop d dbname k (make_lookup_key k snapshot) rest = .ok found) :
    Version.get_loop d dbname k (make_lookup_key k snapshot) (files.reverse ++ rest) =
      .ok ((latest (updates pieces.flatten) k).or found) := by
  induction hfiles generalizing rest found with
  | nil => simpa using hrest
  | @cons f piece files pieces hhead _ ih =>
    rw [flatten_cons] at hseq hbound
    obtain ⟨hpiece, hnewer⟩ := hseq.of_append
    have hloop : Version.get_loop d dbname k (make_lookup_key k snapshot) (f :: rest) =
        .ok ((latest (updates piece) k).or found) := by
      rw [Version.get_loop_cons hhead.1 (hhead.2 k) hpiece
        (fun w hw => hbound w (mem_append_left _ hw)) hsnap, hrest]
      cases latest (updates piece) k <;> rfl
    have := ih hnewer (fun w hw => hbound w (mem_append_right _ hw)) hloop
    simp only [reverse_cons, append_assoc, singleton_append, flatten_cons,
      updates_append, latest_append, Option.or_assoc]
    exact this

/-- Level 1 is asked in any order, since at most one file can have the key. -/
theorem Version.get_loop_level1 (htables : ∀ f ∈ files, TableHolds d f) (hdisjoint : files.Pairwise RangesDisjoint)
    (hrep : RepresentsAt (files.flatMap d.entries) h k) (hseq : Sequenced h)
    (hbound : ∀ w ∈ h, w.seq ≤ snapshot) (hsnap : snapshot < 2 ^ 56) :
    Version.get_loop d dbname k (make_lookup_key k snapshot) files = .ok (latest (updates h) k) := by
  induction files with
  | nil =>
    rw [hrep.latest_eq_none (by simp)]
    rfl
  | cons f files ih =>
    obtain ⟨hf, hfiles⟩ := forall_mem_cons.mp htables
    obtain ⟨hothers, hpair⟩ := pairwise_cons.mp hdisjoint
    by_cases hhas : ∃ e ∈ d.entries f, e.1.key = k
    · -- the key lies in the range of this file, hence in no other one
      obtain ⟨e, he, rfl⟩ := hhas
      have hnone : ∀ e' ∈ files.flatMap d.entries, e'.1.key ≠ e.1.key := by
        intro e' he' heq
        obtain ⟨g, hg, he'⟩ := mem_flatMap.mp he'
        rcases hothers g hg with hlt | hlt
        · exact absurd ((hf.upper e he).trans_lt hlt) (not_lt.mpr (heq ▸ (hfiles g hg).lower e' he'))
        · exact absurd (((hfiles g hg).upper e' he').trans_lt hlt) (not_lt.mpr (heq ▸ hf.lower e he))
      have hrepf : RepresentsAt (d.entries f) h e.1.key := by
        refine ⟨fun x hx => hrep.sound x (mem_append_left _ hx), fun w hw hwk => ?_⟩
        rcases mem_append.mp (hrep.complete w hw hwk) with hmem | hmem
        · exact hmem
        · exact absurd hwk (hnone _ hmem)
      rw [Version.get_loop_cons hf hrepf hseq hbound hsnap]
      obtain ⟨w, hw, rfl⟩ := hrep.sound e (mem_append_left _ he) rfl
      obtain ⟨w', hlast, hkey⟩ := exists_isLast Write.key ⟨w, hw, rfl⟩
      have hlatest : latest (updates h) w.entry.1.key = some w'.result := by
        rw [Write.entry_key, ← hkey]
        exact latest_of_isLast hlast
      rw [hlatest]
    · push Not at hhas
      have hrepf : RepresentsAt (d.entries f) [] k :=
        ⟨fun e he hek => absurd hek (hhas e he), fun w hw => absurd hw.mem not_mem_nil⟩
      have hrest : RepresentsAt (files.flatMap d.entries) h k := by
        refine ⟨fun x hx => hrep.sound x (mem_append_right _ hx), fun w hw hwk => ?_⟩
        rcases mem_append.mp (hrep.complete w hw hwk) with hmem | hmem
        · exact absurd hwk (hhas _ hmem)
        · exact hmem
      rw [Version.get_loop_cons hf hrepf List.Pairwise.nil (by simp) hsnap]
      exact ih hfiles hpair hrest

/-- What the table levels read is the last write over both levels. -/
theorem LevelsHold.get_loop {v : Version} {older : List Write}
    (h : LevelsHold d v older pieces) (hseq : Sequenced (older ++ pieces.flatten))
    (hbound : ∀ w ∈ older ++ pieces.flatten, w.seq ≤ snapshot) (hsnap : snapshot < 2 ^ 56) :
    Version.get_loop d dbname k (make_lookup_key k snapshot) (v.files0.reverse ++ v.files1.reverse) =
      .ok (latest (updates (older ++ pieces.flatten)) k) := by
  obtain ⟨holder, hpieces⟩ := hseq.of_append
  have hrep : RepresentsAt (v.files1.reverse.flatMap d.entries) older k := by
    refine ⟨fun e he => (h.level1 k).sound e ?_, fun w hw hwk => ?_⟩
    · simpa using he
    · simpa using (h.level1 k).complete w hw hwk
  have h1 : Version.get_loop d dbname k (make_lookup_key k snapshot) v.files1.reverse =
      .ok (latest (updates older) k) :=
    Version.get_loop_level1 (fun f hf => h.tables1 f (mem_reverse.mp hf))
      (pairwise_reverse.mpr (h.disjoint.imp RangesDisjoint.symm)) hrep holder
      (fun w hw => hbound w (mem_append_left _ hw)) hsnap
  rw [Version.get_loop_level0 h.level0 hpieces (fun w hw => hbound w (mem_append_right _ hw)) hsnap h1,
    updates_append, latest_append]

end Get

end lsmkv
