import LsmKv.Db.Read

namespace lsmkv

open List

/-- For each user key, the entries of the first run are newer than those of the second. -/
def NewerThan (a b : List (InternalKey × Bytes)) : Prop :=
  ∀ x ∈ a, ∀ y ∈ b, x.1.key = y.1.key → InternalKey.sequence y.1 < InternalKey.sequence x.1

/-- The layers in the order in which `Get` asks them. Only the immutable memtable
    may be a copy, and only of the newest file of level 0. -/
structure RecencyOrdered (db : DBImpl) (d : Disk) : Prop where
  mem_imm : ∀ imm, db.imm = some imm → NewerThan db.mem.table imm.table
  mem_files : ∀ f ∈ db.versions.current.files0 ++ db.versions.current.files1,
    NewerThan db.mem.table (d.entries f)
  imm_files0 : ∀ imm, db.imm = some imm → ∀ f ∈ db.versions.current.files0,
    NewerThan imm.table (d.entries f) ∨
      db.versions.current.files0.getLast? = some f ∧ d.entries f = imm.table
  imm_files1 : ∀ imm, db.imm = some imm → ∀ f ∈ db.versions.current.files1,
    NewerThan imm.table (d.entries f)
  files0 : db.versions.current.files0.Pairwise fun f g => NewerThan (d.entries g) (d.entries f)
  files0_files1 : ∀ f ∈ db.versions.current.files0, ∀ g ∈ db.versions.current.files1,
    NewerThan (d.entries f) (d.entries g)

/-- Every entry records a write of the run. -/
def RecordedIn (entries : List (InternalKey × Bytes)) (h : List Write) : Prop :=
  ∀ e ∈ entries, ∃ w ∈ h, e = w.entry

variable {entries : List (InternalKey × Bytes)} {h : List Write}

theorem Represents.recordedIn
    (hrep : Represents entries h) : RecordedIn entries h := fun e he => (hrep e.1.key).sound e he rfl

theorem RecordedIn.mono {h' : List Write} (hrec : RecordedIn entries h) (hsub : h ⊆ h') : RecordedIn entries h' := by
  intro e he
  obtain ⟨w, hw, heq⟩ := hrec e he
  exact ⟨w, hsub hw, heq⟩

/-- Entries of a later run are newer than those of an earlier one. -/
theorem newerThan_of_recordedIn {a b : List (InternalKey × Bytes)} {h' : List Write}
    (hseq : Sequenced (h ++ h')) (hbound : ∀ w ∈ h ++ h', w.seq < 2 ^ 56)
    (ha : RecordedIn a h') (hb : RecordedIn b h) : NewerThan a b := by
  intro x hx y hy _
  obtain ⟨w', hw', rfl⟩ := ha x hx
  obtain ⟨w, hw, rfl⟩ := hb y hy
  have hsequence : ∀ u ∈ h ++ h', InternalKey.sequence u.entry.1 = u.seq := fun u hu =>
    sequence_from_pack_pack (hbound u hu) u.type
  rw [hsequence w (mem_append_left _ hw), hsequence w' (mem_append_right _ hw')]
  exact (pairwise_append.mp hseq).2.2 w hw w' hw'

theorem FilesHold.newerThan {d : Disk} {files : List FileMetaData} {pieces : List (List Write)}
    (h : FilesHold d files pieces) (hseq : Sequenced pieces.flatten)
    (hbound : ∀ w ∈ pieces.flatten, w.seq < 2 ^ 56) :
    files.Pairwise fun f g => NewerThan (d.entries g) (d.entries f) := by
  induction h with
  | nil => exact List.Pairwise.nil
  | cons hhead htail ih =>
    rw [flatten_cons] at hseq hbound
    obtain ⟨-, hnewer⟩ := hseq.of_append
    refine pairwise_cons.mpr ⟨?_, ih hnewer fun w hw => hbound w (mem_append_right _ hw)⟩
    intro g hg
    exact newerThan_of_recordedIn hseq hbound (fun e he => FilesHold.sound htail hg he) hhead.2.recordedIn

namespace DBImpl

variable {db : DBImpl} {d : Disk} {l : Layout}

theorem Holds.mem_newerThan (h : db.Holds d l) (hlast : db.versions.last_sequence < 2 ^ 56)
    {entries : List (InternalKey × Bytes)}
    (hrec : RecordedIn entries (l.tables ++ if db.flushed then [] else l.imm)) :
    NewerThan db.mem.table entries :=
  newerThan_of_recordedIn h.sequenced (fun w hw => (h.bound w hw).trans_lt hlast) h.mem.recordedIn hrec

/-- The recency order follows from how the layers share the history. -/
theorem Holds.recencyOrdered (h : db.Holds d l) (hlast : db.versions.last_sequence < 2 ^ 56) :
    RecencyOrdered db d := by
  have hbound : ∀ w ∈ db.history l, w.seq < 2 ^ 56 := fun w hw => (h.bound w hw).trans_lt hlast
  have htables : Sequenced l.tables := h.sequenced.sublist history_tables_sublist
  have htablesBound : ∀ w ∈ l.tables, w.seq < 2 ^ 56 := fun w hw =>
    hbound w (history_tables_sublist.subset hw)
  have hfiles : ∀ f ∈ db.versions.current.files0 ++ db.versions.current.files1,
      RecordedIn (d.entries f) l.tables := fun f hf e he => h.levels.sound hf he
  have hfiles1 : ∀ f ∈ db.versions.current.files1, RecordedIn (d.entries f) l.older := by
    intro f hf e he
    exact (h.levels.level1 e.1.key).sound e (mem_flatMap.mpr ⟨f, hf, he⟩) rfl
  have h01 : ∀ f ∈ db.versions.current.files0, ∀ g ∈ db.versions.current.files1,
      NewerThan (d.entries f) (d.entries g) := fun f hf g hg =>
    newerThan_of_recordedIn htables htablesBound (fun e he => h.levels.level0.sound hf he) (hfiles1 g hg)
  have h0 := h.levels.level0.newerThan htables.of_append.2
    fun w hw => htablesBound w (mem_append_right _ hw)
  -- the immutable memtable, before and after its table is installed
  have himm : ∀ imm, db.imm = some imm →
      (∀ f ∈ db.versions.current.files0 ++ db.versions.current.files1, NewerThan imm.table (d.entries f)) ∨
        ∃ files f, db.versions.current.files0 = files ++ [f] ∧ d.entries f = imm.table := by
    intro imm himm
    cases hflushed : db.flushed with
    | false =>
      refine .inl fun f hf => ?_
      have hseq := h.sequenced.of_append.1
      rw [hflushed, if_neg (by simp)] at hseq
      refine newerThan_of_recordedIn hseq ?_ (h.imm_some imm himm).recordedIn (hfiles f hf)
      intro w hw
      refine hbound w ?_
      rw [DBImpl.history, hflushed, if_neg (by simp)]
      exact mem_append_left _ hw
    | true =>
      have hbg := h.bg
      rw [BgHolds, flushed_eq_true.mp hflushed] at hbg
      obtain ⟨imm', himm', hcases⟩ := hbg
      obtain rfl : imm' = imm := Option.some.inj (himm'.symm.trans himm)
      rcases hcases with hnil | ⟨-, files, f, -, hlast0, hcopy⟩
      · refine .inl fun f _ x hx => ?_
        rw [hnil] at hx
        cases hx
      · exact .inr ⟨files, f, hlast0, hcopy⟩
  refine ⟨?_, ?_, ?_, ?_, h0, h01⟩
  · intro imm hcase
    refine h.mem_newerThan hlast ((h.imm_some imm hcase).recordedIn.mono ?_)
    cases hflushed : db.flushed with
    | false => exact subset_append_right _ _
    | true =>
      rcases h.flushed_cases hflushed with hnil | ⟨front, hpieces⟩
      · simp [hnil]
      · intro w hw
        simp only [if_true, append_nil, Layout.tables, hpieces]
        simp [hw]
  · exact fun f hf => h.mem_newerThan hlast ((hfiles f hf).mono (subset_append_left _ _))
  · intro imm hcase f hf
    rcases himm imm hcase with hnewer | ⟨files, g, hfiles0, hcopy⟩
    · exact .inl (hnewer f (mem_append_left _ hf))
    · rw [hfiles0] at hf h0 ⊢
      rcases mem_append.mp hf with hf | hf
      · refine .inl ?_
        rw [← hcopy]
        exact (pairwise_append.mp h0).2.2 f hf g mem_cons_self
      · rw [mem_singleton.mp hf]
        exact .inr ⟨by simp, hcopy⟩
  · intro imm hcase f hf
    rcases himm imm hcase with hnewer | ⟨files, g, hfiles0, hcopy⟩
    · exact hnewer f (mem_append_right _ hf)
    · rw [← hcopy]
      exact h01 g (by simp [hfiles0]) f hf

end DBImpl

end lsmkv
