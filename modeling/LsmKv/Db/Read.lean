import LsmKv.Db.Invariant

namespace lsmkv

open List Option

/-- A map lookup as the store reports it. -/
def readStatus : Option Bytes → Except Status Bytes
  | some value => .ok value
  | none => .error (.NotFound "")

theorem Represents.eq_nil {h : List Write} (hrep : Represents [] h) : h = [] := by
  by_contra hne
  obtain ⟨w, hw⟩ := exists_mem_of_ne_nil _ hne
  obtain ⟨w', hlast, hkey⟩ := history.exists_isLast Write.key ⟨w, hw, rfl⟩
  exact absurd ((hrep w.key).complete w' hlast hkey) not_mem_nil

theorem MemTable.get_eq_latest {m : MemTable} {h : List Write} {k : Bytes} {snapshot : Nat}
    (hrep : Represents m.table h) (hseq : Sequenced h) (hbound : ∀ w ∈ h, w.seq ≤ snapshot)
    (hsnap : snapshot < 2 ^ 56) : m.get k snapshot = history.latest (updates h) k :=
  check_entry_seek m.ordered (hrep k) hseq hbound hsnap

namespace DBImpl

variable {db : DBImpl} {d : Disk} {l : Layout}

theorem flushed_eq_true : db.flushed = true ↔ db.bg = .flush_clear := by
  unfold flushed
  cases db.bg <;> simp

/-- Once flushed, the immutable memtable holds nothing or the newest piece of level 0. -/
theorem Holds.flushed_cases (h : db.Holds d l) (hflushed : db.flushed = true) :
    l.imm = [] ∨ ∃ front, l.pieces = front ++ [l.imm] := by
  have hbg := h.bg
  rw [BgHolds, flushed_eq_true.mp hflushed] at hbg
  obtain ⟨imm, himm, hnil | ⟨front, -, -, hpieces, -⟩⟩ := hbg
  · exact .inl (hnil ▸ h.imm_some imm himm).eq_nil
  · exact .inr ⟨front, hpieces⟩

/-- The immutable memtable's run lies in the history, flushed or not. -/
theorem Holds.imm_sublist (h : db.Holds d l) : l.imm.Sublist (db.history l) := by
  unfold history
  cases hflushed : db.flushed with
  | false =>
    rw [if_neg (by simp)]
    exact (sublist_append_right _ _).trans (sublist_append_left _ _)
  | true =>
    rw [if_pos rfl, append_nil]
    refine List.Sublist.trans ?_ (sublist_append_left _ _)
    rcases h.flushed_cases hflushed with hnil | ⟨front, hpieces⟩
    · rw [hnil]
      exact nil_sublist _
    · rw [Layout.tables, hpieces]
      simp only [flatten_append, flatten_cons, flatten_nil, append_nil, ← append_assoc]
      exact sublist_append_right _ _

theorem history_mem_sublist : l.mem.Sublist (db.history l) := sublist_append_right _ _

theorem history_tables_sublist : l.tables.Sublist (db.history l) :=
  (sublist_append_left _ _).trans (sublist_append_left _ _)

/-- The layers read from the newest to the oldest read the whole history. -/
theorem Holds.latest_layers (h : db.Holds d l) (k : Bytes) :
    ((history.latest (updates l.mem) k).or (history.latest (updates l.imm) k)).or
        (history.latest (updates l.tables) k) = history.latest (updates (db.history l)) k := by
  rw [DBImpl.history]
  cases hflushed : db.flushed with
  | false => simp only [Bool.false_eq_true, if_false, updates_append, history.latest_append, Option.or_assoc]
  | true =>
    simp only [if_true, append_nil, updates_append, history.latest_append, Option.or_assoc]
    rcases h.flushed_cases hflushed with hnil | ⟨front, hpieces⟩
    · simp [hnil]
    · -- level 0 repeats what the immutable memtable says
      have hrepeat : (history.latest (updates l.imm) k).or (history.latest (updates l.tables) k) =
          history.latest (updates l.tables) k := by
        simp only [Layout.tables, hpieces, flatten_append, flatten_cons, flatten_nil,
          append_nil, updates_append, history.latest_append, ← Option.or_assoc, Option.or_self]
      rw [hrepeat]

/-- `Get` reads the last write of the key. -/
theorem Holds.get_eq (h : db.Holds d l) (hlast : db.versions.last_sequence < 2 ^ 56) (k : Bytes) :
    db.get d k = readStatus (history.read (updates (db.history l)) k) := by
  have hmem : db.mem.get k db.versions.last_sequence = history.latest (updates l.mem) k :=
    MemTable.get_eq_latest h.mem (h.sequenced.sublist history_mem_sublist)
      (fun w hw => h.bound w (history_mem_sublist.subset hw)) hlast
  have himm : (db.imm.bind fun imm => imm.get k db.versions.last_sequence) =
      history.latest (updates l.imm) k := by
    cases hcase : db.imm with
    | none => simp [h.imm_none hcase]
    | some imm =>
      exact MemTable.get_eq_latest (h.imm_some imm hcase) (h.sequenced.sublist h.imm_sublist)
        (fun w hw => h.bound w (h.imm_sublist.subset hw)) hlast
  have htables : Version.get_loop d db.dbname k (make_lookup_key k db.versions.last_sequence)
      (db.versions.current.files0.reverse ++ db.versions.current.files1.reverse) =
      .ok (history.latest (updates l.tables) k) :=
    h.levels.get_loop (h.sequenced.sublist history_tables_sublist)
      (fun w hw => h.bound w (history_tables_sublist.subset hw)) hlast
  unfold get
  simp only [ne_eq, not_true_eq_false, if_false, hmem, himm, history.read, ← h.latest_layers k]
  cases (history.latest (updates l.mem) k).or (history.latest (updates l.imm) k) with
  | some found => cases found <;> rfl
  | none =>
    simp only [Version.get, htables, none_or, bind, Except.bind]
    cases history.latest (updates l.tables) k with
    | none => rfl
    | some found => cases found <;> rfl

end DBImpl

end lsmkv
