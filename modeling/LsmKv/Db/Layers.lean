import LsmKv.Db.CompactReads
import LsmKv.Db.Session

namespace lsmkv

open List Option

/-- At most one entry has an internal key. -/
def Functional (entries : List (InternalKey × Bytes)) : Prop :=
  ∀ x ∈ entries, ∀ y ∈ entries, x.1 = y.1 → x = y

/-- The newest entry of a key that a snapshot sees. -/
structure NewestVisible (entries : List (InternalKey × Bytes)) (snapshot : Nat) (k : Bytes)
    (e : InternalKey × Bytes) : Prop where
  mem : e ∈ entries
  key_eq : e.1.key = k
  sequence_le : InternalKey.sequence e.1 ≤ snapshot
  newest : ∀ x ∈ entries, x.1.key = k → InternalKey.sequence x.1 ≤ snapshot → x.1.stamp ≤ e.1.stamp

variable {entries entries' : List (InternalKey × Bytes)} {snapshot : Nat} {e : InternalKey × Bytes}

theorem NewestVisible.congr {k : Bytes}
    (hsame : ∀ e, e.1.key = k → InternalKey.sequence e.1 ≤ snapshot → (e ∈ entries' ↔ e ∈ entries))
    (h : NewestVisible entries snapshot k e) : NewestVisible entries' snapshot k e :=
  ⟨(hsame e h.key_eq h.sequence_le).mpr h.mem, h.key_eq, h.sequence_le,
    fun x hx hkey hle => h.newest x ((hsame x hkey hle).mp hx) hkey hle⟩

theorem NewestVisible.unique {k : Bytes}
    (hfun : Functional entries) {e' : InternalKey × Bytes} (h : NewestVisible entries snapshot k e)
    (h' : NewestVisible entries snapshot k e') : e = e' := by
  refine hfun e h.mem e' h'.mem ?_
  have hstamp := le_antisymm (h'.newest e h.mem h.key_eq h.sequence_le) (h.newest e' h'.mem h'.key_eq h'.sequence_le)
  obtain ⟨⟨key, stamp⟩, value⟩ := e
  obtain ⟨⟨key', stamp'⟩, value'⟩ := e'
  have hkey : key = key' := h.key_eq.trans h'.key_eq.symm
  have hstamp : stamp = stamp' := hstamp
  rw [hkey, hstamp]

/-- What a probe of one layer finds. -/
def probe (k : Bytes) (snapshot : Nat) (entries : List (InternalKey × Bytes)) : Option (Option Bytes) :=
  check_entry k snapshot (versioned.seek entries (make_lookup_key k snapshot))

section Probe

variable {k : Bytes} {snapshot : Nat}

theorem Stamped.sequence_le {e : InternalKey × Bytes} (h : Stamped e)
    (hle : e.1.stamp ≤ (make_lookup_key k snapshot).stamp) : InternalKey.sequence e.1 ≤ snapshot := by
  obtain ⟨seq, t, hseq, hstamp⟩ := h
  have hlookup : (make_lookup_key k snapshot).stamp = pack_sequence_and_type snapshot .kTypeValue := rfl
  rw [hstamp, hlookup] at hle
  rw [InternalKey.sequence, hstamp, sequence_from_pack_pack hseq]
  by_contra hgt
  exact absurd (pack_lt_pack (not_le.mp hgt) hseq .kTypeValue t) (not_lt.mpr hle)

/-- A probe of one layer finds the newest entry of the key that the snapshot sees, if there is one. -/
theorem probe_spec {entries : List (InternalKey × Bytes)} (hordered : versioned.Ordered entries)
    (hstamped : ∀ e ∈ entries, Stamped e) (hsnap : snapshot < 2 ^ 56) :
    (∃ e, NewestVisible entries snapshot k e ∧ probe k snapshot entries = some (entryResult e)) ∨
      (∀ e ∈ entries, e.1.key = k → snapshot < InternalKey.sequence e.1) ∧ probe k snapshot entries = none := by
  unfold probe
  cases hseek : versioned.seek entries (make_lookup_key k snapshot) with
  | none =>
    refine .inr ⟨fun e he hkey => ?_, rfl⟩
    have hpast := List.find?_eq_none.mp hseek e he
    simp only [decide_not, Bool.not_eq_eq_eq_not, Bool.not_true, decide_eq_false_iff_not, not_not] at hpast
    rcases hpast with hlt | ⟨-, hlt⟩
    · exact absurd hkey hlt.ne
    · by_contra hle
      exact absurd ((hstamped e he).stamp_le (not_lt.mp hle) hsnap) (not_le.mpr hlt)
  | some e =>
    have hmem : e ∈ entries := mem_of_find?_eq_some hseek
    obtain ⟨hnot, before, after, hsplit, hbefore⟩ := List.find?_eq_some_iff_append.mp hseek
    simp only [decide_not, Bool.not_eq_eq_eq_not, Bool.not_true, decide_eq_false_iff_not] at hnot
    have hpast : ∀ x ∈ before, x.1.Precedes (make_lookup_key k snapshot) := fun x hx => by
      simpa using hbefore x hx
    have hhidden : ∀ x ∈ before, x.1.key = k → snapshot < InternalKey.sequence x.1 := by
      intro x hx hkey
      rcases hpast x hx with hlt | ⟨-, hlt⟩
      · exact absurd hkey hlt.ne
      · by_contra hle
        have hx : x ∈ entries := by simp [hsplit, hx]
        exact absurd ((hstamped x hx).stamp_le (not_lt.mp hle) hsnap) (not_le.mpr hlt)
    rw [hsplit] at hordered
    have hafter := (pairwise_cons.mp (pairwise_append.mp hordered).2.1).1
    by_cases hkey : e.1.key = k
    · have hle : InternalKey.sequence e.1 ≤ snapshot := by
        refine (hstamped e hmem).sequence_le (not_lt.mp fun hlt => hnot (.inr ⟨hkey, hlt⟩))
      refine .inl ⟨e, ⟨hmem, hkey, hle, fun x hx hxk hxle => ?_⟩, ?_⟩
      · rw [hsplit, mem_append, mem_cons] at hx
        rcases hx with hx | rfl | hx
        · exact absurd hxle (not_le.mpr (hhidden x hx hxk))
        · exact le_rfl
        · rcases hafter x hx with hlt | ⟨-, hlt⟩
          · exact absurd (hkey.trans hxk.symm) hlt.ne
          · exact hlt.le
      · rw [check_entry, if_neg (not_not.mpr hkey), if_neg (not_lt.mpr hle), entryResult]
        split <;> rfl
    · refine .inr ⟨fun x hx hxk => ?_, by rw [check_entry, if_pos hkey]⟩
      rw [hsplit, mem_append, mem_cons] at hx
      have hgt : k < e.1.key := by
        refine lt_of_le_of_ne (not_lt.mp fun hlt => hnot (.inl hlt)) (Ne.symm hkey)
      rcases hx with hx | rfl | hx
      · exact hhidden x hx hxk
      · exact absurd hxk hkey
      · exact absurd hxk (hgt.trans_le (versioned.key_le_of_precedes (hafter x hx))).ne'

variable {layers : List (List (InternalKey × Bytes))} {d : Disk}

end Probe

theorem TablesHold.probed {d : Disk} {v : Version} (h : TablesHold d v) :
    ∀ f ∈ v.files0.reverse ++ v.files1.reverse, TableHolds d f := by
  intro f hf
  rcases mem_append.mp hf with hf | hf
  · exact h.tables0 f (mem_reverse.mp hf)
  · exact h.tables1 f (mem_reverse.mp hf)

namespace DBImpl

variable {db : DBImpl} {d : Disk} {l : Layout}

/-- The layers in the order in which `Get` asks them. -/
def layers (db : DBImpl) (d : Disk) : List (List (InternalKey × Bytes)) :=
  [db.mem.table] ++ db.imm.toList.map MemTable.table ++
    (db.versions.current.files0.reverse ++ db.versions.current.files1.reverse).map d.entries

/-- The sequence number at which a read with the given option reads. -/
def read_sequence (db : DBImpl) (read_snapshot : Nat) : Nat :=
  if read_snapshot ≠ 0 then read_snapshot else db.versions.last_sequence

theorem Holds.recordedIn_layers (h : db.Holds d l) : ∀ layer ∈ db.layers d, RecordedIn layer (db.history l) := by
  intro layer hlayer
  rcases mem_append.mp hlayer with hlayer | hlayer
  · rcases mem_append.mp hlayer with hlayer | hlayer
    · rw [mem_singleton.mp hlayer]
      exact h.mem.recordedIn.mono history_mem_sublist.subset
    · obtain ⟨imm, himm, rfl⟩ := List.mem_map.mp hlayer
      exact (h.imm_some imm (mem_toList.mp himm)).recordedIn.mono h.imm_sublist.subset
  · obtain ⟨f, hf, rfl⟩ := List.mem_map.mp hlayer
    have hrec : RecordedIn (d.entries f) l.tables := fun e he => h.levels.sound (by simpa using hf) he
    exact hrec.mono history_tables_sublist.subset

section

variable (h : db.Holds d l) (hlast : db.versions.last_sequence < 2 ^ 56)

include h hlast

theorem Holds.stamped_layers :
    ∀ e ∈ (db.layers d).flatten, Stamped e := by
  intro e he
  obtain ⟨layer, hlayer, he⟩ := mem_flatten.mp he
  obtain ⟨w, hw, rfl⟩ := h.recordedIn_layers layer hlayer e he
  exact ⟨w.seq, w.type, (h.bound w hw).trans_lt hlast, rfl⟩

end

end DBImpl

end lsmkv
