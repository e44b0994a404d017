import LsmKv.MemTable.Stored

open lsmkv.encoding

namespace lsmkv

open List

/-- The write that a reader of a key is to see at a snapshot. Of two with one sequence number
    a value comes before a deletion, and of two with one type too the later one. -/
structure Visible (writes : List Write) (user_key : Bytes) (snapshot : Nat) (w : Write) : Prop where
  last : history.IsLast (fun w => (w.key, w.seq, w.type)) writes w
  key_eq : w.key = user_key
  seq_le : w.seq ≤ snapshot
  newest : ∀ w' ∈ writes, w'.key = user_key → w'.seq ≤ snapshot →
    w'.seq ≤ w.seq ∧ (w'.seq = w.seq → w'.type = .kTypeValue → w.type = .kTypeValue)

/-- What a reader of a key is to be told at a snapshot. -/
def Reads (writes : List Write) (user_key : Bytes) (snapshot : Nat) : Option (Option Bytes) → Prop
  | none => ∀ w ∈ writes, w.key = user_key → snapshot < w.seq
  | some value => ∃ w, Visible writes user_key snapshot w ∧ value = w.result

theorem pack_inj {seq seq' : Nat} {t t' : ValueType} (hseq : seq < 2 ^ 56) (hseq' : seq' < 2 ^ 56)
    (heq : pack_sequence_and_type seq t = pack_sequence_and_type seq' t') : seq = seq' ∧ t = t' := by
  constructor
  · rw [← sequence_from_pack_pack hseq t, heq, sequence_from_pack_pack hseq' t']
  · rw [← type_from_pack_pack hseq t, heq, type_from_pack_pack hseq' t']

theorem Write.entry_key_eq_iff {w w' : Write} (hw : w.seq < 2 ^ 56) (hw' : w'.seq < 2 ^ 56) :
    w.entry.1 = w'.entry.1 ↔ (w.key, w.seq, w.type) = (w'.key, w'.seq, w'.type) := by
  constructor
  · intro heq
    have hkey : w.key = w'.key := congrArg versioned.VersionedKey.key heq
    obtain ⟨hseq, htype⟩ := pack_inj hw hw' (congrArg versioned.VersionedKey.stamp heq)
    rw [hkey, hseq, htype]
  · intro heq
    simp only [Prod.mk.injEq] at heq
    rw [Write.entry, Write.entry, heq.1, heq.2.1, heq.2.2]

namespace MemTable

def add_all (t : MemTable) (writes : List Write) : MemTable :=
  writes.foldl (fun t w => t.add w.seq w.type w.key w.value) t

/-- The table has the last write of each internal key. -/
theorem mem_add_all (writes : List Write) (e : InternalKey × Bytes) :
    e ∈ (empty.add_all writes).table ↔ ∃ w, history.IsLast (fun w => w.entry.1) writes w ∧ w.entry = e := by
  induction writes using List.reverseRecOn with
  | nil =>
    refine ⟨fun he => absurd he not_mem_nil, ?_⟩
    rintro ⟨w, hw, -⟩
    exact absurd hw.mem not_mem_nil
  | append_singleton writes w ih =>
    have hadd : empty.add_all (writes ++ [w]) = (empty.add_all writes).add w.seq w.type w.key w.value := by
      rw [add_all, foldl_append]
      rfl
    have hmem : e ∈ (empty.add_all (writes ++ [w])).table ↔
        e = w.entry ∨ e ∈ (empty.add_all writes).table ∧ e.1 ≠ w.entry.1 := by
      rw [hadd]
      exact versioned.mem_insert (empty.add_all writes).ordered _ _ e
    rw [hmem, ih]
    constructor
    · rintro (rfl | ⟨⟨w', ⟨older, newer, rfl, hnewer⟩, rfl⟩, hne⟩)
      · exact ⟨w, ⟨writes, [], rfl, by simp⟩, rfl⟩
      · refine ⟨w', ⟨older, newer ++ [w], by simp, fun x hx => ?_⟩, rfl⟩
        rcases mem_append.mp hx with hx | hx
        · exact hnewer x hx
        · rw [mem_singleton.mp hx]
          exact hne.symm
    · rintro ⟨w', hlast, rfl⟩
      rcases hlast.append with hnew | ⟨hold, hother⟩
      · rw [mem_singleton.mp hnew.mem]
        exact .inl rfl
      · exact .inr ⟨⟨w', hold, rfl⟩, (hother w mem_cons_self).symm⟩

/-- `Get` after any writes, in any order of their sequence numbers. -/
theorem reads_add_all {writes : List Write} (hwrites : ∀ w ∈ writes, w.seq < 2 ^ 56) (user_key : Bytes) {snapshot : Nat}
    (hsnap : snapshot < 2 ^ 56) : Reads writes user_key snapshot ((empty.add_all writes).get user_key snapshot) := by
  have hordered := (empty.add_all writes).ordered
  have hadmitted : ∀ w ∈ writes, w.seq ≤ snapshot →
      pack_sequence_and_type w.seq w.type ≤ pack_sequence_and_type snapshot .kTypeValue := fun w _ hle =>
    pack_le_lookup hle hsnap w.type
  have hentry : ∀ w ∈ writes, ∃ e ∈ (empty.add_all writes).table, e.1 = w.entry.1 := by
    intro w hw
    obtain ⟨w', hlast, heq⟩ := history.exists_isLast (fun w => w.entry.1) ⟨w, hw, rfl⟩
    exact ⟨w'.entry, (mem_add_all writes _).mpr ⟨w', hlast, rfl⟩, heq⟩
  have hmiss : (∀ e, versioned.seek (empty.add_all writes).table (make_lookup_key user_key snapshot) = some e →
      e.1.key ≠ user_key) → ∀ w ∈ writes, w.key = user_key → snapshot < w.seq := by
    intro hseek w hw hkey
    obtain ⟨e, he, heq⟩ := hentry w hw
    have hlt := hordered.lt_stamp_of_seek hseek he (by rw [heq]; exact hkey)
    rw [heq] at hlt
    exact not_le.mp fun hle => absurd (hadmitted w hw hle) (not_le.mpr hlt)
  rw [get]
  cases hseek : versioned.seek (empty.add_all writes).table (make_lookup_key user_key snapshot) with
  | none => exact hmiss fun e he => by cases hseek.symm.trans he
  | some e =>
    by_cases hkey : e.1.key = user_key
    · have hnewest := hordered.isNewest_of_seek hseek hkey
      obtain ⟨w, hlast, rfl⟩ := (mem_add_all writes e).mp hnewest.mem
      have hw := hwrites w hlast.mem
      have hle : w.seq ≤ snapshot := by
        by_contra hlt
        exact absurd hnewest.stamp_le (not_le.mpr (pack_lt_pack (not_le.mp hlt) hw _ _))
      rw [← hkey, Write.entry_key, check_entry_write hle hsnap]
      refine ⟨w, ⟨?_, rfl, hle, fun w' hw' hkey' hle' => ?_⟩, rfl⟩
      · obtain ⟨older, newer, rfl, hnewer⟩ := hlast
        exact ⟨older, newer, rfl, fun x hx =>
          mt (Write.entry_key_eq_iff (hwrites x (by simp [hx])) hw).mpr (hnewer x hx)⟩
      · obtain ⟨e', he', heq⟩ := hentry w' hw'
        have hstamp := hnewest.newest e' he' (by rw [heq]; exact hkey'.trans hkey) (by rw [heq]; exact hadmitted w' hw' hle')
        rw [heq] at hstamp
        have hstamp : pack_sequence_and_type w'.seq w'.type ≤ pack_sequence_and_type w.seq w.type := hstamp
        rw [pack_eq (hwrites w' hw'), pack_eq hw] at hstamp
        constructor
        · cases hw't : w'.type <;> cases hwt : w.type <;> simp only [hw't, hwt, ValueType.toNat] at hstamp <;> omega
        · intro hseq htype
          cases hwt : w.type with
          | kTypeValue => rfl
          | kTypeDeletion =>
            simp only [htype, hwt, hseq, ValueType.toNat] at hstamp
            omega
    · rw [check_entry, if_pos hkey]
      refine hmiss fun e' he' => ?_
      cases hseek.symm.trans he'
      exact hkey

end MemTable

namespace StoredMemTable

theorem Holds.add_all {m : StoredMemTable} {t : MemTable} {calls : List (Write × Nat × UInt32)}
    (hcalls : ∀ call ∈ calls, Storable call.1.entry ∧ 1 ≤ call.2.1 ∧ call.2.1 ≤ SkipList.kMaxHeight) (h : m.Holds t) :
    ∃ m', m.add_all calls = some m' ∧ m'.Holds (t.add_all (calls.map Prod.fst)) := by
  induction calls generalizing m t with
  | nil => exact ⟨m, rfl, h⟩
  | cons call calls ih =>
    obtain ⟨w, drawn⟩ := call
    obtain ⟨hw, hpos, hmax⟩ := hcalls _ mem_cons_self
    obtain ⟨m₁, hadd, hholds⟩ := h.add hw hpos hmax
    obtain ⟨m', hrest, hholds'⟩ := ih (fun call hcall => hcalls call (mem_cons_of_mem _ hcall)) hholds
    refine ⟨m', ?_, hholds'⟩
    rw [StoredMemTable.add_all, hadd, Option.bind_some, hrest]

/-- After any `Add` calls at any heights `Get` tells a reader of any key what it is to be
    told at its snapshot. Sequence numbers, lengths and heights are assumed to fit their
    fields; keys may be added again, and in any order of sequence numbers. -/
theorem get_reads (calls : List (Write × Nat × UInt32))
    (hcalls : ∀ call ∈ calls, call.1.seq < 2 ^ 56 ∧ call.1.key.length < 2 ^ 31 ∧ call.1.value.length < 2 ^ 31 ∧
      1 ≤ call.2.1 ∧ call.2.1 ≤ SkipList.kMaxHeight)
    (user_key : Bytes) (snapshot : Nat) (hsnap : snapshot < 2 ^ 56) :
    ∃ m answer, empty.add_all calls = some m ∧ m.get user_key snapshot = some (.ok answer) ∧
      Reads (calls.map Prod.fst) user_key snapshot answer := by
  have hstorable : ∀ call ∈ calls, Storable call.1.entry ∧ 1 ≤ call.2.1 ∧ call.2.1 ≤ SkipList.kMaxHeight := by
    intro call hcall
    obtain ⟨hseq, hkey, hvalue, hheight⟩ := hcalls call hcall
    have hstamp : pack_sequence_and_type call.1.seq call.1.type < 2 ^ 64 := by
      rw [pack_eq hseq]
      cases call.1.type <;> simp only [ValueType.toNat] <;> omega
    refine ⟨⟨hstamp, ?_, hvalue.trans (by norm_num)⟩, hheight⟩
    rw [Write.entry_key]
    omega
  have hseqs : ∀ w ∈ calls.map Prod.fst, w.seq < 2 ^ 56 := by
    intro w hw
    obtain ⟨call, hcall, rfl⟩ := mem_map.mp hw
    exact (hcalls call hcall).1
  obtain ⟨m, hadd, hholds⟩ := Holds.empty.add_all hstorable
  exact ⟨m, _, hadd, hholds.get user_key snapshot, MemTable.reads_add_all hseqs user_key hsnap⟩

/-- A value, a deletion and a value of one sequence number, read at that number. -/
theorem get_reads_tie :
    ∃ m answer,
      empty.add_all [(⟨7, .kTypeValue, [97], [1]⟩, 2, 0), (⟨7, .kTypeDeletion, [97], []⟩, 1, 0),
        (⟨7, .kTypeValue, [97], [2]⟩, 12, 0)] = some m ∧ m.get [97] 7 = some (.ok answer) ∧
      Reads [⟨7, .kTypeValue, [97], [1]⟩, ⟨7, .kTypeDeletion, [97], []⟩, ⟨7, .kTypeValue, [97], [2]⟩] [97] 7 answer :=
  get_reads [(⟨7, .kTypeValue, [97], [1]⟩, 2, 0), (⟨7, .kTypeDeletion, [97], []⟩, 1, 0),
    (⟨7, .kTypeValue, [97], [2]⟩, 12, 0)] (by decide) [97] 7 (by decide)

end StoredMemTable

end lsmkv
