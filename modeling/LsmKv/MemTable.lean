import LsmKv.Lib.History
import LsmKv.InternalKey

open lsmkv.encoding

namespace lsmkv

open List history

/-- A write with the sequence number it was given. -/
structure Write where
  seq : Nat
  type : ValueType
  key : Bytes
  value : Bytes
deriving DecidableEq, Repr

namespace Write

/-- The table entry that records a write. -/
def entry (w : Write) : InternalKey × Bytes := (InternalKey.make w.key w.seq w.type, w.value)

/-- What a reader of the key sees after the write. -/
def result (w : Write) : Option Bytes :=
  match w.type with
  | .kTypeDeletion => none
  | .kTypeValue => some w.value

@[simp] theorem entry_key (w : Write) : w.entry.1.key = w.key := rfl

end Write

/-- A run of writes as updates of a map. -/
def updates (h : List Write) : List (Update Bytes Bytes) :=
  h.map fun w => ⟨w.key, w.result⟩

@[simp] theorem updates_nil : updates [] = [] := rfl

@[simp] theorem updates_append (h h' : List Write) : updates (h ++ h') = updates h ++ updates h' :=
  map_append

/-- Writes carry ascending sequence numbers. -/
def Sequenced (h : List Write) : Prop :=
  h.Pairwise fun a b => a.seq < b.seq

/-- The checks that `MemTable::Get` and `SSTable::Get` make on the entry a seek
    found: `none` is a miss, `some none` a tombstone, `some (some v)` a live value. -/
def check_entry (user_key : Bytes) (snapshot : Nat) : Option (InternalKey × Bytes) → Option (Option Bytes)
  | none => none
  | some e =>
    if e.1.key ≠ user_key then none
    else if snapshot < InternalKey.sequence e.1 then none
    else if InternalKey.value_type e.1 = .kTypeDeletion then some none
    else some (some e.2)

/-- The first position at which an entry of the key visible at the snapshot can stand. -/
def make_lookup_key (user_key : Bytes) (sequence : Nat) : InternalKey :=
  InternalKey.make user_key sequence .kTypeValue

/-- `MemTable` with the entries in the order of the skip list's bottom level. -/
structure MemTable where
  table : List (InternalKey × Bytes)
  memory_usage : Nat
  ordered : versioned.Ordered table

namespace MemTable

def empty : MemTable := ⟨[], 0, List.Pairwise.nil⟩

/-- The encoded entry is inserted as a whole; only its size is counted apart. -/
def add (m : MemTable) (seq : Nat) (type : ValueType) (key value : Bytes) : MemTable :=
  let entry := put_length_prefixed_slice (make_internal_key key seq type) ++ put_length_prefixed_slice value
  { table := versioned.insert (InternalKey.make key seq type) value m.table
    memory_usage := m.memory_usage + entry.length
    ordered := m.ordered.insert _ _ }

def get (m : MemTable) (user_key : Bytes) (snapshot : Nat) : Option (Option Bytes) :=
  check_entry user_key snapshot (versioned.seek m.table (make_lookup_key user_key snapshot))

end MemTable

/-- The entries answer for a key what a run of writes says about it: every entry
    of the key records a write of the run, and the last write of the key has one. -/
structure RepresentsAt (entries : List (InternalKey × Bytes)) (h : List Write) (k : Bytes) : Prop where
  sound : ∀ e ∈ entries, e.1.key = k → ∃ w ∈ h, e = w.entry
  complete : ∀ w, IsLast Write.key h w → w.key = k → w.entry ∈ entries

/-- The entries stand for the whole run; entries that a newer write of the same
    key shadows may be missing. -/
def Represents (entries : List (InternalKey × Bytes)) (h : List Write) : Prop :=
  ∀ k, RepresentsAt entries h k

theorem Represents.nil : Represents [] [] := fun _ =>
  ⟨fun _ he => absurd he not_mem_nil, fun _ hw => absurd hw.mem not_mem_nil⟩

variable {h : List Write} {w : Write}

theorem Sequenced.le_of_isLast (hseq : Sequenced h) {w' : Write}
    (hlast : IsLast Write.key h w) (hw' : w' ∈ h) (hkey : w'.key = w.key) : w'.seq ≤ w.seq := by
  obtain ⟨older, newer, rfl, hnewer⟩ := hlast
  rcases mem_append.mp hw' with hw' | hw'
  · exact ((pairwise_append.mp hseq).2.2 w' hw' w mem_cons_self).le
  · rcases mem_cons.mp hw' with rfl | hw'
    · exact le_rfl
    · exact absurd hkey (hnewer w' hw')

theorem Sequenced.eq_of_seq_eq (hseq : Sequenced h) {w' : Write} (hw : w ∈ h)
    (hw' : w' ∈ h) (heq : w.seq = w'.seq) : w = w' := by
  have hnodup : (h.map Write.seq).Nodup := (hseq.map Write.seq fun _ _ hlt => hlt).imp fun hlt => hlt.ne
  exact inj_on_of_nodup_map hnodup hw hw' heq

section Lookup

variable {entries : List (InternalKey × Bytes)} {h : List Write} {k : Bytes} {snapshot : Nat}

/-- The last write of a key is the newest admissible entry of that key. -/
theorem RepresentsAt.isNewest (hrep : RepresentsAt entries h k) (hseq : Sequenced h)
    (hbound : ∀ w ∈ h, w.seq ≤ snapshot) (hsnap : snapshot < 2 ^ 56) {w : Write}
    (hlast : IsLast Write.key h w) (hkey : w.key = k) :
    versioned.IsNewest entries k (pack_sequence_and_type snapshot .kTypeValue) w.entry := by
  refine ⟨hrep.complete w hlast hkey, hkey, pack_le_lookup (hbound w hlast.mem) hsnap _, ?_⟩
  intro e he hek _
  obtain ⟨w', hw', rfl⟩ := hrep.sound e he hek
  have hle := hseq.le_of_isLast hlast hw' (hek.trans hkey.symm)
  rcases hle.lt_or_eq with hlt | heq
  · exact (pack_lt_pack hlt ((hbound w hlast.mem).trans_lt hsnap) _ _).le
  · rw [hseq.eq_of_seq_eq hw' hlast.mem heq]

theorem RepresentsAt.not_mem (hrep : RepresentsAt entries h k) (hnone : ∀ w ∈ h, w.key ≠ k) :
    ∀ e ∈ entries, e.1.key ≠ k := by
  intro e he hek
  obtain ⟨w, hw, rfl⟩ := hrep.sound e he hek
  exact hnone w hw hek

/-- A run that writes no entry of a key has nothing to say about it. -/
theorem RepresentsAt.latest_eq_none (hrep : RepresentsAt entries h k)
    (hnone : ∀ e ∈ entries, e.1.key ≠ k) : latest (updates h) k = none := by
  rw [latest_eq_none_iff]
  intro u hu huk
  obtain ⟨w, hw, rfl⟩ := mem_map.mp hu
  obtain ⟨w', hlast, hkey⟩ := exists_isLast Write.key ⟨w, hw, huk⟩
  exact hnone _ (hrep.complete w' hlast hkey) hkey

end Lookup

theorem check_entry_write {snapshot : Nat} (hle : w.seq ≤ snapshot)
    (hsnap : snapshot < 2 ^ 56) : check_entry w.key snapshot (some w.entry) = some w.result := by
  have hw : w.seq < 2 ^ 56 := hle.trans_lt hsnap
  have hsequence : InternalKey.sequence w.entry.1 = w.seq := sequence_from_pack_pack hw w.type
  have htype : InternalKey.value_type w.entry.1 = w.type := type_from_pack_pack hw w.type
  rw [check_entry, if_neg (by simp), hsequence, if_neg (not_lt.mpr hle), htype, Write.result]
  cases w.type <;> rfl

/-- Seeking the lookup key of a snapshot and checking the entry found there
    reads the last write of the key. -/
theorem check_entry_seek {entries : List (InternalKey × Bytes)} {k : Bytes}
    {snapshot : Nat} (hordered : versioned.Ordered entries) (hrep : RepresentsAt entries h k)
    (hseq : Sequenced h) (hbound : ∀ w ∈ h, w.seq ≤ snapshot) (hsnap : snapshot < 2 ^ 56) :
    check_entry k snapshot (versioned.seek entries (make_lookup_key k snapshot)) =
      latest (updates h) k := by
  by_cases hwritten : ∃ w ∈ h, w.key = k
  · obtain ⟨w, hlast, rfl⟩ := exists_isLast Write.key hwritten
    have hseek := versioned.seek_of_isNewest hordered (hrep.isNewest hseq hbound hsnap hlast rfl)
    rw [make_lookup_key, InternalKey.make, hseek, check_entry_write (hbound w hlast.mem) hsnap]
    exact (latest_of_isLast hlast).symm
  · push Not at hwritten
    have hnone := hrep.not_mem hwritten
    rw [hrep.latest_eq_none hnone]
    cases hseek : versioned.seek entries (make_lookup_key k snapshot) with
    | none => rfl
    | some e =>
      have hne : e.1.key ≠ k :=
        versioned.seek_key_ne (fun e he hek => absurd hek (hnone e he)) hseek
      simp [check_entry, hne]

/-- Recording one more write in the table. -/
theorem Represents.add {m : MemTable} (hrep : Represents m.table h) (w : Write) :
    Represents (m.add w.seq w.type w.key w.value).table (h ++ [w]) := by
  intro k
  have hmem : ∀ e, e ∈ (m.add w.seq w.type w.key w.value).table ↔
      e = w.entry ∨ e ∈ m.table ∧ e.1 ≠ w.entry.1 := versioned.mem_insert m.ordered _ _
  refine ⟨?_, ?_⟩
  · intro e he hek
    rcases (hmem e).mp he with rfl | ⟨he, -⟩
    · exact ⟨w, by simp, rfl⟩
    · obtain ⟨w', hw', rfl⟩ := (hrep k).sound e he hek
      exact ⟨w', by simp [hw'], rfl⟩
  · intro w' hlast hkey
    rcases hlast.append with hnew | ⟨hold, hother⟩
    · obtain rfl := mem_singleton.mp hnew.mem
      exact (hmem _).mpr (.inl rfl)
    · refine (hmem _).mpr (.inr ⟨(hrep k).complete w' hold hkey, ?_⟩)
      intro heq
      exact hother w mem_cons_self (congrArg versioned.VersionedKey.key heq).symm

end lsmkv
