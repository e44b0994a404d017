import LsmKv.MemTable
import LsmKv.SkipList.Correct
import LsmKv.Status

open lsmkv.encoding
open ordered (TotalOn Increasing put above)

namespace lsmkv

open List Option InternalKey

/-- `MemTableEntryComparator`: entries are compared by their internal keys. -/
def compare_entry (a b : Bytes) : Ordering :=
  match get_length_prefixed_slice a, get_length_prefixed_slice b with
  | some (ka, _), some (kb, _) => compare_internal_key ka kb
  | _, _ => cmp a b

/-- `varint(ikey_len) + ikey + varint(vlen) + value`. -/
def encode_entry (ikey value : Bytes) : Bytes := put_length_prefixed_slice ikey ++ put_length_prefixed_slice value

/-- What `MemTable::Get` makes of the entry that it found. -/
def read_entry (user_key : Bytes) (snapshot : Nat) (entry : Bytes) : Except Status (Option (Option Bytes)) :=
  match get_length_prefixed_slice entry with
  | none => .error (Status.Corruption "bad memtable entry")
  | some (ikey, s) =>
    if extract_user_key ikey ≠ user_key then .ok none
    else if snapshot < extract_sequence ikey then .ok none
    else if extract_value_type ikey = .kTypeDeletion then .ok (some none)
    else
      match get_length_prefixed_slice s with
      | none => .error (Status.Corruption "bad memtable value")
      | some (val, _) => .ok (some (some val))

/-- `MemTable` as it stands in memory: a skip list of encoded entries. -/
structure StoredMemTable where
  table : SkipList Bytes
  memory_usage : Nat

namespace StoredMemTable

def empty : StoredMemTable := ⟨SkipList.empty, 0⟩

/-- `Add`, where the skip list draws this height for a new node. -/
def add (m : StoredMemTable) (w : Write) (drawn : Nat × UInt32) : Option StoredMemTable :=
  let entry := encode_entry (make_internal_key w.key w.seq w.type) w.value
  (m.table.insert_at compare_entry entry drawn).map fun table => ⟨table, m.memory_usage + entry.length⟩

def add_all : StoredMemTable → List (Write × Nat × UInt32) → Option StoredMemTable
  | m, [] => some m
  | m, (w, drawn) :: calls => (m.add w drawn).bind fun m => m.add_all calls

def get (m : StoredMemTable) (user_key : Bytes) (snapshot : Nat) : Option (Except Status (Option (Option Bytes))) :=
  let lkey := make_internal_key user_key snapshot .kTypeValue
  (m.table.find compare_entry (encode_entry lkey [])).map fun found =>
    match found with
    | none => .ok none
    | some entry => read_entry user_key snapshot entry

end StoredMemTable

/-- The bytes of an entry. -/
def stored (e : InternalKey × Bytes) : Bytes := encode_entry (InternalKey.encode e.1) e.2

/-- An entry whose bytes say what it is. -/
structure Storable (e : InternalKey × Bytes) : Prop where
  stamp : e.1.stamp < 2 ^ 64
  key : e.1.key.length + 8 < 2 ^ 32
  value : e.2.length < 2 ^ 32

section Storable

variable {e e' : InternalKey × Bytes}

theorem Storable.get_ikey (h : Storable e) :
    get_length_prefixed_slice (stored e) = some (InternalKey.encode e.1, put_length_prefixed_slice e.2) :=
  get_put_slice (by simpa using h.key) _

theorem Storable.compare (h : Storable e) (h' : Storable e') :
    compare_entry (stored e) (stored e') = compare_internal_key (InternalKey.encode e.1) (InternalKey.encode e'.1) := by
  rw [compare_entry, h.get_ikey, h'.get_ikey]

theorem Storable.compare_lt_iff (h : Storable e) (h' : Storable e') :
    compare_entry (stored e) (stored e') = .lt ↔ e.1.Precedes e'.1 := by
  rw [h.compare h', compare_encode_eq_lt_iff h.stamp h'.stamp]

theorem Storable.compare_eq_iff (h : Storable e) (h' : Storable e') :
    compare_entry (stored e) (stored e') = .eq ↔ e.1 = e'.1 := by
  rw [h.compare h', compare_encode_eq_eq_iff h.stamp h'.stamp]

/-- The entry found is read as the one that was stored. -/
theorem Storable.read_entry (h : Storable e) (user_key : Bytes) (snapshot : Nat) :
    read_entry user_key snapshot (stored e) = .ok (check_entry user_key snapshot (some e)) := by
  have hlong : ¬ (InternalKey.encode e.1).length < 8 := by simp
  have hvalue : get_length_prefixed_slice (put_length_prefixed_slice e.2) = some (e.2, []) := by
    simpa using get_put_slice h.value []
  rw [lsmkv.read_entry, h.get_ikey]
  dsimp only
  rw [extract_user_key_encode, extract_sequence, extract_value_type, if_neg hlong, if_neg hlong,
    extract_packed_encode h.stamp, hvalue, check_entry]
  simp only [InternalKey.sequence, value_type]
  split_ifs <;> simp only [*, if_true, if_false]

/-- Encoded entries are ordered as the entries are. -/
theorem compare_entry_total : TotalOn (fun x => ∃ e, Storable e ∧ x = stored e) compare_entry := by
  refine TotalOn.of_strict (fun x => InternalKey.ofBytes (((get_length_prefixed_slice x).map Prod.fst).getD []))
    versioned.VersionedKey.not_precedes_self (fun _ _ _ => versioned.VersionedKey.Precedes.trans)
    versioned.VersionedKey.precedes_or_eq_or_precedes ?_ ?_
  · rintro _ _ ⟨e, he, rfl⟩ ⟨e', he', rfl⟩
    rw [he.compare_lt_iff he', he.get_ikey, he'.get_ikey]
    simp [ofBytes_encode he.stamp, ofBytes_encode he'.stamp]
  · rintro _ _ ⟨e, he, rfl⟩ ⟨e', he', rfl⟩
    rw [he.compare_eq_iff he', he.get_ikey, he'.get_ikey]
    simp [ofBytes_encode he.stamp, ofBytes_encode he'.stamp]

variable {entries : List (InternalKey × Bytes)}

/-- Putting an encoded entry among others is the insertion of the entry. -/
theorem put_stored (hentries : ∀ x ∈ entries, Storable x) (h : Storable e) :
    put compare_entry (stored e) (entries.map stored) = (versioned.insert e.1 e.2 entries).map stored := by
  induction entries with
  | nil => rfl
  | cons x entries ih =>
    have hx := hentries x mem_cons_self
    rw [map_cons, versioned.insert]
    by_cases hlt : x.1.Precedes e.1
    · rw [ordered.put_cons_of_lt ((hx.compare_lt_iff h).mpr hlt), if_pos hlt, map_cons,
        ih fun y hy => hentries y (mem_cons_of_mem _ hy)]
    · rw [ordered.put_cons_of_not_lt (mt (hx.compare_lt_iff h).mp hlt), if_neg hlt]
      by_cases heq : x.1 = e.1
      · rw [if_pos ((h.compare_eq_iff hx).mpr heq.symm), if_pos heq, map_cons]
      · rw [if_neg fun hc => heq ((h.compare_eq_iff hx).mp hc).symm, if_neg heq, map_cons, map_cons]

/-- The first encoded entry from a position on is the one that a seek finds. -/
theorem above_stored (hentries : ∀ x ∈ entries, Storable x) (h : Storable e) :
    (above compare_entry (stored e) (entries.map stored)).head? = (versioned.seek entries e.1).map stored := by
  have hdrop : ∀ x ∈ entries, decide (compare_entry (stored x) (stored e) = .lt) = decide (x.1.Precedes e.1) := fun x hx =>
    decide_eq_decide.mpr ((hentries x hx).compare_lt_iff h)
  rw [above, dropWhile_map, List.head?_map, versioned.seek, List.find?_eq_head?_dropWhile_not]
  congr 1
  induction entries with
  | nil => rfl
  | cons x entries ih =>
    simp only [dropWhile_cons, Function.comp_apply, hdrop x mem_cons_self, decide_not, Bool.not_not]
    split
    · simpa using ih (fun y hy => hentries y (mem_cons_of_mem _ hy)) fun y hy => hdrop y (mem_cons_of_mem _ hy)
    · rfl

end Storable

/-- The skip list has the entries of a table, one node for each. -/
structure StoredMemTable.Holds (m : StoredMemTable) (t : MemTable) : Prop where
  storable : ∀ e ∈ t.table, Storable e
  shaped : ∃ order, SkipList.Shaped m.table order ∧ m.table.keys order = t.table.map stored
  memory_usage : m.memory_usage = t.memory_usage

namespace StoredMemTable.Holds

variable {m : StoredMemTable} {t : MemTable}

theorem empty : StoredMemTable.empty.Holds MemTable.empty where
  storable _ he := absurd he not_mem_nil
  shaped := ⟨[], SkipList.shaped_empty, rfl⟩
  memory_usage := rfl

theorem increasing (h : m.Holds t) : Increasing compare_entry (t.table.map stored) := by
  refine pairwise_map.mpr (t.ordered.imp_of_mem fun {a b} ha hb hprec => ?_)
  exact ((h.storable a ha).compare_lt_iff (h.storable b hb)).mpr hprec

theorem keys_storable (h : m.Holds t) {order : List Nat} (hkeys : m.table.keys order = t.table.map stored) :
    ∀ x ∈ m.table.keys order, ∃ e, Storable e ∧ x = stored e := by
  intro x hx
  rw [hkeys] at hx
  obtain ⟨e, he, rfl⟩ := List.mem_map.mp hx
  exact ⟨e, h.storable e he, rfl⟩

/-- `Add` on the bytes is `Add` on the entries. -/
theorem add (h : m.Holds t) {w : Write} (hw : Storable w.entry) {drawn : Nat × UInt32} (hpos : 1 ≤ drawn.1)
    (hmax : drawn.1 ≤ SkipList.kMaxHeight) :
    ∃ m', m.add w drawn = some m' ∧ m'.Holds (t.add w.seq w.type w.key w.value) := by
  obtain ⟨order, hshaped, hkeys⟩ := h.shaped
  have hinc : Increasing compare_entry (m.table.keys order) := hkeys ▸ h.increasing
  obtain ⟨table, order', hinsert, hshaped', hkeys'⟩ :=
    hshaped.insert_at compare_entry_total (h.keys_storable hkeys) ⟨w.entry, hw, rfl⟩ hinc hpos hmax
  rw [hkeys, put_stored h.storable hw] at hkeys'
  have hadd : m.add w drawn = some ⟨table, m.memory_usage + (stored w.entry).length⟩ :=
    congrArg (Option.map fun table => (⟨table, _⟩ : StoredMemTable)) hinsert
  refine ⟨_, hadd, ?_, ⟨order', hshaped', hkeys'⟩, ?_⟩
  · intro e he
    rcases (versioned.mem_insert t.ordered _ _ e).mp he with rfl | ⟨he, -⟩
    · exact hw
    · exact h.storable e he
  · rw [h.memory_usage]
    rfl

/-- `Get` on the bytes is `Get` on the entries. -/
theorem get (h : m.Holds t) (user_key : Bytes) (snapshot : Nat) :
    m.get user_key snapshot = some (.ok (t.get user_key snapshot)) := by
  obtain ⟨order, hshaped, hkeys⟩ := h.shaped
  by_cases hlong : user_key.length + 8 < 2 ^ 32
  · have hstamp : pack_sequence_and_type snapshot .kTypeValue < 2 ^ 64 := by
      simp only [pack_sequence_and_type, ValueType.toNat]
      omega
    have htarget : Storable (make_lookup_key user_key snapshot, []) := ⟨hstamp, hlong, by simp⟩
    have hinc : Increasing compare_entry (m.table.keys order) := hkeys ▸ h.increasing
    obtain ⟨hfind, -⟩ := hshaped.find_eq compare_entry_total (h.keys_storable hkeys) ⟨_, htarget, rfl⟩ hinc
    rw [hkeys, above_stored h.storable htarget] at hfind
    have hfind : m.table.find compare_entry (encode_entry (make_internal_key user_key snapshot .kTypeValue) []) =
      some ((versioned.seek t.table (make_lookup_key user_key snapshot)).map stored) := hfind
    rw [StoredMemTable.get, hfind, MemTable.get]
    cases hseek : versioned.seek t.table (make_lookup_key user_key snapshot) with
    | none => rfl
    | some e => exact congrArg some ((h.storable e (mem_of_find?_eq_some hseek)).read_entry user_key snapshot)
  · -- no entry has a key as long as this one, wherever the search ends
    have hne : ∀ e ∈ t.table, check_entry user_key snapshot (some e) = none := by
      intro e he
      have hkey : e.1.key ≠ user_key := by
        rintro rfl
        exact hlong (h.storable e he).key
      rw [check_entry, if_pos hkey]
    have hget : t.get user_key snapshot = none := by
      rw [MemTable.get]
      cases hseek : versioned.seek t.table (make_lookup_key user_key snapshot) with
      | none => rfl
      | some e => exact hne e (mem_of_find?_eq_some hseek)
    obtain ⟨found, prev, hfind, hmem⟩ := @SkipList.find_greater_or_equal_ends _ _ _ _ compare_entry
      (encode_entry (make_internal_key user_key snapshot .kTypeValue) []) hshaped
    rw [hget, StoredMemTable.get, SkipList.find, hfind, bind_some]
    cases found with
    | none => rfl
    | some x =>
      have hx := hmem x rfl
      have hkey : m.table.keyAt x ∈ t.table.map stored := hkeys ▸ List.mem_map_of_mem hx
      obtain ⟨e, he, hstored⟩ := List.mem_map.mp hkey
      dsimp only
      rw [hshaped.key_eq hx, ← hstored, map_some, map_some]
      dsimp only
      rw [(h.storable e he).read_entry, hne e he]

end StoredMemTable.Holds

end lsmkv
