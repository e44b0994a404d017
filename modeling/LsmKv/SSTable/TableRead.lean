import LsmKv.SSTable.TableBuild

open lsmkv.encoding
open lsmkv.Block (ascending_of_sorted head?_fromTarget)

namespace lsmkv

open List InternalKey

/-- `user_key + fixed64(pack(seq, type))` for a sequence number that its 56 bits hold. -/
def IsInternalKey (k : Bytes) : Prop :=
  ∃ user_key seq t, seq < 2 ^ 56 ∧ k = make_internal_key user_key seq t

theorem IsInternalKey.long {k : Bytes} (hk : IsInternalKey k) : 8 ≤ k.length := by
  obtain ⟨user_key, seq, t, -, rfl⟩ := hk
  simp [make_internal_key]

theorem extract_make_internal_key (user_key : Bytes) {seq : Nat} (hseq : seq < 2 ^ 56) (t : ValueType) :
    extract_user_key (make_internal_key user_key seq t) = user_key ∧
      extract_packed (make_internal_key user_key seq t) = seq * 256 + t.toNat := by
  have hpack := pack_eq hseq t
  have hstamp : (InternalKey.make user_key seq t).stamp < 2 ^ 64 := by
    simp only [InternalKey.make, hpack]
    cases t <;> simp only [ValueType.toNat] <;> omega
  refine ⟨extract_user_key_encode (InternalKey.make user_key seq t), ?_⟩
  exact (extract_packed_encode hstamp).trans hpack

/-- The packed word of a lookup key admits the entries whose sequence number its snapshot admits. -/
theorem IsInternalKey.packed_le_iff {k : Bytes} (hk : IsInternalKey k) (s : Nat) :
    extract_packed k ≤ s * 256 + 1 ↔ extract_sequence k ≤ s := by
  have hlong := hk.long
  obtain ⟨user_key, seq, t, hseq, rfl⟩ := hk
  rw [extract_sequence, if_neg (by omega), (extract_make_internal_key user_key hseq t).2, sequence_from_pack]
  cases t <;> simp only [ValueType.toNat] <;> omega

namespace SSTable.Image

variable {es : List (Bytes × Bytes)}

/-- An entry of the key that the snapshot admits, with the largest sequence number among those. -/
structure IsLatest (es : List (Bytes × Bytes)) (user_key : Bytes) (s : Nat) (e : Bytes × Bytes) : Prop where
  mem : e ∈ es
  key_eq : extract_user_key e.1 = user_key
  sequence_le : extract_sequence e.1 ≤ s
  latest : ∀ e' ∈ es, extract_user_key e'.1 = user_key → extract_sequence e'.1 ≤ s →
    extract_sequence e'.1 ≤ extract_sequence e.1

/-- A live value, or a tombstone. -/
def reply_of (e : Bytes × Bytes) : Reply :=
  if extract_value_type e.1 = .kTypeDeletion then ⟨.error (.NotFound ""), [], true⟩ else ⟨.ok (), e.2, true⟩

/-- The first entry from a lookup key on is the latest one that the snapshot admits, or there
    is no such entry. -/
theorem check_found_spec (hinternal : ∀ e ∈ es, IsInternalKey e.1)
    (hsorted : es.Pairwise fun a b => compare_internal_key a.1 b.1 = .lt) {s : Nat} (hs : s < 2 ^ 56)
    (user_key value : Bytes) :
    (∃ e, IsLatest es user_key s e ∧ check_found (make_internal_key user_key s .kTypeValue) value
        (es.find? fun e => compare_internal_key e.1 (make_internal_key user_key s .kTypeValue) ≠ .lt) = reply_of e) ∨
      (∀ e ∈ es, extract_user_key e.1 = user_key → s < extract_sequence e.1) ∧
        check_found (make_internal_key user_key s .kTypeValue) value
          (es.find? fun e => compare_internal_key e.1 (make_internal_key user_key s .kTypeValue) ≠ .lt) =
          ⟨.ok (), value, false⟩ := by
  have hlong : ∀ e ∈ es, 8 ≤ e.1.length := fun e he => (hinternal e he).long
  obtain ⟨huser, hpacked⟩ := extract_make_internal_key user_key hs .kTypeValue
  have htarget : 8 ≤ (make_internal_key user_key s .kTypeValue).length := by simp [make_internal_key]
  have hsequence : extract_sequence (make_internal_key user_key s .kTypeValue) = s := by
    rw [extract_sequence, if_neg (by omega), hpacked, sequence_from_pack]
    simp only [ValueType.toNat]
    omega
  -- an entry of the key is at or behind the lookup key exactly when the snapshot admits it
  have hadmitted : ∀ e ∈ es, extract_user_key e.1 = user_key → (extract_sequence e.1 ≤ s ↔
      compare_internal_key e.1 (make_internal_key user_key s .kTypeValue) ≠ .lt) := by
    intro e he hkey
    rw [ne_eq, compare_eq_lt_iff (hlong e he) htarget, ← (hinternal e he).packed_le_iff]
    simp only [versioned.VersionedKey.Precedes, InternalKey.ofBytes, huser, hpacked, hkey, lt_irrefl, true_and,
      false_or, not_lt, ValueType.toNat]
  generalize make_internal_key user_key s .kTypeValue = target at *
  cases hfind : es.find? fun e => compare_internal_key e.1 target ≠ .lt with
  | none =>
    refine .inr ⟨fun e he hkey => ?_, rfl⟩
    have hbelow := List.find?_eq_none.mp hfind e he
    by_contra hle
    exact hbelow (decide_eq_true ((hadmitted e he hkey).mp (not_lt.mp hle)))
  | some e =>
    obtain ⟨hnot, before, after, hes, hbefore⟩ := List.find?_eq_some_iff_append.mp hfind
    have hmem : e ∈ es := mem_of_find?_eq_some hfind
    have hbehind : ∀ e' ∈ es, compare_internal_key e'.1 target ≠ .lt →
        e' = e ∨ (InternalKey.ofBytes e.1).Precedes (InternalKey.ofBytes e'.1) := by
      intro e' he' hnot'
      rw [← compare_eq_lt_iff (hlong e hmem) (hlong e' he')]
      rw [hes] at he' hsorted
      rcases mem_append.mp he' with he' | he'
      · exact absurd hnot' (by simpa using hbefore e' he')
      · rcases mem_cons.mp he' with rfl | he'
        · exact .inl rfl
        · exact .inr ((pairwise_cons.mp (pairwise_append.mp hsorted).2.1).1 e' he')
    have hnot : compare_internal_key e.1 target ≠ .lt := of_decide_eq_true hnot
    by_cases hkey : extract_user_key e.1 = user_key
    · have hle := (hadmitted e hmem hkey).mpr hnot
      refine .inl ⟨e, ⟨hmem, hkey, hle, fun e' he' hkey' hle' => ?_⟩, ?_⟩
      · rcases hbehind e' he' ((hadmitted e' he' hkey').mp hle') with rfl | hlt | ⟨-, hlt⟩
        · exact le_rfl
        · exact absurd (hkey.trans hkey'.symm) hlt.ne
        · rw [extract_sequence, extract_sequence, if_neg (hlong e' he').not_gt, if_neg (hlong e hmem).not_gt]
          exact Nat.div_le_div_right hlt.le
      · rw [check_found, huser, hsequence, if_neg (not_not.mpr hkey), if_neg hle.not_gt, reply_of]
    · refine .inr ⟨fun e' he' hkey' => ?_, by rw [check_found, huser, if_pos hkey]⟩
      by_contra hle
      rcases hbehind e' he' ((hadmitted e' he' hkey').mp (not_lt.mp hle)) with rfl | hlt | ⟨heq, -⟩
      · exact hkey hkey'
      · -- a smaller key lies below the lookup key
        refine hnot ((compare_eq_lt_iff (hlong e hmem) htarget).mpr (.inl ?_))
        simp only [InternalKey.ofBytes] at hlt ⊢
        rw [huser, ← hkey']
        exact hlt
      · exact hkey (heq.trans hkey')

/-- A table is read back as it was built: iteration returns the entries in their order, a
    seek stops at the first entry that is not below its target, and a lookup reports the
    entry of its key with the largest sequence number that the snapshot admits. Keys are
    assumed to have a tag and to ascend, and blocks to be shorter than 2 ^ 32 bytes; so
    are targets to have a tag and snapshots to fit 56 bits. -/
theorem open_built_table (options : Options) {es : List (Bytes × Bytes)} (hlong : ∀ e ∈ es, 8 ≤ e.1.length)
    (hsorted : es.Pairwise fun a b => compare_internal_key a.1 b.1 = .lt)
    (hsizes : ∀ size ∈ SSTableBuilder.block_sizes { options } es, size < 2 ^ 32) :
    ∃ t, open_data (SSTableBuilder.file options es) = .ok t ∧
      (∀ n ≤ es.length, (Iterator.next^[n] t.new_iterator.seek_to_first).current = es[n]?) ∧
      (∀ target, 8 ≤ target.length → (t.new_iterator.seek target).current =
        es.find? fun e => compare_internal_key e.1 target ≠ .lt) ∧
      ((∀ e ∈ es, IsInternalKey e.1) → ∀ user_key s value, s < 2 ^ 56 →
        (∃ e, IsLatest es user_key s e ∧
          t.get (make_internal_key user_key s .kTypeValue) value = reply_of e) ∨
        (∀ e ∈ es, extract_user_key e.1 = user_key → s < extract_sequence e.1) ∧
          t.get (make_internal_key user_key s .kTypeValue) value = ⟨.ok (), value, false⟩) := by
  obtain ⟨t, index, parts, hopen, hlists, hintact, rfl⟩ := SSTableBuilder.file_lists options hsizes
  have hready := Iterator.new_iterator_ready hlists
  refine ⟨t, hopen, fun n hn => ?_, fun target htarget => ?_, fun hinternal user_key s value hs => ?_⟩
  · have hfirst := Iterator.seek_to_first_before hlists hready
    rw [readable_of_intact hintact] at hfirst
    have hat := cursor.iterate_drop (Iterator.Before · t index ·) (fun h => h.next hlists.index_holds.offset_le) hfirst hn
    rw [hat.current_eq, List.head?_drop]
  · have hasc := ascending_of_sorted hlong hsorted htarget
    rw [(Iterator.seek_before hlists hintact hasc hready).current_eq, head?_fromTarget]
  · have htarget : 8 ≤ (make_internal_key user_key s .kTypeValue).length := by simp [make_internal_key]
    have hasc := ascending_of_sorted hlong hsorted htarget
    rw [get_eq hlists hintact hasc, head?_fromTarget]
    exact check_found_spec hinternal hsorted hs user_key value

/-- Two versions of one key in blocks of their own, the newer one a tombstone. -/
theorem open_built_table_two_blocks :
    ∃ t, open_data (SSTableBuilder.file { block_size := 0 }
        [(make_internal_key [97] 2 .kTypeDeletion, []), (make_internal_key [97] 1 .kTypeValue, [7])]) = .ok t ∧
      (t.new_iterator.seek (make_internal_key [97] 1 .kTypeValue)).current =
        some (make_internal_key [97] 1 .kTypeValue, [7]) ∧
      t.get (make_internal_key [98] 2 .kTypeValue) [] = ⟨.ok (), [], false⟩ := by
  obtain ⟨t, hopen, -, hseek, hget⟩ := @open_built_table { block_size := 0 }
    [(make_internal_key [97] 2 .kTypeDeletion, []), (make_internal_key [97] 1 .kTypeValue, [7])]
    (by decide) (by decide) (by decide +kernel)
  refine ⟨t, hopen, hseek _ (by decide), ?_⟩
  have hinternal : ∀ e ∈ [(make_internal_key [97] 2 .kTypeDeletion, ([] : Bytes)),
      (make_internal_key [97] 1 .kTypeValue, [7])], IsInternalKey e.1 := by
    simp only [forall_mem_cons, not_mem_nil, false_implies, implies_true, and_true]
    exact ⟨⟨_, _, _, by norm_num, rfl⟩, ⟨_, _, _, by norm_num, rfl⟩⟩
  rcases hget hinternal [98] 2 [] (by norm_num) with ⟨e, hlatest, -⟩ | ⟨-, hmiss⟩
  · have hkey : ∀ e ∈ [(make_internal_key [97] 2 .kTypeDeletion, ([] : Bytes)),
        (make_internal_key [97] 1 .kTypeValue, [7])], extract_user_key e.1 ≠ [98] := by decide
    exact absurd hlatest.key_eq (hkey e hlatest.mem)
  · exact hmiss

/-- Two versions of one key, with a restart point each. -/
def twoVersions : Bytes :=
  SSTableBuilder.file { block_restart_interval := 1 }
    [(make_internal_key [97] 2 .kTypeValue, [8]), (make_internal_key [97] 1 .kTypeValue, [7])]

/-- A target of three bytes is compared in the order of the bytes, and the search misses the entry
    above it; and the lookup key of the snapshot 2^56 wraps around to that of 0, which admits
    neither version. -/
theorem built_table_misses : ∃ t, open_data twoVersions = .ok t ∧
    (compare_internal_key (make_internal_key [97] 2 .kTypeValue) [97, 1, 2] ≠ .lt ∧
      (t.new_iterator.seek [97, 1, 2]).current = none) ∧
    extract_sequence (make_internal_key [97] 2 .kTypeValue) ≤ 2 ^ 56 ∧
      t.get (make_internal_key [97] (2 ^ 56) .kTypeValue) [] = ⟨.ok (), [], false⟩ := by
  have hfacts : (open_data twoVersions).toOption.map (fun t =>
      ((t.new_iterator.seek [97, 1, 2]).current, t.get (make_internal_key [97] (2 ^ 56) .kTypeValue) [])) =
      some (none, ⟨.ok (), [], false⟩) := by decide +kernel
  cases hopen : open_data twoVersions with
  | error s =>
    rw [hopen] at hfacts
    cases hfacts
  | ok t =>
    rw [hopen] at hfacts
    obtain ⟨hseek, hget⟩ := Prod.mk.inj (Option.some.inj hfacts)
    exact ⟨t, rfl, ⟨by decide, hseek⟩, by decide, hget⟩

end SSTable.Image

end lsmkv
