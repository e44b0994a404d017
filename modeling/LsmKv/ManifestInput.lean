import LsmKv.Manifest

open lsmkv.encoding

namespace lsmkv

open List VersionSet

/-- Contents of a manifest: complete records, each of which decodes to an edit. The levels of
    an edit are below `kNumLevels`. -/
inductive ManifestOf : Bytes → List VersionEdit → Prop
  | nil : ManifestOf [] []
  | cons {header record rest : Bytes} {edit : VersionEdit} {edits : List VersionEdit} (hheader : header.length = 4)
      (hlength : decode_fixed32 header = record.length) (hrecord : VersionEdit.decode_from record = .ok (some edit))
      (hrest : ManifestOf rest edits) : ManifestOf (header ++ (record ++ rest)) (edit :: edits)

/-- After some such records comes one that decodes, but names a level that there is not. -/
def BadLevel (data : Bytes) : Prop :=
  ∃ front edits header record rest, data = front ++ (header ++ (record ++ rest)) ∧ ManifestOf front edits ∧
    header.length = 4 ∧ decode_fixed32 header = record.length ∧ VersionEdit.decode_from record = .ok none

/-- An edit as `Recover` applies it. -/
def Version.replay_edit (v : Version) (edit : VersionEdit) : Version :=
  edit.added_files.foldl Version.push_file (edit.deleted_files.foldl Version.delete_file v)

theorem recover_edits_current (edits : List VersionEdit) (vs : VersionSet) :
    (edits.foldl recover_edit vs).current = edits.foldl Version.replay_edit vs.current := by
  induction edits generalizing vs with
  | nil => rfl
  | cons edit edits ih =>
    rw [foldl_cons, ih]
    rfl

/-- Every error of a field is Corruption. -/
theorem EditField.next_error {input : Bytes} {s : Status} (h : EditField.next input = .error s) :
    ∃ msg, s = .Corruption msg := by
  have hnumber : ∀ (field : Nat → EditField) (msg : String) (input : Bytes),
      next_number field msg input = .error s → ∃ msg, s = .Corruption msg := by
    intro field msg input h
    unfold next_number at h
    split at h <;> cases h
    exact ⟨msg, rfl⟩
  unfold EditField.next at h
  split at h
  · cases h
  · split at h
    · cases h
      exact ⟨_, rfl⟩
    · split at h
      · exact hnumber _ _ _ h
      · exact hnumber _ _ _ h
      · exact hnumber _ _ _ h
      · split at h <;> cases h
        exact ⟨_, rfl⟩
      · split at h <;> cases h
        exact ⟨_, rfl⟩
      · cases h
        exact ⟨_, rfl⟩

theorem VersionEdit.decode_from_error {record : Bytes} {s : Status} (h : decode_from record = .error s) :
    ∃ msg, s = .Corruption msg := by
  unfold decode_from at h
  generalize record.length + 1 = fuel, (some {} : Option VersionEdit) = edit at h
  induction fuel generalizing record edit with
  | zero => cases h
  | succ fuel ih =>
    rw [framing.replay] at h
    split at h
    · next hnext =>
      cases h
      exact EditField.next_error hnext
    · cases h
    · exact ih _ h

/-- A round of `Recover` on a complete record. -/
theorem next_edit_record {header record : Bytes} (hheader : header.length = 4)
    (hlength : decode_fixed32 header = record.length) (rest : Bytes) :
    next_edit (header ++ (record ++ rest)) =
      match VersionEdit.decode_from record with
      | .error s => .error (some s)
      | .ok none => .error none
      | .ok (some edit) => .ok (some (edit, rest)) := by
  have hdecode : decode_fixed32 (header ++ (record ++ rest)) = record.length := by
    rw [decode_fixed32, take_append_of_le_length hheader.ge, ← decode_fixed32, hlength]
  have hdrop : (header ++ (record ++ rest)).drop 4 = record ++ rest := drop_left' hheader
  have hlong : ¬ (header ++ (record ++ rest)).length < 4 := by
    rw [length_append]
    omega
  have hne : header ++ (record ++ rest) ≠ [] := by
    intro hnil
    rw [hnil] at hlong
    exact hlong (by decide)
  rw [next_edit, if_neg hne, if_neg hlong]
  simp only [hdecode, hdrop, take_left, drop_left]
  exact if_neg (by simp)

/-- A round of `Recover` ends at the end, reads a complete record or is Corruption. -/
theorem next_edit_cases (input : Bytes) :
    (input = [] ∧ next_edit input = .ok none) ∨
      (∃ header record rest, input = header ++ (record ++ rest) ∧ header.length = 4 ∧ decode_fixed32 header = record.length) ∨
      ∃ msg, next_edit input = .error (some (.Corruption msg)) := by
  by_cases hnil : input = []
  · exact .inl ⟨hnil, by rw [next_edit, if_pos hnil]⟩
  · by_cases hshort : input.length < 4
    · exact .inr (.inr ⟨_, by rw [next_edit, if_neg hnil, if_pos hshort]⟩)
    · by_cases hcut : (input.drop 4).length < decode_fixed32 input
      · refine .inr (.inr ⟨"truncated manifest rec", ?_⟩)
        rw [next_edit, if_neg hnil, if_neg hshort]
        exact if_pos hcut
      · refine .inr (.inl ⟨input.take 4, (input.drop 4).take (decode_fixed32 input),
          (input.drop 4).drop (decode_fixed32 input), ?_, ?_, ?_⟩)
        · rw [take_append_drop, take_append_drop]
        · rw [length_take]
          omega
        · rw [length_take_of_le (not_lt.mp hcut), decode_fixed32, take_take, Nat.min_self, ← decode_fixed32]

section Replay

variable {data : Bytes} {edits : List VersionEdit} {fuel : Nat}

/-- The records before a place are applied, and then what follows is read. -/
theorem ManifestOf.replay (h : ManifestOf data edits) (tail : Bytes) (hfuel : (data ++ tail).length < fuel) (vs : VersionSet) :
    ∃ fuel', tail.length < fuel' ∧ framing.replay next_edit recover_edit fuel (data ++ tail) vs =
      framing.replay next_edit recover_edit fuel' tail (edits.foldl recover_edit vs) := by
  induction h generalizing fuel vs with
  | nil => exact ⟨fuel, hfuel, rfl⟩
  | @cons header record rest edit edits hheader hlength hrecord hrest ih =>
    obtain ⟨fuel, rfl⟩ := Nat.exists_eq_succ_of_ne_zero (Nat.ne_zero_of_lt hfuel)
    rw [append_assoc, append_assoc] at hfuel ⊢
    rw [framing.replay, next_edit_record hheader hlength, hrecord]
    refine ih ?_ (vs.recover_edit edit)
    simp only [length_append] at hfuel ⊢
    omega

theorem ManifestOf.replay_eq (h : ManifestOf data edits) (hfuel : data.length < fuel) (vs : VersionSet) :
    framing.replay next_edit recover_edit fuel data vs = .ok (edits.foldl recover_edit vs) := by
  obtain ⟨fuel', hfuel', hreplay⟩ := h.replay [] (by simpa using hfuel) vs
  rw [append_nil] at hreplay
  obtain ⟨fuel', rfl⟩ := Nat.exists_eq_succ_of_ne_zero (Nat.ne_zero_of_lt hfuel')
  rw [hreplay]
  rfl

theorem BadLevel.replay_eq (h : BadLevel data) (hfuel : data.length < fuel) (vs : VersionSet) :
    framing.replay next_edit recover_edit fuel data vs = .error none := by
  obtain ⟨front, edits, header, record, rest, rfl, hfront, hheader, hlength, hrecord⟩ := h
  obtain ⟨fuel', hfuel', hreplay⟩ := hfront.replay _ hfuel vs
  obtain ⟨fuel', rfl⟩ := Nat.exists_eq_succ_of_ne_zero (Nat.ne_zero_of_lt hfuel')
  rw [hreplay, framing.replay, next_edit_record hheader hlength, hrecord]

/-- Every contents is whole, or has a bad level, or is Corruption. -/
theorem replay_cases (hfuel : data.length < fuel) (vs : VersionSet) :
    (∃ edits, ManifestOf data edits) ∨ BadLevel data ∨
      ∃ msg, framing.replay next_edit recover_edit fuel data vs = .error (some (.Corruption msg)) := by
  induction fuel generalizing data vs with
  | zero => exact absurd hfuel (Nat.not_lt_zero _)
  | succ fuel ih =>
    rw [framing.replay]
    rcases next_edit_cases data with ⟨rfl, -⟩ | ⟨header, record, rest, rfl, hheader, hlength⟩ | ⟨msg, hcorrupt⟩
    · exact .inl ⟨[], .nil⟩
    · rw [next_edit_record hheader hlength]
      cases hrecord : VersionEdit.decode_from record with
      | error s =>
        obtain ⟨msg, rfl⟩ := VersionEdit.decode_from_error hrecord
        exact .inr (.inr ⟨msg, rfl⟩)
      | ok decoded =>
        cases decoded with
        | none => exact .inr (.inl ⟨[], [], header, record, rest, rfl, .nil, hheader, hlength, hrecord⟩)
        | some edit =>
          have hrest : rest.length < fuel := by
            simp only [length_append] at hfuel
            omega
          rcases ih hrest (vs.recover_edit edit) with ⟨edits, hedits⟩ | hbad | hcorrupt
          · exact .inl ⟨edit :: edits, .cons hheader hlength hrecord hedits⟩
          · obtain ⟨front, edits, header', record', rest', rfl, hfront, hbad⟩ := hbad
            refine .inr (.inl ⟨header ++ (record ++ front), edit :: edits, header', record', rest', ?_,
              .cons hheader hlength hrecord hfront, hbad⟩)
            simp only [append_assoc]
          · exact .inr (.inr hcorrupt)
    · rw [hcorrupt]
      exact .inr (.inr ⟨msg, rfl⟩)

end Replay

namespace VersionSet

/-- `Recover` installs the edits of a whole manifest, and reports every other contents as
    Corruption, exactly if no record names a level that there is not. CURRENT is assumed
    to name a manifest; its bytes are arbitrary. -/
theorem recover_validates_iff (dbname current : String) (dir : ManifestDir) (data : Bytes)
    (hcurrent : dir.current = some current) (hdata : dir.manifests (current_base current) = some data) :
    ((∀ edits, ManifestOf data edits → ∃ vs, recover_files dbname dir = .ok vs ∧
        vs.current = (edits.foldl Version.replay_edit {}).sort_level1) ∧
      ((¬ ∃ edits, ManifestOf data edits) → ∃ msg, recover_files dbname dir = .error (some (.Corruption msg)))) ↔
      ¬ BadLevel data := by
  obtain ⟨number, hrecover⟩ : ∃ number, recover_files dbname dir =
      (framing.replay next_edit recover_edit (data.length + 1) data { manifest_file_number := number }).map fun vs =>
        { vs with current := vs.current.sort_level1 } := by
    rw [recover_files, hcurrent]
    dsimp only
    rw [hdata]
    exact ⟨_, rfl⟩
  have hfuel : data.length < data.length + 1 := Nat.lt_succ_self _
  rw [hrecover]
  constructor
  · rintro ⟨-, hother⟩ hbad
    have hnone := hbad.replay_eq hfuel { manifest_file_number := number }
    have hnot : ¬ ∃ edits, ManifestOf data edits := by
      rintro ⟨edits, hedits⟩
      cases hnone.symm.trans (hedits.replay_eq hfuel _)
    obtain ⟨msg, hcorrupt⟩ := hother hnot
    rw [hnone] at hcorrupt
    cases hcorrupt
  · intro hlevels
    constructor
    · intro edits hedits
      rw [hedits.replay_eq hfuel]
      refine ⟨_, rfl, ?_⟩
      dsimp only
      rw [recover_edits_current]
    · intro hnot
      rcases replay_cases hfuel { manifest_file_number := number } with hedits | hbad | ⟨msg, hcorrupt⟩
      · exact absurd hedits hnot
      · exact absurd hbad hlevels
      · rw [hcorrupt]
        exact ⟨msg, rfl⟩

/-- A manifest of one record, which adds a table to level 0. -/
theorem recover_validates_iff_one :
    let dir : ManifestDir := ⟨some "MANIFEST-1\n", fun _ => some [6, 0, 0, 0, 4, 0, 3, 0, 0, 0]⟩
    dir.current = some "MANIFEST-1\n" ∧ dir.manifests (current_base "MANIFEST-1\n") = some [6, 0, 0, 0, 4, 0, 3, 0, 0, 0] ∧
      (((∀ edits, ManifestOf [6, 0, 0, 0, 4, 0, 3, 0, 0, 0] edits → ∃ vs, recover_files "db" dir = .ok vs ∧
          vs.current = (edits.foldl Version.replay_edit {}).sort_level1) ∧
        ((¬ ∃ edits, ManifestOf [6, 0, 0, 0, 4, 0, 3, 0, 0, 0] edits) →
          ∃ msg, recover_files "db" dir = .error (some (.Corruption msg)))) ↔
        ¬ BadLevel [6, 0, 0, 0, 4, 0, 3, 0, 0, 0]) :=
  ⟨rfl, rfl, recover_validates_iff "db" "MANIFEST-1\n" _ [6, 0, 0, 0, 4, 0, 3, 0, 0, 0] rfl rfl⟩

/-- The same record with level 2. It decodes, and `Recover` goes on to add the table to a level
    that is not there. -/
theorem recover_bad_level :
    let dir : ManifestDir := ⟨some "MANIFEST-1\n", fun _ => some [6, 0, 0, 0, 4, 2, 3, 0, 0, 0]⟩
    EditField.next [4, 2, 3, 0, 0, 0] = .ok (some (.added_file 2 { number := 3 }, [])) ∧ ¬ 2 < kNumLevels ∧
      recover_files "db" dir = .error none :=
  ⟨rfl, by decide, rfl⟩

end VersionSet

end lsmkv
