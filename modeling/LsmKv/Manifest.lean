import LsmKv.Lib.Framing
import LsmKv.Version

open lsmkv.encoding

namespace lsmkv

open List Function Option Version

/-- One field of an encoded edit. Levels are read as numbers of 32 bits. -/
inductive EditField where
  | next_file_number (n : Nat)
  | last_sequence (n : Nat)
  | log_number (n : Nat)
  | deleted_file (level number : Nat)
  | added_file (level : Nat) (file : FileMetaData)

namespace EditField

@[match_pattern] abbrev kNextFileNumber : Nat := 1

@[match_pattern] abbrev kLastSequence : Nat := 2

@[match_pattern] abbrev kLogNumber : Nat := 3

@[match_pattern] abbrev kAddFile : Nat := 4

@[match_pattern] abbrev kDeleteFile : Nat := 5

def encode : EditField → Bytes
  | .next_file_number n => put_varint32 kNextFileNumber ++ put_varint64 n
  | .last_sequence n => put_varint32 kLastSequence ++ put_varint64 n
  | .log_number n => put_varint32 kLogNumber ++ put_varint64 n
  | .deleted_file level number => put_varint32 kDeleteFile ++ (put_varint32 level ++ put_varint64 number)
  | .added_file level f =>
    put_varint32 kAddFile ++ (put_varint32 level ++ (put_varint64 f.number ++ (put_varint64 f.file_size ++
      (put_length_prefixed_slice f.smallest ++ put_length_prefixed_slice f.largest))))

/-- The bytes of a number field after its tag. -/
def next_number (field : Nat → EditField) (msg : String) (input : Bytes) :
    Except Status (Option (EditField × Bytes)) :=
  match get_varint64 input with
  | none => .error (.Corruption msg)
  | some (n, input) => .ok (some (field n, input))

def next_deleted_file (input : Bytes) : Option (EditField × Bytes) := do
  let (level, input) ← get_varint32 input
  let (number, input) ← get_varint64 input
  some (.deleted_file level number, input)

def next_added_file (input : Bytes) : Option (EditField × Bytes) := do
  let (level, input) ← get_varint32 input
  let (number, input) ← get_varint64 input
  let (file_size, input) ← get_varint64 input
  let (smallest, input) ← get_length_prefixed_slice input
  let (largest, input) ← get_length_prefixed_slice input
  some (.added_file level { number := number, file_size := file_size, smallest := smallest, largest := largest }, input)

/-- A round of the loop of `DecodeFrom`: the next field, or nothing at the end. -/
def next (input : Bytes) : Except Status (Option (EditField × Bytes)) :=
  if input = [] then .ok none
  else
    match get_varint32 input with
    | none => .error (.Corruption "edit bad tag")
    | some (tag, input) =>
      match tag with
      | kNextFileNumber => next_number .next_file_number "edit next file" input
      | kLastSequence => next_number .last_sequence "edit last seq" input
      | kLogNumber => next_number .log_number "edit log num" input
      | kDeleteFile =>
        match next_deleted_file input with
        | none => .error (.Corruption "edit delete")
        | some field => .ok (some field)
      | kAddFile =>
        match next_added_file input with
        | none => .error (.Corruption "edit add")
        | some field => .ok (some field)
      | _ => .error (.Corruption "unknown edit tag")

/-- A field whose numbers and slices fit the widths under which they are written. -/
def Fits : EditField → Prop
  | .next_file_number n | .last_sequence n | .log_number n => n < 2 ^ 64
  | .deleted_file level number => level < 2 ^ 32 ∧ number < 2 ^ 64
  | .added_file level f => level < 2 ^ 32 ∧ f.number < 2 ^ 64 ∧ f.file_size < 2 ^ 64 ∧
      f.smallest.length < 2 ^ 32 ∧ f.largest.length < 2 ^ 32

theorem encode_ne_nil (field : EditField) : field.encode ≠ [] := by
  cases field <;> exact cons_ne_nil _ _

theorem next_encode {field : EditField} (h : field.Fits) (rest : Bytes) :
    next (field.encode ++ rest) = .ok (some (field, rest)) := by
  have hne : field.encode ++ rest ≠ [] := by simp [encode_ne_nil]
  rw [next, if_neg hne]
  cases field with
  | next_file_number n | last_sequence n | log_number n =>
    rw [encode, append_assoc, get_put_varint32 (by norm_num)]
    dsimp only [next_number]
    rw [get_put_varint64 h]
    rfl
  | deleted_file level number =>
    have hnext : next_deleted_file (put_varint32 level ++ (put_varint64 number ++ rest)) =
        some (.deleted_file level number, rest) := by
      simp [next_deleted_file, get_put_varint32 h.1, get_put_varint64 h.2]
    rw [encode, append_assoc, append_assoc, get_put_varint32 (by norm_num)]
    dsimp only
    rw [hnext]
    rfl
  | added_file level f =>
    obtain ⟨hlevel, hnumber, hsize, hsmallest, hlargest⟩ := h
    have hnext : next_added_file (put_varint32 level ++ (put_varint64 f.number ++ (put_varint64 f.file_size ++
        (put_length_prefixed_slice f.smallest ++ (put_length_prefixed_slice f.largest ++ rest))))) =
        some (.added_file level f, rest) := by
      simp [next_added_file, get_put_varint32 hlevel, get_put_varint64 hnumber, get_put_varint64 hsize,
        get_put_slice hsmallest, get_put_slice hlargest]
    simp only [encode, append_assoc]
    rw [get_put_varint32 (by norm_num)]
    dsimp only
    rw [hnext]
    rfl

end EditField

namespace VersionEdit

/-- The fields in the order in which `Encode` writes them. -/
def fields (edit : VersionEdit) : List EditField :=
  edit.next_file_number.toList.map .next_file_number ++ edit.last_sequence.toList.map .last_sequence ++
    edit.log_number.toList.map .log_number ++ edit.deleted_files.map (fun d => .deleted_file d.1 d.2) ++
    edit.added_files.map fun a => .added_file a.1 a.2

def encode (edit : VersionEdit) : Bytes := edit.fields.flatMap EditField.encode

/-- What `DecodeFrom` does with a field; `none` when the level lies outside the arrays of a
    `Version`, which the source does not check before it indexes them. -/
def set_field (edit : VersionEdit) : EditField → Option VersionEdit
  | .next_file_number n => some { edit with next_file_number := some n }
  | .last_sequence n => some { edit with last_sequence := some n }
  | .log_number n => some { edit with log_number := some n }
  | .deleted_file level number =>
    if h : level < kNumLevels then some { edit with deleted_files := edit.deleted_files ++ [(⟨level, h⟩, number)] }
    else none
  | .added_file level file =>
    if h : level < kNumLevels then some { edit with added_files := edit.added_files ++ [(⟨level, h⟩, file)] }
    else none

def decode_from (src : Bytes) : Except Status (Option VersionEdit) :=
  framing.replay EditField.next (fun edit field => edit.bind (set_field · field)) (src.length + 1) src (some {})

/-- `fixed32(len) || encode(edit)`. -/
def frame_edit (edit : VersionEdit) : Bytes := put_fixed32 (edit.encode.length % 2 ^ 32) ++ edit.encode

theorem frame_edit_ne_nil (edit : VersionEdit) : edit.frame_edit ≠ [] := cons_ne_nil _ _

/-- An edit whose numbers are of 64 bits and whose record is shorter than 2 ^ 32 bytes. -/
structure Fits (edit : VersionEdit) : Prop where
  next_file_number : ∀ n ∈ edit.next_file_number, n < 2 ^ 64
  last_sequence : ∀ n ∈ edit.last_sequence, n < 2 ^ 64
  log_number : ∀ n ∈ edit.log_number, n < 2 ^ 64
  deleted_files : ∀ d ∈ edit.deleted_files, d.2 < 2 ^ 64
  added_files : ∀ a ∈ edit.added_files, a.2.number < 2 ^ 64 ∧ a.2.file_size < 2 ^ 64
  length : edit.encode.length < 2 ^ 32

theorem Fits.fields {edit : VersionEdit} (h : edit.Fits) : ∀ field ∈ edit.fields, field.Fits := by
  have hlevel : ∀ level : Fin kNumLevels, level.val < 2 ^ 32 := fun level => level.isLt.trans (by norm_num)
  intro field hfield
  have hlength : field.encode.length < 2 ^ 32 :=
    (List.Sublist.length_le (sublist_flatten_of_mem (List.mem_map_of_mem hfield))).trans_lt
      (by rw [← flatMap_def]; exact h.length)
  simp only [VersionEdit.fields, mem_append, List.mem_map, mem_toList] at hfield
  obtain (((⟨n, hn, rfl⟩ | ⟨n, hn, rfl⟩) | ⟨n, hn, rfl⟩) | ⟨d, hd, rfl⟩) | ⟨a, ha, rfl⟩ := hfield
  · exact h.next_file_number n hn
  · exact h.last_sequence n hn
  · exact h.log_number n hn
  · exact ⟨hlevel d.1, h.deleted_files d hd⟩
  · obtain ⟨hnumber, hsize⟩ := h.added_files a ha
    simp only [EditField.encode, put_length_prefixed_slice, length_append] at hlength
    exact ⟨hlevel a.1, hnumber, hsize, by omega, by omega⟩

theorem set_deleted_file (edit : VersionEdit) (d : Fin kNumLevels × Nat) :
    edit.set_field (.deleted_file d.1 d.2) = some { edit with deleted_files := edit.deleted_files ++ [d] } :=
  dif_pos d.1.isLt

theorem set_added_file (edit : VersionEdit) (a : Fin kNumLevels × FileMetaData) :
    edit.set_field (.added_file a.1 a.2) = some { edit with added_files := edit.added_files ++ [a] } :=
  dif_pos a.1.isLt

theorem foldl_set_deleted (ds : List (Fin kNumLevels × Nat)) (edit : VersionEdit) :
    (ds.map fun d => EditField.deleted_file d.1 d.2).foldl (fun edit field => edit.bind (set_field · field)) (some edit) =
      some { edit with deleted_files := edit.deleted_files ++ ds } := by
  induction ds generalizing edit with
  | nil => simp
  | cons d ds ih =>
    rw [map_cons, foldl_cons, bind_some, set_deleted_file, ih, append_assoc, singleton_append]

theorem foldl_set_added (fs : List (Fin kNumLevels × FileMetaData)) (edit : VersionEdit) :
    (fs.map fun a => EditField.added_file a.1 a.2).foldl (fun edit field => edit.bind (set_field · field)) (some edit) =
      some { edit with added_files := edit.added_files ++ fs } := by
  induction fs generalizing edit with
  | nil => simp
  | cons a fs ih =>
    rw [map_cons, foldl_cons, bind_some, set_added_file, ih, append_assoc, singleton_append]

/-- The fields of an edit rebuild it. -/
theorem foldl_set_fields (edit : VersionEdit) :
    edit.fields.foldl (fun edit field => edit.bind (set_field · field)) (some {}) = some edit := by
  have hnumbers : (edit.next_file_number.toList.map EditField.next_file_number ++
      edit.last_sequence.toList.map EditField.last_sequence ++
      edit.log_number.toList.map EditField.log_number).foldl (fun edit field => edit.bind (set_field · field)) (some {}) =
      some { edit with deleted_files := [], added_files := [] } := by
    obtain ⟨next_file_number, last_sequence, log_number, -, -⟩ := edit
    cases next_file_number <;> cases last_sequence <;> cases log_number <;> rfl
  rw [fields, foldl_append, foldl_append, hnumbers, foldl_set_deleted, foldl_set_added]
  rfl

theorem decode_from_encode {edit : VersionEdit} (h : edit.Fits) : decode_from edit.encode = .ok (some edit) := by
  rw [decode_from, encode, framing.replay_whole (fun field _ => field.encode_ne_nil)
    (fun field hfield => EditField.next_encode (h.fields field hfield)) rfl, foldl_set_fields]

end VersionEdit

/-- A round of the loop of `Recover`: the next edit, or nothing at the end. An error without a
    status marks a level outside the arrays of a `Version`. -/
def next_edit (input : Bytes) : Except (Option Status) (Option (VersionEdit × Bytes)) :=
  if input = [] then .ok none
  else if input.length < 4 then .error (some (.Corruption "truncated manifest header"))
  else
    let len := decode_fixed32 input
    let input := input.drop 4
    if input.length < len then .error (some (.Corruption "truncated manifest rec"))
    else
      match VersionEdit.decode_from (input.take len) with
      | .error s => .error (some s)
      | .ok none => .error none
      | .ok (some edit) => .ok (some (edit, input.drop len))

theorem next_edit_frame {edit : VersionEdit} (h : edit.Fits) (rest : Bytes) :
    next_edit (edit.frame_edit ++ rest) = .ok (some (edit, rest)) := by
  have hlen : decode_fixed32 (edit.frame_edit ++ rest) = edit.encode.length := by
    rw [VersionEdit.frame_edit, append_assoc, Nat.mod_eq_of_lt h.length]
    exact decode_put_fixed32 h.length _
  have hdrop : (edit.frame_edit ++ rest).drop 4 = edit.encode ++ rest := by
    rw [VersionEdit.frame_edit, append_assoc]
    exact drop_left' (put_fixed32_length _)
  have hlong : 4 ≤ (edit.frame_edit ++ rest).length := by
    simp only [VersionEdit.frame_edit, length_append, put_fixed32_length]
    omega
  have hne : edit.frame_edit ++ rest ≠ [] := ne_nil_of_length_pos (by omega)
  rw [next_edit, if_neg hne, if_neg (by omega)]
  simp only [hlen, hdrop, take_left, drop_left]
  rw [if_neg (by simp), VersionEdit.decode_from_encode h]

/-- The files that `Recover` reads, by their base names. -/
structure ManifestDir where
  current : Option String := none
  manifests : String → Option Bytes := fun _ => none

def manifest_base (n : Nat) : String := "MANIFEST-" ++ toString n

/-- The digits at the front of a string, which is what `strtoull` reads of a manifest's number. -/
def strtoull (s : List Char) : Nat := (s.takeWhile Char.isDigit).foldl (fun n c => 10 * n + (c.toNat - '0'.toNat)) 0

namespace VersionSet

/-- `NewDB` as it writes the snapshot and CURRENT. -/
def new_db_files : VersionSet × ManifestDir :=
  let vs := new_db.1
  let base := manifest_base vs.manifest_file_number
  (vs, { current := some (base ++ "\n")
         manifests := update (fun _ => none) base (some vs.write_snapshot.frame_edit) })

/-- `LogAndApply` as it appends to the manifest. -/
def log_and_apply_files (state : VersionSet × ManifestDir) (edit : VersionEdit) : VersionSet × ManifestDir :=
  let base := manifest_base state.1.manifest_file_number
  ((state.1.log_and_apply edit).1,
    { state.2 with
      manifests := update state.2.manifests base
        (some ((state.2.manifests base).getD [] ++ edit.frame_edit)) })

/-- The name in CURRENT without the line end. -/
def current_base (current : String) : String :=
  String.ofList (current.toList.rdropWhile fun c => c = '\n' || c = '\r')

/-- `Recover` on the bytes of the files. -/
def recover_files (dbname : String) (dir : ManifestDir) : Except (Option Status) VersionSet :=
  match dir.current with
  | none => .error (some (.IOError "missing CURRENT"))
  | some current =>
    let base := current_base current
    let number := if '-' ∈ base.toList then strtoull ((base.toList.dropWhile (· ≠ '-')).drop 1) else 1
    match dir.manifests base with
    | none => .error (some (.IOError ("missing manifest: " ++ dbname ++ "/" ++ base)))
    | some data =>
      (framing.replay next_edit recover_edit (data.length + 1) data { manifest_file_number := number }).map fun vs =>
        { vs with current := vs.current.sort_level1 }

/-- Runs of `LogAndApply` after `NewDB`. -/
def logged (edits : List VersionEdit) : VersionSet × ManifestDir := edits.foldl log_and_apply_files new_db_files

/-- The files of two versions: level 0 the same, level 1 up to its order. -/
structure SameFiles (v v' : Version) : Prop where
  files0 : v.files0 = v'.files0
  files1 : v.files1.Perm v'.files1

variable {v v' : Version} {edits : List VersionEdit}

theorem SameFiles.delete_file (h : SameFiles v v') (d : Fin kNumLevels × Nat) :
    SameFiles (v.delete_file d) (v'.delete_file d) := by
  obtain ⟨level, number⟩ := d
  fin_cases level
  · exact ⟨congrArg (List.filter _) h.files0, h.files1⟩
  · exact ⟨h.files0, h.files1.filter _⟩

/-- `Recover` leaves the sorting to the end. -/
theorem SameFiles.push_file (h : SameFiles v v') (a : Fin kNumLevels × FileMetaData) :
    SameFiles (v.push_file a) (v'.add_file a) := by
  obtain ⟨level, file⟩ := a
  fin_cases level
  · exact ⟨congrArg (· ++ [file]) h.files0, h.files1⟩
  · exact ⟨h.files0, (h.files1.append_right [file]).trans (perm_insertionSort _ _).symm⟩

theorem SameFiles.edit (h : SameFiles v v') (edit : VersionEdit) :
    SameFiles (edit.added_files.foldl Version.push_file (edit.deleted_files.foldl Version.delete_file v))
      (edit.added_files.foldl Version.add_file (edit.deleted_files.foldl Version.delete_file v')) := by
  have hdeleted : ∀ (ds : List (Fin kNumLevels × Nat)) {v v' : Version}, SameFiles v v' →
      SameFiles (ds.foldl Version.delete_file v) (ds.foldl Version.delete_file v') := by
    intro ds
    induction ds with
    | nil => exact fun h => h
    | cons d ds ih => exact fun h => ih (h.delete_file d)
  have hadded : ∀ (fs : List (Fin kNumLevels × FileMetaData)) {v v' : Version}, SameFiles v v' →
      SameFiles (fs.foldl Version.push_file v) (fs.foldl Version.add_file v') := by
    intro fs
    induction fs with
    | nil => exact fun h => h
    | cons a fs ih => exact fun h => ih (h.push_file a)
  exact hadded _ (hdeleted _ h)

theorem sorted_delete_file (h : v.files1.Pairwise smallest_le) (d : Fin kNumLevels × Nat) :
    (v.delete_file d).files1.Pairwise smallest_le := by
  obtain ⟨level, number⟩ := d
  fin_cases level
  · exact h
  · exact h.filter _

theorem sorted_add_file (h : v.files1.Pairwise smallest_le) (a : Fin kNumLevels × FileMetaData) :
    (v.add_file a).files1.Pairwise smallest_le := by
  obtain ⟨level, file⟩ := a
  fin_cases level
  · exact h
  · exact pairwise_insertionSort _ _

/-- `LogAndApply` keeps level 1 sorted. -/
theorem sorted_log_and_apply {vs : VersionSet} (h : vs.current.files1.Pairwise smallest_le) (edit : VersionEdit) :
    (vs.log_and_apply edit).1.current.files1.Pairwise smallest_le := by
  have hdeleted := List.foldlRecOn (motive := fun v => v.files1.Pairwise smallest_le) edit.deleted_files
    Version.delete_file h fun _ hv d _ => sorted_delete_file hv d
  exact List.foldlRecOn (motive := fun v => v.files1.Pairwise smallest_le) edit.added_files
    Version.add_file hdeleted fun _ hv a _ => sorted_add_file hv a

/-- All records of the manifest after some edits. -/
def manifestRecords (edits : List VersionEdit) : List VersionEdit := new_db.1.write_snapshot :: edits

/-- What `Recover` makes of the records, before it sorts level 1. -/
def replayed (edits : List VersionEdit) : VersionSet := (manifestRecords edits).foldl recover_edit {}

/-- The manifest holds the frames of all edits, and replaying them gives the files and the
    log number of the running set. -/
structure Mirrors (edits : List VersionEdit) (state : VersionSet × ManifestDir) : Prop where
  number : state.1.manifest_file_number = 1
  current : state.2.current = some "MANIFEST-1\n"
  manifest : state.2.manifests "MANIFEST-1" = some ((manifestRecords edits).flatMap VersionEdit.frame_edit)
  files : SameFiles (replayed edits).current state.1.current
  sorted : state.1.current.files1.Pairwise smallest_le
  log_number : (replayed edits).log_number = state.1.log_number

theorem Mirrors.step {state : VersionSet × ManifestDir} (h : Mirrors edits state)
    (edit : VersionEdit) : Mirrors (edits ++ [edit]) (log_and_apply_files state edit) := by
  have hrecords : manifestRecords (edits ++ [edit]) = manifestRecords edits ++ [edit] := rfl
  have hreplayed : replayed (edits ++ [edit]) = (replayed edits).recover_edit edit := by
    rw [replayed, hrecords, foldl_append]
    rfl
  have hbase : manifest_base state.1.manifest_file_number = "MANIFEST-1" := by
    rw [h.number]
    decide
  refine ⟨h.number, h.current, ?_, ?_, sorted_log_and_apply h.sorted edit, ?_⟩
  · simp only [log_and_apply_files, hbase, update_self, h.manifest, hrecords, flatMap_append]
    simp
  · rw [hreplayed]
    exact h.files.edit edit
  · rw [hreplayed]
    show edit.log_number.getD _ = edit.log_number.getD _
    rw [h.log_number]

theorem mirrors_logged (edits : List VersionEdit) : Mirrors edits (logged edits) := by
  induction edits using List.reverseRecOn with
  | nil => exact ⟨rfl, by decide, by decide, ⟨rfl, List.Perm.refl _⟩, List.Pairwise.nil, rfl⟩
  | append_singleton edits edit ih =>
    rw [logged, foldl_append]
    exact ih.step edit

/-- The counters are those that were logged last. -/
theorem replayed_counters (edits : List VersionEdit) :
    (replayed edits).next_file_number = (edits.filterMap VersionEdit.next_file_number).getLast?.getD 2 ∧
      (replayed edits).last_sequence = (edits.filterMap VersionEdit.last_sequence).getLast?.getD 0 ∧
      (replayed edits).manifest_file_number = 1 := by
  induction edits using List.reverseRecOn with
  | nil => exact ⟨rfl, rfl, rfl⟩
  | append_singleton edits edit ih =>
    obtain ⟨hnext, hlast, hnumber⟩ := ih
    have hreplayed : replayed (edits ++ [edit]) = (replayed edits).recover_edit edit := by
      rw [replayed, manifestRecords, ← cons_append, foldl_append]
      rfl
    rw [hreplayed]
    refine ⟨?_, ?_, hnumber⟩
    · show edit.next_file_number.getD _ = _
      rw [hnext]
      cases hcase : edit.next_file_number <;> simp [hcase]
    · show edit.last_sequence.getD _ = _
      rw [hlast]
      cases hcase : edit.last_sequence <;> simp [hcase]

/-- A sorted level whose smallest user keys are distinct is the only sorted order of its files. -/
theorem sort_level1_eq (h : SameFiles v v') (hsorted : v'.files1.Pairwise smallest_le)
    (hdistinct : (v'.files1.map fun f => extract_user_key f.smallest).Nodup) : v.sort_level1 = v' := by
  have hperm := (perm_insertionSort smallest_le v.files1).trans h.files1
  have hfiles : v.files1.insertionSort smallest_le = v'.files1 := by
    refine List.Perm.eq_of_pairwise (fun f g hf hg hfg hgf => ?_) (pairwise_insertionSort _ _) hsorted hperm
    exact inj_on_of_nodup_map hdistinct (hperm.mem_iff.mp hf) hg (le_antisymm hfg hgf)
  obtain ⟨files0, files1⟩ := v
  obtain ⟨files0', files1'⟩ := v'
  rw [sort_level1, hfiles, h.files0]

theorem recover_files_logged (dbname : String) (hfits : ∀ edit ∈ edits, edit.Fits) :
    recover_files dbname (logged edits).2 =
      .ok { replayed edits with current := (replayed edits).current.sort_level1 } := by
  have h := mirrors_logged edits
  have hrecords : ∀ edit ∈ manifestRecords edits, edit.Fits := by
    refine forall_mem_cons.mpr ⟨⟨?_, ?_, ?_, ?_, ?_, by decide⟩, hfits⟩ <;>
      simp [new_db, write_snapshot]
  have hreplay : framing.replay next_edit recover_edit _ _ {} = .ok (replayed edits) :=
    framing.replay_whole (fun edit _ => VersionEdit.frame_edit_ne_nil edit)
      (fun edit hedit => next_edit_frame (hrecords edit hedit)) rfl ({} : VersionSet)
  have hbase : current_base "MANIFEST-1\n" = "MANIFEST-1" := by decide
  have hdigits : strtoull (("MANIFEST-1".toList.dropWhile (· ≠ '-')).drop 1) = 1 := by decide
  have hdash : '-' ∈ "MANIFEST-1".toList := by decide
  simp only [recover_files, h.current, hbase, h.manifest, if_pos hdash, hdigits]
  rw [hreplay]
  rfl

/-- After any edits `Recover` rebuilds the running set from CURRENT and the manifest: the
    files of both levels in their order, the log number, and the counters that were logged
    last. The edits are assumed to fit their length fields, and no two tables of level 1
    to have the same smallest key; their order is free. -/
theorem recover_logged (dbname : String) {edits : List VersionEdit} (hfits : ∀ edit ∈ edits, edit.Fits)
    (hdistinct : ((logged edits).1.current.files1.map fun f => extract_user_key f.smallest).Nodup) :
    ∃ vs, recover_files dbname (logged edits).2 = .ok vs ∧ vs.current = (logged edits).1.current ∧
      vs.log_number = (logged edits).1.log_number ∧
      vs.next_file_number = (edits.filterMap VersionEdit.next_file_number).getLast?.getD 2 ∧
      vs.last_sequence = (edits.filterMap VersionEdit.last_sequence).getLast?.getD 0 ∧
      vs.manifest_file_number = (logged edits).1.manifest_file_number := by
  have h := mirrors_logged edits
  obtain ⟨hnext, hlast, hnumber⟩ := replayed_counters edits
  refine ⟨_, recover_files_logged dbname hfits, ?_, h.log_number, hnext, hlast, hnumber.trans h.number.symm⟩
  exact sort_level1_eq h.files h.sorted hdistinct

/-- A flush, and a merge that replaces its table by two of level 1. -/
def flushAndMerge : List VersionEdit :=
  [{ next_file_number := some 4, added_files := [(0, { number := 3 })] },
    { last_sequence := some 7, deleted_files := [(0, 3)]
      added_files := [(1, { number := 5, smallest := [98] }), (1, { number := 4, smallest := [97] })] }]

theorem recover_flush_and_merge :
    ∃ vs, recover_files "db" (logged flushAndMerge).2 = .ok vs ∧
      vs.current = { files0 := [], files1 := [{ number := 4, smallest := [97] }, { number := 5, smallest := [98] }] } ∧
      vs.next_file_number = 4 ∧ vs.last_sequence = 7 := by
  have hfits : ∀ edit ∈ flushAndMerge, edit.Fits := by
    intro edit hedit
    simp only [flushAndMerge, mem_cons, not_mem_nil, or_false] at hedit
    rcases hedit with rfl | rfl
    · exact ⟨by simp, by simp, by simp, by simp, by simp, by decide⟩
    · exact ⟨by simp, by simp, by simp, by simp, by simp, by decide⟩
  obtain ⟨vs, hrecover, hcurrent, -, hnext, hlast, -⟩ := recover_logged "db" hfits (by decide)
  exact ⟨vs, hrecover, hcurrent.trans (by decide), hnext, hlast⟩

end VersionSet

end lsmkv
