import LsmKv.Lib.Snapshot
import LsmKv.Reldb.Programs

namespace reldb

open lsmkv (Status)
open snapshot (committedAt)
open Function VersionRecord

/-- The content of a version: nothing for a deletion. -/
def VersionRecord.value (v : VersionRecord) : Option Row := if v.is_tombstone then none else some v.payload

/-- The status of a read that finds the given content. -/
def Reads (result : Except Status Row) : Option Row → Prop
  | some row => result = .ok row
  | none => ∃ msg, result = .error (.NotFound msg)

/-- A chain of committed versions of one row, newest first. Each one is closed by the
    start of its successor, and the newest one by `succ`. -/
def Linked (versions : Nat → Option VersionRecord) : Nat → Nat → List (Nat × Option Row) → Prop
  | id, _, [] => id = 0
  | id, succ, (ts, value) :: rest => id ≠ 0 ∧ ts ≠ 0 ∧ ∃ rec, versions id = some rec ∧ rec.version_id = id ∧
      rec.start_ts = ts ∧ rec.end_ts = succ ∧ rec.value = value ∧ rec.prev_id < id ∧
      Linked versions rec.prev_id ts rest

section Linked

variable {versions versions' : Nat → Option VersionRecord} {id succ : Nat} {entries : List (Nat × Option Row)}

theorem Linked.eq_nil (h : Linked versions 0 succ entries) : entries = [] := by
  cases entries with
  | nil => rfl
  | cons e rest => exact absurd rfl h.1

/-- A chain depends on the versions up to its first one only. -/
theorem Linked.congr (h : Linked versions id succ entries) (hsame : ∀ n ≤ id, versions' n = versions n) :
    Linked versions' id succ entries := by
  induction entries generalizing id succ with
  | nil => exact h
  | cons e rest ih =>
    obtain ⟨hid, hts, rec, hrec, hvid, hstart, hend, hvalue, hprev, hrest⟩ := h
    refine ⟨hid, hts, rec, (hsame id le_rfl).trans hrec, hvid, hstart, hend, hvalue, hprev, ih hrest ?_⟩
    exact fun n hn => hsame n (hn.trans hprev.le)

/-- Closing the newest version of a chain. -/
theorem Linked.close (h : Linked versions id succ entries) {rec : VersionRecord} (hrec : versions id = some rec)
    (succ' : Nat) : Linked (update versions id (some { rec with end_ts := succ' })) id succ' entries := by
  cases entries with
  | nil => exact h
  | cons e rest =>
    obtain ⟨hid, hts, rec', hrec', hvid, hstart, -, hvalue, hprev, hrest⟩ := h
    cases hrec.symm.trans hrec'
    refine ⟨hid, hts, _, update_self .., hvid, hstart, rfl, hvalue, hprev, hrest.congr ?_⟩
    intro n hn
    exact update_of_ne (hn.trans_lt hprev).ne _ _

/-- The version on top of a chain is stamped. -/
theorem Linked.head_stamped (h : Linked versions id succ entries) (hne : entries ≠ []) :
    ∃ rec, versions id = some rec ∧ rec.start_ts ≠ 0 := by
  cases entries with
  | nil => exact absurd rfl hne
  | cons e rest =>
    obtain ⟨-, hts, rec, hrec, -, hstart, -⟩ := h
    exact ⟨rec, hrec, by rw [hstart]; exact hts⟩

end Linked

namespace Kv

variable {kv : Kv} {key : RowKey} {snapshot reader : Nat} {txn_status : Option (Nat → Except Status TxnMeta)}
  {id succ : Nat} {entries : List (Nat × Option Row)}

theorem visible_version_zero (fuel : Nat) :
    kv.visible_version key snapshot reader txn_status fuel 0 = .ok none := by
  cases fuel <;> rfl

/-- A reader of a chain meets the version that its snapshot sees. -/
theorem visible_version_linked (h : Linked (kv.versions key) id succ entries) (hsucc : succ = 0 ∨ snapshot < succ)
    {fuel : Nat} (hfuel : id ≤ fuel) :
    (committedAt entries snapshot = none ∧
        kv.visible_version key snapshot reader txn_status fuel id = .ok none) ∨
      ∃ rec, committedAt entries snapshot = some rec.value ∧
        kv.visible_version key snapshot reader txn_status fuel id = .ok (some rec) := by
  induction entries generalizing id succ fuel with
  | nil =>
    have hid : id = 0 := h
    subst hid
    exact .inl ⟨rfl, visible_version_zero fuel⟩
  | cons e rest ih =>
    obtain ⟨ts, value⟩ := e
    obtain ⟨hid, hts, rec, hrec, -, rfl, rfl, rfl, hprev, hrest⟩ := h
    obtain ⟨fuel, rfl⟩ : ∃ n, fuel = n + 1 := Nat.exists_eq_add_one.mpr (by omega)
    have hprovisional : rec.is_provisional = false := by simp [is_provisional, hts]
    rw [visible_version, if_neg hid, get_version_eq_ok.mpr hrec]
    simp only [visible, hprovisional, Bool.false_eq_true, if_false]
    by_cases hle : rec.start_ts ≤ snapshot
    · have hopen : ¬ (rec.end_ts ≠ 0 ∧ rec.end_ts ≤ snapshot) := by
        rintro ⟨hne, hle'⟩
        rcases hsucc with hzero | hlt
        · exact hne hzero
        · exact absurd hle' (not_le.mpr hlt)
      have hvisible : is_committed_visible rec snapshot = true := by
        simp only [is_committed_visible, hprovisional, Bool.false_eq_true, if_false, not_lt.mpr hle, hopen]
      rw [hvisible]
      exact .inr ⟨rec, by simp [committedAt, hle], rfl⟩
    · have hvisible : is_committed_visible rec snapshot = false := by
        simp only [is_committed_visible, hprovisional, Bool.false_eq_true, if_false, not_le.mp hle, if_true]
      have hskip : committedAt ((rec.start_ts, rec.value) :: rest) snapshot = committedAt rest snapshot := by
        simp [committedAt, hle]
      rw [hvisible, hskip]
      exact ih hrest (.inr (not_le.mp hle)) (by omega)

/-- A reader meets stored versions of the chain only, and of the provisional ones only its
    own. -/
theorem visible_version_reaches {P : Nat → Prop}
    (hclosed : ∀ v rec, P v → kv.versions key v = some rec → rec.prev_id = 0 ∨ P rec.prev_id) {fuel : Nat}
    {rec : VersionRecord} (hid : id = 0 ∨ P id)
    (h : kv.visible_version key snapshot reader txn_status fuel id = .ok (some rec)) :
    (∃ v, P v ∧ kv.versions key v = some rec) ∧ (rec.start_ts = 0 → rec.created_by = reader) := by
  induction fuel generalizing id with
  | zero =>
    rw [visible_version] at h
    split at h <;> cases h
  | succ fuel ih =>
    rw [visible_version] at h
    split at h
    · cases h
    next hnonzero =>
    have hid := hid.resolve_left hnonzero
    cases hcur : kv.versions key id with
    | none =>
      rw [get_version, hcur] at h
      cases h
    | some cur =>
      rw [get_version_eq_ok.mpr hcur] at h
      dsimp only at h
      cases hvisible : visible cur snapshot reader txn_status with
      | error s =>
        rw [hvisible] at h
        cases h
      | ok seen =>
        rw [hvisible] at h
        cases seen with
        | false => exact ih (hclosed id cur hid hcur) h
        | true =>
          cases h
          refine ⟨⟨id, hid, hcur⟩, fun hzero => ?_⟩
          by_contra hother
          simp only [visible, is_provisional, hzero, decide_true, if_true, if_neg hother] at hvisible
          split at hvisible
          · cases hvisible
          · split at hvisible
            · cases hvisible
            · split at hvisible <;> cases hvisible

theorem visible_version_some {fuel : Nat} {rec : VersionRecord}
    (h : kv.visible_version key snapshot reader txn_status fuel id = .ok (some rec)) :
    (∃ v, kv.versions key v = some rec) ∧ (rec.start_ts = 0 → rec.created_by = reader) := by
  obtain ⟨⟨v, -, hrec⟩, howner⟩ :=
    visible_version_reaches (P := fun _ => True) (fun _ _ _ _ => .inr trivial) (.inr trivial) h
  exact ⟨⟨v, hrec⟩, howner⟩

/-- A row that is read is in the chain of its head. -/
theorem get_row_reaches {P : Nat → Prop} (hhead : ∀ head, kv.heads key = some head → P head)
    (hclosed : ∀ v rec, P v → kv.versions key v = some rec → rec.prev_id = 0 ∨ P rec.prev_id) {row : Row}
    (h : kv.get_row key snapshot reader txn_status = .ok row) :
    ∃ v rec, P v ∧ kv.versions key v = some rec ∧ rec.is_tombstone = false ∧ rec.payload = row := by
  rw [get_row] at h
  cases hcase : kv.heads key with
  | none =>
    rw [hcase] at h
    cases h
  | some head =>
    rw [hcase] at h
    dsimp only at h
    cases hvisible : kv.visible_version key snapshot reader txn_status head head with
    | error s =>
      rw [hvisible] at h
      cases h
    | ok found =>
      rw [hvisible] at h
      cases found with
      | none => cases h
      | some rec =>
        dsimp only at h
        split at h
        · cases h
        next hlive =>
        obtain ⟨⟨v, hv, hrec⟩, -⟩ := visible_version_reaches hclosed (.inr (hhead head hcase)) hvisible
        exact ⟨v, rec, hv, hrec, by simpa using hlive, Except.ok.inj h⟩

theorem reads_of_visible {head : Nat} (hhead : kv.heads key = some head) {value : Option (Option Row)}
    (h : (value = none ∧ kv.visible_version key snapshot reader txn_status head head = .ok none) ∨
      ∃ rec, value = some rec.value ∧
        kv.visible_version key snapshot reader txn_status head head = .ok (some rec)) :
    Reads (kv.get_row key snapshot reader txn_status) value.join := by
  rw [get_row, hhead]
  rcases h with ⟨rfl, hnone⟩ | ⟨rec, rfl, hsome⟩
  · simp only [hnone]
    exact ⟨_, rfl⟩
  · simp only [hsome, Option.join_some, VersionRecord.value]
    split
    · exact ⟨_, rfl⟩
    · rfl

/-- Reading a row whose head is committed. -/
theorem get_row_committed {head : Nat} (hhead : kv.heads key = some head)
    (h : Linked (kv.versions key) head 0 entries) :
    Reads (kv.get_row key snapshot reader txn_status) (committedAt entries snapshot).join :=
  reads_of_visible hhead (visible_version_linked h (.inl rfl) le_rfl)

section Provisional

variable {head : Nat} {rec : VersionRecord} (hhead : kv.heads key = some head)
  (hrec : kv.versions key head = some rec) (hpos : 0 < head) (hprovisional : rec.start_ts = 0)

include hhead hrec hpos hprovisional

/-- A transaction reads its own provisional version. -/
theorem get_row_own (howner : rec.created_by = reader) :
    Reads (kv.get_row key snapshot reader txn_status) rec.value := by
  refine reads_of_visible hhead (.inr ⟨rec, rfl, ?_⟩)
  obtain ⟨fuel, rfl⟩ : ∃ n, head = n + 1 := Nat.exists_eq_add_one.mpr hpos
  rw [visible_version, if_neg (by omega), get_version_eq_ok.mpr hrec]
  simp [visible, is_provisional, hprovisional, howner]

/-- The provisional version of another transaction is passed over. -/
theorem get_row_other (howner : rec.created_by ≠ reader) {txn_meta : TxnMeta}
    (hmeta : kv.txns rec.created_by = some txn_meta) (hstate : txn_meta.state ≠ .kCommitted)
    (hprev : rec.prev_id < head) (h : Linked (kv.versions key) rec.prev_id 0 entries) :
    Reads (kv.get_row key snapshot reader (some kv.get_txn_meta)) (committedAt entries snapshot).join := by
  refine reads_of_visible hhead ?_
  obtain ⟨fuel, rfl⟩ : ∃ n, head = n + 1 := Nat.exists_eq_add_one.mpr hpos
  have hskip : kv.visible_version key snapshot reader (some kv.get_txn_meta) (fuel + 1) (fuel + 1) =
      kv.visible_version key snapshot reader (some kv.get_txn_meta) fuel rec.prev_id := by
    rw [visible_version, if_neg (by omega), get_version_eq_ok.mpr hrec]
    simp [visible, is_provisional, hprovisional, howner, get_txn_meta, hmeta, hstate]
  rw [hskip]
  exact visible_version_linked h (.inl rfl) (by omega)

end Provisional

theorem get_row_no_head (hhead : kv.heads key = none) :
    Reads (kv.get_row key snapshot reader txn_status) none := by
  rw [get_row, hhead]
  exact ⟨_, rfl⟩

end Kv

/-- The walk of a first write over a committed chain: it passes only if the newest
    commit is in the snapshot. -/
theorem Transaction.check_newest_committed_linked {kv : Kv} {txn : Transaction} {key : RowKey} {id : Nat}
    {entries : List (Nat × Option Row)} (h : Linked (kv.versions key) id 0 entries) {fuel : Nat}
    (hcheck : txn.check_newest_committed kv key fuel id = .ok ()) : ∀ e ∈ entries.head?, e.1 ≤ txn.start_ts := by
  cases entries with
  | nil => simp
  | cons e rest =>
    obtain ⟨hid, hts, rec, hrec, -, hstart, -⟩ := h
    simp only [List.head?_cons, Option.mem_def, Option.some.injEq, forall_eq']
    rw [← hstart] at hts ⊢
    exact check_newest_committed_stamped hid hrec hts hcheck

end reldb
