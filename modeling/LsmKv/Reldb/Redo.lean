import LsmKv.Reldb.Recoverable

namespace reldb

open lsmkv (Status)
open Function effects Database

/-- The store after some versions were closed or stamped with the given timestamp. -/
structure Applied (commit_ts : Nat) (kv kv' : Kv) : Prop where
  txns : kv'.txns = kv.txns
  heads : kv'.heads = kv.heads
  next_ts : kv'.next_ts = kv.next_ts
  next_txn : kv'.next_txn = kv.next_txn
  next_vid : kv'.next_vid = kv.next_vid
  absent : ∀ k v, kv.versions k v = none → kv'.versions k v = none
  versions : ∀ k v rec, kv.versions k v = some rec → ∃ rec', kv'.versions k v = some rec' ∧
    rec'.created_by = rec.created_by ∧ (rec'.start_ts = rec.start_ts ∨ rec'.start_ts = commit_ts) ∧
    (rec'.end_ts = rec.end_ts ∨ rec'.end_ts = commit_ts)

section Applied

variable {commit_ts : Nat} {kv kv₁ kv₂ : Kv}

theorem Applied.refl (commit_ts : Nat) (kv : Kv) : Applied commit_ts kv kv :=
  ⟨rfl, rfl, rfl, rfl, rfl, fun _ _ hnone => hnone, fun _ _ rec hrec => ⟨rec, hrec, rfl, .inl rfl, .inl rfl⟩⟩

theorem Applied.trans (h : Applied commit_ts kv kv₁) (h' : Applied commit_ts kv₁ kv₂) : Applied commit_ts kv kv₂ := by
  refine ⟨h'.txns.trans h.txns, h'.heads.trans h.heads, h'.next_ts.trans h.next_ts, h'.next_txn.trans h.next_txn,
    h'.next_vid.trans h.next_vid, fun k v hnone => h'.absent k v (h.absent k v hnone), fun k v rec hrec => ?_⟩
  obtain ⟨rec₁, hrec₁, hcreated, hstart, hend⟩ := h.versions k v rec hrec
  obtain ⟨rec₂, hrec₂, hcreated', hstart', hend'⟩ := h'.versions k v rec₁ hrec₁
  refine ⟨rec₂, hrec₂, hcreated'.trans hcreated, ?_, ?_⟩
  · rcases hstart' with heq | heq
    · rw [heq]
      exact hstart
    · exact .inr heq
  · rcases hend' with heq | heq
    · rw [heq]
      exact hend
    · exact .inr heq

theorem Applied.put {k : RowKey} (rec : VersionRecord) {rec' : VersionRecord} (hrec : kv.versions k rec'.version_id = some rec)
    (hcreated : rec'.created_by = rec.created_by) (hstart : rec'.start_ts = rec.start_ts ∨ rec'.start_ts = commit_ts)
    (hend : rec'.end_ts = rec.end_ts ∨ rec'.end_ts = commit_ts) :
    Applied commit_ts kv (kv.apply (.put_version_value k rec')) := by
  refine ⟨rfl, rfl, rfl, rfl, rfl, fun k' v hnone => ?_, fun k' v rec₀ hsome => ?_⟩
  · rw [Kv.versions_put, if_neg]
    · exact hnone
    · rintro ⟨rfl, rfl⟩
      rw [hrec] at hnone
      cases hnone
  · rw [Kv.versions_put]
    split
    · next hat =>
      obtain ⟨rfl, rfl⟩ := hat
      cases hrec.symm.trans hsome
      exact ⟨rec', rfl, hcreated, hstart, hend⟩
    · exact ⟨rec₀, hsome, rfl, .inl rfl, .inl rfl⟩

theorem Applied.of_some (h : Applied commit_ts kv kv₁) {k : RowKey} {v : Nat} {rec₁ : VersionRecord}
    (hrec₁ : kv₁.versions k v = some rec₁) : ∃ rec, kv.versions k v = some rec ∧
      rec₁.created_by = rec.created_by ∧ (rec₁.start_ts = rec.start_ts ∨ rec₁.start_ts = commit_ts) ∧
      (rec₁.end_ts = rec.end_ts ∨ rec₁.end_ts = commit_ts) := by
  cases hcase : kv.versions k v with
  | none =>
    rw [h.absent k v hcase] at hrec₁
    cases hrec₁
  | some rec =>
    obtain ⟨rec', hrec', hfacts⟩ := h.versions k v rec hcase
    cases hrec'.symm.trans hrec₁
    exact ⟨rec, rfl, hfacts⟩

end Applied

/-- A write that has its stamp. -/
def StampedAt (kv : Kv) (commit_ts : Nat) (w : TxnWrite) : Prop :=
  ∃ rec, kv.versions w.key w.version_id = some rec ∧ rec.start_ts = commit_ts

theorem StampedAt.applied {commit_ts : Nat} {kv kv' : Kv} {w : TxnWrite} (h : StampedAt kv commit_ts w)
    (happlied : Applied commit_ts kv kv') : StampedAt kv' commit_ts w := by
  obtain ⟨rec, hrec, hstart⟩ := h
  obtain ⟨rec', hrec', -, hstart', -⟩ := happlied.versions _ _ _ hrec
  exact ⟨rec', hrec', by rcases hstart' with heq | heq <;> rw [heq]; exact hstart⟩

namespace Recoverable

section Apply

variable {kv : Kv} {id : Nat} {txn_meta : TxnMeta} {w : TxnWrite} {rec : VersionRecord}

/-- A row has one write in flight. -/
theorem inFlight_eq (h : Recoverable kv) (hflight : InFlight kv id txn_meta.commit_ts w rec)
    (hmeta : kv.txns id = some txn_meta) {id' : Nat} {txn_meta' : TxnMeta} {w' : TxnWrite}
    (hmeta' : kv.txns id' = some txn_meta') (hstate' : txn_meta'.state = .kCommitting) (hw' : w' ∈ txn_meta'.writes)
    (hkey : w'.key = w.key) : id' = id ∧ txn_meta' = txn_meta ∧ w' = w := by
  obtain ⟨-, -, hall⟩ := h.committing id' txn_meta' hmeta' hstate'
  obtain ⟨rec', hflight'⟩ := hall w' hw'
  have hhead := hflight'.head
  rw [hkey, hflight.head] at hhead
  have hvid : w'.version_id = w.version_id := (Option.some.inj hhead).symm
  have hrec := hflight'.version
  rw [hkey, hvid, hflight.version] at hrec
  cases hrec
  have hid : id' = id := hflight'.created_by.symm.trans hflight.created_by
  subst hid
  refine ⟨rfl, Option.some.inj (hmeta'.symm.trans hmeta), ?_⟩
  obtain ⟨table, pk, vid⟩ := w
  obtain ⟨table', pk', vid'⟩ := w'
  simp only [TxnWrite.key, Prod.mk.injEq] at hkey hvid
  simp [hkey, hvid]

variable (h : Recoverable kv) (hmeta : kv.txns id = some txn_meta) (hstate : txn_meta.state = .kCommitting)
  (hflight : InFlight kv id txn_meta.commit_ts w rec) (hzero : rec.start_ts = 0)

include h hmeta hstate hflight hzero

/-- Closing the predecessor of a write in flight. -/
theorem close {prev : VersionRecord} (hprev : kv.versions w.key rec.prev_id = some prev) (hstart : prev.start_ts ≠ 0)
    (hend : prev.end_ts = 0) :
    Recoverable (kv.apply (.put_version_value w.key { prev with end_ts := txn_meta.commit_ts })) ∧
      InFlight (kv.apply (.put_version_value w.key { prev with end_ts := txn_meta.commit_ts })) id
        txn_meta.commit_ts w rec ∧
      PrevEnds (kv.apply (.put_version_value w.key { prev with end_ts := txn_meta.commit_ts })) w.key rec
        txn_meta.commit_ts := by
  have hvid : prev.version_id = rec.prev_id := (h.versions _ _ _ hprev).1
  have hlt : rec.prev_id < w.version_id := (h.versions _ _ _ hflight.version).2.2.2
  have hclosed : (kv.apply (.put_version_value w.key { prev with end_ts := txn_meta.commit_ts })).versions w.key
      rec.prev_id = some { prev with end_ts := txn_meta.commit_ts } := by
    rw [Kv.versions_put, if_pos ⟨rfl, hvid.symm⟩]
  have hversion : (kv.apply (.put_version_value w.key { prev with end_ts := txn_meta.commit_ts })).versions w.key
      w.version_id = some rec := by
    rw [Kv.versions_put, if_neg]
    · exact hflight.version
    · rintro ⟨-, heq⟩
      exact hlt.ne' (heq.trans hvid)
  have hends : PrevEnds (kv.apply (.put_version_value w.key { prev with end_ts := txn_meta.commit_ts })) w.key rec
      txn_meta.commit_ts := .inr ⟨_, hclosed, hstart, rfl⟩
  have hflight' : InFlight (kv.apply (.put_version_value w.key { prev with end_ts := txn_meta.commit_ts })) id
      txn_meta.commit_ts w rec :=
    ⟨hversion, hflight.created_by, hflight.head, hflight.live, .inl ⟨hzero, .inr hends⟩⟩
  refine ⟨?_, hflight', hends⟩
  refine h.put_version prev (by rw [hvid]; exact hprev) rfl rfl (fun _ => rfl)
    (fun hne => absurd hend hne) ?_ ?_ ?_
  · intro owner howner hcase
    obtain ⟨owner', howner', hok⟩ := h.owner _ _ _ hprev
    cases howner.symm.trans howner'
    rw [OwnerOk] at hok
    rcases hcase with hcase | hcase <;> rw [hcase] at hok <;> exact absurd hok.1 hstart
  · intro head rec₀ hhead hrec₀
    cases hflight.head.symm.trans hhead
    cases hversion.symm.trans hrec₀
    refine ⟨fun hne => absurd hzero hne, fun _ => .inr ⟨txn_meta, ?_, hstate⟩⟩
    rw [hflight.created_by]
    exact hmeta
  · intro id' txn_meta' hmeta' hstate' w' hw' hkey
    obtain ⟨rfl, rfl, rfl⟩ := h.inFlight_eq hflight hmeta hmeta' hstate' hw' hkey
    exact ⟨rec, hflight'⟩

/-- Stamping a write in flight above its closed predecessor. -/
theorem stamp (hends : PrevEnds kv w.key rec txn_meta.commit_ts) :
    Recoverable (kv.apply (.put_version_value w.key { rec with start_ts := txn_meta.commit_ts })) ∧
      InFlight (kv.apply (.put_version_value w.key { rec with start_ts := txn_meta.commit_ts })) id
        txn_meta.commit_ts w { rec with start_ts := txn_meta.commit_ts } := by
  obtain ⟨hts, -, -⟩ := h.committing id txn_meta hmeta hstate
  obtain ⟨hvid, -, -, hlt⟩ := h.versions _ _ _ hflight.version
  have hversion : (kv.apply (.put_version_value w.key { rec with start_ts := txn_meta.commit_ts })).versions w.key
      w.version_id = some { rec with start_ts := txn_meta.commit_ts } := by
    rw [Kv.versions_put, if_pos ⟨rfl, hvid.symm⟩]
  have hends' : PrevEnds (kv.apply (.put_version_value w.key { rec with start_ts := txn_meta.commit_ts })) w.key
      { rec with start_ts := txn_meta.commit_ts } txn_meta.commit_ts := by
    rcases hends with hnone | ⟨prev, hprev, hfacts⟩
    · exact .inl hnone
    · refine .inr ⟨prev, ?_, hfacts⟩
      rw [Kv.versions_put, if_neg]
      · exact hprev
      · rintro ⟨-, heq⟩
        exact hlt.ne (heq.trans hvid)
  have hflight' : InFlight (kv.apply (.put_version_value w.key { rec with start_ts := txn_meta.commit_ts })) id
      txn_meta.commit_ts w { rec with start_ts := txn_meta.commit_ts } :=
    ⟨hversion, hflight.created_by, hflight.head, hflight.live, .inr ⟨rfl, hends'⟩⟩
  refine ⟨?_, hflight'⟩
  refine h.put_version rec (by rw [hvid]; exact hflight.version) rfl rfl (fun hne => absurd hzero hne)
    (fun _ => rfl) ?_ ?_ ?_
  · intro owner howner hcase
    rw [hflight.created_by, hmeta] at howner
    cases howner
    rw [hstate] at hcase
    rcases hcase with hcase | hcase <;> cases hcase
  · intro head rec₀ hhead hrec₀
    cases hflight.head.symm.trans hhead
    cases hversion.symm.trans hrec₀
    exact ⟨fun _ => hflight.live, fun hcontra => absurd hcontra hts⟩
  · intro id' txn_meta' hmeta' hstate' w' hw' hkey
    obtain ⟨rfl, rfl, rfl⟩ := h.inFlight_eq hflight hmeta hmeta' hstate' hw' hkey
    exact ⟨_, hflight'⟩

end Apply

variable {kv : Kv} {id : Nat} {txn_meta : TxnMeta}

section

variable (h : Recoverable kv) (hmeta : kv.txns id = some txn_meta) (hstate : txn_meta.state = .kCommitting)

include h hmeta hstate

/-- One step of the redo. -/
theorem apply_commit_write {w : TxnWrite} (hw : w ∈ txn_meta.writes) :
    ∃ ops, apply_commit_write id txn_meta.commit_ts w kv = (ops, .ok ()) ∧
      After (fun _ kv' => Recoverable kv' ∧ Applied txn_meta.commit_ts kv kv') kv ops ∧
      Recoverable (applyAll kv ops) ∧ Applied txn_meta.commit_ts kv (applyAll kv ops) ∧
      StampedAt (applyAll kv ops) txn_meta.commit_ts w := by
  obtain ⟨hts, -, hall⟩ := h.committing id txn_meta hmeta hstate
  obtain ⟨rec, hflight⟩ := hall w hw
  have hstart : rec.start_ts = 0 ∨ rec.start_ts = txn_meta.commit_ts := hflight.progress.imp And.left And.left
  refine ⟨_, apply_commit_write_run hflight.version hflight.created_by hstart, ?_⟩
  by_cases hzero : rec.start_ts = 0
  · rw [if_pos hzero]
    -- the stamp on a store where the predecessor is closed
    have hstamp : ∀ kv₁, Recoverable kv₁ → kv₁.txns = kv.txns → Applied txn_meta.commit_ts kv kv₁ →
        InFlight kv₁ id txn_meta.commit_ts w rec → PrevEnds kv₁ w.key rec txn_meta.commit_ts →
        Recoverable (kv₁.apply (.put_version_value w.key { rec with start_ts := txn_meta.commit_ts })) ∧
          Applied txn_meta.commit_ts kv
            (kv₁.apply (.put_version_value w.key { rec with start_ts := txn_meta.commit_ts })) ∧
          StampedAt (kv₁.apply (.put_version_value w.key { rec with start_ts := txn_meta.commit_ts }))
            txn_meta.commit_ts w := by
      intro kv₁ h₁ htxns happlied hflight₁ hends
      obtain ⟨hrecoverable, hflight₂⟩ := h₁.stamp (by rw [htxns]; exact hmeta) hstate hflight₁ hzero hends
      have hvid := (h₁.versions _ _ _ hflight₁.version).1
      refine ⟨hrecoverable, happlied.trans (.put rec (by rw [hvid]; exact hflight₁.version) rfl (.inr rfl) (.inl rfl)),
        _, hflight₂.version, rfl⟩
    by_cases hlive : rec.prev_id ≠ 0 ∧ PrevEnds kv w.key rec 0
    · obtain ⟨hne, hprev⟩ := hlive
      obtain ⟨prev, hsome, hstamped, hopen⟩ := hprev.resolve_left hne
      have hclose : close_ops kv w.key rec.prev_id txn_meta.commit_ts =
          [.put_version_value w.key { prev with end_ts := txn_meta.commit_ts }] := by
        simp [close_ops, hsome, hne, hstamped, hopen]
      obtain ⟨h₁, hflight₁, hends⟩ := h.close hmeta hstate hflight hzero hsome hstamped hopen
      have hvid := (h.versions _ _ _ hsome).1
      have happlied : Applied txn_meta.commit_ts kv
          (kv.apply (.put_version_value w.key { prev with end_ts := txn_meta.commit_ts })) :=
        .put prev (by rw [hvid]; exact hsome) rfl (.inl rfl) (.inr rfl)
      obtain ⟨h₂, happlied₂, hstamped₂⟩ := hstamp _ h₁ rfl happlied hflight₁ hends
      rw [stamp_ops, hclose]
      exact ⟨⟨⟨h₁, happlied⟩, ⟨h₂, happlied₂⟩, trivial⟩, h₂, happlied₂, hstamped₂⟩
    · have hends : PrevEnds kv w.key rec txn_meta.commit_ts := by
        by_cases hne : rec.prev_id = 0
        · exact .inl hne
        · rcases hflight.progress with ⟨-, hprev | hprev⟩ | ⟨-, hprev⟩
          · exact absurd ⟨hne, hprev⟩ hlive
          · exact hprev
          · exact hprev
      have hclose : close_ops kv w.key rec.prev_id txn_meta.commit_ts = [] := by
        rcases hends with hnone | ⟨prev, hsome, -, hend⟩
        · simp only [close_ops, hnone]
          cases kv.versions w.key 0 <;> simp
        · have hclosed : prev.end_ts ≠ 0 := by
            rw [hend]
            exact hts
          simp [close_ops, hsome, hclosed]
      obtain ⟨h₂, happlied₂, hstamped₂⟩ := hstamp kv h rfl (.refl _ kv) hflight hends
      rw [stamp_ops, hclose]
      exact ⟨⟨⟨h₂, happlied₂⟩, trivial⟩, h₂, happlied₂, hstamped₂⟩
  · rw [if_neg hzero]
    exact ⟨trivial, h, .refl _ kv, rec, hflight.version, hstart.resolve_left hzero⟩

/-- The whole redo. -/
theorem apply_commit_writes {ws : List TxnWrite} (hws : ∀ w ∈ ws, w ∈ txn_meta.writes) :
    ∃ ops, apply_commit_writes id txn_meta.commit_ts ws kv = (ops, .ok ()) ∧
      After (fun _ kv' => Recoverable kv' ∧ Applied txn_meta.commit_ts kv kv') kv ops ∧
      Recoverable (applyAll kv ops) ∧ Applied txn_meta.commit_ts kv (applyAll kv ops) ∧
      ∀ w ∈ ws, StampedAt (applyAll kv ops) txn_meta.commit_ts w := by
  induction ws generalizing kv with
  | nil => exact ⟨[], rfl, trivial, h, .refl _ kv, by simp⟩
  | cons w ws ih =>
    obtain ⟨hw, hws⟩ := List.forall_mem_cons.mp hws
    obtain ⟨ops, hrun, hafter, h₁, happlied, hstamped⟩ := h.apply_commit_write hmeta hstate hw
    obtain ⟨ops', hrun', hafter', h₂, happlied', hstamped'⟩ := ih h₁ (by rw [happlied.txns]; exact hmeta) hws
    refine ⟨ops ++ ops', ?_, ?_, ?_⟩
    · refine (Prog.forEach_cons ws hrun).trans ?_
      rw [show Prog.forEach _ ws _ = _ from hrun']
    · exact hafter.append (hafter'.mono fun _ kv' hkv' => ⟨hkv'.1, happlied.trans hkv'.2⟩)
    · rw [applyAll_append]
      refine ⟨h₂, happlied.trans happlied', List.forall_mem_cons.mpr ⟨hstamped.applied happlied', hstamped'⟩⟩

/-- A transaction whose writes all have their stamps is committed. -/
theorem mark_committed (hstamped : ∀ w ∈ txn_meta.writes, StampedAt kv txn_meta.commit_ts w) :
    Recoverable (kv.apply (.put_txn_meta id { state := .kCommitted, commit_ts := txn_meta.commit_ts })) := by
  obtain ⟨hpos, hlt⟩ := h.ids id txn_meta hmeta
  obtain ⟨hts, -, hall⟩ := h.committing id txn_meta hmeta hstate
  have howned : ∀ k v rec, kv.versions k v = some rec → rec.created_by = id →
      rec.start_ts = txn_meta.commit_ts ∧ PrevEnds kv k rec txn_meta.commit_ts := by
    intro k v rec hrec hcreated
    obtain ⟨owner, howner, hok⟩ := h.owner k v rec hrec
    rw [hcreated, hmeta] at howner
    cases howner
    rw [OwnerOk, hstate] at hok
    obtain ⟨rec', hrec', hstart⟩ := hstamped _ hok
    obtain ⟨rec'', hflight⟩ := hall _ hok
    cases hrec.symm.trans hrec'
    cases hrec.symm.trans hflight.version
    refine ⟨hstart, ?_⟩
    rcases hflight.progress with ⟨hzero, -⟩ | ⟨-, hends⟩
    · exact absurd (hstart.symm.trans hzero) hts
    · exact hends
  refine h.put_txn_meta hpos hlt ?_ ?_ (by rintro ⟨⟩) (by rintro w ⟨⟩)
  · intro k v rec hrec hcreated
    exact ⟨hts, howned k v rec hrec hcreated⟩
  · intro k head rec _ hrec hcreated hzero
    exact absurd ((howned k head rec hrec hcreated).1.symm.trans hzero) hts

end

end Recoverable

/-- The store after some heads of one transaction went back to the version below. -/
structure Restored (id : Nat) (kv kv' : Kv) : Prop where
  txns : kv'.txns = kv.txns
  versions : kv'.versions = kv.versions
  next_ts : kv'.next_ts = kv.next_ts
  next_txn : kv'.next_txn = kv.next_txn
  next_vid : kv'.next_vid = kv.next_vid
  heads : ∀ k, kv'.heads k = kv.heads k ∨
    ∃ v rec, kv.heads k = some v ∧ kv.versions k v = some rec ∧ rec.created_by = id

section Restored

variable {id : Nat} {kv kv₁ kv₂ : Kv}

theorem Restored.refl (id : Nat) (kv : Kv) : Restored id kv kv := ⟨rfl, rfl, rfl, rfl, rfl, fun _ => .inl rfl⟩

theorem Restored.trans (h : Restored id kv kv₁) (h' : Restored id kv₁ kv₂) : Restored id kv kv₂ := by
  refine ⟨h'.txns.trans h.txns, h'.versions.trans h.versions, h'.next_ts.trans h.next_ts, h'.next_txn.trans h.next_txn,
    h'.next_vid.trans h.next_vid, fun k => ?_⟩
  rcases h.heads k with hsame | hmoved
  · rcases h'.heads k with hsame' | ⟨v, rec, hhead, hrec, hcreated⟩
    · exact .inl (hsame'.trans hsame)
    · exact .inr ⟨v, rec, hsame.symm.trans hhead, by rw [← h.versions]; exact hrec, hcreated⟩
  · exact .inr hmoved

end Restored

namespace Recoverable

variable {kv : Kv} {id : Nat} {txn_meta : TxnMeta}

section

variable (h : Recoverable kv) (hmeta : kv.txns id = some txn_meta) (hstate : txn_meta.state = .kOpen)

include h hmeta hstate

/-- One head goes back to the version below. -/
theorem restore_head {w : TxnWrite} (hw : ∃ rec, kv.versions w.key w.version_id = some rec ∧ rec.created_by = id) :
    ∃ ops, Database.restore_head w kv = (ops, .ok ()) ∧
      After (fun _ kv' => Recoverable kv' ∧ Restored id kv kv') kv ops ∧
      Recoverable (applyAll kv ops) ∧ Restored id kv (applyAll kv ops) := by
  obtain ⟨rec, hrec, hcreated⟩ := hw
  refine ⟨_, restore_head_run fun _ => ⟨rec, hrec⟩, ?_⟩
  by_cases hhead : kv.heads w.key = some w.version_id
  · have hmoved : Recoverable { kv with heads := update kv.heads w.key (restored_head kv w) } := by
      refine h.move_head ?_ ?_
      · intro v hv
        rw [restored_head, hrec] at hv
        dsimp only at hv
        split at hv
        · cases hv
        · next hne =>
          cases hv
          obtain ⟨rec', hrec', -, hbelow⟩ := h.heads _ _ hhead
          cases hrec.symm.trans hrec'
          obtain ⟨owner, howner, hok⟩ := h.owner _ _ _ hrec
          rw [hcreated, hmeta] at howner
          cases howner
          rw [OwnerOk, hstate] at hok
          rcases hbelow hok.1 with hprev | ⟨owner, howner, hcommitting⟩
          · obtain ⟨prev, hsome, hstart, hend⟩ := hprev.resolve_left hne
            exact ⟨prev, hsome, fun _ => hend, fun hzero => absurd hzero hstart⟩
          · rw [hcreated, hmeta] at howner
            cases howner
            rw [hstate] at hcommitting
            cases hcommitting
      · intro id' txn_meta' hmeta' hstate' w' hw' hkey
        obtain ⟨-, -, hall⟩ := h.committing id' txn_meta' hmeta' hstate'
        obtain ⟨rec', hflight⟩ := hall w' hw'
        have hhead' := hflight.head
        have hversion := hflight.version
        rw [hkey, hhead] at hhead'
        rw [hkey, ← Option.some.inj hhead', hrec] at hversion
        cases hversion
        rw [← hflight.created_by, hcreated, hmeta] at hmeta'
        cases hmeta'
        rw [hstate] at hstate'
        cases hstate'
    have hrestored : Restored id kv
        { kv with heads := update kv.heads w.key (restored_head kv w) } := by
      refine ⟨rfl, rfl, rfl, rfl, rfl, fun k => ?_⟩
      by_cases hk : k = w.key
      · subst hk
        exact .inr ⟨_, rec, hhead, hrec, hcreated⟩
      · exact .inl (update_of_ne hk _ _)
    have happly := applyAll_restore_ops hhead hrec
    rw [happly]
    refine ⟨?_, hmoved, hrestored⟩
    -- a single write
    have hops : ∃ op, restore_ops kv w = [op] := by
      simp only [restore_ops, hhead, hrec, ne_eq, not_true_eq_false, if_false]
      split <;> exact ⟨_, rfl⟩
    obtain ⟨op, hop⟩ := hops
    rw [hop] at happly ⊢
    refine ⟨?_, trivial⟩
    rw [show Store.apply kv op = _ from happly]
    exact ⟨hmoved, hrestored⟩
  · have hnil : restore_ops kv w = [] := by
      simp only [restore_ops, hrec]
      cases hcase : kv.heads w.key with
      | none => rfl
      | some head =>
        rw [hcase] at hhead
        have hne : head ≠ w.version_id := fun heq => hhead (by rw [heq])
        simp [hne]
    rw [hnil]
    exact ⟨trivial, h, .refl id kv⟩

theorem forEach_restore_head {ws : List TxnWrite}
    (hws : ∀ w ∈ ws, ∃ rec, kv.versions w.key w.version_id = some rec ∧ rec.created_by = id) :
    ∃ ops, Prog.forEach Database.restore_head ws kv = (ops, .ok ()) ∧
      After (fun _ kv' => Recoverable kv' ∧ Restored id kv kv') kv ops ∧
      Recoverable (applyAll kv ops) ∧ Restored id kv (applyAll kv ops) := by
  induction ws generalizing kv with
  | nil => exact ⟨[], rfl, trivial, h, .refl id kv⟩
  | cons w ws ih =>
    obtain ⟨hw, hws⟩ := List.forall_mem_cons.mp hws
    obtain ⟨ops, hrun, hafter, h₁, hrestored⟩ := h.restore_head hmeta hstate hw
    obtain ⟨ops', hrun', hafter', h₂, hrestored'⟩ := ih h₁ (by rw [hrestored.txns]; exact hmeta)
      (by rw [hrestored.versions]; exact hws)
    refine ⟨ops ++ ops', ?_, ?_, ?_⟩
    · rw [Prog.forEach_cons ws hrun, hrun']
    · exact hafter.append (hafter'.mono fun _ kv' hkv' => ⟨hkv'.1, hrestored.trans hkv'.2⟩)
    · rw [applyAll_append]
      exact ⟨h₂, hrestored.trans hrestored'⟩

/-- An open transaction whose heads went back is aborted. -/
theorem mark_aborted :
    Recoverable (kv.apply (.put_txn_meta id { state := .kAborted })) := by
  obtain ⟨hpos, hlt⟩ := h.ids id txn_meta hmeta
  refine h.put_txn_meta hpos hlt ?_ ?_ (by rintro ⟨⟩) (by rintro w ⟨⟩)
  · intro k v rec hrec hcreated
    obtain ⟨owner, howner, hok⟩ := h.owner k v rec hrec
    rw [hcreated, hmeta] at howner
    cases howner
    rw [OwnerOk, hstate] at hok
    exact hok
  · intro k head rec hhead hrec hcreated hzero
    obtain ⟨rec', hrec', -, hbelow⟩ := h.heads k head hhead
    cases hrec.symm.trans hrec'
    rcases hbelow hzero with hprev | ⟨owner, howner, hcommitting⟩
    · exact .inr hprev
    · rw [hcreated, hmeta] at howner
      cases howner
      rw [hstate] at hcommitting
      cases hcommitting

end

end Recoverable

end reldb
