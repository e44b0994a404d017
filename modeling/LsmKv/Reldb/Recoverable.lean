import LsmKv.Reldb.Programs

namespace reldb

open effects (applyAll)
open Function

theorem Kv.versions_put (kv : Kv) (k k' : RowKey) (rec : VersionRecord) (v : Nat) :
    (kv.apply (.put_version_value k rec)).versions k' v =
      if k' = k ∧ v = rec.version_id then some rec else kv.versions k' v := by
  by_cases hk : k' = k
  · subst hk
    simp [Kv.apply, update_apply]
  · simp [Kv.apply, hk]

theorem Kv.txns_put (kv : Kv) (id id' : Nat) (txn_meta : TxnMeta) :
    (kv.apply (.put_txn_meta id txn_meta)).txns id' = if id' = id then some txn_meta else kv.txns id' :=
  update_apply ..

/-- What a version stands on: nothing, or a stamped version that ends at the given time. -/
def PrevEnds (kv : Kv) (k : RowKey) (rec : VersionRecord) (end_ts : Nat) : Prop :=
  rec.prev_id = 0 ∨ ∃ prev, kv.versions k rec.prev_id = some prev ∧ prev.start_ts ≠ 0 ∧ prev.end_ts = end_ts

/-- A version as the record of its owner allows it. -/
def OwnerOk (kv : Kv) (k : RowKey) (v : Nat) (rec : VersionRecord) (txn_meta : TxnMeta) : Prop :=
  match txn_meta.state with
  | .kOpen | .kAborted => rec.start_ts = 0 ∧ rec.end_ts = 0
  | .kCommitted => txn_meta.commit_ts ≠ 0 ∧ rec.start_ts = txn_meta.commit_ts ∧ PrevEnds kv k rec txn_meta.commit_ts
  | .kCommitting => ⟨k.1, k.2, v⟩ ∈ txn_meta.writes

/-- The head of a row: live if it is stamped, and otherwise above a live version unless
    its owner is being committed. -/
def HeadOk (kv : Kv) (k : RowKey) (rec : VersionRecord) : Prop :=
  (rec.start_ts ≠ 0 → rec.end_ts = 0) ∧
    (rec.start_ts = 0 → PrevEnds kv k rec 0 ∨
      ∃ txn_meta, kv.txns rec.created_by = some txn_meta ∧ txn_meta.state = .kCommitting)

/-- A write of a transaction that is being committed: the predecessor is closed first,
    then the version is stamped. -/
structure InFlight (kv : Kv) (id commit_ts : Nat) (w : TxnWrite) (rec : VersionRecord) : Prop where
  version : kv.versions w.key w.version_id = some rec
  created_by : rec.created_by = id
  head : kv.heads w.key = some w.version_id
  live : rec.end_ts = 0
  progress : rec.start_ts = 0 ∧ (PrevEnds kv w.key rec 0 ∨ PrevEnds kv w.key rec commit_ts) ∨
    rec.start_ts = commit_ts ∧ PrevEnds kv w.key rec commit_ts

/-- What holds of the store at every moment, and what recovery needs. -/
structure Recoverable (kv : Kv) : Prop where
  ids : ∀ id txn_meta, kv.txns id = some txn_meta → 0 < id ∧ id < Database.load kv.next_txn 1
  versions : ∀ k v rec, kv.versions k v = some rec →
    rec.version_id = v ∧ 0 < v ∧ v < Database.load kv.next_vid 1 ∧ rec.prev_id < v
  owner : ∀ k v rec, kv.versions k v = some rec →
    ∃ txn_meta, kv.txns rec.created_by = some txn_meta ∧ OwnerOk kv k v rec txn_meta
  heads : ∀ k head, kv.heads k = some head → ∃ rec, kv.versions k head = some rec ∧ HeadOk kv k rec
  committing : ∀ id txn_meta, kv.txns id = some txn_meta → txn_meta.state = .kCommitting →
    txn_meta.commit_ts ≠ 0 ∧ (txn_meta.writes.map TxnWrite.key).Nodup ∧
      ∀ w ∈ txn_meta.writes, ∃ rec, InFlight kv id txn_meta.commit_ts w rec
  written : ∀ id txn_meta, kv.txns id = some txn_meta →
    ∀ w ∈ txn_meta.writes, ∃ rec, kv.versions w.key w.version_id = some rec ∧ rec.created_by = id

section Congr

variable {kv kv' : Kv} {k : RowKey} {rec : VersionRecord} {end_ts : Nat}

theorem OwnerOk.congr {v : Nat} {txn_meta : TxnMeta} (h : OwnerOk kv k v rec txn_meta)
    (hversions : kv'.versions k = kv.versions k) : OwnerOk kv' k v rec txn_meta := by
  unfold OwnerOk PrevEnds at *
  rw [hversions]
  exact h

theorem HeadOk.congr (h : HeadOk kv k rec) (hversions : kv'.versions k = kv.versions k)
    (htxns : kv'.txns rec.created_by = kv.txns rec.created_by) : HeadOk kv' k rec := by
  unfold HeadOk PrevEnds at *
  rw [hversions, htxns]
  exact h

theorem InFlight.congr {id commit_ts : Nat} {w : TxnWrite} (h : InFlight kv id commit_ts w rec)
    (hversions : kv'.versions w.key = kv.versions w.key) (hheads : kv'.heads w.key = kv.heads w.key) :
    InFlight kv' id commit_ts w rec := by
  obtain ⟨hversion, howner, hhead, hlive, hprogress⟩ := h
  unfold PrevEnds at hprogress
  refine ⟨by rw [hversions]; exact hversion, howner, by rw [hheads]; exact hhead, hlive, ?_⟩
  unfold PrevEnds
  rw [hversions]
  exact hprogress

/-- Where a version ends once it has ended, it ends for ever. -/
theorem PrevEnds.grow (h : PrevEnds kv k rec end_ts) (hend : end_ts ≠ 0)
    (hgrow : ∀ v prev, kv.versions k v = some prev → ∃ prev', kv'.versions k v = some prev' ∧
      (prev.start_ts ≠ 0 → prev'.start_ts = prev.start_ts) ∧ (prev.end_ts ≠ 0 → prev'.end_ts = prev.end_ts)) :
    PrevEnds kv' k rec end_ts := by
  rcases h with hzero | ⟨prev, hprev, hstart, rfl⟩
  · exact .inl hzero
  · obtain ⟨prev', hprev', hstart', hend'⟩ := hgrow _ _ hprev
    exact .inr ⟨prev', hprev', by rw [hstart' hstart]; exact hstart, hend' hend⟩

end Congr

namespace Recoverable

variable {kv : Kv}

/-- Counters may only grow. -/
theorem counters (h : Recoverable kv) {kv' : Kv} (htxns : kv'.txns = kv.txns) (hheads : kv'.heads = kv.heads)
    (hversions : kv'.versions = kv.versions) (htxn : Database.load kv.next_txn 1 ≤ Database.load kv'.next_txn 1)
    (hvid : Database.load kv.next_vid 1 ≤ Database.load kv'.next_vid 1) : Recoverable kv' := by
  obtain ⟨hids, hvers, howner, hhead, hcommitting, hwritten⟩ := h
  refine ⟨?_, ?_, ?_, ?_, ?_, ?_⟩
  · intro id txn_meta hmeta
    rw [htxns] at hmeta
    obtain ⟨hpos, hlt⟩ := hids id txn_meta hmeta
    exact ⟨hpos, hlt.trans_le htxn⟩
  · intro k v rec hrec
    rw [hversions] at hrec
    obtain ⟨hid, hpos, hlt, hprev⟩ := hvers k v rec hrec
    exact ⟨hid, hpos, hlt.trans_le hvid, hprev⟩
  · intro k v rec hrec
    rw [hversions] at hrec
    obtain ⟨txn_meta, hmeta, hok⟩ := howner k v rec hrec
    exact ⟨txn_meta, by rw [htxns]; exact hmeta, hok.congr (by rw [hversions])⟩
  · intro k head hsome
    rw [hheads] at hsome
    obtain ⟨rec, hrec, hok⟩ := hhead k head hsome
    exact ⟨rec, by rw [hversions]; exact hrec, hok.congr (by rw [hversions]) (by rw [htxns])⟩
  · intro id txn_meta hmeta hstate
    rw [htxns] at hmeta
    obtain ⟨hts, hnodup, hflight⟩ := hcommitting id txn_meta hmeta hstate
    refine ⟨hts, hnodup, fun w hw => ?_⟩
    obtain ⟨rec, hrec⟩ := hflight w hw
    exact ⟨rec, hrec.congr (by rw [hversions]) (by rw [hheads])⟩
  · intro id txn_meta hmeta w hw
    rw [htxns] at hmeta
    rw [hversions]
    exact hwritten id txn_meta hmeta w hw

/-- A change of a stored version: what it was stamped and closed with stays. -/
theorem put_version (h : Recoverable kv) {k : RowKey} (rec : VersionRecord) {rec' : VersionRecord}
    (hrec : kv.versions k rec'.version_id = some rec) (hprev : rec'.prev_id = rec.prev_id)
    (hcreated : rec'.created_by = rec.created_by) (hstart : rec.start_ts ≠ 0 → rec'.start_ts = rec.start_ts)
    (hend : rec.end_ts ≠ 0 → rec'.end_ts = rec.end_ts)
    (howner : ∀ txn_meta, kv.txns rec.created_by = some txn_meta →
      txn_meta.state = .kOpen ∨ txn_meta.state = .kAborted → rec'.start_ts = 0 ∧ rec'.end_ts = 0)
    (hhead : ∀ head rec₀, kv.heads k = some head →
      (kv.apply (.put_version_value k rec')).versions k head = some rec₀ →
      HeadOk (kv.apply (.put_version_value k rec')) k rec₀)
    (hflight : ∀ id txn_meta, kv.txns id = some txn_meta → txn_meta.state = .kCommitting →
      ∀ w ∈ txn_meta.writes, w.key = k →
        ∃ rec₀, InFlight (kv.apply (.put_version_value k rec')) id txn_meta.commit_ts w rec₀) :
    Recoverable (kv.apply (.put_version_value k rec')) := by
  have hother : ∀ k', k' ≠ k → (kv.apply (.put_version_value k rec')).versions k' = kv.versions k' :=
    fun k' hne => update_of_ne hne _ _
  have hgrow : ∀ v prev, kv.versions k v = some prev →
      ∃ prev', (kv.apply (.put_version_value k rec')).versions k v = some prev' ∧
        (prev.start_ts ≠ 0 → prev'.start_ts = prev.start_ts) ∧ (prev.end_ts ≠ 0 → prev'.end_ts = prev.end_ts) := by
    intro v prev hsome
    rw [Kv.versions_put]
    by_cases hv : v = rec'.version_id
    · subst hv
      cases hrec.symm.trans hsome
      exact ⟨rec', if_pos ⟨rfl, rfl⟩, hstart, hend⟩
    · exact ⟨prev, by rw [if_neg (fun hand => hv hand.2)]; exact hsome, fun _ => rfl, fun _ => rfl⟩
  refine ⟨h.ids, ?_, ?_, ?_, ?_, ?_⟩
  · intro k' v rec₀ hsome
    rw [Kv.versions_put] at hsome
    split at hsome
    · next hat =>
      obtain ⟨rfl, rfl⟩ := hat
      cases hsome
      obtain ⟨hid, hpos, hlt, hlt'⟩ := h.versions _ _ rec hrec
      exact ⟨rfl, hpos, hlt, by rw [hprev]; exact hlt'⟩
    · exact h.versions k' v rec₀ hsome
  · intro k' v rec₀ hsome
    rw [Kv.versions_put] at hsome
    split at hsome
    · next hat =>
      obtain ⟨rfl, rfl⟩ := hat
      cases hsome
      obtain ⟨txn_meta, hmeta, hok⟩ := h.owner _ _ rec hrec
      refine ⟨txn_meta, by rw [hcreated]; exact hmeta, ?_⟩
      unfold OwnerOk at hok ⊢
      cases hstate : txn_meta.state with
      | kOpen => exact howner txn_meta hmeta (.inl hstate)
      | kAborted => exact howner txn_meta hmeta (.inr hstate)
      | kCommitting =>
        rw [hstate] at hok
        exact hok
      | kCommitted =>
        rw [hstate] at hok
        obtain ⟨hts, hstamp, hends⟩ := hok
        refine ⟨hts, (hstart (by rw [hstamp]; exact hts)).trans hstamp, ?_⟩
        have hends' : PrevEnds kv k' rec' txn_meta.commit_ts := by
          rw [PrevEnds, hprev]
          exact hends
        exact hends'.grow hts hgrow
    · obtain ⟨txn_meta, hmeta, hok⟩ := h.owner k' v rec₀ hsome
      refine ⟨txn_meta, hmeta, ?_⟩
      by_cases hk : k' = k
      · subst hk
        unfold OwnerOk at hok ⊢
        cases hstate : txn_meta.state with
        | kOpen | kAborted | kCommitting =>
          rw [hstate] at hok
          exact hok
        | kCommitted =>
          rw [hstate] at hok
          exact ⟨hok.1, hok.2.1, hok.2.2.grow hok.1 hgrow⟩
      · exact hok.congr (hother k' hk)
  · intro k' head hsome
    obtain ⟨rec₀, hrec₀, hok⟩ := h.heads k' head hsome
    by_cases hk : k' = k
    · subst hk
      obtain ⟨rec₁, hrec₁, -⟩ := hgrow head rec₀ hrec₀
      exact ⟨rec₁, hrec₁, hhead head rec₁ hsome hrec₁⟩
    · exact ⟨rec₀, by rw [hother k' hk]; exact hrec₀, hok.congr (hother k' hk) rfl⟩
  · intro id txn_meta hmeta hstate
    obtain ⟨hts, hnodup, hall⟩ := h.committing id txn_meta hmeta hstate
    refine ⟨hts, hnodup, fun w hw => ?_⟩
    by_cases hk : w.key = k
    · exact hflight id txn_meta hmeta hstate w hw hk
    · obtain ⟨rec₀, hrec₀⟩ := hall w hw
      exact ⟨rec₀, hrec₀.congr (hother _ hk) rfl⟩
  · intro id txn_meta hmeta w hw
    obtain ⟨rec₀, hrec₀, hcreated₀⟩ := h.written id txn_meta hmeta w hw
    rw [Kv.versions_put]
    split
    · next hat =>
      rw [hat.1, hat.2, hrec] at hrec₀
      cases hrec₀
      exact ⟨rec', rfl, hcreated.trans hcreated₀⟩
    · exact ⟨rec₀, hrec₀, hcreated₀⟩

/-- A new version of an open transaction, not the head of its row yet. -/
theorem new_version (h : Recoverable kv) {k : RowKey} {rec : VersionRecord} {txn_meta : TxnMeta}
    (hfresh : kv.versions k rec.version_id = none) (hpos : 0 < rec.version_id)
    (hlt : rec.version_id < Database.load kv.next_vid 1) (hprev : rec.prev_id < rec.version_id)
    (hstart : rec.start_ts = 0) (hend : rec.end_ts = 0) (hmeta : kv.txns rec.created_by = some txn_meta)
    (hstate : txn_meta.state = .kOpen) : Recoverable (kv.apply (.put_version_value k rec)) := by
  have hkeep : ∀ k' v rec₀, kv.versions k' v = some rec₀ →
      (kv.apply (.put_version_value k rec)).versions k' v = some rec₀ := by
    intro k' v rec₀ hsome
    rw [Kv.versions_put, if_neg]
    · exact hsome
    · rintro ⟨rfl, rfl⟩
      rw [hfresh] at hsome
      cases hsome
  have hprevs : ∀ k' rec₀ end_ts, PrevEnds kv k' rec₀ end_ts →
      PrevEnds (kv.apply (.put_version_value k rec)) k' rec₀ end_ts := by
    rintro k' rec₀ end_ts (hzero | ⟨prev, hsome, hfacts⟩)
    · exact .inl hzero
    · exact .inr ⟨prev, hkeep _ _ _ hsome, hfacts⟩
  refine ⟨h.ids, ?_, ?_, ?_, ?_, ?_⟩
  · intro k' v rec₀ hsome
    rw [Kv.versions_put] at hsome
    split at hsome
    · next hat =>
      obtain ⟨rfl, rfl⟩ := hat
      cases hsome
      exact ⟨rfl, hpos, hlt, hprev⟩
    · exact h.versions k' v rec₀ hsome
  · intro k' v rec₀ hsome
    rw [Kv.versions_put] at hsome
    split at hsome
    · next hat =>
      cases hsome
      refine ⟨txn_meta, hmeta, ?_⟩
      rw [OwnerOk, hstate]
      exact ⟨hstart, hend⟩
    · obtain ⟨owner, howner, hok⟩ := h.owner k' v rec₀ hsome
      refine ⟨owner, howner, ?_⟩
      unfold OwnerOk at hok ⊢
      cases hcase : owner.state with
      | kOpen | kAborted | kCommitting =>
        rw [hcase] at hok
        exact hok
      | kCommitted =>
        rw [hcase] at hok
        exact ⟨hok.1, hok.2.1, hprevs _ _ _ hok.2.2⟩
  · intro k' head hsome
    obtain ⟨rec₀, hrec₀, hlive, hbelow⟩ := h.heads k' head hsome
    exact ⟨rec₀, hkeep _ _ _ hrec₀, hlive, fun hzero => (hbelow hzero).imp_left (hprevs _ _ _)⟩
  · intro id owner howner hcase
    obtain ⟨hts, hnodup, hall⟩ := h.committing id owner howner hcase
    refine ⟨hts, hnodup, fun w hw => ?_⟩
    obtain ⟨rec₀, hversion, hcreated, hhead, hlive, hprogress⟩ := hall w hw
    refine ⟨rec₀, hkeep _ _ _ hversion, hcreated, hhead, hlive, ?_⟩
    exact hprogress.imp (And.imp_right (Or.imp (hprevs _ _ _) (hprevs _ _ _))) (And.imp_right (hprevs _ _ _))
  · intro id owner howner w hw
    obtain ⟨rec₀, hrec₀, hcreated⟩ := h.written id owner howner w hw
    exact ⟨rec₀, hkeep _ _ _ hrec₀, hcreated⟩

/-- A head moves on a row that nobody is committing. -/
theorem move_head (h : Recoverable kv) {k : RowKey} {head : Option Nat}
    (hhead : ∀ v, head = some v → ∃ rec, kv.versions k v = some rec ∧ HeadOk kv k rec)
    (hidle : ∀ id txn_meta, kv.txns id = some txn_meta → txn_meta.state = .kCommitting →
      ∀ w ∈ txn_meta.writes, w.key ≠ k) :
    Recoverable { kv with heads := update kv.heads k head } := by
  refine ⟨h.ids, h.versions, h.owner, ?_, ?_, h.written⟩
  · intro k' v hsome
    by_cases hk : k' = k
    · subst hk
      obtain ⟨rec, hrec, hok⟩ := hhead v ((update_self k' head kv.heads).symm.trans hsome)
      exact ⟨rec, hrec, hok⟩
    · exact h.heads k' v ((update_of_ne hk _ _).symm.trans hsome)
  · intro id txn_meta hmeta hstate
    obtain ⟨hts, hnodup, hall⟩ := h.committing id txn_meta hmeta hstate
    refine ⟨hts, hnodup, fun w hw => ?_⟩
    obtain ⟨rec, hrec⟩ := hall w hw
    exact ⟨rec, hrec.congr rfl (update_of_ne (hidle id txn_meta hmeta hstate w hw) _ _)⟩

/-- A new record of a transaction. -/
theorem put_txn_meta (h : Recoverable kv) {id : Nat} {txn_meta : TxnMeta} (hpos : 0 < id)
    (hlt : id < Database.load kv.next_txn 1)
    (howner : ∀ k v rec, kv.versions k v = some rec → rec.created_by = id → OwnerOk kv k v rec txn_meta)
    (hheads : ∀ k head rec, kv.heads k = some head → kv.versions k head = some rec → rec.created_by = id →
      rec.start_ts = 0 → txn_meta.state = .kCommitting ∨ PrevEnds kv k rec 0)
    (hcommitting : txn_meta.state = .kCommitting → txn_meta.commit_ts ≠ 0 ∧
      (txn_meta.writes.map TxnWrite.key).Nodup ∧
      ∀ w ∈ txn_meta.writes, ∃ rec, InFlight kv id txn_meta.commit_ts w rec)
    (hwritten : ∀ w ∈ txn_meta.writes, ∃ rec, kv.versions w.key w.version_id = some rec ∧ rec.created_by = id) :
    Recoverable (kv.apply (.put_txn_meta id txn_meta)) := by
  refine ⟨?_, h.versions, ?_, ?_, ?_, ?_⟩
  · intro id' owner hsome
    rw [Kv.txns_put] at hsome
    split at hsome
    · next heq =>
      subst heq
      exact ⟨hpos, hlt⟩
    · exact h.ids id' owner hsome
  · intro k v rec hrec
    rw [Kv.txns_put]
    split
    · next heq => exact ⟨txn_meta, rfl, (howner k v rec hrec heq).congr rfl⟩
    · obtain ⟨owner, hsome, hok⟩ := h.owner k v rec hrec
      exact ⟨owner, hsome, hok.congr rfl⟩
  · intro k head hsome
    obtain ⟨rec, hrec, hlive, hbelow⟩ := h.heads k head hsome
    refine ⟨rec, hrec, hlive, fun hzero => ?_⟩
    rw [Kv.txns_put]
    split
    · next heq =>
      rcases hheads k head rec hsome hrec heq hzero with hstate | hprev
      · exact .inr ⟨txn_meta, rfl, hstate⟩
      · exact .inl hprev
    · exact hbelow hzero
  · intro id' owner hsome hstate
    rw [Kv.txns_put] at hsome
    split at hsome
    · next heq =>
      subst heq
      cases hsome
      obtain ⟨hts, hnodup, hall⟩ := hcommitting hstate
      refine ⟨hts, hnodup, fun w hw => ?_⟩
      obtain ⟨rec, hrec⟩ := hall w hw
      exact ⟨rec, hrec.congr rfl rfl⟩
    · obtain ⟨hts, hnodup, hall⟩ := h.committing id' owner hsome hstate
      refine ⟨hts, hnodup, fun w hw => ?_⟩
      obtain ⟨rec, hrec⟩ := hall w hw
      exact ⟨rec, hrec.congr rfl rfl⟩
  · intro id' owner hsome w hw
    rw [Kv.txns_put] at hsome
    split at hsome
    · next heq =>
      subst heq
      cases hsome
      exact hwritten w hw
    · exact h.written id' owner hsome w hw

end Recoverable

end reldb
