import LsmKv.Reldb.DdlPrograms
import LsmKv.Reldb.Simulation

namespace reldb

open lsmkv (Status)
open effects (applyAll)
open history (Update latest)
open snapshot (keyCommits Wrote)
open List Function Option

namespace Database

/-- What ALTER makes of a row with the given commits: `none` for a row to leave alone. -/
def Alteration.rewrite (a : Alteration) : List (Nat × Option Row) → Option Row
  | (_, some payload) :: _ => if payload.length = a.neu.columns.length then none else some (a.change payload)
  | _ => none

/-- The rows that ALTER rewrites. -/
def Alteration.rewrites (a : Alteration) (commits : List (snapshot.Commit RowKey Row)) (table : String)
    (pks : List Value) : List (Update RowKey Row) :=
  pks.filterMap fun pk => (a.rewrite (keyCommits commits (table, pk))).map fun row => ⟨(table, pk), some row⟩

/-- ALTER in the log of the clients: one more commit. -/
def Alteration.commit (a : Alteration) (commits : List (snapshot.Commit RowKey Row)) (table : String) (commit_ts : Nat)
    (pks : List Value) : snapshot.Commit RowKey Row :=
  ⟨0, commit_ts - 1, commit_ts, a.rewrites commits table pks⟩

section Rewrites

variable {a : Alteration} {commits : List (snapshot.Commit RowKey Row)} {table : String} {pks : List Value}

theorem Alteration.latest_rewrites_of_not_mem {k : RowKey} (h : k.1 = table → k.2 ∉ pks) :
    latest (a.rewrites commits table pks) k = none := by
  rw [history.latest_eq_none_iff]
  intro u hu hkey
  obtain ⟨pk, hpk, hmap⟩ := mem_filterMap.mp hu
  obtain ⟨row, -, rfl⟩ := map_eq_some_iff.mp hmap
  subst hkey
  exact h rfl hpk

theorem Alteration.rewrites_concat (pks : List Value) (pk : Value) :
    a.rewrites commits table (pks ++ [pk]) = a.rewrites commits table pks ++
      ((a.rewrite (keyCommits commits (table, pk))).map fun row => (⟨(table, pk), some row⟩ : Update RowKey Row)).toList := by
  rw [rewrites, filterMap_append]
  rfl

/-- Of every row, ALTER writes what it makes of it. -/
theorem Alteration.latest_rewrites (hnodup : pks.Nodup) {pk : Value} (hpk : pk ∈ pks) :
    latest (a.rewrites commits table pks) (table, pk) =
      (a.rewrite (keyCommits commits (table, pk))).map some := by
  induction pks using List.reverseRecOn with
  | nil => cases hpk
  | append_singleton pks last ih =>
    rw [rewrites_concat]
    rw [nodup_append] at hnodup
    obtain ⟨hnodup', -, hdiff⟩ := hnodup
    by_cases heq : pk = last
    · subst heq
      have hnot : pk ∉ pks := fun hmem => hdiff pk hmem pk (mem_singleton_self _) rfl
      cases a.rewrite (keyCommits commits (table, pk)) with
      | none =>
        rw [map_none, toList_none, append_nil]
        exact latest_rewrites_of_not_mem fun _ => hnot
      | some row =>
        rw [map_some, toList_some, history.latest_concat]
        exact if_pos rfl
    · have hmem : pk ∈ pks := (mem_append.mp hpk).resolve_right fun h => heq (mem_singleton.mp h)
      cases a.rewrite (keyCommits commits (table, last)) with
      | none =>
        rw [map_none, toList_none, append_nil]
        exact ih hnodup' hmem
      | some row =>
        have hne : ((table, last) : RowKey) ≠ (table, pk) := fun h => heq (Prod.mk.inj h).2.symm
        rw [map_some, toList_some, history.latest_concat, if_neg hne]
        exact ih hnodup' hmem

end Rewrites

section Row

variable {kv : Kv} {key : RowKey} {entries : List (Nat × Option Row)} {a : Alteration} {db : Database} {commit_ts : Nat}

theorem committed_prior_stamped {rec : VersionRecord} (hstart : rec.start_ts ≠ 0) (fuel : Nat) :
    committed_prior kv key fuel rec = .ok rec := by
  cases fuel <;> simp [committed_prior, VersionRecord.is_provisional, hstart]

/-- A row whose newest version is committed. -/
theorem altered_row_eq {head : Nat} {rec : VersionRecord} (hhead : kv.heads key = some head)
    (hrec : kv.versions key head = some rec) (hstart : rec.start_ts ≠ 0) (hend : rec.end_ts = 0) :
    altered_row kv key a =
      if rec.is_tombstone then .ok none
      else if rec.payload.length = a.neu.columns.length then .ok none
      else if rec.payload.length ≠ a.old.columns.length then
        .error (.Corruption "ALTER: row width does not match schema")
      else
        match (a.change rec.payload).validate_against a.neu with
        | .error s => .error s
        | .ok () => .ok (some (rec, a.change rec.payload)) := by
  have hlatest : kv.get_latest_version_id key = .ok head := by rw [Kv.get_latest_version_id, hhead]
  rw [altered_row, hlatest]
  show (kv.get_version key head >>= _) = _
  rw [Kv.get_version_eq_ok.mpr hrec]
  show (committed_prior kv key head rec >>= _) = _
  rw [committed_prior_stamped hstart]
  show (if _ then _ else _) = _
  split
  · rfl
  rw [if_neg (not_not.mpr hend)]
  split
  · rfl
  split
  · rfl
  cases Row.validate_against (a.change rec.payload) a.neu <;> rfl

/-- A free row with commits: its head is committed and not closed. -/
theorem free_head (hfree : Free kv key entries) (hhead : (kv.heads key).isSome) :
    ∃ head rec rest, kv.heads key = some head ∧ kv.versions key head = some rec ∧ rec.start_ts ≠ 0 ∧
      rec.end_ts = 0 ∧ rec.version_id = head ∧ entries = (rec.start_ts, rec.value) :: rest ∧
      Linked (kv.versions key) head 0 entries := by
  rcases hfree with ⟨hnone, -⟩ | ⟨head, hsome, hne, hlinked⟩
  · rw [hnone] at hhead
    cases hhead
  · cases entries with
    | nil => exact absurd rfl hne
    | cons e rest =>
      obtain ⟨-, hts, rec, hrec, hid, hstart, hend, hvalue, -⟩ := id hlinked
      obtain ⟨ts, value⟩ := e
      refine ⟨head, rec, rest, hsome, hrec, hstart ▸ hts, hend, hid, ?_, hlinked⟩
      rw [hstart, hvalue]

/-- What ALTER finds of a free row. -/
theorem altered_row_free (hfree : Free kv key entries) {found : Option (VersionRecord × Row)}
    (hfound : altered_row kv key a = .ok found) : found.map Prod.snd = a.rewrite entries := by
  cases hhead : kv.heads key with
  | none =>
    rw [altered_row, Kv.get_latest_version_id, hhead] at hfound
    cases hfound
  | some head =>
    obtain ⟨head', rec, rest, hhead', hrec, hstart, hend, -, rfl, -⟩ := free_head hfree (by rw [hhead]; rfl)
    rw [altered_row_eq hhead' hrec hstart hend] at hfound
    rw [Alteration.rewrite.eq_def, VersionRecord.value]
    split at hfound
    · next htomb =>
      cases hfound
      simp [htomb]
    next hlive =>
    simp only [hlive]
    split at hfound
    · next hwidth =>
      cases hfound
      simp [hwidth]
    next hwidth =>
    split at hfound
    · cases hfound
    split at hfound
    · cases hfound
    · cases hfound
      simp [hwidth]

/-- Replacing the newest version of a row puts the rewritten one in front. -/
theorem replace_free (hfree : Free kv key entries) {prior : VersionRecord} {row : Row}
    (hrow : Rewritable kv key prior) (hbound : ∀ head, kv.heads key = some head → head < db.next_version_id)
    (hts : commit_ts ≠ 0) :
    Free (applyAll kv (replace_ops db key commit_ts prior row)) key ((commit_ts, some row) :: entries) := by
  obtain ⟨head, rec, hhead, hrec, hwalk⟩ := hrow.head
  obtain ⟨head', rec', rest, hhead', hrec', hstart, hend, hid, hentries, hlinked⟩ := free_head hfree (by rw [hhead]; rfl)
  cases hhead.symm.trans hhead'
  cases hrec.symm.trans hrec'
  rw [committed_prior_stamped hstart] at hwalk
  cases hwalk
  subst hid
  have hlt := hbound _ hhead
  have hversions : (applyAll kv (replace_ops db key commit_ts prior row)).versions key =
      update (update (kv.versions key) prior.version_id (some { prior with end_ts := commit_ts }))
        db.next_version_id (some (rewritten db commit_ts prior row)) :=
    (update_self ..).trans (congrArg (fun f => update f _ _) (update_self ..))
  refine .inr ⟨db.next_version_id, update_self .., cons_ne_nil _ _, ?_⟩
  rw [hversions]
  refine ⟨by omega, hts, rewritten db commit_ts prior row, update_self .., rfl, rfl, rfl, rfl, hlt, ?_⟩
  refine (hlinked.close hrec commit_ts).congr fun n hn => ?_
  exact update_of_ne (hn.trans_lt hlt).ne _ _

end Row

section Collect

variable {disk : Disk} {table : String} {pks : List Value}

/-- Only keys of the table itself decode. -/
theorem decode_under {k : RowKey} {pk : Value} (hunder : Under table k.1)
    (h : decode_pk_from_key ((row_head_key k).drop (row_head_stem table).length) = .ok pk) : k = (table, pk) := by
  rcases drop_row_head_stem hunder with ⟨htable, hdrop⟩ | ⟨-, hslash⟩
  · rw [hdrop] at h
    rw [decode_encode_pk_eq h, ← htable]
  · rw [decode_pk_from_key, from_hex_of_slash hslash] at h
    cases h

theorem collect_keys {keys : List RowKey} (hunder : ∀ k ∈ keys, Under table k.1)
    (h : keys.mapM (fun key => decode_pk_from_key ((row_head_key key).drop (row_head_stem table).length)) = .ok pks) :
    keys = pks.map fun pk => (table, pk) := by
  induction keys generalizing pks with
  | nil =>
    cases h
    rfl
  | cons k keys ih =>
    rw [mapM_cons] at h
    cases hpk : decode_pk_from_key ((row_head_key k).drop (row_head_stem table).length) with
    | error s =>
      rw [hpk] at h
      cases h
    | ok pk =>
      rw [hpk] at h
      cases hrest : keys.mapM fun key => decode_pk_from_key ((row_head_key key).drop (row_head_stem table).length) with
      | error s =>
        rw [hrest] at h
        cases h
      | ok rest =>
        rw [hrest] at h
        cases h
        rw [decode_under (hunder k (mem_cons_self ..)) hpk,
          ih (fun k' hk' => hunder k' (mem_cons_of_mem _ hk')) hrest]
        rfl

/-- If phase 1 succeeds, it finds the keys of the rows of the table, each once, and no
    other table is under the same stem. -/
theorem collect_pks_ok (h : collect_pks disk table = .ok pks) :
    pks.Nodup ∧ (∀ pk, pk ∈ pks ↔ (disk.kv.heads (table, pk)).isSome) ∧
      ∀ k, (disk.kv.heads k).isSome → Under table k.1 → k.1 = table := by
  have hkeys := collect_keys (fun k hk => (Disk.mem_seek_heads.mp hk).2) h
  have hmem : ∀ k, (disk.kv.heads k).isSome ∧ Under table k.1 ↔ ∃ pk ∈ pks, (table, pk) = k := by
    intro k
    rw [← Disk.mem_seek_heads, hkeys, List.mem_map]
  refine ⟨?_, fun pk => ⟨fun hpk => ((hmem _).mpr ⟨pk, hpk, rfl⟩).1, fun hsome => ?_⟩, fun k hsome hunder => ?_⟩
  · refine List.Nodup.of_map (fun pk => (table, pk)) ?_
    rw [← hkeys]
    exact listing.seek_nodup disk.row_keys_nodup
  · obtain ⟨pk', hpk', heq⟩ := (hmem (table, pk)).mp ⟨hsome, .inl rfl⟩
    cases heq
    exact hpk'
  · obtain ⟨pk, -, rfl⟩ := (hmem k).mp ⟨hsome, hunder⟩
    rfl

end Collect

section Loop

variable {commits : List (snapshot.Commit RowKey Row)} {table : String} {a : Alteration} {commit_ts : Nat}
  {db db' : Database} {kv : Kv}

/-- The rows of a table with some of them rewritten. -/
structure Altered (commits : List (snapshot.Commit RowKey Row)) (table : String) (a : Alteration) (commit_ts : Nat)
    (done : List Value) (next_vid : Nat) (kv : Kv) : Prop where
  free : ∀ k, Free kv k (keyCommits (commits ++ [a.commit commits table commit_ts done]) k)
  bound : ∀ k head, kv.heads k = some head → 0 < head ∧ head < next_vid

variable {done : List Value}

theorem keyCommits_altered_of_not_mem {k : RowKey} (h : k.1 = table → k.2 ∉ done) :
    keyCommits (commits ++ [a.commit commits table commit_ts done]) k = keyCommits commits k := by
  rw [snapshot.keyCommits_concat, Alteration.commit, Alteration.latest_rewrites_of_not_mem h]
  rfl

theorem keyCommits_altered (hnodup : done.Nodup) {pk : Value} (hpk : pk ∈ done) :
    keyCommits (commits ++ [a.commit commits table commit_ts done]) (table, pk) =
      ((a.rewrite (keyCommits commits (table, pk))).map fun row => (commit_ts, some row)).toList ++
        keyCommits commits (table, pk) := by
  rw [snapshot.keyCommits_concat, Alteration.commit, Alteration.latest_rewrites hnodup hpk]
  cases a.rewrite (keyCommits commits (table, pk)) <;> rfl

/-- One row more. -/
theorem Altered.concat {next_vid next_vid' : Nat} {kv' : Kv} {pk : Value}
    (h : Altered commits table a commit_ts done next_vid kv) (hnodup : (done ++ [pk]).Nodup)
    (hpk : Free kv' (table, pk) (((a.rewrite (keyCommits commits (table, pk))).map fun row =>
      (commit_ts, some row)).toList ++ keyCommits commits (table, pk)))
    (hbound : ∀ k head, kv'.heads k = some head → 0 < head ∧ head < next_vid')
    (hother : ∀ k, k ≠ (table, pk) → kv'.heads k = kv.heads k ∧ kv'.versions k = kv.versions k) :
    Altered commits table a commit_ts (done ++ [pk]) next_vid' kv' := by
  refine ⟨fun k => ?_, hbound⟩
  by_cases heq : k = (table, pk)
  · subst heq
    rw [keyCommits_altered hnodup (mem_append_right _ (mem_singleton_self _))]
    exact hpk
  · have hsame : keyCommits (commits ++ [a.commit commits table commit_ts (done ++ [pk])]) k =
        keyCommits (commits ++ [a.commit commits table commit_ts done]) k := by
      by_cases hin : k.1 = table ∧ k.2 ∈ done
      · obtain ⟨rfl, hmem⟩ := hin
        rw [keyCommits_altered hnodup (mem_append_left _ hmem),
          keyCommits_altered (nodup_append.mp hnodup).1 hmem]
      · rw [keyCommits_altered_of_not_mem fun htable hmem => ?_,
          keyCommits_altered_of_not_mem fun htable hmem => hin ⟨htable, hmem⟩]
        rcases mem_append.mp hmem with hmem | hlast
        · exact hin ⟨htable, hmem⟩
        · exact heq (Prod.ext htable (mem_singleton.mp hlast))
    rw [hsame]
    exact (h.free k).congr (hother k heq).1 (hother k heq).2

/-- The loop of ALTER rewrites rows one by one, until it fails or is done. -/
theorem alter_rows_altered (hts : commit_ts ≠ 0) {pks : List Value} {ops : List KvOp}
    {status : Except Status Unit} (h : Altered commits table a commit_ts done db.next_version_id kv)
    (hnodup : (done ++ pks).Nodup) (hrun : alter_rows table commit_ts a pks db kv = (ops, .ok (db', status))) :
    ∃ pre post, pks = pre ++ post ∧ (status = .ok () → post = []) ∧
      (∀ s, status = .error s → ∃ pk ∈ post, altered_row (applyAll kv ops) (table, pk) a = .error s) ∧
      Altered commits table a commit_ts (done ++ pre) db'.next_version_id (applyAll kv ops) ∧
      (applyAll kv ops).txns = kv.txns ∧ (∀ k, ((applyAll kv ops).heads k).isSome = (kv.heads k).isSome) ∧
      db.next_version_id ≤ db'.next_version_id := by
  induction pks generalizing db kv done ops with
  | nil =>
    cases hrun
    exact ⟨[], [], rfl, fun _ => rfl, by rintro s ⟨⟩, by rw [append_nil]; exact h, rfl, fun _ => rfl, le_rfl⟩
  | cons pk pks ih =>
    have hassoc : done ++ pk :: pks = (done ++ [pk]) ++ pks := by simp
    have hnodup' : ((done ++ [pk]) ++ pks).Nodup := hassoc ▸ hnodup
    have hone : (done ++ [pk]).Nodup := (nodup_append.mp hnodup').1
    have hfree : Free kv (table, pk) (keyCommits commits (table, pk)) := by
      have hfree := h.free (table, pk)
      rwa [keyCommits_altered_of_not_mem] at hfree
      exact fun _ hmem => (nodup_append.mp hone).2.2 pk hmem pk (mem_singleton_self _) rfl
    rw [alter_rows_cons] at hrun
    cases hfound : altered_row kv (table, pk) a with
    | error s =>
      rw [hfound] at hrun
      cases hrun
      refine ⟨[], pk :: pks, rfl, by rintro ⟨⟩, ?_, by rw [append_nil]; exact h, rfl, fun _ => rfl, le_rfl⟩
      rintro _ ⟨⟩
      exact ⟨pk, mem_cons_self .., hfound⟩
    | ok found =>
      have hrewrite := altered_row_free hfree hfound
      rw [hfound] at hrun
      cases found with
      | none =>
        rw [map_none] at hrewrite
        have hnext : Altered commits table a commit_ts (done ++ [pk]) db.next_version_id kv := by
          refine h.concat hone ?_ h.bound fun _ _ => ⟨rfl, rfl⟩
          rw [← hrewrite]
          exact hfree
        obtain ⟨pre, post, rfl, hok, hstuck, haltered, hrest⟩ := ih hnext hnodup' hrun
        rw [append_assoc] at haltered
        exact ⟨pk :: pre, post, rfl, hok, hstuck, haltered, hrest⟩
      | some pair =>
        obtain ⟨prior, row⟩ := pair
        rw [map_some] at hrewrite
        dsimp only at hrun
        have hrow := altered_row_some hfound
        obtain ⟨head, rec, hhead, -⟩ := hrow.head
        have hnext : Altered commits table a commit_ts (done ++ [pk]) (Transaction.drew_version db).next_version_id
            (applyAll kv (replace_ops db (table, pk) commit_ts prior row)) := by
          refine h.concat hone ?_ (fun k head' hhead' => ?_) fun k hk =>
            ⟨update_of_ne hk _ _, (update_of_ne hk _ _).trans (update_of_ne hk _ _)⟩
          · rw [← hrewrite]
            exact replace_free hfree hrow (fun head' hhead' => (h.bound _ _ hhead').2) hts
          · rcases update_some_cases hhead' with ⟨rfl, rfl⟩ | ⟨-, hold⟩
            · exact ⟨(h.bound _ _ hhead).1.trans (h.bound _ _ hhead).2, Nat.lt_succ_self _⟩
            · exact ⟨(h.bound k head' hold).1, Nat.lt_succ_of_lt (h.bound k head' hold).2⟩
        cases hrest : alter_rows table commit_ts a pks (Transaction.drew_version db)
            (applyAll kv (replace_ops db (table, pk) commit_ts prior row)) with
        | mk ops' result =>
        rw [hrest] at hrun
        obtain ⟨rfl, rfl⟩ := Prod.mk.inj hrun
        obtain ⟨pre, post, rfl, hok, hstuck, haltered, htxns, hheads, hle⟩ := ih hnext hnodup' hrest
        rw [append_assoc] at haltered
        rw [effects.applyAll_append]
        refine ⟨pk :: pre, post, rfl, hok, hstuck, haltered, htxns, fun k => (hheads k).trans ?_, (Nat.le_succ _).trans hle⟩
        by_cases hk : k = (table, pk)
        · have hset : (applyAll kv (replace_ops db (table, pk) commit_ts prior row)).heads (table, pk) =
              some db.next_version_id := update_self ..
          rw [hk, hset, hhead]
          rfl
        · exact congrArg Option.isSome (update_of_ne hk _ _)

end Loop

end Database

end reldb
