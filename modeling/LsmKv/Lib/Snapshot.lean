import LsmKv.Lib.History

/-!
Snapshot isolation over any keys and values: transactions that read what was committed
up to their start, commit under growing timestamps, and may commit only if nobody
committed a key of theirs since they began.
-/

namespace snapshot

open history (Update latest)
open List Function Option

variable {K V : Type}

/-- A committed transaction. -/
structure Commit (K V : Type) where
  txn : Nat
  start_ts : Nat
  commit_ts : Nat
  writes : List (Update K V)

/-- A transaction under way, with its writes so far. -/
structure Txn (K V : Type) where
  start_ts : Nat
  writes : List (Update K V) := []

/-- All commits, oldest first, and the transactions under way. -/
structure State (K V : Type) where
  commits : List (Commit K V) := []
  active : Nat → Option (Txn K V) := fun _ => none

namespace State

def start (s : State K V) (id start_ts : Nat) : State K V :=
  { s with active := update s.active id (some { start_ts := start_ts }) }

def write (s : State K V) (id : Nat) (update : Update K V) : State K V :=
  match s.active id with
  | none => s
  | some t => { s with active := Function.update s.active id (some { t with writes := t.writes ++ [update] }) }

def drop (s : State K V) (id : Nat) : State K V := { s with active := update s.active id none }

def commit (s : State K V) (id commit_ts : Nat) : State K V :=
  match s.active id with
  | none => s
  | some t =>
    { commits := s.commits ++ [⟨id, t.start_ts, commit_ts, t.writes⟩], active := update s.active id none }

variable {s : State K V} {id : Nat} {t : Txn K V}

theorem write_eq (h : s.active id = some t) (update : Update K V) :
    s.write id update =
      { s with active := Function.update s.active id (some { t with writes := t.writes ++ [update] }) } := by
  rw [write, h]

theorem commit_eq (h : s.active id = some t) (commit_ts : Nat) :
    s.commit id commit_ts = { commits := s.commits ++ [⟨id, t.start_ts, commit_ts, t.writes⟩]
                              active := update s.active id none } := by
  rw [commit, h]

end State

def Wrote (writes : List (Update K V)) (k : K) : Prop := ∃ u ∈ writes, u.key = k

variable [DecidableEq K]

/-- The commit with the largest timestamp up to `ts` among those that wrote the key. -/
structure IsNewest (commits : List (Commit K V)) (k : K) (ts : Nat) (c : Commit K V) : Prop where
  mem : c ∈ commits
  wrote : Wrote c.writes k
  le : c.commit_ts ≤ ts
  newest : ∀ c' ∈ commits, Wrote c'.writes k → c'.commit_ts ≤ ts → c'.commit_ts ≤ c.commit_ts

/-- What the commits did to one key, newest first. -/
def keyCommits (commits : List (Commit K V)) (k : K) : List (Nat × Option V) :=
  commits.reverse.filterMap fun c => (latest c.writes k).map fun value => (c.commit_ts, value)

/-- What is committed of a key at a time: the first entry that is not younger. -/
def committedAt (entries : List (Nat × Option V)) (ts : Nat) : Option (Option V) :=
  (entries.find? fun e => e.1 ≤ ts).map Prod.snd

omit [DecidableEq K] in
theorem Wrote.append {writes writes' : List (Update K V)} {k : K} :
    Wrote (writes ++ writes') k ↔ Wrote writes k ∨ Wrote writes' k := by
  simp [Wrote, or_and_right, exists_or]

theorem wrote_iff_latest {writes : List (Update K V)} {k : K} : Wrote writes k ↔ (latest writes k).isSome := by
  rw [← not_iff_not, not_isSome_iff_eq_none, history.latest_eq_none_iff]
  simp [Wrote]

/-- Timestamps grow from commit to commit. -/
def Ordered (commits : List (Commit K V)) : Prop := commits.Pairwise fun c c' => c.commit_ts < c'.commit_ts

/-- Of two transactions that wrote one key, the later began when the earlier had committed. -/
def FirstCommitterWins (commits : List (Commit K V)) : Prop :=
  commits.Pairwise fun c c' => ∀ k, Wrote c.writes k → Wrote c'.writes k → c.commit_ts ≤ c'.start_ts

/-- The commits without what they wrote to some of the keys. -/
def forget (p : K → Bool) (commits : List (Commit K V)) : List (Commit K V) :=
  commits.map fun c => { c with writes := c.writes.filter fun u => !p u.key }

section Commits

variable {commits : List (Commit K V)} {c : Commit K V} {k : K} {ts : Nat}

theorem keyCommits_concat (commits : List (Commit K V)) (c : Commit K V) (k : K) :
    keyCommits (commits ++ [c]) k =
      ((latest c.writes k).map fun value => (c.commit_ts, value)).toList ++ keyCommits commits k := by
  unfold keyCommits
  rw [reverse_append, reverse_singleton, singleton_append, filterMap_cons]
  cases latest c.writes k <;> rfl

theorem keyCommits_append (older newer : List (Commit K V)) (k : K) :
    keyCommits (older ++ newer) k = keyCommits newer k ++ keyCommits older k := by
  rw [keyCommits, reverse_append, filterMap_append]
  rfl

theorem mem_keyCommits {e : Nat × Option V} (he : e ∈ keyCommits commits k) :
    ∃ c ∈ commits, c.commit_ts = e.1 ∧ latest c.writes k = some e.2 := by
  obtain ⟨c, hc, hmap⟩ := mem_filterMap.mp he
  obtain ⟨value, hlatest, rfl⟩ := map_eq_some_iff.mp hmap
  exact ⟨c, mem_reverse.mp hc, rfl, hlatest⟩

omit [DecidableEq K] in
theorem committedAt_cons (e : Nat × Option V) (entries : List (Nat × Option V)) (ts : Nat) :
    committedAt (e :: entries) ts = if e.1 ≤ ts then some e.2 else committedAt entries ts := by
  rw [committedAt, List.find?_cons]
  by_cases hle : e.1 ≤ ts <;> simp [hle, committedAt]

omit [DecidableEq K] in
/-- A snapshot that has all commits sees the newest one. -/
theorem committedAt_newest {entries : List (Nat × Option V)} (h : ∀ e ∈ entries, e.1 ≤ ts) :
    committedAt entries ts = entries.head?.map Prod.snd := by
  cases entries with
  | nil => rfl
  | cons e rest => rw [committedAt_cons, if_pos (h e (mem_cons_self ..))]; rfl

/-- The newest commit of a key decides what a snapshot sees of it. -/
theorem IsNewest.committedAt_eq (h : IsNewest commits k ts c) (hordered : Ordered commits) :
    committedAt (keyCommits commits k) ts = latest c.writes k := by
  induction commits using List.reverseRecOn with
  | nil => exact absurd h.mem not_mem_nil
  | append_singleton commits c' ih =>
    obtain ⟨hordered', -, hlt⟩ := pairwise_append.mp hordered
    obtain ⟨value, hvalue⟩ := isSome_iff_exists.mp (wrote_iff_latest.mp h.wrote)
    rw [keyCommits_concat]
    rcases mem_append.mp h.mem with hmem | hmem
    · -- an older commit is the newest one, so the last one did not write the key in time
      have hnot : Wrote c'.writes k → ts < c'.commit_ts := by
        intro hwrote
        by_contra hle
        have hnewest := h.newest c' (by simp) hwrote (not_lt.mp hle)
        exact absurd (hlt c hmem c' (by simp)) (not_lt.mpr hnewest)
      have hih := ih ⟨hmem, h.wrote, h.le, fun c'' hc'' => h.newest c'' (mem_append_left _ hc'')⟩ hordered'
      cases hlatest : latest c'.writes k with
      | none => exact hih
      | some value' =>
        have hyoung := hnot (wrote_iff_latest.mpr (by rw [hlatest]; rfl))
        rw [← hih]
        simp [committedAt, not_le.mpr hyoung]
    · obtain rfl := mem_singleton.mp hmem
      simp [committedAt, hvalue, h.le]

/-- Without a commit in time a snapshot sees nothing of a key. -/
theorem committedAt_eq_none (h : ∀ c ∈ commits, Wrote c.writes k → ts < c.commit_ts) :
    committedAt (keyCommits commits k) ts = none := by
  rw [committedAt, map_eq_none_iff, List.find?_eq_none]
  intro e he
  obtain ⟨c, hc, hts, hlatest⟩ := mem_keyCommits he
  have hlt := h c hc (wrote_iff_latest.mpr (by rw [hlatest]; rfl))
  rw [← hts]
  simpa using hlt

/-- Commits that are not in time do not change what a snapshot sees. -/
theorem committedAt_append {newer : List (Commit K V)} (h : ∀ c ∈ newer, Wrote c.writes k → ts < c.commit_ts) :
    committedAt (keyCommits (commits ++ newer) k) ts = committedAt (keyCommits commits k) ts := by
  have hnone := committedAt_eq_none h
  rw [committedAt, map_eq_none_iff] at hnone
  rw [keyCommits_append, committedAt, List.find?_append, hnone, none_or]
  rfl

/-- If the newest commit of a key is in a snapshot, all are. -/
theorem Ordered.commit_ts_le (h : Ordered commits) (hhead : ∀ e ∈ (keyCommits commits k).head?, e.1 ≤ ts)
    (hc : c ∈ commits) (hw : Wrote c.writes k) : c.commit_ts ≤ ts := by
  induction commits using List.reverseRecOn with
  | nil => exact absurd hc not_mem_nil
  | append_singleton commits c' ih =>
    obtain ⟨hordered, -, hlt⟩ := pairwise_append.mp h
    rw [keyCommits_concat] at hhead
    cases hlatest : latest c'.writes k with
    | none =>
      rw [hlatest] at hhead
      rcases mem_append.mp hc with hmem | hmem
      · exact ih hordered hhead hmem
      · obtain rfl := mem_singleton.mp hmem
        have hsome := wrote_iff_latest.mp hw
        rw [hlatest] at hsome
        cases hsome
    | some value =>
      rw [hlatest] at hhead
      have hlast : c'.commit_ts ≤ ts := hhead (c'.commit_ts, value) rfl
      rcases mem_append.mp hc with hmem | hmem
      · exact (hlt c hmem c' (mem_singleton_self _)).le.trans hlast
      · obtain rfl := mem_singleton.mp hmem
        exact hlast

omit [DecidableEq K] in
theorem Ordered.concat (h : Ordered commits) (hlt : ∀ c' ∈ commits, c'.commit_ts < c.commit_ts) :
    Ordered (commits ++ [c]) :=
  pairwise_append.mpr ⟨h, pairwise_singleton _ _, fun c' hc' x hx => by
    obtain rfl := mem_singleton.mp hx
    exact hlt c' hc'⟩

omit [DecidableEq K] in
/-- A commit keeps the rule if nobody committed a key of its since it began. -/
theorem FirstCommitterWins.concat (h : FirstCommitterWins commits)
    (hguard : ∀ c' ∈ commits, ∀ k, Wrote c'.writes k → Wrote c.writes k → c'.commit_ts ≤ c.start_ts) :
    FirstCommitterWins (commits ++ [c]) :=
  pairwise_append.mpr ⟨h, pairwise_singleton _ _, fun c' hc' x hx => by
    obtain rfl := mem_singleton.mp hx
    exact hguard c' hc'⟩

omit [DecidableEq K] in
/-- No two commits of one key overlap. -/
theorem FirstCommitterWins.not_overlap (h : FirstCommitterWins commits) (hordered : Ordered commits)
    {c c' : Commit K V} (hc : c ∈ commits) (hc' : c' ∈ commits) (hne : c ≠ c') (hw : Wrote c.writes k)
    (hw' : Wrote c'.writes k) : ¬ (c.start_ts < c'.commit_ts ∧ c'.start_ts < c.commit_ts) := by
  have hboth := h.and hordered
  induction hboth with
  | nil => exact absurd hc not_mem_nil
  | cons hhead _ ih =>
    rintro ⟨hlt, hlt'⟩
    rcases mem_cons.mp hc with rfl | hmem <;> rcases mem_cons.mp hc' with rfl | hmem'
    · exact hne rfl
    · exact absurd ((hhead c' hmem').1 k hw hw') (not_le.mpr hlt')
    · exact absurd ((hhead c hmem).1 k hw' hw) (not_le.mpr hlt)
    · exact ih (List.Pairwise.of_cons h) (List.Pairwise.of_cons hordered) hmem hmem' ⟨hlt, hlt'⟩

theorem latest_filter (p : K → Bool) (writes : List (Update K V)) (k : K) :
    latest (writes.filter fun u => !p u.key) k = if p k then none else latest writes k := by
  induction writes using List.reverseRecOn with
  | nil => simp
  | append_singleton writes u ih =>
    rw [filter_append, history.latest_concat]
    by_cases hkey : u.key = k
    · subst hkey
      cases hp : p u.key with
      | true => simpa [hp] using ih
      | false => simp [hp, history.latest_concat]
    · cases hp : p u.key with
      | true => simpa [hp, hkey] using ih
      | false => simpa [hp, hkey, history.latest_concat] using ih

theorem keyCommits_forget (p : K → Bool) (commits : List (Commit K V)) (k : K) :
    keyCommits (forget p commits) k = if p k then [] else keyCommits commits k := by
  induction commits using List.reverseRecOn with
  | nil => simp [forget, keyCommits]
  | append_singleton commits c ih =>
    rw [forget, map_append, map_singleton, keyCommits_concat, keyCommits_concat, latest_filter]
    rw [forget] at ih
    rw [ih]
    cases p k <;> simp

omit [DecidableEq K] in
theorem Ordered.forget (h : Ordered commits) (p : K → Bool) : Ordered (forget p commits) :=
  pairwise_map.mpr h

omit [DecidableEq K] in
theorem FirstCommitterWins.forget (h : FirstCommitterWins commits) (p : K → Bool) :
    FirstCommitterWins (forget p commits) := by
  refine pairwise_map.mpr (List.Pairwise.imp (fun hwins k hw hw' => ?_) h)
  obtain ⟨u, hu, hkey⟩ := hw
  obtain ⟨u', hu', hkey'⟩ := hw'
  exact hwins k ⟨u, (mem_filter.mp hu).1, hkey⟩ ⟨u', (mem_filter.mp hu').1, hkey'⟩

end Commits

end snapshot
