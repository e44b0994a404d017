import LsmKv.Db.ReadSteps

namespace lsmkv

open List Option Version

namespace Reading

open Reader

variable {s₀ : Session} {call : ReadCall} {read_snapshot : Nat} {r r' : Reading} {event : Event}

/-- The read has met a missing table, or will. -/
def Broken (s₀ : Session) (r : Reading) : Prop :=
  r.reader.Failed ∨ ∃ n ∈ r.reader.needs s₀, r.session.disk.tables n = none

theorem failed_of_no_needs {failed : Prop} {p : Nat → Prop} (h : failed ∨ ∃ n ∈ ([] : List Nat), p n) : failed := by
  refine h.resolve_right ?_
  rintro ⟨n, hn, -⟩
  cases hn

section Read

variable {l₀ : Layout} (hbase : s₀.Holds l₀) (hlast₀ : s₀.db.versions.last_sequence < 2 ^ 56)
  (hsnap : s₀.db.read_sequence read_snapshot ≤ s₀.db.versions.last_sequence)

include hbase

theorem tableHolds_listed {f : FileMetaData}
    (hf : f ∈ s₀.db.versions.current.files0 ++ s₀.db.versions.current.files1) : TableHolds s₀.disk f :=
  hbase.1.levels.tablesHold.probed f (by simpa using hf)

/-- A table of the version that is still there has its entries. -/
theorem Tracks.open_file (h : Tracks s₀ call read_snapshot r) {f : FileMetaData}
    (hf : f ∈ s₀.db.versions.current.files0 ++ s₀.db.versions.current.files1)
    (hthere : r.session.disk.tables f.number ≠ none) :
    SSTable.open_file r.session.disk r.session.db.dbname f.number = .ok (s₀.disk.entries f) := by
  have hsame := (h.tables _ (mem_live_of_listed hf)).resolve_right hthere
  rw [SSTable.open_file, hsame, (tableHolds_listed hbase hf).finished]

include hlast₀ hsnap

variable {imm : Option MemTable} {snapshot : Nat} {files : List FileMetaData}

section

variable {call' : ReadCall} {mem : HeldMem} {version : Version} (h : Tracks s₀ call read_snapshot r)
  (hreader : r.reader = .pinned call' mem imm version snapshot)

include h hreader

theorem Tracks.memtables_eq (key : Bytes) :
    ((mem.table r.session.db).get key snapshot).or (imm.bind fun imm => imm.get key snapshot) =
      (s₀.db.mem.get key snapshot).or (s₀.db.imm.bind fun imm => imm.get key snapshot) := by
  have hstands := h.stands
  rw [hreader] at hstands
  obtain ⟨-, rfl, -, rfl, hsame⟩ := hstands
  have hstamped : ∀ e ∈ s₀.db.mem.table, Stamped e := fun e he =>
    hbase.1.stamped_layers hlast₀ e (by simp [DBImpl.layers, he])
  rw [hsame.get_eq hstamped hsnap (hsnap.trans_lt hlast₀)]

end

omit hlast₀ hsnap

include hlast₀ hsnap

/-- A read with a missing table ahead meets it. -/
theorem Broken.of_read (h : Tracks s₀ call read_snapshot r) (hbroken : r.Broken s₀)
    (hstep : r.step .read = some r') : r'.Broken s₀ := by
  cases hstep
  show (r.reader.step r.session).Failed ∨
    ∃ n ∈ (r.reader.step r.session).needs s₀, r.session.disk.tables n = none
  have hstands := h.stands
  unfold Broken at hbroken
  cases hreader : r.reader with
  | pinned call' mem imm version snapshot =>
    have hmemtables := h.memtables_eq hbase hlast₀ hsnap hreader
    rw [hreader] at hbroken
    obtain ⟨n, hn, hgone⟩ := hbroken.resolve_left id
    cases call' with
    | new_iterator => exact .inr ⟨n, hn, hgone⟩
    | get key =>
      rcases @step_pinned_get r.session key snapshot mem imm version with ⟨found, hfound, -⟩ | ⟨hnone, hstep⟩
      · rw [hmemtables key] at hfound
        rw [needs, hfound] at hn
        cases hn
      · rw [hmemtables key] at hnone
        rw [needs, hnone] at hn
        rw [hstep]
        exact .inr ⟨n, hn, hgone⟩
  | probing key snapshot files =>
    rw [hreader] at hbroken hstands
    obtain ⟨n, hn, hgone⟩ := hbroken.resolve_left id
    obtain ⟨-, rfl, hfiles⟩ := hstands
    set snapshot := s₀.db.read_sequence read_snapshot
    cases files with
    | nil => cases hn
    | cons f files =>
      have hf := hfiles f mem_cons_self
      rcases @step_probing r.session key snapshot f files with ⟨hrange, hstep⟩ | ⟨hrange, hcases⟩
      · rw [needs, probes_skip hrange] at hn
        rw [hstep]
        exact .inr ⟨n, hn, hgone⟩
      · rw [needs, probes_cons hrange] at hn
        rcases hcases with ⟨status, herror, hstep⟩ | ⟨table, htable, hcases⟩
        · rw [hstep]
          refine .inl ⟨status, rfl, ?_⟩
          -- the version's tables are finished, so that only a missing one does not open
          rcases h.tables _ (mem_live_of_listed hf) with hsame | hnone
          · rw [SSTable.open_file, hsame, (tableHolds_listed hbase hf).finished] at herror
            cases herror
          · rw [SSTable.open_file, hnone] at herror
            cases herror
            rfl
        · have hthere : r.session.disk.tables f.number ≠ none := by
            intro hnone
            rw [SSTable.open_file, hnone] at htable
            cases htable
          have hne : n ≠ f.number := fun heq => hthere (heq ▸ hgone)
          obtain rfl : s₀.disk.entries f = table := Except.ok.inj ((h.open_file hbase hf hthere).symm.trans htable)
          have hn := (mem_cons.mp hn).resolve_left hne
          rcases hcases with ⟨found, hfound, -⟩ | ⟨hnone, hstep⟩
          · rw [hfound] at hn
            cases hn
          · rw [hnone] at hn
            rw [hstep]
            exact .inr ⟨n, hn, hgone⟩
  | opening it files =>
    rw [hreader] at hbroken
    cases files with
    | nil => exact .inl (failed_of_no_needs hbroken)
    | cons f files =>
      rcases @step_opening r.session f files it with ⟨table, htable, hstep⟩ | ⟨status, herror, hstep⟩ <;> rw [hstep]
      · refine hbroken.imp id ?_
        rintro ⟨n, hn, hgone⟩
        refine ⟨n, (mem_cons.mp hn).resolve_left ?_, hgone⟩
        rintro rfl
        rw [SSTable.open_file, hgone] at htable
        cases htable
      · refine .inl ?_
        show (it.status.or (some status)).isSome = true
        cases it.status <;> rfl
  | got result =>
    rw [hreader] at hbroken
    exact .inl (failed_of_no_needs hbroken)
  | opened it =>
    rw [hreader] at hbroken
    exact .inl (failed_of_no_needs hbroken)

end Read

theorem last_sequence_le_step (hstep : r.step event = some r') :
    r.session.db.versions.last_sequence ≤ r'.session.db.versions.last_sequence := by
  cases event with
  | call label =>
    obtain ⟨-, s, hs, -, hdb, -⟩ := step_call hstep
    rw [hdb]
    exact Session.last_sequence_le_step hs
  | file_op =>
    obtain ⟨op, -, hsession, -⟩ := step_file_op hstep
    rw [hsession]
  | read =>
    cases hstep
    exact le_rfl

variable {events : List Event}

theorem run_cons (hrun : r.run (event :: events) = some r') :
    ∃ mid, r.step event = some mid ∧ mid.run events = some r' :=
  bind_eq_some_iff.mp hrun

theorem last_sequence_le_run (hrun : r.run events = some r') :
    r.session.db.versions.last_sequence ≤ r'.session.db.versions.last_sequence := by
  induction events generalizing r with
  | nil =>
    cases hrun
    exact le_rfl
  | cons event events ih =>
    obtain ⟨mid, hstep, hrest⟩ := run_cons hrun
    exact (last_sequence_le_step hstep).trans (ih hrest)

theorem Tracks.run (h : Tracks s₀ call read_snapshot r) (hrun : r.run events = some r')
    (hlast : r'.session.db.versions.last_sequence < 2 ^ 56) : Tracks s₀ call read_snapshot r' := by
  induction events generalizing r with
  | nil =>
    cases hrun
    exact h
  | cons event events ih =>
    obtain ⟨mid, hstep, hrest⟩ := run_cons hrun
    exact ih (h.step hstep ((last_sequence_le_run hrest).trans_lt hlast)) hrest

theorem needs_subset_live (h : Tracks s₀ call read_snapshot r) :
    ∀ n ∈ r.reader.needs s₀, n ∈ s₀.db.versions.current.live := by
  have hprobes : ∀ (key : Bytes) (snapshot : Nat) (files : List FileMetaData),
      ∀ n ∈ Version.probes s₀.disk key snapshot files, ∃ f ∈ files, n = f.number := by
    intro key snapshot files
    induction files with
    | nil => simp [Version.probes]
    | cons f files ih =>
      intro n hn
      by_cases hrange : key < extract_user_key f.smallest ∨ extract_user_key f.largest < key
      · rw [probes_skip hrange] at hn
        obtain ⟨g, hg, rfl⟩ := ih n hn
        exact ⟨g, mem_cons_of_mem _ hg, rfl⟩
      · rw [probes_cons hrange] at hn
        rcases mem_cons.mp hn with rfl | hn
        · exact ⟨f, mem_cons_self, rfl⟩
        · split at hn
          · cases hn
          · obtain ⟨g, hg, rfl⟩ := ih n hn
            exact ⟨g, mem_cons_of_mem _ hg, rfl⟩
  intro n hn
  have hstands := h.stands
  cases hreader : r.reader with
  | pinned call' mem imm version snapshot =>
    rw [hreader] at hn hstands
    obtain ⟨-, -, rfl, -⟩ := hstands
    cases call' with
    | new_iterator =>
      obtain ⟨f, hf, rfl⟩ := List.mem_map.mp hn
      exact mem_live_of_listed (by simpa [DBIterator.files] using hf)
    | get key =>
      unfold needs at hn
      dsimp only at hn
      split at hn
      · cases hn
      · obtain ⟨f, hf, rfl⟩ := hprobes _ _ _ n hn
        exact mem_live_of_listed (by simpa using hf)
  | probing key snapshot files =>
    rw [hreader] at hn hstands
    obtain ⟨f, hf, rfl⟩ := hprobes _ _ _ n hn
    exact mem_live_of_listed (hstands.2.2 f hf)
  | opening it files =>
    rw [hreader] at hn hstands
    obtain ⟨f, hf, rfl⟩ := List.mem_map.mp hn
    exact mem_live_of_listed (hstands.2 f hf)
  | got | opened =>
    rw [hreader] at hn
    cases hn

section Run

variable {l₀ : Layout} (hbase : s₀.Holds l₀) (hlast₀ : s₀.db.versions.last_sequence < 2 ^ 56)
  (hsnap : s₀.db.read_sequence read_snapshot ≤ s₀.db.versions.last_sequence)

include hbase hlast₀ hsnap

section

variable (h : Tracks s₀ call read_snapshot r)

include h

/-- A table that is gone does not come back. -/
theorem Broken.step (hbroken : r.Broken s₀) (hstep : r.step event = some r') :
    r'.Broken s₀ := by
  cases event with
  | call label =>
    obtain ⟨-, s, -, -, -, hdisk, -, hreader⟩ := step_call hstep
    rw [Broken, hreader, hdisk, needs_follow]
    exact hbroken.imp_left fun hfailed => hfailed.follow label
  | file_op =>
    obtain ⟨op, hpending, hsession, hreader⟩ := step_file_op hstep
    rw [Broken, hreader, hsession]
    refine hbroken.imp_right ?_
    rintro ⟨n, hn, hgone⟩
    refine ⟨n, hn, ?_⟩
    by_cases hnumber : op.tableNumber = some n
    · rw [h.pending op (by simp [hpending]) n (needs_subset_live h n hn) hnumber]
      exact r.session.disk.apply_remove_table n
    · exact (r.session.disk.apply_tables_of_ne hnumber).trans hgone
  | read => exact Broken.of_read hbase hlast₀ hsnap h hbroken hstep

theorem Broken.run (hbroken : r.Broken s₀) {events : List Event} (hrun : r.run events = some r')
    (hlast : r'.session.db.versions.last_sequence < 2 ^ 56) : r'.Broken s₀ := by
  induction events generalizing r with
  | nil =>
    cases hrun
    exact hbroken
  | cons event events ih =>
    obtain ⟨mid, hstep, hrest⟩ := run_cons hrun
    have hmid := h.step hstep ((last_sequence_le_run hrest).trans_lt hlast)
    exact ih hmid (Broken.step hbase hlast₀ hsnap h hbroken hstep) hrest

end

end Run

end Reading

/-- An iterator shows one list only. -/
theorem DBIterator.Yields.unique {it : DBIterator} {shown shown' : List (Bytes × Bytes)} (h : it.Yields shown)
    (h' : it.Yields shown') : shown = shown' := by
  induction h generalizing shown' with
  | done hentry =>
    cases h' with
    | done => rfl
    | item hentry' => cases hentry.symm.trans hentry'
  | item hentry hrest ih =>
    cases h' with
    | done hentry' => cases hentry.symm.trans hentry'
    | item hentry' hrest' =>
      cases Option.some.inj (hentry.symm.trans hentry')
      rw [ih hrest']

/-- The code of the error that a read ended with. -/
def Reader.failure : Reader → Option Status.Code
  | .got (.error status) => some status.code
  | _ => none

namespace Session

variable {s₀ : Session} {l₀ : Layout} {call : ReadCall} {read_snapshot : Nat}

variable {options : Options} {dbname : String} {labels : List Label}

end Session

end lsmkv
