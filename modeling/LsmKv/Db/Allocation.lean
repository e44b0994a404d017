import LsmKv.Db.FileNumbers

namespace lsmkv

open List Option DBImpl VersionSet

/-- The number that the next `Open` draws. -/
def Disk.openNext (d : Disk) : Nat :=
  match d.current with
  | none => 2
  | some n => d.recordedNext n

theorem Disk.openNext_apply_all (d : Disk) {ops : List FileOp} (hops : ∀ op ∈ ops, op.KeepsNext) :
    (d.apply_all ops).openNext = d.openNext := by
  have hcurrent : (d.apply_all ops).current = d.current := by
    induction ops generalizing d with
    | nil => rfl
    | cons op ops ih =>
      obtain ⟨hop, hops⟩ := forall_mem_cons.mp hops
      rw [Disk.apply_all_cons, ih _ hops]
      cases op with
      | write_manifest | write_current => exact absurd hop id
      | _ => rfl
  unfold Disk.openNext
  rw [hcurrent]
  cases d.current with
  | none => rfl
  | some n => exact d.recordedNext_apply_all n hops

namespace System

/-- The invariant of every run: what is listed was created, and a running database
    counts above everything created. -/
structure Numbered (s : System) : Prop where
  added : s.disk.AddedIn s.created
  db : ∀ db, s.db = some db → db.CreatedBelow s.created

/-- The recorded next number is above everything created. -/
def Recorded (s : System) : Prop := ∀ n ∈ s.created, n < s.disk.openNext

variable {dbname : String} {s s' : System} {event : Event} {action : Action} {o : Outcome}

/-- The events of a running database. -/
inductive Runs (s : System) (db : DBImpl) (o : Outcome) : Prop where
  | write (options : WriteOptions) (type : ValueType) (key value : Bytes) (result : Except Status Unit)
      (db' : DBImpl) (hwrite : db.write options type key value = some ((db', result), o.ops))
      (ho : o = stepOutcome db db' o.ops)
  | bg (ho : o = stepOutcome db (db.bg_step s.disk).1 (db.bg_step s.disk).2)
  | close (ho : o = ⟨db.close, none, if db.imm.isSome then [db.versions.next_file_number] else []⟩)

theorem outcome_cases (h : s.outcome dbname event = some o) :
    (∃ options, event = .open_db options ∧ s.db = none ∧ o = ⟨(open_db options dbname s.disk).1,
        (open_db options dbname s.disk).2.toOption,
        (open_db options dbname s.disk).1.filterMap FileOp.created⟩) ∨
      ((∀ options, event ≠ .open_db options) ∧ ∃ db, s.db = some db ∧ s.Runs db o) := by
  cases event with
  | open_db options =>
    cases hdb : s.db with
    | some db => simp [outcome, hdb] at h
    | none =>
      simp only [outcome, hdb, Option.some.injEq] at h
      exact .inl ⟨options, rfl, rfl, h.symm⟩
  | step label =>
    refine .inr ⟨by simp, ?_⟩
    cases label with
    | put options key value | delete options key =>
      obtain ⟨db, hdb, h⟩ := bind_eq_some_iff.mp h
      obtain ⟨⟨⟨db', result⟩, ops⟩, hwrite, h⟩ := bind_eq_some_iff.mp h
      cases h
      exact ⟨db, hdb, .write _ _ _ _ result db' hwrite rfl⟩
    | bg =>
      obtain ⟨db, hdb, h⟩ := bind_eq_some_iff.mp h
      cases h
      exact ⟨db, hdb, .bg rfl⟩
  | close =>
    refine .inr ⟨by simp, ?_⟩
    obtain ⟨db, hdb, h⟩ := bind_eq_some_iff.mp h
    refine ⟨db, hdb, .close ?_⟩
    cases hcase : db.bg <;> simp [hcase] at h
    exact h.symm

/-- What an event of a running database does to the numbers. -/
theorem Runs.keeps {db : DBImpl} (h : s.Runs db o) (hbelow : db.CreatedBelow s.created) :
    AddsCreated s.created o.ops ∧ (∀ op ∈ o.ops, op.KeepsNext) ∧
      (∀ db', o.db = some db' → db'.CreatedBelow (s.created ++ o.ops.filterMap FileOp.created)) ∧
      ∀ n ∈ o.drawn, db.versions.next_file_number ≤ n := by
  have hdrawn : ∀ db' : DBImpl, ∀ n ∈ handedOut db.versions db'.versions, db.versions.next_file_number ≤ n :=
    fun db' n hn => (mem_range'_1.mp hn).1
  cases h with
  | write options type key value result db' hwrite ho =>
    have hkeeps := hbelow.write hwrite
    have hdb : o.db = some db' := by rw [ho]; rfl
    refine ⟨hkeeps.adds, hkeeps.keeps, ?_, by rw [ho]; exact hdrawn db'⟩
    intro db'' hdb''
    cases hdb.symm.trans hdb''
    exact hkeeps.below
  | bg ho =>
    subst ho
    have hkeeps := hbelow.bg_step (d := s.disk)
    refine ⟨hkeeps.adds, hkeeps.keeps, ?_, hdrawn _⟩
    intro db' hdb'
    cases hdb'
    exact hkeeps.below
  | close ho =>
    subst ho
    refine ⟨hbelow.close.1, hbelow.close.2, by simp, ?_⟩
    dsimp only
    split <;> simp

theorem performed_eq_take (h : s.outcome dbname action.event = some o) :
    ∃ i, s.performed dbname action = o.ops.take i := by
  unfold performed
  rw [h]
  cases action with
  | complete event => exact ⟨o.ops.length, take_length.symm⟩
  | crash event done kept torn => exact ⟨done, rfl⟩

/-- Everything a step does, as far as numbers go. -/
theorem step_cases (hstep : s.step dbname action = some s') :
    ∃ o, s.outcome dbname action.event = some o ∧
      s'.created = s.created ++ (s.performed dbname action).filterMap FileOp.created ∧
      s'.disk.current = (s.disk.apply_all (s.performed dbname action)).current ∧
      s'.disk.manifests = (s.disk.apply_all (s.performed dbname action)).manifests ∧
      (s'.db = none ∨ s.performed dbname action = o.ops ∧ s'.db = o.db) := by
  obtain ⟨o, ho, rfl⟩ := map_eq_some_iff.mp hstep
  refine ⟨o, ho, ?_⟩
  cases action with
  | complete event =>
    refine ⟨rfl, rfl, rfl, .inr ⟨?_, rfl⟩⟩
    rw [performed, ho]
  | crash event done kept torn => cases s.db <;> exact ⟨rfl, rfl, rfl, .inl rfl⟩

theorem Numbered.live_subset (h : s.Numbered) : s.live dbname ⊆ s.created := by
  unfold live
  cases hdb : s.db with
  | some db => exact (h.db db hdb).live
  | none =>
    dsimp only
    unfold VersionSet.recover
    cases hcurrent : s.disk.current with
    | none => exact nil_subset _
    | some n =>
      dsimp only
      cases hmanifest : s.disk.manifests n with
      | none => exact nil_subset _
      | some edits =>
        intro m hm
        exact h.added.live hmanifest (mem_live_sort_level1.mp hm)

theorem openNext_of_manifest {d : Disk} {n : Nat} {edits : List VersionEdit} (hcurrent : d.current = some n)
    (hmanifest : d.manifests n = some edits) : (replayManifest n edits).next_file_number = d.openNext := by
  simp [Disk.openNext, hcurrent, Disk.recordedNext, hmanifest]

theorem open_db_added (options : Options) (dbname : String) (d : Disk) : ∀ op ∈ (open_db options dbname d).1, op.added = [] := by
  obtain ⟨hops, -⟩ | ⟨n, edits, -, -, ⟨hops, -⟩ | ⟨replayed, hopen⟩⟩ | ⟨-, hopen⟩ :=
    open_db_cases options dbname d
  · simp [hops]
  · simp [hops, FileOp.added]
  · simp [hopen, FileOp.added, Recoverable.openEdit]
  · simp [hopen, FileOp.added]

/-- The only number that an `Open` draws for a file. -/
theorem open_db_created (options : Options) (dbname : String) (d : Disk) :
    ∀ n ∈ (open_db options dbname d).1.filterMap FileOp.created, n = d.openNext := by
  obtain ⟨hops, -⟩ | ⟨n, edits, hcurrent, hmanifest, ⟨hops, -⟩ | ⟨replayed, hopen⟩⟩ | ⟨hcurrent, hopen⟩ :=
    open_db_cases options dbname d
  · simp [hops]
  · simp [hops, FileOp.created, openNext_of_manifest hcurrent hmanifest]
  · simp [hopen, FileOp.created, openNext_of_manifest hcurrent hmanifest]
  · simp [hopen, FileOp.created, Disk.openNext, hcurrent]

/-- A database opened above all created files counts above them, its log included. -/
theorem Numbered.opened (h : s.Numbered) (hrecorded : s.Recorded) {options : Options} {db : DBImpl}
    (hdb : (open_db options dbname s.disk).2.toOption = some db) :
    db.CreatedBelow (s.created ++ (open_db options dbname s.disk).1.filterMap FileOp.created) := by
  have hcreated := open_db_created options dbname s.disk
  have hbelow : ∀ n ∈ s.created ++ (open_db options dbname s.disk).1.filterMap FileOp.created,
      n < s.disk.openNext + 2 := by
    intro n hn
    rcases mem_append.mp hn with hn | hn
    · have := hrecorded n hn
      omega
    · have := hcreated n hn
      omega
  obtain ⟨-, hnone⟩ | ⟨n, edits, hcurrent, hmanifest, ⟨-, hnone⟩ | ⟨replayed, hopen⟩⟩ | ⟨hcurrent, hopen⟩ :=
    open_db_cases options dbname s.disk
  · rw [hnone] at hdb
    cases hdb
  · rw [hnone] at hdb
    cases hdb
  · rw [hopen] at hdb
    cases hdb
    have hnext := openNext_of_manifest hcurrent hmanifest
    have hlive : (Recoverable.openedDb options dbname n edits replayed).versions.current.live ⊆
        s.created ++ (open_db options dbname s.disk).1.filterMap FileOp.created := fun m hm =>
      mem_append_left _ (h.added.live hmanifest (mem_live_sort_level1.mp hm))
    rw [← hnext] at hbelow
    exact ⟨⟨fun m hm => hbelow m (hlive hm), by simp [Recoverable.openedDb, BgState.reserved]⟩, hbelow, hlive,
      by simp [Recoverable.openedDb, BgState.prepared], by simp [Recoverable.openedDb, BgState.edit]⟩
  · rw [hopen] at hdb
    cases hdb
    have hnext : s.disk.openNext = 2 := by simp [Disk.openNext, hcurrent]
    rw [hnext] at hbelow
    exact ⟨(Session.freshSession_holds options dbname).2, hbelow, by simp [Session.freshSession, Version.live],
      by simp [Session.freshSession, BgState.prepared], by simp [Session.freshSession, BgState.edit]⟩

/-- A step keeps the numbers in line. An `Open` does if the recorded number is up to date. -/
theorem Numbered.step (h : s.Numbered) (hopen : action.opens = true → s.Recorded)
    (hstep : s.step dbname action = some s') : s'.Numbered := by
  obtain ⟨o, ho, hcreated, -, hmanifests, hdb⟩ := step_cases hstep
  obtain ⟨i, hperformed⟩ := performed_eq_take ho
  obtain ⟨hadds, hdb'⟩ : AddsCreated s.created o.ops ∧
      ∀ db', o.db = some db' → db'.CreatedBelow (s.created ++ o.ops.filterMap FileOp.created) := by
    rcases outcome_cases ho with ⟨options, hevent, -, rfl⟩ | ⟨-, db, hdb, hruns⟩
    · have hrecorded := hopen (by rw [Action.opens, hevent])
      refine ⟨.of_added fun op hop => ?_, fun db' hdb' => h.opened hrecorded hdb'⟩
      rw [open_db_added _ _ _ op hop]
      exact nil_subset _
    · obtain ⟨hadds, -, hbelow, -⟩ := hruns.keeps (h.db db hdb)
      exact ⟨hadds, hbelow⟩
  refine ⟨?_, ?_⟩
  · have hadded := h.added.apply_all (hadds.take i)
    rw [← hperformed, ← hcreated] at hadded
    intro n edits hedits
    exact hadded n edits (by rw [← hmanifests]; exact hedits)
  · intro db hsome
    rcases hdb with hnone | ⟨hall, heq⟩
    · rw [hnone] at hsome
      cases hsome
    · rw [hcreated, hall]
      exact hdb' db (heq ▸ hsome)

theorem apply_all_openNext_of_same {d d' : Disk} (hcurrent : d'.current = d.current)
    (hmanifests : d'.manifests = d.manifests) : d'.openNext = d.openNext := by
  unfold Disk.openNext Disk.recordedNext
  rw [hcurrent, hmanifests]

/-- A prefix of the operations of an `Open` that creates nothing keeps the recorded
    number, and one with the manifest record moves it above the new log. -/
theorem openNext_open_db (options : Options) (dbname : String) (d : Disk) (i : Nat)
    (hquiet : ((open_db options dbname d).1.take i).filterMap FileOp.created = [] ∨
      ((open_db options dbname d).1.take i).any FileOp.appendsManifest = true) :
    (∀ n ∈ ((open_db options dbname d).1.take i).filterMap FileOp.created,
        n < (d.apply_all ((open_db options dbname d).1.take i)).openNext) ∧
      d.openNext ≤ (d.apply_all ((open_db options dbname d).1.take i)).openNext := by
  obtain ⟨hops, -⟩ | ⟨n, edits, hcurrent, hmanifest, ⟨hops, -⟩ | ⟨replayed, hopen⟩⟩ | ⟨hcurrent, hopen⟩ :=
    open_db_cases options dbname d
  · simp [hops]
  · rw [hops] at hquiet ⊢
    rcases i with _ | i
    · simp
    · simp [FileOp.created, FileOp.appendsManifest] at hquiet
  · have hnext := openNext_of_manifest hcurrent hmanifest
    rw [hopen] at hquiet ⊢
    rcases i with _ | _ | i
    · simp
    · simp [FileOp.created, FileOp.appendsManifest] at hquiet
    · have hafter : (d.apply_all (List.take (i + 2) [FileOp.open_log (replayManifest n edits).next_file_number,
          .append_manifest n (Recoverable.openEdit (replayManifest n edits))])).openNext = d.openNext + 1 := by
        simp [Disk.apply, Disk.openNext, hcurrent, Disk.recordedNext, hmanifest, replayManifest_concat,
          recover_edit, Recoverable.openEdit]
      rw [hafter]
      simp [FileOp.created, hnext]
  · have hnext : d.openNext = 2 := by simp [Disk.openNext, hcurrent]
    rw [hopen] at hquiet ⊢
    rcases i with _ | _ | _ | _ | i
    · simp
    · simp [FileOp.created, Disk.apply, Disk.openNext, hcurrent]
    · simp [FileOp.created, Disk.apply, Disk.openNext, Disk.recordedNext, replayManifest, hcurrent,
        recover_edit]
    · simp [FileOp.created, FileOp.appendsManifest] at hquiet
    · rw [hnext]
      simp [FileOp.created, Disk.apply, Disk.openNext, Disk.recordedNext, replayManifest, hcurrent,
        recover_edit]

/-- A quiet action keeps the recorded number above everything created. -/
theorem Recorded.step (h : s.Recorded) (hnumbered : s.Numbered) (hquiet : s.Quiet dbname action)
    (hstep : s.step dbname action = some s') : s'.Recorded := by
  obtain ⟨o, ho, hcreated, hcurrent, hmanifests, -⟩ := step_cases hstep
  obtain ⟨i, hperformed⟩ := performed_eq_take ho
  have hnext := apply_all_openNext_of_same hcurrent hmanifests
  intro n hn
  rw [hnext]
  rw [hcreated] at hn
  rcases outcome_cases ho with ⟨options, hevent, -, rfl⟩ | ⟨hevent, db, hdb, hruns⟩
  · have hquiet' : _ ∨ _ := hquiet.imp id And.right
    rw [hperformed] at hquiet' hn ⊢
    obtain ⟨hnew, hle⟩ := openNext_open_db options dbname s.disk i hquiet'
    rcases mem_append.mp hn with hn | hn
    · exact (h n hn).trans_le hle
    · exact hnew n hn
  · have hnothing : (s.performed dbname action).filterMap FileOp.created = [] := by
      rcases hquiet with hnothing | ⟨hopens, -⟩
      · exact hnothing
      · unfold Action.opens at hopens
        cases hcase : action.event with
        | open_db options => exact absurd hcase (hevent options)
        | step | close => simp [hcase] at hopens
    rw [hnothing, append_nil] at hn
    obtain ⟨-, hkeeps, -, -⟩ := hruns.keeps (hnumbered.db db hdb)
    rw [hperformed, Disk.openNext_apply_all _ fun op hop => hkeeps op (mem_of_mem_take hop)]
    exact h n hn

/-- Every number drawn is new: an `Open` draws the recorded number, and all else is
    drawn from the counter. -/
theorem Numbered.drawsNew (h : s.Numbered) (hopen : action.opens = true → s.Recorded) :
    s.DrawsNew dbname action := by
  intro o ho n hn
  have hnew : n ∉ s.created := by
    intro hmem
    rcases outcome_cases ho with ⟨options, hevent, -, rfl⟩ | ⟨-, db, hdb, hruns⟩
    · have hrecorded := hopen (by rw [Action.opens, hevent])
      have hlt := hrecorded n hmem
      rw [open_db_created _ _ _ n hn] at hlt
      exact lt_irrefl _ hlt
    · obtain ⟨-, -, -, hdrawn⟩ := hruns.keeps (h.db db hdb)
      exact absurd ((h.db db hdb).counter n hmem) (not_lt.mpr (hdrawn n hn))
  exact ⟨fun hlive => hnew (h.live_subset hlive), hnew⟩

theorem Numbered.run_drawsNew (h : s.Numbered) {actions : List Action} {last : Action}
    (hopen : (actions ++ [last]).any Action.opens = true → s.Recorded)
    (hquiet : s.QuietBeforeOpen dbname (actions ++ [last])) (hrun : s.run dbname actions = some s') :
    s'.DrawsNew dbname last := by
  induction actions generalizing s with
  | nil =>
    cases hrun
    exact h.drawsNew fun hopens => hopen (by simp [hopens])
  | cons action actions ih =>
    obtain ⟨mid, hstep, hrest⟩ := bind_eq_some_iff.mp hrun
    rw [cons_append] at hopen hquiet
    obtain ⟨hfirst, hothers⟩ := hquiet
    rw [hstep] at hothers
    have hmid := h.step (fun hopens => hopen (by simp [hopens])) hstep
    refine ih hmid (fun hlater => ?_) hothers hrest
    exact Recorded.step (hopen (by rw [any_cons, hlater, Bool.or_true])) h (hfirst hlater) hstep

/-- Over any number of sessions and crashes: if no action before the last `Open`
    creates a log or a table, but each `Open` that gets to its manifest record, then
    every number handed out is that of no live table and of no file ever created. -/
theorem drawn_numbers_new {dbname : String} {actions : List Action} {last : Action} {s : System}
    (hrun : run dbname {} actions = some s) (hquiet : QuietBeforeOpen dbname {} (actions ++ [last])) :
    s.DrawsNew dbname last := by
  have hnumbered : Numbered {} := ⟨by simp [Disk.AddedIn], by simp⟩
  exact hnumbered.run_drawsNew (fun _ n hn => absurd hn not_mem_nil) hquiet hrun

/-- A quiet session, and one that replays its write and rotates. -/
theorem drawn_number_after_reopen :
    ∃ s o, run "db" {} [.complete (.open_db { create_if_missing := true, write_buffer_size := 1 }),
        .complete (.step (.put {} [97] [49])), .complete .close,
        .complete (.open_db { write_buffer_size := 1 })] = some s ∧
      s.outcome "db" (.step (.put {} [98] [50])) = some o ∧ o.drawn = [5] ∧
      ∀ n ∈ o.drawn, n ∉ s.live "db" ∧ n ∉ s.created := by
  have hfacts : (run "db" {} [.complete (.open_db { create_if_missing := true, write_buffer_size := 1 }),
        .complete (.step (.put {} [97] [49])), .complete .close,
        .complete (.open_db { write_buffer_size := 1 })]).bind (fun s =>
      (s.outcome "db" (.step (.put {} [98] [50]))).map Outcome.drawn) = some [5] := by decide
  obtain ⟨s, hrun, hs⟩ := bind_eq_some_iff.mp hfacts
  obtain ⟨o, ho, hdrawn⟩ := map_eq_some_iff.mp hs
  have hnew : s.DrawsNew "db" (.complete (.step (.put {} [98] [50]))) := drawn_numbers_new hrun (by decide)
  exact ⟨s, o, hrun, ho, hdrawn, hnew o ho⟩

/-- A session that rotates and flushes leaves a table under a number that the next
    session draws again: the recorded number is still that of the first `Open`. -/
theorem drawn_number_of_live_table :
    ∃ s o, run "db" {} [.complete (.open_db { create_if_missing := true, write_buffer_size := 1 }),
        .complete (.step (.put {} [97] [49])), .complete (.step (.put {} [98] [50])), .complete .close,
        .complete (.open_db { write_buffer_size := 1 })] = some s ∧
      s.outcome "db" (.step (.put {} [99] [51])) = some o ∧ 5 ∈ o.drawn ∧ 5 ∈ s.live "db" ∧ 5 ∈ s.created := by
  have hfacts : (run "db" {} [.complete (.open_db { create_if_missing := true, write_buffer_size := 1 }),
        .complete (.step (.put {} [97] [49])), .complete (.step (.put {} [98] [50])), .complete .close,
        .complete (.open_db { write_buffer_size := 1 })]).bind (fun s =>
      (s.outcome "db" (.step (.put {} [99] [51]))).map fun o => (o.drawn, s.live "db", s.created)) =
      some ([5], [5], [2, 4, 5, 3]) := by decide
  obtain ⟨s, hrun, hs⟩ := bind_eq_some_iff.mp hfacts
  obtain ⟨o, ho, hs⟩ := map_eq_some_iff.mp hs
  simp only [Prod.mk.injEq] at hs
  obtain ⟨hdrawn, hlive, hcreated⟩ := hs
  exact ⟨s, o, hrun, ho, by rw [hdrawn]; decide, by rw [hlive]; decide, by rw [hcreated]; decide⟩

end System

end lsmkv
