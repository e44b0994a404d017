import LsmKv.Db.System

namespace lsmkv

open List Function VersionSet

section Added

/-- The tables that an operation lists in a manifest. -/
def FileOp.added : FileOp → List Nat
  | .write_manifest _ edit | .append_manifest _ edit => edit.added_files.map fun a => a.2.number
  | _ => []

/-- A table is created before a manifest lists it. -/
def AddsCreated : List Nat → List FileOp → Prop
  | _, [] => True
  | created, op :: ops => op.added ⊆ created ∧ AddsCreated (created ++ op.created.toList) ops

/-- Every table that some manifest record lists was created. -/
def Disk.AddedIn (d : Disk) (created : List Nat) : Prop :=
  ∀ n edits, d.manifests n = some edits → ∀ edit ∈ edits, ∀ a ∈ edit.added_files, a.2.number ∈ created

variable {created : List Nat} {d : Disk} {op : FileOp} {ops : List FileOp}

theorem filterMap_created_cons (created : List Nat) (op : FileOp) (ops : List FileOp) :
    created ++ (op :: ops).filterMap FileOp.created =
      (created ++ op.created.toList) ++ ops.filterMap FileOp.created := by
  cases hop : op.created <;> simp [hop]

theorem AddsCreated.take (h : AddsCreated created ops) (i : Nat) : AddsCreated created (ops.take i) := by
  induction ops generalizing created i with
  | nil => simpa using h
  | cons op ops ih =>
    cases i with
    | zero => trivial
    | succ i => exact ⟨h.1, ih h.2 i⟩

theorem AddsCreated.of_added (hops : ∀ op ∈ ops, op.added ⊆ created) : AddsCreated created ops := by
  induction ops generalizing created with
  | nil => trivial
  | cons op ops ih =>
    obtain ⟨hop, hops⟩ := forall_mem_cons.mp hops
    exact ⟨hop, ih fun op' hop' => List.Subset.trans (hops op' hop') (subset_append_left _ _)⟩

theorem Disk.AddedIn.apply (h : d.AddedIn created) (hop : op.added ⊆ created) :
    (d.apply op).AddedIn (created ++ op.created.toList) := by
  have hold : d.AddedIn (created ++ op.created.toList) := fun n edits hedits edit hedit a ha =>
    mem_append_left _ (h n edits hedits edit hedit a ha)
  have hnew : ∀ edit : VersionEdit, (edit.added_files.map fun a => a.2.number) ⊆ created →
      ∀ a ∈ edit.added_files, a.2.number ∈ created ++ op.created.toList := fun edit hedit a ha =>
    mem_append_left _ (hedit (mem_map_of_mem ha))
  cases op with
  | write_manifest m edit =>
    intro n edits hedits
    by_cases hn : n = m
    · subst hn
      simp only [Disk.apply, update_self, Option.some.injEq] at hedits
      subst hedits
      simpa using hnew edit hop
    · exact hold n edits (by simpa [Disk.apply, update, hn] using hedits)
  | append_manifest m edit =>
    intro n edits hedits
    by_cases hn : n = m
    · subst hn
      simp only [Disk.apply, update_self, Option.some.injEq] at hedits
      subst hedits
      intro edit' hedit'
      rcases mem_append.mp hedit' with hedit' | hedit'
      · cases hcase : d.manifests n with
        | none => simp [hcase] at hedit'
        | some edits =>
          rw [hcase] at hedit'
          exact hold n edits hcase edit' hedit'
      · obtain rfl := mem_singleton.mp hedit'
        exact hnew edit' hop
    · exact hold n edits (by simpa [Disk.apply, update, hn] using hedits)
  | _ => exact hold

theorem Disk.AddedIn.apply_all (h : d.AddedIn created) (hops : AddsCreated created ops) :
    (d.apply_all ops).AddedIn (created ++ ops.filterMap FileOp.created) := by
  induction ops generalizing d created with
  | nil => simpa using h
  | cons op ops ih =>
    rw [filterMap_created_cons]
    exact ih (h.apply hops.1) hops.2

/-- The tables of a version replayed from a manifest are among those it lists. -/
theorem live_replayManifest {n m : Nat} {edits : List VersionEdit}
    (hm : m ∈ (replayManifest n edits).current.live) :
    ∃ edit ∈ edits, ∃ a ∈ edit.added_files, m = a.2.number := by
  induction edits using List.reverseRecOn with
  | nil => simp [replayManifest, Version.live] at hm
  | append_singleton edits edit ih =>
    rw [replayManifest_concat] at hm
    rcases live_recover_edit hm with hm | ⟨a, ha, rfl⟩
    · obtain ⟨edit', hedit', ha⟩ := ih hm
      exact ⟨edit', mem_append_left _ hedit', ha⟩
    · exact ⟨edit, by simp, a, ha, rfl⟩

theorem Disk.AddedIn.live (h : d.AddedIn created) {n m : Nat} {edits : List VersionEdit}
    (hedits : d.manifests n = some edits) (hm : m ∈ (replayManifest n edits).current.live) : m ∈ created := by
  obtain ⟨edit, hedit, a, ha, rfl⟩ := live_replayManifest hm
  exact h n edits hedits edit hedit a ha

end Added

/-- The tables that the background thread has created and not installed yet. -/
def BgState.prepared : BgState → List Nat
  | .flush_built f => [f.number]
  | .compact_built result => [result.output.number]
  | .flush_edit edit | .compact_edit _ edit => edit.added_files.map fun a => a.2.number
  | _ => []

def BgState.edit : BgState → Option VersionEdit
  | .flush_edit edit | .compact_edit _ edit => some edit
  | _ => none

namespace DBImpl

/-- All numbers of files created so far are below the counter, and every live or
    prepared table is among them. -/
structure CreatedBelow (db : DBImpl) (created : List Nat) : Prop where
  numbers : db.NumbersBelow
  counter : ∀ n ∈ created, n < db.versions.next_file_number
  live : db.versions.current.live ⊆ created
  prepared : db.bg.prepared ⊆ created
  edit : ∀ edit, db.bg.edit = some edit → edit.next_file_number = none

variable {db db' : DBImpl} {d : Disk} {created : List Nat}

/-- A step that installs nothing and creates at most one table under a reserved number. -/
theorem CreatedBelow.congr (h : db.CreatedBelow created) {new : List Nat} (hnumbers : db'.NumbersBelow)
    (hcurrent : db'.versions.current = db.versions.current)
    (hnext : db.versions.next_file_number ≤ db'.versions.next_file_number)
    (hnew : ∀ n ∈ new, n < db'.versions.next_file_number) (hprepared : db'.bg.prepared ⊆ created ++ new)
    (hedit : ∀ edit, db'.bg.edit = some edit → edit.next_file_number = none) :
    db'.CreatedBelow (created ++ new) := by
  refine ⟨hnumbers, ?_, ?_, hprepared, hedit⟩
  · intro n hn
    rcases mem_append.mp hn with hn | hn
    · exact (h.counter n hn).trans_le hnext
    · exact hnew n hn
  · rw [hcurrent]
    exact List.Subset.trans h.live (subset_append_left _ _)

/-- What an event leaves behind: the numbers stay in line, no manifest lists a table
    before it is created, and the recorded next number stays. -/
structure KeepsNumbers (db' : DBImpl) (created : List Nat) (ops : List FileOp) : Prop where
  below : db'.CreatedBelow (created ++ ops.filterMap FileOp.created)
  adds : AddsCreated created ops
  keeps : ∀ op ∈ ops, op.KeepsNext

section

variable (h : db.CreatedBelow created)

include h

theorem KeepsNumbers.nil (hnumbers : db'.NumbersBelow) (hcurrent : db'.versions.current = db.versions.current)
    (hnext : db.versions.next_file_number ≤ db'.versions.next_file_number)
    (hprepared : db'.bg.prepared ⊆ db.bg.prepared)
    (hedit : ∀ edit, db'.bg.edit = some edit → edit.next_file_number = none) :
    db'.KeepsNumbers created [] :=
  ⟨h.congr hnumbers hcurrent hnext (by simp)
      (List.Subset.trans (List.Subset.trans hprepared h.prepared) (subset_append_left _ _)) hedit,
    trivial, by simp⟩

/-- Building a table under a reserved number. -/
theorem KeepsNumbers.build (hnumbers : db'.NumbersBelow) (hversions : db'.versions = db.versions) {n : Nat}
    (hn : n < db.versions.next_file_number) (entries : List (InternalKey × Bytes)) (hprepared : db'.bg.prepared ⊆ [n])
    (hedit : db'.bg.edit = none) :
    db'.KeepsNumbers created [.create_table n, .finish_table n entries] := by
  refine ⟨?_, .of_added (by simp [FileOp.added]), by simp [FileOp.KeepsNext]⟩
  refine h.congr hnumbers (by rw [hversions]) (by rw [hversions]) ?_ ?_ ?_
  · simp [FileOp.created, hversions, hn]
  · exact List.Subset.trans hprepared (subset_append_right _ _)
  · rw [hedit]
    intro edit hsome
    cases hsome

/-- Installing a prepared edit. -/
theorem KeepsNumbers.install (hnumbers : db'.NumbersBelow) {edit : VersionEdit} (hbg : db.bg.edit = some edit)
    (hprepared : db.bg.prepared = edit.added_files.map fun a => a.2.number)
    (hversions : db'.versions = (db.versions.log_and_apply edit).1) (hidle : db'.bg.prepared = [])
    (hedit : db'.bg.edit = none) (inputs : List (Fin kNumLevels × Nat)) :
    db'.KeepsNumbers created ((db.versions.log_and_apply edit).2 ++
      inputs.map fun input => .remove_table input.2) := by
  have hadded : (edit.added_files.map fun a => a.2.number) ⊆ created := hprepared ▸ h.prepared
  have hcreated : ((db.versions.log_and_apply edit).2 ++
      inputs.map fun input => FileOp.remove_table input.2).filterMap FileOp.created = [] := by
    rw [filterMap_append, filterMap_map]
    simp [log_and_apply, FileOp.created, comp_def]
  refine ⟨?_, .of_added ?_, ?_⟩
  · rw [hcreated, append_nil]
    refine ⟨hnumbers, ?_, ?_, by simp [hidle], by simp [hedit]⟩
    · rw [hversions]
      exact fun n hn => (h.counter n hn).trans_le (next_file_number_le_log_and_apply _ _)
    · rw [hversions]
      intro n hn
      rcases live_log_and_apply hn with hn | ⟨a, ha, rfl⟩
      · exact h.live hn
      · exact hadded (mem_map_of_mem ha)
  · intro op hop
    rcases mem_append.mp hop with hop | hop
    · obtain rfl := mem_singleton.mp hop
      exact hadded
    · obtain ⟨input, -, rfl⟩ := mem_map.mp hop
      exact nil_subset _
  · intro op hop
    rcases mem_append.mp hop with hop | hop
    · obtain rfl := mem_singleton.mp hop
      exact h.edit edit hbg
    · obtain ⟨input, -, rfl⟩ := mem_map.mp hop
      trivial

theorem CreatedBelow.flush_step :
    db.flush_step.1.KeepsNumbers created db.flush_step.2 := by
  have hnumbers := h.numbers.flush_step
  have hreserved := h.numbers.reserved
  unfold DBImpl.flush_step at hnumbers ⊢
  cases hcase : db.bg <;> simp only [hcase] at hnumbers hreserved ⊢
  case flush_start =>
    cases himm : db.imm <;> simp only [himm] at hnumbers ⊢
    · exact .nil h hnumbers rfl le_rfl (by simp [BgState.prepared]) (by simp [BgState.edit])
    · exact .nil h hnumbers rfl (Nat.le_succ _) (by simp [BgState.prepared]) (by simp [BgState.edit])
  case flush_build imm n =>
    refine .build h hnumbers rfl (hreserved n (by simp [BgState.reserved])) _ ?_ ?_
    · dsimp only
      split
      · exact List.Subset.refl [n]
      · exact nil_subset _
    · dsimp only
      split <;> rfl
  case flush_built f =>
    refine .nil h hnumbers rfl le_rfl ?_ ?_
    · rw [hcase]
      exact List.Subset.refl [f.number]
    · intro edit hedit
      cases hedit
      rfl
  case flush_edit edit =>
    have hinstall := KeepsNumbers.install h hnumbers (by rw [hcase]; rfl) (by rw [hcase]; rfl) rfl rfl rfl []
    simpa using hinstall
  case flush_clear => exact .nil h hnumbers rfl le_rfl (by simp [BgState.prepared]) (by simp [BgState.edit])
  case flush_done => exact .nil h hnumbers rfl le_rfl (by simp [BgState.prepared]) (by simp [BgState.edit])
  all_goals exact .nil h hnumbers rfl le_rfl (List.Subset.refl _) h.edit

theorem CreatedBelow.compact_step :
    (db.compact_step d).1.KeepsNumbers created (db.compact_step d).2 := by
  have hnumbers := h.numbers.compact_step (d := d)
  have hreserved := h.numbers.reserved
  unfold DBImpl.compact_step at hnumbers ⊢
  cases hcase : db.bg <;> simp only [hcase] at hnumbers hreserved ⊢
  case compact_start =>
    by_cases htrigger : (db.versions.current.files0.length : Int) < db.options.level0_compaction_trigger
    · simp only [htrigger, if_true] at hnumbers ⊢
      exact .nil h hnumbers rfl le_rfl (by simp [BgState.prepared]) (by simp [BgState.edit])
    · simp only [htrigger, if_false] at hnumbers ⊢
      exact .nil h hnumbers rfl (Nat.le_succ _) (by simp [BgState.prepared]) (by simp [BgState.edit])
  case compact_merge current n =>
    cases hmerge : compact_level0 db.options d db.dbname current n <;> simp only [hmerge] at hnumbers ⊢
    case error status => exact .nil h hnumbers rfl le_rfl (by simp [BgState.prepared]) (by simp [BgState.edit])
    case ok outcome =>
      refine .build h hnumbers rfl (hreserved n (by simp [BgState.reserved])) _ ?_ rfl
      rw [← compact_level0_number hmerge]
      exact List.Subset.refl _
  case compact_built result =>
    refine .nil h hnumbers rfl le_rfl ?_ ?_
    · rw [hcase]
      dsimp only [BgState.prepared]
      split <;> simp
    · intro edit hedit
      cases hedit
      rfl
  case compact_edit result edit =>
    exact .install h hnumbers (by rw [hcase]; rfl) (by rw [hcase]; rfl) rfl rfl rfl _
  all_goals exact .nil h hnumbers rfl le_rfl (List.Subset.refl _) h.edit

theorem CreatedBelow.bg_step :
    (db.bg_step d).1.KeepsNumbers created (db.bg_step d).2 := by
  unfold DBImpl.bg_step
  cases hcase : db.bg <;> simp only
  case idle =>
    have hempty : ∀ db' : DBImpl, db'.versions = db.versions →
        (db'.bg = .idle ∨ db'.bg = .flush_start ∨ db'.bg = .compact_start) → db'.KeepsNumbers created [] := by
      intro db' hversions hbg
      refine .nil h ⟨?_, ?_⟩ (by rw [hversions]) (by rw [hversions]) ?_ ?_
      · rw [hversions]
        exact h.numbers.live
      all_goals rcases hbg with hbg | hbg | hbg <;> simp [hbg, BgState.reserved, BgState.prepared, BgState.edit]
    split
    · exact hempty _ rfl (.inl hcase)
    split
    · exact hempty _ rfl (.inr (.inl rfl))
    split
    · exact hempty _ rfl (.inr (.inr rfl))
    · exact hempty _ rfl (.inl rfl)
  case compact_start | compact_merge | compact_built | compact_edit => exact h.compact_step
  all_goals exact h.flush_step

end

@[simp] theorem filterMap_created_flush (w : WalWriter) : w.flush.filterMap FileOp.created = [] := by
  unfold WalWriter.flush
  split <;> simp [FileOp.created]

theorem added_flush (w : WalWriter) : ∀ op ∈ w.flush, op.added = [] ∧ op.KeepsNext := by
  unfold WalWriter.flush
  split <;> simp [FileOp.added, FileOp.KeepsNext]

theorem CreatedBelow.add_record (h : db.CreatedBelow created) (options : WriteOptions) (type : ValueType)
    (key value : Bytes) :
    (db.add_record options type key value).1.KeepsNumbers created (db.add_record options type key value).2 := by
  have hops : ∀ op ∈ (db.add_record options type key value).2,
      op.created = none ∧ op.added = [] ∧ op.KeepsNext := by
    unfold DBImpl.add_record WalWriter.flush
    cases options.sync <;> simp [FileOp.created, FileOp.added, FileOp.KeepsNext]
  refine ⟨?_, .of_added fun op hop => by rw [(hops op hop).2.1]; exact nil_subset _, fun op hop => (hops op hop).2.2⟩
  rw [filterMap_eq_nil_iff.mpr fun op hop => (hops op hop).1, append_nil]
  exact ⟨⟨h.numbers.live, h.numbers.reserved⟩, h.counter, h.live, h.prepared, h.edit⟩

theorem CreatedBelow.rotate (h : db.CreatedBelow created) :
    db.rotate.1.KeepsNumbers created db.rotate.2 := by
  have hops : db.rotate.2 = db.wal.flush ++ [.open_log db.versions.next_file_number,
      .append_manifest db.versions.manifest_file_number
        { log_number := some db.versions.next_file_number }] := by
    simp [DBImpl.rotate, log_and_apply, take_file_number]
  have hnext : db.rotate.1.versions.next_file_number = db.versions.next_file_number + 1 := by
    simp [DBImpl.rotate, log_and_apply, take_file_number]
  have hall : ∀ op ∈ db.rotate.2, op.added = [] ∧ op.KeepsNext := by
    rw [hops]
    intro op hop
    rcases mem_append.mp hop with hop | hop
    · exact added_flush _ op hop
    · simp only [mem_cons, not_mem_nil, or_false] at hop
      rcases hop with rfl | rfl <;> exact ⟨rfl, by simp [FileOp.KeepsNext]⟩
  refine ⟨?_, .of_added fun op hop => by rw [(hall op hop).1]; exact nil_subset _, fun op hop => (hall op hop).2⟩
  have hcreated : db.rotate.2.filterMap FileOp.created = [db.versions.next_file_number] := by
    rw [hops, filterMap_append, filterMap_created_flush]
    simp [FileOp.created]
  rw [hcreated]
  refine h.congr (h.numbers.mono rfl (List.Subset.refl _) (by omega)) rfl (by omega) (by simp [hnext]) ?_ h.edit
  exact List.Subset.trans h.prepared (subset_append_left _ _)

theorem AddsCreated.append {ops ops' : List FileOp} (h : AddsCreated created ops)
    (h' : AddsCreated (created ++ ops.filterMap FileOp.created) ops') : AddsCreated created (ops ++ ops') := by
  induction ops generalizing created with
  | nil => simpa using h'
  | cons op ops ih =>
    rw [filterMap_created_cons] at h'
    exact ⟨h.1, ih h.2 h'⟩

theorem KeepsNumbers.append {ops ops' : List FileOp} (h : db.KeepsNumbers created ops)
    (h' : db'.KeepsNumbers (created ++ ops.filterMap FileOp.created) ops') :
    db'.KeepsNumbers created (ops ++ ops') := by
  refine ⟨?_, AddsCreated.append h.adds h'.adds, ?_⟩
  · rw [filterMap_append, ← append_assoc]
    exact h'.below
  · intro op hop
    exact (mem_append.mp hop).elim (h.keeps op) (h'.keeps op)

theorem CreatedBelow.write (h : db.CreatedBelow created) {options : WriteOptions} {type : ValueType}
    {key value : Bytes} {result : Except Status Unit} {ops : List FileOp}
    (hwrite : db.write options type key value = some ((db', result), ops)) : db'.KeepsNumbers created ops := by
  cases herror : db.bg_error with
  | some status =>
    simp only [DBImpl.write, herror, Option.some.injEq, Prod.mk.injEq] at hwrite
    obtain ⟨⟨rfl, -⟩, rfl⟩ := hwrite
    exact .nil h h.numbers rfl le_rfl (List.Subset.refl _) h.edit
  | none =>
    obtain ⟨-, ⟨-, rfl, rfl⟩ | ⟨-, -, rfl, rfl⟩⟩ := write_cases hwrite herror
    · exact h.add_record options type key value
    · exact h.rotate.append (h.rotate.below.add_record options type key value)

/-- Every step of a flush, up to its end. -/
theorem CreatedBelow.run_flush (h : db.CreatedBelow created) (fuel : Nat) :
    (DBImpl.run_flush fuel db).1.KeepsNumbers created (DBImpl.run_flush fuel db).2 := by
  induction fuel generalizing db created with
  | zero => exact .nil h h.numbers rfl le_rfl (List.Subset.refl _) h.edit
  | succ fuel ih => exact h.flush_step.append (ih h.flush_step.below)

theorem CreatedBelow.close (h : db.CreatedBelow created) :
    AddsCreated created db.close ∧ ∀ op ∈ db.close, op.KeepsNext := by
  have hflush : ∀ (w : WalWriter) (created : List Nat), AddsCreated created w.flush := fun w created =>
    .of_added fun op hop => by rw [(added_flush w op hop).1]; exact nil_subset _
  unfold DBImpl.close
  split
  · have hstart : DBImpl.CreatedBelow { db with bg := .flush_start } created := by
      refine ⟨⟨h.numbers.live, by simp [BgState.reserved]⟩, h.counter, h.live, by simp [BgState.prepared], ?_⟩
      simp [BgState.edit]
    have hrun := hstart.run_flush 5
    refine ⟨AddsCreated.append hrun.adds (hflush _ _), fun op hop => ?_⟩
    exact (mem_append.mp hop).elim (hrun.keeps op) fun hop => (added_flush _ op hop).2
  · exact ⟨hflush _ _, fun op hop => (added_flush _ op hop).2⟩

/-- Everything an `Open` can do: fail early, fail on the old log once the new one is
    there, succeed on an existing directory, or create a new one. -/
theorem open_db_cases (options : Options) (dbname : String) (d : Disk) :
    ((open_db options dbname d).1 = [] ∧ (open_db options dbname d).2.toOption = none) ∨
      (∃ n edits, d.current = some n ∧ d.manifests n = some edits ∧
        ((open_db options dbname d).1 = [.open_log (replayManifest n edits).next_file_number] ∧
            (open_db options dbname d).2.toOption = none ∨
          ∃ replayed, open_db options dbname d =
            ([.open_log (replayManifest n edits).next_file_number,
                .append_manifest n (Recoverable.openEdit (replayManifest n edits))],
              .ok (Recoverable.openedDb options dbname n edits replayed)))) ∨
      (d.current = none ∧ open_db options dbname d =
        ([.write_manifest 1 { next_file_number := some 2, last_sequence := some 0, log_number := some 0 },
            .write_current 1, .open_log 2,
            .append_manifest 1 { log_number := some 2, next_file_number := some 3 }],
          .ok (Session.freshSession options dbname).db)) := by
  unfold open_db
  cases hcurrent : d.current with
  | none =>
    cases hcreate : options.create_if_missing with
    | false => simp [Except.toOption]
    | true => exact .inr (.inr ⟨rfl, rfl⟩)
  | some n =>
    cases hexists : options.error_if_exists with
    | true => simp [Except.toOption]
    | false =>
      cases hmanifest : d.manifests n with
      | none => simp [VersionSet.recover, hcurrent, hmanifest, Except.toOption]
      | some edits =>
        refine .inr (.inl ⟨n, edits, rfl, hmanifest, ?_⟩)
        have hrecover : VersionSet.recover d dbname =
            .ok { replayManifest n edits with current := (replayManifest n edits).current.sort_level1 } := by
          rw [VersionSet.recover, hcurrent]
          simp only [hmanifest]
          rfl
        simp only [Option.isSome_some, Bool.and_false, Bool.false_eq_true, if_false, Bool.not_true,
          Bool.false_and, if_true, hrecover, nil_append, take_file_number, Bool.true_and]
        split
        · exact .inl ⟨rfl, rfl⟩
        · next mem last hreplayed =>
          refine .inr ⟨(mem, last), ?_⟩
          simp [log_and_apply, Recoverable.openedDb, Recoverable.openEdit]

end DBImpl

end lsmkv
