import LsmKv.Db.IteratorScan
import LsmKv.Db.Reading

namespace lsmkv

open List Option DBImpl

/-- A number that was handed out and under which no table will be written any more. -/
def DBImpl.Past (db : DBImpl) (n : Nat) : Prop := n < db.versions.next_file_number ∧ n ∉ db.bg.reserved

namespace DBImpl

variable {db db' : DBImpl} {d : Disk} {l : Layout} {n : Nat}

/-- The background thread reserves a number by drawing the next one. -/
theorem bg_step_reserved :
    ∀ m ∈ (db.bg_step d).1.bg.reserved, m ∈ db.bg.reserved ∨ m = db.versions.next_file_number := by
  unfold bg_step flush_step compact_step
  cases hcase : db.bg <;> dsimp only
  case idle => split <;> [skip; split <;> [skip; split]] <;> simp [BgState.reserved, hcase]
  case flush_start => cases db.imm <;> simp [BgState.reserved]
  case flush_build imm m => split <;> simp [BgState.reserved, SSTableBuilder.build]
  case flush_built f => simp [BgState.reserved]
  case compact_start => split <;> simp [BgState.reserved]
  case compact_merge current m =>
    cases hmerge : compact_level0 db.options d db.dbname current m with
    | error status => simp [BgState.reserved]
    | ok outcome =>
      have hnumber : outcome.1.output.number = m := compact_level0_number hmerge
      simp [BgState.reserved, hnumber]
  case compact_built result =>
    dsimp only [BgState.reserved]
    split <;> simp
  all_goals simp [BgState.reserved]

/-- The background thread writes tables only under reserved numbers. -/
theorem bg_step_tables : ∀ op ∈ (db.bg_step d).2, ∀ m, op.tableNumber = some m →
    op = .remove_table m ∨ m ∈ db.bg.reserved := by
  unfold bg_step flush_step compact_step
  cases hcase : db.bg <;> dsimp only
  case idle => split <;> [skip; split <;> [skip; split]] <;> simp
  case flush_start => cases db.imm <;> simp
  case flush_build imm m => simp [BgState.reserved, FileOp.tableNumber]
  case flush_edit edit => simp [VersionSet.log_and_apply, FileOp.tableNumber]
  case compact_start => split <;> simp
  case compact_merge current m =>
    cases compact_level0 db.options d db.dbname current m <;> simp [BgState.reserved, FileOp.tableNumber]
  case compact_edit result edit =>
    intro op hop m hm
    rcases mem_append.mp hop with hop | hop
    · obtain rfl := mem_singleton.mp hop
      cases hm
    · obtain ⟨input, -, rfl⟩ := List.mem_map.mp hop
      exact .inl (congrArg FileOp.remove_table (Option.some.inj hm))
  all_goals simp

end DBImpl

/-- Up to a sequence number, a memtable has the entries of an earlier one. -/
structure SameUpTo (bound : Nat) (mem mem₀ : MemTable) : Prop where
  same : ∀ e : InternalKey × Bytes, InternalKey.sequence e.1 ≤ bound → (e ∈ mem.table ↔ e ∈ mem₀.table)
  stamped : ∀ e ∈ mem.table, Stamped e

variable {snapshot bound : Nat} {mem₀ : MemTable} {s : Session} {label : Label} {files : List FileMetaData}

/-- A probe depends only on what the snapshot sees. -/
theorem probe_congr {k : Bytes} {a b : List (InternalKey × Bytes)} (ha : versioned.Ordered a)
    (hb : versioned.Ordered b) (hstamped : ∀ e ∈ a, Stamped e) (hstamped' : ∀ e ∈ b, Stamped e)
    (hsnap : snapshot < 2 ^ 56)
    (hsame : ∀ e : InternalKey × Bytes, InternalKey.sequence e.1 ≤ snapshot → (e ∈ a ↔ e ∈ b)) :
    probe k snapshot a = probe k snapshot b := by
  have hfun : Functional b := fun x hx y hy => hb.eq_of_key_eq hx hy
  rcases @probe_spec k snapshot a ha hstamped hsnap with ⟨e, he, hprobe⟩ | ⟨hhidden, hprobe⟩ <;>
    rcases @probe_spec k snapshot b hb hstamped' hsnap with ⟨e', he', hprobe'⟩ | ⟨hhidden', hprobe'⟩
  · have he : NewestVisible b snapshot k e := he.congr fun x _ hle => (hsame x hle).symm
    rw [hprobe, hprobe', he.unique hfun he']
  · exact absurd he.sequence_le (not_le.mpr (hhidden' e ((hsame e he.sequence_le).mp he.mem) he.key_eq))
  · exact absurd he'.sequence_le (not_le.mpr (hhidden e' ((hsame e' he'.sequence_le).mpr he'.mem) he'.key_eq))
  · rw [hprobe, hprobe']

theorem SameUpTo.get_eq {mem : MemTable} (h : SameUpTo bound mem mem₀)
    (hstamped : ∀ e ∈ mem₀.table, Stamped e) (hle : snapshot ≤ bound) (hsnap : snapshot < 2 ^ 56) (k : Bytes) :
    mem.get k snapshot = mem₀.get k snapshot :=
  probe_congr mem.ordered mem₀.ordered h.stamped hstamped hsnap fun e he => h.same e (he.trans hle)

/-- A later write is beyond the bound. -/
theorem SameUpTo.add {seq : Nat} {mem : MemTable} (h : SameUpTo bound mem mem₀)
    (hlt : bound < seq) (hseq : seq < 2 ^ 56) (type : ValueType) (key value : Bytes) :
    SameUpTo bound (mem.add seq type key value) mem₀ := by
  have hmem : ∀ e, e ∈ (mem.add seq type key value).table ↔
      e = (InternalKey.make key seq type, value) ∨ e ∈ mem.table ∧ e.1 ≠ InternalKey.make key seq type :=
    versioned.mem_insert mem.ordered _ _
  have hnew : InternalKey.sequence (InternalKey.make key seq type) = seq := sequence_from_pack_pack hseq type
  refine ⟨fun e hle => ?_, fun e he => ?_⟩
  · have hne : e.1 ≠ InternalKey.make key seq type := by
      intro heq
      rw [heq, hnew] at hle
      omega
    rw [← h.same e hle, hmem]
    constructor
    · rintro (rfl | ⟨he, -⟩)
      · exact absurd rfl hne
      · exact he
    · exact fun he => .inr ⟨he, hne⟩
  · rcases (hmem e).mp he with rfl | ⟨he, -⟩
    · exact ⟨seq, type, hseq, rfl⟩
    · exact h.stamped e he

theorem Disk.apply_tables_of_ne (d : Disk) {op : FileOp} {n : Nat} (hop : op.tableNumber ≠ some n) :
    (d.apply op).tables n = d.tables n := by
  cases op with
  | create_table m | finish_table m | remove_table m =>
    have hne : n ≠ m := fun heq => hop (by rw [heq]; rfl)
    simp [Disk.apply, Function.update, hne]
  | _ => rfl

@[simp] theorem Disk.apply_remove_table (d : Disk) (n : Nat) : (d.apply (.remove_table n)).tables n = none := by
  simp [Disk.apply]

theorem Session.stepOps_tables {ops : List FileOp} (hok : s.db.bg_error = none) (hops : s.stepOps label = some ops) :
    ∀ op ∈ ops, ∀ n, op.tableNumber = some n → op = .remove_table n ∨ n ∈ s.db.bg.reserved := by
  have hflush : ∀ (w : WalWriter), ∀ op ∈ w.flush, op.tableNumber = none := by
    intro w op hop
    unfold WalWriter.flush at hop
    split at hop
    · cases hop
    · rw [mem_singleton.mp hop]
      rfl
  have hadd : ∀ (db : DBImpl) (options : WriteOptions) (type : ValueType) (key value : Bytes),
      ∀ op ∈ (db.add_record options type key value).2, op.tableNumber = none := by
    intro db options type key value op hop
    unfold add_record at hop
    split at hop
    · exact hflush _ op hop
    · cases hop
  have hwrite : ∀ (options : WriteOptions) (type : ValueType) (key value : Bytes)
      (outcome : (DBImpl × Except Status Unit) × List FileOp), s.db.write options type key value = some outcome →
        ∀ op ∈ outcome.2, op.tableNumber = none := by
    rintro options type key value ⟨⟨db', result⟩, ops⟩ hwrite op hop
    obtain ⟨-, ⟨-, -, rfl⟩ | ⟨-, -, -, rfl⟩⟩ := write_cases hwrite hok
    · exact hadd _ _ _ _ _ op hop
    · rcases mem_append.mp hop with hop | hop
      · rcases mem_append.mp hop with hop | hop
        · rcases mem_append.mp hop with hop | hop
          · exact hflush _ op hop
          · rw [mem_singleton.mp hop]
            rfl
        · rw [mem_singleton.mp hop]
          rfl
      · exact hadd _ _ _ _ _ op hop
  intro op hop n hn
  cases label with
  | bg =>
    cases hops
    exact bg_step_tables op hop n hn
  | put options key value | delete options key =>
    obtain ⟨outcome, hout, rfl⟩ := map_eq_some_iff.mp hops
    rw [hwrite _ _ _ _ outcome hout op hop] at hn
    cases hn

theorem Version.probes_skip {d : Disk} {key : Bytes} {f : FileMetaData}
    (hrange : key < extract_user_key f.smallest ∨ extract_user_key f.largest < key) :
    Version.probes d key snapshot (f :: files) = Version.probes d key snapshot files := by
  rw [Version.probes]
  by_cases hlow : key < extract_user_key f.smallest
  · rw [if_pos hlow]
  · rw [if_neg hlow, if_pos (hrange.resolve_left hlow)]

theorem Version.probes_cons {d : Disk} {key : Bytes} {f : FileMetaData}
    (hrange : ¬ (key < extract_user_key f.smallest ∨ extract_user_key f.largest < key)) :
    Version.probes d key snapshot (f :: files) = f.number ::
      if (SSTable.get (d.entries f) (make_lookup_key key snapshot)).isSome then []
      else Version.probes d key snapshot files := by
  obtain ⟨hlow, hhigh⟩ := not_or.mp hrange
  rw [Version.probes, if_neg hlow, if_neg hhigh]
  cases SSTable.get (d.entries f) (make_lookup_key key snapshot) <;> rfl

/-- What a step of the session leaves for a read beside it: no past number comes back, and the
    memtable that the read holds keeps its entries. -/
theorem Session.step_past {s' : Session} (hok : s.db.bg_error = none)
    (hstep : s.step label = some s') {n : Nat} (hpast : s.db.Past n) : s'.db.Past n := by
  by_cases hlabel : label = .bg
  · subst hlabel
    cases hstep
    refine ⟨hpast.1.trans_le bg_step_frame.2.2.2.2, fun hn => ?_⟩
    rcases bg_step_reserved n hn with hn | rfl
    · exact hpast.2 hn
    · exact lt_irrefl _ hpast.1
  · obtain ⟨options, w, ⟨⟨db', result⟩, ops⟩, hwrite, rfl, -⟩ := step_write_cases hlabel hstep
    obtain ⟨-, ⟨-, rfl, -⟩ | ⟨-, -, rfl, -⟩⟩ := write_cases hwrite hok
    · exact hpast
    · refine ⟨hpast.1.trans_le ((Nat.le_succ _).trans (le_max_left _ _)), hpast.2⟩

theorem Session.step_held {s' : Session} (hok : s.db.bg_error = none)
    (hstep : s.step label = some s') (hlast : s'.db.versions.last_sequence < 2 ^ 56)
    (hbound : bound ≤ s.db.versions.last_sequence) (hsame : SameUpTo bound s.db.mem mem₀) :
    s.db.rotates label = true ∨ SameUpTo bound s'.db.mem mem₀ := by
  by_cases hlabel : label = .bg
  · subst hlabel
    rw [step_bg, Option.some.injEq] at hstep
    subst hstep
    have hmem : (s.db.bg_step s.disk).1.mem = s.db.mem := bg_step_memtables.1
    exact .inr (hmem.symm ▸ hsame)
  · have hrotates : s.db.rotates label = !decide (s.db.mem.memory_usage < s.db.options.write_buffer_size) := by
      cases label <;> simp_all [DBImpl.rotates]
    obtain ⟨options, w, ⟨⟨db', result⟩, ops⟩, hwrite, rfl, -⟩ := step_write_cases hlabel hstep
    obtain ⟨-, ⟨hroom, rfl, -⟩ | ⟨hfull, -, -, -⟩⟩ := write_cases hwrite hok
    · exact .inr (hsame.add (Nat.lt_succ_of_le hbound) hlast w.type w.key w.value)
    · refine .inl ?_
      rw [hrotates]
      simpa using hfull

namespace Reader

variable {s₀ : Session} {call : ReadCall} {read_snapshot : Nat} {db : DBImpl} {reader : Reader}

/-- What a read holds of the state at its snapshot step. -/
def Stands (s₀ : Session) (call : ReadCall) (read_snapshot : Nat) (db : DBImpl) : Reader → Prop
  | .pinned call' mem imm version snapshot => call' = call ∧ imm = s₀.db.imm ∧ version = s₀.db.versions.current ∧
      snapshot = s₀.db.read_sequence read_snapshot ∧
      SameUpTo s₀.db.versions.last_sequence (mem.table db) s₀.db.mem
  | .probing key snapshot files => call = .get key ∧ snapshot = s₀.db.read_sequence read_snapshot ∧
      ∀ f ∈ files, f ∈ s₀.db.versions.current.files0 ++ s₀.db.versions.current.files1
  | .opening _ files => call = .new_iterator ∧
      ∀ f ∈ files, f ∈ s₀.db.versions.current.files0 ++ s₀.db.versions.current.files1
  | .got _ => ∃ key, call = .get key
  | .opened _ => call = .new_iterator

/-- An iterator with all tables but the given ones among its children. -/
def Built (s₀ : Session) (read_snapshot : Nat) (it : DBIterator) (files : List FileMetaData) : Prop :=
  ∃ mem done, SameUpTo s₀.db.versions.last_sequence mem s₀.db.mem ∧
    DBIterator.files s₀.db.versions.current = done ++ files ∧
    it = .ofRuns ([mem.table] ++ s₀.db.imm.toList.map MemTable.table ++ done.map s₀.disk.entries)
      (s₀.db.read_sequence read_snapshot)

/-- The outcome so far agrees with the state at the snapshot step. -/
def OnTrack (s₀ : Session) (call : ReadCall) (read_snapshot : Nat) : Reader → Prop
  | .pinned .. => True
  | .probing key snapshot files => s₀.db.get s₀.disk key read_snapshot =
      readStatus (((files.map s₀.disk.entries).findSome? (probe key snapshot)).bind id)
  | .got result => ∀ key, call = .get key → result = s₀.db.get s₀.disk key read_snapshot
  | .opening it files => Built s₀ read_snapshot it files
  | .opened it => Built s₀ read_snapshot it []

/-- The read has met a missing table. -/
def Failed : Reader → Prop
  | .got result => ∃ status, result = .error status ∧ status.code = .kIOError
  | .opening it _ | .opened it => it.status.isSome = true
  | _ => False

theorem needs_follow (label : Label) : (reader.follow db label).needs s₀ = reader.needs s₀ := by
  unfold follow
  split
  · split
    · rename_i call _ _ _ _
      cases call <;> rfl
    · rfl
  · rfl

theorem Failed.follow (h : reader.Failed) (label : Label) : (reader.follow db label).Failed := by
  unfold Reader.follow
  split
  · exact absurd h id
  · exact h

theorem OnTrack.follow (h : OnTrack s₀ call read_snapshot reader) (label : Label) :
    OnTrack s₀ call read_snapshot (reader.follow db label) := by
  unfold Reader.follow
  split
  · split <;> exact trivial
  · exact h

section Step

variable {s : Session} {key : Bytes} {snapshot : Nat} {f : FileMetaData} {files : List FileMetaData}

/-- The memtables answer, or the read goes on to the tables. -/
theorem step_pinned_get {mem : HeldMem} {imm : Option MemTable} {version : Version} :
    (∃ found, ((mem.table s.db).get key snapshot).or (imm.bind fun imm => imm.get key snapshot) = some found ∧
      step s (.pinned (.get key) mem imm version snapshot) = .got (readStatus found)) ∨
    (((mem.table s.db).get key snapshot).or (imm.bind fun imm => imm.get key snapshot) = none ∧
      step s (.pinned (.get key) mem imm version snapshot) =
        .probing key snapshot (version.files0.reverse ++ version.files1.reverse)) := by
  rw [step]
  cases ((mem.table s.db).get key snapshot).or (imm.bind fun imm => imm.get key snapshot) with
  | none => exact .inr ⟨rfl, rfl⟩
  | some found => cases found <;> exact .inl ⟨_, rfl, rfl⟩

/-- A file is passed over, does not open, answers, or has no answer. -/
theorem step_probing :
    ((key < extract_user_key f.smallest ∨ extract_user_key f.largest < key) ∧
      step s (.probing key snapshot (f :: files)) = .probing key snapshot files) ∨
    (¬ (key < extract_user_key f.smallest ∨ extract_user_key f.largest < key) ∧
      ((∃ status, SSTable.open_file s.disk s.db.dbname f.number = .error status ∧
          step s (.probing key snapshot (f :: files)) = .got (.error status)) ∨
        ∃ table, SSTable.open_file s.disk s.db.dbname f.number = .ok table ∧
          ((∃ found, SSTable.get table (make_lookup_key key snapshot) = some found ∧
              step s (.probing key snapshot (f :: files)) = .got (readStatus found)) ∨
            (SSTable.get table (make_lookup_key key snapshot) = none ∧
              step s (.probing key snapshot (f :: files)) = .probing key snapshot files)))) := by
  rw [step]
  by_cases hlow : key < extract_user_key f.smallest
  · exact .inl ⟨.inl hlow, if_pos hlow⟩
  by_cases hhigh : extract_user_key f.largest < key
  · exact .inl ⟨.inr hhigh, by rw [if_neg hlow, if_pos hhigh]⟩
  refine .inr ⟨not_or.mpr ⟨hlow, hhigh⟩, ?_⟩
  rw [if_neg hlow, if_neg hhigh]
  cases SSTable.open_file s.disk s.db.dbname f.number with
  | error status => exact .inl ⟨status, rfl, rfl⟩
  | ok table =>
    refine .inr ⟨table, rfl, ?_⟩
    dsimp only
    cases SSTable.get table (make_lookup_key key snapshot) with
    | none => exact .inr ⟨rfl, rfl⟩
    | some found => cases found <;> exact .inl ⟨_, rfl, rfl⟩

/-- A file becomes a child, or does not open. -/
theorem step_opening {it : DBIterator} :
    (∃ table, SSTable.open_file s.disk s.db.dbname f.number = .ok table ∧
      step s (.opening it (f :: files)) = .opening { it with children := it.children ++ [table] } files) ∨
    ∃ status, SSTable.open_file s.disk s.db.dbname f.number = .error status ∧
      step s (.opening it (f :: files)) = .opening { it with status := it.status.or (some status) } files := by
  rw [step]
  cases SSTable.open_file s.disk s.db.dbname f.number with
  | error status => exact .inr ⟨status, rfl, rfl⟩
  | ok table => exact .inl ⟨table, rfl, rfl⟩

end Step

end Reader

namespace Reading

open Reader

variable {s₀ : Session} {call : ReadCall} {read_snapshot : Nat} {r r' : Reading} {event : Event}

/-- The session once the operations under way are done. -/
def settled (r : Reading) : Session := { r.session with disk := r.session.disk.apply_all r.pending }

/-- The session has gone on from a read's snapshot step: the tables of the read's version are as they
    were or gone, and no operation under way writes one of them. -/
structure Tracks (s₀ : Session) (call : ReadCall) (read_snapshot : Nat) (r : Reading) : Prop where
  holds : ∃ l, r.settled.Holds l
  numbers : r.session.db.NumbersBelow
  last_le : s₀.db.versions.last_sequence ≤ r.session.db.versions.last_sequence
  past : ∀ n ∈ s₀.db.versions.current.live, r.session.db.Past n
  pending : ∀ op ∈ r.pending, ∀ n ∈ s₀.db.versions.current.live, op.tableNumber = some n → op = .remove_table n
  tables : ∀ n ∈ s₀.db.versions.current.live,
    r.session.disk.tables n = s₀.disk.tables n ∨ r.session.disk.tables n = none
  stands : r.reader.Stands s₀ call read_snapshot r.session.db

/-- A call of the session: its operations are all under way. -/
theorem step_call {label : Label} (hstep : r.step (.call label) = some r') :
    r.pending = [] ∧ ∃ s, r.session.step label = some s ∧ r'.settled = s ∧ r'.session.db = s.db ∧
      r'.session.disk = r.session.disk ∧ r.session.stepOps label = some r'.pending ∧
      r'.reader = r.reader.follow r.session.db label := by
  unfold step at hstep
  cases hpending : r.pending with
  | cons op pending => rw [hpending] at hstep; cases hstep
  | nil =>
    rw [hpending] at hstep
    obtain ⟨s, hs, hstep⟩ := bind_eq_some_iff.mp hstep
    obtain ⟨ops, hops, hstep⟩ := bind_eq_some_iff.mp hstep
    cases hstep
    obtain ⟨ops', hops', hdisk⟩ := Session.stepOps_of_step hs
    obtain rfl := Option.some.inj (hops.symm.trans hops')
    refine ⟨rfl, s, hs, ?_, rfl, rfl, hops, rfl⟩
    rw [settled, ← hdisk]

theorem settled_eq (hpending : r.pending = []) : r.settled = r.session := by
  rw [settled, hpending]
  rfl

theorem step_file_op (hstep : r.step .file_op = some r') : ∃ op, r.pending = op :: r'.pending ∧
    r'.session = { r.session with disk := r.session.disk.apply op } ∧ r'.reader = r.reader := by
  unfold step at hstep
  cases hpending : r.pending with
  | nil => rw [hpending] at hstep; cases hstep
  | cons op pending =>
    rw [hpending] at hstep
    cases hstep
    exact ⟨op, rfl, rfl, rfl⟩

theorem Tracks.of_call (h : Tracks s₀ call read_snapshot r) {label : Label} (hstep : r.step (.call label) = some r')
    (hlast : r'.session.db.versions.last_sequence < 2 ^ 56) : Tracks s₀ call read_snapshot r' := by
  obtain ⟨hpending, s, hs, hsettled, hdb, hdisk, hops, hreader⟩ := step_call hstep
  obtain ⟨l, hholds⟩ := h.holds
  rw [settled_eq hpending] at hholds
  have hok := hholds.1.no_error
  rw [hdb] at hlast
  refine ⟨?_, ?_, ?_, ?_, ?_, ?_, ?_⟩
  · rw [hsettled]
    exact hholds.step h.numbers hs hlast
  · rw [hdb]
    exact Session.numbersBelow_step h.numbers hok hs
  · rw [hdb]
    exact h.last_le.trans (Session.last_sequence_le_step hs)
  · rw [hdb]
    exact fun n hn => Session.step_past hok hs (h.past n hn)
  · intro op hop n hn hnumber
    exact (Session.stepOps_tables hok hops op hop n hnumber).resolve_right (h.past n hn).2
  · rw [hdisk]
    exact h.tables
  · rw [hdb, hreader]
    have hstands := h.stands
    cases hcase : r.reader with
    | pinned call' mem imm version snapshot =>
      rw [hcase] at hstands
      obtain ⟨hcall, himm, hversion, hsnapshot, hsame⟩ := hstands
      cases mem with
      | rotated mem => exact ⟨hcall, himm, hversion, hsnapshot, hsame⟩
      | current =>
        dsimp only [follow]
        by_cases hrotates : r.session.db.rotates label = true
        · rw [if_pos hrotates]
          exact ⟨hcall, himm, hversion, hsnapshot, hsame⟩
        · rw [if_neg hrotates]
          have hheld := (Session.step_held hok hs hlast h.last_le hsame).resolve_left hrotates
          exact ⟨hcall, himm, hversion, hsnapshot, hheld⟩
    | probing | opening | got | opened =>
      rw [hcase] at hstands
      exact hstands

theorem Tracks.of_file_op (h : Tracks s₀ call read_snapshot r) (hstep : r.step .file_op = some r') :
    Tracks s₀ call read_snapshot r' := by
  obtain ⟨op, hpending, hsession, hreader⟩ := step_file_op hstep
  have hsettled : r'.settled = r.settled := by
    rw [settled, settled, hsession, hpending]
    rfl
  have hop : op ∈ r.pending := by simp [hpending]
  refine ⟨hsettled ▸ h.holds, ?_, ?_, ?_, ?_, ?_, ?_⟩
  · rw [hsession]
    exact h.numbers
  · rw [hsession]
    exact h.last_le
  · rw [hsession]
    exact h.past
  · exact fun op' hop' => h.pending op' (by simp [hpending, hop'])
  · intro n hn
    rw [hsession]
    by_cases hnumber : op.tableNumber = some n
    · rw [h.pending op hop n hn hnumber]
      exact .inr (r.session.disk.apply_remove_table n)
    · rw [r.session.disk.apply_tables_of_ne hnumber]
      exact h.tables n hn
  · rw [hsession, hreader]
    exact h.stands

theorem mem_live_of_listed {v : Version} {f : FileMetaData} (hf : f ∈ v.files0 ++ v.files1) : f.number ∈ v.live :=
  List.mem_map_of_mem hf

theorem Tracks.of_read (h : Tracks s₀ call read_snapshot r) (hstep : r.step .read = some r') :
    Tracks s₀ call read_snapshot r' := by
  cases hstep
  refine ⟨h.holds, h.numbers, h.last_le, h.past, h.pending, h.tables, ?_⟩
  have hstands := h.stands
  dsimp only
  cases hcase : r.reader with
  | pinned call' mem imm version snapshot =>
    rw [hcase] at hstands
    obtain ⟨rfl, himm, rfl, rfl, hsame⟩ := hstands
    cases call' with
    | new_iterator => exact ⟨rfl, fun f hf => by simpa [DBIterator.files] using hf⟩
    | get key =>
      rcases @step_pinned_get r.session key (s₀.db.read_sequence read_snapshot) mem imm s₀.db.versions.current with
        ⟨found, -, hstep⟩ | ⟨-, hstep⟩ <;> rw [hstep]
      · exact ⟨key, rfl⟩
      · exact ⟨rfl, rfl, fun f hf => by simpa using hf⟩
  | probing key snapshot files =>
    rw [hcase] at hstands
    obtain ⟨rfl, rfl, hfiles⟩ := hstands
    cases files with
    | nil => exact ⟨key, rfl⟩
    | cons f files =>
      have hrest : Stands s₀ (.get key) read_snapshot r.session.db
          (.probing key (s₀.db.read_sequence read_snapshot) files) :=
        ⟨rfl, rfl, fun g hg => hfiles g (mem_cons_of_mem _ hg)⟩
      rcases @step_probing r.session key (s₀.db.read_sequence read_snapshot) f files with
        ⟨-, hstep⟩ | ⟨-, ⟨status, -, hstep⟩ | ⟨table, -, ⟨found, -, hstep⟩ | ⟨-, hstep⟩⟩⟩ <;> rw [hstep]
      · exact hrest
      · exact ⟨key, rfl⟩
      · exact ⟨key, rfl⟩
      · exact hrest
  | opening it files =>
    rw [hcase] at hstands
    obtain ⟨rfl, hfiles⟩ := hstands
    cases files with
    | nil => exact rfl
    | cons f files =>
      rcases @step_opening r.session f files it with ⟨table, -, hstep⟩ | ⟨status, -, hstep⟩ <;> rw [hstep]
      · exact ⟨rfl, fun g hg => hfiles g (mem_cons_of_mem _ hg)⟩
      · exact ⟨rfl, fun g hg => hfiles g (mem_cons_of_mem _ hg)⟩
  | got | opened =>
    rw [hcase] at hstands
    exact hstands

theorem Tracks.step (h : Tracks s₀ call read_snapshot r) (hstep : r.step event = some r')
    (hlast : r'.session.db.versions.last_sequence < 2 ^ 56) : Tracks s₀ call read_snapshot r' := by
  cases event with
  | call label => exact h.of_call hstep hlast
  | file_op => exact h.of_file_op hstep
  | read => exact h.of_read hstep

end Reading

end lsmkv
