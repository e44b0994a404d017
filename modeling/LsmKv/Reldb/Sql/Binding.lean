import LsmKv.Reldb.Sql.BindContext

namespace reldb

open lsmkv (Status)
open List Option

/-- The arguments of an `AddTable` call. -/
structure AddCall where
  table_name : String
  as_name : String
  schema : TableSchema
deriving DecidableEq

namespace AddCall

/-- A call gives its table this name. An empty alias is none. -/
def Named (call : AddCall) (name : String) : Prop := name ≠ "" ∧ (call.table_name = name ∨ call.as_name = name)

def width (call : AddCall) : Nat := call.schema.columns.length

/-- The references to the columns of the table have one dot each. -/
def Plain (call : AddCall) : Prop :=
  ∀ c ∈ call.schema.columns, '.' ∉ call.table_name.toList ∧ '.' ∉ call.as_name.toList ∧ c.name ≠ "" ∧ '.' ∉ c.name.toList

end AddCall

/-- The number of columns of some tables. -/
def widths (calls : List AddCall) : Nat := (calls.map AddCall.width).sum

namespace BindContext

def run_call (ctx : BindContext) (call : AddCall) : BindContext × Except Status Unit :=
  ctx.add_table call.table_name call.as_name call.schema

/-- A context after some calls, with those that succeeded. -/
def run_calls : BindContext × List AddCall → List AddCall → BindContext × List AddCall
  | s, [] => s
  | (ctx, added), call :: calls =>
    match ctx.run_call call with
    | (ctx, .ok _) => run_calls (ctx, added ++ [call]) calls
    | (ctx, .error _) => run_calls (ctx, added) calls

theorem run_calls_append (s : BindContext × List AddCall) (calls calls' : List AddCall) :
    run_calls s (calls ++ calls') = run_calls (run_calls s calls) calls' := by
  induction calls generalizing s with
  | nil => rfl
  | cons call calls ih =>
    obtain ⟨ctx, added⟩ := s
    rw [cons_append, run_calls, run_calls]
    split
    · exact ih _
    · exact ih _

/-- The column that a table of the FROM clause has, as one of a joined row. -/
def column_of (added : List AddCall) (i : Nat) (call : AddCall) (j : Nat) (column : String) : BoundColumn :=
  { table_index := i, column_index := j, row_offset := widths (added.take i) + j
    type := (call.schema.columns[j]?.map ColumnDef.type).getD .kString, column_name := column }

/-- The names lead to the tables that were added, and so do the references. -/
structure Consistent (ctx : BindContext) (added : List AddCall) : Prop where
  in_range : ∀ entry ∈ ctx.name_to_table, entry.2 < ctx.tables.length
  offsets : ∀ i t, ctx.tables[i]? = some t →
    t.row_offset = ((ctx.tables.take i).map fun t => t.schema.columns.length).sum
  resolves : ∀ q c bc, ctx.resolve (q ++ "." ++ c) = .ok bc ↔ ∃ i call j, added[i]? = some call ∧ call.Named q ∧
    call.schema.column_index c = some j ∧ bc = column_of added i call j c

/-- A call that does not fail half way: if the name of the table is free, so is its alias.
    The table that it adds has references. -/
def Regular (ctx : BindContext) (call : AddCall) : Prop :=
  call.table_name ≠ "" → ctx.find_table call.table_name = none →
    (call.as_name ≠ "" → call.as_name ≠ call.table_name → ctx.find_table call.as_name = none) ∧ call.Plain

section Split

variable (q c : String)

/-- A reference with a qualifier is taken apart where both parts are names without a dot. -/
theorem split_qualified :
    split_column_ref (q ++ "." ++ c) =
      if q ≠ "" ∧ c ≠ "" ∧ '.' ∉ q.toList ∧ '.' ∉ c.toList then .ok (q, c)
      else .error (.InvalidArgument ("invalid column reference: " ++ (q ++ "." ++ c))) := by
  have hlist : (q ++ "." ++ c).toList = q.toList ++ '.' :: c.toList := by simp
  have hne : q ++ "." ++ c ≠ "" := by
    intro h
    rw [h] at hlist
    simp at hlist
  rw [split_column_ref, if_neg hne, hlist]
  by_cases hdot : '.' ∈ q.toList
  · have hcut : q.toList.dropWhile (· ≠ '.') ≠ [] := fun h => by
      simpa using dropWhile_eq_nil_iff.mp h '.' hdot
    obtain ⟨x, rest, hrest⟩ := exists_cons_of_ne_nil hcut
    have hempty : ¬ (q.toList.dropWhile (· ≠ '.')).isEmpty := by
      rw [hrest]
      simp
    rw [dropWhile_append, if_neg hempty, hrest]
    simp [hdot]
  · have hall : ∀ x ∈ q.toList, decide (x ≠ '.') = true := fun x hx => decide_eq_true fun h => hdot (h ▸ hx)
    have hdrop : (q.toList ++ '.' :: c.toList).dropWhile (· ≠ '.') = '.' :: c.toList := by
      rw [dropWhile_append_of_pos hall]
      simp
    have htake : (q.toList ++ '.' :: c.toList).takeWhile (· ≠ '.') = q.toList := by
      rw [takeWhile_append_of_pos hall]
      simp
    rw [hdrop]
    dsimp only
    rw [htake]
    by_cases hok : q ≠ "" ∧ c ≠ "" ∧ '.' ∉ q.toList ∧ '.' ∉ c.toList
    · rw [if_pos hok, if_neg (by simpa using ⟨hok.2.2.2, hok.1, hok.2.1⟩), String.ofList_toList, String.ofList_toList]
    · rw [if_neg hok, if_pos]
      simp only [String.toList_eq_nil_iff]
      tauto

end Split

/-- What a reference with a qualifier stands for. -/
theorem resolve_qualified_iff (ctx : BindContext) (q c : String) (bc : BoundColumn) :
    ctx.resolve (q ++ "." ++ c) = .ok bc ↔
      (q ≠ "" ∧ c ≠ "" ∧ '.' ∉ q.toList ∧ '.' ∉ c.toList) ∧ ∃ i t j, ctx.find_table q = some i ∧
        ctx.tables[i]? = some t ∧ t.schema.column_index c = some j ∧ bc = bound_column i t j c := by
  rw [resolve, split_qualified]
  by_cases hok : q ≠ "" ∧ c ≠ "" ∧ '.' ∉ q.toList ∧ '.' ∉ c.toList
  · rw [if_pos hok]
    change (if q ≠ "" then _ else _) = _ ↔ _
    rw [if_pos hok.1]
    cases hfind : ctx.find_table q with
    | none => simp
    | some i =>
      rw [bind_some]
      cases ht : ctx.tables[i]? with
      | none => simp [ht]
      | some t =>
        rw [map_some]
        dsimp only
        cases hj : t.schema.column_index c with
        | none => simp [ht, hj]
        | some j => simp [ht, hj, hok, eq_comm]
  · rw [if_neg hok]
    refine ⟨fun h => ?_, fun h => absurd h.1 hok⟩
    cases h

/-- What an `AddTable` call can do. -/
theorem run_call_cases (ctx : BindContext) (call : AddCall) :
    (call.table_name = "" ∨ ctx.find_table call.table_name ≠ none) ∧ (∃ e, ctx.run_call call = (ctx, .error e)) ∨
    (call.table_name ≠ "" ∧ ctx.find_table call.table_name = none) ∧
      ((call.as_name ≠ "" ∧ call.as_name ≠ call.table_name ∧ ctx.find_table call.as_name ≠ none) ∧
        (∃ e, ctx.run_call call =
          ({ ctx with name_to_table := ctx.name_to_table ++ [(call.table_name, ctx.tables.length)] }, .error e)) ∨
      (call.as_name ≠ "" → call.as_name ≠ call.table_name → ctx.find_table call.as_name = none) ∧
        ctx.run_call call =
          ({ tables := ctx.tables ++ [⟨call.table_name, call.as_name, call.schema, ctx.total_columns⟩]
             name_to_table := ctx.name_to_table ++ (call.table_name, ctx.tables.length) ::
               if call.as_name ≠ "" ∧ call.as_name ≠ call.table_name then [(call.as_name, ctx.tables.length)] else []
             total_columns := ctx.total_columns + call.width }, .ok ())) := by
  rw [run_call, add_table]
  by_cases hempty : call.table_name = ""
  · exact .inl ⟨.inl hempty, _, if_pos hempty⟩
  · rw [if_neg hempty, register_name, if_neg hempty]
    cases hfind : ctx.find_table call.table_name with
    | some i => exact .inl ⟨.inr (by simp), _, rfl⟩
    | none =>
      refine .inr ⟨⟨hempty, rfl⟩, ?_⟩
      rw [isSome_none, if_neg (by simp)]
      dsimp only
      by_cases has : call.as_name ≠ "" ∧ call.as_name ≠ call.table_name
      · rw [if_pos has, register_name, if_neg has.1]
        have hlookup : find_table { ctx with name_to_table := ctx.name_to_table ++ [(call.table_name, ctx.tables.length)] }
            call.as_name = ctx.find_table call.as_name := by
          rw [find_table, find_table, List.find?_append]
          simp [Ne.symm has.2]
        rw [hlookup]
        cases halias : ctx.find_table call.as_name with
        | some i => exact .inl ⟨⟨has.1, has.2, by simp⟩, _, rfl⟩
        | none =>
          refine .inr ⟨fun _ _ => rfl, ?_⟩
          rw [isSome_none, if_neg (by simp), if_pos has]
          simp [AddCall.width]
      · rw [if_neg has, if_neg has]
        exact .inr ⟨fun h h' => absurd ⟨h, h'⟩ has, rfl⟩

/-- The table that a call adds after others. -/
def bound_table (added : List AddCall) (i : Nat) (call : AddCall) : BoundTable :=
  ⟨call.table_name, call.as_name, call.schema, widths (added.take i)⟩

/-- A context that holds just what the calls that succeeded have put in. -/
structure Tracks (ctx : BindContext) (added : List AddCall) : Prop where
  tables : ∀ i, ctx.tables[i]? = (added[i]?).map (bound_table added i)
  total : ctx.total_columns = widths added
  in_range : ∀ entry ∈ ctx.name_to_table, entry.2 < ctx.tables.length
  names : ∀ name i, ctx.find_table name = some i ↔ ∃ call, added[i]? = some call ∧ call.Named name
  plain : ∀ call ∈ added, call.Plain

/-- The names that a call registers. -/
theorem find_table_append {call : AddCall} (old : List (String × Nat)) (hempty : call.table_name ≠ "") (n i : Nat)
    (name : String) :
    ((old ++ (call.table_name, n) ::
        if call.as_name ≠ "" ∧ call.as_name ≠ call.table_name then [(call.as_name, n)] else []).find?
          fun entry => entry.1 = name).map Prod.snd = some i ↔
      (old.find? fun entry => entry.1 = name).map Prod.snd = some i ∨
        (old.find? fun entry => entry.1 = name).map Prod.snd = none ∧ call.Named name ∧ i = n := by
  rw [List.find?_append]
  cases old.find? fun entry => entry.1 = name with
  | some entry => simp
  | none =>
    simp only [none_or, map_none, reduceCtorEq, true_and, false_or, AddCall.Named]
    by_cases hname : call.table_name = name
    · subst hname
      simp [hempty, eq_comm]
    · by_cases has : call.as_name ≠ "" ∧ call.as_name ≠ call.table_name
      · rw [if_pos has]
        by_cases heq : call.as_name = name
        · subst heq
          simp [hname, has.1, eq_comm]
        · simp [hname, heq]
      · rw [if_neg has]
        have hnot : ¬ (name ≠ "" ∧ (call.table_name = name ∨ call.as_name = name)) := by
          rintro ⟨hne, heq | heq⟩
          · exact hname heq
          · exact has ⟨heq ▸ hne, fun h => hname (h.symm.trans heq)⟩
        simp only [hnot, false_and, iff_false]
        simp [hname]

namespace Tracks

variable {ctx : BindContext} {added : List AddCall} {call : AddCall}

theorem empty : Tracks {} [] where
  tables i := by simp
  total := rfl
  in_range _ h := absurd h not_mem_nil
  names name i := by simp [find_table]
  plain _ h := absurd h not_mem_nil

theorem length_eq (h : Tracks ctx added) : ctx.tables.length = added.length := by
  refine le_antisymm ?_ ?_
  · have := h.tables added.length
    simpa using this
  · have := h.tables ctx.tables.length
    simpa using this

/-- The offsets of the tables follow from the columns of the calls. -/
theorem widths_take (h : Tracks ctx added) (i : Nat) :
    ((ctx.tables.take i).map fun t => t.schema.columns.length).sum = widths (added.take i) := by
  have hsame : (ctx.tables.map fun t => t.schema.columns.length) = added.map AddCall.width := by
    refine ext_getElem? fun j => ?_
    rw [List.getElem?_map, List.getElem?_map, h.tables j, Option.map_map]
    rfl
  rw [map_take, hsame, widths, map_take]

theorem consistent (h : Tracks ctx added) : Consistent ctx added where
  in_range := h.in_range
  offsets i t ht := by
    rw [h.tables i] at ht
    obtain ⟨call, -, rfl⟩ := map_eq_some_iff.mp ht
    exact (h.widths_take i).symm
  resolves q c bc := by
    rw [resolve_qualified_iff]
    constructor
    · rintro ⟨-, i, t, j, hfind, ht, hj, rfl⟩
      obtain ⟨call, hcall, hnamed⟩ := (h.names q i).mp hfind
      rw [h.tables i, hcall, map_some, some_inj] at ht
      subst ht
      exact ⟨i, call, j, hcall, hnamed, hj, rfl⟩
    · rintro ⟨i, call, j, hcall, hnamed, hj, rfl⟩
      have ht : ctx.tables[i]? = some (bound_table added i call) := by rw [h.tables i, hcall, map_some]
      refine ⟨⟨hnamed.1, ?_⟩, i, _, j, (h.names q i).mpr ⟨call, hcall, hnamed⟩, ht, hj, rfl⟩
      obtain ⟨hlt, hname, -⟩ := List.findIdx?_eq_some_iff_getElem.mp hj
      obtain ⟨htable, has, hne, hdot⟩ := h.plain call (mem_of_getElem? hcall) _ (getElem_mem hlt)
      simp only [decide_eq_true_eq] at hname
      rw [hname] at hne hdot
      rcases hnamed.2 with rfl | rfl
      · exact ⟨hne, htable, hdot⟩
      · exact ⟨hne, has, hdot⟩

/-- A table that is added behind the others. -/
theorem add (h : Tracks ctx added) (hplain : call.Plain) (hempty : call.table_name ≠ "")
    (hname : ctx.find_table call.table_name = none)
    (has : call.as_name ≠ "" → call.as_name ≠ call.table_name → ctx.find_table call.as_name = none) :
    Tracks
      { tables := ctx.tables ++ [⟨call.table_name, call.as_name, call.schema, ctx.total_columns⟩]
        name_to_table := ctx.name_to_table ++ (call.table_name, ctx.tables.length) ::
          if call.as_name ≠ "" ∧ call.as_name ≠ call.table_name then [(call.as_name, ctx.tables.length)] else []
        total_columns := ctx.total_columns + call.width } (added ++ [call]) where
  tables i := by
    have hlength := h.length_eq
    rcases Nat.lt_trichotomy i added.length with hlt | rfl | hgt
    · rw [List.getElem?_append_left (hlength ▸ hlt), List.getElem?_append_left hlt, h.tables i,
        List.getElem?_eq_getElem hlt, map_some, map_some, bound_table, bound_table,
        take_append_of_le_length hlt.le]
    · rw [← hlength, List.getElem?_concat_length, hlength, List.getElem?_concat_length, map_some, bound_table,
        take_left, h.total]
    · rw [List.getElem?_eq_none (by simp; omega), List.getElem?_eq_none (by simp; omega), map_none]
  total := by
    rw [h.total]
    simp [widths]
  in_range entry hentry := by
    rw [length_append, length_singleton]
    rcases mem_append.mp hentry with hold | hnew
    · exact (h.in_range entry hold).trans (Nat.lt_succ_self _)
    · rcases mem_cons.mp hnew with rfl | hnew
      · exact Nat.lt_succ_self _
      · split at hnew
        · rw [mem_singleton.mp hnew]
          exact Nat.lt_succ_self _
        · exact absurd hnew not_mem_nil
  names name i := by
    have hfree : call.Named name → ctx.find_table name = none := by
      rintro ⟨hne, rfl | rfl⟩
      · exact hname
      · by_cases heq : call.as_name = call.table_name
        · rw [heq]
          exact hname
        · exact has hne heq
    have hget : ∀ call', (added ++ [call])[i]? = some call' ↔ added[i]? = some call' ∨ i = added.length ∧ call' = call := by
      intro call'
      rcases Nat.lt_trichotomy i added.length with hlt | rfl | hgt
      · simp [List.getElem?_append_left hlt, hlt.ne]
      · simp [eq_comm]
      · simp [List.getElem?_eq_none hgt.le, hgt.ne', List.getElem?_append_right hgt.le, Nat.sub_ne_zero_of_lt hgt]
    refine (find_table_append ctx.name_to_table hempty ctx.tables.length i name).trans ?_
    change ctx.find_table name = some i ∨ ctx.find_table name = none ∧ call.Named name ∧ i = ctx.tables.length ↔ _
    rw [h.names name i, h.length_eq]
    constructor
    · rintro (⟨call', hcall', hnamed⟩ | ⟨-, hnamed, rfl⟩)
      · exact ⟨call', (hget call').mpr (.inl hcall'), hnamed⟩
      · exact ⟨call, (hget call).mpr (.inr ⟨rfl, rfl⟩), hnamed⟩
    · rintro ⟨call', hcall', hnamed⟩
      rcases (hget call').mp hcall' with hold | ⟨rfl, rfl⟩
      · exact .inl ⟨call', hold, hnamed⟩
      · exact .inr ⟨hfree hnamed, hnamed, rfl⟩
  plain call' hcall' := by
    rcases mem_append.mp hcall' with hold | hnew
    · exact h.plain call' hold
    · rw [mem_singleton.mp hnew]
      exact hplain

/-- A regular call adds its table, or fails and changes nothing. -/
theorem run_call (h : Tracks ctx added) (hregular : ctx.Regular call) :
    (∃ ctx', ctx.run_call call = (ctx', .ok ()) ∧ Tracks ctx' (added ++ [call])) ∨
      ∃ e, ctx.run_call call = (ctx, .error e) := by
  rcases run_call_cases ctx call with ⟨-, hfail⟩ | ⟨⟨hempty, hname⟩, ⟨htaken, -⟩ | ⟨has, hadd⟩⟩
  · exact .inr hfail
  · exact absurd ((hregular hempty hname).1 htaken.1 htaken.2.1) htaken.2.2
  · exact .inl ⟨_, hadd, h.add (hregular hempty hname).2 hempty hname has⟩

end Tracks

/-- The state of a run from the empty context. -/
def reached (calls : List AddCall) : BindContext × List AddCall := run_calls ({}, []) calls

theorem reached_concat (calls : List AddCall) (call : AddCall) :
    reached (calls ++ [call]) =
      match (reached calls).1.run_call call with
      | (ctx, .ok _) => (ctx, (reached calls).2 ++ [call])
      | (ctx, .error _) => (ctx, (reached calls).2) := by
  rw [reached, run_calls_append, ← reached, run_calls]
  split <;> rfl

theorem tracks_reached {calls : List AddCall}
    (hregular : ∀ done call, done ++ [call] <+: calls → (reached done).1.Regular call) :
    Tracks (reached calls).1 (reached calls).2 := by
  induction calls using List.reverseRecOn with
  | nil => exact Tracks.empty
  | append_singleton calls call ih =>
    have hold := ih fun done call' hdone => hregular done call' (hdone.trans (prefix_append _ _))
    rw [reached_concat]
    rcases hold.run_call (hregular calls call (prefix_refl _)) with ⟨ctx', hadd, htracks⟩ | ⟨e, hfail⟩
    · rw [hadd]
      exact htracks
    · rw [hfail]
      exact hold

/-- A context stays consistent, and a call that fails changes nothing, exactly in the runs
    of regular calls. The context starts empty; the calls are arbitrary, those that fail
    included. -/
theorem consistent_iff_regular (calls : List AddCall) :
    ((∀ done, done <+: calls → Consistent (reached done).1 (reached done).2) ∧
      (∀ done call e, done ++ [call] <+: calls → ((reached done).1.run_call call).2 = .error e →
        ((reached done).1.run_call call).1 = (reached done).1)) ↔
      ∀ done call, done ++ [call] <+: calls → (reached done).1.Regular call := by
  constructor
  · rintro ⟨hconsistent, hunchanged⟩ done call hdone hempty hname
    have hafter := hconsistent _ hdone
    rw [reached_concat] at hafter
    rcases run_call_cases (reached done).1 call with ⟨htaken, -⟩ | ⟨-, ⟨-, e, hfail⟩ | ⟨has, hadd⟩⟩
    · exact absurd hname (htaken.resolve_left hempty)
    · have hsame := hunchanged done call e hdone (by rw [hfail])
      rw [hfail] at hsame
      have := congrArg (fun ctx => ctx.name_to_table.length) hsame
      simp at this
    · refine ⟨has, fun c hc => ?_⟩
      rw [hadd] at hafter
      obtain ⟨j, hj⟩ : ∃ j, call.schema.column_index c.name = some j := by
        rw [← isSome_iff_exists, TableSchema.column_index, List.findIdx?_isSome, List.any_eq_true]
        exact ⟨c, hc, by simp⟩
      have href : ∀ q, call.Named q → q ≠ "" ∧ c.name ≠ "" ∧ '.' ∉ q.toList ∧ '.' ∉ c.name.toList := by
        intro q hq
        have hok := (hafter.resolves q c.name _).mpr ⟨(reached done).2.length, call, j, by simp, hq, hj, rfl⟩
        exact ((resolve_qualified_iff _ _ _ _).mp hok).1
      obtain ⟨-, hne, htable, hdot⟩ := href call.table_name ⟨hempty, .inl rfl⟩
      refine ⟨htable, ?_, hne, hdot⟩
      by_cases hnone : call.as_name = ""
      · rw [hnone]
        simp
      · exact (href call.as_name ⟨hnone, .inr rfl⟩).2.2.1
  · intro hregular
    have htracks : ∀ done, done <+: calls → Tracks (reached done).1 (reached done).2 := fun done hdone =>
      tracks_reached fun done' call hdone' => hregular done' call (hdone'.trans hdone)
    refine ⟨fun done hdone => (htracks done hdone).consistent, fun done call e hdone herror => ?_⟩
    have hbefore := htracks done ((prefix_append _ _).trans hdone)
    rcases hbefore.run_call (hregular done call hdone) with ⟨ctx', hadd, -⟩ | ⟨e', hfail⟩
    · rw [hadd] at herror
      cases herror
    · rw [hfail]

/-- The alias of the second table is taken, but its name stays registered, first past the
    tables and then as a name of the third one. -/
theorem leftover_name :
    let users : AddCall := ⟨"users", "t", ⟨"users", [⟨"id", .kInt64, true⟩, ⟨"name", .kString, false⟩]⟩⟩
    let orders : AddCall :=
      ⟨"orders", "t", ⟨"orders", [⟨"id", .kInt64, true⟩, ⟨"uid", .kInt64, false⟩, ⟨"amount", .kInt64, false⟩]⟩⟩
    let items : AddCall := ⟨"items", "", ⟨"items", [⟨"id", .kInt64, true⟩, ⟨"price", .kInt64, false⟩]⟩⟩
    ((reached [users]).1.run_call orders).2 = .error (.InvalidArgument "duplicate table name or alias: t") ∧
      (reached [users, orders]).2 = [users] ∧ ("orders", 1) ∈ (reached [users, orders]).1.name_to_table ∧
      (reached [users, orders]).1.tables.length = 1 ∧ (reached [users, orders, items]).2 = [users, items] ∧
      (reached [users, orders, items]).1.resolve "orders.price" = .ok ⟨1, 1, 3, .kInt64, "price"⟩ := by
  decide +kernel

end BindContext

end reldb
