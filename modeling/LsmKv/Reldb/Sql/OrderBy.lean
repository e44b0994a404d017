import LsmKv.Reldb.Sql.Sort

namespace reldb

open lsmkv (Status)
open sorting (StableSorted)
open List

section Orders

theorem three_way_isLE {α : Type} [LinearOrder α] {a b : α} : (three_way a b).isLE = true ↔ a ≤ b := by
  unfold three_way
  split
  · next hlt => exact ⟨fun _ => hlt.le, fun _ => rfl⟩
  · next hlt =>
    split
    · next hgt => exact ⟨fun h => absurd h (by decide), fun hle => absurd hle (not_le.mpr hgt)⟩
    · next hgt => exact ⟨fun _ => not_lt.mp hgt, fun _ => rfl⟩

@[simp] theorem three_way_self {α : Type} [LinearOrder α] (a : α) : three_way a a = .eq := by simp [three_way]

theorem three_way_eq {α : Type} [LinearOrder α] {a b : α} (h : three_way a b = .eq) : a = b := by
  unfold three_way at h
  split at h
  · cases h
  · split at h
    · cases h
    · next hlt hgt => exact le_antisymm (not_lt.mp hgt) (not_lt.mp hlt)

instance {α : Type} [LinearOrder α] : Std.TransCmp (three_way : α → α → Ordering) where
  eq_swap {a b} := by
    unfold three_way
    rcases lt_trichotomy a b with h | rfl | h
    · rw [if_pos h, if_neg h.not_gt, if_pos h]
      rfl
    · simp only [lt_irrefl, if_false]
      rfl
    · rw [if_neg h.not_gt, if_pos h, if_pos h]
      rfl
  isLE_trans hab hbc := three_way_isLE.mpr ((three_way_isLE.mp hab).trans (three_way_isLE.mp hbc))

/-- An order by a part of what is compared. -/
theorem trans_on {α β : Type} (f : β → α) (cmp : α → α → Ordering) [Std.TransCmp cmp] :
    Std.TransCmp fun a b => cmp (f a) (f b) where
  eq_swap := Std.OrientedCmp.eq_swap
  isLE_trans := Std.TransCmp.isLE_trans

end Orders

namespace Value

def rank (v : Value) : Nat :=
  match v with
  | .null => 0
  | .int64 _ => 1
  | .string _ => 2
  | .bool _ => 3

def number : Value → Int
  | .int64 n => n.toInt
  | _ => 0

def text : Value → Bytes
  | .string s => s
  | _ => []

def flag : Value → Bool
  | .bool b => b
  | _ => false

end Value

/-- Values of one type are ordered by value. -/
def value_order : Value → Value → Ordering :=
  compareLex (fun a b => three_way a.rank b.rank) <| compareLex (fun a b => three_way a.number b.number) <|
    compareLex (fun a b => three_way a.text b.text) fun a b => three_way a.flag.toNat b.flag.toNat

/-- NULL stands behind all values. -/
def nulls_last (cmp : Value → Value → Ordering) : Value → Value → Ordering :=
  compareLex (fun a b => three_way a.is_null.toNat b.is_null.toNat) cmp

def Row.key_cell (row : Row) (key : SortKey) : Value := (Row.cell row key.column_index).getD .null

/-- What a sort key asks for: ascending or descending by value, NULLs last either way. -/
def key_order (key : SortKey) (a b : Row) : Ordering :=
  nulls_last (if key.ascending then value_order else fun x y => value_order y x) (Row.key_cell a key) (Row.key_cell b key)

/-- What the comparator makes of a sort key: all of it turns around for DESC. -/
def coded_order (key : SortKey) (a b : Row) : Ordering :=
  if key.ascending then nulls_last value_order (Row.key_cell a key) (Row.key_cell b key)
  else nulls_last value_order (Row.key_cell b key) (Row.key_cell a key)

/-- The first key that tells two rows apart decides. -/
def lexicographic (order : SortKey → Row → Row → Ordering) : List SortKey → Row → Row → Ordering
  | [] => fun _ _ => .eq
  | key :: keys => compareLex (order key) (lexicographic order keys)

section Trans

instance : Std.TransCmp value_order := by
  have hrank := trans_on Value.rank three_way
  have hnumber := trans_on Value.number three_way
  have htext := trans_on Value.text three_way
  have hflag := trans_on (fun v : Value => v.flag.toNat) three_way
  unfold value_order
  infer_instance

instance (cmp : Value → Value → Ordering) [Std.TransCmp cmp] : Std.TransCmp (nulls_last cmp) := by
  have hnull := trans_on (fun v : Value => v.is_null.toNat) three_way
  unfold nulls_last
  infer_instance

theorem key_order_trans (key : SortKey) : Std.TransCmp (key_order key) := by
  have hvalues : Std.TransCmp (if key.ascending then value_order else fun x y => value_order y x) := by
    split <;> infer_instance
  exact trans_on (fun row => Row.key_cell row key) (nulls_last _)

theorem coded_order_trans (key : SortKey) : Std.TransCmp (coded_order key) := by
  have hasc := trans_on (fun row => Row.key_cell row key) (nulls_last value_order)
  have hdesc := trans_on (fun row => Row.key_cell row key) fun x y => nulls_last value_order y x
  by_cases h : key.ascending
  · have heq : coded_order key = fun a b => nulls_last value_order (Row.key_cell a key) (Row.key_cell b key) := by
      funext a b
      exact if_pos h
    rwa [heq]
  · have heq : coded_order key = fun a b => nulls_last value_order (Row.key_cell b key) (Row.key_cell a key) := by
      funext a b
      exact if_neg h
    rwa [heq]

theorem lexicographic_trans {order : SortKey → Row → Row → Ordering} (h : ∀ key, Std.TransCmp (order key))
    (keys : List SortKey) : Std.TransCmp (lexicographic order keys) := by
  induction keys with
  | nil => exact { eq_swap := rfl, isLE_trans := fun _ _ => rfl }
  | cons key keys ih =>
    have hkey := h key
    unfold lexicographic
    infer_instance

end Trans

/-- Two rows that a sort key can be compared on. -/
def Comparable (keys : List SortKey) (a b : Row) : Prop :=
  ∀ key ∈ keys, ∃ x y, Row.cell a key.column_index = some x ∧ Row.cell b key.column_index = some y ∧
    (x = .null ∨ y = .null ∨ x.type = y.type)

theorem compare_for_sort_eq {x y : Value} (h : x = .null ∨ y = .null ∨ x.type = y.type) :
    compare_for_sort x y = .ok (nulls_last value_order x y) := by
  have hint : ∀ a b : Int64, three_way a b = three_way a.toInt b.toInt := fun a b => by
    simp only [three_way, Int64.lt_iff_toInt_lt]
  cases x <;> cases y <;> first | rfl | simp [Value.type] at h
  · simp [compare_for_sort, nulls_last, value_order, compareLex, Value.is_null, Value.type, Value.rank, Value.number,
      Value.text, Value.flag, hint]
  · simp [compare_for_sort, nulls_last, value_order, compareLex, Value.is_null, Value.type, Value.rank, Value.number,
      Value.text, Value.flag]

theorem row_less_eq {keys : List SortKey} {a b : Row} (h : Comparable keys a b) :
    row_less keys a b = .ok (lexicographic coded_order keys a b = .lt) := by
  induction keys with
  | nil => rfl
  | cons key keys ih =>
    obtain ⟨x, y, hx, hy, hxy⟩ := h key (mem_cons_self ..)
    have hrest := ih fun key' hkey' => h key' (mem_cons_of_mem _ hkey')
    have hcells : Row.key_cell a key = x ∧ Row.key_cell b key = y := by simp [Row.key_cell, hx, hy]
    have hswap : nulls_last value_order y x = (nulls_last value_order x y).swap := Std.OrientedCmp.eq_swap
    rw [row_less, hx, hy]
    simp only [compare_for_sort_eq hxy, lexicographic, compareLex, coded_order, hcells.1, hcells.2, hswap]
    cases nulls_last value_order x y <;> cases key.ascending <;> simp [hrest, Ordering.swap, Ordering.then]

section Sorts

variable {keys : List SortKey} {rows : List Row}

theorem insert_row_eq {row : Row} (h : ∀ other ∈ rows, Comparable keys row other) :
    insert_row keys row rows = .ok (sorting.insert (lexicographic coded_order keys) row rows) := by
  induction rows with
  | nil => rfl
  | cons other rows ih =>
    rw [insert_row, row_less_eq (h other (mem_cons_self ..)), sorting.insert]
    by_cases hlt : lexicographic coded_order keys row other = .lt
    · simp [hlt]
    · simp only [hlt, decide_false, if_false]
      rw [ih fun other' hother' => h other' (mem_cons_of_mem _ hother')]
      rfl

theorem stable_sort_eq {sorted : List Row} (h : ∀ a ∈ sorted ++ rows, ∀ b ∈ sorted ++ rows, Comparable keys a b) :
    stable_sort keys sorted rows =
      .ok (rows.foldl (fun sorted row => sorting.insert (lexicographic coded_order keys) row sorted) sorted) := by
  induction rows generalizing sorted with
  | nil => rfl
  | cons row rows ih =>
    have hperm := @sorting.insert_perm _ (lexicographic coded_order keys) row sorted
    have hsub : sorting.insert (lexicographic coded_order keys) row sorted ++ rows ⊆ sorted ++ row :: rows :=
      ((hperm.append_right rows).trans perm_middle.symm).subset
    rw [stable_sort, insert_row_eq fun other hother => h row (by simp) other (mem_append_left _ hother)]
    exact ih fun a ha b hb => h a (hsub ha) b (hsub hb)

/-- Where the comparator goes wrong: a DESC key finds one NULL, and no key before it
    tells the rows apart. -/
def NullClash : List SortKey → Row → Row → Prop
  | [], _, _ => False
  | key :: keys, a, b =>
    (key.ascending = false ∧ (Row.key_cell a key).is_null ≠ (Row.key_cell b key).is_null) ∨
      (Row.key_cell a key = Row.key_cell b key ∧ NullClash keys a b)

instance instDecidableNullClash : (keys : List SortKey) → (a b : Row) → Decidable (NullClash keys a b)
  | [], _, _ => inferInstanceAs (Decidable False)
  | _ :: keys, a, b =>
    have := instDecidableNullClash keys a b
    inferInstanceAs (Decidable (_ ∨ _))

theorem value_order_eq {x y : Value} (h : value_order x y = .eq) : x = y := by
  simp only [value_order, compareLex, Ordering.then_eq_eq] at h
  obtain ⟨hrank, hnumber, htext, hflag⟩ := h
  have hrank := three_way_eq hrank
  have hnumber := three_way_eq hnumber
  have htext := three_way_eq htext
  have hflag := three_way_eq hflag
  cases x <;> cases y <;> simp [Value.rank] at hrank <;> first | rfl | skip
  · exact congrArg Value.int64 (Int64.toInt_inj.mp hnumber)
  · exact congrArg Value.string htext
  · have hinj : ∀ a b : Bool, a.toNat = b.toNat → a = b := by decide
    exact congrArg Value.bool (hinj _ _ hflag)

theorem nulls_last_of_eq {cmp : Value → Value → Ordering} {x y : Value} (h : x.is_null = y.is_null) :
    nulls_last cmp x y = cmp x y := by
  rw [nulls_last, compareLex, h, three_way_self]
  rfl

variable {key : SortKey} {a b : Row}

/-- Away from a lone NULL the comparator does what a key asks for. -/
theorem key_order_eq_coded (h : key.ascending = true ∨ (Row.key_cell a key).is_null = (Row.key_cell b key).is_null) :
    key_order key a b = coded_order key a b := by
  unfold key_order coded_order
  by_cases hasc : key.ascending
  · rw [if_pos hasc, if_pos hasc]
  · have hnull := h.resolve_left hasc
    rw [if_neg hasc, if_neg hasc, nulls_last_of_eq hnull, nulls_last_of_eq hnull.symm]

/-- At a lone NULL it does the opposite for DESC. -/
theorem key_order_opposite (hdesc : key.ascending = false)
    (hnull : (Row.key_cell a key).is_null ≠ (Row.key_cell b key).is_null) :
    (key_order key a b = .lt ∧ coded_order key a b = .gt) ∨ (key_order key a b = .gt ∧ coded_order key a b = .lt) := by
  simp only [key_order, coded_order, nulls_last, compareLex, hdesc]
  cases hx : (Row.key_cell a key).is_null <;> cases hy : (Row.key_cell b key).is_null
  · exact absurd (hx.trans hy.symm) hnull
  · exact .inl ⟨rfl, rfl⟩
  · exact .inr ⟨rfl, rfl⟩
  · exact absurd (hx.trans hy.symm) hnull

theorem key_cell_eq_of_coded (h : coded_order key a b = .eq) : Row.key_cell a key = Row.key_cell b key := by
  unfold coded_order nulls_last at h
  split at h
  · exact value_order_eq (Ordering.then_eq_eq.mp h).2
  · exact (value_order_eq (Ordering.then_eq_eq.mp h).2).symm

theorem lexicographic_agree (h : ¬ NullClash keys a b) :
    lexicographic key_order keys a b = lexicographic coded_order keys a b := by
  induction keys with
  | nil => rfl
  | cons key keys ih =>
    obtain ⟨hkey, hrest⟩ := not_or.mp h
    have heq : key_order key a b = coded_order key a b := by
      refine key_order_eq_coded (or_iff_not_imp_left.mpr fun hasc => ?_)
      by_contra hnull
      exact hkey ⟨Bool.not_eq_true _ ▸ hasc, hnull⟩
    simp only [lexicographic, compareLex, heq]
    cases hcase : coded_order key a b with
    | lt => rfl
    | gt => rfl
    | eq =>
      exact ih fun hclash => hrest ⟨key_cell_eq_of_coded hcase, hclash⟩

theorem lexicographic_opposite (h : NullClash keys a b) :
    (lexicographic key_order keys a b = .lt ∧ lexicographic coded_order keys a b = .gt) ∨
      (lexicographic key_order keys a b = .gt ∧ lexicographic coded_order keys a b = .lt) := by
  induction keys with
  | nil => exact h.elim
  | cons key keys ih =>
    simp only [lexicographic, compareLex]
    rcases h with ⟨hdesc, hnull⟩ | ⟨hcell, hclash⟩
    · rcases key_order_opposite hdesc hnull with ⟨hk, hc⟩ | ⟨hk, hc⟩
      · exact .inl ⟨by rw [hk]; rfl, by rw [hc]; rfl⟩
      · exact .inr ⟨by rw [hk]; rfl, by rw [hc]; rfl⟩
    · have hsame : coded_order key a b = .eq := by
        unfold coded_order
        rw [hcell, ite_self]
        exact Std.ReflCmp.compare_self
      rw [key_order_eq_coded (.inr (congrArg Value.is_null hcell)), hsame]
      exact ih hclash

end Sorts

/-- Rows that a list of keys can sort: each key's column holds values of one type, or NULLs. -/
def Sortable (keys : List SortKey) (rows : List Row) : Prop :=
  ∀ key ∈ keys, ∃ type, ∀ row ∈ rows, ∃ v, Row.cell row key.column_index = some v ∧ (v = .null ∨ v.type = type)

/-- The output is the stable arrangement with NULLs last, but for a NULL in a DESC column
    beside a value that no earlier key tells apart. Each column is assumed to have values
    of one type, or NULLs; which keys there are and how many rows tie is free. -/
theorem order_by_iff {keys : List SortKey} {rows : List Row} (hsortable : Sortable keys rows) :
    (∃ out, sort_rows keys rows = .ok out ∧ StableSorted (lexicographic key_order keys) rows out) ↔
      keys ≠ [] ∧ ∀ a ∈ rows, ∀ b ∈ rows, ¬ NullClash keys a b := by
  have hcomparable : ∀ a ∈ rows, ∀ b ∈ rows, Comparable keys a b := by
    intro a ha b hb key hkey
    obtain ⟨type, htype⟩ := hsortable key hkey
    obtain ⟨x, hx, hxtype⟩ := htype a ha
    obtain ⟨y, hy, hytype⟩ := htype b hb
    refine ⟨x, y, hx, hy, ?_⟩
    rcases hxtype with hnull | hxtype
    · exact .inl hnull
    · rcases hytype with hnull | hytype
      · exact .inr (.inl hnull)
      · exact .inr (.inr (hxtype.trans hytype.symm))
  have hcoded := lexicographic_trans coded_order_trans keys
  have hwanted := lexicographic_trans key_order_trans keys
  have hstable := @sorting.sort_stable _ (lexicographic coded_order keys) hcoded rows
  by_cases hkeys : keys = []
  · refine ⟨?_, fun h => absurd hkeys h.1⟩
    rintro ⟨out, hout, -⟩
    rw [sort_rows, if_pos hkeys] at hout
    cases hout
  have hsort : sort_rows keys rows = .ok (sorting.sort (lexicographic coded_order keys) rows) := by
    rw [sort_rows, if_neg hkeys]
    exact stable_sort_eq hcomparable
  constructor
  · rintro ⟨out, hout, hsorted⟩
    cases hsort.symm.trans hout
    refine ⟨hkeys, fun a ha b hb hclash => ?_⟩
    rcases lexicographic_opposite hclash with ⟨hk, hc⟩ | ⟨hk, hc⟩
    · exact hsorted.not_opposite hstable ha hb hk hc
    · exact hstable.not_opposite hsorted ha hb hc hk
  · rintro ⟨-, hclean⟩
    exact ⟨_, hsort, hstable.congr fun a ha b hb => (lexicographic_agree (hclean a ha b hb)).symm⟩

/-- Both directions beside NULLs that earlier keys tell apart. -/
theorem order_by_two_keys :
    ∃ out, sort_rows [⟨0, true⟩, ⟨1, false⟩] [[.int64 2, .null], [.int64 1, .bool false], [.int64 1, .bool true]] = .ok out ∧
      StableSorted (lexicographic key_order [⟨0, true⟩, ⟨1, false⟩])
        [[.int64 2, .null], [.int64 1, .bool false], [.int64 1, .bool true]] out := by
  refine (order_by_iff ?_).mpr (by decide)
  intro key hkey
  rcases mem_cons.mp hkey with rfl | hkey
  · exact ⟨.kInt64, by decide⟩
  · rw [mem_singleton.mp hkey]
    exact ⟨.kBool, by decide⟩

/-- `ORDER BY` on one DESC column puts its NULL first. -/
theorem order_by_desc_null :
    Sortable [⟨0, false⟩] [[.int64 1], [.null]] ∧
      sort_rows [⟨0, false⟩] [[.int64 1], [.null]] = .ok [[.null], [.int64 1]] ∧
      ¬ StableSorted (lexicographic key_order [⟨0, false⟩]) [[.int64 1], [.null]] [[.null], [.int64 1]] := by
  have hsortable : Sortable [⟨0, false⟩] [[.int64 1], [.null]] := by
    intro key hkey
    rw [mem_singleton.mp hkey]
    exact ⟨.kInt64, by decide⟩
  refine ⟨hsortable, by decide, fun hsorted => ?_⟩
  have hordered := hsorted.pairwise
  exact absurd hordered (by decide)

end reldb
