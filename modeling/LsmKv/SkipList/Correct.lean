import LsmKv.SkipList.Insert

open linked (Linked)
open ordered (TotalOn Increasing put LastOf LeastAbove)

namespace lsmkv.SkipList

open List Option

variable {α : Type}

section Random

theorem height_loop_bounds (left height : Nat) (rnd : UInt32) :
    height ≤ (height_loop left height rnd).1 ∧ (height_loop left height rnd).1 ≤ height + left := by
  induction left generalizing height rnd with
  | zero => exact ⟨le_rfl, le_rfl⟩
  | succ left ih =>
    rw [height_loop]
    dsimp only
    split
    · have := ih (height + 1) (random rnd).2
      omega
    · exact ⟨le_rfl, Nat.le_add_right _ _⟩

theorem random_height_bounds (rnd : UInt32) : 1 ≤ (random_height rnd).1 ∧ (random_height rnd).1 ≤ kMaxHeight :=
  height_loop_bounds (kMaxHeight - 1) 1 rnd

/-- Calls of `Insert` draw heights in bounds, whatever the state of `rnd_`: every run of them is
    one of `insert_all`. -/
theorem insert_run (cmp : α → α → Ordering) (list : SkipList α) (keys : List α) :
    ∃ calls : List (α × Nat × UInt32), calls.map Prod.fst = keys ∧
      (∀ call ∈ calls, 1 ≤ call.2.1 ∧ call.2.1 ≤ kMaxHeight) ∧
      keys.foldlM (fun list k => list.insert cmp k) list = list.insert_all cmp calls := by
  induction keys generalizing list with
  | nil => exact ⟨[], rfl, by simp, rfl⟩
  | cons k keys ih =>
    obtain ⟨calls, hkeys, hheights, hrun⟩ := ih ((list.insert cmp k).getD list)
    refine ⟨(k, random_height list.rnd) :: calls, by rw [map_cons, hkeys],
      forall_mem_cons.mpr ⟨random_height_bounds list.rnd, hheights⟩, ?_⟩
    rw [foldlM_cons, SkipList.insert_all]
    show (list.insert cmp k).bind _ = (list.insert cmp k).bind _
    cases hinsert : list.insert cmp k with
    | none => rfl
    | some list' =>
      rw [hinsert] at hrun
      exact hrun

end Random

variable [Inhabited α] {cmp : α → α → Ordering} {list : SkipList α} {order : List Nat}

theorem shaped_empty : Shaped (empty : SkipList α) [] where
  mem x := by
    simp only [not_mem_nil, empty, length_singleton, false_iff]
    omega
  nodup := nodup_nil
  head := rfl
  heights x hx := absurd hx not_mem_nil
  max_pos := le_rfl
  max_le := Nat.one_le_iff_ne_zero.mpr (by decide)
  linked level hlevel := by
    change (empty : SkipList α).next 0 level = some none
    simp only [next, empty, new_node, List.getElem?_cons_zero, bind_some]
    exact List.getElem?_replicate_of_lt hlevel
  size := rfl

variable {P : α → Prop}

theorem Shaped.insert_all (htotal : TotalOn P cmp) {calls : List (α × Nat × UInt32)}
    (hcalls : ∀ call ∈ calls, P call.1 ∧ 1 ≤ call.2.1 ∧ call.2.1 ≤ kMaxHeight) (h : Shaped list order)
    (hkeys : ∀ x ∈ list.keys order, P x) (hinc : Increasing cmp (list.keys order)) :
    ∃ list' order', list.insert_all cmp calls = some list' ∧ Shaped list' order' ∧
      list'.keys order' = (calls.map Prod.fst).foldl (fun keys k => put cmp k keys) (list.keys order) := by
  induction calls generalizing list order with
  | nil => exact ⟨list, order, rfl, h, rfl⟩
  | cons call calls ih =>
    obtain ⟨k, drawn⟩ := call
    obtain ⟨hk, hpos, hmax⟩ := hcalls _ mem_cons_self
    obtain ⟨list₁, order₁, hinsert, hshaped, hkeys₁⟩ := h.insert_at htotal hkeys hk hinc hpos hmax
    have hkeysP : ∀ x ∈ list₁.keys order₁, P x := by
      intro x hx
      rw [hkeys₁, ordered.mem_put htotal hkeys hk hinc] at hx
      rcases hx with rfl | ⟨hx, -⟩
      · exact hk
      · exact hkeys x hx
    have hinc₁ : Increasing cmp (list₁.keys order₁) := hkeys₁ ▸ ordered.increasing_put htotal hkeys hk hinc
    obtain ⟨list', order', hrest, hshaped', hkeys'⟩ :=
      ih (fun call hcall => hcalls call (mem_cons_of_mem _ hcall)) hshaped hkeysP hinc₁
    refine ⟨list', order', ?_, hshaped', ?_⟩
    · rw [SkipList.insert_all, hinsert, bind_some, hrest]
    · rw [hkeys', hkeys₁, map_cons, foldl_cons]

omit [Inhabited α] in
theorem Shaped.level_eq (h : Shaped list order) {level : Nat} (hlevel : level < kMaxHeight) :
    list.level level = some (list.onLevel order level) := by
  refine (h.linked level hlevel).walk_eq ?_
  have hle : (0 :: list.onLevel order level).length ≤ (List.range list.nodes.length).length := by
    refine ((h.nodup_onLevel level).subperm fun x hx => mem_range.mpr ?_).length_le
    rcases mem_cons.mp hx with rfl | hx
    · exact h.length_pos
    · exact ((h.mem x).mp (mem_of_mem_filter hx)).2
  rw [length_range, length_cons] at hle
  exact hle

omit [Inhabited α] in
theorem Shaped.length_eq (h : Shaped list order) : list.nodes.length = order.length + 1 := by
  have hperm : (0 :: order).Perm (List.range list.nodes.length) := by
    refine (perm_ext_iff_of_nodup (nodup_cons.mpr ⟨h.zero_not_mem, h.nodup⟩) nodup_range).mpr fun x => ?_
    rw [mem_cons, h.mem, mem_range]
    have := h.length_pos
    omega
  simpa using hperm.length_eq.symm

/-- A search finds the least key that is not less. -/
theorem Shaped.find_eq {k : α} (h : Shaped list order) (htotal : TotalOn P cmp)
    (hkeys : ∀ x ∈ list.keys order, P x) (hk : P k) (hinc : Increasing cmp (list.keys order)) :
    list.find cmp k = some (ordered.above cmp k (list.keys order)).head? ∧
      ∃ node, list.seek cmp k = some node ∧ node.bind list.key = (ordered.above cmp k (list.keys order)).head? := by
  have hfind := find_greater_or_equal_eq h htotal hkeys hk hinc
  rw [find, seek, hfind, ← keys_behind]
  cases hbehind : list.behind cmp k order with
  | nil => exact ⟨rfl, none, rfl, rfl⟩
  | cons x xs =>
    have hmem : x ∈ list.behind cmp k order := by
      rw [hbehind]
      exact mem_cons_self
    have hkey := h.key_eq ((dropWhile_sublist _).subset hmem)
    refine ⟨?_, some x, rfl, hkey⟩
    dsimp only [bind_some, List.head?_cons]
    rw [hkey]
    rfl

/-- After any inserts at any heights the bottom level has the last key of each class in
    order, each level is a part of the one below, all nodes are counted, and a search
    finds the least key that is not less. The order is assumed to be transitive and total up
    to equal keys; nothing is assumed of the heights but their bounds, which hold of those
    that `Insert` draws (`insert_run`). -/
theorem insert_all_correct (cmp : α → α → Ordering) [Std.TransCmp cmp] (calls : List (α × Nat × UInt32))
    (hheights : ∀ call ∈ calls, 1 ≤ call.2.1 ∧ call.2.1 ≤ kMaxHeight) :
    ∃ list nodes keys, insert_all cmp empty calls = some list ∧
      list.level 0 = some nodes ∧ nodes.map list.key = keys.map some ∧
      keys.Pairwise (fun a b => cmp a b = .lt) ∧ (∀ k, k ∈ keys ↔ LastOf cmp (calls.map Prod.fst) k) ∧
      (∀ level, level + 1 < kMaxHeight → ∃ upper lower,
        list.level (level + 1) = some upper ∧ list.level level = some lower ∧ upper.Sublist lower) ∧
      list.size = nodes.length ∧ list.nodes.length = nodes.length + 1 ∧
      ∀ k, ∃ found node, list.find cmp k = some found ∧ list.seek cmp k = some node ∧ node.bind list.key = found ∧
        LeastAbove cmp keys k found := by
  have htotal := TotalOn.of_trans cmp
  obtain ⟨list, order, hrun, hshaped, hkeys⟩ := shaped_empty.insert_all htotal
    (fun call hcall => ⟨trivial, hheights call hcall⟩) (fun _ _ => trivial) List.Pairwise.nil
  obtain ⟨hinc, hmem⟩ := ordered.putAll htotal (calls.map Prod.fst) fun _ _ => trivial
  have hkeys : list.keys order = (calls.map Prod.fst).foldl (fun keys k => put cmp k keys) [] := hkeys
  rw [← hkeys] at hinc hmem
  have hsub : ∀ level, (list.onLevel order (level + 1)).Sublist (list.onLevel order level) := by
    intro level
    refine monotone_filter_right order fun x hx => ?_
    simp only [decide_eq_true_eq] at hx ⊢
    omega
  refine ⟨list, order, list.keys order, hrun, ?_, ?_, hinc, hmem, fun level hlevel => ?_, hshaped.size, hshaped.length_eq,
    fun k => ?_⟩
  · have hzero : 0 < kMaxHeight := by decide
    rw [hshaped.level_eq hzero, hshaped.onLevel_zero (List.Subset.refl _)]
  · rw [keys, List.map_map]
    exact map_congr_left fun x hx => hshaped.key_eq hx
  · exact ⟨_, _, hshaped.level_eq hlevel, hshaped.level_eq (by omega), hsub level⟩
  · obtain ⟨hfind, node, hseek, hkey⟩ := @Shaped.find_eq _ _ _ _ _ _ k hshaped htotal (fun _ _ => trivial) trivial hinc
    exact ⟨_, node, hfind, hseek, hkey, ordered.leastAbove_head htotal (fun _ _ => trivial) trivial hinc⟩

/-- Four inserts at heights 1, 3, 2 and 5, the last one with a key that is there. -/
theorem insert_all_correct_updated :
    (∀ call ∈ [(6, 1, 0), (2, 3, 0), (4, 2, 0), (6, 5, 0)], 1 ≤ call.2.1 ∧ call.2.1 ≤ kMaxHeight) ∧
      ∃ list nodes keys, insert_all compare empty [(6, 1, 0), (2, 3, 0), (4, 2, 0), (6, 5, 0)] = some list ∧
        list.level 0 = some nodes ∧ nodes.map list.key = keys.map some ∧
        keys.Pairwise (fun a b : Nat => compare a b = .lt) ∧ (∀ k, k ∈ keys ↔ LastOf compare [6, 2, 4, 6] k) ∧
        (∀ level, level + 1 < kMaxHeight → ∃ upper lower,
          list.level (level + 1) = some upper ∧ list.level level = some lower ∧ upper.Sublist lower) ∧
        list.size = nodes.length ∧ list.nodes.length = nodes.length + 1 ∧
        ∀ k, ∃ found node, list.find compare k = some found ∧ list.seek compare k = some node ∧
          node.bind list.key = found ∧ LeastAbove compare keys k found :=
  ⟨by decide, insert_all_correct compare [(6, 1, 0), (2, 3, 0), (4, 2, 0), (6, 5, 0)] (by decide)⟩

end lsmkv.SkipList
