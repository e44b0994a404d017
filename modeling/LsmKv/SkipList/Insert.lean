import LsmKv.SkipList.Search

open linked (Linked)
open ordered (TotalOn Increasing below above put)

namespace lsmkv.SkipList

open List Option

variable {α : Type} {list list' list'' : SkipList α} {order : List Nat}

/-- Two lists that differ in pointers only. -/
structure Rewired (list list' : SkipList α) : Prop where
  length : list'.nodes.length = list.nodes.length
  key : ∀ x, list'.key x = list.key x
  height : ∀ x, list'.height x = list.height x
  max_height : list'.max_height = list.max_height
  size : list'.size = list.size

theorem Rewired.refl (list : SkipList α) : Rewired list list := ⟨rfl, fun _ => rfl, fun _ => rfl, rfl, rfl⟩

theorem Rewired.trans (h : Rewired list list') (h' : Rewired list' list'') : Rewired list list'' :=
  ⟨h'.length.trans h.length, fun x => (h'.key x).trans (h.key x), fun x => (h'.height x).trans (h.height x),
    h'.max_height.trans h.max_height, h'.size.trans h.size⟩

variable {x level : Nat}

theorem lt_length_of_lt_height (h : level < list.height x) : x < list.nodes.length := by
  by_contra hnot
  rw [height, List.getElem?_eq_none (not_lt.mp hnot)] at h
  exact absurd h (Nat.not_lt_zero _)

/-- A pointer can be read exactly below the height of its node. -/
theorem next_isSome_iff : (list.next x level).isSome = true ↔ level < list.height x := by
  rw [next, height]
  cases list.nodes[x]? with
  | none => simp
  | some n => simp

theorem set_next_some (hlevel : level < list.height x) (target : Option Nat) :
    ∃ list', list.set_next x level target = some list' ∧ Rewired list list' ∧
      ∀ y l, list'.next y l = if y = x ∧ l = level then some target else list.next y l := by
  have hx := lt_length_of_lt_height hlevel
  have hnode := List.getElem?_eq_getElem hx
  rw [height, hnode, map_some, getD_some] at hlevel
  refine ⟨{ list with nodes := list.nodes.set x { list.nodes[x] with next := list.nodes[x].next.set level target } }, ?_, ?_, ?_⟩
  · rw [set_next, hnode, bind_some, if_pos hlevel]
  · refine ⟨length_set, fun y => ?_, fun y => ?_, rfl, rfl⟩
    · rw [key, key, List.getElem?_set]
      by_cases hy : x = y
      · subst hy
        simp [hx]
      · simp [hy]
    · rw [height, height, List.getElem?_set]
      by_cases hy : x = y
      · subst hy
        simp [hx]
      · simp [hy]
  · intro y l
    rw [next, next, List.getElem?_set]
    by_cases hy : x = y
    · subst hy
      rw [if_pos rfl, if_pos hx, hnode]
      simp only [bind_some, List.getElem?_set, true_and]
      by_cases hl : level = l
      · subst hl
        simp [hlevel]
      · simp [hl, Ne.symm hl]
    · rw [if_neg hy, if_neg fun h => hy h.1.symm]

/-- The pointers after a node has been put behind its predecessors, from a level on. -/
theorem link_some {prev : List Nat} (hheight : level + prev.length ≤ list.height x)
    (hprev : ∀ i p, prev[i]? = some p → p ≠ x ∧ level + i < list.height p) :
    ∃ list', link x level prev list = some list' ∧ Rewired list list' ∧
      (∀ y l, l < level ∨ level + prev.length ≤ l → list'.next y l = list.next y l) ∧
      ∀ i p, prev[i]? = some p → ∀ y, list'.next y (level + i) =
        if y = p then some (some x) else if y = x then list.next p (level + i) else list.next y (level + i) := by
  induction prev generalizing level list with
  | nil => exact ⟨list, rfl, Rewired.refl list, fun _ _ _ => rfl, by rintro i p ⟨⟩⟩
  | cons p prev ih =>
    rw [length_cons] at hheight
    obtain ⟨hne, hlt⟩ := hprev 0 p rfl
    rw [Nat.add_zero] at hlt
    obtain ⟨target, htarget⟩ := isSome_iff_exists.mp (next_isSome_iff.mpr hlt)
    have hltx : level < list.height x := by omega
    obtain ⟨list₁, hset₁, hsame₁, hnext₁⟩ := set_next_some hltx target
    have hlt₁ : level < list₁.height p := by rwa [hsame₁.height]
    obtain ⟨list₂, hset₂, hsame₂, hnext₂⟩ := set_next_some hlt₁ (some x)
    have hsame := hsame₁.trans hsame₂
    have hheight₂ : level + 1 + prev.length ≤ list₂.height x := by
      rw [hsame.height]
      omega
    have hprev₂ : ∀ i q, prev[i]? = some q → q ≠ x ∧ level + 1 + i < list₂.height q := by
      intro i q hq
      obtain ⟨hqx, hql⟩ := hprev (i + 1) q hq
      rw [hsame.height]
      exact ⟨hqx, by omega⟩
    obtain ⟨list₃, hlink, hsame₃, hother, hnext₃⟩ := ih hheight₂ hprev₂
    have hnext : ∀ y l, l ≠ level → list₂.next y l = list.next y l := by
      intro y l hl
      rw [hnext₂, if_neg fun h => hl h.2, hnext₁, if_neg fun h => hl h.2]
    refine ⟨list₃, ?_, hsame.trans hsame₃, ?_, ?_⟩
    · rw [link, htarget, bind_some, hset₁, bind_some, hset₂, bind_some, hlink]
    · intro y l hl
      rw [length_cons] at hl
      rw [hother y l (by omega), hnext y l (by omega)]
    · intro i q hq y
      cases i with
      | zero =>
        cases hq
        rw [Nat.add_zero, hother y level (.inl (Nat.lt_succ_self _)), hnext₂, hnext₁, htarget]
        simp only [and_true]
      | succ i =>
        rw [show level + (i + 1) = level + 1 + i by omega, hnext₃ i q hq y, hnext y _ (by omega), hnext q _ (by omega)]

/-- The list with a new node that no pointer leads to yet. -/
def grown (list : SkipList α) (key : α) (height : Nat) : SkipList α :=
  { list with nodes := list.nodes ++ [new_node key height], max_height := max list.max_height height, size := list.size + 1 }

section Grown

variable {k : α} {height : Nat}

theorem grown_node {x : Nat} (hx : x ≠ list.nodes.length) : (list.grown k height).nodes[x]? = list.nodes[x]? := by
  rcases lt_or_gt_of_ne hx with hlt | hgt
  · exact List.getElem?_append_left hlt
  · rw [List.getElem?_eq_none (by simp [grown]; omega), List.getElem?_eq_none hgt.le]

theorem grown_new : (list.grown k height).nodes[list.nodes.length]? = some (new_node k height) := by
  simp [grown]

theorem grown_height {x : Nat} (hx : x ≠ list.nodes.length) : (list.grown k height).height x = list.height x := by
  rw [SkipList.height, SkipList.height, grown_node hx]

theorem grown_height_new : (list.grown k height).height list.nodes.length = height := by
  rw [SkipList.height, grown_new, map_some, getD_some, new_node, length_replicate]

theorem grown_next {x : Nat} (hx : x ≠ list.nodes.length) (level : Nat) :
    (list.grown k height).next x level = list.next x level := by
  rw [next, next, grown_node hx]

end Grown

section Shape

variable {k : α} {height : Nat}

namespace Shaped

section

variable (h : Shaped list order)

include h

theorem length_not_mem : list.nodes.length ∉ order := fun hmem =>
  absurd ((h.mem _).mp hmem).2 (lt_irrefl _)

theorem zero_not_mem : 0 ∉ order := fun hmem => ((h.mem _).mp hmem).1 rfl

theorem length_pos : 0 < list.nodes.length := by
  have hhead : 0 < list.height 0 := by
    rw [h.head]
    decide
  exact lt_length_of_lt_height hhead

theorem nodup_onLevel (level : Nat) : (0 :: list.onLevel order level).Nodup :=
  nodup_cons.mpr ⟨fun hmem => h.zero_not_mem (mem_of_mem_filter hmem), h.nodup.filter _⟩

/-- The new node is in no chain. -/
theorem new_not_mem (level : Nat) : list.nodes.length ∉ 0 :: list.onLevel order level := by
  intro hmem
  rcases mem_cons.mp hmem with hzero | hmem
  · exact h.length_pos.ne' hzero
  · exact h.length_not_mem (mem_of_mem_filter hmem)

/-- The old nodes of a list that has a new one are as high as before. -/
theorem onLevel_grown (hsame : Rewired (list.grown k height) list') {part : List Nat} (hpart : part ⊆ order)
    (level : Nat) : list'.onLevel part level = list.onLevel part level := by
  refine filter_congr fun x hx => ?_
  have hne : x ≠ list.nodes.length := fun heq => h.length_not_mem (heq ▸ hpart hx)
  rw [hsame.height, grown_height hne]

/-- The shape of the list once the pointers of all levels are right. -/
theorem of_grown (hpos : 1 ≤ height) (hmax : height ≤ kMaxHeight) (hsame : Rewired (list.grown k height) list')
    {as bs : List Nat} (horder : as ++ bs = order)
    (hlinked : ∀ level < kMaxHeight, Linked (list'.next · level) 0 (list'.onLevel (as ++ list.nodes.length :: bs) level)) :
    Shaped list' (as ++ list.nodes.length :: bs) := by
  have hlength : list'.nodes.length = list.nodes.length + 1 := by
    rw [hsame.length]
    simp [grown]
  have hmem : ∀ x, x ∈ as ++ list.nodes.length :: bs ↔ x = list.nodes.length ∨ x ∈ order := by
    intro x
    rw [← horder]
    simp only [mem_append, mem_cons]
    tauto
  have hne : ∀ x ∈ order, x ≠ list.nodes.length := fun x hx heq => h.length_not_mem (heq ▸ hx)
  refine ⟨fun x => ?_, ?_, ?_, fun x hx => ?_, ?_, ?_, hlinked, ?_⟩
  · rw [hmem, h.mem, hlength]
    have := h.length_pos
    omega
  · refine nodup_middle.mpr (nodup_cons.mpr ⟨?_, ?_⟩) <;> rw [horder]
    · exact h.length_not_mem
    · exact h.nodup
  · rw [hsame.height, grown_height h.length_pos.ne, h.head]
  · rw [hsame.height, hsame.max_height]
    rcases (hmem x).mp hx with rfl | hx
    · rw [grown_height_new]
      exact ⟨hpos, le_max_right _ _⟩
    · rw [grown_height (hne x hx)]
      exact ⟨(h.heights x hx).1, (h.heights x hx).2.trans (le_max_left _ _)⟩
  · rw [hsame.max_height]
    exact h.max_pos.trans (le_max_left _ _)
  · rw [hsame.max_height]
    exact Nat.max_le.mpr ⟨h.max_le, hmax⟩
  · rw [hsame.size, grown, length_append, length_cons, ← Nat.add_assoc, ← length_append, horder, h.size]

end

end Shaped

end Shape

section Insert

variable [Inhabited α] {cmp : α → α → Ordering} {k : α} {height : Nat}

namespace Shaped

section

variable (h : Shaped list order)

include h

theorem pred_mem {level : Nat} (hlevel : level < kMaxHeight) :
    list.pred cmp k order level ≠ list.nodes.length ∧ level < list.height (list.pred cmp k order level) := by
  have hmem : list.pred cmp k order level ∈ 0 :: list.onLevel (list.before cmp k order) level := getLastD_mem_cons
  rcases mem_cons.mp hmem with hzero | hmem
  · rw [hzero, h.head]
    exact ⟨h.length_pos.ne, hlevel⟩
  · obtain ⟨hbefore, hlevel⟩ := mem_filter.mp hmem
    refine ⟨fun heq => h.length_not_mem (heq ▸ (takeWhile_sublist _).subset hbefore), by simpa using hlevel⟩

/-- Above all nodes the predecessor is the head. -/
theorem pred_eq_zero {level : Nat} (hlevel : list.max_height ≤ level) :
    list.pred cmp k order level = 0 := by
  have hnone : list.onLevel (list.before cmp k order) level = [] := by
    refine filter_eq_nil_iff.mpr fun x hx => ?_
    have hle := (h.heights x ((takeWhile_sublist _).subset hx)).2
    simp only [decide_eq_true_eq]
    omega
  rw [pred, hnone]
  rfl

theorem prev_eq (height : Nat) :
    ((List.range list.max_height).map (list.pred cmp k order) ++ List.replicate (height - list.max_height) 0).take height =
      (List.range height).map (list.pred cmp k order) := by
  refine ext_getElem (by simp; omega) fun i hi hi' => ?_
  simp only [length_map, length_range] at hi'
  rw [getElem_take, getElem_map, getElem_range]
  by_cases hlt : i < list.max_height
  · rw [getElem_append_left (by simpa using hlt), getElem_map, getElem_range]
  · rw [getElem_append_right (by simpa using hlt), getElem_replicate, h.pred_eq_zero (not_lt.mp hlt)]

/-- A new node between those with lesser keys and the others. -/
theorem insert_node (hpos : 1 ≤ height) (hmax : height ≤ kMaxHeight) :
    ∃ list', list.insert_node k ((List.range list.max_height).map (list.pred cmp k order)) height = some list' ∧
      Shaped list' (list.before cmp k order ++ list.nodes.length :: list.behind cmp k order) ∧
      list'.keys (list.before cmp k order ++ list.nodes.length :: list.behind cmp k order) =
        list.keys (list.before cmp k order) ++ k :: list.keys (list.behind cmp k order) := by
  have hsplit : list.before cmp k order ++ list.behind cmp k order = order := before_append_behind order
  have hbefore : list.before cmp k order ⊆ order := (takeWhile_sublist _).subset
  have hbehind : list.behind cmp k order ⊆ order := (dropWhile_sublist _).subset
  have hroom : 0 + ((List.range height).map (list.pred cmp k order)).length ≤
      (list.grown k height).height list.nodes.length := by
    rw [grown_height_new]
    simp
  have hprev : ∀ i p, ((List.range height).map (list.pred cmp k order))[i]? = some p →
      p ≠ list.nodes.length ∧ 0 + i < (list.grown k height).height p := by
    intro i p hp
    obtain ⟨hlt, rfl⟩ := List.getElem?_eq_some_iff.mp hp
    rw [length_map, length_range] at hlt
    rw [getElem_map, getElem_range]
    obtain ⟨hne, hheight⟩ := @pred_mem _ _ _ _ cmp k h i (hlt.trans_le hmax)
    rw [grown_height hne, Nat.zero_add]
    exact ⟨hne, hheight⟩
  obtain ⟨list', hlink, hsame, hother, hnext⟩ := link_some hroom hprev
  refine ⟨list', ?_, h.of_grown hpos hmax hsame hsplit fun level hlevel => ?_, ?_⟩
  · rw [SkipList.insert_node, h.prev_eq]
    exact hlink
  · have hlinked := h.linked level hlevel
    rw [onLevel_append]
    by_cases hlt : level < height
    · have hnew : level < list'.height list.nodes.length := by
        rw [hsame.height, grown_height_new]
        exact hlt
      have hnext := hnext level (list.pred cmp k order level) (by simp [hlt])
      rw [Nat.zero_add] at hnext
      obtain ⟨hne, -⟩ := @pred_mem _ _ _ _ cmp k h level hlevel
      rw [onLevel_cons hnew, h.onLevel_grown hsame hbefore, h.onLevel_grown hsame hbehind]
      rw [← hsplit, onLevel_append] at hlinked
      refine hlinked.splice ?_ ?_ ((hnext _).trans (if_pos rfl)) ?_ fun y hy hpred => ?_
      · rw [← onLevel_append, hsplit]
        exact h.nodup_onLevel level
      · rw [← onLevel_append, hsplit]
        exact h.new_not_mem level
      · refine (hnext _).trans ?_
        rw [if_neg (Ne.symm hne), if_pos rfl, grown_next hne]
        rfl
      · change y ≠ list.pred cmp k order level at hpred
        refine (hnext y).trans ?_
        rw [if_neg hpred, if_neg hy, grown_next hy]
    · have hnew : ¬ level < list'.height list.nodes.length := by
        rw [hsame.height, grown_height_new]
        exact hlt
      rw [onLevel, onLevel, filter_cons_of_neg (by simpa using hnew), ← filter_append, hsplit]
      rw [show order.filter (fun x => decide (level < list'.height x)) = _ from h.onLevel_grown hsame (List.Subset.refl _) level]
      refine hlinked.congr fun y hy => ?_
      have hy : y ≠ list.nodes.length := fun heq => h.new_not_mem level (heq ▸ hy)
      have hlength : 0 + ((List.range height).map (list.pred cmp k order)).length ≤ level := by
        rw [length_map, length_range]
        omega
      exact (hother y level (.inr hlength)).trans (grown_next hy level)
  · have hold : ∀ x ∈ order, list'.keyAt x = list.keyAt x := by
      intro x hx
      have hne : x ≠ list.nodes.length := fun heq => h.length_not_mem (heq ▸ hx)
      rw [keyAt, keyAt, hsame.key, key, key, grown_node hne]
    have hnew : list'.keyAt list.nodes.length = k := by
      rw [keyAt, hsame.key, key, grown_new]
      rfl
    rw [keys, map_append, map_cons, hnew, keys, keys, map_congr_left fun x hx => hold x (hbefore hx),
      map_congr_left fun x hx => hold x (hbehind hx)]

/-- A node gets another key; the pointers stay. -/
theorem set_key (x : Nat) (k : α) :
    Shaped (list.set_key x k) order ∧ ∀ y ∈ order, (list.set_key x k).keyAt y = if y = x then k else list.keyAt y := by
  have hnode : ∀ y, (list.set_key x k).nodes[y]? =
      (list.nodes[y]?).map fun n => if x = y then { n with key := k } else n := fun y => List.getElem?_modify ..
  have hheight : ∀ y, (list.set_key x k).height y = list.height y := by
    intro y
    rw [SkipList.height, SkipList.height, hnode]
    cases list.nodes[y]? with
    | none => rfl
    | some n => by_cases hy : x = y <;> simp [hy]
  have hnext : ∀ y level, (list.set_key x k).next y level = list.next y level := by
    intro y level
    rw [next, next, hnode]
    cases list.nodes[y]? with
    | none => rfl
    | some n => by_cases hy : x = y <;> simp [hy]
  have hlength : (list.set_key x k).nodes.length = list.nodes.length := length_modify ..
  refine ⟨⟨fun y => ?_, h.nodup, ?_, fun y hy => ?_, h.max_pos, h.max_le, fun level hlevel => ?_, h.size⟩, fun y hy => ?_⟩
  · rw [hlength]
    exact h.mem y
  · rw [hheight]
    exact h.head
  · rw [hheight]
    exact h.heights y hy
  · have hsame : (list.set_key x k).onLevel order level = list.onLevel order level :=
      filter_congr fun y _ => by rw [hheight]
    rw [hsame]
    exact (h.linked level hlevel).congr fun y _ => hnext y level
  · have hlt := ((h.mem y).mp hy).2
    rw [keyAt, keyAt, key, key, hnode, List.getElem?_eq_getElem hlt]
    by_cases hx : y = x
    · simp [hx]
    · simp [hx, Ne.symm hx]

/-- `Insert` puts the key among the others. -/
theorem insert_at {P : α → Prop} (htotal : TotalOn P cmp) (hkeys : ∀ x ∈ list.keys order, P x) (hk : P k)
    (hinc : Increasing cmp (list.keys order)) {drawn : Nat × UInt32} (hpos : 1 ≤ drawn.1)
    (hmax : drawn.1 ≤ kMaxHeight) :
    ∃ list' order', list.insert_at cmp k drawn = some list' ∧ Shaped list' order' ∧
      list'.keys order' = put cmp k (list.keys order) := by
  have hfind := find_greater_or_equal_eq h htotal hkeys hk hinc
  have habove := @keys_behind _ list _ cmp k order
  have hbelow := @keys_before _ list _ cmp k order
  have hdrawn : Shaped { list with rnd := drawn.2 } order :=
    ⟨h.mem, h.nodup, h.head, h.heights, h.max_pos, h.max_le, h.linked, h.size⟩
  obtain ⟨list₁, hinsert, hshaped, hkeys₁⟩ := @insert_node _ _ _ _ cmp k _ hdrawn hpos hmax
  change _ = list.keys (list.before cmp k order) ++ k :: list.keys (list.behind cmp k order) at hkeys₁
  rw [hbelow, habove] at hkeys₁
  rw [SkipList.insert_at, hfind, bind_some]
  cases hbehind : list.behind cmp k order with
  | nil =>
    refine ⟨list₁, _, hinsert, hshaped, ?_⟩
    rw [hbehind] at habove
    rw [hkeys₁, ordered.put_of_nil habove.symm, ← habove]
    rfl
  | cons x xs =>
    have hmem : x ∈ list.behind cmp k order := by
      rw [hbehind]
      exact mem_cons_self
    have hx : x ∈ order := (dropWhile_sublist _).subset hmem
    rw [hbehind] at habove
    dsimp only [List.head?_cons]
    rw [equal_node, h.key_eq hx, map_some, bind_some]
    by_cases heq : cmp k (list.keyAt x) = .eq
    · obtain ⟨hsame, hkey⟩ := h.set_key x k
      rw [if_pos heq]
      refine ⟨list.set_key x k, order, rfl, hsame, ?_⟩
      have hsplit : list.before cmp k order ++ x :: xs = order := hbehind ▸ before_append_behind order
      have hnodup : (list.before cmp k order ++ x :: xs).Nodup := by
        rw [hsplit]
        exact h.nodup
      have hother : ∀ y ∈ list.before cmp k order ++ xs, (list.set_key x k).keyAt y = list.keyAt y := by
        intro y hy
        have hne : y ≠ x := fun heq => (nodup_cons.mp (nodup_middle.mp hnodup)).1 (heq ▸ hy)
        have hmem : y ∈ list.before cmp k order ++ x :: xs := by
          rcases mem_append.mp hy with hy | hy
          · exact mem_append_left _ hy
          · exact mem_append_right _ (mem_cons_of_mem _ hy)
        rw [hsplit] at hmem
        rw [hkey y hmem, if_neg hne]
      rw [ordered.put_of_eq habove.symm heq, ← hbelow]
      conv_lhs => rw [← hsplit]
      rw [keys, map_append, map_cons, hkey x hx, if_pos rfl,
        map_congr_left fun y hy => hother y (mem_append_left _ hy),
        map_congr_left fun y hy => hother y (mem_append_right _ hy)]
      rfl
    · rw [if_neg heq]
      refine ⟨list₁, _, hinsert, hshaped, ?_⟩
      rw [hkeys₁, ordered.put_of_ne habove.symm heq]

end

end Shaped

end Insert

end lsmkv.SkipList
