import LsmKv.Lib.Ordered
import LsmKv.SkipList

open linked (Linked)
open ordered (TotalOn Increasing below above)

namespace lsmkv.SkipList

open List Option

variable {α : Type} {list : SkipList α} {order : List Nat}

def height (list : SkipList α) (x : Nat) : Nat := ((list.nodes[x]?).map fun n => n.next.length).getD 0

/-- The nodes that are high enough for a level. -/
def onLevel (list : SkipList α) (order : List Nat) (level : Nat) : List Nat :=
  order.filter fun x => decide (level < list.height x)

/-- All nodes but the head are linked on each of their levels in one common order. -/
structure Shaped (list : SkipList α) (order : List Nat) : Prop where
  mem : ∀ x, x ∈ order ↔ x ≠ 0 ∧ x < list.nodes.length
  nodup : order.Nodup
  head : list.height 0 = kMaxHeight
  heights : ∀ x ∈ order, 1 ≤ list.height x ∧ list.height x ≤ list.max_height
  max_pos : 1 ≤ list.max_height
  max_le : list.max_height ≤ kMaxHeight
  linked : ∀ level < kMaxHeight, Linked (list.next · level) 0 (list.onLevel order level)
  size : list.size = order.length

theorem onLevel_append (order order' : List Nat) (level : Nat) :
    list.onLevel (order ++ order') level = list.onLevel order level ++ list.onLevel order' level := filter_append ..

theorem onLevel_cons {x level : Nat} (hx : level < list.height x) (order : List Nat) :
    list.onLevel (x :: order) level = x :: list.onLevel order level := by
  rw [onLevel, filter_cons_of_pos (by simpa using hx), onLevel]

namespace Shaped

theorem onLevel_zero (h : Shaped list order) {part : List Nat} (hpart : part ⊆ order) : list.onLevel part 0 = part := by
  refine filter_eq_self.mpr fun x hx => decide_eq_true ?_
  exact (h.heights x (hpart hx)).1

theorem length_le (h : Shaped list order) : order.length ≤ list.nodes.length := by
  have hle := (h.nodup.subperm fun x hx => mem_range.mpr ((h.mem x).mp hx).2).length_le
  rwa [length_range] at hle

/-- From a node on the pointers of a level lead through the nodes after it. -/
theorem linked_from (h : Shaped list order) {pre post : List Nat} {x level : Nat} (horder : order = pre ++ x :: post)
    (hlevel : level < list.height x) : Linked (list.next · level) x (list.onLevel post level) := by
  have hx := (h.heights x (by rw [horder]; simp)).2
  have hlinked := h.linked level ((hlevel.trans_le hx).trans_le h.max_le)
  rw [horder, onLevel_append, onLevel_cons hlevel] at hlinked
  exact hlinked.suffix

end Shaped

section Find

variable [Inhabited α] (cmp : α → α → Ordering) (k : α)

/-- The key of a node, whatever there is in its place. -/
def keyAt (list : SkipList α) (x : Nat) : α := (list.key x).getD default

/-- The keys of some nodes. -/
def keys (list : SkipList α) (order : List Nat) : List α := order.map list.keyAt

/-- The nodes with lesser keys, and the others. -/
def before (list : SkipList α) (order : List Nat) : List Nat := order.takeWhile fun x => decide (cmp (list.keyAt x) k = .lt)

def behind (list : SkipList α) (order : List Nat) : List Nat := order.dropWhile fun x => decide (cmp (list.keyAt x) k = .lt)

/-- The last node of a level whose key is less, or the head. -/
def pred (list : SkipList α) (order : List Nat) (level : Nat) : Nat :=
  (list.onLevel (list.before cmp k order) level).getLastD 0

variable {cmp k}

variable {x level : Nat} {rest : List Nat}

theorem Shaped.key_eq (h : Shaped list order) (hx : x ∈ order) : list.key x = some (list.keyAt x) := by
  have hlt := ((h.mem x).mp hx).2
  rw [keyAt, key, List.getElem?_eq_getElem hlt]
  rfl

theorem before_append_behind (order : List Nat) : list.before cmp k order ++ list.behind cmp k order = order :=
  takeWhile_append_dropWhile

theorem keys_before (order : List Nat) : list.keys (list.before cmp k order) = below cmp k (list.keys order) := by
  rw [keys, before, keys, below, takeWhile_map]
  rfl

theorem keys_behind (order : List Nat) : list.keys (list.behind cmp k order) = above cmp k (list.keys order) := by
  rw [keys, behind, keys, above, dropWhile_map]
  rfl

theorem lt_of_mem_before (hx : x ∈ list.before cmp k order) : cmp (list.keyAt x) k = .lt := by
  simpa using mem_takeWhile_imp hx

/-- Where a search stands: at the head, or at a node of its level with a lesser key. `rest`
    are the nodes with lesser keys that come after it. -/
def Standing (cmp : α → α → Ordering) (k : α) (list : SkipList α) (order : List Nat) (x level : Nat) (rest : List Nat) : Prop :=
  (x = 0 ∧ rest = list.before cmp k order) ∨
    ∃ pre, list.before cmp k order = pre ++ x :: rest ∧ level < list.height x

theorem Standing.linked (h : Shaped list order)
    (hstanding : Standing cmp k list order x level rest) (hlevel : level < kMaxHeight) :
    Linked (list.next · level) x (list.onLevel rest level ++ list.onLevel (list.behind cmp k order) level) := by
  rw [← onLevel_append]
  rcases hstanding with ⟨rfl, rfl⟩ | ⟨pre, hbefore, hheight⟩
  · rw [before_append_behind]
    exact h.linked level hlevel
  · have hsplit : list.before cmp k order ++ list.behind cmp k order = order := before_append_behind order
    rw [hbefore, append_assoc] at hsplit
    exact h.linked_from hsplit.symm hheight

/-- A step to the next node of the level. -/
theorem Standing.step {y : Nat} {ys : List Nat} (hstanding : Standing cmp k list order x level rest)
    (hrest : list.onLevel rest level = y :: ys) : y ∈ list.before cmp k order ∧
      ∃ rest', rest'.length < rest.length ∧ Standing cmp k list order y level rest' := by
  obtain ⟨skipped, rest', rfl, -, hy, -⟩ := filter_eq_cons_iff.mp hrest
  have hheight : level < list.height y := by simpa using hy
  have hlength : rest'.length < (skipped ++ y :: rest').length := by
    simp only [length_append, length_cons]
    omega
  rcases hstanding with ⟨rfl, hbefore⟩ | ⟨pre, hbefore, -⟩
  · exact ⟨by rw [← hbefore]; simp, rest', hlength, .inr ⟨skipped, hbefore.symm, hheight⟩⟩
  · refine ⟨by rw [hbefore]; simp, rest', hlength, .inr ⟨pre ++ x :: skipped, ?_, hheight⟩⟩
    rw [hbefore]
    simp

/-- At the end of the lesser keys on a level. -/
theorem Standing.pred_eq (hstanding : Standing cmp k list order x level rest)
    (hrest : list.onLevel rest level = []) : list.pred cmp k order level = x := by
  rcases hstanding with ⟨rfl, rfl⟩ | ⟨pre, hbefore, hheight⟩
  · rw [pred, hrest]
    rfl
  · rw [pred, hbefore, onLevel_append, onLevel_cons hheight, hrest]
    simp

theorem Standing.down (hstanding : Standing cmp k list order x (level + 1) rest) :
    Standing cmp k list order x level rest := by
  rcases hstanding with hhead | ⟨pre, hbefore, hheight⟩
  · exact .inl hhead
  · exact .inr ⟨pre, hbefore, by omega⟩

/-- The search ends at the first node whose key is not less, with the predecessors on
    all levels from its own down. -/
theorem find_loop_eq (h : Shaped list order) (hnot : ∀ y ∈ list.behind cmp k order, cmp (list.keyAt y) k ≠ .lt)
    {fuel : Nat} (hstanding : Standing cmp k list order x level rest)
    (hlevel : level < kMaxHeight) (hfuel : rest.length + level < fuel) (prev : List Nat) :
    list.find_loop cmp k fuel x level prev =
      some ((list.behind cmp k order).head?, (List.range (level + 1)).map (list.pred cmp k order) ++ prev) := by
  have hsub : list.behind cmp k order ⊆ order := (dropWhile_sublist _).subset
  induction fuel generalizing x level rest prev with
  | zero => exact absurd hfuel (Nat.not_lt_zero _)
  | succ fuel ih =>
    have hnext := (hstanding.linked h hlevel).head
    rw [find_loop, hnext]
    dsimp only
    cases hrest : list.onLevel rest level with
    | cons y ys =>
      obtain ⟨hy, rest', hlength, hnew⟩ := hstanding.step hrest
      have hkey := h.key_eq ((takeWhile_sublist _).subset hy)
      rw [cons_append, List.head?_cons, ahead, hkey, map_some, if_pos (lt_of_mem_before hy)]
      exact ih hnew hlevel (by omega) prev
    | nil =>
      have hahead : list.ahead cmp k (list.onLevel (list.behind cmp k order) level).head? = some none := by
        cases hhead : (list.onLevel (list.behind cmp k order) level).head? with
        | none => rfl
        | some z =>
          have hz : z ∈ list.behind cmp k order := mem_of_mem_filter (mem_of_mem_head? hhead)
          rw [ahead, h.key_eq (hsub hz), map_some, if_neg (hnot z hz)]
      rw [nil_append, hahead]
      dsimp only
      have hpred := hstanding.pred_eq hrest
      cases level with
      | zero =>
        rw [h.onLevel_zero hsub, range_one, map_singleton, hpred]
        rfl
      | succ level =>
        dsimp only
        rw [ih hstanding.down (by omega) (by omega) (x :: prev), range_succ (n := level + 1), map_append,
          map_singleton, hpred, append_assoc]
        rfl

/-- The search of a list whose keys are in order. -/
theorem find_greater_or_equal_eq {P : α → Prop} (h : Shaped list order) (htotal : TotalOn P cmp)
    (hkeys : ∀ x ∈ list.keys order, P x) (hk : P k) (hinc : Increasing cmp (list.keys order)) :
    list.find_greater_or_equal cmp k =
      some ((list.behind cmp k order).head?, (List.range list.max_height).map (list.pred cmp k order)) := by
  have hnot : ∀ y ∈ list.behind cmp k order, cmp (list.keyAt y) k ≠ .lt := by
    intro y hy
    refine ordered.not_lt_of_mem_above htotal hkeys hk hinc ?_
    rw [← keys_behind]
    exact List.mem_map_of_mem hy
  have hlength : (list.before cmp k order).length ≤ list.nodes.length :=
    ((takeWhile_sublist _).length_le).trans h.length_le
  have hpos := h.max_pos
  have hle := h.max_le
  rw [find_greater_or_equal, find_loop_eq h hnot (.inl ⟨rfl, rfl⟩) (by omega) (by omega), append_nil,
    Nat.sub_add_cancel hpos]

/-- Whatever the comparison says, a search ends, and at a node of the list or at none. -/
theorem find_loop_ends (h : Shaped list order) {fuel : Nat}
    (hat : (x = 0 ∧ rest = order) ∨ ∃ pre, order = pre ++ x :: rest ∧ level < list.height x)
    (hlevel : level < kMaxHeight) (hfuel : rest.length + level < fuel) (prev : List Nat) :
    ∃ found prev', list.find_loop cmp k fuel x level prev = some (found, prev') ∧ ∀ y ∈ found, y ∈ order := by
  have hrest : rest ⊆ order := by
    rcases hat with ⟨-, rfl⟩ | ⟨pre, rfl, -⟩
    · exact List.Subset.refl _
    · exact fun y hy => mem_append_right _ (mem_cons_of_mem _ hy)
  induction fuel generalizing x level rest prev with
  | zero => exact absurd hfuel (Nat.not_lt_zero _)
  | succ fuel ih =>
    have hlinked : Linked (list.next · level) x (list.onLevel rest level) := by
      rcases hat with ⟨rfl, rfl⟩ | ⟨pre, horder, hheight⟩
      · exact h.linked level hlevel
      · exact h.linked_from horder hheight
    have hmem : ∀ y ∈ (list.onLevel rest level).head?, y ∈ order := fun y hy =>
      hrest (mem_of_mem_filter (mem_of_mem_head? hy))
    rw [find_loop, hlinked.head]
    dsimp only
    have hahead : list.ahead cmp k (list.onLevel rest level).head? = some none ∨
        ∃ y ys, list.onLevel rest level = y :: ys ∧ list.ahead cmp k (list.onLevel rest level).head? = some (some y) := by
      cases hlist : list.onLevel rest level with
      | nil => exact .inl rfl
      | cons y ys =>
        have hy := h.key_eq (hmem y (by rw [hlist]; rfl))
        rw [List.head?_cons, ahead, hy, map_some]
        split
        · exact .inr ⟨y, ys, rfl, rfl⟩
        · exact .inl rfl
    rcases hahead with hstop | ⟨y, ys, hlist, hgo⟩
    · rw [hstop]
      cases level with
      | zero => exact ⟨_, _, rfl, hmem⟩
      | succ level =>
        have hdown : (x = 0 ∧ rest = order) ∨ ∃ pre, order = pre ++ x :: rest ∧ level < list.height x := by
          rcases hat with hhead | ⟨pre, horder, hheight⟩
          · exact .inl hhead
          · exact .inr ⟨pre, horder, by omega⟩
        exact ih hdown (by omega) (by omega) (x :: prev) hrest
    · rw [hgo]
      obtain ⟨skipped, rest', rfl, -, hy, -⟩ := filter_eq_cons_iff.mp hlist
      have hheight : level < list.height y := by simpa using hy
      have hlength : rest'.length < (skipped ++ y :: rest').length := by
        simp only [length_append, length_cons]
        omega
      have hstep : ∃ pre, order = pre ++ y :: rest' ∧ level < list.height y := by
        rcases hat with ⟨rfl, hall⟩ | ⟨pre, horder, -⟩
        · exact ⟨skipped, hall.symm, hheight⟩
        · exact ⟨pre ++ x :: skipped, by simp [horder], hheight⟩
      exact ih (.inr hstep) hlevel (by omega) prev fun z hz => hrest (by simp [hz])

theorem find_greater_or_equal_ends (h : Shaped list order) :
    ∃ found prev, list.find_greater_or_equal cmp k = some (found, prev) ∧ ∀ y ∈ found, y ∈ order := by
  have hlength := h.length_le
  have hpos := h.max_pos
  have hle := h.max_le
  exact find_loop_ends h (.inl ⟨rfl, rfl⟩) (by omega) (by omega) []

end Find

end lsmkv.SkipList
