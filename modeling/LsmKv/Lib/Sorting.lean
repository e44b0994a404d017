import Mathlib

namespace sorting

open List

variable {α : Type} (cmp : α → α → Ordering)

/-- `x` goes before the first element that is greater, behind those that are equal. -/
def insert (x : α) : List α → List α
  | [] => [x]
  | y :: l => if cmp x y = .lt then x :: y :: l else y :: insert x l

/-- Insertion of the elements from the first one on. -/
def sort (l : List α) : List α := l.foldl (fun sorted x => insert cmp x sorted) []

/-- Whether one of two elements with positions comes first in a stable arrangement. -/
def Ahead (x y : α × Nat) : Prop := cmp x.1 y.1 = .lt ∨ (cmp x.1 y.1 = .eq ∧ x.2 < y.2)

/-- `out` has the elements of `l` in order, equal ones in the order of `l`. -/
def StableSorted (l out : List α) : Prop :=
  ∃ tagged : List (α × Nat), tagged.Perm l.zipIdx ∧ tagged.map Prod.fst = out ∧ tagged.Pairwise (Ahead cmp)

variable {cmp}

theorem insert_perm (x : α) (l : List α) : (insert cmp x l).Perm (x :: l) := by
  induction l with
  | nil => exact List.Perm.refl _
  | cons y l ih =>
    unfold insert
    split
    · exact List.Perm.refl _
    · exact (ih.cons y).trans (List.Perm.swap x y l)

theorem map_insert {β : Type} (f : β → α) (x : β) (l : List β) :
    (insert (fun a b => cmp (f a) (f b)) x l).map f = insert cmp (f x) (l.map f) := by
  induction l with
  | nil => rfl
  | cons y l ih =>
    rw [map_cons, insert, insert]
    split
    · rfl
    · rw [map_cons, ih]

/-- Sorting is by what is compared. -/
theorem map_foldl_insert {β : Type} (f : β → α) (l sorted : List β) :
    (l.foldl (fun sorted x => insert (fun a b => cmp (f a) (f b)) x sorted) sorted).map f =
      (l.map f).foldl (fun sorted x => insert cmp x sorted) (sorted.map f) := by
  induction l generalizing sorted with
  | nil => rfl
  | cons x l ih => rw [foldl_cons, ih, map_insert, map_cons, foldl_cons]

section Stable

variable [Std.TransCmp cmp]

theorem Ahead.lt_of_lt {a x y : α × Nat} (hlt : cmp a.1 x.1 = .lt) (h : Ahead cmp x y) : cmp a.1 y.1 = .lt := by
  rcases h with h | ⟨h, -⟩
  · exact Std.TransCmp.lt_trans hlt h
  · exact Std.TransCmp.lt_of_lt_of_eq hlt h

/-- What is inserted last goes behind all that is not greater. -/
theorem insert_pairwise {x : α × Nat} {l : List (α × Nat)} (hl : l.Pairwise (Ahead cmp)) (hlast : ∀ y ∈ l, y.2 < x.2) :
    (insert (fun a b => cmp a.1 b.1) x l).Pairwise (Ahead cmp) := by
  induction l with
  | nil => exact pairwise_singleton _ _
  | cons y l ih =>
    obtain ⟨hy, hl⟩ := pairwise_cons.mp hl
    unfold insert
    split
    · next hlt =>
      refine pairwise_cons.mpr ⟨fun z hz => .inl ?_, pairwise_cons.mpr ⟨hy, hl⟩⟩
      rcases mem_cons.mp hz with rfl | hz
      · exact hlt
      · exact (hy z hz).lt_of_lt hlt
    · next hle =>
      refine pairwise_cons.mpr ⟨fun z hz => ?_, ih hl fun z hz => hlast z (mem_cons_of_mem _ hz)⟩
      rcases mem_cons.mp ((insert_perm x l).subset hz) with rfl | hz
      · have hback : cmp y.1 z.1 ≠ .gt := fun hgt => hle (Std.OrientedCmp.lt_of_gt hgt)
        cases hcase : cmp y.1 z.1 with
        | lt => exact .inl hcase
        | eq => exact .inr ⟨hcase, hlast y (mem_cons_self ..)⟩
        | gt => exact absurd hcase hback
      · exact hy z hz

theorem foldl_insert_stable (l : List α) (n : Nat) {sorted : List (α × Nat)} (hsorted : sorted.Pairwise (Ahead cmp))
    (hbelow : ∀ y ∈ sorted, y.2 < n) :
    ((l.zipIdx n).foldl (fun sorted x => insert (fun a b => cmp a.1 b.1) x sorted) sorted).Pairwise (Ahead cmp) ∧
      ((l.zipIdx n).foldl (fun sorted x => insert (fun a b => cmp a.1 b.1) x sorted) sorted).Perm
        (l.zipIdx n ++ sorted) := by
  induction l generalizing n sorted with
  | nil => exact ⟨hsorted, List.Perm.refl _⟩
  | cons x l ih =>
    have hnext : ∀ y ∈ insert (fun a b : α × Nat => cmp a.1 b.1) (x, n) sorted, y.2 < n + 1 := by
      intro y hy
      rcases mem_cons.mp ((insert_perm _ sorted).subset hy) with rfl | hy
      · exact Nat.lt_succ_self n
      · exact (hbelow y hy).trans (Nat.lt_succ_self n)
    obtain ⟨hpairwise, hperm⟩ := ih (n + 1) (insert_pairwise hsorted hbelow) hnext
    rw [zipIdx_cons, foldl_cons]
    refine ⟨hpairwise, hperm.trans ?_⟩
    exact ((insert_perm _ sorted).append_left _).trans perm_middle

theorem sort_stable (l : List α) : StableSorted cmp l (sort cmp l) := by
  obtain ⟨hpairwise, hperm⟩ := @foldl_insert_stable _ cmp _ l 0 [] List.Pairwise.nil fun y hy => absurd hy not_mem_nil
  rw [append_nil] at hperm
  refine ⟨_, hperm, ?_, hpairwise⟩
  rw [map_foldl_insert Prod.fst, zipIdx_map_fst, map_nil, sort]

end Stable

variable {cmp' : α → α → Ordering} {l out : List α}

theorem StableSorted.mem_iff (h : StableSorted cmp l out) {a : α} : a ∈ out ↔ a ∈ l := by
  obtain ⟨tagged, hperm, rfl, -⟩ := h
  rw [(hperm.map Prod.fst).mem_iff, zipIdx_map_fst]

/-- Only comparisons of the elements matter. -/
theorem StableSorted.congr (h : StableSorted cmp l out) (heq : ∀ a ∈ l, ∀ b ∈ l, cmp a b = cmp' a b) :
    StableSorted cmp' l out := by
  obtain ⟨tagged, hperm, hout, hpairwise⟩ := h
  have hmem : ∀ x ∈ tagged, x.1 ∈ l := by
    intro x hx
    have hfst := mem_map_of_mem (f := Prod.fst) (hperm.subset hx)
    rwa [zipIdx_map_fst] at hfst
  refine ⟨tagged, hperm, hout, hpairwise.imp_of_mem fun hx hy hahead => ?_⟩
  rw [Ahead, ← heq _ (hmem _ hx) _ (hmem _ hy)]
  exact hahead

theorem StableSorted.pairwise (h : StableSorted cmp l out) : out.Pairwise fun a b => cmp a b ≠ .gt := by
  obtain ⟨tagged, -, rfl, hpairwise⟩ := h
  refine pairwise_map.mpr (hpairwise.imp fun hahead => ?_)
  rcases hahead with h | ⟨h, -⟩ <;> rw [h] <;> decide

/-- No arrangement is sorted both ways of two elements that the orders put differently. -/
theorem StableSorted.not_opposite [Std.OrientedCmp cmp] [Std.OrientedCmp cmp'] (h : StableSorted cmp l out)
    (h' : StableSorted cmp' l out) {a b : α} (ha : a ∈ l) (hb : b ∈ l) (hlt : cmp a b = .lt) : cmp' a b ≠ .gt := by
  intro hgt
  have hne : a ≠ b := by
    rintro rfl
    have hself : cmp a a = .eq := Std.ReflCmp.compare_self
    exact absurd (hself.symm.trans hlt) (by decide)
  have hboth : out.Pairwise fun a b => cmp a b ≠ .gt ∧ cmp' a b ≠ .gt := h.pairwise.and h'.pairwise
  have heither : (cmp a b ≠ .gt ∧ cmp' a b ≠ .gt) ∨ (cmp b a ≠ .gt ∧ cmp' b a ≠ .gt) := by
    let R : α → α → Prop := fun a b => (cmp a b ≠ .gt ∧ cmp' a b ≠ .gt) ∨ (cmp b a ≠ .gt ∧ cmp' b a ≠ .gt)
    have hsymm : Std.Symm R := ⟨fun _ _ => Or.symm⟩
    have hall : out.Pairwise R := hboth.imp .inl
    exact hall.forall (h.mem_iff.mpr ha) (h.mem_iff.mpr hb) hne
  rcases heither with hab | hba
  · exact hab.2 hgt
  · exact hba.1 (Std.OrientedCmp.gt_of_lt hlt)

end sorting
