import Mathlib

/-!
Lists of keys in the order of a three-way comparison, with one key for each class of
equal ones. The comparison need only be an order on some of the keys.
-/

namespace ordered

open List

variable {α : Type*}

/-- The comparison is a total order on the keys of a set. -/
structure TotalOn (P : α → Prop) (cmp : α → α → Ordering) : Prop where
  swap : ∀ {a b}, P a → P b → cmp b a = (cmp a b).swap
  lt_trans : ∀ {a b c}, P a → P b → P c → cmp a b = .lt → cmp b c = .lt → cmp a c = .lt
  eq_lt : ∀ {a b c}, P a → P b → P c → cmp a b = .eq → cmp b c = .lt → cmp a c = .lt
  eq_trans : ∀ {a b c}, P a → P b → P c → cmp a b = .eq → cmp b c = .eq → cmp a c = .eq

theorem TotalOn.of_trans (cmp : α → α → Ordering) [Std.TransCmp cmp] : TotalOn (fun _ => True) cmp where
  swap _ _ := Std.OrientedCmp.eq_swap
  lt_trans _ _ _ := Std.TransCmp.lt_trans
  eq_lt _ _ _ := Std.TransCmp.lt_of_eq_of_lt
  eq_trans _ _ _ := Std.TransCmp.eq_trans

/-- A comparison that decides a strict order of images, on the keys of a set. -/
theorem TotalOn.of_strict {β : Type*} {P : α → Prop} {cmp : α → α → Ordering} {r : β → β → Prop} (f : α → β)
    (hirrefl : ∀ x, ¬ r x x) (htrans : ∀ x y z, r x y → r y z → r x z) (htotal : ∀ x y, r x y ∨ x = y ∨ r y x)
    (hlt : ∀ {a b}, P a → P b → (cmp a b = .lt ↔ r (f a) (f b)))
    (heq : ∀ {a b}, P a → P b → (cmp a b = .eq ↔ f a = f b)) : TotalOn P cmp where
  swap {a b} ha hb := by
    cases hc : cmp a b with
    | lt =>
      have hab := (hlt ha hb).mp hc
      cases hc' : cmp b a with
      | lt => exact absurd (htrans _ _ _ hab ((hlt hb ha).mp hc')) (hirrefl _)
      | eq => exact absurd ((heq hb ha).mp hc' ▸ hab) (hirrefl _)
      | gt => rfl
    | eq => exact (heq hb ha).mpr ((heq ha hb).mp hc).symm
    | gt =>
      refine (hlt hb ha).mpr ?_
      rcases htotal (f a) (f b) with h | h | h
      · cases hc.symm.trans ((hlt ha hb).mpr h)
      · cases hc.symm.trans ((heq ha hb).mpr h)
      · exact h
  lt_trans ha hb hc := by
    rw [hlt ha hb, hlt hb hc, hlt ha hc]
    exact htrans _ _ _
  eq_lt ha hb hc := by
    rw [heq ha hb, hlt hb hc, hlt ha hc]
    intro hab hbc
    rwa [hab]
  eq_trans ha hb hc := by
    rw [heq ha hb, heq hb hc, heq ha hc]
    exact Eq.trans

section Put

variable (cmp : α → α → Ordering) (k : α)

def Increasing (keys : List α) : Prop := keys.Pairwise fun a b => cmp a b = .lt

/-- The keys less than a key, when the keys are in order. -/
def below (keys : List α) : List α := keys.takeWhile fun x => cmp x k = .lt

/-- The others. -/
def above (keys : List α) : List α := keys.dropWhile fun x => cmp x k = .lt

/-- The key takes the place of an equal one, or its own place. -/
def put (keys : List α) : List α :=
  match above cmp k keys with
  | [] => below cmp k keys ++ [k]
  | x :: xs => if cmp k x = .eq then below cmp k keys ++ k :: xs else below cmp k keys ++ k :: x :: xs

theorem below_append_above (keys : List α) : below cmp k keys ++ above cmp k keys = keys :=
  takeWhile_append_dropWhile

variable {cmp k}

variable {keys : List α} {x : α}

theorem put_of_nil (habove : above cmp k keys = []) : put cmp k keys = below cmp k keys ++ [k] := by
  rw [put, habove]

theorem put_of_eq {xs : List α} (habove : above cmp k keys = x :: xs) (heq : cmp k x = .eq) :
    put cmp k keys = below cmp k keys ++ k :: xs := by
  rw [put, habove]
  exact if_pos heq

theorem put_of_ne {xs : List α} (habove : above cmp k keys = x :: xs) (hne : cmp k x ≠ .eq) :
    put cmp k keys = below cmp k keys ++ k :: above cmp k keys := by
  rw [put, habove]
  exact if_neg hne

theorem put_cons_of_lt (hlt : cmp x k = .lt) : put cmp k (x :: keys) = x :: put cmp k keys := by
  have hbelow : below cmp k (x :: keys) = x :: below cmp k keys := takeWhile_cons_of_pos (by simpa using hlt)
  have habove : above cmp k (x :: keys) = above cmp k keys := dropWhile_cons_of_pos (by simpa using hlt)
  rw [put, put, hbelow, habove]
  cases above cmp k keys with
  | nil => rfl
  | cons y ys =>
    dsimp only
    split <;> rfl

theorem put_cons_of_not_lt (hnot : cmp x k ≠ .lt) :
    put cmp k (x :: keys) = if cmp k x = .eq then k :: keys else k :: x :: keys := by
  have hbelow : below cmp k (x :: keys) = [] := takeWhile_cons_of_neg (by simpa using hnot)
  have habove : above cmp k (x :: keys) = x :: keys := dropWhile_cons_of_neg (by simpa using hnot)
  rw [put, hbelow, habove]
  rfl

end Put

section Order

variable {P : α → Prop} {cmp : α → α → Ordering} {k x y : α} {keys : List α}

theorem lt_of_mem_below (h : x ∈ below cmp k keys) : cmp x k = .lt := by
  simpa using mem_takeWhile_imp h

theorem mem_of_mem_above (h : x ∈ above cmp k keys) : x ∈ keys := (dropWhile_sublist _).mem h

variable (htotal : TotalOn P cmp) (hkeys : ∀ x ∈ keys, P x) (hk : P k)

include htotal

theorem TotalOn.gt_of_lt (hx : P x) (hy : P y) (h : cmp x y = .lt) : cmp y x = .gt := by
  rw [htotal.swap hx hy, h]
  rfl

theorem TotalOn.lt_of_gt (hx : P x) (hy : P y) (h : cmp x y = .gt) : cmp y x = .lt := by
  rw [htotal.swap hx hy, h]
  rfl

theorem TotalOn.eq_symm (hx : P x) (hy : P y) (h : cmp x y = .eq) : cmp y x = .eq := by
  rw [htotal.swap hx hy, h]
  rfl

theorem TotalOn.lt_eq (hx : P x) (hy : P y) (hk : P k) (hxy : cmp x y = .lt) (hyk : cmp y k = .eq) : cmp x k = .lt := by
  cases hc : cmp x k with
  | lt => rfl
  | eq => cases (htotal.eq_trans hx hk hy hc (htotal.eq_symm hy hk hyk)).symm.trans hxy
  | gt =>
    have hyx := htotal.eq_lt hy hk hx hyk (htotal.lt_of_gt hx hk hc)
    cases (htotal.gt_of_lt hx hy hxy).symm.trans hyx

include hkeys hk

/-- No key after the first one that is not less is less. -/
theorem not_lt_of_mem_above (hinc : Increasing cmp keys) (h : x ∈ above cmp k keys) : cmp x k ≠ .lt := by
  have hsub := (dropWhile_sublist (fun x => decide (cmp x k = .lt)) (l := keys))
  cases habove : above cmp k keys with
  | nil =>
    rw [habove] at h
    cases h
  | cons z zs =>
    have hz : cmp z k ≠ .lt := by
      have hnot := List.head?_dropWhile_not (fun x => decide (cmp x k = .lt)) keys
      rw [show keys.dropWhile (fun x => decide (cmp x k = .lt)) = z :: zs from habove] at hnot
      simpa using hnot
    rw [habove] at h
    rcases mem_cons.mp h with rfl | h
    · exact hz
    · intro hlt
      have hmem : ∀ w ∈ z :: zs, w ∈ keys := fun w hw => mem_of_mem_above (habove ▸ hw)
      have hpair : Increasing cmp (z :: zs) := habove ▸ hinc.sublist hsub
      have hzx := (pairwise_cons.mp hpair).1 x h
      exact hz (htotal.lt_trans (hkeys z (hmem z mem_cons_self)) (hkeys x (hmem x (mem_cons_of_mem _ h))) hk hzx hlt)

/-- The first key that is not less is the least one that is not. -/
theorem least_of_above (hinc : Increasing cmp keys) {xs : List α} (habove : above cmp k keys = x :: xs) :
    x ∈ keys ∧ cmp x k ≠ .lt ∧ ∀ y ∈ keys, cmp y k ≠ .lt → y = x ∨ cmp x y = .lt := by
  have hx : x ∈ above cmp k keys := habove ▸ mem_cons_self
  refine ⟨mem_of_mem_above hx, not_lt_of_mem_above htotal hkeys hk hinc hx, fun y hy hnot => ?_⟩
  rw [← below_append_above cmp k keys] at hy
  rcases mem_append.mp hy with hy | hy
  · exact absurd (lt_of_mem_below hy) hnot
  · rw [habove] at hy
    rcases mem_cons.mp hy with rfl | hy
    · exact .inl rfl
    · have hpair : Increasing cmp (x :: xs) := habove ▸ hinc.sublist (dropWhile_sublist _)
      exact .inr ((pairwise_cons.mp hpair).1 y hy)

omit htotal hkeys hk in
theorem above_eq_nil_iff : above cmp k keys = [] ↔ ∀ y ∈ keys, cmp y k = .lt := by
  simp [above, dropWhile_eq_nil_iff]

theorem increasing_put (hinc : Increasing cmp keys) : Increasing cmp (put cmp k keys) := by
  have hparts : Increasing cmp (below cmp k keys ++ above cmp k keys) := by rwa [below_append_above]
  obtain ⟨hbelow, habove, hcross⟩ := pairwise_append.mp hparts
  have hfirst : ∀ y ∈ below cmp k keys, cmp y k = .lt := fun y hy => lt_of_mem_below hy
  have hmem : ∀ y ∈ above cmp k keys, P y := fun y hy => hkeys y (mem_of_mem_above hy)
  have hnot : ∀ y ∈ above cmp k keys, cmp y k ≠ .lt := fun y hy => not_lt_of_mem_above htotal hkeys hk hinc hy
  unfold put
  cases hcase : above cmp k keys with
  | nil =>
    refine pairwise_append.mpr ⟨hbelow, pairwise_singleton _ _, fun y hy z hz => ?_⟩
    rw [mem_singleton.mp hz]
    exact hfirst y hy
  | cons x xs =>
    rw [hcase] at habove hmem hnot
    obtain ⟨hxs, hrest⟩ := pairwise_cons.mp habove
    have hx := hmem x mem_cons_self
    dsimp only
    split
    · next heq =>
      refine pairwise_append.mpr ⟨hbelow, pairwise_cons.mpr ⟨fun z hz => ?_, hrest⟩, fun y hy z hz => ?_⟩
      · exact htotal.eq_lt hk hx (hmem z (mem_cons_of_mem _ hz)) heq (hxs z hz)
      · rcases mem_cons.mp hz with rfl | hz
        · exact hfirst y hy
        · exact hcross y hy z (hcase ▸ mem_cons_of_mem _ hz)
    · next hne =>
      have hlt : cmp k x = .lt := by
        cases hc : cmp k x with
        | lt => rfl
        | eq => exact absurd hc hne
        | gt => exact absurd (htotal.lt_of_gt hk hx hc) (hnot x mem_cons_self)
      refine pairwise_append.mpr ⟨hbelow, pairwise_cons.mpr ⟨fun z hz => ?_, habove⟩, fun y hy z hz => ?_⟩
      · rcases mem_cons.mp hz with rfl | hz
        · exact hlt
        · exact htotal.lt_trans hk hx (hmem z (mem_cons_of_mem _ hz)) hlt (hxs z hz)
      · rcases mem_cons.mp hz with rfl | hz
        · exact hfirst y hy
        · exact hcross y hy z (hcase ▸ hz)

theorem mem_put (hinc : Increasing cmp keys) : y ∈ put cmp k keys ↔ y = k ∨ (y ∈ keys ∧ cmp k y ≠ .eq) := by
  have hbelow : ∀ z ∈ below cmp k keys, cmp k z ≠ .eq := by
    intro z hz heq
    have hmem : z ∈ keys := (takeWhile_sublist _).mem hz
    cases (lt_of_mem_below hz).symm.trans (htotal.eq_symm hk (hkeys z hmem) heq)
  have hkeysEq := below_append_above cmp k keys
  unfold put
  cases hcase : above cmp k keys with
  | nil =>
    rw [hcase, append_nil] at hkeysEq
    simp only [mem_append, mem_singleton, hkeysEq] at hbelow ⊢
    constructor
    · rintro (hy | rfl)
      · exact .inr ⟨hy, hbelow y hy⟩
      · exact .inl rfl
    · rintro (rfl | ⟨hy, -⟩)
      · exact .inr rfl
      · exact .inl hy
  | cons x xs =>
    rw [hcase] at hkeysEq
    have hpair : Increasing cmp (x :: xs) := hcase ▸ hinc.sublist (dropWhile_sublist _)
    have habove : ∀ z ∈ x :: xs, z ∈ keys ∧ cmp z k ≠ .lt := fun z hz =>
      ⟨mem_of_mem_above (hcase ▸ hz), not_lt_of_mem_above htotal hkeys hk hinc (hcase ▸ hz)⟩
    have hx := hkeys x (habove x mem_cons_self).1
    have hxs : ∀ z ∈ xs, cmp k z ≠ .eq := by
      intro z hz heq
      have hzkeys := hkeys z (habove z (mem_cons_of_mem _ hz)).1
      have hxz := (pairwise_cons.mp hpair).1 z hz
      exact (habove x mem_cons_self).2 (htotal.lt_eq hx hzkeys hk hxz (htotal.eq_symm hk hzkeys heq))
    have hmem : y ∈ keys ↔ y ∈ below cmp k keys ∨ y = x ∨ y ∈ xs := by
      conv_lhs => rw [← hkeysEq]
      simp only [mem_append, mem_cons]
    rw [hmem]
    dsimp only
    split
    · next heq =>
      simp only [mem_append, mem_cons]
      constructor
      · rintro (hy | rfl | hy)
        · exact .inr ⟨.inl hy, hbelow y hy⟩
        · exact .inl rfl
        · exact .inr ⟨.inr (.inr hy), hxs y hy⟩
      · rintro (rfl | ⟨hy | rfl | hy, hne⟩)
        · exact .inr (.inl rfl)
        · exact .inl hy
        · exact absurd heq hne
        · exact .inr (.inr hy)
    · next hne =>
      simp only [mem_append, mem_cons]
      constructor
      · rintro (hy | rfl | rfl | hy)
        · exact .inr ⟨.inl hy, hbelow y hy⟩
        · exact .inl rfl
        · exact .inr ⟨.inr (.inl rfl), hne⟩
        · exact .inr ⟨.inr (.inr hy), hxs y hy⟩
      · rintro (rfl | ⟨hy | rfl | hy, -⟩)
        · exact .inr (.inl rfl)
        · exact .inl hy
        · exact .inr (.inr (.inl rfl))
        · exact .inr (.inr (.inr hy))

end Order

/-- The key was put in, and no equal one after it. -/
def LastOf (cmp : α → α → Ordering) (puts : List α) (k : α) : Prop :=
  ∃ older newer, puts = older ++ k :: newer ∧ ∀ k' ∈ newer, cmp k' k ≠ .eq

/-- What a search for a key is to find: the least key that is not less, or none. -/
def LeastAbove (cmp : α → α → Ordering) (keys : List α) (k : α) : Option α → Prop
  | none => ∀ y ∈ keys, cmp y k = .lt
  | some x => x ∈ keys ∧ cmp x k ≠ .lt ∧ ∀ y ∈ keys, cmp y k ≠ .lt → y = x ∨ cmp x y = .lt

section PutAll

variable {P : α → Prop} {cmp : α → α → Ordering}

theorem lastOf_append_singleton {puts : List α} {k y : α} :
    LastOf cmp (puts ++ [k]) y ↔ y = k ∨ (LastOf cmp puts y ∧ cmp k y ≠ .eq) := by
  constructor
  · rintro ⟨older, newer, heq, hnewer⟩
    rcases newer.eq_nil_or_concat' with rfl | ⟨newer, z, rfl⟩
    · obtain ⟨-, hk⟩ := append_inj' heq rfl
      exact .inl (singleton_inj.mp hk).symm
    · rw [← cons_append, ← append_assoc] at heq
      obtain ⟨rfl, hz⟩ := append_inj' heq rfl
      cases singleton_inj.mp hz
      exact .inr ⟨⟨older, newer, rfl, fun k' hk' => hnewer k' (mem_append_left _ hk')⟩, hnewer k (by simp)⟩
  · rintro (rfl | ⟨⟨older, newer, rfl, hnewer⟩, hne⟩)
    · exact ⟨puts, [], rfl, by simp⟩
    · refine ⟨older, newer ++ [k], by simp, fun k' hk' => ?_⟩
      rcases mem_append.mp hk' with hk' | hk'
      · exact hnewer k' hk'
      · rw [mem_singleton.mp hk']
        exact hne

/-- Keys put in one after the other are in order, and the last one of each class is there. -/
theorem putAll (htotal : TotalOn P cmp) (puts : List α) (hputs : ∀ k ∈ puts, P k) :
    Increasing cmp (puts.foldl (fun keys k => put cmp k keys) []) ∧
      ∀ y, y ∈ puts.foldl (fun keys k => put cmp k keys) [] ↔ LastOf cmp puts y := by
  induction puts using List.reverseRecOn with
  | nil =>
    refine ⟨List.Pairwise.nil, fun y => ⟨fun hy => absurd hy not_mem_nil, ?_⟩⟩
    rintro ⟨older, newer, heq, -⟩
    simp at heq
  | append_singleton puts k ih =>
    obtain ⟨hinc, hmem⟩ := ih fun k' hk' => hputs k' (mem_append_left _ hk')
    have hkeys : ∀ x ∈ puts.foldl (fun keys k => put cmp k keys) [], P x := by
      intro x hx
      obtain ⟨older, newer, rfl, -⟩ := (hmem x).mp hx
      exact hputs x (by simp)
    have hk := hputs k (by simp)
    rw [foldl_append]
    refine ⟨increasing_put htotal hkeys hk hinc, fun y => ?_⟩
    rw [lastOf_append_singleton, ← hmem]
    exact mem_put htotal hkeys hk hinc

theorem leastAbove_head {keys : List α} (htotal : TotalOn P cmp) (hkeys : ∀ x ∈ keys, P x) {k : α} (hk : P k)
    (hinc : Increasing cmp keys) : LeastAbove cmp keys k (above cmp k keys).head? := by
  cases habove : above cmp k keys with
  | nil => exact above_eq_nil_iff.mp habove
  | cons x xs => exact least_of_above htotal hkeys hk hinc habove

end PutAll

end ordered
