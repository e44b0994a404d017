import Mathlib.Data.List.Nodup

/-!
Lists of nodes in a heap that are linked by pointers.
-/

namespace linked

open List

/-- From a node on the pointers lead through these nodes and then end. `next` is `none`
    for a pointer that may not be read. -/
def Linked (next : Nat → Option (Option Nat)) : Nat → List Nat → Prop
  | x, [] => next x = some none
  | x, y :: ys => next x = some (some y) ∧ Linked next y ys

/-- The nodes that one meets on the way along the pointers. -/
def walk (next : Nat → Option (Option Nat)) : Nat → Nat → Option (List Nat)
  | 0, _ => none
  | fuel + 1, x =>
    match next x with
    | none => none
    | some none => some []
    | some (some y) => (walk next fuel y).map (y :: ·)

namespace Linked

variable {next next' : Nat → Option (Option Nat)} {x y : Nat} {ids as bs : List Nat}

theorem walk_eq (h : Linked next x ids) {fuel : Nat} (hfuel : ids.length < fuel) : walk next fuel x = some ids := by
  induction ids generalizing x fuel with
  | nil =>
    obtain ⟨fuel, rfl⟩ := Nat.exists_eq_succ_of_ne_zero (Nat.ne_zero_of_lt hfuel)
    rw [walk, show next x = some none from h]
  | cons y ys ih =>
    obtain ⟨fuel, rfl⟩ := Nat.exists_eq_succ_of_ne_zero (Nat.ne_zero_of_lt hfuel)
    rw [walk, h.1]
    dsimp only
    rw [ih h.2 (Nat.lt_of_succ_lt_succ hfuel), Option.map_some]

theorem suffix (h : Linked next x (as ++ y :: bs)) : Linked next y bs := by
  induction as generalizing x with
  | nil => exact h.2
  | cons a as ih => exact ih h.2

theorem head (h : Linked next x ids) : next x = some ids.head? := by
  cases ids with
  | nil => exact h
  | cons y ys => exact h.1

/-- Only the pointers of the nodes themselves matter. -/
theorem congr (h : Linked next x ids) (hsame : ∀ y ∈ x :: ids, next' y = next y) : Linked next' x ids := by
  induction ids generalizing x with
  | nil => exact (hsame x mem_cons_self).trans h
  | cons y ys ih =>
    exact ⟨(hsame x mem_cons_self).trans h.1, ih h.2 fun z hz => hsame z (mem_cons_of_mem _ hz)⟩

/-- A new node that takes over the pointer of another one, which then points to it. -/
theorem splice (h : Linked next x (as ++ bs)) (hnodup : (x :: (as ++ bs)).Nodup) {new : Nat}
    (hnew : new ∉ x :: (as ++ bs)) (hlast : next' (as.getLastD x) = some (some new))
    (htakes : next' new = next (as.getLastD x))
    (hsame : ∀ y, y ≠ new → y ≠ as.getLastD x → next' y = next y) : Linked next' x (as ++ new :: bs) := by
  induction as generalizing x with
  | nil =>
    refine ⟨hlast, ?_⟩
    have hrest : ∀ y ∈ bs, next' y = next y := by
      intro y hy
      refine hsame y ?_ ?_
      · rintro rfl
        exact hnew (mem_cons_of_mem _ hy)
      · rintro rfl
        exact (nodup_cons.mp hnodup).1 hy
    cases bs with
    | nil => exact htakes.trans h
    | cons y ys => exact ⟨htakes.trans h.1, congr h.2 hrest⟩
  | cons a as ih =>
    have htail := nodup_cons.mp hnodup
    have hmem : (a :: as).getLastD x ∈ a :: as := by
      rw [getLastD_cons]
      exact getLastD_mem_cons
    have hx : x ≠ (a :: as).getLastD x := by
      rintro heq
      exact htail.1 (mem_append_left _ (heq ▸ hmem))
    have hxnew : x ≠ new := by
      rintro rfl
      exact hnew mem_cons_self
    refine ⟨(hsame x hxnew hx).trans h.1, ?_⟩
    rw [getLastD_cons] at hlast htakes hsame
    exact ih h.2 htail.2 (fun hmem => hnew (mem_cons_of_mem _ hmem)) hlast htakes hsame

end Linked

end linked
