import Mathlib.Data.List.Basic
import Mathlib.Logic.Function.Iterate

namespace cursor

variable {σ α : Type} {current : σ → Option α} {advance : σ → σ} {s : σ} {l : List α}

/-- A cursor that returns exactly these items and then ends. -/
inductive Yields (current : σ → Option α) (advance : σ → σ) : σ → List α → Prop
  | done {s : σ} (hcurrent : current s = none) : Yields current advance s []
  | item {s : σ} {x : α} {l : List α} (hcurrent : current s = some x) (hrest : Yields current advance (advance s) l) :
      Yields current advance s (x :: l)

theorem Yields.current_eq (h : Yields current advance s l) : current s = l.head? := by
  cases h with
  | done hcurrent => exact hcurrent
  | item hcurrent _ => exact hcurrent

theorem Yields.next {x : α} (h : Yields current advance s (x :: l)) : Yields current advance (advance s) l := by
  cases h with
  | item _ hrest => exact hrest

/-- A cursor that stands on no item has none left. -/
theorem Yields.eq_nil (h : Yields current advance s l) (hcurrent : current s = none) : l = [] := by
  rw [h.current_eq] at hcurrent
  exact List.head?_eq_none_iff.mp hcurrent

/-- Moving on, item by item, from a position that stands before a list. -/
theorem iterate_drop (Before : σ → List α → Prop)
    (hnext : ∀ {s : σ} {x : α} {l : List α}, Before s (x :: l) → Before (advance s) l) (h : Before s l) {n : Nat}
    (hn : n ≤ l.length) : Before (advance^[n] s) (l.drop n) := by
  induction n generalizing s l with
  | zero => exact h
  | succ n ih =>
    cases l with
    | nil => cases hn
    | cons x l => exact ih (hnext h) (Nat.le_of_succ_le_succ hn)

end cursor
