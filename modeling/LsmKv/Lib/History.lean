import Mathlib

namespace history

open List

variable {K V : Type} [DecidableEq K]

/-- One update of a keyed store: a new value for the key, or `none` when the
    update removes it. -/
structure Update (K V : Type) where
  key : K
  value : Option V
deriving DecidableEq, Repr

/-- The last update of a key, with a removal kept apart from no update. -/
def latest : List (Update K V) → K → Option (Option V)
  | [], _ => none
  | u :: h, k => (latest h k).or (if u.key = k then some u.value else none)

/-- What a map holds at a key after all updates of the history. -/
def read (h : List (Update K V)) (k : K) : Option V :=
  (latest h k).join

@[simp] theorem latest_nil (k : K) : latest ([] : List (Update K V)) k = none := rfl

/-- A reader that asks the newer part first and falls back to the older part
    sees the whole history. -/
theorem latest_append (older newer : List (Update K V)) (k : K) :
    latest (older ++ newer) k = (latest newer k).or (latest older k) := by
  induction older with
  | nil => simp
  | cons u h ih =>
    simp only [cons_append, latest, ih, Option.or_assoc]

theorem latest_concat (h : List (Update K V)) (u : Update K V) (k : K) :
    latest (h ++ [u]) k = if u.key = k then some u.value else latest h k := by
  rw [latest_append]
  by_cases hk : u.key = k <;> simp [latest, hk]

/-- No update of the key is found exactly when none occurs. -/
theorem latest_eq_none_iff (h : List (Update K V)) (k : K) :
    latest h k = none ↔ ∀ u ∈ h, u.key ≠ k := by
  induction h with
  | nil => simp
  | cons u h ih =>
    simp only [latest, Option.or_eq_none_iff, ih, mem_cons, forall_eq_or_imp]
    by_cases hk : u.key = k <;> simp [hk]

theorem latest_mem {h : List (Update K V)} {k : K} {value : Option V} (hlatest : latest h k = some value) :
    ∃ u ∈ h, u.key = k ∧ u.value = value := by
  induction h using List.reverseRecOn with
  | nil => cases hlatest
  | append_singleton h u ih =>
    rw [latest_concat] at hlatest
    split at hlatest
    · next hkey =>
      cases hlatest
      exact ⟨u, by simp, hkey, rfl⟩
    · obtain ⟨u', hu', hfacts⟩ := ih hlatest
      exact ⟨u', mem_append_left _ hu', hfacts⟩

/-- Dropping a middle part of a history whose keys are all updated again later
    loses nothing. -/
theorem latest_drop_shadowed {older middle newer : List (Update K V)}
    (hshadow : ∀ u ∈ middle, ∃ w ∈ newer, w.key = u.key) (k : K) :
    latest (older ++ newer) k = latest (older ++ middle ++ newer) k := by
  simp only [latest_append]
  cases hnew : latest newer k with
  | some value => simp
  | none =>
    have hmiddle : latest middle k = none := by
      rw [latest_eq_none_iff]
      intro u hu huk
      obtain ⟨w, hw, hwk⟩ := hshadow u hu
      exact (latest_eq_none_iff newer k).mp hnew w hw (hwk.trans huk)
    simp [hmiddle]

section IsLast

variable {W : Type} {key : W → K}

/-- An element of a run after which its key does not occur again. -/
def IsLast (key : W → K) (run : List W) (w : W) : Prop :=
  ∃ older newer, run = older ++ w :: newer ∧ ∀ x ∈ newer, key x ≠ key w

omit [DecidableEq K] in
variable {run : List W} {w : W}

theorem IsLast.mem (h : IsLast key run w) : w ∈ run := by
  obtain ⟨older, newer, rfl, -⟩ := h
  simp

theorem exists_isLast (key : W → K) {k : K} (h : ∃ w ∈ run, key w = k) : ∃ w, IsLast key run w ∧ key w = k := by
  induction run with
  | nil => simp at h
  | cons x run ih =>
    by_cases hlater : ∃ y ∈ run, key y = k
    · obtain ⟨w, ⟨older, newer, rfl, hnewer⟩, hkey⟩ := ih hlater
      exact ⟨w, ⟨x :: older, newer, rfl, hnewer⟩, hkey⟩
    · have hx : key x = k := by
        obtain ⟨w, hw, hwk⟩ := h
        rcases mem_cons.mp hw with rfl | hw
        · exact hwk
        · exact absurd ⟨w, hw, hwk⟩ hlater
      exact ⟨x, ⟨[], run, rfl, fun y hy hyx => hlater ⟨y, hy, hyx.trans hx⟩⟩, hx⟩

omit [DecidableEq K] in
/-- A last occurrence in a concatenation is one of the newer part, or one of the
    older part whose key the newer part does not touch. -/
theorem IsLast.append {older newer : List W} (h : IsLast key (older ++ newer) w) :
    IsLast key newer w ∨ IsLast key older w ∧ ∀ x ∈ newer, key x ≠ key w := by
  obtain ⟨l, r, heq, hr⟩ := h
  rcases append_eq_append_iff.mp heq with ⟨m, rfl, hnewer⟩ | ⟨m, hl, hnewer⟩
  · exact .inl ⟨m, r, hnewer, hr⟩
  · cases m with
    | nil =>
      simp only [nil_append] at hnewer
      exact .inl ⟨[], r, hnewer.symm, hr⟩
    | cons y m =>
      simp only [cons_append, List.cons.injEq] at hnewer
      obtain ⟨rfl, rfl⟩ := hnewer
      refine .inr ⟨⟨l, m, hl, fun x hx => hr x (mem_append_left _ hx)⟩, ?_⟩
      exact fun x hx => hr x (mem_append_right _ hx)

/-- The last occurrence of its key decides what the history reads there. -/
theorem latest_of_isLast {V : Type} {value : W → Option V} (h : IsLast key run w) :
    latest (run.map fun x => ⟨key x, value x⟩) (key w) = some (value w) := by
  obtain ⟨older, newer, rfl, hnewer⟩ := h
  have hnone : latest (newer.map fun x => (⟨key x, value x⟩ : Update K V)) (key w) = none := by
    rw [latest_eq_none_iff]
    intro u hu
    obtain ⟨x, hx, rfl⟩ := mem_map.mp hu
    exact hnewer x hx
  rw [map_append, map_cons, latest_append]
  simp [latest, hnone]

end IsLast

end history
