import Mathlib

/-!
Iteration over an ordered store: the entries from a target key on, as long as their keys
start with a given stem.
-/

namespace listing

open List

variable {α β : Type} [LinearOrder α] {key : β → List α} {entries : List β} {target stem : List α} {x : β}

/-- `Seek` of an iterator and then `Next` while the key starts with the stem. -/
def seek (key : β → List α) (entries : List β) (target stem : List α) : List β :=
  ((entries.insertionSort fun a b => key a ≤ key b).dropWhile fun a => key a < target).takeWhile
    fun a => stem <+: key a

theorem cons_le_cons {a b : α} {x y : List α} (h : a :: x ≤ b :: y) : a < b ∨ a = b ∧ x ≤ y := by
  rcases lt_trichotomy a b with hlt | rfl | hgt
  · exact .inl hlt
  · exact .inr ⟨rfl, not_lt.mp fun hlt => not_lt.mpr h (cons_lt_cons_iff.mpr (.inr ⟨rfl, hlt⟩))⟩
  · exact absurd h (not_le.mpr (cons_lt_cons_iff.mpr (.inl hgt)))

/-- The keys that start with a stem are neighbours. -/
theorem stem_of_between {x y : List α} (hstem : stem <+: y) (hle : stem ≤ x) (hxy : x ≤ y) : stem <+: x := by
  induction stem generalizing x y with
  | nil => exact nil_prefix
  | cons a stem ih =>
    obtain ⟨tail, rfl⟩ := hstem
    cases x with
    | nil => exact absurd hle (not_le.mpr (nil_lt_cons a stem))
    | cons b x =>
      rcases cons_le_cons hle with hlt | ⟨rfl, hle'⟩
      · rcases cons_le_cons hxy with hlt' | ⟨rfl, -⟩
        · exact absurd hlt (lt_asymm hlt')
        · exact absurd hlt (lt_irrefl _)
      · rcases cons_le_cons hxy with hlt' | ⟨-, hxy'⟩
        · exact absurd hlt' (lt_irrefl _)
        · exact cons_prefix_cons.mpr ⟨rfl, ih (prefix_append stem tail) hle' hxy'⟩

theorem stem_le {x : List α} (h : stem <+: x) : stem ≤ x := by
  obtain ⟨tail, rfl⟩ := h
  induction stem with
  | nil => exact not_lt.mp (not_lt_nil _)
  | cons a stem ih =>
    refine not_lt.mp fun hlt => ?_
    rcases cons_lt_cons_iff.mp hlt with hlt | ⟨-, hlt⟩
    · exact lt_irrefl a hlt
    · exact not_lt.mpr ih hlt

theorem seek_sublist : (seek key entries target stem).Sublist (entries.insertionSort fun a b => key a ≤ key b) :=
  (takeWhile_sublist _).trans (dropWhile_sublist _)

theorem seek_sorted : (seek key entries target stem).Pairwise fun a b => key a ≤ key b := by
  have htotal : Std.Total fun a b => key a ≤ key b := ⟨fun a b => le_total (key a) (key b)⟩
  have htrans : IsTrans β fun a b => key a ≤ key b := ⟨fun _ _ _ => le_trans⟩
  exact (pairwise_insertionSort (fun a b => key a ≤ key b) entries).sublist seek_sublist

theorem seek_nodup (h : entries.Nodup) : (seek key entries target stem).Nodup :=
  ((perm_insertionSort _ entries).nodup_iff.mpr h).sublist seek_sublist

/-- Of a list in order, the elements left are those from the target on. -/
theorem mem_dropWhile {l : List β} (hsorted : l.Pairwise fun a b => key a ≤ key b) :
    (x ∈ l.dropWhile fun a => key a < target) ↔ x ∈ l ∧ target ≤ key x := by
  induction l with
  | nil => simp
  | cons a l ih =>
    obtain ⟨hle, hsorted⟩ := pairwise_cons.mp hsorted
    by_cases hlt : key a < target
    · rw [dropWhile_cons_of_pos (by simpa using hlt), ih hsorted, mem_cons]
      refine and_congr_left fun hx => ⟨.inr, fun hmem => hmem.resolve_left ?_⟩
      rintro rfl
      exact absurd hx (not_le.mpr hlt)
    · rw [dropWhile_cons_of_neg (by simpa using hlt)]
      refine ⟨fun hmem => ⟨hmem, ?_⟩, fun h => h.1⟩
      rcases mem_cons.mp hmem with rfl | hmem
      · exact not_lt.mp hlt
      · exact (not_lt.mp hlt).trans (hle x hmem)

/-- A condition that holds up to some place of a list holds on the elements taken. -/
theorem mem_takeWhile {p : β → Bool} {l : List β} (hclosed : l.Pairwise fun a b => p b = true → p a = true) :
    x ∈ l.takeWhile p ↔ x ∈ l ∧ p x = true := by
  induction l with
  | nil => simp
  | cons a l ih =>
    obtain ⟨hhead, hclosed⟩ := pairwise_cons.mp hclosed
    by_cases hp : p a = true
    · rw [takeWhile_cons_of_pos hp, mem_cons, ih hclosed, mem_cons]
      refine ⟨?_, fun h => h.1.imp_right fun hmem => ⟨hmem, h.2⟩⟩
      rintro (rfl | ⟨hmem, hx⟩)
      · exact ⟨.inl rfl, hp⟩
      · exact ⟨.inr hmem, hx⟩
    · rw [takeWhile_cons_of_neg hp]
      refine ⟨fun hmem => absurd hmem not_mem_nil, ?_⟩
      rintro ⟨hmem, hx⟩
      rcases mem_cons.mp hmem with rfl | hmem
      · exact absurd hx hp
      · exact absurd (hhead x hmem hx) hp

/-- What an iteration meets. -/
theorem mem_seek (hstem : stem ≤ target) :
    x ∈ seek key entries target stem ↔ x ∈ entries ∧ target ≤ key x ∧ stem <+: key x := by
  have htotal : Std.Total fun a b => key a ≤ key b := ⟨fun a b => le_total (key a) (key b)⟩
  have htrans : IsTrans β fun a b => key a ≤ key b := ⟨fun _ _ _ => le_trans⟩
  have hsorted := pairwise_insertionSort (fun a b => key a ≤ key b) entries
  have hclosed : ((entries.insertionSort fun a b => key a ≤ key b).dropWhile fun a => key a < target).Pairwise
      fun a b => decide (stem <+: key b) = true → decide (stem <+: key a) = true := by
    refine (hsorted.sublist (dropWhile_sublist _)).imp_of_mem fun {a b} ha _ hle hb => ?_
    have hfrom := ((mem_dropWhile hsorted).mp ha).2
    exact decide_eq_true (stem_of_between (of_decide_eq_true hb) (hstem.trans hfrom) hle)
  rw [seek, mem_takeWhile hclosed, mem_dropWhile hsorted, mem_insertionSort, decide_eq_true_iff, and_assoc]

theorem mem_seek_stem : x ∈ seek key entries stem stem ↔ x ∈ entries ∧ stem <+: key x := by
  rw [mem_seek le_rfl]
  exact and_congr_right fun _ => ⟨fun h => h.2, fun h => ⟨stem_le h, h⟩⟩

/-- An iteration depends only on the entries that it meets. -/
theorem seek_congr {entries' : List β} (hinj : Function.Injective key) (hnodup : entries.Nodup) (hnodup' : entries'.Nodup)
    (hstem : stem ≤ target) (hmem : ∀ x, stem <+: key x → (x ∈ entries ↔ x ∈ entries')) :
    seek key entries target stem = seek key entries' target stem := by
  have hperm : (seek key entries target stem).Perm (seek key entries' target stem) := by
    refine (perm_ext_iff_of_nodup (seek_nodup hnodup) (seek_nodup hnodup')).mpr fun x => ?_
    rw [mem_seek hstem, mem_seek hstem]
    exact and_congr_left fun hx => hmem x hx.2
  exact hperm.eq_of_pairwise (fun a b _ _ hab hba => hinj (le_antisymm hab hba)) seek_sorted seek_sorted

/-- What an iteration without a stem meets: first the keys that start with the stem, and then none. -/
theorem seek_nil_split (hstem : stem ≤ target) :
    ∃ rest, seek key entries target [] = seek key entries target stem ++ rest ∧ ∀ x ∈ rest, ¬ stem <+: key x := by
  have htotal : Std.Total fun a b => key a ≤ key b := ⟨fun a b => le_total (key a) (key b)⟩
  have htrans : IsTrans β fun a b => key a ≤ key b := ⟨fun _ _ _ => le_trans⟩
  have hsorted := pairwise_insertionSort (fun a b => key a ≤ key b) entries
  set from_target := (entries.insertionSort fun a b => key a ≤ key b).dropWhile fun a => key a < target with hfrom
  have hall : seek key entries target [] = from_target := by
    rw [seek, ← hfrom, takeWhile_eq_self_iff]
    simp
  refine ⟨from_target.dropWhile fun a => stem <+: key a, ?_, fun x hx hprefix => ?_⟩
  · rw [hall]
    exact takeWhile_append_dropWhile.symm
  · -- the keys with the stem are neighbours, so that none follows a key without it
    have hpair : from_target.Pairwise fun a b => key a ≤ key b := hsorted.sublist (dropWhile_sublist _)
    cases hrest : from_target.dropWhile (fun a => stem <+: key a) with
    | nil =>
      rw [hrest] at hx
      cases hx
    | cons first rest =>
      have hsuffix : (first :: rest).Sublist from_target := hrest ▸ dropWhile_sublist _
      have hfirst : ¬ stem <+: key first := by
        have hnot := List.head?_dropWhile_not (fun a => decide (stem <+: key a)) from_target
        rw [hrest] at hnot
        simpa using hnot
      refine hfirst (stem_of_between hprefix ?_ ?_)
      · exact hstem.trans ((mem_dropWhile hsorted).mp (hsuffix.subset mem_cons_self)).2
      · rw [hrest] at hx
        rcases mem_cons.mp hx with rfl | hx
        · exact le_rfl
        · exact (pairwise_cons.mp (hpair.sublist hsuffix)).1 x hx

end listing
