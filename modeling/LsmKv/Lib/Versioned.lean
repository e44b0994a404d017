import Mathlib

namespace versioned

open List

variable {K V : Type} [LinearOrder K]

/-- A key with a version stamp. A larger stamp is a newer version. -/
structure VersionedKey (K : Type) where
  key : K
  stamp : Nat
deriving DecidableEq, Repr

/-- Keys ascend, and the versions of one key descend by stamp, so that the
    newest version of a key stands first. -/
def VersionedKey.Precedes (a b : VersionedKey K) : Prop :=
  a.key < b.key ∨ a.key = b.key ∧ b.stamp < a.stamp

instance (a b : VersionedKey K) : Decidable (a.Precedes b) :=
  inferInstanceAs (Decidable (_ ∨ _))

theorem VersionedKey.not_precedes_self (a : VersionedKey K) : ¬ a.Precedes a := by
  simp [VersionedKey.Precedes]

variable {a b : VersionedKey K} {e : VersionedKey K × V} {entries : List (VersionedKey K × V)} {k : K} {bound : Nat}

theorem VersionedKey.Precedes.trans {c : VersionedKey K}
    (hab : a.Precedes b) (hbc : b.Precedes c) : a.Precedes c := by
  rcases hab with hab | ⟨hab, hstamp⟩ <;> rcases hbc with hbc | ⟨hbc, hstamp'⟩
  · exact .inl (hab.trans hbc)
  · exact .inl (hbc ▸ hab)
  · exact .inl (hab ▸ hbc)
  · exact .inr ⟨hab.trans hbc, hstamp'.trans hstamp⟩

theorem VersionedKey.precedes_or_eq_or_precedes (a b : VersionedKey K) :
    a.Precedes b ∨ a = b ∨ b.Precedes a := by
  rcases lt_trichotomy a.key b.key with h | h | h
  · exact .inl (.inl h)
  · rcases Nat.lt_trichotomy a.stamp b.stamp with hs | hs | hs
    · exact .inr (.inr (.inr ⟨h.symm, hs⟩))
    · refine .inr (.inl ?_)
      cases a
      cases b
      simp_all
    · exact .inl (.inr ⟨h, hs⟩)
  · exact .inr (.inr (.inl h))

/-- A version that does not come before another one of a smaller or equal key
    has that key's versions at or after it. -/
theorem VersionedKey.key_le_of_not_precedes (h : ¬ a.Precedes b) : b.key ≤ a.key := by
  by_contra hlt
  exact h (.inl (not_le.mp hlt))

/-- A run of entries in strict version order. -/
def Ordered (entries : List (VersionedKey K × V)) : Prop :=
  entries.Pairwise fun a b => a.1.Precedes b.1

theorem Ordered.tail (h : Ordered (e :: entries)) : Ordered entries :=
  (pairwise_cons.mp h).2

theorem Ordered.head_precedes (h : Ordered (e :: entries)) {e' : VersionedKey K × V} (he' : e' ∈ entries) :
    e.1.Precedes e'.1 :=
  (pairwise_cons.mp h).1 e' he'

/-- An ordered run holds at most one entry under each versioned key. -/
theorem Ordered.eq_of_key_eq (h : Ordered entries)
    {a b : VersionedKey K × V} (ha : a ∈ entries) (hb : b ∈ entries) (hkey : a.1 = b.1) :
    a = b := by
  induction entries with
  | nil => cases ha
  | cons e entries ih =>
    rcases mem_cons.mp ha with hae | hat <;> rcases mem_cons.mp hb with hbe | hbt
    · exact hae.trans hbe.symm
    · have hprec := h.head_precedes hbt
      rw [← hae, hkey] at hprec
      exact absurd hprec b.1.not_precedes_self
    · have hprec := h.head_precedes hat
      rw [← hbe, hkey] at hprec
      exact absurd hprec b.1.not_precedes_self
    · exact ih h.tail hat hbt

theorem key_le_of_precedes (h : a.Precedes b) : a.key ≤ b.key := by
  rcases h with h | ⟨h, -⟩
  · exact h.le
  · exact h.le

theorem Ordered.key_le_getLast (h : Ordered entries)
    (hne : entries ≠ []) : ∀ e ∈ entries, e.1.key ≤ (entries.getLast hne).1.key := by
  intro e he
  obtain ⟨front, last, rfl⟩ : ∃ front last, entries = front ++ [last] :=
    ⟨_, _, (dropLast_append_getLast hne).symm⟩
  simp only [getLast_append_singleton]
  rcases mem_append.mp he with he | he
  · exact key_le_of_precedes ((pairwise_append.mp h).2.2 e he last mem_cons_self)
  · rw [mem_singleton.mp he]

/-- The first entry at or after a position, as a seek in an ordered run finds it. -/
def seek (entries : List (VersionedKey K × V)) (target : VersionedKey K) :
    Option (VersionedKey K × V) :=
  entries.find? fun e => ¬ e.1.Precedes target

/-- In an ordered run the entries from a position on are those that do not come before it. -/
theorem Ordered.mem_dropWhile (h : Ordered entries) (target : VersionedKey K) (x : VersionedKey K × V) :
    x ∈ entries.dropWhile (fun e => e.1.Precedes target) ↔ x ∈ entries ∧ ¬ x.1.Precedes target := by
  induction entries with
  | nil => simp
  | cons e entries ih =>
    rw [dropWhile_cons]
    by_cases hprec : e.1.Precedes target
    · rw [if_pos (by simpa using hprec), ih h.tail, mem_cons]
      refine and_congr_left fun hnot => (or_iff_right ?_).symm
      rintro rfl
      exact hnot hprec
    · rw [if_neg (by simpa using hprec)]
      refine ⟨fun hx => ⟨hx, ?_⟩, fun hx => hx.1⟩
      rcases mem_cons.mp hx with rfl | hx
      · exact hprec
      · exact fun hxprec => hprec ((h.head_precedes hx).trans hxprec)

/-- The newest version of a key whose stamp does not exceed a bound. -/
structure IsNewest (entries : List (VersionedKey K × V)) (k : K) (bound : Nat)
    (e : VersionedKey K × V) : Prop where
  mem : e ∈ entries
  key_eq : e.1.key = k
  stamp_le : e.1.stamp ≤ bound
  newest : ∀ e' ∈ entries, e'.1.key = k → e'.1.stamp ≤ bound → e'.1.stamp ≤ e.1.stamp

/-- Seeking the position of a key at a bound stops at the newest admissible
    version of that key, when there is one. -/
theorem seek_of_isNewest (h : Ordered entries) (he : IsNewest entries k bound e) :
    seek entries ⟨k, bound⟩ = some e := by
  induction entries with
  | nil => cases he.mem
  | cons head entries ih =>
    unfold seek
    rw [List.find?_cons]
    by_cases hhead : head.1.Precedes ⟨k, bound⟩
    · simp only [hhead, not_true_eq_false, decide_false]
      refine ih h.tail ⟨?_, he.key_eq, he.stamp_le, fun e' he' => he.newest e' (mem_cons_of_mem _ he')⟩
      rcases mem_cons.mp he.mem with rfl | hmem
      · -- the head is the answer itself, so it cannot stand before the target
        rcases hhead with hlt | ⟨_, hlt⟩
        · exact absurd he.key_eq hlt.ne
        · exact absurd he.stamp_le (not_le.mpr hlt)
      · exact hmem
    · simp only [hhead, not_false_eq_true, decide_true, Option.some.injEq]
      rcases mem_cons.mp he.mem with rfl | hmem
      · rfl
      · have hprec := h.head_precedes hmem
        have hle := VersionedKey.key_le_of_not_precedes hhead
        rcases hprec with hlt | ⟨hkey, hstamp⟩
        · rw [he.key_eq] at hlt
          exact absurd hle (not_le.mpr hlt)
        · -- same key, so the head is an admissible version newer than `e`
          have hhk : head.1.key = k := hkey.trans he.key_eq
          have hbound : head.1.stamp ≤ bound := by
            by_contra hgt
            exact hhead (.inr ⟨hhk, not_le.mp hgt⟩)
          have := he.newest head mem_cons_self hhk hbound
          omega

/-- When no version of the key is admissible, the seek stops at no entry or at
    another key. -/
theorem seek_key_ne (hnone : ∀ e ∈ entries, e.1.key = k → bound < e.1.stamp)
    (he : seek entries ⟨k, bound⟩ = some e) : e.1.key ≠ k := by
  intro hkey
  have hmem := mem_of_find?_eq_some he
  have hprec := List.find?_some he
  simp only [decide_eq_true_eq] at hprec
  exact hprec (.inr ⟨hkey, hnone e hmem hkey⟩)

/-- An entry of the key at which the seek stops is the newest admissible one. -/
theorem Ordered.isNewest_of_seek (h : Ordered entries)
    (he : seek entries ⟨k, bound⟩ = some e) (hkey : e.1.key = k) : IsNewest entries k bound e := by
  obtain ⟨hnot, before, after, rfl, hbefore⟩ := List.find?_eq_some_iff_append.mp he
  have hnot : ¬ e.1.Precedes ⟨k, bound⟩ := by simpa using hnot
  have hstamp : e.1.stamp ≤ bound := by
    by_contra hlt
    exact hnot (.inr ⟨hkey, not_le.mp hlt⟩)
  refine ⟨by simp, hkey, hstamp, fun e' he' hkey' hbound => ?_⟩
  rcases mem_append.mp he' with he' | he'
  · have hprec : e'.1.Precedes ⟨k, bound⟩ := by simpa using hbefore e' he'
    rcases hprec with hlt | ⟨-, hlt⟩
    · exact absurd hkey' hlt.ne
    · exact absurd hbound (not_le.mpr hlt)
  · rcases mem_cons.mp he' with rfl | he'
    · exact le_rfl
    · rcases Ordered.head_precedes (pairwise_append.mp h).2.1 he' with hlt | ⟨-, hlt⟩
      · exact absurd (hkey.trans hkey'.symm) hlt.ne
      · exact hlt.le

/-- A seek that stops at no entry of the key shows that none is admissible. -/
theorem Ordered.lt_stamp_of_seek (h : Ordered entries)
    (hseek : ∀ e, seek entries ⟨k, bound⟩ = some e → e.1.key ≠ k) (he : e ∈ entries)
    (hkey : e.1.key = k) : bound < e.1.stamp := by
  by_contra hle
  have hnot : ¬ e.1.Precedes ⟨k, bound⟩ := by
    rintro (hlt | ⟨-, hlt⟩)
    · exact hlt.ne hkey
    · exact hle hlt
  obtain ⟨e', he'⟩ := Option.isSome_iff_exists.mp
    (List.find?_isSome.mpr ⟨e, he, by simpa using hnot⟩ : (seek entries ⟨k, bound⟩).isSome)
  obtain ⟨hnot', before, after, rfl, hbefore⟩ := List.find?_eq_some_iff_append.mp he'
  have hge : k ≤ e'.1.key := VersionedKey.key_le_of_not_precedes (b := ⟨k, bound⟩) (by simpa using hnot')
  have hle' : e'.1.key ≤ e.1.key := by
    rcases mem_append.mp he with he | he
    · exact absurd (by simpa using hbefore e he) hnot
    · rcases mem_cons.mp he with rfl | he
      · exact le_rfl
      · exact key_le_of_precedes (Ordered.head_precedes (pairwise_append.mp h).2.1 he)
  exact hseek e' he' (le_antisymm (hle'.trans hkey.le) hge)

/-- Of two entries of one key the newer one stands first. -/
def NewestFirst (entries : List (VersionedKey K × V)) : Prop :=
  entries.Pairwise fun a b => a.1.key = b.1.key → b.1.stamp < a.1.stamp

theorem Ordered.newestFirst (h : Ordered entries) : NewestFirst entries := by
  refine h.imp fun hprec hkey => ?_
  rcases hprec with hlt | ⟨-, hlt⟩
  · exact absurd hkey hlt.ne
  · exact hlt

/-- The first entry of a key. -/
def first (entries : List (VersionedKey K × V)) (k : K) : Option (VersionedKey K × V) :=
  entries.find? fun e => e.1.key = k

theorem first_eq_none : first entries k = none ↔ ∀ e ∈ entries, e.1.key ≠ k := by
  simp [first]

/-- The first entry of a key is its newest one. -/
theorem NewestFirst.first_spec (h : NewestFirst entries) (hfirst : first entries k = some e) :
    e ∈ entries ∧ e.1.key = k ∧ ∀ e' ∈ entries, e'.1.key = k → e' = e ∨ e'.1.stamp < e.1.stamp := by
  have hkey : e.1.key = k := by simpa using List.find?_some hfirst
  refine ⟨mem_of_find?_eq_some hfirst, hkey, fun e' he' hkey' => ?_⟩
  obtain ⟨-, before, after, rfl, hbefore⟩ := List.find?_eq_some_iff_append.mp hfirst
  rcases mem_append.mp he' with he' | he'
  · exact absurd hkey' (by simpa using hbefore e' he')
  · rcases mem_cons.mp he' with rfl | he'
    · exact .inl rfl
    · have hnewer := (pairwise_cons.mp (pairwise_append.mp h).2.1).1 e' he'
      exact .inr (hnewer (hkey.trans hkey'.symm))

/-- Insertion into an ordered run; an entry under the same versioned key is
    replaced in place. -/
def insert (k : VersionedKey K) (v : V) : List (VersionedKey K × V) → List (VersionedKey K × V)
  | [] => [(k, v)]
  | e :: entries =>
    if e.1.Precedes k then e :: insert k v entries
    else if e.1 = k then (k, v) :: entries
    else (k, v) :: e :: entries

theorem mem_insert (h : Ordered entries) (k : VersionedKey K) (v : V) (x : VersionedKey K × V) :
    x ∈ insert k v entries ↔ x = (k, v) ∨ x ∈ entries ∧ x.1 ≠ k := by
  induction entries with
  | nil => simp [insert]
  | cons e entries ih =>
    have hne_tail : ¬ e.1.Precedes k → ∀ y ∈ entries, y.1 ≠ k := by
      intro hnot y hy hyk
      exact hnot (hyk ▸ h.head_precedes hy)
    unfold insert
    by_cases hprec : e.1.Precedes k
    · have hek : e.1 ≠ k := fun heq => k.not_precedes_self (heq ▸ hprec)
      simp only [hprec, if_true, mem_cons, ih h.tail]
      constructor
      · rintro (rfl | rfl | ⟨hx, hxk⟩)
        · exact .inr ⟨.inl rfl, hek⟩
        · exact .inl rfl
        · exact .inr ⟨.inr hx, hxk⟩
      · rintro (rfl | ⟨rfl | hx, hxk⟩)
        · exact .inr (.inl rfl)
        · exact .inl rfl
        · exact .inr (.inr ⟨hx, hxk⟩)
    · have htail := hne_tail hprec
      by_cases hek : e.1 = k
      · rw [if_neg hprec, if_pos hek]
        simp only [mem_cons]
        constructor
        · rintro (rfl | hx)
          · exact .inl rfl
          · exact .inr ⟨.inr hx, htail x hx⟩
        · rintro (rfl | ⟨rfl | hx, hxk⟩)
          · exact .inl rfl
          · exact absurd hek hxk
          · exact .inr hx
      · rw [if_neg hprec, if_neg hek]
        simp only [mem_cons]
        constructor
        · rintro (rfl | rfl | hx)
          · exact .inl rfl
          · exact .inr ⟨.inl rfl, hek⟩
          · exact .inr ⟨.inr hx, htail x hx⟩
        · rintro (rfl | ⟨rfl | hx, _⟩)
          · exact .inl rfl
          · exact .inr (.inl rfl)
          · exact .inr (.inr hx)

theorem Ordered.insert (h : Ordered entries)
    (k : VersionedKey K) (v : V) : Ordered (versioned.insert k v entries) := by
  induction entries with
  | nil => exact pairwise_singleton _ _
  | cons e entries ih =>
    unfold versioned.insert
    by_cases hprec : e.1.Precedes k
    · rw [if_pos hprec]
      refine pairwise_cons.mpr ⟨?_, ih h.tail⟩
      intro x hx
      rcases (mem_insert h.tail k v x).mp hx with rfl | ⟨hx, _⟩
      · exact hprec
      · exact h.head_precedes hx
    · by_cases hek : e.1 = k
      · rw [if_neg hprec, if_pos hek]
        exact pairwise_cons.mpr ⟨fun x hx => hek ▸ h.head_precedes hx, h.tail⟩
      · rw [if_neg hprec, if_neg hek]
        have hke : k.Precedes e.1 := by
          rcases VersionedKey.precedes_or_eq_or_precedes e.1 k with h1 | h1 | h1
          · exact absurd h1 hprec
          · exact absurd h1 hek
          · exact h1
        refine pairwise_cons.mpr ⟨?_, h⟩
        intro x hx
        rcases mem_cons.mp hx with rfl | hx
        · exact hke
        · exact hke.trans (h.head_precedes hx)

end versioned
