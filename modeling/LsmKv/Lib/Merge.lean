import LsmKv.Lib.Versioned

namespace versioned

open List

variable {K V : Type} [LinearOrder K]

/-- One step of a k-way merge: the leftmost input whose head no other head
    precedes gives up that head. -/
def pickBest : List (List (VersionedKey K × V)) →
    Option ((VersionedKey K × V) × List (List (VersionedKey K × V)))
  | [] => none
  | [] :: rest => (pickBest rest).map fun (e, rest') => (e, [] :: rest')
  | (x :: xs) :: rest =>
    match pickBest rest with
    | none => some (x, xs :: rest)
    | some (e, rest') =>
      if e.1.Precedes x.1 then some (e, (x :: xs) :: rest') else some (x, xs :: rest)

/-- The merge loop: the first version met of each key is emitted and the older
    ones, which follow it at once, are dropped. -/
def mergeNewest : Nat → Option K → List (List (VersionedKey K × V)) → List (VersionedKey K × V)
  | 0, _, _ => []
  | fuel + 1, last, inputs =>
    match pickBest inputs with
    | none => []
    | some (e, inputs') =>
      if last = some e.1.key then mergeNewest fuel last inputs'
      else e :: mergeNewest fuel (some e.1.key) inputs'

variable {inputs : List (List (VersionedKey K × V))}

theorem pickBest_eq_none (h : pickBest inputs = none) : inputs.flatten = [] := by
  induction inputs with
  | nil => rfl
  | cons input rest ih =>
    cases input with
    | nil =>
      simp only [pickBest, Option.map_eq_none_iff] at h
      simpa using ih h
    | cons x xs =>
      simp only [pickBest] at h
      split at h
      · cases h
      · split at h <;> cases h

/-- The entry picked leaves the inputs exactly once, keeps every input ordered
    and is preceded by no entry of any input. -/
theorem pickBest_spec (hordered : ∀ input ∈ inputs, Ordered input) {e : VersionedKey K × V}
    {inputs' : List (List (VersionedKey K × V))} (h : pickBest inputs = some (e, inputs')) :
    inputs.flatten.Perm (e :: inputs'.flatten) ∧ (∀ input ∈ inputs', Ordered input) ∧
      ∀ x ∈ inputs.flatten, ¬ x.1.Precedes e.1 := by
  induction inputs generalizing e inputs' with
  | nil => cases h
  | cons input rest ih =>
    have hrest : ∀ input ∈ rest, Ordered input := fun i hi => hordered i (mem_cons_of_mem _ hi)
    cases input with
    | nil =>
      simp only [pickBest, Option.map_eq_some_iff] at h
      obtain ⟨⟨e₀, rest'⟩, hpick, heq⟩ := h
      cases heq
      obtain ⟨hperm, hord, hmin⟩ := ih hrest hpick
      refine ⟨by simpa using hperm, ?_, by simpa using hmin⟩
      intro input hinput
      rcases mem_cons.mp hinput with rfl | hinput
      · exact List.Pairwise.nil
      · exact hord input hinput
    | cons x xs =>
      have hx : Ordered (x :: xs) := hordered _ mem_cons_self
      have hself : ∀ y ∈ x :: xs, ¬ y.1.Precedes x.1 := by
        intro y hy hyx
        rcases mem_cons.mp hy with rfl | hy
        · exact y.1.not_precedes_self hyx
        · exact x.1.not_precedes_self ((hx.head_precedes hy).trans hyx)
      -- the head of the first input wins unless a later head strictly precedes it
      have hfirst : (∀ y ∈ rest.flatten, ¬ y.1.Precedes x.1) → e = x → inputs' = xs :: rest →
          ((x :: xs) :: rest).flatten.Perm (e :: inputs'.flatten) ∧
            (∀ input ∈ inputs', Ordered input) ∧
            ∀ y ∈ ((x :: xs) :: rest).flatten, ¬ y.1.Precedes e.1 := by
        rintro hmin rfl rfl
        refine ⟨by simp, ?_, ?_⟩
        · intro input hinput
          rcases mem_cons.mp hinput with rfl | hinput
          · exact hx.tail
          · exact hrest input hinput
        · intro y hy
          rw [flatten_cons] at hy
          rcases mem_append.mp hy with hy | hy
          · exact hself y hy
          · exact hmin y hy
      simp only [pickBest] at h
      cases hpick : pickBest rest with
      | none =>
        simp only [hpick, Option.some.injEq, Prod.mk.injEq] at h
        exact hfirst (by simp [pickBest_eq_none hpick]) h.1.symm h.2.symm
      | some best =>
        obtain ⟨e₀, rest'⟩ := best
        obtain ⟨hperm, hord, hmin⟩ := ih hrest hpick
        simp only [hpick] at h
        by_cases hlt : e₀.1.Precedes x.1
        · simp only [hlt, if_true, Option.some.injEq, Prod.mk.injEq] at h
          obtain ⟨rfl, rfl⟩ := h
          refine ⟨?_, ?_, ?_⟩
          · have hmid : ((x :: xs) ++ rest.flatten).Perm ((x :: xs) ++ e₀ :: rest'.flatten) :=
              List.Perm.append_left _ hperm
            exact hmid.trans perm_middle
          · intro input hinput
            rcases mem_cons.mp hinput with rfl | hinput
            · exact hx
            · exact hord input hinput
          · intro y hy hye
            rw [flatten_cons] at hy
            rcases mem_append.mp hy with hy | hy
            · exact hself y hy (hye.trans hlt)
            · exact hmin y hy hye
        · simp only [hlt, if_false, Option.some.injEq, Prod.mk.injEq] at h
          refine hfirst ?_ h.1.symm h.2.symm
          intro y hy hyx
          rcases VersionedKey.precedes_or_eq_or_precedes e₀.1 x.1 with h1 | h1 | h1
          · exact hlt h1
          · exact hmin y hy (h1 ▸ hyx)
          · exact hmin y hy (hyx.trans h1)

/-- With enough fuel for every input entry, the merge of ordered inputs whose
    keys all lie at or after the last emitted key is an ordered run of the
    remaining keys, one entry a key, each the newest of all inputs. -/
theorem mergeNewest_spec (fuel : Nat) (last : Option K) (inputs : List (List (VersionedKey K × V)))
    (hfuel : inputs.flatten.length ≤ fuel) (hordered : ∀ input ∈ inputs, Ordered input)
    (hlast : ∀ u, last = some u → ∀ x ∈ inputs.flatten, u ≤ x.1.key) :
    (mergeNewest fuel last inputs).Pairwise (fun a b => a.1.key < b.1.key) ∧
      (∀ e ∈ mergeNewest fuel last inputs, e ∈ inputs.flatten ∧ last ≠ some e.1.key ∧
        ∀ x ∈ inputs.flatten, x.1.key = e.1.key → x.1.stamp ≤ e.1.stamp) ∧
      ∀ x ∈ inputs.flatten, last ≠ some x.1.key →
        ∃ e ∈ mergeNewest fuel last inputs, e.1.key = x.1.key := by
  induction fuel generalizing last inputs with
  | zero =>
    have hnil : inputs.flatten = [] := eq_nil_of_length_eq_zero (Nat.le_zero.mp hfuel)
    simp [mergeNewest, hnil]
  | succ fuel ih =>
    cases hpick : pickBest inputs with
    | none => simp [mergeNewest, hpick, pickBest_eq_none hpick]
    | some best =>
      obtain ⟨e, inputs'⟩ := best
      obtain ⟨hperm, hord, hmin⟩ := pickBest_spec hordered hpick
      have hlen : inputs'.flatten.length ≤ fuel := by
        have := hperm.length_eq
        simp only [length_cons] at this
        omega
      have hsub : ∀ x ∈ inputs'.flatten, x ∈ inputs.flatten := fun x hx =>
        hperm.mem_iff.mpr (mem_cons_of_mem _ hx)
      have hmem : e ∈ inputs.flatten := hperm.mem_iff.mpr mem_cons_self
      have hkey : ∀ x ∈ inputs.flatten, e.1.key ≤ x.1.key := fun x hx =>
        VersionedKey.key_le_of_not_precedes (hmin x hx)
      have hnewest : ∀ x ∈ inputs.flatten, x.1.key = e.1.key → x.1.stamp ≤ e.1.stamp := by
        intro x hx hxe
        by_contra hgt
        exact hmin x hx (.inr ⟨hxe, not_le.mp hgt⟩)
      simp only [mergeNewest, hpick]
      by_cases hemit : last = some e.1.key
      · simp only [hemit, if_true]
        obtain ⟨hpair, hsound, hcover⟩ := ih (some e.1.key) inputs' hlen hord
          (fun u hu x hx => by cases hu; exact hkey x (hsub x hx))
        refine ⟨hpair, ?_, ?_⟩
        · intro y hy
          obtain ⟨hy', hne, hnew⟩ := hsound y hy
          refine ⟨hsub y hy', hne, ?_⟩
          intro x hx hxy
          rcases mem_cons.mp (hperm.mem_iff.mp hx) with rfl | hx
          · exact absurd (congrArg some hxy) hne
          · exact hnew x hx hxy
        · intro x hx hne
          rcases mem_cons.mp (hperm.mem_iff.mp hx) with rfl | hx
          · exact absurd rfl hne
          · exact hcover x hx hne
      · simp only [hemit, if_false]
        obtain ⟨hpair, hsound, hcover⟩ := ih (some e.1.key) inputs' hlen hord
          (fun u hu x hx => by cases hu; exact hkey x (hsub x hx))
        refine ⟨?_, ?_, ?_⟩
        · refine pairwise_cons.mpr ⟨?_, hpair⟩
          intro y hy
          obtain ⟨hy', hne, _⟩ := hsound y hy
          exact lt_of_le_of_ne (hkey y (hsub y hy')) fun heq => hne (congrArg some heq)
        · intro y hy
          rcases mem_cons.mp hy with rfl | hy
          · exact ⟨hmem, hemit, hnewest⟩
          · obtain ⟨hy', hne, hnew⟩ := hsound y hy
            have hgt : e.1.key < y.1.key :=
              lt_of_le_of_ne (hkey y (hsub y hy')) fun heq => hne (congrArg some heq)
            refine ⟨hsub y hy', ?_, ?_⟩
            · intro hl
              exact absurd (hlast _ hl e hmem) (not_le.mpr hgt)
            · intro x hx hxy
              rcases mem_cons.mp (hperm.mem_iff.mp hx) with rfl | hx
              · exact absurd hxy hgt.ne
              · exact hnew x hx hxy
        · intro x hx hne
          by_cases hxe : x.1.key = e.1.key
          · exact ⟨e, mem_cons_self, hxe.symm⟩
          · rcases mem_cons.mp (hperm.mem_iff.mp hx) with rfl | hx
            · exact absurd rfl hxe
            · obtain ⟨y, hy, hyx⟩ := hcover x hx fun h => hxe (Option.some.inj h).symm
              exact ⟨y, mem_cons_of_mem _ hy, hyx⟩

/-- Strictly ascending keys are in particular strictly in version order. -/
theorem ordered_of_pairwise_key_lt {entries : List (VersionedKey K × V)}
    (h : entries.Pairwise fun a b => a.1.key < b.1.key) : Ordered entries :=
  h.imp fun hab => .inl hab

end versioned
