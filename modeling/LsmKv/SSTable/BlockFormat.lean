import LsmKv.Lib.Cursor
import LsmKv.SSTable.Block

open lsmkv.encoding

namespace lsmkv

open List

namespace Block

/-- An entry that shares a leading part of the previous key. -/
def entry_bytes (shared : Nat) (delta value : Bytes) : Bytes :=
  put_varint32 shared ++ put_varint32 delta.length ++ put_varint32 value.length ++ delta ++ value

/-- Bytes that decode to entries when the key before them is `prev`. -/
inductive Parses : Bytes → Bytes → List (Bytes × Bytes) → Prop
  | nil (prev : Bytes) : Parses prev [] []
  | cons {prev rest : Bytes} {es : List (Bytes × Bytes)} (shared : Nat) (delta value : Bytes)
      (hshared : shared ≤ prev.length) (hprev : prev.length < 2 ^ 32)
      (hsize : (entry_bytes shared delta value).length < 2 ^ 32)
      (hrest : Parses (prev.take shared ++ delta) rest es) :
      Parses prev (entry_bytes shared delta value ++ rest) ((prev.take shared ++ delta, value) :: es)

theorem put_varint_ne_nil (fuel v : Nat) : put_varint fuel v ≠ [] := by
  cases fuel with
  | zero => simp [put_varint]
  | succ fuel =>
    rw [put_varint]
    split <;> simp

theorem length_le_entry_bytes (shared : Nat) (delta value : Bytes) :
    delta.length + value.length < (entry_bytes shared delta value).length := by
  have hpos := length_pos_of_ne_nil (put_varint_ne_nil shared shared)
  simp only [entry_bytes, put_varint32, length_append]
  omega

theorem entry_header_entry_bytes {shared : Nat} {delta value : Bytes} (hshared : shared < 2 ^ 32)
    (hsize : (entry_bytes shared delta value).length < 2 ^ 32) (rest : Bytes) :
    entry_header (entry_bytes shared delta value ++ rest) =
      some (shared, delta.length, value.length, delta ++ (value ++ rest)) := by
  have hlength := length_le_entry_bytes shared delta value
  have hdelta : delta.length < 2 ^ 32 := by omega
  have hvalue : value.length < 2 ^ 32 := by omega
  simp only [entry_header, entry_bytes, append_assoc, get_put_varint32 hshared, get_put_varint32 hdelta,
    get_put_varint32 hvalue, Option.bind_eq_bind, Option.bind_some]
  rfl

/-- The key before the entry that would follow. -/
def lastKey (prev : Bytes) (es : List (Bytes × Bytes)) : Bytes := (es.getLast?.map Prod.fst).getD prev

theorem lastKey_cons (prev : Bytes) (e : Bytes × Bytes) (es : List (Bytes × Bytes)) :
    lastKey prev (e :: es) = lastKey e.1 es := by
  cases es with
  | nil => rfl
  | cons e' es =>
    rw [lastKey, lastKey, List.getLast?_cons_cons, List.getLast?_cons]
    rfl

variable {prev bytes : Bytes} {es : List (Bytes × Bytes)}

theorem Parses.append {bytes' : Bytes} {es' : List (Bytes × Bytes)} (h : Parses prev bytes es)
    (h' : Parses (lastKey prev es) bytes' es') : Parses prev (bytes ++ bytes') (es ++ es') := by
  induction h with
  | nil prev => exact h'
  | cons shared delta value hshared hprev hsize _ ih =>
    rw [lastKey_cons] at h'
    rw [append_assoc]
    exact Parses.cons shared delta value hshared hprev hsize (ih h')

theorem Parses.length_le (h : Parses prev bytes es) : es.length ≤ bytes.length := by
  induction h with
  | nil prev => exact le_rfl
  | cons shared delta value _ _ _ _ ih =>
    have := length_le_entry_bytes shared delta value
    rw [length_cons, length_append]
    omega

theorem Parses.values_le (h : Parses prev bytes es) {n : Nat}
    (hn : ∀ e ∈ es, n ≤ e.2.length) : es.length * n ≤ bytes.length := by
  induction h with
  | nil prev => simp
  | cons shared delta value _ _ _ _ ih =>
    obtain ⟨hvalue, hrest⟩ := forall_mem_cons.mp hn
    have hlength := length_le_entry_bytes shared delta value
    have hmore := ih hrest
    simp only [length_cons, Nat.succ_mul, length_append] at hvalue ⊢
    omega

/-- The entries that lie below the target come first. -/
def Ascending (es : List (Bytes × Bytes)) (target : Bytes) : Prop :=
  es.Pairwise fun a b => compare_internal_key b.1 target = .lt → compare_internal_key a.1 target = .lt

/-- The entries from the target on. -/
def fromTarget (es : List (Bytes × Bytes)) (target : Bytes) : List (Bytes × Bytes) :=
  es.dropWhile fun e => compare_internal_key e.1 target = .lt

/-- Entries in the internal key order lie below a target up to some point. -/
theorem ascending_of_sorted {target : Bytes} (hlong : ∀ e ∈ es, 8 ≤ e.1.length)
    (hsorted : es.Pairwise fun a b => compare_internal_key a.1 b.1 = .lt) (htarget : 8 ≤ target.length) :
    Ascending es target := by
  refine hsorted.imp_of_mem fun {a b} ha hb hab hlt => ?_
  rw [InternalKey.compare_eq_lt_iff (hlong a ha) (hlong b hb)] at hab
  rw [InternalKey.compare_eq_lt_iff (hlong b hb) htarget] at hlt
  rw [InternalKey.compare_eq_lt_iff (hlong a ha) htarget]
  exact hab.trans hlt

theorem head?_fromTarget (es : List (Bytes × Bytes)) (target : Bytes) :
    (fromTarget es target).head? = es.find? fun e => compare_internal_key e.1 target ≠ .lt := by
  rw [fromTarget, List.find?_eq_head?_dropWhile_not]
  simp

/-- What the trailer and the restart array of a block of these entries must say. Each restart
    point cuts the entries in two, and a key stored in full follows it. -/
structure Holds (block : Block) (es : List (Bytes × Bytes)) : Prop where
  status : block.status = none
  offset_le : block.restart_offset ≤ block.data.length
  restarts_lt : block.num_restarts < 2 ^ 31
  first : block.restart_point 0 = 0
  entries : Parses [] (block.data.take block.restart_offset) es
  restart : ∀ i < block.num_restarts, ∃ front back, es = front ++ back ∧ (front = [] ∨ back ≠ []) ∧
    Parses [] ((block.data.take block.restart_offset).drop (block.restart_point i)) back

namespace Iterator

/-- The iterator stands before these entries of a block: on the first of them, or past the end. -/
structure Before (it : Iterator) (block : Block) (es : List (Bytes × Bytes)) : Prop where
  block_eq : it.block = block
  status : it.status = none
  current_eq : it.current = es.head?
  rest : es ≠ [] → it.limit = block.restart_offset ∧ Parses it.key_buf it.region es.tail

variable {block : Block} {es : List (Bytes × Bytes)} {it : Iterator}

theorem Before.valid_iff (h : it.Before block es) : it.valid = true ↔ es ≠ [] := by
  have hcurrent := h.current_eq
  cases es with
  | nil =>
    rw [current] at hcurrent
    split at hcurrent
    · cases hcurrent
    · next hinvalid => simpa using hinvalid
  | cons e es =>
    rw [current] at hcurrent
    split at hcurrent
    · next hvalid => simpa using hvalid
    · cases hcurrent

variable {e : Bytes × Bytes} {back : List (Bytes × Bytes)}

theorem Before.key_eq (h : it.Before block (e :: es)) : it.key_buf = e.1 ∧ it.value = e.2 := by
  have hcurrent := h.current_eq
  rw [current, if_pos (h.valid_iff.mpr (cons_ne_nil _ _))] at hcurrent
  obtain rfl := Option.some.inj hcurrent
  exact ⟨rfl, rfl⟩

/-- A suffix of a list starts where its length says. -/
theorem drop_of_append_eq {l a rest : Bytes} {p : Nat} (h : l.drop p = a ++ rest) :
    l.drop (l.length - rest.length) = rest := by
  have hsuffix : rest <:+ l := (suffix_append a rest).trans (h ▸ drop_suffix p l)
  exact (suffix_iff_eq_drop.mp hsuffix).symm

/-- One step of the decoder, from any position whose bytes parse. -/
theorem parse_next_before (hblock : it.block = block) (hoffset : block.restart_offset ≤ block.data.length)
    (hstatus : it.status = none) (hlimit : it.limit = block.restart_offset)
    (hparses : Parses it.key_buf it.region es) : it.parse_next.Before block es := by
  have hlength : (it.block.data.take it.limit).length = it.limit := by
    rw [length_take, hblock, hlimit]
    exact min_eq_left hoffset
  generalize hregion : it.region = bytes at hparses
  generalize hkey : it.key_buf = prev at hparses
  have hregionLength : bytes.length = it.limit - it.p := by
    rw [← hregion, region, length_drop, hlength]
  cases hparses with
  | nil =>
    have hend : it.limit ≤ it.p := by
      rw [length_nil] at hregionLength
      omega
    rw [parse_next, if_pos hend]
    exact ⟨hblock, hstatus, rfl, fun hne => absurd rfl hne⟩
  | @cons _ rest es shared delta value hshared hprev hsize hrest =>
    have hsum := length_le_entry_bytes shared delta value
    have hinside : ¬ it.limit ≤ it.p := by
      rw [length_append] at hregionLength
      omega
    have hheader := entry_header_entry_bytes (hshared.trans_lt hprev) hsize rest
    have hroom : ¬ ((delta ++ (value ++ rest)).length < (delta.length + value.length) % 2 ^ 32 ∨
        it.key_buf.length < shared) := by
      rw [hkey, Nat.mod_eq_of_lt (hsum.trans hsize)]
      simp only [length_append]
      omega
    have hp : it.limit - (delta ++ (value ++ rest)).length + delta.length + value.length =
        it.limit - rest.length := by
      simp only [length_append] at hregionLength ⊢
      omega
    rw [parse_next, if_neg hinside, hregion, hheader]
    dsimp only
    rw [if_neg hroom, hkey, take_left, drop_left, take_left, hp]
    refine ⟨hblock, hstatus, rfl, fun _ => ⟨hlimit, ?_⟩⟩
    have hafter := drop_of_append_eq hregion
    rw [hlength] at hafter
    rw [region, hafter]
    exact hrest

theorem Before.next (hoffset : block.restart_offset ≤ block.data.length)
    (h : it.Before block (e :: es)) : it.next.Before block es := by
  obtain ⟨hlimit, hrest⟩ := h.rest (cons_ne_nil _ _)
  exact parse_next_before h.block_eq hoffset h.status hlimit hrest

theorem to_restart_before (hblock : it.block = block) (hstatus : it.status = none) (h : block.Holds es) {i : Nat}
    (hback : Parses [] ((block.data.take block.restart_offset).drop (block.restart_point i)) back) :
    (it.to_restart i).Before block back := by
  subst hblock
  exact parse_next_before rfl h.offset_le hstatus rfl hback

theorem seek_to_first_before (it : Iterator) (hblock : it.block = block) (hstatus : it.status = none) (h : block.Holds es) :
    it.seek_to_first.Before block es := by
  rw [seek_to_first, if_neg (not_not.mpr hstatus)]
  refine to_restart_before hblock hstatus h ?_
  rw [h.first, drop_zero]
  exact h.entries

/-- The scan leaves out the entries below the target. -/
theorem skip_before (hoffset : block.restart_offset ≤ block.data.length) (target : Bytes) {fuel : Nat}
    (hfuel : es.length ≤ fuel) (h : it.Before block es) :
    (skip target fuel it).Before block (fromTarget es target) := by
  induction fuel generalizing it es with
  | zero =>
    obtain rfl := length_eq_zero_iff.mp (Nat.le_zero.mp hfuel)
    exact h
  | succ fuel ih =>
    rw [skip]
    cases es with
    | nil =>
      rw [if_neg (fun hvalid => (h.valid_iff.mp hvalid.1) rfl)]
      exact h
    | cons e es =>
      have hvalid := h.valid_iff.mpr (cons_ne_nil _ _)
      rw [fromTarget, dropWhile_cons, h.key_eq.1]
      by_cases hlt : compare_internal_key e.1 target = .lt
      · rw [if_pos ⟨hvalid, hlt⟩, if_pos (decide_eq_true hlt)]
        exact ih (Nat.le_of_succ_le_succ hfuel) (h.next hoffset)
      · rw [if_neg (fun hboth => hlt hboth.2), if_neg (by simpa using hlt)]
        exact h

/-- A restart key is the first key behind its restart point. -/
theorem restart_key_eq (hblock : it.block = block) {i : Nat}
    (hback : Parses [] ((block.data.take block.restart_offset).drop (block.restart_point i)) (e :: back)) :
    it.restart_key i = e.1 := by
  subst hblock
  rw [restart_key]
  generalize (it.block.data.take it.block.restart_offset).drop (it.block.restart_point i) = bytes at hback
  cases hback with
  | cons shared delta value hshared hprev hsize hrest =>
    rw [entry_header_entry_bytes (hshared.trans_lt hprev) hsize]
    simp

/-- The binary search ends at the first restart point or at one whose key lies below the target. -/
theorem search_spec (it : Iterator) (target : Bytes) (fuel left right : Nat) (hfuel : right ≤ left + fuel)
    (hright : right < 2 ^ 31) (hle : left < right ∨ left = 0)
    (hleft : left = 0 ∨ compare_internal_key (it.restart_key left) target = .lt) :
    let i := it.search target fuel left right
    (i = 0 ∨ i < right) ∧ (i = 0 ∨ compare_internal_key (it.restart_key i) target = .lt) := by
  induction fuel generalizing left right with
  | zero =>
    have hzero : left = 0 := by omega
    exact ⟨.inl hzero, hleft⟩
  | succ fuel ih =>
    rw [search]
    by_cases hmore : left + 1 < right
    · have hmid : (left + right) % 2 ^ 32 = left + right := Nat.mod_eq_of_lt (by omega)
      rw [if_pos hmore, hmid]
      dsimp only
      by_cases hlt : compare_internal_key (it.restart_key ((left + right) / 2)) target = .lt
      · rw [if_pos hlt]
        exact ih _ _ (by omega) hright (.inl (by omega)) (.inr hlt)
      · rw [if_neg hlt]
        obtain ⟨hbound, hkey⟩ := ih left ((left + right) / 2) (by omega) (by omega) (.inl (by omega)) hleft
        exact ⟨hbound.imp_right fun hlt => by omega, hkey⟩
    · rw [if_neg hmore]
      exact ⟨by omega, hleft⟩

/-- A seek stands before the entries that do not lie below the target, when those that do come first. -/
theorem seek_before (it : Iterator) (hblock : it.block = block) (hstatus : it.status = none) (h : block.Holds es)
    {target : Bytes} (hasc : Ascending es target) : (it.seek target).Before block (fromTarget es target) := by
  rw [seek, if_neg (not_not.mpr hstatus)]
  dsimp only
  obtain ⟨hbound, hkey⟩ := it.search_spec target it.block.num_restarts 0 it.block.num_restarts (by omega)
    (hblock ▸ h.restarts_lt) (.inr rfl) (.inl rfl)
  generalize it.search target it.block.num_restarts 0 it.block.num_restarts = i at hbound hkey
  -- whatever restart point the search chose, only entries below the target lie before it
  obtain ⟨front, back, hes, hback, hfront⟩ : ∃ front back, es = front ++ back ∧
      Parses [] ((block.data.take block.restart_offset).drop (block.restart_point i)) back ∧
      ∀ e ∈ front, compare_internal_key e.1 target = .lt := by
    rcases hkey with rfl | hlt
    · refine ⟨[], es, rfl, ?_, by simp⟩
      rw [h.first, drop_zero]
      exact h.entries
    · by_cases hzero : i = 0
      · subst hzero
        refine ⟨[], es, rfl, ?_, by simp⟩
        rw [h.first, drop_zero]
        exact h.entries
      · obtain ⟨front, back, hes, hne, hback⟩ := h.restart i (hblock ▸ hbound.resolve_left hzero)
        refine ⟨front, back, hes, hback, ?_⟩
        cases back with
        | nil => simp [hne.resolve_right (fun hcontra => hcontra rfl)]
        | cons e back =>
          rw [restart_key_eq hblock hback] at hlt
          rw [hes] at hasc
          intro x hx
          exact (pairwise_append.mp hasc).2.2 x hx e mem_cons_self hlt
  have hdrop : fromTarget es target = fromTarget back target := by
    rw [hes]
    exact dropWhile_append_of_pos (by simpa using hfront)
  rw [hdrop]
  refine skip_before h.offset_le target ?_ (to_restart_before hblock hstatus h hback)
  have hlength := hback.length_le
  rw [length_drop, length_take] at hlength
  rw [hblock]
  omega

end Iterator

end Block

end lsmkv
