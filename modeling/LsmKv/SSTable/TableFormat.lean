import LsmKv.SSTable.BlockFormat
import LsmKv.SSTable.Table

open lsmkv.encoding
open lsmkv.Block (Ascending fromTarget)

namespace lsmkv

open List Option

namespace SSTable

/-- A data block of a table: the entries it was written with and its handle. -/
structure Part where
  entries : List (Bytes × Bytes)
  offset : Nat
  size : Nat

/-- The index lists a block under its last key. -/
def Part.index_entry (p : Part) : Bytes × Bytes :=
  (Block.lastKey [] p.entries, put_fixed64 p.offset ++ put_fixed64 p.size)

theorem decode_fixed64_append {v : Nat} (hv : v < 2 ^ 64) (rest : Bytes) :
    decode_fixed64 (put_fixed64 v ++ rest) = v := by
  rw [decode_fixed64, take_append_of_le_length (put_fixed64_length v).ge]
  exact decode_put_fixed64 hv

namespace Image

/-- Data blocks that may be damaged: one that passes its checksum holds what was written there. -/
structure Sound (t : Image) (parts : List Part) : Prop where
  entries_ne : ∀ p ∈ parts, p.entries ≠ []
  handle_lt : ∀ p ∈ parts, p.offset < 2 ^ 64 ∧ p.size < 2 ^ 64
  holds : ∀ p ∈ parts, ∀ data, t.read_block p.offset p.size = .ok data → (Block.new data).Holds p.entries

/-- A table whose index was read, and lists these blocks. -/
structure Lists (t : Image) (index : Block) (parts : List Part) : Prop extends Sound t parts where
  index_read : ∃ data, t.read_block t.index_offset t.index_size = .ok data ∧ Block.new data = index
  index_holds : index.Holds (parts.map Part.index_entry)

/-- The entries ahead of the first damaged block. -/
def readable (t : Image) : List Part → List (Bytes × Bytes)
  | [] => []
  | p :: parts => if (t.read_block p.offset p.size).isOk then p.entries ++ t.readable parts else []

variable {t : Image} {index : Block} {parts : List Part}

theorem Sound.tail {p : Part} (h : t.Sound (p :: parts)) : t.Sound parts :=
  ⟨fun q hq => h.entries_ne q (mem_cons_of_mem _ hq), fun q hq => h.handle_lt q (mem_cons_of_mem _ hq),
    fun q hq => h.holds q (mem_cons_of_mem _ hq)⟩

theorem read_handle_index_entry (t : Image) {p : Part} (hp : p.offset < 2 ^ 64 ∧ p.size < 2 ^ 64) :
    t.read_handle p.index_entry.2 = t.read_block p.offset p.size := by
  have hdrop : p.index_entry.2.drop 8 = put_fixed64 p.size := drop_left' (put_fixed64_length _)
  rw [read_handle, if_neg (by simp [Part.index_entry]), hdrop, decode_put_fixed64 hp.2]
  simp only [Part.index_entry, decode_fixed64_append hp.1]

theorem readable_of_intact (hintact : ∀ p ∈ parts, (t.read_block p.offset p.size).isOk = true) :
    t.readable parts = parts.flatMap Part.entries := by
  induction parts with
  | nil => rfl
  | cons p parts ih =>
    obtain ⟨hp, hparts⟩ := forall_mem_cons.mp hintact
    rw [readable, if_pos hp, ih hparts, flatMap_cons]

namespace Iterator

variable {it : Iterator} {es : List (Bytes × Bytes)}

/-- An iterator that read the index of its table. -/
structure Ready (it : Iterator) (t : Image) (index : Block) : Prop where
  table_eq : it.table = t
  index_eq : ∃ i, it.index_iter = some i ∧ i.block = index ∧ i.status = none

/-- The table iterator stands before these entries: those left in its data block, and those of
    the blocks that its index iterator has yet to reach. -/
structure Before (it : Iterator) (t : Image) (index : Block) (es : List (Bytes × Bytes)) : Prop
    extends it.Ready t index where
  current_eq : it.current = es.head?
  rest : es ≠ [] → ∃ i d block p, ∃ (inside : List (Bytes × Bytes)) (later : List Part),
    it.index_iter = some i ∧ i.Before index ((p :: later).map Part.index_entry) ∧ t.Sound later ∧
    it.data_iter = some d ∧ d.Before block inside ∧ block.restart_offset ≤ block.data.length ∧
    inside ≠ [] ∧ es = inside ++ t.readable later

theorem new_iterator_ready (h : t.Lists index parts) : t.new_iterator.Ready t index := by
  obtain ⟨data, hread, rfl⟩ := h.index_read
  have hstatus := h.index_holds.status
  simp only [new_iterator, hread, hstatus]
  exact ⟨rfl, _, rfl, rfl, hstatus⟩

/-- Loading the block on which the index stands: nothing when the index is exhausted or the
    block is damaged, and otherwise an iterator over what was written there. -/
theorem init_data_block_spec (it : Iterator) (htable : it.table = t) {i : Block.Iterator} (hindex : it.index_iter = some i)
    (hi : i.Before index (parts.map Part.index_entry)) (hsound : t.Sound parts) :
    it.init_data_block.table = t ∧ it.init_data_block.index_iter = some i ∧
      ((it.init_data_block.data_iter = none ∧ t.readable parts = []) ∨
        ∃ p later, ∃ block : Block, parts = p :: later ∧ block.Holds p.entries ∧
          it.init_data_block.data_iter = some block.new_iterator ∧
          t.readable parts = p.entries ++ t.readable later) := by
  have hcurrent : it.index_iter.bind Block.Iterator.current = (parts.map Part.index_entry).head? := by
    rw [hindex, bind_some, hi.current_eq]
  subst htable
  rw [init_data_block, hcurrent]
  cases parts with
  | nil => exact ⟨rfl, hindex, .inl ⟨rfl, rfl⟩⟩
  | cons p parts =>
    have hread := it.table.read_handle_index_entry (hsound.handle_lt p mem_cons_self)
    simp only [map_cons, List.head?_cons, hread]
    cases hblock : it.table.read_block p.offset p.size with
    | error s =>
      refine ⟨rfl, hindex, .inl ⟨rfl, ?_⟩⟩
      rw [readable, hblock]
      rfl
    | ok data =>
      have hdata := hsound.holds p mem_cons_self data hblock
      simp only [hdata.status]
      refine ⟨trivial, hindex, .inr ⟨p, parts, _, rfl, hdata, rfl, ?_⟩⟩
      rw [readable, hblock]
      rfl

theorem start_block_before (htable : it.table = t) {i : Block.Iterator} (hindex : it.index_iter = some i)
    (hi : i.Before index (parts.map Part.index_entry)) (hsound : t.Sound parts) :
    it.start_block.Before t index (t.readable parts) := by
  obtain ⟨htable', hindex', hcases⟩ := it.init_data_block_spec htable hindex hi hsound
  have hready : it.start_block.Ready t index := ⟨htable', i, hindex', hi.block_eq, hi.status⟩
  rcases hcases with ⟨hdata, hnil⟩ | ⟨p, later, block, rfl, hholds, hdata, hreadable⟩
  · refine ⟨hready, ?_, fun hne => absurd hnil hne⟩
    rw [hnil]
    simp only [current, start_block, hdata]
    rfl
  · have hd := block.new_iterator.seek_to_first_before rfl hholds.status hholds
    have hne := hsound.entries_ne p mem_cons_self
    refine ⟨hready, ?_, fun _ => ?_⟩
    · simp only [current, start_block, hdata, map_some, bind_some]
      rw [hd.current_eq, hreadable, List.head?_append_of_ne_nil _ hne]
    · refine ⟨i, _, block, p, p.entries, later, hindex', hi, hsound.tail, ?_, hd, hholds.offset_le, hne, hreadable⟩
      simp only [start_block, hdata, map_some]

theorem seek_to_first_before (h : t.Lists index parts) (hit : it.Ready t index) :
    it.seek_to_first.Before t index (t.readable parts) := by
  obtain ⟨i, hindex, hblock, hstatus⟩ := hit.index_eq
  have hi := i.seek_to_first_before hblock hstatus h.index_holds
  rw [seek_to_first, hindex]
  exact start_block_before hit.table_eq rfl hi h.toSound

theorem next_eq {i d : Block.Iterator} (hindex : it.index_iter = some i) (hdata : it.data_iter = some d) :
    it.next = if d.next.current.isSome then { it with data_iter := some d.next }
      else if i.next.current.isSome then start_block { it with index_iter := some i.next, data_iter := some d.next }
      else { it with index_iter := some i.next, data_iter := some d.next } := by
  simp only [next, valid, current, hindex, hdata, map_some, bind_some]

/-- Moving on inside a block, or to the next block when the block is exhausted. -/
theorem Before.next (hoffset : index.restart_offset ≤ index.data.length) {e : Bytes × Bytes}
    (h : it.Before t index (e :: es)) : it.next.Before t index es := by
  obtain ⟨i, d, block, p, inside, later, hindex, hi, hsound, hdata, hd, hblock, hne, hes⟩ :=
    h.rest (cons_ne_nil _ _)
  obtain ⟨e', inside, rfl⟩ := exists_cons_of_ne_nil hne
  obtain ⟨rfl, rfl⟩ := List.cons.inj hes
  have hd' := hd.next hblock
  have hi' := hi.next hoffset
  rw [next_eq hindex hdata, hd'.current_eq, hi'.current_eq]
  cases inside with
  | cons e' inside =>
    refine ⟨⟨h.table_eq, h.index_eq⟩, ?_, fun _ => ?_⟩
    · exact hd'.current_eq
    · exact ⟨i, _, block, p, _, later, hindex, hi, hsound, rfl, hd', hblock, cons_ne_nil _ _, rfl⟩
  | nil =>
    cases later with
    | nil =>
      refine ⟨⟨h.table_eq, i.next, rfl, hi'.block_eq, hi'.status⟩, ?_, fun hcontra => absurd rfl hcontra⟩
      exact hd'.current_eq
    | cons q later => exact start_block_before h.table_eq rfl hi' hsound

end Iterator

section Seek

variable {es : List (Bytes × Bytes)} {target : Bytes}

theorem index_entry_key {p : Part} (hp : p.entries ≠ []) : p.index_entry.1 = (p.entries.getLast hp).1 := by
  simp [Part.index_entry, Block.lastKey, List.getLast?_eq_getLast_of_ne_nil hp]

theorem index_ascending (hne : ∀ p ∈ parts, p.entries ≠ []) (hasc : Ascending (parts.flatMap Part.entries) target) :
    Ascending (parts.map Part.index_entry) target := by
  rw [Ascending, pairwise_map]
  refine (pairwise_flatMap.mp hasc).2.imp_of_mem fun {p q} hp hq hpq => ?_
  rw [index_entry_key (hne p hp), index_entry_key (hne q hq)]
  exact hpq _ (getLast_mem _) _ (getLast_mem _)

/-- The blocks whose last key lies below the target hold only entries below it, and the next
    block holds one that does not. -/
theorem fromTarget_parts (hne : ∀ p ∈ parts, p.entries ≠ []) (hasc : Ascending (parts.flatMap Part.entries) target) :
    ∃ after, (∀ p ∈ after, p ∈ parts) ∧
      fromTarget (parts.map Part.index_entry) target = after.map Part.index_entry ∧
      ((after = [] ∧ fromTarget (parts.flatMap Part.entries) target = []) ∨
        ∃ p later, after = p :: later ∧ fromTarget p.entries target ≠ [] ∧
          fromTarget (parts.flatMap Part.entries) target =
            fromTarget p.entries target ++ later.flatMap Part.entries) := by
  induction parts with
  | nil => exact ⟨[], by simp, rfl, .inl ⟨rfl, rfl⟩⟩
  | cons p parts ih =>
    obtain ⟨hp, hparts⟩ := forall_mem_cons.mp hne
    rw [flatMap_cons] at hasc ⊢
    obtain ⟨hfirst, hrest, -⟩ := pairwise_append.mp hasc
    by_cases hlt : compare_internal_key p.index_entry.1 target = .lt
    · have hbelow : ∀ e ∈ p.entries, compare_internal_key e.1 target = .lt := by
        intro e he
        rw [index_entry_key hp] at hlt
        rw [← dropLast_append_getLast hp] at he hfirst
        rcases mem_append.mp he with he | he
        · exact (pairwise_append.mp hfirst).2.2 e he _ mem_cons_self hlt
        · rw [mem_singleton.mp he]
          exact hlt
      have hindex : fromTarget ((p :: parts).map Part.index_entry) target =
          fromTarget (parts.map Part.index_entry) target :=
        dropWhile_cons_of_pos (decide_eq_true hlt)
      have hentries : fromTarget (p.entries ++ parts.flatMap Part.entries) target =
          fromTarget (parts.flatMap Part.entries) target :=
        dropWhile_append_of_pos fun e he => decide_eq_true (hbelow e he)
      obtain ⟨after, hsub, hafter⟩ := ih hparts hrest
      refine ⟨after, fun q hq => mem_cons_of_mem _ (hsub q hq), ?_⟩
      rw [hindex, hentries]
      exact hafter
    · have hstays : fromTarget p.entries target ≠ [] := by
        intro hnil
        have hall := dropWhile_eq_nil_iff.mp hnil _ (getLast_mem hp)
        exact hlt (index_entry_key hp ▸ of_decide_eq_true hall)
      refine ⟨p :: parts, fun q hq => hq, ?_, .inr ⟨p, parts, rfl, hstays, ?_⟩⟩
      · exact dropWhile_cons_of_neg (by simpa using hlt)
      · rw [fromTarget, dropWhile_append, if_neg (by simpa [fromTarget] using hstays)]
        rfl

theorem ascending_part (hasc : Ascending (parts.flatMap Part.entries) target) {p : Part} (hp : p ∈ parts) :
    Ascending p.entries target :=
  (pairwise_flatMap.mp hasc).1 p hp

variable (h : t.Lists index parts) (hintact : ∀ p ∈ parts, (t.read_block p.offset p.size).isOk = true)
  (hasc : Ascending (parts.flatMap Part.entries) target)

include h hintact hasc

/-- A seek in an undamaged table stands before the entries that do not lie below the target. -/
theorem Iterator.seek_before {it : Iterator} (hit : it.Ready t index) :
    (it.seek target).Before t index (fromTarget (parts.flatMap Part.entries) target) := by
  obtain ⟨i, hindex, hblock, hstatus⟩ := hit.index_eq
  have hi := i.seek_before hblock hstatus h.index_holds (index_ascending h.entries_ne hasc)
  obtain ⟨after, hsub, hafter, hcases⟩ := fromTarget_parts h.entries_ne hasc
  rw [hafter] at hi
  have hsound : t.Sound after := ⟨fun p hp => h.entries_ne p (hsub p hp), fun p hp => h.handle_lt p (hsub p hp),
    fun p hp => h.holds p (hsub p hp)⟩
  have hreadable := readable_of_intact fun p hp => hintact p (hsub p hp)
  rw [seek, hindex]
  dsimp only
  obtain ⟨htable', hindex', hinit⟩ := init_data_block_spec { it with index_iter := some (i.seek target) }
    hit.table_eq rfl hi hsound
  have hready : ∀ d, Ready { init_data_block { it with index_iter := some (i.seek target) } with data_iter := d } t index :=
    fun d => ⟨htable', _, hindex', hi.block_eq, hi.status⟩
  rcases hcases with ⟨rfl, hnil⟩ | ⟨p, later, rfl, hstays, heq⟩
  · rcases hinit with ⟨hdata, -⟩ | ⟨p, later, block, hcontra, -⟩
    · refine ⟨hready _, ?_, fun hne => absurd hnil hne⟩
      rw [hnil]
      simp only [current, hdata]
      rfl
    · cases hcontra
  · have hp := hsub p mem_cons_self
    rcases hinit with ⟨-, hnone⟩ | ⟨p', later', block, hcons, hholds, hdata, -⟩
    · rw [hreadable, flatMap_cons, append_eq_nil_iff] at hnone
      exact absurd hnone.1 (h.entries_ne p hp)
    · obtain ⟨rfl, rfl⟩ := List.cons.inj hcons
      have hd := block.new_iterator.seek_before rfl hholds.status hholds (ascending_part hasc hp)
      refine ⟨hready _, ?_, fun _ => ?_⟩
      · simp only [current, hdata, map_some, bind_some]
        rw [hd.current_eq, heq, List.head?_append_of_ne_nil _ hstays]
      · refine ⟨_, _, block, p, _, later, hindex', hi, hsound.tail, ?_, hd, hholds.offset_le, hstays, ?_⟩
        · simp only [hdata, map_some]
        · rw [heq, readable_of_intact fun q hq => hintact q (hsub q (mem_cons_of_mem _ hq))]

/-- A lookup in an undamaged table checks the first entry that does not lie below its key. -/
theorem get_eq (value : Bytes) :
    t.get target value = check_found target value (fromTarget (parts.flatMap Part.entries) target).head? := by
  obtain ⟨data, hread, rfl⟩ := h.index_read
  have hstatus := h.index_holds.status
  have hi := (Block.new data).new_iterator.seek_before rfl hstatus h.index_holds (index_ascending h.entries_ne hasc)
  obtain ⟨after, hsub, hafter, hcases⟩ := fromTarget_parts h.entries_ne hasc
  have hcurrent : ((Block.new data).new_iterator.seek target).current = (after.map Part.index_entry).head? := by
    rw [hi.current_eq, hafter]
  simp only [get, hread, hstatus, hcurrent]
  rcases hcases with ⟨rfl, hnil⟩ | ⟨p, later, rfl, hstays, heq⟩
  · rw [hnil]
    rfl
  · have hp := hsub p mem_cons_self
    have hhandle := t.read_handle_index_entry (h.handle_lt p hp)
    simp only [map_cons, List.head?_cons, hhandle]
    cases hblock : t.read_block p.offset p.size with
    | error s => simpa [hblock, Except.isOk, Except.toBool] using hintact p hp
    | ok block_data =>
      have hholds := h.holds p hp block_data hblock
      have hd := (Block.new block_data).new_iterator.seek_before rfl hholds.status hholds (ascending_part hasc hp)
      simp only
      rw [hd.current_eq, heq, List.head?_append_of_ne_nil _ hstays]

end Seek

end Image

end SSTable

end lsmkv
