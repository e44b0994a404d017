import LsmKv.SSTable.BlockFormat

open lsmkv.encoding

namespace lsmkv

open List Block

namespace BlockBuilder

theorem shared_length_le (a b : Bytes) : shared_length a b ≤ a.length := by
  induction a generalizing b with
  | nil => simp [shared_length]
  | cons x a ih =>
    cases b with
    | nil => simp [shared_length]
    | cons y b =>
      rw [shared_length]
      split
      · exact Nat.succ_le_succ (ih b)
      · exact Nat.zero_le _

theorem take_shared_length (a b : Bytes) : a.take (shared_length a b) ++ b.drop (shared_length a b) = b := by
  induction a generalizing b with
  | nil => simp [shared_length]
  | cons x a ih =>
    cases b with
    | nil => simp [shared_length]
    | cons y b =>
      rw [shared_length]
      split
      · next heq => rw [heq, take_succ_cons, drop_succ_cons, cons_append, ih]
      · rfl

/-- A builder to which these entries were added. -/
structure Holds (b : BlockBuilder) (es : List (Bytes × Bytes)) : Prop where
  last_key : b.last_key = Block.lastKey [] es
  key_le : b.last_key.length ≤ b.buffer.length
  entries : Block.Parses [] b.buffer es
  first : b.restarts.head? = some 0
  restart : ∀ r ∈ b.restarts, ∃ front back, es = front ++ back ∧ (front = [] ∨ back ≠ []) ∧
    r ≤ b.buffer.length ∧ Block.Parses [] (b.buffer.drop r) back

theorem holds_empty (restart_interval : Int) : Holds { restart_interval } [] := by
  refine ⟨rfl, le_rfl, Block.Parses.nil [], rfl, fun r hr => ?_⟩
  obtain rfl := mem_singleton.mp hr
  exact ⟨[], [], rfl, .inl rfl, le_rfl, Block.Parses.nil []⟩

variable {b : BlockBuilder} {es : List (Bytes × Bytes)}

/-- Whether the entry starts a new interval is all that the two cases differ in: the restart
    points before it stay, and the one it may add has the entry alone behind it. -/
theorem Holds.add (h : b.Holds es) (key value : Bytes) (hsize : (b.add key value).buffer.length < 2 ^ 32) :
    (b.add key value).Holds (es ++ [(key, value)]) := by
  obtain ⟨shared, hshared, hle, hkey⟩ : ∃ shared, shared = (if decide (b.counter < b.restart_interval)
      then shared_length b.last_key key else 0) ∧ shared ≤ b.last_key.length ∧
      b.last_key.take shared ++ key.drop shared = key := by
    refine ⟨_, rfl, ?_⟩
    split
    · exact ⟨shared_length_le _ _, take_shared_length _ _⟩
    · exact ⟨Nat.zero_le _, by simp⟩
  simp only [BlockBuilder.add, ← hshared] at hsize ⊢
  -- all lengths stay below the widths they are written under
  have hbuffer : b.buffer.length < 2 ^ 32 := by
    simp only [length_append] at hsize
    omega
  have hmodShared : shared % 2 ^ 32 = shared := Nat.mod_eq_of_lt ((hle.trans h.key_le).trans_lt hbuffer)
  have hmodDelta : (key.drop shared).length % 2 ^ 32 = (key.drop shared).length := by
    refine Nat.mod_eq_of_lt ?_
    simp only [length_append] at hsize
    omega
  have hmodValue : value.length % 2 ^ 32 = value.length := by
    refine Nat.mod_eq_of_lt ?_
    simp only [length_append] at hsize
    omega
  have hentry : b.buffer ++ put_varint32 (shared % 2 ^ 32) ++ put_varint32 ((key.drop shared).length % 2 ^ 32) ++
      put_varint32 (value.length % 2 ^ 32) ++ key.drop shared ++ value =
      b.buffer ++ entry_bytes shared (key.drop shared) value := by
    simp only [hmodShared, hmodDelta, hmodValue, entry_bytes, append_assoc]
  rw [hentry] at hsize
  have hentrySize : (entry_bytes shared (key.drop shared) value).length < 2 ^ 32 := by
    rw [length_append] at hsize
    omega
  have hparses : Block.Parses b.last_key (entry_bytes shared (key.drop shared) value) [(key, value)] := by
    have hcons := Block.Parses.cons shared (key.drop shared) value hle (h.key_le.trans_lt hbuffer) hentrySize
      (Block.Parses.nil _)
    rwa [hkey, append_nil] at hcons
  have hgrown : ∀ r, (∃ front back, es = front ++ back ∧ (front = [] ∨ back ≠ []) ∧ r ≤ b.buffer.length ∧
      Block.Parses [] (b.buffer.drop r) back) → ∃ front back, es ++ [(key, value)] = front ++ back ∧
      (front = [] ∨ back ≠ []) ∧ r ≤ (b.buffer ++ entry_bytes shared (key.drop shared) value).length ∧
      Block.Parses [] ((b.buffer ++ entry_bytes shared (key.drop shared) value).drop r) back := by
    rintro r ⟨front, back, hes, hne, hr, hback⟩
    refine ⟨front, back ++ [(key, value)], by rw [hes, append_assoc], .inr (by simp), ?_, ?_⟩
    · rw [length_append]
      omega
    · rw [drop_append_of_le_length hr]
      refine hback.append ?_
      have hlast : Block.lastKey [] back = b.last_key := by
        rw [h.last_key, hes]
        rcases hne with rfl | hne
        · rfl
        · obtain ⟨e, hlast⟩ := Option.ne_none_iff_exists'.mp (mt List.getLast?_eq_none_iff.mp hne)
          simp [Block.lastKey, List.getLast?_append, hlast]
      rw [hlast]
      exact hparses
  have hlastKey : Block.lastKey [] (es ++ [(key, value)]) = key := by simp [Block.lastKey]
  refine ⟨?_, ?_, ?_, ?_, ?_⟩
  · rw [hkey, hlastKey]
  · rw [hkey, hentry]
    have hlength := congrArg List.length hkey
    have hdelta := length_le_entry_bytes shared (key.drop shared) value
    have hbound := h.key_le
    simp only [length_append, length_take] at hlength ⊢
    omega
  · rw [hentry]
    exact h.entries.append (h.last_key ▸ hparses)
  · dsimp only
    split
    · exact h.first
    · rw [List.head?_append, h.first]
      rfl
  · rw [hentry]
    dsimp only
    intro r hr
    split at hr
    · exact hgrown r (h.restart r hr)
    · next hrestart =>
      rcases mem_append.mp hr with hr | hr
      · exact hgrown r (h.restart r hr)
      · rw [mem_singleton, Nat.mod_eq_of_lt hbuffer] at hr
        subst hr
        refine ⟨es, [(key, value)], rfl, .inr (by simp), by simp, ?_⟩
        rw [if_neg hrestart] at hshared
        subst hshared
        rw [drop_left]
        have hcons := Block.Parses.cons 0 key value (Nat.zero_le ([] : Bytes).length) (by simp) hentrySize
          (Block.Parses.nil _)
        rwa [append_nil] at hcons

theorem buffer_length_lt_add (b : BlockBuilder) (key value : Bytes) :
    b.buffer.length < (b.add key value).buffer.length := by
  have hpos := length_pos_of_ne_nil (put_varint_ne_nil (value.length % 2 ^ 32) (value.length % 2 ^ 32))
  simp only [BlockBuilder.add, length_append, put_varint32]
  omega

def add_all (b : BlockBuilder) (es : List (Bytes × Bytes)) : BlockBuilder := es.foldl (fun b e => b.add e.1 e.2) b

theorem add_all_append (b : BlockBuilder) (es es' : List (Bytes × Bytes)) :
    b.add_all (es ++ es') = (b.add_all es).add_all es' := foldl_append

@[simp] theorem add_all_restart_interval (b : BlockBuilder) (es : List (Bytes × Bytes)) :
    (b.add_all es).restart_interval = b.restart_interval := by
  induction es generalizing b with
  | nil => rfl
  | cons e es ih => exact ih _

theorem add_all_buffer_eq_nil {restart_interval : Int} :
    (add_all { restart_interval } es).buffer = [] ↔ es = [] := by
  rcases eq_nil_or_concat es with rfl | ⟨front, e, rfl⟩
  · simp [add_all]
  · have hlt := buffer_length_lt_add (add_all { restart_interval } front) e.1 e.2
    rw [concat_eq_append, add_all_append]
    refine ⟨fun hnil => ?_, fun hnil => by simp at hnil⟩
    have hzero : ((add_all { restart_interval } front).add e.1 e.2).buffer.length = 0 := congrArg List.length hnil
    omega

/-- Entries added to an empty builder, as long as the block stays below 2 ^ 32 bytes: it only grows. -/
theorem holds_add_all (restart_interval : Int)
    (hsize : (add_all { restart_interval } es).buffer.length < 2 ^ 32) : (add_all { restart_interval } es).Holds es := by
  induction es using List.reverseRecOn with
  | nil => exact holds_empty restart_interval
  | append_singleton es e ih =>
    rw [add_all_append] at hsize ⊢
    have hlt := buffer_length_lt_add (add_all { restart_interval } es) e.1 e.2
    exact (ih (hlt.trans hsize)).add e.1 e.2 hsize

theorem flatMap_put_fixed32_length (restarts : List Nat) : (restarts.flatMap put_fixed32).length = restarts.length * 4 := by
  induction restarts with
  | nil => rfl
  | cons r restarts ih =>
    rw [flatMap_cons, length_append, ih, put_fixed32_length, length_cons]
    omega

theorem finish_length (b : BlockBuilder) : b.finish.length = b.current_size_estimate := by
  simp only [finish, current_size_estimate, length_append, flatMap_put_fixed32_length, put_fixed32_length]

/-- The trailer of a finished block counts the restart points. -/
theorem trailer_finish (b : BlockBuilder) (hsize : b.finish.length < 2 ^ 32) :
    Block.trailer b.finish = b.restarts.length := by
  have hlength := b.finish_length
  rw [current_size_estimate] at hlength
  have hdrop : b.finish.drop (b.finish.length - 4) = put_fixed32 (b.restarts.length % 2 ^ 32) ++ [] := by
    rw [append_nil, finish]
    refine drop_left' ?_
    simp only [length_append, flatMap_put_fixed32_length, put_fixed32_length]
    omega
  rw [Block.trailer, hdrop, decode_put_fixed32 (Nat.mod_lt _ (by norm_num)), Nat.mod_eq_of_lt (by omega)]

/-- The restart array starts right behind the entries. -/
theorem new_finish (b : BlockBuilder) (hsize : b.finish.length < 2 ^ 32) :
    Block.new b.finish = { data := b.finish, restart_offset := b.buffer.length } := by
  have hlength := b.finish_length
  rw [current_size_estimate] at hlength
  have hoffset : (UInt32.ofNat b.finish.length - 4 - UInt32.ofNat b.restarts.length * 4).toNat = b.buffer.length := by
    have hlen : (UInt32.ofNat b.finish.length).toNat = b.finish.length := UInt32.toNat_ofNat_of_lt hsize
    have hnum : (UInt32.ofNat b.restarts.length).toNat = b.restarts.length :=
      UInt32.toNat_ofNat_of_lt (show b.restarts.length < 2 ^ 32 by omega)
    have hfour : (4 : UInt32).toNat = 4 := rfl
    rw [UInt32.toNat_sub, UInt32.toNat_sub, UInt32.toNat_mul, hlen, hnum, hfour]
    omega
  rw [Block.new, if_neg (by omega), b.trailer_finish hsize]
  dsimp only
  rw [hoffset, if_neg (by omega)]

/-- Reading the restart array back. -/
theorem restart_point_finish (h : b.Holds es) (hsize : b.finish.length < 2 ^ 32) {i : Nat} (hi : i < b.restarts.length) :
    (Block.new b.finish).restart_point i = b.restarts[i] := by
  have hlength := b.finish_length
  rw [current_size_estimate] at hlength
  have hr : b.restarts[i] < 2 ^ 32 := by
    obtain ⟨front, back, -, -, hle, -⟩ := h.restart _ (getElem_mem hi)
    omega
  have hsplit : b.restarts.flatMap put_fixed32 = (b.restarts.take i).flatMap put_fixed32 ++
      (put_fixed32 b.restarts[i] ++ (b.restarts.drop (i + 1)).flatMap put_fixed32) := by
    rw [← flatMap_cons, ← flatMap_append, getElem_cons_drop, take_append_drop]
  have hfront : (b.buffer ++ (b.restarts.take i).flatMap put_fixed32).length = b.buffer.length + i * 4 := by
    rw [length_append, flatMap_put_fixed32_length, length_take, min_eq_left hi.le]
  have hfinish : b.finish = b.buffer ++ (b.restarts.take i).flatMap put_fixed32 ++ (put_fixed32 b.restarts[i] ++
      ((b.restarts.drop (i + 1)).flatMap put_fixed32 ++ put_fixed32 (b.restarts.length % 2 ^ 32))) := by
    simp only [finish, hsplit, append_assoc]
  rw [b.new_finish hsize, restart_point]
  dsimp only
  rw [hfinish, drop_left' hfront, decode_put_fixed32 hr]

/-- A finished block is read as the entries it was built from. -/
theorem Holds.finish (h : b.Holds es) (hsize : b.finish.length < 2 ^ 32) : (Block.new b.finish).Holds es := by
  have hlength := b.finish_length
  rw [current_size_estimate] at hlength
  have hnew := b.new_finish hsize
  have hnum : (Block.new b.finish).num_restarts = b.restarts.length := by
    rw [hnew, num_restarts, b.trailer_finish hsize]
  have htake : (Block.new b.finish).data.take (Block.new b.finish).restart_offset = b.buffer := by
    rw [hnew, BlockBuilder.finish, append_assoc]
    exact take_left
  refine ⟨by rw [hnew], ?_, by omega, ?_, ?_, fun i hi => ?_⟩
  · rw [hnew]
    dsimp only
    omega
  · obtain ⟨restarts, hrestarts⟩ := List.head?_eq_some_iff.mp h.first
    rw [restart_point_finish h hsize (by rw [hrestarts]; simp)]
    simp [hrestarts]
  · rw [htake]
    exact h.entries
  · rw [hnum] at hi
    obtain ⟨front, back, hes, hne, -, hback⟩ := h.restart _ (getElem_mem hi)
    refine ⟨front, back, hes, hne, ?_⟩
    rw [htake, restart_point_finish h hsize hi]
    exact hback

/-- A block is read back as it was built, whatever its restart interval: an iterator
    returns the entries in their order, and a seek stops at the first entry that is not
    below its target. Keys are assumed to have a tag and to ascend, and the block to be
    shorter than 2 ^ 32 bytes; the iterator may be anywhere. -/
theorem read_built_block (restart_interval : Int) (hlong : ∀ e ∈ es, 8 ≤ e.1.length)
    (hsorted : es.Pairwise fun a b => compare_internal_key a.1 b.1 = .lt)
    (hsize : (add_all { restart_interval } es).finish.length < 2 ^ 32) :
    (Block.new (add_all { restart_interval } es).finish).status = none ∧
      ∀ it : Block.Iterator, it.block = Block.new (add_all { restart_interval } es).finish → it.status = none →
        (∀ n ≤ es.length, (Block.Iterator.next^[n] it.seek_to_first).current = es[n]? ∧
          (Block.Iterator.next^[n] it.seek_to_first).status = none) ∧
        ∀ target, 8 ≤ target.length →
          (it.seek target).current = (es.find? fun e => compare_internal_key e.1 target ≠ .lt) ∧
            (it.seek target).status = none := by
  have hbuffer : (add_all { restart_interval } es).buffer.length < 2 ^ 32 := by
    rw [finish_length, current_size_estimate] at hsize
    omega
  have hholds := (holds_add_all restart_interval hbuffer).finish hsize
  refine ⟨hholds.status, fun it hblock hstatus => ⟨fun n hn => ?_, fun target htarget => ?_⟩⟩
  · have hfirst := it.seek_to_first_before hblock hstatus hholds
    have hat := cursor.iterate_drop (Block.Iterator.Before · _ ·) (fun h => h.next hholds.offset_le) hfirst hn
    exact ⟨by rw [hat.current_eq, List.head?_drop], hat.status⟩
  · have hat := it.seek_before hblock hstatus hholds (ascending_of_sorted hlong hsorted htarget)
    exact ⟨by rw [hat.current_eq, Block.head?_fromTarget], hat.status⟩

/-- Two entries that share a user key, in one interval. -/
theorem read_built_block_shared :
    let es : List (Bytes × Bytes) :=
      [(make_internal_key [97] 2 .kTypeDeletion, []), (make_internal_key [97] 1 .kTypeValue, [7])]
    let block := Block.new (add_all { restart_interval := 16 } es).finish
    block.status = none ∧ (block.new_iterator.seek (make_internal_key [97] 1 .kTypeValue)).current = es[1]? := by
  intro es block
  obtain ⟨hstatus, hread⟩ := @read_built_block es 16 (by decide) (by decide) (by decide +kernel)
  exact ⟨hstatus, ((hread block.new_iterator rfl hstatus).2 _ (by decide)).1⟩

end BlockBuilder

end lsmkv
