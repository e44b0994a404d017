import LsmKv.SSTable.Block

open lsmkv.encoding

namespace lsmkv.Block

open List Option

/-- What is stored in front of the trailer is as long as the trailer says. -/
def ArrayInside (block : Block) : Prop := block.restart_offset + 4 * block.num_restarts + 4 ≤ block.data.length

/-- Something that an iterator decodes: the restart point at which it goes on, the key at a
    restart point that `Seek` looks at, or the entry at its position. -/
inductive Site where
  | restart (it : Iterator) (index : Nat)
  | probe (it : Iterator) (index : Nat)
  | entry (it : Iterator)

inductive Call where
  | seek_to_first
  | seek (target : Bytes)
  | next

namespace Iterator

/-- The iterator at a restart point, before the entry there is decoded. -/
def placed (it : Iterator) (index : Nat) : Iterator :=
  { it with
    p := it.block.restart_point index
    limit := it.block.restart_offset
    key_buf := [] }

theorem to_restart_eq (it : Iterator) (index : Nat) : it.to_restart index = (it.placed index).parse_next := rfl

/-- The restart points that the rounds of `search` look at. -/
def probes (it : Iterator) (target : Bytes) : Nat → Nat → Nat → List Nat
  | 0, _, _ => []
  | fuel + 1, left, right =>
    if left + 1 < right then
      let mid := (left + right) % 2 ^ 32 / 2
      mid :: if compare_internal_key (it.restart_key mid) target = .lt then probes it target fuel mid right
        else probes it target fuel left mid
    else []

/-- The positions from which the rounds of `skip` go on. -/
def skipped (target : Bytes) : Nat → Iterator → List Iterator
  | 0, _ => []
  | fuel + 1, it =>
    if it.valid ∧ compare_internal_key it.key_buf target = .lt then it :: skipped target fuel it.parse_next else []

/-- `Next` may only be called on a valid iterator. -/
def call (it : Iterator) : Call → Iterator
  | .seek_to_first => it.seek_to_first
  | .seek target => it.seek target
  | .next => if it.valid then it.next else it

/-- What a call decodes, in this order. -/
def sites (it : Iterator) : Call → List Site
  | .seek_to_first => if it.status ≠ none then [] else [.restart it 0, .entry (it.placed 0)]
  | .seek target =>
    if it.status ≠ none then []
    else
      let left := it.search target it.block.num_restarts 0 it.block.num_restarts
      (it.probes target it.block.num_restarts 0 it.block.num_restarts).map (.probe it) ++
        .restart it left :: .entry (it.placed left) ::
          (skipped target it.block.restart_offset (it.to_restart left)).map .entry
  | .next => if it.valid then [.entry it] else []

/-- What the calls of a run decode. -/
def run_sites : Iterator → List Call → List Site
  | _, [] => []
  | it, c :: cs => it.sites c ++ run_sites (it.call c) cs

/-- The iterator reports a malformed block. -/
def Rejects (it : Iterator) : Prop := it.valid = false ∧ ∃ msg, it.status = some (.Corruption msg)

end Iterator

namespace Site

/-- All that is decoded here lies in the entry area of the block, the lengths taken as numbers. -/
def Inside : Site → Prop
  | .restart it index => it.block.restart_point index < it.block.restart_offset
  | .probe it index =>
    it.block.restart_point index < it.block.restart_offset ∧
      ∃ shared non_shared value_len q, entry_header (it.placed index).region = some (shared, non_shared, value_len, q) ∧
        it.block.restart_offset - q.length + non_shared ≤ it.block.restart_offset
  | .entry it =>
    it.p < it.limit →
      ∃ shared non_shared value_len q, entry_header it.region = some (shared, non_shared, value_len, q) ∧
        it.limit - q.length + non_shared + value_len ≤ it.block.restart_offset

/-- The iterator once this has been decoded. A round of the search leaves it as it is. -/
def outcome : Site → Iterator
  | .restart it index => it.to_restart index
  | .probe it _ => it
  | .entry it => it.parse_next

/-- What the block has to be like here: a restart point in the entry area, with a key there
    if `Seek` looks at it, and no two lengths that pass the check by wrapping around. -/
def Sound : Site → Prop
  | .restart it index => it.block.restart_point index < it.block.restart_offset
  | .probe it index =>
    it.block.restart_point index < it.block.restart_offset ∧
      ∃ shared non_shared value_len q, entry_header (it.placed index).region = some (shared, non_shared, value_len, q) ∧
        non_shared ≤ q.length
  | .entry it =>
    ∀ shared non_shared value_len q, entry_header it.region = some (shared, non_shared, value_len, q) →
      (non_shared + value_len) % 2 ^ 32 ≤ q.length → shared ≤ it.key_buf.length → non_shared + value_len < 2 ^ 32

end Site

theorem get_varint_loop_length {width rounds shift result v : Nat} {input rest : Bytes}
    (h : get_varint_loop width rounds shift result input = some (v, rest)) : rest.length < input.length := by
  induction rounds generalizing shift result input with
  | zero => cases h
  | succ rounds ih =>
    cases input with
    | nil => cases h
    | cons b input =>
      rw [get_varint_loop] at h
      split at h
      · exact (ih h).trans (Nat.lt_succ_self _)
      · cases h
        exact Nat.lt_succ_self _

theorem entry_header_length {input q : Bytes} {shared non_shared value_len : Nat}
    (h : entry_header input = some (shared, non_shared, value_len, q)) : q.length < input.length := by
  simp only [entry_header, bind_eq_bind, bind_eq_some_iff, Prod.exists, Option.pure_def,
    Option.some.injEq, Prod.mk.injEq] at h
  obtain ⟨_, q₁, h₁, _, q₂, h₂, _, q₃, h₃, -, -, -, rfl⟩ := h
  exact ((get_varint_loop_length h₃).trans (get_varint_loop_length h₂)).trans (get_varint_loop_length h₁)

/-- The offset that the constructor accepts lies before the trailer. -/
theorem new_bounds {data : Bytes} (h : (Block.new data).status = none) :
    4 ≤ data.length ∧ (Block.new data).data = data ∧ (Block.new data).restart_offset + 4 ≤ data.length ∧
      (Block.new data).restart_offset < 2 ^ 32 := by
  unfold Block.new at h ⊢
  by_cases hsmall : data.length < 4
  · rw [if_pos hsmall] at h
    cases h
  · rw [if_neg hsmall] at h ⊢
    dsimp only at h ⊢
    split at h
    · cases h
    · next hle =>
      rw [if_neg hle]
      exact ⟨not_lt.mp hsmall, rfl, by dsimp only; omega, UInt32.toNat_lt _⟩

/-- The constructor accepts just the restart arrays that are inside, unless the count wraps
    around. -/
theorem arrayInside_iff {data : Bytes} (h : (Block.new data).status = none) :
    (Block.new data).ArrayInside ↔ 4 * trailer data + 4 ≤ data.length := by
  obtain ⟨hfour, hdata, hoffset, -⟩ := new_bounds h
  have hvalue : (Block.new data).restart_offset = (UInt32.ofNat data.length - 4 - UInt32.ofNat (trailer data) * 4).toNat := by
    rw [Block.new, if_neg (by omega)]
    dsimp only
    split <;> rfl
  rw [UInt32.toNat_sub, UInt32.toNat_sub, UInt32.toNat_mul, UInt32.toNat_ofNat', UInt32.toNat_ofNat'] at hvalue
  simp only [UInt32.reduceToNat] at hvalue
  rw [ArrayInside, num_restarts, hdata]
  constructor
  · omega
  · omega

namespace Iterator

variable {block : Block} {it : Iterator}

theorem skip_eq_getLastD (target : Bytes) (fuel : Nat) (it : Iterator) :
    skip target fuel it = ((skipped target fuel it).map parse_next).getLastD it := by
  induction fuel generalizing it with
  | zero => rfl
  | succ fuel ih =>
    rw [skip, skipped]
    split
    · rw [ih, map_cons, getLastD_cons]
    · rfl

/-- A call leaves what its last site leaves. -/
theorem call_eq_outcome (hstatus : it.status = none) (c : Call) :
    it.call c = ((it.sites c).map Site.outcome).getLastD it := by
  have hok : ¬ it.status ≠ none := not_not.mpr hstatus
  cases c with
  | seek_to_first =>
    rw [call, seek_to_first, sites, if_neg hok, if_neg hok]
    rfl
  | seek target =>
    rw [call, seek, sites, if_neg hok, if_neg hok]
    dsimp only
    have hlast : ∀ (front rest : List Iterator) (a b x : Iterator),
        (front ++ a :: b :: rest).getLastD x = rest.getLastD b := by
      intro front rest a b x
      induction front generalizing x with
      | nil => rw [nil_append, getLastD_cons, getLastD_cons]
      | cons y front ih => rw [cons_append, getLastD_cons, ih]
    rw [skip_eq_getLastD, map_append, map_cons, map_cons, hlast]
    conv_rhs => rw [List.map_map]
    rfl
  | next =>
    rw [call, sites]
    split <;> rfl

/-- An iterator that has only been called. -/
structure Steady (block : Block) (it : Iterator) : Prop where
  block_eq : it.block = block
  limit_eq : it.valid = true → it.limit = block.restart_offset

theorem region_length (it : Iterator) : it.region.length ≤ it.limit - it.p := by
  rw [region, length_drop, length_take]
  omega

theorem parse_next_fields (it : Iterator) : it.parse_next.block = it.block ∧ it.parse_next.limit = it.limit := by
  unfold parse_next bad_entry
  split
  · exact ⟨rfl, rfl⟩
  · split
    · exact ⟨rfl, rfl⟩
    · split <;> exact ⟨rfl, rfl⟩

theorem Steady.parse_next (hblock : it.block = block) (hlimit : it.limit = block.restart_offset) :
    Steady block it.parse_next :=
  ⟨it.parse_next_fields.1.trans hblock, fun _ => it.parse_next_fields.2.trans hlimit⟩

theorem Steady.to_restart (h : it.Steady block) (index : Nat) : (it.to_restart index).Steady block := by
  rw [to_restart_eq]
  exact @Steady.parse_next block (it.placed index) h.block_eq (congrArg restart_offset h.block_eq)

theorem Steady.skip (h : it.Steady block) (target : Bytes) (fuel : Nat) : (skip target fuel it).Steady block := by
  induction fuel generalizing it with
  | zero => exact h
  | succ fuel ih =>
    rw [Iterator.skip]
    split
    · next hvalid => exact ih (Steady.parse_next h.block_eq (h.limit_eq hvalid.1))
    · exact h

theorem Steady.call (h : it.Steady block) (c : Call) : (it.call c).Steady block := by
  have hinvalid : ({ it with valid := false } : Iterator).Steady block := ⟨h.block_eq, fun hvalid => by cases hvalid⟩
  cases c with
  | seek_to_first =>
    rw [Iterator.call, seek_to_first]
    split
    · exact hinvalid
    · exact h.to_restart 0
  | seek target =>
    rw [Iterator.call, seek]
    split
    · exact hinvalid
    · exact (h.to_restart _).skip target _
  | next =>
    rw [Iterator.call]
    split
    · next hvalid => exact Steady.parse_next h.block_eq (h.limit_eq hvalid)
    · exact h

/-- An entry is inside or refused unless its lengths wrap around. -/
theorem entry_inside_iff (hlimit : it.limit = it.block.restart_offset) (hbound : it.limit < 2 ^ 32) :
    (Site.entry it).Inside ∨ it.parse_next.Rejects ↔ (Site.entry it).Sound := by
  by_cases hend : it.limit ≤ it.p
  · have hnone : entry_header it.region = none := by
      have hnil : it.region = [] := length_eq_zero_iff.mp (by have := it.region_length; omega)
      rw [hnil]
      rfl
    refine iff_of_true (.inl fun hlt => absurd hend (not_le.mpr hlt)) fun shared non_shared value_len q hheader => ?_
    rw [hnone] at hheader
    cases hheader
  · cases hheader : entry_header it.region with
    | none =>
      have hbad : it.parse_next = it.bad_entry := by rw [parse_next, if_neg hend, hheader]
      refine iff_of_true (.inr ?_) fun shared non_shared value_len q hsome => ?_
      · rw [hbad]
        exact ⟨rfl, _, rfl⟩
      · rw [hheader] at hsome
        cases hsome
    | some header =>
      obtain ⟨shared, non_shared, value_len, q⟩ := header
      have hq := (entry_header_length hheader).trans_le it.region_length
      have hsound : (Site.entry it).Sound ↔ ((non_shared + value_len) % 2 ^ 32 ≤ q.length → shared ≤ it.key_buf.length →
          non_shared + value_len < 2 ^ 32) := by
        constructor
        · intro h
          exact h shared non_shared value_len q hheader
        · intro h shared' non_shared' value_len' q' hheader'
          cases hheader.symm.trans hheader'
          exact h
      have hinside : (Site.entry it).Inside ↔ non_shared + value_len ≤ q.length := by
        constructor
        · intro h
          obtain ⟨shared', non_shared', value_len', q', hheader', hle⟩ := h (not_le.mp hend)
          cases hheader.symm.trans hheader'
          omega
        · exact fun h _ => ⟨shared, non_shared, value_len, q, hheader, by omega⟩
      have hrejects : it.parse_next.Rejects ↔ q.length < (non_shared + value_len) % 2 ^ 32 ∨ it.key_buf.length < shared := by
        rw [parse_next, if_neg hend, hheader]
        dsimp only
        split
        · next hbad => exact iff_of_true ⟨rfl, _, rfl⟩ hbad
        · next hgood => exact iff_of_false (fun h => by cases h.1) hgood
      rw [hsound, hinside, hrejects]
      omega

/-- A restart point past the entry area ends the iteration without an error. -/
theorem restart_inside_iff (hstatus : it.status = none) (index : Nat) :
    (Site.restart it index).Inside ∨ (it.to_restart index).Rejects ↔ (Site.restart it index).Sound := by
  refine ⟨fun h => ?_, .inl⟩
  rcases h with hinside | ⟨-, msg, hrejects⟩
  · exact hinside
  · by_contra hnot
    have hend : (it.placed index).limit ≤ (it.placed index).p := not_lt.mp hnot
    rw [to_restart_eq, parse_next, if_pos hend] at hrejects
    cases hstatus.symm.trans hrejects

/-- The search never refuses a key. -/
theorem probe_inside_iff (hstatus : it.status = none) (index : Nat) :
    (Site.probe it index).Inside ∨ it.Rejects ↔ (Site.probe it index).Sound := by
  have hrejects : ¬ it.Rejects := by
    rintro ⟨-, msg, hsome⟩
    cases hstatus.symm.trans hsome
  rw [or_iff_left hrejects]
  refine and_congr_right fun _ => ?_
  refine exists_congr fun shared => exists_congr fun non_shared => exists_congr fun value_len => exists_congr fun q =>
    and_congr_right fun hheader => ?_
  have hq := (entry_header_length hheader).trans_le (it.placed index).region_length
  have hlimit : (it.placed index).limit = it.block.restart_offset := rfl
  omega

theorem Steady.of_mem_skipped (h : it.Steady block) {target : Bytes} {fuel : Nat} {it' : Iterator}
    (hmem : it' ∈ skipped target fuel it) : it'.Steady block ∧ it'.valid = true := by
  induction fuel generalizing it with
  | zero => cases hmem
  | succ fuel ih =>
    rw [skipped] at hmem
    split at hmem
    · next hvalid =>
      rcases mem_cons.mp hmem with rfl | hmem
      · exact ⟨h, hvalid.1⟩
      · exact ih (Steady.parse_next h.block_eq (h.limit_eq hvalid.1)) hmem
    · cases hmem

theorem Steady.entry_iff (h : it.Steady block) (hvalid : it.valid = true) (hbound : block.restart_offset < 2 ^ 32) :
    (Site.entry it).Inside ∨ it.parse_next.Rejects ↔ (Site.entry it).Sound := by
  have hlimit := h.limit_eq hvalid
  refine entry_inside_iff ?_ (hlimit ▸ hbound)
  rw [hlimit, h.block_eq]

section

variable (h : it.Steady block) (hbound : block.restart_offset < 2 ^ 32)

include h hbound

theorem Steady.placed_iff (index : Nat) :
    (Site.entry (it.placed index)).Inside ∨ (it.placed index).parse_next.Rejects ↔ (Site.entry (it.placed index)).Sound := by
  have hlimit : (it.placed index).limit = block.restart_offset := congrArg restart_offset h.block_eq
  exact entry_inside_iff rfl (hlimit ▸ hbound)

/-- Every site of a call is inside or refused just where the block is sound. -/
theorem sites_iff (c : Call) {s : Site} (hs : s ∈ it.sites c) : s.Inside ∨ s.outcome.Rejects ↔ s.Sound := by
  cases c with
  | seek_to_first =>
    rw [sites] at hs
    split at hs
    · cases hs
    · next hstatus =>
      have hstatus := not_not.mp hstatus
      simp only [mem_cons, not_mem_nil, or_false] at hs
      rcases hs with rfl | rfl
      · exact restart_inside_iff hstatus 0
      · exact h.placed_iff hbound 0
  | seek target =>
    rw [sites] at hs
    split at hs
    · cases hs
    · next hstatus =>
      have hstatus := not_not.mp hstatus
      simp only [mem_append, mem_cons, List.mem_map] at hs
      rcases hs with ⟨mid, -, rfl⟩ | rfl | rfl | ⟨it', hmem, rfl⟩
      · exact probe_inside_iff hstatus mid
      · exact restart_inside_iff hstatus _
      · exact h.placed_iff hbound _
      · obtain ⟨hsteady, hvalid⟩ := (h.to_restart _).of_mem_skipped hmem
        exact hsteady.entry_iff hvalid hbound
  | next =>
    rw [sites] at hs
    split at hs
    · next hvalid =>
      rw [mem_singleton.mp hs]
      exact h.entry_iff hvalid hbound
    · cases hs

theorem run_sites_iff (calls : List Call) {s : Site} (hs : s ∈ it.run_sites calls) :
    s.Inside ∨ s.outcome.Rejects ↔ s.Sound := by
  induction calls generalizing it with
  | nil => cases hs
  | cons c calls ih =>
    rcases mem_append.mp hs with hs | hs
    · exact sites_iff h hbound c hs
    · exact ih (h.call c) hs

end

end Iterator

/-- In a block that the constructor accepts the restart array is inside, and all that any
    calls decode is inside or refused as Corruption, exactly if the count of the restarts
    does not wrap around and each site is sound. Nothing else is assumed about the bytes,
    and nothing about the calls. -/
theorem inside_or_rejected_iff (data : Bytes) (haccepted : (Block.new data).status = none) (calls : List Call) :
    ((Block.new data).ArrayInside ∧
      ∀ s ∈ (Block.new data).new_iterator.run_sites calls, s.Inside ∨ s.outcome.Rejects) ↔
      4 * trailer data + 4 ≤ data.length ∧ ∀ s ∈ (Block.new data).new_iterator.run_sites calls, s.Sound := by
  have hsteady : (Block.new data).new_iterator.Steady (Block.new data) := ⟨rfl, fun hvalid => by cases hvalid⟩
  obtain ⟨-, -, -, hbound⟩ := new_bounds haccepted
  refine and_congr (arrayInside_iff haccepted) (forall₂_congr fun s hs => ?_)
  exact Iterator.run_sites_iff hsteady hbound calls hs

/-- A block of one entry, gone through and searched. -/
theorem inside_or_rejected_iff_one :
    (Block.new [0, 1, 1, 97, 98, 0, 0, 0, 0, 1, 0, 0, 0]).status = none ∧
      (((Block.new [0, 1, 1, 97, 98, 0, 0, 0, 0, 1, 0, 0, 0]).ArrayInside ∧
        ∀ s ∈ (Block.new [0, 1, 1, 97, 98, 0, 0, 0, 0, 1, 0, 0, 0]).new_iterator.run_sites [.seek_to_first, .next, .seek [97]],
          s.Inside ∨ s.outcome.Rejects) ↔
        4 * trailer [0, 1, 1, 97, 98, 0, 0, 0, 0, 1, 0, 0, 0] + 4 ≤ 13 ∧
          ∀ s ∈ (Block.new [0, 1, 1, 97, 98, 0, 0, 0, 0, 1, 0, 0, 0]).new_iterator.run_sites [.seek_to_first, .next, .seek [97]],
            s.Sound) :=
  ⟨by decide +kernel, inside_or_rejected_iff _ (by decide +kernel) [.seek_to_first, .next, .seek [97]]⟩

/-- Blocks that are accepted: two lengths of 2 ^ 31 that add up to nothing, a restart point past
    the entries, and a count of 2 ^ 30 restarts. The iterator stands on an entry of 2 ^ 32 bytes,
    or ends without an error. -/
theorem malformed_accepted :
    let lengths := Block.new [0, 0x80, 0x80, 0x80, 0x80, 0x08, 0x80, 0x80, 0x80, 0x80, 0x08, 0, 0, 0, 0, 1, 0, 0, 0]
    let restart := Block.new [0, 1, 1, 97, 98, 200, 0, 0, 0, 1, 0, 0, 0]
    let count := Block.new [0, 1, 1, 97, 98, 0, 0, 0, 0x40]
    (lengths.status = none ∧ lengths.restart_offset = 11 ∧
      entry_header (lengths.new_iterator.placed 0).region = some (0, 2 ^ 31, 2 ^ 31, []) ∧
      lengths.new_iterator.seek_to_first.valid = true ∧ lengths.new_iterator.seek_to_first.status = none) ∧
    (restart.status = none ∧ restart.restart_offset = 5 ∧ restart.restart_point 0 = 200 ∧
      restart.new_iterator.seek_to_first.valid = false ∧ restart.new_iterator.seek_to_first.status = none) ∧
    (count.status = none ∧ count.restart_offset = 5 ∧ count.num_restarts = 2 ^ 30 ∧ count.data.length = 9) := by
  decide +kernel

end lsmkv.Block
