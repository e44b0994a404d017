import Mathlib

/-!
Cyclic redundancy checks of any width, least significant bit first: a register is shifted
once for each bit, and the polynomial is added when a one is shifted out.
-/

namespace crc

open List Function

variable {w : Nat} (p : BitVec w)

def shift (c : BitVec w) : BitVec w := if c.getLsbD 0 then (c >>> 1) ^^^ p else c >>> 1

/-- One bit of a message, in the lowest place of a register. -/
def bitWord (b : Bool) : BitVec w := if b then 1#w else 0#w

def feed (c : BitVec w) (b : Bool) : BitVec w := shift p (c ^^^ bitWord b)

def feedAll (c : BitVec w) (bits : List Bool) : BitVec w := bits.foldl (feed p) c

/-- The bits of a short message as a register. -/
def word : List Bool → BitVec w
  | [] => 0#w
  | b :: bits => bitWord b ^^^ (word bits <<< 1)

variable {p}

section Linear

theorem shift_xor (c d : BitVec w) : shift p (c ^^^ d) = shift p c ^^^ shift p d := by
  unfold shift
  rw [BitVec.getLsbD_xor, BitVec.ushiftRight_xor_distrib]
  refine BitVec.eq_of_getLsbD_eq fun i hi => ?_
  cases c.getLsbD 0 <;> cases d.getLsbD 0 <;> simp only [Bool.xor_false, Bool.xor_true, Bool.not_false, Bool.not_true,
    Bool.false_eq_true, if_true, if_false, BitVec.getLsbD_xor] <;>
    cases (c >>> 1).getLsbD i <;> cases (d >>> 1).getLsbD i <;> cases p.getLsbD i <;> rfl

theorem bitWord_xor (a b : Bool) : (bitWord (a ^^ b) : BitVec w) = bitWord a ^^^ bitWord b := by
  cases a <;> cases b <;> simp [bitWord]

/-- The check is linear in the register and the message together. -/
theorem feedAll_xor {xs ys : List Bool} (h : xs.length = ys.length) (c d : BitVec w) :
    feedAll p (c ^^^ d) (List.zipWith (· ^^ ·) xs ys) = feedAll p c xs ^^^ feedAll p d ys := by
  induction xs generalizing ys c d with
  | nil =>
    cases ys with
    | nil => rfl
    | cons y ys => cases h
  | cons x xs ih =>
    cases ys with
    | nil => cases h
    | cons y ys =>
      have hfeed : feed p (c ^^^ d) (x ^^ y) = feed p c x ^^^ feed p d y := by
        rw [feed, feed, feed, ← shift_xor, bitWord_xor]
        congr 1
        ac_rfl
      rw [zipWith_cons_cons, feedAll, foldl_cons, hfeed]
      exact ih (Nat.succ_inj.mp h) _ _

theorem shifts_xor (n : Nat) (c d : BitVec w) : (shift p)^[n] (c ^^^ d) = (shift p)^[n] c ^^^ (shift p)^[n] d := by
  induction n generalizing c d with
  | zero => rfl
  | succ n ih => rw [iterate_succ_apply, iterate_succ_apply, iterate_succ_apply, shift_xor, ih]

end Linear

section Word

theorem getLsbD_word (bits : List Bool) {i : Nat} (hi : i < w) : (word bits : BitVec w).getLsbD i = (bits[i]?).getD false := by
  induction bits generalizing i with
  | nil => simp [word]
  | cons b bits ih =>
    rw [word, BitVec.getLsbD_xor, BitVec.getLsbD_shiftLeft]
    cases i with
    | zero => cases b <;> simp [bitWord, hi]
    | succ i =>
      have hbit : (bitWord b : BitVec w).getLsbD (i + 1) = false := by cases b <;> simp [bitWord]
      rw [hbit]
      simp [hi, ih (Nat.lt_of_succ_lt hi)]

/-- A register whose highest bit is free is shifted back as it was. -/
theorem shift_shiftLeft {c : BitVec w} (h : ∀ i, i + 1 = w → c.getLsbD i = false) : shift p (c <<< 1) = c := by
  have hlow : (c <<< 1).getLsbD 0 = false := by simp
  rw [shift, hlow]
  refine BitVec.eq_of_getLsbD_eq fun i hi => ?_
  rw [if_neg (by simp), BitVec.getLsbD_ushiftRight, BitVec.getLsbD_shiftLeft]
  by_cases hlast : 1 + i < w
  · simp [hlast]
  · have hzero := h i (by omega)
    simp [hlast, hzero]

theorem shifts_shiftLeft (n : Nat) {c : BitVec w} (h : ∀ i, w ≤ i + n → c.getLsbD i = false) :
    (shift p)^[n] (c <<< n) = c := by
  induction n with
  | zero => simp
  | succ n ih =>
    have hfree : ∀ i, i + 1 = w → (c <<< n).getLsbD i = false := by
      intro i hi
      rw [BitVec.getLsbD_shiftLeft]
      by_cases hlow : i < n
      · simp [hlow]
      · simp [h (i - n) (by omega)]
    rw [BitVec.shiftLeft_add, iterate_succ_apply, shift_shiftLeft hfree]
    exact ih fun i hi => h i (by omega)

/-- Shifting a register by some places needs only the bits that are shifted out: the others
    move down. -/
theorem shifts_eq_low_xor (n : Nat) (c : BitVec w) :
    (shift p)^[n] c = (shift p)^[n] (c &&& BitVec.ofNat w (2 ^ n - 1)) ^^^ (c >>> n) := by
  have hsplit : c = (c &&& BitVec.ofNat w (2 ^ n - 1)) ^^^ ((c >>> n) <<< n) := by
    refine BitVec.eq_of_getLsbD_eq fun i hi => ?_
    rw [BitVec.getLsbD_xor, BitVec.getLsbD_and, BitVec.getLsbD_ofNat, Nat.testBit_two_pow_sub_one,
      BitVec.getLsbD_shiftLeft, BitVec.getLsbD_ushiftRight]
    by_cases hlow : i < n
    · simp [hlow, hi]
    · simp [hlow, hi, Nat.add_sub_cancel' (not_lt.mp hlow)]
  have hhigh : (shift p)^[n] ((c >>> n) <<< n) = c >>> n := by
    refine shifts_shiftLeft n fun i hi => ?_
    rw [BitVec.getLsbD_ushiftRight]
    exact BitVec.getLsbD_of_ge _ _ (by omega)
  conv_lhs => rw [hsplit]
  rw [shifts_xor, hhigh]

/-- A message not longer than the register may as well be added to it at once. -/
theorem feedAll_eq_shifts {bits : List Bool} (h : bits.length ≤ w) (c : BitVec w) :
    feedAll p c bits = (shift p)^[bits.length] (c ^^^ word bits) := by
  induction bits generalizing c with
  | nil => simp [feedAll, word]
  | cons b bits ih =>
    rw [length_cons] at h
    have hfree : ∀ i, i + 1 = w → (word bits : BitVec w).getLsbD i = false := by
      intro i hi
      rw [getLsbD_word bits (by omega), List.getElem?_eq_none (by omega)]
      rfl
    have hshift : shift p (c ^^^ word (b :: bits)) = feed p c b ^^^ word bits := by
      rw [word, ← BitVec.xor_assoc, shift_xor, shift_shiftLeft hfree]
      rfl
    rw [feedAll, foldl_cons, length_cons, iterate_succ_apply, hshift]
    exact ih (by omega) (feed p c b)

theorem word_ne_zero {bits : List Bool} (h : bits.length ≤ w) (htrue : true ∈ bits) : (word bits : BitVec w) ≠ 0#w := by
  obtain ⟨i, hi, hbit⟩ := getElem_of_mem htrue
  intro hzero
  have hget := getLsbD_word bits (hi.trans_le h)
  rw [hzero, List.getElem?_eq_getElem hi, hbit] at hget
  simp at hget

end Word

section Burst

variable (hp : p.msb = true)

include hp

/-- With a polynomial whose highest bit is set no register but zero is shifted to zero. -/
theorem shift_ne_zero {c : BitVec w} (hc : c ≠ 0#w) : shift p c ≠ 0#w := by
  intro hzero
  have hw : 0 < w := by
    by_contra hnot
    obtain rfl : w = 0 := by omega
    exact hc (BitVec.eq_nil c)
  by_cases hlow : c.getLsbD 0
  · have hbit := congrArg (fun x => x.getLsbD (w - 1)) hzero
    have hpbit : p.getLsbD (w - 1) = true := by rw [← BitVec.msb_eq_getLsbD_last, hp]
    have hcbit : (c >>> 1).getLsbD (w - 1) = false := by
      rw [BitVec.getLsbD_ushiftRight]
      exact BitVec.getLsbD_of_ge _ _ (by omega)
    simp only [shift, hlow, if_true, BitVec.getLsbD_xor, hpbit, hcbit] at hbit
    simp at hbit
  · refine hc (BitVec.eq_of_getLsbD_eq fun i hi => ?_)
    rw [shift, if_neg hlow] at hzero
    cases i with
    | zero => simpa using hlow
    | succ i =>
      have hbit := congrArg (fun x => x.getLsbD i) hzero
      simpa [BitVec.getLsbD_ushiftRight, Nat.add_comm 1 i] using hbit

theorem shifts_ne_zero (n : Nat) {c : BitVec w} (hc : c ≠ 0#w) : (shift p)^[n] c ≠ 0#w := by
  induction n generalizing c with
  | zero => exact hc
  | succ n ih =>
    rw [iterate_succ_apply]
    exact ih (shift_ne_zero hp hc)

omit hp in
theorem feedAll_replicate (n : Nat) (c : BitVec w) : feedAll p c (List.replicate n false) = (shift p)^[n] c := by
  induction n generalizing c with
  | zero => rfl
  | succ n ih =>
    have hfeed : feed p c false = shift p c := by simp [feed, bitWord]
    rw [replicate_succ, feedAll, foldl_cons, hfeed, iterate_succ_apply]
    exact ih (shift p c)

/-- A burst not longer than the register leaves a trace, whatever zeros stand around it. -/
theorem feedAll_burst_ne_zero {window : List Bool} (hlength : window.length ≤ w) (htrue : true ∈ window) (before after : Nat) :
    feedAll p 0#w (List.replicate before false ++ (window ++ List.replicate after false)) ≠ 0#w := by
  have hzero : (shift p)^[before] 0#w = 0#w := by
    have hshift : shift p 0#w = 0#w := by simp [shift]
    exact iterate_fixed hshift before
  have hbefore := @feedAll_replicate w p before 0#w
  have hafter := @feedAll_replicate w p after ((shift p)^[window.length] (0#w ^^^ word window))
  rw [feedAll] at hbefore hafter
  rw [feedAll, foldl_append, foldl_append, hbefore, hzero, ← feedAll, ← feedAll, feedAll_eq_shifts hlength,
    feedAll, hafter]
  refine shifts_ne_zero hp after (shifts_ne_zero hp _ ?_)
  rw [BitVec.zero_xor]
  exact word_ne_zero hlength htrue

/-- Two messages that differ only in a window not wider than the register have different
    checks. -/
theorem feedAll_ne {xs ys : List Bool} (hlength : xs.length = ys.length) (hne : xs ≠ ys) {start : Nat}
    (hwindow : ∀ i, xs[i]? ≠ ys[i]? → start ≤ i ∧ i < start + w) (c : BitVec w) : feedAll p c xs ≠ feedAll p c ys := by
  intro heq
  have hdiff : feedAll p 0#w (List.zipWith (· ^^ ·) xs ys) = 0#w := by
    have hxor := @feedAll_xor w p _ _ hlength c c
    rw [BitVec.xor_self, heq, BitVec.xor_self] at hxor
    exact hxor
  set d := List.zipWith (· ^^ ·) xs ys with hd
  have hget : ∀ i, d[i]? = some true → start ≤ i ∧ i < start + w := by
    intro i hi
    refine hwindow i fun hsame => ?_
    rw [hd, List.getElem?_zipWith, hsame] at hi
    cases hy : ys[i]? with
    | none => simp [hy] at hi
    | some y => simp [hy] at hi
  have hfalse : ∀ part : List Bool, true ∉ part → part = List.replicate part.length false := fun part hpart =>
    eq_replicate_iff.mpr ⟨rfl, fun b hb => by
      cases b with
      | false => rfl
      | true => exact absurd hb hpart⟩
  have hfront : true ∉ d.take start := by
    intro hmem
    obtain ⟨i, hi, hbit⟩ := getElem_of_mem hmem
    rw [length_take] at hi
    rw [getElem_take] at hbit
    have := hget i (by rw [List.getElem?_eq_getElem (by omega), hbit])
    omega
  have hback : true ∉ (d.drop start).drop w := by
    intro hmem
    obtain ⟨i, hi, hbit⟩ := getElem_of_mem hmem
    rw [drop_drop] at hi
    rw [length_drop] at hi
    have hplace : d[start + w + i]? = some true := by
      rw [← hbit, ← List.getElem?_eq_getElem, drop_drop, List.getElem?_drop]
    have := hget _ hplace
    omega
  have hmiddle : true ∈ (d.drop start).take w := by
    by_contra hnone
    apply hne
    have hall : true ∉ d := by
      rw [← take_append_drop start d, ← take_append_drop w (d.drop start)]
      simp only [mem_append, not_or]
      exact ⟨hfront, hnone, hback⟩
    refine ext_getElem hlength fun i hi hi' => ?_
    by_contra hbits
    refine hall (mem_of_getElem? (i := i) ?_)
    rw [hd, List.getElem?_zipWith, List.getElem?_eq_getElem hi, List.getElem?_eq_getElem hi']
    simp only [Option.some.injEq]
    revert hbits
    cases xs[i] <;> cases ys[i] <;> simp
  have hparts : d = List.replicate (d.take start).length false ++
      ((d.drop start).take w ++ List.replicate ((d.drop start).drop w).length false) := by
    conv_lhs => rw [← take_append_drop start d, ← take_append_drop w (d.drop start)]
    rw [← hfalse _ hfront, ← hfalse _ hback]
  rw [hparts] at hdiff
  exact feedAll_burst_ne_zero hp (length_take_le _ _) hmiddle _ _ hdiff

end Burst

end crc
