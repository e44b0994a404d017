import Mathlib.Order.Basic

/-!
Producers that are asked for one element at a time, and what comes out of them.
-/

namespace pulling

variable {ε α β σ : Type}

/-- A producer ends, since its rank falls with every element. -/
structure Producer (σ ε α : Type) where
  next : σ → Except ε (Option (α × σ))
  rank : σ → Nat
  rank_lt : ∀ {s s' a}, next s = .ok (some (a, s')) → rank s' < rank s

/-- The elements that come out, and the failure that ends them if there is one. -/
structure Output (ε α : Type) where
  elements : List α
  failure : Option ε

namespace Output

def failed (e : ε) : Output ε α := ⟨[], some e⟩

def cons (a : α) (o : Output ε α) : Output ε α := { o with elements := a :: o.elements }

/-- What is left for a caller who takes all elements or none. -/
def all (o : Output ε α) : Except ε (List α) :=
  match o.failure with
  | none => .ok o.elements
  | some e => .error e

def pickFrom (f : α → Except ε (Option β)) (failure : Option ε) : List α → Output ε β
  | [] => ⟨[], failure⟩
  | a :: as =>
    match f a with
    | .error e => failed e
    | .ok none => pickFrom f failure as
    | .ok (some b) => (pickFrom f failure as).cons b

/-- The elements that `f` makes of those that come out, until it fails. -/
def pick (f : α → Except ε (Option β)) (o : Output ε α) : Output ε β := pickFrom f o.failure o.elements

/-- The first `n` elements; what comes behind them, a failure too, is not seen. -/
def take (n : Nat) (o : Output ε α) : Output ε α :=
  if n ≤ o.elements.length then ⟨o.elements.take n, none⟩ else o

theorem take_cons (n : Nat) (a : α) (o : Output ε α) : (o.cons a).take (n + 1) = (o.take n).cons a := by
  by_cases hn : n ≤ o.elements.length <;> simp [take, cons, hn]

end Output

namespace Producer

variable (p : Producer σ ε α) (f : α → Except ε (Option β))

/-- Asking until the end. -/
def output (s : σ) : Output ε α :=
  match _hnext : p.next s with
  | .error e => .failed e
  | .ok none => ⟨[], none⟩
  | .ok (some (a, s')) => (output s').cons a
termination_by p.rank s
decreasing_by exact p.rank_lt _hnext

/-- Asking until `f` makes an element of the answer. -/
def seek (s : σ) : Except ε (Option (β × σ)) :=
  match _hnext : p.next s with
  | .error e => .error e
  | .ok none => .ok none
  | .ok (some (a, s')) =>
    match f a with
    | .error e => .error e
    | .ok none => seek s'
    | .ok (some b) => .ok (some (b, s'))
termination_by p.rank s
decreasing_by exact p.rank_lt _hnext

theorem seek_rank_lt {s s' : σ} {b : β} (h : p.seek f s = .ok (some (b, s'))) : p.rank s' < p.rank s := by
  fun_induction seek p f s with
  | case1 | case2 | case3 => cases h
  | case4 s a s'' hnext _ ih => exact Nat.lt_trans (ih h) (p.rank_lt hnext)
  | case5 s a s'' hnext b _ =>
    cases h
    exact p.rank_lt hnext

def pick : Producer σ ε β where
  next := p.seek f
  rank := p.rank
  rank_lt := p.seek_rank_lt f

/-- No more than a number of elements are asked for. -/
def take : Producer (σ × Nat) ε α where
  next
    | (_, 0) => .ok none
    | (s, n + 1) =>
      match p.next s with
      | .error e => .error e
      | .ok none => .ok none
      | .ok (some (a, s')) => .ok (some (a, (s', n)))
  rank s := p.rank s.1
  rank_lt {s s' a} h := by
    split at h
    · cases h
    · split at h
      · cases h
      · cases h
      · next hnext =>
        cases h
        exact p.rank_lt hnext

/-- The elements of a list. -/
def ofList : Producer (List α) ε α where
  next
    | [] => .ok none
    | a :: as => .ok (some (a, as))
  rank := List.length
  rank_lt {s s' a} h := by
    split at h
    · cases h
    · cases h
      exact Nat.lt_succ_self _

theorem output_eq (s : σ) : p.output s =
    match p.next s with
    | .error e => .failed e
    | .ok none => ⟨[], none⟩
    | .ok (some (a, s')) => (p.output s').cons a := by
  rw [output]
  split <;> simp_all

theorem seek_eq (s : σ) : (p.pick f).next s =
    match p.next s with
    | .error e => .error e
    | .ok none => .ok none
    | .ok (some (a, s')) =>
      match f a with
      | .error e => .error e
      | .ok none => (p.pick f).next s'
      | .ok (some b) => .ok (some (b, s')) := by
  rw [show (p.pick f).next s = p.seek f s from rfl, seek]
  split <;> simp_all [pick]

theorem output_pick (s : σ) : (p.pick f).output s = (p.output s).pick f := by
  fun_induction output p s with
  | case1 s e hnext | case2 s hnext =>
    rw [output_eq, seek_eq, hnext]
    rfl
  | case3 s a s' hnext ih =>
    rw [output_eq, seek_eq, hnext, Output.pick, Output.cons, Output.pickFrom]
    dsimp only
    cases f a with
    | error e => rfl
    | ok r =>
      cases r with
      | none => exact ((p.pick f).output_eq s').symm.trans ih
      | some b => exact congrArg (·.cons b) ih

theorem output_take (s : σ) (n : Nat) : p.take.output (s, n) = (p.output s).take n := by
  induction n generalizing s with
  | zero => exact output_eq ..
  | succ n ih =>
    rw [output_eq, output_eq]
    cases hnext : p.next s with
    | error e => simp only [take, hnext]; rfl
    | ok r =>
      cases r with
      | none => simp only [take, hnext]; rfl
      | some r =>
        simp only [take, hnext, Output.take_cons]
        exact congrArg (·.cons r.1) (ih r.2)

theorem output_ofList (as : List α) : (ofList : Producer (List α) ε α).output as = ⟨as, none⟩ := by
  induction as with
  | nil => exact output_eq ..
  | cons a as ih => exact (output_eq ..).trans (congrArg (·.cons a) ih)

end Producer

end pulling
