import Mathlib.Logic.Basic

/-!
Computations whose single operations can fail. A failed operation changes nothing and
ends the computation; what was changed before it, in the store and in memory, stays.
-/

namespace failing

/-- The operations that fail, by their number in a computation, and what they report. -/
abbrev Plan (E : Type) := Nat → Option E

variable {S E α β : Type}

def never : Plan E := fun _ => none

/-- One operation fails. -/
def once (op : Nat) (e : E) : Plan E := fun n => if n = op then some e else none

structure Outcome (S E α : Type) where
  result : Except E α
  state : S
  count : Nat

/-- A computation under a plan, from a state and from the number of its next operation. -/
def Act (S E α : Type) := Plan E → S → Nat → Outcome S E α

namespace Act

protected def bind (p : Act S E α) (f : α → Act S E β) : Act S E β := fun plan s n =>
  match p plan s n with
  | ⟨.error e, s', n'⟩ => ⟨.error e, s', n'⟩
  | ⟨.ok a, s', n'⟩ => f a plan s' n'

instance : Monad (Act S E) where
  pure a := fun _ s n => ⟨.ok a, s, n⟩
  bind := Act.bind

def fail (e : E) : Act S E α := fun _ s n => ⟨.error e, s, n⟩

/-- A look at the state that is not an operation. -/
def view (f : S → α) : Act S E α := fun _ s n => ⟨.ok (f s), s, n⟩

/-- A change of the state that is not an operation. -/
def change (f : S → S) : Act S E Unit := fun _ s n => ⟨.ok (), f s, n⟩

/-- One operation that reads. -/
def inquire (f : S → Except E α) : Act S E α := fun plan s n =>
  match plan n with
  | some e => ⟨.error e, s, n + 1⟩
  | none => ⟨f s, s, n + 1⟩

/-- One operation that writes. -/
def operate (f : S → S) : Act S E Unit := fun plan s n =>
  match plan n with
  | some e => ⟨.error e, s, n + 1⟩
  | none => ⟨.ok (), f s, n + 1⟩

def operateAll : List (S → S) → Act S E Unit
  | [] => pure ()
  | f :: fs => do
    operate f
    operateAll fs

def ofExcept : Except E α → Act S E α
  | .ok a => pure a
  | .error e => fail e

variable {p : Act S E α} {f : α → Act S E β} {plan : Plan E} {s s' : S} {n n' : Nat} {a : α} {e : E}

@[simp] theorem pure_run (a : α) : (pure a : Act S E α) plan s n = ⟨.ok a, s, n⟩ := rfl

@[simp] theorem fail_run (e : E) : (fail e : Act S E α) plan s n = ⟨.error e, s, n⟩ := rfl

theorem bind_ok (h : p plan s n = ⟨.ok a, s', n'⟩) : (p >>= f) plan s n = f a plan s' n' := by
  show p.bind f plan s n = _
  rw [Act.bind, h]

theorem bind_error (h : p plan s n = ⟨.error e, s', n'⟩) : (p >>= f) plan s n = ⟨.error e, s', n'⟩ := by
  show p.bind f plan s n = _
  rw [Act.bind, h]

@[simp] theorem view_bind (g : S → α) : (view g >>= f) plan s n = f (g s) plan s n := rfl

@[simp] theorem change_bind (g : S → S) (f : Unit → Act S E β) : (change g >>= f) plan s n = f () plan (g s) n := rfl

@[simp] theorem fail_bind (e : E) : (fail e >>= f) plan s n = ⟨.error e, s, n⟩ := rfl

@[simp] theorem pure_bind_run (a : α) : (pure a >>= f) plan s n = f a plan s n := rfl

/-- An error of its own after a computation changes nothing. -/
theorem bind_fail_state (p : Act S E α) (e : E) (plan : Plan E) (s : S) (n : Nat) :
    ((p >>= fun _ => fail e : Act S E β) plan s n).state = (p plan s n).state := by
  cases hrun : p plan s n with
  | mk result s' n' =>
    cases result with
    | error e' => rw [bind_error hrun]
    | ok a => rw [bind_ok hrun, fail_run]

theorem operate_ok (h : plan n = none) (g : S → S) : (operate g : Act S E Unit) plan s n = ⟨.ok (), g s, n + 1⟩ := by
  rw [operate, h]

theorem operate_error (h : plan n = some e) (g : S → S) : (operate g : Act S E Unit) plan s n = ⟨.error e, s, n + 1⟩ := by
  rw [operate, h]

theorem bind_assoc_run {γ : Type} (p : Act S E α) (f : α → Act S E β) (g : β → Act S E γ) (plan : Plan E) (s : S)
    (n : Nat) : (p >>= f >>= g) plan s n = (p >>= fun a => f a >>= g) plan s n := by
  cases hrun : p plan s n with
  | mk result s' n' =>
    cases result with
    | error e => rw [bind_error (bind_error hrun), bind_error hrun]
    | ok a =>
      rw [bind_ok hrun]
      cases hrest : f a plan s' n' with
      | mk result' s'' n'' =>
        have hboth : (p >>= f) plan s n = ⟨result', s'', n''⟩ := (bind_ok hrun).trans hrest
        cases result' with
        | error e => rw [bind_error hboth, bind_error hrest]
        | ok b => rw [bind_ok hboth, bind_ok hrest]

theorem bind_congr_run {g : α → Act S E β} (h : ∀ a s n, f a plan s n = g a plan s n) :
    (p >>= f) plan s n = (p >>= g) plan s n := by
  cases hrun : p plan s n with
  | mk result s' n' =>
    cases result with
    | error e => rw [bind_error hrun, bind_error hrun]
    | ok a => rw [bind_ok hrun, bind_ok hrun, h]

/-- Operations in two parts. -/
theorem operateAll_append_bind (fs gs : List (S → S)) (f : Unit → Act S E β) (plan : Plan E) (s : S) (n : Nat) :
    (operateAll (fs ++ gs) >>= f) plan s n = (operateAll fs >>= fun _ => operateAll gs >>= f) plan s n := by
  induction fs generalizing s n with
  | nil => rfl
  | cons g fs ih =>
    calc (operateAll (g :: (fs ++ gs)) >>= f) plan s n
        = (operate g >>= fun _ => operateAll (fs ++ gs) >>= f) plan s n := bind_assoc_run ..
      _ = (operate g >>= fun _ => operateAll fs >>= fun _ => operateAll gs >>= f) plan s n := bind_congr_run fun _ => ih
      _ = (operateAll (g :: fs) >>= fun _ => operateAll gs >>= f) plan s n := (bind_assoc_run ..).symm

/-- The store serves all operations. -/
theorem operateAll_ok {fs : List (S → S)} (h : ∀ i < fs.length, plan (n + i) = none) :
    operateAll fs plan s n = ⟨.ok (), fs.foldl (fun s f => f s) s, n + fs.length⟩ := by
  induction fs generalizing s n with
  | nil => rfl
  | cons f fs ih =>
    have hrest : ∀ i < fs.length, plan (n + 1 + i) = none := fun i hi => by
      rw [Nat.add_assoc, Nat.add_comm 1]
      exact h (i + 1) (Nat.succ_lt_succ hi)
    have hfirst : plan n = none := h 0 (Nat.succ_pos _)
    rw [operateAll, bind_ok (operate_ok hfirst f), ih hrest, List.length_cons, Nat.add_assoc, Nat.add_comm 1]
    rfl

/-- Of the operations before the first failure nothing is lost. -/
theorem operateAll_error {fs : List (S → S)} (h : ∃ i < fs.length, plan (n + i) ≠ none) :
    ∃ i e, plan (n + i) = some e ∧
      operateAll fs plan s n = ⟨.error e, (fs.take i).foldl (fun s f => f s) s, n + i + 1⟩ := by
  induction fs generalizing s n with
  | nil =>
    obtain ⟨i, hi, -⟩ := h
    exact absurd hi (Nat.not_lt_zero i)
  | cons f fs ih =>
    cases hplan : plan n with
    | some e => exact ⟨0, e, hplan, bind_error (operate_error hplan f)⟩
    | none =>
      have hrest : ∃ i < fs.length, plan (n + 1 + i) ≠ none := by
        obtain ⟨i, hi, hfail⟩ := h
        cases i with
        | zero => exact absurd hplan hfail
        | succ i =>
          refine ⟨i, Nat.lt_of_succ_lt_succ hi, ?_⟩
          rwa [Nat.add_assoc, Nat.add_comm 1]
      obtain ⟨i, e, hfail, hrun⟩ := @ih (f s) (n + 1) hrest
      refine ⟨i + 1, e, ?_, ?_⟩
      · rwa [Nat.add_comm i, ← Nat.add_assoc]
      · rw [operateAll, bind_ok (operate_ok hplan f), hrun, Nat.add_right_comm n 1, Nat.add_assoc n i 1]
        rfl

/-- Whatever fails, the state stays in relation to the first one. -/
def Keeps (R : S → S → Prop) (p : Act S E α) : Prop := ∀ plan s n, R s (p plan s n).state

section Keeps

variable {R : S → S → Prop}

theorem Keeps.fail (hrefl : ∀ s, R s s) (e : E) : Keeps R (Act.fail e : Act S E α) := fun _ s _ => hrefl s

theorem Keeps.pure (hrefl : ∀ s, R s s) (a : α) : Keeps R (Pure.pure a : Act S E α) := fun _ s _ => hrefl s

theorem Keeps.view (hrefl : ∀ s, R s s) (g : S → α) : Keeps R (Act.view g : Act S E α) := fun _ s _ => hrefl s

theorem Keeps.change {g : S → S} (h : ∀ s, R s (g s)) : Keeps R (Act.change g : Act S E Unit) := fun _ s _ => h s

theorem Keeps.inquire (hrefl : ∀ s, R s s) (g : S → Except E α) : Keeps R (Act.inquire g) := by
  intro plan s n
  rw [Act.inquire]
  split <;> exact hrefl s

theorem Keeps.operate (hrefl : ∀ s, R s s) {g : S → S} (h : ∀ s, R s (g s)) :
    Keeps R (Act.operate g : Act S E Unit) := by
  intro plan s n
  rw [Act.operate]
  split
  · exact hrefl s
  · exact h s

theorem Keeps.ofExcept (hrefl : ∀ s, R s s) (r : Except E α) : Keeps R (Act.ofExcept r : Act S E α) := by
  cases r with
  | ok a => exact Keeps.pure hrefl a
  | error e => exact Keeps.fail hrefl e

/-- After a first part that keeps the relation, the second part runs or an error has
    ended both. -/
theorem Keeps.cases (hp : Keeps R p) (f : α → Act S E β) (plan : Plan E) (s : S) (n : Nat) :
    ∃ s' n', R s s' ∧ ((∃ e, (p >>= f) plan s n = ⟨.error e, s', n'⟩) ∨ ∃ a, (p >>= f) plan s n = f a plan s' n') := by
  have hfirst := hp plan s n
  cases hrun : p plan s n with
  | mk result s' n' =>
    rw [hrun] at hfirst
    refine ⟨s', n', hfirst, ?_⟩
    cases result with
    | error e => exact .inl ⟨e, bind_error hrun⟩
    | ok a => exact .inr ⟨a, bind_ok hrun⟩

theorem Keeps.bind (htrans : ∀ s s' s'', R s s' → R s' s'' → R s s'') (hp : Keeps R p) (hf : ∀ a, Keeps R (f a)) :
    Keeps R (p >>= f) := by
  intro plan s n
  obtain ⟨s', n', hfirst, ⟨e, hrun⟩ | ⟨a, hrun⟩⟩ := hp.cases f plan s n
  · rw [hrun]
    exact hfirst
  · rw [hrun]
    exact htrans _ _ _ hfirst (hf a plan s' n')

theorem Keeps.operateAll (hrefl : ∀ s, R s s) (htrans : ∀ s s' s'', R s s' → R s' s'' → R s s'')
    {fs : List (S → S)} (h : ∀ f ∈ fs, ∀ s, R s (f s)) : Keeps R (Act.operateAll fs : Act S E Unit) := by
  induction fs with
  | nil => exact Keeps.pure hrefl ()
  | cons f fs ih =>
    exact Keeps.bind htrans (Keeps.operate hrefl (h f (List.mem_cons_self ..)))
      fun _ => ih fun f' hf' => h f' (List.mem_cons_of_mem _ hf')

end Keeps

end Act

end failing
