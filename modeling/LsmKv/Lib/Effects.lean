import Mathlib.Logic.Basic

/-!
Programs over a store whose writes reach it one by one. A crash keeps the effect of a
prefix of the writes, so a program is specified by what it establishes when it returns
and by what holds after every prefix.
-/

namespace effects

open List

/-- A store and its single writes. -/
class Store (S : Type) (Op : outParam Type) where
  apply : S → Op → S

variable {S Op E α β : Type} [Store S Op]

def applyAll (s : S) (ops : List Op) : S := ops.foldl Store.apply s

@[simp] theorem applyAll_nil (s : S) : applyAll s ([] : List Op) = s := rfl

@[simp] theorem applyAll_cons (s : S) (op : Op) (ops : List Op) :
    applyAll s (op :: ops) = applyAll (Store.apply s op) ops := rfl

theorem applyAll_append (s : S) (ops ops' : List Op) :
    applyAll s (ops ++ ops') = applyAll (applyAll s ops) ops' := foldl_append

/-- Two stores whose writes keep them related. -/
theorem applyAll_related {S' Op' : Type} [Store S' Op'] {R : S → S' → Prop} {f : Op → Op'} {C : Op → Prop}
    (hstep : ∀ {s s' op}, R s s' → C op → R (Store.apply s op) (Store.apply s' (f op))) {ops : List Op}
    (hops : ∀ op ∈ ops, C op) {s : S} {s' : S'} (h : R s s') : R (applyAll s ops) (applyAll s' (ops.map f)) := by
  induction ops generalizing s s' with
  | nil => exact h
  | cons op ops ih =>
    obtain ⟨hop, hops⟩ := forall_mem_cons.mp hops
    exact ih hops (hstep h hop)

/-- Something that no write changes. -/
theorem applyAll_same (f : S → α) {ops : List Op} (h : ∀ op ∈ ops, ∀ s, f (Store.apply s op) = f s) (s : S) :
    f (applyAll s ops) = f s := by
  induction ops generalizing s with
  | nil => rfl
  | cons op ops ih =>
    exact (ih (fun op' hop' => h op' (mem_cons_of_mem _ hop')) (Store.apply s op)).trans
      (h op (mem_cons_self ..) s)

/-- The condition holds after every write, of that write and of the store it leaves. -/
def After (C : Op → S → Prop) : S → List Op → Prop
  | _, [] => True
  | s, op :: ops => C op (Store.apply s op) ∧ After C (Store.apply s op) ops

section After

variable {C C' : Op → S → Prop} {s : S} {ops ops' : List Op}

theorem After.append (h : After C s ops) (h' : After C (applyAll s ops) ops') : After C s (ops ++ ops') := by
  induction ops generalizing s with
  | nil => exact h'
  | cons op ops ih => exact ⟨h.1, ih h.2 h'⟩

theorem After.mono (h : After C s ops) (himp : ∀ op s, C op s → C' op s) : After C' s ops := by
  induction ops generalizing s with
  | nil => trivial
  | cons op ops ih => exact ⟨himp op _ h.1, ih h.2⟩

/-- What a crash after some of the writes finds. -/
theorem After.take (h : After C s ops) (i : Nat) :
    ops.take i = [] ∨ ∃ op ∈ (ops.take i).getLast?, C op (applyAll s (ops.take i)) := by
  induction ops generalizing s i with
  | nil => exact .inl take_nil
  | cons op ops ih =>
    cases i with
    | zero => exact .inl rfl
    | succ i =>
      right
      rcases ih h.2 i with hnil | ⟨last, hlast, hc⟩
      · rw [take_succ_cons, hnil]
        exact ⟨op, rfl, h.1⟩
      · rw [take_succ_cons, List.getLast?_cons, Option.mem_def.mp hlast]
        exact ⟨last, rfl, hc⟩

/-- An invariant that every write keeps holds after any of them. -/
theorem After.invariant {I : S → Prop} (hs : I s) (h : After (fun _ => I) s ops) (i : Nat) :
    I (applyAll s (ops.take i)) := by
  rcases h.take i with hnil | ⟨op, -, hi⟩
  · rw [hnil]
    exact hs
  · exact hi

end After

/-- The condition holds of every write, in the store that it meets. -/
def Each (C : S → Op → Prop) : S → List Op → Prop
  | _, [] => True
  | s, op :: ops => C s op ∧ Each C (Store.apply s op) ops

section Each

variable {C C' : S → Op → Prop} {s : S} {ops ops' : List Op}

theorem Each.append (h : Each C s ops) (h' : Each C (applyAll s ops) ops') : Each C s (ops ++ ops') := by
  induction ops generalizing s with
  | nil => exact h'
  | cons op ops ih => exact ⟨h.1, ih h.2 h'⟩

theorem Each.of_forall (h : ∀ op ∈ ops, ∀ s, C s op) (s : S) : Each C s ops := by
  induction ops generalizing s with
  | nil => trivial
  | cons op ops ih =>
    exact ⟨h op (mem_cons_self ..) s, ih (fun op' hop' => h op' (mem_cons_of_mem _ hop')) _⟩

end Each

/-- The condition holds of the writes so far and the store before the first write and
    after every one. -/
def Throughout (I : List Op → S → Prop) : List Op → S → List Op → Prop
  | past, s, [] => I past s
  | past, s, op :: ops => I past s ∧ Throughout I (past ++ [op]) (Store.apply s op) ops

section Throughout

variable {I : List Op → S → Prop} {past : List Op} {s : S} {ops ops' : List Op}

theorem Throughout.append (h : Throughout I past s ops) (h' : Throughout I (past ++ ops) (applyAll s ops) ops') :
    Throughout I past s (ops ++ ops') := by
  induction ops generalizing past s with
  | nil =>
    rw [append_nil] at h'
    exact h'
  | cons op ops ih =>
    refine ⟨h.1, ih h.2 ?_⟩
    rw [append_assoc]
    exact h'

theorem Throughout.take (h : Throughout I past s ops) (i : Nat) : I (past ++ ops.take i) (applyAll s (ops.take i)) := by
  induction ops generalizing past s i with
  | nil =>
    rw [take_nil, append_nil]
    exact h
  | cons op ops ih =>
    cases i with
    | zero =>
      rw [take_zero, append_nil]
      exact h.1
    | succ i =>
      have hrest := ih h.2 i
      rw [append_assoc] at hrest
      exact hrest

theorem Throughout.last (h : Throughout I past s ops) : I (past ++ ops) (applyAll s ops) := by
  have hall := h.take ops.length
  rwa [take_length] at hall

/-- Writes each of which keeps the condition. -/
theorem Throughout.of_each {C : S → Op → Prop} (hstep : ∀ past s op, I past s → C s op → I (past ++ [op]) (Store.apply s op))
    (hs : I past s) (h : Each C s ops) : Throughout I past s ops := by
  induction ops generalizing past s with
  | nil => exact hs
  | cons op ops ih => exact ⟨hs, ih (hstep past s op hs h.1) h.2⟩

end Throughout

/-- A program: the writes that it makes on a store, and its outcome. -/
def Prog (S Op E α : Type) := S → List Op × Except E α

namespace Prog

protected def bind (p : Prog S Op E α) (f : α → Prog S Op E β) : Prog S Op E β := fun s =>
  match p s with
  | (ops, .error e) => (ops, .error e)
  | (ops, .ok a) => (ops ++ (f a (applyAll s ops)).1, (f a (applyAll s ops)).2)

instance : Monad (Prog S Op E) where
  pure a := fun _ => ([], .ok a)
  bind := Prog.bind

section Primitives

omit [Store S Op]

/-- Reading the store. -/
def query (f : S → Except E α) : Prog S Op E α := fun s => ([], f s)

/-- Reading what is always there. -/
def look (f : S → α) : Prog S Op E α := fun s => ([], .ok (f s))

/-- One write. -/
def perform (op : Op) : Prog S Op E Unit := fun _ => ([op], .ok ())

def fail (e : E) : Prog S Op E α := fun _ => ([], .error e)

/-- The outcome of a program as a value. -/
def attempt (p : Prog S Op E α) : Prog S Op E (Except E α) := fun s => ((p s).1, .ok (p s).2)

@[simp] theorem query_run (g : S → Except E α) (s : S) : (query g : Prog S Op E α) s = ([], g s) := rfl

@[simp] theorem perform_run (op : Op) (s : S) : (perform op : Prog S Op E Unit) s = ([op], .ok ()) := rfl

@[simp] theorem fail_run (e : E) (s : S) : (fail e : Prog S Op E α) s = ([], .error e) := rfl

@[simp] theorem attempt_run (p : Prog S Op E α) (s : S) : attempt p s = ((p s).1, .ok (p s).2) := rfl

end Primitives

/-- A program for every element of a list, in order. -/
def forEach (f : β → Prog S Op E Unit) : List β → Prog S Op E Unit
  | [] => pure ()
  | x :: xs => do
    f x
    forEach f xs

variable {p : Prog S Op E α} {f : α → Prog S Op E β} {s : S} {ops : List Op} {a : α} {e : E}

@[simp] theorem pure_run (a : α) (s : S) : (pure a : Prog S Op E α) s = ([], .ok a) := rfl

theorem bind_ok (h : p s = (ops, .ok a)) :
    (p >>= f) s = (ops ++ (f a (applyAll s ops)).1, (f a (applyAll s ops)).2) := by
  show p.bind f s = _
  rw [Prog.bind, h]

theorem bind_error (h : p s = (ops, .error e)) : (p >>= f) s = (ops, .error e) := by
  show p.bind f s = _
  rw [Prog.bind, h]

/-- A value comes from values of both parts. -/
theorem bind_result {b : β} (h : ((p >>= f) s).2 = .ok b) :
    ∃ a, (p s).2 = .ok a ∧ (f a (applyAll s (p s).1)).2 = .ok b := by
  cases hcase : (p s).2 with
  | ok a =>
    have hrun : p s = ((p s).1, .ok a) := Prod.ext rfl hcase
    rw [bind_ok hrun] at h
    exact ⟨a, rfl, h⟩
  | error e =>
    have hrun : p s = ((p s).1, .error e) := Prod.ext rfl hcase
    rw [bind_error hrun] at h
    cases h

@[simp] theorem look_bind (g : S → α) (f : α → Prog S Op E β) (s : S) : (look g >>= f) s = f (g s) s := rfl

@[simp] theorem perform_bind (op : Op) (f : Unit → Prog S Op E β) (s : S) :
    (perform op >>= f) s = (op :: (f () (Store.apply s op)).1, (f () (Store.apply s op)).2) := rfl

@[simp] theorem pure_bind_run (a : α) (f : α → Prog S Op E β) (s : S) : (pure a >>= f) s = f a s := rfl

@[simp] theorem fail_bind (e : E) (f : α → Prog S Op E β) (s : S) : (fail e >>= f) s = ([], .error e) := rfl

theorem query_bind (g : S → Except E α) (f : α → Prog S Op E β) (s : S) :
    (query g >>= f) s =
      match g s with
      | .ok a => f a s
      | .error e => ([], .error e) := by
  show (query g).bind f s = _
  rw [Prog.bind, query_run]
  cases g s <;> rfl

theorem forEach_cons {g : β → Prog S Op E Unit} {x : β} (xs : List β) (h : g x s = (ops, .ok ())) :
    forEach g (x :: xs) s =
      (ops ++ (forEach g xs (applyAll s ops)).1, (forEach g xs (applyAll s ops)).2) :=
  bind_ok h

theorem forEach_perform (g : β → Op) (xs : List β) (s : S) :
    forEach (fun x => (perform (g x) : Prog S Op E Unit)) xs s = (xs.map g, .ok ()) := by
  induction xs generalizing s with
  | nil => rfl
  | cons x xs ih =>
    rw [forEach, perform_bind, ih]
    rfl

/-- From the precondition every write of the program meets the condition, and a value
    that it returns meets the postcondition. -/
def Writes (P : S → Prop) (p : Prog S Op E α) (Q : α → S → Prop) (C : S → Op → Prop) : Prop :=
  ∀ s, P s → Each C s (p s).1 ∧ ∀ a, (p s).2 = .ok a → Q a (applyAll s (p s).1)

namespace Writes

variable {P P' : S → Prop} {Q Q' : α → S → Prop} {T : β → S → Prop} {C : S → Op → Prop}

theorem conseq (h : Writes P p Q C) (hpre : ∀ s, P' s → P s) (hpost : ∀ a s, Q a s → Q' a s) :
    Writes P' p Q' C := by
  intro s hs
  obtain ⟨heach, hresult⟩ := h s (hpre s hs)
  exact ⟨heach, fun a ha => hpost a _ (hresult a ha)⟩

protected theorem pure (a : α) (hpost : ∀ s, P s → Q a s) : Writes P (Pure.pure a : Prog S Op E α) Q C := by
  refine fun s hs => ⟨trivial, fun a' ha => ?_⟩
  cases ha
  exact hpost s hs

protected theorem fail (e : E) : Writes P (Prog.fail e : Prog S Op E α) Q C :=
  fun _ _ => ⟨trivial, fun _ ha => by cases ha⟩

protected theorem perform {op : Op} {Q : Unit → S → Prop} (hwrite : ∀ s, P s → C s op)
    (hpost : ∀ s, P s → Q () (Store.apply s op)) : Writes P (Prog.perform op : Prog S Op E Unit) Q C :=
  fun s hs => ⟨⟨hwrite s hs, trivial⟩, fun _ _ => hpost s hs⟩

protected theorem look {g : S → α} (hpost : ∀ s, P s → Q (g s) s) : Writes P (Prog.look g : Prog S Op E α) Q C := by
  refine fun s hs => ⟨trivial, fun a ha => ?_⟩
  cases ha
  exact hpost s hs

protected theorem query {g : S → Except E α} (hpost : ∀ s, P s → ∀ a, g s = .ok a → Q a s) :
    Writes P (Prog.query g : Prog S Op E α) Q C :=
  fun s hs => ⟨trivial, fun a ha => hpost s hs a ha⟩

protected theorem bind (hp : Writes P p Q C) (hf : ∀ a, Writes (Q a) (f a) T C) : Writes P (p >>= f) T C := by
  intro s hs
  obtain ⟨heach, hresult⟩ := hp s hs
  cases hcase : (p s).2 with
  | ok a =>
    have hrun : p s = ((p s).1, .ok a) := Prod.ext rfl hcase
    obtain ⟨heach', hresult'⟩ := hf a _ (hresult a hcase)
    rw [bind_ok hrun]
    refine ⟨heach.append heach', fun b hb => ?_⟩
    rw [applyAll_append]
    exact hresult' b hb
  | error e =>
    have hrun : p s = ((p s).1, .error e) := Prod.ext rfl hcase
    rw [bind_error hrun]
    exact ⟨heach, fun b hb => by cases hb⟩

/-- The outcome as a value: an error leaves what every write keeps. -/
protected theorem attempt (h : Writes P p Q C) {Q' : Except E α → S → Prop}
    (hok : ∀ a s, Q a s → Q' (.ok a) s) (herror : ∀ e s, P s → (p s).2 = .error e → Q' (.error e) (applyAll s (p s).1)) :
    Writes P (Prog.attempt p) Q' C := by
  intro s hs
  obtain ⟨heach, hresult⟩ := h s hs
  refine ⟨heach, fun outcome houtcome => ?_⟩
  obtain rfl := Except.ok.inj houtcome
  show Q' (p s).2 (applyAll s (p s).1)
  cases hcase : (p s).2 with
  | ok a => exact hok a _ (hresult a hcase)
  | error e => exact herror e s hs hcase

/-- A loop over a list: an invariant of the part still to be done. -/
protected theorem forEach {I : List β → S → Prop} {f : β → Prog S Op E Unit}
    (hstep : ∀ x xs, Writes (I (x :: xs)) (f x) (fun _ => I xs) C) (xs : List β) :
    Writes (I xs) (Prog.forEach f xs) (fun _ => I []) C := by
  induction xs with
  | nil => exact .pure () fun _ hs => hs
  | cons x xs ih => exact (hstep x xs).bind fun _ => ih

end Writes

end Prog

end effects
