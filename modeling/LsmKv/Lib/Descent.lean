import Mathlib.Control.Monad.Basic
import Mathlib.Data.List.Basic

namespace descent

variable {σ τ ε α β : Type}

/-- A source of tokens: the token at hand, how to move past it, and the tokens at which
    reading ends. -/
structure Source (σ τ : Type) where
  cur : σ → τ
  next : σ → σ
  Ends : τ → Prop

/-- The tokens that lead from one state to another; none of them ends the source. -/
def Source.Consumes (src : Source σ τ) : σ → List τ → σ → Prop
  | s, [], s' => s' = s
  | s, t :: ts, s' => src.cur s = t ∧ ¬src.Ends t ∧ src.Consumes (src.next s) ts s'

instance Source.decidableConsumes (src : Source σ τ) [DecidableEq σ] [DecidableEq τ] [DecidablePred src.Ends] :
    (s : σ) → (ts : List τ) → (s' : σ) → Decidable (src.Consumes s ts s')
  | s, [], s' => inferInstanceAs (Decidable (s' = s))
  | s, t :: ts, s' =>
    have := src.decidableConsumes (src.next s) ts s'
    inferInstanceAs (Decidable (src.cur s = t ∧ ¬src.Ends t ∧ src.Consumes (src.next s) ts s'))

namespace Source

variable {src : Source σ τ} {s s' s'' : σ} {t : τ} {ts us : List τ}

theorem consumes_append : src.Consumes s (ts ++ us) s'' ↔ ∃ s', src.Consumes s ts s' ∧ src.Consumes s' us s'' := by
  induction ts generalizing s with
  | nil => simp [Consumes]
  | cons t ts ih =>
    simp only [List.cons_append, Consumes, ih]
    constructor
    · rintro ⟨hcur, hends, s', hts, hus⟩
      exact ⟨s', ⟨hcur, hends, hts⟩, hus⟩
    · rintro ⟨s', ⟨hcur, hends, hts⟩, hus⟩
      exact ⟨hcur, hends, s', hts, hus⟩

/-- The token at hand is the first of those that are read, or the one they stop at. -/
theorem Consumes.cur_eq (h : src.Consumes s ts s') : src.cur s = ts.headD (src.cur s') := by
  cases ts with
  | nil => exact congrArg src.cur (Eq.symm h)
  | cons t ts => exact h.1

end Source

/-- A routine on a source that moves on or fails. -/
abbrev Reader (σ ε α : Type) := StateT σ (Except ε) α

theorem bind_of_eq_ok {p : Reader σ ε α} {f : α → Reader σ ε β} {s s' : σ} {a : α} (hp : p s = .ok (a, s')) :
    (p >>= f) s = f a s' := by
  change (p s >>= fun r => f r.1 r.2) = f a s'
  rw [hp]
  rfl

end descent
