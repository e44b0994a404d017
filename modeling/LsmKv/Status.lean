import LsmKv.Lib.Bytes

namespace Except

variable {ε α β : Type} {x : Except ε α} {b : β}

theorem bind_eq_ok {f : α → Except ε β} : x >>= f = .ok b ↔ ∃ a, x = .ok a ∧ f a = .ok b := by
  cases x with
  | error s => exact ⟨by rintro ⟨⟩, by rintro ⟨a, ⟨⟩, -⟩⟩
  | ok a => exact ⟨fun h => ⟨a, rfl, h⟩, by rintro ⟨_, ⟨⟩, h⟩; exact h⟩

theorem ok_bind (a : α) (f : α → Except ε β) : .ok a >>= f = f a := rfl

theorem ite_error_eq_ok {p : Prop} [Decidable p] {s : ε} {y : Except ε β} :
    (if p then .error s else y) = .ok b ↔ ¬ p ∧ y = .ok b := by
  split
  · next hp => exact ⟨by rintro ⟨⟩, fun h => absurd hp h.1⟩
  · next hp => exact ⟨fun h => ⟨hp, h⟩, fun h => h.2⟩

end Except

namespace lsmkv

/-- The failure codes of `Status`; `kOk` is the `Except.ok` of a model function. -/
inductive Status.Code where
  | kNotFound
  | kCorruption
  | kNotSupported
  | kInvalidArgument
  | kIOError
  | kConflict
deriving DecidableEq, Repr

structure Status where
  code : Status.Code
  msg : String
deriving DecidableEq, Repr

namespace Status

def NotFound (msg : String) : Status := ⟨.kNotFound, msg⟩

def Corruption (msg : String) : Status := ⟨.kCorruption, msg⟩

def InvalidArgument (msg : String) : Status := ⟨.kInvalidArgument, msg⟩

def IOError (msg : String) : Status := ⟨.kIOError, msg⟩

def Conflict (msg : String) : Status := ⟨.kConflict, msg⟩

def is_not_found (s : Status) : Bool := s.code = .kNotFound

end Status

end lsmkv
