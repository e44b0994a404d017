import LsmKv.Lib.Bytes

namespace lines

open List

variable {α : Type}

/-- Lines, each with a separator after it. -/
def terminated (sep : α) (ls : List (List α)) : List α := ls.flatMap fun l => l ++ [sep]

variable {sep : α}

@[simp] theorem terminated_nil : terminated sep ([] : List (List α)) = [] := rfl

@[simp] theorem terminated_cons (l : List α) (ls : List (List α)) :
    terminated sep (l :: ls) = l ++ sep :: terminated sep ls := by
  simp [terminated]

@[simp] theorem terminated_append (ls ls' : List (List α)) :
    terminated sep (ls ++ ls') = terminated sep ls ++ terminated sep ls' := flatMap_append ..

variable [DecidableEq α]

/-- The pieces of a text that a separator ends, with what follows the last one if it is
    not empty. `line` is what was read since the last separator. -/
def splitFrom (sep : α) (line : List α) : List α → List (List α)
  | [] => if line = [] then [] else [line]
  | c :: text => if c = sep then line :: splitFrom sep [] text else splitFrom sep (line ++ [c]) text

def split (sep : α) (text : List α) : List (List α) := splitFrom sep [] text

theorem splitFrom_line {l : List α} (hl : sep ∉ l) (line text : List α) :
    splitFrom sep line (l ++ sep :: text) = (line ++ l) :: splitFrom sep [] text := by
  induction l generalizing line with
  | nil => simp [splitFrom]
  | cons c l ih =>
    have hc : c ≠ sep := fun h => hl (h ▸ mem_cons_self ..)
    rw [cons_append, splitFrom, if_neg hc, ih (fun h => hl (mem_cons_of_mem _ h)), append_assoc]
    rfl

/-- A first line is split off the text. -/
theorem split_line {l : List α} (hl : sep ∉ l) (text : List α) : split sep (l ++ sep :: text) = l :: split sep text :=
  splitFrom_line hl [] text

/-- Lines without separators come back as they were. -/
theorem split_terminated {ls : List (List α)} (hls : ∀ l ∈ ls, sep ∉ l) : split sep (terminated sep ls) = ls := by
  induction ls with
  | nil => rfl
  | cons l ls ih =>
    rw [terminated_cons, split_line (hls l (mem_cons_self ..)),
      ih fun l' hl' => hls l' (mem_cons_of_mem _ hl')]

end lines
