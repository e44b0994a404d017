import LsmKv.Lib.Linked
import Mathlib

open linked (Linked)

namespace lsmkv

/-- A node has as many pointers as its height. -/
structure SkipList.Node (α : Type) where
  key : α
  next : List (Option Nat)

/-- The nodes stand in the order of their allocation, and a pointer is a position there.
    The first node is `head_`. -/
structure SkipList (α : Type) where
  nodes : List (SkipList.Node α)
  max_height : Nat
  size : Nat
  rnd : UInt32 := 0xdeadbeef

namespace SkipList

variable {α : Type}

def kMaxHeight : Nat := 12

def new_node (key : α) (height : Nat) : Node α := ⟨key, List.replicate height none⟩

def empty [Inhabited α] : SkipList α := ⟨[new_node default kMaxHeight], 1, 0, 0xdeadbeef⟩

/-- `x->next[level]`; `none` where there is no such pointer. -/
def next (list : SkipList α) (x level : Nat) : Option (Option Nat) := (list.nodes[x]?).bind fun n => n.next[level]?

def key (list : SkipList α) (x : Nat) : Option α := (list.nodes[x]?).map Node.key

def set_next (list : SkipList α) (x level : Nat) (target : Option Nat) : Option (SkipList α) :=
  (list.nodes[x]?).bind fun n =>
    if level < n.next.length then some { list with nodes := list.nodes.set x { n with next := n.next.set level target } }
    else none

def set_key (list : SkipList α) (x : Nat) (key : α) : SkipList α :=
  { list with nodes := list.nodes.modify x fun n => { n with key := key } }

section Search

variable (cmp : α → α → Ordering) (list : SkipList α)

/-- The node that a search goes on to: the next one, if its key is less. -/
def ahead (key : α) : Option Nat → Option (Option Nat)
  | none => some none
  | some y => (list.key y).map fun k => if cmp k key = .lt then some y else none

/-- The loop of `FindGreaterOrEqual`; `prev` has the entries of the levels above. There is
    no result if the fuel runs out or a pointer is read that is not there. -/
def find_loop (key : α) : Nat → Nat → Nat → List Nat → Option (Option Nat × List Nat)
  | 0, _, _, _ => none
  | fuel + 1, x, level, prev =>
    match list.next x level with
    | none => none
    | some next =>
      match list.ahead cmp key next with
      | none => none
      | some (some y) => find_loop key fuel y level prev
      | some none =>
        match level with
        | 0 => some (next, x :: prev)
        | level + 1 => find_loop key fuel x level (x :: prev)

def find_greater_or_equal (key : α) : Option (Option Nat × List Nat) :=
  list.find_loop cmp key (list.nodes.length + list.max_height) 0 (list.max_height - 1) []

/-- The key that `Find` returns, or none. -/
def find (key : α) : Option (Option α) :=
  (list.find_greater_or_equal cmp key).bind fun (x, _) =>
    match x with
    | none => some none
    | some x => (list.key x).map some

/-- The node that `Iterator::Seek` goes to. -/
def seek (target : α) : Option (Option Nat) := (list.find_greater_or_equal cmp target).map Prod.fst

end Search

/-- The new node takes over the pointers of its predecessors, level by level. -/
def link (x : Nat) : Nat → List Nat → SkipList α → Option (SkipList α)
  | _, [], list => some list
  | level, p :: prev, list =>
    (list.next p level).bind fun target =>
      (list.set_next x level target).bind fun list => (list.set_next p level (some x)).bind (link x (level + 1) prev)

/-- `Insert` of a key that is not there, as a node of this height. -/
def insert_node (list : SkipList α) (key : α) (prev : List Nat) (height : Nat) : Option (SkipList α) :=
  let prev := prev ++ List.replicate (height - list.max_height) 0
  link list.nodes.length 0 (prev.take height)
    { list with nodes := list.nodes ++ [new_node key height], max_height := max list.max_height height, size := list.size + 1 }

/-- The node found, if its key is equal. -/
def equal_node (cmp : α → α → Ordering) (list : SkipList α) (key : α) : Option Nat → Option (Option Nat)
  | none => some none
  | some x => (list.key x).map fun k => if cmp key k = .eq then some x else none

/-- `Insert` where `RandomHeight` draws this height and leaves this `rnd_`. A height is
    drawn only for a new node. -/
def insert_at (cmp : α → α → Ordering) (list : SkipList α) (key : α) (drawn : Nat × UInt32) : Option (SkipList α) :=
  (list.find_greater_or_equal cmp key).bind fun (x, prev) =>
    (list.equal_node cmp key x).bind fun found =>
      match found with
      | some x => some (list.set_key x key)
      | none => { list with rnd := drawn.2 }.insert_node key prev drawn.1

/-- `Random`: the next number and the next state. -/
def random (rnd : UInt32) : UInt32 × UInt32 :=
  let rnd := rnd * 214013 + 2531011
  (rnd >>> 16, rnd)

/-- The loop of `RandomHeight`, with the levels that are left. -/
def height_loop : Nat → Nat → UInt32 → Nat × UInt32
  | 0, height, rnd => (height, rnd)
  | left + 1, height, rnd =>
    let (n, rnd) := random rnd
    if n % 4 = 0 then height_loop left (height + 1) rnd else (height, rnd)

def random_height (rnd : UInt32) : Nat × UInt32 := height_loop (kMaxHeight - 1) 1 rnd

def insert (cmp : α → α → Ordering) (list : SkipList α) (key : α) : Option (SkipList α) :=
  list.insert_at cmp key (random_height list.rnd)

/-- `Insert` calls, each with what it is to draw. -/
def insert_all (cmp : α → α → Ordering) : SkipList α → List (α × Nat × UInt32) → Option (SkipList α)
  | list, [] => some list
  | list, (key, drawn) :: calls => (list.insert_at cmp key drawn).bind fun list => insert_all cmp list calls

/-- The nodes on a level, from `head_` on. -/
def level (list : SkipList α) (level : Nat) : Option (List Nat) :=
  linked.walk (list.next · level) list.nodes.length 0

end SkipList

end lsmkv
