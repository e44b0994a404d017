import LsmKv.Db.Iterator
import LsmKv.Db.Layers

namespace lsmkv

open List Option

namespace DBIterator

section Merge

variable {snapshot : Nat} {positions : List (List (InternalKey × Bytes))}

end Merge

/-- A new iterator over the given runs. -/
abbrev ofRuns (children : List (List (InternalKey × Bytes))) (snapshot : Nat) : DBIterator :=
  { children := children, positions := [], snapshot := snapshot, status := none, entry := none }

section Positioned

variable {it : DBIterator}

section

variable (hstatus : it.status = none) (hordered : ∀ child ∈ it.children, versioned.Ordered child)
  (hfun : Functional it.children.flatten)

include hstatus hordered hfun

end

end Positioned

end DBIterator

namespace DBImpl

variable {db : DBImpl} {d : Disk} {l : Layout}

end DBImpl

namespace Session

variable {options : Options} {dbname : String} {labels : List Label} {s : Session}

end Session

end lsmkv
