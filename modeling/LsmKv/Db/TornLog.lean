import LsmKv.Db.Crash

namespace lsmkv

open List Function Option

/-- The batches that the loop of `RecoverLogFile` replays, in their order. -/
def read_log (content : Bytes) : Except Status (List LogRecord) :=
  framing.replay wal.next_batch (fun batches batch => batches ++ [batch]) (content.length + 1) content []

namespace LogFile

/-- What reading a log gives: its records, or the error at the broken one. -/
def outcome (log : LogFile) : Except Status (List LogRecord) :=
  match log.torn with
  | some .header => .error (.Corruption "truncated wal header")
  | some .payload => .error (.Corruption "truncated wal record")
  | none => .ok log.records

/-- The log stands for the bytes of a file. -/
def Reads (log : LogFile) (content : Bytes) : Prop := read_log content = log.outcome

instance (log : LogFile) (content : Bytes) : Decidable (log.Reads content) := inferInstanceAs (Decidable (_ = _))

end LogFile

section Cut

variable {records : List LogRecord} (hfits : ∀ batch ∈ records, wal.Fits batch)

include hfits

end Cut

namespace Session

variable {s : Session} {l : Layout} {logged : List Write}

end Session

end lsmkv
