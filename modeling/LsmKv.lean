import LsmKv.Crc32
import LsmKv.Db.Allocation
import LsmKv.Db.CompactFiles
import LsmKv.Db.Faults
import LsmKv.Db.ReadDuringCompaction
import LsmKv.Db.TornLog
import LsmKv.ManifestInput
import LsmKv.MemTable.Snapshot
import LsmKv.Reldb.CommitFailure
import LsmKv.Reldb.Conflicts
import LsmKv.Reldb.Oracle
import LsmKv.Reldb.OwnView
import LsmKv.Reldb.Recreated
import LsmKv.Reldb.Scanning
import LsmKv.Reldb.Sql.Binding
import LsmKv.Reldb.Sql.Executor
import LsmKv.Reldb.Sql.OrderBy
import LsmKv.Reldb.Sql.Rendering
import LsmKv.SSTable.Handles
import LsmKv.SSTable.Malformed
import LsmKv.SqlServer.ReplyCodec
import LsmKv.SqlServer.Terminator
import LsmKv.Wal.Reader
