import OsHomework.Lib.Reach
import OsHomework.Lib.Unwinding
import OsHomework.Lib.Table
import OsHomework.Lib.Fields
import OsHomework.Lib.ByteFile
import OsHomework.Lib.CString
import OsHomework.Lib.Records
import OsHomework.Lib.Chain
import OsHomework.Lib.Linearizable
import OsHomework.Lib.ByteMem
import OsHomework.Lib.Network
import OsHomework.Lib.Choreography
import OsHomework.Lib.Finishing
import OsHomework.Lib.Tagged
import OsHomework.Lib.Hex
import OsHomework.Lib.Regex
import OsHomework.Lib.Holdings
import OsHomework.Lib.Counted
import OsHomework.Ramfs.Volume
import OsHomework.Ramfs.Flush
import OsHomework.Ramfs.Concurrent
import OsHomework.Ramfs.Crash
import OsHomework.Ramfs.Sequence
import OsHomework.Ramfs.Bind
import OsHomework.Ramfs.Parse
import OsHomework.Ramfs.BindFile
import OsHomework.Ramfs.Writers
import OsHomework.Ramfs.Durable
import OsHomework.Ramfs.Complete
import OsHomework.Ramfs.Nested
import OsHomework.Ramfs.Reopen
import OsHomework.Ramfs.Handles
import OsHomework.Ramfs.Owners
import OsHomework.KvStore.Machine
import OsHomework.KvStore.Chains
import OsHomework.KvStore.Linearize
import OsHomework.KvStore.Alone
import OsHomework.KvStore.Groups
import OsHomework.KvStore.Bounds
import OsHomework.KvStore.User
import OsHomework.KvStore.Consistency
import OsHomework.KvStore.Ledger
import OsHomework.KvStore.Census
import OsHomework.KvStore.Parallel
import OsHomework.KvStore.Progress
import OsHomework.Fork.CopyProcess
import OsHomework.Fork.Stages
import OsHomework.Fork.Unshare
import OsHomework.Fork.References
import OsHomework.Fork.Views
import OsHomework.Vtask.Machine
import OsHomework.Vtask.Pid
import OsHomework.Vtask.Exposure
import OsHomework.Vtask.Map
import OsHomework.Vtask.Areas
import OsHomework.Vtask.Once
import OsHomework.Vtask.Addresses
import OsHomework.Vtask.Moves
import OsHomework.Fairness.Machine
import OsHomework.Fairness.Configure
import OsHomework.Fairness.SocketTest
import OsHomework.Tcpdump.Capture
import OsHomework.Nccl.Collectives
import OsHomework.Nccl.TestMain
import OsHomework.Nccl.Results
import OsHomework.Nccl.Connect
import OsHomework.Nccl.Establish
import OsHomework.Nccl.Handshake
import OsHomework.Gptfs.Files
import OsHomework.Gptfs.Workers
import OsHomework.Gptfs.Posix
import OsHomework.Gptfs.History
import OsHomework.Gptfs.Tables
import OsHomework.Gptfs.Sizes
import OsHomework.Gptfs.Isolation
import OsHomework.Gptfs.Api
import OsHomework.Mmap.FileWrite
import OsHomework.Xattr.GetXattr
import OsHomework.Acpi.Table
import OsHomework.Acpi.Xsdt
import OsHomework.Acpi.Mytb
import OsHomework.AcpiCheck.Parse
import OsHomework.AcpiCheck.Lines
import OsHomework.AcpiCheck.RoundTrip
import OsHomework.AcpiCheck.Score
