import AcornOS.Lib.Run
import AcornOS.Lib.Bitmap
import AcornOS.Lib.BlockList
import AcornOS.Memory.Pmm
import AcornOS.Memory.PmmRuns
import AcornOS.Memory.PmmCounters
import AcornOS.Memory.Mem
import AcornOS.Memory.Objects
import AcornOS.Libc.Malloc
import AcornOS.Lib.Memory
import AcornOS.Lib.Radix
import AcornOS.Lib.X86
import AcornOS.Arch.Paging
import AcornOS.Arch.AddressSpace
import AcornOS.Arch.DeepCopy
import AcornOS.Arch.Mapping
import AcornOS.Arch.MapLookup
import AcornOS.Arch.Translation
import AcornOS.Lib.Ownership
import AcornOS.Processes.Process
import AcornOS.Processes.Table
import AcornOS.Processes.Pages
import AcornOS.Processes.Spaces
import AcornOS.Core.Elf
import AcornOS.Core.ElfImage
import AcornOS.Core.ElfSpace
import AcornOS.Core.ElfSegment
import AcornOS.Core.Argv
import AcornOS.Processes.Exec
import AcornOS.Core.ElfReads
import AcornOS.Processes.PageOwnership
import AcornOS.Arch.Switch
import AcornOS.Arch.SyscallEntry
import AcornOS.Processes.ForkReturn
import AcornOS.Lib.Ring
import AcornOS.Lib.RoundRobin
import AcornOS.Processes.Scheduler
import AcornOS.Processes.Fairness
import AcornOS.Processes.SchedulerRuns
import AcornOS.Processes.ExitWait
import AcornOS.Processes.Lifecycle
import AcornOS.Processes.HeapGrowth
import AcornOS.Processes.HeapSafety
import AcornOS.Drivers.Keyboard
import AcornOS.Lib.Chunks
import AcornOS.Lib.Linked
import AcornOS.FileSystem.ShadowFs
import AcornOS.FileSystem.Files
import AcornOS.FileSystem.Vfs
import AcornOS.FileSystem.Tree
import AcornOS.FileSystem.Names
import AcornOS.FileSystem.Paths
import AcornOS.FileSystem.Resolution
import AcornOS.FileSystem.Calls
import AcornOS.FileSystem.Descriptors
import AcornOS.FileSystem.OpenFailure
import AcornOS.FileSystem.Namespace
import AcornOS.FileSystem.Quota
import AcornOS.FileSystem.QuotaMemory
import AcornOS.FileSystem.Cursors
import AcornOS.Libc.Stdio
import AcornOS.FileSystem.OpenClose
import AcornOS.FileSystem.Store
import AcornOS.FileSystem.Directory
import AcornOS.FileSystem.Iteration
import AcornOS.FileSystem.Chains
import AcornOS.FileSystem.Truncation
import AcornOS.FileSystem.Seeks
import AcornOS.FileSystem.Lifetime
import AcornOS.Processes.Sleep
import AcornOS.Processes.Idle
import AcornOS.Libc.ShortWrites
import AcornOS.Lib.Digits
import AcornOS.Lib.Format
import AcornOS.Core.Kprintf
import AcornOS.Libc.Printf
import AcornOS.Libc.Numbers
import AcornOS.Lib.Calendar
import AcornOS.Drivers.Rtc
import AcornOS.Lib.Words
import AcornOS.Apps.Shell
import AcornOS.FileSystem.ProcFs
import AcornOS.FileSystem.Listing
import AcornOS.Drivers.Vga
import AcornOS.Arch.Interrupts
import AcornOS.Processes.SyscallReturn
import AcornOS.Processes.ProgramStart
import AcornOS.Lib.Blocks
import AcornOS.Boot.PageTables
import AcornOS.Boot.MemoryMap
import AcornOS.Boot.KernelImage
import AcornOS.Processes.EndOfInterrupt
import AcornOS.FileSystem.ProcFsRead
import AcornOS.Apps.LineEditor
import AcornOS.Arch.Descriptors
import AcornOS.Arch.Delivery
import AcornOS.Apps.Commands
import AcornOS.FileSystem.Streams
import AcornOS.Libc.Console
import AcornOS.Drivers.Clock
