import ChenixOS.Lib.Heap
import ChenixOS.Lib.Prog
import ChenixOS.Lib.Ring
import ChenixOS.Lib.Links
import ChenixOS.Lib.View
import ChenixOS.Lib.Radix
import ChenixOS.Lib.Walk
import ChenixOS.Lib.Buffer
import ChenixOS.Lib.Chain
import ChenixOS.Fs.Path
import ChenixOS.Fs.PipeFS
import ChenixOS.Fs.PipeFSProof
import ChenixOS.Fs.State
import ChenixOS.Fs.FileSystem
import ChenixOS.Fs.VFS
import ChenixOS.Fs.Operations
import ChenixOS.Fs.Eval
import ChenixOS.Fs.PathProof
import ChenixOS.Fs.Invariant
import ChenixOS.Fs.Preservation
import ChenixOS.Fs.Nodes
import ChenixOS.Fs.Descriptors
import ChenixOS.Fs.Mounts
import ChenixOS.Fs.Actions
import ChenixOS.Fs.Resolution
import ChenixOS.Fs.Calls
import ChenixOS.Fs.Contents
import ChenixOS.Fs.Runs
import ChenixOS.Fs.Tree
import ChenixOS.Fs.Lookup
import ChenixOS.Fs.ComponentWalk
import ChenixOS.Fs.References
import ChenixOS.Fs.Frames
import ChenixOS.Fs.MountLookup
import ChenixOS.Fs.MountTree
import ChenixOS.Fs.SymLinks
import ChenixOS.Fs.PathBuffer
import ChenixOS.Fs.PathBufferProof
import ChenixOS.Fs.PreparedPaths
import ChenixOS.Fs.LinkCounts
import ChenixOS.Fs.FailedOpen
import ChenixOS.Memory.FreeList
import ChenixOS.Memory.FreeListProof
import ChenixOS.Memory.Accounts
import ChenixOS.Memory.MemoryManager
import ChenixOS.Memory.Pages
import ChenixOS.Memory.PageTables
import ChenixOS.Memory.Mapping
import ChenixOS.Memory.Processes
import ChenixOS.Memory.Fork
import ChenixOS.Memory.Conservation
import ChenixOS.Memory.Unmapping
import ChenixOS.Memory.Queries
import ChenixOS.Memory.Reuse
import ChenixOS.Memory.KernelHeap
import ChenixOS.Lib.Transitions
import ChenixOS.Devices.DeviceDriver
import ChenixOS.Devices.DeviceDriverProof
import ChenixOS.Devices.DeviceRuns
import ChenixOS.Devices.Concurrency
import ChenixOS.Klib.AnchorList
import ChenixOS.Multicore.QueueLock
import ChenixOS.Task.Thread
import ChenixOS.Multicore.Wakeup
import ChenixOS.Lib.RefCount
import ChenixOS.Task.Scheduler
import ChenixOS.Task.SchedulerProof
import ChenixOS.Task.Soundness
import ChenixOS.Task.RoundRobin
import ChenixOS.Task.Resources
import ChenixOS.Task.Children
import ChenixOS.Task.Exits
import ChenixOS.Lib.Custody
import ChenixOS.Task.KillHandler
import ChenixOS.Task.Ownership
import ChenixOS.Acpi.JobQueue
import ChenixOS.Libc.FreeList
import ChenixOS.Libc.Malloc
import ChenixOS.Libc.MallocProof
import ChenixOS.Devices.DevFS
import ChenixOS.Devices.DevFSProof
import ChenixOS.Fs.Entries
import ChenixOS.Fs.EntryCalls
import ChenixOS.Fs.DirectoryMemory
import ChenixOS.Fs.DirectoryRuns
import ChenixOS.Memory.Coalescing
import ChenixOS.Fs.PipeCalls
import ChenixOS.Fs.Seek
import ChenixOS.Fs.FileData
import ChenixOS.Fs.NodeStats
import ChenixOS.Task.FileDescriptors
import ChenixOS.Task.Sleep
import ChenixOS.Devices.DriverRegistry
import ChenixOS.Devices.DeviceFiles
import ChenixOS.Lib.Holders
import ChenixOS.Fs.NodeUse
import ChenixOS.Fs.NodeUseProof
import ChenixOS.Memory.SinglePage
import ChenixOS.Memory.ForkedPages
import ChenixOS.Memory.FreeCalls
import ChenixOS.Memory.RangeChecks
import ChenixOS.Memory.HeapMemory
import ChenixOS.Memory.KernelHeapProof
import ChenixOS.Memory.KernelMalloc
import ChenixOS.Libc.Realloc
import ChenixOS.Bootloader.PhysicalMap
import ChenixOS.Bootloader.PhysicalMapProof
import ChenixOS.Fs.Ext2
import ChenixOS.Fs.Ext2Files
import ChenixOS.Fs.Ext2Directories
import ChenixOS.Task.DescriptorCounts
import ChenixOS.Fs.Interleavings
import ChenixOS.Syscalls.SyscallHandler
import ChenixOS.Fs.Ext2Rounds
import ChenixOS.Lib.Words
import ChenixOS.Elf.Format
import ChenixOS.Bootloader.PrepareElf
import ChenixOS.Bootloader.PrepareElfProof
import ChenixOS.Memory.Bytes
import ChenixOS.Devices.Ahci
import ChenixOS.Memory.UserBytes
import ChenixOS.Exec.ELF
import ChenixOS.Exec.ELFLoading
import ChenixOS.Exec.ELFImage
import ChenixOS.Lib.Stack
import ChenixOS.Exec.ELFArguments
import ChenixOS.Exec.ELFArgumentsProof
import ChenixOS.Exec.Process
import ChenixOS.Exec.ProcessProof
import ChenixOS.Lib.Loop
import ChenixOS.Lib.ByteMemory
import ChenixOS.Devices.PCI
import ChenixOS.Devices.PCIConfig
import ChenixOS.Devices.PCIBars
import ChenixOS.Acpi.MADT
import ChenixOS.Devices.FirmwareWalks
import ChenixOS.Lib.Calendar
import ChenixOS.Time.Timestamps
import ChenixOS.Lib.Numerals
import ChenixOS.Klib.Itoa
import ChenixOS.Klib.StringBuffer
import ChenixOS.Klib.Format
import ChenixOS.Klib.PrintInt
import ChenixOS.Klib.Printf
import ChenixOS.Lib.Raster
import ChenixOS.Terminal.Terminal
import ChenixOS.Terminal.Screen
import ChenixOS.Terminal.ScreenProof
import ChenixOS.Klib.Memory
import ChenixOS.Fs.LinkSplice
import ChenixOS.Lib.Strings
import ChenixOS.Shell.Shell
import ChenixOS.Shell.Editor
import ChenixOS.Shell.ShellProof
import ChenixOS.Lib.Texts
import ChenixOS.Libc.Conversions
import ChenixOS.Libc.Alignment
import ChenixOS.Libc.Vsnprintf
import ChenixOS.Libc.Pieces
import ChenixOS.Libc.Fields
import ChenixOS.Libc.VsnprintfProof
import ChenixOS.Libc.Printed
import ChenixOS.Libc.Agreement
import ChenixOS.Libc.Directives
import ChenixOS.Libc.Integers
import ChenixOS.Lib.Transducer
import ChenixOS.Lib.Counted
import ChenixOS.Lib.Interaction
import ChenixOS.Devices.Keyboard
import ChenixOS.Devices.ConsoleInput
import ChenixOS.Multicore.StickyLock
import ChenixOS.Devices.Virtio
import ChenixOS.Devices.VirtioProof
import ChenixOS.Libc.Stream
import ChenixOS.Libc.StreamProof
import ChenixOS.Fs.Ledger
import ChenixOS.Fs.DirectoryTree
