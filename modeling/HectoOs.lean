import HectoOs.Lib.Memory
import HectoOs.Lib.Exec
import HectoOs.Lib.TwoRuns
import HectoOs.Lib.Chain
import HectoOs.Lib.Radix
import HectoOs.Lib.SearchTree
import HectoOs.Drivers.Block
import HectoOs.Drivers.BlockCache
import HectoOs.Heap.Page
import HectoOs.Heap.PageProofs
import HectoOs.Heap.Slab
import HectoOs.Heap.SlabClass
import HectoOs.Heap.SlabZone
import HectoOs.Heap.SlabView
import HectoOs.Heap.SlabProofs
import HectoOs.Heap.SlabRun
import HectoOs.Heap.Paging
import HectoOs.Heap.SlabBoot
import HectoOs.Heap.SlabAlign
import HectoOs.Heap.SizeClasses
import HectoOs.Heap.PageAlloc
import HectoOs.Heap.ForwardList
import HectoOs.Mm.Address
import HectoOs.Mm.PhysicalPage
import HectoOs.Mm.PhysicalPageProofs
import HectoOs.Mm.Pte
import HectoOs.Mm.PageTable
import HectoOs.Mm.PageTableProofs
import HectoOs.Mm.MapProofs
import HectoOs.Mm.PageTableMap
import HectoOs.Mm.AddressSpace
import HectoOs.Mm.Ownership
import HectoOs.Mm.Tracking
import HectoOs.Mm.Filling
import HectoOs.Mm.Fault
import HectoOs.Mm.Fork
import HectoOs.Mm.Os
import HectoOs.Mm.Areas
import HectoOs.Mm.Changes
import HectoOs.Process.UserStack
import HectoOs.Process.StackWrites
import HectoOs.Mm.System
import HectoOs.Mm.KernelStacks
import HectoOs.Mm.KernelHalf
import HectoOs.Mm.UserArea
import HectoOs.Mm.NewArea
import HectoOs.Mm.DevicePages
import HectoOs.Mm.Protection
import HectoOs.Mm.Isolation
import HectoOs.Mm.DataSegment
import HectoOs.Mm.CopyOnWrite
import HectoOs.Mm.CowFault
import HectoOs.Mm.PointLookup
import HectoOs.Mm.Reprotect
import HectoOs.Mm.OldContents
import HectoOs.Mm.FreshMemory
import HectoOs.Mm.LoadedSegments
import HectoOs.Mm.ElfLoader
import HectoOs.Mm.Munmap
import HectoOs.Sync.Condvar
import HectoOs.Sync.SpinLock
import HectoOs.Lib.Arc
import HectoOs.Lib.Components
import HectoOs.Fs.Pipe
import HectoOs.Fs.File
import HectoOs.Fs.Stream
import HectoOs.Fs.Positions
import HectoOs.Fs.VnodeCache
import HectoOs.Fs.Unlink
import HectoOs.Fs.Mount
import HectoOs.Fs.Lookup
import HectoOs.Syscall.Descriptors
import HectoOs.Syscall.BadDescriptor
import HectoOs.Syscall.Paths
import HectoOs.Process.Wait
import HectoOs.Process.WaitRuns
import HectoOs.Process.Threads
import HectoOs.Process.ThreadRefs
import HectoOs.Process.ThreadLife
import HectoOs.Process.ChildTid
import HectoOs.Process.StackRuns
import HectoOs.Process.StackAlignment
import HectoOs.Process.FreshStack
import HectoOs.Process.StackImage
import HectoOs.Process.ProgramHeaders
import HectoOs.Process.KernelStack
import HectoOs.Process.Leaks
import HectoOs.Process.Times
import HectoOs.Syscall.Sendfile
import HectoOs.Syscall.Handlers
import HectoOs.Syscall.Locks
import HectoOs.Syscall.CloseOnExec
import HectoOs.Fs.AccessMode
import HectoOs.Syscall.Switches
import HectoOs.Syscall.Mmap
import HectoOs.Timer
import HectoOs.Timer.Runs
import HectoOs.Timer.Clocks
import HectoOs.Trap
import HectoOs.Fatfs.BootSector
import HectoOs.Fatfs.BootCodec
import HectoOs.Fatfs.Clusters
import HectoOs.Fatfs.EntryCodec
import HectoOs.Fatfs.File
import HectoOs.Fatfs.Volume
import HectoOs.Fatfs.ChainRuns
import HectoOs.Fatfs.EntryDisk
import HectoOs.Fatfs.OpenFile
import HectoOs.Fatfs.Truncate
import HectoOs.Fatfs.FileRuns
import HectoOs.Fatfs.EditedEntries
import HectoOs.Fatfs.Mount
import HectoOs.Fatfs.Sessions
import HectoOs.Fatfs.SessionRuns
