import Scalux.Amd64.PmapRun
import Scalux.Amd64.PmapTrans
import Scalux.Amd64.PmapFree
import Scalux.Amd64.ShootdownDeadlock
import Scalux.Amd64.Timer
import Scalux.Amd64.Intr
import Scalux.Amiga.Loader
import Scalux.Dev.Eisaid
import Scalux.Dev.Gpt
import Scalux.Dev.Madt
import Scalux.Dev.NvmeCompletion
import Scalux.Dev.NvmePrp
import Scalux.Dev.NvmeRead
import Scalux.Dev.NvmeSubmission
import Scalux.Devicekit.DiskBounds
import Scalux.Devicekit.DiskName
import Scalux.Fbterm.PlainText
import Scalux.Fbterm.Sequence
import Scalux.Kern.Callout
import Scalux.Kern.CalloutCancel
import Scalux.Kern.KmemContract
import Scalux.Kern.KmemOrder
import Scalux.Kern.KmemRun
import Scalux.Kern.KmemString
import Scalux.Kern.LiballocSafety
import Scalux.Kern.Msgbuf
import Scalux.Kern.MutexWakeup
import Scalux.Kern.SemaphoreConservation
import Scalux.Kern.ThreadLock
import Scalux.Kern.VmemArenas
import Scalux.Kern.VmemConservation
import Scalux.Kern.VmemContained
import Scalux.Kern.VmemContainers
import Scalux.Kern.VmemAligned
import Scalux.Kern.VmemRelease
import Scalux.Kern.VmemSearch
import Scalux.Lib.Ledger
import Scalux.Lib.Scan
import Scalux.Libkern.NanoprintfNumber
import Scalux.Posix.Ramdisk
import Scalux.Posix.RamdiskScan
import Scalux.Posix.Exec
import Scalux.Posix.RamdiskUnpack
import Scalux.Posix.Vfs
import Scalux.Posix.WorkingDir
import Scalux.Tmpfs.File
import Scalux.Tmpfs.Names
import Scalux.Tmpfs.Node
import Scalux.Tmpfs.Readdir
import Scalux.Tmpfs.Tree
import Scalux.Tmpfs.Paths
import Scalux.Tmpfs.Parents
import Scalux.Vm.Amap
import Scalux.Vm.AmapMemory
import Scalux.Vm.AmapRefinement
import Scalux.Vm.AnonCounts
import Scalux.Vm.Blocks
import Scalux.Vm.CopyOnWrite
import Scalux.Vm.Deallocate
import Scalux.Vm.FaultPage
import Scalux.Vm.KernelHeapRun
import Scalux.Vm.LockOrder
import Scalux.Vm.MapArena
import Scalux.Vm.MapFailure
import Scalux.Vm.ReleaseSize
import Scalux.Vm.Mdl
import Scalux.Vm.MdlExpand
import Scalux.Vm.ObjectCopy
import Scalux.Vm.PageQueues
import Scalux.Vm.PageBoot
import Scalux.Vm.TagReserve
import Scalux.Lib.Numerals
import Scalux.Libkern.Klib
import Scalux.Libkern.NanoprintfDirective
import Scalux.Libkern.Printed
import Scalux.Libkern.Uuid
