import MachKernel.Vm.CopyDelayed
import MachKernel.Vm.Copyin
import MachKernel.Ipc.Hash
import MachKernel.Ipc.Wakeup
import MachKernel.Vm.Queues
import MachKernel.Vm.WireCounts
import MachKernel.Device.Sdisk
import MachKernel.Mac2.ThreadStatus
import MachKernel.Ux.SharedLock
import MachKernel.Ux.MappedCalls
import MachKernel.Ux.Spl
import MachKernel.Norma.SvmCoherent
import MachKernel.Norma.SvmQueue
import MachKernel.Kern.SyscallEmulation
import MachKernel.Kern.Lock
import MachKernel.Kern.Timeout
import MachKernel.Kern.Zalloc
import MachKernel.Vm.DataSupply
import MachKernel.Boot.ParallelPaging
import MachKernel.Ux.Sleep
import MachKernel.Ux.Callout
import MachKernel.Ux.InodePager
import MachKernel.Cthreads.Safety
import MachKernel.Device.Cirbuf
import MachKernel.Kern.AdjustTime
import MachKernel.Kern.ThreadScan
import MachKernel.Vm.LookupEntry
import MachKernel.Device.DevPager
import MachKernel.Device.DeviceWrite
import MachKernel.Device.NetInput
import MachKernel.Cthreads.MallocSound
import MachKernel.Vm.CopyoutTransition
import MachKernel.Vm.CopyinPages
import MachKernel.Vm.FaultPlace
import MachKernel.Vm.Coalesce
import MachKernel.Ipc.TraverseHeap
import MachKernel.Ipc.Urefs
import MachKernel.Boot.MapBuffers
import MachKernel.Mac2.Log2Phys
import MachKernel.Device.DiskOpen
import MachKernel.Ux.CopyInStr
import MachKernel.Boot.FileBuffers
import MachKernel.Ux.Windows
import MachKernel.Ipc.DnTable
import MachKernel.Ipc.Rings
