import Uros.Foundation.Transition
import Uros.Foundation.ChainTable
import Uros.Foundation.Forest
import Uros.Foundation.StackWalk
import Uros.Foundation.Bytes
import Uros.Foundation.StateProg
import Uros.Foundation.Tally
import Uros.Foundation.SlotTable
import Uros.Foundation.Blit
import Uros.Foundation.RingCounter
import Uros.Foundation.WrapRange
import Uros.Foundation.SignedInt
import Uros.Cap.Sha256
import Uros.Cap.Hashing
import Uros.Cap.Fips
import Uros.Cap.ShaNi
import Uros.Cap.Types
import Uros.Cap.Manifest
import Uros.Cap.Mkmanifest
import Uros.Cap.Table
import Uros.Cap.Server
import Uros.Cap.ManifestFailure
import Uros.Cap.Delegation
import Uros.Cap.Cascade
import Uros.Cap.Kernel
import Uros.Cap.BoundedUse
import Uros.Cap.Attenuation
import Uros.Cap.Agreement
import Uros.Block.Server
import Uros.Block.Transfer
import Uros.Block.Containment
import Uros.Block.Demux
import Uros.Block.System
import Uros.Block.Revocation
import Uros.Block.Isolation
import Uros.Block.Confinement
import Uros.Ipc.Space
import Uros.Ipc.Port
import Uros.Ipc.MachMsg
import Uros.Ipc.CacheRole
import Uros.Ipc.Names
import Uros.Kernel.Futex
import Uros.Flipc2.Channel
import Uros.Flipc2.Fifo
import Uros.Flipc2.Mpsc
import Uros.Flipc2.Attach
import Uros.Flipc2.Bounds
import Uros.Flipc2.BufGroup
import Uros.Flipc2.Wakeup
import Uros.Flipc2.Endpoint
import Uros.Flipc2.Clients
import Uros.Proc.Server
import Uros.Proc.Effect
import Uros.Proc.Exit
import Uros.Proc.Session
import Uros.Posix.Signals
import Uros.Char.Server
import Uros.Char.Isolation
import Uros.Vfs.Descriptor
import Uros.Vfs.MountRights
import Uros.Vfs.ReadAhead
import Uros.Vfs.WriteBehind
import Uros.Vfs.Inheritance
import Uros.Vfs.Readdir
import Uros.Netname.Registry
import Uros.Netname.Death
import Uros.Exec.Blob
import Uros.Exec.Stack
import Uros.Exec.Arguments
import Uros.Exec.Elf
import Uros.Pthread.Barrier
import Uros.Pthread.Rwlock
import Uros.Pthread.Mutex
import Uros.Gpu.Server
import Uros.Device.IrqForward
import Uros.Device.IrqDelivery
import Uros.Dl.Loader
import Uros.Pthread.Robust
import Uros.Kernel.Klog
import Uros.Pthread.Deadline
import Uros.Kernel.Rcu
import Uros.Exec.LibElf
import Uros.Ext2.Mapping
import Uros.Ext2.OpenFiles
import Uros.Foundation.Custody
import Uros.Flipc2.Freelist
import Uros.Char.Keyboard
import Uros.Pthread.Tsd
import Uros.Ext2.Counters
import Uros.Gpu.Vga
import Uros.Block.Ahci
import Uros.Foundation.LinearProbe
import Uros.Foundation.Places
import Uros.Foundation.Route
import Uros.Ipc.LocalHash
import Uros.Ipc.Radix
import Uros.Ipc.GrowLock
import Uros.Ipc.GrowTable
import Uros.Kernel.Zone
import Uros.PageCache.Structure
import Uros.Ipc.RightEntry
import Uros.Ipc.EntryForm
import Uros.Ipc.Mqueue
import Uros.Ipc.Circularity
