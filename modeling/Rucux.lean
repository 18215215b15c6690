import Rucux.Memory.HeapRepresentation
import Rucux.Memory.MmapFrames
import Rucux.Memory.Pmm
import Rucux.Memory.Slab
import Rucux.Net.Tcp.Teardown
import Rucux.Net.Tcp.Demux
import Rucux.Net.Tcp.Listener
import Rucux.Net.Tcp.Stream
import Rucux.Net.Arp.Queues
import Rucux.Vfs.Fat32Array
import Rucux.Memory.Tlb
import Rucux.Memory.UserAccess
import Rucux.Process.Spawn
import Rucux.Libc.Netdb
import Rucux.Libc.Stdio
import Rucux.Libc.Strtol
import Rucux.Libc.PthreadInvariant
import Rucux.Sync.FutexSemantics
import Rucux.Sync.Spinlock
import Rucux.Vfs.Ramfs
import Rucux.Ipc.LocalListeners
import Rucux.Ipc.LocalStreams
import Rucux.Process.Credentials
import Rucux.Log.Logd
import Rucux.Vfs.Epoll
import Rucux.Log.Kmsg
import Rucux.Vfs.Tty
import Rucux.Tools.ResolvePorts
import Rucux.Net.Ephemeral
