import Lariat.Kernel.Port
import Lariat.Kernel.Tty
import Lariat.Kernel.Console
import Lariat.Kernel.QueueLinks
import Lariat.Kernel.QueuesSound
import Lariat.Kernel.WaitEvent
import Lariat.Kernel.Waitpid
import Lariat.Kernel.SignalFrames
import Lariat.Libc.Cond
import Lariat.Ext4.Packing
import Lariat.Ext4.FileRuns
import Lariat.Vfs.Namespace
import Lariat.Vfs.Privilege
import Lariat.Mm.Threads
import Lariat.Mm.Heap
import Lariat.Mm.PageRuns
import Lariat.Elf.ExecFailure
import Lariat.Elf.Sharing
import Lariat.Elf.Confinement
import Lariat.Block.Ata
import Lariat.Vfs.Dentry
import Lariat.Vfs.WorkingDirectory
import Lariat.Vfs.Creation
import Lariat.Vfs.Ramfs
import Lariat.Ext4.Metadata
import Lariat.Net.Acknowledge
import Lariat.Net.FlowControl
import Lariat.Net.PacketBounds
import Lariat.Net.Checksum
import Lariat.Net.Udp
import Lariat.Net.Arp
import Lariat.User.LpkgDatabase
import Lariat.Libc.Crypt
import Lariat.Libc.Printf
