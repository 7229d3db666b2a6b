import RixuriOS.Rixfs.Repair
import RixuriOS.Sched.StackSafety
import RixuriOS.Process.KernelSlots
import RixuriOS.Process.System
import RixuriOS.Process.Parentage
import RixuriOS.Storage.BlockCacheSpec
import RixuriOS.Syscall.PipeIoSpec
import RixuriOS.Net.Isolation
import RixuriOS.Tty.Interrupt
import RixuriOS.Rixfs.MountRegions
import RixuriOS.Syscall.Execve
import RixuriOS.Vfs.Access
import RixuriOS.Rixfs.AllocComplete
import RixuriOS.Rixfs.FileBytes
import RixuriOS.Vfs.Normalize
import RixuriOS.Rixfs.NameRuns
import RixuriOS.Storage.NvmePrp
import RixuriOS.Mm.Validate
import RixuriOS.Net.Ipv6Route
import RixuriOS.Net.Reassembly
import RixuriOS.Sync.WaitHandles
import RixuriOS.Syscall.Interrupts
import RixuriOS.Net.Rtl8125
import RixuriOS.Net.UdpChecksum
import RixuriOS.Net.Stack
import RixuriOS.Shell.Names
import RixuriOS.Shell.Lists
import RixuriOS.Libc.Convert
import RixuriOS.Libc.Format
import RixuriOS.Libc.Calendar
