import Xv6.Kernel.Spinlocks
import Xv6.Threads.Alone
import Xv6.Threads.Cpus
import Xv6.Threads.Blocking
import Xv6.Threads.Reaping
import Xv6.Semaphores.Waking
import Xv6.Semaphores.Holding
import Xv6.Semaphores.Freeing
import Xv6.Semaphores.Line
import Xv6.Semaphores.Arguments
import Xv6.Signals.Killing
import Xv6.Signals.Returning
import Xv6.Signals.Delivery
import Xv6.FileSystem.Crash
import Xv6.FileSystem.Sleeplock
import Xv6.Memory.Lifetime
import Xv6.Memory.Strings
import Xv6.Devices.Requests
import Xv6.Files.Read
import Xv6.Files.Write
import Xv6.Files.Itable
import Xv6.Files.References
import Xv6.Pipes.Sleepers
import Xv6.Pipes.Stream
import Xv6.Tree.Paths
import Xv6.Tree.Histories
import Xv6.Image.Decode
import Xv6.Devices.Console
import Xv6.Devices.Uart
import Xv6.User.Grep
import Xv6.Memory.Kalloc
import Xv6.Memory.Memmove
