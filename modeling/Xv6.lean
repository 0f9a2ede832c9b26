import Xv6.Mlfq.Membership
import Xv6.Mlfq.Lock
import Xv6.Mlfq.Levels
import Xv6.Mlfq.Sleep
import Xv6.Lwp.TwoLevel
import Xv6.Lwp.Join
import Xv6.Lwp.Locks
import Xv6.Lwp.Stacks
import Xv6.Fs.Crash
import Xv6.Lwp.Wake
import Xv6.Lwp.Balance
import Xv6.Lwp.Exit
import Xv6.Lwp.Isolation
import Xv6.File.Trunc
import Xv6.File.Mkfs
import Xv6.Lwp.Kill
import Xv6.Lwp.Child
import Xv6.Vm.Create
import Xv6.Fs.Atomic
import Xv6.Fs.Capacity
import Xv6.File.Boot
import Xv6.Mlfq.Order
import Xv6.Lwp.RoundRobin
import Xv6.Lwp.Killed
import Xv6.Vm.Args
import Xv6.Mlfq.Ops
import Xv6.Mlfq.Pick
import Xv6.User.Pmanager
import Xv6.Fs.Sync
import Xv6.Fs.Coherence
import Xv6.Fs.Lost
import Xv6.File.Clobber
import Xv6.Ipc.Files
import Xv6.Fs.Group
import Xv6.Dev.Console
import Xv6.Dev.Ide
import Xv6.User.Malloc
