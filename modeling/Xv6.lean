import Xv6.Bio.Coherence
import Xv6.Console.Input
import Xv6.Fs.ByteArray
import Xv6.Fs.Resolve
import Xv6.Log.Capacity
import Xv6.Mkfs.Mount
import Xv6.Pipe.Wakeups
import Xv6.Pmanager.Parse
import Xv6.Proc.Launch
import Xv6.Proc.Lineage
import Xv6.Proc.Marks
import Xv6.Proc.Priority
import Xv6.Sched.Choice
import Xv6.Sched.Reset
import Xv6.Sched.RoundRobin
import Xv6.Sh.Words
import Xv6.Sys.Outstanding
import Xv6.Sys.RefRuns
import Xv6.Tx.Limit
import Xv6.Users.Copies
import Xv6.Users.Entries
import Xv6.Users.Leak
import Xv6.Vm.Dealloc
import Xv6.Write.Runs
