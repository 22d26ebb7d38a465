import Xv6.Log.Crash
import Xv6.Proc.Kill
import Xv6.Proc.Trace
import Xv6.Log.Space
import Xv6.Log.Flat
import Xv6.Fs.Hierarchy
import Xv6.Pipe.Fifo
import Xv6.Proc.Interrupt
import Xv6.Proc.Procnum
import Xv6.Mem.Freemem
import Xv6.Sh.Correct
import Xv6.Ftable.Runs
import Xv6.Itable.Exhaust
import Xv6.Proc.Pids
import Xv6.Fs.Bytes
import Xv6.Console.Loss
import Xv6.Umalloc.Requests
import Xv6.Vm.Text
import Xv6.User.Memmove
import Xv6.User.Printf
import Xv6.User.Grep
