import Xv6.Cache.Contract
import Xv6.Cache.Recency
import Xv6.Cache.Refinement
import Xv6.Console.Balance
import Xv6.Curriculum.Requires
import Xv6.Exec.Segments
import Xv6.File.SharedOffset
import Xv6.Fs.Kernel.Bitmap
import Xv6.Fs.Kernel.Reserve
import Xv6.Fs.Kernel.Walk
import Xv6.Fsck.Checked
import Xv6.Grep.Lines
import Xv6.Log.GroupAtomic
import Xv6.Mkfs.Holes
import Xv6.Pipe.Fifo
import Xv6.Pipe.Stranded
import Xv6.Proc.Killed
import Xv6.Proc.Progress
import Xv6.Proc.Reap
import Xv6.Shell.Accepts
import Xv6.Strings.Names
import Xv6.Strings.Printint
import Xv6.Trace.LogReducer
import Xv6.Umalloc.Safe
import Xv6.Umalloc.Session
import Xv6.Vm.Growth
import Xv6.Vm.Lazy
import Xv6.Vm.Mapping
import Xv6.Vm.ProcTable
import Xv6.Vm.Processes
import Xv6.Vm.UserCopy
