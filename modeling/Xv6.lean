import Xv6.Log.Admit
import Xv6.Log.Buffers
import Xv6.Vm.Strings
import Xv6.Vm.ExecRun
import Xv6.Kern.Pids
import Xv6.Kern.Stream
import Xv6.Grep.Lines
import Xv6.Sh.Heap
import Xv6.Sh.Run
import Xv6.Fs.Reclaim
import Xv6.Fs.Fileread
import Xv6.Fs.Open
import Xv6.Fs.Links
import Xv6.Ulib.Find
import Xv6.Ulib.Memmove
import Xv6.Ulib.Printf
import Xv6.Ulib.Sixfive
import Xv6.Umalloc.More
import Xv6.Bio.Lru
import Xv6.Kern.Nest
