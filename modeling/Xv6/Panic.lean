/-!
# The kernel's panics

One constructor for each `panic` call of the modelled functions; its docstring is the text that
the call prints. A panic stops the machine, so a run that panics has no later state. The last
constructors are no calls of `panic`, but places where the C code has no defined next state.
-/

namespace Xv6

/-- A call of `panic`. -/
inductive Panic where
  /-- `bget: no buffers` (`bget`). -/
  | bgetNoBuffers
  /-- `bwrite` (`bwrite`). -/
  | bwrite
  /-- `brelse` (`brelse`). -/
  | brelse
  /-- `log.committing` (`end_op`). -/
  | logCommitting
  /-- `too big a transaction` (`log_write`). -/
  | tooBigTransaction
  /-- `log_write outside of trans` (`log_write`). -/
  | logWriteOutsideOfTrans
  /-- `kfree` (`kfree`). -/
  | kfree
  /-- `walk` (`walk`). -/
  | walk
  /-- `mappages: va not aligned` (`mappages`). -/
  | mappagesVaNotAligned
  /-- `mappages: size not aligned` (`mappages`). -/
  | mappagesSizeNotAligned
  /-- `mappages: size` (`mappages`). -/
  | mappagesSize
  /-- `mappages: remap` (`mappages`). -/
  | mappagesRemap
  /-- `uvmunmap: not aligned` (`uvmunmap`). -/
  | uvmunmapNotAligned
  /-- `freewalk: leaf` (`freewalk`). -/
  | freewalkLeaf
  /-- `uvmclear` (`uvmclear`). -/
  | uvmclear
  /-- `loadseg: address should exist` (`loadseg`). -/
  | loadsegAddressShouldExist
  /-- `exec` (`forkret`). -/
  | exec
  /-- `init exiting` (`kexit`). -/
  | initExiting
  /-- `acquire` (`acquire`). -/
  | acquire
  /-- `release` (`release`). -/
  | release
  /-- `sched p->lock` (`sched`). -/
  | schedPLock
  /-- `sched locks` (`sched`). -/
  | schedLocks
  /-- `sched RUNNING` (`sched`). -/
  | schedRunning
  /-- `filedup` (`filedup`). -/
  | filedup
  /-- `fileclose` (`fileclose`). -/
  | fileclose
  /-- `free_desc 1` (`free_desc`). -/
  | freeDesc1
  /-- `free_desc 2` (`free_desc`). -/
  | freeDesc2
  /-- `virtio_disk_intr status` (`virtio_disk_intr`). -/
  | virtioDiskIntrStatus
  /-- `freeing free block` (`bfree`). -/
  | freeingFreeBlock
  /-- `iget: no inodes` (`iget`). -/
  | igetNoInodes
  /-- `ilock` (`ilock`). -/
  | ilock
  /-- `ilock: no type` (`ilock`). -/
  | ilockNoType
  /-- `iunlock` (`iunlock`). -/
  | iunlock
  /-- `bmap: out of range` (`bmap`). -/
  | bmapOutOfRange
  /-- `dirlookup not DIR` (`dirlookup`). -/
  | dirlookupNotDir
  /-- `dirlookup read` (`dirlookup`). -/
  | dirlookupRead
  /-- `dirlink read` (`dirlink`). -/
  | dirlinkRead
  /-- `unlink: nlink < 1` (`sys_unlink`). -/
  | unlinkNlink
  /-- `unlink: writei` (`sys_unlink`). -/
  | unlinkWritei
  /-- `isdirempty: readi` (`isdirempty`). -/
  | isdiremptyReadi
  /-- `filewrite` (`filewrite`). -/
  | filewrite
  /-- No call of `panic`: the process waits for a sleep lock that it holds. -/
  | selfDeadlock
  /-- No call of `panic`: the kernel loads through a null pointer. -/
  | nullPointer
  /-- No call of `panic`: `freewalk` recurses below the three levels of a page table. -/
  | freewalkDepth
  /-- No call of `panic`: `kexec` stores past the end of its array `ustack`. -/
  | ustackBounds
  deriving DecidableEq, Repr

end Xv6
