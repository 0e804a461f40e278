/-!
# Constants of the kernel

The numbers of `kernel/param.h`, `kernel/fs.h` and `kernel/fcntl.h` that the modelled code reads,
under the source's names. `USERSTACK` and `FSSIZE` are the values of the `util` lab
(`conf/lab.mk`).
-/

namespace Xv6

/-- Open files per process. -/
def NOFILE : Nat := 16

/-- Open files per system. -/
def NFILE : Nat := 100

/-- Maximum number of active i-nodes. -/
def NINODE : Nat := 50

/-- Maximum major device number. -/
def NDEV : Nat := 10

/-- Maximum number of processes. -/
def NPROC : Nat := 64

/-- Maximum number of `exec` arguments. -/
def MAXARG : Nat := 32

/-- Maximum number of blocks that a file system operation writes. -/
def MAXOPBLOCKS : Nat := 10

/-- Data blocks in the on-disk log. -/
def LOGBLOCKS : Nat := MAXOPBLOCKS * 3

/-- Size of the disk block cache. -/
def NBUF : Nat := MAXOPBLOCKS * 3

/-- Maximum length of a file path name. -/
def MAXPATH : Nat := 128

/-- User stack pages. -/
def USERSTACK : Nat := 2

/-- Block size. -/
def BSIZE : Nat := 1024

end Xv6
