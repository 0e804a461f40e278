import Xv6.Fs.Layout
import Xv6.Lib.Wp
import Xv6.Vm.Riscv

/-!
# The file system

`kernel/fs.c` from the block allocator up to path names, as programs of one process on the state
`St`: the blocks as the buffer cache shows them, the buffers whose lock the process holds, the log
and the table of in-memory inodes. There is one device.

* A buffer is named by its block. `bread` of a buffer that the process holds already would wait for
  ever: it stops with `selfDeadlock`, and so does `ilock` of an inode that the process has locked.
  The cache always has a buffer; its capacity is the subject of `Xv6.Bio` and `Xv6.Log`.
* `beginOp` and `endOp` are those of a process that finds room in the log; the commit writes the
  logged blocks to the disk and leaves the cache as it is. `wrote` is a history of the calls of
  `log_write`.
* The memory of the process is given by its pages: `copyin` and `copyout` go page by page and stop
  at the first page that they cannot use, after the bytes before it have been copied.
* `0` and `-1` as results that mean failure are `none`.
-/

namespace Xv6.Fs

open Seq Seq.M

/-- `struct inode`. -/
structure Inode extends Dinode where
  inum : Nat := 0
  /-- Reference count. -/
  ref : Nat := 0
  /-- Has the inode been read from disk? -/
  valid : Bool := false
  /-- The sleep lock is held. -/
  locked : Bool := false

/-- The state of the file system. -/
structure St where
  /-- The contents of each block, as `bread` returns them. -/
  blk : Nat → Block
  /-- The blocks whose buffers are locked. -/
  held : List Nat := []
  /-- `log.outstanding`. -/
  outstanding : Nat := 0
  /-- `log.lh.block`, the latest first. -/
  lh : List Nat := []
  /-- The blocks passed to `log_write` so far, the latest first. -/
  wrote : List Nat := []
  /-- `itable.inode`, by index. -/
  itable : Nat → Inode := fun _ => {}

/-- A program on the file system. -/
abbrev FM := M St Panic

namespace St

variable (s : St)

/-- The buffer of block `b` is locked. -/
@[simps -fullyApplied]
def hold (b : Nat) : St := { s with held := b :: s.held }

/-- The buffer of block `b` is released. -/
def unhold (b : Nat) : St := { s with held := s.held.erase b }

/-- The buffer of block `b` has the contents `d`. -/
@[simps -fullyApplied]
def setBlk (b : Nat) (d : Block) : St := { s with blk := Function.update s.blk b d }

/-- `log_write` of block `b`. -/
@[simps -fullyApplied blk held outstanding wrote itable]
def log (b : Nat) : St :=
  { s with lh := if b ∈ s.lh then s.lh else b :: s.lh, wrote := b :: s.wrote }

/-- Entry `k` of the inode table is `ip`. -/
@[simps -fullyApplied]
def setInode (k : Nat) (ip : Inode) : St := { s with itable := Function.update s.itable k ip }

end St

/-! ## Buffers and the log -/

/-- `bread`: the contents of block `b`, with its buffer locked. -/
def bread (b : Nat) : FM Block := do
  let held ← gets St.held
  if b ∈ held then stop .selfDeadlock
  else do
    modify (·.hold b)
    gets fun s => s.blk b

/-- `brelse`. -/
def brelse (b : Nat) : FM Unit := modify (·.unhold b)

/-- A store to the data of a buffer. -/
def setData (b : Nat) (d : Block) : FM Unit := modify (·.setBlk b d)

/-- `log_write`. -/
def logWrite (b : Nat) : FM Unit := do
  let s ← gets id
  if LOGBLOCKS ≤ s.lh.length then stop .tooBigTransaction
  else if s.outstanding < 1 then stop .logWriteOutsideOfTrans
  else modify (·.log b)

/-- `begin_op`. -/
def beginOp : FM Unit := modify fun s => { s with outstanding := s.outstanding + 1 }

/-- `end_op`: the last operation commits, which empties the log. -/
def endOp : FM Unit := modify fun s =>
  { s with
    outstanding := s.outstanding - 1
    lh := if s.outstanding - 1 = 0 then [] else s.lh }

/-- A load of inode table entry `k`. -/
def getInode (k : Nat) : FM Inode := gets fun s => s.itable k

/-- A store to inode table entry `k`. -/
def setInode (k : Nat) (ip : Inode) : FM Unit := modify (·.setInode k ip)

/-! ## Blocks -/

variable (sb : Superblock)

/-- `bzero`: zero a block. -/
def bzero (b : Nat) : FM Unit := do
  let _ ← bread b
  setData b fun _ => 0
  logWrite b
  brelse b

/-- The inner loop of `balloc`: the first free bit of the bitmap block that starts with bit `b`. -/
def freeBit (b : Nat) (d : Block) : Option Nat :=
  (List.range (min BPB (sb.size - b))).find? fun bi => !Bytes.bit d bi

/-- The outer loop of `balloc`, over the bitmap blocks of a list. -/
def ballocFrom : List Nat → FM Nat
  | [] => pure 0
  | k :: ks => do
    let b := k * BPB
    let d ← bread (sb.bblock b)
    match freeBit sb b d with
    | some bi => do
      setData (sb.bblock b) (Bytes.setBit d bi)
      logWrite (sb.bblock b)
      brelse (sb.bblock b)
      bzero (b + bi)
      pure (b + bi)
    | none => do
      brelse (sb.bblock b)
      ballocFrom ks

/-- `balloc`: allocate a zeroed disk block, zero if there is none. -/
def balloc : FM Nat := ballocFrom sb (List.range sb.nbitmap)

/-- `bfree`: free a disk block. -/
def bfree (b : Nat) : FM Unit := do
  let d ← bread (sb.bblock b)
  if Bytes.bit d (b % BPB) then do
    setData (sb.bblock b) (Bytes.clearBit d (b % BPB))
    logWrite (sb.bblock b)
    brelse (sb.bblock b)
  else stop .freeingFreeBlock

/-! ## Inodes -/

/-- `iupdate`: copy a modified in-memory inode to disk. -/
def iupdate (k : Nat) : FM Unit := do
  let ip ← getInode k
  let d ← bread (sb.iblock ip.inum)
  setData (sb.iblock ip.inum) (Dinode.store d (ip.inum % IPB) ip.toDinode)
  logWrite (sb.iblock ip.inum)
  brelse (sb.iblock ip.inum)

/-- The entry of the inode table for `inum`. -/
def St.find (s : St) (inum : Nat) : Option Nat :=
  (List.range NINODE).find? fun k => decide (0 < (s.itable k).ref ∧ (s.itable k).inum = inum)

/-- The first free entry of the inode table. -/
def St.empty (s : St) : Option Nat :=
  (List.range NINODE).find? fun k => decide ((s.itable k).ref = 0)

/-- `iget`: the table entry for an inode, with one more reference. -/
def iget (inum : Nat) : FM Nat := do
  let s ← gets id
  match s.find inum with
  | some k => do
    setInode k { s.itable k with ref := (s.itable k).ref + 1 }
    pure k
  | none =>
    match s.empty with
    | none => stop .igetNoInodes
    | some k => do
      setInode k { s.itable k with inum := inum, ref := 1, valid := false }
      pure k

/-- `idup`. -/
def idup (k : Nat) : FM Unit := do
  let ip ← getInode k
  setInode k { ip with ref := ip.ref + 1 }

/-- The loop of `ialloc`, over the inode numbers of a list. -/
def iallocFrom (type : Nat) : List Nat → FM (Option Nat)
  | [] => pure none
  | inum :: l => do
    let d ← bread (sb.iblock inum)
    if (Dinode.load d (inum % IPB)).type = 0 then do
      setData (sb.iblock inum) (Dinode.store d (inum % IPB) { type := type })
      logWrite (sb.iblock inum)
      brelse (sb.iblock inum)
      let k ← iget inum
      pure (some k)
    else do
      brelse (sb.iblock inum)
      iallocFrom type l

/-- `ialloc`: allocate an inode. -/
def ialloc (type : Nat) : FM (Option Nat) := iallocFrom sb type (List.range' 1 (sb.ninodes - 1))

/-- `ilock`: lock an inode, read it from disk if necessary. -/
def ilock (k : Nat) : FM Unit := do
  let ip ← getInode k
  if ip.ref < 1 then stop .ilock
  else if ip.locked then stop .selfDeadlock
  else if ip.valid then setInode k { ip with locked := true }
  else do
    let d ← bread (sb.iblock ip.inum)
    let di := Dinode.load d (ip.inum % IPB)
    brelse (sb.iblock ip.inum)
    setInode k { ip with toDinode := di, locked := true, valid := true }
    if di.type = 0 then stop .ilockNoType else pure ()

/-- `iunlock`. -/
def iunlock (k : Nat) : FM Unit := do
  let ip ← getInode k
  if !ip.locked || ip.ref < 1 then stop .iunlock
  else setInode k { ip with locked := false }

/-! ## Inode content -/

/-- `ip->addrs[i] = a`. -/
def Inode.setAddr (ip : Inode) (i a : Nat) : Inode :=
  { ip with addrs := Function.update ip.addrs i a }

/-- The rest of `bmap` once the indirect block `c` is there: entry `j`, allocated if necessary. -/
def bmapEntry (c j : Nat) : FM Nat := do
  let d ← bread c
  if Bytes.getU32 d j = 0 then do
    let b ← balloc sb
    if b = 0 then do
      brelse c
      pure 0
    else do
      setData c (Bytes.setU32 d j b)
      logWrite c
      brelse c
      pure b
  else do
    brelse c
    pure (Bytes.getU32 d j)

/-- `ip->addrs[i]`, allocated if necessary. -/
def bmapAddr (k i : Nat) : FM Nat := do
  let ip ← getInode k
  if ip.addrs i = 0 then do
    let b ← balloc sb
    if b = 0 then pure 0
    else do
      setInode k (ip.setAddr i b)
      pure b
  else pure (ip.addrs i)

/-- `bmap`: the disk block of the `bn`-th block of an inode, allocated if necessary. -/
def bmap (k bn : Nat) : FM Nat :=
  if bn < NDIRECT then bmapAddr sb k bn
  else if bn - NDIRECT < NINDIRECT then do
    let c ← bmapAddr sb k NDIRECT
    if c = 0 then pure 0
    else bmapEntry sb c (bn - NDIRECT)
  else stop .bmapOutOfRange

/-- The first loop of `itrunc`, over the indices of a list. -/
def truncDirect (k : Nat) : List Nat → FM Unit
  | [] => pure ()
  | i :: l => do
    let ip ← getInode k
    if ip.addrs i = 0 then truncDirect k l
    else do
      bfree sb (ip.addrs i)
      setInode k (ip.setAddr i 0)
      truncDirect k l

/-- The second loop of `itrunc`: free the blocks in a list of entries. -/
def truncEntries : List Nat → FM Unit
  | [] => pure ()
  | a :: l =>
    if a = 0 then truncEntries l
    else do
      bfree sb a
      truncEntries l

/-- `itrunc`: discard the contents of an inode. -/
def itrunc (k : Nat) : FM Unit := do
  truncDirect sb k (List.range NDIRECT)
  let ip ← getInode k
  (if ip.addrs NDIRECT = 0 then pure ()
    else do
      let d ← bread (ip.addrs NDIRECT)
      truncEntries sb ((List.range NINDIRECT).map (Bytes.getU32 d))
      brelse (ip.addrs NDIRECT)
      bfree sb (ip.addrs NDIRECT)
      setInode k (ip.setAddr NDIRECT 0))
  let ip ← getInode k
  setInode k { ip with size := 0 }
  iupdate sb k

/-- `iput`: drop a reference; free an inode that has no other reference and no link. -/
def iput (k : Nat) : FM Unit := do
  let ip ← getInode k
  (if ip.ref = 1 ∧ ip.valid ∧ ip.nlink = 0 then do
      (if ip.locked then stop .selfDeadlock else setInode k { ip with locked := true })
      itrunc sb k
      let ip ← getInode k
      setInode k { ip with type := 0 }
      iupdate sb k
      let ip ← getInode k
      setInode k { ip with valid := false, locked := false }
    else pure ())
  let ip ← getInode k
  setInode k { ip with ref := ip.ref - 1 }

/-- `iunlockput`. -/
def iunlockput (k : Nat) : FM Unit := do
  iunlock k
  iput sb k

/-- Where `writei` reads: kernel memory, or the pages of the process that `copyin` can read. -/
inductive Src where
  | kernel (mem : Nat → UInt8)
  | user (page : Nat → Option (Nat → UInt8))

/-- Where `readi` writes: kernel memory, or the pages of the process that `copyout` can write. -/
inductive Dst where
  | kernel
  | user (page : Nat → Bool)

/-- `copyin` of `len` bytes from `srcva`: the bytes copied, and whether all were. Each turn of the
loop copies a byte at least, so `len` turns are enough. -/
def copyin (page : Nat → Option (Nat → UInt8)) : Nat → Nat → Nat → List UInt8 × Bool
  | 0, _, _ => ([], true)
  | fuel + 1, srcva, len =>
    if len = 0 then ([], true)
    else
      match page (srcva / PGSIZE) with
      | none => ([], false)
      | some p =>
        let n := min (PGSIZE - srcva % PGSIZE) len
        let r := copyin page fuel (pgRoundDown srcva + PGSIZE) (len - n)
        (Bytes.slice p (srcva % PGSIZE) n ++ r.1, r.2)

/-- `copyout` of some bytes to `dstva`: the bytes copied, and whether all were. -/
def copyout (page : Nat → Bool) : Nat → Nat → List UInt8 → List UInt8 × Bool
  | 0, _, _ => ([], true)
  | fuel + 1, dstva, src =>
    if src = [] then ([], true)
    else if page (dstva / PGSIZE) then
      let n := min (PGSIZE - dstva % PGSIZE) src.length
      let r := copyout page fuel (pgRoundDown dstva + PGSIZE) (src.drop n)
      (src.take n ++ r.1, r.2)
    else ([], false)

/-- `either_copyin`. -/
def eitherCopyin (src : Src) (va len : Nat) : List UInt8 × Bool :=
  match src with
  | .kernel mem => (Bytes.slice mem va len, true)
  | .user page => copyin page len va len

/-- `either_copyout`. -/
def eitherCopyout (dst : Dst) (va : Nat) (src : List UInt8) : List UInt8 × Bool :=
  match dst with
  | .kernel => (src, true)
  | .user page => copyout page src.length va src

/-- The loop of `readi`. Each turn reads a byte at least, so `n` turns are enough. -/
def readLoop (k : Nat) (dst : Dst) (n : Nat) : Nat → Nat → Nat → Nat → FM (Option Nat × List UInt8)
  | 0, tot, _, _ => pure (some tot, [])
  | fuel + 1, tot, off, va =>
    if tot < n then do
      let addr ← bmap sb k (off / BSIZE)
      if addr = 0 then pure (some tot, [])
      else do
        let d ← bread addr
        let m := min (n - tot) (BSIZE - off % BSIZE)
        let c := eitherCopyout dst va (Bytes.slice d (off % BSIZE) m)
        brelse addr
        if c.2 then do
          let r ← readLoop k dst n fuel (tot + m) (off + m) (va + m)
          pure (r.1, c.1 ++ r.2)
        else pure (none, c.1)
    else pure (some tot, [])

/-- `readi`: the result, and the bytes stored from `va` on. -/
def readi (k : Nat) (dst : Dst) (va off n : Nat) : FM (Option Nat × List UInt8) := do
  let ip ← getInode k
  if ip.size < off ∨ (off + n) % U32 < off then pure (some 0, [])
  else
    let n := if ip.size < off + n then ip.size - off else n
    readLoop sb k dst n n 0 off va

/-- The loop of `writei`: the bytes written and the offset at its end. -/
def writeLoop (k : Nat) (src : Src) (n : Nat) : Nat → Nat → Nat → Nat → FM (Nat × Nat)
  | 0, tot, off, _ => pure (tot, off)
  | fuel + 1, tot, off, va =>
    if tot < n then do
      let addr ← bmap sb k (off / BSIZE)
      if addr = 0 then pure (tot, off)
      else do
        let d ← bread addr
        let m := min (n - tot) (BSIZE - off % BSIZE)
        let c := eitherCopyin src va m
        setData addr (Bytes.put d (off % BSIZE) c.1)
        if c.2 then do
          logWrite addr
          brelse addr
          writeLoop k src n fuel (tot + m) (off + m) (va + m)
        else do
          brelse addr
          pure (tot, off)
    else pure (tot, off)

/-- `writei`: the number of bytes written. -/
def writei (k : Nat) (src : Src) (va off n : Nat) : FM (Option Nat) := do
  let ip ← getInode k
  if ip.size < off ∨ (off + n) % U32 < off then pure none
  else if MAXFILE * BSIZE < (off + n) % U32 then pure none
  else do
    let r ← writeLoop sb k src n n 0 off va
    let ip ← getInode k
    (if ip.size < r.2 then setInode k { ip with size := r.2 } else pure ())
    iupdate sb k
    pure (some r.1)

/-! ## Directories -/

/-- `strncmp`, from index `i` on. -/
def strncmp (p q : Nat → UInt8) : Nat → Nat → Int
  | 0, _ => 0
  | n + 1, i =>
    if p i ≠ 0 ∧ p i = q i then strncmp p q n (i + 1)
    else (p i).toNat - (q i).toNat

/-- `namecmp`. -/
def namecmp (s t : Nat → UInt8) : Int := strncmp s t DIRSIZ 0

/-- What `strncpy` stores at index `i`: the bytes up to the first zero, then zeros. -/
def strncpy (t : Nat → UInt8) (i : Nat) : UInt8 :=
  if (List.range i).all fun j => t j != 0 then t i else 0

/-- The loop of `dirlookup`: the entry of the inode table and the offset in the directory. -/
def dirlookupFrom (k : Nat) (name : Nat → UInt8) : Nat → Nat → FM (Option (Nat × Nat))
  | 0, _ => pure none
  | fuel + 1, off => do
    let dp ← getInode k
    if off < dp.size then do
      let r ← readi sb k .kernel 0 off direntSize
      if r.1 ≠ some direntSize then stop .dirlookupRead
      else if direntInum r.2 = 0 then dirlookupFrom k name fuel (off + direntSize)
      else if namecmp name (direntName r.2) = 0 then do
        let ip ← iget (direntInum r.2)
        pure (some (ip, off))
      else dirlookupFrom k name fuel (off + direntSize)
    else pure none

/-- `dirlookup`: look for a directory entry in a directory. -/
def dirlookup (k : Nat) (name : Nat → UInt8) : FM (Option (Nat × Nat)) := do
  let dp ← getInode k
  if dp.type ≠ T_DIR then stop .dirlookupNotDir
  else dirlookupFrom sb k name (dp.size + 1) 0

/-- The loop of `dirlink`: the offset of the first empty entry. -/
def dirlinkFrom (k : Nat) : Nat → Nat → FM Nat
  | 0, off => pure off
  | fuel + 1, off => do
    let dp ← getInode k
    if off < dp.size then do
      let r ← readi sb k .kernel 0 off direntSize
      if r.1 ≠ some direntSize then stop .dirlinkRead
      else if direntInum r.2 = 0 then pure off
      else dirlinkFrom k fuel (off + direntSize)
    else pure off

/-- `dirlink`: write a new directory entry; `true` on success. -/
def dirlink (k : Nat) (name : Nat → UInt8) (inum : Nat) : FM Bool := do
  let r ← dirlookup sb k name
  match r with
  | some (ip, _) => do
    iput sb ip
    pure false
  | none => do
    let dp ← getInode k
    let off ← dirlinkFrom sb k (dp.size + 1) 0
    let de := dirent inum (strncpy name)
    let w ← writei sb k (.kernel fun i => de.getD i 0) 0 off direntSize
    pure (decide (w = some direntSize))

/-- The store of `sys_unlink` that removes the entry at `off`. -/
def clearEntry (k off : Nat) : FM Unit := do
  let w ← writei sb k (.kernel fun _ => 0) 0 off direntSize
  if w ≠ some direntSize then stop .unlinkWritei else pure ()

/-! ## Paths

A path is the list of its bytes up to the final zero. -/

/-- The character `/`. -/
def slash : UInt8 := 47

/-- A copy of some bytes to the start of a buffer. -/
def memmove (name : Nat → UInt8) (s : List UInt8) (i : Nat) : UInt8 :=
  if i < s.length then s.getD i 0 else name i

/-- `skipelem`: the path after its first element, and the buffer `name` with that element. -/
def skipelem (path : List UInt8) (name : Nat → UInt8) : Option (List UInt8 × (Nat → UInt8)) :=
  let path := path.dropWhile (· = slash)
  if path.headD 0 = 0 then none
  else
    let s := path.takeWhile fun c => c ≠ slash ∧ c ≠ 0
    let rest := path.dropWhile fun c => c ≠ slash ∧ c ≠ 0
    let name :=
      if DIRSIZ ≤ s.length then memmove name (s.take DIRSIZ)
      else Function.update (memmove name s) s.length 0
    some (rest.dropWhile (· = slash), name)

/-- The loop of `namex`, and what follows it. Each turn takes a byte of the path at least. -/
def namexFrom (parent : Bool) : Nat → List UInt8 → (Nat → UInt8) → Nat → FM (Option Nat × (Nat → UInt8))
  | 0, _, name, _ => pure (none, name)
  | fuel + 1, path, name, ip =>
    match skipelem path name with
    | none =>
      if parent then do
        iput sb ip
        pure (none, name)
      else pure (some ip, name)
    | some (path, name) => do
      ilock sb ip
      let dp ← getInode ip
      if dp.type ≠ T_DIR then do
        iunlockput sb ip
        pure (none, name)
      else if parent ∧ path.headD 0 = 0 then do
        iunlock ip
        pure (some ip, name)
      else do
        let next ← dirlookup sb ip name
        match next with
        | none => do
          iunlockput sb ip
          pure (none, name)
        | some (next, _) => do
          iunlockput sb ip
          namexFrom parent fuel path name next

/-- `namex`, for a process whose current directory is the table entry `cwd`: the inode of a path, or
of its parent, and the buffer `name`. -/
def namex (cwd : Nat) (path : List UInt8) (parent : Bool) (name : Nat → UInt8) :
    FM (Option Nat × (Nat → UInt8)) := do
  let ip ← (if path.headD 0 = slash then iget ROOTINO
    else do
      idup cwd
      pure cwd)
  namexFrom sb parent (path.length + 1) path name ip

/-- `namei`. Its buffer `name` is not initialised. -/
def namei (cwd : Nat) (path : List UInt8) (name : Nat → UInt8) : FM (Option Nat) := do
  let r ← namex sb cwd path false name
  pure r.1

/-- `nameiparent`. -/
def nameiparent (cwd : Nat) (path : List UInt8) (name : Nat → UInt8) :
    FM (Option Nat × (Nat → UInt8)) :=
  namex sb cwd path true name

end Xv6.Fs
