import Xv6.Fs.Image

/-!
# System calls on the name space

`sys_link`, `sys_unlink`, `create`, `sys_mkdir`, `sys_mknod` and `sys_chdir` of `kernel/sysfile.c`, for
a process whose current directory is the entry `cwd` of the inode table.

* A path argument is what `argstr` returns: `none` if the string cannot be read or is too long.
* The buffer `name` of a call is not initialised; its first contents are an argument.
* There is one device, so `dp->dev != ip->dev` is never true.
-/

namespace Xv6.Fs

open Seq Seq.M

variable (sb : Superblock)

/-- A `short` with the bits of `n`. -/
def short (n : Nat) : Int := if n < 2 ^ 15 then n else (n : Int) - 2 ^ 16

/-- `nlink + 1` and `nlink - 1` as `short`s. -/
def incLink (n : Nat) : Nat := (n + 1) % 2 ^ 16
def decLink (n : Nat) : Nat := (n + (2 ^ 16 - 1)) % 2 ^ 16

/-- `ip->nlink++`. -/
def Inode.addLink (ip : Inode) : Inode := { ip with nlink := incLink ip.nlink }

/-- `ip->nlink--`. -/
def Inode.dropLink (ip : Inode) : Inode := { ip with nlink := decLink ip.nlink }

/-- A string in memory. -/
def cstr (l : List UInt8) : Nat → UInt8 := fun i => l.getD i 0

/-! ## `sys_link` -/

/-- The exit `bad` of `sys_link`. -/
def linkBad (ip : Nat) : FM Int := do
  ilock sb ip
  let i ← getInode ip
  setInode ip i.dropLink
  iupdate sb ip
  iunlockput sb ip
  endOp
  pure (-1)

/-- The rest of `sys_link`, once the link count is raised. -/
def linkTo (cwd ip : Nat) (new : List UInt8) (name : Nat → UInt8) : FM Int := do
  let r ← nameiparent sb cwd new name
  match r with
  | (none, _) => linkBad sb ip
  | (some dp, name) => do
    ilock sb dp
    let i ← getInode ip
    let ok ← dirlink sb dp name i.inum
    if ok then do
      iunlockput sb dp
      iput sb ip
      endOp
      pure 0
    else do
      iunlockput sb dp
      linkBad sb ip

/-- `sys_link`: create the path `new` as a link to the same inode as `old`. -/
def sysLink (cwd : Nat) (old new : Option (List UInt8)) (name : Nat → UInt8) : FM Int :=
  match old, new with
  | some old, some new => do
    beginOp
    let r ← namei sb cwd old name
    match r with
    | none => do
      endOp
      pure (-1)
    | some ip => do
      ilock sb ip
      let i ← getInode ip
      if i.type = T_DIR then do
        iunlockput sb ip
        endOp
        pure (-1)
      else do
        setInode ip i.addLink
        iupdate sb ip
        iunlock ip
        linkTo sb cwd ip new name
  | _, _ => pure (-1)

/-! ## `sys_unlink` -/

/-- The loop of `isdirempty`. -/
def isdiremptyFrom (k : Nat) : Nat → Nat → FM Bool
  | 0, _ => pure true
  | fuel + 1, off => do
    let dp ← getInode k
    if off < dp.size then do
      let r ← readi sb k .kernel 0 off direntSize
      if r.1 ≠ some direntSize then stop .isdiremptyReadi
      else if direntInum r.2 ≠ 0 then pure false
      else isdiremptyFrom k fuel (off + direntSize)
    else pure true

/-- `isdirempty`: is the directory empty except for `.` and `..`? -/
def isdirempty (k : Nat) : FM Bool := do
  let dp ← getInode k
  isdiremptyFrom sb k (dp.size + 1) (2 * direntSize)

/-- The exit `bad` of `sys_unlink`. -/
def unlinkBad (dp : Nat) : FM Int := do
  iunlockput sb dp
  endOp
  pure (-1)

/-- The rest of `sys_unlink`, once the entry at `off` may be removed. -/
def unlinkEntry (dp ip off : Nat) : FM Int := do
  clearEntry sb dp off
  let i ← getInode ip
  (if i.type = T_DIR then do
      let d ← getInode dp
      setInode dp d.dropLink
      iupdate sb dp
    else pure ())
  iunlockput sb dp
  let i ← getInode ip
  setInode ip i.dropLink
  iupdate sb ip
  iunlockput sb ip
  endOp
  pure 0

/-- The part of `sys_unlink` with the directory locked. -/
def unlinkIn (dp : Nat) (name : Nat → UInt8) : FM Int :=
  if namecmp name (cstr dot) = 0 ∨ namecmp name (cstr dotdot) = 0 then unlinkBad sb dp
  else do
    let r ← dirlookup sb dp name
    match r with
    | none => unlinkBad sb dp
    | some (ip, off) => do
      ilock sb ip
      let i ← getInode ip
      if short i.nlink < 1 then stop .unlinkNlink
      else do
        let empty ← (if i.type = T_DIR then isdirempty sb ip else pure true)
        if !empty then do
          iunlockput sb ip
          unlinkBad sb dp
        else unlinkEntry sb dp ip off

/-- `sys_unlink`. -/
def sysUnlink (cwd : Nat) (path : Option (List UInt8)) (name : Nat → UInt8) : FM Int :=
  match path with
  | none => pure (-1)
  | some path => do
    beginOp
    let r ← nameiparent sb cwd path name
    match r with
    | (none, _) => do
      endOp
      pure (-1)
    | (some dp, name) => do
      ilock sb dp
      unlinkIn sb dp name

/-! ## `create` -/

/-- The exit `fail` of `create`. -/
def createFail (dp ip : Nat) : FM (Option Nat) := do
  let i ← getInode ip
  setInode ip { i with nlink := 0 }
  iupdate sb ip
  iunlockput sb ip
  iunlockput sb dp
  pure none

/-- The entries `.` and `..` of a new directory. -/
def createDots (dp ip : Nat) : FM Bool := do
  let i ← getInode ip
  let ok ← dirlink sb ip (cstr dot) i.inum
  if ok then do
    let d ← getInode dp
    dirlink sb ip (cstr dotdot) d.inum
  else pure false

/-- The entry for the new inode, and for a new directory the link of its `..`. -/
def createEntry (dp ip : Nat) (name : Nat → UInt8) (type : Nat) : FM (Option Nat) := do
  let i ← getInode ip
  let ok ← dirlink sb dp name i.inum
  if ok then do
    (if type = T_DIR then do
        let d ← getInode dp
        setInode dp d.addLink
        iupdate sb dp
      else pure ())
    iunlockput sb dp
    pure (some ip)
  else createFail sb dp ip

/-- The part of `create` for a name that is not in the directory, with the directory locked. -/
def createIn (dp : Nat) (name : Nat → UInt8) (type major minor : Nat) : FM (Option Nat) := do
  let r ← ialloc sb type
  match r with
  | none => do
    iunlockput sb dp
    pure none
  | some ip => do
    ilock sb ip
    let i ← getInode ip
    setInode ip { i with major := major, minor := minor, nlink := 1 }
    iupdate sb ip
    let ok ← (if type = T_DIR then createDots sb dp ip else pure true)
    if ok then createEntry sb dp ip name type
    else createFail sb dp ip

/-- `create`: the inode of a path, locked; it is made if there is none. -/
def create (cwd : Nat) (path : List UInt8) (type major minor : Nat) (name : Nat → UInt8) :
    FM (Option Nat) := do
  let r ← nameiparent sb cwd path name
  match r with
  | (none, _) => pure none
  | (some dp, name) => do
    ilock sb dp
    let r ← dirlookup sb dp name
    match r with
    | some (ip, _) => do
      iunlockput sb dp
      ilock sb ip
      let i ← getInode ip
      if type = T_FILE ∧ (i.type = T_FILE ∨ i.type = T_DEVICE) then pure (some ip)
      else do
        iunlockput sb ip
        pure none
    | none => createIn sb dp name type major minor

/-- What `sys_mkdir` and `sys_mknod` do between `begin_op` and `end_op`. -/
def createNode (cwd : Nat) (path : Option (List UInt8)) (type major minor : Nat) (name : Nat → UInt8) :
    FM Int := do
  beginOp
  match path with
  | none => do
    endOp
    pure (-1)
  | some path => do
    let r ← create sb cwd path type major minor name
    match r with
    | none => do
      endOp
      pure (-1)
    | some ip => do
      iunlockput sb ip
      endOp
      pure 0

/-- `sys_mkdir`. -/
def sysMkdir (cwd : Nat) (path : Option (List UInt8)) (name : Nat → UInt8) : FM Int :=
  createNode sb cwd path T_DIR 0 0 name

/-- `sys_mknod`. `create` takes its last arguments as `short`s. -/
def sysMknod (cwd : Nat) (path : Option (List UInt8)) (major minor : Int) (name : Nat → UInt8) : FM Int :=
  createNode sb cwd path T_DEVICE (major % 2 ^ 16).toNat (minor % 2 ^ 16).toNat name

/-! ## `sys_chdir` -/

/-- `sys_chdir`: the result, and the current directory after it. -/
def sysChdir (cwd : Nat) (path : Option (List UInt8)) (name : Nat → UInt8) : FM (Int × Nat) := do
  beginOp
  match path with
  | none => do
    endOp
    pure (-1, cwd)
  | some path => do
    let r ← namei sb cwd path name
    match r with
    | none => do
      endOp
      pure (-1, cwd)
    | some ip => do
      ilock sb ip
      let i ← getInode ip
      if i.type ≠ T_DIR then do
        iunlockput sb ip
        endOp
        pure (-1, cwd)
      else do
        iunlock ip
        iput sb cwd
        endOp
        pure (0, ip)

end Xv6.Fs
