import Xv6.Param
import Xv6.Vm.Code

/-!
# Processes, pipes and `exec`

The parts of `proc.c`, `file.c`, `pipe.c`, `exec.c`, `sysproc.c` and `sysfile.c` that allocate, map
and free memory, as programs on the memory, the process table, the file table and the pipes (`Vm`).
A null pointer in a process is `0`; `-1` as a result is `none`.

Left out is what does not touch memory: locks, the scheduler (a process that can run is `runnable`),
inodes (`iput` in `fileclose` and `kexit`), and a process's name. A file that `exec` loads is the
list of its bytes, shorter than `2 ^ 32`.
-/

namespace Xv6

open Seq

/-- `enum procstate`, with one state for `SLEEPING`, `RUNNABLE` and `RUNNING`. -/
inductive ProcState where
  | unused
  | used
  | runnable
  | zombie
  deriving DecidableEq

/-- `struct proc`. -/
structure Proc where
  state : ProcState
  killed : Bool
  xstate : Int
  pid : Nat
  parent : Option Nat
  sz : Nat
  pagetable : Nat
  trapframe : Nat
  ofile : Nat → Option Nat

/-- The type of an open file. -/
inductive FdType where
  | none
  | pipe
  | inode
  | device
  deriving DecidableEq

/-- `struct file`. -/
structure File where
  type : FdType
  ref : Nat
  readable : Bool
  writable : Bool
  pipe : Nat
  ip : Nat
  off : Nat
  major : Nat

/-- An entry of the file table at the start. -/
def File.unused : File := ⟨.none, 0, false, false, 0, 0, 0, 0⟩

/-! ## The file table

The functions of `file.c` and `sysfile.c` that this state and the one of `Xv6.Fs.Open` share: `file` is `ftable.file`
of a state, `ofile` the descriptors of the process that runs. -/

section

variable {S : Type} (file : S → Nat → File) (setFile : Nat → (File → File) → M S Panic Unit)

/-- The first `struct file` without references. -/
def freeFile (file : Nat → File) : Option Nat := (List.range NFILE).find? fun f => (file f).ref = 0

/-- The first descriptor that is not used. -/
def freeFd (ofile : Nat → Option Nat) : Option Nat := (List.range NOFILE).find? fun fd => ofile fd = none

/-- `filealloc`. -/
def fileallocOf : M S Panic (Option Nat) := do
  match ← M.gets fun s => freeFile (file s) with
  | none => pure none
  | some f => do
    setFile f fun fl => { fl with ref := 1 }
    pure (some f)

/-- `fdalloc`. -/
def fdallocOf (ofile : S → Nat → Option Nat) (setFd : Nat → Option Nat → M S Panic Unit) (f : Nat) :
    M S Panic (Option Nat) := do
  match ← M.gets fun s => freeFd (ofile s) with
  | none => pure none
  | some fd => do
    setFd fd (some f)
    pure (some fd)

/-- `fileclose`; `last` is what it does with the file when the last reference is gone. -/
def filecloseOf (last : File → M S Panic Unit) (f : Nat) : M S Panic Unit := do
  let ff ← M.gets fun s => file s f
  if ff.ref < 1 then M.stop .fileclose
  else if ff.ref - 1 > 0 then setFile f fun fl => { fl with ref := fl.ref - 1 }
  else do
    setFile f fun fl => { fl with ref := 0, type := .none }
    last ff

end

/-- `struct pipe`, the two flags. -/
structure Pipe where
  readopen : Bool
  writeopen : Bool

/-- The memory and the tables. -/
structure Vm where
  kmem : Kmem
  proc : Nat → Proc
  nextpid : Nat
  file : Nat → File
  /-- The pipe in a page. -/
  pipe : Nat → Pipe

/-- A program on the memory and the tables. -/
abbrev PM := M Vm Panic

/-- A program on the memory. -/
def onMem {α : Type} (m : KM α) : PM α := M.zoom Vm.kmem (fun k s => { s with kmem := k }) m

namespace Vm

/-- Process `p` is changed. -/
@[simps -fullyApplied kmem file pipe]
def setProc (s : Vm) (p : Nat) (f : Proc → Proc) : Vm :=
  { s with proc := Function.update s.proc p (f (s.proc p)) }

@[simp] theorem setProc_self (s : Vm) (p : Nat) (f : Proc → Proc) :
    (s.setProc p f).proc p = f (s.proc p) := Function.update_self ..

theorem setProc_ne (s : Vm) {p p' : Nat} (f : Proc → Proc) (h : p' ≠ p) :
    (s.setProc p f).proc p' = s.proc p' := Function.update_of_ne h _ _

/-- File `i` is changed. -/
def setFile (s : Vm) (i : Nat) (f : File → File) : Vm :=
  { s with file := Function.update s.file i (f (s.file i)) }

/-- The pipe in page `pi` is changed. -/
def setPipe (s : Vm) (pi : Nat) (f : Pipe → Pipe) : Vm :=
  { s with pipe := Function.update s.pipe pi (f (s.pipe pi)) }

end Vm

def getProc (p : Nat) : PM Proc := M.gets fun s => s.proc p

def setProc (p : Nat) (f : Proc → Proc) : PM Unit := M.modify fun s => s.setProc p f

def setFile (i : Nat) (f : File → File) : PM Unit := M.modify fun s => s.setFile i f

def setPipe (pi : Nat) (f : Pipe → Pipe) : PM Unit := M.modify fun s => s.setPipe pi f

section

variable [K : Layout]

/-! ## `proc.c` -/

/-- `proc_pagetable`, for a process with the trapframe `tf`. -/
def procPagetable (tf : Nat) : KM (Option Nat) := do
  match ← uvmcreate with
  | none => pure none
  | some pagetable => do
    if ← mappages pagetable TRAMPOLINE PGSIZE K.trampoline (PTE_R + PTE_X) then do
      if ← mappages pagetable TRAPFRAME PGSIZE tf (PTE_R + PTE_W) then pure (some pagetable)
      else do
        uvmunmap pagetable TRAMPOLINE 1 false
        uvmfree pagetable 0
        pure none
    else do
      uvmfree pagetable 0
      pure none

/-- `proc_freepagetable`. -/
def procFreepagetable (pagetable sz : Nat) : KM Unit := do
  uvmunmap pagetable TRAMPOLINE 1 false
  uvmunmap pagetable TRAPFRAME 1 false
  uvmfree pagetable sz

/-- `freeproc`. -/
def freeproc (p : Nat) : PM Unit := do
  let pr ← getProc p
  if pr.trapframe ≠ 0 then onMem (kfree pr.trapframe) else pure ()
  setProc p fun pr => { pr with trapframe := 0 }
  if pr.pagetable ≠ 0 then onMem (procFreepagetable pr.pagetable pr.sz) else pure ()
  setProc p fun pr => { pr with
    pagetable := 0, sz := 0, pid := 0, parent := none, killed := false, xstate := 0, state := .unused }

/-- `allocpid`. -/
def allocpid : PM Nat := do
  let pid ← M.gets Vm.nextpid
  M.modify fun s => { s with nextpid := s.nextpid + 1 }
  pure pid

/-- `allocproc`. -/
def allocproc : PM (Option Nat) := do
  match ← M.gets fun s => (List.range NPROC).find? fun p => (s.proc p).state = .unused with
  | none => pure none
  | some p => do
    let pid ← allocpid
    setProc p fun pr => { pr with pid := pid, state := .used }
    -- Allocate a trapframe page.
    match ← onMem kalloc with
    | none => do
      setProc p fun pr => { pr with trapframe := 0 }
      freeproc p
      pure none
    | some tf => do
      setProc p fun pr => { pr with trapframe := tf }
      -- An empty user page table.
      match ← onMem (procPagetable tf) with
      | none => do
        setProc p fun pr => { pr with pagetable := 0 }
        freeproc p
        pure none
      | some pagetable => do
        setProc p fun pr => { pr with pagetable := pagetable }
        pure (some p)

/-- `userinit`. -/
def userinit : PM Unit := do
  match ← allocproc with
  | none => M.stop .nullPointer
  | some p => setProc p fun pr => { pr with state := .runnable }

/-- `a + n` as a `uint64`, for an `int` `n`. -/
def addInt (a : Nat) (n : Int) : Nat := ((a + n) % U64).toNat

/-- `growproc`. -/
def growproc (p : Nat) (n : Int) : PM Bool := do
  let pr ← getProc p
  if n > 0 then do
    let sz ← onMem (uvmalloc pr.pagetable pr.sz (addInt pr.sz n) PTE_W)
    if sz = 0 then pure false
    else do
      setProc p fun pr => { pr with sz := sz }
      pure true
  else if n < 0 then do
    let sz ← onMem (uvmdealloc pr.pagetable pr.sz (addInt pr.sz n))
    setProc p fun pr => { pr with sz := sz }
    pure true
  else pure true

abbrev SBRK_EAGER : Int := 1
abbrev SBRK_LAZY : Int := 2

/-- `sys_sbrk`. -/
def sysSbrk (p : Nat) (n t : Int) : PM (Option Nat) := do
  let addr := (← getProc p).sz
  if t = SBRK_EAGER ∨ n < 0 then do
    if ← growproc p n then pure (some addr) else pure none
  else if addInt addr n < addr then pure none
  else do
    setProc p fun pr => { pr with sz := addInt pr.sz n }
    pure (some addr)

/-! ## `file.c` and `pipe.c` -/

/-- `filealloc`. -/
def filealloc : PM (Option Nat) := fileallocOf Vm.file setFile

/-- `filedup`. -/
def filedup (f : Nat) : PM Unit := do
  let fl ← M.gets fun s => s.file f
  if fl.ref < 1 then M.stop .filedup
  else setFile f fun fl => { fl with ref := fl.ref + 1 }

/-- `pipeclose`. -/
def pipeclose (pi : Nat) (writable : Bool) : PM Unit := do
  if writable then setPipe pi fun pp => { pp with writeopen := false }
  else setPipe pi fun pp => { pp with readopen := false }
  let pp ← M.gets fun s => s.pipe pi
  if pp.readopen = false ∧ pp.writeopen = false then onMem (kfree pi) else pure ()

/-- `fileclose`. -/
def fileclose : Nat → PM Unit :=
  filecloseOf Vm.file setFile fun ff => if ff.type = .pipe then pipeclose ff.pipe ff.writable else pure ()

/-- `pipealloc`. -/
def pipealloc : PM (Option (Nat × Nat)) := do
  match ← filealloc with
  | none => pure none
  | some f0 => do
    match ← filealloc with
    | none => do
      fileclose f0
      pure none
    | some f1 => do
      match ← onMem kalloc with
      | none => do
        fileclose f0
        fileclose f1
        pure none
      | some pi => do
        setPipe pi fun _ => { readopen := true, writeopen := true }
        setFile f0 fun fl => { fl with type := .pipe, readable := true, writable := false, pipe := pi }
        setFile f1 fun fl => { fl with type := .pipe, readable := false, writable := true, pipe := pi }
        pure (some (f0, f1))

/-- `p->ofile[fd] = f`. -/
def setFd (p fd : Nat) (f : Option Nat) : PM Unit :=
  setProc p fun pr => { pr with ofile := Function.update pr.ofile fd f }

/-- `fdalloc`. -/
def fdalloc (p : Nat) : Nat → PM (Option Nat) := fdallocOf (fun s => (s.proc p).ofile) (setFd p)

/-- `p->ofile[fd] = 0`. -/
def clearFd (p fd : Nat) : PM Unit := setFd p fd none

/-- `argfd`. -/
def argfd (p : Nat) (fd : Int) : PM (Option (Nat × Nat)) := do
  let pr ← getProc p
  if fd < 0 ∨ fd ≥ NOFILE then pure none
  else
    match pr.ofile fd.toNat with
    | none => pure none
    | some f => pure (some (fd.toNat, f))

/-- `sys_close`. -/
def sysClose (p : Nat) (fd : Int) : PM Bool := do
  match ← argfd p fd with
  | none => pure false
  | some (fd, f) => do
    clearFd p fd
    fileclose f
    pure true

/-- `sys_dup`. -/
def sysDup (p : Nat) (fd : Int) : PM (Option Nat) := do
  match ← argfd p fd with
  | none => pure none
  | some (_, f) => do
    match ← fdalloc p f with
    | none => pure none
    | some fd => do
      filedup f
      pure (some fd)

/-- The bytes of an `n`-byte integer. -/
def leBytes (n : Nat) (x : Int) : List UInt8 :=
  (List.range n).map fun i => UInt8.ofNat ((x % 256 ^ n).toNat / 256 ^ i)

/-- `copyout` for the current process `p`. -/
def copyoutProc (p dstva : Nat) (src : List UInt8) : PM Bool := do
  let pr ← getProc p
  onMem (copyout pr.sz pr.pagetable pr.pagetable dstva src)

/-- `copyin` for the current process `p`. -/
def copyinProc (p srcva len : Nat) : PM (Option (List UInt8)) := do
  let pr ← getProc p
  onMem (copyin pr.sz pr.pagetable pr.pagetable srcva len)

/-- The error exit of `sys_pipe`. -/
def pipeUndo (p rf wf : Nat) (fds : List Nat) : PM Bool := do
  fds.forM (clearFd p)
  fileclose rf
  fileclose wf
  pure false

/-- `sys_pipe`. -/
def sysPipe (p fdarray : Nat) : PM Bool := do
  match ← pipealloc with
  | none => pure false
  | some (rf, wf) => do
    match ← fdalloc p rf with
    | none => pipeUndo p rf wf []
    | some fd0 => do
      match ← fdalloc p wf with
      | none => pipeUndo p rf wf [fd0]
      | some fd1 => do
        if ← copyoutProc p fdarray (leBytes 4 fd0) then do
          if ← copyoutProc p ((fdarray + 4) % U64) (leBytes 4 fd1) then pure true
          else pipeUndo p rf wf [fd0, fd1]
        else pipeUndo p rf wf [fd0, fd1]

/-! ## `fork`, `exit`, `wait` and page faults -/

/-- The loop of `kfork` over the open files: `n` turns from `i`. -/
def dupFiles (p np : Nat) : Nat → Nat → PM Unit
  | 0, _ => pure ()
  | n + 1, i => do
    match (← getProc p).ofile i with
    | none => pure ()
    | some f => do
      filedup f
      setProc np fun pr => { pr with ofile := Function.update pr.ofile i (some f) }
    dupFiles p np n (i + 1)

/-- `*(np->trapframe) = *(p->trapframe)`: the 36 words of `struct trapframe`. -/
def copyTrapframe (src dst : Nat) : KM Unit :=
  M.modify fun k => k.setPage dst fun i => if i < 36 then k.mem src i else k.mem dst i

/-- `kfork`. -/
def kfork (p : Nat) : PM (Option Nat) := do
  match ← allocproc with
  | none => pure none
  | some np => do
    let pr ← getProc p
    let npr ← getProc np
    if ← onMem (uvmcopy pr.pagetable npr.pagetable pr.sz) then do
      setProc np fun npr => { npr with sz := pr.sz }
      onMem (copyTrapframe pr.trapframe npr.trapframe)
      onMem (store npr.trapframe 14 0)  -- fork returns 0 in the child
      dupFiles p np NOFILE 0
      let pid := (← getProc np).pid
      setProc np fun npr => { npr with parent := some p }
      setProc np fun npr => { npr with state := .runnable }
      pure (some pid)
    else do
      freeproc np
      pure none

/-- The process `init`. -/
abbrev initproc : Nat := 0

/-- `reparent`. -/
def reparent (p : Nat) : PM Unit := M.modify fun s => { s with
  proc := fun pp => if (s.proc pp).parent = some p then { s.proc pp with parent := some initproc }
    else s.proc pp }

/-- The loop of `kexit` over the open files: `n` turns from `fd`. -/
def closeFiles (p : Nat) : Nat → Nat → PM Unit
  | 0, _ => pure ()
  | n + 1, fd => do
    match (← getProc p).ofile fd with
    | none => pure ()
    | some f => do
      fileclose f
      clearFd p fd
    closeFiles p n (fd + 1)

/-- `kexit`. -/
def kexit (p : Nat) (status : Int) : PM Unit := do
  if p = initproc then M.stop .initExiting
  else do
    closeFiles p NOFILE 0
    reparent p
    setProc p fun pr => { pr with xstate := status, state := .zombie }

/-- What `kwait` ends with; `sleep` when there is no child to collect yet. -/
inductive WaitRes where
  | pid (n : Nat)
  | error
  | sleep

/-- `addr != 0 && copyout(...) < 0` in `kwait`, negated. -/
def copyStatus (p addr : Nat) (xstate : Int) : PM Bool :=
  if addr ≠ 0 then copyoutProc p addr (leBytes 4 xstate) else pure true

/-- One scan of `kwait`. -/
def kwait (p addr : Nat) : PM WaitRes := do
  match ← M.gets fun s => (List.range NPROC).find? fun pp =>
      (s.proc pp).parent = some p ∧ (s.proc pp).state = .zombie with
  | some pp => do
    let child ← getProc pp
    if ← copyStatus p addr child.xstate then do
      freeproc pp
      pure (.pid child.pid)
    else pure .error
  | none => do
    let havekids ← M.gets fun s => (List.range NPROC).any fun pp => (s.proc pp).parent = some p
    if havekids = false ∨ (← getProc p).killed then pure .error else pure .sleep

/-- `kkill`. -/
def kkill (pid : Nat) : PM Bool := do
  match ← M.gets fun s => (List.range NPROC).find? fun p => (s.proc p).pid = pid with
  | none => pure false
  | some p => do
    setProc p fun pr => { pr with killed := true }
    pure true

/-- A page fault in `usertrap`: a process whose fault `vmfault` cannot serve is killed. -/
def usertrapFault (p va : Nat) : PM Unit := do
  let pr ← getProc p
  match ← onMem (vmfault pr.sz pr.pagetable pr.pagetable va) with
  | none => setProc p fun pr => { pr with killed := true }
  | some _ => pure ()
  if (← getProc p).killed then kexit p (-1) else pure ()

/-! ## `exec` -/

/-- `readi` of a file with the bytes `ip`. -/
def readFile (ip : List UInt8) (off n : Nat) : List UInt8 :=
  if off > ip.length ∨ (off + n) % 2 ^ 32 < off then [] else (ip.drop off).take n

/-- The `n`-byte little-endian field at `off`. -/
def field (bs : List UInt8) (off n : Nat) : Nat :=
  ((bs.drop off).take n).foldr (fun b x => b.toNat + 256 * x) 0

/-- `flags2perm`. -/
def flags2perm (flags : Nat) : Nat :=
  (if flags % 2 = 1 then PTE_X else 0) + (if flags / 2 % 2 = 1 then PTE_W else 0)

/-- The loop of `loadseg`: `n` turns from `i`. -/
def loadLoop (pagetable va : Nat) (ip : List UInt8) (offset sz : Nat) : Nat → Nat → KM Bool
  | 0, _ => pure true
  | n + 1, i => do
    match ← walkaddr pagetable ((va + i) % U64) with
    | none => M.stop .loadsegAddressShouldExist
    | some pa => do
      let m := if sz - i < PGSIZE then sz - i else PGSIZE
      let bs := readFile ip ((offset + i) % 2 ^ 32) m
      M.modify fun k => k.setBytes pa 0 bs
      if bs.length ≠ m then pure false
      else loadLoop pagetable va ip offset sz n (i + PGSIZE)

/-- `loadseg`. -/
def loadseg (pagetable va : Nat) (ip : List UInt8) (offset sz : Nat) : KM Bool :=
  loadLoop pagetable va ip offset sz ((sz + (PGSIZE - 1)) / PGSIZE) 0

abbrev ELF_MAGIC : Nat := 0x464C457F
abbrev ELF_PROG_LOAD : Nat := 1

/-- The loop of `kexec` over the program headers, `n` turns from offset `off`: whether it got
through, and `sz` at its end. -/
def loadSegs (pagetable : Nat) (ip : List UInt8) : Nat → Nat → Nat → KM (Bool × Nat)
  | 0, _, sz => pure (true, sz)
  | n + 1, off, sz => do
    let ph := readFile ip off 56
    let flags := field ph 4 4
    let vaddr := field ph 16 8
    let filesz := field ph 32 8
    let memsz := field ph 40 8
    if ph.length ≠ 56 then pure (false, sz)
    else if field ph 0 4 ≠ ELF_PROG_LOAD then loadSegs pagetable ip n ((off + 56) % 2 ^ 32) sz
    else if memsz < filesz then pure (false, sz)
    else if (vaddr + memsz) % U64 < vaddr then pure (false, sz)
    else if vaddr % PGSIZE ≠ 0 then pure (false, sz)
    else do
      let sz1 ← uvmalloc pagetable sz ((vaddr + memsz) % U64) (flags2perm flags)
      if sz1 = 0 then pure (false, sz)
      else if ← loadseg pagetable vaddr ip (field ph 8 8 % 2 ^ 32) (filesz % 2 ^ 32) then
        loadSegs pagetable ip n ((off + 56) % 2 ^ 32) sz1
      else pure (false, sz1)

/-- `a - n` as a `uint64`. -/
def subU64 (a n : Nat) : Nat := (a + U64 - n) % U64

/-- The loop of `kexec` over the argument strings, and the copy of `ustack`; `psz` and `ppt` are
`p->sz` and `p->pagetable`, `ustack` the addresses so far. It ends with `sp`, or `none` for `bad`. -/
def pushArgs (psz ppt pagetable stackbase : Nat) : List (List UInt8) → Nat → List Nat → KM (Option Nat)
  | [], sp, ustack => do
    let sp := subU64 sp ((ustack.length + 1) * 8)
    let sp := sp - sp % 16
    if sp < stackbase then pure none
    else if ← copyout psz ppt pagetable sp ((ustack ++ [0]).flatMap fun a : Nat => leBytes 8 a) then
      pure (some sp)
    else pure none
  | arg :: argv, sp, ustack => do
    if ustack.length ≥ MAXARG then pure none
    else do
      let sp := subU64 sp (arg.length + 1)
      let sp := sp - sp % 16  -- riscv sp must be 16-byte aligned
      if sp < stackbase then pure none
      else if ← copyout psz ppt pagetable sp (arg ++ [0]) then
        pushArgs psz ppt pagetable stackbase argv sp (ustack ++ [sp])
      else pure none

/-- `kexec` from the stack on, in the new page table: `sz` at its end, and `sp` if it got through. -/
def execStack (psz ppt pagetable sz : Nat) (argv : List (List UInt8)) : KM (Option Nat × Nat) := do
  let sz := pgRoundUp sz
  let sz1 ← uvmalloc pagetable sz ((sz + (USERSTACK + 1) * PGSIZE) % U64) PTE_W
  if sz1 = 0 then pure (none, sz)
  else do
    uvmclear pagetable (sz1 - (USERSTACK + 1) * PGSIZE)
    let sp ← pushArgs psz ppt pagetable (sz1 - USERSTACK * PGSIZE) argv sz1 []
    pure (sp, sz1)

/-- The part of `kexec` that fills a new page table: `sp` if it got through, and `sz`. -/
def execLoad (psz ppt pagetable : Nat) (ip elf : List UInt8) (argv : List (List UInt8)) :
    KM (Option Nat × Nat) := do
  let (ok, sz) ← loadSegs pagetable ip (field elf 56 2) (field elf 32 8 % 2 ^ 32) 0
  if ok then execStack psz ppt pagetable sz argv else pure (none, sz)

/-- `kexec`, for the file `ip` that `namei(path)` finds. -/
def kexec (p : Nat) (ip : Option (List UInt8)) (argv : List (List UInt8)) : PM (Option Nat) := do
  match ip with
  | none => pure none
  | some ip => do
    let elf := readFile ip 0 64
    let pr ← getProc p
    if elf.length ≠ 64 then pure none
    else if field elf 0 4 ≠ ELF_MAGIC then pure none
    else do
      match ← onMem (procPagetable pr.trapframe) with
      | none => pure none
      | some pagetable => do
        match ← onMem (execLoad pr.sz pr.pagetable pagetable ip elf argv) with
        | (none, sz) => do
          onMem (procFreepagetable pagetable sz)
          pure none
        | (some sp, sz) => do
          onMem (store pr.trapframe 15 sp)
          -- Commit to the user image.
          setProc p fun pr => { pr with pagetable := pagetable, sz := sz }
          onMem (store pr.trapframe 3 (field elf 24 8))
          onMem (store pr.trapframe 6 sp)
          onMem (procFreepagetable pr.pagetable pr.sz)
          pure (some argv.length)

/-- `fetchaddr`. -/
def fetchaddr (p addr : Nat) : PM (Option Nat) := do
  let pr ← getProc p
  if addr ≥ pr.sz ∨ (addr + 8) % U64 > pr.sz then pure none
  else return (← copyinProc p addr 8).map fun bs => field bs 0 8

/-- `fetchstr`. -/
def fetchstr (p addr max : Nat) : PM (Option (List UInt8)) := do
  let pr ← getProc p
  onMem (copyinstr pr.pagetable addr max)

/-- The loop of `sys_exec` over the arguments, `n` turns from `i`. It ends with the strings, or
`none` for `bad`, and with the pages that hold them; `pages` and `argv` are those so far. -/
def fetchArgs (p uargv : Nat) :
    Nat → Nat → List Nat → List (List UInt8) → PM (Option (List (List UInt8)) × List Nat)
  | 0, _, pages, _ => pure (none, pages)
  | n + 1, i, pages, argv => do
    match ← fetchaddr p ((uargv + 8 * i) % U64) with
    | none => pure (none, pages)
    | some uarg => do
      if uarg = 0 then pure (some argv, pages)
      else do
        match ← onMem kalloc with
        | none => pure (none, pages)
        | some page => do
          match ← fetchstr p uarg PGSIZE with
          | none => pure (none, pages ++ [page])
          | some arg => do
            onMem (M.modify fun k => k.setBytes page 0 (arg ++ [0]))
            fetchArgs p uargv n (i + 1) (pages ++ [page]) (argv ++ [arg])

/-- `sys_exec`, with the files that the paths name. -/
def sysExec (p path uargv : Nat) (files : List UInt8 → Option (List UInt8)) : PM (Option Nat) := do
  match ← fetchstr p path MAXPATH with
  | none => pure none
  | some name => do
    match ← fetchArgs p uargv MAXARG 0 [] [] with
    | (none, pages) => do
      pages.forM fun page => onMem (kfree page)
      pure none
    | (some argv, pages) => do
      let ret ← kexec p (files name) argv
      pages.forM fun page => onMem (kfree page)
      pure ret

end

end Xv6
