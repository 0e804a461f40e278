import Xv6.Conc.Play
import Xv6.Kern.Machine

/-!
# The code of `proc.c` and `pipe.c`

The functions of `kernel/proc.c` that change the process table, and those of `kernel/pipe.c`, as
programs of actions. The user memory is not here: the success of an allocation or of a `copyout` is
an argument, and the bytes that `copyin` reads are a function of their index, `none` where `copyin`
fails. Nor are a process's files and its name.

A loop that sleeps runs at most `fuel` times and then stands still. A caller may pick any `fuel`, so
that no finite run is lost.

* `Call`: what a process in user mode calls, or what a trap calls for it.
* `sys`: all processes with all their calls, in every interleaving; `sysIf` has only the runs in
  which each action meets a condition.
-/

namespace Xv6.Kern

open Conc

namespace Code

open Prog (call)

def acquire (l : Lk) : Prog Act Unit := call (.acquire l)

def release (l : Lk) : Prog Act Unit := call (.release l)

/-! ## `sleep`, `wakeup` and the scheduler's calls -/

/-- `sched`. -/
def sched (p : Nat) : Prog Act Unit := do
  call (.schedOut p)
  call (.schedIn p)

/-- `yield`. -/
def yield : Prog Act Unit := do
  let p ← call .myproc
  acquire (.proc p)
  call (.setRunnable p)
  sched p
  release (.proc p)

/-- `forkret`, from the choice of the scheduler on. -/
def forkret (p : Nat) : Prog Act Unit := do
  call (.schedIn p)
  release (.proc p)  -- still holding p->lock from scheduler

/-- `sleep`. -/
def sleep (chan : Chan) (lk : Lk) : Prog Act Unit := do
  let p ← call .myproc
  acquire (.proc p)
  release lk
  call (.setSleeping p chan)
  sched p
  call (.clearChan p)
  release (.proc p)
  acquire lk
  call (.slept p lk)

/-- One turn of the loop of `wakeup`. -/
def wakeOne (p : Nat) (chan : Chan) (q : Nat) : Prog Act Unit :=
  if q ≠ p then do
    acquire (.proc q)
    call (.wake q chan)
    release (.proc q)
  else pure ()

/-- `wakeup`. -/
def wakeup (chan : Chan) : Prog Act Unit := do
  let p ← call .myproc
  call (.waking p chan)
  Prog.each (List.range NPROC) (wakeOne p chan)
  call (.woke chan)

/-! ## `killed` and `kkill` -/

/-- `killed`. -/
def killed (p : Nat) : Prog Act Bool := do
  acquire (.proc p)
  let k ← call (.getKilled p)
  release (.proc p)
  pure k

/-- `setkilled`. -/
def setkilled : Prog Act Unit := do
  let p ← call .myproc
  acquire (.proc p)
  call (.setKilled p)
  release (.proc p)

/-- The loop of `kkill`. -/
def killLoop (pid : BitVec 32) : List Nat → Prog Act Int
  | [] => pure (-1)
  | q :: l => do
    acquire (.proc q)
    let found ← call (.kill q pid)
    release (.proc q)
    if found then pure 0 else killLoop pid l

/-- `kkill`. -/
def kkill (pid : BitVec 32) : Prog Act Int := killLoop pid (List.range NPROC)

/-! ## `kfork`, `kexit` and `kwait` -/

/-- `allocproc` in process `p`; the process is returned with its lock held. `trapframe` and
`pagetable` tell if the allocations succeed. -/
def allocproc (p : Nat) (trapframe pagetable : Bool) : List Nat → Prog Act (Option Nat)
  | [] => pure none
  | q :: l => do
    acquire (.proc q)
    let found ← call (.alloc q p)
    if found then
      if trapframe && pagetable then do
        call (.setContext q)
        pure (some q)
      else do
        call (.freeproc q none)
        release (.proc q)
        pure none
    else do
      release (.proc q)
      allocproc p trapframe pagetable l

/-- `kfork`; `copy` tells if `uvmcopy` succeeds. -/
def kfork (trapframe pagetable copy : Bool) : Prog Act Unit := do
  let p ← call .myproc
  match ← allocproc p trapframe pagetable (List.range NPROC) with
  | none => pure ()
  | some np =>
    if copy then do
      release (.proc np)
      acquire .wait
      call (.setParent np p)
      release .wait
      acquire (.proc np)
      call (.setRunnable np)
      release (.proc np)
    else do
      call (.freeproc np none)
      release (.proc np)

/-- One turn of the loop of `reparent`. -/
def reparentOne (p q : Nat) : Prog Act Unit := do
  let child ← call (.reparent q p)
  if child then wakeup (.proc initproc) else pure ()

/-- `reparent`. -/
def reparent (p : Nat) : Prog Act Unit := Prog.each (List.range NPROC) (reparentOne p)

/-- The channel `p`, for a pointer to a process. -/
def chanOf : Option Nat → Chan
  | some p => .proc p
  | none => .null

/-- `kexit`, after the files are closed. -/
def kexit (status : Int) : Prog Act Unit := do
  let p ← call .myproc
  if p = initproc then call (.panic .initExiting)
  else do
    acquire .wait
    reparent p  -- give any children to init
    let parent ← call (.getParent p)
    wakeup (chanOf parent)  -- parent might be sleeping in wait()
    acquire (.proc p)
    call (.setZombie p status)
    release .wait
    call (.schedExit p)

/-- The scan of `kwait` through the table: if there are children, or what `kwait` returns after it
has released its locks (`none` is `-1`). `copy` tells if the `copyout` succeeds. -/
def waitScan (p addr : Nat) (copy : Bool) : List Nat → Bool →
    Prog Act (Bool ⊕ Option (BitVec 32))
  | [], havekids => pure (.inl havekids)
  | q :: l, havekids => do
    let parent ← call (.getParent q)
    if parent = some p then do
      acquire (.proc q)  -- make sure the child isn't still in exit() or swtch()
      match ← call (.zombie q) with
      | some (pid, xstate) =>
        if addr ≠ 0 ∧ copy = false then do
          release (.proc q)
          release .wait
          pure (.inr none)
        else do
          call (.freeproc q (some (p, pid, if addr = 0 then none else some xstate)))
          release (.proc q)
          release .wait
          pure (.inr (some pid))
      | none => do
        release (.proc q)
        waitScan p addr copy l true
    else waitScan p addr copy l havekids

/-- `!havekids || killed(p)`. -/
def waitStop (p : Nat) (havekids : Bool) : Prog Act Bool :=
  if havekids then killed p else pure true

/-- The loop of `kwait`. -/
def waitLoop (p addr : Nat) (copy : Bool) : Nat → Prog Act (Option (BitVec 32))
  | 0 => do
    call .spin
    pure none
  | fuel + 1 => do
    match ← waitScan p addr copy (List.range NPROC) false with
    | .inr r => pure r
    | .inl havekids =>
      if ← waitStop p havekids then do
        release .wait
        pure none
      else do
        sleep (.proc p) .wait
        waitLoop p addr copy fuel

/-- `kwait`. -/
def kwait (addr : Nat) (copy : Bool) (fuel : Nat) : Prog Act (Option (BitVec 32)) := do
  let p ← call .myproc
  acquire .wait
  waitLoop p addr copy fuel

/-! ## `pipe.c` -/

/-- `pipeclose`. That it frees the page when both ends are closed is not here. -/
def pipeclose (pi : Nat) (writable : Bool) : Prog Act Unit := do
  acquire (.pipe pi)
  call (.setClosed pi writable)
  wakeup (if writable then .nread pi else .nwrite pi)
  release (.pipe pi)

/-- `pi->readopen == 0 || killed(pr)`. -/
def writeStop (pi p : Nat) : Prog Act Bool := do
  if ← call (.isOpen pi false) then killed p else pure true

/-- The loop of `pipewrite`: `i`, or `none` if it has released the lock to return `-1`. -/
def writeLoop (pi p : Nat) (src : Nat → Option UInt8) (n : Int) :
    Nat → Nat → Prog Act (Option Nat)
  | 0, _ => do
    call .spin
    pure none
  | fuel + 1, i =>
    if (i : Int) < n then do
      if ← writeStop pi p then do
        release (.pipe pi)
        pure none
      else if ← call (.isFull pi) then do
        wakeup (.nread pi)
        sleep (.nwrite pi) (.pipe pi)
        writeLoop pi p src n fuel i
      else match src i with
        | none => pure (some i)
        | some ch => do
          call (.put pi p ch)
          writeLoop pi p src n fuel (i + 1)
    else pure (some i)

/-- `pipewrite`. -/
def pipewrite (pi : Nat) (src : Nat → Option UInt8) (n : Int) (fuel : Nat) : Prog Act Int := do
  let p ← call .myproc
  acquire (.pipe pi)
  call (.writeBegin pi p src)
  match ← writeLoop pi p src n fuel 0 with
  | none => pure (-1)
  | some i => do
    wakeup (.nread pi)
    release (.pipe pi)
    pure i

/-- `pi->nread == pi->nwrite && pi->writeopen`. -/
def readBlocked (pi : Nat) : Prog Act Bool := do
  if ← call (.isEmpty pi) then call (.isOpen pi true) else pure false

/-- The first loop of `piperead`; `false` if it has released the lock to return `-1`. -/
def readWait (pi p : Nat) : Nat → Prog Act Bool
  | 0 => do
    call .spin
    pure false
  | fuel + 1 => do
    if ← readBlocked pi then
      if ← killed p then do
        release (.pipe pi)
        pure false
      else do
        sleep (.nread pi) (.pipe pi)
        readWait pi p fuel
    else pure true

/-- The second loop of `piperead`, with `m` turns left; `dst i` tells if the `copyout` of byte `i`
succeeds. -/
def readLoop (pi : Nat) (dst : Nat → Bool) : Nat → Nat → Prog Act Nat
  | 0, i => pure i
  | m + 1, i => do
    if ← call (.isEmpty pi) then pure i
    else do
      let _ ← call (.get pi (dst i))
      if dst i then readLoop pi dst m (i + 1) else pure i

/-- `piperead`. -/
def piperead (pi : Nat) (dst : Nat → Bool) (n : Int) (fuel : Nat) : Prog Act Int := do
  let p ← call .myproc
  acquire (.pipe pi)
  if ← readWait pi p fuel then do
    let i ← readLoop pi dst n.toNat 0
    call (.readEnd pi n i)
    wakeup (.nwrite pi)
    release (.pipe pi)
    pure i
  else pure (-1)

end Code

/-! ## The system -/

/-- Where a process is between two calls. -/
inductive Mode where
  /-- There is no process, or it has not started. -/
  | none
  /-- In user mode. -/
  | user
  /-- In the kernel, with the lock `n` held. -/
  | holding (n : Nat)
  deriving DecidableEq

/-- A call from user mode. -/
inductive Call where
  /-- A timer interrupt. -/
  | yield
  | kill (pid : BitVec 32)
  /-- A fault that is not handled. -/
  | fault
  | fork (trapframe pagetable copy : Bool)
  | exit (status : Int)
  | wait (addr : Nat) (copy : Bool) (fuel : Nat)
  | pipewrite (pi : Nat) (src : Nat → Option UInt8) (n : Int) (fuel : Nat)
  | piperead (pi : Nat) (dst : Nat → Bool) (n : Int) (fuel : Nat)
  | pipeclose (pi : Nat) (writable : Bool)
  /-- Kernel code that takes the lock `n`. -/
  | lock (n : Nat)

/-- The program of a call, and where the process is after it. -/
def Call.prog : Call → Prog Act Mode
  | yield => do Code.yield; pure .user
  | kill pid => do let _ ← Code.kkill pid; pure .user
  | fault => do Code.setkilled; pure .user
  | fork trapframe pagetable copy => do Code.kfork trapframe pagetable copy; pure .user
  | exit status => do Code.kexit status; pure .none
  | wait addr copy fuel => do let _ ← Code.kwait addr copy fuel; pure .user
  | pipewrite pi src n fuel => do let _ ← Code.pipewrite pi src n fuel; pure .user
  | piperead pi dst n fuel => do let _ ← Code.piperead pi dst n fuel; pure .user
  | pipeclose pi writable => do Code.pipeclose pi writable; pure .user
  | lock n => do Code.acquire (.other n); pure (.holding n)

/-- What kernel code does that holds the lock `n`: it tests or changes a condition, which is not in
this machine, and then does one of these. -/
inductive LkCall where
  | sleep (c : Nat)
  | wakeup (c : Nat)
  | release

def LkCall.prog (n : Nat) : LkCall → Prog Act Mode
  | sleep c => do Code.sleep (.other n c) (.other n); pure (.holding n)
  | wakeup c => do Code.wakeup (.other n c); pure (.holding n)
  | release => do Code.release (.other n); pure .user

/-- The programs that the process in slot `t` may start. -/
inductive Calls (t : Tid) (s : St) : Mode → Prog Act Mode → Prop where
  | start (h : (s.proc t).fresh = true) :
      Calls t s .none (do Code.forkret t; pure .user)
  | user (c : Call) : Calls t s .user c.prog
  | holding (n : Nat) (c : LkCall) : Calls t s (.holding n) (c.prog n)

/-- A condition on the actions of a run. -/
abbrev Cond := ∀ ⦃β : Type⦄, Tid → Act β → St → Bool

/-- The actions that meet the condition. -/
def execIf (ok : Cond) : Exec Act St Panic := fun _ t a s => if ok t a s then exec t a s else none

/-- All processes, all calls, and every interleaving in which each action meets the condition. -/
def sysIf (ok : Cond) : Sys Act St Panic Mode where
  exec := execIf ok
  call := fun t s c p => t < NPROC ∧ Calls t s c p

/-- All processes, all calls, every interleaving. -/
def sys : Sys Act St Panic Mode where
  exec := exec
  call := fun t s c p => t < NPROC ∧ Calls t s c p

/-- The state after `userinit`, with the pipes that `pipealloc` makes. -/
def boot (data : Nat → Nat → UInt8) : Conf Act St Mode where
  st := {
    proc := fun q => if q = initproc then { state := .runnable, pid := 1, fresh := true, id := 1 } else {}
    nextpid := 2
    pipe := fun pi => { data := data pi }
    allocs := 1
    hist := [.alloc initproc 1 false] }
  thr := fun _ => .idle .none

/-! ## Computed runs -/

/-- The names of the programs of `Calls`. -/
inductive Cmd where
  | start
  | user (c : Call)
  | holding (c : LkCall)

/-- The programs that the process in slot `t` may start, by name. -/
def menu : Menu Act St Mode Cmd := fun t s m k =>
  if t < NPROC then
    match m, k with
    | .none, .start => if (s.proc t).fresh then some (do Code.forkret t; pure .user) else none
    | .user, .user c => some c.prog
    | .holding n, .holding c => some (c.prog n)
    | _, _ => none
  else none

theorem menu_calls (t : Tid) (s : St) (m : Mode) (k : Cmd) (p : Prog Act Mode) (h : menu t s m k = some p) :
    t < NPROC ∧ Calls t s m p := by
  unfold menu at h
  split at h
  · rename_i ht
    refine ⟨ht, ?_⟩
    split at h
    · split at h
      · rename_i hf
        cases h
        exact .start hf
      · cases h
    · cases h
      exact .user _
    · cases h
      exact .holding _ _
    · cases h
  · cases h

end Xv6.Kern
