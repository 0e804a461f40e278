import Mathlib.Algebra.Group.Nat.Defs
import Xv6.Conc.Prog
import Xv6.Panic
import Xv6.Param

/-!
# The machine of the processes, sleep and wakeup, and the pipes

The state is the process table of `kernel/proc.c` without the user memory, the spin locks, and the
pipes of `kernel/pipe.c`. An action is an `acquire` or a `release`, a switch to the scheduler or
back, or one access to the data that a held lock protects. A thread is the kernel thread of the
process with the same number; it holds the locks that it took.

* `schedOut` is `sched` up to `swtch`, with the scheduler's `release(&p->lock)` after it;
  `schedIn` is the scheduler's `acquire(&p->lock)`, its choice of `p` and the `swtch` to it. The
  scheduler itself and the CPUs are in `Xv6.Kern.Nest`.
* The history variables are written and never read by the code: the number of an allocated
  process (`id`) and of the process whose `kfork` made it (`maker`), the bytes that went through a
  pipe, the count of the acquisitions of a lock, and the events of the run, newest first.
-/

namespace Xv6.Kern

open Function (update update_of_ne update_self)

open Conc

/-- `PIPESIZE`. -/
def PIPESIZE : Nat := 512

/-- The slot of `initproc`, the first that `allocproc` finds. -/
def initproc : Nat := 0

/-- `enum procstate`. -/
inductive PState where
  | unused
  | used
  | sleeping
  | runnable
  | running
  | zombie
  deriving DecidableEq

/-- A sleep channel. -/
inductive Chan where
  /-- A process. -/
  | proc (p : Nat)
  /-- `&pi->nread`. -/
  | nread (pi : Nat)
  /-- `&pi->nwrite`. -/
  | nwrite (pi : Nat)
  /-- Any other address, `c`, of the data that the lock `n` protects. -/
  | other (n c : Nat)
  /-- `0`. -/
  | null
  deriving DecidableEq

/-- A spin lock. -/
inductive Lk where
  /-- `p->lock`. -/
  | proc (p : Nat)
  /-- `wait_lock`. -/
  | wait
  /-- `pi->lock`. -/
  | pipe (pi : Nat)
  /-- Any other lock. -/
  | other (n : Nat)
  deriving DecidableEq

/-- The lock that `sleep` and `wakeup` on the channel are called with. -/
def lockOf : Chan → Lk
  | .proc _ | .null => .wait
  | .nread pi | .nwrite pi => .pipe pi
  | .other n _ => .other n

/-- `struct proc`. -/
structure Proc where
  state : PState := .unused
  chan : Option Chan := none
  killed : Bool := false
  xstate : Int := 0
  pid : BitVec 32 := 0
  parent : Option Nat := none
  /-- `p->context` is the one that `allocproc` made: it starts in `forkret`. -/
  fresh : Bool := false
  /-- History: the number of the `allocproc` that made this process. -/
  id : Nat := 0
  /-- History: the number of the process whose `kfork` made it. -/
  maker : Nat := 0

/-- `struct pipe`. -/
structure Pipe where
  data : Nat → UInt8 := fun _ => 0
  nread : Nat := 0
  nwrite : Nat := 0
  readopen : Bool := true
  writeopen : Bool := true
  /-- History: the calls of `pipewrite` in each process, newest first: the source, and how many of its
  bytes are stored. -/
  calls : Nat → List ((Nat → Option UInt8) × Nat) := fun _ => []
  /-- History: the bytes stored, each with its process. -/
  stored : List (Nat × UInt8) := []
  /-- History: the bytes copied to the readers. -/
  delivered : List UInt8 := []

/-- What happened in a run. -/
inductive Ev where
  /-- `allocproc` took a slot for process `id`; its flag `killed`. -/
  | alloc (q id : Nat) (killed : Bool)
  /-- `kkill(pid)` found process `q`, in the state `st`. -/
  | kill (pid : BitVec 32) (q : Nat) (st : PState)
  /-- `setkilled` after an unhandled fault. -/
  | fault (q : Nat)
  /-- A process became a zombie. -/
  | exited (id : Nat) (pid : BitVec 32) (xstate : Int)
  /-- `kwait` in process `t` freed the child `c` in slot `q`; it returns `pid` and copied `xstate`. -/
  | reaped (t q : Nat) (c : Proc) (pid : BitVec 32) (xstate : Option Int)
  /-- A `wakeup(chan)` with the `n`-th acquisition of the channel's lock ended. -/
  | woke (chan : Chan) (n : Nat)
  /-- `sleep` returned in process `t`: it holds `lk`, `p->chan`. -/
  | slept (t : Nat) (lk : Bool) (chan : Option Chan)
  /-- `piperead(pi, addr, n)` returns `i`: the pipe is empty, its write end is open. -/
  | read (pi : Nat) (n i : Int) (empty writeopen : Bool)

/-- The state of the machine. -/
structure St where
  proc : Nat → Proc := fun _ => {}
  lock : Lk → Option Nat := fun _ => none
  /-- How many locks each thread holds (`noff` of its CPU). -/
  noff : Nat → Nat := fun _ => 0
  nextpid : BitVec 32 := 1
  pipe : Nat → Pipe := fun _ => {}
  /-- History: how often `allocproc` took a slot. -/
  allocs : Nat := 0
  /-- History: the acquisitions of a lock, and each thread's last one. -/
  acq : Lk → Nat := fun _ => 0
  last : Nat → Lk → Nat := fun _ _ => 0
  /-- History: the thread stored a byte in `pipewrite` and has not called `wakeup` since. -/
  dirty : Nat → Bool := fun _ => false
  hist : List Ev := []

namespace St

/-- Process `q` is changed. -/
@[simps -fullyApplied lock pipe hist noff acq last dirty allocs]
def setProc (s : St) (q : Nat) (f : Proc → Proc) : St :=
  { s with proc := update s.proc q (f (s.proc q)) }

/-- Pipe `pi` is changed. -/
@[simps -fullyApplied proc lock hist acq last dirty allocs]
def setPipe (s : St) (pi : Nat) (f : Pipe → Pipe) : St :=
  { s with pipe := update s.pipe pi (f (s.pipe pi)) }

/-- `l` has the holder `o`. -/
@[simps -fullyApplied proc pipe hist acq last dirty allocs]
def setLock (s : St) (l : Lk) (o : Option Nat) : St :=
  { s with lock := update s.lock l o }

/-- Thread `t` holds `n` locks. -/
@[simps -fullyApplied proc pipe lock hist acq last dirty allocs]
def setNoff (s : St) (t n : Nat) : St := { s with noff := update s.noff t n }

/-- An event. -/
@[simps -fullyApplied proc pipe lock hist acq last dirty allocs]
def log (s : St) (e : Ev) : St := { s with hist := e :: s.hist }

section

variable (s : St) (q pi : Nat) (l : Lk) (o : Option Nat) (f : Proc → Proc) (g : Pipe → Pipe)

@[simp] theorem setProc_self : (s.setProc q f).proc q = f (s.proc q) := update_self ..

@[simp] theorem setPipe_self : (s.setPipe pi g).pipe pi = g (s.pipe pi) := update_self ..

@[simp] theorem setLock_self : (s.setLock l o).lock l = o := update_self ..
theorem setLock_ne {l' : Lk} (h : l' ≠ l) : (s.setLock l o).lock l' = s.lock l' :=
  update_of_ne h ..

end

end St

/-! ## The actions -/

/-- The atomic actions. -/
inductive Act : Type → Type where
  | myproc : Act Nat
  | acquire (l : Lk) : Act Unit
  | release (l : Lk) : Act Unit
  /-- `sched` in process `p`, up to the scheduler's `release` after the `swtch`. -/
  | schedOut (p : Nat) : Act Unit
  /-- The scheduler chooses `p` and switches to it. -/
  | schedIn (p : Nat) : Act Unit
  /-- The last `sched` of a process. -/
  | schedExit (p : Nat) : Act Unit
  /-- `p->state = RUNNABLE`. -/
  | setRunnable (p : Nat) : Act Unit
  /-- `p->chan = chan; p->state = SLEEPING`. -/
  | setSleeping (p : Nat) (chan : Chan) : Act Unit
  /-- `p->chan = 0`. -/
  | clearChan (p : Nat) : Act Unit
  /-- `p->xstate = status; p->state = ZOMBIE`. -/
  | setZombie (p : Nat) (status : Int) : Act Unit
  /-- The section of `wakeup`. -/
  | wake (q : Nat) (chan : Chan) : Act Unit
  /-- The section of `kkill`; it answers if the process has the pid. -/
  | kill (q : Nat) (pid : BitVec 32) : Act Bool
  | getKilled (p : Nat) : Act Bool
  /-- `p->killed = 1` in `setkilled`. -/
  | setKilled (p : Nat) : Act Unit
  /-- `allocproc` in process `p`: if `q` is `UNUSED`, it gets a pid and is `USED`. -/
  | alloc (q p : Nat) : Act Bool
  /-- `p->context` starts in `forkret`. -/
  | setContext (q : Nat) : Act Unit
  /-- `freeproc`; `ret` is for the history: the process that is in `kwait`, what it returns and
  what it copied. -/
  | freeproc (q : Nat) (ret : Option (Nat × BitVec 32 × Option Int)) : Act Unit
  | getParent (q : Nat) : Act (Option Nat)
  | setParent (q p : Nat) : Act Unit
  /-- `if(pp->parent == p) pp->parent = initproc`; it answers the test. -/
  | reparent (q p : Nat) : Act Bool
  /-- If `q` is a `ZOMBIE`, its pid and `xstate`. -/
  | zombie (q : Nat) : Act (Option (BitVec 32 × Int))
  /-- `pi->writeopen` or `pi->readopen`. -/
  | isOpen (pi : Nat) (writable : Bool) : Act Bool
  /-- `pi->writeopen = 0` or `pi->readopen = 0`. -/
  | setClosed (pi : Nat) (writable : Bool) : Act Unit
  /-- `pi->nread == pi->nwrite`. -/
  | isEmpty (pi : Nat) : Act Bool
  /-- `pi->nwrite == pi->nread + PIPESIZE`. -/
  | isFull (pi : Nat) : Act Bool
  /-- `pi->data[pi->nwrite++ % PIPESIZE] = ch` in process `p`. -/
  | put (pi p : Nat) (ch : UInt8) : Act Unit
  /-- `ch = pi->data[pi->nread++ % PIPESIZE]`; `ok` tells if the `copyout` after it succeeds. -/
  | get (pi : Nat) (ok : Bool) : Act UInt8
  /-- History: a call of `pipewrite` with this source begins in process `p`. -/
  | writeBegin (pi p : Nat) (src : Nat → Option UInt8) : Act Unit
  /-- History: `piperead` returns `i`. -/
  | readEnd (pi : Nat) (n i : Int) : Act Unit
  /-- History: process `p` calls `wakeup(chan)`. -/
  | waking (p : Nat) (chan : Chan) : Act Unit
  /-- History: a call of `wakeup(chan)` ends. -/
  | woke (chan : Chan) : Act Unit
  /-- History: `sleep` in process `p` with the lock `lk` returns. -/
  | slept (p : Nat) (lk : Lk) : Act Unit
  /-- A loop that goes on longer than the run that is looked at. -/
  | spin : Act Unit
  | panic (e : Panic) : Act Unit

/-- `pi->writeopen` or `pi->readopen`. -/
def Pipe.open (pi : Pipe) (writable : Bool) : Bool := if writable then pi.writeopen else pi.readopen

/-- `pi->nread == pi->nwrite`. -/
def Pipe.empty (pi : Pipe) : Bool := pi.nread == pi.nwrite

/-- `pi->nwrite == pi->nread + PIPESIZE`. -/
def Pipe.full (pi : Pipe) : Bool := pi.nwrite == (pi.nread + PIPESIZE) % 2 ^ 32

/-- The write end or the read end is closed. -/
def Pipe.close (pi : Pipe) (writable : Bool) : Pipe :=
  if writable then { pi with writeopen := false } else { pi with readopen := false }

/-- One more byte of the newest call is stored. -/
def countByte : List ((Nat → Option UInt8) × Nat) → List ((Nat → Option UInt8) × Nat)
  | (src, i) :: l => (src, i + 1) :: l
  | [] => []

/-- `pi->data[pi->nwrite++ % PIPESIZE] = ch` in process `p`. -/
def Pipe.put (pi : Pipe) (p : Nat) (ch : UInt8) : Pipe :=
  { pi with
    data := update pi.data (pi.nwrite % PIPESIZE) ch
    nwrite := (pi.nwrite + 1) % 2 ^ 32
    calls := update pi.calls p (countByte (pi.calls p))
    stored := pi.stored ++ [(p, ch)] }

/-- A call of `pipewrite` begins in process `p`. -/
def Pipe.writeBegin (pi : Pipe) (p : Nat) (src : Nat → Option UInt8) : Pipe :=
  { pi with calls := update pi.calls p ((src, 0) :: pi.calls p) }

/-- The next byte to read. -/
def Pipe.head (pi : Pipe) : UInt8 := pi.data (pi.nread % PIPESIZE)

/-- `ch = pi->data[pi->nread++ % PIPESIZE]`, and the `copyout` of `ch`. -/
def Pipe.get (pi : Pipe) (ok : Bool) : Pipe :=
  { pi with
    nread := (pi.nread + 1) % 2 ^ 32
    delivered := if ok then pi.delivered ++ [pi.head] else pi.delivered }

/-- The state after `freeproc`. -/
def Proc.free (p : Proc) : Proc :=
  { p with
    pid := 0, parent := none, chan := none, killed := false, xstate := 0, state := .unused }

/-- A `SLEEPING` process is made `RUNNABLE`. -/
def Proc.wake (p : Proc) : Proc := if p.state = .sleeping then { p with state := .runnable } else p

@[simp] theorem Proc.wake_state (p : Proc) : p.wake.state ≠ .sleeping := by
  unfold Proc.wake
  split
  · simp
  · assumption

@[simp] theorem Proc.wake_chan (p : Proc) : p.wake.chan = p.chan := by
  unfold Proc.wake
  split <;> rfl

@[simp] theorem Proc.wake_killed (p : Proc) : p.wake.killed = p.killed := by
  unfold Proc.wake
  split <;> rfl

/-- `sched`'s tests in thread `t`. -/
def schedCheck (t p : Nat) (s : St) : Except Panic Unit :=
  if s.lock (.proc p) ≠ some t then .error .schedPLock
  else if s.noff t ≠ 1 then .error .schedLocks
  else if (s.proc p).state = .running then .error .schedRunning
  else .ok ()

/-- If the action can be taken: `none` waits, an error stops the machine. -/
def Act.check (t : Tid) (s : St) : ∀ {β : Type}, Act β → Option (Except Panic Unit)
  | _, .acquire l =>
    match s.lock l with
    | none => some (.ok ())
    | some h => if h = t then some (.error .acquire) else none
  | _, .release l => if s.lock l = some t then some (.ok ()) else some (.error .release)
  | _, .schedOut p | _, .schedExit p => some (schedCheck t p s)
  | _, .schedIn p =>
    if (s.proc p).state = .runnable ∧ s.lock (.proc p) = none then some (.ok ()) else none
  | _, .spin => none
  | _, .panic e => some (.error e)
  | _, _ => some (.ok ())

/-- What the action answers. -/
def Act.answer (t : Tid) (s : St) : ∀ {β : Type}, Act β → β
  | _, .myproc => t
  | _, .kill q pid => (s.proc q).pid == pid
  | _, .getKilled p => (s.proc p).killed
  | _, .alloc q _ => (s.proc q).state == .unused
  | _, .getParent q => (s.proc q).parent
  | _, .reparent q p => (s.proc q).parent == some p
  | _, .zombie q =>
    if (s.proc q).state = .zombie then some ((s.proc q).pid, (s.proc q).xstate) else none
  | _, .isOpen pi writable => (s.pipe pi).open writable
  | _, .isEmpty pi => (s.pipe pi).empty
  | _, .isFull pi => (s.pipe pi).full
  | _, .get pi _ => (s.pipe pi).head
  | _, .acquire _ | _, .release _ | _, .schedOut _ | _, .schedIn _ | _, .schedExit _
  | _, .setRunnable _ | _, .setSleeping _ _ | _, .clearChan _ | _, .setZombie _ _ | _, .wake _ _
  | _, .setKilled _ | _, .setContext _ | _, .freeproc _ _ | _, .setParent _ _ | _, .setClosed _ _
  | _, .put _ _ _ | _, .writeBegin _ _ _ | _, .readEnd _ _ _ | _, .waking _ _ | _, .woke _ | _, .slept _ _ | _, .spin
  | _, .panic _ => ()

/-- The state after the action. -/
def Act.effect (t : Tid) (s : St) : ∀ {β : Type}, Act β → St
  | _, .acquire l => { (s.setLock l (some t)).setNoff t (s.noff t + 1) with
      acq := update s.acq l (s.acq l + 1)
      last := update s.last t (update (s.last t) l (s.acq l + 1)) }
  | _, .release l => (s.setLock l none).setNoff t (s.noff t - 1)
  | _, .schedOut p | _, .schedExit p => (s.setLock (.proc p) none).setNoff t 0
  | _, .schedIn p => ((s.setLock (.proc p) (some t)).setNoff t 1).setProc p
      fun pr => { pr with state := .running, fresh := false }
  | _, .setRunnable p => s.setProc p fun pr => { pr with state := .runnable }
  | _, .setSleeping p chan => s.setProc p fun pr => { pr with chan := some chan, state := .sleeping }
  | _, .clearChan p => s.setProc p fun pr => { pr with chan := none }
  | _, .setZombie p status =>
    (s.setProc p fun pr => { pr with xstate := status, state := .zombie }).log
      (.exited (s.proc p).id (s.proc p).pid status)
  | _, .wake q chan => if (s.proc q).chan = some chan then s.setProc q Proc.wake else s
  | _, .kill q pid =>
    if (s.proc q).pid = pid then
      (s.setProc q fun pr => { pr with killed := true }.wake).log (.kill pid q (s.proc q).state)
    else s
  | _, .setKilled p => (s.setProc p fun pr => { pr with killed := true }).log (.fault p)
  | _, .alloc q p =>
    if (s.proc q).state = .unused then
      { (s.setProc q fun pr => { pr with
          state := .used, pid := s.nextpid, id := s.allocs + 1, maker := (s.proc p).id }).log
            (.alloc q (s.allocs + 1) (s.proc q).killed) with
        nextpid := s.nextpid + 1
        allocs := s.allocs + 1 }
    else s
  | _, .setContext q => s.setProc q fun pr => { pr with fresh := true }
  | _, .freeproc q none => s.setProc q Proc.free
  | _, .freeproc q (some (p, pid, xstate)) =>
    (s.setProc q Proc.free).log (.reaped p q (s.proc q) pid xstate)
  | _, .setParent q p => s.setProc q fun pr => { pr with parent := some p }
  | _, .reparent q p =>
    if (s.proc q).parent = some p then s.setProc q fun pr => { pr with parent := some initproc } else s
  | _, .setClosed pi writable => s.setPipe pi fun p => p.close writable
  | _, .put pi p ch =>
    { s.setPipe pi fun pi => pi.put p ch with dirty := update s.dirty p true }
  | _, .get pi ok => s.setPipe pi fun p => p.get ok
  | _, .writeBegin pi p src => s.setPipe pi fun pi => pi.writeBegin p src
  | _, .readEnd pi n i => s.log (.read pi n i (s.pipe pi).empty (s.pipe pi).writeopen)
  | _, .waking p _ => { s with dirty := update s.dirty p false }
  | _, .woke chan => s.log (.woke chan (s.last t (lockOf chan)))
  | _, .slept p lk => s.log (.slept p (s.lock lk == some t) (s.proc p).chan)
  | _, .myproc | _, .getKilled _ | _, .getParent _ | _, .zombie _ | _, .isOpen _ _ | _, .isEmpty _
  | _, .isFull _ | _, .spin | _, .panic _ => s

/-- The meaning of the actions. -/
def exec : Exec Act St Panic := fun _ t a s =>
  match a.check t s with
  | none => none
  | some (.error e) => some (.error e)
  | some (.ok ()) => some (.ok (a.answer t s, a.effect t s))

variable {t : Tid} {s : St} {l : Lk}

/-- What an action that was taken has done. -/
theorem exec_ok {β : Type} {a : Act β} {s' : St} {b : β} (h : exec t a s = some (.ok (b, s'))) :
    a.check t s = some (.ok ()) ∧ b = a.answer t s ∧ s' = a.effect t s := by
  unfold exec at h
  split at h
  · cases h
  · cases h
  · rename_i hc
    injection h with h; injection h with h; injection h with h₁ h₂
    exact ⟨hc, h₁.symm, h₂.symm⟩

/-! What an action that can be taken has found. -/

theorem check_acquire (h : (Act.acquire l).check t s = some (.ok ())) : s.lock l = none := by
  dsimp only [Act.check] at h
  split at h
  · assumption
  · split at h <;> cases h

theorem check_release (h : (Act.release l).check t s = some (.ok ())) : s.lock l = some t := by
  dsimp only [Act.check] at h
  split at h
  · assumption
  · cases h

theorem schedCheck_ok {p : Nat} (h : schedCheck t p s = .ok ()) : s.lock (.proc p) = some t := by
  unfold schedCheck at h
  by_contra hl
  simp [hl] at h

theorem check_schedIn {p : Nat} (h : (Act.schedIn p).check t s = some (.ok ())) :
    (s.proc p).state = .runnable ∧ s.lock (.proc p) = none := by
  dsimp only [Act.check] at h
  split at h
  · assumption
  · cases h

/-! A lock that is free can be taken, a lock that is held can be given back. -/

theorem acquire_check (h : s.lock l = none) : (Act.acquire l).check t s = some (.ok ()) := by
  simp [Act.check, h]

theorem release_check (h : s.lock l = some t) : (Act.release l).check t s = some (.ok ()) := by
  simp [Act.check, h]

end Xv6.Kern
