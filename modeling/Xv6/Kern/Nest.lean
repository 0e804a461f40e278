import Mathlib.Data.List.Nodup
import Mathlib.Logic.Relation
import Xv6.Kern.Machine

/-!
# Interrupts, nesting and switches

`push_off`, `pop_off`, `acquire` and `release` of `kernel/spinlock.c` on any number of CPUs, and the switches between
the kernel threads of the processes and the schedulers of the CPUs: `sched`, `yield`, `sleep`, `kexit`, `kwait`,
`wakeup`, `kkill`, `scheduler` and `forkret` of `kernel/proc.c`, as far as they deal with locks, process states and
interrupts.

* A thread executes a list of operations (`Op`). Without one, a process's thread may do anything that matches:
  acquire a lock that it does not hold, release one that it holds, push and pop, set the interrupts while nothing is
  pushed, yield (also from the timer's interrupt), sleep with one lock, wake and kill, wait, exit.
* `swtch` is a step; the assignment `mycpu()->intena = intena` behind a switch to a process belongs to it, the
  interrupts are off there. Nothing keeps two CPUs from switching to one process but the code.
* `held` and `pushes` are what the thread has to release and to pop, `first` the state of the interrupts at its
  outermost push: histories.

The invariant (`Ok`) says of a thread on a CPU that `noff` counts what the thread has pushed, and of a thread that is
off that it has its process's lock and nothing else.
-/

namespace Xv6.Nest

open Kern (PState)
open Function (update update_eq_self update_of_ne update_self)

/-- The spinlocks: that of a process, `wait_lock`, others. -/
inductive Lk where
  | proc (p : Nat)
  | wait
  | other (n : Nat)
  deriving DecidableEq

/-- `struct cpu`, and if the interrupts are on. -/
structure Cpu where
  intr : Bool := false
  noff : Nat := 0
  intena : Bool := false

/-- `push_off`. -/
def pushOff (k : Cpu) : Cpu where
  intr := false
  noff := k.noff + 1
  intena := if k.noff = 0 then k.intr else k.intena

/-- `pop_off`; `none` is a panic. -/
def popOff (k : Cpu) : Option Cpu :=
  if k.intr then none
  else if k.noff < 1 then none
  else some { k with noff := k.noff - 1, intr := decide (k.noff - 1 = 0) && k.intena }

/-- The threads: the kernel thread of a process, the scheduler of a CPU. -/
inductive Th where
  | proc (p : Nat)
  | sched (c : Nat)
  deriving DecidableEq

/-- The operations of the threads. -/
inductive Op where
  | push
  | pop
  /-- The lock is taken when it is free. -/
  | take (l : Lk)
  | drop (l : Lk)
  /-- `intr_on`, `intr_off`. -/
  | intr (b : Bool)
  /-- `p->state` of the thread's process. -/
  | setState (st : PState)
  | sched
  /-- If `p` is `RUNNABLE`: `p->state = RUNNING`, and `swtch`. -/
  | pick (p : Nat)
  /-- `swtch` to the process. -/
  | swtch (p : Nat)
  /-- If `p` is `SLEEPING`, on the channel or with the pid as `b` says: `p->state = RUNNABLE`. -/
  | wake (p : Nat) (b : Bool)
  /-- If `p` is a `ZOMBIE`: `freeproc`, unless `b` says that `copyout` fails, and the end of `kwait`. -/
  | reap (p : Nat) (b : Bool)

/-- A thread. -/
structure Thr where
  pc : List Op := []
  held : List Lk := []
  pushes : Nat := 0
  first : Option Bool := none
  /-- `intena` of `sched`; `none` before the first switch. -/
  saved : Option Bool := none
  /-- `context` holds the thread's registers. -/
  ctx : Bool := false

/-- The nesting of the thread. -/
def Thr.depth (r : Thr) : Nat := r.held.length + r.pushes

/-- The state of the machine. -/
structure St where
  cpu : Nat → Cpu
  /-- The thread on each CPU. -/
  on : Nat → Th
  /-- The CPU that holds the lock. -/
  lock : Lk → Option Nat
  thr : Th → Thr
  state : Nat → PState

/-! ## The code -/

def acquire (l : Lk) : List Op := [.push, .take l]

def release (l : Lk) : List Op := [.drop l, .pop]

/-- `yield`. -/
def yield (p : Nat) : List Op := acquire (.proc p) ++ [.setState .runnable, .sched] ++ release (.proc p)

/-- `sleep` up to the last `acquire(lk)`. -/
def sleep (p : Nat) (lk : Lk) : List Op :=
  acquire (.proc p) ++ release lk ++ [.setState .sleeping, .sched] ++ release (.proc p)

/-- A loop over processes, with the lock of each one. -/
def scan (f : Nat → Bool → Op) (qs : List (Nat × Bool)) : List Op :=
  qs.flatMap fun q => acquire (.proc q.1) ++ [f q.1 q.2] ++ release (.proc q.1)

/-- `wakeup`, for the processes other than the caller's. -/
def wakeup (qs : List (Nat × Bool)) : List Op := scan .wake qs

/-- `kkill`: the processes before the one with the pid, and that one if there is one. -/
def kkill (qs : List Nat) (q : Option Nat) : List Op :=
  scan .wake (qs.map (·, false) ++ q.toList.map (·, true))

/-- `kexit` from `acquire(&wait_lock)` on, with the calls of `wakeup`. -/
def kexit (p : Nat) (qs : List (Nat × Bool)) : List Op :=
  acquire .wait ++ wakeup qs ++ acquire (.proc p) ++ [.setState .zombie] ++ release .wait ++ [.sched]

/-- `kwait` with the children `qs`, up to the end or the last `acquire` of `sleep`, where it starts again; `b` is
`killed(p)`. -/
def kwait (p : Nat) (qs : List (Nat × Bool)) (b : Bool) : List Op :=
  acquire .wait ++ (scan .reap qs ++
    if qs.isEmpty then release .wait
    else acquire (.proc p) ++ (release (.proc p) ++ if b then release .wait else sleep p .wait))

/-- `forkret`. -/
def forkret (p : Nat) : List Op := release (.proc p)

/-- The body of the loop of `scheduler`. -/
def scheduleOne (p : Nat) : List Op := acquire (.proc p) ++ [.pick p] ++ release (.proc p)

/-- What a thread may do next. -/
inductive Calls (r : Thr) : Th → List Op → Prop where
  | acquire {p : Nat} {l : Lk} (h : l ∉ r.held) : Calls r (.proc p) (acquire l)
  | release {p : Nat} {l : Lk} (h : l ∈ r.held) : Calls r (.proc p) (release l)
  | pushOff {p : Nat} : Calls r (.proc p) [.push]
  | popOff {p : Nat} (h : 0 < r.pushes) : Calls r (.proc p) [.pop]
  | intr {τ : Th} {b : Bool} (h : r.held = [] ∧ r.pushes = 0) : Calls r τ [.intr b]
  | yield {p : Nat} (h : r.held = [] ∧ r.pushes = 0) : Calls r (.proc p) (yield p)
  | sleep {p : Nat} {lk : Lk} (h : r.held = [lk] ∧ r.pushes = 0) (hl : lk ≠ .proc p) : Calls r (.proc p) (sleep p lk)
  | wakeup {p : Nat} {qs : List (Nat × Bool)} (h : ∀ q ∈ qs, q.1 ≠ p) : Calls r (.proc p) (wakeup qs)
  | kkill {p : Nat} {qs : List Nat} {q : Option Nat} : Calls r (.proc p) (kkill qs q)
  | kexit {p : Nat} {qs : List (Nat × Bool)} (h : r.held = [] ∧ r.pushes = 0) (hq : ∀ q ∈ qs, q.1 ≠ p) :
      Calls r (.proc p) (kexit p qs)
  | kwait {p : Nat} {qs : List (Nat × Bool)} {b : Bool} (h : r.held = [] ∧ r.pushes = 0) :
      Calls r (.proc p) (kwait p qs b)
  | scheduleOne {c p : Nat} (h : r.held = [] ∧ r.pushes = 0) : Calls r (.sched c) (scheduleOne p)

/-! ## The machine -/

/-- The thread on CPU `c`. -/
def St.cur (x : St) (c : Nat) : Thr := x.thr (x.on c)

/-- The thread on CPU `c` goes on with `k`. -/
def St.next (x : St) (c : Nat) (k : List Op) (f : Thr → Thr) : St :=
  { x with thr := update x.thr (x.on c) { f (x.cur c) with pc := k } }

def St.setCpu (x : St) (c : Nat) (k : Cpu) : St := { x with cpu := update x.cpu c k }

def St.setLock (x : St) (l : Lk) (o : Option Nat) : St := { x with lock := update x.lock l o }

/-- `swtch` on CPU `c` to the thread `τ`; the thread that was there goes on with `k` when it comes back. -/
def St.swtch (x : St) (c : Nat) (τ : Th) (k : List Op) (f : Thr → Thr) : St :=
  { x with
    on := update x.on c τ
    thr := update (update x.thr (x.on c) { f (x.cur c) with pc := k, ctx := true }) τ
      { x.thr τ with ctx := false } }

/-- A push from depth 0 by the thread of a process. -/
def mark : Th → Bool → Option Bool
  | .proc _, b => some b
  | .sched _, _ => none

/-- A step of one CPU. -/
inductive Step : St → St → Prop where
  | call {x : St} {c : Nat} {q : List Op} (hpc : (x.cur c).pc = []) (h : Calls (x.cur c) (x.on c) q) :
      Step x (x.next c q id)
  | push {x : St} {c : Nat} {k : List Op} (hpc : (x.cur c).pc = .push :: k) :
      Step x ((x.setCpu c (pushOff (x.cpu c))).next c k fun r => { r with
        pushes := r.pushes + 1, first := if r.depth = 0 then mark (x.on c) (x.cpu c).intr else r.first })
  | pop {x : St} {c : Nat} {k : List Op} {u : Cpu} (hpc : (x.cur c).pc = .pop :: k) (h : popOff (x.cpu c) = some u) :
      Step x ((x.setCpu c u).next c k fun r => { r with
        pushes := r.pushes - 1, first := if r.depth = 1 then none else r.first })
  | take {x : St} {c : Nat} {k : List Op} {l : Lk} (hpc : (x.cur c).pc = .take l :: k) (h : x.lock l = none) :
      Step x ((x.setLock l (some c)).next c k fun r => { r with held := l :: r.held, pushes := r.pushes - 1 })
  | drop {x : St} {c : Nat} {k : List Op} {l : Lk} (hpc : (x.cur c).pc = .drop l :: k) (h : x.lock l = some c) :
      Step x ((x.setLock l none).next c k fun r => { r with held := r.held.erase l, pushes := r.pushes + 1 })
  | intr {x : St} {c : Nat} {k : List Op} {b : Bool} (hpc : (x.cur c).pc = .intr b :: k) :
      Step x ((x.setCpu c { x.cpu c with intr := b }).next c k id)
  | setState {x : St} {c p : Nat} {k : List Op} {st : PState} (hpc : (x.cur c).pc = .setState st :: k)
      (hp : x.on c = .proc p) : Step x ({ x with state := update x.state p st }.next c k id)
  | wake {x : St} {c p : Nat} {k : List Op} {b : Bool} (hpc : (x.cur c).pc = .wake p b :: k) :
      Step x ({ x with state := if b ∧ x.state p = PState.sleeping then update x.state p .runnable
        else x.state }.next c k id)
  | reap {x : St} {c p : Nat} {k : List Op} {b : Bool} (hpc : (x.cur c).pc = .reap p b :: k)
      (h : x.state p = .zombie) :
      Step x ({ x with state := if b then update x.state p .unused else x.state }.next c
        (release (.proc p) ++ release .wait) id)
  | skip {x : St} {c p : Nat} {k : List Op} {b : Bool} (hpc : (x.cur c).pc = .reap p b :: k)
      (h : x.state p ≠ .zombie) : Step x (x.next c k id)
  /-- The checks of `sched`, and the switch to the scheduler. -/
  | sched {x : St} {c p : Nat} {k : List Op} (hpc : (x.cur c).pc = .sched :: k) (hp : x.on c = .proc p)
      (hlock : x.lock (.proc p) = some c) (hnoff : (x.cpu c).noff = 1) (hstate : x.state p ≠ .running)
      (hintr : (x.cpu c).intr = false) :
      Step x (x.swtch c (.sched c) k fun r => { r with saved := some (x.cpu c).intena })
  | pick {x : St} {c p : Nat} {k : List Op} (hpc : (x.cur c).pc = .pick p :: k) (h : x.state p = .runnable) :
      Step x ({ x with state := update x.state p .running }.next c (.swtch p :: k) id)
  | pass {x : St} {c p : Nat} {k : List Op} (hpc : (x.cur c).pc = .pick p :: k) (h : x.state p ≠ .runnable) :
      Step x (x.next c k id)
  | swtch {x : St} {c p : Nat} {k : List Op} (hpc : (x.cur c).pc = .swtch p :: k) :
      Step x ((x.setCpu c { x.cpu c with intena := (x.thr (.proc p)).saved.getD (x.cpu c).intena }).swtch c
        (.proc p) k id)

/-- Every CPU is in its scheduler, and no process has run yet; they may be in any state. -/
structure Boot (x : St) : Prop where
  cpu : ∀ c, (x.cpu c).noff = 0
  on : ∀ c, x.on c = .sched c
  lock : ∀ l, x.lock l = none
  sched : ∀ c, x.thr (.sched c) = {}
  proc : ∀ p, x.thr (.proc p) = { pc := forkret p, held := [.proc p], ctx := true }

/-! ## What the rest of a thread's operations needs -/

/-- Between the change of the process's state and `sched`. -/
def Leaving (p : Nat) : List Op → Prop
  | .sched :: _ => True
  | .drop l :: k => l ≠ .proc p ∧ Leaving p k
  | .pop :: k => Leaving p k
  | _ => False

/-- With the locks `h` and `n` other pushes, every release and every pop of the list has its push, and `sched` has the
process's lock only. `swtch` is not in the list: it comes from `pick`. -/
def Wf (τ : Th) : List Op → List Lk → Nat → Prop
  | [], _, _ => True
  | .push :: k, h, n => Wf τ k h (n + 1)
  | .pop :: k, h, n => 0 < n ∧ Wf τ k h (n - 1)
  | .take l :: k, h, n => 0 < n ∧ Wf τ k (l :: h) (n - 1)
  | .drop l :: k, h, n => l ∈ h ∧ Wf τ k (h.erase l) (n + 1)
  | .intr _ :: k, h, n => h = [] ∧ n = 0 ∧ Wf τ k h n
  | .setState st :: k, h, n => st ≠ .running ∧ ∃ p, τ = .proc p ∧ .proc p ∈ h ∧ Leaving p k ∧ Wf τ k h n
  | .sched :: k, h, n => ∃ p, τ = .proc p ∧ h = [.proc p] ∧ n = 0 ∧ Wf τ k h n
  | .pick p :: k, h, n => (∃ c, τ = .sched c) ∧ h = [.proc p] ∧ n = 0 ∧ Wf τ k h n
  | .swtch _ :: _, _, _ => False
  | .wake p _ :: k, h, n => .proc p ∈ h ∧ Wf τ k h n
  | .reap p _ :: k, h, n => .proc p ∈ h ∧ .wait ∈ h ∧ Wf τ k h n

section

variable {τ : Th} {p c d n : Nat} {l : Lk} {h : List Lk} {k : List Op} {r : Thr} {x x' : St}

theorem wf_acquire : Wf τ (acquire l ++ k) h n ↔ Wf τ k (l :: h) n := by
  simp [acquire, Wf]

theorem wf_release : Wf τ (release l ++ k) h n ↔ l ∈ h ∧ Wf τ k (h.erase l) n := by
  simp [release, Wf]

theorem wf_release_last (hl : l ∈ h) : Wf τ (release l) h n := by
  simp [release, Wf, hl]

theorem wf_scan {f : Nat → Bool → Op} {qs : List (Nat × Bool)}
    (hf : ∀ q b k, Wf τ k (.proc q :: h) n → Wf τ (f q b :: k) (.proc q :: h) n) (hk : Wf τ k h n) :
    Wf τ (scan f qs ++ k) h n := by
  induction qs with
  | nil => exact hk
  | cons q qs ih =>
    rw [scan] at ih
    rw [scan, List.flatMap_cons, List.append_assoc, List.append_assoc, List.append_assoc, wf_acquire]
    refine hf q.1 q.2 _ (wf_release.mpr ⟨List.mem_cons_self, ?_⟩)
    rwa [List.erase_cons_head]

theorem wf_wake {qs : List (Nat × Bool)} (hk : Wf τ k h n) : Wf τ (scan .wake qs ++ k) h n :=
  wf_scan (fun _ _ _ hk => ⟨List.mem_cons_self, hk⟩) hk

theorem wf_sleep (hl : l ≠ .proc p) : Wf (.proc p) (sleep p l) [l] 0 := by
  rw [sleep, List.append_assoc, List.append_assoc, wf_acquire, wf_release]
  have he : [Lk.proc p, l].erase l = [.proc p] := by
    rw [List.erase_cons_tail (by simpa using Ne.symm hl), List.erase_cons_head]
  rw [he]
  exact ⟨by simp, by simp, p, rfl, List.mem_cons_self, trivial, p, rfl, rfl, rfl, wf_release_last (by simp)⟩

/-- Each call has a push for every pop, and comes to `sched` with the process's lock only. -/
theorem wf_of_calls {q : List Op} (hc : Calls r τ q) : Wf τ q r.held r.pushes := by
  cases hc with
  | acquire _ => exact ⟨Nat.succ_pos _, trivial⟩
  | release h => exact wf_release_last h
  | pushOff => trivial
  | popOff h => exact ⟨h, trivial⟩
  | intr h => exact ⟨h.1, h.2, trivial⟩
  | @yield p h =>
    rw [h.1, h.2, yield, List.append_assoc, wf_acquire]
    exact ⟨by simp, p, rfl, List.mem_cons_self, trivial, p, rfl, rfl, rfl, wf_release_last (by simp)⟩
  | sleep h hl =>
    rw [h.1, h.2]
    exact wf_sleep hl
  | wakeup _ =>
    rw [← List.append_nil (wakeup _)]
    exact wf_wake trivial
  | kkill =>
    rw [← List.append_nil (kkill ..)]
    exact wf_wake trivial
  | @kexit p qs h _ =>
    rw [h.1, h.2, kexit, List.append_assoc, List.append_assoc, List.append_assoc, List.append_assoc, wf_acquire]
    refine wf_wake (wf_acquire.mpr ⟨by simp, p, rfl, List.mem_cons_self, ⟨by simp, trivial⟩, ?_⟩)
    exact wf_release.mpr ⟨by simp, p, rfl, by simp, rfl, trivial⟩
  | @kwait p qs b h =>
    rw [h.1, h.2, kwait, wf_acquire]
    refine wf_scan (fun q b k hk => ⟨List.mem_cons_self, by simp, hk⟩) ?_
    split
    · exact wf_release_last List.mem_cons_self
    · rw [wf_acquire, wf_release, List.erase_cons_head]
      refine ⟨List.mem_cons_self, ?_⟩
      split
      · exact wf_release_last List.mem_cons_self
      · exact wf_sleep (by simp)
  | @scheduleOne c p h =>
    rw [h.1, h.2, scheduleOne, List.append_assoc, wf_acquire]
    exact ⟨⟨c, rfl⟩, rfl, rfl, wf_release_last List.mem_cons_self⟩

/-! ## The invariant -/

/-- A thread on a CPU; `mine` are the locks that the CPU holds. -/
structure RunOk (k : Cpu) (τ : Th) (r : Thr) (mine : Lk → Prop) : Prop where
  noff : k.noff = r.depth
  off : 0 < k.noff → k.intr = false
  mine : ∀ l ∈ r.held, mine l
  nodup : r.held.Nodup
  ena : ∀ b, r.first = some b → 0 < r.depth → k.intena = b
  sched : ∀ c, τ = .sched c → r.first = none

/-- A thread that has switched away, or has not run: it has the lock of process `p`. -/
structure OffOk (τ : Th) (r : Thr) (p : Nat) : Prop where
  held : r.held = [.proc p]
  pushes : r.pushes = 0
  wf : Wf τ r.pc [.proc p] 0
  saved : ∀ b, r.first = some b → r.saved = some b
  ctx : r.ctx = true

/-- A process that a CPU executes is `RUNNING`, or about to switch. -/
def StateOk (st : PState) (r : Thr) (p : Nat) : Prop := st = .running ∨ (.proc p ∈ r.held ∧ Leaving p r.pc)

/-- The operations of a thread on a CPU; a scheduler that is about to switch has just picked a process that no CPU
executes. -/
def PcOk (on : Nat → Th) (state : Nat → PState) (τ : Th) (r : Thr) : Prop :=
  Wf τ r.pc r.held r.pushes ∨ ∃ p k, r.pc = .swtch p :: k ∧
    Wf τ (.pick p :: k) r.held r.pushes ∧ state p = .running ∧ ∀ d, on d ≠ .proc p

/-- The invariant. -/
structure Ok (x : St) : Prop where
  run : ∀ c, RunOk (x.cpu c) (x.on c) (x.cur c) fun l => x.lock l = some c
  pc : ∀ c, PcOk x.on x.state (x.on c) (x.cur c)
  own : ∀ c d, x.on c = .sched d → d = c
  inj : ∀ c d p, x.on c = .proc p → x.on d = .proc p → d = c
  off : ∀ p, (∀ c, x.on c ≠ .proc p) → OffOk (.proc p) (x.thr (.proc p)) p
  away : ∀ c p, x.on c = .proc p → OffOk (.sched c) (x.thr (.sched c)) p ∧ (x.thr (.sched c)).first = none
  state : ∀ c p, x.on c = .proc p → StateOk (x.state p) (x.cur c) p

/-- A thread that comes back to a CPU. -/
theorem OffOk.run {u : Cpu} {mine : Lk → Prop} (ho : OffOk τ r p) (hn : u.noff = 1) (hi : u.intr = false)
    (hm : mine (.proc p)) (he : ∀ b, r.first = some b → u.intena = b) (hs : ∀ c, τ = .sched c → r.first = none) :
    RunOk u τ { r with ctx := false } mine where
  noff := by
    simp only [Thr.depth, ho.held, ho.pushes]
    exact hn
  off _ := hi
  mine l hl := by
    simp only [ho.held, List.mem_singleton] at hl
    rwa [hl]
  nodup := by
    simp only [ho.held]
    exact List.nodup_singleton _
  ena b hb _ := he b hb
  sched := hs

namespace Ok

/-- Each thread is on one CPU. -/
theorem on_ne (h : Ok x) (hd : d ≠ c) : x.on d ≠ x.on c := by
  intro e
  cases hc : x.on c with
  | proc p => exact hd (h.inj c d p hc (e.trans hc))
  | sched q => exact hd ((h.own d q (e.trans hc)).symm.trans (h.own c q hc))

theorem wf (h : Ok x) {o : Op} (hpc : (x.cur c).pc = o :: k) (ho : ∀ p, o ≠ .swtch p) :
    Wf (x.on c) (o :: k) (x.cur c).held (x.cur c).pushes := by
  rcases h.pc c with hw | ⟨p, k', hp, -⟩
  · rwa [hpc] at hw
  · rw [hpc] at hp
    exact absurd (List.cons.inj hp).1 (ho p)

variable {state : Nat → PState} {f : Thr → Thr} {st : PState} {u : Cpu} {b : Bool}

/-- A step of CPU `c` that does not switch. -/
theorem stay (h : Ok x) {cpu : Nat → Cpu} {lock : Lk → Option Nat}
    (hcpu : ∀ d, d ≠ c → cpu d = x.cpu d) (hlock : ∀ l d, d ≠ c → x.lock l = some d → lock l = some d)
    (hstate : ∀ p, state p = x.state p ∨ (.proc p ∈ (x.cur c).held ∧ ∀ d, d ≠ c → x.on d ≠ .proc p))
    (hrun : RunOk (cpu c) (x.on c) { f (x.cur c) with pc := k } fun l => lock l = some c)
    (hpc : PcOk x.on state (x.on c) { f (x.cur c) with pc := k })
    (hst : ∀ p, x.on c = .proc p → StateOk (state p) { f (x.cur c) with pc := k } p) :
    Ok ({ x with cpu := cpu, lock := lock, state := state }.next c k f) := by
  set y := { x with cpu := cpu, lock := lock, state := state }.next c k f with hy
  have hthr : ∀ σ, σ ≠ x.on c → y.thr σ = x.thr σ := fun σ hσ => update_of_ne hσ _ _
  have hself : y.cur c = { f (x.cur c) with pc := k } := update_self ..
  have hcur : ∀ d, d ≠ c → y.cur d = x.cur d := fun d hd => hthr _ (h.on_ne hd)
  refine ⟨fun d => ?_, fun d => ?_, h.own, h.inj, fun p hp => ?_, fun d p hp => ?_, fun d p hp => ?_⟩
  · by_cases hd : d = c
    · rw [hd, hself]
      exact hrun
    · have hr := h.run d
      rw [hcur d hd]
      refine ⟨?_, ?_, fun l hl => hlock l d hd (hr.mine l hl), hr.nodup, ?_, hr.sched⟩
      all_goals simp only [hy, St.next, hcpu d hd]
      exacts [hr.noff, hr.off, hr.ena]
  · by_cases hd : d = c
    · rw [hd, hself]
      exact hpc
    · rw [hcur d hd]
      refine (h.pc d).imp id ?_
      rintro ⟨p, k', hp, hw, hs, hoff⟩
      refine ⟨p, k', hp, hw, ((hstate p).resolve_right ?_).trans hs, hoff⟩
      -- the other CPU holds the lock of the process that it has picked
      intro hl
      have hmine := (h.run d).mine (.proc p) (by rw [hw.2.1]; exact List.mem_singleton_self _)
      exact hd (Option.some.inj (hmine.symm.trans ((h.run c).mine _ hl.1)))
  · rw [hthr _ fun e => hp c e.symm]
    exact h.off p hp
  · rw [hthr]
    · exact h.away d p hp
    · intro e
      obtain rfl := h.own c d e.symm
      cases e.trans hp
  · by_cases hd : d = c
    · rw [hd, hself]
      exact hst p (hd ▸ hp)
    · rw [hcur d hd]
      show StateOk (state p) _ _
      rw [(hstate p).resolve_right fun hl => hl.2 d hd hp]
      exact h.state d p hp

/-- A process that has not changed its state is `RUNNING`. -/
theorem running (h : Ok x) (hp : x.on c = .proc p) (hl : ¬ Leaving p (x.cur c).pc) : x.state p = .running :=
  (h.state c p hp).resolve_right fun hs => hl hs.2

/-- A process whose lock CPU `c` holds is on no CPU, unless it is `RUNNING` or about to switch. -/
theorem not_on (h : Ok x) (hl : .proc p ∈ (x.cur c).held) (hk : ¬ Leaving p (x.cur c).pc) (hs : x.state p ≠ .running) :
    ∀ d, x.on d ≠ .proc p := by
  intro d hp
  by_cases hd : d = c
  · subst hd
    exact hs (h.running hp hk)
  · have hmine := (h.run d).mine _ ((h.state d p hp).resolve_left hs).1
    exact hd (Option.some.inj (hmine.symm.trans ((h.run c).mine _ hl)))

/-- A step that changes the state of one process at most, and that process is not on a CPU. -/
theorem goOn (h : Ok x) {q : List Op}
    (hpc : PcOk x.on state (x.on c) { x.cur c with pc := q }) (hk : ∀ p, ¬ Leaving p (x.cur c).pc)
    (hstate : ∀ p, state p = x.state p ∨ (.proc p ∈ (x.cur c).held ∧ ∀ d, x.on d ≠ .proc p)) :
    Ok ({ x with state := state }.next c q id) := by
  have hr := h.run c
  refine h.stay (fun _ _ => rfl) (fun _ _ _ => id) ?_ ⟨hr.noff, hr.off, hr.mine, hr.nodup, hr.ena, hr.sched⟩ hpc ?_
  · exact fun p => (hstate p).imp id fun hl => ⟨hl.1, fun d _ => hl.2 d⟩
  · intro p hp
    exact .inl (((hstate p).resolve_right fun hl => hl.2 c hp).trans (h.running hp (hk p)))

/-- One process gets another state. -/
theorem update_or (hl : .proc p ∈ (x.cur c).held) (hoff : ∀ d, x.on d ≠ .proc p) (q : Nat) :
    update x.state p st q = x.state q ∨ (.proc q ∈ (x.cur c).held ∧ ∀ d, x.on d ≠ .proc q) := by
  by_cases hq : q = p
  · exact .inr (hq ▸ ⟨hl, hoff⟩)
  · exact .inl (update_of_ne hq _ _)

theorem push (h : Ok x) (hpc : (x.cur c).pc = .push :: k) :
    Ok ((x.setCpu c (pushOff (x.cpu c))).next c k fun r => { r with
      pushes := r.pushes + 1, first := if r.depth = 0 then mark (x.on c) (x.cpu c).intr else r.first }) := by
  have hr := h.run c
  have hnoff := hr.noff
  refine h.stay (fun d hd => update_of_ne hd _ _) (fun _ _ _ => id) (fun _ => .inl rfl) ?_
    (.inl (h.wf hpc (by simp))) ?_
  · rw [update_self]
    refine ⟨?_, fun _ => rfl, hr.mine, hr.nodup, fun b hb _ => ?_, fun d hd => ?_⟩
    · show (x.cpu c).noff + 1 = _
      rw [hnoff]
      rfl
    · show (if (x.cpu c).noff = 0 then (x.cpu c).intr else (x.cpu c).intena) = b
      rw [hnoff]
      have hb : (if (x.cur c).depth = 0 then mark (x.on c) (x.cpu c).intr else (x.cur c).first) = some b := hb
      -- the outermost push records the interrupts, an inner one leaves the record
      by_cases h0 : (x.cur c).depth = 0
      · rw [if_pos h0] at hb ⊢
        cases hτ : x.on c with
        | proc p =>
          rw [hτ] at hb
          exact Option.some.inj hb
        | sched d =>
          rw [hτ] at hb
          cases hb
      · rw [if_neg h0] at hb ⊢
        exact hr.ena b hb (Nat.pos_of_ne_zero h0)
    · show (if (x.cur c).depth = 0 then mark (x.on c) (x.cpu c).intr else (x.cur c).first) = none
      rw [hd, hr.sched d hd]
      split <;> rfl
  · intro p hp
    exact .inl (h.running hp (by rw [hpc]; exact id))

/-- `pop_off` where there is a push. -/
theorem popOff_eq (h : Ok x) (hpc : (x.cur c).pc = .pop :: k) : popOff (x.cpu c) =
    some { x.cpu c with noff := (x.cpu c).noff - 1, intr := decide ((x.cpu c).noff - 1 = 0) && (x.cpu c).intena } := by
  have hr := h.run c
  have hpos : 0 < (x.cpu c).noff := by
    rw [hr.noff]
    exact Nat.lt_of_lt_of_le (h.wf hpc (by simp)).1 (Nat.le_add_left _ _)
  rw [popOff, hr.off hpos, if_neg Bool.false_ne_true, if_neg (by omega)]

theorem pop (h : Ok x) (hpc : (x.cur c).pc = .pop :: k) (hu : popOff (x.cpu c) = some u) :
    Ok ((x.setCpu c u).next c k fun r => { r with
      pushes := r.pushes - 1, first := if r.depth = 1 then none else r.first }) := by
  have hr := h.run c
  have hwf := h.wf hpc (by simp)
  rw [h.popOff_eq hpc] at hu
  cases hu
  have hnoff := hr.noff
  have hdepth : (x.cur c).depth = (x.cur c).held.length + (x.cur c).pushes := rfl
  have hpos := hwf.1
  refine h.stay (fun d hd => update_of_ne hd _ _) (fun _ _ _ => id) (fun _ => .inl rfl) ?_ (.inl hwf.2) ?_
  · rw [update_self]
    refine ⟨?_, fun h1 => ?_, hr.mine, hr.nodup, fun b hb h1 => ?_, fun d hd => ?_⟩
    · show (x.cpu c).noff - 1 = (x.cur c).held.length + ((x.cur c).pushes - 1)
      omega
    · have h1 : 0 < (x.cpu c).noff - 1 := h1
      simp only [Bool.and_eq_false_iff, decide_eq_false_iff_not]
      exact .inl (by omega)
    · have h1 : 0 < (x.cur c).held.length + ((x.cur c).pushes - 1) := h1
      have hb : (if (x.cur c).depth = 1 then none else (x.cur c).first) = some b := hb
      rw [if_neg (by omega)] at hb
      exact hr.ena b hb (by omega)
    · show (if (x.cur c).depth = 1 then none else (x.cur c).first) = none
      rw [hr.sched d hd, ite_self]
  · intro p hp
    refine (h.state c p hp).imp id fun hs => ?_
    rwa [hpc] at hs

theorem take (h : Ok x) (hpc : (x.cur c).pc = .take l :: k) (hl : x.lock l = none) :
    Ok ((x.setLock l (some c)).next c k fun r => { r with held := l :: r.held, pushes := r.pushes - 1 }) := by
  have hr := h.run c
  have hwf := h.wf hpc (by simp)
  have hkeep : ∀ l' d, x.lock l' = some d → update x.lock l (some c) l' = some d := by
    intro l' d hl'
    rw [update_of_ne (by rintro rfl; rw [hl] at hl'; cases hl'), hl']
  have hdepth : (l :: (x.cur c).held).length + ((x.cur c).pushes - 1) = (x.cur c).depth := by
    have := hwf.1
    unfold Thr.depth
    rw [List.length_cons]
    omega
  refine h.stay (fun _ _ => rfl) (fun l' d _ => hkeep l' d) (fun _ => .inl rfl) ?_ (.inl hwf.2) ?_
  · refine ⟨hr.noff.trans hdepth.symm, hr.off, fun l' hl' => ?_, ?_, fun b hb h1 => ?_, hr.sched⟩
    · rcases List.mem_cons.mp hl' with rfl | hl'
      · exact update_self ..
      · exact hkeep l' c (hr.mine l' hl')
    · refine List.nodup_cons.mpr ⟨fun hm => ?_, hr.nodup⟩
      cases hl.symm.trans (hr.mine l hm)
    · exact hr.ena b hb (hdepth ▸ h1)
  · intro p hp
    exact .inl (h.running hp (by rw [hpc]; exact id))

theorem drop (h : Ok x) (hpc : (x.cur c).pc = .drop l :: k) (hl : x.lock l = some c) :
    Ok ((x.setLock l none).next c k fun r => { r with held := r.held.erase l, pushes := r.pushes + 1 }) := by
  have hr := h.run c
  have hwf := h.wf hpc (by simp)
  have hdepth : ((x.cur c).held.erase l).length + ((x.cur c).pushes + 1) = (x.cur c).depth := by
    have := List.length_pos_of_mem hwf.1
    unfold Thr.depth
    rw [List.length_erase_of_mem hwf.1]
    omega
  refine h.stay (fun _ _ => rfl) ?_ (fun _ => .inl rfl) ?_ (.inl hwf.2) ?_
  · intro l' d hd hl'
    refine (update_of_ne ?_ _ _).trans hl'
    rintro rfl
    exact hd (Option.some.inj (hl'.symm.trans hl))
  · refine ⟨hr.noff.trans hdepth.symm, hr.off, fun l' hl' => ?_, hr.nodup.erase l, fun b hb h1 => ?_, hr.sched⟩
    · obtain ⟨hne, hm⟩ := hr.nodup.mem_erase_iff.mp hl'
      exact (update_of_ne hne _ _).trans (hr.mine l' hm)
    · exact hr.ena b hb (hdepth ▸ h1)
  · intro p hp
    refine (h.state c p hp).imp id fun hs => ?_
    rw [hpc] at hs
    exact ⟨(List.mem_erase_of_ne (Ne.symm hs.2.1)).mpr hs.1, hs.2.2⟩

theorem intr (h : Ok x) (hpc : (x.cur c).pc = .intr b :: k) :
    Ok ((x.setCpu c { x.cpu c with intr := b }).next c k id) := by
  have hr := h.run c
  have hwf := h.wf hpc (by simp)
  refine h.stay (fun d hd => update_of_ne hd _ _) (fun _ _ _ => id) (fun _ => .inl rfl) ?_ (.inl hwf.2.2) ?_
  · rw [update_self]
    refine ⟨hr.noff, fun h1 => ?_, hr.mine, hr.nodup, hr.ena, hr.sched⟩
    have h1 : 0 < (x.cpu c).noff := h1
    rw [hr.noff, Thr.depth, hwf.1, hwf.2.1] at h1
    cases h1
  · intro p hp
    exact .inl (h.running hp (by rw [hpc]; exact id))

theorem setState (h : Ok x) (hpc : (x.cur c).pc = .setState st :: k) (hp : x.on c = .proc p) :
    Ok ({ x with state := update x.state p st }.next c k id) := by
  have hr := h.run c
  obtain ⟨-, q, hq, hm, hl, hk⟩ := h.wf hpc (by simp)
  obtain rfl : q = p := Th.proc.inj (hq.symm.trans hp)
  refine h.stay (fun _ _ => rfl) (fun _ _ _ => id) (fun p' => ?_) ?_ (.inl hk) ?_
  · by_cases hq : p' = q
    · exact .inr ⟨hq ▸ hm, fun d hd hp' => hd (h.inj c d q hp (hq ▸ hp'))⟩
    · exact .inl (update_of_ne hq _ _)
  · exact ⟨hr.noff, hr.off, hr.mine, hr.nodup, hr.ena, hr.sched⟩
  · intro p' hp'
    obtain rfl : p' = q := Th.proc.inj (hp'.symm.trans hp)
    exact .inr ⟨hm, hl⟩

theorem wake (h : Ok x) (hpc : (x.cur c).pc = .wake p b :: k) :
    Ok ({ x with state := if b ∧ x.state p = PState.sleeping then update x.state p .runnable
      else x.state }.next c k id) := by
  have hwf := h.wf hpc (by simp)
  have hk : ∀ q, ¬ Leaving q (x.cur c).pc := fun q => by rw [hpc]; exact id
  refine h.goOn (.inl hwf.2) hk fun q => ?_
  split
  · rename_i hs
    exact update_or hwf.1 (h.not_on hwf.1 (hk p) (by rw [hs.2]; simp)) q
  · exact .inl rfl

/-- A child that `kwait` finds to be a `ZOMBIE` is on no CPU. -/
theorem reap_off (h : Ok x) (hpc : (x.cur c).pc = .reap p b :: k) (hs : x.state p = .zombie) :
    ∀ d, x.on d ≠ .proc p :=
  h.not_on (h.wf hpc (by simp)).1 (by rw [hpc]; exact id) (by rw [hs]; simp)

theorem reap (h : Ok x) (hpc : (x.cur c).pc = .reap p b :: k) (hs : x.state p = .zombie) :
    Ok ({ x with state := if b then update x.state p .unused else x.state }.next c
      (release (.proc p) ++ release .wait) id) := by
  have hwf := h.wf hpc (by simp)
  refine h.goOn (.inl ?_) (fun q => by rw [hpc]; exact id) fun q => ?_
  · refine wf_release.mpr ⟨hwf.1, wf_release_last ?_⟩
    exact (List.mem_erase_of_ne (by simp)).mpr hwf.2.1
  · split
    · exact update_or hwf.1 (h.reap_off hpc hs) q
    · exact .inl rfl

theorem pick (h : Ok x) (hpc : (x.cur c).pc = .pick p :: k) (hs : x.state p = .runnable) :
    Ok ({ x with state := update x.state p .running }.next c (.swtch p :: k) id) := by
  have hwf := h.wf hpc (by simp)
  have hk : ∀ q, ¬ Leaving q (x.cur c).pc := fun q => by rw [hpc]; exact id
  have hl : .proc p ∈ (x.cur c).held := by
    rw [hwf.2.1]
    exact List.mem_singleton_self _
  -- nobody executes the process
  have hoff := h.not_on hl (hk p) (by rw [hs]; simp)
  exact h.goOn (.inr ⟨p, k, rfl, hwf, update_self .., hoff⟩) hk (update_or hl hoff)

/-- A step of CPU `c` that switches to a thread that is on no CPU. -/
theorem switch (h : Ok x) (hown : ∀ d, τ = .sched d → d = c) (hfree : ∀ d, x.on d ≠ τ)
    (hto : ∀ d p k', d ≠ c → (x.cur d).pc = .swtch p :: k' → τ ≠ .proc p)
    (hrun : RunOk u τ { x.thr τ with ctx := false } fun l => x.lock l = some c)
    (hwf : Wf τ (x.thr τ).pc (x.thr τ).held (x.thr τ).pushes)
    (hoff : ∀ p, x.on c = .proc p → OffOk (.proc p) { f (x.cur c) with pc := k, ctx := true } p)
    (haway : ∀ p, τ = .proc p → x.state p = .running ∧ x.on c = .sched c ∧
      OffOk (.sched c) { f (x.cur c) with pc := k, ctx := true } p ∧ (f (x.cur c)).first = none) :
    Ok ((x.setCpu c u).swtch c τ k f) := by
  set y := (x.setCpu c u).swtch c τ k f
  have hon : y.on c = τ := update_self ..
  have hne : ∀ d, d ≠ c → y.on d = x.on d := fun d hd => update_of_ne hd _ _
  have hthr : ∀ σ, σ ≠ τ → σ ≠ x.on c → y.thr σ = x.thr σ := by
    intro σ hτ hσ
    exact (update_of_ne hτ _ _).trans (update_of_ne hσ _ _)
  have hold : y.thr (x.on c) = { f (x.cur c) with pc := k, ctx := true } :=
    (update_of_ne (hfree c) _ _).trans (update_self ..)
  have hcur : y.cur c = { x.thr τ with ctx := false } := by
    rw [St.cur, hon]
    exact update_self ..
  have hother : ∀ d, d ≠ c → y.cur d = x.cur d := by
    intro d hd
    rw [St.cur, hne d hd]
    exact hthr _ (hfree d) (h.on_ne hd)
  refine ⟨fun d => ?_, fun d => ?_, fun d e he => ?_, fun d e p hd he => ?_, fun p hp => ?_, fun d p hp => ?_,
    fun d p hp => ?_⟩
  · by_cases hd : d = c
    · rw [hd, hcur, hon]
      show RunOk (update x.cpu c u c) _ _ _
      rw [update_self]
      exact hrun
    · rw [hother d hd, hne d hd]
      show RunOk (update x.cpu c u d) _ _ _
      rw [update_of_ne hd]
      exact h.run d
  · by_cases hd : d = c
    · rw [hd, hcur, hon]
      exact .inl hwf
    · rw [hother d hd, hne d hd]
      refine (h.pc d).imp id ?_
      rintro ⟨p, k', hpc, hw, hs, hp⟩
      refine ⟨p, k', hpc, hw, hs, fun e => ?_⟩
      by_cases he : e = c
      · rw [he, hon]
        exact hto d p k' hd hpc
      · rw [hne e he]
        exact hp e
  · by_cases hd : d = c
    · rw [hd, hon] at he
      exact (hown e he).trans hd.symm
    · rw [hne d hd] at he
      exact h.own d e he
  · have hinj := h.inj d e p
    clear_value y
    grind
  · by_cases hc : x.on c = .proc p
    · rw [← hc, hold, hc]
      exact hoff p hc
    · rw [hthr _ (fun e => hp c (hon.trans e.symm)) (Ne.symm hc)]
      refine h.off p fun d hd => ?_
      by_cases hdc : d = c
      · exact hc (hdc ▸ hd)
      · exact hp d ((hne d hdc).trans hd)
  · by_cases hd : d = c
    · rw [hd, hon] at hp
      obtain ⟨-, hc, hw, hf⟩ := haway p hp
      rw [hd, ← hc, hold, hc]
      exact ⟨hw, hf⟩
    · rw [hne d hd] at hp
      rw [hthr _ (fun e => hd (hown d e.symm)) fun e => hd (h.own c d e.symm)]
      exact h.away d p hp
  · by_cases hd : d = c
    · rw [hd, hon] at hp
      exact .inl (haway p hp).1
    · rw [hne d hd] at hp
      rw [hother d hd]
      exact h.state d p hp

/-- The switch from a process to the scheduler. -/
theorem sched (h : Ok x) (hpc : (x.cur c).pc = .sched :: k) (hp : x.on c = .proc p)
    (hlock : x.lock (.proc p) = some c) (hnoff : (x.cpu c).noff = 1) (hintr : (x.cpu c).intr = false) :
    Ok (x.swtch c (.sched c) k fun r => { r with saved := some (x.cpu c).intena }) := by
  obtain ⟨q, hq, hheld, hpush, hk⟩ := h.wf hpc (by simp)
  obtain rfl : q = p := Th.proc.inj (hq.symm.trans hp)
  obtain ⟨haway, hfirst⟩ := h.away c q hp
  have hcpu : x.setCpu c (x.cpu c) = x := by
    rw [St.setCpu, update_eq_self]
  suffices hsw : Ok ((x.setCpu c (x.cpu c)).swtch c (.sched c) k fun r =>
      { r with saved := some (x.cpu c).intena }) by
    rwa [hcpu] at hsw
  refine h.switch (fun d hd => (Th.sched.inj hd).symm) (fun d hd => ?_) (fun _ _ _ _ _ => by simp)
    (haway.run hnoff hintr hlock (by simp [hfirst]) fun _ _ => hfirst) ?_ (fun p' hp' => ?_) (fun _ he => by cases he)
  · obtain rfl := h.own d c hd
    cases hp.symm.trans hd
  · rw [haway.held, haway.pushes]
    exact haway.wf
  · obtain rfl := Th.proc.inj (hp.symm.trans hp')
    rw [hheld, hpush, hp] at hk
    refine ⟨hheld, hpush, hk, fun b hb => congrArg some ((h.run c).ena b hb ?_), rfl⟩
    rw [← (h.run c).noff, hnoff]
    exact Nat.one_pos

/-- The switch from the scheduler to a process. -/
theorem swtch (h : Ok x) (hpc : (x.cur c).pc = .swtch p :: k) :
    Ok ((x.setCpu c { x.cpu c with intena := (x.thr (.proc p)).saved.getD (x.cpu c).intena }).swtch c
      (.proc p) k id) := by
  have hr := h.run c
  -- a scheduler that is about to switch to `p` has the lock of `p`
  have hpick : ∀ d q k', (x.cur d).pc = .swtch q :: k' →
      Wf (x.on d) (.pick q :: k') (x.cur d).held (x.cur d).pushes ∧ x.state q = .running ∧ ∀ e, x.on e ≠ .proc q := by
    intro d q k' hq
    rcases h.pc d with hw | ⟨q', k'', hq', hw⟩
    · rw [hq] at hw
      exact hw.elim
    · obtain ⟨hqq, rfl⟩ := List.cons.inj (hq.symm.trans hq')
      obtain rfl := Op.swtch.inj hqq
      exact hw
  obtain ⟨⟨⟨c', hc'⟩, hheld, hpush, hk⟩, hstate, hoff⟩ := hpick c p k hpc
  obtain rfl := h.own c c' hc'
  have hlock : ∀ d q k', (x.cur d).pc = .swtch q :: k' → x.lock (.proc q) = some d := by
    intro d q k' hq
    refine (h.run d).mine _ ?_
    rw [(hpick d q k' hq).1.2.1]
    exact List.mem_singleton_self _
  have hnoff : (x.cpu c').noff = 1 := by
    rw [hr.noff, Thr.depth, hheld, hpush]
    rfl
  have ho := h.off p hoff
  have hfirst := hr.sched c' hc'
  refine h.switch (fun d hd => by cases hd) hoff (fun d q k' hd hq e => ?_) (ho.run hnoff (hr.off (by omega))
    (hlock c' p k hpc) (fun b hb => ?_) fun _ he => by cases he) ?_ (fun p' hp' => ?_) (fun p' hp' => ?_)
  · obtain rfl := Th.proc.inj e
    exact hd (Option.some.inj ((hlock d p k' hq).symm.trans (hlock c' p k hpc)))
  · show (x.thr (.proc p)).saved.getD _ = b
    rw [ho.saved b hb]
    rfl
  · rw [ho.held, ho.pushes]
    exact ho.wf
  · cases hc'.symm.trans hp'
  · obtain rfl := Th.proc.inj hp'
    rw [hheld, hpush, hc'] at hk
    exact ⟨hstate, hc', ⟨hheld, hpush, hk, by simp [hfirst], rfl⟩, hfirst⟩

/-- A step keeps the invariant. -/
theorem step (h : Ok x) (hs : Step x x') : Ok x' := by
  cases hs with
  | call hpc hc =>
    have hwf := wf_of_calls hc
    exact h.goOn (.inl hwf) (fun q => by rw [hpc]; exact id) fun _ => .inl rfl
  | push hpc => exact h.push hpc
  | pop hpc hu => exact h.pop hpc hu
  | take hpc hl => exact h.take hpc hl
  | drop hpc hl => exact h.drop hpc hl
  | intr hpc => exact h.intr hpc
  | setState hpc hp => exact h.setState hpc hp
  | wake hpc => exact h.wake hpc
  | reap hpc hs => exact h.reap hpc hs
  | skip hpc _ =>
    exact h.goOn (.inl (h.wf hpc (by simp)).2.2) (fun q => by rw [hpc]; exact id) fun _ => .inl rfl
  | sched hpc hp hlock hnoff _ hintr => exact h.sched hpc hp hlock hnoff hintr
  | pick hpc hs => exact h.pick hpc hs
  | pass hpc _ =>
    exact h.goOn (.inl (h.wf hpc (by simp)).2.2.2) (fun q => by rw [hpc]; exact id) fun _ => .inl rfl
  | swtch hpc => exact h.swtch hpc

end Ok

theorem Boot.ok (hb : Boot x) : Ok x where
  run c := by
    rw [St.cur, hb.on c, hb.sched c]
    refine ⟨hb.cpu c, fun h0 => ?_, by simp, List.nodup_nil, by simp, fun _ _ => rfl⟩
    rw [hb.cpu c] at h0
    cases h0
  pc c := by
    rw [St.cur, hb.on c, hb.sched c]
    exact .inl trivial
  own c d h := (Th.sched.inj ((hb.on c).symm.trans h)).symm
  inj c d p h := by
    cases (hb.on c).symm.trans h
  off p _ := by
    rw [hb.proc p]
    exact ⟨rfl, rfl, wf_release_last List.mem_cons_self, by simp, rfl⟩
  away c p h := by
    cases (hb.on c).symm.trans h
  state c p h := by
    cases (hb.on c).symm.trans h

theorem ok_of_run {x₀ : St} (hb : Boot x₀) (h : Relation.ReflTransGen Step x₀ x) : Ok x := by
  induction h with
  | refl => exact hb.ok
  | tail _ hs ih => exact ih.step hs

/-- In every run, on every CPU: the interrupts are off while `noff` is not 0; `pop_off` does not panic, and if it
brings the nesting of a process's thread back to 0 the interrupts are as at the thread's outermost push; and `sched`
finds `noff` 1, the process's lock held and the interrupts off. -/
theorem interrupts_nest {x₀ : St} (hb : Boot x₀) (h : Relation.ReflTransGen Step x₀ x) :
    (∀ c, 0 < (x.cpu c).noff → (x.cpu c).intr = false) ∧
    (∀ c k, (x.cur c).pc = .pop :: k → ∃ u, popOff (x.cpu c) = some u ∧
      ∀ p b, x.on c = .proc p → (x.cur c).first = some b → (x.cur c).depth = 1 → u.noff = 0 ∧ u.intr = b) ∧
    ∀ c k, (x.cur c).pc = .sched :: k → ∃ p, x.on c = .proc p ∧ (x.cpu c).noff = 1 ∧
      x.lock (.proc p) = some c ∧ (x.cpu c).intr = false := by
  have ho := ok_of_run hb h
  refine ⟨fun c => (ho.run c).off, fun c k hpc => ⟨_, ho.popOff_eq hpc, fun p b _ hf hd => ?_⟩, fun c k hpc => ?_⟩
  · have hnoff : (x.cpu c).noff = 1 := (ho.run c).noff.trans hd
    refine ⟨by rw [hnoff], ?_⟩
    rw [hnoff, (ho.run c).ena b hf (by omega)]
    rfl
  · have hr := ho.run c
    obtain ⟨p, hp, hheld, hpush, -⟩ := ho.wf hpc (by simp)
    have hnoff : (x.cpu c).noff = 1 := by
      rw [hr.noff, Thr.depth, hheld, hpush]
      rfl
    refine ⟨p, hp, hnoff, hr.mine _ ?_, hr.off (by omega)⟩
    rw [hheld]
    exact List.mem_singleton_self _

/-- In every run: no two CPUs execute the thread of one process; a `RUNNABLE` process whose lock is free has its
context saved and is on no CPU; and so is a child that `kwait` is about to free. -/
theorem one_cpu_per_process {x₀ : St} (hb : Boot x₀) (h : Relation.ReflTransGen Step x₀ x) :
    (∀ c d p, x.on c = .proc p → x.on d = .proc p → d = c) ∧
    (∀ p, x.state p = .runnable → x.lock (.proc p) = none →
      (x.thr (.proc p)).ctx = true ∧ ∀ c, x.on c ≠ .proc p) ∧
    ∀ c p b k, (x.cur c).pc = .reap p b :: k → x.state p = .zombie →
      (x.thr (.proc p)).ctx = true ∧ ∀ d, x.on d ≠ .proc p := by
  have ho := ok_of_run hb h
  refine ⟨ho.inj, fun p hs hl => ?_, fun c p b k hpc hs => ?_⟩
  · have hoff : ∀ c, x.on c ≠ .proc p := by
      intro c hp
      have hst := (ho.state c p hp).resolve_left (by rw [hs]; simp)
      cases hl.symm.trans ((ho.run c).mine _ hst.1)
    exact ⟨(ho.off p hoff).ctx, hoff⟩
  · have hoff := ho.reap_off hpc hs
    exact ⟨(ho.off p hoff).ctx, hoff⟩

end

/-- The start, with process 0 `RUNNABLE`. -/
def start : St where
  cpu _ := {}
  on := .sched
  lock _ := none
  thr
    | .sched _ => {}
    | .proc p => { pc := forkret p, held := [.proc p], ctx := true }
  state p := if p = 0 then .runnable else .unused

theorem start_boot : Boot start := ⟨fun _ => rfl, fun _ => rfl, fun _ => rfl, fun _ => rfl, fun _ => rfl⟩

/-- CPU 3 switches to process 0, which is then about to pop the push of the scheduler. -/
theorem interrupts_nest_start : ∃ x, Boot start ∧ Relation.ReflTransGen Step start x ∧ x.on 3 = .proc 0 ∧
    (x.cur 3).pc = [.pop] ∧ ∃ u, popOff (x.cpu 3) = some u := by
  have h₁ := Relation.ReflTransGen.single (Step.call (x := start) (c := 3) rfl (.scheduleOne (p := 0) ⟨rfl, rfl⟩))
  have h₂ := (h₁.tail (.push (c := 3) rfl)).tail (.take (c := 3) rfl rfl)
  have h₃ := ((h₂.tail (.pick (c := 3) (p := 0) rfl rfl)).tail (.swtch (c := 3) rfl)).tail (.drop (c := 3) rfl rfl)
  obtain ⟨u, hu, -⟩ := (interrupts_nest start_boot h₃).2.1 3 [] rfl
  exact ⟨_, start_boot, h₃, rfl, rfl, u, hu⟩

/-- CPU 3 executes process 0, which is in `kwait` and finds that process 1 is a `ZOMBIE`. -/
theorem one_cpu_per_process_kwait : ∃ x₀ x, Boot x₀ ∧ Relation.ReflTransGen Step x₀ x ∧ x.on 3 = .proc 0 ∧
    x.state 1 = .zombie ∧ (∃ k, (x.cur 3).pc = .reap 1 true :: k) ∧ ∀ d, x.on d ≠ .proc 1 := by
  have hb : Boot { start with state := fun p => if p = 0 then .runnable else .zombie } :=
    ⟨fun _ => rfl, fun _ => rfl, fun _ => rfl, fun _ => rfl, fun _ => rfl⟩
  have h₁ := Relation.ReflTransGen.single (Step.call
    (x := { start with state := fun p => if p = 0 then .runnable else .zombie }) (c := 3) rfl
    (.scheduleOne (p := 0) ⟨rfl, rfl⟩))
  have h₂ := (h₁.tail (.push (c := 3) rfl)).tail (.take (c := 3) rfl rfl)
  have h₃ := ((h₂.tail (.pick (c := 3) (p := 0) rfl rfl)).tail (.swtch (c := 3) rfl)).tail (.drop (c := 3) rfl rfl)
  have h₄ := (h₃.tail (.pop (c := 3) rfl rfl)).tail (.call (c := 3) rfl (@Calls.kwait _ 0 [(1, true)] false ⟨rfl, rfl⟩))
  have h₅ := (h₄.tail (.push (c := 3) rfl)).tail (.take (c := 3) rfl rfl)
  have h₆ := (h₅.tail (.push (c := 3) rfl)).tail (.take (c := 3) rfl rfl)
  exact ⟨_, _, hb, h₆, rfl, rfl, ⟨_, rfl⟩, ((one_cpu_per_process hb h₆).2.2 3 1 true _ rfl rfl).2⟩

end Xv6.Nest
