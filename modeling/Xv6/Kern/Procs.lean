import Mathlib.Tactic
import Xv6.Kern.Foot

/-!
# The processes and their parents

* **The ghost value** (`Gh`) of a thread tells if its slot is a process, and what it knows of others:
  the child that its `kfork` makes, the slots that its `kexit` has gone through, the child or the
  zombie that its `kwait` has found.
* **The invariant** (`FamOk`), of the part of the process table that is about parents and children
  (`Family`). A `USED` slot is the child of one `kfork`. Any other process except
  `initproc` has a parent that is alive (`SLEEPING`, `RUNNABLE` or `RUNNING`); the parent is
  `initproc` or the process whose `kfork` made it, which is the older one. A zombie has no children.
* **The preconditions** (`procPre`): what holds where the code takes an action. The results about
  other parts of the state use them through `Sys.Reach.induct`.
-/

namespace Xv6.Kern

open Conc Prog

/-- What the state of a process tells of its life. -/
inductive Life where
  | unused
  | used
  | live
  | zombie
  deriving DecidableEq

def PState.life : PState → Life
  | .unused => .unused
  | .used => .used
  | .sleeping | .runnable | .running => .live
  | .zombie => .zombie

/-- The family of the processes: what the invariant reads of the process table. -/
structure Family where
  life : Nat → Life
  parent : Nat → Option Nat
  id : Nat → Nat
  maker : Nat → Nat
  pid : Nat → BitVec 32
  xstate : Nat → Int
  allocs : Nat

/-- The family in a state of the machine. -/
def St.family (s : St) : Family where
  life q := (s.proc q).state.life
  parent q := (s.proc q).parent
  id q := (s.proc q).id
  maker q := (s.proc q).maker
  pid q := (s.proc q).pid
  xstate q := (s.proc q).xstate
  allocs := s.allocs

/-- The life of process `q`. -/
def St.life (s : St) (q : Nat) : Life := (s.proc q).state.life

/-- The ghost value (module doc). -/
inductive Gh where
  /-- The slot is no process of this thread. -/
  | none
  | live
  /-- `kfork` makes `np`; its parent is set or not. -/
  | forking (np : Nat) (linked : Bool)
  /-- `kexit` has given away the children below `k`. -/
  | exiting (k : Nat)
  /-- `kwait` has found the child `q`. -/
  | child (q : Nat)
  /-- `kwait` has found the zombie `q`. -/
  | reaping (q : Nat) (pid : BitVec 32) (xstate : Int)

/-- The ghost value of a thread between two calls. -/
def ghost (_ : Tid) : Mode → Gh
  | .none => .none
  | .user | .holding _ => .live

/-- The invariant (module doc). -/
structure FamOk (F : Family) (γ : Tid → Gh) : Prop where
  live : ∀ t, γ t ≠ .none → F.life t = .live
  used : ∀ q, F.life q = .used → ∃ t l, γ t = .forking q l
  forking : ∀ t q l, γ t = .forking q l → F.life q = .used ∧
    F.parent q = (if l then some t else none) ∧ F.maker q = F.id t
  one : ∀ t u q l l', γ t = .forking q l → γ u = .forking q l' → t = u
  exiting : ∀ t k, γ t = .exiting k → t ≠ initproc ∧ ∀ q < k, F.parent q ≠ some t
  child : ∀ t q, γ t = .child q → F.parent q = some t
  reaping : ∀ t q pid xstate, γ t = .reaping q pid xstate → F.life q = .zombie ∧
    F.parent q = some t ∧ F.pid q = pid ∧ F.xstate q = xstate
  tree : ∀ q, q ≠ initproc → F.life q = .live ∨ F.life q = .zombie →
    ∃ p, F.parent q = some p ∧ F.life p = .live ∧ (p = initproc ∨ F.id p = F.maker q)
  init : F.life initproc = .live
  root : F.parent initproc = none
  unused : ∀ q, F.life q = .unused → F.parent q = none
  range : ∀ q, NPROC ≤ q → F.life q = .unused
  idLe : ∀ q, F.id q ≤ F.allocs
  idPos : ∀ q, F.life q ≠ .unused → F.id q ≠ 0
  idInj : ∀ q q', F.id q = F.id q' → F.id q ≠ 0 → q = q'
  older : ∀ q, F.id q ≠ 0 → F.maker q < F.id q

/-- The invariant of a state. -/
def ProcOk (s : St) (γ : Tid → Gh) : Prop := FamOk s.family γ

variable {s s' : St} {q t : Nat}

/-- A changed process that agrees on what the invariant reads. -/
theorem family_update {p : Proc} (hp : s'.proc = Function.update s.proc q p)
    (ha : s'.allocs = s.allocs) (h1 : p.state.life = s.life q) (h2 : p.parent = (s.proc q).parent)
    (h3 : p.id = (s.proc q).id) (h4 : p.maker = (s.proc q).maker) (h5 : p.pid = (s.proc q).pid)
    (h6 : p.xstate = (s.proc q).xstate) : s'.family = s.family := by
  have key : ∀ {α : Type} (f : Proc → α), f p = f (s.proc q) →
      (fun r => f (s'.proc r)) = fun r => f (s.proc r) := by
    intro α f hf
    funext r
    rw [hp]
    by_cases hr : r = q
    · subst hr
      rw [Function.update_self, hf]
    · rw [Function.update_of_ne hr]
  unfold St.family
  rw [key (fun p => p.state.life) h1, key Proc.parent h2, key Proc.id h3, key Proc.maker h4,
    key Proc.pid h5, key Proc.xstate h6, ha]

theorem family_of_proc (hp : s'.proc = s.proc) (ha : s'.allocs = s.allocs) : s'.family = s.family := by
  unfold St.family
  rw [hp, ha]

theorem family_wake {p : Proc} (hp : s'.proc = Function.update s.proc q p.wake)
    (ha : s'.allocs = s.allocs) (he : p = { s.proc q with killed := p.killed }) :
    s'.family = s.family := by
  have hw : p.wake.state.life = p.state.life := by
    unfold Proc.wake
    split
    · rename_i h
      simp [h, PState.life]
    · rfl
  have hk : ∀ {α : Type} (f : Proc → α), (∀ st, f { p with state := st } = f p) → f p.wake = f p := by
    intro α f hf
    unfold Proc.wake
    split
    · exact hf _
    · rfl
  refine family_update hp ha (hw.trans ?_) ((hk Proc.parent fun _ => rfl).trans ?_)
    ((hk Proc.id fun _ => rfl).trans ?_) ((hk Proc.maker fun _ => rfl).trans ?_)
    ((hk Proc.pid fun _ => rfl).trans ?_) ((hk Proc.xstate fun _ => rfl).trans ?_)
  · rw [he]
    rfl
  all_goals rw [he]

/-! ## The logic -/

/-- What holds where thread `t` takes an action. -/
def procPre : ∀ ⦃β : Type⦄, Tid → Act β → St → Prop
  | _, t, .setKilled p, s | _, t, .setSleeping p _, s | _, t, .clearChan p, s | _, t, .schedOut p, s =>
    p = t ∧ s.life t = .live
  | _, t, .schedIn p, _ | _, t, .schedExit p, _ => p = t
  | _, t, .setRunnable p, s =>
    s.life t = .live ∧ (p = t ∨ (s.life p = .used ∧ (s.proc p).parent = some t))
  | _, t, .setZombie p _, s =>
    p = t ∧ s.life t = .live ∧ t ≠ initproc ∧ ∀ q, (s.proc q).parent ≠ some t
  | _, t, .alloc _ p, s => p = t ∧ s.life t = .live
  | _, _, .freeproc q none, s => s.life q = .used
  | _, t, .freeproc q (some (p, pid, xstate)), s => p = t ∧ s.life t = .live ∧ s.life q = .zombie ∧
    (s.proc q).parent = some t ∧ (s.proc q).pid = pid ∧ ∀ x, xstate = some x → x = (s.proc q).xstate
  | _, t, .setParent q p, s => p = t ∧ s.life t = .live ∧ s.life q = .used
  | _, t, .put _ p _, _ | _, t, .writeBegin _ p _, _ | _, t, .waking p _, _
  | _, t, .slept p _, _ => p = t
  | _, _, _, _ => True

/-- The logic of the processes and their parents. -/
def procLogic : Logic Act St Panic Gh where
  exec := exec
  inv := ProcOk
  pre := procPre

/-- The actions of process `t` that change nothing the invariant reads. -/
def Quiet (t : Nat) : ∀ ⦃β : Type⦄, Act β → Prop
  | _, .setRunnable p | _, .setSleeping p _ | _, .clearChan p | _, .setKilled p | _, .schedOut p
  | _, .schedIn p | _, .put _ p _ | _, .writeBegin _ p _ | _, .waking p _ | _, .slept p _ => p = t
  | _, .setZombie _ _ | _, .alloc _ _ | _, .freeproc _ _ | _, .setParent _ _ | _, .reparent _ _
  | _, .schedExit _ => False
  | _, _ => True

theorem wake_family {chan : Chan} : ((Act.wake q chan).effect t s).family = s.family := by
  show (if (s.proc q).chan = some chan then s.setProc q Proc.wake else s).family = _
  split
  · exact family_wake rfl rfl rfl
  · rfl

theorem kill_family {pid : BitVec 32} : ((Act.kill q pid).effect t s).family = s.family := by
  show (if (s.proc q).pid = pid then _ else s).family = _
  split
  · exact family_wake (p := { s.proc q with killed := true }) rfl rfl rfl
  · rfl

/-- A quiet action changes nothing that the invariant reads. -/
theorem Quiet.family {β : Type} {a : Act β} (h : Quiet t a)
    (hl : s.life t = .live) : (a.effect t s).family = s.family := by
  cases a with
  | setRunnable p | setSleeping p chan | schedIn p =>
    obtain rfl : p = t := h
    exact family_update rfl rfl hl.symm rfl rfl rfl rfl rfl
  | clearChan p | setContext p | setKilled p => exact family_update rfl rfl rfl rfl rfl rfl rfl rfl
  | wake q chan => exact wake_family
  | kill q pid => exact kill_family
  | setZombie | alloc | freeproc | setParent | reparent | schedExit => exact h.elim
  | _ => exact family_of_proc rfl rfl

theorem answers_answer {β : Type} {a : Act β} : answers t a (a.answer t s) := by
  cases a with
  | myproc => rfl
  | _ => trivial

theorem Quiet.pre {β : Type} {a : Act β} (h : Quiet t a) (hl : s.life t = .live) : procPre t a s := by
  cases a with
  | setKilled p | setSleeping p | clearChan p | schedOut p => exact ⟨h, hl⟩
  | setRunnable p => exact ⟨hl, .inl h⟩
  | schedIn p | put | writeBegin | waking | slept => exact h
  | setZombie | alloc | freeproc | setParent | reparent | schedExit => exact h.elim
  | _ => trivial

/-- Quiet actions keep the invariant. -/
theorem Quiet.frame {g : Gh} (hg : g ≠ .none) : Frame procLogic t g (Quiet t) (answers t) := by
  intro β a s γ h hi hγ
  have hl := hi.live t (hγ ▸ hg)
  refine ⟨h.pre hl, fun b s' he => ?_⟩
  obtain ⟨-, rfl, rfl⟩ := exec_ok he
  exact ⟨answers_answer, by show FamOk _ γ; rw [h.family hl]; exact hi⟩

/-! ## The functions that leave the table alone -/

section

variable {t : Nat} {g : Gh}

variable {chan : Chan} {pi fuel : Nat} {n : Int}

theorem quiet_of_wakeAct ⦃β : Type⦄ (a : Act β) (h : WakeAct t chan a) : Quiet t a := by
  cases h <;> trivial

theorem quiet_of_sleepAct {lk : Lk} ⦃β : Type⦄ (a : Act β) (h : SleepAct t chan lk a) : Quiet t a := by
  cases h <;> trivial

theorem quiet_of_killedAct ⦃β : Type⦄ (a : Act β) (h : KilledAct t a) : Quiet t a := by
  cases h <;> trivial

theorem yield_quiet : Code.yield.Only (Quiet t) (answers t) := by
  refine Only.step trivial ?_
  rintro p rfl
  refine Only.step trivial fun _ _ => Only.step rfl fun _ _ => Only.bind ?_ fun _ => ?_
  · exact Only.step rfl fun _ _ => only_call.mpr rfl
  · exact only_call.mpr trivial

theorem setkilled_quiet : Code.setkilled.Only (Quiet t) (answers t) := by
  refine Only.step trivial ?_
  rintro p rfl
  exact Only.step trivial fun _ _ => Only.step rfl fun _ _ => only_call.mpr trivial

theorem killLoop_quiet {pid : BitVec 32} {l : List Nat} : (Code.killLoop pid l).Only (Quiet t) (answers t) := by
  induction l with
  | nil => trivial
  | cons q l ih =>
    refine Only.step trivial fun _ _ => Only.step trivial fun found _ => Only.step trivial fun _ _ => ?_
    cases found
    · exact ih
    · trivial

theorem wakeup_quiet : (Code.wakeup chan).Only (Quiet t) (answers t) :=
  wakeup_only quiet_of_wakeAct

theorem sleep_quiet {lk : Lk} : (Code.sleep chan lk).Only (Quiet t) (answers t) :=
  sleep_only quiet_of_sleepAct

theorem killed_quiet : (Code.killed t).Only (Quiet t) (answers t) := killed_only quiet_of_killedAct

theorem pipeclose_quiet {writable : Bool} : (Code.pipeclose pi writable).Only (Quiet t) (answers t) := by
  refine Only.step trivial fun _ _ => Only.step trivial fun _ _ => Only.bind wakeup_quiet fun _ => ?_
  exact only_call.mpr trivial

theorem writeStop_quiet : (Code.writeStop pi t).Only (Quiet t) (answers t) := by
  refine Only.step trivial fun isOpen _ => ?_
  cases isOpen
  · trivial
  · exact killed_quiet

theorem writeLoop_quiet {i : Nat} {src : Nat → Option UInt8} :
    (Code.writeLoop pi t src n fuel i).Only (Quiet t) (answers t) := by
  induction fuel generalizing i with
  | zero => exact Only.step trivial fun _ _ => trivial
  | succ fuel ih =>
    unfold Code.writeLoop
    split
    · refine Only.bind writeStop_quiet fun stop => ?_
      cases stop
      · refine Only.step trivial fun full _ => ?_
        cases full
        · simp only [Bool.false_eq_true, if_false]
          split
          · trivial
          · exact Only.step rfl fun _ _ => ih
        · exact Only.bind wakeup_quiet fun _ => Only.bind sleep_quiet fun _ => ih
      · exact Only.step trivial fun _ _ => trivial
    · trivial

theorem pipewrite_quiet {src : Nat → Option UInt8} : (Code.pipewrite pi src n fuel).Only (Quiet t) (answers t) := by
  refine Only.step trivial ?_
  rintro p rfl
  refine Only.step trivial fun _ _ => Only.step rfl fun _ _ => Only.bind writeLoop_quiet ?_
  rintro (_ | i)
  · trivial
  · exact Only.bind wakeup_quiet fun _ => Only.step trivial fun _ _ => trivial

theorem readWait_quiet : (Code.readWait pi t fuel).Only (Quiet t) (answers t) := by
  induction fuel with
  | zero => exact Only.step trivial fun _ _ => trivial
  | succ fuel ih =>
    refine Only.bind (Only.step trivial fun isEmpty _ => ?_) fun blocked => ?_
    · cases isEmpty
      · trivial
      · exact only_call.mpr trivial
    · cases blocked
      · trivial
      · refine Only.bind killed_quiet fun k => ?_
        cases k
        · exact Only.bind sleep_quiet fun _ => ih
        · exact Only.step trivial fun _ _ => trivial

theorem readLoop_quiet {m i : Nat} {dst : Nat → Bool} : (Code.readLoop pi dst m i).Only (Quiet t) (answers t) := by
  induction m generalizing i with
  | zero => trivial
  | succ m ih =>
    refine Only.step trivial fun isEmpty _ => ?_
    cases isEmpty
    · refine Only.step trivial fun _ _ => ?_
      split
      · exact ih
      · trivial
    · trivial

theorem piperead_quiet {dst : Nat → Bool} : (Code.piperead pi dst n fuel).Only (Quiet t) (answers t) := by
  refine Only.step trivial ?_
  rintro p rfl
  refine Only.step trivial fun _ _ => Only.bind readWait_quiet fun ok => ?_
  cases ok
  · trivial
  · refine Only.bind readLoop_quiet fun i => Only.step trivial fun _ _ => ?_
    exact Only.bind wakeup_quiet fun _ => Only.step trivial fun _ _ => trivial

end

end Xv6.Kern
