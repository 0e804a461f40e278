import Xv6.Kern.Kill

/-!
# The pids of the processes

`allocpid` counts up and never looks at the pids in use. As long as its counter is a positive `int`, the
pids of the processes are positive and different (`pids_distinct`). The counter is not reset: `kfork`
takes a pid even where it fails, so that `initproc` alone can take it past `2^31 - 1`, to a process with a
negative pid, and past `2^32`, to a process with the pid of `initproc` (`pids_wrap`).
-/

namespace Xv6.Kern

open Conc Prog
open Function (update update_eq_self update_idem update_of_ne update_self)

/-- Live processes have different positive pids. -/
structure St.PidsOk (s : St) : Prop where
  pos : ∀ q, (s.proc q).state ≠ .unused → 0 < (s.proc q).pid.toInt
  inj : ∀ q r, (s.proc q).state ≠ .unused → (s.proc r).state ≠ .unused → (s.proc q).pid = (s.proc r).pid → q = r

/-- Where a slot is taken, the counter of `allocpid` is a positive `int`. -/
def pidLeft : Cond := fun _ _ a s =>
  match a with
  | .alloc q _ => decide ((s.proc q).state = .unused → 0 < s.nextpid.toInt)
  | _ => true

/-- The invariant: the pids in use are below the counter. -/
structure PidInv (s : St) : Prop where
  next : s.nextpid.toNat ≤ 2 ^ 31
  used : ∀ q, (s.proc q).state ≠ .unused → 0 < (s.proc q).pid.toNat ∧ (s.proc q).pid.toNat < s.nextpid.toNat
  inj : ∀ q r, (s.proc q).state ≠ .unused → (s.proc r).state ≠ .unused → (s.proc q).pid = (s.proc r).pid → q = r

section

variable {s s' : St} {t q : Nat}

theorem PidInv.pidsOk (h : PidInv s) : s.PidsOk := by
  refine ⟨fun q hq => ?_, h.inj⟩
  obtain ⟨h1, h2⟩ := h.used q hq
  have h3 := h.next
  rw [BitVec.toInt_eq_toNat_of_lt (by omega)]
  omega

/-- A step that makes no process and changes no pid of one. -/
theorem PidInv.keep (h : PidInv s) (hn : s'.nextpid = s.nextpid)
    (hp : ∀ q, (s'.proc q).state ≠ .unused → (s.proc q).state ≠ .unused ∧ (s'.proc q).pid = (s.proc q).pid) :
    PidInv s' := by
  refine ⟨hn ▸ h.next, fun q hq => ?_, fun q r hq hr he => ?_⟩
  · rw [hn, (hp q hq).2]
    exact h.used q (hp q hq).1
  · rw [(hp q hq).2, (hp r hr).2] at he
    exact h.inj q r (hp q hq).1 (hp r hr).1 he

/-- `PidInv.keep` for a step that changes process `q` to `p`. -/
theorem PidInv.set {p : Proc} (h : PidInv s) (hn : s'.nextpid = s.nextpid) (hs : s'.proc = update s.proc q p)
    (hp : p.state ≠ .unused → (s.proc q).state ≠ .unused ∧ p.pid = (s.proc q).pid) : PidInv s' := by
  refine h.keep hn fun r => ?_
  rw [hs]
  by_cases hr : r = q
  · subst hr
    simpa using hp
  · rw [update_of_ne hr]
    exact fun hu => ⟨hu, rfl⟩

/-- A positive counter is not at its end. -/
theorem pid_next {n : BitVec 32} (h : 0 < n.toInt) :
    0 < n.toNat ∧ n.toNat < 2 ^ 31 ∧ (n + 1).toNat = n.toNat + 1 := by
  have hlt : n.toNat < 2 ^ 31 := by
    by_contra hge
    rw [BitVec.toInt_eq_toNat_cond] at h
    have := n.isLt
    split at h <;> omega
  refine ⟨?_, hlt, ?_⟩
  · rw [BitVec.toInt_eq_toNat_of_lt (by omega)] at h
    omega
  · rw [BitVec.toNat_add]
    exact Nat.mod_eq_of_lt (by show n.toNat + 1 < 2 ^ 32; omega)

/-- A process `p` with the pid of the counter is new: the pids in use are below it. -/
theorem PidInv.add {p : Proc} (h : PidInv s) (hpos : 0 < s.nextpid.toInt) (hn : s'.nextpid = s.nextpid + 1)
    (hs : s'.proc = update s.proc q p) (hp : p.pid = s.nextpid) : PidInv s' := by
  obtain ⟨h0, hlt, hsucc⟩ := pid_next hpos
  have hq : s'.proc q = p := by rw [hs, update_self]
  have hold : ∀ r, r ≠ q → s'.proc r = s.proc r := fun r hr => by rw [hs, update_of_ne hr]
  have hne : ∀ r, r ≠ q → (s'.proc r).state ≠ .unused → (s'.proc r).pid ≠ s.nextpid := by
    intro r hr hu he
    rw [hold r hr] at hu he
    have := (h.used r hu).2
    rw [he] at this
    omega
  refine ⟨by rw [hn]; omega, fun r hu => ?_, fun r r' hu hu' he => ?_⟩
  · rw [hn, hsucc]
    by_cases hr : r = q
    · rw [hr, hq, hp]
      omega
    · rw [hold r hr] at hu ⊢
      have := h.used r hu
      omega
  · by_cases hr : r = q
    · by_cases hr' : r' = q
      · rw [hr, hr']
      · rw [hr, hq, hp] at he
        exact (hne r' hr' hu' he.symm).elim
    · by_cases hr' : r' = q
      · rw [hr', hq, hp] at he
        exact (hne r hr hu he).elim
      · rw [hold r hr, hold r' hr'] at he
        rw [hold r hr] at hu
        rw [hold r' hr'] at hu'
        exact h.inj r r' hu hu' he

theorem PidInv.alloc (h : PidInv s) (hok : pidLeft t (.alloc q t) s = true) :
    PidInv ((Act.alloc q t).effect t s) := by
  by_cases hu : (s.proc q).state = .unused
  · have he : (Act.alloc q t).effect t s = _ := if_pos hu
    rw [he]
    exact h.add (q := q) (by simpa [pidLeft, hu] using hok) rfl rfl rfl
  · have he : (Act.alloc q t).effect t s = s := if_neg hu
    rwa [he]

/-- Every action keeps the invariant, if a new process finds a positive counter. -/
theorem pidInv_step {β : Type} {a : Act β} (h : PidInv s) (hp : procPre t a s)
    (hok : pidLeft t a s = true) (hc : a.check t s = some (.ok ())) : PidInv (a.effect t s) := by
  cases a with
  | alloc q p =>
    obtain ⟨rfl, -⟩ := hp
    exact h.alloc hok
  | freeproc q ret =>
    rcases ret with _ | ⟨p, pid, x⟩
    · exact h.set (q := q) rfl rfl fun hu => (hu rfl).elim
    · exact h.set (q := q) rfl rfl fun hu => (hu rfl).elim
  | setKilled p =>
    obtain ⟨rfl, hl⟩ := hp
    exact h.set (q := p) rfl rfl fun _ => ⟨St.used_of_life (.inl hl), rfl⟩
  | setZombie p status =>
    obtain ⟨rfl, hl, -⟩ := hp
    exact h.set (q := p) rfl rfl fun _ => ⟨St.used_of_life (.inl hl), rfl⟩
  | setRunnable p =>
    refine h.set (q := p) rfl rfl fun _ => ⟨?_, rfl⟩
    rcases hp with ⟨hl, rfl | ⟨hl', -⟩⟩
    · exact St.used_of_life (.inl hl)
    · exact St.used_of_life (.inr hl')
  | setSleeping p chan =>
    obtain ⟨rfl, hl⟩ := hp
    exact h.set (q := p) rfl rfl fun _ => ⟨St.used_of_life (.inl hl), rfl⟩
  | schedIn p =>
    have hr := (check_schedIn hc).1
    exact h.set (q := p) rfl rfl fun _ => ⟨by rw [hr]; simp, rfl⟩
  | wake q chan =>
    show PidInv (if (s.proc q).chan = some chan then s.setProc q Proc.wake else s)
    obtain ⟨w1, -, w3, -⟩ := wake_same (s.proc q)
    split
    · exact h.set (q := q) rfl rfl fun hu => ⟨fun hu' => hu (w1.mpr hu'), w3⟩
    · exact h
  | kill q pid =>
    show PidInv (if (s.proc q).pid = pid then _ else s)
    obtain ⟨w1, -, w3, -⟩ := wake_same { s.proc q with killed := true }
    split
    · exact h.set (q := q) rfl rfl fun hu => ⟨fun hu' => hu (w1.mpr hu'), w3⟩
    · exact h
  | reparent q p =>
    show PidInv (if (s.proc q).parent = some p then _ else s)
    split
    · exact h.set (q := q) rfl rfl fun hu => ⟨hu, rfl⟩
    · exact h
  | clearChan q | setContext q | setParent q p =>
    exact h.set (q := q) rfl rfl fun hu => ⟨hu, rfl⟩
  | _ => exact h.keep rfl fun _ hu => ⟨hu, rfl⟩

theorem pidInv_boot (data : Nat → Nat → UInt8) : PidInv (boot data).st := by
  have hp : ∀ q, (boot data).st.proc q =
      if q = initproc then { state := .runnable, pid := 1, fresh := true, id := 1 } else {} := fun _ => rfl
  have hone : ∀ q, ((boot data).st.proc q).state ≠ .unused → q = initproc := by
    intro q hq
    by_contra h
    rw [hp, if_neg h] at hq
    exact hq rfl
  refine ⟨?_, fun q hq => ?_, fun q r hq hr _ => (hone q hq).trans (hone r hr).symm⟩
  · show (2 : BitVec 32).toNat ≤ 2 ^ 31
    decide
  · rw [hp, if_pos (hone q hq)]
    show 0 < (1 : BitVec 32).toNat ∧ (1 : BitVec 32).toNat < (2 : BitVec 32).toNat
    decide

end

/-- **Where every new process finds a positive counter, the pids of the processes are positive and
different**, in every state of every run. -/
theorem pids_distinct {data : Nat → Nat → UInt8} {c : Conf Act St Mode}
    (h : (sysIf pidLeft).Reach (boot data) c) : c.st.PidsOk := by
  refine PidInv.pidsOk ?_
  refine Sys.Reach.induct (Y := sysIf pidLeft) (Z := sys) (I := PidInv) (L := procLogic) rfl procCalls
    (procOk_init data) execIf_exec (fun _ _ _ _ h => h) (pidInv_boot data) ?_ h
  intro β t a s γ b s' _ hp hi he
  obtain ⟨hc, -, rfl⟩ := exec_ok (execIf_exec _ _ _ _ he)
  exact pidInv_step hi hp (execIf_ok he) hc

theorem pids_distinct_forkExitWait : ∃ c, (sysIf pidLeft).Reach (boot fun _ _ => 0) c ∧ isWaited c = true ∧
    c.st.PidsOk := by
  obtain ⟨c, hr, ht⟩ := Sys.exists_of_play (Y := sysIf pidLeft) (c := boot fun _ _ => 0) (l := forkExitWait)
    (f := isWaited) menu_calls (by decide +kernel)
  exact ⟨c, hr, ht, pids_distinct hr⟩

/-! ## The counter wraps -/

/-- `initproc` holds the lock `l` or none, and nobody holds another lock. -/
def OnlyLock (l : Option Lk) (s : St) : Prop := ∀ x, s.lock x = if some x = l then some 0 else none

/-- `initproc` runs, slot 1 is free, and the counter is `n`. -/
structure Alone (n : BitVec 32) (s : St) : Prop where
  init : (s.proc 0).state = .running
  pid : (s.proc 0).pid = 1
  free : (s.proc 1).state = .unused
  next : s.nextpid = n

section

variable {n : BitVec 32} {s s' : St} {l : Lk}

theorem OnlyLock.acquire (h : OnlyLock none s) (l : Lk) :
    (Act.acquire l).check 0 s = some (.ok ()) ∧ OnlyLock (some l) ((Act.acquire l).effect 0 s) := by
  refine ⟨acquire_check (by simp [h l]), fun x => ?_⟩
  show update s.lock l (some 0) x = _
  by_cases hx : x = l
  · simp [hx]
  · rw [update_of_ne hx, h x]
    simp [hx]

theorem OnlyLock.release (h : OnlyLock (some l) s) :
    (Act.release l).check 0 s = some (.ok ()) ∧ OnlyLock none ((Act.release l).effect 0 s) := by
  refine ⟨release_check (by simp [h l]), fun x => ?_⟩
  show update s.lock l none x = _
  by_cases hx : x = l
  · simp [hx]
  · rw [update_of_ne hx, h x]
    simp [hx]

theorem OnlyLock.act {o : Option Lk} {β : Type} {a : Act β} (h : OnlyLock o s) (ha : (a.effect 0 s).lock = s.lock) :
    OnlyLock o (a.effect 0 s) := fun x => (congrFun ha x).trans (h x)

/-- `allocproc` in `initproc` goes past slot 0 and takes slot 1. -/
theorem Alone.allocproc (h : Alone n s) (hl : OnlyLock none s) (trapframe pagetable : Bool) :
    ∃ s₁, Alone n s₁ ∧ OnlyLock (some (.proc 1)) s₁ ∧
    (Code.allocproc 0 trapframe pagetable (List.range NPROC)).run exec 0 s =
      (if trapframe && pagetable then do
        call (.setContext 1)
        pure (some 1)
      else do
        call (.freeproc 1 none)
        Code.release (.proc 1)
        pure none : Prog Act (Option Nat)).run exec 0 ((Act.alloc 1 0).effect 0 s₁) := by
  have hr : List.range NPROC = 0 :: 1 :: (List.range 62).map (· + 2) := by decide
  have h₁ : Alone n ((Act.acquire (.proc 0)).effect 0 s) := { h with }
  obtain ⟨c₁, l₁⟩ := hl.acquire (.proc 0)
  have e₂ : (Act.alloc 0 0).effect 0 ((Act.acquire (.proc 0)).effect 0 s) = (Act.acquire (.proc 0)).effect 0 s :=
    if_neg (by simp [h₁.init])
  have a₂ : (Act.alloc 0 0).answer 0 ((Act.acquire (.proc 0)).effect 0 s) = false := by simp [Act.answer, h₁.init]
  obtain ⟨c₃, l₃⟩ := l₁.release
  obtain ⟨c₄, l₄⟩ := l₃.acquire (.proc 1)
  have h₄ : Alone n ((Act.acquire (.proc 1)).effect 0
      ((Act.release (.proc 0)).effect 0 ((Act.acquire (.proc 0)).effect 0 s))) := { h with }
  refine ⟨_, h₄, l₄, ?_⟩
  rw [hr, Code.allocproc, Code.acquire, run_call c₁, run_call rfl, e₂, a₂, if_neg (by simp), Code.release, run_call c₃,
    Code.allocproc, Code.acquire, run_call c₄, run_call rfl]
  exact congrArg (fun p => Prog.run exec 0 p _) (if_pos (beq_iff_eq.mpr h₄.free))

/-- What `kfork` in `initproc` does after `allocproc`. -/
def forkTail (copy : Bool) : Option Nat → Prog Act Unit
  | none => pure ()
  | some np =>
    if copy then do
      Code.release (.proc np)
      Code.acquire .wait
      call (.setParent np 0)
      Code.release .wait
      Code.acquire (.proc np)
      call (.setRunnable np)
      Code.release (.proc np)
    else do
      call (.freeproc np none)
      Code.release (.proc np)

theorem fork_run {trapframe pagetable copy : Bool} {r : Option Nat} {s₁ : St}
    (h : (Code.allocproc 0 trapframe pagetable (List.range NPROC)).run exec 0 s = some (.ok (r, s₁)))
    (hk : (forkTail copy r).run exec 0 s₁ = some (.ok ((), s'))) :
    (Call.fork trapframe pagetable copy).prog.run exec 0 s = some (.ok (.user, s')) := by
  show (Code.kfork trapframe pagetable copy >>= fun _ => (pure .user : Prog Act Mode)).run exec 0 s = _
  have hf : (Code.kfork trapframe pagetable copy).run exec 0 s = some (.ok ((), s')) := by
    unfold Code.kfork
    rw [run_call rfl]
    show (Code.allocproc 0 trapframe pagetable (List.range NPROC) >>= _).run exec 0 s = _
    rw [run_bind, h]
    cases r <;> exact hk
  rw [run_bind, hf]
  rfl

/-- `kfork` takes a pid where `allocproc` fails: the counter goes on. -/
theorem Alone.forkFails (h : Alone n s) (hl : OnlyLock none s) : ∃ s', Alone (n + 1) s' ∧ OnlyLock none s' ∧
    (Call.fork false true true).prog.run exec 0 s = some (.ok (.user, s')) := by
  obtain ⟨s₁, h₁, l₁, hr⟩ := h.allocproc hl false true
  have he : (Act.alloc 1 0).effect 0 s₁ = _ := if_pos h₁.free
  have l₂ : OnlyLock (some (.proc 1)) ((Act.alloc 1 0).effect 0 s₁) := l₁.act (by rw [he]; rfl)
  obtain ⟨c, l₃⟩ := (l₂.act (a := .freeproc 1 none) rfl).release
  refine ⟨_, ?_, l₃, fork_run (r := none) (hr.trans ?_) rfl⟩
  · rw [he]
    exact ⟨h₁.init, h₁.pid, rfl, congrArg (· + 1) h₁.next⟩
  · rw [if_neg (by simp), run_call rfl, Code.release, run_call c]
    rfl

/-- `kfork` makes a process with the pid of the counter. -/
theorem Alone.forks (h : Alone n s) (hl : OnlyLock none s) : ∃ s', (s'.proc 0).state = .running ∧ (s'.proc 0).pid = 1 ∧
    (s'.proc 1).state = .runnable ∧ (s'.proc 1).pid = n ∧
    (Call.fork true true true).prog.run exec 0 s = some (.ok (.user, s')) := by
  obtain ⟨s₁, h₁, l₁, hr⟩ := h.allocproc hl true true
  have he : (Act.alloc 1 0).effect 0 s₁ = _ := if_pos h₁.free
  have l₂ : OnlyLock (some (.proc 1)) ((Act.alloc 1 0).effect 0 s₁) := l₁.act (by rw [he]; rfl)
  obtain ⟨c₃, l₃⟩ := (l₂.act (a := .setContext 1) rfl).release
  obtain ⟨c₄, l₄⟩ := l₃.acquire .wait
  obtain ⟨c₆, l₆⟩ := (l₄.act (a := .setParent 1 0) rfl).release
  obtain ⟨c₇, l₇⟩ := l₆.acquire (.proc 1)
  obtain ⟨c₉, -⟩ := (l₇.act (a := .setRunnable 1) rfl).release
  have hrun := @fork_run _ _ true true true (some 1) _ (hr.trans rfl) (by
    rw [forkTail, if_pos rfl, Code.release, run_call c₃, Code.acquire, run_call c₄, run_call rfl, Code.release,
      run_call c₆, Code.acquire, run_call c₇, run_call rfl]
    exact run_call (f := ret) c₉)
  refine ⟨_, ?_, ?_, ?_, ?_, hrun⟩
  all_goals rw [he]
  · exact h₁.init
  · exact h₁.pid
  · rfl
  · exact h₁.next

end

/-- `initproc` can take the counter to any value. -/
theorem reach_counter (k : Nat) :
    ∃ s, sys.Reach (boot fun _ _ => 0) ⟨s, update (fun _ => .idle .none) 0 (.idle .user)⟩ ∧
    Alone (BitVec.ofNat 32 (2 + k)) s ∧ OnlyLock none s := by
  induction k with
  | zero =>
    have h0 : sys.Reach (boot fun _ _ => 0)
        ⟨(boot fun _ _ => 0).st, update (fun _ => .idle .none) 0 (.idle .none)⟩ := by
      rw [update_eq_self]
      exact .init
    have hs : (do Code.forkret 0; pure .user : Prog Act Mode).run sys.exec 0 (boot fun _ _ => 0).st = _ := rfl
    refine ⟨_, h0.run ⟨by decide, .start rfl⟩ hs, ⟨rfl, rfl, rfl, rfl⟩, fun x => ?_⟩
    show update (update (fun _ => none) (.proc 0) (some 0)) (.proc 0) none x = none
    rw [update_idem]
    exact congrFun (update_eq_self (Lk.proc 0) fun _ => none) x
  | succ k ih =>
    obtain ⟨s, hr, ha, hl⟩ := ih
    obtain ⟨s', ha', hl', hrun⟩ := ha.forkFails hl
    refine ⟨s', hr.run ⟨by decide, .user (.fork false true true)⟩ hrun, ?_, hl'⟩
    rw [← Nat.add_assoc, BitVec.ofNat_add]
    exact ha'

/-- **A process can have a negative pid, and the pid of another process.** -/
theorem pids_wrap :
    (∃ c, sys.Reach (boot fun _ _ => 0) c ∧ (c.st.proc 1).state = .runnable ∧ (c.st.proc 1).pid.toInt < 0) ∧
    ∃ c, sys.Reach (boot fun _ _ => 0) c ∧ (c.st.proc 0).state = .running ∧ (c.st.proc 1).state = .runnable ∧
      (c.st.proc 0).pid = (c.st.proc 1).pid := by
  have hfork : ∀ k, ∃ c, sys.Reach (boot fun _ _ => 0) c ∧ (c.st.proc 0).state = .running ∧ (c.st.proc 0).pid = 1 ∧
      (c.st.proc 1).state = .runnable ∧ (c.st.proc 1).pid = BitVec.ofNat 32 (2 + k) := by
    intro k
    obtain ⟨s, hr, ha, hl⟩ := reach_counter k
    obtain ⟨s', h1, h2, h3, h4, hrun⟩ := ha.forks hl
    exact ⟨_, hr.run ⟨by decide, .user (.fork true true true)⟩ hrun, h1, h2, h3, h4⟩
  constructor
  · obtain ⟨c, hr, -, -, h3, h4⟩ := hfork (2 ^ 31 - 2)
    exact ⟨c, hr, h3, by rw [h4]; decide⟩
  · obtain ⟨c, hr, h1, h2, h3, h4⟩ := hfork (2 ^ 32 - 1)
    refine ⟨c, hr, h1, h3, ?_⟩
    rw [h2, h4]
    decide

end Xv6.Kern
