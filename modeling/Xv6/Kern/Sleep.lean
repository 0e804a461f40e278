import Mathlib.Tactic
import Xv6.Kern.Foot

/-!
# Sleepers, wakers and the pipes they wait for

* **The ghost value** (`Gw`) of a thread: the lock of a condition that it holds, and for a pipe's
  lock also the pipe's value and the wakeups that are due (`Hold`); where it is in `sleep` or `wakeup`
  (`Ph`); if it has stored bytes that no wakeup has announced (`dirty`); its call of `pipewrite`.
* **The invariant** (`SleepOk`). Each thread's ghost value is right (`Gw.Ok`). A thread waits
  (`Gw.Waits`) on a channel from the `release(lk)` in `sleep` until it is made `RUNNABLE`: no wakeup that
  got the lock after it has ended. Nobody waits that a running `wakeup` of the channel has passed. A pipe's
  readers wait only while it is empty and its write end open, or the holder of its lock owes them
  a wakeup; and so for the writers.
* The part about wakeups that are due holds only in runs whose condition implies `killsQuiet`
  (`Kills`): a writer that is killed after it has stored bytes returns without a `wakeup`.
-/

namespace Xv6.Kern

open Conc Prog
open Function (update update_apply update_eq_self update_of_ne update_self)

/-! ## Conditions on runs -/

/-- No process is killed after it has stored bytes in `pipewrite` and before the `wakeup`, nor between its
test of `killed` and the byte that it stores next. -/
def killsQuiet : Cond := fun _ _ a s =>
  match a with
  | .kill q pid => !((s.proc q).pid == pid && s.dirty q)
  | .put _ p _ => !(s.proc p).killed
  | _ => true

/-- Every `copyout` of `piperead` succeeds. -/
def copiesOk : Cond := fun _ _ a _ =>
  match a with
  | .get _ ok => ok
  | _ => true

/-- The condition implies `killsQuiet`. -/
def Kills (ok : Cond) : Prop := ∀ ⦃β : Type⦄ t (a : Act β) s, ok t a s = true → killsQuiet t a s = true

/-- The condition implies `copiesOk`. -/
def Copies (ok : Cond) : Prop := ∀ ⦃β : Type⦄ t (a : Act β) s, ok t a s = true → copiesOk t a s = true

/-! ## The ghost value -/

/-- What a thread holds (module doc). -/
inductive Hold where
  | none
  | lock (l : Lk)
  /-- The lock of pipe `pi`, whose value is `v`; a wakeup on `&pi->nread` (`r`) or on `&pi->nwrite` (`w`)
  is due. -/
  | pipe (pi : Nat) (v : Pipe) (r w : Bool)

def Hold.lk : Hold → Option Lk
  | none => .none
  | lock l => some l
  | pipe pi _ _ _ => some (.pipe pi)

/-- A wakeup on the channel is due. -/
def Hold.owes : Hold → Chan → Bool
  | pipe pi _ r _, .nread pi' => pi == pi' && r
  | pipe pi _ _ w, .nwrite pi' => pi == pi' && w
  | _, _ => false

/-- Where a thread is in `sleep` or `wakeup`. -/
inductive Ph where
  | run
  /-- In `sleep`, with `p->lock` and `lk`. -/
  | ready
  /-- In `sleep`, with `p->lock` only; the state is not `SLEEPING` yet. -/
  | between (ch : Chan)
  /-- In `sleep`, until the scheduler switches to it. -/
  | asleep (ch : Chan)
  /-- In `sleep`, before `p->chan = 0`. -/
  | woken
  /-- In `wakeup`, the slots below `k` are done; `turn`: it holds the lock of slot `k`. -/
  | waking (ch : Chan) (k : Nat) (turn : Bool)

/-- The ghost value (module doc). -/
structure Gw where
  hold : Hold := .none
  ph : Ph := .run
  dirty : Bool := false
  /-- The pipe and the source of a call of `pipewrite`, and how many bytes it has stored. -/
  call : Option (Nat × (Nat → Option UInt8) × Nat) := none

namespace Gw

/-- The thread waits on the channel. -/
def Waits (g : Gw) (s : St) (t : Tid) (ch : Chan) : Prop :=
  g.ph = .between ch ∨ g.ph = .asleep ch ∧ (s.proc t).state = .sleeping

/-- The locks that the ghost value tells of. -/
def Has (g : Gw) (t : Tid) (l : Lk) : Prop :=
  g.hold.lk = some l ∨ l = .proc t ∧ (g.ph = .ready ∨ ∃ ch, g.ph = .between ch) ∨
    ∃ ch k, g.ph = .waking ch k true ∧ l = .proc k

/-- What the ghost value says of the state. -/
structure Ok (ok : Cond) (s : St) (t : Tid) (g : Gw) : Prop where
  lock : ∀ l, g.Has t l → s.lock l = some t
  pipe : ∀ pi v r w, g.hold = .pipe pi v r w → s.pipe pi = v
  waking : ∀ ch k b, g.ph = .waking ch k b → g.hold.lk = some (lockOf ch)
  state : (s.proc t).state = .sleeping → ∃ ch, g.ph = .asleep ch ∧ (s.proc t).chan = some ch
  chan : (s.proc t).chan ≠ none → (∃ ch, g.ph = .asleep ch) ∨ g.ph = .woken
  news : ∀ ch, g.Waits s t ch → t < NPROC ∧ ∀ n, Ev.woke ch n ∈ s.hist → n ≤ s.last t (lockOf ch)
  call : ∀ pi src i, g.call = some (pi, src, i) → ∃ l, (s.pipe pi).calls t = (src, i) :: l
  dirty : Kills ok → s.dirty t = g.dirty ∧ (g.dirty = true → (s.proc t).killed = false)

end Gw

/-- Processes may wait on the channel. -/
def Chan.Idle (s : St) : Chan → Prop
  | .nread pi => (s.pipe pi).empty = true ∧ (s.pipe pi).writeopen = true
  | .nwrite pi => (s.pipe pi).full = true ∧ (s.pipe pi).readopen = true
  | _ => True

/-- The counts of the acquisitions, and the events. -/
structure Counts (s : St) : Prop where
  last : ∀ t ch, s.lock (lockOf ch) = some t → s.last t (lockOf ch) = s.acq (lockOf ch)
  le : ∀ t l, s.last t l ≤ s.acq l
  woke : ∀ ch n, Ev.woke ch n ∈ s.hist → n ≤ s.acq (lockOf ch)
  slept : ∀ t lk ch, Ev.slept t lk ch ∈ s.hist → lk = true ∧ ch = none

/-- The invariant (module doc). -/
structure SleepOk (ok : Cond) (s : St) (γ : Tid → Gw) : Prop where
  counts : Counts s
  thr : ∀ t, (γ t).Ok ok s t
  scan : ∀ t ch k b, (γ t).ph = .waking ch k b → ∀ q < k, q ≠ t → ¬ (γ q).Waits s q ch
  wait : Kills ok → ∀ q ch, (γ q).Waits s q ch → ch.Idle s ∨ ∃ t, (γ t).hold.owes ch = true

/-- What holds where thread `t` takes an action. -/
def sleepPre (ok : Cond) : ∀ ⦃β : Type⦄, Tid → Act β → St → Prop
  | _, t, .put pi p ch, s => p = t ∧ (s.pipe pi).full = false ∧
    ∃ src i l, (s.pipe pi).calls t = (src, i) :: l ∧ src i = some ch
  | _, t, .writeBegin _ p _, _ => p = t
  | _, _, .get pi _, s => (s.pipe pi).empty = false
  | _, _, .readEnd pi n i, s =>
    Copies ok → 0 < n → i = 0 → (s.pipe pi).empty = true ∧ (s.pipe pi).writeopen = false
  | _, _, _, _ => True

/-- The logic of sleep and wakeup, for the runs with a condition. -/
def sleepLogic (ok : Cond) : Logic Act St Panic Gw where
  exec := execIf ok
  inv := SleepOk ok
  pre := sleepPre ok

/-! ## What a step leaves to the other threads -/

/-- The step changes nothing that thread `u` knows of. -/
structure Same (ok : Cond) (g : Gw) (s s' : St) (u : Tid) : Prop where
  lock : ∀ l, g.Has u l → s.lock l = some u → s'.lock l = some u
  pipe : ∀ pi v r w, g.hold = .pipe pi v r w → s'.pipe pi = s.pipe pi
  state : (s'.proc u).state = .sleeping →
    (s.proc u).state = .sleeping ∧ (s'.proc u).chan = (s.proc u).chan
  chan : (s'.proc u).chan ≠ none → (s.proc u).chan ≠ none
  woke : ∀ ch n, Ev.woke ch n ∈ s'.hist → g.Waits s u ch → Ev.woke ch n ∈ s.hist
  last : ∀ ch, g.Waits s u ch → s'.last u (lockOf ch) = s.last u (lockOf ch)
  calls : ∀ pi, (s'.pipe pi).calls u = (s.pipe pi).calls u
  dirty : s'.dirty u = s.dirty u
  killed : Kills ok → s.dirty u = true → (s'.proc u).killed = true → (s.proc u).killed = true

section

variable {ok : Cond} {s s' : St} {γ : Tid → Gw} {t u : Tid} {g g' : Gw}

theorem Same.waits (h : Same ok g s s' u) {ch : Chan} (hw : g.Waits s' u ch) : g.Waits s u ch :=
  hw.imp id fun hw => ⟨hw.1, (h.state hw.2).1⟩

theorem Same.gwOk (h : Same ok g s s' u) (hg : g.Ok ok s u) : g.Ok ok s' u where
  lock l hl := h.lock l hl (hg.lock l hl)
  pipe pi v r w hp := (h.pipe pi v r w hp).trans (hg.pipe pi v r w hp)
  waking := hg.waking
  state hs := by
    obtain ⟨hs, hc⟩ := h.state hs
    rw [hc]
    exact hg.state hs
  chan hc := hg.chan (h.chan hc)
  news ch hw := by
    have hw' := h.waits hw
    refine ⟨(hg.news ch hw').1, fun n hn => ?_⟩
    rw [h.last ch hw']
    exact (hg.news ch hw').2 n (h.woke ch n hn hw')
  call pi src i hc := by
    rw [h.calls]
    exact hg.call pi src i hc
  dirty hk := by
    obtain ⟨h1, h2⟩ := hg.dirty hk
    refine ⟨h.dirty.trans h1, fun hd => ?_⟩
    have := h.killed hk (h1.trans hd)
    have := h2 hd
    cases hx : (s'.proc u).killed <;> simp_all

/-- A step of thread `t` with a new ghost value. It may begin to wait on a channel whose lock it holds. -/
theorem SleepOk.step (h : SleepOk ok s γ) (hγ : γ t = g) (hs : ∀ u, u ≠ t → Same ok (γ u) s s' u)
    (hc : Counts s') (hg : g'.Ok ok s' t)
    (hscan : ∀ ch k b, g'.ph = .waking ch k b → ∀ q < k, q ≠ t → ¬ (γ q).Waits s' q ch)
    (hnew : ∀ ch, g'.Waits s' t ch → g.Waits s t ch ∨ s.lock (lockOf ch) = some t)
    (hself : Kills ok → ∀ ch, g'.Waits s' t ch → ch.Idle s' ∨ ∃ u, u ≠ t ∧ (γ u).hold.owes ch = true)
    (hwait : Kills ok → ∀ ch, (∃ q, q ≠ t ∧ (γ q).Waits s q ch) → ch.Idle s ∨ g.hold.owes ch = true →
      ch.Idle s' ∨ g'.hold.owes ch = true) : SleepOk ok s' (update γ t g') := by
  have ht : update γ t g' t = g' := update_self ..
  have hu : ∀ u, u ≠ t → update γ t g' u = γ u := fun u hu => update_of_ne hu ..
  refine ⟨hc, fun u => ?_, fun u ch k b hk q hq hne hw => ?_, fun hk q ch hw => ?_⟩
  · by_cases hut : u = t
    · rw [hut, ht]
      exact hg
    · rw [hu u hut]
      exact (hs u hut).gwOk (h.thr u)
  · by_cases hut : u = t
    · subst hut
      rw [hu q hne] at hw
      rw [ht] at hk
      exact hscan ch k b hk q hq hne hw
    · rw [hu u hut] at hk
      by_cases hqt : q = t
      · subst hqt
        rw [ht] at hw
        rcases hnew ch hw with hw | hl
        · exact h.scan u ch k b hk q hq hne (hγ ▸ hw)
        · -- a waker of the channel holds its lock
          have := (h.thr u).lock _ (.inl ((h.thr u).waking ch k b hk))
          rw [hl] at this
          exact hne (Option.some.inj this)
      · rw [hu q hqt] at hw
        exact h.scan u ch k b hk q hq hne ((hs q hqt).waits hw)
  · have lift : (∃ u, u ≠ t ∧ (γ u).hold.owes ch = true) →
        ∃ u, (update γ t g' u).hold.owes ch = true := by
      rintro ⟨u, hut, ho⟩
      exact ⟨u, by rwa [hu u hut]⟩
    by_cases hqt : q = t
    · subst hqt
      rw [ht] at hw
      exact (hself hk ch hw).imp id lift
    · rw [hu q hqt] at hw
      have hw' := (hs q hqt).waits hw
      have hown : ch.Idle s ∨ g.hold.owes ch = true → ch.Idle s' ∨
          ∃ u, (update γ t g' u).hold.owes ch = true := fun ho =>
        (hwait hk ch ⟨q, hqt, hw'⟩ ho).imp id fun ho => ⟨t, by rwa [ht]⟩
      rcases h.wait hk q ch hw' with hi | ⟨u, ho⟩
      · exact hown (.inl hi)
      · by_cases hut : u = t
        · exact hown (.inr (hγ ▸ hut ▸ ho))
        · exact .inr (lift ⟨u, hut, ho⟩)

/-- A step that changes nothing that a thread knows of, and no pipe. -/
theorem SleepOk.keep (h : SleepOk ok s γ) (hs : ∀ u, Same ok (γ u) s s' u) (hc : Counts s')
    (hp : s'.pipe = s.pipe) : SleepOk ok s' γ where
  counts := hc
  thr u := (hs u).gwOk (h.thr u)
  scan t ch k b hk q hq hne hw := h.scan t ch k b hk q hq hne ((hs q).waits hw)
  wait hk q ch hw := by
    have hi : ch.Idle s' = ch.Idle s := by
      unfold Chan.Idle
      rw [hp]
    rw [hi]
    exact h.wait hk q ch ((hs q).waits hw)

/-! ## The actions outside of `sleep` and `wakeup` -/

/-- Neither the end of a `wakeup` nor of a `sleep`. -/
def Ev.plain : Ev → Prop
  | .woke _ _ | .slept _ _ _ => False
  | _ => True

theorem mem_log {e : Ev} {h : List Ev} (he : e.plain) (x : Ev) (hx : x ∈ e :: h) : x ∈ h ∨ x.plain :=
  (List.mem_cons.mp hx).elim (fun hx => .inr (hx ▸ he)) .inl

theorem lockOf_ne_proc {ch : Chan} {p : Nat} : lockOf ch ≠ .proc p := by cases ch <;> simp [lockOf]

/-- A step that leaves all but the processes and the locks of processes alone. -/
structure Plain (s s' : St) : Prop where
  pipe : s'.pipe = s.pipe
  acq : s'.acq = s.acq
  last : s'.last = s.last
  dirty : s'.dirty = s.dirty
  hist : ∀ e ∈ s'.hist, e ∈ s.hist ∨ e.plain

theorem Plain.woke (h : Plain s s') {ch : Chan} {n : Nat} (he : Ev.woke ch n ∈ s'.hist) :
    Ev.woke ch n ∈ s.hist := (h.hist _ he).elim id False.elim

theorem Plain.counts (h : Plain s s') (hc : Counts s)
    (hl : ∀ ch t, s'.lock (lockOf ch) = some t → s.lock (lockOf ch) = some t) : Counts s' where
  last t ch hlk := by
    rw [h.last, h.acq]
    exact hc.last t ch (hl ch t hlk)
  le t l := by
    rw [h.last, h.acq]
    exact hc.le t l
  woke ch n he := by
    rw [h.acq]
    exact hc.woke ch n (h.woke he)
  slept t lk ch he := hc.slept t lk ch ((h.hist _ he).elim id False.elim)

/-- One process changes; it does not fall asleep, and is not killed where that matters. -/
theorem SleepOk.setProc {q : Nat} {p : Proc} (h : SleepOk ok s γ) (hr : Plain s s') (hl : s'.lock = s.lock)
    (hp : s'.proc = update s.proc q p)
    (hs : p.state = .sleeping → (s.proc q).state = .sleeping ∧ p.chan = (s.proc q).chan)
    (hc : p.chan ≠ none → (s.proc q).chan ≠ none)
    (hk : Kills ok → s.dirty q = true → p.killed = true → (s.proc q).killed = true) : SleepOk ok s' γ := by
  refine h.keep (fun u => ?_) (hr.counts h.counts fun _ _ => by rw [hl]; exact id) hr.pipe
  have hu : u ≠ q → s'.proc u = s.proc u := fun hu => by rw [hp, update_of_ne hu]
  have hq : s'.proc q = p := by rw [hp, update_self]
  refine ⟨fun _ _ => by rw [hl]; exact id, fun _ _ _ _ _ => by rw [hr.pipe], ?_, ?_, fun _ _ he _ => hr.woke he,
    fun _ _ => by rw [hr.last], fun _ => by rw [hr.pipe], by rw [hr.dirty], ?_⟩
  all_goals by_cases huq : u = q
  · rw [huq, hq]
    exact hs
  · rw [hu huq]
    exact fun h => ⟨h, rfl⟩
  · rw [huq, hq]
    exact hc
  · rw [hu huq]
    exact id
  · rw [huq, hq]
    exact hk
  · rw [hu huq]
    exact fun _ _ => id

/-- A step that changes nothing of the processes and the locks. -/
theorem SleepOk.plain (h : SleepOk ok s γ) (hr : Plain s s') (hl : s'.lock = s.lock)
    (hp : s'.proc = s.proc) : SleepOk ok s' γ :=
  h.setProc (q := 0) (p := s.proc 0) hr hl (by rw [hp, update_eq_self]) (fun h => ⟨h, rfl⟩) id
    fun _ _ => id

/-- Thread `t` gives up a lock that its ghost value does not tell of. -/
theorem SleepOk.dropLock {l : Lk} (h : SleepOk ok s γ) (hr : Plain s s') (hp : s'.proc = s.proc)
    (hl : s'.lock = update s.lock l none) (ht : s.lock l = some t) (hn : ¬ (γ t).Has t l) : SleepOk ok s' γ := by
  refine h.keep (fun u => ?_) (hr.counts h.counts fun ch u => ?_) hr.pipe
  · refine ⟨fun l' hl' hu => ?_, fun _ _ _ _ _ => by rw [hr.pipe], by rw [hp]; exact fun h => ⟨h, rfl⟩,
      by rw [hp]; exact id, fun _ _ he _ => hr.woke he, fun _ _ => by rw [hr.last], fun _ => by rw [hr.pipe],
      by rw [hr.dirty], by rw [hp]; exact fun _ _ => id⟩
    rw [hl, update_of_ne, hu]
    rintro rfl
    obtain rfl : t = u := Option.some.inj (ht.symm.trans hu)
    exact hn hl'
  · rw [hl, update_apply]
    split
    · simp
    · exact id

/-- The scheduler switches to process `p`. -/
theorem SleepOk.schedIn {p : Nat} (h : SleepOk ok s γ) (hl : s.lock (.proc p) = none) :
    SleepOk ok ((Act.schedIn p).effect t s) γ := by
  set s₁ : St := s.setLock (.proc p) (some t) with hs₁
  have hr : Plain s s₁ := ⟨rfl, rfl, rfl, rfl, fun _ => .inl⟩
  have h₁ : SleepOk ok s₁ γ := by
    refine h.keep (fun u => ?_) (hr.counts h.counts fun ch u => ?_) rfl
    · refine ⟨fun l' _ hu => ?_, fun _ _ _ _ _ => rfl, fun h => ⟨h, rfl⟩, id, fun _ _ he _ => he,
        fun _ _ => rfl, fun _ => rfl, rfl, fun _ _ => id⟩
      rw [hs₁, St.setLock_ne, hu]
      rintro rfl
      rw [hl] at hu
      cases hu
    · rw [hs₁, St.setLock_ne _ _ _ lockOf_ne_proc]
      exact id
  exact h₁.setProc (q := p) ⟨rfl, rfl, rfl, rfl, fun _ => .inl⟩ rfl rfl (by simp) id fun _ _ => id

/-- Thread `t` takes a lock; its count is a new one. -/
theorem Counts.acquire {l : Lk} (h : Counts s) : Counts ((Act.acquire l).effect t s) where
  last u ch hlk := by
    by_cases hlc : lockOf ch = l
    · obtain rfl : t = u := by simpa [Act.effect, hlc] using hlk
      simp [Act.effect, hlc]
    · have hu : s.lock (lockOf ch) = some u := by simpa [Act.effect, St.setLock_ne, hlc] using hlk
      have := h.last u ch hu
      by_cases hut : u = t
      · subst hut
        simpa [Act.effect, hlc] using this
      · simpa [Act.effect, hlc, hut] using this
  le u l' := by
    have h1 := h.le u l'
    have h2 := h.le t l
    simp only [Act.effect, update_apply]
    grind
  woke ch n he := by
    have := h.woke ch n he
    simp only [Act.effect, update_apply]
    grind
  slept := h.slept

theorem same_acquire {l : Lk} (hl : s.lock l = none) (hw : u = t → ∀ ch, ¬ g.Waits s u ch) :
    Same ok g s ((Act.acquire l).effect t s) u := by
  refine ⟨fun l' _ hu => ?_, fun _ _ _ _ _ => rfl, fun h => ⟨h, rfl⟩, id, fun _ _ he _ => he,
    fun ch hc => ?_, fun _ => rfl, rfl, fun _ _ => id⟩
  · have : l' ≠ l := by rintro rfl; rw [hl] at hu; cases hu
    simpa [Act.effect, St.setLock_ne, this] using hu
  · have : u ≠ t := fun hut => hw hut ch hc
    simp [Act.effect, this]

/-- The actions that leave a thread with the ghost value `g` where it is. -/
def Calm (t : Tid) (g : Gw) : ∀ ⦃β : Type⦄, Act β → Prop
  | _, .release l => ¬ g.Has t l
  | _, .schedOut p | _, .schedExit p => ¬ g.Has t (.proc p)
  | _, .setKilled p => p = t ∧ g.dirty = false
  | _, .setSleeping _ _ | _, .clearChan _ | _, .put _ _ _ | _, .get _ _ | _, .writeBegin _ _ _
  | _, .setClosed _ _ | _, .readEnd _ _ _ | _, .waking _ _ | _, .woke _ | _, .slept _ _ => False
  | _, _ => True

/-- A calm action keeps the invariant, of a thread that does not wait. -/
theorem Calm.keep {β : Type} {a : Act β} (h : Calm t g a) (hi : SleepOk ok s γ) (hγ : γ t = g)
    (hw : ∀ ch, ¬ g.Waits s t ch) (hok : ok t a s = true) (hc : a.check t s = some (.ok ())) :
    SleepOk ok (a.effect t s) γ := by
  have plain : Plain s s := ⟨rfl, rfl, rfl, rfl, fun _ => .inl⟩
  have proc : ∀ {s' : St} (q : Nat) (p : Proc), Plain s s' → s'.lock = s.lock →
      s'.proc = update s.proc q p →
      (p.state = .sleeping → (s.proc q).state = .sleeping ∧ p.chan = (s.proc q).chan) →
      (p.chan ≠ none → (s.proc q).chan ≠ none) → (p.killed = true → (s.proc q).killed = true) →
      SleepOk ok s' γ := fun q p hr hl hp h1 h2 h3 => hi.setProc hr hl hp h1 h2 fun _ _ => h3
  cases a with
  | acquire l =>
    have hl := check_acquire hc
    exact hi.keep (fun u => same_acquire hl fun hut => by subst hut; exact hγ ▸ hw) hi.counts.acquire rfl
  | release l =>
    exact hi.dropLock (t := t) (l := l) ⟨rfl, rfl, rfl, rfl, fun _ => .inl⟩ rfl rfl (check_release hc) (hγ ▸ h)
  | schedOut p | schedExit p =>
    have hl := schedCheck_ok (Option.some.inj hc)
    exact hi.dropLock (t := t) (l := .proc p) ⟨rfl, rfl, rfl, rfl, fun _ => .inl⟩ rfl rfl hl (hγ ▸ h)
  | schedIn p => exact hi.schedIn (check_schedIn hc).2
  | setKilled p =>
    obtain ⟨rfl, hd⟩ := h
    refine hi.setProc (q := p) ⟨rfl, rfl, rfl, rfl, mem_log trivial⟩ rfl rfl (fun h => ⟨h, rfl⟩) id
      fun hk hd' => ?_
    rw [((hi.thr p).dirty hk).1, hγ, hd] at hd'
    cases hd'
  | kill q pid =>
    by_cases hp : (s.proc q).pid = pid
    · have he : (Act.kill q pid).effect t s = _ := if_pos hp
      rw [he]
      refine hi.setProc (q := q) ⟨rfl, rfl, rfl, rfl, mem_log trivial⟩ rfl rfl (by simp) (by simp)
        fun hk hd => ?_
      have := hk t _ s hok
      simp [killsQuiet, hp, hd] at this
    · have he : (Act.kill q pid).effect t s = s := if_neg hp
      rwa [he]
  | wake q chan =>
    show SleepOk ok (if (s.proc q).chan = some chan then s.setProc q Proc.wake else s) γ
    split
    · exact proc q _ ⟨rfl, rfl, rfl, rfl, fun _ => .inl⟩ rfl rfl (by simp) (by simp) (by simp)
    · exact hi
  | alloc q p =>
    by_cases hu : (s.proc q).state = .unused
    · have he : (Act.alloc q p).effect t s = _ := if_pos hu
      rw [he]
      exact proc q _ ⟨rfl, rfl, rfl, rfl, mem_log trivial⟩ rfl rfl (by simp) id id
    · have he : (Act.alloc q p).effect t s = s := if_neg hu
      rwa [he]
  | setZombie p status =>
    exact proc p _ ⟨rfl, rfl, rfl, rfl, mem_log trivial⟩ rfl rfl (by simp) id id
  | freeproc q ret =>
    rcases ret with _ | ⟨p, pid, x⟩
    · exact proc q _ ⟨rfl, rfl, rfl, rfl, fun _ => .inl⟩ rfl rfl (by simp [Proc.free]) (by simp [Proc.free])
        (by simp [Proc.free])
    · exact proc q _ ⟨rfl, rfl, rfl, rfl, mem_log trivial⟩ rfl rfl (by simp [Proc.free]) (by simp [Proc.free])
        (by simp [Proc.free])
  | reparent q p =>
    show SleepOk ok (if (s.proc q).parent = some p then _ else s) γ
    split
    · exact proc q _ ⟨rfl, rfl, rfl, rfl, fun _ => .inl⟩ rfl rfl (fun h => ⟨h, rfl⟩) id id
    · exact hi
  | setRunnable q => exact proc q _ ⟨rfl, rfl, rfl, rfl, fun _ => .inl⟩ rfl rfl (by simp) id id
  | setContext q | setParent q p =>
    exact proc q _ ⟨rfl, rfl, rfl, rfl, fun _ => .inl⟩ rfl rfl (fun h => ⟨h, rfl⟩) id id
  | setSleeping | clearChan | put | get | writeBegin | setClosed | readEnd | waking | woke | slept => exact h.elim
  | _ => exact hi.plain plain rfl rfl

end

end Xv6.Kern
