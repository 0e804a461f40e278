import Xv6.Kern.Reap

/-!
# `kkill` and the flag `killed`

`kkill(0)` finds the first `UNUSED` slot, whose pid is 0, and sets its flag; `allocproc` does not
clear it, so that the next process of the slot begins with `killed` set (`kkill_zero`). Where no pid is
0, the flag tells of a `kkill` of the process or of a fault since its `allocproc` (`kill_hits_target`).
-/

namespace Xv6.Kern

open Conc Prog

/-- `kkill` with the pid of process `q`, or a fault of it. -/
def Ev.kills (q : Nat) (pid : BitVec 32) : Ev → Prop
  | .kill pid' q' _ => q' = q ∧ pid' = pid
  | .fault q' => q' = q
  | _ => False

/-- `allocproc` returns a process that is not killed; `kkill` finds a process. -/
def Ev.Fair : Ev → Prop
  | .alloc _ _ killed => killed = false
  | .kill _ _ st => st ≠ .unused
  | _ => True

/-- A kill hits its target only. -/
structure St.KillOk (s : St) : Prop where
  /-- A killed process was killed after the `allocproc` that made it. -/
  killed : ∀ q, (s.proc q).killed = true → ∃ newer k older,
    s.hist = newer ++ .alloc q (s.proc q).id k :: older ∧ ∃ e ∈ newer, e.kills q (s.proc q).pid
  events : ∀ e ∈ s.hist, e.Fair

/-- The invariant: a slot without a process has the pid 0 and is not killed. -/
structure KillInv (s : St) : Prop extends s.KillOk where
  unused : ∀ q, (s.proc q).state = .unused → (s.proc q).pid = 0 ∧ (s.proc q).killed = false
  born : ∀ q, (s.proc q).state ≠ .unused → ∃ k, Ev.alloc q (s.proc q).id k ∈ s.hist

/-- The run calls `kkill` only with a pid other than 0. -/
def killsPid : Cond := fun _ _ a _ =>
  match a with
  | .kill _ pid => pid != 0
  | _ => true

section

variable {s s' : St} {t q : Nat}

/-- A step that changes process `q` to `p`. The others see more events at most; what is said of `q`
is left to show. -/
theorem KillInv.step {p : Proc} {l : List Ev} (h : KillInv s) (hp : s'.proc = Function.update s.proc q p)
    (hh : s'.hist = l ++ s.hist) (hf : ∀ e ∈ l, e.Fair)
    (hk : p.killed = true → ∃ newer k older,
      s'.hist = newer ++ .alloc q p.id k :: older ∧ ∃ e ∈ newer, e.kills q p.pid)
    (hu : p.state = .unused → p.pid = 0 ∧ p.killed = false)
    (hb : p.state ≠ .unused → ∃ k, Ev.alloc q p.id k ∈ s'.hist) : KillInv s' := by
  have hr : ∀ r, r ≠ q → s'.proc r = s.proc r := fun r hr => by rw [hp, Function.update_of_ne hr]
  have hq : s'.proc q = p := by rw [hp, Function.update_self]
  refine ⟨⟨fun r => ?_, ?_⟩, fun r => ?_, fun r => ?_⟩
  · by_cases hrq : r = q
    · rw [hrq, hq]
      exact hk
    · rw [hr r hrq]
      intro hkr
      obtain ⟨newer, k, older, he, e, hm, hkill⟩ := h.killed r hkr
      exact ⟨l ++ newer, k, older, by rw [hh, he, List.append_assoc], e, by simp [hm], hkill⟩
  · rw [hh]
    exact fun e he => (List.mem_append.mp he).elim (hf e) (h.events e)
  · by_cases hrq : r = q
    · rw [hrq, hq]
      exact hu
    · rw [hr r hrq]
      exact h.unused r
  · by_cases hrq : r = q
    · rw [hrq, hq]
      exact hb
    · rw [hr r hrq, hh]
      intro hs
      obtain ⟨k, hk⟩ := h.born r hs
      exact ⟨k, List.mem_append_right _ hk⟩

/-- A step that neither kills nor makes nor frees a process. -/
theorem KillInv.same {p : Proc} {l : List Ev} (h : KillInv s) (hp : s'.proc = Function.update s.proc q p)
    (hh : s'.hist = l ++ s.hist) (hf : ∀ e ∈ l, e.Fair) (hs : p.state = .unused ↔ (s.proc q).state = .unused)
    (h1 : p.id = (s.proc q).id) (h2 : p.pid = (s.proc q).pid) (h3 : p.killed = (s.proc q).killed) : KillInv s' := by
  refine h.step hp hh hf (fun hk => ?_) (fun hu => ?_) (fun hu => ?_)
  · obtain ⟨newer, k, older, he, e, hm, hkill⟩ := h.killed q (h3 ▸ hk)
    exact ⟨l ++ newer, k, older, by rw [hh, he, h1, List.append_assoc], e, by simp [hm], h2 ▸ hkill⟩
  · rw [h2, h3]
    exact h.unused q (hs.mp hu)
  · obtain ⟨k, hk⟩ := h.born q fun hu' => hu (hs.mpr hu')
    exact ⟨k, by rw [hh, h1]; exact List.mem_append_right _ hk⟩

/-- A process is killed. -/
theorem KillInv.kill {p : Proc} {e : Ev} (h : KillInv s) (hp : s'.proc = Function.update s.proc q p)
    (hh : s'.hist = e :: s.hist) (hf : e.Fair) (hu : (s.proc q).state ≠ .unused) (hs : p.state ≠ .unused)
    (h1 : p.id = (s.proc q).id) (h2 : p.pid = (s.proc q).pid) (he : e.kills q (s.proc q).pid) : KillInv s' := by
  obtain ⟨k, hk⟩ := h.born q hu
  refine h.step (l := [e]) hp hh (by simpa using hf) (fun _ => ?_) (fun hs' => (hs hs').elim) fun _ => ?_
  · obtain ⟨newer, older, hl⟩ := List.append_of_mem hk
    exact ⟨e :: newer, k, older, by rw [hh, hl, h1]; rfl, e, List.mem_cons_self, h2 ▸ he⟩
  · exact ⟨k, by rw [hh, h1]; exact List.mem_cons_of_mem _ hk⟩

/-- A step that leaves the processes alone. -/
theorem KillInv.log {l : List Ev} (h : KillInv s) (hp : s'.proc = s.proc) (hh : s'.hist = l ++ s.hist)
    (hf : ∀ e ∈ l, e.Fair) : KillInv s' :=
  h.same (q := 0) (p := s.proc 0) (by rw [hp, Function.update_eq_self]) hh hf Iff.rfl rfl rfl rfl

theorem wake_same (p : Proc) : (p.wake.state = .unused ↔ p.state = .unused) ∧ p.wake.id = p.id ∧
    p.wake.pid = p.pid ∧ p.wake.killed = p.killed := by
  unfold Proc.wake
  split <;> simp_all

theorem KillInv.alloc (h : KillInv s) : KillInv ((Act.alloc q t).effect t s) := by
  by_cases hu : (s.proc q).state = .unused
  · have he : (Act.alloc q t).effect t s = _ := if_pos hu
    obtain ⟨-, hk⟩ := h.unused q hu
    rw [he]
    refine h.step (q := q) (l := [.alloc q (s.allocs + 1) (s.proc q).killed]) rfl rfl ?_ ?_ ?_ ?_
    · simp [Ev.Fair, hk]
    · simp [hk]
    · simp
    · exact fun _ => ⟨_, List.mem_cons_self⟩
  · have he : (Act.alloc q t).effect t s = s := if_neg hu
    rwa [he]

/-- `kkill` finds a process, for a slot with another pid than 0 is used. -/
theorem KillInv.kkill {pid : BitVec 32} (h : KillInv s) (hpid : pid ≠ 0) : KillInv ((Act.kill q pid).effect t s) := by
  by_cases hp : (s.proc q).pid = pid
  · have he : (Act.kill q pid).effect t s = _ := if_pos hp
    have hu : (s.proc q).state ≠ .unused := fun hu => hpid (hp ▸ (h.unused q hu).1)
    obtain ⟨w1, w2, w3, -⟩ := wake_same { s.proc q with killed := true }
    rw [he]
    refine h.kill (q := q) (e := .kill pid q (s.proc q).state) rfl rfl hu hu ?_ w2 w3 ⟨rfl, hp.symm⟩
    exact fun hw => hu (w1.mp hw)
  · have he : (Act.kill q pid).effect t s = s := if_neg hp
    rwa [he]

theorem KillInv.free {l : List Ev} (h : KillInv s) (hp : s'.proc = Function.update s.proc q (s.proc q).free)
    (hh : s'.hist = l ++ s.hist) (hf : ∀ e ∈ l, e.Fair) : KillInv s' :=
  h.step hp hh hf (fun hk => by simp [Proc.free] at hk) (fun _ => ⟨rfl, rfl⟩) (fun hu => (hu rfl).elim)

/-- A live process is in a used slot. -/
theorem St.used_of_life (h : s.life q = .live ∨ s.life q = .used) : (s.proc q).state ≠ .unused := by
  intro hu
  rcases h with h | h <;> simp [St.life, hu, PState.life] at h

/-- Every action keeps the invariant, if `kkill` has a pid other than 0. -/
theorem killInv_step {β : Type} {a : Act β} (h : KillInv s) (hp : procPre t a s)
    (hok : killsPid t a s = true) (hc : a.check t s = some (.ok ())) : KillInv (a.effect t s) := by
  cases a with
  | kill q pid => exact h.kkill (by simpa [killsPid] using hok)
  | alloc q p =>
    obtain ⟨rfl, -⟩ := hp
    exact h.alloc
  | setKilled p =>
    obtain ⟨rfl, hl⟩ := hp
    have hu := St.used_of_life (.inl hl)
    exact h.kill (q := p) (e := .fault p) rfl rfl trivial hu hu rfl rfl rfl
  | freeproc q ret =>
    rcases ret with _ | ⟨p, pid, x⟩
    · exact h.free (q := q) (l := []) rfl rfl (by simp)
    · exact h.free (q := q) (l := [.reaped p q (s.proc q) pid x]) rfl rfl (by simp [Ev.Fair])
  | setZombie p status =>
    obtain ⟨rfl, hl, -⟩ := hp
    refine h.same (q := p) (l := [.exited (s.proc p).id (s.proc p).pid status]) rfl rfl (by simp [Ev.Fair])
      ?_ rfl rfl rfl
    simpa using St.used_of_life (.inl hl)
  | setRunnable p =>
    refine h.same (q := p) (l := []) rfl rfl (by simp) ?_ rfl rfl rfl
    rcases hp with ⟨hl, rfl | ⟨hl', -⟩⟩
    · simpa using St.used_of_life (.inl hl)
    · simpa using St.used_of_life (.inr hl')
  | setSleeping p chan =>
    obtain ⟨rfl, hl⟩ := hp
    refine h.same (q := p) (l := []) rfl rfl (by simp) ?_ rfl rfl rfl
    simpa using St.used_of_life (.inl hl)
  | schedIn p =>
    have hr : (s.proc p).state = .runnable := by
      by_contra h
      simp [Act.check, h] at hc
    exact h.same (q := p) (l := []) rfl rfl (by simp) (by simp [hr]) rfl rfl rfl
  | wake q chan =>
    show KillInv (if (s.proc q).chan = some chan then s.setProc q Proc.wake else s)
    split
    · obtain ⟨w1, w2, w3, w4⟩ := wake_same (s.proc q)
      exact h.same (q := q) (l := []) rfl rfl (by simp) w1 w2 w3 w4
    · exact h
  | reparent q p =>
    show KillInv (if (s.proc q).parent = some p then _ else s)
    split
    · exact h.same (q := q) (l := []) rfl rfl (by simp) Iff.rfl rfl rfl rfl
    · exact h
  | clearChan q | setContext q | setParent q p =>
    exact h.same (q := q) (l := []) rfl rfl (by simp) Iff.rfl rfl rfl rfl
  | readEnd pi n i =>
    exact h.log (l := [.read pi n i (s.pipe pi).empty (s.pipe pi).writeopen]) rfl rfl (by simp [Ev.Fair])
  | woke chan => exact h.log (l := [.woke chan (s.last t (lockOf chan))]) rfl rfl (by simp [Ev.Fair])
  | slept p lk =>
    exact h.log (l := [.slept p (s.lock lk == some t) (s.proc p).chan]) rfl rfl (by simp [Ev.Fair])
  | _ => exact h.log (l := []) rfl rfl (by simp)

theorem killInv_boot (data : Nat → Nat → UInt8) : KillInv (boot data).st := by
  have hp : ∀ q, (boot data).st.proc q =
      if q = initproc then { state := .runnable, pid := 1, fresh := true, id := 1 } else {} := fun _ => rfl
  have hh : (boot data).st.hist = [.alloc initproc 1 false] := rfl
  refine ⟨⟨fun q hq => ?_, ?_⟩, fun q => ?_, fun q => ?_⟩
  · rw [hp] at hq
    split at hq <;> simp at hq
  · simp [hh, Ev.Fair]
  · rw [hp]
    split <;> simp
  · rw [hp, hh]
    split <;> simp_all

end

/-- `kkill` returns 0 only if it found a process with the pid. -/
theorem killLoop_ends {t : Nat} {pid : BitVec 32} {l : List Nat} :
    (Code.killLoop pid l).Ends (answers t) fun acts r =>
      r = 0 → ∃ q ∈ l, (⟨.kill q pid, true⟩ : Done Act) ∈ acts := by
  induction l with
  | nil => exact Ends.pure (by simp)
  | cons q l ih =>
    refine Ends.step fun _ _ => Ends.step fun found _ => Ends.step fun _ _ => ?_
    cases found
    · refine ih.mono fun acts r h hr => ?_
      obtain ⟨q', hq', hm⟩ := h hr
      exact ⟨q', List.mem_cons_of_mem _ hq', by simp [hm]⟩
    · exact Ends.pure fun _ => ⟨q, List.mem_cons_self, by simp⟩

/-- **Where `kkill` is called with pids other than 0, it hits its target only**, in every state of
every run; and `kkill` returns 0 only after an action that finds a process with the pid. -/
theorem kill_hits_target {data : Nat → Nat → UInt8} {c : Conf Act St Mode}
    (h : (sysIf killsPid).Reach (boot data) c) : c.st.KillOk ∧
      ∀ t pid, (Code.kkill pid).Ends (answers t) fun acts r =>
        r = 0 → ∃ q ∈ List.range NPROC, (⟨.kill q pid, true⟩ : Done Act) ∈ acts := by
  refine ⟨KillInv.toKillOk ?_, fun _ _ => killLoop_ends⟩
  refine Sys.Reach.induct (Y := sysIf killsPid) (Z := sys) (I := KillInv) (L := procLogic) rfl procCalls
    (procOk_init data)
    execIf_exec (fun _ _ _ _ h => h) (killInv_boot data) ?_ h
  intro β t a s γ b s' _ hp hi he
  obtain ⟨hc, -, rfl⟩ := exec_ok (execIf_exec _ _ _ _ he)
  exact killInv_step hi hp (execIf_ok he) hc

/-- `initproc` forks and kills the child. -/
def forkKill : List (Move Cmd) :=
  [.call 0 .start, .go 0 10, .call 0 (.user (.fork true true true)), .go 0 1000,
    .call 0 (.user (.kill 2)), .go 0 1000]

theorem kill_hits_target_forkKill : ∃ c, (sysIf killsPid).Reach (boot fun _ _ => 0) c ∧
    (c.st.proc 1).killed = true ∧ c.st.KillOk := by
  obtain ⟨c, hr, ht⟩ := Sys.exists_of_play (Y := sysIf killsPid) (c := boot fun _ _ => 0) (l := forkKill)
    (f := fun c => (c.st.proc 1).killed) menu_calls (by decide +kernel)
  exact ⟨c, hr, ht, (kill_hits_target hr).1⟩

/-- `initproc` calls `kkill(0)` and forks. -/
def killZeroFork : List (Move Cmd) :=
  [.call 0 .start, .go 0 10, .call 0 (.user (.kill 0)), .go 0 1000,
    .call 0 (.user (.fork true true true)), .go 0 1000]

/-- The child of `killZeroFork` is killed; `kkill` found an `UNUSED` slot. -/
def isKilledAtBirth (c : Conf Act St Mode) : Bool :=
  match c.st.hist with
  | [.alloc 1 2 true, .kill 0 1 .unused, .alloc 0 1 false] => (c.st.proc 1).killed
  | _ => false

/-- **`kkill(0)` kills the next process of an unused slot.** -/
theorem kkill_zero : ∃ c, sys.Reach (boot fun _ _ => 0) c ∧ isKilledAtBirth c = true ∧ ¬ c.st.KillOk := by
  obtain ⟨c, hr, ht⟩ := Sys.exists_of_play (Y := sys) (c := boot fun _ _ => 0) (l := killZeroFork)
    (f := isKilledAtBirth) menu_calls (by decide +kernel)
  refine ⟨c, hr, ht, fun hk => ?_⟩
  unfold isKilledAtBirth at ht
  split at ht
  · rename_i hh
    have := hk.events (.alloc 1 2 true) (by simp [hh])
    cases this
  · cases ht

end Xv6.Kern
