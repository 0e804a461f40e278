import Xv6.Kern.Pipes

/-!
# No lost wakeup, and no reader asleep at a full pipe

* `no_lost_wakeup`: a process that sleeps on a channel has missed no `wakeup`; `sleep` returns with the lock.
* `pipe_sleepers`: where the lock of a pipe is free, its readers sleep only while it is empty and its
  writers only while it is full, if no writer is killed with bytes that it has not announced; `pipe_killed_writer`
  is a run with such a writer.
-/

namespace Xv6.Kern

open Conc Prog

/-- No condition on the actions. -/
def always : Cond := fun _ _ _ _ => true

theorem reach_always {c₀ c : Conf Act St Mode} (h : sys.Reach c₀ c) : (sysIf always).Reach c₀ c :=
  Sys.Reach.mono (fun _ _ _ _ _ he => he) (fun _ _ _ _ hc => hc) h

/-- A sleeper waits on its channel. -/
theorem SleepOk.sleeper {ok : Cond} {s : St} {γ : Tid → Gw} (h : SleepOk ok s γ) {p : Nat} {ch : Chan}
    (hs : (s.proc p).state = .sleeping) (hc : (s.proc p).chan = some ch) : (γ p).Waits s p ch := by
  obtain ⟨ch', hp, hc'⟩ := (h.thr p).state hs
  obtain rfl : ch' = ch := Option.some.inj (hc'.symm.trans hc)
  exact .inr ⟨hp, hs⟩

/-- **No lost wakeup.** A `wakeup` on the channel that has ended got the channel's lock before the
sleeper did for the last time; and a `sleep` that has returned holds the lock, with `p->chan == 0`. -/
theorem no_lost_wakeup {data : Nat → Nat → UInt8} {c : Conf Act St Mode} (h : sys.Reach (boot data) c) :
    (∀ p ch, (c.st.proc p).state = .sleeping → (c.st.proc p).chan = some ch →
      ∀ n, Ev.woke ch n ∈ c.st.hist → n ≤ c.st.last p (lockOf ch)) ∧
    ∀ p lk ch, Ev.slept p lk ch ∈ c.st.hist → lk = true ∧ ch = none := by
  obtain ⟨γ, hi, -⟩ := sleepOk_of_reach (reach_always h)
  exact ⟨fun p ch hs hc => ((hi.thr p).news ch (hi.sleeper hs hc)).2, hi.counts.slept⟩

/-- `initproc` calls `wakeup`, and then its child `sleep`, with the same lock. -/
def wakeSleep : List (Move Cmd) :=
  [.call 0 .start, .go 0 10, .call 0 (.user (.fork true true true)), .go 0 1000, .call 1 .start, .go 1 10,
    .call 0 (.user (.lock 5)), .go 0 10, .call 0 (.holding (.wakeup 3)), .go 0 1000, .call 0 (.holding .release),
    .go 0 10, .call 1 (.user (.lock 5)), .go 1 10, .call 1 (.holding (.sleep 3)), .go 1 5]

/-- Process 1 sleeps on a channel; a `wakeup` on it has ended. -/
def isAsleep (c : Conf Act St Mode) : Bool :=
  (c.st.proc 1).state == .sleeping && (c.st.proc 1).chan == some (.other 5 3) &&
    match c.st.hist with
    | .woke (.other 5 3) 1 :: _ => c.st.last 1 (.other 5) == 2
    | _ => false

theorem no_lost_wakeup_wakeSleep : ∃ c, sys.Reach (boot fun _ _ => 0) c ∧ isAsleep c = true ∧
    ∀ n, Ev.woke (.other 5 3) n ∈ c.st.hist → n ≤ c.st.last 1 (.other 5) := by
  obtain ⟨c, hr, ht⟩ := Sys.exists_of_play (Y := sys) (c := boot fun _ _ => 0) (l := wakeSleep)
    (f := isAsleep) menu_calls (by decide +kernel)
  have ht' := ht
  simp only [isAsleep, Bool.and_eq_true, beq_iff_eq] at ht'
  exact ⟨c, hr, ht, (no_lost_wakeup hr).1 1 _ ht'.1.1 ht'.1.2⟩

/-- Where the lock of pipe `pi` is free, nobody sleeps on its channels for what is there. -/
def St.PipeSleepers (s : St) : Prop :=
  ∀ pi, s.lock (.pipe pi) = none → ∀ p, (s.proc p).state = .sleeping →
    ((s.proc p).chan = some (.nread pi) →
      (s.pipe pi).nread = (s.pipe pi).nwrite ∧ (s.pipe pi).writeopen = true) ∧
    ((s.proc p).chan = some (.nwrite pi) →
      (s.pipe pi).nwrite = ((s.pipe pi).nread + PIPESIZE) % 2 ^ 32 ∧ (s.pipe pi).readopen = true)

/-- A channel whose lock is free and on which a process waits. -/
theorem SleepOk.idle {ok : Cond} {s : St} {γ : Tid → Gw} (h : SleepOk ok s γ) (hk : Kills ok) {p : Nat} {ch : Chan}
    (hw : (γ p).Waits s p ch) (hl : s.lock (lockOf ch) = none) : ch.Idle s := by
  refine (h.wait hk p ch hw).resolve_right ?_
  rintro ⟨t, ho⟩
  have : (γ t).hold.lk = some (lockOf ch) := by
    cases hg : (γ t).hold with
    | pipe pi v r w =>
      rw [hg] at ho
      cases ch <;> simp_all [Hold.owes, Hold.lk, lockOf]
    | _ => rw [hg] at ho; cases ch <;> cases ho
  rw [(h.thr t).lock _ (.inl this)] at hl
  cases hl

/-- **No reader sleeps at a pipe with bytes, no writer at a pipe with room**, where no process is
killed between the test of `killed` before a byte that it stores and the `wakeup` after it. -/
theorem pipe_sleepers {data : Nat → Nat → UInt8} {c : Conf Act St Mode}
    (h : (sysIf killsQuiet).Reach (boot data) c) : c.st.PipeSleepers := by
  obtain ⟨γ, hi, -⟩ := sleepOk_of_reach h
  have hk : Kills killsQuiet := fun _ _ _ _ h => h
  intro pi hl p hs
  refine ⟨fun hc => ?_, fun hc => ?_⟩
  · obtain ⟨h1, h2⟩ : (c.st.pipe pi).empty = true ∧ _ := hi.idle hk (hi.sleeper hs hc) hl
    exact ⟨by simpa [Pipe.empty] using h1, h2⟩
  · obtain ⟨h1, h2⟩ : (c.st.pipe pi).full = true ∧ _ := hi.idle hk (hi.sleeper hs hc) hl
    exact ⟨by simpa [Pipe.full] using h1, h2⟩

/-- Two children of `initproc`; the first one reads from an empty pipe and sleeps. -/
def readSleeps : List (Move Cmd) :=
  [.call 0 .start, .go 0 10, .call 0 (.user (.fork true true true)), .go 0 1000,
    .call 0 (.user (.fork true true true)), .go 0 1000, .call 1 .start, .go 1 10, .call 2 .start, .go 2 10,
    .call 1 (.user (.piperead 0 (fun _ => true) 1 2)), .go 1 12]

/-- Process 1 sleeps on `&pi->nread` of pipe 0, whose lock is free and which holds `n` bytes. -/
def isWaiting (n : Nat) (c : Conf Act St Mode) : Bool :=
  (c.st.lock (.pipe 0)).isNone && (c.st.proc 1).state == .sleeping && (c.st.proc 1).chan == some (.nread 0) &&
    (c.st.pipe 0).nread == 0 && (c.st.pipe 0).nwrite == n

theorem pipe_sleepers_readSleeps : ∃ c, (sysIf killsQuiet).Reach (boot fun _ _ => 0) c ∧
    isWaiting 0 c = true ∧ c.st.PipeSleepers := by
  obtain ⟨c, hr, ht⟩ := Sys.exists_of_play (Y := sysIf killsQuiet) (c := boot fun _ _ => 0) (l := readSleeps)
    (f := isWaiting 0) menu_calls (by decide +kernel)
  exact ⟨c, hr, ht, pipe_sleepers hr⟩

/-- The second child writes one byte of two, is killed by `initproc`, and returns. -/
def killedWriter : List (Move Cmd) :=
  readSleeps ++ [.call 2 (.user (.pipewrite 0 (fun _ => some 7) 2 5)), .go 2 9,
    .call 0 (.user (.kill 3)), .go 0 1000, .go 2 1000]

/-- **A killed writer leaves a reader asleep at a pipe with a byte.** -/
theorem pipe_killed_writer : ∃ c, sys.Reach (boot fun _ _ => 0) c ∧ isWaiting 1 c = true ∧
    ¬ c.st.PipeSleepers := by
  obtain ⟨c, hr, ht⟩ := Sys.exists_of_play (Y := sys) (c := boot fun _ _ => 0) (l := killedWriter)
    (f := isWaiting 1) menu_calls (by decide +kernel)
  refine ⟨c, hr, ht, fun hp => ?_⟩
  simp only [isWaiting, Bool.and_eq_true, beq_iff_eq, Option.isNone_iff_eq_none] at ht
  obtain ⟨⟨⟨⟨hl, hs⟩, hc⟩, h1⟩, h2⟩ := ht
  have := ((hp 0 hl 1 hs).1 hc).1
  rw [h1, h2] at this
  cases this

end Xv6.Kern
