import Xv6.Log.Commit

/-!
# Runs, crashes and recovery

The invariant holds in every state that the clients of the log reach after a boot (`Booted.all`),
and a boot ends in a state that satisfies it (`RecoversTo.all`).

* `cache_coherent`: what `bread` returns, and the state of `log.lh` and of its pins.
* `crash_atomic`: the disk after a crash and a recovery.
-/

namespace Xv6

open Conc LogHist Prog
open Function (update update_eq_self_iff update_of_ne)

variable {D : LogDev} {d₀ : Nat → Block}

/-! ## The clients' calls -/

/-- The lock that a client's buffer is. -/
def Held.lk (l : Held) : Lk := { b := l.b, dirty := l.dirty, wrote := l.wrote }

/-- The ghost value of an idle client. -/
def LogClient.ghost (c : LogClient) : LogGhost :=
  { hold := { locks := fun i => (c.locks i).map Held.lk }, inOp := c.inOp }

theorem LogClient.ghost_set (c : LogClient) (i : Nat) (l : Option Held) :
    (c.set i l).ghost = { c.ghost with hold := c.ghost.hold.setLock i (l.map Held.lk) } := by
  have : (fun j => ((c.set i l).locks j).map Held.lk) =
      update (fun j => (c.locks j).map Held.lk) i (l.map Held.lk) := by
    funext j
    by_cases hj : j = i
    · subst hj; simp [LogClient.set]
    · simp [LogClient.set, update_of_ne hj]
  simp only [LogClient.ghost, this]
  rfl

variable {i : Nat} {V' : Nat → Block} {c : Conf LogAct LogSt LogClient}

theorem LogClient.ghost_lock {c : LogClient} {l : Held} (hl : c.locks i = some l) :
    c.ghost.hold.locks i = some l.lk := by
  simp [LogClient.ghost, hl]

/-- Every call of a client is safe. -/
theorem logCalls (D : LogDev) (d₀ : Nat → Block) : Sys.Calls (LogSys D) (logLogic D d₀ false) fun _ c => c.ghost := by
  intro t s γ c p _ _ hcall
  cases (hcall : LogCall D c p) with
  | bread b hb =>
    refine Safe.bind (safe_bread hb rfl fun i _ => ?_)
    show _ = (c.set i _).ghost
    rw [c.ghost_set]; rfl
  | modify i l d hl ho hb =>
    refine Safe.bind (safe_setData (LogClient.ghost_lock hl) ?_)
    show _ = (c.set i _).ghost
    rw [c.ghost_set]; rfl
  | logWrite i l hl ho hb =>
    refine Safe.bind (safe_logWrite ho (LogClient.ghost_lock hl) rfl hb ?_)
    show _ = (c.set i _).ghost
    rw [c.ghost_set]; rfl
  | brelse i l hl hd =>
    refine Safe.bind (safe_brelse_code (LogClient.ghost_lock hl) hd rfl rfl (fun _ => rfl) ?_)
    show _ = (c.set i _).ghost
    rw [c.ghost_set]; rfl
  | beginOp ho => exact Safe.bind (safe_beginOp ho rfl)
  | endOp ho => exact Safe.bind (safe_endOp_code rfl ho rfl rfl)

/-! ## Recovery -/

/-- A recovery from the disk `d` ends with the home blocks as in `V`. -/
def Recoverable (D : LogDev) (d V : Nat → Block) : Prop := ∃ L, Installing D d V L 0

variable {d V disk : Nat → Block} {L : List Nat} {log : Log} {h : List LogEv} {κ : Tid → Ctl} {ph : Phase}
  {s s₀ : LogSt}

theorem Installing.recoverable {k : Nat}
    (h : Installing D d V L k) (hV : ∀ b, D.home b → V b = V' b) : Recoverable D d V' := by
  refine ⟨L, h.lh, h.head, fun j hj => ?_, fun b hb hn => ?_, Nat.zero_le _⟩
  · rw [h.slot j hj, hV _ (h.lh.home _ (List.getElem_mem hj))]
  · rw [← hV b hb]
    refine h.home b hb fun hm => hn ?_
    exact List.mem_of_mem_drop hm

theorem Unchanged.recoverable {B : Nat → Block} (h : Unchanged D d B)
    (hV : ∀ b, D.home b → B b = V b) : Recoverable D d V :=
  ⟨[], LhOk.nil D, h.head, fun j hj => absurd hj (Nat.not_lt_zero j),
    fun b hb _ => (h.home b hb).trans (hV b hb), Nat.zero_le _⟩

/-- In the middle of a recovery, the disk is still recoverable. -/
theorem LogInv.recoverable (hi : LogInv D V true disk log h κ ph) : Recoverable D disk V := by
  obtain rfl := hi.fresh rfl
  have hp := hi.phase
  cases ph with
  | idle => cases hp.1
  | writing V' L k => cases hp.1
  | inst V' L k u => exact hp.2.2.1.recoverable fun b hb => (hp.2.1 b hb).symm
  | cleared V' L => exact hp.2.2.recoverable fun b hb => (hp.2.1 b hb).symm
  | done V' => exact hp.2.2.recoverable fun b hb => (hp.2.1 b hb).symm
  | boot V' L => exact hp.2.2.2.recoverable fun b hb => (hp.2.2.1 b hb).symm

/-- The ghost values at a boot: thread 0 recovers. -/
def bootGhost (V : Nat → Block) (L : List Nat) : Tid → LogGhost :=
  Function.update (fun _ => {}) 0 { phase := .boot V L }

theorem boot_all (h : Installing D d V L 0) : LogAll D V true { disk := d } (bootGhost V L) := by
  have hctl : ∀ t, ((bootGhost V L t).ctl).inOp = false ∧
      ∀ i, ((bootGhost V L t).ctl).wrote i = none := fun t => by
    by_cases ht : t = 0
    · subst ht; exact ⟨rfl, fun _ => rfl⟩
    · simp [bootGhost, update_of_ne ht, LogGhost.ctl]
  refine ⟨.boot V L, ⟨⟨0, rfl, fun u hu => ?_⟩, by simp, fun _ t => (hctl t).1,
    ⟨[], List.nodup_nil, fun t => by simp [(hctl t).1], rfl⟩, LhOk.nil D,
    ⟨rfl, rfl, fun _ _ => rfl, h⟩, fun e => (by cases e), fun _ => ⟨rfl, fun e => by cases e⟩,
    fun b hb => absurd rfl hb, fun e => (by cases e), fun b => .inr rfl, fun t i b hb => ?_, fun g hg => (by cases hg),
    fun u hu => (by cases hu), by simp [Redo.NoSplit, closed], fun _ => rfl⟩, ?_⟩
  · simp [bootGhost, update_of_ne hu, LogGhost.ctl]
  · rw [(hctl t).2] at hb; cases hb
  · have hhold : (fun t => (bootGhost V L t).hold) = fun _ => {} := by
      funext t
      by_cases ht : t = 0
      · subst ht; rfl
      · simp [bootGhost, update_of_ne ht]
    rw [hhold]
    exact CacheInv.binit D.dev_ne

/-- A recovery that has ended satisfies the invariant of the running system. -/
theorem LogInv.start (hi : LogInv D disk true disk log h κ (.done V)) :
    LogInv D disk false disk log h (fun t => { κ t with phase := .idle }) .idle := by
  obtain rfl := hi.fresh rfl
  obtain ⟨hlh, hV, hU⟩ := hi.phase
  have hc : log.committing = false := by
    cases hcm : log.committing with
    | false => rfl
    | true => cases (hi.committing.mp hcm).1
  refine ⟨⟨0, rfl, fun _ _ => rfl⟩, by simp [hc], fun hne => absurd rfl hne, hi.ops, hi.lh,
    ⟨rfl, ⟨hU.head, fun b _ => rfl⟩, fun b _ _ => rfl⟩, fun _ => rfl, fun hne => absurd rfl hne,
    hi.logged, fun _ b hb => (by rw [hlh] at hb; cases hb), hi.rel, hi.wrote, hi.old, hi.opened, hi.noSplit,
      fun e => by cases e⟩

/-- The invariant does not read the first contents of the log area. -/
theorem Recoverable.congr (h : Recoverable D d V) (hV : ∀ b, D.home b → V b = V' b) : Recoverable D d V' := by
  obtain ⟨L, h⟩ := h
  exact h.recoverable hV

/-- What a part of a recovery keeps. -/
theorem steps_recover (h : Installing D d V L 0) {p : Prog LogAct Unit}
    (hs : Steps logExec 0 (Code.recoverFromLog D) { disk := d } p s) :
    ∃ g, LogAll D V true s (update (bootGhost V L) 0 g) ∧
      p.Safe (logLogic D V true) 0 (fun _ g => g = { phase := .done V }) g :=
  Safe.steps (L := logLogic D V true) hs (safe_recoverFromLog (V := V) (L := L) rfl rfl rfl)
    (boot_all h)

/-- The end of one recovery. -/
theorem steps_recovered (h : Installing D d V L 0)
    (hs : Steps logExec 0 (Code.recoverFromLog D) { disk := d } (.ret ()) s) :
    LogAll D V true s (update (fun _ => {}) 0 { phase := .done V }) := by
  obtain ⟨g, hall, hg⟩ := steps_recover h hs
  obtain rfl : g = { phase := .done V } := hg
  simpa [bootGhost] using hall

/-- **A boot from a recoverable disk**: the home blocks are recovered, and the running system
starts in its invariant. -/
theorem RecoversTo.all (h : RecoversTo D d s) (hd : Recoverable D d V) :
    (∀ b, D.home b → s.disk b = V b) ∧ LogAll D s.disk false s fun _ => {} := by
  induction h with
  | crash hs _ ih =>
    obtain ⟨L, hd⟩ := hd
    obtain ⟨g, ⟨ph, hL, -⟩, -⟩ := steps_recover hd hs
    exact ih hL.recoverable
  | @done d s hs =>
    have hphase : ∀ {V : Nat → Block} {ph : Phase}, LogInv D V true s.disk s.log s.hist (fun t =>
        (update (fun _ => ({} : LogGhost)) 0 { phase := .done V } t).ctl) ph →
        ph = .done V := fun hL => hL.phase_eq (t := 0) (by simp [LogGhost.ctl])
    have hhome : ∀ b, D.home b → s.disk b = V b := by
      obtain ⟨L, hd⟩ := hd
      obtain ⟨ph, hL, -⟩ := steps_recovered hd hs
      obtain rfl := hphase hL
      exact hL.phase.2.2.home
    refine ⟨hhome, ?_⟩
    -- the same recovery, with the disk that it leaves as its aim
    obtain ⟨L, hd'⟩ := hd.congr fun b hb => (hhome b hb).symm
    obtain ⟨ph, hL, hc⟩ := steps_recovered hd' hs
    obtain rfl := hphase hL
    have hlh : s.log.lh = [] := hL.phase.1
    have hctl : (fun t => { (update (fun _ => ({} : LogGhost)) 0
        { phase := .done s.disk } t).ctl with phase := .idle }) =
        fun _ : Tid => ({} : LogGhost).ctl := by
      funext t
      by_cases ht : t = 0
      · subst ht; rfl
      · simp [update_of_ne ht, LogGhost.ctl]
    have hhold : (fun t => (update (fun _ => ({} : LogGhost)) 0
        { phase := .done s.disk } t).hold) = fun _ : Tid => ({} : Hold) := by
      funext t
      by_cases ht : t = 0
      · subst ht; rfl
      · simp [update_of_ne ht]
    refine ⟨.idle, hctl ▸ hL.start, ?_⟩
    rw [hhold, hL.fresh rfl] at hc
    rw [hL.fresh rfl]
    have hcur : cur D s.disk false s.disk [] = cur D s.disk true s.disk [] := by
      funext b
      simp only [cur, view_nil, ite_self]
    rw [hcur]
    simpa [pinned, hlh] using hc

/-! ## Runs -/

/-- The blocks of the disk after a crash, in terms of the history of the run. -/
theorem LogInv.crash (hi : LogInv D d₀ false disk log h κ ph) :
    ∃ k, commits h ≤ k ∧ k ≤ (closed h).length ∧ Recoverable D disk (after d₀ h k) := by
  have hp := hi.phase
  -- before the header is written the base is on the disk, after it the closed groups are
  have hnew : ∀ {V : Nat → Block}, ph ≠ .idle → (∀ b, D.home b → view d₀ h b = V b) →
      commits h ≤ (closed h).length ∧
        ∀ b, D.home b → V b = after d₀ h (closed h).length b := fun hne hV => by
    obtain ⟨ho, hc⟩ := hi.busy hne
    have := hc rfl
    exact ⟨by omega, fun b hb => by rw [after_all d₀ h ho, hV b hb]⟩
  cases ph with
  | idle =>
    have := hi.idle rfl
    exact ⟨commits h, Nat.le_refl _, by omega, hp.2.1.recoverable fun _ _ => rfl⟩
  | writing V L k =>
    have := (hi.busy (by simp)).2 rfl
    exact ⟨commits h, Nat.le_refl _, by omega, hp.2.2.2.1.recoverable fun _ _ => rfl⟩
  | inst V L k u =>
    obtain ⟨hc, hV⟩ := hnew (by simp) hp.2.1
    exact ⟨_, hc, Nat.le_refl _, hp.2.2.1.recoverable hV⟩
  | cleared V L =>
    obtain ⟨hc, hV⟩ := hnew (by simp) hp.2.1
    exact ⟨_, hc, Nat.le_refl _, hp.2.2.recoverable hV⟩
  | done V =>
    obtain ⟨hc, hV⟩ := hnew (by simp) hp.2.1
    exact ⟨_, hc, Nat.le_refl _, hp.2.2.recoverable hV⟩
  | boot V L => cases hp.1

/-- Every state of a run satisfies the invariant. -/
theorem reach_ok (h₀ : LogAll D s₀.disk false s₀ fun _ => {}) (hc : (LogSys D).Reach s₀.idle c) :
    Sys.Ok (logLogic D s₀.disk false) (fun _ c => c.ghost) c :=
  hc.safe rfl (logCalls D s₀.disk) ⟨fun _ => {}, h₀, fun _ => rfl⟩

/-- The first state after a boot satisfies the invariant. -/
theorem Booted.all (h : Booted D s₀) : LogAll D s₀.disk false s₀ fun _ => {} := by
  induction h with
  | @mkfs d s hd h =>
    exact (h.all (V := d) ⟨[], LhOk.nil D, hd, fun j hj => absurd hj (Nat.not_lt_zero j),
      fun _ _ _ => rfl, Nat.zero_le _⟩).2
  | again _ hc h ih =>
    obtain ⟨γ, ⟨ph, hL, -⟩, -⟩ := reach_ok ih hc
    obtain ⟨k, -, -, hk⟩ := hL.crash
    exact (h.all hk).2

/-- A clean buffer whose holder did not log it has what was released last. -/
theorem read_released {γ : Tid → LogGhost} (hall : LogAll D d₀ false s γ) {t : Tid} {l : Lk}
    (hl : (γ t).hold.locks i = some l) (hv : l.valid = true) (hd : l.dirty = none)
    (hw : l.wrote = false) : (s.buf i).dev = D.dev ∧ (s.buf i).blockno = l.b ∧
      (s.buf i).data = (lastReleased l.b s.hist).getD (s.disk l.b) := by
  obtain ⟨ph, hL, hc⟩ := hall
  have hk := hc.lkOk (t := t) hl
  refine ⟨hk.dev, hk.blockno, ?_⟩
  have hdata : (s.buf i).data = cur D d₀ false s.disk s.hist l.b := hk.clean hd hv
  -- nobody else holds the block, so what was logged has been released
  have hrel : lastReleased l.b s.hist = lastLogged l.b s.hist := by
    rcases hL.rel l.b with ⟨u, j, hj⟩ | hrel
    · cases hlj : (γ u).hold.locks j with
      | none => simp [LogGhost.ctl, hlj] at hj
      | some k =>
        simp only [LogGhost.ctl, hlj, Option.bind_some, Lk.wroteBlock] at hj
        split at hj
        · rename_i hkw
          obtain ⟨rfl, rfl⟩ := hc.lock_eq (t := t) (u := u) hl hlj (Option.some.inj hj).symm
          have : l = k := Option.some.inj (hl.symm.trans hlj)
          rw [this, hkw] at hw; cases hw
        · cases hj
    · exact hrel
  rw [hdata, hrel]
  cases hlog : lastLogged l.b s.hist with
  | none =>
    refine (hL.disk_cur fun hp => ?_).symm
    exact hL.lhLogged rfl l.b (hL.mem_lh_of_pinned hp) hlog
  | some d =>
    rw [cur_home (hL.logged l.b (by rw [hlog]; simp)), view_eq, hlog]
    rfl

/-- The blocks of `log.lh`: the first `u` are on the disk, each later one has one pin. -/
theorem LogInv.installed (hi : LogInv D d₀ false disk log h κ ph) :
    ∃ u, u ≤ log.lh.length ∧ (∀ b ∈ log.lh.take u, disk b = view d₀ h b) ∧
      pinned false log.lh ph = log.lh.drop u := by
  have hp := hi.phase
  cases ph with
  | idle => exact ⟨0, Nat.zero_le _, by simp, rfl⟩
  | writing V L k => exact ⟨0, Nat.zero_le _, by simp, hp.2.1.symm⟩
  | inst V L k u =>
    obtain ⟨rfl, hV, hI, hu⟩ := hp
    refine ⟨u, Nat.le_trans hu hI.le, fun b hb => ?_, rfl⟩
    have hmem := List.mem_of_mem_take hb
    rw [hV b (hI.lh.home b hmem)]
    refine hI.home b (hI.lh.home b hmem) fun hd => ?_
    -- the numbers are distinct, so a block of the first `u` is not among the later ones
    have hdis := List.disjoint_take_drop hI.lh.nodup hu
    exact hdis hb hd
  | cleared V L => exact ⟨0, Nat.zero_le _, by simp, hp.1.symm⟩
  | done V => exact ⟨0, Nat.zero_le _, by simp, hp.1.symm⟩
  | boot V L => cases hp.1

/-! ## One operation -/

/-- Device 1, with the log at block 2. -/
def rootDev : LogDev := ⟨1, 2, by decide, by decide⟩

/-- The machine after a boot from a disk of zeros. -/
def zeroBoot : LogSt :=
  match (Code.recoverFromLog rootDev).run logExec 0 { disk := fun _ _ => 0 } with
  | some (.ok (_, s)) => s
  | _ => { disk := fun _ _ => 0 }

/-- Thread 0 makes a call while all other threads are idle. -/
def LogClient.next (p : LogClient → Prog LogAct LogClient) (w : LogClient × LogSt) :
    LogClient × LogSt :=
  match (p w.1).run logExec 0 w.2 with
  | some (.ok w') => w'
  | _ => w

/-- Thread 0 writes 7 to all bytes of block 40, in one operation. -/
def oneOp : LogClient × LogSt :=
  LogClient.next (·.endOp rootDev) <|
  LogClient.next (·.brelse 1) <|
  LogClient.next (·.logWrite 1 { b := 40, dirty := some fun _ => 7 }) <|
  LogClient.next (·.modify 1 { b := 40 } fun _ => 7) <|
  LogClient.next (·.bread rootDev 40) <|
  LogClient.next (·.beginOp) ({}, zeroBoot)

/-- The state of the system in which thread 0's client is at `w`. -/
def alone (w : LogClient × LogSt) : Conf LogAct LogSt LogClient :=
  ⟨w.2, Function.update (fun _ => .idle {}) 0 (.idle w.1)⟩

theorem zeroBoot_booted : Booted rootDev zeroBoot :=
  .mkfs (d := fun _ _ => 0) rfl (.done (steps_of_run rfl))

theorem next_reach {w : LogClient × LogSt} {p : LogClient → Prog LogAct LogClient}
    (h : (LogSys D).Reach s₀.idle (alone w)) (hc : LogCall D w.1 (p w.1)) :
    (LogSys D).Reach s₀.idle (alone (LogClient.next p w)) := by
  unfold LogClient.next
  split
  · rename_i w' hr
    exact h.run hc hr
  · exact h

theorem oneOp_reach : (LogSys rootDev).Reach zeroBoot.idle (alone oneOp) := by
  have h0 : (LogSys rootDev).Reach zeroBoot.idle (alone ({}, zeroBoot)) := by
    rw [alone, update_eq_self_iff.mpr rfl]; exact .init
  have h1 := next_reach (p := (·.beginOp)) h0 (.beginOp rfl)
  have h2 := next_reach (p := (·.bread rootDev 40)) h1 (.bread 40 (by decide))
  have h3 := next_reach (p := (·.modify 1 { b := 40 } fun _ => 7)) h2 (.modify 1 _ _ rfl rfl rfl)
  have h4 := next_reach (p := (·.logWrite 1 { b := 40, dirty := some fun _ => 7 })) h3
    (.logWrite 1 _ rfl rfl rfl)
  have h5 := next_reach (p := (·.brelse 1)) h4 (.brelse 1 { b := 40, wrote := true } rfl rfl)
  exact next_reach (p := (·.endOp rootDev)) h5 (.endOp rfl)

/-- **Coherence of the cache and the log.** In every state that clients reach after a boot:
a buffer that a client got from `bread`, and has neither changed nor logged, holds what a client
that logged the block released last, or the disk's contents if none did. The numbers in `log.lh` are
distinct and at most `LOGBLOCKS`. After the first `u` of them, which are on the disk, each has a
buffer with exactly one pin, and no other buffer is pinned. During a commit no operation runs. -/
theorem cache_coherent {s₀ : LogSt} {c : Conf LogAct LogSt LogClient} (h₀ : Booted D s₀)
    (hc : (LogSys D).Reach s₀.idle c) :
    (∀ t cl i l, c.thr t = .idle cl ∨ c.thr t = .busy (.ret cl) → cl.locks i = some l →
      l.dirty = none → l.wrote = false →
        (c.st.buf i).dev = D.dev ∧ (c.st.buf i).blockno = l.b ∧
          (c.st.buf i).data = (lastReleased l.b c.st.hist).getD (c.st.disk l.b)) ∧
    c.st.log.lh.Nodup ∧ c.st.log.lh.length ≤ LOGBLOCKS ∧
    (∃ u, u ≤ c.st.log.lh.length ∧
      (∀ b ∈ c.st.log.lh.take u, c.st.disk b = view s₀.disk c.st.hist b) ∧
      (∀ b ∈ c.st.log.lh.drop u, ∃! i, (c.st.buf i).dev = D.dev ∧ (c.st.buf i).blockno = b) ∧
      ∀ i, (c.st.buf i).refcnt = (c.st.buf i).users.length + (c.st.buf i).pins ∧
        (c.st.buf i).pins =
          if (c.st.buf i).dev = D.dev ∧ (c.st.buf i).blockno ∈ c.st.log.lh.drop u then 1 else 0) ∧
    (c.st.log.committing = true → c.st.log.outstanding = 0) := by
  obtain ⟨γ, hall, hθ⟩ := reach_ok h₀.all hc
  refine ⟨fun t cl i l ht hl hd hw => ?_, ?_⟩
  · have hγ : γ t = cl.ghost := by
      have h := hθ t
      rcases ht with ht | ht <;> rw [ht] at h <;> exact h
    exact read_released hall (t := t) (l := l.lk) (by rw [hγ]; exact LogClient.ghost_lock hl) rfl hd hw
  obtain ⟨ph, hL, hcache⟩ := hall
  obtain ⟨u, hu, hdisk, hpin⟩ := hL.installed
  rw [hpin] at hcache
  refine ⟨hL.lh.nodup, hL.lh.le, ⟨u, hu, hdisk, fun b hb => ?_, fun i => ?_⟩, fun hcm => ?_⟩
  · obtain ⟨i, hd, hb, -⟩ := hcache.cached b hb
    exact ⟨i, ⟨hd, hb⟩, fun j hj => hcache.key j i hj.1 hd (hj.2.trans hb.symm)⟩
  · exact ⟨(hcache.buf i).refcnt, (hcache.buf i).pins⟩
  · -- a commit runs, so no thread is in an operation
    have hq := hL.quiet (hL.committing.mp hcm).2
    obtain ⟨ops, -, hm, hlen⟩ := hL.ops
    have hnil : ops = [] := List.eq_nil_iff_forall_not_mem.mpr fun t ht => by
      have h1 := (hm t).mp ht
      rw [hq t] at h1; cases h1
    rw [hlen, hnil]; rfl

/-- Thread 0 reads block 40 again. -/
theorem cache_coherent_reread :
    ((LogClient.next (·.bread rootDev 40) oneOp).2.buf 1).data = fun _ => 7 := by
  have hr : (LogSys rootDev).Reach zeroBoot.idle (alone (LogClient.next (·.bread rootDev 40) oneOp)) :=
    next_reach oneOp_reach (.bread 40 (by decide))
  exact ((cache_coherent zeroBoot_booted hr).1 0 _ 1 { b := 40 } (.inl rfl) rfl rfl rfl).2.2

/-- **Crash atomicity.** The machine boots, clients run, the machine crashes at any point, and a
recovery, itself crashing any number of times, runs to its end. Then the blocks outside the log
area are those of the boot with the updates of the first `k` commit groups; these include every
group whose `commit()` returned, and no operation has updates in two groups. -/
theorem crash_atomic {s₀ s : LogSt} {c : Conf LogAct LogSt LogClient} (h₀ : Booted D s₀)
    (hc : (LogSys D).Reach s₀.idle c) (hr : RecoversTo D c.st.disk s) :
    Redo.NoSplit (closed c.st.hist ++ [openUpds c.st.hist]) ∧
      ∃ k, commits c.st.hist ≤ k ∧ k ≤ (closed c.st.hist).length ∧
        ∀ b, D.home b → s.disk b = Redo.apply s₀.disk ((closed c.st.hist).take k).flatten b := by
  obtain ⟨γ, ⟨ph, hL, -⟩, -⟩ := reach_ok h₀.all hc
  obtain ⟨k, hk, hk', hrec⟩ := hL.crash
  exact ⟨hL.noSplit, k, hk, hk', (hr.all hrec).1⟩

/-- A crash after `oneOp`. -/
theorem crash_atomic_oneOp : ∃ s, RecoversTo rootDev oneOp.2.disk s ∧ commits oneOp.2.hist = 1 ∧
    ∃ k, 1 ≤ k ∧ ∀ b, rootDev.home b →
      s.disk b = Redo.apply zeroBoot.disk ((closed oneOp.2.hist).take k).flatten b := by
  have hr : RecoversTo rootDev oneOp.2.disk _ := .done (steps_of_run rfl)
  obtain ⟨-, k, hk, -, hb⟩ := crash_atomic zeroBoot_booted oneOp_reach hr
  exact ⟨_, hr, rfl, k, hk, hb⟩

/-- **Between two commits the disk needs no recovery.** In every state that clients reach after a boot, while
`log.committing` is not set: the header on the disk is empty, and the blocks outside the log area hold the updates
of all closed commit groups and of no operation that is executing. -/
theorem disk_between_commits {s₀ : LogSt} (h₀ : Booted D s₀)
    (hc : (LogSys D).Reach s₀.idle c) (hq : c.st.log.committing = false) : Hdr.read (c.st.disk D.start) = [] ∧
      ∀ b, D.home b → c.st.disk b = Redo.apply s₀.disk (closed c.st.hist).flatten b := by
  obtain ⟨γ, ⟨ph, hL, -⟩, -⟩ := reach_ok h₀.all hc
  have hidle : ph = .idle := by
    by_contra hne
    rw [hL.committing.mpr ⟨rfl, hne⟩] at hq
    cases hq
  have hp := hL.phase
  rw [hidle] at hp
  refine ⟨hp.2.1.head, fun b hb => (hp.2.1.home b hb).trans ?_⟩
  rw [base, after, ← hL.idle hidle, List.take_length]

/-- After `oneOp`. -/
theorem disk_between_commits_oneOp : oneOp.2.disk 40 = fun _ => 7 :=
  (disk_between_commits zeroBoot_booted oneOp_reach rfl).2 40 rfl

end Xv6
