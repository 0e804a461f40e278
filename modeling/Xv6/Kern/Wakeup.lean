import Xv6.Kern.Sleep

/-!
# `sleep` and `wakeup`

`sleep_safe` and `wakeup_safe` are the rules for the two functions, called with the lock of the
channel held. `sleep` needs that the process may wait: it has no wakeup to do, and waits for what is
not there. `wakeup` pays the wakeups that are due on the channel.
-/

namespace Xv6.Kern

open Conc Prog

/-- Not on the way to sleep, nor asleep. -/
def Ph.awake : Ph → Prop
  | .between _ | .asleep _ => False
  | _ => True

section

variable {ok : Cond} {s s' : St} {γ : Tid → Gw} {t u : Tid} {g g' : Gw} {α β : Type} {Q : α → Gw → Prop}

theorem not_waits (h : g.ph.awake) (ch : Chan) : ¬ g.Waits s t ch := by
  rintro (hp | ⟨hp, -⟩) <;> rw [hp] at h <;> exact h

/-! ## Calm actions -/

variable {a : Act β} {f : β → Prog Act α} {h : Hold}

theorem Calm.pre (h : Calm t g a) : sleepPre ok t a s := by
  cases a with
  | put | get | writeBegin | readEnd => exact h.elim
  | _ => trivial

theorem calm_answers : answers t a (a.answer t s) := by
  cases a with
  | myproc => rfl
  | _ => trivial

theorem calm_frame (hg : g.ph.awake) : Frame (sleepLogic ok) t g (Calm t g) (answers t) := by
  intro β a s γ h hi hγ
  refine ⟨h.pre, fun b s' he => ?_⟩
  have hok := execIf_ok he
  obtain ⟨hc, rfl, rfl⟩ := exec_ok (execIf_exec _ _ _ _ he)
  exact ⟨calm_answers, h.keep hi hγ (fun ch => not_waits hg ch) hok hc⟩

/-- A calm action, then the rest. -/
theorem Calm.step (ha : Calm t g a) (hg : g.ph.awake) (hf : ∀ b, answers t a b → (f b).Safe (sleepLogic ok) t Q g) :
    (call a >>= f).Safe (sleepLogic ok) t Q g := by
  intro s γ hi hγ
  obtain ⟨hp, he⟩ := calm_frame hg a s γ ha hi hγ
  refine ⟨hp, fun b s' hs => ⟨g, ?_, hf b (he b s' hs).1⟩⟩
  rw [← hγ, Function.update_eq_self]
  exact (he b s' hs).2

/-- A function of calm actions, then the rest. -/
theorem Calm.bind {p : Prog Act β} (hp : p.Only (Calm t g) (answers t))
    (hg : g.ph.awake) (hf : ∀ b, (f b).Safe (sleepLogic ok) t Q g) : (p >>= f).Safe (sleepLogic ok) t Q g :=
  Safe.bind ((hp.safe (calm_frame hg)).mono fun b _ e => e ▸ hf b)

/-! ## Steps that change the ghost value only -/

theorem Same.refl : Same ok g s s u :=
  ⟨fun _ _ => id, fun _ _ _ _ _ => rfl, fun h => ⟨h, rfl⟩, id, fun _ _ he _ => he, fun _ _ => rfl,
    fun _ => rfl, rfl, fun _ _ => id⟩

/-- A new ghost value for thread `t`, which does not wait. -/
theorem SleepOk.setGhost (h : SleepOk ok s γ) (hγ : γ t = g) (hg : g'.Ok ok s t)
    (hscan : ∀ ch k b, g'.ph = .waking ch k b → ∀ q < k, q ≠ t → ¬ (γ q).Waits s q ch)
    (hw : g'.ph.awake)
    (hwait : Kills ok → ∀ ch, (∃ q, q ≠ t ∧ (γ q).Waits s q ch) → g.hold.owes ch = true →
      ch.Idle s ∨ g'.hold.owes ch = true) : SleepOk ok s (Function.update γ t g') :=
  h.step hγ (fun _ _ => Same.refl) h.counts hg hscan (fun ch hc => (not_waits hw ch hc).elim)
    (fun _ ch hc => (not_waits hw ch hc).elim) fun hk ch hq ho => ho.elim .inl (hwait hk ch hq)

/-- A calm action, and a new ghost value after it. -/
theorem Calm.move (ha : Calm t g a) (hg : g.ph.awake)
    (hf : ∀ s γ, SleepOk ok s γ → γ t = g → a.check t s = some (.ok ()) →
      SleepOk ok (a.effect t s) γ → ∃ g', SleepOk ok (a.effect t s) (Function.update γ t g') ∧
        (f (a.answer t s)).Safe (sleepLogic ok) t Q g') : (call a >>= f).Safe (sleepLogic ok) t Q g := by
  refine actIf_safe rfl fun s γ hi hγ => ⟨ha.pre, fun hok hc => ?_⟩
  exact hf s γ hi hγ hc (ha.keep hi hγ (fun ch => not_waits hg ch) hok hc)

/-! ## `sleep` -/

/-- The thread may wait on the channel: no wakeup is due, and what it waits for is not there. -/
def Hold.mayWait (ch : Chan) : Hold → Prop
  | none => True
  | lock l => ∀ pi, l ≠ .pipe pi
  | pipe pi v r w => r = false ∧ w = false ∧
    (ch = .nread pi → v.empty = true ∧ v.writeopen = true) ∧ (ch = .nwrite pi → v.full = true ∧ v.readopen = true)

/-- What the thread holds after the `sleep`: the value of a pipe may be a new one. -/
def Hold.again (s : St) : Hold → Hold
  | pipe pi _ _ _ => pipe pi (s.pipe pi) false false
  | h => h

theorem Hold.again_lk : (h.again s).lk = h.lk := by cases h <;> rfl

theorem Hold.mayWait.owes {ch ch' : Chan} (hm : h.mayWait ch) : h.owes ch' = false := by
  cases h with
  | none => cases ch' <;> rfl
  | lock l => cases ch' <;> rfl
  | pipe pi v r w =>
    obtain ⟨rfl, rfl, -⟩ := hm
    cases ch' <;> simp [Hold.owes]

theorem Hold.mayWait.idle {ch : Chan} (hm : h.mayWait ch) (hl : h.lk = some (lockOf ch))
    (hp : ∀ pi v r w, h = .pipe pi v r w → s.pipe pi = v) : ch.Idle s := by
  cases h with
  | none => cases hl
  | lock l =>
    obtain rfl : l = lockOf ch := Option.some.inj hl
    cases ch with
    | nread pi | nwrite pi => exact (hm pi rfl).elim
    | _ => trivial
  | pipe pi v r w =>
    obtain ⟨-, -, h1, h2⟩ := hm
    have hv := hp pi v r w rfl
    cases ch with
    | nread pi' =>
      obtain rfl : pi = pi' := by simpa [Hold.lk, lockOf] using hl
      show (s.pipe pi).empty = true ∧ _
      rw [hv]
      exact h1 rfl
    | nwrite pi' =>
      obtain rfl : pi = pi' := by simpa [Hold.lk, lockOf] using hl
      show (s.pipe pi).full = true ∧ _
      rw [hv]
      exact h2 rfl
    | _ => trivial

/-- A thread that is not in the part of `sleep` where it may be asleep. -/
theorem Gw.Ok.upright (h : g.Ok ok s t) (h1 : ∀ ch, g.ph ≠ .asleep ch) (h2 : g.ph ≠ .woken) :
    (s.proc t).state ≠ .sleeping ∧ (s.proc t).chan = none := by
  refine ⟨fun hs => ?_, ?_⟩
  · obtain ⟨ch, hp, -⟩ := h.state hs
    exact h1 ch hp
  · by_contra hc
    rcases h.chan hc with ⟨ch, hp⟩ | hp
    · exact h1 ch hp
    · exact h2 hp

/-- A thread moves on in `sleep` or `wakeup`. -/
theorem Gw.Ok.setPh {p : Ph} (h : g.Ok ok s t) (hs : (s.proc t).state ≠ .sleeping)
    (hc : (s.proc t).chan = none)
    (hl : ∀ l, ({ g with ph := p } : Gw).Has t l → s.lock l = some t)
    (hk : ∀ ch k b, p = .waking ch k b → g.hold.lk = some (lockOf ch)) (hp : p.awake) :
    ({ g with ph := p } : Gw).Ok ok s t where
  lock := hl
  pipe := h.pipe
  waking := hk
  state h := (hs h).elim
  chan h := (h hc).elim
  news ch hw := (not_waits (g := { g with ph := p }) hp ch hw).elim
  call := h.call
  dirty := h.dirty

section

variable {ch : Chan} {H : Hold} {d : Bool} {c : Option (Nat × (Nat → Option UInt8) × Nat)}

variable {f : Unit → Prog Act α}

/-- `acquire(&p->lock)` in `sleep`. -/
theorem ready_step (hf : (f ()).Safe (sleepLogic ok) t Q ⟨H, .ready, d, c⟩) :
    (call (.acquire (.proc t)) >>= f).Safe (sleepLogic ok) t Q ⟨H, .run, d, c⟩ := by
  refine Calm.move trivial trivial fun s γ _ hγ hc hi => ⟨⟨H, .ready, d, c⟩, ?_, hf⟩
  have ho := hi.thr t
  rw [hγ] at ho
  obtain ⟨h1, h2⟩ := ho.upright (by simp) (by simp)
  refine hi.setGhost hγ (ho.setPh (p := .ready) h1 h2 ?_ (by simp) trivial) (by simp)
    trivial fun _ _ _ => .inr
  rintro l (hl | ⟨rfl, -⟩ | ⟨ch, k, h, -⟩)
  · exact ho.lock l (.inl hl)
  · simp [Act.effect]
  · cases h

/-- `release(lk)` in `sleep`: from here on the process waits. -/
theorem between_step (ht : t < NPROC) (hl : H.lk = some (lockOf ch)) (hm : Kills ok → H.mayWait ch)
    (hf : (f ()).Safe (sleepLogic ok) t Q ⟨.none, .between ch, d, c⟩) :
    (call (.release (lockOf ch)) >>= f).Safe (sleepLogic ok) t Q ⟨H, .ready, d, c⟩ := by
  refine actIf_safe rfl fun s γ hi hγ => ⟨trivial, fun _ hc => ⟨⟨.none, .between ch, d, c⟩, ?_, hf⟩⟩
  have hlk := check_release hc
  have ho := SleepOk.thr hi t
  rw [hγ] at ho
  obtain ⟨h1, h2⟩ := ho.upright (by simp) (by simp)
  have hwaits : ∀ ch', (⟨.none, .between ch, d, c⟩ : Gw).Waits s t ch' → ch = ch' := by
    rintro ch' (hp | ⟨hp, -⟩)
    · injection hp
    · cases hp
  have hg : (⟨.none, .between ch, d, c⟩ : Gw).Ok ok s t := by
    refine ⟨?_, fun _ _ _ _ h => (nomatch h), fun _ _ _ h => (nomatch h), fun h => (h1 h).elim,
      fun h => (h h2).elim, fun ch' hw => ⟨ht, fun n hn => ?_⟩, ho.call, ho.dirty⟩
    · rintro l (hl | ⟨rfl, -⟩ | ⟨ch, k, h, -⟩)
      · cases hl
      · exact ho.lock _ (.inr (.inl ⟨rfl, .inl rfl⟩))
      · cases h
    · obtain rfl := hwaits ch' hw
      rw [(SleepOk.counts hi).last t ch hlk]
      exact (SleepOk.counts hi).woke ch n hn
  have h' := SleepOk.step hi hγ (fun _ _ => Same.refl)
    (SleepOk.counts hi) hg (fun _ _ _ h => (nomatch h))
    (fun ch' hw => .inr (by rw [← hwaits ch' hw]; exact hlk))
    (fun hk ch' hw => .inl (by rw [← hwaits ch' hw]; exact (hm hk).idle hl ho.pipe)) ?_
  · refine h'.dropLock (t := t) (l := lockOf ch) ⟨rfl, rfl, rfl, rfl, fun _ => .inl⟩ rfl rfl hlk ?_
    rw [Function.update_self]
    rintro (hl | ⟨hl, -⟩ | ⟨ch, k, h, -⟩)
    · cases hl
    · exact lockOf_ne_proc hl
    · cases h
  · rintro hk ch' - (hidle | ho)
    · exact .inl hidle
    · rw [(hm hk).owes] at ho
      cases ho

/-- `p->chan = chan; p->state = SLEEPING`. -/
theorem asleep_step (hf : (f ()).Safe (sleepLogic ok) t Q ⟨.none, .asleep ch, d, c⟩) :
    (call (.setSleeping t ch) >>= f).Safe (sleepLogic ok) t Q ⟨.none, .between ch, d, c⟩ := by
  refine actIf_safe rfl fun s γ hi hγ => ⟨trivial, fun _ _ => ⟨⟨.none, .asleep ch, d, c⟩, ?_, hf⟩⟩
  have ho := SleepOk.thr hi t
  rw [hγ] at ho
  have hw : ∀ ch', (⟨.none, .asleep ch, d, c⟩ : Gw).Waits ((Act.setSleeping t ch).effect t s) t ch' →
      (⟨.none, .between ch, d, c⟩ : Gw).Waits s t ch' := by
    rintro ch' (hp | ⟨hp, -⟩)
    · cases hp
    · injection hp with hp
      exact .inl (by rw [hp])
  refine SleepOk.step hi hγ (fun u hu => ?_) ?_ ?_ (fun _ _ _ h => (nomatch h)) (fun ch' h => .inl (hw ch' h))
    ?_ fun _ _ _ => Or.imp id id
  · have : ((Act.setSleeping t ch).effect t s).proc u = s.proc u :=
      Function.update_of_ne hu ..
    exact ⟨fun _ _ => id, fun _ _ _ _ _ => rfl, by rw [this]; exact fun h => ⟨h, rfl⟩, by rw [this]; exact id,
      fun _ _ he _ => he, fun _ _ => rfl, fun _ => rfl, rfl, by rw [this]; exact fun _ _ => id⟩
  · exact ⟨(SleepOk.counts hi).last, (SleepOk.counts hi).le, (SleepOk.counts hi).woke, (SleepOk.counts hi).slept⟩
  · refine ⟨?_, fun _ _ _ _ h => (nomatch h), fun _ _ _ h => (nomatch h), fun _ => ⟨ch, rfl, by simp [Act.effect]⟩,
      fun _ => .inl ⟨ch, rfl⟩, fun ch' h => ho.news ch' (hw ch' h), ho.call, ?_⟩
    · rintro l (hl | ⟨rfl, h | ⟨ch, h⟩⟩ | ⟨ch, k, h, -⟩) <;> cases ‹_ = _›
    · intro hk
      have := ho.dirty hk
      simpa [Act.effect] using this
  · intro hk ch' h
    have hwt : (γ t).Waits s t ch' := hγ ▸ hw ch' h
    rcases SleepOk.wait hi hk t ch' hwt with hidle | ⟨u, hu⟩
    · exact .inl hidle
    · refine .inr ⟨u, ?_, hu⟩
      rintro rfl
      rw [hγ] at hu
      cases ch' <;> cases hu

/-- `sched` in `sleep`. -/
theorem schedOut_step (hf : (f ()).Safe (sleepLogic ok) t Q ⟨.none, .asleep ch, d, c⟩) :
    (call (.schedOut t) >>= f).Safe (sleepLogic ok) t Q ⟨.none, .asleep ch, d, c⟩ := by
  refine actIf_safe rfl fun s γ hi hγ => ⟨trivial, fun _ hc => ⟨_, ?_, hf⟩⟩
  rw [← hγ, Function.update_eq_self]
  refine SleepOk.dropLock (t := t) (l := .proc t) hi ⟨rfl, rfl, rfl, rfl, fun _ => .inl⟩ rfl rfl
    (schedCheck_ok (Option.some.inj hc)) ?_
  rw [hγ]
  rintro (hl | ⟨-, h | ⟨ch, h⟩⟩ | ⟨ch, k, h, -⟩) <;> cases ‹_ = _›

/-- The scheduler switches to a process in `sleep`. -/
theorem schedIn_step (hf : (f ()).Safe (sleepLogic ok) t Q ⟨.none, .woken, d, c⟩) :
    (call (.schedIn t) >>= f).Safe (sleepLogic ok) t Q ⟨.none, .asleep ch, d, c⟩ := by
  refine actIf_safe rfl fun s γ hi hγ => ⟨trivial, fun _ hc => ⟨⟨.none, .woken, d, c⟩, ?_, hf⟩⟩
  have hi' := SleepOk.schedIn (t := t) hi (check_schedIn hc).2
  have ho := hi'.thr t
  rw [hγ] at ho
  refine hi'.setGhost hγ ?_ (fun _ _ _ h => (nomatch h)) trivial
    (fun _ ch' _ h => by cases ch' <;> cases h)
  refine ⟨?_, fun _ _ _ _ h => (nomatch h), fun _ _ _ h => (nomatch h), fun h => ?_, fun _ => .inr rfl,
    fun ch hw => (not_waits (g := ⟨.none, .woken, d, c⟩) trivial ch hw).elim, ho.call, ho.dirty⟩
  · rintro l (hl | ⟨rfl, h | ⟨ch, h⟩⟩ | ⟨ch, k, h, -⟩) <;> cases ‹_ = _›
  · simp [Act.effect] at h

/-- `p->chan = 0`. -/
theorem clearChan_step (hf : (f ()).Safe (sleepLogic ok) t Q ⟨.none, .run, d, c⟩) :
    (call (.clearChan t) >>= f).Safe (sleepLogic ok) t Q ⟨.none, .woken, d, c⟩ := by
  refine actIf_safe rfl fun s γ hi hγ => ⟨trivial, fun _ _ => ⟨⟨.none, .run, d, c⟩, ?_, hf⟩⟩
  have hs : (s.proc t).state ≠ .sleeping := by
    intro hs
    obtain ⟨ch, hp, -⟩ := (SleepOk.thr hi t).state hs
    rw [hγ] at hp
    cases hp
  have hi' : SleepOk ok ((Act.clearChan t).effect t s) γ :=
    SleepOk.setProc (q := t) hi ⟨rfl, rfl, rfl, rfl, fun _ => .inl⟩ rfl rfl (fun h => (hs h).elim) (by simp)
      fun _ _ => id
  have ho := hi'.thr t
  rw [hγ] at ho
  refine hi'.setGhost hγ (ho.setPh (p := .run) ?_ ?_ ?_ (by simp) trivial) (by simp)
    trivial fun _ _ _ => .inr
  · simpa [Act.effect] using hs
  · simp [Act.effect]
  · rintro l (hl | ⟨rfl, h | ⟨ch, h⟩⟩ | ⟨ch, k, h, -⟩) <;> cases ‹_ = _›

/-- A thread takes a lock that its ghost value then tells of. -/
theorem take_step {l : Lk} (H' : St → Hold) (hl : ∀ s, (H' s).lk = some l)
    (hp : ∀ s pi v r w, H' s = .pipe pi v r w → s.pipe pi = v)
    (hf : ∀ s, (f ()).Safe (sleepLogic ok) t Q ⟨H' s, .run, d, c⟩) :
    (call (.acquire l) >>= f).Safe (sleepLogic ok) t Q ⟨.none, .run, d, c⟩ := by
  refine Calm.move trivial trivial fun s γ _ hγ hc hi => ⟨⟨H' s, .run, d, c⟩, ?_, hf s⟩
  have ho := hi.thr t
  rw [hγ] at ho
  refine hi.setGhost hγ ⟨?_, fun pi v r w => hp s pi v r w, by simp, fun h => ?_, fun h => ?_,
    fun ch hw => (not_waits (g := ⟨H' s, .run, d, c⟩) trivial ch hw).elim, ho.call, ho.dirty⟩ (by simp) trivial
    (fun _ ch' _ h => by cases ch' <;> cases h)
  · rintro l' (h | ⟨-, h | ⟨ch, h⟩⟩ | ⟨ch, k, h, -⟩)
    · obtain rfl : l = l' := Option.some.inj ((hl s).symm.trans h)
      simp [Act.effect]
    all_goals cases h
  · exact ((ho.upright (by simp) (by simp)).1 h).elim
  · exact (h (ho.upright (by simp) (by simp)).2).elim

/-- `sleep` returns. -/
theorem slept_safe {l : Lk} (hl : H.lk = some l) :
    (call (.slept t l)).Safe (sleepLogic ok) t (fun _ g => g = ⟨H, .run, d, c⟩) ⟨H, .run, d, c⟩ := by
  refine actIf_safe (f := ret) rfl fun s γ hi hγ => ⟨trivial, fun _ _ => ⟨_, ?_, rfl⟩⟩
  have ho := SleepOk.thr hi t
  rw [hγ] at ho
  have hlk := ho.lock l (.inl hl)
  have hch := (ho.upright (by simp) (by simp)).2
  rw [← hγ, Function.update_eq_self]
  have hc := SleepOk.counts hi
  refine SleepOk.keep hi (fun u => ?_) ⟨hc.last, hc.le, fun ch n he => ?_, fun u lk ch he => ?_⟩ rfl
  · exact ⟨fun _ _ => id, fun _ _ _ _ _ => rfl, fun h => ⟨h, rfl⟩, id, fun _ _ he _ => by simpa [Act.effect] using he,
      fun _ _ => rfl, fun _ => rfl, rfl, fun _ _ => id⟩
  · exact hc.woke ch n (by simpa [Act.effect] using he)
  · rcases List.mem_cons.mp he with he | he
    · injection he with _ h1 h2
      rw [h1, h2, hlk, hch]
      simp
    · exact hc.slept u lk ch he

/-- **The rule for `sleep`.** -/
theorem sleep_safe (ht : t < NPROC) (hl : H.lk = some (lockOf ch)) (hm : Kills ok → H.mayWait ch) :
    (Code.sleep ch (lockOf ch)).Safe (sleepLogic ok) t (fun _ g => ∃ s, g = ⟨H.again s, .run, d, c⟩)
      ⟨H, .run, d, c⟩ := by
  refine Calm.step trivial trivial ?_
  rintro p rfl
  refine ready_step (between_step ht hl hm (asleep_step ?_))
  refine Safe.bind (schedOut_step (schedIn_step (f := ret) ?_))
  refine clearChan_step (Calm.step ?_ trivial fun _ _ => ?_)
  · rintro (h | ⟨-, h | ⟨ch, h⟩⟩ | ⟨ch, k, h, -⟩) <;> cases h
  · refine take_step (fun s => H.again s) (fun s => Hold.again_lk.trans hl) ?_ fun s => ?_
    · intro s pi v r w h
      cases H with
      | pipe pi' v' r' w' =>
        injection h with h1 h2
        rw [← h1]
        exact h2
      | _ => cases h
    · exact (slept_safe (Hold.again_lk.trans hl)).mono fun _ _ e => ⟨s, e⟩

/-! ## `wakeup` -/

/-- The wakeup on the channel is done. -/
def Hold.paid (ch : Chan) : Hold → Hold
  | pipe pi v r w =>
    match ch with
    | .nread _ => pipe pi v false w
    | .nwrite _ => pipe pi v r false
    | _ => pipe pi v r w
  | h => h

theorem Hold.paid_lk : (H.paid ch).lk = H.lk := by
  cases H <;> cases ch <;> rfl

theorem Hold.paid_owes {ch' : Chan} (hne : ch' ≠ ch) (hl : H.lk = some (lockOf ch)) (h : H.owes ch' = true) :
    (H.paid ch).owes ch' = true := by
  cases H with
  | pipe pi v r w =>
    cases ch <;> cases ch' <;> simp_all [Hold.owes, Hold.paid, Hold.lk, lockOf]
  | _ => cases ch' <;> cases h

theorem Hold.paid_pipe {pi : Nat} {v : Pipe} {r w : Bool} (h : H.paid ch = .pipe pi v r w) :
    ∃ r' w', H = .pipe pi v r' w' := by
  cases H with
  | pipe pi' v' r' w' =>
    cases ch <;> (injection h with h1 h2; exact ⟨r', w', by rw [h1, h2]⟩)
  | _ => cases h

/-- The first step of `wakeup`. -/
theorem waking_step (hl : H.lk = some (lockOf ch))
    (hf : (f ()).Safe (sleepLogic ok) t Q ⟨H, .waking ch 0 false, false, c⟩) :
    (call (.waking t ch) >>= f).Safe (sleepLogic ok) t Q ⟨H, .run, d, c⟩ := by
  refine actIf_safe rfl fun s γ hi hγ => ⟨trivial, fun _ _ => ⟨⟨H, .waking ch 0 false, false, c⟩, ?_, hf⟩⟩
  have ho := SleepOk.thr hi t
  rw [hγ] at ho
  obtain ⟨h1, h2⟩ := ho.upright (by simp) (by simp)
  have hc := SleepOk.counts hi
  refine SleepOk.step hi hγ (fun u hu => ?_) ⟨hc.last, hc.le, hc.woke, hc.slept⟩ ?_ ?_ ?_ ?_ ?_
  · exact ⟨fun _ _ => id, fun _ _ _ _ _ => rfl, fun h => ⟨h, rfl⟩, id, fun _ _ he _ => he, fun _ _ => rfl,
      fun _ => rfl, Function.update_of_ne hu .., fun _ _ => id⟩
  · refine ⟨?_, ho.pipe, ?_, fun h => (h1 h).elim, fun h => (h h2).elim,
      fun ch' hw => (not_waits (g := ⟨H, .waking ch 0 false, false, c⟩) trivial ch' hw).elim, ho.call, ?_⟩
    · rintro l (h | ⟨-, h | ⟨ch, h⟩⟩ | ⟨ch, k, h, -⟩)
      · exact ho.lock l (.inl h)
      all_goals cases h
    · intro ch' k b h
      injection h with h
      rw [hl, h]
    · exact fun _ => ⟨Function.update_self .., by simp⟩
  · intro ch' k b h q hq
    injection h with _ h
    omega
  · exact fun ch' hw => (not_waits (g := ⟨H, .waking ch 0 false, false, c⟩) trivial ch' hw).elim
  · exact fun _ ch' hw => (not_waits (g := ⟨H, .waking ch 0 false, false, c⟩) trivial ch' hw).elim
  · exact fun _ _ _ => Or.imp id id

/-- `acquire(&p->lock)` in the loop of `wakeup`; only the own slot is left out. -/
theorem turn_step {k q : Nat} (hl : H.lk = some (lockOf ch)) (hk : ∀ j, k ≤ j → j < q → j = t)
    (hf : (f ()).Safe (sleepLogic ok) t Q ⟨H, .waking ch q true, d, c⟩) :
    (call (.acquire (.proc q)) >>= f).Safe (sleepLogic ok) t Q ⟨H, .waking ch k false, d, c⟩ := by
  refine Calm.move trivial trivial fun s γ _ hγ hc hi => ⟨⟨H, .waking ch q true, d, c⟩, ?_, hf⟩
  have ho := hi.thr t
  rw [hγ] at ho
  obtain ⟨h1, h2⟩ := ho.upright (by simp) (by simp)
  refine hi.setGhost hγ (ho.setPh (p := .waking ch q true) h1 h2 ?_ ?_ trivial) ?_ trivial fun _ _ _ => .inr
  · rintro l (h | ⟨-, h | ⟨ch, h⟩⟩ | ⟨ch, k, h, rfl⟩)
    · exact ho.lock l (.inl h)
    · cases h
    · cases h
    · injection h with _ h
      subst h
      simp [Act.effect]
  · intro ch' k b h
    injection h with h
    rw [← h]
    exact hl
  · intro ch' k' b h j hj hne
    injection h with h3 h4
    subst h3 h4
    refine hi.scan t ch k false (by rw [hγ]) j ?_ hne
    by_contra hkj
    exact hne (hk j (by omega) hj)

/-- The section of `wakeup`. -/
theorem wake_step {q : Nat} (hl : H.lk = some (lockOf ch)) (hq : q ≠ t)
    (hf : (f ()).Safe (sleepLogic ok) t Q ⟨H, .waking ch (q + 1) false, d, c⟩) :
    (call (.wake q ch) >>= f).Safe (sleepLogic ok) t Q ⟨H, .waking ch q true, d, c⟩ := by
  refine Calm.move trivial trivial fun s γ hi₀ hγ hc hi => ⟨⟨H, .waking ch (q + 1) false, d, c⟩, ?_, hf⟩
  have ho := hi.thr t
  rw [hγ] at ho
  obtain ⟨h1, h2⟩ := ho.upright (by simp) (by simp)
  refine hi.setGhost hγ (ho.setPh (p := .waking ch (q + 1) false) h1 h2 ?_ ?_ trivial) ?_ trivial
    fun _ _ _ => .inr
  · rintro l (h | ⟨-, h | ⟨ch, h⟩⟩ | ⟨ch, k, h, rfl⟩)
    · exact ho.lock l (.inl h)
    all_goals cases h
  · intro ch' k b h
    injection h with h
    rw [← h]
    exact hl
  · intro ch' k' b h j hj hne
    injection h with h3 h4
    subst h3 h4
    by_cases hjq : j = q
    · subst hjq
      rintro (hp | ⟨hp, hs⟩)
      · -- a process between the two locks holds its own
        have h3 := (hi.thr j).lock (.proc j) (.inr (.inl ⟨rfl, .inr ⟨ch, hp⟩⟩))
        have h4 := ho.lock (.proc j) (.inr (.inr ⟨ch, j, rfl, rfl⟩))
        exact hne (Option.some.inj (h3.symm.trans h4))
      · -- a sleeper on the channel is made runnable
        by_cases hcj : (s.proc j).chan = some ch
        · have he : (Act.wake j ch).effect t s = s.setProc j Proc.wake := if_pos hcj
          rw [he, St.setProc_self] at hs
          exact Proc.wake_state _ hs
        · have he : (Act.wake j ch).effect t s = s := if_neg hcj
          rw [he] at hs
          obtain ⟨ch', hp', hch'⟩ := (hi₀.thr j).state hs
          rw [hp] at hp'
          injection hp' with hp'
          exact hcj (hp' ▸ hch')
    · exact hi.scan t ch q true (by rw [hγ]) j (by omega) hne

/-- The last step of `wakeup`. -/
theorem woke_safe {k : Nat} (hl : H.lk = some (lockOf ch)) (hk : ∀ j, k ≤ j → j < NPROC → j = t) :
    (call (.woke ch)).Safe (sleepLogic ok) t (fun _ g => g = ⟨H.paid ch, .run, d, c⟩)
      ⟨H, .waking ch k false, d, c⟩ := by
  refine actIf_safe (f := ret) rfl fun s γ hi hγ => ⟨trivial, fun _ _ => ⟨_, ?_, rfl⟩⟩
  have ho := SleepOk.thr hi t
  rw [hγ] at ho
  obtain ⟨h1, h2⟩ := ho.upright (by simp) (by simp)
  have hc := SleepOk.counts hi
  have nobody : ∀ u, u ≠ t → ¬ (γ u).Waits s u ch := by
    intro u hu hw
    have hlt := ((SleepOk.thr hi u).news ch hw).1
    refine SleepOk.scan hi t ch k false (by rw [hγ]) u ?_ hu hw
    by_contra hku
    exact hu (hk u (by omega) hlt)
  refine SleepOk.step hi hγ (fun u hu => ?_) ⟨hc.last, hc.le, fun ch' n he => ?_, fun u lk ch he => ?_⟩ ?_ ?_ ?_ ?_ ?_
  · refine ⟨fun _ _ => id, fun _ _ _ _ _ => rfl, fun h => ⟨h, rfl⟩, id, fun ch' n he hw => ?_, fun _ _ => rfl,
      fun _ => rfl, rfl, fun _ _ => id⟩
    rcases List.mem_cons.mp he with he | he
    · injection he with he _
      subst he
      exact (nobody u hu hw).elim
    · exact he
  · rcases List.mem_cons.mp he with he | he
    · injection he with h3 h4
      subst h3 h4
      exact hc.le t _
    · exact hc.woke ch' n he
  · exact hc.slept u lk ch (by simpa [Act.effect] using he)
  · refine ⟨?_, fun pi v r w h => ?_, fun _ _ _ h => (by cases h), fun h => (h1 h).elim, fun h => (h h2).elim,
      fun ch' hw => (not_waits (g := ⟨H.paid ch, .run, d, c⟩) trivial ch' hw).elim, ho.call, ho.dirty⟩
    · rintro l (h | ⟨-, h | ⟨ch, h⟩⟩ | ⟨ch, k, h, -⟩)
      · exact ho.lock l (.inl ((Hold.paid_lk : (H.paid ch).lk = H.lk) ▸ h))
      all_goals cases h
    · obtain ⟨r', w', rfl⟩ := Hold.paid_pipe h
      exact ho.pipe pi v r' w' rfl
  · exact fun _ _ _ h => by cases h
  · exact fun ch' hw => (not_waits (g := ⟨H.paid ch, .run, d, c⟩) trivial ch' hw).elim
  · exact fun _ ch' hw => (not_waits (g := ⟨H.paid ch, .run, d, c⟩) trivial ch' hw).elim
  · rintro _ ch' ⟨q, hq, hw⟩ (hidle | ho)
    · exact .inl hidle
    · refine .inr (Hold.paid_owes ?_ hl ho)
      rintro rfl
      exact nobody q hq hw

/-- **The rule for `wakeup`.** -/
theorem wakeup_safe (hl : H.lk = some (lockOf ch)) :
    (Code.wakeup ch).Safe (sleepLogic ok) t (fun _ g => g = ⟨H.paid ch, .run, false, c⟩) ⟨H, .run, d, c⟩ := by
  refine Calm.step trivial trivial ?_
  rintro p rfl
  refine waking_step hl (Safe.bind ?_)
  -- before turn `k` the slots below are done, except the own one
  refine Safe.range (fun k g => ∃ k', g = ⟨H, .waking ch k' false, false, c⟩ ∧ ∀ j, k' ≤ j → j < k → j = p)
    ⟨0, rfl, by omega⟩ ?_ ?_
  · rintro k hk g ⟨k', rfl, hj⟩
    unfold Code.wakeOne
    split
    · rename_i hne
      refine turn_step hl hj (wake_step hl hne ?_)
      refine Calm.step (f := ret) ?_ trivial fun _ _ => ⟨k + 1, rfl, by omega⟩
      rintro (h | ⟨-, h | ⟨ch, h⟩⟩ | ⟨ch, k, h, -⟩)
      · exact lockOf_ne_proc (Option.some.inj (hl.symm.trans h))
      all_goals cases h
    · rename_i hne
      refine Safe.pure ⟨k', rfl, fun j h1 h2 => ?_⟩
      by_cases hjk : j = k
      · omega
      · exact hj j h1 (by omega)
  · rintro g ⟨k', rfl, hk⟩
    exact woke_safe hl hk

end

end

end Xv6.Kern
