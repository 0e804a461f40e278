import Xv6.Kern.Wakeup

/-!
# The pipes, and all calls

`pipewrite`, `piperead` and `pipeclose` keep the invariant of the sleepers (`sleepCalls`), and so do the
calls that have nothing to do with pipes.
-/

namespace Xv6.Kern

open Function (update update_eq_self update_of_ne update_self)

open Conc Prog

section

variable {ok : Cond} {s s' : St} {γ : Tid → Gw} {t u : Tid} {α β : Type} {Q : α → Gw → Prop}
variable {H : Hold} {d : Bool} {c : Option (Nat × (Nat → Option UInt8) × Nat)}

/-! ## Locks -/

variable {l : Lk} {f : Unit → Prog Act α} {copy : Bool} {addr : Nat}

theorem not_has (hl : H.lk ≠ some l) : ¬ (⟨H, .run, d, c⟩ : Gw).Has t l := by
  rintro (h | ⟨-, h | ⟨ch, h⟩⟩ | ⟨ch, k, h, -⟩)
  · exact hl h
  all_goals cases h

/-- `release` of the lock that the ghost value tells of. -/
theorem release_step (hp : Kills ok → ∀ ch, H.owes ch = false) (hd : Kills ok → d = false)
    (hf : (f ()).Safe (sleepLogic ok) t Q {}) :
    (call (.release l) >>= f).Safe (sleepLogic ok) t Q ⟨H, .run, d, c⟩ := by
  refine actIf_safe rfl fun s γ hi hγ => ⟨trivial, fun _ hc => ⟨{}, ?_, hf⟩⟩
  have ho := SleepOk.thr hi t
  rw [hγ] at ho
  obtain ⟨h1, h2⟩ := ho.upright (by simp) (by simp)
  have hlk := check_release hc
  have hi' : SleepOk ok s (update γ t {}) := by
    refine SleepOk.setGhost hi hγ ⟨?_, fun _ _ _ _ h => (nomatch h), fun _ _ _ h => (nomatch h),
      fun h => (h1 h).elim, fun h => (h h2).elim,
      fun ch hw => (not_waits (g := {}) trivial ch hw).elim, fun _ _ _ h => (nomatch h), fun hk => ?_⟩
      (fun _ _ _ h => (nomatch h)) trivial fun hk ch _ ho => ?_
    · exact fun l h => (not_has (by simp [Hold.lk]) h).elim
    · have := ho.dirty hk
      exact ⟨this.1.trans (hd hk), by simp⟩
    · rw [hp hk ch] at ho
      cases ho
  refine hi'.dropLock (t := t) (l := l) ⟨rfl, rfl, rfl, rfl, fun _ => .inl⟩ rfl rfl hlk ?_
  rw [update_self]
  exact not_has (by simp [Hold.lk])

/-- `acquire` of the lock of a pipe. -/
theorem pipeLock_step {pi : Nat} (hf : ∀ v, (f ()).Safe (sleepLogic ok) t Q ⟨.pipe pi v false false, .run, d, c⟩) :
    (call (.acquire (.pipe pi)) >>= f).Safe (sleepLogic ok) t Q ⟨.none, .run, d, c⟩ := by
  refine take_step (fun s => .pipe pi (s.pipe pi) false false) (fun _ => rfl) ?_ fun s => hf _
  intro s pi' v r w h
  injection h with h1 h2
  rw [← h1]
  exact h2

/-- `acquire` of another lock. -/
theorem lock_step (hf : (f ()).Safe (sleepLogic ok) t Q ⟨.lock l, .run, d, c⟩) :
    (call (.acquire l) >>= f).Safe (sleepLogic ok) t Q ⟨.none, .run, d, c⟩ :=
  take_step (fun _ => .lock l) (fun _ => rfl) (fun _ _ _ _ _ h => (nomatch h)) fun _ => hf

/-! ## The data of a pipe -/

section

variable {pi : Nat} {v v' : Pipe} {r w r' w' : Bool}

/-- The holder of a pipe's lock changes the pipe. -/
theorem SleepOk.setPipe {d' : Bool} {c' : Option (Nat × (Nat → Option UInt8) × Nat)} (hi : SleepOk ok s γ)
    (hγ : γ t = ⟨.pipe pi v r w, .run, d, c⟩) (hs : s'.pipe = update s.pipe pi v')
    (hproc : s'.proc = s.proc) (hlock : s'.lock = s.lock) (hlast : s'.last = s.last) (hacq : s'.acq = s.acq)
    (hhist : s'.hist = s.hist) (hdirty : ∀ u, u ≠ t → s'.dirty u = s.dirty u)
    (hcalls : ∀ u, u ≠ t → v'.calls u = v.calls u)
    (hc' : c' = c ∧ v'.calls t = v.calls t ∨ ∃ src i l, c' = some (pi, src, i) ∧ v'.calls t = (src, i) :: l)
    (hd : Kills ok → s'.dirty t = d' ∧ (d' = true → (s.proc t).killed = false))
    (hr : Kills ok → v.empty = true ∧ v.writeopen = true ∨ r = true →
      v'.empty = true ∧ v'.writeopen = true ∨ r' = true)
    (hw : Kills ok → v.full = true ∧ v.readopen = true ∨ w = true →
      v'.full = true ∧ v'.readopen = true ∨ w' = true) :
    SleepOk ok s' (update γ t ⟨.pipe pi v' r' w', .run, d', c'⟩) := by
  have ho := hi.thr t
  rw [hγ] at ho
  obtain ⟨h1, h2⟩ := ho.upright (by simp) (by simp)
  have hv : s.pipe pi = v := ho.pipe pi v r w rfl
  have hv' : s'.pipe pi = v' := by rw [hs, update_self]
  have hne : ∀ pi', pi' ≠ pi → s'.pipe pi' = s.pipe pi' := fun pi' h => by rw [hs, update_of_ne h]
  have hc := hi.counts
  refine hi.step hγ (fun u hu => ?_) ⟨?_, ?_, ?_, ?_⟩ ?_ ?_ ?_ ?_ ?_
  · refine ⟨fun _ _ => by rw [hlock]; exact id, fun pi' v₁ r₁ w₁ h => ?_, by rw [hproc]; exact fun h => ⟨h, rfl⟩,
      by rw [hproc]; exact id, fun _ _ => by rw [hhist]; exact fun he _ => he, fun _ _ => by rw [hlast],
      fun pi' => ?_, hdirty u hu, by rw [hproc]; exact fun _ _ => id⟩
    · -- no other thread holds the lock of the pipe
      refine hne pi' ?_
      rintro rfl
      have h3 := (hi.thr u).lock (.pipe pi') (.inl (by rw [h]; rfl))
      have h4 := ho.lock (.pipe pi') (.inl rfl)
      exact hu (Option.some.inj (h3.symm.trans h4))
    · by_cases hpi : pi' = pi
      · rw [hpi, hv', hv]
        exact hcalls u hu
      · rw [hne pi' hpi]
  · rw [hlock, hlast, hacq]
    exact hc.last
  · rw [hlast, hacq]
    exact hc.le
  · rw [hhist, hacq]
    exact hc.woke
  · rw [hhist]
    exact hc.slept
  · refine ⟨?_, ?_, fun _ _ _ h => (nomatch h), by rw [hproc]; exact fun h => (h1 h).elim,
      by rw [hproc]; exact fun h => (h h2).elim,
      fun ch hw => (not_waits (g := ⟨.pipe pi v' r' w', .run, d', c'⟩) trivial ch hw).elim, ?_, by rwa [hproc]⟩
    · intro l hl
      rw [hlock]
      refine ho.lock l ?_
      rcases hl with h | ⟨-, h | ⟨ch, h⟩⟩ | ⟨ch, k, h, -⟩
      · exact .inl h
      all_goals cases h
    · intro pi' v₁ r₁ w₁ h
      injection h with h1 h2
      rw [← h1, hv', h2]
    · intro pi' src i h
      rcases hc' with ⟨rfl, hcc⟩ | ⟨src', i', l, rfl, hcc⟩
      · obtain ⟨l, hl⟩ := ho.call pi' src i h
        refine ⟨l, ?_⟩
        by_cases hpi : pi' = pi
        · rw [hpi, hv', hcc, ← hv, ← hpi]
          exact hl
        · rw [hne pi' hpi]
          exact hl
      · cases h
        exact ⟨l, by rw [hv']; exact hcc⟩
  · exact fun _ _ _ h => (nomatch h)
  · exact fun ch hw => (not_waits (g := ⟨.pipe pi v' r' w', .run, d', c'⟩) trivial ch hw).elim
  · exact fun _ ch hw => (not_waits (g := ⟨.pipe pi v' r' w', .run, d', c'⟩) trivial ch hw).elim
  · rintro hk ch - h
    have key : ∀ pi', pi' ≠ pi → ch = .nread pi' ∨ ch = .nwrite pi' → ch.Idle s ∨
        Hold.owes (.pipe pi v r w) ch = true → ch.Idle s' := by
      rintro pi' hne' (rfl | rfl) (h | h)
      · simpa [Chan.Idle, hne pi' hne'] using h
      · simp [Hold.owes, Ne.symm hne'] at h
      · simpa [Chan.Idle, hne pi' hne'] using h
      · simp [Hold.owes, Ne.symm hne'] at h
    cases ch with
    | nread pi' =>
      by_cases hpi : pi' = pi
      · subst hpi
        simp only [Chan.Idle, hv, hv', Hold.owes, BEq.rfl, Bool.true_and] at h ⊢
        exact hr hk h
      · exact .inl (key pi' hpi (.inl rfl) h)
    | nwrite pi' =>
      by_cases hpi : pi' = pi
      · subst hpi
        simp only [Chan.Idle, hv, hv', Hold.owes, BEq.rfl, Bool.true_and] at h ⊢
        exact hw hk h
      · exact .inl (key pi' hpi (.inr rfl) h)
    | _ => exact .inl trivial

/-- The holder of a pipe's lock reads the pipe. -/
theorem look_step {a : Act β} {b : β} {f : β → Prog Act α} (ha : Calm t ⟨.pipe pi v r w, .run, d, c⟩ a)
    (hb : ∀ s, s.pipe pi = v → a.answer t s = b) (hf : (f b).Safe (sleepLogic ok) t Q ⟨.pipe pi v r w, .run, d, c⟩) :
    (call a >>= f).Safe (sleepLogic ok) t Q ⟨.pipe pi v r w, .run, d, c⟩ := by
  refine Calm.move ha trivial fun s γ hi hγ _ hi' => ⟨⟨.pipe pi v r w, .run, d, c⟩, ?_, ?_⟩
  · rw [← hγ, update_eq_self]
    exact hi'
  · have ho := hi.thr t
    rw [hγ] at ho
    rw [hb s (ho.pipe pi v r w rfl)]
    exact hf

variable {f : Unit → Prog Act α}

theorem setClosed_step {writable : Bool} (hf : (f ()).Safe (sleepLogic ok) t Q
      ⟨.pipe pi (v.close writable) (r || writable) (w || !writable), .run, d, c⟩) :
    (call (.setClosed pi writable) >>= f).Safe (sleepLogic ok) t Q ⟨.pipe pi v r w, .run, d, c⟩ := by
  refine actIf_safe rfl fun s γ hi hγ => ⟨trivial, fun _ _ => ⟨_, ?_, hf⟩⟩
  have ho := SleepOk.thr hi t
  rw [hγ] at ho
  have hv := ho.pipe pi v r w rfl
  have hcl : ∀ u, (v.close writable).calls u = v.calls u := fun u => by cases writable <;> rfl
  refine SleepOk.setPipe hi hγ (by rw [← hv]; rfl) rfl rfl rfl rfl rfl (fun _ _ => rfl) (fun u _ => hcl u)
    (.inl ⟨rfl, hcl t⟩) ho.dirty (fun _ => ?_) (fun _ => ?_)
  · cases writable <;> simp [Pipe.close, Pipe.empty]
  · cases writable <;> simp [Pipe.close, Pipe.full]

/-- A call of `pipewrite` begins. -/
theorem writeBegin_step {src : Nat → Option UInt8}
    (hf : ∀ v, (f ()).Safe (sleepLogic ok) t Q ⟨.pipe pi v r w, .run, d, some (pi, src, 0)⟩) :
    (call (.writeBegin pi t src) >>= f).Safe (sleepLogic ok) t Q ⟨.pipe pi v r w, .run, d, c⟩ := by
  refine actIf_safe rfl fun s γ hi hγ => ⟨rfl, fun _ _ => ⟨_, ?_, hf (v.writeBegin t src)⟩⟩
  have ho := SleepOk.thr hi t
  rw [hγ] at ho
  have hv := ho.pipe pi v r w rfl
  refine SleepOk.setPipe hi hγ (by rw [← hv]; rfl) rfl rfl rfl rfl rfl (fun _ _ => rfl) (fun u hu => ?_)
    (.inr ⟨src, 0, v.calls t, rfl, ?_⟩) ho.dirty (fun _ => id) (fun _ => id)
  · simp [Pipe.writeBegin, hu]
  · simp [Pipe.writeBegin]

/-- A byte is stored; nobody waits for room in a pipe that is not full. -/
theorem put_step {src : Nat → Option UInt8} {i : Nat} {ch : UInt8}
    (hfull : v.full = false) (hch : src i = some ch) (hw : Kills ok → w = false)
    (hf : (f ()).Safe (sleepLogic ok) t Q ⟨.pipe pi (v.put t ch) true w, .run, true, some (pi, src, i + 1)⟩) :
    (call (.put pi t ch) >>= f).Safe (sleepLogic ok) t Q ⟨.pipe pi v r w, .run, d, some (pi, src, i)⟩ := by
  refine actIf_safe rfl fun s γ hi hγ => ?_
  have ho := SleepOk.thr hi t
  rw [hγ] at ho
  have hv := ho.pipe pi v r w rfl
  obtain ⟨l, hl⟩ := ho.call pi src i rfl
  refine ⟨⟨rfl, hv ▸ hfull, src, i, l, hl, hch⟩, fun hok _ => ⟨_, ?_, hf⟩⟩
  refine SleepOk.setPipe hi hγ (by rw [← hv]; rfl) rfl rfl rfl rfl rfl (fun u hu => update_of_ne hu ..)
    (fun u hu => ?_) (.inr ⟨src, i + 1, l, rfl, ?_⟩) (fun hk => ⟨update_self .., fun _ => ?_⟩)
    (fun _ _ => .inr rfl) fun hk => ?_
  · simp [Pipe.put, hu]
  · simp [Pipe.put, ← hv, hl, countByte]
  · simpa [killsQuiet] using hk t _ s hok
  · rw [hfull, hw hk]
    simp

/-- A byte is taken out; nobody waits for a byte of a pipe that is not empty. -/
theorem get_step {copy : Bool} {f : UInt8 → Prog Act α} (hempty : v.empty = false)
    (hr : Kills ok → r = false)
    (hf : (Copies ok → copy = true) → ∀ ch,
      (f ch).Safe (sleepLogic ok) t Q ⟨.pipe pi (v.get copy) r true, .run, d, c⟩) :
    (call (.get pi copy) >>= f).Safe (sleepLogic ok) t Q ⟨.pipe pi v r w, .run, d, c⟩ := by
  refine actIf_safe rfl fun s γ hi hγ => ?_
  have ho := SleepOk.thr hi t
  rw [hγ] at ho
  have hv := ho.pipe pi v r w rfl
  refine ⟨by rw [← hv] at hempty; exact hempty, fun hok _ => ⟨_, ?_, hf (fun hc => ?_) _⟩⟩
  · refine SleepOk.setPipe hi hγ (by rw [← hv]; rfl) rfl rfl rfl rfl rfl (fun _ _ => rfl) (fun _ _ => rfl)
      (.inl ⟨rfl, rfl⟩) ho.dirty (fun hk => ?_) (fun _ _ => .inr rfl)
    rw [hempty, hr hk]
    simp
  · simpa [copiesOk] using hc t _ s hok

/-- `piperead` returns. -/
theorem readEnd_step {n i : Int} (hn : Copies ok → 0 < n → i = 0 → v.empty = true ∧ v.writeopen = false)
    (hf : (f ()).Safe (sleepLogic ok) t Q ⟨.pipe pi v r w, .run, d, c⟩) :
    (call (.readEnd pi n i) >>= f).Safe (sleepLogic ok) t Q ⟨.pipe pi v r w, .run, d, c⟩ := by
  refine actIf_safe rfl fun s γ hi hγ => ?_
  have ho := SleepOk.thr hi t
  rw [hγ] at ho
  have hv := ho.pipe pi v r w rfl
  refine ⟨by rw [← hv] at hn; exact hn, fun _ _ => ⟨_, ?_, hf⟩⟩
  rw [← hγ, update_eq_self]
  exact SleepOk.plain hi ⟨rfl, rfl, rfl, rfl, mem_log trivial⟩ rfl rfl

end

/-! ## `pipe.c` -/

/-- `killed`: a process with bytes that are not announced is not killed. -/
theorem killed_safe (hl : H.lk ≠ some (.proc t)) : (Code.killed t).Safe (sleepLogic ok) t
    (fun k g => g = ⟨H, .run, d, c⟩ ∧ (Kills ok → k = true → d = false)) ⟨H, .run, d, c⟩ := by
  refine Calm.step trivial trivial fun _ _ => Calm.move trivial trivial fun s γ hi hγ _ hi' => ?_
  refine ⟨⟨H, .run, d, c⟩, by rw [← hγ, update_eq_self]; exact hi', ?_⟩
  refine Calm.step (not_has hl) trivial fun _ _ => Safe.pure ⟨rfl, fun hk hkill => ?_⟩
  have ho := hi.thr t
  rw [hγ] at ho
  by_contra hd
  have := (ho.dirty hk).2 (by simpa using hd)
  rw [show (Act.getKilled t).answer t s = (s.proc t).killed from rfl, this] at hkill
  cases hkill

section

variable {pi fuel : Nat} {v : Pipe}

theorem pipeclose_safe {writable : Bool} :
    (Code.pipeclose pi writable).Safe (sleepLogic ok) t (fun _ g => g = {}) {} := by
  refine pipeLock_step fun v => setClosed_step (Safe.bind ?_)
  cases writable
  · refine (wakeup_safe rfl).mono ?_
    rintro _ _ rfl
    refine release_step (f := ret) (fun _ ch => ?_) (fun _ => rfl) rfl
    cases ch <;> simp [Hold.owes, Hold.paid]
  · refine (wakeup_safe rfl).mono ?_
    rintro _ _ rfl
    refine release_step (f := ret) (fun _ ch => ?_) (fun _ => rfl) rfl
    cases ch <;> simp [Hold.owes, Hold.paid]

variable {w : Bool} {src : Nat → Option UInt8} {n : Int} {i : Nat} {dst : Nat → Bool}

theorem writeStop_safe {r : Bool} : (Code.writeStop pi t).Safe (sleepLogic ok) t
    (fun stop g => g = ⟨.pipe pi v r w, .run, d, c⟩ ∧ (stop = false → v.readopen = true) ∧
      (Kills ok → stop = true → v.readopen = true → d = false)) ⟨.pipe pi v r w, .run, d, c⟩ := by
  refine look_step (b := v.readopen) trivial (fun s hs => by simp [Act.answer, Pipe.open, hs]) ?_
  cases hv : v.readopen
  · exact Safe.pure ⟨rfl, by simp, by simp⟩
  · refine (killed_safe (by simp [Hold.lk])).mono ?_
    rintro k _ ⟨rfl, hk⟩
    exact ⟨rfl, fun _ => rfl, fun hK h _ => hk hK h⟩

/-- The loop of `pipewrite`: bytes that are not announced were stored while the read end was open, and
it still is. -/
theorem writeLoop_safe (ht : t < NPROC)
    (hd : d = true → v.readopen = true) : (Code.writeLoop pi t src n fuel i).Safe (sleepLogic ok) t
      (fun r g => match r with
        | none => g = {}
        | some _ => ∃ v d i, g = ⟨.pipe pi v d false, .run, d, some (pi, src, i)⟩)
      ⟨.pipe pi v d false, .run, d, some (pi, src, i)⟩ := by
  induction fuel generalizing v d i with
  | zero => 
    refine actIf_safe rfl fun s γ hi hγ => ⟨trivial, fun _ hc => ?_⟩
    simp [Act.check] at hc
  | succ fuel ih =>
    unfold Code.writeLoop
    split
    · refine Safe.bind (writeStop_safe.mono ?_)
      rintro stop _ ⟨rfl, hopen, hquiet⟩
      cases stop
      · simp only [Bool.false_eq_true, if_false]
        refine look_step (b := v.full) trivial (fun s hs => by simp [Act.answer, hs]) ?_
        cases hfull : v.full
        · simp only [Bool.false_eq_true, if_false]
          split
          · exact Safe.pure ⟨v, d, i, rfl⟩
          · rename_i ch hch
            exact put_step hfull hch (fun _ => rfl) (ih fun _ => hopen rfl)
        · simp only [if_true]
          refine Safe.bind ((wakeup_safe rfl).mono ?_)
          rintro _ _ rfl
          refine Safe.bind (Safe.mono (sleep_safe ht rfl fun _ => ?_) ?_)
          · exact ⟨rfl, rfl, by simp, fun _ => ⟨hfull, hopen rfl⟩⟩
          · rintro _ _ ⟨s, rfl⟩
            exact ih (by simp)
      · refine release_step (fun hk ch => ?_) (fun hk => ?_) (Safe.pure rfl)
        all_goals
          have hd' : d = false := by
            cases d
            · rfl
            · exact hquiet hk rfl (hd rfl)
        · subst hd'
          cases ch <;> simp [Hold.owes]
        · exact hd'
    · exact Safe.pure ⟨v, d, i, rfl⟩

theorem pipewrite_safe (ht : t < NPROC) :
    (Code.pipewrite pi src n fuel).Safe (sleepLogic ok) t (fun _ g => g = {}) {} := by
  refine Calm.step trivial trivial ?_
  rintro p rfl
  refine pipeLock_step fun v => writeBegin_step fun v => Safe.bind ((writeLoop_safe ht (by simp)).mono ?_)
  rintro (_ | i) g h
  · exact Safe.pure h
  · obtain ⟨v, d, j, rfl⟩ := h
    refine Safe.bind ((wakeup_safe rfl).mono ?_)
    rintro _ _ rfl
    refine release_step (fun _ ch => ?_) (fun _ => rfl) (Safe.pure rfl)
    cases ch <;> simp [Hold.owes, Hold.paid]

/-- The first loop of `piperead` ends if there is a byte, or if there will be none. -/
theorem readWait_safe (ht : t < NPROC) : (Code.readWait pi t fuel).Safe (sleepLogic ok) t
    (fun go g => if go then ∃ v, g = ⟨.pipe pi v false false, .run, false, none⟩ ∧
      (v.empty = true → v.writeopen = false) else g = {}) ⟨.pipe pi v false false, .run, false, none⟩ := by
  induction fuel generalizing v with
  | zero =>
    refine actIf_safe rfl fun s γ hi hγ => ⟨trivial, fun _ hc => ?_⟩
    simp [Act.check] at hc
  | succ fuel ih =>
    have hblock : (Code.readBlocked pi).Safe (sleepLogic ok) t
        (fun b g => g = ⟨.pipe pi v false false, .run, false, none⟩ ∧ b = (v.empty && v.writeopen))
        ⟨.pipe pi v false false, .run, false, none⟩ := by
      refine look_step (b := v.empty) trivial (fun s hs => by simp [Act.answer, hs]) ?_
      cases v.empty
      · exact Safe.pure ⟨rfl, by simp⟩
      · refine look_step (b := v.writeopen) (f := ret) trivial (fun s hs => by simp [Act.answer, Pipe.open, hs]) ?_
        exact ⟨rfl, by simp⟩
    refine Safe.bind (hblock.mono ?_)
    rintro b _ ⟨rfl, hb⟩
    cases b
    · refine Safe.pure ⟨v, rfl, fun he => ?_⟩
      simpa [he] using hb
    · have hev : v.empty = true ∧ v.writeopen = true := by simpa using hb
      refine Safe.bind ((killed_safe (by simp [Hold.lk])).mono ?_)
      rintro k _ ⟨rfl, -⟩
      cases k
      · refine Safe.bind (Safe.mono (sleep_safe ht rfl fun _ => ?_) ?_)
        · exact ⟨rfl, rfl, fun _ => hev, by simp⟩
        · rintro _ _ ⟨s, rfl⟩
          exact ih
      · refine release_step (fun _ ch => ?_) (fun _ => rfl) (Safe.pure rfl)
        cases ch <;> simp [Hold.owes]

/-- The second loop of `piperead`: it stops without a byte only at an empty pipe, unless a `copyout` can
fail. -/
theorem readLoop_safe {m : Nat} : (Code.readLoop pi dst m i).Safe (sleepLogic ok) t
    (fun j g => ∃ v' w', g = ⟨.pipe pi v' false w', .run, false, none⟩ ∧ i ≤ j ∧
      (Copies ok → j = i → v' = v ∧ (m = 0 ∨ v.empty = true))) ⟨.pipe pi v false w, .run, false, none⟩ := by
  induction m generalizing v i w with
  | zero => exact Safe.pure ⟨v, w, rfl, le_rfl, fun _ _ => ⟨rfl, .inl rfl⟩⟩
  | succ m ih =>
    refine look_step (b := v.empty) trivial (fun s hs => by simp [Act.answer, hs]) ?_
    cases he : v.empty
    · refine get_step he (fun _ => rfl) fun hcopy ch => ?_
      cases hdst : dst i
      · refine Safe.pure ⟨_, _, rfl, le_rfl, fun hc => ?_⟩
        rw [hdst] at hcopy
        exact absurd (hcopy hc) (by simp)
      · refine ih.mono ?_
        rintro j _ ⟨v', w', rfl, hij, -⟩
        exact ⟨v', w', rfl, by omega, by omega⟩
    · exact Safe.pure ⟨v, w, rfl, le_rfl, fun _ _ => ⟨rfl, .inr rfl⟩⟩

theorem piperead_safe (ht : t < NPROC) :
    (Code.piperead pi dst n fuel).Safe (sleepLogic ok) t (fun _ g => g = {}) {} := by
  refine Calm.step trivial trivial ?_
  rintro p rfl
  refine pipeLock_step fun v => Safe.bind ((readWait_safe ht).mono ?_)
  rintro go g h
  cases go
  · exact Safe.pure h
  · obtain ⟨v, rfl, hv⟩ := h
    refine Safe.bind (readLoop_safe.mono ?_)
    rintro j _ ⟨v', w', rfl, -, hj⟩
    refine readEnd_step (fun hc hn hj0 => ?_) (Safe.bind ((wakeup_safe rfl).mono ?_))
    · obtain ⟨rfl, h | h⟩ := hj hc (by simpa using hj0)
      · omega
      · exact ⟨h, hv h⟩
    · rintro _ _ rfl
      refine release_step (fun _ ch => ?_) (fun _ => rfl) (Safe.pure rfl)
      cases ch <;> simp [Hold.owes, Hold.paid]

end

/-! ## `proc.c` -/

/-- The actions of a function that leaves the sleepers alone, with any lock but that of a process known. -/
theorem yield_calm (hl : H.lk ≠ some (.proc t)) : Code.yield.Only (Calm t ⟨H, .run, d, c⟩) (answers t) := by
  refine Only.step trivial ?_
  rintro p rfl
  refine Only.step trivial fun _ _ => Only.step trivial fun _ _ => Only.bind ?_ fun _ => ?_
  · exact Only.step (not_has hl) fun _ _ => only_call.mpr trivial
  · exact only_call.mpr (not_has hl)

theorem setkilled_calm : Code.setkilled.Only (Calm t {}) (answers t) := by
  refine Only.step trivial ?_
  rintro p rfl
  refine Only.step trivial fun _ _ => Only.step ⟨rfl, rfl⟩ fun _ _ => only_call.mpr ?_
  exact not_has (by simp [Hold.lk])

variable {l : List Nat} {trapframe pagetable : Bool} {fuel : Nat}

theorem killLoop_calm {pid : BitVec 32} : (Code.killLoop pid l).Only (Calm t {}) (answers t) := by
  induction l with
  | nil => trivial
  | cons q l ih =>
    refine Only.step trivial fun _ _ => Only.step trivial fun found _ => ?_
    refine Only.step (not_has (by simp [Hold.lk])) fun _ _ => ?_
    cases found
    · exact ih
    · trivial

theorem allocproc_calm {p : Nat} : (Code.allocproc p trapframe pagetable l).Only (Calm t {}) (answers t) := by
  have hr : ∀ q, ¬ ({} : Gw).Has t (.proc q) := fun q => not_has (by simp [Hold.lk])
  induction l with
  | nil => trivial
  | cons q l ih =>
    refine Only.step trivial fun _ _ => Only.step trivial fun found _ => ?_
    cases found
    · exact Only.step (hr q) fun _ _ => ih
    · simp only [if_true]
      split
      · exact Only.step trivial fun _ _ => trivial
      · exact Only.step trivial fun _ _ => Only.step (hr q) fun _ _ => trivial

theorem kfork_calm : (Code.kfork trapframe pagetable copy).Only (Calm t {}) (answers t) := by
  have hr : ∀ l, ¬ ({} : Gw).Has t l := fun l => not_has (by simp [Hold.lk])
  refine Only.step trivial fun p _ => Only.bind allocproc_calm ?_
  rintro (_ | np)
  · trivial
  · cases copy
    · exact Only.step trivial fun _ _ => only_call.mpr (hr _)
    · refine Only.step (hr _) fun _ _ => Only.step trivial fun _ _ => Only.step trivial fun _ _ => ?_
      refine Only.step (hr _) fun _ _ => Only.step trivial fun _ _ => Only.step trivial fun _ _ => ?_
      exact only_call.mpr (hr _)

theorem forkret_calm : (Code.forkret t).Only (Calm t {}) (answers t) :=
  Only.step trivial fun _ _ => only_call.mpr (not_has (by simp [Hold.lk]))

theorem kexit_sleep {status : Int} : (Code.kexit status).Safe (sleepLogic ok) t (fun _ g => g = {}) {} := by
  refine Calm.step trivial trivial ?_
  rintro p rfl
  split
  · refine actIf_safe (f := ret) rfl fun _ _ _ _ => ⟨trivial, fun _ h => by simp [Act.check] at h⟩
  · refine lock_step (Safe.bind ?_)
    refine Safe.range (fun _ g => g = ⟨.lock .wait, .run, false, none⟩) rfl ?_ ?_
    · rintro k hk _ rfl
      refine Calm.step trivial trivial fun child _ => ?_
      cases child
      · exact Safe.pure rfl
      · exact wakeup_safe rfl
    · rintro _ rfl
      refine Calm.step trivial trivial fun parent _ => Safe.bind ((wakeup_safe ?_).mono ?_)
      · cases parent <;> rfl
      · rintro _ _ rfl
        refine Calm.step trivial trivial fun _ _ => Calm.step trivial trivial fun _ _ => ?_
        refine release_step (fun _ ch => ?_) (fun _ => rfl) ?_
        · cases parent <;> cases ch <;> rfl
        · exact Calm.step (f := ret) (not_has (by simp [Hold.lk])) trivial fun _ _ => rfl

/-- The scan of `kwait` with `wait_lock` held. -/
theorem waitScan_sleep {havekids : Bool} :
    (Code.waitScan t addr copy l havekids).Safe (sleepLogic ok) t
      (fun r g => match r with
        | .inl _ => g = ⟨.lock .wait, .run, false, none⟩
        | .inr _ => g = {}) ⟨.lock .wait, .run, false, none⟩ := by
  have hr : ∀ q, ¬ (⟨.lock .wait, .run, false, none⟩ : Gw).Has t (.proc q) := fun q => not_has (by simp [Hold.lk])
  induction l generalizing havekids with
  | nil => exact Safe.pure rfl
  | cons q l ih =>
    refine Calm.step trivial trivial fun parent _ => ?_
    split
    · refine Calm.step trivial trivial fun _ _ => Calm.step trivial trivial fun z _ => ?_
      rcases z with _ | ⟨pid, xstate⟩
      · exact Calm.step (hr q) trivial fun _ _ => ih
      · simp only []
        split
        · refine Calm.step (hr q) trivial fun _ _ => release_step (fun _ ch => ?_) (fun _ => rfl) (Safe.pure rfl)
          cases ch <;> rfl
        · refine Calm.step trivial trivial fun _ _ => Calm.step (hr q) trivial fun _ _ => ?_
          refine release_step (fun _ ch => ?_) (fun _ => rfl) (Safe.pure rfl)
          cases ch <;> rfl
    · exact ih

theorem waitLoop_sleep (ht : t < NPROC) :
    (Code.waitLoop t addr copy fuel).Safe (sleepLogic ok) t (fun _ g => g = {})
      ⟨.lock .wait, .run, false, none⟩ := by
  induction fuel with
  | zero =>
    refine actIf_safe rfl fun s γ hi hγ => ⟨trivial, fun _ hc => ?_⟩
    simp [Act.check] at hc
  | succ fuel ih =>
    refine Safe.bind (waitScan_sleep.mono ?_)
    rintro (havekids | r) _ rfl
    · have hstop : (Code.waitStop t havekids).Safe (sleepLogic ok) t
          (fun _ g => g = ⟨.lock .wait, .run, false, none⟩) ⟨.lock .wait, .run, false, none⟩ := by
        cases havekids
        · exact Safe.pure rfl
        · exact (killed_safe (by simp [Hold.lk])).mono fun _ _ h => h.1
      refine Safe.bind (hstop.mono ?_)
      rintro stop _ rfl
      cases stop
      · refine Safe.bind (Safe.mono (sleep_safe ht rfl fun _ => ?_) ?_)
        · intro pi
          simp
        · rintro _ _ ⟨s, rfl⟩
          exact ih
      · refine release_step (fun _ ch => ?_) (fun _ => rfl) (Safe.pure rfl)
        cases ch <;> rfl
    · exact Safe.pure rfl

theorem kwait_sleep (ht : t < NPROC) : (Code.kwait addr copy fuel).Safe (sleepLogic ok) t (fun _ g => g = {}) {} := by
  refine Calm.step trivial trivial ?_
  rintro p rfl
  exact lock_step (waitLoop_sleep ht)

/-! ## All calls -/

/-- The ghost value of a thread between two calls. -/
def sleepGhost (_ : Tid) : Mode → Gw
  | .none | .user => {}
  | .holding n => { hold := .lock (.other n) }

/-- **Every call keeps the invariant of the sleepers.** -/
theorem sleepCalls (ok : Cond) : Sys.Calls (sysIf ok) (sleepLogic ok) sleepGhost := by
  rintro t s γ c p - - ⟨ht, hc⟩
  have calm : ∀ {β : Type} {p : Prog Act β} {m : Mode}, sleepGhost t m = {} →
      p.Only (Calm t {}) (answers t) →
      (p >>= fun _ => pure m).Safe (sleepLogic ok) t (fun c g => g = sleepGhost t c) {} :=
    fun hm hp => Calm.bind hp trivial fun _ => Safe.pure hm.symm
  have same : ∀ {β : Type} {p : Prog Act β} {m : Mode}, sleepGhost t m = {} →
      p.Safe (sleepLogic ok) t (fun _ g => g = {}) {} →
      (p >>= fun _ => pure m).Safe (sleepLogic ok) t (fun c g => g = sleepGhost t c) {} :=
    fun hm hp => Safe.bind (hp.mono fun _ _ h => Safe.pure (h.trans hm.symm))
  cases hc with
  | start h => exact calm rfl forkret_calm
  | user c =>
    cases c with
    | yield => exact calm rfl (yield_calm (by simp [Hold.lk]))
    | kill pid => exact calm rfl killLoop_calm
    | fault => exact calm rfl setkilled_calm
    | fork trapframe pagetable copy => exact calm rfl kfork_calm
    | exit status => exact same rfl kexit_sleep
    | wait addr copy fuel => exact same rfl (kwait_sleep ht)
    | pipewrite pi src n fuel => exact same rfl (pipewrite_safe ht)
    | piperead pi dst n fuel => exact same rfl (piperead_safe ht)
    | pipeclose pi writable => exact same rfl pipeclose_safe
    | lock n => exact lock_step (Safe.pure rfl)
  | holding n c =>
    cases c with
    | sleep c =>
      refine Safe.bind (Safe.mono (sleep_safe ht rfl fun _ => ?_) ?_)
      · intro pi
        simp
      · rintro _ _ ⟨s, rfl⟩
        exact Safe.pure rfl
    | wakeup c =>
      refine Safe.bind (Safe.mono (wakeup_safe rfl) ?_)
      rintro _ _ rfl
      exact Safe.pure rfl
    | release =>
      refine release_step (fun _ ch => ?_) (fun _ => rfl) (Safe.pure rfl)
      cases ch <;> rfl

/-- The first state satisfies the invariant. -/
theorem sleepOk_init (ok : Cond) (data : Nat → Nat → UInt8) : Sys.Ok (sleepLogic ok) sleepGhost (boot data) := by
  have hp : ∀ q, (boot data).st.proc q =
      if q = initproc then { state := .runnable, pid := 1, fresh := true, id := 1 } else {} := fun _ => rfl
  have hh : (boot data).st.hist = [.alloc initproc 1 false] := rfl
  refine ⟨fun _ => {}, ⟨⟨fun _ _ h => (nomatch h), fun _ _ => le_rfl, by simp [hh], by simp [hh]⟩, fun q => ?_,
    fun _ _ _ _ h => (nomatch h), ?_⟩, fun _ => rfl⟩
  · refine ⟨?_, fun _ _ _ _ h => (nomatch h), fun _ _ _ h => (nomatch h), ?_, ?_,
      fun ch hw => (not_waits (g := {}) trivial ch hw).elim, fun _ _ _ h => (nomatch h), fun _ => ⟨rfl, by simp⟩⟩
    · exact fun l h => (not_has (by simp [Hold.lk]) h).elim
    · rw [hp]
      split <;> simp
    · rw [hp]
      split <;> simp
  · exact fun _ q ch hw => (not_waits (g := {}) trivial ch hw).elim

/-- The invariant holds in every reachable state. -/
theorem sleepOk_of_reach {data : Nat → Nat → UInt8} {c : Conf Act St Mode} (h : (sysIf ok).Reach (boot data) c) :
    ∃ γ, SleepOk ok c.st γ ∧ ∀ t, Sys.ThrOk (sleepLogic ok) sleepGhost t (c.thr t) (γ t) :=
  h.safe (L := sleepLogic ok) rfl (sleepCalls ok) (sleepOk_init ok data)

end

end Xv6.Kern
