import Xv6.Vm.Exec

/-!
# System calls keep the invariant

Most of a system call leaves the tables of all processes as they are but for pages that it faults
in (`Keeps`); such parts are put together with `Keeps.bind`. `kfork`, `kwait` and `kexec` make or
free page tables and have specs of their own.
-/

namespace Xv6

open Function (update update_of_ne)

open Seq

section

variable [K : Layout] {E : Panic → Prop} {kp : Nat → Prop} {hs : List Nat} {s s' : Vm}
variable {own own' : Nat → Owner} {T : Nat → Option (Nat → Nat)} {p : Nat} {L : Nat → Nat}

/-- A part of a system call of process `p` that keeps the invariant and the processes' tables and
sizes. -/
def Keeps {α : Type} (E : Panic → Prop) (kp : Nat → Prop) (hs : List Nat) (p : Nat) (m : PM α) : Prop :=
  ∀ s, Inv kp hs s → s.live p → SzOk s → wp E m s fun _ s' => Inv kp hs s' ∧ SameProcs s s'

namespace Keeps

variable {α β : Type} {m : PM α}

theorem pure {a : α} : Keeps E kp hs p (pure a : PM α) := fun _ h _ _ => ⟨h, .refl⟩

theorem gets {f : Vm → α} : Keeps E kp hs p (M.gets f) := fun _ h _ _ => ⟨h, .refl⟩

theorem stop {e : Panic} (he : E e) : Keeps E kp hs p (M.stop e : PM α) := fun _ _ _ _ => he

theorem bind {f : α → PM β} (hm : Keeps E kp hs p m) (hf : ∀ a, Keeps E kp hs p (f a)) :
    Keeps E kp hs p (m >>= f) := fun s h hl hsz =>
  (hm s h hl hsz).bind fun a s₁ ⟨h₁, hs₁⟩ =>
    (hf a s₁ h₁ (hs₁.live hl) (hs₁.szOk hsz)).mono fun _ _ ⟨h₂, hs₂⟩ => ⟨h₂, hs₁.trans hs₂⟩

theorem ite {c : Prop} [Decidable c] {m' : PM α} (h : Keeps E kp hs p m) (h' : Keeps E kp hs p m') :
    Keeps E kp hs p (if c then m else m') := by
  split
  · exact h
  · exact h'

/-- A process changes in fields that the invariant does not read. -/
theorem setProc {p' : Nat} {f : Proc → Proc} (hf : ∀ pr, SameVm pr (f pr)) :
    Keeps E kp hs p (setProc p' f) := fun _ h _ _ => ⟨h.setProc (hf _), sameVm_setProc (hf _)⟩

theorem ofProc (h : ∀ s, Inv kp hs s → wp E m s fun _ s' => Inv kp hs s' ∧ s'.proc = s.proc) :
    Keeps E kp hs p m := fun s hi _ _ => (h s hi).mono fun _ _ ⟨h', e⟩ => ⟨h', .of_eq e⟩

theorem fileclose {f : Nat} (hE : E .fileclose) : Keeps E kp hs p (fileclose f) :=
  ofProc fun _ h => fileclose_spec h hE

theorem filedup {f : Nat} (hE : E .filedup) : Keeps E kp hs p (filedup f) :=
  ofProc fun _ ⟨own, T, h⟩ => (filedup_spec h hE).mono fun _ _ ⟨h', e⟩ => ⟨⟨own, T, h'⟩, e⟩

theorem pipealloc (hE : E .fileclose) : Keeps E kp hs p pipealloc :=
  ofProc fun _ h => pipealloc_spec h hE

theorem copyoutProc {dstva : Nat} {src : List UInt8} : Keeps E kp hs p (copyoutProc p dstva src) :=
  fun _ h hl hsz => (copyoutProc_spec h hl (hsz p)).mono fun _ _ ⟨h', e, _⟩ => ⟨h', .of_eq e⟩

theorem copyinProc {srcva len : Nat} : Keeps E kp hs p (copyinProc p srcva len) :=
  fun _ h hl hsz => (copyinProc_spec h hl (hsz p)).mono fun _ _ ⟨h', e, _⟩ => ⟨h', .of_eq e⟩

theorem clearFd {fd : Nat} : Keeps E kp hs p (clearFd p fd) :=
  setProc fun _ => ⟨Iff.rfl, rfl, rfl, rfl⟩

theorem argfd {fd : Int} : Keeps E kp hs p (argfd p fd) := by
  refine bind gets fun pr => ite pure ?_
  split
  · exact pure
  · exact pure

theorem fdalloc {f : Nat} : Keeps E kp hs p (fdalloc p f) := by
  refine bind gets fun fd => ?_
  split
  · exact pure
  · exact bind (setProc fun _ => ⟨Iff.rfl, rfl, rfl, rfl⟩) fun _ => pure

/-! ## `close`, `dup` and `pipe` -/

theorem sysClose {fd : Int} (hE : E .fileclose) : Keeps E kp hs p (sysClose p fd) := by
  refine bind argfd fun res => ?_
  split
  · exact pure
  · exact bind clearFd fun _ => bind (fileclose hE) fun _ => pure

theorem sysDup {fd : Int} (hE : E .filedup) : Keeps E kp hs p (sysDup p fd) := by
  refine bind argfd fun res => ?_
  split
  · exact pure
  · refine bind fdalloc fun res => ?_
    split
    · exact pure
    · exact bind (filedup hE) fun _ => pure

theorem clearFds {fds : List Nat} : Keeps E kp hs p (fds.forM (Xv6.clearFd p)) := by
  induction fds with
  | nil => exact pure
  | cons fd fds ih => exact bind clearFd fun _ => ih

theorem pipeUndo {rf wf : Nat} {fds : List Nat} (hE : E .fileclose) : Keeps E kp hs p (pipeUndo p rf wf fds) :=
  bind clearFds fun _ => bind (fileclose hE) fun _ => bind (fileclose hE) fun _ => pure

theorem sysPipe {fdarray : Nat} (hE : E .fileclose) : Keeps E kp hs p (sysPipe p fdarray) := by
  refine bind (pipealloc hE) fun res => ?_
  split
  · exact pure
  · refine bind fdalloc fun res => ?_
    split
    · exact pipeUndo hE
    · refine bind fdalloc fun res => ?_
      split
      · exact pipeUndo hE
      · exact bind copyoutProc fun _ => ite (bind copyoutProc fun _ => ite pure (pipeUndo hE)) (pipeUndo hE)

/-! ## `exit` -/

theorem closeFiles {n fd : Nat} (hE : E .fileclose) : Keeps E kp hs p (closeFiles p n fd) := by
  induction n generalizing fd with
  | zero => exact pure
  | succ n ih =>
    refine bind gets fun pr => ?_
    split
    · exact ih
    · exact bind (fileclose hE) fun _ => bind clearFd fun _ => ih

theorem reparent : Keeps E kp hs p (reparent p) := by
  intro s ⟨own, T, h⟩ _ _
  have hsame : ∀ pp, SameVm (s.proc pp) (if (s.proc pp).parent = some p
      then { s.proc pp with parent := some initproc } else s.proc pp) := by
    intro pp
    split <;> exact ⟨Iff.rfl, rfl, rfl, rfl⟩
  exact ⟨⟨own, T, h.setProcs hsame rfl rfl rfl⟩, hsame⟩

theorem kexit {status : Int} (hE : E .fileclose) (hi : E .initExiting) : Keeps E kp hs p (kexit p status) := by
  refine ite (stop hi) (bind (closeFiles hE) fun _ => bind reparent fun _ => ?_)
  intro s h hl _
  have hf : SameVm (s.proc p) { s.proc p with xstate := status, state := .zombie } :=
    ⟨⟨fun e => (by cases e), fun e => absurd e hl⟩, rfl, rfl, rfl⟩
  exact ⟨h.setProc hf, sameVm_setProc hf⟩

theorem usertrapFault {va : Nat} (hE : E .fileclose) (hi : E .initExiting) :
    Keeps E kp hs p (usertrapFault p va) := by
  have hkill : Keeps E kp hs p (getProc p >>= fun pr => if pr.killed then Xv6.kexit p (-1) else Pure.pure ()) :=
    bind gets fun _ => ite (kexit hE hi) pure
  rintro s ⟨own, T, h⟩ hl hsz
  obtain ⟨-, L, hT, hL⟩ := h.procs.live p hl
  unfold Xv6.usertrapFault
  simp only [getProc] at hkill ⊢
  rw [wp_bind, wp_gets, wp_bind, wp_onMem]
  refine (vmfault_spec h.mem hT (hsz p)).mono ?_
  rintro res k' ⟨own', hf, ⟨rfl, h'⟩ | ⟨mem, rfl, -, h0, hlt, h'⟩⟩
  · -- the process is killed
    rw [← update_self_table hT] at h'
    have h₁ : Inv kp hs { s with kmem := k' } :=
      ⟨own', _, h.setTable hl hf.frame h' hL (fun _ _ => rfl) hl rfl rfl rfl rfl⟩
    have hkeep : Keeps E kp hs p (Xv6.setProc p fun pr => { pr with killed := true }) :=
      setProc fun _ => ⟨Iff.rfl, rfl, rfl, rfl⟩
    exact bind hkeep (fun _ => hkill) _ h₁ hl hsz
  · have hflt : Faulted (s.proc p).sz L
        (update L (va / PGSIZE) (mkPte mem (PTE_W + PTE_U + PTE_R))) := .one h0 hlt
    have h₁ : Inv kp hs { s with kmem := k' } :=
      ⟨own', _, h.setTable hl hf.frame h' (hL.faulted (hsz p) hflt) (fun _ _ => rfl) hl rfl rfl rfl rfl⟩
    exact hkill _ h₁ hl hsz

end Keeps

/-! ## `fork` and `wait` -/

/-- The words of a page that is no table page may change. -/
theorem VmInv.fill {q : Nat} (h : VmInv kp hs s own T) (hq : (own q).isNode = false) (w : Nat → Nat) :
    VmInv kp hs { s with kmem := s.kmem.setPage q w } own T :=
  ⟨h.mem.fill hq w, h.kernel, h.held, h.nodup, h.procs, h.pipes⟩

/-- A process's trapframe may be written. -/
theorem Inv.fillTrapframe (h : Inv kp hs s) (hl : s.live p) (w : Nat → Nat) :
    Inv kp hs { s with kmem := s.kmem.setPage (s.proc p).trapframe w } := by
  obtain ⟨own, T, h⟩ := h
  exact ⟨own, T, h.fill (by rw [(h.procs.live p hl).1]; rfl) w⟩

variable {np n i addr uargv : Nat} {argv : List (List UInt8)}

theorem Keeps.dupFiles (hE : E .filedup) : Keeps E kp hs p (dupFiles p np n i) := by
  induction n generalizing i with
  | zero => exact .pure
  | succ n ih =>
    refine .bind .gets fun pr => ?_
    split
    · exact ih
    · exact .bind (.filedup hE) fun _ => .bind (.setProc fun _ => ⟨Iff.rfl, rfl, rfl, rfl⟩) fun _ => ih

/-- The last part of `kfork`, for a child that has its memory. -/
theorem forkTail_spec {t : Nat} (h : Inv kp hs s) (hl : s.live p) (hnp : s.live np)
    (hsz : SzOk s) (hE : E .filedup) :
    wp E (do
      onMem (copyTrapframe t (s.proc np).trapframe)
      onMem (store (s.proc np).trapframe 14 0)
      dupFiles p np NOFILE 0
      let pid := (← getProc np).pid
      setProc np fun npr => { npr with parent := some p }
      setProc np fun npr => { npr with state := .runnable }
      pure (some pid)) s fun _ s' => Inv kp hs s' ∧ SzOk s' := by
  rw [wp_bind, wp_onMem]
  have h₁ := h.fillTrapframe hnp fun i => if i < 36 then s.kmem.mem t i
    else s.kmem.mem (s.proc np).trapframe i
  have h₂ := h₁.fillTrapframe (p := np) hnp (update ((s.kmem.setPage (s.proc np).trapframe
    fun i => if i < 36 then s.kmem.mem t i else s.kmem.mem (s.proc np).trapframe i).mem
      (s.proc np).trapframe) 14 0)
  refine (Keeps.dupFiles hE _ h₂ hl hsz).bind fun _ s₃ ⟨h₃, hsame⟩ => ?_
  have hnp₃ : s₃.live np := hsame.live hnp
  rw [wp_bind, wp_getProc, wp_bind, wp_setProc, wp_bind, wp_setProc, wp_pure]
  have hp₁ : SameVm (s₃.proc np) { s₃.proc np with parent := some p } := ⟨Iff.rfl, rfl, rfl, rfl⟩
  have hp₂ : SameVm ((s₃.setProc np fun npr => { npr with parent := some p }).proc np)
      { (s₃.setProc np fun npr => { npr with parent := some p }).proc np with state := .runnable } :=
    ⟨⟨fun e => (by cases e), fun e => absurd (by simpa using e) hnp₃⟩, rfl, rfl, rfl⟩
  have hsame' := (hsame.trans (sameVm_setProc hp₁)).trans
    (sameVm_setProc (f := fun npr => { npr with state := .runnable }) hp₂)
  exact ⟨(h₃.setProc hp₁).setProc hp₂, hsame'.szOk hsz⟩

theorem kfork_spec (h : Inv kp hs s) (hl : s.live p) (hsz : SzOk s) (hE : E .filedup) :
    wp E (kfork p) s fun _ s' => Inv kp hs s' ∧ SzOk s' := by
  unfold kfork
  refine (allocproc_spec h).bind fun res s₁ hres => ?_
  rcases hres with ⟨rfl, h₁, hsame⟩ | ⟨np, rfl, hun, hst, hnsz, hne, own, T, h₁, hTn⟩
  · exact ⟨h₁, hsame.szOk hsz⟩
  have hpn : p ≠ np := by rintro rfl; exact hl hun
  have hnp : s₁.live np := by unfold Vm.live; rw [hst]; simp
  have hl₁ : s₁.live p := by unfold Vm.live; rw [hne p hpn]; exact hl
  have hsz₁ : SzOk s₁ := by
    intro p'
    by_cases e : p' = np
    · rw [e, hnsz]; exact Nat.zero_le _
    · rw [hne p' e]; exact hsz p'
  obtain ⟨-, L, hT, hL⟩ := h₁.procs.live p hl₁
  simp only
  rw [wp_bind, wp_getProc, wp_bind, wp_getProc, wp_bind, wp_onMem]
  refine (uvmcopy_spec h₁.mem hT hTn (fun e => hpn (h₁.procs.inj p np hl₁ hnp e)) (hsz₁ p)
    fun v hv => topLeaves_ok.empty v hv (Nat.zero_le _)).mono fun ok k₂ ⟨own₂, L₂, hf, h₂, htop, hz⟩ => ?_
  cases ok with
  | false =>
    -- the child's table is empty again
    rw [if_neg (by simp)]
    have h₃ : Inv kp hs { s₁ with kmem := k₂ } := by
      refine ⟨own₂, _, h₁.setTable (p := np) hnp hf h₂ ?_ (fun _ _ => rfl) hnp rfl rfl rfl rfl⟩
      rw [hnsz]
      exact topLeaves_ok.congr htop fun v hv _ => hz v hv (Nat.zero_le _)
    refine (freeproc_spec h₃ hnp (hsz₁ np)).bind fun _ s₄ ⟨h₄, _, hsz₄, hne₄, _⟩ => ⟨h₄, fun p' => ?_⟩
    by_cases e : p' = np
    · rw [e, hsz₄]; exact Nat.zero_le _
    · rw [hne₄ p' e]; exact hsz₁ p'
  | true =>
    rw [if_pos rfl, wp_bind, wp_setProc]
    have h₃ := h₁.setSz (n := (s₁.proc p).sz) hnp hf h₂ (topLeaves_ok.congr htop hz)
    have hl₃ : (({ s₁ with kmem := k₂ } : Vm).setProc np fun npr => { npr with sz := (s₁.proc p).sz }).live p := by
      unfold Vm.live; rw [Vm.setProc_ne _ _ hpn]; exact hl₁
    have hnp₃ : (({ s₁ with kmem := k₂ } : Vm).setProc np fun npr => { npr with sz := (s₁.proc p).sz }).live np := by
      unfold Vm.live; rw [Vm.setProc_self]; exact hnp
    have := forkTail_spec (E := E) (t := (s₁.proc p).trapframe) h₃ hl₃ hnp₃ (szOk_setProc hsz₁ (hsz₁ p)) hE
    simpa using this

theorem kwait_spec (h : Inv kp hs s) (hl : s.live p) (hsz : SzOk s) :
    wp E (kwait p addr) s fun _ s' => Inv kp hs s' ∧ SzOk s' := by
  unfold kwait
  rw [wp_bind, wp_gets]
  rcases hf : (List.range NPROC).find? (fun pp => decide ((s.proc pp).parent = some p ∧
    (s.proc pp).state = .zombie)) with _ | pp
  · simp only
    rw [wp_bind, wp_gets, wp_bind, wp_getProc, wp_ite]
    exact ⟨fun _ => ⟨h, hsz⟩, fun _ => ⟨h, hsz⟩⟩
  have hz : (s.proc pp).state = .zombie := by
    have := List.find?_some hf
    simp only [decide_eq_true_eq] at this
    exact this.2
  have hpp : s.live pp := by unfold Vm.live; rw [hz]; simp
  simp only
  rw [wp_bind, wp_getProc]
  have hcopy : Keeps E kp hs p (copyStatus p addr (s.proc pp).xstate) := .ite .copyoutProc .pure
  refine (hcopy s h hl hsz).bind fun ok s₁ ⟨h₁, hsame⟩ => ?_
  cases ok with
  | false => exact ⟨h₁, hsame.szOk hsz⟩
  | true =>
    rw [if_pos rfl]
    refine (freeproc_spec h₁ (hsame.live hpp) (hsame.szOk hsz pp)).bind
      fun _ s₂ ⟨h₂, _, hsz₂, hne₂, _⟩ => ⟨h₂, fun p' => ?_⟩
    by_cases e : p' = pp
    · rw [e, hsz₂]; exact Nat.zero_le _
    · rw [hne₂ p' e]; exact hsame.szOk hsz p'

/-! ## `exec` -/

theorem kexec_spec {ip : Option (List UInt8)} (h : Inv kp hs s)
    (hl : s.live p) (hsz : SzOk s) (hargs : ∀ arg ∈ argv, arg.length < PGSIZE) :
    wp E (kexec p ip argv) s fun _ s' => Inv kp hs s' ∧ SzOk s' ∧ s'.live p := by
  refine (kexec_exact h hl (hsz p) hargs).mono fun _ s' hx => ⟨hx.inv, fun p' => ?_, hx.live⟩
  by_cases e : p' = p
  · rw [e]
    exact hx.size
  · rw [hx.others p' e]
    exact hsz p'

/-! ## `sys_exec` -/

theorem Keeps.fetchaddr : Keeps E kp hs p (fetchaddr p addr) :=
  fun _ h hl hsz => (fetchaddr_spec h hl (hsz p)).mono fun _ _ ⟨h', e, _⟩ => ⟨h', .of_eq e⟩

theorem Keeps.fetchstr {max : Nat} : Keeps E kp hs p (fetchstr p addr max) :=
  fun _ h hl _ => (fetchstr_spec h hl).mono fun _ _ ⟨e, _⟩ => ⟨e ▸ h, .of_eq (by rw [e])⟩

/-- `kalloc` of a page that a system call keeps in a local variable. -/
theorem kallocHeld_spec (h : Inv kp hs s) :
    wp E (onMem kalloc) s fun res s' => s'.proc = s.proc ∧
      ((res = none ∧ Inv kp hs s') ∨ ∃ q, res = some q ∧ Inv kp (hs ++ [q]) s') := by
  obtain ⟨own, T, h⟩ := h
  rw [wp_onMem]
  refine (kalloc_spec h.mem).mono fun res k hres => ⟨rfl, ?_⟩
  rcases hres with ⟨rfl, h', -⟩ | ⟨q, rfl, hfree, h', -⟩
  · exact .inl ⟨rfl, own, T, h', h.kernel, h.held, h.nodup, h.procs, h.pipes⟩
  · have hkeep : ∀ q' o, o ≠ .held → o ≠ .free → (update own q .held q' = o ↔ own q' = o) :=
      fun q' o h1 h2 => own_update_iff (Ne.symm h1) (by rw [hfree]; exact Ne.symm h2)
    have hnew : q ∉ hs := fun hin => by rw [(h.held q).mpr hin] at hfree; cases hfree
    refine .inr ⟨q, rfl, update own q .held, T, h', fun q' => ?_, fun q' => ?_, ?_, ?_, ?_⟩
    · rw [hkeep q' _ (by simp) (by simp)]; exact h.kernel q'
    · by_cases e : q' = q
      · subst e; simp
      · rw [update_of_ne e, h.held q']; simp [e]
    · exact h.nodup.append (List.nodup_singleton q) (List.disjoint_singleton.mpr hnew)
    · exact h.procs.congr (fun _ => .refl) fun q' p => hkeep q' _ (by simp) (by simp)
    · exact h.pipes.congr fun q' => hkeep q' _ (by simp) (by simp)

/-- The pages that hold the arguments are freed. -/
theorem freeHeld_spec (h : Inv kp hs s) :
    wp E (hs.forM fun page => onMem (kfree page)) s fun _ s' => Inv kp [] s' ∧ s'.proc = s.proc := by
  induction hs generalizing s with
  | nil => exact ⟨h, rfl⟩
  | cons q hs ih =>
    obtain ⟨own, T, h⟩ := h
    have hq : own q = .held := (h.held q).mpr List.mem_cons_self
    obtain ⟨hnin, hnd⟩ := List.nodup_cons.mp h.nodup
    have hkeep : ∀ q' o, o ≠ .held → o ≠ .free → (update own q .free q' = o ↔ own q' = o) :=
      fun q' o h1 h2 => own_update_iff (Ne.symm h2) (by rw [hq]; exact Ne.symm h1)
    show wp E (onMem (kfree q) >>= fun _ => hs.forM fun page => onMem (kfree page)) s _
    rw [wp_bind, wp_onMem]
    refine (kfree_spec h.mem (by rw [hq]; rfl) (by rw [hq]; simp) (by rw [hq]; simp)).mono fun _ k h' => ?_
    refine ih ⟨_, T, h', fun q' => ?_, fun q' => ?_, hnd, ?_, ?_⟩
    · rw [hkeep q' _ (by simp) (by simp)]; exact h.kernel q'
    · by_cases e : q' = q
      · subst e; simp [hnin]
      · rw [update_of_ne e, h.held q']; simp [e]
    · exact h.procs.congr (fun _ => .refl) fun q' p => hkeep q' _ (by simp) (by simp)
    · exact h.pipes.congr fun q' => hkeep q' _ (by simp) (by simp)

/-- The pages of the arguments are the ones that the call holds, and the strings fit in a page. -/
theorem fetchArgs_spec (h : Inv kp hs s)
    (hl : s.live p) (hsz : SzOk s) (hargs : ∀ arg ∈ argv, arg.length < PGSIZE) :
    wp E (fetchArgs p uargv n i hs argv) s fun res s' => Inv kp res.2 s' ∧ SameProcs s s' ∧
      ∀ argv, res.1 = some argv → ∀ arg ∈ argv, arg.length < PGSIZE := by
  induction n generalizing s hs i argv with
  | zero => exact ⟨h, .refl, by simp⟩
  | succ n ih =>
    unfold fetchArgs
    refine (Keeps.fetchaddr s h hl hsz).bind fun res s₁ ⟨h₁, hs₁⟩ => ?_
    rcases res with _ | uarg
    · exact ⟨h₁, hs₁, by simp⟩
    simp only
    rw [wp_ite]
    refine ⟨fun _ => ⟨h₁, hs₁, fun a e => by obtain rfl := Option.some.inj e; exact hargs⟩, fun _ => ?_⟩
    refine (kallocHeld_spec h₁).bind fun res s₂ ⟨hp₂, hres⟩ => ?_
    have hs₂ := hs₁.trans (.of_eq hp₂)
    rcases hres with ⟨rfl, h₂⟩ | ⟨q, rfl, h₂⟩
    · exact ⟨h₂, hs₂, by simp⟩
    simp only
    refine (fetchstr_spec h₂ (hs₂.live hl)).bind fun res s₃ ⟨e₃, hlen⟩ => ?_
    subst e₃
    rcases res with _ | arg
    · exact ⟨h₂, hs₂, by simp⟩
    simp only
    rw [wp_bind, wp_onMem, wp_modify]
    have h₃ : Inv kp (hs ++ [q]) { s₃ with kmem := s₃.kmem.setBytes q 0 (arg ++ [0]) } := by
      obtain ⟨own, T, h₂⟩ := h₂
      have hq : own q = .held := (h₂.held q).mpr (by simp)
      exact ⟨own, T, h₂.mem.setBytes (by rw [hq]; rfl) 0 _, h₂.kernel, h₂.held, h₂.nodup, h₂.procs,
        h₂.pipes⟩
    refine (ih h₃ (hs₂.live hl) (hs₂.szOk hsz) fun a ha => ?_).mono
      fun _ _ ⟨h', hs', hargs'⟩ => ⟨h', hs₂.trans hs', hargs'⟩
    rcases List.mem_append.mp ha with ha | ha
    · exact hargs a ha
    · obtain rfl := List.mem_singleton.mp ha
      exact hlen a rfl

theorem sysExec_spec {path : Nat} {files : List UInt8 → Option (List UInt8)} (h : Inv kp [] s) (hl : s.live p)
    (hsz : SzOk s) : wp E (sysExec p path uargv files) s fun _ s' => Inv kp [] s' ∧ SzOk s' := by
  unfold sysExec
  refine (Keeps.fetchstr s h hl hsz).bind fun res s₁ ⟨h₁, hs₁⟩ => ?_
  rcases res with _ | name
  · exact ⟨h₁, hs₁.szOk hsz⟩
  simp only
  refine (fetchArgs_spec h₁ (hs₁.live hl) (hs₁.szOk hsz) (by simp)).bind fun res s₂ ⟨h₂, hs₂, hargs⟩ => ?_
  obtain ⟨argv, pages⟩ := res
  have hsz₂ := hs₂.szOk (hs₁.szOk hsz)
  cases argv with
  | none =>
    refine (freeHeld_spec h₂).bind fun _ s₃ ⟨h₃, hp₃⟩ => ⟨h₃, ?_⟩
    exact (SameProcs.of_eq hp₃).szOk hsz₂
  | some argv =>
    refine (kexec_spec h₂ (hs₂.live (hs₁.live hl)) hsz₂ (hargs argv rfl)).bind
      fun ret s₃ ⟨h₃, hsz₃, _⟩ => ?_
    refine (freeHeld_spec h₃).bind fun _ s₄ ⟨h₄, hp₄⟩ => ⟨h₄, ?_⟩
    exact (SameProcs.of_eq hp₄).szOk hsz₃

end

end Xv6
