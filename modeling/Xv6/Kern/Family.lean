import Xv6.Kern.Procs

/-!
# Fork, exit and wait

What `kfork`, `kexit` and `kwait` do to the family, one lemma for each of their actions, and that
the functions keep the invariant.
-/

namespace Xv6.Kern

open Conc Prog
open Function (update update_apply update_eq_self update_of_ne)

/-- What a thread's ghost value tells of the family, for a thread that makes no child. -/
def Gh.Knows (F : Family) (t : Tid) : Gh → Prop
  | .none | .live => True
  | .forking _ _ => False
  | .exiting k => t ≠ initproc ∧ ∀ q < k, F.parent q ≠ some t
  | .child q => F.parent q = some t
  | .reaping q pid xstate =>
    F.life q = .zombie ∧ F.parent q = some t ∧ F.pid q = pid ∧ F.xstate q = xstate

namespace FamOk

variable {F : Family} {γ : Tid → Gh} {t q : Nat}

/-- A thread's knowledge of others is forgotten or gained; it makes no child. -/
theorem setGhost {g : Gh} (h : FamOk F γ) (ht : ∀ q l, γ t ≠ .forking q l) (hl : F.life t = .live)
    (hk : g.Knows F t) : FamOk F (update γ t g) := by
  have hg : ∀ u, update γ t g u = if u = t then g else γ u := update_apply γ t g
  unfold Gh.Knows at hk
  refine { h with
    live := ?_, used := fun q hq => ?_, forking := ?_, one := ?_, exiting := ?_, child := ?_, reaping := ?_ }
  case refine_2 =>
    obtain ⟨u, l, hu⟩ := h.used q hq
    refine ⟨u, l, ?_⟩
    rw [update_of_ne, hu]
    rintro rfl
    exact ht _ _ hu
  all_goals cases h; grind

/-- `allocproc` takes slot `q`. -/
theorem alloc (pid : BitVec 32) (h : FamOk F γ) (ht : γ t = .live) (hq : F.life q = .unused)
    (hlt : q < NPROC) : FamOk { F with
      life := update F.life q .used, id := update F.id q (F.allocs + 1)
      maker := update F.maker q (F.id t), pid := update F.pid q pid
      allocs := F.allocs + 1 } (update γ t (.forking q false)) := by
  have hl := h.live t (by simp [ht])
  have hp := h.unused q hq
  constructor <;> simp only [update_apply]
  case used =>
    intro r hr
    by_cases hrq : r = q
    · exact ⟨t, false, by simp [hrq]⟩
    · obtain ⟨u, l, hu⟩ := h.used r (by simpa [hrq] using hr)
      exact ⟨u, l, by grind⟩
  case tree =>
    intro r hr hlr
    have hrq : r ≠ q := by rintro rfl; simp at hlr
    obtain ⟨p, h1, h2, h3⟩ := h.tree r hr (by simpa [hrq] using hlr)
    refine ⟨p, h1, ?_⟩
    have hpq : p ≠ q := by rintro rfl; rw [hq] at h2; cases h2
    simp only [hrq, hpq, if_false]
    exact ⟨h2, h3⟩
  all_goals cases h; grind

/-- `freeproc` of a process that is not alive, and that no other thread knows of. -/
theorem free (h : FamOk F γ) (hl : F.life t = .live) (hq : F.life q ≠ .live)
    (ht : ∀ r l, γ t = .forking r l → r = q) (hu : ∀ u l, γ u = .forking q l → u = t)
    (hp : ∀ u, F.parent q = some u → u = t) : FamOk { F with
      life := update F.life q .unused, parent := update F.parent q none
      pid := update F.pid q 0, xstate := update F.xstate q 0 }
    (update γ t .live) := by
  constructor <;> simp only [update_apply]
  case used =>
    intro r hr
    have hrq : r ≠ q := by rintro rfl; simp at hr
    obtain ⟨u, l, hu'⟩ := h.used r (by simpa [hrq] using hr)
    exact ⟨u, l, by grind⟩
  case tree =>
    intro r hr hlr
    have hrq : r ≠ q := by rintro rfl; simp at hlr
    obtain ⟨p, h1, h2, h3⟩ := h.tree r hr (by simpa [hrq] using hlr)
    have hpq : p ≠ q := by rintro rfl; exact hq h2
    exact ⟨p, by simpa [hrq] using h1, by simpa [hpq] using h2, h3⟩
  all_goals cases h; grind

/-- `np->parent = p`. -/
theorem link {l : Bool} (h : FamOk F γ) (ht : γ t = .forking q l) :
    FamOk { F with parent := update F.parent q (some t) }
      (update γ t (.forking q true)) := by
  obtain ⟨hq, hpar, hmk⟩ := h.forking t q l ht
  have hl := h.live t (by simp [ht])
  constructor <;> simp only [update_apply]
  case used =>
    intro r hr
    obtain ⟨u, l', hu⟩ := h.used r hr
    by_cases hut : u = t
    · subst hut
      obtain ⟨rfl, -⟩ : q = r ∧ l = l' := by simpa [ht] using hu
      exact ⟨u, true, by simp⟩
    · exact ⟨u, l', by simp [hut, hu]⟩
  case tree =>
    intro r hr hlr
    have hrq : r ≠ q := by rintro rfl; simp [hq] at hlr
    simpa [hrq] using h.tree r hr hlr
  all_goals cases h; grind

/-- `np->state = RUNNABLE`. -/
theorem publish (h : FamOk F γ) (ht : γ t = .forking q true) :
    FamOk { F with life := update F.life q .live } (update γ t .live) := by
  obtain ⟨hq, hpar, hmk⟩ := h.forking t q true ht
  have hl := h.live t (by simp [ht])
  constructor <;> simp only [update_apply]
  case used =>
    intro r hr
    have hrq : r ≠ q := by rintro rfl; simp at hr
    obtain ⟨u, l', hu⟩ := h.used r (by simpa [hrq] using hr)
    exact ⟨u, l', by grind⟩
  case tree =>
    intro r hr hlr
    by_cases hrq : r = q
    · subst hrq
      exact ⟨t, hpar, by simp [hl], .inr hmk.symm⟩
    · obtain ⟨p, h1, h2, h3⟩ := h.tree r hr (by simpa [hrq] using hlr)
      exact ⟨p, h1, by simp [h2], h3⟩
  all_goals cases h; grind

/-- A child of `t` is given to `initproc`. -/
theorem reparent {k : Nat} (h : FamOk F γ) (ht : γ t = .exiting k) (hq : F.parent q = some t) :
    FamOk { F with parent := update F.parent q (some initproc) } γ := by
  have hne := (h.exiting t k ht).1
  have hinit := h.init
  have hl := h.live t (by simp [ht])
  have hf : ∀ r, update F.parent q (some initproc) r =
      if r = q then some initproc else F.parent r := update_apply F.parent q _
  refine { h with
    forking := ?_, exiting := ?_, child := ?_, reaping := ?_, tree := fun r hr hlr => ?_, root := ?_, unused := ?_ }
  case refine_5 =>
    by_cases hrq : r = q
    · exact ⟨initproc, by simp [hrq], hinit, .inl rfl⟩
    · simpa [hrq] using h.tree r hr hlr
  all_goals cases h; grind

/-- A process without children becomes a zombie. -/
theorem exit {k : Nat} (status : Int) (h : FamOk F γ) (ht : γ t = .exiting k)
    (hc : ∀ q, F.parent q ≠ some t) : FamOk { F with
      life := update F.life t .zombie, xstate := update F.xstate t status }
    (update γ t .none) := by
  have hl := h.live t (by simp [ht])
  have hne := (h.exiting t k ht).1
  constructor <;> simp only [update_apply]
  case used =>
    intro r hr
    have hrq : r ≠ t := by rintro rfl; simp at hr
    obtain ⟨u, l', hu⟩ := h.used r (by simpa [hrq] using hr)
    exact ⟨u, l', by grind⟩
  case tree =>
    intro r hr hlr
    obtain ⟨p, h1, h2, h3⟩ := h.tree r hr (by grind)
    have hpt : p ≠ t := by rintro rfl; exact hc r h1
    exact ⟨p, h1, by simp [hpt, h2], h3⟩
  all_goals cases h; grind

end FamOk

/-! ## The actions -/

section

variable {s s' : St} {γ : Tid → Gh} {t q : Nat}

/-- The family after a change of process `q`. -/
theorem family_setProc {p : Proc} (hp : s'.proc = update s.proc q p) : s'.family = {
      life := update s.family.life q p.state.life
      parent := update s.family.parent q p.parent
      id := update s.family.id q p.id
      maker := update s.family.maker q p.maker
      pid := update s.family.pid q p.pid
      xstate := update s.family.xstate q p.xstate
      allocs := s'.allocs } := by
  have key : ∀ {α : Type} (f : Proc → α),
      (fun r => f (s'.proc r)) = update (fun r => f (s.proc r)) q (f p) := by
    intro α f
    funext r
    rw [hp]
    by_cases hr : r = q
    · subst hr
      simp
    · simp [hr]
  unfold St.family
  rw [key fun p => p.state.life, key Proc.parent, key Proc.id, key Proc.maker, key Proc.pid,
    key Proc.xstate]

/-! A field that the change leaves as it is. -/

@[simp] theorem update_life : update s.family.life q (s.proc q).state.life = s.family.life :=
  update_eq_self ..

@[simp] theorem update_parent : update s.family.parent q (s.proc q).parent = s.family.parent :=
  update_eq_self ..

@[simp] theorem update_id : update s.family.id q (s.proc q).id = s.family.id :=
  update_eq_self ..

@[simp] theorem update_maker : update s.family.maker q (s.proc q).maker = s.family.maker :=
  update_eq_self ..

@[simp] theorem update_pid : update s.family.pid q (s.proc q).pid = s.family.pid :=
  update_eq_self ..

@[simp] theorem update_xstate : update s.family.xstate q (s.proc q).xstate = s.family.xstate :=
  update_eq_self ..

theorem St.life_unused {q : Nat} : s.life q = .unused ↔ (s.proc q).state = .unused := by
  unfold St.life
  cases (s.proc q).state <;> simp [PState.life]

theorem St.life_zombie {q : Nat} : s.life q = .zombie ↔ (s.proc q).state = .zombie := by
  unfold St.life
  cases (s.proc q).state <;> simp [PState.life]

theorem ProcOk.alloc (h : ProcOk s γ) (ht : γ t = .live) (hlt : q < NPROC) (hu : (s.proc q).state = .unused) :
    ProcOk ((Act.alloc q t).effect t s) (update γ t (.forking q false)) := by
  have he : (Act.alloc q t).effect t s = _ := if_pos hu
  have := FamOk.alloc s.nextpid h ht (q := q) (St.life_unused.mpr hu) hlt
  unfold ProcOk
  rw [he, family_setProc rfl]
  simp only [update_parent, update_xstate]
  exact this

theorem ProcOk.free (h : ProcOk s γ) (hl : s.life t = .live) (hq : s.life q ≠ .live)
    (ht : ∀ r l, γ t = .forking r l → r = q) (hu : ∀ u l, γ u = .forking q l → u = t)
    (hp : ∀ u, (s.proc q).parent = some u → u = t) (he : s'.proc = update s.proc q (s.proc q).free)
    (ha : s'.allocs = s.allocs) : ProcOk s' (update γ t .live) := by
  have := FamOk.free h hl hq ht hu hp
  unfold ProcOk
  rw [family_setProc he]
  simp only [Proc.free, update_id, update_maker, ha]
  exact this

theorem ProcOk.link {l : Bool} (h : ProcOk s γ) (ht : γ t = .forking q l) :
    ProcOk ((Act.setParent q t).effect t s) (update γ t (.forking q true)) := by
  have := FamOk.link h ht
  unfold ProcOk
  rw [family_setProc (q := q) (p := { s.proc q with parent := some t }) rfl]
  simp only [update_life, update_id, update_maker, update_pid, update_xstate]
  exact this

theorem ProcOk.publish (h : ProcOk s γ) (ht : γ t = .forking q true) :
    ProcOk ((Act.setRunnable q).effect t s) (update γ t .live) := by
  have := FamOk.publish h ht
  unfold ProcOk
  rw [family_setProc (q := q) (p := { s.proc q with state := .runnable }) rfl]
  simp only [update_parent, update_id, update_maker, update_pid, update_xstate]
  exact this

theorem ProcOk.exit {k : Nat} {status : Int} (h : ProcOk s γ) (ht : γ t = .exiting k)
    (hc : ∀ q, (s.proc q).parent ≠ some t) : ProcOk ((Act.setZombie t status).effect t s) (update γ t .none) := by
  have := FamOk.exit status h ht hc
  unfold ProcOk
  rw [family_setProc (q := t) (p := { s.proc t with xstate := status, state := .zombie }) rfl]
  simp only [update_parent, update_id, update_maker, update_pid]
  exact this

/-- One turn of the loop of `reparent`. -/
theorem ProcOk.reparent {k : Nat} (h : ProcOk s γ) (ht : γ t = .exiting k) :
    ProcOk ((Act.reparent k t).effect t s) (update γ t (.exiting (k + 1))) := by
  obtain ⟨hne, hk⟩ := h.exiting t k ht
  have hl := h.live t (by simp [ht])
  by_cases hp : (s.proc k).parent = some t
  · have he : (Act.reparent k t).effect t s = _ := if_pos hp
    have h' := FamOk.reparent h ht (q := k) hp
    have hf : ((Act.reparent k t).effect t s).family =
        { s.family with parent := update s.family.parent k (some initproc) } := by
      rw [he, family_setProc (q := k) (p := { s.proc k with parent := some initproc }) rfl]
      simp only [update_life, update_id, update_maker, update_pid, update_xstate]
      rfl
    unfold ProcOk
    rw [hf]
    refine h'.setGhost (by simp [ht]) hl ⟨hne, fun q hq => ?_⟩
    by_cases hqk : q = k
    · simpa [hqk] using hne.symm
    · simpa [hqk] using hk q (by omega)
  · have he : (Act.reparent k t).effect t s = s := if_neg hp
    rw [he]
    refine FamOk.setGhost h (by simp [ht]) hl ⟨hne, fun q hq => ?_⟩
    by_cases hqk : q = k
    · exact hqk ▸ hp
    · exact hk q (by omega)

end

end Xv6.Kern
