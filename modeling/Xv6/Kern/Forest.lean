import Xv6.Kern.Family

/-!
# The process forest

`kfork`, `kexit`, `kwait` and all other calls keep the invariant of the family (`procCalls`), so it
holds in every reachable state (`procOk_of_reach`).
-/

namespace Xv6.Kern

open Conc Prog

section

variable {t : Nat} {g : Gh} {α β : Type} {Q : α → Gh → Prop}

/-! ## Rules for the actions -/

variable {a : Act β} {q addr : Nat} {f : Unit → Prog Act α} {copy : Bool}

/-- A quiet action, then the rest. -/
theorem Quiet.step {f : β → Prog Act α} (ha : Quiet t a) (hg : g ≠ .none)
    (hf : ∀ b, answers t a b → (f b).Safe procLogic t Q g) : (call a >>= f).Safe procLogic t Q g := by
  intro s γ hi hγ
  obtain ⟨hp, he⟩ := Quiet.frame hg a s γ ha hi hγ
  refine ⟨hp, fun b s' hs => ⟨g, ?_, hf b (he b s' hs).1⟩⟩
  rw [← hγ, Function.update_eq_self]
  exact (he b s' hs).2

/-- A function of quiet actions, then the rest. -/
theorem Quiet.bind {p : Prog Act β} {f : β → Prog Act α} (hp : p.Only (Quiet t) (answers t))
    (hg : g ≠ .none) (hf : ∀ b, (f b).Safe procLogic t Q g) : (p >>= f).Safe procLogic t Q g :=
  Safe.bind ((hp.safe (Quiet.frame hg)).mono fun b _ e => e ▸ hf b)

/-- An action that leaves the family alone, in a thread of any ghost value. -/
theorem same_step {f : β → Prog Act α} (hp : ∀ s, procPre t a s) (he : ∀ s, (a.effect t s).family = s.family)
    (hf : ∀ b, (f b).Safe procLogic t Q g) : (call a >>= f).Safe procLogic t Q g := by
  refine act_safe rfl fun s γ hi hγ => ⟨hp s, fun _ => ⟨g, ?_, hf _⟩⟩
  rw [← hγ, Function.update_eq_self]
  show FamOk _ γ
  rw [he]
  exact hi

/-- A quiet action that tells the thread something of the family, or lets it forget. -/
theorem learn_step {f : β → Prog Act α} (ha : Quiet t a) (hg : g ≠ .none) (hn : ∀ q l, g ≠ .forking q l)
    (hf : ∀ s γ, ProcOk s γ → γ t = g → ∃ g' : Gh, g'.Knows s.family t ∧
      (f (a.answer t s)).Safe procLogic t Q g') : (call a >>= f).Safe procLogic t Q g := by
  refine act_safe rfl fun s γ hi hγ => ?_
  have hl : s.life t = .live := FamOk.live hi t (hγ ▸ hg)
  obtain ⟨g', hk, hs⟩ := hf s γ hi hγ
  refine ⟨ha.pre hl, fun _ => ⟨g', ?_, hs⟩⟩
  show FamOk _ _
  rw [ha.family hl]
  exact FamOk.setGhost hi (hγ ▸ hn) hl hk

/-! ## `kfork` -/

theorem alloc_step {f : Bool → Prog Act α} (hq : q < NPROC) (ht : (f true).Safe procLogic t Q (.forking q false))
    (hf : (f false).Safe procLogic t Q .live) : (call (.alloc q t) >>= f).Safe procLogic t Q .live := by
  refine act_safe rfl fun s γ hi hγ => ⟨⟨rfl, FamOk.live hi t (by simp [hγ])⟩, fun _ => ?_⟩
  by_cases hu : (s.proc q).state = .unused
  · have hb : (Act.alloc q t).answer t s = true := by simp [Act.answer, hu]
    rw [hb]
    exact ⟨_, ProcOk.alloc hi hγ hq hu, ht⟩
  · have hb : (Act.alloc q t).answer t s = false := by simp [Act.answer, hu]
    have he : (Act.alloc q t).effect t s = s := if_neg hu
    rw [hb, he]
    exact ⟨.live, by rw [← hγ, Function.update_eq_self]; exact hi, hf⟩

/-- `freeproc` of the child of a `kfork`. -/
theorem freeChild_step {l : Bool} (hf : (f ()).Safe procLogic t Q .live) :
    (call (.freeproc q none) >>= f).Safe procLogic t Q (.forking q l) := by
  refine act_safe rfl fun s γ hi hγ => ?_
  obtain ⟨hu, hp, -⟩ := FamOk.forking hi t q l hγ
  refine ⟨hu, fun _ => ⟨.live, ?_, hf⟩⟩
  refine ProcOk.free (q := q) hi (FamOk.live hi t (by simp [hγ])) ?_ ?_ ?_ ?_ rfl rfl
  · rw [show s.life q = .used from hu]
    simp
  · intro r l' h
    rw [hγ] at h
    injection h with h _
    exact h.symm
  · exact fun u l' h => (FamOk.one hi t u q l l' hγ h).symm
  · intro u h
    rw [show (s.proc q).parent = _ from hp] at h
    cases l
    · cases h
    · exact (Option.some.inj h).symm

theorem allocproc_safe {trapframe pagetable : Bool} {l : List Nat} (hl : ∀ q ∈ l, q < NPROC) :
    (Code.allocproc t trapframe pagetable l).Safe procLogic t
      (fun r g => g = match r with | none => .live | some q => .forking q false) .live := by
  induction l with
  | nil => exact Safe.pure rfl
  | cons q l ih =>
    refine Quiet.step trivial (by simp) fun _ _ => alloc_step (hl q (by simp)) ?_ ?_
    · simp only [if_true]
      split
      · exact Quiet.step trivial (by simp) fun _ _ => Safe.pure rfl
      · exact freeChild_step (Quiet.step trivial (by simp) fun _ _ => Safe.pure rfl)
    · simp only [Bool.false_eq_true, if_false]
      exact Quiet.step trivial (by simp) fun _ _ => ih fun r hr => hl r (by simp [hr])

theorem setParent_step {l : Bool} (hf : (f ()).Safe procLogic t Q (.forking q true)) :
    (call (.setParent q t) >>= f).Safe procLogic t Q (.forking q l) :=
  act_safe rfl fun _ _ hi hγ =>
    ⟨⟨rfl, FamOk.live hi t (by simp [hγ]), (FamOk.forking hi t q l hγ).1⟩,
      fun _ => ⟨_, ProcOk.link hi hγ, hf⟩⟩

theorem publish_step (hf : (f ()).Safe procLogic t Q .live) :
    (call (.setRunnable q) >>= f).Safe procLogic t Q (.forking q true) := by
  refine act_safe rfl fun s γ hi hγ => ?_
  obtain ⟨hu, hp, -⟩ := FamOk.forking hi t q true hγ
  exact ⟨⟨FamOk.live hi t (by simp [hγ]), .inr ⟨hu, hp⟩⟩, fun _ => ⟨_, ProcOk.publish hi hγ, hf⟩⟩

theorem kfork_safe {trapframe pagetable : Bool} :
    (Code.kfork trapframe pagetable copy).Safe procLogic t (fun _ g => g = .live) .live := by
  refine Quiet.step trivial (by simp) ?_
  rintro p rfl
  refine Safe.bind ((allocproc_safe fun q hq => List.mem_range.mp hq).mono ?_)
  rintro (_ | np) g rfl
  · exact Safe.pure rfl
  · cases copy
    · exact freeChild_step (Quiet.step trivial (by simp) fun _ _ => Safe.pure rfl)
    · refine Quiet.step trivial (by simp) fun _ _ => Quiet.step trivial (by simp) fun _ _ => ?_
      refine setParent_step (Quiet.step trivial (by simp) fun _ _ => ?_)
      refine Quiet.step trivial (by simp) fun _ _ => publish_step ?_
      exact Quiet.step trivial (by simp) fun _ _ => Safe.pure rfl

/-! ## `kexit` -/

theorem reparent_safe : (Code.reparent t).Safe procLogic t (fun _ g => g = .exiting NPROC) (.exiting 0) := by
  refine Safe.range (fun k g => g = .exiting k) rfl ?_ fun _ h => h
  rintro k - _ rfl
  refine act_safe rfl fun s γ hi hγ => ⟨trivial, fun _ => ⟨_, ProcOk.reparent hi hγ, ?_⟩⟩
  split
  · exact wakeup_quiet.safe (Quiet.frame (by simp))
  · exact Safe.pure rfl

/-- A process that has given away its children has none: they can be nowhere but in the table. -/
theorem ProcOk.no_children {s : St} {γ : Tid → Gh} (hi : ProcOk s γ) (hγ : γ t = .exiting NPROC) (q : Nat) :
    (s.proc q).parent ≠ some t := by
  by_cases hq : q < NPROC
  · exact (FamOk.exiting hi t NPROC hγ).2 q hq
  · have := FamOk.unused hi q (FamOk.range hi q (by omega))
    rw [show (s.proc q).parent = none from this]
    simp

theorem setZombie_step {status : Int} (hf : (f ()).Safe procLogic t Q .none) :
    (call (.setZombie t status) >>= f).Safe procLogic t Q (.exiting NPROC) := by
  refine act_safe rfl fun s γ hi hγ => ⟨?_, fun _ => ⟨_, ProcOk.exit hi hγ (ProcOk.no_children hi hγ), hf⟩⟩
  exact ⟨rfl, FamOk.live hi t (by simp [hγ]), (FamOk.exiting hi t _ hγ).1, ProcOk.no_children hi hγ⟩

theorem kexit_safe {status : Int} : (Code.kexit status).Safe procLogic t (fun _ g => g = .none) .live := by
  refine Quiet.step trivial (by simp) ?_
  rintro p rfl
  split
  · exact act_safe (f := ret) rfl fun _ _ _ _ => ⟨trivial, fun h => by simp [Act.check] at h⟩
  · rename_i hp
    refine learn_step trivial (by simp) (by simp) fun s γ hi hγ => ⟨.exiting 0, ⟨hp, by simp⟩, ?_⟩
    refine Safe.bind (reparent_safe.mono ?_)
    rintro _ _ rfl
    refine Quiet.step trivial (by simp) fun parent _ => Quiet.bind wakeup_quiet (by simp) fun _ => ?_
    refine Quiet.step trivial (by simp) fun _ _ => setZombie_step ?_
    refine same_step (fun _ => trivial) (fun _ => family_of_proc rfl rfl) fun _ => ?_
    exact same_step (f := ret) (fun _ => rfl) (fun _ => family_of_proc rfl rfl) fun _ => rfl

/-! ## `kwait` -/

/-- `freeproc` of the zombie that `kwait` has found. -/
theorem reap_step {pid : BitVec 32} {xstate : Int} {x : Option Int}
    (hx : ∀ y, x = some y → y = xstate) (hf : (f ()).Safe procLogic t Q .live) :
    (call (.freeproc q (some (t, pid, x))) >>= f).Safe procLogic t Q (.reaping q pid xstate) := by
  refine act_safe rfl fun s γ hi hγ => ?_
  obtain ⟨hz, hp, rfl, rfl⟩ := FamOk.reaping hi t q pid xstate hγ
  have hl := FamOk.live hi t (by simp [hγ])
  refine ⟨⟨rfl, hl, hz, hp, rfl, hx⟩, fun _ => ⟨.live, ?_, hf⟩⟩
  refine ProcOk.free (q := q) hi hl ?_ (by simp [hγ]) ?_ ?_ rfl rfl
  · rw [show s.life q = .zombie from hz]
    simp
  · intro u l h
    have := (FamOk.forking hi u q l h).1
    rw [hz] at this
    cases this
  · intro u h
    rw [show (s.proc q).parent = some t from hp] at h
    exact (Option.some.inj h).symm

theorem waitScan_safe {havekids : Bool} {l : List Nat} :
    (Code.waitScan t addr copy l havekids).Safe procLogic t (fun _ g => g = .live) .live := by
  induction l generalizing havekids with
  | nil => exact Safe.pure rfl
  | cons q l ih =>
    refine learn_step trivial (by simp) (by simp) fun s γ hi hγ => ?_
    by_cases hp : (s.proc q).parent = some t
    · refine ⟨.child q, hp, ?_⟩
      rw [show (Act.getParent q).answer t s = some t from hp, if_pos rfl]
      refine Quiet.step trivial (by simp) fun _ _ => ?_
      refine learn_step trivial (by simp) (by simp) fun s γ hi hγ => ?_
      have hq := FamOk.child hi t q hγ
      by_cases hz : (s.proc q).state = .zombie
      · refine ⟨.reaping q (s.proc q).pid (s.proc q).xstate, ⟨St.life_zombie.mpr hz, hq, rfl, rfl⟩, ?_⟩
        rw [show (Act.zombie q).answer t s = some ((s.proc q).pid, (s.proc q).xstate) from if_pos hz]
        simp only []
        split
        · refine learn_step trivial (by simp) (by simp) fun _ _ _ _ => ⟨.live, trivial, ?_⟩
          exact Quiet.step trivial (by simp) fun _ _ => Safe.pure rfl
        · refine reap_step ?_ (Quiet.step trivial (by simp) fun _ _ => ?_)
          · intro y hy
            split at hy <;> simp_all
          · exact Quiet.step trivial (by simp) fun _ _ => Safe.pure rfl
      · refine ⟨.live, trivial, ?_⟩
        rw [show (Act.zombie q).answer t s = none from if_neg hz]
        exact Quiet.step trivial (by simp) fun _ _ => ih
    · refine ⟨.live, trivial, ?_⟩
      rw [show (Act.getParent q).answer t s = (s.proc q).parent from rfl, if_neg hp]
      exact ih

theorem waitLoop_safe {fuel : Nat} :
    (Code.waitLoop t addr copy fuel).Safe procLogic t (fun _ g => g = .live) .live := by
  induction fuel with
  | zero => exact Quiet.step trivial (by simp) fun _ _ => Safe.pure rfl
  | succ fuel ih =>
    refine Safe.bind (waitScan_safe.mono ?_)
    rintro (havekids | r) _ rfl
    · refine Quiet.bind ?_ (by simp) fun stop => ?_
      · cases havekids
        · trivial
        · exact killed_quiet
      · cases stop
        · exact Quiet.bind sleep_quiet (by simp) fun _ => ih
        · exact Quiet.step trivial (by simp) fun _ _ => Safe.pure rfl
    · exact Safe.pure rfl

theorem kwait_safe {fuel : Nat} : (Code.kwait addr copy fuel).Safe procLogic t (fun _ g => g = .live) .live := by
  refine Quiet.step trivial (by simp) ?_
  rintro p rfl
  exact Quiet.step trivial (by simp) fun _ _ => waitLoop_safe

/-! ## All calls -/

/-- The first steps of a new process. -/
theorem forkret_safe : (Code.forkret t).Safe procLogic t (fun _ g => g = .live) .none := by
  refine act_safe rfl fun s γ hi hγ => ⟨rfl, fun hc => ⟨.live, ?_, ?_⟩⟩
  · have hr : (s.proc t).state = .runnable := by
      by_contra h
      simp [Act.check, h] at hc
    have hl : s.life t = .live := by simp [St.life, hr, PState.life]
    have hf : ((Act.schedIn t).effect t s).family = s.family :=
      family_update rfl rfl hl.symm rfl rfl rfl rfl rfl
    show FamOk _ _
    rw [hf]
    exact FamOk.setGhost hi (by simp [hγ]) hl trivial
  · exact Quiet.step trivial (by simp) fun _ _ => Safe.pure rfl

/-- **Every call keeps the invariant of the family.** -/
theorem procCalls : Sys.Calls sys procLogic ghost := by
  rintro t s γ c p - - ⟨-, hc⟩
  have quiet : ∀ {β : Type} {p : Prog Act β} {m : Mode}, ghost t m = .live →
      p.Only (Quiet t) (answers t) →
      (p >>= fun _ => pure m).Safe procLogic t (fun c g => g = ghost t c) .live :=
    fun hm hp => Quiet.bind hp (by simp) fun _ => Safe.pure hm.symm
  cases hc with
  | start h => exact Safe.bind (forkret_safe.mono fun _ _ e => Safe.pure e)
  | user c =>
    cases c with
    | yield => exact quiet rfl yield_quiet
    | kill pid => exact quiet rfl killLoop_quiet
    | fault => exact quiet rfl setkilled_quiet
    | fork trapframe pagetable copy => exact Safe.bind (kfork_safe.mono fun _ _ e => Safe.pure e)
    | exit status => exact Safe.bind (kexit_safe.mono fun _ _ e => Safe.pure e)
    | wait addr copy fuel => exact Safe.bind (kwait_safe.mono fun _ _ e => Safe.pure e)
    | pipewrite pi src n fuel => exact quiet rfl pipewrite_quiet
    | piperead pi dst n fuel => exact quiet rfl piperead_quiet
    | pipeclose pi writable => exact quiet rfl pipeclose_quiet
    | lock n => exact quiet rfl (only_call.mpr trivial)
  | holding n c =>
    cases c with
    | sleep c => exact quiet rfl sleep_quiet
    | wakeup c => exact quiet rfl wakeup_quiet
    | release => exact quiet rfl (only_call.mpr trivial)

/-! ## The first state -/

theorem procOk_boot (data : Nat → Nat → UInt8) : ProcOk (boot data).st fun _ => .none := by
  have hp : ∀ q, (boot data).st.proc q =
      if q = initproc then { state := .runnable, pid := 1, fresh := true, id := 1 } else {} := fun _ => rfl
  have hl : ∀ q, (boot data).st.family.life q = if q = initproc then .live else .unused := by
    intro q
    show ((boot data).st.proc q).state.life = _
    rw [hp]
    split <;> rfl
  have hpar : ∀ q, (boot data).st.family.parent q = none := by
    intro q
    show ((boot data).st.proc q).parent = _
    rw [hp]
    split <;> rfl
  have hid : ∀ q, (boot data).st.family.id q = if q = initproc then 1 else 0 := by
    intro q
    show ((boot data).st.proc q).id = _
    rw [hp]
    split <;> rfl
  have hmk : ∀ q, (boot data).st.family.maker q = 0 := by
    intro q
    show ((boot data).st.proc q).maker = _
    rw [hp]
    split <;> rfl
  have hall : (boot data).st.family.allocs = 1 := rfl
  have hinit : initproc < NPROC := by decide
  constructor <;> grind

theorem procOk_init (data : Nat → Nat → UInt8) : Sys.Ok procLogic ghost (boot data) :=
  ⟨fun _ => .none, procOk_boot data, fun _ => rfl⟩

/-- The invariant holds in every reachable state. -/
theorem procOk_of_reach {data : Nat → Nat → UInt8} {c : Conf Act St Mode} (h : sys.Reach (boot data) c) :
    ∃ γ, ProcOk c.st γ := by
  obtain ⟨γ, hi, -⟩ := h.safe (L := procLogic) rfl procCalls (procOk_init data)
  exact ⟨γ, hi⟩

end

end Xv6.Kern
