import Xv6.Kern.Forest

/-!
# Exactly-once reaping

* **The events** (`HistOk`): a process exits at most once; an exited process is a zombie until one
  `kwait` frees it, and that `kwait` is its parent's and gets its pid and exit status.
* **`kwait`** (`kwait_ends`): the processes that a call frees are those whose pid it returns.
* **The forest** (`St.Forest`): parents are alive, and following them leads to `initproc`.
-/

namespace Xv6.Kern

open Conc Prog
open Function (update update_apply)

/-! ## `kwait` -/

/-- The process that a `kwait` frees: the caller and the pid that it returns. -/
def reapOf : Done Act → Option (Nat × BitVec 32)
  | ⟨.freeproc _ (some (p, pid, _)), _⟩ => some (p, pid)
  | _ => none

theorem Quiet.reapOf {t : Nat} {β : Type} {a : Act β} {b : β} (h : Quiet t a) : reapOf ⟨a, b⟩ = none := by
  cases a with
  | freeproc => exact h.elim
  | _ => rfl

/-- Quiet actions free no process. -/
theorem quiet_ends {t : Nat} {α : Type} {p : Prog Act α} (h : p.Only (Quiet t) (answers t)) :
    p.Ends (answers t) fun acts _ => acts.filterMap reapOf = [] :=
  h.ends.mono fun _ _ hl => List.filterMap_eq_nil_iff.mpr fun x hx => (hl x hx).reapOf

section

variable {t addr : Nat} {copy : Bool}

theorem waitScan_ends {l : List Nat} {havekids : Bool} :
    (Code.waitScan t addr copy l havekids).Ends (answers t) fun acts r =>
      acts.filterMap reapOf = match r with
        | .inl _ => []
        | .inr r => if addr ≠ 0 ∧ copy = false then [] else (r.map (t, ·)).toList := by
  induction l generalizing havekids with
  | nil => exact Ends.pure rfl
  | cons q l ih =>
    refine Ends.step fun parent _ => ?_
    split
    · refine Ends.step fun _ _ => Ends.step fun z _ => ?_
      rcases z with _ | ⟨pid, xstate⟩
      · exact Ends.step fun _ _ => ih
      · simp only []
        split
        · exact Ends.step fun _ _ => Ends.step fun _ _ => Ends.pure rfl
        · exact Ends.step fun _ _ => Ends.step fun _ _ => Ends.step fun _ _ => Ends.pure rfl
    · exact ih

theorem waitLoop_ends {fuel : Nat} : (Code.waitLoop t addr copy fuel).Ends (answers t) fun acts r =>
    acts.filterMap reapOf = if addr ≠ 0 ∧ copy = false then [] else (r.map (t, ·)).toList := by
  induction fuel with
  | zero => exact Ends.step fun _ _ => Ends.pure (by simp [reapOf])
  | succ fuel ih =>
    refine Ends.bind (waitScan_ends.mono ?_)
    rintro acts (havekids | r) h
    · have hq : (Code.waitStop t havekids).Only (Quiet t) (answers t) := by
        cases havekids
        · trivial
        · exact killed_quiet
      refine Ends.bind ((quiet_ends hq).mono fun acts' stop h' => ?_)
      cases stop
      · refine Ends.bind ((quiet_ends sleep_quiet).mono fun acts'' _ h'' => ?_)
        exact ih.mono fun l r hl => by simp [h, h', h'', hl]
      · exact Ends.step fun _ _ => Ends.pure (by simp [h, h', reapOf])
    · exact Ends.pure (by simpa using h)

/-- **The processes that a call of `kwait` frees**: the one whose pid it returns, and none if the
`copyout` fails. -/
theorem kwait_ends {fuel : Nat} : (Code.kwait addr copy fuel).Ends (answers t) fun acts r =>
    acts.filterMap reapOf = if addr ≠ 0 ∧ copy = false then [] else (r.map (t, ·)).toList := by
  refine Ends.step ?_
  rintro p rfl
  exact Ends.step fun _ _ => waitLoop_ends

end

/-! ## The events -/

/-- The process with this number exits. -/
def Ev.isExit (id : Nat) : Ev → Bool
  | .exited i _ _ => i == id
  | _ => false

/-- A `kwait` frees the process with this number. -/
def Ev.isReap (id : Nat) : Ev → Bool
  | .reaped _ _ c _ _ => c.id == id
  | _ => false

/-- How often the process with this number exits. -/
def exits (id : Nat) (h : List Ev) : Nat := h.countP (Ev.isExit id)

/-- How often the process with this number is freed by a `kwait`. -/
def reaps (id : Nat) (h : List Ev) : Nat := h.countP (Ev.isReap id)

/-- A `kwait` frees a zombie child of its own, returns its pid and copies its exit status. -/
def Ev.Own : Ev → Prop
  | .reaped t _ c pid x => c.state = .zombie ∧ c.parent = some t ∧ pid = c.pid ∧ ∀ y, x = some y → y = c.xstate
  | _ => True

/-- The events fit the family. -/
structure HistOk (F : Family) (h : List Ev) : Prop where
  zombie : ∀ q, F.life q = .zombie → Ev.exited (F.id q) (F.pid q) (F.xstate q) ∈ h
  alive : ∀ q, F.life q = .used ∨ F.life q = .live → exits (F.id q) h = 0
  unreaped : ∀ q, F.life q ≠ .unused → reaps (F.id q) h = 0
  gone : ∀ id pid x, Ev.exited id pid x ∈ h → reaps id h = 0 →
    ∃ q, F.life q = .zombie ∧ F.id q = id ∧ F.pid q = pid ∧ F.xstate q = x
  reapOnce : ∀ id, reaps id h ≤ 1
  exitOnce : ∀ id, exits id h ≤ 1
  new : ∀ id, F.allocs < id → exits id h = 0 ∧ reaps id h = 0
  own : ∀ e ∈ h, e.Own
  reaped : ∀ t q c pid x, Ev.reaped t q c pid x ∈ h → Ev.exited c.id c.pid c.xstate ∈ h

/-- Neither an exit nor a `kwait`. -/
def Ev.other : Ev → Prop
  | .exited _ _ _ | .reaped _ _ _ _ _ => False
  | _ => True

@[simp] theorem exits_cons (id : Nat) (e : Ev) (h : List Ev) :
    exits id (e :: h) = exits id h + if e.isExit id then 1 else 0 := List.countP_cons

@[simp] theorem reaps_cons (id : Nat) (e : Ev) (h : List Ev) :
    reaps id (e :: h) = reaps id h + if e.isReap id then 1 else 0 := List.countP_cons

namespace HistOk

variable {F : Family} {γ : Tid → Gh} {h : List Ev} {t q : Nat}

theorem log {e : Ev} (hh : HistOk F h) (he : e.other) : HistOk F (e :: h) := by
  have h1 : ∀ id, e.isExit id = false := by cases e <;> first | exact fun _ => rfl | exact he.elim
  have h2 : ∀ id, e.isReap id = false := by cases e <;> first | exact fun _ => rfl | exact he.elim
  have h3 : ∀ id pid x, Ev.exited id pid x ≠ e := by rintro _ _ _ rfl; exact he
  have h4 : ∀ t q c pid x, Ev.reaped t q c pid x ≠ e := by rintro _ _ _ _ _ rfl; exact he
  have h5 : e.Own := by cases e <;> trivial
  constructor <;> simp only [exits_cons, reaps_cons, h1, h2, List.mem_cons, h3, h4, false_or,
    Bool.false_eq_true, if_false, Nat.add_zero]
  case own =>
    rintro _ (rfl | he)
    · exact h5
    · exact hh.own _ he
  all_goals cases hh; assumption

/-- A change of the family that makes no zombie and frees none; a process that is not as before has
a new number. -/
theorem keep {F' : Family} (hh : HistOk F h) (hz : ∀ q, F'.life q = .zombie ↔ F.life q = .zombie)
    (hi : ∀ q, F'.life q ≠ .unused → F.life q ≠ .unused ∧ F'.id q = F.id q ∨ F.allocs < F'.id q)
    (hs : ∀ q, F.life q = .zombie → F'.id q = F.id q ∧ F'.pid q = F.pid q ∧ F'.xstate q = F.xstate q)
    (ha : F.allocs ≤ F'.allocs) : HistOk F' h := by
  refine { hh with zombie := ?_, alive := ?_, unreaped := ?_, gone := ?_, new := ?_ }
  · intro q hq
    obtain ⟨h1, h2, h3⟩ := hs q ((hz q).mp hq)
    rw [h1, h2, h3]
    exact hh.zombie q ((hz q).mp hq)
  · intro q hq
    rcases hi q (by rintro h; simp [h] at hq) with ⟨hu, he⟩ | hn
    · have := hz q
      refine he ▸ hh.alive q ?_
      cases hl : F.life q <;> grind
    · exact (hh.new _ hn).1
  · intro q hq
    rcases hi q hq with ⟨hu, he⟩ | hn
    · exact he ▸ hh.unreaped q hu
    · exact (hh.new _ hn).2
  · intro id pid x he hr
    obtain ⟨q, hq, rfl, rfl, rfl⟩ := hh.gone id pid x he hr
    exact ⟨q, (hz q).mpr hq, hs q hq⟩
  · exact fun id hid => hh.new id (by omega)

/-- A process exits. -/
theorem exit (status : Int) (hf : FamOk F γ) (hh : HistOk F h) (ht : F.life t = .live) : HistOk { F with
      life := update F.life t .zombie, xstate := update F.xstate t status }
    (.exited (F.id t) (F.pid t) status :: h) := by
  have hid := hf.idPos t (by simp [ht])
  have hinj : ∀ q, F.id q = F.id t → q = t := fun q e => hf.idInj q t e (e ▸ hid)
  have hex := hh.alive t (.inr ht)
  have hre := hh.unreaped t (by simp [ht])
  have hle := hf.idLe t
  constructor <;> simp only [exits_cons, reaps_cons, Ev.isExit, Ev.isReap, List.mem_cons, update_apply]
  case gone =>
    rintro id pid x (he | he) hr
    · injection he with h1 h2 h3
      exact ⟨t, by simp [h1, h2, h3]⟩
    · obtain ⟨q, hq, rfl, rfl, rfl⟩ := hh.gone id pid x he (by simpa using hr)
      have hqt : q ≠ t := by rintro rfl; rw [ht] at hq; cases hq
      exact ⟨q, by simp [hqt, hq]⟩
  case own =>
    rintro _ (rfl | he)
    · trivial
    · exact hh.own _ he
  all_goals cases hh; grind

/-- A `kwait` frees the zombie `q`. -/
theorem reap {c : Proc} (pid : BitVec 32) {x : Option Int} (hf : FamOk F γ) (hh : HistOk F h)
    (hq : F.life q = .zombie) (hid : c.id = F.id q) (hpid : c.pid = F.pid q) (hx : c.xstate = F.xstate q)
    (hown : (Ev.reaped t q c pid x).Own) : HistOk { F with
      life := update F.life q .unused, parent := update F.parent q none
      pid := update F.pid q 0, xstate := update F.xstate q 0 }
    (.reaped t q c pid x :: h) := by
  have hne := hf.idPos q (by simp [hq])
  have hinj : ∀ r, F.id r = F.id q → r = q := fun r e => hf.idInj r q e (e ▸ hne)
  have hre := hh.unreaped q (by simp [hq])
  have hle := hf.idLe q
  constructor <;> simp only [exits_cons, reaps_cons, Ev.isExit, Ev.isReap, List.mem_cons, update_apply,
    hid]
  case gone =>
    rintro id pid x (he | he) hr
    · cases he
    · obtain ⟨r, hr', rfl, rfl, rfl⟩ := hh.gone id pid x he (by omega)
      have hrq : r ≠ q := by rintro rfl; simp at hr
      exact ⟨r, by simp [hrq, hr']⟩
  case own =>
    rintro _ (rfl | he)
    · exact hown
    · exact hh.own _ he
  all_goals cases hh; grind

end HistOk

/-! ## Every run -/

section

variable {t q : Nat} {s : St} {γ : Tid → Gh}

theorem wake_hist {chan : Chan} : ((Act.wake q chan).effect t s).hist = s.hist := by
  show (if (s.proc q).chan = some chan then s.setProc q Proc.wake else s).hist = _
  split <;> rfl

theorem kill_hist {pid : BitVec 32} (hh : HistOk s.family s.hist) :
    HistOk s.family ((Act.kill q pid).effect t s).hist := by
  show HistOk _ (if (s.proc q).pid = pid then _ else s).hist
  split
  · exact hh.log trivial
  · exact hh

theorem histOk_alloc (hu : (s.proc q).state = .unused) (hh : HistOk s.family s.hist) :
    HistOk ((Act.alloc q t).effect t s).family ((Act.alloc q t).effect t s).hist := by
  have he : (Act.alloc q t).effect t s = _ := if_pos hu
  have hl : s.family.life q = .unused := St.life_unused.mpr hu
  rw [he, family_setProc (q := q) rfl]
  refine (hh.log (e := .alloc q (s.allocs + 1) (s.proc q).killed) trivial).keep ?_ ?_ ?_ (Nat.le_succ _)
  all_goals
    intro r
    simp only [update_apply]
    by_cases hr : r = q
  · simp [hr, hl, PState.life]
  · simp [hr]
  · simp [hr, St.family]
  · simp +contextual [hr]
  · simp [hr, hl]
  · simp [hr]

/-- A `USED` slot is freed. -/
theorem histOk_drop (hu : s.life q = .used) (hh : HistOk s.family s.hist) :
    HistOk (s.setProc q Proc.free).family s.hist := by
  have hl : s.family.life q = .used := hu
  rw [family_setProc (q := q) rfl]
  refine hh.keep ?_ ?_ ?_ (Nat.le_refl _)
  all_goals
    intro r
    simp only [update_apply]
    by_cases hr : r = q
  · simp [hr, hl, PState.life, Proc.free]
  · simp [hr]
  · simp [hr, PState.life, Proc.free]
  · simp +contextual [hr]
  · simp [hr, hl]
  · simp [hr]

/-- A parent is set, or a slot with a process stays one. -/
theorem histOk_setProc {p : Proc} {s' : St} (hp : s'.proc = update s.proc q p) (ha : s'.allocs = s.allocs)
    (hz : p.state.life = .zombie ↔ s.life q = .zombie) (hu : p.state.life ≠ .unused → s.life q ≠ .unused)
    (h1 : p.id = (s.proc q).id) (h2 : p.pid = (s.proc q).pid) (h3 : p.xstate = (s.proc q).xstate)
    (hh : HistOk s.family s.hist) : HistOk s'.family s.hist := by
  rw [family_setProc hp, h1, h2, h3, ha]
  simp only [update_id, update_pid, update_xstate]
  refine hh.keep ?_ ?_ (fun _ _ => ⟨rfl, rfl, rfl⟩) (Nat.le_refl _)
  all_goals
    intro r
    simp only [update_apply]
    by_cases hr : r = q
  · simp only [hr, if_true]
    exact hz
  · simp [hr]
  · simp only [hr, if_true]
    exact fun h => .inl ⟨hu h, trivial⟩
  · simp +contextual [hr]

/-- Every action keeps the events' invariant. -/
theorem histOk_step {β : Type} {a : Act β} (hi : ProcOk s γ) (hp : procPre t a s) (hh : HistOk s.family s.hist)
    (hc : a.check t s = some (.ok ())) : HistOk (a.effect t s).family (a.effect t s).hist := by
  cases a with
  | setZombie p status =>
    obtain ⟨rfl, hl, -, -⟩ := hp
    have := hh.exit status hi hl
    rw [family_setProc (q := p) (p := { s.proc p with xstate := status, state := .zombie }) rfl]
    simp only [update_parent, update_id, update_maker, update_pid]
    exact this
  | alloc q p =>
    obtain ⟨rfl, -⟩ := hp
    by_cases hu : (s.proc q).state = .unused
    · exact histOk_alloc hu hh
    · have he : (Act.alloc q p).effect p s = s := if_neg hu
      rwa [he]
  | freeproc q ret =>
    rcases ret with _ | ⟨p, pid, x⟩
    · exact histOk_drop hp hh
    · obtain ⟨rfl, -, hz, hpar, hpid, hx⟩ := hp
      have := hh.reap (t := p) (c := s.proc q) (x := x) pid hi hz rfl rfl rfl
        ⟨St.life_zombie.mp hz, hpar, hpid.symm, hx⟩
      rw [family_setProc (q := q) (p := (s.proc q).free) rfl]
      simp only [Proc.free, update_id, update_maker]
      exact this
  | setParent q p => exact histOk_setProc (s := s) (q := q) rfl rfl Iff.rfl id rfl rfl rfl hh
  | reparent q p =>
    by_cases hq : (s.proc q).parent = some p
    · have he : (Act.reparent q p).effect t s = _ := if_pos hq
      rw [he]
      exact histOk_setProc (s := s) (q := q) rfl rfl Iff.rfl id rfl rfl rfl hh
    · have he : (Act.reparent q p).effect t s = s := if_neg hq
      rwa [he]
  | setRunnable p =>
    have hl : s.life p = .live ∨ s.life p = .used := by
      rcases hp with ⟨hl, rfl | ⟨hl', -⟩⟩
      · exact .inl hl
      · exact .inr hl'
    refine histOk_setProc (s := s) (q := p) rfl rfl ?_ ?_ rfl rfl rfl hh
    · rcases hl with hl | hl <;> simp [hl, PState.life]
    · rcases hl with hl | hl <;> simp [hl]
  | setSleeping p chan =>
    obtain ⟨rfl, hl⟩ := hp
    refine histOk_setProc (s := s) (q := p) rfl rfl ?_ ?_ rfl rfl rfl hh <;> simp [hl, PState.life]
  | schedIn p =>
    have hl : s.life p = .live := by
      have hr : (s.proc p).state = .runnable := by
        by_contra h
        simp [Act.check, h] at hc
      simp [St.life, hr, PState.life]
    refine histOk_setProc (s := s) (q := p) rfl rfl ?_ ?_ rfl rfl rfl hh <;> simp [hl, PState.life]
  | wake q chan => rwa [wake_family, wake_hist]
  | kill q pid => rw [kill_family]; exact kill_hist hh
  | setKilled p =>
    have h : HistOk ((Act.setKilled p).effect t s).family s.hist :=
      histOk_setProc (q := p) (p := { s.proc p with killed := true }) rfl rfl Iff.rfl id rfl rfl rfl hh
    exact h.log (e := .fault p) trivial
  | clearChan p | setContext p => exact histOk_setProc (s := s) (q := p) rfl rfl Iff.rfl id rfl rfl rfl hh
  | readEnd | woke | slept => exact hh.log trivial
  | _ => exact hh

theorem histOk_of_reach {data : Nat → Nat → UInt8} {c : Conf Act St Mode} (h : sys.Reach (boot data) c) :
    HistOk c.st.family c.st.hist := by
  refine Sys.Reach.induct (I := fun s => HistOk s.family s.hist) (L := procLogic) rfl procCalls
    (procOk_init data) (fun _ _ _ _ _ h => h) (fun _ _ _ _ h => h) ?_ ?_ h
  · have hl : ∀ q, (boot data).st.family.life q ≠ .zombie := by
      intro q
      show ((boot data).st.proc q).state.life ≠ _
      unfold boot
      simp only []
      split <;> simp [PState.life]
    have hn : ∀ id, exits id (boot data).st.hist = 0 ∧ reaps id (boot data).st.hist = 0 := fun _ => ⟨rfl, rfl⟩
    have hm : ∀ e ∈ (boot data).st.hist, e.other := by simp [boot, Ev.other]
    constructor
    · exact fun q hq => (hl q hq).elim
    · exact fun _ _ => (hn _).1
    · exact fun _ _ => (hn _).2
    · exact fun id pid x he => (hm _ he).elim
    · exact fun id => by simp [hn]
    · exact fun id => by simp [hn]
    · exact fun id _ => hn id
    · exact fun e he => by have := hm e he; cases e <;> trivial
    · exact fun _ _ _ _ _ he => (hm _ he).elim
  · intro β t a s γ b s' hi hp hh he
    obtain ⟨hc, -, rfl⟩ := exec_ok he
    exact histOk_step hi hp hh hc

end

/-! ## The forest -/

/-- `p` is the parent of `q`. -/
def St.IsParent (s : St) (p q : Nat) : Prop := (s.proc q).parent = some p

/-- The process forest. -/
structure St.Forest (s : St) : Prop where
  /-- The parent of a process is alive; it is `initproc` or the process whose `kfork` made it. -/
  parent : ∀ q, q ≠ initproc → s.life q = .live ∨ s.life q = .zombie → ∃ p, s.IsParent p q ∧
    s.life p = .live ∧ (p = initproc ∨ (s.proc p).id = (s.proc q).maker)
  acyclic : ∀ q, ¬ Relation.TransGen s.IsParent q q
  root : ∀ q, s.life q = .live ∨ s.life q = .zombie → Relation.ReflTransGen s.IsParent initproc q

/-- `initproc` first, then the processes in the order of their `allocproc`. -/
def Family.rank (F : Family) (q : Nat) : Nat := if q = initproc then 0 else F.id q

theorem FamOk.rank_lt {F : Family} {γ : Tid → Gh} (h : FamOk F γ) {p q : Nat} (hp : F.parent q = some p) :
    F.rank p < F.rank q := by
  have hq : q ≠ initproc := by rintro rfl; simp [h.root] at hp
  have hu : F.life q ≠ .unused := fun hu => by simp [h.unused q hu] at hp
  have hid := h.idPos q hu
  have hmk : p = initproc ∨ F.id p = F.maker q := by
    cases hl : F.life q with
    | unused => exact (hu hl).elim
    | used =>
      obtain ⟨t, l, ht⟩ := h.used q hl
      obtain ⟨-, hpar, hm⟩ := h.forking t q l ht
      cases l
      · simp [hp] at hpar
      · obtain rfl : p = t := by simpa [hp] using hpar
        exact .inr hm.symm
    | live | zombie =>
      obtain ⟨p', hp', -, hm⟩ := h.tree q hq (by simp [hl])
      obtain rfl : p = p' := by simpa [hp] using hp'
      exact hm
  unfold Family.rank
  rw [if_neg hq]
  rcases hmk with rfl | hm
  · rw [if_pos rfl]
    omega
  · have := h.older q hid
    split <;> omega

theorem ProcOk.forest {s : St} {γ : Tid → Gh} (h : ProcOk s γ) : s.Forest where
  parent := FamOk.tree h
  acyclic q hq := by
    have key : ∀ {p q}, Relation.TransGen s.IsParent p q → s.family.rank p < s.family.rank q := by
      intro p q hpq
      induction hpq with
      | single hs => exact FamOk.rank_lt h hs
      | tail _ hs ih => exact ih.trans (FamOk.rank_lt h hs)
    exact lt_irrefl _ (key hq)
  root q := by
    -- by induction on the rank: the parent is alive and has a smaller one
    induction hr : s.family.rank q using Nat.strong_induction_on generalizing q with
    | _ r ih =>
      intro hl
      by_cases hq : q = initproc
      · rw [hq]
      · obtain ⟨p, hp, hlp, -⟩ := FamOk.tree h q hq hl
        exact (ih _ (hr ▸ FamOk.rank_lt h hp) p rfl (.inl hlp)).tail hp

/-- Exits and reaping in a run. -/
structure St.Reaping (s : St) : Prop where
  exitOnce : ∀ id, exits id s.hist ≤ 1
  /-- An exited process is a zombie that no `kwait` has returned, or one `kwait` has returned it. -/
  once : ∀ id pid x, Ev.exited id pid x ∈ s.hist →
    (∃ q, (s.proc q).state = .zombie ∧ (s.proc q).id = id ∧ (s.proc q).pid = pid ∧ (s.proc q).xstate = x) ∧
        reaps id s.hist = 0 ∨
      (∀ q, (s.proc q).state = .zombie → (s.proc q).id ≠ id) ∧ reaps id s.hist = 1
  /-- A `kwait` returns an exited child of the caller, with its pid and exit status. -/
  own : ∀ t q c pid x, Ev.reaped t q c pid x ∈ s.hist → c.state = .zombie ∧ c.parent = some t ∧
    pid = c.pid ∧ (∀ y, x = some y → y = c.xstate) ∧ Ev.exited c.id c.pid c.xstate ∈ s.hist

theorem HistOk.reaping {s : St} (h : HistOk s.family s.hist) : s.Reaping where
  exitOnce := h.exitOnce
  once id pid x he := by
    by_cases hr : reaps id s.hist = 0
    · obtain ⟨q, hq, hs⟩ := h.gone id pid x he hr
      exact .inl ⟨⟨q, St.life_zombie.mp hq, hs⟩, hr⟩
    · refine .inr ⟨fun q hq hid => ?_, by have := h.reapOnce id; omega⟩
      have hz : s.family.life q = .zombie := St.life_zombie.mpr hq
      exact hr (hid ▸ h.unreaped q (by simp [hz]))
  own t q c pid x he := by
    obtain ⟨h1, h2, h3, h4⟩ := h.own _ he
    exact ⟨h1, h2, h3, h4, h.reaped t q c pid x he⟩

/-- **The process forest and exactly-once reaping**, in every state of every run; and what a call
of `kwait` reaps. -/
theorem forest_and_reaping {data : Nat → Nat → UInt8} {c : Conf Act St Mode}
    (h : sys.Reach (boot data) c) : c.st.Forest ∧ c.st.Reaping ∧
      ∀ t addr copy fuel, (Code.kwait addr copy fuel).Ends (answers t) fun acts r =>
        acts.filterMap reapOf = if addr ≠ 0 ∧ copy = false then [] else (r.map (t, ·)).toList := by
  obtain ⟨γ, hi⟩ := procOk_of_reach h
  exact ⟨hi.forest, (histOk_of_reach h).reaping, fun _ _ _ _ => kwait_ends⟩

/-- `initproc` forks, the child exits with the status 7, `initproc` waits. -/
def forkExitWait : List (Move Cmd) :=
  [.call 0 .start, .go 0 10, .call 0 (.user (.fork true true true)), .go 0 1000, .call 1 .start, .go 1 10,
    .call 1 (.user (.exit 7)), .go 1 1000, .call 0 (.user (.wait 1 true 3)), .go 0 1000]

/-- The last `kwait` was that of process 0; it freed slot 1, whose pid is 2 and status is 7. -/
def isWaited (c : Conf Act St Mode) : Bool :=
  match c.st.hist with
  | .reaped t q _ pid x :: _ => t == 0 && q == 1 && pid == 2 && x == some 7
  | _ => false

theorem forest_and_reaping_forkExitWait : ∃ c, sys.Reach (boot fun _ _ => 0) c ∧ isWaited c = true ∧
    c.st.Forest ∧ c.st.Reaping := by
  obtain ⟨c, hr, ht⟩ := Sys.exists_of_play (Y := sys) (c := boot fun _ _ => 0) (l := forkExitWait)
    (f := isWaited) menu_calls (by decide +kernel)
  exact ⟨c, hr, ht, (forest_and_reaping hr).1, (forest_and_reaping hr).2.1⟩

end Xv6.Kern
