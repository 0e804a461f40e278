import Mathlib.Logic.Function.Basic

/-!
# Programs of atomic actions, and threads that interleave them

`Prog A α` is a program that runs atomic actions of the type `A` and returns an `α`. The meaning
of the actions (`Exec`) is a partial function on a state: an action can block (`none`), stop the
machine with a panic, or answer and change the state.

* **One thread** (`Prog.run`, `Prog.Steps`): the program's actions one after the other, all of them
  or some of the first.
* **Many threads** (`Sys`, `Sys.Reach`): each thread is idle with some client data, or in a
  program. An idle thread starts any program that the system lets it call; a step of the system is
  one call, one action or one return of one thread, so every interleaving is a run.
* **The logic** (`Logic`, `Prog.Safe`): an invariant of the state and a ghost value for each
  thread. A program is safe if each of its actions meets its precondition and keeps the invariant
  after an update of its own thread's ghost value; what the invariant says of another thread's
  ghost value is then out of this thread's reach. `Sys.Reach.safe` is the induction over runs,
  done once.
-/

namespace Conc

open Function (update update_eq_self update_idem update_of_ne)

universe u

/-- A thread id. -/
abbrev Tid := Nat

/-- A program of atomic actions: `A β` is an action that answers a `β`. -/
inductive Prog (A : Type → Type u) (α : Type) : Type (max 1 u) where
  | ret (a : α) : Prog A α
  | act {β : Type} (a : A β) (k : β → Prog A α) : Prog A α

/-- The meaning of the actions: `none` blocks, an error stops the machine. -/
abbrev Exec (A : Type → Type u) (S P : Type) :=
  ∀ ⦃β : Type⦄, Tid → A β → S → Option (Except P (β × S))

namespace Prog

variable {A : Type → Type u} {α β γ : Type}

/-- First `p`, then `f` with its result. -/
def bind : Prog A α → (α → Prog A β) → Prog A β
  | ret a, f => f a
  | act a k, f => act a fun b => (k b).bind f

instance : Monad (Prog A) where
  pure := ret
  bind := bind

/-- The program that is one action. -/
def call (a : A β) : Prog A β := act a ret

@[simp] theorem ret_bind (a : α) (f : α → Prog A β) : (ret a : Prog A α) >>= f = f a := rfl

@[simp] theorem act_bind {δ : Type} (a : A δ) (k : δ → Prog A α) (f : α → Prog A β) :
    act a k >>= f = act a fun b => k b >>= f := rfl

@[simp] theorem call_bind (a : A α) (f : α → Prog A β) : call a >>= f = act a f := rfl

/-- A loop over the members of a list. -/
def each {δ : Type} (l : List δ) (f : δ → Prog A Unit) : Prog A Unit :=
  match l with
  | [] => ret ()
  | a :: l => f a >>= fun _ => each l f

/-! ## One thread -/

variable {S P : Type}

/-- First an outcome, then `f` with its answer and state; a block or a panic ends it. -/
def andThen (o : Option (Except P (α × S))) (f : α → S → Option (Except P (β × S))) :
    Option (Except P (β × S)) :=
  match o with
  | none => none
  | some (.error p) => some (.error p)
  | some (.ok (a, s)) => f a s

/-- The actions of the program one after the other, in thread `t`. -/
def run (exec : Exec A S P) (t : Tid) : Prog A α → S → Option (Except P (α × S))
  | ret a, s => some (.ok (a, s))
  | act a k, s => andThen (exec t a s) fun b s' => (k b).run exec t s'

theorem run_act (exec : Exec A S P) (t : Tid) (a : A β) (k : β → Prog A α) (s : S) :
    (act a k).run exec t s = andThen (exec t a s) fun b s' => (k b).run exec t s' := rfl

theorem andThen_assoc (o : Option (Except P (α × S))) (f : α → S → Option (Except P (β × S)))
    (g : β → S → Option (Except P (γ × S))) : andThen (andThen o f) g = andThen o fun a s => andThen (f a s) g := by
  cases o with
  | none => rfl
  | some o => cases o <;> rfl

theorem run_bind (exec : Exec A S P) (t : Tid) (p : Prog A α) (f : α → Prog A β) (s : S) :
    (p >>= f).run exec t s = andThen (p.run exec t s) fun a s' => (f a).run exec t s' := by
  induction p generalizing s with
  | ret a => rfl
  | act a k ih => simp only [act_bind, run_act, ih, andThen_assoc]

/-- An outcome of two parts comes from an outcome of each. -/
theorem andThen_ok {o : Option (Except P (α × S))} {f : α → S → Option (Except P (β × S))} {r : β × S}
    (h : andThen o f = some (.ok r)) : ∃ a s, o = some (.ok (a, s)) ∧ f a s = some (.ok r) := by
  match o, h with
  | some (.ok (a, s)), h => exact ⟨a, s, rfl, h⟩

/-- Some of the first actions of the program `p`, run by thread `t` alone from the state `s`: the
program `p'` is left, in the state `s'`. -/
inductive Steps (exec : Exec A S P) (t : Tid) : Prog A α → S → Prog A α → S → Prop where
  | refl (p : Prog A α) (s : S) : Steps exec t p s p s
  | act {δ : Type} {a : A δ} {k : δ → Prog A α} {b : δ} {s s₁ s' : S} {p' : Prog A α}
      (he : exec t a s = some (.ok (b, s₁))) (h : Steps exec t (k b) s₁ p' s') :
      Steps exec t (act a k) s p' s'

/-- A whole run is a run to the end. -/
theorem steps_of_run {exec : Exec A S P} {t : Tid} {p : Prog A α} {s s' : S} {a : α}
    (h : p.run exec t s = some (.ok (a, s'))) : Steps exec t p s (ret a) s' := by
  induction p generalizing s with
  | ret b =>
    cases h
    exact .refl _ _
  | act b k ih =>
    obtain ⟨x, s₁, he, hk⟩ := andThen_ok h
    exact .act he (ih x hk)

end Prog

/-! ## The logic -/

/-- The meaning of the actions, the invariant of a state with a ghost value for each thread, and
what must hold where a thread takes an action. -/
structure Logic (A : Type → Type u) (S P G : Type) where
  exec : Exec A S P
  inv : S → (Tid → G) → Prop
  pre : ∀ ⦃β : Type⦄, Tid → A β → S → Prop := fun _ _ _ _ => True

namespace Prog

variable {A : Type → Type u} {S P G α β : Type}

/-- Each action of the program, run by thread `t` with the ghost value `g`, meets its
precondition and keeps the invariant, whatever the other threads did before it; the result and
the last ghost value satisfy `Q`. -/
def Safe (L : Logic A S P G) (t : Tid) : Prog A α → (α → G → Prop) → G → Prop
  | ret a, Q, g => Q a g
  | act a k, Q, g => ∀ s γ, L.inv s γ → γ t = g → L.pre t a s ∧
      ∀ b s', L.exec t a s = some (.ok (b, s')) →
        ∃ g', L.inv s' (update γ t g') ∧ (k b).Safe L t Q g'

variable {L : Logic A S P G} {t : Tid} {p : Prog A α} {Q Q' : α → G → Prop} {g : G}

theorem Safe.mono (h : p.Safe L t Q g) (hq : ∀ a g, Q a g → Q' a g) : p.Safe L t Q' g := by
  induction p generalizing g with
  | ret a => exact hq a g h
  | act a k ih =>
    intro s γ hi hg
    refine ⟨(h s γ hi hg).1, fun b s' he => ?_⟩
    obtain ⟨g', hi', hs⟩ := (h s γ hi hg).2 b s' he
    exact ⟨g', hi', ih b hs⟩

theorem Safe.pure {a : α} (h : Q a g) : (pure a : Prog A α).Safe L t Q g := h

theorem Safe.bind {f : α → Prog A β} {R : β → G → Prop}
    (h : p.Safe L t (fun a g => (f a).Safe L t R g) g) : (p >>= f).Safe L t R g := by
  induction p generalizing g with
  | ret a => exact h
  | act a k ih =>
    intro s γ hi hg
    refine ⟨(h s γ hi hg).1, fun b s' he => ?_⟩
    obtain ⟨g', hi', hs⟩ := (h s γ hi hg).2 b s' he
    exact ⟨g', hi', ih b hs⟩

/-- The rule for a program that is one action. -/
theorem Safe.call {a : A α}
    (h : ∀ s γ, L.inv s γ → γ t = g → L.pre t a s ∧
      ∀ b s', L.exec t a s = some (.ok (b, s')) →
        ∃ g', L.inv s' (update γ t g') ∧ Q b g') :
    (Prog.call a).Safe L t Q g := h

/-- A thread that runs alone keeps the invariant, and its last ghost value satisfies `Q`. -/
theorem Safe.steps {γ : Tid → G} {s s' : S} {p' : Prog A α} (hs : Steps L.exec t p s p' s')
    (h : p.Safe L t Q (γ t)) (hi : L.inv s γ) : ∃ g', L.inv s' (update γ t g') ∧ p'.Safe L t Q g' := by
  induction hs generalizing γ with
  | refl p s => exact ⟨γ t, by rwa [update_eq_self], h⟩
  | act he _ ih =>
    obtain ⟨g', hi', hk⟩ := (h _ γ hi rfl).2 _ _ he
    obtain ⟨g'', hi'', hk'⟩ := ih (γ := update γ t g') (by simpa using hk) hi'
    exact ⟨g'', by rwa [update_idem] at hi'', hk'⟩

/-- The rule for a loop: `J k` holds of the ghost value before turn `k`. -/
theorem Safe.each {δ : Type} {l : List δ} {f : δ → Prog A Unit} {J : Nat → G → Prop}
    (h : ∀ k (hk : k < l.length) g, J k g → (f l[k]).Safe L t (fun _ g' => J (k + 1) g') g)
    (h₀ : J 0 g) : (Prog.each l f).Safe L t (fun _ g' => J l.length g') g := by
  induction l generalizing J g with
  | nil => exact h₀
  | cons a l ih =>
    refine Safe.bind (Safe.mono (h 0 (by simp) g h₀) fun _ g' hg' => ?_)
    refine ih (J := fun k => J (k + 1)) (fun k hk g hg => ?_) hg'
    exact h (k + 1) (by simpa using hk) g hg

/-- The rule for a loop with a counter. -/
theorem Safe.range {n : Nat} {f : Nat → Prog A Unit} {Q : Unit → G → Prop} (J : Nat → G → Prop) (h₀ : J 0 g)
    (h : ∀ k < n, ∀ g, J k g → (f k).Safe L t (fun _ g' => J (k + 1) g') g) (hQ : ∀ g, J n g → Q () g) :
    (Prog.each (List.range n) f).Safe L t Q g := by
  refine (Safe.each (fun k hk g hg => ?_) h₀).mono fun _ g' hg' => hQ g' (by rwa [List.length_range] at hg')
  rw [List.getElem_range]
  exact h k (by simpa using hk) g hg

end Prog

/-! ## Many threads -/

/-- A thread: idle with the data of its client, or in a program that returns new data. -/
inductive Thr (A : Type → Type u) (C : Type) : Type (max 1 u) where
  | idle (c : C)
  | busy (p : Prog A C)

/-- A system: the meaning of the actions, and the programs that an idle thread may start. -/
structure Sys (A : Type → Type u) (S P C : Type) where
  exec : Exec A S P
  call : Tid → S → C → Prog A C → Prop

/-- A state of a system. -/
structure Conf (A : Type → Type u) (S C : Type) where
  st : S
  thr : Tid → Thr A C

namespace Sys

variable {A : Type → Type u} {S P C G : Type} (Y : Sys A S P C)

/-- A step of one thread. -/
inductive Step : Conf A S C → Conf A S C → Prop where
  | call {s : S} {θ : Tid → Thr A C} (t : Tid) {c : C} {p : Prog A C} (ht : θ t = .idle c)
      (hc : Y.call t s c p) : Step ⟨s, θ⟩ ⟨s, update θ t (.busy p)⟩
  | act {s s' : S} {θ : Tid → Thr A C} (t : Tid) {β : Type} {a : A β} {k : β → Prog A C} {b : β}
      (ht : θ t = .busy (.act a k)) (he : Y.exec t a s = some (.ok (b, s'))) :
      Step ⟨s, θ⟩ ⟨s', update θ t (.busy (k b))⟩
  | ret {s : S} {θ : Tid → Thr A C} (t : Tid) {c : C} (ht : θ t = .busy (.ret c)) :
      Step ⟨s, θ⟩ ⟨s, update θ t (.idle c)⟩

/-- The states that a run from `c₀` reaches. -/
inductive Reach (c₀ : Conf A S C) : Conf A S C → Prop where
  | init : Reach c₀ c₀
  | step {c c' : Conf A S C} : Reach c₀ c → Y.Step c c' → Reach c₀ c'

variable {Y}

variable {c₀ c : Conf A S C} {t : Tid} {θ : Tid → Thr A C} {L : Logic A S P G} {ghost : Tid → C → G}

/-- A thread takes some of its actions with no other thread between them. -/
theorem Reach.steps {p p' : Prog A C} {s s' : S} (hs : Prog.Steps Y.exec t p s p' s')
    (h : Y.Reach c₀ ⟨s, update θ t (.busy p)⟩) : Y.Reach c₀ ⟨s', update θ t (.busy p')⟩ := by
  induction hs with
  | refl p s => exact h
  | @act δ a k b s s₁ s' p' he _ ih =>
    refine ih ?_
    have := h.step (.act (a := a) (k := k) t (by simp) he)
    rwa [update_idem] at this

/-- A thread makes a call with no other thread between its actions. -/
theorem Reach.run {p : Prog A C} {s s' : S} {c c' : C} (h : Y.Reach c₀ ⟨s, update θ t (.idle c)⟩)
    (hc : Y.call t s c p) (hr : p.run Y.exec t s = some (.ok (c', s'))) : Y.Reach c₀ ⟨s', update θ t (.idle c')⟩ := by
  have h1 := h.step (.call t (by simp) hc)
  rw [update_idem] at h1
  have h2 := (Reach.steps (Prog.steps_of_run hr) h1).step (.ret (c := c') t (by simp))
  rwa [update_idem] at h2

/-- Where a thread's ghost value stands: an idle thread's is the one of its client data, a busy
thread's program is safe from it. -/
def ThrOk (L : Logic A S P G) (ghost : Tid → C → G) (t : Tid) (θ : Thr A C) (g : G) : Prop :=
  match θ with
  | .idle c => g = ghost t c
  | .busy p => p.Safe L t (fun c g => g = ghost t c) g

/-- The invariant and every thread's ghost value, at a state of the system. -/
def Ok (L : Logic A S P G) (ghost : Tid → C → G) (c : Conf A S C) : Prop :=
  ∃ γ, L.inv c.st γ ∧ ∀ t, ThrOk L ghost t (c.thr t) (γ t)

/-- Every program that an idle thread may call is safe. -/
def Calls (Y : Sys A S P C) (L : Logic A S P G) (ghost : Tid → C → G) : Prop :=
  ∀ t s γ c p, L.inv s γ → γ t = ghost t c → Y.call t s c p →
    p.Safe L t (fun c g => g = ghost t c) (ghost t c)

theorem thrOk_update {γ : Tid → G} {τ : Thr A C} {g : G} (hτ : ThrOk L ghost t τ g)
    (h : ∀ u, ThrOk L ghost u (θ u) (γ u)) (u : Tid) : ThrOk L ghost u (update θ t τ u) (update γ t g u) := by
  by_cases hu : u = t
  · subst hu; simpa using hτ
  · simpa [update_of_ne hu] using h u

theorem Step.ok (hL : L.exec = Y.exec) (hc : Calls Y L ghost) {c' : Conf A S C} (h : Y.Step c c')
    (ho : Ok L ghost c) : Ok L ghost c' := by
  obtain ⟨γ, hi, hθ⟩ := ho
  cases h with
  | @call s θ t d p ht hcall =>
    have hg : γ t = ghost t d := by
      have := hθ t; simp only [ht] at this; exact this
    refine ⟨γ, hi, fun u => ?_⟩
    have := thrOk_update (t := t) (τ := .busy p) (g := γ t)
      (by rw [hg]; exact hc t s γ d p hi hg hcall) hθ u
    simpa using this
  | @act s s' θ t β a k b ht he =>
    have hs := hθ t
    simp only [ht] at hs
    obtain ⟨g', hi', hk⟩ := (hs s γ hi rfl).2 b s' (by rw [hL]; exact he)
    exact ⟨_, hi', thrOk_update hk hθ⟩
  | @ret s θ t d ht =>
    have hs := hθ t
    simp only [ht] at hs
    refine ⟨γ, hi, fun u => ?_⟩
    have := thrOk_update (t := t) (τ := .idle d) (g := γ t) hs hθ u
    simpa using this

/-- **Every reachable state satisfies the invariant**, if the first one does and every program
that a thread may call is safe. -/
theorem Reach.safe (hL : L.exec = Y.exec) (hc : Calls Y L ghost) (h : Y.Reach c₀ c) (h₀ : Ok L ghost c₀) :
    Ok L ghost c := by
  induction h with
  | init => exact h₀
  | step _ hs ih => exact hs.ok hL hc ih

/-- A thread that is about to take an action meets the action's precondition. -/
theorem Ok.pre (h : Ok L ghost c) {β : Type} {a : A β} {k : β → Prog A C} (ht : c.thr t = .busy (.act a k)) :
    L.pre t a c.st := by
  obtain ⟨γ, hi, hθ⟩ := h
  have hs := hθ t
  simp only [ht] at hs
  exact (hs c.st γ hi rfl).1

end Sys

end Conc
