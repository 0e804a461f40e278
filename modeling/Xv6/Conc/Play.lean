import Xv6.Conc.Prog

/-!
# Runs that can be computed

A system whose calls have names (`Menu`) can be played: a list of moves says which thread starts
which call, and how many actions a thread then takes. `play` computes the state after the moves, and
`Reach.play` says that the system reaches it.
-/

namespace Conc

universe u

/-- A move: a thread starts a call, or takes `n` actions; the last of them may be its return. -/
inductive Move (K : Type) where
  | call (t : Tid) (k : K)
  | go (t : Tid) (n : Nat)

/-- The calls that an idle thread may start, by name. -/
abbrev Menu (A : Type → Type u) (S C K : Type) := Tid → S → C → K → Option (Prog A C)

variable {A : Type → Type u} {S P C K α : Type}

/-- At most `n` actions of the program; `none` if one of them blocks or panics. -/
def Prog.go (exec : Exec A S P) (t : Tid) : Nat → Prog A α → S → Option (Prog A α × S)
  | 0, p, s => some (p, s)
  | _ + 1, .ret a, s => some (.ret a, s)
  | n + 1, .act a k, s =>
    match exec t a s with
    | some (.ok (b, s')) => go exec t n (k b) s'
    | _ => none

/-- A thread that has returned is idle. -/
def Thr.of : Prog A C → Thr A C
  | .ret c => .idle c
  | p => .busy p

/-- The state after a move. -/
def Move.run (exec : Exec A S P) (menu : Menu A S C K) (c : Conf A S C) : Move K → Option (Conf A S C)
  | .call t k =>
    match c.thr t with
    | .idle d => (menu t c.st d k).map fun p => ⟨c.st, Function.update c.thr t (.busy p)⟩
    | .busy _ => none
  | .go t n =>
    match c.thr t with
    | .idle _ => none
    | .busy p => (p.go exec t n c.st).map fun r => ⟨r.2, Function.update c.thr t (Thr.of r.1)⟩

/-- The state after the moves. -/
def play (exec : Exec A S P) (menu : Menu A S C K) (c : Conf A S C) : List (Move K) → Option (Conf A S C)
  | [] => some c
  | m :: l => (m.run exec menu c).bind fun c' => play exec menu c' l

theorem Prog.go_steps {exec : Exec A S P} {t : Tid} {n : Nat} {p p' : Prog A α} {s s' : S}
    (h : p.go exec t n s = some (p', s')) : Prog.Steps exec t p s p' s' := by
  induction n generalizing p s with
  | zero =>
    injection h with h
    injection h with h₁ h₂
    subst h₁ h₂
    exact .refl _ _
  | succ n ih =>
    cases p with
    | ret a =>
      injection h with h
      injection h with h₁ h₂
      subst h₁ h₂
      exact .refl _ _
    | act a k =>
      unfold Prog.go at h
      split at h
      · rename_i he
        exact .act he (ih h)
      · cases h

namespace Sys

variable {Y : Sys A S P C} {menu : Menu A S C K} {c₀ c c' : Conf A S C}

theorem Reach.move {m : Move K} (hm : ∀ t s d k p, menu t s d k = some p → Y.call t s d p)
    (h : Y.Reach c₀ c) (he : m.run Y.exec menu c = some c') : Y.Reach c₀ c' := by
  obtain ⟨s, θ⟩ := c
  cases m with
  | call t k =>
    dsimp only [Move.run] at he
    split at he
    · rename_i d hd
      obtain ⟨p, hp, rfl⟩ := Option.map_eq_some_iff.mp he
      exact h.step (.call t hd (hm _ _ _ _ _ hp))
    · cases he
  | go t n =>
    dsimp only [Move.run] at he
    split at he
    · cases he
    · rename_i p hp
      obtain ⟨⟨p', s'⟩, hg, rfl⟩ := Option.map_eq_some_iff.mp he
      have hr : Y.Reach c₀ ⟨s', Function.update θ t (.busy p')⟩ := by
        refine Reach.steps (Prog.go_steps hg) ?_
        rwa [← show θ t = .busy p from hp, Function.update_eq_self]
      cases p' with
      | ret d =>
        have := hr.step (.ret (c := d) t (by simp))
        rwa [Function.update_idem] at this
      | act a k => exact hr

/-- **The state after the moves is reachable.** -/
theorem Reach.play {l : List (Move K)} (hm : ∀ t s d k p, menu t s d k = some p → Y.call t s d p)
    (h : Y.Reach c₀ c) (he : play Y.exec menu c l = some c') : Y.Reach c₀ c' := by
  induction l generalizing c with
  | nil => cases he; exact h
  | cons m l ih =>
    obtain ⟨c₁, h₁, h₂⟩ := Option.bind_eq_some_iff.mp he
    exact ih (h.move hm h₁) h₂

/-- A computed run ends in a reachable state with a property. -/
theorem exists_of_play {l : List (Move K)} {f : Conf A S C → Bool}
    (hm : ∀ t s d k p, menu t s d k = some p → Y.call t s d p)
    (h : (Conc.play Y.exec menu c l).any f = true) : ∃ x, Y.Reach c x ∧ f x = true := by
  obtain ⟨x, hx, hf⟩ := (Option.any_eq_true _ _).mp h
  exact ⟨x, Reach.init.play hm hx, hf⟩

end Sys

end Conc
