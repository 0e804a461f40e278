import Xv6.Conc.Prog

/-!
# One thread that runs to the end

`Prog.Runs exec t p s Q`: thread `t` alone runs the program `p` from the state `s` to its end, no action
blocks or stops the machine, and the result and the last state satisfy `Q`. `Prog.Stops exec t p s e`: the
run stops with `e`. The rules follow the program; `Runs.each` is the rule for a loop.
-/

namespace Conc.Prog

universe u

variable {A : Type → Type u} {S P α β δ : Type} {exec : Exec A S P} {t : Tid} {s s' : S} {e : P}

/-- The program runs to its end, with `Q`. -/
def Runs (exec : Exec A S P) (t : Tid) (p : Prog A α) (s : S) (Q : α → S → Prop) : Prop :=
  ∃ a s', p.run exec t s = some (.ok (a, s')) ∧ Q a s'

/-- The program stops the machine with `e`. -/
def Stops (exec : Exec A S P) (t : Tid) (p : Prog A α) (s : S) (e : P) : Prop :=
  p.run exec t s = some (.error e)

variable {p : Prog A α} {f : α → Prog A β} {Q Q' : α → S → Prop} {R : β → S → Prop}

theorem Runs.mono (h : Runs exec t p s Q) (hq : ∀ a s', Q a s' → Q' a s') : Runs exec t p s Q' := by
  obtain ⟨a, s', hr, ha⟩ := h
  exact ⟨a, s', hr, hq a s' ha⟩

theorem Runs.pure {a : α} (h : Q a s) : Runs exec t (pure a) s Q := ⟨a, s, rfl, h⟩

theorem Runs.bind (h : Runs exec t p s fun a s' => Runs exec t (f a) s' R) : Runs exec t (p >>= f) s R := by
  obtain ⟨a, s₁, hr, b, s₂, hr', hb⟩ := h
  refine ⟨b, s₂, ?_, hb⟩
  rw [run_bind, hr]
  exact hr'

/-- The rule for a program that begins with an action. -/
theorem Runs.step {a : A α} {x : α} (he : exec t a s = some (.ok (x, s'))) (h : Runs exec t (f x) s' R) :
    Runs exec t (call a >>= f) s R := by
  obtain ⟨b, s₂, hr, hb⟩ := h
  refine ⟨b, s₂, ?_, hb⟩
  rw [call_bind, run_act, he]
  exact hr

/-- The rule for a program that is one action. -/
theorem Runs.call {a : A α} {x : α} (he : exec t a s = some (.ok (x, s'))) (h : Q x s') :
    Runs exec t (call a) s Q := by
  refine ⟨x, s', ?_, h⟩
  rw [Prog.call, run_act, he]
  rfl

/-- The rule for a loop: `J k` holds before turn `k`. -/
theorem Runs.each {l : List δ} {f : δ → Prog A Unit} {J : Nat → S → Prop}
    (h : ∀ k (hk : k < l.length) s, J k s → Runs exec t (f l[k]) s fun _ s' => J (k + 1) s') (h₀ : J 0 s) :
    Runs exec t (Prog.each l f) s fun _ s' => J l.length s' := by
  induction l generalizing J s with
  | nil => exact ⟨(), s, rfl, h₀⟩
  | cons a l ih =>
    apply Runs.bind
    apply (h 0 (by simp) s h₀).mono
    intro _ s₁ h₁
    apply ih (J := fun k => J (k + 1)) _ h₁
    intro k hk s₂ h₂
    exact h (k + 1) (by simpa using hk) s₂ h₂

theorem Stops.bind (h : Stops exec t p s e) : Stops exec t (p >>= f) s e := by
  unfold Stops at h ⊢
  rw [run_bind, h]
  rfl

theorem Stops.call {a : A α} (he : exec t a s = some (.error e)) : Stops exec t (call a) s e := by
  unfold Stops
  rw [Prog.call, run_act, he]
  rfl

theorem Stops.step {a : A α} {x : α} (he : exec t a s = some (.ok (x, s'))) (h : Stops exec t (f x) s' e) :
    Stops exec t (Prog.call a >>= f) s e := by
  unfold Stops at h ⊢
  rw [call_bind, run_act, he]
  exact h

theorem Stops.not_runs (h : Stops exec t p s e) : ¬ Runs exec t p s Q := by
  rintro ⟨a, s', hr, -⟩
  unfold Stops at h
  rw [h] at hr
  cases hr

end Conc.Prog
