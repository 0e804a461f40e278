import Xv6.Conc.Prog

/-!
# Programs of some actions only

`Prog.Only φ ρ p`: each action that the program `p` can take satisfies `φ`, if each answer `b` to an
action `a` satisfies `ρ a b`. Such a program is safe if each action with `φ` keeps the invariant and
the ghost value (`Only.safe`); so an invariant about one part of a state has nothing to prove about
the programs that work on the other parts.

`Prog.Ends ρ p Q`: if `p` ends, the list of all actions that it took, with their answers, and its
result satisfy `Q`.

`Sys.Reach.induct` is for what holds of the state alone: an action keeps it because of the action's
precondition.
-/

namespace Conc

universe u

namespace Prog

variable {A : Type → Type u} {α β δ : Type}
variable {φ ψ : ∀ ⦃β : Type⦄, A β → Prop} {ρ : ∀ ⦃β : Type⦄, A β → β → Prop}

/-- Each action of the program satisfies `φ`, as long as the answers satisfy `ρ`. -/
def Only (φ : ∀ ⦃β : Type⦄, A β → Prop) (ρ : ∀ ⦃β : Type⦄, A β → β → Prop) : Prog A α → Prop
  | ret _ => True
  | act a k => φ a ∧ ∀ b, ρ a b → (k b).Only φ ρ

variable {a : α} {p : Prog A α} {f : α → Prog A β}

@[simp] theorem only_call {a : A α} : (call a).Only φ ρ ↔ φ a :=
  ⟨fun h => h.1, fun h => ⟨h, fun _ _ => trivial⟩⟩

theorem Only.bind (hp : p.Only φ ρ) (hf : ∀ a, (f a).Only φ ρ) : (p >>= f).Only φ ρ := by
  induction p with
  | ret a => exact hf a
  | act a k ih => exact ⟨hp.1, fun b hb => ih b (hp.2 b hb)⟩

/-- The rule for a program that begins with an action. -/
theorem Only.step {a : A α} (ha : φ a) (hf : ∀ b, ρ a b → (f b).Only φ ρ) :
    (call a >>= f).Only φ ρ := ⟨ha, hf⟩

theorem Only.each {l : List δ} {f : δ → Prog A Unit} (h : ∀ a ∈ l, (f a).Only φ ρ) : (Prog.each l f).Only φ ρ := by
  induction l with
  | nil => trivial
  | cons a l ih =>
    exact Only.bind (h a (by simp)) fun _ => ih fun b hb => h b (by simp [hb])

/-- An action with its answer. -/
structure Done (A : Type → Type u) where
  {type : Type}
  act : A type
  answer : type

/-- The actions and the result of the program satisfy `Q`, as long as the answers satisfy `ρ`. -/
def Ends (ρ : ∀ ⦃β : Type⦄, A β → β → Prop) : Prog A α → (List (Done A) → α → Prop) → Prop
  | ret a, Q => Q [] a
  | act a k, Q => ∀ b, ρ a b → (k b).Ends ρ fun l r => Q (⟨a, b⟩ :: l) r

theorem Ends.mono {Q Q' : List (Done A) → α → Prop} (h : p.Ends ρ Q) (hq : ∀ l a, Q l a → Q' l a) : p.Ends ρ Q' := by
  induction p generalizing Q Q' with
  | ret a => exact hq _ _ h
  | act a k ih => exact fun b hb => ih b (h b hb) fun l r => hq _ _

theorem Ends.bind {Q : List (Done A) → β → Prop}
    (h : p.Ends ρ fun l a => (f a).Ends ρ fun l' r => Q (l ++ l') r) : (p >>= f).Ends ρ Q := by
  induction p generalizing Q with
  | ret a => exact h
  | act a k ih => exact fun b hb => ih b (h b hb)

/-- The rule for a program that begins with an action. -/
theorem Ends.step {a : A α} {Q : List (Done A) → β → Prop}
    (h : ∀ b, ρ a b → (f b).Ends ρ fun l r => Q (⟨a, b⟩ :: l) r) : (call a >>= f).Ends ρ Q := h

theorem Ends.pure {Q : List (Done A) → α → Prop} (h : Q [] a) : (pure a : Prog A α).Ends ρ Q := h

theorem Only.ends (h : p.Only φ ρ) : p.Ends ρ fun l _ => ∀ x ∈ l, φ x.act := by
  induction p with
  | ret a => simp [Ends]
  | act a k ih =>
    intro b hb
    refine (ih b (h.2 b hb)).mono fun l _ hl x hx => ?_
    rcases List.mem_cons.mp hx with rfl | hx
    · exact h.1
    · exact hl x hx

variable {S P G : Type} {L : Logic A S P G} {t : Tid} {p : Prog A α} {g : G}

/-- The actions `φ` keep the invariant while the thread's ghost value is `g`, and answer `ρ`. -/
def Frame (L : Logic A S P G) (t : Tid) (g : G) (φ : ∀ ⦃β : Type⦄, A β → Prop)
    (ρ : ∀ ⦃β : Type⦄, A β → β → Prop) : Prop :=
  ∀ ⦃β : Type⦄ (a : A β) s γ, φ a → L.inv s γ → γ t = g → L.pre t a s ∧
    ∀ b s', L.exec t a s = some (.ok (b, s')) → ρ a b ∧ L.inv s' γ

/-- **The frame rule.** -/
theorem Only.safe (h : p.Only φ ρ) (hφ : Frame L t g φ ρ) : p.Safe L t (fun _ g' => g' = g) g := by
  induction p with
  | ret a => rfl
  | act a k ih =>
    intro s γ hi hg
    obtain ⟨hp, he⟩ := hφ a s γ h.1 hi hg
    refine ⟨hp, fun b s' hs => ⟨g, ?_, ih b (h.2 b (he b s' hs).1)⟩⟩
    rw [← hg, Function.update_eq_self]
    exact (he b s' hs).2

end Prog

namespace Sys

variable {A : Type → Type u} {S P C G : Type} {Y Z : Sys A S P C} {L : Logic A S P G}
variable {ghost : Tid → C → G} {c₀ c : Conf A S C}

/-- The runs of a system with fewer actions are runs. -/
theorem Reach.mono (hx : ∀ ⦃β : Type⦄ t (a : A β) s r, Y.exec t a s = some r → Z.exec t a s = some r)
    (hc : ∀ t s d p, Y.call t s d p → Z.call t s d p) (h : Y.Reach c₀ c) : Z.Reach c₀ c := by
  induction h with
  | init => exact .init
  | step _ hs ih =>
    refine ih.step ?_
    cases hs with
    | call t ht h => exact .call t ht (hc _ _ _ _ h)
    | act t ht he => exact .act t ht (hx _ _ _ _ he)
    | ret t ht => exact .ret t ht

/-- A property of the state that each action keeps where the invariant of `L` and the action's
precondition hold. -/
theorem Reach.induct {I : S → Prop} (hL : L.exec = Z.exec) (hc : Calls Z L ghost) (h₀ : Ok L ghost c₀)
    (hx : ∀ ⦃β : Type⦄ t (a : A β) s r, Y.exec t a s = some r → Z.exec t a s = some r)
    (hy : ∀ t s d p, Y.call t s d p → Z.call t s d p) (hI : I c₀.st)
    (hstep : ∀ ⦃β : Type⦄ t (a : A β) s γ b s', L.inv s γ → L.pre t a s → I s →
      Y.exec t a s = some (.ok (b, s')) → I s')
    (h : Y.Reach c₀ c) : I c.st := by
  induction h with
  | init => exact hI
  | @step c c' hr hs ih =>
    have ho := (Reach.mono hx hy hr).safe hL hc h₀
    cases hs with
    | call t ht h => exact ih
    | ret t ht => exact ih
    | @act s s' θ t β a k b ht he =>
      obtain ⟨γ, hi, -⟩ := id ho
      exact hstep t a s γ b s' hi (ho.pre ht) ih he

end Sys

end Conc
