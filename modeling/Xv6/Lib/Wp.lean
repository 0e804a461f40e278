/-!
# Programs with a state that can stop

`M S P α` is a program that reads and writes a state of type `S` and returns an `α`, or stops with
a `P`. `wp E m s Q` is what a proof of such a program shows: from the state `s` the program
returns, and the result and the new state satisfy `Q`, or it stops with an error that `E` allows.

* The rules follow the program (`wp_bind`, `wp_pure`, `wp_ite`), a spec is used through `wp.mono`.
* `M.zoom` runs a program of a part of the state.
-/

namespace Seq

/-- A program with the state `S` that can stop with a `P`. -/
def M (S P α : Type) := S → Except P (α × S)

namespace M

variable {S S' P α β γ : Type}

/-- Return `a`. -/
protected def pure (a : α) : M S P α := fun s => .ok (a, s)

/-- First `m`, then `f` with its result. -/
protected def bind (m : M S P α) (f : α → M S P β) : M S P β := fun s =>
  match m s with
  | .ok (a, s') => f a s'
  | .error e => .error e

instance : Monad (M S P) where
  pure := M.pure
  bind := M.bind

/-- Stop with `e`. -/
def stop (e : P) : M S P α := fun _ => .error e

/-- A value computed from the state. -/
def gets (f : S → α) : M S P α := fun s => .ok (f s, s)

/-- A change of the state. -/
def modify (f : S → S) : M S P Unit := fun s => .ok ((), f s)

/-- A program of a part of the state. -/
def zoom (get : S → S') (set : S' → S → S) (m : M S' P α) : M S P α := fun s =>
  match m (get s) with
  | .ok (a, s') => .ok (a, set s' s)
  | .error e => .error e

end M

variable {S S' P α β : Type} {E : P → Prop}

/-- The program returns with `Q`, or stops with an error that `E` allows. -/
def wp (E : P → Prop) (m : M S P α) (s : S) (Q : α → S → Prop) : Prop :=
  match m s with
  | .ok (a, s') => Q a s'
  | .error e => E e

variable {m : M S P α} {s : S} {Q : α → S → Prop} {f : α → M S P β} {a : α}

theorem wp.mono {Q' : α → S → Prop} (h : wp E m s Q) (hq : ∀ a s', Q a s' → Q' a s') : wp E m s Q' := by
  unfold wp at h ⊢
  split
  · rename_i he; rw [he] at h; exact hq _ _ h
  · rename_i he; rw [he] at h; exact h

/-- A program may do anything. -/
theorem wp_true (m : M S P α) (s : S) : wp (fun _ => True) m s fun _ _ => True := by
  unfold wp
  split <;> trivial

/-- Two specs of one program, the second about what it does when it returns. -/
theorem wp.and {Q' : α → S → Prop} (h : wp E m s Q)
    (h' : wp (fun _ => True) m s Q') : wp E m s fun a s' => Q a s' ∧ Q' a s' := by
  unfold wp at h h' ⊢
  split
  · rename_i he; rw [he] at h h'; exact ⟨h, h'⟩
  · rename_i he; rw [he] at h; exact h

theorem wp_bind {Q : β → S → Prop} : wp E (m >>= f) s Q ↔ wp E m s fun a s' => wp E (f a) s' Q := by
  show wp E (M.bind m f) s Q ↔ _
  unfold wp M.bind
  cases m s <;> rfl

/-- A spec of the first part, then the rest. -/
theorem wp.bind {R : α → S → Prop} {Q : β → S → Prop}
    (h : wp E m s R) (hf : ∀ a s', R a s' → wp E (f a) s' Q) : wp E (m >>= f) s Q :=
  wp_bind.mpr (h.mono hf)

theorem wp_pure : wp E (pure a : M S P α) s Q ↔ Q a s := Iff.rfl

theorem wp_stop {e : P} : wp E (M.stop e) s Q ↔ E e := Iff.rfl

theorem wp_gets {f : S → α} : wp E (M.gets f) s Q ↔ Q (f s) s := Iff.rfl

theorem wp_modify {f : S → S} {Q : Unit → S → Prop} :
    wp E (M.modify f) s Q ↔ Q () (f s) := Iff.rfl

theorem wp_zoom {get : S → S'} {set : S' → S → S} {m : M S' P α} :
    wp E (M.zoom get set m) s Q ↔ wp E m (get s) fun a s' => Q a (set s' s) := by
  unfold wp M.zoom
  cases m (get s) <;> rfl

theorem wp_ite {c : Prop} [Decidable c] {m' : M S P α} :
    wp E (if c then m else m') s Q ↔ (c → wp E m s Q) ∧ (¬ c → wp E m' s Q) := by
  by_cases h : c <;> simp [h]

/-- What a program that returned has done. -/
theorem wp.ok {s' : S} (h : wp E m s Q) (hm : m s = .ok (a, s')) : Q a s' := by
  unfold wp at h
  rwa [hm] at h

theorem bind_bind {γ : Type} (m : M S P α) (f : α → M S P β) (g : β → M S P γ) :
    m >>= f >>= g = m >>= fun a => f a >>= g := by
  funext s
  show M.bind (M.bind m f) g s = M.bind m (fun a => M.bind (f a) g) s
  unfold M.bind
  cases m s <;> rfl

/-- A spec with the run that it is about. -/
theorem wp.run (h : wp E m s Q) : wp E m s fun a s' => Q a s' ∧ m s = .ok (a, s') := by
  unfold wp at h ⊢
  split
  · rename_i hm
    rw [hm] at h
    exact ⟨h, hm⟩
  · rename_i hm
    rw [hm] at h
    exact h

/-- A sequence that returned: its parts did. -/
theorem bind_ok {s' : S} {b : β} (h : (m >>= f) s = .ok (b, s')) :
    ∃ a s₁, m s = .ok (a, s₁) ∧ f a s₁ = .ok (b, s') := by
  have h : M.bind m f s = .ok (b, s') := h
  unfold M.bind at h
  cases hm : m s with
  | ok r =>
    rw [hm] at h
    exact ⟨r.1, r.2, rfl, h⟩
  | error e =>
    rw [hm] at h
    cases h

/-- What a program that stopped has stopped with. -/
theorem wp.error {e : P} (h : wp E m s Q) (hm : m s = .error e) : E e := by
  unfold wp at h
  rwa [hm] at h

/-- A program that may not stop returns. -/
theorem wp.returns (h : wp (fun _ => False) m s Q) : ∃ a s', m s = .ok (a, s') ∧ Q a s' := by
  cases hm : m s with
  | ok r => exact ⟨r.1, r.2, rfl, h.ok hm⟩
  | error e => exact (h.error hm).elim

/-- A run that is evaluated. -/
theorem ok_of_toOption {ε : Type} {x : Except ε α} (h : x.toOption = some a) : x = .ok a := by
  cases x with
  | error e => cases h
  | ok b =>
    cases h
    rfl

end Seq
