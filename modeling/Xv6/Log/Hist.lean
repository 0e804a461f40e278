import Xv6.Lib.Redo
import Xv6.Log.Machine

/-!
# What a run of the log did

Functions of the history of a run (`LogSt.hist`, newest event first). An operation is the part of
a thread from a `begin_op` to the next `end_op`; the `end_op` that leaves no operation running
closes a commit group.

* `closed`, `openUpds`: the closed commit groups, and the updates since the last one was closed.
* `commits`: how many groups' `commit()` has returned; groups commit in the order they close.
* `view`: the blocks after all updates; `base`: after the groups whose `commit()` has returned.
* `lastLogged`, `lastReleased`: the newest contents of a block, logged and released.
-/

namespace Xv6

open Conc

/-- An update of a block; the operation is its thread and its number in the thread. -/
abbrev LogUpd := Redo.Upd (Tid × Nat) Nat Block

namespace LogHist

/-- The number of operations that thread `t` began. -/
def opNo (t : Tid) : List LogEv → Nat
  | [] => 0
  | .begun u :: h => opNo t h + if u = t then 1 else 0
  | _ :: h => opNo t h

/-- The updates since the last group was closed. -/
def openUpds : List LogEv → List LogUpd
  | [] => []
  | .logged t b d :: h => openUpds h ++ [⟨(t, opNo t h), b, d⟩]
  | .ended _ true :: _ => []
  | _ :: h => openUpds h

/-- The closed groups, the first one first. -/
def closed : List LogEv → List (List LogUpd)
  | [] => []
  | .ended _ true :: h => closed h ++ [openUpds h]
  | _ :: h => closed h

/-- How many calls of `commit()` have returned. -/
def commits : List LogEv → Nat
  | [] => 0
  | .committed _ :: h => commits h + 1
  | _ :: h => commits h

/-- What the newest `log_write` of block `b` logged. -/
def lastLogged (b : Nat) : List LogEv → Option Block
  | [] => none
  | .logged _ b' d :: h => if b' = b then some d else lastLogged b h
  | _ :: h => lastLogged b h

/-- The contents that a client that logged block `b` released last. -/
def lastReleased (b : Nat) : List LogEv → Option Block
  | [] => none
  | .released _ b' d :: h => if b' = b then some d else lastReleased b h
  | _ :: h => lastReleased b h

/-- The blocks after all updates, from the disk `d₀`. -/
def view (d₀ : Nat → Block) (h : List LogEv) : Nat → Block :=
  Redo.apply d₀ ((closed h).flatten ++ openUpds h)

/-- The blocks after the first `k` groups. -/
def after (d₀ : Nat → Block) (h : List LogEv) (k : Nat) : Nat → Block :=
  Redo.apply d₀ ((closed h).take k).flatten

/-- The blocks after the groups whose `commit()` has returned. -/
def base (d₀ : Nat → Block) (h : List LogEv) : Nat → Block := after d₀ h (commits h)

variable {d₀ : Nat → Block} {h : List LogEv} {t : Tid} {b : Nat} {d : Block}

/-! ## The view -/

@[simp] theorem view_nil : view d₀ [] = d₀ := rfl

@[simp] theorem view_logged : view d₀ (.logged t b d :: h) = Function.update (view d₀ h) b d := by
  simp only [view, closed, openUpds, ← List.append_assoc, Redo.apply_concat]

@[simp] theorem view_ended {last : Bool} : view d₀ (.ended t last :: h) = view d₀ h := by
  cases last with
  | true => simp [view, closed, openUpds]
  | false => rfl

@[simp] theorem view_committed : view d₀ (.committed t :: h) = view d₀ h := rfl

/-- The view is what was logged last. -/
theorem view_eq (d₀ : Nat → Block) (h : List LogEv) (b : Nat) : view d₀ h b = (lastLogged b h).getD (d₀ b) := by
  induction h with
  | nil => rfl
  | cons e h ih =>
    cases e with
    | logged t b' d =>
      rw [view_logged, lastLogged]
      by_cases hb : b' = b
      · subst hb; simp
      · rw [Function.update_of_ne (Ne.symm hb), if_neg hb, ih]
    | begun t => exact ih
    | ended t last => simpa [lastLogged] using ih
    | committed t => exact ih
    | released t b' d => exact ih

/-! ## The groups -/

/-- All updates are in a closed group or after the last one. -/
theorem after_all (d₀ : Nat → Block) (h : List LogEv) (ho : openUpds h = []) :
    after d₀ h (closed h).length = view d₀ h := by
  rw [after, List.take_length, view, ho, List.append_nil]

/-! ## The base -/

@[simp] theorem base_logged : base d₀ (.logged t b d :: h) = base d₀ h := rfl

/-- A group that is closed is not in the base yet. -/
theorem base_ended {last : Bool} (hc : commits h ≤ (closed h).length) : base d₀ (.ended t last :: h) = base d₀ h := by
  cases last with
  | true =>
    simp only [base, after, closed, commits]
    rw [List.take_append_of_le_length hc]
  | false => rfl

/-- The base after the `commit()` of the last closed group. -/
theorem base_committed (hc : (closed h).length = commits h + 1) (ho : openUpds h = []) :
    base d₀ (.committed t :: h) = view d₀ h := by
  simp only [base, commits, closed, after]
  rw [← hc]
  exact after_all d₀ h ho

end LogHist

end Xv6
