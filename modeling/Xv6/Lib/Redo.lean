import Mathlib.Data.List.Basic

/-!
# Updates of a map, in groups

An update `Upd ω κ ν` is a write of a value to a key by an operation. A run of a transactional
store is a list of groups of updates; `apply` is the map after a list of updates.

* `NoSplit`: no operation has updates in two groups, so that the map after the first `k` groups
  has all of an operation or nothing of it.
-/

namespace Redo

/-- A write of `val` to `key` by the operation `op`. -/
structure Upd (ω κ ν : Type) where
  op : ω
  key : κ
  val : ν

variable {ω κ ν : Type} [DecidableEq κ]

/-- The map after the updates, the first one first. -/
def apply (d : κ → ν) : List (Upd ω κ ν) → κ → ν
  | [] => d
  | u :: us => apply (Function.update d u.key u.val) us

theorem apply_append (d : κ → ν) (us vs : List (Upd ω κ ν)) : apply d (us ++ vs) = apply (apply d us) vs := by
  induction us generalizing d with
  | nil => rfl
  | cons u us ih => exact ih _

/-- A last update is a `Function.update`. -/
theorem apply_concat (d : κ → ν) (us : List (Upd ω κ ν)) (u : Upd ω κ ν) :
    apply d (us ++ [u]) = Function.update (apply d us) u.key u.val := by
  rw [apply_append]; rfl

/-- No operation has updates in two of the groups. -/
def NoSplit (gs : List (List (Upd ω κ ν))) : Prop :=
  gs.Pairwise fun g g' => ∀ u ∈ g, ∀ v ∈ g', u.op ≠ v.op

omit [DecidableEq κ] in
theorem noSplit_concat {gs : List (List (Upd ω κ ν))} {g : List (Upd ω κ ν)} :
    NoSplit (gs ++ [g]) ↔ NoSplit gs ∧ ∀ g' ∈ gs, ∀ u ∈ g', ∀ v ∈ g, u.op ≠ v.op := by
  simp [NoSplit, List.pairwise_append]

end Redo
