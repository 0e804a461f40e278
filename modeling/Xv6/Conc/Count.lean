import Mathlib.Tactic

/-!
# Sums over the members of a finite type

An invariant that counts threads, or adds up what each of them holds, changes in one summand when
one thread moves. `total g f` is the sum of `g (f t)` over all `t`; `total_update` is how it
changes when `t` goes to `c`.
-/

namespace Conc

open scoped BigOperators

variable {ι β : Type} [Fintype ι]

/-- The sum of `g` over the members of `f`. -/
def total (g : β → Nat) (f : ι → β) : Nat := ∑ t, g (f t)

/-- **How a sum changes when `t` moves from `f t` to `c`.** -/
theorem total_update [DecidableEq ι] (g : β → Nat) (f : ι → β) (t : ι) (c : β) :
    total g (Function.update f t c) + g (f t) = total g f + g c := by
  unfold total
  rw [← Finset.add_sum_erase _ _ (Finset.mem_univ t),
    ← Finset.add_sum_erase Finset.univ (fun u => g (f u)) (Finset.mem_univ t),
    Function.update_self]
  have : ∑ u ∈ Finset.univ.erase t, g (Function.update f t c u) =
      ∑ u ∈ Finset.univ.erase t, g (f u) :=
    Finset.sum_congr rfl fun u hu => by rw [Function.update_of_ne (Finset.ne_of_mem_erase hu)]
  rw [this]; omega

/-- One summand is at most the sum. -/
theorem le_total (g : β → Nat) (f : ι → β) (t : ι) : g (f t) ≤ total g f :=
  Finset.single_le_sum (f := fun u => g (f u)) (fun _ _ => Nat.zero_le _) (Finset.mem_univ t)

theorem total_le_mul {g h : β → Nat} {k : Nat} (f : ι → β) (e : ∀ c, g c ≤ h c * k) : total g f ≤ total h f * k := by
  unfold total
  rw [Finset.sum_mul]
  exact Finset.sum_le_sum fun t _ => e (f t)

end Conc
