import Mathlib.Algebra.Group.Nat.Defs
import Mathlib.Logic.Function.Basic

/-!
# `memmove` of the kernel and of the user library

Both copy byte by byte in place and choose the direction so that no byte is overwritten before it is read: the kernel
goes backwards only if the ranges overlap with the destination above (`kernel/string.c`), the user library whenever the
source is not above the destination (`user/ulib.c`). Pointers wrap at the end of the address space, ranges do not.
-/

namespace Xv6.Ulib

open Function (update update_of_ne update_self)

/-- The size of the address space. -/
abbrev SPACE : Nat := 2 ^ 64

/-- `p + n` for a pointer. -/
def ptrAdd (p n : Nat) : Nat := (p + n) % SPACE

/-- `p - 1` for a pointer. -/
def ptrPred (p : Nat) : Nat := if p = 0 then SPACE - 1 else p - 1

/-- `while(n-- > 0) *d++ = *s++;` -/
def copyUp : Nat → (Nat → UInt8) → Nat → Nat → Nat → UInt8
  | 0, mem, _, _ => mem
  | n + 1, mem, d, s => copyUp n (update mem d (mem s)) (ptrAdd d 1) (ptrAdd s 1)

/-- `while(n-- > 0) *--d = *--s;` -/
def copyDown : Nat → (Nat → UInt8) → Nat → Nat → Nat → UInt8
  | 0, mem, _, _ => mem
  | n + 1, mem, d, s =>
    copyDown n (update mem (ptrPred d) (mem (ptrPred s))) (ptrPred d) (ptrPred s)

namespace Kernel

/-- `memmove` of the kernel; `n` is a `uint`. -/
def memmove (mem : Nat → UInt8) (dst src n : Nat) : Nat → UInt8 :=
  if n = 0 then mem
  else if src < dst ∧ ptrAdd src n > dst then copyDown n mem (ptrAdd dst n) (ptrAdd src n)
  else copyUp n mem dst src

end Kernel

/-- `memmove` of the user library; `n` is an `int`, and no turn is made if it is negative. -/
def memmove (mem : Nat → UInt8) (dst src : Nat) (n : Int) : Nat → UInt8 :=
  if src > dst then copyUp n.toNat mem dst src
  else copyDown n.toNat mem (ptrAdd dst n.toNat) (ptrAdd src n.toNat)

/-- The memory with the `n` bytes at `src` also at `dst`. -/
def moved (mem : Nat → UInt8) (dst src n : Nat) : Nat → UInt8 :=
  fun a => if dst ≤ a ∧ a < dst + n then mem (src + (a - dst)) else mem a

variable {mem : Nat → UInt8} {dst src n : Nat}

theorem moved_zero : moved mem dst src 0 = mem :=
  funext fun a => if_neg (by omega)

/-- The first byte is copied before the others; it is none of those that are still to be read. -/
theorem moved_update_first (h : dst ≤ src ∨ src + (n + 1) ≤ dst) :
    moved (update mem dst (mem src)) (dst + 1) (src + 1) n = moved mem dst src (n + 1) := by
  funext a
  unfold moved
  by_cases ha : dst + 1 ≤ a ∧ a < dst + 1 + n
  · rw [if_pos ha, if_pos (by omega), update_of_ne (by omega)]
    congr 1
    omega
  · rw [if_neg ha]
    by_cases he : a = dst
    · rw [he, update_self, if_pos (by omega), Nat.sub_self, Nat.add_zero]
    · rw [update_of_ne he, if_neg (by omega)]

/-- The last byte is copied before the others. -/
theorem moved_update_last (h : src ≤ dst) :
    moved (update mem (dst + n) (mem (src + n))) dst src n = moved mem dst src (n + 1) := by
  funext a
  unfold moved
  by_cases ha : dst ≤ a ∧ a < dst + n
  · rw [if_pos ha, if_pos (by omega), update_of_ne (by omega)]
  · rw [if_neg ha]
    by_cases he : a = dst + n
    · rw [he, update_self, if_pos (by omega), Nat.add_sub_cancel_left]
    · rw [update_of_ne he, if_neg (by omega)]

theorem copyUp_eq (hd : dst + n ≤ SPACE) (hs : src + n ≤ SPACE)
    (h : dst ≤ src ∨ src + n ≤ dst) : copyUp n mem dst src = moved mem dst src n := by
  induction n generalizing mem dst src with
  | zero => exact moved_zero.symm
  | succ n ih =>
    rw [copyUp, ← moved_update_first h]
    cases n with
    | zero => exact moved_zero.symm
    | succ n =>
      have e1 : ptrAdd dst 1 = dst + 1 := Nat.mod_eq_of_lt (by omega)
      have e2 : ptrAdd src 1 = src + 1 := Nat.mod_eq_of_lt (by omega)
      rw [e1, e2]
      exact ih (by omega) (by omega) (by omega)

theorem ptrPred_ptrAdd {p : Nat} (h : p + (n + 1) ≤ SPACE) : ptrPred (ptrAdd p (n + 1)) = p + n := by
  unfold ptrPred ptrAdd
  rcases Nat.lt_or_eq_of_le h with hlt | he
  · rw [Nat.mod_eq_of_lt hlt, if_neg (by omega)]
    rfl
  · rw [he, Nat.mod_self, if_pos rfl]
    omega

section

variable (hd : dst + n ≤ SPACE) (hs : src + n ≤ SPACE)
include hd hs

theorem copyDown_eq (h : src ≤ dst) : copyDown n mem (ptrAdd dst n) (ptrAdd src n) = moved mem dst src n := by
  induction n generalizing mem with
  | zero => exact moved_zero.symm
  | succ n ih =>
    have e1 : dst + n = ptrAdd dst n := (Nat.mod_eq_of_lt (by omega)).symm
    have e2 : src + n = ptrAdd src n := (Nat.mod_eq_of_lt (by omega)).symm
    rw [copyDown, ptrPred_ptrAdd hd, ptrPred_ptrAdd hs, ← moved_update_last h]
    rw [← ih (by omega) (by omega), ← e1, ← e2]

theorem Kernel.memmove_eq : Kernel.memmove mem dst src n = moved mem dst src n := by
  unfold Kernel.memmove
  by_cases h0 : n = 0
  · rw [if_pos h0, h0, moved_zero]
  · rw [if_neg h0]
    by_cases hlt : src < dst
    · have e : ptrAdd src n = src + n := Nat.mod_eq_of_lt (by omega)
      by_cases hover : src + n > dst
      · rw [if_pos ⟨hlt, by rw [e]; exact hover⟩]
        exact copyDown_eq hd hs (Nat.le_of_lt hlt)
      · rw [if_neg (by rw [e]; exact fun hx => hover hx.2)]
        exact copyUp_eq hd hs (by omega)
    · rw [if_neg fun hx => hlt hx.1]
      exact copyUp_eq hd hs (by omega)

theorem memmove_eq : memmove mem dst src n = moved mem dst src n := by
  unfold memmove
  rw [Int.toNat_natCast]
  by_cases h : src > dst
  · rw [if_pos h]
    exact copyUp_eq hd hs (by omega)
  · rw [if_neg h]
    exact copyDown_eq hd hs (by omega)

end

/-- After either `memmove` the destination holds the bytes that the source held, and all other bytes are as they were;
so the two agree. -/
theorem memmove_any_overlap (mem : Nat → UInt8) {dst src n : Nat} (hd : dst + n ≤ SPACE) (hs : src + n ≤ SPACE) :
    (∀ i < n, Kernel.memmove mem dst src n (dst + i) = mem (src + i) ∧
      memmove mem dst src n (dst + i) = mem (src + i)) ∧
      (∀ a, a < dst ∨ dst + n ≤ a → Kernel.memmove mem dst src n a = mem a ∧ memmove mem dst src n a = mem a) ∧
      Kernel.memmove mem dst src n = memmove mem dst src n := by
  have hat : ∀ i < n, moved mem dst src n (dst + i) = mem (src + i) := by
    intro i hi
    unfold moved
    rw [if_pos (by omega), Nat.add_sub_cancel_left]
  have hout : ∀ a, a < dst ∨ dst + n ≤ a → moved mem dst src n a = mem a := fun a ha => if_neg (by omega)
  rw [Kernel.memmove_eq hd hs, memmove_eq hd hs]
  exact ⟨fun i hi => ⟨hat i hi, hat i hi⟩, fun a ha => ⟨hout a ha, hout a ha⟩, rfl⟩

/-- Four bytes are moved up by one. -/
theorem memmove_any_overlap_up : memmove (fun a => UInt8.ofNat a) 11 10 4 13 = 12 ∧
    Kernel.memmove (fun a => UInt8.ofNat a) 11 10 4 = memmove (fun a => UInt8.ofNat a) 11 10 4 := by
  obtain ⟨hat, -, hsame⟩ := memmove_any_overlap (fun a => UInt8.ofNat a) (show 11 + 4 ≤ SPACE by decide)
    (show 10 + 4 ≤ SPACE by decide)
  exact ⟨(hat 2 (by decide)).2, hsame⟩

end Xv6.Ulib
