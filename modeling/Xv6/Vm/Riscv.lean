import Mathlib.Tactic

/-!
# Pages, addresses and page-table entries

The constants and macros of `kernel/riscv.h` and `kernel/memlayout.h` that the memory code uses.
An address or a word is a natural number below `2 ^ 64`. A page-table entry is a physical page
number times `2 ^ 10` plus ten flag bits; the bit operations of the source are written as division
and remainder by powers of two.
-/

namespace Xv6

/-- The number of values of a `uint64`. -/
abbrev U64 : Nat := 2 ^ 64

/-- Bytes per page. -/
abbrev PGSIZE : Nat := 4096

/-- One beyond the highest virtual address. -/
abbrev MAXVA : Nat := 2 ^ 38

abbrev TRAMPOLINE : Nat := MAXVA - PGSIZE
abbrev TRAPFRAME : Nat := TRAMPOLINE - PGSIZE

abbrev KERNBASE : Nat := 0x80000000
abbrev PHYSTOP : Nat := KERNBASE + 128 * 1024 * 1024

/-- `PGROUNDUP(sz)`. -/
def pgRoundUp (sz : Nat) : Nat := (sz + PGSIZE - 1) % U64 / PGSIZE * PGSIZE

/-- `PGROUNDDOWN(a)`. -/
def pgRoundDown (a : Nat) : Nat := a / PGSIZE * PGSIZE

/-- `PX(level, va)`. -/
def px (level va : Nat) : Nat := va / 2 ^ (12 + 9 * level) % 512

/-! ## Page-table entries -/

abbrev PTE_V : Nat := 1
abbrev PTE_R : Nat := 2
abbrev PTE_W : Nat := 4
abbrev PTE_X : Nat := 8
abbrev PTE_U : Nat := 16

/-- `pte & PTE_V`. -/
def pteV (pte : Nat) : Bool := pte % 2 == 1

/-- `pte & PTE_W`. -/
def pteW (pte : Nat) : Bool := pte / 4 % 2 == 1

/-- `pte & PTE_U`. -/
def pteU (pte : Nat) : Bool := pte / 16 % 2 == 1

/-- `pte & (PTE_R|PTE_W|PTE_X)`. -/
def pteRWX (pte : Nat) : Bool := pte / 2 % 8 != 0

/-- `PTE2PA(pte)`. -/
def pte2pa (pte : Nat) : Nat := pte / 1024 * PGSIZE % U64

/-- `PTE_FLAGS(pte)`. -/
def pteFlags (pte : Nat) : Nat := pte % 1024

/-- `PA2PTE(pa) | perm | PTE_V`, for flag bits `perm`. -/
def mkPte (pa perm : Nat) : Nat := pa / PGSIZE * 1024 + (perm / 2 * 2 + 1)

/-- `pte & ~PTE_U`. -/
def pteClearU (pte : Nat) : Nat := pte - pte / 16 % 2 * 16

section

variable {pa perm pte : Nat}

theorem pteV_mkPte : pteV (mkPte pa perm) = true := by
  simp only [pteV, mkPte, beq_iff_eq]
  omega

theorem pteV_zero : pteV 0 = false := rfl

theorem pte2pa_mkPte (h : pa % PGSIZE = 0) (hlt : pa < U64) (hp : perm < 1024) : pte2pa (mkPte pa perm) = pa := by
  have h1 : (pa / PGSIZE * 1024 + (perm / 2 * 2 + 1)) / 1024 = pa / PGSIZE := by omega
  rw [pte2pa, mkPte, h1]
  have h2 : pa / PGSIZE * PGSIZE = pa := Nat.div_mul_cancel (Nat.dvd_of_mod_eq_zero h)
  rw [h2, Nat.mod_eq_of_lt hlt]

theorem pteFlags_mkPte (hp : perm < 1024) : pteFlags (mkPte pa perm) = perm / 2 * 2 + 1 := by
  simp only [pteFlags, mkPte]
  omega

/-- A table entry has no `R`, `W` or `X` bit. -/
theorem pteRWX_node : pteRWX (mkPte pa 0) = false := by
  simp only [pteRWX, mkPte, bne_eq_false_iff_eq]
  omega

theorem mkPte_ne_zero : mkPte pa perm ≠ 0 := by
  unfold mkPte
  omega

end

/-! ## Rounding -/

theorem pgRoundUp_of_lt {sz : Nat} (h : sz + PGSIZE ≤ U64) : pgRoundUp sz = (sz + PGSIZE - 1) / PGSIZE * PGSIZE := by
  unfold pgRoundUp
  rw [Nat.mod_eq_of_lt]
  simp only [PGSIZE, U64] at h ⊢
  omega

theorem px_lt (level va : Nat) : px level va < 512 := Nat.mod_lt _ (by omega)

/-- The virtual page number of an address splits into its three indices. -/
theorem px_vpn {va : Nat} (h : va < MAXVA) : va / PGSIZE = px 2 va * 2 ^ 18 + px 1 va * 2 ^ 9 + px 0 va := by
  simp only [px, PGSIZE, MAXVA] at h ⊢
  omega

end Xv6
