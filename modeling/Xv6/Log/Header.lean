import Xv6.Bio.Cache
import Xv6.Lib.Bytes

/-!
# The header block of the log

`struct logheader` in a block: word 0 is `n`, word `i + 1` is `block[i]`. `write` is what
`write_head` stores, `read` what `read_head` loads.
-/

namespace Xv6

namespace Hdr

/-- `hb->block[j..]` set to the numbers of a list: words `j + 1` and up. -/
def putBlocks (d : Block) (j : Nat) : List Nat → Block
  | [] => d
  | b :: l => putBlocks (Bytes.setU32 d (j + 1) b) (j + 1) l

/-- The stores of `write_head` to `struct logheader`: `n` and the first `n` block numbers. -/
def write (d : Block) (lh : List Nat) : Block := putBlocks (Bytes.setU32 d 0 lh.length) 0 lh

/-- How often a loop to `lh->n` turns; `n` is an `int`. -/
def n (d : Block) : Nat := if Bytes.getU32 d 0 < 2 ^ 31 then Bytes.getU32 d 0 else 0

/-- The block numbers that `read_head` reads. -/
def read (d : Block) : List Nat := (List.range (n d)).map fun i => Bytes.getU32 d (i + 1)

theorem getU32_putBlocks_le (d : Block) (j : Nat) (l : List Nat) {k : Nat} (hk : k ≤ j) :
    Bytes.getU32 (putBlocks d j l) k = Bytes.getU32 d k := by
  induction l generalizing d j with
  | nil => rfl
  | cons b l ih =>
    rw [putBlocks, ih _ _ (by omega), Bytes.getU32_setU32_ne _ _ (by omega)]

theorem getU32_putBlocks (d : Block) (j : Nat) (l : List Nat) (hl : ∀ b ∈ l, b < 2 ^ 32) {k : Nat}
    (hk : k < l.length) : Bytes.getU32 (putBlocks d j l) (j + k + 1) = l[k] := by
  induction l generalizing d j k with
  | nil => cases hk
  | cons b l ih =>
    cases k with
    | zero =>
      rw [putBlocks, Nat.add_zero, getU32_putBlocks_le _ _ _ (Nat.le_refl _)]
      exact Bytes.getU32_setU32_same _ _ _ (hl b List.mem_cons_self)
    | succ k =>
      have := ih (Bytes.setU32 d (j + 1) b) (j + 1) (fun b hb => hl b (List.mem_cons_of_mem _ hb))
        (k := k) (by simpa using hk)
      rw [putBlocks, show j + (k + 1) + 1 = j + 1 + k + 1 by omega, this]
      rfl

theorem n_write (d : Block) (lh : List Nat) (h : lh.length < 2 ^ 31) : n (write d lh) = lh.length := by
  have : Bytes.getU32 (write d lh) 0 = lh.length := by
    rw [write, getU32_putBlocks_le _ _ _ (Nat.le_refl 0),
      Bytes.getU32_setU32_same _ _ _ (by omega)]
  rw [n, this, if_pos h]

/-- `read_head` reads back what `write_head` wrote. -/
theorem read_write (d : Block) (lh : List Nat) (h : lh.length < 2 ^ 31)
    (hl : ∀ b ∈ lh, b < 2 ^ 32) : read (write d lh) = lh := by
  rw [read, n_write d lh h]
  refine List.ext_getElem (by simp) fun k hk hk' => ?_
  have := getU32_putBlocks (Bytes.setU32 d 0 lh.length) 0 lh hl hk'
  simpa [write] using this

end Hdr

end Xv6
