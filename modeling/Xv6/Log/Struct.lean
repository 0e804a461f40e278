import Xv6.Param
import Xv6.Panic

/-!
# `struct log` and the sections that `log.lock` protects

`struct log` of `kernel/log.c`, and one function for each section of code that runs with
`log.lock` held: `begin_op`'s test, `log_write`, and the first section of `end_op`. The lock makes
each of them one atomic step. `log.lh.block[0..log.lh.n)` is the list `lh`.
-/

namespace Xv6

/-- `struct log`, without its lock, `start` and `dev`. -/
structure Log where
  /-- How many FS sys calls are executing. -/
  outstanding : Int := 0
  /-- In `commit()`, please wait. -/
  committing : Bool := false
  /-- The logged block numbers, `lh.block[0..lh.n)`. -/
  lh : List Nat := []
  deriving DecidableEq, Repr

namespace Log

/-- `log.lh.n`. -/
def n (l : Log) : Nat := l.lh.length

/-- One turn of `begin_op`'s loop: `none` is the `sleep(&log, &log.lock)` of its first two
branches, after which the loop tests again. -/
def beginOp (l : Log) : Option Log :=
  if l.committing then none
  else if (l.n : Int) + (l.outstanding + 1) * MAXOPBLOCKS > LOGBLOCKS then
    -- this op might exhaust log space; wait for commit.
    none
  else some { l with outstanding := l.outstanding + 1 }

/-- The first section of `end_op`; the `Bool` is `do_commit`. -/
def endOp (l : Log) : Except Panic (Log × Bool) :=
  let l := { l with outstanding := l.outstanding - 1 }
  if l.committing then .error .logCommitting
  else if l.outstanding = 0 then .ok ({ l with committing := true }, true)
  else .ok (l, false)

/-- The last section of `end_op`, after `commit()`. -/
def endCommit (l : Log) : Log := { l with committing := false }

/-- `log_write(b)` for a buffer of block `b`; the `Bool` tells if the block is new in the log, so
that the buffer is pinned. The test for a full log comes before the search for the block. -/
def logWrite (l : Log) (b : Nat) : Except Panic (Log × Bool) :=
  if l.n ≥ LOGBLOCKS then .error .tooBigTransaction
  else if l.outstanding < 1 then .error .logWriteOutsideOfTrans
  else if b ∈ l.lh then .ok (l, false)  -- log absorption
  else .ok ({ l with lh := l.lh ++ [b] }, true)

theorem beginOp_some {l l' : Log} (h : l.beginOp = some l') :
    l.committing = false ∧ (l.n : Int) + (l.outstanding + 1) * MAXOPBLOCKS ≤ LOGBLOCKS ∧
      l' = { l with outstanding := l.outstanding + 1 } := by
  unfold beginOp at h
  split at h
  · cases h
  · rename_i hc
    split at h
    · cases h
    · rename_i hn
      injection h with h
      exact ⟨by simpa using hc, by omega, h.symm⟩

theorem endOp_ok {l l' : Log} {c : Bool} (h : l.endOp = .ok (l', c)) :
    l.committing = false ∧ (c = true ↔ l.outstanding = 1) ∧
      l' = { l with outstanding := l.outstanding - 1, committing := c } := by
  unfold endOp at h
  simp only at h
  split at h
  · cases h
  · rename_i hc
    simp only [Bool.not_eq_true] at hc
    split at h
    · rename_i ho
      injection h with h; injection h with h₁ h₂
      subst h₁ h₂
      exact ⟨hc, by simp; omega, rfl⟩
    · rename_i ho
      injection h with h; injection h with h₁ h₂
      subst h₁ h₂
      refine ⟨hc, by simp; omega, ?_⟩
      rw [← hc]

theorem logWrite_ok {l l' : Log} {b : Nat} {new : Bool} (h : l.logWrite b = .ok (l', new)) :
    l.n < LOGBLOCKS ∧ 1 ≤ l.outstanding ∧ (new = true ↔ b ∉ l.lh) ∧
      l' = { l with lh := if b ∈ l.lh then l.lh else l.lh ++ [b] } := by
  unfold logWrite at h
  split at h
  · cases h
  · split at h
    · cases h
    · refine ⟨by omega, by omega, ?_⟩
      split at h
      · rename_i hb
        injection h with h; injection h with h₁ h₂
        subst h₁ h₂
        simp [hb]
      · rename_i hb
        injection h with h; injection h with h₁ h₂
        subst h₁ h₂
        simp [hb]

/-- `log_write` prints `too big a transaction` exactly when the log is full. -/
theorem logWrite_tooBig {l : Log} {b : Nat} : l.logWrite b = .error .tooBigTransaction ↔ LOGBLOCKS ≤ l.n := by
  unfold logWrite
  constructor
  · intro h
    split at h
    · assumption
    · split at h
      · cases h
      · split at h <;> cases h
  · intro h
    rw [if_pos h]

end Log

end Xv6
