import Xv6.Conc.Prog
import Xv6.Param
import Xv6.Panic

/-!
# The buffer cache

`struct buf` and `bcache` of `kernel/bio.c`, with one function for each section of code that runs
with `bcache.lock` held. The list through `prev` and `next` is the list `lru` of the buffers'
indices, `head.next` first.

The fields `users`, `pins` and `wrote` of a buffer are history variables: the code does not read
them. `refcnt` counts the users and the pins together.
-/

namespace Xv6

open Conc

/-- The contents of a disk block: the bytes below `BSIZE`. -/
abbrev Block := Nat → UInt8

/-- `struct buf`. -/
structure Buf where
  /-- Has data been read from disk? -/
  valid : Bool := false
  dev : Nat := 0
  blockno : Nat := 0
  refcnt : Nat := 0
  /-- The sleep lock: the thread that holds it. -/
  owner : Option Tid := none
  data : Block := fun _ => 0
  /-- The threads that got the buffer from `bget` and have not passed it to `brelse`. -/
  users : List Tid := []
  /-- The calls of `bpin` less those of `bunpin`. -/
  pins : Nat := 0
  /-- The thread that holds the lock passed the buffer to `log_write`. -/
  wrote : Bool := false

/-- `bcache`. -/
structure Bcache where
  buf : Nat → Buf
  /-- The buffers, most recently used first. -/
  lru : List Nat

namespace Bcache

/-- Buffer `i` changed by `f`. -/
def upd (c : Bcache) (i : Nat) (f : Buf → Buf) : Bcache :=
  { c with buf := Function.update c.buf i (f (c.buf i)) }

/-- `binit`: each buffer is put in front of the ones before it. -/
def binit : Bcache := { buf := fun _ => {}, lru := (List.range NBUF).reverse }

/-- Buffer `i` caches block `blockno` of device `dev`. -/
def caches (c : Bcache) (dev blockno i : Nat) : Bool :=
  (c.buf i).dev == dev && (c.buf i).blockno == blockno

/-- The section of `bget`, for thread `t`: the buffer that caches the block, or else the least
recently used one that nobody refers to. -/
def bget (c : Bcache) (t : Tid) (dev blockno : Nat) : Except Panic (Nat × Bcache) :=
  match c.lru.find? (c.caches dev blockno) with
  | some i =>
    .ok (i, c.upd i fun b => { b with refcnt := b.refcnt + 1, users := t :: b.users })
  | none =>
    match c.lru.reverse.find? fun i => (c.buf i).refcnt == 0 with
    | some i =>
      .ok (i, c.upd i fun b =>
        { b with dev, blockno, valid := false, refcnt := 1, users := t :: b.users })
    | none => .error .bgetNoBuffers

/-- The section of `brelse`, for thread `t`. -/
def brelse (c : Bcache) (t : Tid) (i : Nat) : Bcache :=
  let c' := c.upd i fun b => { b with refcnt := b.refcnt - 1, users := b.users.erase t }
  if (c'.buf i).refcnt = 0 then { c' with lru := i :: c'.lru.erase i } else c'

/-- `bpin`. -/
def bpin (c : Bcache) (i : Nat) : Bcache :=
  c.upd i fun b => { b with refcnt := b.refcnt + 1, pins := b.pins + 1 }

/-- `bunpin`. -/
def bunpin (c : Bcache) (i : Nat) : Bcache :=
  c.upd i fun b => { b with refcnt := b.refcnt - 1, pins := b.pins - 1 }

@[simp] theorem upd_same (c : Bcache) (i : Nat) (f : Buf → Buf) : (c.upd i f).buf i = f (c.buf i) := by
  simp [upd]

theorem upd_ne (c : Bcache) {i j : Nat} (f : Buf → Buf) (h : j ≠ i) : (c.upd i f).buf j = c.buf j := by
  simp [upd, h]

theorem upd_buf (c : Bcache) (i j : Nat) (f : Buf → Buf) :
    (c.upd i f).buf j = if j = i then f (c.buf i) else c.buf j := by
  by_cases h : j = i
  · subst h; simp
  · simp [upd_ne, h]

/-- What `bget` does: it takes a reference to a buffer that caches the block, or it recycles a
buffer without references, and then no buffer cached the block. -/
theorem bget_ok {c c' : Bcache} {t : Tid} {dev b i : Nat} (h : c.bget t dev b = .ok (i, c')) :
    (i ∈ c.lru ∧ (c.buf i).dev = dev ∧ (c.buf i).blockno = b ∧
      c' = c.upd i fun b => { b with refcnt := b.refcnt + 1, users := t :: b.users }) ∨
    (i ∈ c.lru ∧ (c.buf i).refcnt = 0 ∧
      (∀ j ∈ c.lru, ¬ ((c.buf j).dev = dev ∧ (c.buf j).blockno = b)) ∧
      c' = c.upd i fun x =>
        { x with dev, blockno := b, valid := false, refcnt := 1, users := t :: x.users }) := by
  unfold bget at h
  cases hf : c.lru.find? (c.caches dev b) with
  | some j =>
    rw [hf] at h
    injection h with h; injection h with h₁ h₂
    subst h₁
    have hm := List.mem_of_find?_eq_some hf
    have hp := List.find?_some hf
    simp only [caches, Bool.and_eq_true, beq_iff_eq] at hp
    exact .inl ⟨hm, hp.1, hp.2, h₂.symm⟩
  | none =>
    rw [hf] at h
    simp only at h
    cases hr : c.lru.reverse.find? (fun i => (c.buf i).refcnt == 0) with
    | none => rw [hr] at h; cases h
    | some j =>
      rw [hr] at h
      injection h with h; injection h with h₁ h₂
      subst h₁
      have hm := List.mem_of_find?_eq_some hr
      have hp := List.find?_some hr
      simp only [beq_iff_eq] at hp
      refine .inr ⟨List.mem_reverse.mp hm, hp, fun k hk hkey => ?_, h₂.symm⟩
      have := List.find?_eq_none.mp hf k hk
      simp [caches, hkey.1, hkey.2] at this

/-- `brelse` keeps the buffers in the list. -/
theorem brelse_lru_perm {c : Bcache} {t : Tid} {i : Nat} (hi : i ∈ c.lru) : (c.brelse t i).lru.Perm c.lru := by
  unfold brelse
  simp only
  split
  · exact (List.perm_cons_erase hi).symm
  · exact List.Perm.refl _

@[simp] theorem brelse_buf (c : Bcache) (t : Tid) (i : Nat) : (c.brelse t i).buf =
    (c.upd i fun b => { b with refcnt := b.refcnt - 1, users := b.users.erase t }).buf := by
  unfold brelse
  simp only
  split <;> rfl

end Bcache

end Xv6
