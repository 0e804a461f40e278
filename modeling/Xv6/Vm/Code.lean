import Xv6.Lib.Wp
import Xv6.Panic
import Xv6.Vm.Riscv

/-!
# The page allocator and the page tables

`kernel/kalloc.c` and `kernel/vm.c`, as programs on the physical memory (`Kmem`). The memory is
the 512 words of each page; page tables are words in it. `kmem.freelist` is a list of pages.

`kalloc` fails when the list is empty, and in any call that the oracle `fails` picks, so a statement
for every oracle covers a failure at any call.

A pointer that may be null is an `Option`; `0` and `-1` as results that mean success and failure
are `true` and `false`.
-/

namespace Xv6

open Seq

/-- Where the linker put the kernel: `end`, and the page `trampoline`. -/
class Layout where
  kend : Nat
  trampoline : Nat
  kend_ge : KERNBASE ≤ kend
  trampoline_lt : trampoline < kend
  trampoline_aligned : trampoline % PGSIZE = 0

theorem kernbase_aligned : KERNBASE % PGSIZE = 0 := by decide

/-- A machine with eight pages. -/
@[reducible] def smallLayout : Layout where
  kend := PHYSTOP - 8 * PGSIZE
  trampoline := KERNBASE
  kend_ge := by decide
  trampoline_lt := by decide
  trampoline_aligned := kernbase_aligned

/-- The physical memory and `kmem`. -/
structure Kmem where
  /-- The 64-bit words of each page, by the page's address and the word's index. -/
  mem : Nat → Nat → Nat
  freelist : List Nat
  /-- The calls of `kalloc` that fail whatever the free list has. -/
  fails : Nat → Bool
  /-- The number of calls of `kalloc`. -/
  calls : Nat

/-- A program on the memory. -/
abbrev KM := M Kmem Panic

namespace Kmem

/-- Page `pa` with the words `w`. -/
def setPage (k : Kmem) (pa : Nat) (w : Nat → Nat) : Kmem :=
  { k with mem := Function.update k.mem pa w }

/-- Word `i` of page `pa` is `v`. -/
def setWord (k : Kmem) (pa i v : Nat) : Kmem :=
  k.setPage pa (Function.update (k.mem pa) i v)

/-- Byte `off` of page `pa`. -/
def byte (k : Kmem) (pa off : Nat) : UInt8 := UInt8.ofNat (k.mem pa (off / 8) / 256 ^ (off % 8))

/-- Byte `off` of page `pa` is `v`. -/
def setByte (k : Kmem) (pa off : Nat) (v : UInt8) : Kmem :=
  let w := k.mem pa (off / 8)
  let p := 256 ^ (off % 8)
  k.setWord pa (off / 8) (w / (p * 256) * (p * 256) + v.toNat * p + w % p)

/-- The bytes of a list, from byte `off` of page `pa`. -/
def setBytes (k : Kmem) (pa off : Nat) : List UInt8 → Kmem
  | [] => k
  | v :: vs => (k.setByte pa off v).setBytes pa (off + 1) vs

end Kmem

/-- `memset(pa, c, PGSIZE)`, for a byte `c` that fills each word with `w`. -/
def memset (pa w : Nat) : KM Unit := M.modify (·.setPage pa fun _ => w)

/-- `pagetable[i]`, read. -/
def load (pa i : Nat) : KM Nat := M.gets fun k => k.mem pa i

/-- `pagetable[i]`, written. -/
def store (pa i v : Nat) : KM Unit := M.modify (·.setWord pa i v)

section

variable [K : Layout]

/-! ## `kalloc.c` -/

/-- `kfree`. -/
def kfree (pa : Nat) : KM Unit := do
  if pa % PGSIZE ≠ 0 ∨ pa < K.kend ∨ pa ≥ PHYSTOP then M.stop .kfree
  else do
    memset pa 0x0101010101010101  -- fill with junk to catch dangling refs
    M.modify fun k => { k with freelist := pa :: k.freelist }

/-- `kalloc`. -/
def kalloc : KM (Option Nat) := fun k =>
  let k' := { k with calls := k.calls + 1 }
  if k.fails k.calls then .ok (none, k')
  else
    match k.freelist with
    | [] => .ok (none, k')
    | r :: l => .ok (some r, { k' with freelist := l }.setPage r fun _ => 0x0505050505050505)

/-! ## `vm.c` -/

/-- One turn of the loop of `walk`: the table of the next level. -/
def walkLevel (pagetable va : Nat) (alloc : Bool) (level : Nat) : KM (Option Nat) := do
  let pte ← load pagetable (px level va)
  if pteV pte then pure (some (pte2pa pte))
  else if alloc then do
    match ← kalloc with
    | none => pure none
    | some pt => do
      memset pt 0
      store pagetable (px level va) (mkPte pt 0)
      pure (some pt)
  else pure none

/-- `walk`: the page and the index of the entry. -/
def walk (pagetable va : Nat) (alloc : Bool) : KM (Option (Nat × Nat)) := do
  if va ≥ MAXVA then M.stop .walk
  else do
    match ← walkLevel pagetable va alloc 2 with
    | none => pure none
    | some pt => do
      match ← walkLevel pt va alloc 1 with
      | none => pure none
      | some pt => pure (some (pt, px 0 va))

/-- `walkaddr`. -/
def walkaddr (pagetable va : Nat) : KM (Option Nat) := do
  if va ≥ MAXVA then pure none
  else do
    match ← walk pagetable va false with
    | none => pure none
    | some (pt, i) => do
      let pte ← load pt i
      if pteV pte = false then pure none
      else if pteU pte = false then pure none
      else pure (some (pte2pa pte))

/-- One turn of the loop of `mappages`. -/
def mapPage (pagetable a pa perm : Nat) : KM Bool := do
  match ← walk pagetable a true with
  | none => pure false
  | some (pt, i) => do
    let pte ← load pt i
    if pteV pte then M.stop .mappagesRemap
    else do
      store pt i (mkPte pa perm)
      pure true

/-- The loop of `mappages`, with `n` turns after this one. -/
def mapLoop (pagetable perm : Nat) : Nat → Nat → Nat → KM Bool
  | 0, a, pa => mapPage pagetable a pa perm
  | n + 1, a, pa => do
    if ← mapPage pagetable a pa perm then mapLoop pagetable perm n (a + PGSIZE) (pa + PGSIZE)
    else pure false

/-- `mappages`. -/
def mappages (pagetable va size pa perm : Nat) : KM Bool := do
  if va % PGSIZE ≠ 0 then M.stop .mappagesVaNotAligned
  else if size % PGSIZE ≠ 0 then M.stop .mappagesSizeNotAligned
  else if size = 0 then M.stop .mappagesSize
  else mapLoop pagetable perm (size / PGSIZE - 1) va pa

/-- `uvmcreate`. -/
def uvmcreate : KM (Option Nat) := do
  match ← kalloc with
  | none => pure none
  | some pagetable => do
    memset pagetable 0
    pure (some pagetable)

/-- One turn of the loop of `uvmunmap`. -/
def unmapPage (pagetable : Nat) (doFree : Bool) (a : Nat) : KM Unit := do
  match ← walk pagetable a false with
  | none => pure ()  -- no leaf page table
  | some (pt, i) => do
    let pte ← load pt i
    if pteV pte = false then pure ()
    else do
      if doFree then kfree (pte2pa pte) else pure ()
      store pt i 0

/-- The loop of `uvmunmap`: `n` turns from `a`. -/
def unmapLoop (pagetable : Nat) (doFree : Bool) : Nat → Nat → KM Unit
  | 0, _ => pure ()
  | n + 1, a => do
    unmapPage pagetable doFree a
    unmapLoop pagetable doFree n (a + PGSIZE)

/-- `uvmunmap`. -/
def uvmunmap (pagetable va npages : Nat) (doFree : Bool) : KM Unit := do
  if va % PGSIZE ≠ 0 then M.stop .uvmunmapNotAligned
  else
    -- a < va + npages * PGSIZE, with a 64-bit sum
    unmapLoop pagetable doFree (((va + npages * PGSIZE) % U64 - va + (PGSIZE - 1)) / PGSIZE) va

/-- An unsigned value as an `int`, passed as a `uint64`. -/
def intToU64 (n : Nat) : Nat := ((n : Int).bmod (2 ^ 32) % U64).toNat

/-- `uvmdealloc`. -/
def uvmdealloc (pagetable oldsz newsz : Nat) : KM Nat := do
  if newsz ≥ oldsz then pure oldsz
  else do
    if pgRoundUp newsz < pgRoundUp oldsz then
      uvmunmap pagetable (pgRoundUp newsz)
        (intToU64 ((pgRoundUp oldsz - pgRoundUp newsz) / PGSIZE)) true
    else pure ()
    pure newsz

/-- The loop of `uvmalloc`: `n` turns from `a`; `oldsz` is rounded up. -/
def allocLoop (pagetable oldsz newsz xperm : Nat) : Nat → Nat → KM Nat
  | 0, _ => pure newsz
  | n + 1, a => do
    match ← kalloc with
    | none => do
      let _ ← uvmdealloc pagetable a oldsz
      pure 0
    | some mem => do
      memset mem 0
      if ← mappages pagetable a PGSIZE mem (PTE_R + PTE_U + xperm) then
        allocLoop pagetable oldsz newsz xperm n (a + PGSIZE)
      else do
        kfree mem
        let _ ← uvmdealloc pagetable a oldsz
        pure 0

/-- `uvmalloc`. -/
def uvmalloc (pagetable oldsz newsz xperm : Nat) : KM Nat :=
  if newsz < oldsz then pure oldsz
  else
    let a := pgRoundUp oldsz
    allocLoop pagetable a newsz xperm ((newsz - a + (PGSIZE - 1)) / PGSIZE) a

/-- The entries from index `i` of `freewalk`'s loop, `n` of them; `child` frees a lower table. -/
def freeEntries (pagetable : Nat) (child : Nat → KM Unit) : Nat → Nat → KM Unit
  | 0, _ => pure ()
  | n + 1, i => do
    let pte ← load pagetable i
    if pteV pte && !pteRWX pte then do
      -- this PTE points to a lower-level page table
      child (pte2pa pte)
      store pagetable i 0
    else if pteV pte then M.stop .freewalkLeaf
    else pure ()
    freeEntries pagetable child n (i + 1)

/-- `freewalk` of a table with `level` levels. -/
def freewalk : Nat → Nat → KM Unit
  | 0, _ => M.stop .freewalkDepth
  | level + 1, pagetable => do
    freeEntries pagetable (freewalk level) 512 0
    kfree pagetable

/-- `uvmfree`. -/
def uvmfree (pagetable sz : Nat) : KM Unit := do
  if sz > 0 then uvmunmap pagetable 0 (pgRoundUp sz / PGSIZE) true else pure ()
  freewalk 3 pagetable

/-- The loop of `uvmcopy`: `n` turns from `i`. -/
def copyLoop (old new : Nat) : Nat → Nat → KM Bool
  | 0, _ => pure true
  | n + 1, i => do
    match ← walk old i false with
    | none => copyLoop old new n (i + PGSIZE)  -- page table entry hasn't been allocated
    | some (pt, x) => do
      let pte ← load pt x
      if pteV pte = false then
        copyLoop old new n (i + PGSIZE)  -- physical page hasn't been allocated
      else do
        match ← kalloc with
        | none => do
          uvmunmap new 0 (i / PGSIZE) true
          pure false
        | some mem => do
          M.modify fun k => k.setPage mem (k.mem (pte2pa pte))
          if ← mappages new i PGSIZE mem (pteFlags pte) then copyLoop old new n (i + PGSIZE)
          else do
            kfree mem
            uvmunmap new 0 (i / PGSIZE) true
            pure false

/-- `uvmcopy`. -/
def uvmcopy (old new sz : Nat) : KM Bool := copyLoop old new ((sz + (PGSIZE - 1)) / PGSIZE) 0

/-- `uvmclear`. -/
@[irreducible] def uvmclear (pagetable va : Nat) : KM Unit := do
  match ← walk pagetable va false with
  | none => M.stop .uvmclear
  | some (pt, i) => do
    let pte ← load pt i
    store pt i (pteClearU pte)

/-- `ismapped`. -/
def ismapped (pagetable va : Nat) : KM Bool := do
  match ← walk pagetable va false with
  | none => pure false
  | some (pt, i) => do
    let pte ← load pt i
    pure (pteV pte)

/-- `vmfault`, for a process with the size `sz` and the page table `procPt`. -/
def vmfault (sz procPt pagetable va : Nat) : KM (Option Nat) := do
  if va ≥ sz then pure none
  else do
    let va := pgRoundDown va
    if ← ismapped pagetable va then pure none
    else do
      match ← kalloc with
      | none => pure none
      | some mem => do
        memset mem 0
        if ← mappages procPt va PGSIZE mem (PTE_W + PTE_U + PTE_R) then pure (some mem)
        else do
          kfree mem
          pure none

/-! ## Copies between the kernel and user memory

`sz` and `procPt` are `p->sz` and `p->pagetable` of the current process. The loops have as much
fuel as there are bytes to copy; each turn copies at least one. -/

/-- The page of an address for a copy: `walkaddr`, or else `vmfault`. -/
def userPage (sz procPt pagetable va0 : Nat) : KM (Option Nat) := do
  match ← walkaddr pagetable va0 with
  | some pa0 => pure (some pa0)
  | none => vmfault sz procPt pagetable va0

/-- The loop of `copyout`. -/
def copyoutLoop (sz procPt pagetable : Nat) : Nat → Nat → List UInt8 → KM Bool
  | 0, _, _ => pure true
  | fuel + 1, dstva, src => do
    if src.length = 0 then pure true
    else do
      let va0 := pgRoundDown dstva
      if va0 ≥ MAXVA then pure false
      else do
        match ← userPage sz procPt pagetable va0 with
        | none => pure false
        | some pa0 => do
          match ← walk pagetable va0 false with
          | none => M.stop .nullPointer
          | some (pt, i) => do
            let pte ← load pt i
            -- forbid copyout over read-only user text pages
            if pteW pte = false then pure false
            else do
              let n := min (PGSIZE - (dstva - va0)) src.length
              M.modify fun k => k.setBytes pa0 (dstva - va0) (src.take n)
              copyoutLoop sz procPt pagetable fuel (va0 + PGSIZE) (src.drop n)

/-- `copyout`. -/
def copyout (sz procPt pagetable dstva : Nat) (src : List UInt8) : KM Bool :=
  copyoutLoop sz procPt pagetable src.length dstva src

/-- The bytes of a page from `off`, `n` of them. -/
def Kmem.bytes (k : Kmem) (pa off n : Nat) : List UInt8 := (List.range n).map fun i => k.byte pa (off + i)

/-- The loop of `copyin`; it answers whether it succeeded, and the bytes stored at `dst`. -/
def copyinToLoop (sz procPt pagetable : Nat) : Nat → Nat → Nat → List UInt8 → KM (Bool × List UInt8)
  | 0, _, _, acc => pure (true, acc)
  | fuel + 1, srcva, len, acc => do
    if len = 0 then pure (true, acc)
    else do
      let va0 := pgRoundDown srcva
      match ← userPage sz procPt pagetable va0 with
      | none => pure (false, acc)
      | some pa0 => do
        let n := min (PGSIZE - (srcva - va0)) len
        let bs ← M.gets fun k => k.bytes pa0 (srcva - va0) n
        copyinToLoop sz procPt pagetable fuel ((va0 + PGSIZE) % U64) (len - n) (acc ++ bs)

/-- `copyin`, with the bytes stored at `dst`. -/
def copyinTo (sz procPt pagetable srcva len : Nat) : KM (Bool × List UInt8) :=
  copyinToLoop sz procPt pagetable len srcva len []

/-- `copyin` for a caller that wants the bytes: `none` for `-1`. -/
def copyin (sz procPt pagetable srcva len : Nat) : KM (Option (List UInt8)) := do
  let (ok, bs) ← copyinTo sz procPt pagetable srcva len
  pure (if ok then some bs else none)

/-- The inner loop of `copyinstr`: `got_null`, and the bytes stored at `dst`. -/
def copyStr : List UInt8 → Bool × List UInt8
  | [] => (false, [])
  | c :: cs => if c = 0 then (true, [0]) else ((copyStr cs).1, c :: (copyStr cs).2)

/-- The loop of `copyinstr`; it answers whether it succeeded, and the bytes stored at `dst`. -/
def copyinstrToLoop (pagetable : Nat) : Nat → Nat → Nat → List UInt8 → KM (Bool × List UInt8)
  | 0, _, _, acc => pure (false, acc)
  | fuel + 1, srcva, max, acc => do
    if max = 0 then pure (false, acc)
    else do
      let va0 := pgRoundDown srcva
      match ← walkaddr pagetable va0 with
      | none => pure (false, acc)
      | some pa0 => do
        let n := min (PGSIZE - (srcva - va0)) max
        let bs ← M.gets fun k => k.bytes pa0 (srcva - va0) n
        if (copyStr bs).1 then pure (true, acc ++ (copyStr bs).2)
        else copyinstrToLoop pagetable fuel ((va0 + PGSIZE) % U64) (max - n) (acc ++ (copyStr bs).2)

/-- `copyinstr`, with the bytes stored at `dst`. -/
def copyinstrTo (pagetable srcva max : Nat) : KM (Bool × List UInt8) :=
  copyinstrToLoop pagetable max srcva max []

/-- `copyinstr` for a caller that wants the string: the bytes before the NUL, or `none` for `-1`. -/
def copyinstr (pagetable srcva max : Nat) : KM (Option (List UInt8)) := do
  let (ok, bs) ← copyinstrTo pagetable srcva max
  pure (if ok then some bs.dropLast else none)

end

end Xv6
