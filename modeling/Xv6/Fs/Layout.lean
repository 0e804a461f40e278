import Xv6.Bio.Cache
import Xv6.Lib.Bytes

/-!
# The on-disk format of the file system

The constants and structures of `kernel/fs.h` that `kernel/fs.c` and `mkfs/mkfs.c` share: where the
superblock puts the inodes and the free bit map, an inode in its block (`Dinode.load`,
`Dinode.store`), and where an inode keeps the numbers of its blocks (`Slot`, `Dinode.addr`).

A `short`, a `ushort` or a `uint` is the natural number that its bits spell.
-/

namespace Xv6.Fs

/-- The block numbers that an inode holds itself. -/
def NDIRECT : Nat := 12

/-- The block numbers in an indirect block: `BSIZE / sizeof(uint)`. -/
def NINDIRECT : Nat := BSIZE / 4

/-- The longest file, in blocks. -/
def MAXFILE : Nat := NDIRECT + NINDIRECT

/-- Inodes per block: `BSIZE / sizeof(struct dinode)`. -/
def IPB : Nat := BSIZE / 64

/-- Bitmap bits per block. -/
def BPB : Nat := BSIZE * 8

/-- The longest name in a directory. -/
def DIRSIZ : Nat := 14

/-- `sizeof(struct dirent)`. -/
def direntSize : Nat := 2 + DIRSIZ

/-- The root directory's inode number. -/
def ROOTINO : Nat := 1

def T_DIR : Nat := 1
def T_FILE : Nat := 2
def T_DEVICE : Nat := 3

/-- The number of values of a `uint`. -/
abbrev U32 : Nat := 2 ^ 32

/-! ## The superblock -/

/-- `struct superblock`, the fields that the modelled code reads. -/
structure Superblock where
  /-- Size of the file system image, in blocks. -/
  size : Nat
  /-- Number of data blocks. -/
  nblocks : Nat
  ninodes : Nat
  /-- Block number of the first inode block. -/
  inodestart : Nat
  /-- Block number of the first free map block. -/
  bmapstart : Nat
  deriving DecidableEq, Repr

namespace Superblock

variable (sb : Superblock)

/-- `IBLOCK(i, sb)`. -/
def iblock (i : Nat) : Nat := i / IPB + sb.inodestart

/-- `BBLOCK(b, sb)`. -/
def bblock (b : Nat) : Nat := b / BPB + sb.bmapstart

/-- The first data block: the blocks before it hold the boot block, the superblock, the log, the
inodes and the bitmap. -/
def nmeta : Nat := sb.size - sb.nblocks

/-- The number of bitmap blocks that the code reads. -/
def nbitmap : Nat := (sb.size + BPB - 1) / BPB

/-- A block of the data area. -/
def Data (b : Nat) : Prop := sb.nmeta ≤ b ∧ b < sb.size

/-- The areas are in the order that `kernel/fs.h` draws, each long enough: the inode blocks are
before the bitmap, the bitmap is before the data. -/
structure Wf : Prop where
  inodestart_pos : 1 < sb.inodestart
  inodestart_le : sb.inodestart ≤ sb.bmapstart
  inodes : sb.ninodes ≤ IPB * (sb.bmapstart - sb.inodestart)
  bmapstart_lt : sb.bmapstart < sb.nmeta
  bits : sb.size ≤ BPB * (sb.nmeta - sb.bmapstart)
  nblocks_le : sb.nblocks ≤ sb.size
  size_lt : sb.size < U32

theorem bmapstart_le_bblock (b : Nat) : sb.bmapstart ≤ sb.bblock b := Nat.le_add_left _ _

theorem div_lt_nbitmap {b : Nat} (hb : b < sb.size) : b / BPB < sb.nbitmap := by
  have hpos : 0 < BPB := by decide
  refine (Nat.div_lt_iff_lt_mul hpos).mpr ?_
  have := Nat.div_add_mod' (sb.size + BPB - 1) BPB
  have := Nat.mod_lt (sb.size + BPB - 1) hpos
  unfold nbitmap
  omega

end Superblock

namespace Superblock.Wf

variable {sb : Superblock} (w : sb.Wf) {i b c : Nat}

include w

theorem iblock_lt (hi : i < sb.ninodes) : sb.iblock i < sb.bmapstart := by
  have h1 := w.inodes
  have h2 := w.inodestart_le
  have h3 : i / IPB < sb.bmapstart - sb.inodestart :=
    Nat.div_lt_of_lt_mul (by omega)
  unfold Superblock.iblock
  omega

theorem bblock_lt (hb : b < sb.size) : sb.bblock b < sb.nmeta := by
  have h1 := w.bits
  have h2 := w.bmapstart_lt
  have h3 : b / BPB < sb.nmeta - sb.bmapstart :=
    Nat.div_lt_of_lt_mul (by omega)
  unfold Superblock.bblock
  omega

theorem nmeta_pos : 0 < sb.nmeta := Nat.lt_of_le_of_lt (Nat.zero_le _) w.bmapstart_lt

theorem iblock_ne_bblock (hi : i < sb.ninodes) : sb.iblock i ≠ sb.bblock b :=
  Nat.ne_of_lt (Nat.lt_of_lt_of_le (w.iblock_lt hi) (sb.bmapstart_le_bblock b))

theorem data_ne_zero (h : sb.Data b) : b ≠ 0 :=
  Nat.ne_of_gt (Nat.lt_of_lt_of_le w.nmeta_pos h.1)

theorem data_lt (h : sb.Data b) : b < U32 := Nat.lt_trans h.2 w.size_lt

theorem data_ne_bblock (h : sb.Data b) (hc : c < sb.size) : b ≠ sb.bblock c :=
  Nat.ne_of_gt (Nat.lt_of_lt_of_le (w.bblock_lt hc) h.1)

theorem data_ne_iblock (h : sb.Data b) (hi : i < sb.ninodes) : b ≠ sb.iblock i :=
  Nat.ne_of_gt (Nat.lt_of_lt_of_le (Nat.lt_trans (w.iblock_lt hi) w.bmapstart_lt) h.1)

end Superblock.Wf

/-! ## Inodes on disk -/

/-- `struct dinode`. -/
@[ext]
structure Dinode where
  type : Nat := 0
  major : Nat := 0
  minor : Nat := 0
  nlink : Nat := 0
  size : Nat := 0
  /-- `addrs[NDIRECT+1]`; zero past its end. -/
  addrs : Nat → Nat := fun _ => 0

namespace Dinode

/-- The fields fit in their types. -/
structure Wf (d : Dinode) : Prop where
  type_lt : d.type < 2 ^ 16
  major_lt : d.major < 2 ^ 16
  minor_lt : d.minor < 2 ^ 16
  nlink_lt : d.nlink < 2 ^ 16
  size_lt : d.size < U32
  addrs_lt : ∀ i, d.addrs i < U32
  addrs_end : ∀ i, NDIRECT < i → d.addrs i = 0

/-- The inode at `(struct dinode*)b + k`. -/
def load (b : Block) (k : Nat) : Dinode where
  type := Bytes.getU16 b (32 * k)
  major := Bytes.getU16 b (32 * k + 1)
  minor := Bytes.getU16 b (32 * k + 2)
  nlink := Bytes.getU16 b (32 * k + 3)
  size := Bytes.getU32 b (16 * k + 2)
  addrs := fun i => if i ≤ NDIRECT then Bytes.getU32 b (16 * k + 3 + i) else 0

/-- Byte `o` of an inode. -/
def byte (d : Dinode) (o : Nat) : UInt8 :=
  if o < 2 then UInt8.ofNat (d.type / 256 ^ o)
  else if o < 4 then UInt8.ofNat (d.major / 256 ^ (o - 2))
  else if o < 6 then UInt8.ofNat (d.minor / 256 ^ (o - 4))
  else if o < 8 then UInt8.ofNat (d.nlink / 256 ^ (o - 6))
  else if o < 12 then UInt8.ofNat (d.size / 256 ^ (o - 8))
  else UInt8.ofNat (d.addrs (o / 4 - 3) / 256 ^ (o % 4))

/-- `*((struct dinode*)b + k) = d`. -/
def store (b : Block) (k : Nat) (d : Dinode) : Block := fun o =>
  if o / 64 = k then d.byte (o % 64) else b o

theorem load_wf (b : Block) (k : Nat) : (load b k).Wf where
  type_lt := Bytes.getU16_lt _ _
  major_lt := Bytes.getU16_lt _ _
  minor_lt := Bytes.getU16_lt _ _
  nlink_lt := Bytes.getU16_lt _ _
  size_lt := Bytes.getU32_lt _ _
  addrs_lt := fun i => by
    show (if i ≤ NDIRECT then _ else _) < _
    split
    · exact Bytes.getU32_lt _ _
    · decide
  addrs_end := fun i hi => if_neg (by omega)

theorem store_inside (b : Block) (k : Nat) (d : Dinode) {o : Nat} (ho : o < 64) :
    store b k d (64 * k + o) = d.byte o := by
  have h1 : (64 * k + o) / 64 = k := by omega
  have h2 : (64 * k + o) % 64 = o := by omega
  rw [store, if_pos h1, h2]

/-- An inode is read back as it was stored. -/
theorem load_store_same (b : Block) (k : Nat) {d : Dinode} (h : d.Wf) : load (store b k d) k = d := by
  have u16 : ∀ (j v : Nat), v < 2 ^ 16 → j < 4 →
      (∀ t < 2, d.byte (2 * j + t) = UInt8.ofNat (v / 256 ^ t)) →
      Bytes.getU16 (store b k d) (32 * k + j) = v := by
    intro j v hv hj hb
    refine Bytes.getU16_of_bytes hv fun t ht => ?_
    rw [← hb t ht, ← store_inside b k d (show 2 * j + t < 64 by omega)]
    congr 1
    omega
  have u32 : ∀ (j v : Nat), v < 2 ^ 32 → j < 16 →
      (∀ t < 4, d.byte (4 * j + t) = UInt8.ofNat (v / 256 ^ t)) →
      Bytes.getU32 (store b k d) (16 * k + j) = v := by
    intro j v hv hj hb
    refine Bytes.getU32_of_bytes hv fun t ht => ?_
    rw [← hb t ht, ← store_inside b k d (show 4 * j + t < 64 by omega)]
    congr 1
    omega
  ext1
  · exact u16 0 _ h.type_lt (by omega) fun t ht => by interval_cases t <;> rfl
  · exact u16 1 _ h.major_lt (by omega) fun t ht => by interval_cases t <;> rfl
  · exact u16 2 _ h.minor_lt (by omega) fun t ht => by interval_cases t <;> rfl
  · exact u16 3 _ h.nlink_lt (by omega) fun t ht => by interval_cases t <;> rfl
  · exact u32 2 _ h.size_lt (by omega) fun t ht => by interval_cases t <;> rfl
  · funext i
    show (if i ≤ NDIRECT then _ else _) = _
    split
    · rename_i hi
      have hi' : i ≤ 12 := hi
      rw [Nat.add_assoc]
      refine u32 (3 + i) _ (h.addrs_lt i) (by omega) fun t ht => ?_
      have h3 : (4 * (3 + i) + t) / 4 - 3 = i := by omega
      have h4 : (4 * (3 + i) + t) % 4 = t := by omega
      simp only [byte, h3, h4]
      iterate 5 rw [if_neg (by omega)]
    · exact (h.addrs_end i (by omega)).symm

/-- The other inodes of the block stay. -/
theorem load_store_ne (b : Block) {k j : Nat} (d : Dinode) (h : j ≠ k) : load (store b k d) j = load b j := by
  have key : ∀ o, o < 64 → store b k d (64 * j + o) = b (64 * j + o) := by
    intro o ho
    exact if_neg (by omega)
  have u16 : ∀ t < 4, Bytes.getU16 (store b k d) (32 * j + t) = Bytes.getU16 b (32 * j + t) := by
    intro t ht
    refine Bytes.getU16_congr fun u hu => ?_
    rw [show 2 * (32 * j + t) + u = 64 * j + (2 * t + u) by omega]
    exact key _ (by omega)
  have u32 : ∀ t < 16, Bytes.getU32 (store b k d) (16 * j + t) = Bytes.getU32 b (16 * j + t) := by
    intro t ht
    refine Bytes.getU32_congr fun u hu => ?_
    rw [show 4 * (16 * j + t) + u = 64 * j + (4 * t + u) by omega]
    exact key _ (by omega)
  ext1
  · exact u16 0 (by omega)
  · exact u16 1 (by omega)
  · exact u16 2 (by omega)
  · exact u16 3 (by omega)
  · exact u32 2 (by omega)
  · funext i
    show (if i ≤ NDIRECT then _ else _) = (if i ≤ NDIRECT then _ else _)
    split
    · rename_i hi
      have hi' : i ≤ 12 := hi
      rw [Nat.add_assoc]
      exact u32 (3 + i) (by omega)
    · rfl

/-- A block of zeros holds free inodes. -/
theorem load_zero (k : Nat) : load (fun _ => 0) k = {} := by
  simp [load, Bytes.getU16, Bytes.getU32_zero]

end Dinode

/-! ## The blocks of an inode -/

/-- The places where an inode keeps a block number. -/
inductive Slot where
  /-- `addrs[k]`. -/
  | direct (k : Nat)
  /-- `addrs[NDIRECT]`. -/
  | indirect
  /-- Entry `j` of the indirect block. -/
  | entry (j : Nat)
  deriving DecidableEq, Repr

/-- The place `addrs[i]`. -/
def Slot.ofAddr (i : Nat) : Slot := if i < NDIRECT then .direct i else .indirect

/-- The place of the `bn`-th block of a file's contents. -/
def Slot.of (bn : Nat) : Slot := if bn < NDIRECT then .direct bn else .entry (bn - NDIRECT)

theorem Slot.of_inj {bn bn' : Nat} (h : Slot.of bn = Slot.of bn') : bn = bn' := by
  unfold Slot.of at h
  split at h <;> split at h
  · injection h
  · cases h
  · cases h
  · injection h with h
    omega

theorem Slot.ofAddr_eq_of {i bn : Nat} (h : Slot.ofAddr i = .of bn) : bn < NDIRECT ∧ i = bn := by
  unfold Slot.ofAddr Slot.of at h
  grind

theorem Slot.ofAddr_eq_indirect {i : Nat} (hi : i ≤ NDIRECT) (h : Slot.ofAddr i = .indirect) : i = NDIRECT := by
  unfold Slot.ofAddr at h
  grind

theorem Slot.entry_eq_of {j bn : Nat} (h : Slot.entry j = .of bn) : ¬ bn < NDIRECT ∧ j = bn - NDIRECT := by
  unfold Slot.of at h
  grind

theorem Slot.of_ne_indirect (bn : Nat) : Slot.of bn ≠ .indirect := by
  unfold Slot.of
  split <;> exact nofun

namespace Dinode

variable (blk : Nat → Block) (d : Dinode)

/-- The block number in a place, zero for none; the entries are read from the indirect block. -/
def addr : Slot → Nat
  | .direct k => if k < NDIRECT then d.addrs k else 0
  | .indirect => d.addrs NDIRECT
  | .entry j =>
    if d.addrs NDIRECT = 0 ∨ NINDIRECT ≤ j then 0 else Bytes.getU32 (blk (d.addrs NDIRECT)) j

/-- The block that holds the `bn`-th block of the contents, zero for none. -/
def blockAt (bn : Nat) : Nat := d.addr blk (Slot.of bn)

/-- Byte `x` of the contents. -/
def byteAt (x : Nat) : UInt8 := blk (d.blockAt blk (x / BSIZE)) (x % BSIZE)

/-- Every block below the size is there. -/
def NoHole : Prop := ∀ bn, bn * BSIZE < d.size → d.blockAt blk bn ≠ 0

end Dinode

/-! ## Directory entries -/

/-- `struct dirent`: `inum`. -/
def direntInum (l : List UInt8) : Nat := (l.getD 0 0).toNat + 256 * (l.getD 1 0).toNat

/-- `struct dirent`: the bytes of `name`. -/
def direntName (l : List UInt8) : Nat → UInt8 := fun i => if i < DIRSIZ then l.getD (2 + i) 0 else 0

/-- The bytes of a `struct dirent`. -/
def dirent (inum : Nat) (name : Nat → UInt8) : List UInt8 :=
  UInt8.ofNat inum :: UInt8.ofNat (inum / 256) :: (List.range DIRSIZ).map name

end Xv6.Fs
