import Xv6.Fs.Node

/-!
# Disks

A consistent disk is given by its inodes, by the contents of the data blocks and by the place that
each used data block has (`Image`). The inode blocks and the bitmap follow from these (`Image.blk`).
`Image.Ok.fsOk`: a kernel that has no inode in its table finds on such a disk what `FsOk` asks for,
and the nodes are those of the description (`Image.Owned.node`).
-/

namespace Xv6.Fs

open Seq Seq.M

/-- What is on a disk. -/
structure Image where
  sb : Superblock
  inode : Nat → Dinode
  /-- The contents of the data blocks. -/
  data : Nat → Block
  /-- The inode and the place in it that name a data block. -/
  owner : Nat → Option (Nat × Slot)

namespace Image

variable (m : Image)

/-- The bitmap marks block `b`. -/
def marks (b : Nat) : Bool := decide (b < m.sb.nmeta) || (m.owner b).isSome

/-- The bytes of a bitmap block, the first of which has the bit of block `b`. -/
def bitmap (b : Nat) : Block := fun o =>
  UInt8.ofNat (Nat.ofBits fun t : Fin 8 => m.marks (b + (8 * o + t)))

/-- The bytes of an inode block, the first of which is for inode `i`. -/
def inodes (i : Nat) : Block := fun o => (m.inode (i + o / 64)).byte (o % 64)

/-- The contents of each block. -/
def blk (b : Nat) : Block :=
  if b < m.sb.inodestart then fun _ => 0
  else if b < m.sb.bmapstart then m.inodes ((b - m.sb.inodestart) * IPB)
  else if b < m.sb.nmeta then m.bitmap ((b - m.sb.bmapstart) * BPB)
  else m.data b

/-- The state of a kernel that has just started with the disk. -/
def st : St := { blk := m.blk }

/-- The description fits together. -/
structure Owned : Prop where
  wf : m.sb.Wf
  inode_wf : ∀ i, (m.inode i).Wf
  inode_end : ∀ i, m.sb.ninodes ≤ i → m.inode i = {}
  data : ∀ b x, m.owner b = some x → m.sb.Data b
  owner : ∀ i σ, (m.inode i).type ≠ 0 → (m.inode i).addr m.data σ ≠ 0 →
    m.owner ((m.inode i).addr m.data σ) = some (i, σ)
  owned : ∀ b i σ, m.owner b = some (i, σ) → (m.inode i).type ≠ 0 ∧ (m.inode i).addr m.data σ = b
  noHole : ∀ i, (m.inode i).type ≠ 0 → (m.inode i).NoHole m.data

/-- There is no orphan either. -/
structure Ok : Prop extends m.Owned where
  nlink : ∀ i, (m.inode i).type ≠ 0 → (m.inode i).nlink ≠ 0

end Image

namespace Image.Owned

variable {m : Image} (h : m.Owned)

include h

theorem blk_data {b : Nat} (hb : m.sb.nmeta ≤ b) : m.blk b = m.data b := by
  have h1 := h.wf.inodestart_le
  have h2 := h.wf.bmapstart_lt
  rw [blk, if_neg (by omega), if_neg (by omega), if_neg (by omega)]

theorem load_blk {i : Nat} (hi : i < m.sb.ninodes) : Dinode.load (m.blk (m.sb.iblock i)) (i % IPB) = m.inode i := by
  have hb : m.blk (m.sb.iblock i) = m.inodes (i / IPB * IPB) := by
    have h1 := h.wf.iblock_lt hi
    have h2 : m.sb.inodestart ≤ m.sb.iblock i := Nat.le_add_left _ _
    rw [blk, if_neg (Nat.not_lt.mpr h2), if_pos h1, Superblock.iblock, Nat.add_sub_cancel]
  have hstore : m.inodes (i / IPB * IPB) =
      Dinode.store (m.inodes (i / IPB * IPB)) (i % IPB) (m.inode i) := by
    funext o
    rw [Dinode.store]
    split
    · rename_i ho
      rw [inodes, ho, Nat.mul_comm, Nat.div_add_mod]
    · rfl
  rw [hb, hstore]
  exact Dinode.load_store_same _ _ (h.inode_wf i)

theorem bitAt_blk {b : Nat} (hb : b < m.sb.size) : bitAt m.sb m.blk b = m.marks b := by
  have h1 := h.wf.bblock_lt hb
  have h2 := h.wf.inodestart_le
  have hblk : m.blk (m.sb.bblock b) = m.bitmap (b / BPB * BPB) := by
    have h3 := m.sb.bmapstart_le_bblock b
    rw [blk, if_neg (by omega), if_neg (by omega), if_pos h1, Superblock.bblock, Nat.add_sub_cancel]
  have hlt : b % BPB % 8 < 8 := Nat.mod_lt _ (by decide)
  rw [bitAt, hblk, Bytes.bit_eq, bitmap, UInt8.toBitVec_ofNat', BitVec.getLsbD_ofNat,
    Nat.testBit_ofBits_lt _ _ hlt]
  simp only [hlt, decide_true, Bool.true_and]
  congr 1
  have h4 := Nat.div_add_mod b BPB
  have h5 := Nat.div_add_mod (b % BPB) 8
  have h6 := Nat.mul_comm BPB (b / BPB)
  omega

theorem cur : m.st.cur m.sb = m.inode := by
  have hno : ∀ k, ¬ m.st.Live k := fun k hk => Nat.lt_irrefl 0 hk.2
  refine cur_unique ⟨fun hk => absurd hk (hno _), fun hk => absurd hk (hno _), fun hk => absurd hk (hno _)⟩
    h.inode_end (fun k hk => absurd hk (hno k)) fun i hi _ => ?_
  exact (h.load_blk hi).symm

theorem addr_blk {i : Nat} (ht : (m.inode i).type ≠ 0) (σ : Slot) :
    (m.inode i).addr m.blk σ = (m.inode i).addr m.data σ := by
  refine Dinode.addr_congr (fun h0 => h.blk_data ?_) σ
  exact (h.data _ _ (h.owner i .indirect ht h0)).1

theorem ref_iff {i b : Nat} {σ : Slot} : Ref m.blk m.inode i σ b ↔ m.owner b = some (i, σ) := by
  constructor
  · rintro ⟨ht, rfl, h0⟩
    rw [h.addr_blk ht] at h0 ⊢
    exact h.owner i σ ht h0
  · intro ho
    obtain ⟨ht, ha⟩ := h.owned b i σ ho
    exact ⟨ht, (h.addr_blk ht σ).trans ha, h.wf.data_ne_zero (h.data b _ ho)⟩

theorem own : Own m.sb m.blk m.inode [] := by
  refine ⟨fun hr => h.data _ _ (h.ref_iff.mp hr), fun hr hr' => ?_, nofun, nofun, List.nodup_nil,
    fun b hb => ?_⟩
  · have he := (h.ref_iff.mp hr).symm.trans (h.ref_iff.mp hr')
    injection he with he
    injection he with hi hσ
    exact ⟨hi, hσ⟩
  · rw [h.bitAt_blk hb, marks, Bool.or_eq_true, decide_eq_true_eq, Option.isSome_iff_exists]
    simp only [h.ref_iff, List.not_mem_nil, false_or]
    refine or_congr_right ⟨?_, ?_⟩
    · rintro ⟨⟨i, σ⟩, ho⟩
      exact ⟨i, σ, ho⟩
    · rintro ⟨i, σ, ho⟩
      exact ⟨_, ho⟩

/-- The bytes of a file. -/
theorem byteAt_blk {i x : Nat} (ht : (m.inode i).type ≠ 0) (hx : x < (m.inode i).size) :
    (m.inode i).byteAt m.blk x = (m.inode i).byteAt m.data x := by
  have h0 : (m.inode i).blockAt m.data (x / BSIZE) ≠ 0 :=
    h.noHole i ht _ (Nat.lt_of_le_of_lt (Nat.div_mul_le_self x BSIZE) hx)
  unfold Dinode.byteAt
  rw [Dinode.blockAt, h.addr_blk ht]
  rw [h.blk_data (h.data _ _ (h.owner i _ ht h0)).1]
  rfl

theorem node (i : Nat) : m.st.node m.sb i = (m.inode i).node m.data := by
  unfold St.node
  rw [h.cur, Dinode.node, Dinode.node]
  split
  · rfl
  · rename_i ht
    have hsl : Bytes.slice ((m.inode i).byteAt m.st.blk) 0 (m.inode i).size =
        Bytes.slice ((m.inode i).byteAt m.data) 0 (m.inode i).size :=
      Bytes.slice_congr fun x hx => by
        rw [Nat.zero_add]
        exact h.byteAt_blk ht hx
    rw [hsl]

end Image.Owned

namespace Image.Ok

variable {m : Image} (h : m.Ok)

include h

/-- A kernel finds the disk consistent. -/
theorem fsOk : FsOk m.sb [] m.st := by
  have hno : ∀ k, ¬ m.st.Live k := fun k hk => Nat.lt_irrefl 0 hk.2
  refine ⟨⟨⟨⟨⟨?_, ?_, ?_⟩, ?_⟩, ?_, ?_, rfl⟩, ?_, nofun⟩, ⟨nofun, fun k _ => rfl⟩, fun i nd hnd h0 => ?_⟩
  · exact fun hk => absurd hk (hno _)
  · exact fun hk => absurd hk (hno _)
  · exact fun hk => absurd hk (hno _)
  · rw [h.cur]
    exact h.own
  · exact fun k hk => absurd hk (hno k)
  · exact fun hk => absurd hk (hno _)
  · intro i ht bn hlt
    rw [h.cur] at ht hlt ⊢
    rw [Dinode.blockAt]
    show (m.inode i).addr m.blk _ ≠ 0
    rw [h.addr_blk ht]
    exact h.noHole i ht bn hlt
  · obtain ⟨ht, rfl⟩ := node_eq_some.mp hnd
    rw [h.cur] at ht h0
    exact absurd h0 (h.nlink i ht)

/-- The first inode that a process locks, in a transaction. -/
theorem opened {i : Nat} (ht : (m.inode i).type ≠ 0) {s : St} {k : Nat}
    (hrun : (do beginOp; let k ← iget i; ilock m.sb k; pure k : FM Nat) m.st = .ok (k, s)) :
    FsOk m.sb [k] s ∧ Loaded s k ∧ s.outstanding = 1 ∧ s.lh = [] ∧ (s.itable k).inum = i ∧
      s.node m.sb = m.st.node m.sb := by
  have hi : i < m.sb.ninodes := by
    by_contra hno
    exact ht (by rw [h.inode_end i (Nat.le_of_not_lt hno)])
  have hspec : wp (fun _ => True) (do beginOp; let k ← iget i; ilock m.sb k; pure k : FM Nat) m.st
      fun k s => FsOk m.sb [k] s ∧ Loaded s k ∧ s.outstanding = 1 ∧ s.lh = [] ∧ (s.itable k).inum = i ∧
        s.node m.sb = m.st.node m.sb := by
    refine wp.bind (beginOp_spec h.fsOk.good) ?_
    rintro _ s₁ ⟨l₁, hout, hlh⟩
    refine wp.bind (iget_ok (h.fsOk.logOnly l₁) (fun _ => trivial) i) ?_
    rintro k s₂ ⟨h₂, q₂, hnum, -⟩
    refine wp.bind (ilock_ok h₂ List.mem_cons_self (by rw [hnum]; exact hi) (fun _ => trivial)
      fun _ => trivial) ?_
    rintro _ s₃ ⟨h₃, q₃, lo, -⟩
    refine ⟨h₃, lo, ?_, ?_, ?_, ?_⟩
    · rw [q₃.outstanding, q₂.outstanding, hout]
      rfl
    · rw [q₃.calm.lh, q₂.calm.lh, hlh]
      rfl
    · rw [q₃.inum k List.mem_cons_self, hnum]
    · rw [q₃.node, q₂.node, l₁.node]
  exact hspec.ok hrun

end Image.Ok

/-! ## A small disk with a root directory -/

/-- An inode with one block. -/
def Dinode.one (type nlink size b : Nat) : Dinode where
  type := type
  nlink := nlink
  size := size
  addrs := fun i => if i = 0 then b else 0

theorem Dinode.one_wf {type nlink size b : Nat} (h1 : type < 2 ^ 16) (h2 : nlink < 2 ^ 16)
    (h3 : size < U32) (h4 : b < U32) : (Dinode.one type nlink size b).Wf := by
  refine ⟨h1, Nat.two_pow_pos 16, Nat.two_pow_pos 16, h2, h3, fun i => ?_, fun i hi => ?_⟩
  · show (if i = 0 then b else 0) < U32
    split
    · exact h4
    · decide
  · exact if_neg (by omega)

theorem Dinode.one_addr (type nlink size b : Nat) (blk : Nat → Block) (σ : Slot) :
    (Dinode.one type nlink size b).addr blk σ = if σ = .direct 0 then b else 0 := by
  cases σ with
  | direct k =>
    by_cases hk : k = 0
    · subst hk
      rfl
    · simp [Dinode.addr, Dinode.one, hk]
  | indirect => rfl
  | entry j => rfl

theorem Dinode.one_noHole {type nlink size b : Nat} (blk : Nat → Block) (hs : size ≤ BSIZE) (hb : b ≠ 0) :
    (Dinode.one type nlink size b).NoHole blk := by
  intro bn hbn
  have h0 : bn = 0 := by
    have hlt : bn * BSIZE < size := hbn
    simp only [BSIZE] at hs hlt
    omega
  subst h0
  rw [Dinode.blockAt, Dinode.one_addr]
  exact hb

/-- A block that starts with some directory entries. -/
def dirBlock (es : List (Nat × List UInt8)) : Block := fun o =>
  (es.flatMap fun e => dirent e.1 fun i => e.2.getD i 0).getD o 0

/-- The names `.` and `..`. -/
def dot : List UInt8 := [46]
def dotdot : List UInt8 := [46, 46]

/-- A disk with the file `f` and the empty directory `d` in its root directory. -/
def sample : Image where
  sb := { size := 32, nblocks := 28, ninodes := 16, inodestart := 2, bmapstart := 3 }
  inode i :=
    if i = 1 then .one T_DIR 2 64 4
    else if i = 2 then .one T_FILE 1 5 5
    else if i = 3 then .one T_DIR 1 32 6
    else {}
  data b :=
    if b = 4 then dirBlock [(1, dot), (1, dotdot), (2, [102]), (3, [100])]
    else if b = 5 then fun o => [104, 101, 108, 108, 111].getD o 0
    else if b = 6 then dirBlock [(3, dot), (1, dotdot)]
    else fun _ => 0
  owner b := if 4 ≤ b ∧ b < 7 then some (b - 3, .direct 0) else none

/-- The inodes that are in use. -/
theorem sample_inode {i : Nat} (h : (sample.inode i).type ≠ 0) :
    ∃ t n z, t < 2 ^ 16 ∧ n ≠ 0 ∧ n < 2 ^ 16 ∧ z ≤ BSIZE ∧ 1 ≤ i ∧ i < 4 ∧
      sample.inode i = .one t n z (i + 3) := by
  by_cases h1 : i = 1
  · exact ⟨T_DIR, 2, 64, by decide, by decide, by decide, by decide, by omega, by omega, by subst h1; rfl⟩
  by_cases h2 : i = 2
  · exact ⟨T_FILE, 1, 5, by decide, by decide, by decide, by decide, by omega, by omega, by subst h2; rfl⟩
  by_cases h3 : i = 3
  · exact ⟨T_DIR, 1, 32, by decide, by decide, by decide, by decide, by omega, by omega, by subst h3; rfl⟩
  · simp [sample, h1, h2, h3] at h

theorem sample_ok : sample.Ok where
  wf := by constructor <;> decide
  inode_wf i := by
    by_cases h : (sample.inode i).type = 0
    · have he : sample.inode i = {} := by
        simp only [sample] at h ⊢
        split
        · rename_i h1
          simp [h1, Dinode.one, T_DIR] at h
        split
        · rename_i h2
          simp [h2, Dinode.one, T_FILE] at h
        split
        · rename_i h3
          simp [h3, Dinode.one, T_DIR] at h
        · rfl
      rw [he, ← Dinode.load_zero 0]
      exact Dinode.load_wf _ _
    · obtain ⟨t, n, z, h1, -, h2, h3, -, h4, he⟩ := sample_inode h
      rw [he]
      exact Dinode.one_wf h1 h2 (Nat.lt_of_le_of_lt h3 (by decide)) (Nat.lt_trans (by omega : i + 3 < 7)
        (by decide))
  inode_end i hi := by
    have hi : 16 ≤ i := hi
    simp only [sample]
    rw [if_neg (by omega), if_neg (by omega), if_neg (by omega)]
  nlink i h := by
    obtain ⟨t, n, z, -, hn, -, -, -, -, he⟩ := sample_inode h
    rw [he]
    exact hn
  data b x h := by
    simp only [sample] at h
    split at h
    · rename_i hb
      exact ⟨hb.1, Nat.lt_trans hb.2 (by decide)⟩
    · cases h
  owner i σ h h0 := by
    obtain ⟨t, n, z, -, -, -, -, h1, h2, he⟩ := sample_inode h
    rw [he, Dinode.one_addr] at h0 ⊢
    split at h0
    · rename_i hσ
      rw [if_pos hσ]
      show (if 4 ≤ i + 3 ∧ i + 3 < 7 then some (i + 3 - 3, Slot.direct 0) else none) = _
      rw [if_pos (by omega), hσ, Nat.add_sub_cancel]
    · exact absurd rfl h0
  owned b i σ h := by
    simp only [sample] at h
    split at h
    · rename_i hb
      injection h with h
      injection h with hi hσ
      subst hi hσ
      obtain ⟨hb1, hb2⟩ := hb
      interval_cases b <;> exact ⟨by decide, rfl⟩
    · cases h
  noHole i h := by
    obtain ⟨t, n, z, -, -, -, hz, -, -, he⟩ := sample_inode h
    rw [he]
    exact Dinode.one_noHole _ hz (by omega)

/-- The root directory of the small disk. -/
def sampleRoot : Node where
  type := T_DIR
  nlink := 2
  data := [(1, dot), (1, dotdot), (2, [102]), (3, [100])].flatMap fun e => dirent e.1 fun i => e.2.getD i 0

/-- The file `f`. -/
def sampleFile : Node where
  type := T_FILE
  nlink := 1
  data := [104, 101, 108, 108, 111]

/-- The directory `d`. -/
def sampleDir : Node where
  type := T_DIR
  nlink := 1
  data := [(3, dot), (1, dotdot)].flatMap fun e => dirent e.1 fun i => e.2.getD i 0

theorem sample_node (i : Nat) : sample.st.node sample.sb i =
    if i = 1 then some sampleRoot else if i = 2 then some sampleFile else if i = 3 then some sampleDir else none := by
  rw [sample_ok.node]
  split
  · rename_i h
    subst h
    decide +kernel
  split
  · rename_i h
    subst h
    decide +kernel
  split
  · rename_i h
    subst h
    decide +kernel
  · rename_i h1 h2 h3
    simp [sample, h1, h2, h3, Dinode.node]

end Xv6.Fs
