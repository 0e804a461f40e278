import Xv6.Fs.Dir
import Xv6.Fs.Image

/-!
# Disks from the contents of files

A disk with given files: their types, link counts, sizes and bytes, and the block for each place of
each inode (`Plan`). The inodes, the indirect blocks and the data blocks follow (`Plan.image`), and the
nodes of the disk are the files (`Plan.Owned.node`). `dirBytes` are the bytes of a directory.
-/

namespace Xv6.Fs

open Seq Seq.M

/-- The place of block `x` of a file whose blocks are one after another on the disk, the indirect block
after the direct ones. -/
def slotAt (x : Nat) : Slot :=
  if x < NDIRECT then .direct x else if x = NDIRECT then .indirect else .entry (x - NDIRECT - 1)

/-- The block of a place. -/
def slotIndex : Slot → Nat
  | .direct k => k
  | .indirect => NDIRECT
  | .entry j => NDIRECT + 1 + j

theorem slotAt_slotIndex {σ : Slot} (h : ∀ k, σ = .direct k → k < NDIRECT) : slotAt (slotIndex σ) = σ := by
  cases σ with
  | direct k => exact if_pos (h k rfl)
  | indirect => rfl
  | entry j =>
    show slotAt (NDIRECT + 1 + j) = _
    unfold slotAt
    rw [if_neg (by omega), if_neg (by omega)]
    congr 1
    omega

theorem slotIndex_slotAt (x : Nat) : slotIndex (slotAt x) = x := by
  unfold slotAt
  split
  · rfl
  split
  · rename_i h
    exact h.symm
  · show NDIRECT + 1 + (x - NDIRECT - 1) = x
    omega

/-- The files on a disk and where they are. -/
structure Plan where
  sb : Superblock
  type : Nat → Nat
  nlink : Nat → Nat
  size : Nat → Nat
  /-- Byte `x` of inode `i`. -/
  byte : Nat → Nat → UInt8
  /-- The block for a place of inode `i`. -/
  place : Nat → Slot → Nat
  /-- The inode and the place that have a block. -/
  owner : Nat → Option (Nat × Slot)

namespace Plan

variable (p : Plan)

/-- Inode `i` has the place `σ`. -/
def uses (i : Nat) : Slot → Bool
  | .direct k => decide (k < NDIRECT) && decide (k * BSIZE < p.size i)
  | .indirect => decide (NDIRECT * BSIZE < p.size i)
  | .entry j => decide (j < NINDIRECT) && decide ((NDIRECT + j) * BSIZE < p.size i)

/-- What a place holds, zero for none. -/
def addr (i : Nat) (σ : Slot) : Nat := if p.uses i σ then p.place i σ else 0

/-- The inodes. -/
def inode (i : Nat) : Dinode :=
  if p.type i = 0 then {}
  else { type := p.type i, nlink := p.nlink i, size := p.size i,
         addrs := fun k => if k ≤ NDIRECT then p.addr i (Slot.ofAddr k) else 0 }

/-- The contents of a block. -/
def data (b : Nat) : Block :=
  match p.owner b with
  | none => fun _ => 0
  | some (i, .direct k) => fun o => p.byte i (k * BSIZE + o)
  | some (i, .entry j) => fun o => p.byte i ((NDIRECT + j) * BSIZE + o)
  | some (i, .indirect) => fun o => UInt8.ofNat (p.addr i (.entry (o / 4)) / 256 ^ (o % 4))

/-- The disk. -/
def image : Image := ⟨p.sb, p.inode, p.data, p.owner⟩

/-- The files and their blocks fit together. -/
structure Owned : Prop where
  wf : p.sb.Wf
  type_lt : ∀ i, p.type i < 2 ^ 16
  nlink_lt : ∀ i, p.nlink i < 2 ^ 16
  size_le : ∀ i, p.size i ≤ MAXFILE * BSIZE
  inode_end : ∀ i, p.sb.ninodes ≤ i → p.type i = 0
  data : ∀ b x, p.owner b = some x → p.sb.Data b
  owner : ∀ i σ, p.type i ≠ 0 → p.uses i σ = true → p.owner (p.place i σ) = some (i, σ)
  owned : ∀ b i σ, p.owner b = some (i, σ) → p.type i ≠ 0 ∧ p.uses i σ = true ∧ p.place i σ = b

/-- Each file has a link too. -/
structure Ok : Prop extends p.Owned where
  nlink : ∀ i, p.type i ≠ 0 → p.nlink i ≠ 0

variable {p}

theorem inode_of_ne {i : Nat} (h : p.type i ≠ 0) : p.inode i =
    { type := p.type i, nlink := p.nlink i, size := p.size i,
      addrs := fun k => if k ≤ NDIRECT then p.addr i (Slot.ofAddr k) else 0 } := if_neg h

theorem inode_type (i : Nat) : (p.inode i).type = p.type i := by
  unfold inode
  split
  · rename_i h
    rw [h]
  · rfl

theorem uses_entry {i j : Nat} (h : p.uses i (.entry j) = true) : p.uses i .indirect = true := by
  simp only [uses, Bool.and_eq_true, decide_eq_true_eq] at h ⊢
  refine Nat.lt_of_le_of_lt ?_ h.2
  exact Nat.mul_le_mul_right _ (Nat.le_add_right _ _)

/-! ### Blocks one after another -/

theorem lt_of_uses_direct {i : Nat} {σ : Slot} (h : p.uses i σ = true) : ∀ k, σ = .direct k → k < NDIRECT := by
  rintro k rfl
  simp only [uses, Bool.and_eq_true, decide_eq_true_eq] at h
  exact h.1

theorem size_pos_of_uses {i : Nat} {σ : Slot} (h : p.uses i σ = true) : 0 < p.size i := by
  cases σ <;> simp only [uses, Bool.and_eq_true, decide_eq_true_eq] at h <;> omega

/-- A file that fits into `c` blocks. -/
theorem slotIndex_le {i c : Nat} {σ : Slot} (hc : p.size i ≤ c * BSIZE) (h : p.uses i σ = true) :
    slotIndex σ ≤ c := by
  have key : ∀ {x}, x * BSIZE < p.size i → x < c := fun hx =>
    Nat.lt_of_mul_lt_mul_right (Nat.lt_of_lt_of_le hx hc)
  cases σ <;> simp only [uses, Bool.and_eq_true, decide_eq_true_eq] at h
  · exact Nat.le_of_lt (key h.2)
  · exact Nat.le_of_lt (key h)
  · have := key h.2
    show NDIRECT + 1 + _ ≤ c
    omega

/-- A file that needs `c` blocks, and the indirect block. -/
theorem uses_slotAt {i c x : Nat} (hc : (c - 1) * BSIZE < p.size i) (h1 : NDIRECT < c) (h2 : c ≤ MAXFILE)
    (hx : x ≤ c) : p.uses i (slotAt x) = true := by
  have key : ∀ {y}, y ≤ c - 1 → y * BSIZE < p.size i := fun hy =>
    Nat.lt_of_le_of_lt (Nat.mul_le_mul_right _ hy) hc
  unfold slotAt
  split
  · rename_i hd
    simp only [uses, Bool.and_eq_true, decide_eq_true_eq]
    exact ⟨hd, key (by omega)⟩
  split
  · simp only [uses, decide_eq_true_eq]
    exact key (by omega)
  · simp only [uses, Bool.and_eq_true, decide_eq_true_eq]
    have : MAXFILE = NDIRECT + NINDIRECT := rfl
    exact ⟨by omega, key (by omega)⟩

namespace Owned

variable (h : p.Owned)

include h

variable {i : Nat} {σ : Slot}

theorem data_place (ht : p.type i ≠ 0) (hu : p.uses i σ = true) : p.sb.Data (p.place i σ) :=
  h.data _ _ (h.owner i σ ht hu)

theorem addr_ne_zero (ht : p.type i ≠ 0) : p.addr i σ ≠ 0 ↔ p.uses i σ = true := by
  unfold addr
  split
  · rename_i hu
    exact ⟨fun _ => hu, fun _ => h.wf.data_ne_zero (h.data_place ht hu)⟩
  · rename_i hu
    exact ⟨fun h0 => absurd rfl h0, fun hu' => absurd hu' hu⟩

theorem addr_lt (ht : p.type i ≠ 0) (σ : Slot) : p.addr i σ < U32 := by
  unfold addr
  split
  · rename_i hu
    exact h.wf.data_lt (h.data_place ht hu)
  · decide

/-- The inode and the indirect block hold what was planned. -/
theorem inode_addr (ht : p.type i ≠ 0) (σ : Slot) : (p.inode i).addr p.data σ = p.addr i σ := by
  rw [inode_of_ne ht]
  cases σ with
  | direct k =>
    by_cases hk : k < NDIRECT
    · simp [Dinode.addr, Slot.ofAddr, hk, Nat.le_of_lt hk]
    · have : p.uses i (.direct k) = false := by simp [uses, hk]
      simp [Dinode.addr, hk, addr, this]
  | indirect => simp [Dinode.addr, Slot.ofAddr]
  | entry j =>
    have hind : (if NDIRECT ≤ NDIRECT then p.addr i (Slot.ofAddr NDIRECT) else 0) = p.addr i .indirect := by
      simp [Slot.ofAddr]
    simp only [Dinode.addr, hind]
    by_cases hu : p.uses i .indirect = true
    · have hne := (h.addr_ne_zero ht).mpr hu
      by_cases hj : NINDIRECT ≤ j
      · have : p.uses i (.entry j) = false := by simp [uses, Nat.not_lt.mpr hj]
        rw [if_pos (.inr hj), addr, if_neg (by simp [this])]
      · rw [if_neg (by simp [hne, hj])]
        have hown := h.owner i .indirect ht hu
        have hat : p.addr i .indirect = p.place i .indirect := if_pos hu
        refine Bytes.getU32_of_bytes (h.addr_lt ht _) fun k hk => ?_
        rw [hat, Plan.data, hown]
        show UInt8.ofNat (p.addr i (.entry ((4 * j + k) / 4)) / 256 ^ ((4 * j + k) % 4)) = _
        rw [show (4 * j + k) / 4 = j by omega, show (4 * j + k) % 4 = k by omega]
    · have h0 : p.addr i .indirect = 0 := if_neg hu
      rw [if_pos (.inl h0), addr, if_neg fun he => hu (uses_entry he)]

theorem noHole (ht : p.type i ≠ 0) : (p.inode i).NoHole p.data := by
  intro bn hbn
  have hbn : bn * BSIZE < p.size i := by
    rw [inode_of_ne ht] at hbn
    exact hbn
  rw [Dinode.blockAt, h.inode_addr ht, h.addr_ne_zero ht]
  have hmax := h.size_le i
  have hlt : bn < MAXFILE := Nat.lt_of_mul_lt_mul_right (Nat.lt_of_lt_of_le hbn hmax)
  unfold Slot.of
  split
  · rename_i hd
    simp [uses, hd, hbn]
  · rename_i hd
    have hj : bn - NDIRECT < NINDIRECT := by
      have : MAXFILE = NDIRECT + NINDIRECT := rfl
      omega
    have hb : NDIRECT + (bn - NDIRECT) = bn := by omega
    simp [uses, hj, hb, hbn]

theorem inode_wf (i : Nat) : (p.inode i).Wf := by
  by_cases ht : p.type i = 0
  · rw [inode, if_pos ht, ← Dinode.load_zero 0]
    exact Dinode.load_wf _ _
  · rw [inode_of_ne ht]
    refine ⟨h.type_lt i, Nat.two_pow_pos 16, Nat.two_pow_pos 16, h.nlink_lt i, ?_, fun k => ?_, fun k hk => ?_⟩
    · exact Nat.lt_of_le_of_lt (h.size_le i) (by decide)
    · show (if k ≤ NDIRECT then p.addr i (Slot.ofAddr k) else 0) < U32
      split
      · exact h.addr_lt ht _
      · decide
    · exact if_neg (by omega)

theorem image_owned : p.image.Owned where
  wf := h.wf
  inode_wf := h.inode_wf
  inode_end i hi := if_pos (h.inode_end i hi)
  data := h.data
  owner i σ ht h0 := by
    have ht : p.type i ≠ 0 := by
      rw [← inode_type i]
      exact ht
    show p.owner ((p.inode i).addr p.data σ) = some (i, σ)
    have h0 : (p.inode i).addr p.data σ ≠ 0 := h0
    rw [h.inode_addr ht, h.addr_ne_zero ht] at h0
    rw [h.inode_addr ht, addr, if_pos h0]
    exact h.owner i σ ht h0
  owned b i σ hb := by
    obtain ⟨ht, hu, hpl⟩ := h.owned b i σ hb
    refine ⟨?_, ?_⟩
    · show (p.inode i).type ≠ 0
      rw [inode_type]
      exact ht
    · show (p.inode i).addr p.data σ = b
      rw [h.inode_addr ht, addr, if_pos hu, hpl]
  noHole i ht := h.noHole (by rw [← inode_type i]; exact ht)

/-- The node is the file. -/
theorem node (ht : p.type i ≠ 0) : p.image.st.node p.sb i =
    some ⟨p.type i, 0, 0, p.nlink i, Bytes.slice (p.byte i) 0 (p.size i)⟩ := by
  have hbyte : ∀ x < p.size i, (p.inode i).byteAt p.data x = p.byte i x := by
    intro x hx
    have hbn : x / BSIZE * BSIZE < p.size i := Nat.lt_of_le_of_lt (Nat.div_mul_le_self x BSIZE) hx
    have hu : p.uses i (Slot.of (x / BSIZE)) = true := by
      have hne := h.noHole ht (x / BSIZE) (by rw [inode_of_ne ht]; exact hbn)
      rwa [Dinode.blockAt, h.inode_addr ht, h.addr_ne_zero ht] at hne
    have hown := h.owner i _ ht hu
    have hdm := Nat.div_add_mod' x BSIZE
    unfold Dinode.byteAt Dinode.blockAt
    rw [h.inode_addr ht, addr, if_pos hu, Plan.data, hown]
    unfold Slot.of
    split
    · show p.byte i (x / BSIZE * BSIZE + x % BSIZE) = _
      rw [hdm]
    · rename_i hd
      show p.byte i ((NDIRECT + (x / BSIZE - NDIRECT)) * BSIZE + x % BSIZE) = _
      rw [Nat.add_sub_cancel' (Nat.le_of_not_lt hd), hdm]
  have hsl : Bytes.slice ((p.inode i).byteAt p.data) 0 (p.size i) = Bytes.slice (p.byte i) 0 (p.size i) :=
    Bytes.slice_congr fun x hx => by
      rw [Nat.zero_add]
      exact hbyte x hx
  refine (h.image_owned.node i).trans ?_
  show (p.inode i).node p.data = _
  rw [Dinode.node, inode_type, if_neg ht]
  rw [inode_of_ne ht] at hsl ⊢
  rw [← hsl]

theorem node_free (ht : p.type i = 0) : p.image.st.node p.sb i = none := by
  refine (h.image_owned.node i).trans ?_
  show (p.inode i).node p.data = none
  rw [Dinode.node, inode_type, if_pos ht]

end Owned

theorem Ok.image_ok (h : p.Ok) : p.image.Ok := by
  refine ⟨h.image_owned, fun i ht => ?_⟩
  have ht : p.type i ≠ 0 := by
    rw [← inode_type i]
    exact ht
  show (p.inode i).nlink ≠ 0
  rw [inode_of_ne ht]
  exact h.nlink i ht

end Plan

/-! ## Directories -/

/-- Byte `x` of a directory with the entries `e`. -/
def dirBytes (e : Nat → Nat × List UInt8) (x : Nat) : UInt8 :=
  (dirent (e (x / direntSize)).1 fun i => (e (x / direntSize)).2.getD i 0).getD (x % direntSize) 0

/-- The bytes of an entry. -/
theorem dirSlot_dirBytes (e : Nat → Nat × List UInt8) {m j : Nat} (hj : j < m) :
    dirSlot (Bytes.slice (dirBytes e) 0 (m * direntSize)) j = dirent (e j).1 fun i => (e j).2.getD i 0 := by
  have hlen : ∀ x y, (dirent x y).length = direntSize := length_dirent
  have hle : j * direntSize + direntSize ≤ m * direntSize := by
    rw [← Nat.succ_mul]
    exact Nat.mul_le_mul_right _ hj
  refine List.ext_getElem ?_ fun i h1 h2 => ?_
  · rw [hlen, dirSlot, List.length_take, List.length_drop, Bytes.length_slice]
    omega
  · rw [hlen] at h2
    simp only [dirSlot, List.getElem_take, List.getElem_drop, Bytes.getElem_slice, Nat.zero_add, dirBytes]
    have hd : (j * direntSize + i) / direntSize = j := by
      rw [Nat.add_comm, Nat.add_mul_div_right _ _ direntSize_pos, Nat.div_eq_of_lt h2, Nat.zero_add]
    have hmod : (j * direntSize + i) % direntSize = i := by
      rw [Nat.add_comm, Nat.add_mul_mod_self_right, Nat.mod_eq_of_lt h2]
    rw [hd, hmod, List.getD_eq_getElem?_getD, List.getElem?_eq_getElem (by rw [hlen]; exact h2)]
    rfl

theorem length_dirBytes (e : Nat → Nat × List UInt8) (m : Nat) :
    (Bytes.slice (dirBytes e) 0 (m * direntSize)).length / direntSize = m := by
  rw [Bytes.length_slice]
  exact Nat.mul_div_cancel m direntSize_pos

/-- The slots of a directory with `m` entries. -/
theorem dirSlots_dirBytes (e : Nat → Nat × List UInt8) (m : Nat) :
    dirSlots (Bytes.slice (dirBytes e) 0 (m * direntSize)) =
      (List.range m).map fun j => dirEntry (dirent (e j).1 fun i => (e j).2.getD i 0) := by
  rw [dirSlots, length_dirBytes]
  refine List.map_congr_left fun j hj => ?_
  rw [dirSlot_dirBytes e (List.mem_range.mp hj)]

theorem dirOk_dirBytes {e : Nat → Nat × List UInt8} {n : Nat} (hn : n ≤ 65536) (h : ∀ j, (e j).1 < n)
    (m : Nat) : DirOk n (Bytes.slice (dirBytes e) 0 (m * direntSize)) := by
  refine ⟨?_, fun j hj => ?_⟩
  · rw [Bytes.length_slice]
    exact Nat.dvd_mul_left _ _
  · rw [length_dirBytes] at hj
    rw [dirSlot_dirBytes e hj, direntInum_dirent _ _ (Nat.lt_of_lt_of_le (h j) hn)]
    exact h j

end Xv6.Fs
