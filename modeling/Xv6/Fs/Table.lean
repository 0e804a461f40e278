import Xv6.Fs.Code
import Xv6.Fs.Own

/-!
# The inodes as the kernel sees them

An inode is in its block on disk (`St.disk`), and while a table entry for it is valid the entry's
copy is the current one (`St.cur`). `TableOk` is the inode table's representation invariant: no two
entries in use are for one inode. `Synced`: the copies in the table are those on disk, but for the
entries of a list.

`cur_unique` characterises `cur`, so that the effect of a change on it is checked on the table and
on the disk apart.
-/

namespace Xv6.Fs

open Function (update update_of_ne update_self)

namespace St

variable (s : St) (b k : Nat) (d : Block) (ip : Inode)

/-- Locking a buffer and releasing it changes nothing. -/
@[simp] theorem unhold_hold : (s.hold b).unhold b = s := by
  simp [hold, unhold]

/-- What is done to a buffer is done whether it is locked or not. -/
theorem unhold_setBlk_hold : ((s.hold b).setBlk b d).unhold b = s.setBlk b d := by
  simp [hold, unhold, setBlk]

theorem unhold_log_setBlk_hold : (((s.hold b).setBlk b d).log b).unhold b = (s.setBlk b d).log b := by
  simp only [hold, unhold, setBlk, log, List.erase_cons_head]
  rfl

/-! ## Inodes -/

variable (sb : Superblock)

/-- Inode `i` on disk. -/
def disk (i : Nat) : Dinode := Dinode.load (s.blk (sb.iblock i)) (i % IPB)

/-- Table entry `k` is in use. -/
def Live : Prop := k < NINODE ∧ 0 < (s.itable k).ref

/-- Inode `i`: the table's copy while it is valid, else the one on disk. -/
def cur (i : Nat) : Dinode :=
  if i < sb.ninodes then
    match s.find i with
    | some k => if (s.itable k).valid then (s.itable k).toDinode else s.disk sb i
    | none => s.disk sb i
  else {}

end St

/-- The representation invariant of the inode table. -/
structure TableOk (sb : Superblock) (s : St) : Prop where
  uniq : ∀ {k k'}, s.Live k → s.Live k' → (s.itable k).inum = (s.itable k').inum → k = k'
  inum_lt : ∀ {k}, s.Live k → (s.itable k).valid = true → (s.itable k).inum < sb.ninodes
  wf : ∀ {k}, s.Live k → (s.itable k).valid = true → (s.itable k).toDinode.Wf

/-- The valid copies in the table are those on disk, but for the entries in `x`. -/
def Synced (sb : Superblock) (s : St) (x : List Nat) : Prop :=
  ∀ k, s.Live k → (s.itable k).valid = true → k ∉ x → (s.itable k).toDinode = s.disk sb (s.itable k).inum

section Find

variable {sb : Superblock} {s : St} {i k : Nat}

theorem find_some (h : s.find i = some k) : s.Live k ∧ (s.itable k).inum = i := by
  have hp := List.find?_some h
  have hm := List.mem_of_find?_eq_some h
  rw [decide_eq_true_eq] at hp
  exact ⟨⟨List.mem_range.mp hm, hp.1⟩, hp.2⟩

theorem find_none (h : s.find i = none) (hk : s.Live k) : (s.itable k).inum ≠ i := by
  intro hi
  have := List.find?_eq_none.mp h k (List.mem_range.mpr hk.1)
  rw [decide_eq_true_eq] at this
  exact this ⟨hk.2, hi⟩

theorem empty_some (h : s.empty = some k) : k < NINODE ∧ (s.itable k).ref = 0 := by
  have hp := List.find?_some h
  rw [decide_eq_true_eq] at hp
  exact ⟨List.mem_range.mp (List.mem_of_find?_eq_some h), hp⟩

theorem find_eq (t : TableOk sb s) (hk : s.Live k) : s.find (s.itable k).inum = some k := by
  cases hf : s.find (s.itable k).inum with
  | none => exact absurd rfl (find_none hf hk)
  | some k' =>
    obtain ⟨hl, hi⟩ := find_some hf
    rw [t.uniq hl hk hi]

end Find

section Cur

variable {sb : Superblock} {s s' : St} {i k : Nat}

theorem cur_of_le (h : sb.ninodes ≤ i) : s.cur sb i = {} := if_neg (Nat.not_lt.mpr h)

theorem cur_of_valid (t : TableOk sb s) (hk : s.Live k) (hv : (s.itable k).valid = true) :
    s.cur sb (s.itable k).inum = (s.itable k).toDinode := by
  rw [St.cur, if_pos (t.inum_lt hk hv), find_eq t hk]
  exact if_pos hv

theorem cur_of_invalid (hi : i < sb.ninodes)
    (h : ∀ k, s.Live k → (s.itable k).inum = i → (s.itable k).valid = false) : s.cur sb i = s.disk sb i := by
  rw [St.cur, if_pos hi]
  cases hf : s.find i with
  | none => rfl
  | some k =>
    obtain ⟨hl, hk⟩ := find_some hf
    have := h k hl hk
    simp [this]

/-- `cur` is the table's valid copies and the disk's other inodes. -/
theorem cur_unique (t : TableOk sb s) {D : Nat → Dinode} (hout : ∀ i, sb.ninodes ≤ i → D i = {})
    (hmem : ∀ k, s.Live k → (s.itable k).valid = true → D (s.itable k).inum = (s.itable k).toDinode)
    (hdisk : ∀ i < sb.ninodes,
      (∀ k, s.Live k → (s.itable k).inum = i → (s.itable k).valid = false) → D i = s.disk sb i) :
    s.cur sb = D := by
  funext i
  rcases Nat.lt_or_ge i sb.ninodes with hi | hi
  · by_cases hv : ∃ k, s.Live k ∧ (s.itable k).inum = i ∧ (s.itable k).valid = true
    · obtain ⟨k, hk, rfl, hv⟩ := hv
      rw [cur_of_valid t hk hv, hmem k hk hv]
    · have hno : ∀ k, s.Live k → (s.itable k).inum = i → (s.itable k).valid = false := by
        intro k hk hki
        by_contra hb
        exact hv ⟨k, hk, hki, by simpa using hb⟩
      rw [cur_of_invalid hi hno, hdisk i hi hno]
  · rw [cur_of_le hi, hout i hi]

theorem cur_congr (hit : s'.itable = s.itable) (hd : ∀ i < sb.ninodes, s'.disk sb i = s.disk sb i) :
    s'.cur sb = s.cur sb := by
  funext i
  have hf : s'.find i = s.find i := by simp [St.find, hit]
  unfold St.cur
  split
  · rename_i hi
    rw [hf, hit, hd i hi]
  · rfl

theorem lt_of_type_ne_zero (h : (s.cur sb i).type ≠ 0) : i < sb.ninodes := by
  by_contra hi
  rw [cur_of_le (Nat.le_of_not_lt hi)] at h
  exact h rfl

/-- With the table synced, the inodes are those on disk. -/
theorem cur_eq_disk (t : TableOk sb s) (hs : Synced sb s []) (hi : i < sb.ninodes) : s.cur sb i = s.disk sb i := by
  by_cases hv : ∃ k, s.Live k ∧ (s.itable k).inum = i ∧ (s.itable k).valid = true
  · obtain ⟨k, hk, rfl, hv⟩ := hv
    rw [cur_of_valid t hk hv]
    exact hs k hk hv List.not_mem_nil
  · refine cur_of_invalid hi fun k hk hki => ?_
    by_contra hb
    exact hv ⟨k, hk, hki, by simpa using hb⟩

/-! ## Changes of the disk -/

theorem TableOk.congr (t : TableOk sb s) (hit : s'.itable = s.itable) : TableOk sb s' := by
  constructor
  · intro k k' hk hk'
    simp only [St.Live, hit] at hk hk' ⊢
    exact t.uniq hk hk'
  · intro k hk
    simp only [St.Live, hit] at hk ⊢
    exact t.inum_lt hk
  · intro k hk
    simp only [St.Live, hit] at hk ⊢
    exact t.wf hk

theorem Synced.congr {x : List Nat} (h : Synced sb s x) (t : TableOk sb s) (hit : s'.itable = s.itable)
    (hd : ∀ i < sb.ninodes, s'.disk sb i = s.disk sb i) : Synced sb s' x := by
  intro k hk hv hx
  simp only [St.Live, hit] at hk hv ⊢
  rw [hd _ (t.inum_lt hk hv)]
  exact h k hk hv hx

theorem disk_setBlk_of_ne {b : Nat} {d : Block} (h : sb.iblock i ≠ b) : (s.setBlk b d).disk sb i = s.disk sb i := by
  rw [St.disk, St.setBlk_blk, update_of_ne h, St.disk]

theorem iblock_mod_inj {i j : Nat} (h : sb.iblock i = sb.iblock j) (hm : i % IPB = j % IPB) : i = j := by
  have hd : i / IPB = j / IPB := Nat.add_right_cancel h
  rw [← Nat.div_add_mod i IPB, ← Nat.div_add_mod j IPB, hd, hm]

/-- A store of one inode. -/
theorem disk_store {i j : Nat} {d : Dinode} (hd : d.Wf) :
    (s.setBlk (sb.iblock i) (Dinode.store (s.blk (sb.iblock i)) (i % IPB) d)).disk sb j =
      if j = i then d else s.disk sb j := by
  by_cases h : sb.iblock j = sb.iblock i
  · rw [St.disk, St.setBlk_blk, h, update_self]
    by_cases hm : j % IPB = i % IPB
    · rw [hm, Dinode.load_store_same _ _ hd, if_pos (iblock_mod_inj h hm)]
    · rw [Dinode.load_store_ne _ _ hm, if_neg fun hj => hm (by rw [hj]), St.disk, h]
  · rw [disk_setBlk_of_ne h, if_neg fun hj => h (by rw [hj])]

/-! ## Changes of a table entry -/

theorem live_setInode {ip : Inode} {j : Nat} (href : 0 < ip.ref ↔ 0 < (s.itable k).ref) :
    (s.setInode k ip).Live j ↔ s.Live j := by
  unfold St.Live
  by_cases h : j = k
  · subst h
    simp [href]
  · simp [h]

section

variable (t : TableOk sb s) (hk : s.Live k) (ip : Inode) (hi : ip.inum = (s.itable k).inum) (href : 0 < ip.ref)
include t hk ip hi href

/-- A valid entry in use gets other contents. -/
theorem TableOk.setInode (hlt : ip.valid = true → ip.inum < sb.ninodes) (hwf : ip.valid = true → ip.toDinode.Wf) :
    TableOk sb (s.setInode k ip) := by
  have hl : ∀ j, (s.setInode k ip).Live j ↔ s.Live j := fun j => live_setInode (by simp [href, hk.2])
  have hnum : ∀ j, ((s.setInode k ip).itable j).inum = (s.itable j).inum := by
    intro j
    by_cases h : j = k
    · subst h; simp [hi]
    · simp [h]
  constructor
  · intro j j' hj hj' he
    rw [hnum, hnum] at he
    exact t.uniq ((hl j).mp hj) ((hl j').mp hj') he
  · intro j hj hv
    by_cases h : j = k
    · subst h
      simp only [St.setInode_itable, update_self] at hv ⊢
      exact hlt hv
    · simp only [St.setInode_itable, update_of_ne h] at hv ⊢
      exact t.inum_lt ((hl j).mp hj) hv
  · intro j hj hv
    by_cases h : j = k
    · subst h
      simp only [St.setInode_itable, update_self] at hv ⊢
      exact hwf hv
    · simp only [St.setInode_itable, update_of_ne h] at hv ⊢
      exact t.wf ((hl j).mp hj) hv

/-- The inode of a valid entry changes with the entry. -/
theorem cur_setInode (hlt : ip.inum < sb.ninodes) (hv : ip.valid = true) (hwf : ip.toDinode.Wf) :
    (s.setInode k ip).cur sb = update (s.cur sb) ip.inum ip.toDinode := by
  have hl : ∀ j, (s.setInode k ip).Live j ↔ s.Live j := fun j => live_setInode (by simp [href, hk.2])
  have t' := t.setInode hk ip hi href (fun _ => hlt) (fun _ => hwf)
  refine cur_unique t' ?_ ?_ ?_
  · intro i hle
    rw [update_of_ne (by omega), cur_of_le hle]
  · intro j hj hvj
    by_cases h : j = k
    · subst h
      simp
    · simp only [St.setInode_itable, update_of_ne h] at hvj ⊢
      have hne : (s.itable j).inum ≠ ip.inum := fun he => h (t.uniq ((hl j).mp hj) hk (he.trans hi))
      rw [update_of_ne hne, cur_of_valid t ((hl j).mp hj) hvj]
  · intro i hlt' hno
    have hne : i ≠ ip.inum := by
      rintro rfl
      have := hno k ((hl k).mpr hk) (by simp)
      simp [hv] at this
    rw [update_of_ne hne]
    refine cur_of_invalid hlt' fun j hj hji => ?_
    have h : j ≠ k := by
      rintro rfl
      exact hne (hji.symm.trans hi.symm)
    have := hno j ((hl j).mpr hj)
    simp only [St.setInode_itable, update_of_ne h] at this
    exact this hji

end

end Cur

end Xv6.Fs
