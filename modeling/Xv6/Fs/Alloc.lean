import Xv6.Fs.Table

/-!
# Buffers, the log and the block allocator

The rules for `bread`, `brelse` and `log_write`, and what `balloc`, `bfree` and `iupdate` do: each
leaves the state of a function of the state (`St.alloc`, `St.free`, `St.iupdate`).

A call of `log_write` inside a transaction can stop only because the log is full. The rules take
that as a hypothesis about the errors that `E` allows. `Credit s₀ m c s` counts the blocks that a
transaction has logged since `s₀`: with `m` of them in all, and `c` still to come, the log is full
only if it was so for `m` more blocks at the start.
-/

namespace Xv6.Fs

open Seq Seq.M

variable {sb : Superblock} {E : Panic → Prop} {s : St} {b k : Nat}

/-! ## Rules -/

theorem wp_bread {Q : Block → St → Prop} (h : b ∉ s.held) (hq : Q (s.blk b) (s.hold b)) : wp E (bread b) s Q := by
  refine wp_bind.mpr (wp_gets.mpr ?_)
  rw [if_neg h]
  exact hq

variable {Q : Unit → St → Prop} {d : Block} {bi : Nat}

theorem wp_brelse : wp E (brelse b) s Q ↔ Q () (s.unhold b) := Iff.rfl

theorem wp_setData :
    wp E (setData b d) s Q ↔ Q () (s.setBlk b d) := Iff.rfl

theorem wp_getInode {Q : Inode → St → Prop} : wp E (getInode k) s Q ↔ Q (s.itable k) s := Iff.rfl

theorem wp_setInode {ip : Inode} :
    wp E (setInode k ip) s Q ↔ Q () (s.setInode k ip) := Iff.rfl

theorem wp_logWrite (hfull : LOGBLOCKS ≤ s.lh.length → E .tooBigTransaction)
    (hout : 1 ≤ s.outstanding) (hq : Q () (s.log b)) : wp E (logWrite b) s Q := by
  refine wp_bind.mpr (wp_gets.mpr ?_)
  refine wp_ite.mpr ⟨fun h => hfull h, fun _ => wp_ite.mpr ⟨fun h => ?_, fun _ => hq⟩⟩
  have h : s.outstanding < 1 := h
  omega

theorem St.mem_log (s : St) (b : Nat) : b ∈ (s.log b).lh := by
  unfold St.log
  split
  · assumption
  · exact List.mem_cons_self

theorem St.lh_subset_log (s : St) (b : Nat) : s.lh ⊆ (s.log b).lh := by
  unfold St.log
  split
  · exact List.Subset.refl _
  · exact List.subset_cons_self _ _

/-- The end of each change of a block: store, log, release. -/
theorem wp_writeBack (hfull : LOGBLOCKS ≤ s.lh.length → E .tooBigTransaction) (hout : 1 ≤ s.outstanding)
    (hq : Q () ((s.setBlk b d).log b)) :
    wp E (setData b d >>= fun _ => logWrite b >>= fun _ => brelse b) (s.hold b) Q := by
  refine wp_bind.mpr (wp_setData.mpr (wp_bind.mpr ?_))
  refine wp_logWrite hfull hout (wp_brelse.mpr ?_)
  rwa [St.unhold_log_setBlk_hold]

/-- What a transaction may log: blocks that satisfy `A`, so that the list of logged blocks keeps `P`.
A list that keeps `P` fills the log only if `E` allows that. -/
structure Budget (E : Panic → Prop) (A : Nat → Prop) (P : List Nat → Prop) : Prop where
  full : ∀ {l}, P l → LOGBLOCKS ≤ l.length → E .tooBigTransaction
  add : ∀ {l b}, P l → A b → P (if b ∈ l then l else b :: l)

/-- The log may fill up. -/
theorem Budget.any {A : Nat → Prop} (hE : E .tooBigTransaction) : Budget E A fun _ => True :=
  ⟨fun _ _ => hE, fun _ _ => trivial⟩

/-! ## The blocks of a transaction -/

/-- The blocks passed to `log_write` between two states. -/
def loggedSince (s s' : St) : List Nat := s'.wrote.take (s'.wrote.length - s.wrote.length)

theorem loggedSince_append {s s' : St} {new : List Nat} (h : s'.wrote = new ++ s.wrote) : loggedSince s s' = new := by
  simp [loggedSince, h]

/-- A transaction that was at `s₀` logs at most `m` different blocks from there on, and `c` of them
are left to it at `s`. -/
structure Credit (s₀ : St) (m c : Nat) (s : St) : Prop where
  wrote : s.wrote = loggedSince s₀ s ++ s₀.wrote
  mem : ∀ b ∈ loggedSince s₀ s, b ∈ s.lh
  length : s.lh.length ≤ s₀.lh.length + (loggedSince s₀ s).toFinset.card
  left : (loggedSince s₀ s).toFinset.card + c ≤ m

namespace Credit

variable {s₀ s' : St} {m c c' : Nat}

theorem start (s : St) (c : Nat) : Credit s c c s := by
  have h : loggedSince s s = [] := loggedSince_append rfl
  refine ⟨?_, ?_, ?_, ?_⟩ <;> simp [h]

section

variable (h : Credit s₀ m c s)
include h

theorem mono (hc : c' ≤ c) : Credit s₀ m c' s :=
  ⟨h.wrote, h.mem, h.length, by have := h.left; omega⟩

/-- Only the log matters. -/
theorem congr (hw : s'.wrote = s.wrote) (hlh : s'.lh = s.lh) : Credit s₀ m c s' := by
  have hl : loggedSince s₀ s' = loggedSince s₀ s := by rw [loggedSince, hw, loggedSince]
  refine ⟨?_, ?_, ?_, ?_⟩
  · rw [hw, hl]
    exact h.wrote
  · rw [hl, hlh]
    exact h.mem
  · rw [hl, hlh]
    exact h.length
  · rw [hl]
    exact h.left

theorem setBlk (b : Nat) (d : Block) : Credit s₀ m c (s.setBlk b d) :=
  h.congr rfl rfl

theorem loggedSince_log (b : Nat) : loggedSince s₀ (s.log b) = b :: loggedSince s₀ s := by
  refine loggedSince_append ?_
  show b :: s.wrote = _
  rw [h.wrote, List.cons_append]

/-- `log_write` of a block, for which there is credit unless it was logged before. -/
theorem logged (hb : b ∈ loggedSince s₀ s ∨ c' + 1 ≤ c) (hc : c' ≤ c) : Credit s₀ m c' (s.log b) := by
  have hl := h.loggedSince_log b
  have hleft := h.left
  have hlen := h.length
  by_cases hm : b ∈ loggedSince s₀ s
  · have hcard : (b :: loggedSince s₀ s).toFinset = (loggedSince s₀ s).toFinset := by simp [hm]
    have hlh : (s.log b).lh = s.lh := if_pos (h.mem b hm)
    refine ⟨?_, fun a ha => ?_, ?_, ?_⟩
    · rw [hl]
      exact congrArg (b :: ·) h.wrote
    · rw [hl] at ha
      rw [hlh]
      rcases List.mem_cons.mp ha with rfl | ha
      · exact h.mem _ hm
      · exact h.mem a ha
    · rw [hl, hcard, hlh]
      exact hlen
    · rw [hl, hcard]
      omega
  · have hc := hb.resolve_left hm
    have hcard : (b :: loggedSince s₀ s).toFinset.card = (loggedSince s₀ s).toFinset.card + 1 := by
      rw [List.toFinset_cons, Finset.card_insert_of_notMem (by simpa using hm)]
    have hlh : ∀ a, a = b ∨ a ∈ s.lh → a ∈ (s.log b).lh := by
      intro a ha
      show a ∈ if b ∈ s.lh then s.lh else b :: s.lh
      split
      · rcases ha with rfl | ha <;> assumption
      · exact List.mem_cons.mpr ha
    have hlhlen : (s.log b).lh.length ≤ s.lh.length + 1 := by
      show (if b ∈ s.lh then s.lh else b :: s.lh).length ≤ _
      split
      · omega
      · exact Nat.le_refl _
    refine ⟨?_, fun a ha => ?_, ?_, ?_⟩
    · rw [hl]
      exact congrArg (b :: ·) h.wrote
    · rw [hl] at ha
      exact hlh a ((List.mem_cons.mp ha).imp id (h.mem a))
    · rw [hl, hcard]
      omega
    · rw [hl, hcard]
      omega

end

theorem log (h : Credit s₀ m (c + 1) s) (b : Nat) : Credit s₀ m c (s.log b) :=
  h.logged (.inr (Nat.le_refl _)) (Nat.le_succ c)

/-- A full log was almost full at the start. -/
theorem full (h : Credit s₀ m c s) (hfull : LOGBLOCKS ≤ s.lh.length) : LOGBLOCKS ≤ s₀.lh.length + m := by
  have := h.length
  have := h.left
  omega

end Credit

/-! ## `balloc` and `bfree` -/

namespace St

/-- The block `b` is marked and zeroed. -/
def alloc (sb : Superblock) (s : St) (b : Nat) : St :=
  (((s.setBlk (sb.bblock b) (Bytes.setBit (s.blk (sb.bblock b)) (b % BPB))).log (sb.bblock b)).setBlk b
    fun _ => 0).log b

/-- The block `b` is no longer marked. -/
def free (sb : Superblock) (s : St) (b : Nat) : St :=
  (s.setBlk (sb.bblock b) (Bytes.clearBit (s.blk (sb.bblock b)) (b % BPB))).log (sb.bblock b)

/-- The copy in table entry `k` is on disk. -/
def iupdate (sb : Superblock) (s : St) (k : Nat) : St :=
  (s.setBlk (sb.iblock (s.itable k).inum) (Dinode.store (s.blk (sb.iblock (s.itable k).inum))
    ((s.itable k).inum % IPB) (s.itable k).toDinode)).log (sb.iblock (s.itable k).inum)

@[simp] theorem alloc_itable : (s.alloc sb b).itable = s.itable := rfl
@[simp] theorem alloc_wrote : (s.alloc sb b).wrote = b :: sb.bblock b :: s.wrote := rfl

@[simp] theorem iupdate_itable : (s.iupdate sb k).itable = s.itable := rfl

theorem alloc_blk_self : (s.alloc sb b).blk b = fun _ => 0 := Function.update_self _ _ _

theorem alloc_blk_of_ne {c : Nat} (h : c ≠ b) (hb : c ≠ sb.bblock b) : (s.alloc sb b).blk c = s.blk c := by
  show Function.update (Function.update _ _ _) _ _ _ = _
  rw [Function.update_of_ne h, Function.update_of_ne hb]

end St

theorem freeBit_some (h : freeBit sb b d = some bi) : bi < BPB ∧ b + bi < sb.size ∧ Bytes.bit d bi = false := by
  have hm := List.mem_range.mp (List.mem_of_find?_eq_some h)
  have hp := List.find?_some h
  refine ⟨by omega, by omega, ?_⟩
  simpa using hp

theorem lt_size_of_lt_nbitmap (h : b < sb.nbitmap) : b * BPB < sb.size := by
  unfold Superblock.nbitmap at h
  have hpos : 0 < BPB := by decide
  have h1 := (Nat.le_div_iff_mul_le hpos).mp (Nat.succ_le_of_lt h)
  rw [Nat.succ_mul] at h1
  omega

theorem bblock_add (sb : Superblock) (b : Nat) (h : bi < BPB) : sb.bblock (b * BPB + bi) = sb.bblock (b * BPB) := by
  have hpos : 0 < BPB := by decide
  unfold Superblock.bblock
  rw [Nat.mul_comm b, Nat.mul_add_div hpos, Nat.mul_div_cancel_left _ hpos, Nat.div_eq_of_lt h, Nat.add_zero]

/-- The buffers that a process holds when it allocates a block: blocks of files. -/
def HeldOk (sb : Superblock) (s : St) : Prop := ∀ c ∈ s.held, sb.Data c ∧ bitAt sb s.blk c = true

theorem HeldOk.bblock_notMem (h : HeldOk sb s) (w : sb.Wf) (hb : b < sb.size) : sb.bblock b ∉ s.held := by
  intro hm
  exact Nat.not_le_of_lt (w.bblock_lt hb) (h _ hm).1.1

theorem HeldOk.free_notMem (h : HeldOk sb s) (hb : bitAt sb s.blk b = false) : b ∉ s.held := by
  intro hm
  rw [(h _ hm).2] at hb
  cases hb

/-- No block is free. -/
def NoFree (sb : Superblock) (s : St) : Prop := ∀ b < sb.size, bitAt sb s.blk b = true

theorem freeBit_none (h : freeBit sb b d = none) (hbi : bi < BPB)
    (hb : b + bi < sb.size) : Bytes.bit d bi = true := by
  have := List.find?_eq_none.mp h bi (List.mem_range.mpr (by omega))
  simpa using this

theorem bitAt_add (sb : Superblock) (blk : Nat → Block) (k : Nat) (h : bi < BPB) :
    bitAt sb blk (k * BPB + bi) = Bytes.bit (blk (sb.bblock (k * BPB))) bi := by
  rw [bitAt, bblock_add sb k h, Nat.mul_comm k, Nat.mul_add_mod, Nat.mod_eq_of_lt h]

section Credit

variable {s₀ : St} {m c : Nat}

/-- Two blocks are logged. -/
theorem Credit.alloc (h : Credit s₀ m (c + 2) s) (sb : Superblock) (b : Nat) : Credit s₀ m c (s.alloc sb b) :=
  (((h.setBlk _ _).log (sb.bblock b)).setBlk _ _).log b

theorem ballocFrom_spec (w : sb.Wf) (hheld : HeldOk sb s) (hout : 1 ≤ s.outstanding)
    (cr : Credit s₀ m 2 s) (hE : LOGBLOCKS ≤ s₀.lh.length + m → E .tooBigTransaction) (ks : List Nat)
    (hks : ∀ k ∈ ks, k < sb.nbitmap) :
    wp E (ballocFrom sb ks) s fun b s' =>
      (b = 0 ∧ s' = s ∧ ∀ k ∈ ks, ∀ bi < BPB, k * BPB + bi < sb.size →
        bitAt sb s.blk (k * BPB + bi) = true) ∨
      (b < sb.size ∧ bitAt sb s.blk b = false ∧ s' = s.alloc sb b) := by
  induction ks with
  | nil => exact .inl ⟨rfl, rfl, nofun⟩
  | cons k ks ih =>
    have hk := lt_size_of_lt_nbitmap (hks k List.mem_cons_self)
    unfold ballocFrom
    refine wp_bind.mpr (wp_bread (hheld.bblock_notMem w hk) ?_)
    split
    · rename_i bi hbi
      obtain ⟨hlt, hsize, hbit⟩ := freeBit_some hbi
      have hbb := bblock_add sb k hlt
      have hfree : bitAt sb s.blk (k * BPB + bi) = false := by
        rw [bitAt_add sb s.blk k hlt]
        exact hbit
      have hmod : (k * BPB + bi) % BPB = bi := by
        rw [Nat.mul_comm, Nat.mul_add_mod, Nat.mod_eq_of_lt hlt]
      refine wp_bind.mpr (wp_setData.mpr (wp_bind.mpr ?_))
      refine wp_logWrite (fun h => hE (cr.full h)) hout (wp_bind.mpr (wp_brelse.mpr ?_))
      rw [St.unhold_log_setBlk_hold]
      have cr₁ : Credit s₀ m 1 ((s.setBlk (sb.bblock (k * BPB))
          (Bytes.setBit (s.blk (sb.bblock (k * BPB))) bi)).log (sb.bblock (k * BPB))) :=
        (cr.setBlk _ _).log _
      -- `bzero`
      refine wp_bind.mpr (wp_bind.mpr (wp_bread ?_ ?_))
      · exact hheld.free_notMem hfree
      · refine wp_writeBack (fun h => hE (cr₁.full h)) hout (.inr ⟨hsize, hfree, ?_⟩)
        rw [St.alloc, hbb, hmod]
    · rename_i hnone
      refine wp_bind.mpr (wp_brelse.mpr ?_)
      rw [St.unhold_hold]
      refine (ih fun k hk => hks k (List.mem_cons_of_mem _ hk)).mono fun b s' h => ?_
      refine h.imp (fun ⟨h0, hs, hall⟩ => ⟨h0, hs, fun k' hk' bi hbi hlt => ?_⟩) id
      rcases List.mem_cons.mp hk' with rfl | hk'
      · rw [bitAt_add sb s.blk _ hbi]
        exact freeBit_none hnone hbi hlt
      · exact hall k' hk' bi hbi hlt

/-- `balloc` finds no free block and changes nothing, or marks and zeroes one. -/
theorem balloc_spec {x : List Nat} (w : sb.Wf) (own : Own sb s.blk (s.cur sb) x)
    (hheld : HeldOk sb s) (hout : 1 ≤ s.outstanding) (cr : Credit s₀ m 2 s)
    (hE : LOGBLOCKS ≤ s₀.lh.length + m → E .tooBigTransaction) :
    wp E (balloc sb) s fun b s' =>
      (b = 0 ∧ s' = s ∧ NoFree sb s) ∨
      (b ≠ 0 ∧ b < sb.size ∧ bitAt sb s.blk b = false ∧ s' = s.alloc sb b) := by
  refine (ballocFrom_spec w hheld hout cr hE _ fun k hk => List.mem_range.mp hk).mono fun b s' h => ?_
  refine h.imp (fun ⟨h0, hs, hall⟩ => ⟨h0, hs, fun c hc => ?_⟩)
    fun h => ⟨w.data_ne_zero (own.data_of_free h.1 h.2.1), h⟩
  have hdm : c / BPB * BPB + c % BPB = c := Nat.div_add_mod' c BPB
  have hmem := List.mem_range.mpr (sb.div_lt_nbitmap hc)
  have := hall _ hmem (c % BPB) (Nat.mod_lt _ (by decide)) (by rw [hdm]; exact hc)
  rwa [hdm] at this

end Credit

/-- `bfree` of a marked block clears its bit. -/
theorem bfree_spec (hbit : bitAt sb s.blk b = true) (hheld : sb.bblock b ∉ s.held) (hout : 1 ≤ s.outstanding)
    (hfull : LOGBLOCKS ≤ s.lh.length → E .tooBigTransaction) : wp E (bfree sb b) s fun _ s' => s' = s.free sb b := by
  refine wp_bind.mpr (wp_bread hheld ?_)
  rw [if_pos (show Bytes.bit (s.blk (sb.bblock b)) (b % BPB) = true from hbit)]
  exact wp_writeBack hfull hout rfl

/-- `iupdate` stores the inode on disk. -/
theorem iupdate_spec (hheld : sb.iblock (s.itable k).inum ∉ s.held) (hout : 1 ≤ s.outstanding)
    (hfull : LOGBLOCKS ≤ s.lh.length → E .tooBigTransaction) :
    wp E (iupdate sb k) s fun _ s' => s' = s.iupdate sb k := by
  refine wp_bind.mpr (wp_getInode.mpr (wp_bind.mpr (wp_bread hheld ?_)))
  exact wp_writeBack hfull hout rfl

/-- With a full log, `iupdate` does not return. -/
theorem iupdate_full {Q : Unit → St → Prop} (hheld : sb.iblock (s.itable k).inum ∉ s.held)
    (hfull : LOGBLOCKS ≤ s.lh.length) (hE : E .tooBigTransaction) : wp E (iupdate sb k) s Q := by
  refine wp_bind.mpr (wp_getInode.mpr (wp_bind.mpr (wp_bread hheld ?_)))
  refine wp_bind.mpr (wp_setData.mpr (wp_bind.mpr (wp_bind.mpr (wp_gets.mpr ?_))))
  exact wp_ite.mpr ⟨fun _ => hE, fun h => absurd hfull h⟩

/-! ## What they change -/

section Effect

variable (w : sb.Wf)

include w

theorem disk_alloc (hb : sb.Data b) {i : Nat} (hi : i < sb.ninodes) : (s.alloc sb b).disk sb i = s.disk sb i := by
  unfold St.disk
  rw [St.alloc_blk_of_ne (w.data_ne_iblock hb hi).symm (w.iblock_ne_bblock hi)]

theorem cur_alloc (hb : sb.Data b) : (s.alloc sb b).cur sb = s.cur sb :=
  cur_congr rfl fun _ hi => disk_alloc w hb hi

theorem own_alloc {x : List Nat} {D : Nat → Dinode} (own : Own sb s.blk D x) (hb : b < sb.size)
    (hfree : bitAt sb s.blk b = false) : Own sb (s.alloc sb b).blk D (b :: x) :=
  own.alloc w hb hfree

theorem own_free {x : List Nat} {D : Nat → Dinode} (own : Own sb s.blk D (b :: x)) : Own sb (s.free sb b).blk D x :=
  own.free w

omit w in
theorem disk_iupdate (t : TableOk sb s) (hk : s.Live k) (hv : (s.itable k).valid = true) (i : Nat) :
    (s.iupdate sb k).disk sb i =
      if i = (s.itable k).inum then (s.itable k).toDinode else s.disk sb i :=
  disk_store (t.wf hk hv)

omit w in
/-- The inode was the table's copy already. -/
theorem cur_iupdate (t : TableOk sb s) (hk : s.Live k) (hv : (s.itable k).valid = true) :
    (s.iupdate sb k).cur sb = s.cur sb := by
  have t' : TableOk sb (s.iupdate sb k) := t.congr rfl
  refine cur_unique t' (fun i hi => cur_of_le hi)
    (fun j hj hvj => cur_of_valid t hj hvj) fun i hi hno => ?_
  have hne : i ≠ (s.itable k).inum := by
    rintro rfl
    exact Bool.false_ne_true ((hno k hk rfl).symm.trans hv)
  rw [disk_iupdate t hk hv, if_neg hne]
  exact cur_of_invalid hi hno

omit w in
/-- After `iupdate` the entry is synced too. -/
theorem synced_iupdate {x : List Nat} (t : TableOk sb s) (hk : s.Live k)
    (hv : (s.itable k).valid = true) (hs : Synced sb s (k :: x)) : Synced sb (s.iupdate sb k) x := by
  intro j hj hvj hx
  rw [disk_iupdate t hk hv]
  by_cases hjk : j = k
  · subst hjk
    simp
  · have hne : (s.itable j).inum ≠ (s.itable k).inum := fun he => hjk (t.uniq hj hk he)
    rw [St.iupdate_itable, if_neg hne]
    exact hs j hj hvj (by simp [hjk, hx])

end Effect

end Xv6.Fs
