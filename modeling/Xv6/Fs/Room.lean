import Xv6.Fs.Dir

/-!
# Room for a directory entry

Exactly when `dirlink` succeeds: the name is new, the directory can be that long, and its block for
the entry is there or can be allocated (`dirlink_fits`). A block in the range of the indirect block
takes two free blocks if the indirect block is to be allocated too (`Dinode.Room`).
-/

namespace Xv6.Fs

open Seq Seq.M

/-- Block `b` is free. -/
def FreeBlock (sb : Superblock) (blk : Nat → Block) (b : Nat) : Prop := b < sb.size ∧ bitAt sb blk b = false

/-- The `bn`-th block of the contents of `d` is there, or can be allocated. -/
def Dinode.Room (sb : Superblock) (blk : Nat → Block) (d : Dinode) (bn : Nat) : Prop :=
  d.blockAt blk bn ≠ 0 ∨ ∃ b, FreeBlock sb blk b ∧
    (bn < NDIRECT ∨ d.addrs NDIRECT ≠ 0 ∨ ∃ b', b' ≠ b ∧ FreeBlock sb blk b')

section Room

variable {sb : Superblock} {s s' : St} {k i : Nat} {L : List Nat} {nd : Node}

theorem not_noFree : ¬ NoFree sb s ↔ ∃ b, FreeBlock sb s.blk b := by
  unfold NoFree FreeBlock
  push Not
  exact exists_congr fun b => and_congr_right fun _ => by simp

/-- The bitmap after a block is allocated. -/
theorem freeBlock_alloc (w : sb.Wf) {b : Nat} (hb : sb.Data b) (c : Nat) :
    FreeBlock sb (s.alloc sb b).blk c ↔ c ≠ b ∧ FreeBlock sb s.blk c := by
  unfold FreeBlock
  by_cases hc : c < sb.size
  · have hne : sb.bblock c ≠ b := by
      have := w.bblock_lt hc
      have := hb.1
      omega
    have hbit : bitAt sb (s.alloc sb b).blk c = if c = b then true else bitAt sb s.blk c :=
      (bitAt_update_of_ne hne).trans bitAt_setBit
    rw [hbit]
    by_cases h : c = b
    · simp [h]
    · simp [h]
  · exact ⟨fun h => absurd h.1 hc, fun h => absurd h.2.1 hc⟩

/-! ## `bmap` -/

theorem bmapEntry_room (w : sb.Wf) (inv : Inv sb s) (hheld : s.held = []) (hout : 1 ≤ s.outstanding)
    {c j : Nat} (hc : sb.Data c) (hbit : bitAt sb s.blk c = true) :
    wp (fun _ => True) (bmapEntry sb c j) s fun a _ =>
      a ≠ 0 ↔ Bytes.getU32 (s.blk c) j ≠ 0 ∨ ∃ b, FreeBlock sb s.blk b := by
  refine (bmapEntry_spec w inv hheld hout (fun _ => Credit.start s 2) (fun _ => trivial) hc hbit).mono ?_
  rintro a s' (⟨h0, rfl, -⟩ | ⟨h0, ⟨rfl, -, hno⟩ | ⟨ha, hb, hfree, -⟩⟩)
  · exact ⟨.inl, fun _ => h0⟩
  · rw [← not_noFree]
    simp [h0, hno]
  · exact ⟨fun _ => .inr ⟨a, hb, hfree⟩, fun _ => ha⟩

/-- `bmap` returns a block exactly when there is room. -/
theorem bmap_room (w : sb.Wf) (inv : Inv sb s) (lo : Loaded s k) (hheld : s.held = [])
    (hout : 1 ≤ s.outstanding) (bn : Nat) :
    wp (fun _ => True) (bmap sb k bn) s fun a _ =>
      a ≠ 0 ↔ (s.itable k).toDinode.Room sb s.blk bn := by
  have addr := fun i => bmapAddr_spec (E := fun _ => True) (k := k) (i := i) w inv (heldOk_nil hheld) hout
    (fun _ => Credit.start s 2) fun _ => trivial
  unfold bmap
  refine wp_ite.mpr ⟨fun hd => ?_, fun hd => wp_ite.mpr ⟨fun hj => ?_, fun _ => trivial⟩⟩
  · refine (addr bn).mono ?_
    have hblk := blockAt_direct (s := s) (k := k) hd
    rintro a s' (⟨h0, rfl, -⟩ | ⟨h0, ⟨rfl, -, hno⟩ | ⟨ha, hb, hfree, -⟩⟩)
    · exact ⟨fun _ => .inl (by rw [← hblk] at h0; exact h0), fun _ => h0⟩
    · refine ⟨fun h => absurd rfl h, ?_⟩
      rintro (h | ⟨b, hb, -⟩)
      · exact absurd (hblk.trans h0) h
      · exact absurd hno (not_noFree.mpr ⟨b, hb⟩)
    · exact ⟨fun _ => .inr ⟨a, ⟨hb, hfree⟩, .inl hd⟩, fun _ => ha⟩
  · have hblk := blockAt_entry (s := s) (k := k) hd hj
    refine wp.bind (addr NDIRECT) ?_
    rintro c s₁ (⟨h0, rfl, rfl⟩ | ⟨h0, ⟨rfl, -, hno⟩ | ⟨hc, hb, hfree, rfl⟩⟩)
    · -- the indirect block is there
      have hr : Ref s₁.blk (s₁.cur sb) (s₁.itable k).inum .indirect ((s₁.itable k).addrs NDIRECT) :=
        lo.ref inv.table h0
      rw [if_neg h0] at hblk ⊢
      refine (bmapEntry_room w inv hheld hout (inv.own.data hr) (inv.own.bit_of_ref hr)).mono ?_
      intro a _ ha
      rw [ha, ← hblk]
      refine or_congr Iff.rfl ⟨fun ⟨b, hb⟩ => ⟨b, hb, .inr (.inl h0)⟩, fun ⟨b, hb, _⟩ => ⟨b, hb⟩⟩
    · rw [if_pos rfl]
      refine ⟨fun h => absurd rfl h, ?_⟩
      rintro (h | ⟨b, hb, -⟩)
      · rw [if_pos h0] at hblk
        exact absurd hblk h
      · exact absurd hno (not_noFree.mpr ⟨b, hb⟩)
    · -- the indirect block is allocated first
      rw [if_neg hc, if_pos h0] at *
      have hdata := inv.own.data_of_free hb hfree
      have hgrow : Grow sb k bn s (s.allocAddr sb k NDIRECT c) := .addr (Nat.le_refl NDIRECT) (.inr rfl) h0 hb hfree
      obtain ⟨inv₁, -, f⟩ := hgrow.spec w inv lo
      have hbit : bitAt sb (s.allocAddr sb k NDIRECT c).blk c = true := by
        by_contra hbit
        have : FreeBlock sb (s.alloc sb c).blk c := ⟨hb, (Bool.not_eq_true _).mp hbit⟩
        exact ((freeBlock_alloc w hdata c).mp this).1 rfl
      refine (bmapEntry_room w inv₁ (f.held.trans hheld) (by rw [f.outstanding]; exact hout) hdata
        hbit).mono ?_
      intro a _ ha
      have hz : Bytes.getU32 ((s.allocAddr sb k NDIRECT c).blk c) (bn - NDIRECT) = 0 := by
        have : (s.allocAddr sb k NDIRECT c).blk c = fun _ => 0 := St.alloc_blk_self
        rw [this]
        exact Bytes.getU32_zero _
      rw [ha]
      constructor
      · rintro (h | ⟨b, hb'⟩)
        · exact absurd hz h
        · have hb' := (freeBlock_alloc w hdata b).mp hb'
          exact .inr ⟨c, ⟨hb, hfree⟩, .inr (.inr ⟨b, hb'⟩)⟩
      · rintro (h | ⟨b, hb, h | h | ⟨b', hne, hb'⟩⟩)
        · exact absurd hblk h
        · exact absurd h hd
        · exact absurd h0 h
        · refine .inr ?_
          by_cases hbc : b = c
          · exact ⟨b', (freeBlock_alloc w hdata b').mpr ⟨hbc ▸ hne, hb'⟩⟩
          · exact ⟨b, (freeBlock_alloc w hdata b).mpr ⟨hbc, hb⟩⟩

/-! ## `writei` and `dirlink` -/

theorem le_writeLoop (src : Src) (n fuel tot off va : Nat) (s : St) :
    wp (fun _ => True) (writeLoop sb k src n fuel tot off va) s fun r _ => tot ≤ r.1 := by
  induction fuel generalizing tot off va s with
  | zero => exact Nat.le_refl tot
  | succ fuel ih =>
    refine wp_ite.mpr ⟨fun _ => wp.bind (wp_true _ _) fun a s₁ _ => ?_, fun _ => Nat.le_refl tot⟩
    refine wp_ite.mpr ⟨fun _ => Nat.le_refl tot, fun _ => wp.bind (wp_true _ _) fun d s₂ _ => ?_⟩
    refine wp.bind (wp_true _ _) fun _ s₃ _ => wp_ite.mpr ⟨fun _ => ?_, fun _ => ?_⟩
    · refine wp.bind (wp_true _ _) fun _ s₄ _ => wp.bind (wp_true _ _) fun _ s₅ _ => ?_
      exact (ih _ _ _ s₅).mono fun r _ h => Nat.le_trans (Nat.le_add_right _ _) h
    · exact wp.bind (wp_true _ _) fun _ s₄ _ => Nat.le_refl tot

/-- A write that is not refused stores something exactly when there is room for its first byte. -/
theorem writei_room (w : sb.Wf) (inv : Inv sb s) (lo : Loaded s k) (hheld : s.held = [])
    (hout : 1 ≤ s.outstanding) (mem : Nat → UInt8) (off n : Nat) (hn : 0 < n) :
    wp (fun _ => True) (writei sb k (.kernel mem) 0 off n) s fun r _ =>
      r = none ∨ (r ≠ some 0 ↔ (s.itable k).toDinode.Room sb s.blk (off / BSIZE)) := by
  refine wp_bind.mpr (wp_getInode.mpr (wp_ite.mpr ⟨fun _ => .inl rfl, fun _ =>
    wp_ite.mpr ⟨fun _ => .inl rfl, fun _ => ?_⟩⟩))
  have hloop : wp (fun _ => True) (writeLoop sb k (.kernel mem) n n 0 off 0) s fun r _ =>
      r.1 ≠ 0 ↔ (s.itable k).toDinode.Room sb s.blk (off / BSIZE) := by
    obtain ⟨n', rfl⟩ : ∃ n', n = n' + 1 := ⟨n - 1, by omega⟩
    refine wp_ite.mpr ⟨fun _ => ?_, fun h => absurd hn h⟩
    refine wp.bind (bmap_room w inv lo hheld hout (off / BSIZE)) fun a s₁ ha => ?_
    refine wp_ite.mpr ⟨fun h0 => ?_, fun h0 => wp.bind (wp_true _ _) fun d s₂ _ => ?_⟩
    · exact ⟨fun h => absurd rfl h, fun h => absurd h0 (ha.mpr h)⟩
    · refine wp.bind (wp_true _ _) fun _ s₃ _ => ?_
      refine wp_ite.mpr ⟨fun _ => ?_, fun h => absurd rfl h⟩
      refine wp.bind (wp_true _ _) fun _ s₄ _ => wp.bind (wp_true _ _) fun _ s₅ _ => ?_
      refine (le_writeLoop _ _ _ _ _ _ s₅).mono fun r _ h => ?_
      have hmod : off % BSIZE < BSIZE := Nat.mod_lt _ (by decide)
      refine ⟨fun _ => ha.mp h0, fun _ => ?_⟩
      omega
  refine wp.bind hloop fun r s₁ hr => wp.bind (wp_true _ _) fun _ s₂ _ => ?_
  refine wp.bind (wp_true _ _) fun _ s₃ _ => wp.bind (wp_true _ _) fun _ s₄ _ => .inr ?_
  rw [← hr]
  simp

/-- The directory has room for one more entry. -/
def Fits (sb : Superblock) (s : St) (d : Nat) (dnd : Node) : Prop :=
  Slots.free (dirSlots dnd.data) * direntSize + direntSize ≤ MAXFILE * BSIZE ∧
    (s.cur sb d).Room sb s.blk (Slots.free (dirSlots dnd.data) * direntSize / BSIZE)

/-- `dirlink` succeeds exactly when the name is new and there is room. -/
theorem dirlink_fits (w : sb.Wf) (h : FsOk sb L s) (hk : k ∈ L) (lo : Loaded s k) (hout : 1 ≤ s.outstanding)
    (hnd : s.node sb (s.itable k).inum = some nd) (ht : nd.type = T_DIR) (hd : direntSize ∣ nd.data.length)
    (name : Nat → UInt8) (inum : Nat) :
    wp (fun _ => True) (dirlink sb k name inum) s fun r _ =>
      (r = true ↔ Slots.lookup (dirSlots nd.data) (nameKey name) = none ∧
        Fits sb s (s.itable k).inum nd) := by
  have hn : nd.data.length / direntSize < (s.itable k).size + 1 := by
    rw [(lo.fields h hnd).size]
    have := Nat.div_le_self nd.data.length direntSize
    omega
  refine wp.bind (dirlookup_ok h lo hnd ht hd (fun _ => trivial) name) ?_
  rintro r s₁ (⟨hnone, rfl, rfl⟩ | ⟨v, i, k', hsome, rfl, -⟩)
  · refine wp_bind.mpr (wp_getInode.mpr ?_)
    have hoff := dirlinkFrom_ok (E := fun _ => True) h lo hnd hd ((s₁.itable k).size + 1) 0 hn (Nat.zero_le _)
    rw [Nat.zero_mul, List.drop_zero, Nat.zero_add] at hoff
    refine wp.bind hoff ?_
    rintro off s₂ ⟨rfl, rfl⟩
    have hoffle : Slots.free (dirSlots nd.data) * direntSize ≤ nd.data.length := by
      have := Slots.free_le (dirSlots nd.data)
      rw [length_dirSlots] at this
      have := Nat.mul_le_mul_right direntSize this
      rwa [Nat.div_mul_cancel hd] at this
    have hoffd := Nat.dvd_mul_left direntSize (Slots.free (dirSlots nd.data))
    have g := h.good
    have hroom := writei_room w g.inv lo g.held hout (fun i => (dirent inum (strncpy name)).getD i 0)
      (Slots.free (dirSlots nd.data) * direntSize) direntSize direntSize_pos
    have hwrite : wp (fun _ => True) (writei sb k (.kernel fun i => (dirent inum (strncpy name)).getD i 0) 0
        (Slots.free (dirSlots nd.data) * direntSize) direntSize) s₂ _ :=
      writei_ok w h hk lo hout hnd (fun _ => trivial) (by decide) fun _ _ => trivial
    refine wp.bind (hwrite.and hroom) ?_
    rintro r s' ⟨⟨-, -, -, -, hres⟩, hr⟩
    have hfits : Fits sb s₂ (s₂.itable k).inum nd ↔ Slots.free (dirSlots nd.data) * direntSize + direntSize ≤
        MAXFILE * BSIZE ∧ (s₂.itable k).toDinode.Room sb s₂.blk
          (Slots.free (dirSlots nd.data) * direntSize / BSIZE) := by
      rw [Fits, lo.cur g.inv.table]
    refine wp_pure.mpr ?_
    rw [hfits, hnone]
    rcases hres with ⟨rfl, hacc, -⟩ | ⟨tot, rfl, hle, hal, hacc, -⟩
    · exact ⟨nofun, fun ⟨_, hlen, _⟩ => absurd ⟨hoffle, hlen⟩ hacc⟩
    · have hr := hr.resolve_left nofun
      rcases entry_written hoffd hle hal with rfl | rfl
      · exact ⟨nofun, fun ⟨_, _, hroom⟩ => absurd rfl (hr.mpr hroom)⟩
      · exact ⟨fun _ => ⟨rfl, hacc.2, hr.mp nofun⟩, fun _ => by simp⟩
  · refine wp.bind (wp_true _ _) fun _ s₂ _ => wp_pure.mpr ⟨nofun, fun hno => ?_⟩
    rw [hsome] at hno
    cases hno.1

/-- What counts are the directory's inode, the bitmap and the data area. -/
theorem Fits.congr (own : Own sb s.blk (s.cur sb) []) {d j : Nat} (ht : (s.cur sb d).type ≠ 0)
    (h : OnlyInode sb j s s') (hne : d ≠ j) (w : sb.Wf) : Fits sb s' d nd ↔ Fits sb s d nd := by
  have hbm := Nat.le_of_lt w.bmapstart_lt
  have hfree : ∀ b, FreeBlock sb s'.blk b ↔ FreeBlock sb s.blk b := fun b => by
    unfold FreeBlock bitAt
    rw [h.blk _ (sb.bmapstart_le_bblock b)]
  have hat : ∀ bn, (s.cur sb d).blockAt s'.blk bn = (s.cur sb d).blockAt s.blk bn := fun bn =>
    Dinode.addr_congr (fun hi => h.blk _ (Nat.le_trans hbm (own.data (ref_indirect s.blk ht hi)).1)) _
  unfold Fits Dinode.Room
  rw [h.cur d hne, hat]
  simp only [hfree]

theorem fits_of_eq (hcur : s'.cur sb = s.cur sb) (hblk : s'.blk = s.blk) (d : Nat) :
    Fits sb s' d nd ↔ Fits sb s d nd := by
  unfold Fits
  rw [hcur, hblk]

end Room

end Xv6.Fs
