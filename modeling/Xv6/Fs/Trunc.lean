import Xv6.Fs.Edit

/-!
# Discarding the contents of an inode

`itrunc` frees the blocks of an inode one by one while the inode still names them. The proof takes
the references away first (`Own.releaseAll`): the blocks are then on their way, and each `bfree`
finishes one of them. `itrunc_spec` is the result: the inode is empty, its blocks are free, all other
inodes and their blocks are as they were.
-/

namespace Xv6.Fs

open Seq Seq.M
open Function (update update_eq_self update_idem update_of_ne update_self)

/-! ## The blocks of an inode -/

namespace Dinode

/-- The places of an inode, in the order in which `itrunc` frees them. -/
def slots : List Slot :=
  (List.range NDIRECT).map .direct ++ ((List.range NINDIRECT).map .entry ++ [.indirect])

/-- The blocks of an inode, in that order. -/
def blocks (blk : Nat → Block) (d : Dinode) : List Nat := (slots.map (d.addr blk)).filter (· ≠ 0)

/-- The blocks that are logged when the contents of inode `i` are discarded. -/
def logs (sb : Superblock) (blk : Nat → Block) (i : Nat) (d : Dinode) : List Nat :=
  sb.iblock i :: (d.blocks blk).map sb.bblock

theorem mem_slots {blk : Nat → Block} {d : Dinode} {σ : Slot} (h : d.addr blk σ ≠ 0) : σ ∈ slots := by
  simp only [slots, List.mem_append, List.mem_map, List.mem_range, List.mem_singleton]
  cases σ with
  | direct k =>
    refine .inl ⟨k, ?_, rfl⟩
    by_contra hk
    exact h (if_neg hk)
  | indirect => exact .inr (.inr rfl)
  | entry j =>
    refine .inr (.inl ⟨j, ?_, rfl⟩)
    by_contra hj
    exact h (if_pos (.inr (Nat.le_of_not_lt hj)))

theorem nodup_slots : slots.Nodup := by
  refine List.nodup_append.mpr ⟨?_, List.nodup_append.mpr ⟨?_, List.nodup_singleton _, ?_⟩, ?_⟩
  · exact List.nodup_range.map fun _ _ h => by injection h
  · exact List.nodup_range.map fun _ _ h => by injection h
  · intro a ha b hb
    obtain ⟨j, -, rfl⟩ := List.mem_map.mp ha
    rw [List.mem_singleton.mp hb]
    exact nofun
  · intro a ha b hb
    obtain ⟨j, -, rfl⟩ := List.mem_map.mp ha
    rcases List.mem_append.mp hb with hb | hb
    · obtain ⟨j', -, rfl⟩ := List.mem_map.mp hb
      exact nofun
    · rw [List.mem_singleton.mp hb]
      exact nofun

/-- The three parts of `itrunc`. -/
theorem blocks_eq (blk : Nat → Block) (d : Dinode) :
    d.blocks blk = ((List.range NDIRECT).map d.addrs).filter (· ≠ 0) ++
      if d.addrs NDIRECT = 0 then []
      else ((List.range NINDIRECT).map (Bytes.getU32 (blk (d.addrs NDIRECT)))).filter (· ≠ 0) ++
        [d.addrs NDIRECT] := by
  have hdirect : ((List.range NDIRECT).map Slot.direct).map (d.addr blk) =
      (List.range NDIRECT).map d.addrs := by
    rw [List.map_map]
    exact List.map_congr_left fun k hk => if_pos (List.mem_range.mp hk)
  unfold blocks slots
  rw [List.map_append, List.filter_append, hdirect]
  congr 1
  split
  · rename_i h0
    rw [List.filter_eq_nil_iff]
    intro a ha
    obtain ⟨σ, hσ, rfl⟩ := List.mem_map.mp ha
    rcases List.mem_append.mp hσ with hσ | hσ
    · obtain ⟨j, -, rfl⟩ := List.mem_map.mp hσ
      simp [addr, h0]
    · rw [List.mem_singleton.mp hσ]
      simp [addr, h0]
  · rename_i h0
    have hentry : ((List.range NINDIRECT).map Slot.entry).map (d.addr blk) =
        (List.range NINDIRECT).map (Bytes.getU32 (blk (d.addrs NDIRECT))) := by
      rw [List.map_map]
      refine List.map_congr_left fun j hj => if_neg ?_
      exact not_or.mpr ⟨h0, Nat.not_le_of_lt (List.mem_range.mp hj)⟩
    rw [List.map_append, List.filter_append, hentry]
    simp [addr, h0]

end Dinode

namespace Own

variable {sb : Superblock} {blk : Nat → Block} {D : Nat → Dinode} {x : List Nat} {n : Nat}

theorem mem_blocks (ht : (D n).type ≠ 0) (a : Nat) : a ∈ (D n).blocks blk ↔ ∃ σ, Ref blk D n σ a := by
  simp only [Dinode.blocks, List.mem_filter, List.mem_map, decide_eq_true_eq]
  constructor
  · rintro ⟨⟨σ, -, rfl⟩, h0⟩
    exact ⟨σ, ht, rfl, h0⟩
  · rintro ⟨σ, -, rfl, h0⟩
    exact ⟨⟨σ, Dinode.mem_slots h0, rfl⟩, h0⟩

theorem nodup_blocks (h : Own sb blk D x) (ht : (D n).type ≠ 0) : ((D n).blocks blk).Nodup := by
  unfold Dinode.blocks
  rw [List.filter_map]
  refine List.Nodup.map_on ?_ (Dinode.nodup_slots.filter _)
  intro σ hσ σ' _ he
  have h0 : (D n).addr blk σ ≠ 0 := by simpa using (List.mem_filter.mp hσ).2
  exact (h.inj ⟨ht, rfl, h0⟩ ⟨ht, he.symm, h0⟩).2

/-- An inode without blocks has no references. -/
theorem ref_setEmpty {d : Dinode} (hd : d.addrs = fun _ => 0) {i : Nat} {σ : Slot} {a : Nat} :
    Ref blk (update D n d) i σ a ↔ i ≠ n ∧ Ref blk D i σ a := by
  by_cases hi : i = n
  · subst hi
    have h0 : d.addr blk σ = 0 := by
      cases σ <;> simp [Dinode.addr, hd]
    simp only [Ref, update_self, h0, ne_eq, not_true_eq_false, false_and, iff_false]
    rintro ⟨-, rfl, h⟩
    exact h rfl
  · simp [Ref, hi]

/-- All blocks of inode `n` are on their way. -/
theorem releaseAll (h : Own sb blk D x) (ht : (D n).type ≠ 0) {d : Dinode}
    (hd : d.addrs = fun _ => 0) : Own sb blk (update D n d) ((D n).blocks blk ++ x) :=
  h.release (h.nodup_blocks ht) (mem_blocks ht) (fun _ _ _ => ref_setEmpty hd) fun _ _ => rfl

/-- An inode without blocks is replaced by another one. -/
theorem setEmpty (h : Own sb blk D x) (h0 : (D n).type = 0 ∨ (D n).addrs = fun _ => 0) {d : Dinode}
    (hd : d.addrs = fun _ => 0) : Own sb blk (update D n d) x := by
  refine h.congr (fun i σ a => (ref_setEmpty hd).trans ⟨And.right, fun hr => ⟨?_, hr⟩⟩) fun _ _ => rfl
  rintro rfl
  rcases h0 with h0 | h0
  · exact hr.1 h0
  · refine hr.2.2 (hr.2.1.symm.trans ?_)
    cases σ <;> simp [Dinode.addr, h0]

end Own

/-! ## The loops -/

/-- What `bfree` of the blocks `l` leaves alone, all but the bitmap, and what it logs. -/
structure Freed (sb : Superblock) (l : List Nat) (s s' : St) : Prop where
  blk : ∀ b, b < sb.bmapstart ∨ sb.nmeta ≤ b → s'.blk b = s.blk b
  held : s'.held = s.held
  outstanding : s'.outstanding = s.outstanding
  lh : s.lh ⊆ s'.lh
  logged : ∀ a ∈ l, sb.bblock a ∈ s'.lh

theorem Freed.refl {sb : Superblock} {s : St} : Freed sb [] s s :=
  ⟨fun _ _ => rfl, rfl, rfl, List.Subset.refl _, nofun⟩

theorem Freed.trans {sb : Superblock} {l l' : List Nat} {s s' s'' : St} (h : Freed sb l s s')
    (h' : Freed sb l' s' s'') : Freed sb (l ++ l') s s'' :=
  ⟨fun b hb => (h'.blk b hb).trans (h.blk b hb), h'.held.trans h.held, h'.outstanding.trans h.outstanding,
    List.Subset.trans h.lh h'.lh, fun a ha => (List.mem_append.mp ha).elim (fun ha => h'.lh (h.logged a ha))
      (h'.logged a)⟩

section Loops

variable {sb : Superblock} {E : Panic → Prop} {A : Nat → Prop} {P : List Nat → Prop} {s : St}
  {k : Nat} {D : Nat → Dinode} {x : List Nat}

/-- No bitmap block is locked. -/
def NoBitmapHeld (sb : Superblock) (s : St) : Prop := ∀ c ∈ s.held, sb.nmeta ≤ c

/-- `bfree` of a block on its way. -/
theorem bfree_own {b : Nat} (w : sb.Wf) (own : Own sb s.blk D (b :: x)) (hheld : NoBitmapHeld sb s)
    (hout : 1 ≤ s.outstanding) (B : Budget E A P) (hA : A (sb.bblock b)) (hP : P s.lh) :
    wp E (bfree sb b) s fun _ s' =>
      Own sb s'.blk D x ∧ Freed sb [b] s s' ∧ P s'.lh ∧ s'.itable = s.itable := by
  have hb := (own.extra_data b List.mem_cons_self).2
  have hbit : bitAt sb s.blk b = true := (own.bits b hb).mpr (.inr (.inl List.mem_cons_self))
  have hlt := w.bblock_lt hb
  refine (bfree_spec hbit (fun hm => ?_) hout (B.full hP)).mono ?_
  · exact Nat.not_le_of_lt hlt (hheld _ hm)
  · rintro _ s' rfl
    refine ⟨own_free w own, ⟨fun c hc => update_of_ne ?_ _ _, rfl, rfl, St.lh_subset_log _ _, fun a ha => ?_⟩,
      B.add hP hA, rfl⟩
    · have := sb.bmapstart_le_bblock b
      omega
    · rw [List.mem_singleton.mp ha]
      exact St.mem_log _ _

theorem truncEntries_spec (w : sb.Wf) (l : List Nat) (own : Own sb s.blk D (l.filter (· ≠ 0) ++ x))
    (hheld : NoBitmapHeld sb s) (hout : 1 ≤ s.outstanding) (B : Budget E A P)
    (hA : ∀ a ∈ l.filter (· ≠ 0), A (sb.bblock a)) (hP : P s.lh) :
    wp E (truncEntries sb l) s fun _ s' =>
      Own sb s'.blk D x ∧ Freed sb (l.filter (· ≠ 0)) s s' ∧ P s'.lh ∧ s'.itable = s.itable := by
  induction l generalizing s with
  | nil => exact ⟨own, Freed.refl, hP, rfl⟩
  | cons a l ih =>
    unfold truncEntries
    refine wp_ite.mpr ⟨fun h0 => ?_, fun h0 => ?_⟩
    · rw [List.filter_cons_of_neg (by simpa using h0)] at own hA ⊢
      exact ih own hheld hout hA hP
    · rw [List.filter_cons_of_pos (by simpa using h0)] at own hA ⊢
      obtain ⟨hAa, hA⟩ := List.forall_mem_cons.mp hA
      refine wp.bind (bfree_own w own hheld hout B hAa hP) ?_
      rintro _ s₁ ⟨own₁, f₁, hP₁, hit₁⟩
      have hheld₁ : NoBitmapHeld sb s₁ := by
        unfold NoBitmapHeld
        rw [f₁.held]
        exact hheld
      refine (ih own₁ hheld₁ (by rw [f₁.outstanding]; exact hout) hA hP₁).mono ?_
      rintro _ s' ⟨own', f', hP', hit'⟩
      exact ⟨own', f₁.trans f', hP', hit'.trans hit₁⟩

/-- The entries of a list of `addrs` are zero. -/
def Inode.clear (ip : Inode) (l : List Nat) : Inode :=
  { ip with addrs := fun i => if i ∈ l then 0 else ip.addrs i }

theorem clear_cons (ip : Inode) (i : Nat) (l : List Nat) : (ip.setAddr i 0).clear l = ip.clear (i :: l) := by
  have : (fun j => if j ∈ l then 0 else update ip.addrs i 0 j) =
      fun j => if j ∈ i :: l then 0 else ip.addrs j := by
    funext j
    by_cases hj : j = i
    · simp [hj]
    · simp [hj]
  unfold Inode.clear Inode.setAddr
  rw [this]

theorem truncDirect_spec (w : sb.Wf) (l : List Nat) (hl : l.Nodup)
    (own : Own sb s.blk D ((l.map (s.itable k).addrs).filter (· ≠ 0) ++ x)) (hheld : NoBitmapHeld sb s)
    (hout : 1 ≤ s.outstanding) (B : Budget E A P)
    (hA : ∀ a ∈ (l.map (s.itable k).addrs).filter (· ≠ 0), A (sb.bblock a)) (hP : P s.lh) :
    wp E (truncDirect sb k l) s fun _ s' => Own sb s'.blk D x ∧
      Freed sb ((l.map (s.itable k).addrs).filter (· ≠ 0)) s s' ∧ P s'.lh ∧
      s'.itable = update s.itable k ((s.itable k).clear l) := by
  induction l generalizing s with
  | nil =>
    refine ⟨own, Freed.refl, hP, ?_⟩
    simp [Inode.clear]
  | cons i l ih =>
    obtain ⟨hi, hl⟩ := List.nodup_cons.mp hl
    unfold truncDirect
    refine wp_bind.mpr (wp_getInode.mpr (wp_ite.mpr ⟨fun h0 => ?_, fun h0 => ?_⟩))
    · rw [List.map_cons, List.filter_cons_of_neg (by simpa using h0)] at own hA ⊢
      refine (ih hl own hheld hout hA hP).mono ?_
      rintro _ s' ⟨own', f', hP', hit'⟩
      refine ⟨own', f', hP', ?_⟩
      have : (s.itable k).setAddr i 0 = s.itable k := by
        unfold Inode.setAddr
        rw [show update (s.itable k).addrs i 0 = (s.itable k).addrs by
          rw [← h0, update_eq_self]]
      rw [hit', ← clear_cons, this]
    · rw [List.map_cons, List.filter_cons_of_pos (by simpa using h0)] at own hA ⊢
      obtain ⟨hAa, hA⟩ := List.forall_mem_cons.mp hA
      refine wp.bind (bfree_own w own hheld hout B hAa hP) ?_
      rintro _ s₁ ⟨own₁, f₁, hP₁, hit₁⟩
      refine wp_bind.mpr (wp_setInode.mpr ?_)
      -- the entries that are left are as they were
      have haddrs : l.map ((s₁.setInode k ((s.itable k).setAddr i 0)).itable k).addrs =
          l.map (s.itable k).addrs := by
        refine List.map_congr_left fun j hj => ?_
        have hji : j ≠ i := fun he => hi (he ▸ hj)
        simp [Inode.setAddr, hji]
      have hheld₁ : NoBitmapHeld sb (s₁.setInode k ((s.itable k).setAddr i 0)) := by
        unfold NoBitmapHeld
        rw [St.setInode_held, f₁.held]
        exact hheld
      refine (ih hl (by rw [haddrs]; exact own₁) hheld₁
        (by rw [St.setInode_outstanding, f₁.outstanding]; exact hout) (by rw [haddrs]; exact hA) hP₁).mono ?_
      rintro _ s' ⟨own', f', hP', hit'⟩
      rw [haddrs] at f'
      refine ⟨own', f₁.trans ⟨f'.blk, f'.held, f'.outstanding, f'.lh, f'.logged⟩, hP', ?_⟩
      rw [hit', St.setInode_itable, update_idem, update_self, clear_cons, hit₁]

end Loops

/-! ## `itrunc` -/

/-- The inode in table entry `k` is empty. -/
def Inode.empty (ip : Inode) : Inode := { ip with size := 0, addrs := fun _ => 0 }

/-- The contents of the inode in table entry `k` are discarded, and nothing else. -/
structure Truncated (sb : Superblock) (k : Nat) (s s' : St) : Prop where
  inv : Inv sb s'
  itable : s'.itable = Function.update s.itable k (s.itable k).empty
  disk : ∀ i < sb.ninodes, s'.disk sb i =
    if i = (s.itable k).inum then (s.itable k).empty.toDinode else s.disk sb i
  cur : s'.cur sb = Function.update (s.cur sb) (s.itable k).inum (s.itable k).empty.toDinode
  blk : ∀ b, sb.nmeta ≤ b → s'.blk b = s.blk b
  held : s'.held = s.held
  outstanding : s'.outstanding = s.outstanding

section Itrunc

variable {sb : Superblock} {E : Panic → Prop} {A : Nat → Prop} {P : List Nat → Prop} {s s' : St}
  {k : Nat} {D : Nat → Dinode}

theorem Inode.empty_wf {ip : Inode} (h : ip.toDinode.Wf) : ip.empty.toDinode.Wf :=
  ⟨h.type_lt, h.major_lt, h.minor_lt, h.nlink_lt, Nat.two_pow_pos 32, fun _ => Nat.two_pow_pos 32,
    fun _ _ => rfl⟩

/-- The second part of `itrunc`: the indirect block and what it lists. -/
theorem truncIndirect_spec (w : sb.Wf) {ip : Inode} (hip : s.itable k = ip) {l : List Nat}
    (hl : l = if ip.addrs NDIRECT = 0 then [] else
      ((List.range NINDIRECT).map (Bytes.getU32 (s.blk (ip.addrs NDIRECT)))).filter (· ≠ 0) ++
        [ip.addrs NDIRECT])
    (own : Own sb s.blk D l) (hheld : s.held = []) (hout : 1 ≤ s.outstanding) (B : Budget E A P)
    (hA : ∀ a ∈ l, A (sb.bblock a)) (hP : P s.lh) :
    wp E (if ip.addrs NDIRECT = 0 then pure () else do
      let d ← bread (ip.addrs NDIRECT)
      truncEntries sb ((List.range NINDIRECT).map (Bytes.getU32 d))
      brelse (ip.addrs NDIRECT)
      bfree sb (ip.addrs NDIRECT)
      setInode k (ip.setAddr NDIRECT 0)) s fun _ s' =>
      Own sb s'.blk D [] ∧ Freed sb l s s' ∧ P s'.lh ∧
        s'.itable = update s.itable k (ip.setAddr NDIRECT 0) := by
  refine wp_ite.mpr ⟨fun h0 => ?_, fun h0 => ?_⟩
  · rw [if_pos h0] at hl
    subst hl
    refine ⟨own, Freed.refl, hP, ?_⟩
    have : ip.setAddr NDIRECT 0 = ip := by
      unfold Inode.setAddr
      rw [show update ip.addrs NDIRECT 0 = ip.addrs by rw [← h0, update_eq_self]]
    rw [this, ← hip, update_eq_self]
  · rw [if_neg h0] at hl
    subst hl
    obtain ⟨hAe, hAi⟩ := List.forall_mem_append.mp hA
    have hdata := own.extra_data (ip.addrs NDIRECT) (List.mem_append_right _ List.mem_cons_self)
    refine wp_bind.mpr (wp_bread (by rw [hheld]; exact List.not_mem_nil) ?_)
    have hheld₁ : NoBitmapHeld sb (s.hold (ip.addrs NDIRECT)) := by
      intro c hc
      rw [St.hold_held, hheld] at hc
      rw [List.mem_singleton.mp hc]
      exact hdata.1
    refine wp.bind (truncEntries_spec w _ own hheld₁ hout B hAe hP) ?_
    rintro _ s₁ ⟨own₁, f₁, hP₁, hit₁⟩
    refine wp_bind.mpr (wp_brelse.mpr ?_)
    have hheld₂ : (s₁.unhold (ip.addrs NDIRECT)).held = [] := by
      show s₁.held.erase _ = []
      rw [f₁.held, St.hold_held, hheld, List.erase_cons_head]
    have own₂ : Own sb (s₁.unhold (ip.addrs NDIRECT)).blk D [ip.addrs NDIRECT] := own₁
    refine wp.bind (bfree_own w own₂ ?_ ?_ B (hAi _ List.mem_cons_self) hP₁) ?_
    · intro c hc
      rw [hheld₂] at hc
      cases hc
    · show 1 ≤ s₁.outstanding
      rw [f₁.outstanding]
      exact hout
    · rintro _ s₂ ⟨own₃, f₂, hP₂, hit₂⟩
      have f : Freed sb _ s (s₁.unhold (ip.addrs NDIRECT)) :=
        ⟨f₁.blk, hheld₂.trans hheld.symm, f₁.outstanding, f₁.lh, f₁.logged⟩
      have f := f.trans f₂
      refine ⟨own₃, ⟨f.blk, f.held, f.outstanding, f.lh, f.logged⟩, hP₂, ?_⟩
      rw [St.setInode_itable, hit₂]
      show update s₁.itable _ _ = _
      rw [hit₁]
      rfl

/-- The end of `itrunc`: the empty inode goes to the disk. -/
theorem truncated_of_freed {l : List Nat} (w : sb.Wf) (t : TableOk sb s) (lo : Loaded s k) (f : Freed sb l s s')
    (own : Own sb s'.blk
      (update (s.cur sb) (s.itable k).inum (s.itable k).empty.toDinode) [])
    (hit : s'.itable = update s.itable k (s.itable k).empty) :
    Truncated sb k s (s'.iupdate sb k) := by
  have hwf := Inode.empty_wf (t.wf lo.live lo.valid)
  have hnum := lo.inum_lt t
  have hk : s'.itable k = (s.itable k).empty := by
    rw [hit, update_self]
  have t' : TableOk sb s' :=
    (t.setInode lo.live (s.itable k).empty rfl lo.live.2 (fun _ => hnum) fun _ => hwf).congr hit
  have hlive : s'.Live k := ⟨lo.live.1, by rw [hk]; exact lo.live.2⟩
  have hvalid : (s'.itable k).valid = true := by
    rw [hk]
    exact lo.valid
  have hdisk : ∀ i < sb.ninodes, s'.disk sb i = s.disk sb i := by
    intro i hi
    unfold St.disk
    rw [f.blk _ (.inl (w.iblock_lt hi))]
  have hcur : s'.cur sb =
      update (s.cur sb) (s.itable k).inum (s.itable k).empty.toDinode := by
    refine (cur_congr hit fun i hi => ?_).trans
      (cur_setInode t lo.live (s.itable k).empty rfl lo.live.2 hnum lo.valid hwf)
    rw [hdisk i hi]
    rfl
  have hcur' := (cur_iupdate t' hlive hvalid).trans hcur
  have hib : sb.iblock (s'.itable k).inum < sb.bmapstart := by
    rw [hk]
    exact w.iblock_lt hnum
  refine ⟨⟨t'.congr rfl, ?_⟩, hit, fun i hi => ?_, hcur', fun b hb => ?_, f.held, f.outstanding⟩
  · rw [hcur']
    exact own.writeMeta w hib _
  · rw [disk_iupdate t' hlive hvalid, hk, hdisk i hi]
    rfl
  · have hne : b ≠ sb.iblock (s'.itable k).inum := by
      have := w.bmapstart_lt
      omega
    exact (update_of_ne hne _ _).trans (f.blk b (.inr hb))

/-- The two loops set all of `addrs` to zero. -/
theorem clear_setAddr_size {ip : Inode} (h : ip.toDinode.Wf) :
    { (ip.clear (List.range NDIRECT)).setAddr NDIRECT 0 with size := 0 } = ip.empty := by
  have : update (fun i => if i ∈ List.range NDIRECT then 0 else ip.addrs i) NDIRECT 0 =
      fun _ => 0 := by
    funext i
    rcases Nat.lt_trichotomy i NDIRECT with hi | hi | hi
    · rw [update_of_ne (Nat.ne_of_lt hi)]
      simp [hi]
    · rw [hi, update_self]
    · rw [update_of_ne (Nat.ne_of_gt hi), if_neg (by simp; omega), h.addrs_end i hi]
  unfold Inode.setAddr Inode.clear Inode.empty
  simp only [this]

/-- `itrunc` discards the contents of the inode. -/
theorem itrunc_spec (w : sb.Wf) (inv : Inv sb s) (lo : Loaded s k) (hheld : s.held = [])
    (hout : 1 ≤ s.outstanding) (B : Budget E A P)
    (hA : ∀ b ∈ (s.itable k).logs sb s.blk (s.itable k).inum, A b) (hP : P s.lh) :
    wp E (itrunc sb k) s fun _ s' => Truncated sb k s s' ∧ P s'.lh ∧
      (s.itable k).logs sb s.blk (s.itable k).inum ⊆ s'.lh := by
  obtain ⟨t, own⟩ := inv
  obtain ⟨hAi, hA⟩ := List.forall_mem_cons.mp hA
  rw [List.forall_mem_map, Dinode.blocks_eq] at hA
  obtain ⟨hAd, hAe⟩ := List.forall_mem_append.mp hA
  have hwf := t.wf lo.live lo.valid
  have ht : (s.cur sb (s.itable k).inum).type ≠ 0 := by
    rw [lo.cur t]
    exact lo.type
  have own₀ := own.releaseAll ht (d := (s.itable k).empty.toDinode) rfl
  rw [lo.cur t, List.append_nil, Dinode.blocks_eq] at own₀
  have hnb : NoBitmapHeld sb s := by
    intro c hc
    rw [hheld] at hc
    cases hc
  refine wp.bind (truncDirect_spec w _ List.nodup_range own₀ hnb hout B hAd hP) ?_
  rintro _ s₁ ⟨own₁, f₁, hP₁, hit₁⟩
  have hk₁ : s₁.itable k = (s.itable k).clear (List.range NDIRECT) := by
    rw [hit₁, update_self]
  have hind : ((s.itable k).clear (List.range NDIRECT)).addrs NDIRECT = (s.itable k).addrs NDIRECT := by
    simp [Inode.clear]
  refine wp_bind.mpr (wp_getInode.mpr ?_)
  rw [hk₁]
  refine wp.bind (truncIndirect_spec w hk₁ ?_ own₁ (f₁.held.trans hheld)
    (by rw [f₁.outstanding]; exact hout) B hAe hP₁) ?_
  · -- the indirect block is as it was
    rw [hind]
    by_cases h0 : (s.itable k).addrs NDIRECT = 0
    · rw [if_pos h0, if_pos h0]
    · have hr : Ref s.blk (s.cur sb) (s.itable k).inum .indirect ((s.itable k).addrs NDIRECT) :=
        lo.ref t h0
      rw [f₁.blk _ (.inr (own.data hr).1)]
  rintro _ s₂ ⟨own₂, f₂, hP₂, hit₂⟩
  have hk₂ : s₂.itable k = ((s.itable k).clear (List.range NDIRECT)).setAddr NDIRECT 0 := by
    rw [hit₂, update_self]
  have f := f₁.trans f₂
  refine wp_bind.mpr (wp_getInode.mpr (wp_bind.mpr (wp_setInode.mpr ?_)))
  rw [hk₂, clear_setAddr_size hwf]
  have hP₃ : P (s₂.setInode k (s.itable k).empty).lh := hP₂
  refine (iupdate_spec ?_ ?_ (B.full hP₃)).mono ?_
  · rw [St.setInode_held, f.held, hheld]
    exact List.not_mem_nil
  · rw [St.setInode_outstanding, f.outstanding]
    exact hout
  · rintro _ s' rfl
    have hnum : ((s₂.setInode k (s.itable k).empty).itable k).inum = (s.itable k).inum := by
      rw [St.setInode_itable, update_self]
      rfl
    refine ⟨truncated_of_freed w t lo ⟨f.blk, f.held, f.outstanding, f.lh, f.logged⟩ own₂ ?_, B.add hP₂ ?_,
      List.cons_subset.mpr ⟨?_, ?_⟩⟩
    · rw [St.setInode_itable, hit₂, update_idem, hit₁, update_idem]
    · rw [hnum]
      exact hAi
    · rw [← hnum]
      exact St.mem_log _ _
    · intro b hb
      obtain ⟨a, ha, rfl⟩ := List.mem_map.mp hb
      rw [Dinode.blocks_eq] at ha
      exact St.lh_subset_log _ _ (f.logged a ha)

end Itrunc

end Xv6.Fs
