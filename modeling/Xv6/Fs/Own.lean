import Xv6.Fs.Layout

/-!
# Who owns a block

`blk` are the contents of the blocks and `D` the inodes, by number. `Ref blk D i σ a`: the allocated
inode `i` keeps the block number `a` in the place `σ`. `Own sb blk D x` is block ownership: each
block of the data area is referenced at most once, and the bitmap marks the metadata blocks, the
referenced blocks and the blocks `x` that are on their way between the bitmap and an inode.

* `Own.congr`: a change that neither the references nor the bitmap see.
* `Own.take`, `Own.drop`: a bit of the bitmap is set or cleared.
* `Own.attach`, `Own.release`: a block gets its reference, an inode loses all of its own.
-/

namespace Xv6.Fs

open Function (update update_of_ne update_self)

/-- The allocated inode `i` keeps the block number `a` in the place `σ`. -/
def Ref (blk : Nat → Block) (D : Nat → Dinode) (i : Nat) (σ : Slot) (a : Nat) : Prop :=
  (D i).type ≠ 0 ∧ (D i).addr blk σ = a ∧ a ≠ 0

/-- The bit of block `b` in the free map. -/
def bitAt (sb : Superblock) (blk : Nat → Block) (b : Nat) : Bool :=
  Bytes.bit (blk (sb.bblock b)) (b % BPB)

/-- Block ownership. -/
structure Own (sb : Superblock) (blk : Nat → Block) (D : Nat → Dinode) (x : List Nat) : Prop where
  data : ∀ {i σ a}, Ref blk D i σ a → sb.Data a
  inj : ∀ {i i' σ σ' a}, Ref blk D i σ a → Ref blk D i' σ' a → i = i' ∧ σ = σ'
  extra_data : ∀ a ∈ x, sb.Data a
  extra_free : ∀ a ∈ x, ∀ i σ, ¬ Ref blk D i σ a
  extra_nodup : x.Nodup
  bits : ∀ b < sb.size, bitAt sb blk b = true ↔ b < sb.nmeta ∨ b ∈ x ∨ ∃ i σ, Ref blk D i σ b

/-! ## Places under a change of a block -/

variable {blk blk' : Nat → Block} {d : Dinode} {a i : Nat} {D : Nat → Dinode}

theorem Dinode.addr_congr (h : d.addrs NDIRECT ≠ 0 → blk' (d.addrs NDIRECT) = blk (d.addrs NDIRECT))
    (σ : Slot) : d.addr blk' σ = d.addr blk σ := by
  cases σ with
  | direct k => rfl
  | indirect => rfl
  | entry j =>
    simp only [Dinode.addr]
    split
    · rfl
    · rename_i hj
      rw [h fun h0 => hj (.inl h0)]

theorem Dinode.addr_update {e : Block}
    (h : d.addrs NDIRECT ≠ a) (σ : Slot) : d.addr (update blk a e) σ = d.addr blk σ :=
  Dinode.addr_congr (fun _ => update_of_ne h _ _) σ

theorem Ref.congr {σ : Slot}
    (h : (D i).type ≠ 0 → (D i).addrs NDIRECT ≠ 0 →
      blk' ((D i).addrs NDIRECT) = blk ((D i).addrs NDIRECT)) :
    Ref blk' D i σ a ↔ Ref blk D i σ a := by
  unfold Ref
  by_cases ht : (D i).type = 0
  · simp [ht]
  · rw [Dinode.addr_congr (h ht)]

/-- The indirect block of an allocated inode is a reference. -/
theorem ref_indirect (blk : Nat → Block) (ht : (D i).type ≠ 0)
    (h0 : (D i).addrs NDIRECT ≠ 0) : Ref blk D i .indirect ((D i).addrs NDIRECT) :=
  ⟨ht, rfl, h0⟩

/-! ## The bitmap under a change of a block -/

section Bits

variable {sb : Superblock} {blk : Nat → Block} {a b c : Nat} {e : Block}

theorem bitAt_update_of_ne (h : sb.bblock c ≠ a) : bitAt sb (update blk a e) c = bitAt sb blk c := by
  rw [bitAt, update_of_ne h, bitAt]

theorem bblock_mod_inj (h : sb.bblock b = sb.bblock c) (hm : b % BPB = c % BPB) : b = c := by
  have hd : b / BPB = c / BPB := Nat.add_right_cancel h
  rw [← Nat.div_add_mod b BPB, ← Nat.div_add_mod c BPB, hd, hm]

/-- Block `b`'s bit becomes `v`. -/
theorem bitAt_change {d : Block} {v : Bool}
    (hd : ∀ j, Bytes.bit d j = if j = b % BPB then v else Bytes.bit (blk (sb.bblock b)) j) :
    bitAt sb (update blk (sb.bblock b) d) c = if c = b then v else bitAt sb blk c := by
  by_cases h : sb.bblock c = sb.bblock b
  · rw [bitAt, bitAt, h, update_self, hd]
    by_cases hm : c % BPB = b % BPB
    · rw [if_pos hm, if_pos (bblock_mod_inj h hm)]
    · rw [if_neg hm, if_neg fun hc => hm (by rw [hc])]
  · rw [bitAt_update_of_ne h, if_neg fun hc => h (by rw [hc])]

theorem bitAt_setBit :
    bitAt sb (update blk (sb.bblock b) (Bytes.setBit (blk (sb.bblock b)) (b % BPB))) c =
      if c = b then true else bitAt sb blk c := bitAt_change (Bytes.bit_setBit _ _)

theorem bitAt_clearBit :
    bitAt sb (update blk (sb.bblock b) (Bytes.clearBit (blk (sb.bblock b)) (b % BPB))) c =
      if c = b then false else bitAt sb blk c := bitAt_change (Bytes.bit_clearBit _ _)

end Bits

/-! ## Ownership under a change -/

namespace Own

variable {sb : Superblock} {blk blk' : Nat → Block} {D D' : Nat → Dinode} {x : List Nat}

/-- Nothing that ownership reads has changed. -/
theorem congr (h : Own sb blk D x) (href : ∀ i σ a, Ref blk' D' i σ a ↔ Ref blk D i σ a)
    (hbit : ∀ b < sb.size, bitAt sb blk' b = bitAt sb blk b) : Own sb blk' D' x where
  data hr := h.data ((href _ _ _).mp hr)
  inj hr hr' := h.inj ((href _ _ _).mp hr) ((href _ _ _).mp hr')
  extra_data := h.extra_data
  extra_free a ha i σ hr := h.extra_free a ha i σ ((href _ _ _).mp hr)
  extra_nodup := h.extra_nodup
  bits b hb := by
    rw [hbit b hb, h.bits b hb]
    simp only [href]

variable {b i a j n : Nat} {σ : Slot}

/-- Block `b` was free and its bit is set now. -/
theorem take (h : Own sb blk D x) (hb : b < sb.size) (hfree : bitAt sb blk b = false)
    (href : ∀ i σ a, Ref blk' D i σ a ↔ Ref blk D i σ a)
    (hbit : ∀ c < sb.size, bitAt sb blk' c = if c = b then true else bitAt sb blk c) : Own sb blk' D (b :: x) := by
  have hno : ¬ (b < sb.nmeta ∨ b ∈ x ∨ ∃ i σ, Ref blk D i σ b) := by
    rw [← h.bits b hb, hfree]
    exact Bool.false_ne_true
  refine ⟨fun hr => h.data ((href _ _ _).mp hr),
    fun hr hr' => h.inj ((href _ _ _).mp hr) ((href _ _ _).mp hr'), ?_, ?_, ?_, ?_⟩
  · intro a ha
    rcases List.mem_cons.mp ha with rfl | ha
    · exact ⟨Nat.le_of_not_lt fun hlt => hno (.inl hlt), hb⟩
    · exact h.extra_data a ha
  · intro a ha i σ hr
    rcases List.mem_cons.mp ha with rfl | ha
    · exact hno (.inr (.inr ⟨i, σ, (href _ _ _).mp hr⟩))
    · exact h.extra_free a ha i σ ((href _ _ _).mp hr)
  · exact List.nodup_cons.mpr ⟨fun hx => hno (.inr (.inl hx)), h.extra_nodup⟩
  · intro c hc
    rw [hbit c hc]
    simp only [href, List.mem_cons]
    split
    · rename_i hcb
      simp [hcb]
    · rename_i hcb
      rw [h.bits c hc]
      simp [hcb]

/-- Block `b` was on its way and its bit is clear now. -/
theorem drop (h : Own sb blk D (b :: x)) (href : ∀ i σ a, Ref blk' D i σ a ↔ Ref blk D i σ a)
    (hbit : ∀ c < sb.size, bitAt sb blk' c = if c = b then false else bitAt sb blk c) : Own sb blk' D x := by
  have hb : b ∈ b :: x := List.mem_cons_self
  obtain ⟨hbx, hx⟩ := List.nodup_cons.mp h.extra_nodup
  refine ⟨fun hr => h.data ((href _ _ _).mp hr),
    fun hr hr' => h.inj ((href _ _ _).mp hr) ((href _ _ _).mp hr'),
    fun a ha => h.extra_data a (List.mem_cons_of_mem _ ha),
    fun a ha i σ hr => h.extra_free a (List.mem_cons_of_mem _ ha) i σ ((href _ _ _).mp hr), hx, ?_⟩
  intro c hc
  rw [hbit c hc]
  simp only [href]
  split
  · rename_i hcb
    subst hcb
    refine ⟨nofun, ?_⟩
    rintro (hm | hcx | ⟨i, σ, hr⟩)
    · exact absurd (h.extra_data c hb).1 (Nat.not_le_of_lt hm)
    · exact absurd hcx hbx
    · exact absurd hr (h.extra_free c hb i σ)
  · rename_i hcb
    rw [h.bits c hc]
    simp [hcb]

/-- Block `b` was on its way and is now referenced from the place `σ` of inode `i`. -/
theorem attach (h : Own sb blk D (b :: x))
    (href : ∀ i' σ' a, Ref blk' D' i' σ' a ↔ Ref blk D i' σ' a ∨ (i' = i ∧ σ' = σ ∧ a = b))
    (hbit : ∀ c < sb.size, bitAt sb blk' c = bitAt sb blk c) : Own sb blk' D' x := by
  have hb : b ∈ b :: x := List.mem_cons_self
  obtain ⟨hbx, hx⟩ := List.nodup_cons.mp h.extra_nodup
  refine ⟨?_, ?_, fun a ha => h.extra_data a (List.mem_cons_of_mem _ ha), ?_, hx, ?_⟩
  · intro i' σ' a hr
    rcases (href _ _ _).mp hr with hr | ⟨-, -, rfl⟩
    · exact h.data hr
    · exact h.extra_data _ hb
  · intro i₁ i₂ σ₁ σ₂ a hr₁ hr₂
    rcases (href _ _ _).mp hr₁ with h₁ | ⟨hi₁, hσ₁, rfl⟩
    · rcases (href _ _ _).mp hr₂ with h₂ | ⟨-, -, rfl⟩
      · exact h.inj h₁ h₂
      · exact absurd h₁ (h.extra_free _ hb _ _)
    · rcases (href _ _ _).mp hr₂ with h₂ | ⟨hi₂, hσ₂, -⟩
      · exact absurd h₂ (h.extra_free _ hb _ _)
      · exact ⟨hi₁.trans hi₂.symm, hσ₁.trans hσ₂.symm⟩
  · intro a ha i' σ' hr
    rcases (href _ _ _).mp hr with hr | ⟨-, -, rfl⟩
    · exact h.extra_free a (List.mem_cons_of_mem _ ha) _ _ hr
    · exact hbx ha
  · intro c hc
    rw [hbit c hc, h.bits c hc]
    simp only [href, List.mem_cons]
    constructor
    · rintro (hm | (rfl | hcx) | ⟨i', σ', hr⟩)
      · exact .inl hm
      · exact .inr (.inr ⟨i, σ, .inr ⟨rfl, rfl, rfl⟩⟩)
      · exact .inr (.inl hcx)
      · exact .inr (.inr ⟨i', σ', .inl hr⟩)
    · rintro (hm | hcx | ⟨i', σ', hr | ⟨-, -, rfl⟩⟩)
      · exact .inl hm
      · exact .inr (.inl (.inr hcx))
      · exact .inr (.inr ⟨i', σ', hr⟩)
      · exact .inr (.inl (.inl rfl))

/-- Inode `i` has no reference left; its blocks are on their way. -/
theorem release {y : List Nat} (h : Own sb blk D x) (hy : y.Nodup) (hmem : ∀ a, a ∈ y ↔ ∃ σ, Ref blk D i σ a)
    (href : ∀ i' σ a, Ref blk' D' i' σ a ↔ i' ≠ i ∧ Ref blk D i' σ a)
    (hbit : ∀ c < sb.size, bitAt sb blk' c = bitAt sb blk c) : Own sb blk' D' (y ++ x) := by
  refine ⟨fun hr => h.data ((href _ _ _).mp hr).2,
    fun hr hr' => h.inj ((href _ _ _).mp hr).2 ((href _ _ _).mp hr').2, ?_, ?_, ?_, ?_⟩
  · intro a ha
    rcases List.mem_append.mp ha with ha | ha
    · obtain ⟨σ, hr⟩ := (hmem a).mp ha
      exact h.data hr
    · exact h.extra_data a ha
  · intro a ha i' σ' hr
    obtain ⟨hne, hr⟩ := (href _ _ _).mp hr
    rcases List.mem_append.mp ha with ha | ha
    · obtain ⟨σ, hr'⟩ := (hmem a).mp ha
      exact hne (h.inj hr hr').1
    · exact h.extra_free a ha _ _ hr
  · refine List.nodup_append.mpr ⟨hy, h.extra_nodup, fun a ha b hb => ?_⟩
    rintro rfl
    obtain ⟨σ, hr⟩ := (hmem a).mp ha
    exact h.extra_free a hb _ _ hr
  · intro c hc
    rw [hbit c hc, h.bits c hc]
    simp only [href, List.mem_append, hmem]
    constructor
    · rintro (hm | hcx | ⟨i', σ, hr⟩)
      · exact .inl hm
      · exact .inr (.inl (.inr hcx))
      · by_cases hi : i' = i
        · subst hi
          exact .inr (.inl (.inl ⟨σ, hr⟩))
        · exact .inr (.inr ⟨i', σ, hi, hr⟩)
    · rintro (hm | (⟨σ, hr⟩ | hcx) | ⟨i', σ, -, hr⟩)
      · exact .inl hm
      · exact .inr (.inr ⟨i, σ, hr⟩)
      · exact .inr (.inl hcx)
      · exact .inr (.inr ⟨i', σ, hr⟩)

/-- A referenced block is marked in the bitmap. -/
theorem bit_of_ref (h : Own sb blk D x) (hr : Ref blk D i σ a) : bitAt sb blk a = true :=
  (h.bits a (h.data hr).2).mpr (.inr (.inr ⟨i, σ, hr⟩))

/-- A block whose bit is clear has no reference. -/
theorem not_ref_of_free (h : Own sb blk D x) (hfree : bitAt sb blk b = false) : ¬ Ref blk D i σ b := by
  intro hr
  rw [h.bit_of_ref hr] at hfree
  cases hfree

theorem data_of_free (h : Own sb blk D x) (hb : b < sb.size) (hfree : bitAt sb blk b = false) : sb.Data b := by
  refine ⟨Nat.le_of_not_lt fun hlt => ?_, hb⟩
  rw [(h.bits b hb).mpr (.inl hlt)] at hfree
  cases hfree

/-- The indirect blocks of two allocated inodes differ, and are no block of contents. -/
theorem ne_indirect (h : Own sb blk D x) (hr : Ref blk D i σ a)
    (hj : (D j).type ≠ 0) (hne : j ≠ i ∨ σ ≠ .indirect) : (D j).addrs NDIRECT ≠ a := by
  intro ha
  have h0 : (D j).addrs NDIRECT ≠ 0 := by rw [ha]; exact hr.2.2
  have := h.inj (ha ▸ ref_indirect blk hj h0 : Ref blk D j .indirect a) hr
  rcases hne with hne | hne
  · exact hne this.1
  · exact hne this.2.symm

variable {d : Dinode} {i' bn c : Nat} {σ' : Slot} {e : Block}

/-- The fields of an inode other than its type and its block numbers are no references. -/
theorem ref_setFields (ht : d.type = 0 ↔ (D n).type = 0) (ha : d.addrs = (D n).addrs) :
    Ref blk (update D n d) i σ a ↔ Ref blk D i σ a := by
  by_cases hn : i = n
  · subst hn
    have haddr : d.addr blk σ = (D i).addr blk σ := by
      cases σ <;> simp [Dinode.addr, ha]
    simp only [Ref, update_self, haddr, ne_eq, ht]
  · simp [Ref, hn]

theorem setFields (h : Own sb blk D x) (ht : d.type = 0 ↔ (D n).type = 0)
    (ha : d.addrs = (D n).addrs) : Own sb blk (update D n d) x :=
  h.congr (fun _ _ _ => ref_setFields ht ha) fun _ _ => rfl

/-! ## The steps of the allocator -/

/-- Marking and zeroing a free block leaves the references. -/
theorem ref_alloc (h : Own sb blk D x) (w : sb.Wf) (hb : b < sb.size) (hfree : bitAt sb blk b = false) :
    Ref (update (update blk (sb.bblock b)
      (Bytes.setBit (blk (sb.bblock b)) (b % BPB))) b fun _ => 0) D i σ a ↔ Ref blk D i σ a := by
  refine Ref.congr fun ht h0 => ?_
  have hr := ref_indirect blk ht h0
  have hne : (D i).addrs NDIRECT ≠ b := by
    intro he
    rw [he] at hr
    exact h.not_ref_of_free hfree hr
  rw [update_of_ne hne, update_of_ne (w.data_ne_bblock (h.data hr) hb)]

/-- The free block `b` is marked and zeroed. -/
theorem alloc (h : Own sb blk D x) (w : sb.Wf) (hb : b < sb.size) (hfree : bitAt sb blk b = false) :
    Own sb (update (update blk (sb.bblock b)
      (Bytes.setBit (blk (sb.bblock b)) (b % BPB))) b fun _ => 0) D (b :: x) := by
  have hdata := h.data_of_free hb hfree
  refine h.take hb hfree (fun _ _ _ => h.ref_alloc w hb hfree) fun c hc => ?_
  rw [bitAt_update_of_ne (w.data_ne_bblock hdata hc).symm, bitAt_setBit]

section

variable (h : Own sb blk D (b :: x)) (w : sb.Wf)
include h w

/-- A block on its way is freed. -/
theorem free :
    Own sb (update blk (sb.bblock b)
      (Bytes.clearBit (blk (sb.bblock b)) (b % BPB))) D x := by
  have hb := (h.extra_data b List.mem_cons_self).2
  refine h.drop (fun i σ a => Ref.congr fun ht h0 => ?_) fun c _ => bitAt_clearBit
  exact update_of_ne (w.data_ne_bblock (h.data (ref_indirect blk ht h0)) hb) _ _

/-- A block on its way, zeroed, is stored in `addrs[i]`: one more reference. -/
theorem ref_setAddr (ht : (D n).type ≠ 0)
    (hi : i ≤ NDIRECT) (h0 : (D n).addrs i = 0) (hz : blk b = fun _ => 0) :
    Ref blk (update D n { D n with addrs := update (D n).addrs i b }) i' σ' a ↔
      Ref blk D i' σ' a ∨ (i' = n ∧ σ' = .ofAddr i ∧ a = b) := by
  have hb0 : b ≠ 0 := w.data_ne_zero (h.extra_data b List.mem_cons_self)
  by_cases hn : i' = n
  · subst hn
    simp only [Ref, update_self, ht, ne_eq, not_false_eq_true, true_and, Slot.ofAddr]
    rcases Nat.lt_or_ge i NDIRECT with hlt | hge
    · -- a direct block: the indirect block and its entries are as before
      have h12 : update (D i').addrs i b NDIRECT = (D i').addrs NDIRECT :=
        update_of_ne (Nat.ne_of_gt hlt) _ _
      rw [if_pos hlt]
      cases σ' with
      | direct k =>
        simp only [Dinode.addr, Slot.direct.injEq]
        by_cases hk : k = i
        · subst hk
          simp only [hlt, if_true, update_self, h0, true_and]
          constructor
          · rintro ⟨rfl, -⟩
            exact .inr rfl
          · rintro (⟨rfl, h⟩ | rfl)
            · exact absurd rfl h
            · exact ⟨rfl, hb0⟩
        · simp [hk]
      | indirect => simp [Dinode.addr, h12]
      | entry j => simp [Dinode.addr, h12]
    · -- the indirect block: it has no entry yet
      have he : i = NDIRECT := Nat.le_antisymm hi hge
      subst he
      rw [if_neg (Nat.lt_irrefl _)]
      cases σ' with
      | direct k =>
        simp only [Dinode.addr]
        by_cases hk : k < NDIRECT
        · simp [hk, update_of_ne (Nat.ne_of_lt hk)]
        · simp [hk]
      | indirect =>
        simp only [Dinode.addr, update_self, h0, true_and]
        constructor
        · rintro ⟨rfl, -⟩
          exact .inr rfl
        · rintro (⟨rfl, h⟩ | rfl)
          · exact absurd rfl h
          · exact ⟨rfl, hb0⟩
      | entry j =>
        simp only [Dinode.addr, update_self, h0, hz, Bytes.getU32_zero, ite_self, true_or,
          if_true]
        simp
  · simp [Ref, hn]

theorem attachAddr (ht : (D n).type ≠ 0) (hi : i ≤ NDIRECT) (h0 : (D n).addrs i = 0) (hz : blk b = fun _ => 0) :
    Own sb blk (update D n { D n with addrs := update (D n).addrs i b }) x :=
  h.attach (fun _ _ _ => h.ref_setAddr w ht hi h0 hz) fun _ _ => rfl

section

variable (ht : (D n).type ≠ 0) (hc : (D n).addrs NDIRECT ≠ 0) (hj : j < NINDIRECT)
  (h0 : Bytes.getU32 (blk ((D n).addrs NDIRECT)) j = 0)
include ht hc hj h0

/-- A block on its way is stored in an entry of an indirect block: one more reference. -/
theorem ref_setEntry :
    Ref (update blk ((D n).addrs NDIRECT)
      (Bytes.setU32 (blk ((D n).addrs NDIRECT)) j b)) D i' σ' a ↔
      Ref blk D i' σ' a ∨ (i' = n ∧ σ' = .entry j ∧ a = b) := by
  have hb := h.extra_data b List.mem_cons_self
  by_cases hn : i' = n
  · subst hn
    simp only [Ref, ht, ne_eq, not_false_eq_true, true_and]
    cases σ' with
    | direct k => simp [Dinode.addr]
    | indirect => simp [Dinode.addr]
    | entry j' =>
      simp only [Dinode.addr, hc, false_or, update_self, Slot.entry.injEq]
      by_cases hjj : j' = j
      · subst hjj
        rw [if_neg (Nat.not_le_of_lt hj), if_neg (Nat.not_le_of_lt hj), h0,
          Bytes.getU32_setU32_same _ _ _ (w.data_lt hb)]
        constructor
        · rintro ⟨rfl, -⟩
          exact .inr ⟨rfl, rfl⟩
        · rintro (⟨rfl, h⟩ | ⟨-, rfl⟩)
          · exact absurd rfl h
          · exact ⟨rfl, w.data_ne_zero hb⟩
      · rw [Bytes.getU32_setU32_ne _ _ hjj]
        simp [hjj]
  · have hr := ref_indirect blk ht hc
    rw [Ref.congr fun ht' _ => update_of_ne (h.ne_indirect hr ht' (.inl hn)) _ _]
    simp [hn]

theorem attachEntry :
    Own sb (update blk ((D n).addrs NDIRECT)
      (Bytes.setU32 (blk ((D n).addrs NDIRECT)) j b)) D x := by
  have hr := ref_indirect blk ht hc
  exact h.attach (fun _ _ _ => h.ref_setEntry w ht hc hj h0) fun c hlt =>
    bitAt_update_of_ne (w.data_ne_bblock (h.data hr) hlt).symm

end

end

/-- A store to a block of contents leaves the references. -/
theorem ref_write (h : Own sb blk D x) (hr : Ref blk D n (.of bn) a) : Ref (update blk a e) D i σ c ↔ Ref blk D i σ c :=
  Ref.congr fun ht _ =>
    update_of_ne (h.ne_indirect hr ht (.inr (Slot.of_ne_indirect bn))) _ _

theorem write (h : Own sb blk D x) (w : sb.Wf) (hr : Ref blk D n (.of bn) a)
    (e : Block) : Own sb (update blk a e) D x :=
  h.congr (fun _ _ _ => h.ref_write hr) fun _ hc =>
    bitAt_update_of_ne (w.data_ne_bblock (h.data hr) hc).symm

/-- A store to a block before the bitmap leaves the references. -/
theorem ref_writeMeta (h : Own sb blk D x) (w : sb.Wf) (ha : a < sb.bmapstart) :
    Ref (update blk a e) D i σ c ↔ Ref blk D i σ c := by
  refine Ref.congr fun ht h0 => ?_
  have := (h.data (ref_indirect blk ht h0)).1
  have := w.bmapstart_lt
  exact update_of_ne (by omega) _ _

theorem writeMeta (h : Own sb blk D x) (w : sb.Wf) (ha : a < sb.bmapstart) (e : Block) :
    Own sb (update blk a e) D x := by
  refine h.congr (fun _ _ _ => h.ref_writeMeta w ha) fun c _ => bitAt_update_of_ne ?_
  have := sb.bmapstart_le_bblock c
  omega

end Own

end Xv6.Fs
