import Xv6.Fs.Trunc

/-!
# References to inodes

`Refs s L`: the pointers to entries of the inode table that the kernel holds are `L`, one element for
each pointer, and `ref` counts them. `iget` adds one, `iput` takes one away.

Between two operations the table's valid copies are those on disk (`Good`), so an inode is what the
disk holds (`Good.cur_eq`), and a change of the table that keeps this changes no inode
(`Good.retable`). `iput_spec` says when `iput` frees an inode and what is left of it.
-/

namespace Xv6.Fs

open Function (update update_idem update_of_ne update_self)

open Seq Seq.M

/-- The pointers to table entries are `L`. -/
structure Refs (s : St) (L : List Nat) : Prop where
  lt : ∀ k ∈ L, k < NINODE
  count : ∀ k < NINODE, (s.itable k).ref = L.count k

/-- Entry `j` is for the same inode, with the same copy of it. -/
structure SameInode (s s' : St) (j : Nat) : Prop where
  inum : (s'.itable j).inum = (s.itable j).inum
  valid : (s'.itable j).valid = (s.itable j).valid
  dinode : (s'.itable j).toDinode = (s.itable j).toDinode

variable {s s' : St} {sb : Superblock} {E : Panic → Prop}

theorem SameInode.of_eq {j : Nat} (h : s'.itable j = s.itable j) : SameInode s s' j := by
  constructor <;> rw [h]

/-- No inode and no block has changed. -/
structure Calm (sb : Superblock) (s s' : St) : Prop where
  blk : s'.blk = s.blk
  cur : s'.cur sb = s.cur sb
  outstanding : s'.outstanding = s.outstanding
  lh : s'.lh = s.lh
  wrote : s'.wrote = s.wrote

section Table

variable {sb : Superblock} {s s' s'' : St} {k : Nat} {L : List Nat} {ord : Prop}

theorem Refs.live_iff (r : Refs s L) : s.Live k ↔ k ∈ L := by
  constructor
  · rintro ⟨hlt, hpos⟩
    rw [r.count k hlt] at hpos
    exact List.count_pos_iff.mp hpos
  · intro hk
    have hlt := r.lt k hk
    exact ⟨hlt, by rw [r.count k hlt]; exact List.count_pos_iff.mpr hk⟩

theorem Refs.congr (r : Refs s L) (h : ∀ j < NINODE, (s'.itable j).ref = (s.itable j).ref) : Refs s' L :=
  ⟨r.lt, fun j hj => (h j hj).trans (r.count j hj)⟩

theorem Calm.refl : Calm sb s s := ⟨rfl, rfl, rfl, rfl, rfl⟩

theorem Calm.trans (h : Calm sb s s') (h' : Calm sb s' s'') : Calm sb s s'' :=
  ⟨h'.blk.trans h.blk, h'.cur.trans h.cur, h'.outstanding.trans h.outstanding, h'.lh.trans h.lh,
    h'.wrote.trans h.wrote⟩

/-- Holes and order are seen in the inodes and the blocks. -/
theorem Whole.calm (h : Whole ord sb s) (c : Calm sb s s') (g : Good sb s') : Whole ord sb s' := by
  refine { g with noHole := ?_, inOrder := fun ho => ?_ }
  · unfold NoHoles
    rw [c.cur, c.blk]
    exact h.noHole
  · unfold InOrder
    rw [c.cur, c.blk]
    exact h.inOrder ho

theorem Good.cur_eq (g : Good sb s) (i : Nat) : s.cur sb i = if i < sb.ninodes then s.disk sb i else {} := by
  split
  · rename_i hi
    exact cur_eq_disk g.inv.table g.synced hi
  · rename_i hi
    exact cur_of_le (Nat.le_of_not_lt hi)

/-- A table whose valid entries are copies of allocated inodes on disk. -/
theorem good_of_disk {D : Nat → Dinode} (hD : ∀ i, D i = if i < sb.ninodes then s.disk sb i else {})
    (own : Own sb s.blk D []) (hheld : s.held = [])
    (huniq : ∀ {j j'}, s.Live j → s.Live j' → (s.itable j).inum = (s.itable j').inum → j = j')
    (hval : ∀ {j}, s.Live j → (s.itable j).valid = true → (s.itable j).inum < sb.ninodes ∧
      (s.itable j).toDinode = s.disk sb (s.itable j).inum ∧ (s.itable j).type ≠ 0) :
    Good sb s ∧ s.cur sb = D := by
  have t : TableOk sb s := ⟨huniq, fun hj hv => (hval hj hv).1, fun hj hv => by
    rw [(hval hj hv).2.1]
    exact Dinode.load_wf _ _⟩
  have hs : Synced sb s [] := fun j hj hv _ => (hval hj hv).2.1
  have hcur : s.cur sb = D := by
    funext i
    rw [hD]
    split
    · rename_i hi
      exact cur_eq_disk t hs hi
    · rename_i hi
      exact cur_of_le (Nat.le_of_not_lt hi)
  exact ⟨⟨⟨t, by rw [hcur]; exact own⟩, hs, fun hj hv => (hval hj hv).2.2, hheld⟩, hcur⟩

/-- The log is no part of this. -/
theorem Good.of_eq (g : Good sb s) (hblk : s'.blk = s.blk) (hit : s'.itable = s.itable)
    (hheld : s'.held = s.held) : Good sb s' ∧ s'.cur sb = s.cur sb := by
  have hdisk : ∀ i, s'.disk sb i = s.disk sb i := fun i => by rw [St.disk, hblk, St.disk]
  have hcur : s'.cur sb = s.cur sb := cur_congr hit fun i _ => hdisk i
  refine ⟨⟨⟨g.inv.table.congr hit, ?_⟩, g.synced.congr g.inv.table hit fun i _ => hdisk i, ?_,
    hheld.trans g.held⟩, hcur⟩
  · rw [hblk, hcur]
    exact g.inv.own
  · intro k hk
    simp only [St.Live, hit] at hk ⊢
    exact g.typed hk

/-- A change of one entry of the table. -/
theorem Good.setInode (g : Good sb s) (ip : Inode)
    (huniq : 0 < ip.ref → ∀ j, j ≠ k → s.Live j → (s.itable j).inum ≠ ip.inum)
    (hval : 0 < ip.ref → ip.valid = true → ip.inum < sb.ninodes ∧
      ip.toDinode = s.disk sb ip.inum ∧ ip.type ≠ 0) :
    Good sb (s.setInode k ip) ∧ Calm sb s (s.setInode k ip) := by
  have hlive : ∀ {j}, j ≠ k → ((s.setInode k ip).Live j ↔ s.Live j) := fun hj => by
    simp [St.Live, hj]
  have hk : (s.setInode k ip).itable k = ip := by simp
  have hj : ∀ {j}, j ≠ k → (s.setInode k ip).itable j = s.itable j := fun hj => by simp [hj]
  have key := good_of_disk (s := s.setInode k ip) (D := s.cur sb) g.cur_eq g.inv.own g.held ?_ ?_
  · exact ⟨key.1, rfl, key.2, rfl, rfl, rfl⟩
  · intro j j' hl hl' he
    by_cases h : j = k
    · by_cases h' : j' = k
      · rw [h, h']
      · subst h
        rw [hk, hj h'] at he
        have hr : 0 < ip.ref := by simpa [hk] using hl.2
        exact absurd he.symm (huniq hr j' h' ((hlive h').mp hl'))
    · by_cases h' : j' = k
      · subst h'
        rw [hk, hj h] at he
        have hr : 0 < ip.ref := by simpa [hk] using hl'.2
        exact absurd he (huniq hr j h ((hlive h).mp hl))
      · rw [hj h, hj h'] at he
        exact g.inv.table.uniq ((hlive h).mp hl) ((hlive h').mp hl') he
  · intro j hl hv
    by_cases h : j = k
    · subst h
      have hr : 0 < ip.ref := by simpa [hk] using hl.2
      rw [hk] at hv ⊢
      exact hval hr hv
    · rw [hj h] at hv ⊢
      have hl := (hlive h).mp hl
      exact ⟨g.inv.table.inum_lt hl hv, g.synced j hl hv List.not_mem_nil, g.typed hl hv⟩

/-- A change of the lock or the count of an entry in use. -/
theorem Good.touch (g : Good sb s) (hk : s.Live k) (ip : Inode) (hi : ip.inum = (s.itable k).inum)
    (hv : ip.valid = (s.itable k).valid) (hd : ip.toDinode = (s.itable k).toDinode) :
    Good sb (s.setInode k ip) ∧ Calm sb s (s.setInode k ip) := by
  refine g.setInode ip (fun _ j hj hl he => ?_) fun _ hvalid => ?_
  · exact hj (g.inv.table.uniq hl hk (he.trans hi))
  · rw [hv] at hvalid
    rw [hi, hd]
    exact ⟨g.inv.table.inum_lt hk hvalid, g.synced k hk hvalid List.not_mem_nil, g.typed hk hvalid⟩

theorem Refs.setInode (r : Refs s L) {ip : Inode} {L' : List Nat} (hlt : ∀ j ∈ L', j < NINODE)
    (hk : ip.ref = L'.count k) (hj : ∀ j, j ≠ k → L'.count j = L.count j) : Refs (s.setInode k ip) L' := by
  refine ⟨hlt, fun j hjlt => ?_⟩
  by_cases h : j = k
  · subst h
    simpa using hk
  · rw [hj j h]
    simpa [h] using r.count j hjlt

end Table

/-! ## Transactions -/

/-- Only the log's counters and its list have changed. -/
structure LogOnly (sb : Superblock) (s s' : St) : Prop where
  good : Good sb s'
  cur : s'.cur sb = s.cur sb
  blk : s'.blk = s.blk
  itable : s'.itable = s.itable

theorem LogOnly.refs {L : List Nat} (h : LogOnly sb s s') (r : Refs s L) : Refs s' L :=
  r.congr fun j _ => by rw [h.itable]

theorem beginOp_spec (g : Good sb s) :
    wp E beginOp s fun _ s' => LogOnly sb s s' ∧ s'.outstanding = s.outstanding + 1 ∧ s'.lh = s.lh := by
  refine wp_modify.mpr ⟨?_, rfl, rfl⟩
  refine ⟨(g.of_eq ?_ ?_ ?_).1, (g.of_eq ?_ ?_ ?_).2, rfl, rfl⟩ <;> rfl

theorem endOp_spec (g : Good sb s) :
    wp E endOp s fun _ s' => LogOnly sb s s' ∧ s'.outstanding = s.outstanding - 1 ∧
      (s.outstanding - 1 = 0 → s'.lh = []) := by
  refine wp_modify.mpr ⟨?_, rfl, fun h => if_pos h⟩
  refine ⟨(g.of_eq ?_ ?_ ?_).1, (g.of_eq ?_ ?_ ?_).2, rfl, rfl⟩ <;> rfl

/-! ## `iget`, `ilock`, `iunlock` -/

section Ops

variable {sb : Superblock} {E : Panic → Prop} {A : Nat → Prop} {P : List Nat → Prop} {s s' : St}
  {k : Nat} {L : List Nat} {ord : Prop}

theorem count_cons_of_ne {j k : Nat} (h : j ≠ k) (L : List Nat) : (k :: L).count j = L.count j :=
  List.count_cons_of_ne (Ne.symm h)

/-- `iget` finds or makes the entry of an inode. -/
theorem iget_spec (g : Good sb s) (r : Refs s L) (hE : s.empty = none → E .igetNoInodes) (inum : Nat) :
    wp E (iget inum) s fun k s' => Good sb s' ∧ Calm sb s s' ∧ Refs s' (k :: L) ∧
      (s'.itable k).inum = inum ∧ (∀ j ∈ L, SameInode s s' j) ∧
      (∀ j, j ≠ k → s'.itable j = s.itable j) ∧ (k ∉ L → (s'.itable k).valid = false) ∧
      (s'.itable k).locked = (s.itable k).locked := by
  refine wp_bind.mpr (wp_gets.mpr ?_)
  simp only [id_eq]
  cases hf : s.find inum with
  | some k =>
    obtain ⟨hl, hi⟩ := find_some hf
    have hk := r.live_iff.mp hl
    have hc : (s.itable k).ref = L.count k := r.count k hl.1
    refine wp_bind.mpr (wp_setInode.mpr (wp_pure.mpr ?_))
    obtain ⟨g', c⟩ := g.touch hl { s.itable k with ref := (s.itable k).ref + 1 } rfl rfl rfl
    refine ⟨g', c, r.setInode ?_ ?_ fun j hj => count_cons_of_ne hj L, ?_, fun j _ => ?_, fun j hj => ?_,
      fun hno => absurd hk hno, by simp⟩
    · intro j hj
      rcases List.mem_cons.mp hj with rfl | hj
      · exact hl.1
      · exact r.lt j hj
    · rw [List.count_cons_self, ← hc]
    · simpa using hi
    · by_cases hj : j = k
      · subst hj
        constructor <;> simp
      · exact .of_eq (by simp [hj])
    · simp [hj]
  | none =>
    cases he : s.empty with
    | none => exact hE he
    | some k =>
      obtain ⟨hlt, href⟩ := empty_some he
      have hkL : k ∉ L := by
        intro hk
        have := (r.live_iff.mpr hk).2
        omega
      refine wp_bind.mpr (wp_setInode.mpr (wp_pure.mpr ?_))
      obtain ⟨g', c⟩ := g.setInode (k := k) { s.itable k with inum := inum, ref := 1, valid := false }
        (fun _ j _ hj => find_none hf hj) (by simp)
      refine ⟨g', c, r.setInode ?_ ?_ fun j hj => count_cons_of_ne hj L, ?_, fun j hj => ?_, fun j hj => ?_,
        fun _ => ?_, by simp⟩
      · intro j hj
        rcases List.mem_cons.mp hj with rfl | hj
        · exact hlt
        · exact r.lt j hj
      · rw [List.count_cons_self, List.count_eq_zero_of_not_mem hkL]
      · simp
      · have hjk : j ≠ k := fun h => hkL (h ▸ hj)
        exact .of_eq (by simp [hjk])
      · simp [hj]
      · simp

/-- `ilock` loads the inode if necessary. -/
theorem ilock_spec (g : Good sb s) (r : Refs s L) (hk : k ∈ L) (hnum : (s.itable k).inum < sb.ninodes)
    (hdead : (s.itable k).locked = true → E .selfDeadlock)
    (htype : (s.cur sb (s.itable k).inum).type = 0 → E .ilockNoType) :
    wp E (ilock sb k) s fun _ s' => Good sb s' ∧ Calm sb s s' ∧ Refs s' L ∧ Loaded s' k ∧
      (s'.itable k).locked = true ∧ (s'.itable k).inum = (s.itable k).inum ∧
      (s'.itable k).ref = (s.itable k).ref ∧
      ((s.itable k).valid = true → (s'.itable k).toDinode = (s.itable k).toDinode) ∧
      ∀ j, j ≠ k → s'.itable j = s.itable j := by
  have hl := r.live_iff.mpr hk
  have hcount : (s.itable k).ref = L.count k := r.count k hl.1
  refine wp_bind.mpr (wp_getInode.mpr (wp_ite.mpr ⟨fun h => ?_, fun _ => ?_⟩))
  · have := hl.2
    omega
  refine wp_ite.mpr ⟨fun h => hdead h, fun _ => wp_ite.mpr ⟨fun hv => ?_, fun hv => ?_⟩⟩
  · refine wp_setInode.mpr ?_
    obtain ⟨g', c⟩ := g.touch hl { s.itable k with locked := true } rfl rfl rfl
    refine ⟨g', c, r.setInode r.lt hcount fun _ _ => rfl, ?_, by simp, by simp, by simp, fun _ => by simp,
      fun j hj => by simp [hj]⟩
    refine ⟨⟨hl.1, by simpa using hl.2⟩, by simpa using hv, ?_⟩
    simpa using g.typed hl hv
  · refine wp_bind.mpr (wp_bread (by rw [g.held]; exact List.not_mem_nil) (wp_bind.mpr (wp_brelse.mpr ?_)))
    rw [St.unhold_hold]
    refine wp_bind.mpr (wp_setInode.mpr ?_)
    have hdisk : Dinode.load (s.blk (sb.iblock (s.itable k).inum)) ((s.itable k).inum % IPB) =
        s.disk sb (s.itable k).inum := rfl
    rw [hdisk]
    have hcur := g.cur_eq (s.itable k).inum
    rw [if_pos hnum] at hcur
    rw [hcur] at htype
    refine wp_ite.mpr ⟨fun h0 => htype h0, fun h0 => wp_pure.mpr ?_⟩
    obtain ⟨g', c⟩ := g.setInode (k := k)
      { s.itable k with toDinode := s.disk sb (s.itable k).inum, locked := true, valid := true }
      (fun _ j hj hlj he => hj (g.inv.table.uniq hlj hl he)) fun _ _ => ⟨hnum, rfl, h0⟩
    refine ⟨g', c, r.setInode r.lt hcount fun _ _ => rfl, ?_, by simp, by simp, by simp,
      fun h => absurd h hv, fun j hj => by simp [hj]⟩
    exact ⟨⟨hl.1, by simpa using hl.2⟩, by simp, by simpa using h0⟩

theorem iunlock_spec (g : Good sb s) (r : Refs s L) (hk : k ∈ L)
    (hE : (s.itable k).locked = false → E .iunlock) :
    wp E (iunlock k) s fun _ s' => Good sb s' ∧ Calm sb s s' ∧ Refs s' L ∧
      (∀ j, SameInode s s' j) ∧ (s'.itable k).locked = false ∧
      (s'.itable k).ref = (s.itable k).ref ∧ ∀ j, j ≠ k → s'.itable j = s.itable j := by
  have hl := r.live_iff.mpr hk
  refine wp_bind.mpr (wp_getInode.mpr (wp_ite.mpr ⟨fun h => ?_, fun _ => wp_setInode.mpr ?_⟩))
  · have := hl.2
    refine hE ?_
    simp only [Bool.or_eq_true, Bool.not_eq_true', decide_eq_true_eq] at h
    rcases h with h | h
    · exact h
    · omega
  · obtain ⟨g', c⟩ := g.touch hl { s.itable k with locked := false } rfl rfl rfl
    refine ⟨g', c, r.setInode r.lt (r.count k hl.1) fun _ _ => rfl, fun j => ?_, by simp, by simp,
      fun j hj => by simp [hj]⟩
    by_cases hj : j = k
    · subst hj
      constructor <;> simp
    · exact .of_eq (by simp [hj])

/-! ## `iput` -/

/-- `iput` of this entry frees the inode. -/
def St.Frees (s : St) (k : Nat) : Prop :=
  (s.itable k).ref = 1 ∧ (s.itable k).valid = true ∧ (s.itable k).nlink = 0

/-- What is left of an inode that is freed. -/
def Dinode.freed (d : Dinode) : Dinode := { d with type := 0, size := 0, addrs := fun _ => 0 }

/-- The log has room for the blocks that are logged when inode `i` is freed. -/
def LogRoom (sb : Superblock) (s : St) (i : Nat) : Prop :=
  ((s.cur sb i).logs sb s.blk i).toFinset.card < LOGBLOCKS

/-- Inode `i` is free, its blocks are free, and no other inode or block of a file has changed. -/
structure FreedInode (sb : Superblock) (i : Nat) (s s' : St) : Prop where
  cur : s'.cur sb = update (s.cur sb) i (s.cur sb i).freed
  blk : ∀ b, sb.nmeta ≤ b → s'.blk b = s.blk b
  room : LogRoom sb s i

/-- The inode in entry `k` is free after its last reference is dropped. -/
theorem freeInode_good (w : sb.Wf) (g : Good sb s) (lo : Loaded s k) (tr : Truncated sb k s s')
    (hheld : s'.held = []) (s₂ : St)
    (hblk : s₂.blk = update s'.blk (sb.iblock (s.itable k).inum)
      (Dinode.store (s'.blk (sb.iblock (s.itable k).inum)) ((s.itable k).inum % IPB)
        (s.itable k).toDinode.freed))
    (hheld₂ : s₂.held = s'.held) (hk : (s₂.itable k).ref = 0)
    (hj : ∀ j, j ≠ k → s₂.itable j = s.itable j) (hroom : LogRoom sb s (s.itable k).inum) :
    Good sb s₂ ∧ FreedInode sb (s.itable k).inum s s₂ := by
  have t := g.inv.table
  have hnum := lo.inum_lt t
  have hwf : (s.itable k).toDinode.freed.Wf := by
    have h := t.wf lo.live lo.valid
    exact ⟨Nat.two_pow_pos 16, h.major_lt, h.minor_lt, h.nlink_lt, Nat.two_pow_pos 32,
      fun _ => Nat.two_pow_pos 32, fun _ _ => rfl⟩
  have hib := w.iblock_lt hnum
  have hdisk : ∀ i < sb.ninodes, s₂.disk sb i =
      if i = (s.itable k).inum then (s.itable k).toDinode.freed else s.disk sb i := by
    intro i hi
    have h1 : s₂.disk sb i = (s'.setBlk (sb.iblock (s.itable k).inum)
        (Dinode.store (s'.blk (sb.iblock (s.itable k).inum)) ((s.itable k).inum % IPB)
          (s.itable k).toDinode.freed)).disk sb i := by
      unfold St.disk
      rw [hblk]
      rfl
    rw [h1, disk_store hwf]
    split
    · rfl
    · rename_i hne
      rw [tr.disk i hi, if_neg hne]
  have hlive : ∀ {j}, s₂.Live j → j ≠ k ∧ s.Live j := by
    rintro j ⟨hlt, hpos⟩
    have hjk : j ≠ k := by
      rintro rfl
      omega
    exact ⟨hjk, hlt, by rwa [hj j hjk] at hpos⟩
  have hdata : ∀ b, sb.nmeta ≤ b → s₂.blk b = s.blk b := by
    intro b hb
    have hne : b ≠ sb.iblock (s.itable k).inum := by
      have := w.bmapstart_lt
      omega
    rw [hblk, update_of_ne hne, tr.blk b hb]
  suffices key : Good sb s₂ ∧ s₂.cur sb =
      update (s.cur sb) (s.itable k).inum (s.cur sb (s.itable k).inum).freed from
    ⟨key.1, key.2, hdata, hroom⟩
  refine good_of_disk ?_ ?_ (hheld₂.trans hheld) ?_ ?_
  · intro i
    by_cases hi : i = (s.itable k).inum
    · subst hi
      rw [update_self, if_pos hnum, hdisk _ hnum, if_pos rfl, lo.cur t]
    · rw [update_of_ne hi, g.cur_eq]
      split
      · rename_i hlt
        rw [hdisk i hlt, if_neg hi]
      · rfl
  · -- the empty inode gave up its references
    have own := tr.inv.own
    rw [tr.cur] at own
    have own' := (own.setEmpty (n := (s.itable k).inum) (d := (s.cur sb (s.itable k).inum).freed)
      (.inr (by rw [update_self]; rfl)) rfl).writeMeta w hib
        (Dinode.store (s'.blk (sb.iblock (s.itable k).inum)) ((s.itable k).inum % IPB)
          (s.itable k).toDinode.freed)
    rw [update_idem] at own'
    rw [hblk]
    exact own'
  · intro j j' hl hl' he
    obtain ⟨h, hl⟩ := hlive hl
    obtain ⟨h', hl'⟩ := hlive hl'
    rw [hj j h, hj j' h'] at he
    exact t.uniq hl hl' he
  · intro j hl hv
    obtain ⟨h, hl⟩ := hlive hl
    rw [hj j h] at hv ⊢
    have hlt := t.inum_lt hl hv
    have hne : (s.itable j).inum ≠ (s.itable k).inum := fun he => h (t.uniq hl lo.live he)
    refine ⟨hlt, ?_, g.typed hl hv⟩
    rw [hdisk _ hlt, if_neg hne]
    exact g.synced j hl hv List.not_mem_nil

/-- `iput` drops a reference and frees the inode if it has no link and this was the last one. -/
theorem iput_spec (w : sb.Wf) (g : Good sb s) (r : Refs s (k :: L)) (hout : s.Frees k → 1 ≤ s.outstanding)
    (B : s.Frees k → Budget E A P)
    (hA : s.Frees k → ∀ b ∈ (s.itable k).logs sb s.blk (s.itable k).inum, A b) (hP : P s.lh)
    (hdead : s.Frees k → (s.itable k).locked = true → E .selfDeadlock) :
    wp E (iput sb k) s fun _ s' => Good sb s' ∧ Refs s' L ∧ P s'.lh ∧
      s'.outstanding = s.outstanding ∧ (∀ j, j ≠ k → s'.itable j = s.itable j) ∧
      (s'.itable k).locked = (s.itable k).locked ∧
      (k ∈ L → SameInode s s' k) ∧
      (s.Frees k → FreedInode sb (s.itable k).inum s s') ∧ (¬ s.Frees k → Calm sb s s') := by
  have hkL : k ∈ k :: L := List.mem_cons_self
  have hl := r.live_iff.mpr hkL
  have hcount := r.count k hl.1
  rw [List.count_cons_self] at hcount
  have hltL : ∀ j ∈ L, j < NINODE := fun j hj => r.lt j (List.mem_cons_of_mem _ hj)
  refine wp_bind.mpr (wp_getInode.mpr (wp_bind.mpr (wp_ite.mpr ⟨fun hfree => ?_, fun hfree => ?_⟩)))
  · -- the last reference to an inode without links
    have hfr : s.Frees k := hfree
    have hkL' : k ∉ L := by
      intro hk
      have := List.count_pos_iff.mpr hk
      have := hfr.1
      omega
    refine wp_bind.mpr (wp_ite.mpr ⟨fun h => hdead hfr h, fun hul => wp_setInode.mpr ?_⟩)
    have hunl : (s.itable k).locked = false := by simpa using hul
    obtain ⟨g₁, c₁⟩ := g.touch hl { s.itable k with locked := true } rfl rfl rfl
    have hk₁ : (s.setInode k { s.itable k with locked := true }).itable k =
        { s.itable k with locked := true } := by simp
    have lo : Loaded s k := ⟨hl, hfr.2.1, g.typed hl hfr.2.1⟩
    have lo₁ : Loaded (s.setInode k { s.itable k with locked := true }) k := by
      refine ⟨⟨hl.1, ?_⟩, ?_, ?_⟩
      · rw [hk₁]
        exact hl.2
      · rw [hk₁]
        exact lo.valid
      · rw [hk₁]
        exact lo.type
    refine wp.bind (itrunc_spec w g₁.inv lo₁ g₁.held (hout hfr) (B hfr) (by rw [hk₁]; exact hA hfr) hP) ?_
    rintro _ s₂ ⟨tr, hP₂, hlogs⟩
    rw [hk₁] at hlogs
    have hk₂ : s₂.itable k = ({ s.itable k with locked := true } : Inode).empty := by
      rw [tr.itable, update_self, hk₁]
    refine wp_bind.mpr (wp_getInode.mpr (wp_bind.mpr (wp_setInode.mpr ?_)))
    rw [hk₂]
    generalize hX : ({ ({ s.itable k with locked := true } : Inode).empty with type := 0 } : Inode) = X
    have hXd : X.toDinode = (s.itable k).toDinode.freed := by
      rw [← hX]
      rfl
    have hXi : X.inum = (s.itable k).inum := by
      rw [← hX]
      rfl
    have hk₃ : (s₂.setInode k X).itable k = X := by simp
    have hP₃ : P (s₂.setInode k X).lh := hP₂
    have hheld₃ : sb.iblock ((s₂.setInode k X).itable k).inum ∉ (s₂.setInode k X).held := by
      rw [St.setInode_held, tr.held, g₁.held]
      exact List.not_mem_nil
    by_cases hfull : LOGBLOCKS ≤ (s₂.setInode k X).lh.length
    · exact wp_bind.mpr (iupdate_full hheld₃ hfull ((B hfr).full hP₃ hfull))
    have hroom : LogRoom sb (s.setInode k { s.itable k with locked := true }) (s.itable k).inum := by
      have hcur := lo₁.cur g₁.inv.table
      rw [hk₁] at hcur
      unfold LogRoom
      rw [hcur]
      refine Nat.lt_of_le_of_lt ?_ (Nat.lt_of_not_le hfull)
      refine Nat.le_trans (Finset.card_le_card fun b hb => ?_) (List.toFinset_card_le _)
      exact List.mem_toFinset.mpr (hlogs (List.mem_toFinset.mp hb))
    refine wp.bind (iupdate_spec (k := k) hheld₃ ?_ ((B hfr).full hP₃)) ?_
    · rw [St.setInode_outstanding, tr.outstanding]
      exact hout hfr
    rintro _ s₃ rfl
    refine wp_bind.mpr (wp_getInode.mpr (wp_setInode.mpr (wp_bind.mpr (wp_getInode.mpr
      (wp_setInode.mpr ?_)))))
    generalize hs₄ : St.setInode (St.setInode _ k _) k _ = s₄
    have hk₄ : s₄.itable k = { X with valid := false, locked := false, ref := X.ref - 1 } := by
      rw [← hs₄]
      simp
    have hj₄ : ∀ j, j ≠ k → s₄.itable j = s.itable j := by
      intro j hj
      rw [← hs₄]
      simp [hj, tr.itable]
    have href : X.ref = 1 := by
      rw [← hX]
      exact hfr.1
    have hblk₄ : s₄.blk = update s₂.blk (sb.iblock (s.itable k).inum)
        (Dinode.store (s₂.blk (sb.iblock (s.itable k).inum)) ((s.itable k).inum % IPB)
          (s.itable k).toDinode.freed) := by
      rw [← hs₄]
      show update s₂.blk (sb.iblock ((s₂.setInode k X).itable k).inum)
        (Dinode.store (s₂.blk (sb.iblock ((s₂.setInode k X).itable k).inum))
          (((s₂.setInode k X).itable k).inum % IPB) ((s₂.setInode k X).itable k).toDinode) = _
      rw [hk₃, hXi, hXd]
    have hout₄ : s₄.outstanding = s.outstanding := by
      rw [← hs₄]
      exact tr.outstanding
    have hP₄ : P s₄.lh := by
      rw [← hs₄]
      refine (B hfr).add hP₂ ?_
      rw [hk₃, hXi]
      exact hA hfr _ List.mem_cons_self
    obtain ⟨g₄, fr⟩ := freeInode_good w g₁ lo₁ tr (tr.held.trans g₁.held) s₄
      (by rw [hk₁]; exact hblk₄) (by rw [← hs₄]; rfl) (by rw [hk₄, href])
      (fun j hj => (hj₄ j hj).trans (by simp [hj])) (by rw [hk₁]; exact hroom)
    have hfi : FreedInode sb (s.itable k).inum s s₄ := by
      rw [hk₁] at fr
      refine ⟨by rw [fr.cur, c₁.cur], fun b hb => (fr.blk b hb).trans (by rw [c₁.blk]), ?_⟩
      rw [LogRoom, ← c₁.cur, ← c₁.blk]
      exact hroom
    refine ⟨g₄, ⟨hltL, fun j hj => ?_⟩, hP₄, hout₄, hj₄, by rw [hk₄, hunl], fun h => absurd h hkL',
      fun _ => hfi, fun h => absurd hfr h⟩
    by_cases h : j = k
    · rw [h, hk₄, href, List.count_eq_zero_of_not_mem hkL']
    · rw [hj₄ j h, r.count j hj, count_cons_of_ne h]
  · have hfr : ¬ s.Frees k := hfree
    refine wp_pure.mpr (wp_bind.mpr (wp_getInode.mpr (wp_setInode.mpr ?_)))
    obtain ⟨g', c⟩ := g.touch hl { s.itable k with ref := (s.itable k).ref - 1 } rfl rfl rfl
    have hsame : ∀ j, j ≠ k →
        (s.setInode k { s.itable k with ref := (s.itable k).ref - 1 }).itable j = s.itable j :=
      fun j hj => by simp [hj]
    refine ⟨g', r.setInode hltL ?_ fun j hj => (count_cons_of_ne hj L).symm, hP, rfl, hsame, by simp,
      fun _ => by constructor <;> simp, fun h => absurd h hfr, fun _ => c⟩
    rw [hcount]
    rfl

end Ops

end Xv6.Fs
