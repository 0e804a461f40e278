import Xv6.Fs.File
import Xv6.Fs.Inode

/-!
# The file system as a map of nodes

`St.node sb s i` is what inode `i` is for its users: its type, its numbers, its link count and the
bytes of its contents, or nothing if it is free. The functions of this layer are specified by what
they do to this map:

* `iget`, `ilock`, `iunlock`, `idup` and `readi` leave it (`Quiet`);
* `iput` removes a node without links whose last reference it drops;
* `ialloc` adds a node, `writei` and `itrunc` change the data of one, and a store to the other fields
  followed by `iupdate` changes these.

`FsOk sb L s` is the invariant that all of them keep: block ownership, no holes, the inode table in
step with the disk, `L` the pointers to its entries, and no node without both links and pointers.
-/

namespace Xv6.Fs

open Seq Seq.M
open Function (update update_eq_self update_idem update_of_ne update_self)

/-- An allocated inode. -/
structure Node where
  type : Nat
  major : Nat := 0
  minor : Nat := 0
  nlink : Nat := 0
  data : List UInt8 := []
  deriving DecidableEq, Repr

/-- The node that an inode describes. -/
def Dinode.node (blk : Nat → Block) (d : Dinode) : Option Node :=
  if d.type = 0 then none
  else some ⟨d.type, d.major, d.minor, d.nlink, Bytes.slice (d.byteAt blk) 0 d.size⟩

/-- Inode `i` as its users see it. -/
def St.node (sb : Superblock) (s : St) (i : Nat) : Option Node := (s.cur sb i).node s.blk

/-- Which table entries are locked. -/
def St.locks (s : St) (k : Nat) : Bool := (s.itable k).locked

/-- An inode without links is in use. -/
def Held (sb : Superblock) (L : List Nat) (s : St) : Prop :=
  ∀ i nd, s.node sb i = some nd → nd.nlink = 0 → ∃ k ∈ L, (s.itable k).inum = i

/-- The file system with the pointers `L` to inodes. -/
structure FsOk (sb : Superblock) (L : List Nat) (s : St) : Prop where
  whole : Whole False sb s
  refs : Refs s L
  noOrphan : Held sb L s

/-- The entries in `L` are for the same inodes and stay loaded. -/
structure Keeps (L : List Nat) (s s' : St) : Prop where
  inum : ∀ j ∈ L, (s'.itable j).inum = (s.itable j).inum
  valid : ∀ j ∈ L, (s.itable j).valid = true → (s'.itable j).valid = true
  outstanding : s'.outstanding = s.outstanding

/-- No node has changed, and nothing was logged. -/
structure Quiet (sb : Superblock) (L : List Nat) (s s' : St) : Prop extends Keeps L s s' where
  calm : Calm sb s s'

/-- Only inode `i` has changed, and nothing in the bitmap and the data area. -/
structure OnlyInode (sb : Superblock) (i : Nat) (s s' : St) : Prop where
  blk : ∀ b, sb.bmapstart ≤ b → s'.blk b = s.blk b
  cur : ∀ j, j ≠ i → s'.cur sb j = s.cur sb j

section Basics

variable {sb : Superblock} {s s' s'' : St} {L L' : List Nat} {i k : Nat}

theorem Keeps.refl : Keeps L s s := ⟨fun _ _ => rfl, fun _ _ h => h, rfl⟩

theorem Keeps.trans (h : Keeps L s s') (h' : Keeps L s' s'') : Keeps L s s'' :=
  ⟨fun j hj => (h'.inum j hj).trans (h.inum j hj), fun j hj hv => h'.valid j hj (h.valid j hj hv),
    h'.outstanding.trans h.outstanding⟩

theorem Keeps.mono (h : Keeps L s s') (hL : ∀ j ∈ L', j ∈ L) : Keeps L' s s' :=
  ⟨fun j hj => h.inum j (hL j hj), fun j hj => h.valid j (hL j hj), h.outstanding⟩

theorem Keeps.tail (h : Keeps (k :: L) s s') : Keeps L s s' := h.mono fun _ hj => List.mem_cons_of_mem _ hj

theorem Keeps.out (h : Keeps L s s') (ho : 1 ≤ s.outstanding) : 1 ≤ s'.outstanding := by
  rw [h.outstanding]
  exact ho

theorem Quiet.refl : Quiet sb L s s := ⟨Keeps.refl, Calm.refl⟩

theorem Quiet.trans (h : Quiet sb L s s') (h' : Quiet sb L s' s'') : Quiet sb L s s'' :=
  ⟨h.toKeeps.trans h'.toKeeps, h.calm.trans h'.calm⟩

theorem Quiet.mono (h : Quiet sb L s s') (hL : ∀ j ∈ L', j ∈ L) : Quiet sb L' s s' :=
  ⟨h.toKeeps.mono hL, h.calm⟩

theorem Quiet.tail (h : Quiet sb (k :: L) s s') : Quiet sb L s s' := h.mono fun _ hj => List.mem_cons_of_mem _ hj

/-! ## Nodes -/

theorem node_eq_none : s.node sb i = none ↔ (s.cur sb i).type = 0 := by
  unfold St.node Dinode.node
  split <;> simp_all

theorem node_eq_some {nd : Node} : s.node sb i = some nd ↔ (s.cur sb i).type ≠ 0 ∧
    nd = ⟨(s.cur sb i).type, (s.cur sb i).major, (s.cur sb i).minor, (s.cur sb i).nlink,
      Bytes.slice ((s.cur sb i).byteAt s.blk) 0 (s.cur sb i).size⟩ := by
  unfold St.node Dinode.node
  split
  · simp_all
  · rename_i h
    simp only [Option.some.injEq, ne_eq, h, not_false_eq_true, true_and]
    exact eq_comm

theorem lt_ninodes_of_node {nd : Node} (h : s.node sb i = some nd) : i < sb.ninodes :=
  lt_of_type_ne_zero (node_eq_some.mp h).1

/-- A loaded inode's node. -/
theorem Loaded.node (lo : Loaded s k) (t : TableOk sb s) : s.node sb (s.itable k).inum =
    some ⟨(s.itable k).type, (s.itable k).major, (s.itable k).minor, (s.itable k).nlink,
      Bytes.slice (s.byteAt k) 0 (s.itable k).size⟩ := by
  refine node_eq_some.mpr ?_
  rw [lo.cur t]
  exact ⟨lo.type, rfl⟩

/-- An inode whose bytes are the same. -/
theorem node_congr (hcur : s'.cur sb i = s.cur sb i)
    (hbyte : (s.cur sb i).type ≠ 0 → ∀ x < (s.cur sb i).size,
      (s.cur sb i).byteAt s'.blk x = (s.cur sb i).byteAt s.blk x) : s'.node sb i = s.node sb i := by
  unfold St.node Dinode.node
  rw [hcur]
  split
  · rfl
  · rename_i ht
    have hsl : Bytes.slice ((s.cur sb i).byteAt s'.blk) 0 (s.cur sb i).size =
        Bytes.slice ((s.cur sb i).byteAt s.blk) 0 (s.cur sb i).size :=
      Bytes.slice_congr fun x hx => by
        rw [Nat.zero_add]
        exact hbyte ht x hx
    rw [hsl]

/-- The bytes of an inode are in blocks of the data area. -/
theorem byteAt_congr (own : Own sb s.blk (s.cur sb) []) (ht : (s.cur sb i).type ≠ 0)
    (hblk : ∀ b, sb.nmeta ≤ b → s'.blk b = s.blk b) {x : Nat} (h0 : (s.cur sb i).blockAt s.blk (x / BSIZE) ≠ 0) :
    (s.cur sb i).byteAt s'.blk x = (s.cur sb i).byteAt s.blk x := by
  have hat : (s.cur sb i).blockAt s'.blk (x / BSIZE) = (s.cur sb i).blockAt s.blk (x / BSIZE) := by
    refine Dinode.addr_congr (fun hne => hblk _ ?_) _
    exact (own.data (ref_indirect s.blk ht hne)).1
  show s'.blk ((s.cur sb i).blockAt s'.blk (x / BSIZE)) _ = s.blk _ _
  rw [hat]
  have hr : Ref s.blk (s.cur sb) i (.of (x / BSIZE)) ((s.cur sb i).blockAt s.blk (x / BSIZE)) :=
    ⟨ht, rfl, h0⟩
  rw [hblk _ (own.data hr).1]

/-- No node changes with the blocks in front of the data area. -/
theorem node_of_meta (own : Own sb s.blk (s.cur sb) []) (hno : NoHoles sb s) (hcur : s'.cur sb i = s.cur sb i)
    (hblk : ∀ b, sb.nmeta ≤ b → s'.blk b = s.blk b) : s'.node sb i = s.node sb i := by
  refine node_congr hcur fun ht x hx => byteAt_congr own ht hblk ?_
  exact hno i ht _ (Nat.lt_of_le_of_lt (Nat.div_mul_le_self x BSIZE) hx)

theorem Calm.node (c : Calm sb s s') : s'.node sb = s.node sb := by
  funext i
  unfold St.node
  rw [c.cur, c.blk]

theorem Quiet.node (q : Quiet sb L s s') : s'.node sb = s.node sb := q.calm.node

theorem Quiet.onlyInode (q : Quiet sb L s s') (i : Nat) : OnlyInode sb i s s' :=
  ⟨fun _ _ => by rw [q.calm.blk], fun _ _ => by rw [q.calm.cur]⟩

theorem OnlyInode.trans (h : OnlyInode sb i s s') (h' : OnlyInode sb i s' s'') : OnlyInode sb i s s'' :=
  ⟨fun b hb => (h'.blk b hb).trans (h.blk b hb), fun j hj => (h'.cur j hj).trans (h.cur j hj)⟩

/-- Holes are seen in the inodes and in the data area. -/
theorem noHoles_of_meta (own : Own sb s.blk (s.cur sb) []) (hno : NoHoles sb s)
    (hblk : ∀ b, sb.nmeta ≤ b → s'.blk b = s.blk b)
    (hcur : ∀ i, (s'.cur sb i).type ≠ 0 → s'.cur sb i = s.cur sb i ∨ (s'.cur sb i).size = 0 ∨
      ((s.cur sb i).type ≠ 0 ∧ (s'.cur sb i).addrs = (s.cur sb i).addrs ∧
        (s'.cur sb i).size = (s.cur sb i).size)) : NoHoles sb s' := by
  have key : ∀ i bn, (s.cur sb i).type ≠ 0 → bn * BSIZE < (s.cur sb i).size →
      (s.cur sb i).blockAt s'.blk bn ≠ 0 := by
    intro i bn ht hlt
    have h0 := hno i ht bn hlt
    have hat : (s.cur sb i).blockAt s'.blk bn = (s.cur sb i).blockAt s.blk bn :=
      Dinode.addr_congr (fun hne => hblk _ (own.data (ref_indirect s.blk ht hne)).1) _
    rwa [hat]
  intro i ht bn hlt
  rcases hcur i ht with h | h | ⟨ht', ha, hs⟩
  · rw [h] at ht hlt ⊢
    exact key i bn ht hlt
  · rw [h] at hlt
    exact absurd hlt (Nat.not_lt_zero _)
  · rw [hs] at hlt
    have hb : (s'.cur sb i).blockAt s'.blk bn = (s.cur sb i).blockAt s'.blk bn := by
      unfold Dinode.blockAt
      cases Slot.of bn <;> simp only [Dinode.addr, ha]
    rw [hb]
    exact key i bn ht' hlt

/-! ## References -/

theorem FsOk.good (h : FsOk sb L s) : Good sb s := h.whole.toGood

theorem FsOk.loaded (h : FsOk sb L s) (hk : k ∈ L) (hv : (s.itable k).valid = true) : Loaded s k :=
  ⟨h.refs.live_iff.mpr hk, hv, h.good.typed (h.refs.live_iff.mpr hk) hv⟩

theorem FsOk.noHole (h : FsOk sb L s) (lo : Loaded s k) : s.NoHole k :=
  h.whole.noHole.loaded h.good.inv.table lo

/-- A table entry has the fields of a node. -/
structure Fields (ip : Inode) (nd : Node) : Prop where
  type : ip.type = nd.type
  major : ip.major = nd.major
  minor : ip.minor = nd.minor
  nlink : ip.nlink = nd.nlink
  size : ip.size = nd.data.length

theorem Loaded.fields (lo : Loaded s k) (h : FsOk sb L s) {nd : Node}
    (hnd : s.node sb (s.itable k).inum = some nd) : Fields (s.itable k) nd := by
  have he := lo.node h.good.inv.table
  rw [hnd] at he
  cases he
  exact ⟨rfl, rfl, rfl, rfl, by rw [Bytes.length_slice]⟩

/-- The pointers in another order. -/
theorem FsOk.perm (h : FsOk sb L s) (hp : L.Perm L') : FsOk sb L' s := by
  refine ⟨h.whole, ⟨fun k hk => h.refs.lt k (hp.mem_iff.mpr hk), fun k hk => ?_⟩, fun i nd hnd h0 => ?_⟩
  · rw [h.refs.count k hk, hp.count_eq]
  · obtain ⟨k, hk, hki⟩ := h.noOrphan i nd hnd h0
    exact ⟨k, hp.mem_iff.mp hk, hki⟩

/-- A file without holes is not longer than its blocks reach. -/
theorem FsOk.size_le (h : FsOk sb L s) (lo : Loaded s k) : (s.itable k).size ≤ MAXFILE * BSIZE := by
  by_contra hlt
  refine h.noHole lo MAXFILE (Nat.lt_of_not_le hlt) ?_
  show (s.itable k).toDinode.addr s.blk (.entry NINDIRECT) = 0
  exact if_pos (.inr (Nat.le_refl _))

/-- Two pointers to one inode are to one entry. -/
theorem FsOk.eq_of_inum (h : FsOk sb L s) {j : Nat} (hk : k ∈ L) (hj : j ∈ L)
    (he : (s.itable k).inum = (s.itable j).inum) : k = j :=
  h.good.inv.table.uniq (h.refs.live_iff.mpr hk) (h.refs.live_iff.mpr hj) he

/-- A change of the table that leaves the nodes. -/
theorem FsOk.quiet (h : FsOk sb L s) (g : Good sb s') (c : Calm sb s s') (r : Refs s' L')
    (hi : ∀ j ∈ L, (s'.itable j).inum = (s.itable j).inum)
    (hsub : ∀ i nd, s.node sb i = some nd → nd.nlink = 0 → ∀ j ∈ L, (s.itable j).inum = i → j ∈ L') :
    FsOk sb L' s' := by
  refine ⟨h.whole.calm c g, r, fun i nd hnd h0 => ?_⟩
  rw [c.node] at hnd
  obtain ⟨j, hj, hji⟩ := h.noOrphan i nd hnd h0
  exact ⟨j, hsub i nd hnd h0 j hj hji, (hi j hj).trans hji⟩

end Basics

/-! ## Transactions -/

theorem LogOnly.node {sb : Superblock} {s s' : St} (l : LogOnly sb s s') : s'.node sb = s.node sb := by
  funext i
  rw [St.node, l.cur, l.blk, St.node]

theorem LogOnly.locks {sb : Superblock} {s s' : St} (l : LogOnly sb s s') : s'.locks = s.locks := by
  funext j
  rw [St.locks, l.itable, St.locks]

theorem FsOk.logOnly {sb : Superblock} {L : List Nat} {s s' : St} (h : FsOk sb L s)
    (l : LogOnly sb s s') : FsOk sb L s' := by
  refine ⟨⟨l.good, ?_, nofun⟩, h.refs.congr fun j _ => by rw [l.itable], fun i nd hnd h0 => ?_⟩
  · intro i ht
    rw [l.cur] at ht ⊢
    rw [l.blk]
    exact h.whole.noHole i ht
  · rw [l.node] at hnd
    rw [l.itable]
    exact h.noOrphan i nd hnd h0

/-! ## The functions that leave the nodes -/

section Ops

variable {sb : Superblock} {E : Panic → Prop} {s : St} {L : List Nat} {k : Nat}

/-- A table without a free entry has a pointer to each. -/
theorem Refs.full (r : Refs s L) (h : s.empty = none) : NINODE ≤ L.toFinset.card := by
  have hsub : Finset.range NINODE ⊆ L.toFinset := by
    intro j hj
    rw [List.mem_toFinset, ← r.live_iff]
    have hj := Finset.mem_range.mp hj
    have := List.find?_eq_none.mp h j (List.mem_range.mpr hj)
    exact ⟨hj, Nat.pos_of_ne_zero (by simpa using this)⟩
  have := Finset.card_le_card hsub
  rwa [Finset.card_range] at this

theorem iget_ok (h : FsOk sb L s) (hE : NINODE ≤ L.toFinset.card → E .igetNoInodes) (inum : Nat) :
    wp E (iget inum) s fun k s' => FsOk sb (k :: L) s' ∧ Quiet sb L s s' ∧ (s'.itable k).inum = inum ∧
      s'.locks = s.locks := by
  refine (iget_spec h.good h.refs (fun he => hE (h.refs.full he)) inum).mono ?_
  rintro k s' ⟨g, c, r, hnum, hsame, hne, -, hl⟩
  refine ⟨h.quiet g c r (fun j hj => (hsame j hj).inum) (fun _ _ _ _ j hj _ => List.mem_cons_of_mem _ hj),
    ⟨⟨fun j hj => (hsame j hj).inum, fun j hj hv => (hsame j hj).valid.trans hv, c.outstanding⟩, c⟩, hnum, ?_⟩
  funext j
  by_cases hj : j = k
  · rw [hj]
    exact hl
  · rw [St.locks, hne j hj, St.locks]

/-- A new table: one entry differs. -/
theorem locks_of_ne {s s' : St} {b : Bool} (hne : ∀ j, j ≠ k → s'.itable j = s.itable j)
    (hk : (s'.itable k).locked = b) : s'.locks = update s.locks k b := by
  funext j
  by_cases hj : j = k
  · rw [hj, update_self]
    exact hk
  · rw [update_of_ne hj, St.locks, hne j hj, St.locks]

/-- A lock that is taken and released. -/
theorem relock {f : Nat → Bool} (h : f k = false) : update (update f k true) k false = f := by
  rw [update_idem, ← h, update_eq_self]

theorem idup_ok (h : FsOk sb L s) (hk : k ∈ L) :
    wp E (idup k) s fun _ s' => FsOk sb (k :: L) s' ∧ Quiet sb L s s' ∧ s'.locks = s.locks := by
  have hl := h.refs.live_iff.mpr hk
  refine wp_bind.mpr (wp_getInode.mpr (wp_setInode.mpr ?_))
  obtain ⟨g, c⟩ := h.good.touch hl { s.itable k with ref := (s.itable k).ref + 1 } rfl rfl rfl
  have hinum : ∀ j, ((s.setInode k { s.itable k with ref := (s.itable k).ref + 1 }).itable j).inum =
      (s.itable j).inum := fun j => by
    by_cases hj : j = k
    · simp [hj]
    · simp [hj]
  have hL : ∀ j ∈ k :: L, j ∈ L := fun j hj => by
    rcases List.mem_cons.mp hj with rfl | hj
    · exact hk
    · exact hj
  refine ⟨h.quiet g c (h.refs.setInode (fun j hj => h.refs.lt j (hL j hj)) ?_
      fun j hj => count_cons_of_ne hj L) (fun j _ => hinum j)
      (fun _ _ _ _ j hj _ => List.mem_cons_of_mem _ hj),
    ⟨⟨fun j _ => hinum j, fun j _ hv => ?_, rfl⟩, c⟩, ?_⟩
  · rw [List.count_cons_self, ← h.refs.count k hl.1]
  · by_cases hj : j = k
    · subst hj
      simpa using hv
    · simpa [hj] using hv
  · funext j
    by_cases hj : j = k
    · simp [St.locks, hj]
    · simp [St.locks, hj]

theorem ilock_ok (h : FsOk sb L s) (hk : k ∈ L) (hi : (s.itable k).inum < sb.ninodes)
    (hdead : s.locks k = true → E .selfDeadlock)
    (htype : s.node sb (s.itable k).inum = none → E .ilockNoType) :
    wp E (ilock sb k) s fun _ s' => FsOk sb L s' ∧ Quiet sb L s s' ∧ Loaded s' k ∧
      s'.locks = update s.locks k true := by
  refine (ilock_spec h.good h.refs hk hi hdead fun h0 => htype (node_eq_none.mpr h0)).mono ?_
  rintro _ s' ⟨g, c, r, lo, hlk, hnum, -, -, hne⟩
  have hinum : ∀ j, (s'.itable j).inum = (s.itable j).inum := fun j => by
    by_cases hj : j = k
    · rw [hj, hnum]
    · rw [hne j hj]
  refine ⟨h.quiet g c r (fun j _ => hinum j) (fun _ _ _ _ j hj _ => hj),
    ⟨⟨fun j _ => hinum j, fun j _ hv => ?_, c.outstanding⟩, c⟩, lo,
    locks_of_ne hne hlk⟩
  by_cases hj : j = k
  · rw [hj]
    exact lo.valid
  · rwa [hne j hj]

theorem iunlock_ok (h : FsOk sb L s) (hk : k ∈ L) (hE : s.locks k = false → E .iunlock) :
    wp E (iunlock k) s fun _ s' => FsOk sb L s' ∧ Quiet sb L s s' ∧
      s'.locks = update s.locks k false := by
  refine (iunlock_spec h.good h.refs hk hE).mono ?_
  rintro _ s' ⟨g, c, r, hsame, hlk, -, hne⟩
  exact ⟨h.quiet g c r (fun j _ => (hsame j).inum) (fun _ _ _ _ j hj _ => hj),
    ⟨⟨fun j _ => (hsame j).inum, fun j _ hv => (hsame j).valid.trans hv, c.outstanding⟩, c⟩,
    locks_of_ne hne hlk⟩

/-- The last reference to a node without links. -/
def St.LastRef (sb : Superblock) (L : List Nat) (s : St) (k : Nat) : Prop :=
  k ∉ L ∧ ∃ nd, s.node sb (s.itable k).inum = some nd ∧ nd.nlink = 0

/-- `iput` frees a node exactly when it drops its last reference and it has no link. -/
theorem iput_ok (w : sb.Wf) (h : FsOk sb (k :: L) s) (hout : s.LastRef sb L k → 1 ≤ s.outstanding)
    (hE : s.LastRef sb L k → E .tooBigTransaction)
    (hdead : s.LastRef sb L k → s.locks k = true → E .selfDeadlock)
    (hv : s.LastRef sb L k → (s.itable k).valid = true) :
    wp E (iput sb k) s fun _ s' => FsOk sb L s' ∧ Keeps L s s' ∧ s'.locks = s.locks ∧
      (s.LastRef sb L k → s'.node sb = update (s.node sb) (s.itable k).inum none) ∧
      (¬ s.LastRef sb L k → Quiet sb L s s') := by
  have hkL : k ∈ k :: L := List.mem_cons_self
  have hl := h.refs.live_iff.mpr hkL
  have hcount := h.refs.count k hl.1
  rw [List.count_cons_self] at hcount
  have own := h.good.inv.own
  -- the code's test
  have hfrees : s.Frees k ↔ s.LastRef sb L k := by
    constructor
    · rintro ⟨h1, h2, h3⟩
      have lo := h.loaded hkL h2
      refine ⟨fun hk => ?_, _, lo.node h.good.inv.table, h3⟩
      have := List.count_pos_iff.mpr hk
      omega
    · rintro ⟨h1, nd, hnd, h0⟩
      have hval := hv ⟨h1, nd, hnd, h0⟩
      have lo := h.loaded hkL hval
      rw [lo.node h.good.inv.table] at hnd
      cases hnd
      exact ⟨by rw [hcount, List.count_eq_zero_of_not_mem h1], hval, h0⟩
  refine (iput_spec w h.good h.refs (fun hf => hout (hfrees.mp hf))
    (fun hf => Budget.any (hE (hfrees.mp hf))) (A := fun _ => True) (fun _ _ _ => trivial) trivial
    fun hf => hdead (hfrees.mp hf)).mono ?_
  rintro _ s' ⟨g, r, -, hout', hne, hlk, hsame, hfreed, hcalm⟩
  have hinum : ∀ j ∈ L, (s'.itable j).inum = (s.itable j).inum := fun j hj => by
    by_cases hjk : j = k
    · rw [hjk]
      exact (hsame (hjk ▸ hj)).inum
    · rw [hne j hjk]
  have hkeeps : Keeps L s s' := by
    refine ⟨hinum, fun j hj hvj => ?_, hout'⟩
    by_cases hjk : j = k
    · rw [hjk] at hj hvj ⊢
      exact (hsame hj).valid.trans hvj
    · rwa [hne j hjk]
  have hlocks : s'.locks = s.locks := by
    have := locks_of_ne hne hlk
    rwa [show update s.locks k (s.itable k).locked = s.locks from update_eq_self _ _]
      at this
  by_cases hfr : s.Frees k
  · have hlast := hfrees.mp hfr
    have fr := hfreed hfr
    have hnode : s'.node sb = update (s.node sb) (s.itable k).inum none := by
      funext i
      by_cases hi : i = (s.itable k).inum
      · subst hi
        rw [update_self, node_eq_none, fr.cur, update_self]
        rfl
      · rw [update_of_ne hi]
        refine node_of_meta own h.whole.noHole ?_ fr.blk
        rw [fr.cur, update_of_ne hi]
    refine ⟨⟨⟨g, ?_, nofun⟩, r, fun i nd hnd h0 => ?_⟩, hkeeps, hlocks, fun _ => hnode,
      fun hno => absurd hlast hno⟩
    · refine noHoles_of_meta own h.whole.noHole fr.blk fun i ht => .inl ?_
      rw [fr.cur] at ht ⊢
      by_cases hi : i = (s.itable k).inum
      · subst hi
        rw [update_self] at ht
        exact absurd rfl ht
      · rw [update_of_ne hi]
    · rw [hnode] at hnd
      by_cases hi : i = (s.itable k).inum
      · rw [hi, update_self] at hnd
        cases hnd
      · rw [update_of_ne hi] at hnd
        obtain ⟨j, hj, hji⟩ := h.noOrphan i nd hnd h0
        rcases List.mem_cons.mp hj with rfl | hj
        · exact absurd hji.symm hi
        · exact ⟨j, hj, (hinum j hj).trans hji⟩
  · have hnl : ¬ s.LastRef sb L k := fun hl => hfr (hfrees.mpr hl)
    have c := hcalm hfr
    refine ⟨⟨h.whole.calm c g, r, fun i nd hnd h0 => ?_⟩, hkeeps, hlocks, fun hl => absurd hl hnl,
      fun _ => ⟨hkeeps, c⟩⟩
    rw [c.node] at hnd
    obtain ⟨j, hj, hji⟩ := h.noOrphan i nd hnd h0
    rcases List.mem_cons.mp hj with rfl | hj
    · by_contra hno
      refine hnl ⟨fun hk => hno ⟨j, hk, (hinum j hk).trans hji⟩, nd, by rw [hji]; exact hnd, h0⟩
    · exact ⟨j, hj, (hinum j hj).trans hji⟩

/-- If the others have pointers to all inodes without links, no pointer is the last one of such a
node. -/
theorem Held.not_lastRef (ho : Held sb L s) (h : FsOk sb (k :: L) s) : ¬ s.LastRef sb L k := by
  rintro ⟨hk, nd, hnd, h0⟩
  obtain ⟨j, hj, hji⟩ := ho _ nd hnd h0
  have : k = j := h.eq_of_inum List.mem_cons_self (List.mem_cons_of_mem _ hj) hji.symm
  exact hk (this ▸ hj)

theorem Held.quiet {s' : St} (ho : Held sb L s) (q : Quiet sb L s s') : Held sb L s' := by
  intro i nd hnd h0
  rw [q.node] at hnd
  obtain ⟨j, hj, hji⟩ := ho i nd hnd h0
  exact ⟨j, hj, (q.inum j hj).trans hji⟩

theorem Held.cons (ho : Held sb L s) (j : Nat) : Held sb (j :: L) s := by
  intro i nd hnd h0
  obtain ⟨k, hk, hki⟩ := ho i nd hnd h0
  exact ⟨k, List.mem_cons_of_mem _ hk, hki⟩

/-- A pointer is dropped, and nothing is freed. -/
theorem iput_quiet (w : sb.Wf) (h : FsOk sb (k :: L) s) (ho : Held sb L s) :
    wp E (iput sb k) s fun _ s' => FsOk sb L s' ∧ Quiet sb L s s' ∧ s'.locks = s.locks := by
  have hnot := ho.not_lastRef h
  refine (iput_ok w h (fun hl => absurd hl hnot) (fun hl => absurd hl hnot) (fun hl => absurd hl hnot)
    fun hl => absurd hl hnot).mono ?_
  rintro _ s' ⟨h', -, hlk, -, hq⟩
  exact ⟨h', hq hnot, hlk⟩

theorem iunlockput_quiet (w : sb.Wf) (h : FsOk sb (k :: L) s) (ho : Held sb L s)
    (hl : s.locks k = true) : wp E (iunlockput sb k) s fun _ s' => FsOk sb L s' ∧ Quiet sb L s s' ∧
      s'.locks = update s.locks k false := by
  have hno : s.locks k = false → E .iunlock := fun h0 => by
    rw [hl] at h0
    cases h0
  refine wp.bind (iunlock_ok h List.mem_cons_self hno) ?_
  rintro _ s₁ ⟨h₁, q₁, hl₁⟩
  refine (iput_quiet w h₁ (ho.quiet q₁.tail)).mono ?_
  rintro _ s' ⟨h', q', hl'⟩
  exact ⟨h', q₁.tail.trans q', hl'.trans hl₁⟩

/-- A read of bytes that the file has. -/
theorem readi_ok (h : FsOk sb L s) (lo : Loaded s k) {nd : Node}
    (hnd : s.node sb (s.itable k).inum = some nd) {off n : Nat} (hn : off + n ≤ nd.data.length) (va : Nat) :
    wp E (readi sb k .kernel va off n) s fun r s' => s' = s ∧ r = (some n, (nd.data.drop off).take n) := by
  have hdata := lo.node h.good.inv.table
  rw [hnd] at hdata
  cases hdata
  rw [Bytes.length_slice] at hn
  have hsize := (h.good.inv.table.wf lo.live lo.valid).size_lt
  have hlen : readLen (s.itable k).size off n = n := by
    rw [readLen, if_neg (by rw [Nat.mod_eq_of_lt (by omega)]; omega)]
    omega
  refine (readi_kernel h.good.held (h.noHole lo) va off n).mono ?_
  rintro r s' ⟨hs, h1, h2⟩
  rw [hlen] at h1 h2
  refine ⟨hs, Prod.ext h1 (h2.trans ?_)⟩
  rw [Bytes.take_drop_slice, Nat.min_eq_left (by omega)]

end Ops

/-! ## The functions that change a node -/

section Changes

variable {sb : Superblock} {E : Panic → Prop} {s s' : St} {L : List Nat} {k : Nat}

/-- The table has changed in the copies of the inodes only. -/
structure SameEntries (s s' : St) : Prop where
  ref : ∀ j, (s'.itable j).ref = (s.itable j).ref
  inum : ∀ j, (s'.itable j).inum = (s.itable j).inum
  valid : ∀ j, (s'.itable j).valid = (s.itable j).valid
  locked : ∀ j, (s'.itable j).locked = (s.itable j).locked

theorem SameEntries.of_ne (hne : ∀ j, j ≠ k → s'.itable j = s.itable j) (hr : (s'.itable k).ref = (s.itable k).ref)
    (hi : (s'.itable k).inum = (s.itable k).inum) (hv : (s'.itable k).valid = (s.itable k).valid)
    (hl : (s'.itable k).locked = (s.itable k).locked) : SameEntries s s' := by
  constructor <;> intro j <;> by_cases hj : j = k <;> first | rw [hne j hj] | (rw [hj]; assumption)

theorem SameEntries.keeps (h : SameEntries s s') (hout : s'.outstanding = s.outstanding) : Keeps L s s' :=
  ⟨fun j _ => h.inum j, fun j _ hv => (h.valid j).trans hv, hout⟩

theorem SameEntries.locks (h : SameEntries s s') : s'.locks = s.locks := funext h.locked

theorem SameEntries.live (h : SameEntries s s') {j : Nat} (hj : s'.Live j) : s.Live j :=
  ⟨hj.1, by rw [← h.ref j]; exact hj.2⟩

theorem SameEntries.loaded (h : SameEntries s s') (lo : Loaded s k) (ht : (s'.itable k).type ≠ 0) : Loaded s' k :=
  ⟨⟨lo.live.1, by rw [h.ref k]; exact lo.live.2⟩, (h.valid k).trans lo.valid, ht⟩

/-- A change of one node that has a pointer to it. -/
theorem FsOk.change (h : FsOk sb L s) (w : Whole False sb s') (hit : SameEntries s s') (hk : k ∈ L) {nd : Option Node}
    (hnode : s'.node sb = update (s.node sb) (s.itable k).inum nd) : FsOk sb L s' := by
  refine ⟨w, h.refs.congr fun j _ => hit.ref j, fun i nd hnd h0 => ?_⟩
  by_cases hi : i = (s.itable k).inum
  · exact ⟨k, hk, (hit.inum k).trans hi.symm⟩
  · rw [hnode, update_of_ne hi] at hnd
    obtain ⟨j, hj, hji⟩ := h.noOrphan i nd hnd h0
    exact ⟨j, hj, (hit.inum j).trans hji⟩

section

variable (w : sb.Wf) (h : FsOk sb L s) (hk : k ∈ L) (lo : Loaded s k)
include w h hk lo

/-- What `writei` has done to the nodes. -/
theorem writei_ok (hout : 1 ≤ s.outstanding)
    {nd : Node} (hnd : s.node sb (s.itable k).inum = some nd) {src : Src} {va off n : Nat}
    (hE : LOGBLOCKS ≤ s.lh.length + writeCost s s k (off / BSIZE) (endBlock off n) → E .tooBigTransaction)
    (hn : n < U32) (hread : ∀ j < n, src.Readable (va + j)) :
    wp E (writei sb k src va off n) s fun r s' => FsOk sb L s' ∧ Keeps L s s' ∧ Loaded s' k ∧
      s'.locks = s.locks ∧
      ((r = none ∧ ¬ Accepts nd.data.length off n ∧ s' = s) ∨
        ∃ tot, r = some tot ∧ tot ≤ n ∧ (tot = 0 ∨ (off + tot) % BSIZE = 0 ∨ tot = n) ∧
          Accepts nd.data.length off n ∧ (tot < n → NoFree sb s' ∧ nd.data.length < off + n) ∧
          s'.node sb = update (s.node sb) (s.itable k).inum
            (some { nd with data := Bytes.splice nd.data off (Bytes.slice src.byte va tot) })) := by
  have g := h.good
  have hdata := lo.node g.inv.table
  rw [hnd] at hdata
  cases hdata
  simp only [Bytes.length_slice]
  refine (writei_spec w g.inv lo g.held hout src va off n (Credit.start s _) hE hn).mono ?_
  rintro r s' (⟨hacc, rfl, rfl⟩ | ⟨hacc, m, s₁, s₂, rfl, hw⟩)
  · exact ⟨h, Keeps.refl, lo, rfl, .inl ⟨rfl, hacc, rfl⟩⟩
  · obtain ⟨g', lo'⟩ := hw.good w g lo hacc
    obtain ⟨hst, hfree⟩ := hw.stored w g lo hacc (h.noHole lo) hread
    obtain ⟨⟨a, ha⟩, hne⟩ := hw.itable w g.inv lo
    have hs : Synced sb s [k] := fun j hj hv _ => g.synced j hj hv List.not_mem_nil
    have hno := hw.noHoles w g.inv lo hacc hs h.whole.noHole
    obtain ⟨-, -, f₂⟩ := edits_spec w g.inv lo (hw.edits w g.inv lo)
    have hit : SameEntries s s' := .of_ne hne (by rw [ha]) (by rw [ha]) (by rw [ha]) (by rw [ha])
    have hnode : s'.node sb = update (s.node sb) (s.itable k).inum
        (some ⟨(s.itable k).type, (s.itable k).major, (s.itable k).minor, (s.itable k).nlink,
          Bytes.splice (Bytes.slice (s.byteAt k) 0 (s.itable k).size) off
            (Bytes.slice src.byte va m)⟩) := by
      funext i
      by_cases hi : i = (s.itable k).inum
      · subst hi
        rw [update_self, ← hit.inum, lo'.node g'.inv.table, hst.size,
          Bytes.slice_eq_splice hacc.1 hst.new hst.old]
        rw [ha]
      · rw [update_of_ne hi]
        refine node_congr (hst.inode i hi) fun ht x hx => ?_
        have := hst.other i x hi ht (h.whole.noHole i ht _
          (Nat.lt_of_le_of_lt (Nat.div_mul_le_self x BSIZE) hx))
        rwa [hst.inode i hi] at this
    refine ⟨h.change ⟨g', hno, nofun⟩ hit hk hnode, hit.keeps ?_, lo', hit.locks,
      .inr ⟨m, rfl, hw.le, hw.aligned, hacc, fun hlt => ⟨hfree hlt, ?_⟩, hnode⟩⟩
    · rw [hw.eq]
      exact f₂.outstanding
    · exact hw.inside w g.inv lo (h.noHole lo) hread hlt

/-- Stores to the other fields of a loaded inode, and `iupdate`. -/
theorem setFields_ok {ip : Inode}
    (hi : ip.inum = (s.itable k).inum) (hr : ip.ref = (s.itable k).ref)
    (hv : ip.valid = (s.itable k).valid) (hl : ip.locked = (s.itable k).locked) (hwf : ip.toDinode.Wf)
    (ht : ip.type = (s.itable k).type) (ha : ip.addrs = (s.itable k).addrs)
    (hsz : ip.size = (s.itable k).size) {nd : Node} (hnd : s.node sb (s.itable k).inum = some nd)
    (hs' : s' = (s.setInode k ip).iupdate sb k) :
    FsOk sb L s' ∧ Keeps L s s' ∧ Loaded s' k ∧ s'.locks = s.locks ∧
      s'.node sb = update (s.node sb) (s.itable k).inum
        (some { nd with major := ip.major, minor := ip.minor, nlink := ip.nlink }) ∧
      OnlyInode sb (s.itable k).inum s s' := by
  have g := h.good
  have hlive := lo.live
  have hs : Synced sb s [k] := fun j hj hv _ => g.synced j hj hv List.not_mem_nil
  obtain ⟨inv', hsync, hcur, -⟩ := setInode_iupdate w g.inv lo ip hi (by rw [hr]; exact hlive.2)
    (hv.trans lo.valid) hwf (by rw [ht]) ha hs
  rw [← hs'] at inv' hsync hcur
  have hit : s'.itable = update s.itable k ip := by
    rw [hs']
    rfl
  have hself : s'.itable k = ip := by rw [hit, update_self]
  have hne : ∀ j, j ≠ k → s'.itable j = s.itable j := fun j hj => by rw [hit, update_of_ne hj]
  have hsame : SameEntries s s' := .of_ne hne (by rw [hself, hr]) (by rw [hself, hi]) (by rw [hself, hv])
    (by rw [hself, hl])
  have lo' : Loaded s' k := hsame.loaded lo (by rw [hself, ht]; exact lo.type)
  have hmeta : ∀ b, sb.bmapstart ≤ b → s'.blk b = s.blk b := by
    intro b hb
    have hlt := w.iblock_lt (lo.inum_lt g.inv.table)
    have hne' : b ≠ sb.iblock ((s.setInode k ip).itable k).inum := by
      rw [St.setInode_itable, update_self, hi]
      omega
    rw [hs']
    exact update_of_ne hne' _ _
  have hblk : ∀ b, sb.nmeta ≤ b → s'.blk b = s.blk b := fun b hb =>
    hmeta b (Nat.le_trans (Nat.le_of_lt w.bmapstart_lt) hb)
  have own := g.inv.own
  have hnode : s'.node sb = update (s.node sb) (s.itable k).inum
      (some { nd with major := ip.major, minor := ip.minor, nlink := ip.nlink }) := by
    have hdata := lo.node g.inv.table
    rw [hnd] at hdata
    cases hdata
    funext i
    by_cases hi' : i = (s.itable k).inum
    · subst hi'
      rw [update_self, ← hsame.inum, lo'.node inv'.table, hself, ht, hsz]
      have hsl : Bytes.slice (s'.byteAt k) 0 (s.itable k).size =
          Bytes.slice (s.byteAt k) 0 (s.itable k).size := by
        refine Bytes.slice_congr fun x hx => ?_
        rw [Nat.zero_add]
        have h0 : s.blockAt k (x / BSIZE) ≠ 0 :=
          h.noHole lo _ (Nat.lt_of_le_of_lt (Nat.div_mul_le_self x BSIZE) hx)
        have hcur₀ := lo.cur g.inv.table
        have hb : (s.cur sb (s.itable k).inum).byteAt s'.blk x = (s.cur sb (s.itable k).inum).byteAt s.blk x :=
          byteAt_congr own (by rw [hcur₀]; exact lo.type) hblk (by rw [hcur₀]; exact h0)
        rw [hcur₀] at hb
        rw [St.byteAt, St.byteAt, ← hb]
        show s'.blk ((s'.itable k).toDinode.blockAt s'.blk _) _ = s'.blk ((s.itable k).toDinode.blockAt s'.blk _) _
        have : (s'.itable k).toDinode.blockAt s'.blk (x / BSIZE) =
            (s.itable k).toDinode.blockAt s'.blk (x / BSIZE) := by
          rw [hself]
          unfold Dinode.blockAt
          cases Slot.of (x / BSIZE) <;> simp only [Dinode.addr, ha]
        rw [this]
      rw [hsl]
    · rw [update_of_ne hi']
      refine node_of_meta own h.whole.noHole ?_ hblk
      rw [hcur, update_of_ne hi']
  refine ⟨h.change ⟨⟨inv', hsync, fun {j} hl hv => ?_, ?_⟩, ?_, False.elim⟩ hsame hk hnode,
    hsame.keeps (by rw [hs']; rfl), lo', hsame.locks, hnode, hmeta, fun i hi' => ?_⟩
  · by_cases hj : j = k
    · rw [hj]
      exact lo'.type
    · rw [hne j hj] at hv ⊢
      exact g.typed (hsame.live hl) hv
  · rw [hs']
    exact g.held
  · refine noHoles_of_meta own h.whole.noHole hblk fun i _ => ?_
    rw [hcur]
    by_cases hi' : i = (s.itable k).inum
    · subst hi'
      rw [update_self, lo.cur g.inv.table]
      exact .inr (.inr ⟨lo.type, ha, hsz⟩)
    · rw [update_of_ne hi']
      exact .inl rfl
  · rw [hcur, update_of_ne hi']

/-- `iupdate` after a store to the numbers of a node. -/
theorem iupdate_ok (hout : 1 ≤ s.outstanding)
    (hE : E .tooBigTransaction) {nd : Node} (hnd : s.node sb (s.itable k).inum = some nd)
    {major minor nlink : Nat} (h1 : major < 2 ^ 16) (h2 : minor < 2 ^ 16) (h3 : nlink < 2 ^ 16) {ip : Inode}
    (hip : ip = { s.itable k with major := major, minor := minor, nlink := nlink }) :
    wp E (iupdate sb k) (s.setInode k ip) fun _ s' => FsOk sb L s' ∧ Keeps L s s' ∧ Loaded s' k ∧
      s'.locks = s.locks ∧ s'.node sb = update (s.node sb) (s.itable k).inum
        (some { nd with major := major, minor := minor, nlink := nlink }) ∧
      OnlyInode sb (s.itable k).inum s s' := by
  have hwf := h.good.inv.table.wf lo.live lo.valid
  have hout' : 1 ≤ (s.setInode k ip).outstanding := hout
  refine (iupdate_spec ?_ hout' fun _ => hE).mono ?_
  · rw [St.setInode_held, h.good.held]
    exact List.not_mem_nil
  · rintro _ s' hs'
    have hwf' : ip.toDinode.Wf := by
      rw [hip]
      exact ⟨hwf.type_lt, h1, h2, h3, hwf.size_lt, hwf.addrs_lt, hwf.addrs_end⟩
    have hset := setFields_ok w h hk lo (by rw [hip]) (by rw [hip]) (by rw [hip]) (by rw [hip]) hwf'
      (by rw [hip]) (by rw [hip]) (by rw [hip]) hnd hs'
    rw [hip] at hset
    exact hset

/-- `itrunc` empties a node. -/
theorem itrunc_ok (hout : 1 ≤ s.outstanding)
    (hE : E .tooBigTransaction) {nd : Node} (hnd : s.node sb (s.itable k).inum = some nd) :
    wp E (itrunc sb k) s fun _ s' => FsOk sb L s' ∧ Keeps L s s' ∧ Loaded s' k ∧ s'.locks = s.locks ∧
      s'.node sb = update (s.node sb) (s.itable k).inum (some { nd with data := [] }) := by
  have g := h.good
  refine (itrunc_spec w g.inv lo g.held hout (Budget.any hE) (A := fun _ => True) (fun _ _ => trivial)
    trivial).mono ?_
  rintro _ s' ⟨tr, -⟩
  have hself : s'.itable k = (s.itable k).empty := by rw [tr.itable, update_self]
  have hne : ∀ j, j ≠ k → s'.itable j = s.itable j := fun j hj => by
    rw [tr.itable, update_of_ne hj]
  have hsame : SameEntries s s' := by
    refine .of_ne hne ?_ ?_ ?_ ?_ <;> rw [hself] <;> rfl
  have lo' : Loaded s' k := hsame.loaded lo (by rw [hself]; exact lo.type)
  have hnode : s'.node sb = update (s.node sb) (s.itable k).inum (some { nd with data := [] }) := by
    have hdata := lo.node g.inv.table
    rw [hnd] at hdata
    cases hdata
    funext i
    by_cases hi : i = (s.itable k).inum
    · subst hi
      rw [update_self, ← hsame.inum, lo'.node tr.inv.table, hself]
      rfl
    · rw [update_of_ne hi]
      refine node_of_meta g.inv.own h.whole.noHole ?_ tr.blk
      rw [tr.cur, update_of_ne hi]
  refine ⟨h.change ⟨⟨tr.inv, fun j hj hv _ => ?_, fun {j} hl hv => ?_, tr.held.trans g.held⟩, ?_, nofun⟩
    hsame hk hnode, hsame.keeps tr.outstanding, lo', hsame.locks, hnode⟩
  · rw [hsame.inum, tr.disk _ (by rw [← hsame.inum]; exact tr.inv.table.inum_lt hj hv)]
    by_cases hjk : j = k
    · rw [hjk, hself, if_pos rfl]
    · have hl := hsame.live hj
      have hne' : (s.itable j).inum ≠ (s.itable k).inum := fun he => hjk (g.inv.table.uniq hl lo.live he)
      rw [if_neg hne', hne j hjk]
      exact g.synced j hl ((hsame.valid j).symm.trans hv) List.not_mem_nil
  · by_cases hj : j = k
    · rw [hj]
      exact lo'.type
    · rw [hne j hj] at hv ⊢
      exact g.typed (hsame.live hl) hv
  · refine noHoles_of_meta g.inv.own h.whole.noHole tr.blk fun i _ => ?_
    rw [tr.cur]
    by_cases hi : i = (s.itable k).inum
    · subst hi
      rw [update_self]
      exact .inr (.inl rfl)
    · rw [update_of_ne hi]
      exact .inl rfl

end

section

variable (w : sb.Wf) (h : FsOk sb L s) (hout : 1 ≤ s.outstanding) (hE : E .tooBigTransaction)
  (hE' : NINODE ≤ L.toFinset.card → E .igetNoInodes)
include w h hout hE hE'

/-- The first free inode number of a list. -/
theorem iallocFrom_ok {type : Nat}
    (ht : type ≠ 0) (htlt : type < 2 ^ 16) (l : List Nat) (hl : ∀ i ∈ l, i < sb.ninodes) :
    wp E (iallocFrom sb type l) s fun r s' =>
      (r = none ∧ s' = s ∧ ∀ i ∈ l, s.node sb i ≠ none) ∨
      ∃ k i, r = some k ∧ i ∈ l ∧ s.node sb i = none ∧ FsOk sb (k :: L) s' ∧ Keeps L s s' ∧
        s'.locks = s.locks ∧ (s'.itable k).inum = i ∧
        s'.node sb = update (s.node sb) i (some { type := type }) ∧ OnlyInode sb i s s' := by
  have g := h.good
  induction l with
  | nil => exact .inl ⟨rfl, rfl, by simp⟩
  | cons i l ih =>
    have hi := hl i List.mem_cons_self
    have hcur : s.cur sb i = s.disk sb i := by rw [g.cur_eq, if_pos hi]
    unfold iallocFrom
    refine wp_bind.mpr (wp_bread (by rw [g.held]; exact List.not_mem_nil) ?_)
    refine wp_ite.mpr ⟨fun h0 => ?_, fun h0 => ?_⟩
    · have hfree : (s.cur sb i).type = 0 := by rw [hcur]; exact h0
      refine wp_bind.mpr (wp_setData.mpr (wp_bind.mpr (wp_logWrite (fun _ => hE) hout ?_)))
      refine wp_bind.mpr (wp_brelse.mpr ?_)
      rw [St.unhold_log_setBlk_hold]
      generalize hs₁ : (s.setBlk (sb.iblock i) _).log (sb.iblock i) = s₁
      have hwf : ({ type := type } : Dinode).Wf :=
        ⟨htlt, Nat.two_pow_pos 16, Nat.two_pow_pos 16, Nat.two_pow_pos 16, Nat.two_pow_pos 32,
          fun _ => Nat.two_pow_pos 32, fun _ _ => rfl⟩
      have hdisk : ∀ j, s₁.disk sb j = if j = i then { type := type } else s.disk sb j := by
        intro j
        rw [← hs₁]
        exact disk_store hwf
      have hit : s₁.itable = s.itable := by rw [← hs₁]; rfl
      have hmeta : ∀ b, sb.bmapstart ≤ b → s₁.blk b = s.blk b := by
        intro b hb
        have hlt := w.iblock_lt hi
        rw [← hs₁]
        exact update_of_ne (by omega) _ _
      have hblk : ∀ b, sb.nmeta ≤ b → s₁.blk b = s.blk b := fun b hb =>
        hmeta b (Nat.le_trans (Nat.le_of_lt w.bmapstart_lt) hb)
      -- no entry has a copy of a free inode
      have hnot : ∀ {j}, s.Live j → (s.itable j).valid = true → (s.itable j).inum ≠ i := by
        intro j hlj hv hji
        have := g.typed hlj hv
        rw [← cur_of_valid g.inv.table hlj hv, hji] at this
        exact this hfree
      obtain ⟨g₁, hcur₁⟩ : Good sb s₁ ∧
          s₁.cur sb = update (s.cur sb) i { type := type } := by
        refine good_of_disk (fun j => ?_) ?_ (by rw [← hs₁]; exact g.held) ?_ ?_
        · by_cases hj : j = i
          · rw [hj, update_self, if_pos hi, hdisk, if_pos rfl]
          · rw [update_of_ne hj, g.cur_eq, hdisk, if_neg hj]
        · have := (g.inv.own.setEmpty (n := i) (d := { type := type }) (.inl hfree) rfl).writeMeta w
            (w.iblock_lt hi) (Dinode.store (s.blk (sb.iblock i)) (i % IPB) { type := type })
          rw [← hs₁]
          exact this
        · intro j j'
          simp only [St.Live, hit]
          exact g.inv.table.uniq
        · intro j hlj hv
          simp only [St.Live, hit] at hlj hv ⊢
          rw [hdisk, if_neg (hnot hlj hv)]
          exact ⟨g.inv.table.inum_lt hlj hv, g.synced j hlj hv List.not_mem_nil, g.typed hlj hv⟩
      have hnode₁ : s₁.node sb = update (s.node sb) i (some { type := type }) := by
        funext j
        by_cases hj : j = i
        · rw [hj, update_self, node_eq_some, hcur₁, update_self]
          exact ⟨ht, rfl⟩
        · rw [update_of_ne hj]
          refine node_of_meta g.inv.own h.whole.noHole ?_ hblk
          rw [hcur₁, update_of_ne hj]
      have hno₁ : NoHoles sb s₁ := by
        refine noHoles_of_meta g.inv.own h.whole.noHole hblk fun j _ => ?_
        rw [hcur₁]
        by_cases hj : j = i
        · rw [hj, update_self]
          exact .inr (.inl rfl)
        · rw [update_of_ne hj]
          exact .inl rfl
      have r₁ : Refs s₁ L := h.refs.congr fun j _ => by rw [hit]
      refine wp.bind (iget_spec g₁ r₁ (fun he => hE' (r₁.full he)) i) ?_
      rintro k s' ⟨g', c, r, hnum, hsame, hne, -, hlk⟩
      refine .inr ⟨k, i, rfl, List.mem_cons_self, node_eq_none.mpr hfree, ?_, ?_, ?_, hnum,
        c.node.trans hnode₁, ⟨fun b hb => by rw [c.blk, hmeta b hb], fun j hj => ?_⟩⟩
      · refine ⟨Whole.calm ⟨g₁, hno₁, False.elim⟩ c g', r, fun j nd hnd hz => ?_⟩
        rw [c.node, hnode₁] at hnd
        by_cases hj : j = i
        · exact ⟨k, List.mem_cons_self, hnum.trans hj.symm⟩
        · rw [update_of_ne hj] at hnd
          obtain ⟨j', hj', hji⟩ := h.noOrphan j nd hnd hz
          exact ⟨j', List.mem_cons_of_mem _ hj', by rw [(hsame j' hj').inum, hit]; exact hji⟩
      · refine ⟨fun j hj => by rw [(hsame j hj).inum, hit], fun j hj hv => ?_, ?_⟩
        · rw [(hsame j hj).valid, hit]
          exact hv
        · rw [c.outstanding, ← hs₁]
          rfl
      · have := locks_of_ne hne hlk
        rw [show update s₁.locks k (s₁.itable k).locked = s₁.locks from
          update_eq_self _ _] at this
        rw [this]
        funext j
        rw [St.locks, hit, St.locks]
      · rw [c.cur, hcur₁, update_of_ne hj]
    · refine wp_bind.mpr (wp_brelse.mpr ?_)
      rw [St.unhold_hold]
      refine (ih fun j hj => hl j (List.mem_cons_of_mem _ hj)).mono ?_
      have hnz : s.node sb i ≠ none := fun hno => h0 (by rw [← node_eq_none.mp hno, hcur]; rfl)
      rintro r s' (⟨rfl, rfl, hall⟩ | ⟨k, j, hr, hj, hrest⟩)
      · refine .inl ⟨rfl, rfl, fun j hj => ?_⟩
        rcases List.mem_cons.mp hj with rfl | hj
        · exact hnz
        · exact hall j hj
      · exact .inr ⟨k, j, hr, List.mem_cons_of_mem _ hj, hrest⟩

/-- `ialloc` finds no free inode and changes nothing, or makes an empty node. -/
theorem ialloc_ok {type : Nat}
    (ht : type ≠ 0) (htlt : type < 2 ^ 16) :
    wp E (ialloc sb type) s fun r s' =>
      (r = none ∧ s' = s ∧ ∀ i, 1 ≤ i → i < sb.ninodes → s.node sb i ≠ none) ∨
      ∃ k i, r = some k ∧ 1 ≤ i ∧ s.node sb i = none ∧ FsOk sb (k :: L) s' ∧ Keeps L s s' ∧
        s'.locks = s.locks ∧ (s'.itable k).inum = i ∧
        s'.node sb = update (s.node sb) i (some { type := type }) ∧ OnlyInode sb i s s' := by
  refine (iallocFrom_ok w h hout hE hE' ht htlt _ fun i hi => ?_).mono ?_
  · have := List.mem_range'_1.mp hi
    omega
  · rintro r s' (⟨hr, hs, hall⟩ | ⟨k, i, hr, hi, hrest⟩)
    · exact .inl ⟨hr, hs, fun i h1 h2 => hall i (List.mem_range'_1.mpr ⟨h1, by omega⟩)⟩
    · exact .inr ⟨k, i, hr, (List.mem_range'_1.mp hi).1, hrest⟩

end

end Changes

end Xv6.Fs
