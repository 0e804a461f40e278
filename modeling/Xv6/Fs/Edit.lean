import Xv6.Fs.Alloc

/-!
# The blocks of a locked inode

`bmap` and the loop of `writei` change a locked inode in small steps (`Edit`): a fresh block is
stored in `addrs` or in the indirect block, the data of a block of contents is overwritten, such a
block is logged. Each step, and so each run of steps, keeps the table's invariant and block
ownership and leaves everything else alone (`Edit.spec`, `edits_spec`). `bmap_spec` says which steps
`bmap` takes.
-/

namespace Xv6.Fs

open Seq Seq.M
open Function (update update_of_ne update_self)

/-- The invariant of the file system between the steps of an operation. -/
structure Inv (sb : Superblock) (s : St) : Prop where
  table : TableOk sb s
  own : Own sb s.blk (s.cur sb) []

/-- Table entry `k` holds an allocated inode, read from disk. -/
structure Loaded (s : St) (k : Nat) : Prop where
  live : s.Live k
  valid : (s.itable k).valid = true
  type : (s.itable k).type ≠ 0

namespace St

variable (sb : Superblock) (s : St) (k : Nat)

/-- A fresh block `b` is stored in `addrs[i]` of entry `k`. -/
def allocAddr (i b : Nat) : St := (s.alloc sb b).setInode k ((s.itable k).setAddr i b)

/-- A fresh block `b` is stored as entry `j` of the indirect block `c`. -/
def allocEntry (c j b : Nat) : St := ((s.alloc sb b).setBlk c (Bytes.setU32 (s.blk c) j b)).log c

/-- The block of entry `k`'s inode that holds the `bn`-th block of its contents. -/
def blockAt (bn : Nat) : Nat := (s.itable k).toDinode.blockAt s.blk bn

end St

/-- A fresh block for the inode in table entry `k`: the `bn`-th block of its contents, or the
indirect block that will list it. -/
inductive Grow (sb : Superblock) (k bn : Nat) : St → St → Prop
  | addr {s : St} {i b : Nat} (hi : i ≤ NDIRECT)
      (hbn : Slot.ofAddr i = .of bn ∨ Slot.ofAddr i = .indirect) (h0 : (s.itable k).addrs i = 0)
      (hb : b < sb.size) (hfree : bitAt sb s.blk b = false) : Grow sb k bn s (s.allocAddr sb k i b)
  | entry {s : St} {j b : Nat} (hc : (s.itable k).addrs NDIRECT ≠ 0) (hj : j < NINDIRECT)
      (hbn : Slot.entry j = .of bn)
      (h0 : Bytes.getU32 (s.blk ((s.itable k).addrs NDIRECT)) j = 0) (hb : b < sb.size)
      (hfree : bitAt sb s.blk b = false) :
      Grow sb k bn s (s.allocEntry sb ((s.itable k).addrs NDIRECT) j b)

/-- One step of a change to the contents of the inode in table entry `k`. -/
inductive Edit (sb : Superblock) (k : Nat) : St → St → Prop
  | grow {s s' : St} {bn : Nat} (h : Grow sb k bn s s') : Edit sb k s s'
  | data {s : St} {bn : Nat} (d : Block) (h0 : s.blockAt k bn ≠ 0) :
      Edit sb k s (s.setBlk (s.blockAt k bn) d)
  | log {s : St} {bn : Nat} (h0 : s.blockAt k bn ≠ 0) : Edit sb k s (s.log (s.blockAt k bn))

/-- What a change to the contents of an inode leaves alone. -/
structure Frame (sb : Superblock) (k : Nat) (s s' : St) : Prop where
  held : s'.held = s.held
  outstanding : s'.outstanding = s.outstanding
  other : ∀ j, j ≠ k → s'.itable j = s.itable j
  entry : ∃ a, s'.itable k = { s.itable k with addrs := a }
  disk : ∀ i < sb.ninodes, s'.disk sb i = s.disk sb i
  cur_other : ∀ i, i ≠ (s.itable k).inum → s'.cur sb i = s.cur sb i
  keep : ∀ {i σ a}, Ref s.blk (s.cur sb) i σ a → Ref s'.blk (s'.cur sb) i σ a
  ref_other : ∀ {i σ a}, i ≠ (s.itable k).inum → Ref s'.blk (s'.cur sb) i σ a → Ref s.blk (s.cur sb) i σ a

namespace Frame

variable {sb : Superblock} {k : Nat} {s s' s'' : St}

theorem refl : Frame sb k s s :=
  ⟨rfl, rfl, fun _ _ => rfl, ⟨_, rfl⟩, fun _ _ => rfl, fun _ _ => rfl, fun h => h, fun _ h => h⟩

theorem inum (h : Frame sb k s s') : (s'.itable k).inum = (s.itable k).inum := by
  obtain ⟨a, ha⟩ := h.entry
  rw [ha]

theorem trans (h : Frame sb k s s') (h' : Frame sb k s' s'') : Frame sb k s s'' := by
  refine ⟨h'.held.trans h.held, h'.outstanding.trans h.outstanding,
    fun j hj => (h'.other j hj).trans (h.other j hj), ?_,
    fun i hi => (h'.disk i hi).trans (h.disk i hi),
    fun i hi => (h'.cur_other i (by rwa [h.inum])).trans (h.cur_other i hi),
    fun hr => h'.keep (h.keep hr),
    fun hi hr => h.ref_other hi (h'.ref_other (by rwa [h.inum]) hr)⟩
  obtain ⟨a, ha⟩ := h.entry
  obtain ⟨a', ha'⟩ := h'.entry
  exact ⟨a', by rw [ha', ha]⟩

end Frame

section Loaded

variable {sb : Superblock} {s : St} {k : Nat}

section

variable (l : Loaded s k) (t : TableOk sb s)
include l t

theorem Loaded.cur : s.cur sb (s.itable k).inum = (s.itable k).toDinode :=
  cur_of_valid t l.live l.valid

theorem Loaded.inum_lt : (s.itable k).inum < sb.ninodes :=
  t.inum_lt l.live l.valid

/-- A place of a loaded inode that is not empty is a reference. -/
theorem Loaded.ref {σ : Slot} (h0 : (s.itable k).toDinode.addr s.blk σ ≠ 0) :
    Ref s.blk (s.cur sb) (s.itable k).inum σ ((s.itable k).toDinode.addr s.blk σ) := by
  refine ⟨?_, ?_, h0⟩
  · rw [l.cur t]
    exact l.type
  · rw [l.cur t]

theorem Loaded.ref_blockAt {bn : Nat} (h0 : s.blockAt k bn ≠ 0) :
    Ref s.blk (s.cur sb) (s.itable k).inum (.of bn) (s.blockAt k bn) :=
  l.ref t h0

end

theorem Loaded.congr {s' : St} (l : Loaded s k)
    (h : ∃ a, s'.itable k = { s.itable k with addrs := a }) : Loaded s' k := by
  obtain ⟨a, ha⟩ := h
  refine ⟨⟨l.live.1, ?_⟩, ?_, ?_⟩
  · rw [ha]
    exact l.live.2
  · rw [ha]
    exact l.valid
  · rw [ha]
    exact l.type

/-- A block of the contents stays where it is. -/
theorem Frame.blockAt {s' : St} (f : Frame sb k s s') (t : TableOk sb s) (l : Loaded s k) (t' : TableOk sb s')
    (l' : Loaded s' k) {bn : Nat} (h0 : s.blockAt k bn ≠ 0) : s'.blockAt k bn = s.blockAt k bn := by
  have hr := f.keep (l.ref_blockAt t h0)
  have hc := l'.cur t'
  rw [f.inum] at hc
  rw [← hr.2.1, hc]
  rfl

/-- No allocated inode has a hole. -/
def NoHoles (sb : Superblock) (s : St) : Prop :=
  ∀ i, (s.cur sb i).type ≠ 0 → (s.cur sb i).NoHole s.blk

theorem noHoles_iff_ref : NoHoles sb s ↔ ∀ i bn, (s.cur sb i).type ≠ 0 →
    bn * BSIZE < (s.cur sb i).size → ∃ a, Ref s.blk (s.cur sb) i (.of bn) a := by
  constructor
  · intro h i bn ht hlt
    exact ⟨_, ht, rfl, h i ht bn hlt⟩
  · intro h i ht bn hlt
    obtain ⟨a, -, ha, h0⟩ := h i bn ht hlt
    rwa [← ha] at h0

/-- The blocks of each allocated inode were given to it in order. -/
def InOrder (sb : Superblock) (s : St) : Prop :=
  ∀ i bn bn', (s.cur sb i).type ≠ 0 → bn ≤ bn' → (s.cur sb i).blockAt s.blk bn' ≠ 0 →
    (s.cur sb i).blockAt s.blk bn ≠ 0

theorem inOrder_iff_ref : InOrder sb s ↔ ∀ i bn bn' a, bn ≤ bn' →
    Ref s.blk (s.cur sb) i (.of bn') a → ∃ a', Ref s.blk (s.cur sb) i (.of bn) a' := by
  constructor
  · rintro h i bn bn' a hle ⟨ht, rfl, h0⟩
    exact ⟨_, ht, rfl, h i bn bn' ht hle h0⟩
  · intro h i bn bn' ht hle h0
    obtain ⟨a, -, ha, h0'⟩ := h i bn bn' _ hle ⟨ht, rfl, h0⟩
    rwa [← ha] at h0'

theorem InOrder.loaded (h : InOrder sb s) (t : TableOk sb s) (l : Loaded s k) {bn bn' : Nat}
    (hle : bn ≤ bn') (h0 : s.blockAt k bn' ≠ 0) : s.blockAt k bn ≠ 0 := by
  have := h (s.itable k).inum bn bn'
  rw [l.cur t] at this
  exact this l.type hle h0

theorem NoHoles.loaded (h : NoHoles sb s) (t : TableOk sb s) (l : Loaded s k) :
    (s.itable k).toDinode.NoHole s.blk := by
  have := h (s.itable k).inum
  rw [l.cur t] at this
  exact this l.type

/-- The state of the file system between two operations on inodes. -/
structure Good (sb : Superblock) (s : St) : Prop where
  inv : Inv sb s
  /-- The inodes in the table are those on disk. -/
  synced : Synced sb s []
  typed : ∀ {k}, s.Live k → (s.itable k).valid = true → (s.itable k).type ≠ 0
  held : s.held = []

/-- Such a state in which no file has a hole and, with `ord`, the blocks were given in order. -/
structure Whole (ord : Prop) (sb : Superblock) (s : St) : Prop extends Good sb s where
  noHole : NoHoles sb s
  inOrder : ord → InOrder sb s

end Loaded

/-! ## Other fields -/

/-- Fields of a loaded inode other than its type and its blocks are changed, in the table and on
disk. -/
theorem setInode_iupdate {sb : Superblock} {s : St} {k : Nat} {x : List Nat} (w : sb.Wf)
    (inv : Inv sb s) (lo : Loaded s k) (ip : Inode) (hi : ip.inum = (s.itable k).inum)
    (hr : 0 < ip.ref) (hv : ip.valid = true) (hwf : ip.toDinode.Wf)
    (ht : ip.type = 0 ↔ (s.itable k).type = 0) (ha : ip.addrs = (s.itable k).addrs)
    (hs : Synced sb s (k :: x)) :
    Inv sb ((s.setInode k ip).iupdate sb k) ∧ Synced sb ((s.setInode k ip).iupdate sb k) x ∧
    ((s.setInode k ip).iupdate sb k).cur sb =
      update (s.cur sb) (s.itable k).inum ip.toDinode ∧
    (∀ i σ a, Ref ((s.setInode k ip).iupdate sb k).blk (((s.setInode k ip).iupdate sb k).cur sb) i σ a ↔
      Ref s.blk (s.cur sb) i σ a) := by
  obtain ⟨t, own⟩ := inv
  have hnum : ip.inum < sb.ninodes := by
    rw [hi]
    exact lo.inum_lt t
  have t₁ : TableOk sb (s.setInode k ip) :=
    t.setInode lo.live ip hi hr (fun _ => hnum) fun _ => hwf
  have hc₁ : (s.setInode k ip).cur sb = update (s.cur sb) (s.itable k).inum ip.toDinode := by
    rw [cur_setInode t lo.live ip hi hr hnum hv hwf, hi]
  have hl : ∀ j, (s.setInode k ip).Live j ↔ s.Live j := fun j =>
    live_setInode (by simp [hr, lo.live.2])
  have hk : (s.setInode k ip).itable k = ip := by simp
  have hvalid : ((s.setInode k ip).itable k).valid = true := by
    rw [hk]
    exact hv
  have hlive : (s.setInode k ip).Live k := (hl k).mpr lo.live
  have hc₂ := (cur_iupdate t₁ hlive hvalid).trans hc₁
  have own₁ : Own sb s.blk (update (s.cur sb) (s.itable k).inum ip.toDinode) [] := by
    refine own.setFields ?_ ?_
    · rw [lo.cur t]
      exact ht
    · rw [lo.cur t]
      exact ha
  have hib : sb.iblock ((s.setInode k ip).itable k).inum < sb.bmapstart := by
    rw [hk]
    exact w.iblock_lt hnum
  refine ⟨⟨t₁.congr rfl, ?_⟩, ?_, hc₂, fun i σ a => ?_⟩
  · rw [hc₂]
    exact own₁.writeMeta w hib _
  · refine synced_iupdate t₁ hlive hvalid fun j hj hvj hx => ?_
    have hjk : j ≠ k := fun h => hx (h ▸ List.mem_cons_self)
    have hj' : s.Live j := (hl j).mp hj
    simp only [St.setInode_itable, update_of_ne hjk] at hvj ⊢
    exact hs j hj' hvj hx
  · rw [hc₂]
    refine (own₁.ref_writeMeta w hib).trans (Own.ref_setFields ?_ ?_)
    · rw [lo.cur t]
      exact ht
    · rw [lo.cur t]
      exact ha

/-! ## The steps -/

section Steps

variable {sb : Superblock} {s s' : St} {k : Nat}

variable {i b bn bn' : Nat}

theorem setAddr_wf {d : Dinode} (h : d.Wf) (hi : i ≤ NDIRECT) (hb : b < U32) :
    { d with addrs := update d.addrs i b : Dinode }.Wf := by
  refine ⟨h.type_lt, h.major_lt, h.minor_lt, h.nlink_lt, h.size_lt, fun j => ?_, fun j hj => ?_⟩
  · show update d.addrs i b j < U32
    by_cases hji : j = i
    · rw [hji, update_self]
      exact hb
    · rw [update_of_ne hji]
      exact h.addrs_lt j
  · show update d.addrs i b j = 0
    rw [update_of_ne (by omega)]
    exact h.addrs_end j hj

theorem cur_allocAddr (w : sb.Wf) (t : TableOk sb s) (l : Loaded s k) (hi : i ≤ NDIRECT)
    (hb : sb.Data b) :
    TableOk sb (s.allocAddr sb k i b) ∧
    (s.allocAddr sb k i b).cur sb = update (s.cur sb) (s.itable k).inum
      { s.cur sb (s.itable k).inum with
        addrs := update (s.cur sb (s.itable k).inum).addrs i b } := by
  have hwf := setAddr_wf (t.wf l.live l.valid) hi (w.data_lt hb)
  have t' : TableOk sb (s.alloc sb b) := t.congr rfl
  refine ⟨t'.setInode l.live _ rfl l.live.2 (fun _ => l.inum_lt t) fun _ => hwf, ?_⟩
  have h := cur_setInode t' l.live ((s.itable k).setAddr i b) rfl l.live.2 (l.inum_lt t)
    l.valid hwf
  rw [cur_alloc w hb] at h
  rw [l.cur t]
  exact h

/-- What a fresh block `b` for the place `σ` changes. -/
structure Grown (sb : Superblock) (k bn : Nat) (s s' : St) (σ : Slot) (b : Nat) : Prop where
  place : σ = .of bn ∨ σ = .indirect
  inv : Inv sb s'
  loaded : Loaded s' k
  frame : Frame sb k s s'
  ref : ∀ {i σ' a}, Ref s'.blk (s'.cur sb) i σ' a ↔
    Ref s.blk (s.cur sb) i σ' a ∨ (i = (s.itable k).inum ∧ σ' = σ ∧ a = b)
  zero : s'.blk b = fun _ => 0
  /-- The blocks that are changed are logged, and none of them is a block of contents. -/
  log : ∃ new, s'.wrote = new ++ s.wrote ∧ b ∈ new ∧ (∀ c, c ∉ new → s'.blk c = s.blk c) ∧
    ∀ c ∈ new, ∀ i bn, ¬ Ref s.blk (s.cur sb) i (.of bn) c

section

variable (w : sb.Wf) (inv : Inv sb s) (l : Loaded s k)
include w inv l

theorem Grow.grown (h : Grow sb k bn s s') : ∃ σ b, Grown sb k bn s s' σ b := by
  obtain ⟨t, own⟩ := inv
  have ht : (s.cur sb (s.itable k).inum).type ≠ 0 := by
    rw [l.cur t]
    exact l.type
  cases h with
  | @addr i b hi hbn h0 hb hfree =>
    have hdata := own.data_of_free hb hfree
    obtain ⟨t', hcur⟩ := cur_allocAddr w t l hi hdata
    have own1 := own_alloc w own hb hfree
    have h0' : (s.cur sb (s.itable k).inum).addrs i = 0 := by
      rw [l.cur t]
      exact h0
    have hz : (s.alloc sb b).blk b = fun _ => 0 := St.alloc_blk_self
    have href : ∀ {i' σ' a}, Ref (s.allocAddr sb k i b).blk ((s.allocAddr sb k i b).cur sb) i' σ' a ↔
        Ref s.blk (s.cur sb) i' σ' a ∨ (i' = (s.itable k).inum ∧ σ' = .ofAddr i ∧ a = b) := by
      intro i' σ' a
      rw [hcur]
      exact (own1.ref_setAddr w ht hi h0' hz).trans (or_congr_left (own.ref_alloc w hb hfree))
    have hentry : ∃ a, (s.allocAddr sb k i b).itable k = { s.itable k with addrs := a } :=
      ⟨_, by simp [St.allocAddr, Inode.setAddr]; rfl⟩
    refine ⟨.ofAddr i, b, hbn, ⟨t', ?_⟩, l.congr hentry, ?_, href, hz, [b, sb.bblock b], rfl,
      List.mem_cons_self, fun c hc => ?_, fun c hc j bn hr => ?_⟩
    · rw [hcur]
      exact own1.attachAddr w ht hi h0' hz
    · refine ⟨rfl, rfl, fun j hj => by simp [St.allocAddr, hj], hentry,
        fun i hi => disk_alloc w hdata hi, fun j hj => ?_, fun hr => href.mpr (.inl hr),
        fun hi hr => (href.mp hr).resolve_right fun h => hi h.1⟩
      rw [hcur, update_of_ne hj]
    · simp only [List.mem_cons, List.not_mem_nil, or_false, not_or] at hc
      exact St.alloc_blk_of_ne hc.1 hc.2
    · rcases List.mem_cons.mp hc with rfl | hc
      · exact own.not_ref_of_free hfree hr
      · exact w.data_ne_bblock (own.data hr) hb (List.mem_singleton.mp hc)
  | @entry j b hc hj hbn h0 hb hfree =>
    have hdata := own.data_of_free hb hfree
    have own1 := own_alloc w own hb hfree
    have hc' : (s.cur sb (s.itable k).inum).addrs NDIRECT ≠ 0 := by
      rw [l.cur t]
      exact hc
    have hr := ref_indirect s.blk ht hc'
    rw [l.cur t] at hr
    have hne : (s.itable k).addrs NDIRECT ≠ b := by
      intro he
      exact own.not_ref_of_free hfree (he ▸ hr)
    have hblk : (s.alloc sb b).blk ((s.itable k).addrs NDIRECT) = s.blk ((s.itable k).addrs NDIRECT) :=
      St.alloc_blk_of_ne hne (w.data_ne_bblock (own.data hr) hb)
    have hdisk : ∀ i < sb.ninodes,
        (s.allocEntry sb ((s.itable k).addrs NDIRECT) j b).disk sb i = s.disk sb i := fun i hi =>
      (disk_setBlk_of_ne (w.data_ne_iblock (own.data hr) hi).symm).trans (disk_alloc w hdata hi)
    have hcur : (s.allocEntry sb ((s.itable k).addrs NDIRECT) j b).cur sb = s.cur sb :=
      cur_congr rfl hdisk
    have h0' : Bytes.getU32 ((s.alloc sb b).blk ((s.cur sb (s.itable k).inum).addrs NDIRECT)) j = 0 := by
      rw [l.cur t, hblk]
      exact h0
    have hblk' : (s.allocEntry sb ((s.itable k).addrs NDIRECT) j b).blk =
        update (s.alloc sb b).blk ((s.cur sb (s.itable k).inum).addrs NDIRECT)
          (Bytes.setU32 ((s.alloc sb b).blk ((s.cur sb (s.itable k).inum).addrs NDIRECT)) j b) := by
      rw [l.cur t, hblk]
      rfl
    have href : ∀ {i' σ' a}, Ref (s.allocEntry sb ((s.itable k).addrs NDIRECT) j b).blk
          ((s.allocEntry sb ((s.itable k).addrs NDIRECT) j b).cur sb) i' σ' a ↔
        Ref s.blk (s.cur sb) i' σ' a ∨ (i' = (s.itable k).inum ∧ σ' = .entry j ∧ a = b) := by
      intro i' σ' a
      rw [hcur, hblk']
      exact (own1.ref_setEntry w ht hc' hj h0').trans (or_congr_left (own.ref_alloc w hb hfree))
    refine ⟨.entry j, b, .inl hbn, ⟨t.congr rfl, ?_⟩, l.congr ⟨_, rfl⟩,
      ⟨rfl, rfl, fun _ _ => rfl, ⟨_, rfl⟩, hdisk, fun _ _ => by rw [hcur],
        fun hr' => href.mpr (.inl hr'), fun hi hr' => (href.mp hr').resolve_right fun h => hi h.1⟩,
      href, ?_, [(s.itable k).addrs NDIRECT, b, sb.bblock b], rfl, by simp, fun c hc => ?_,
      fun c hm i bn hr' => ?_⟩
    · rw [hcur, hblk']
      exact own1.attachEntry w ht hc' hj h0'
    · show update _ _ _ b = _
      rw [update_of_ne hne.symm]
      exact St.alloc_blk_self
    · simp only [List.mem_cons, List.not_mem_nil, or_false, not_or] at hc
      show update _ _ _ c = _
      rw [update_of_ne hc.1]
      exact St.alloc_blk_of_ne hc.2.1 hc.2.2
    · simp only [List.mem_cons, List.not_mem_nil, or_false] at hm
      rcases hm with rfl | rfl | rfl
      · exact Slot.of_ne_indirect bn (own.inj hr' hr).2
      · exact own.not_ref_of_free hfree hr'
      · exact w.data_ne_bblock (own.data hr') hb rfl

theorem Grow.spec (h : Grow sb k bn s s') : Inv sb s' ∧ Loaded s' k ∧ Frame sb k s s' := by
  obtain ⟨σ, b, g⟩ := h.grown w inv l
  exact ⟨g.inv, g.loaded, g.frame⟩

theorem Edit.spec (h : Edit sb k s s') : Inv sb s' ∧ Loaded s' k ∧ Frame sb k s s' := by
  obtain ⟨t, own⟩ := inv
  cases h with
  | grow h => exact h.spec w ⟨t, own⟩ l
  | @data bn d h0 =>
    have hr := l.ref_blockAt t h0
    have hdisk : ∀ i < sb.ninodes, (s.setBlk (s.blockAt k bn) d).disk sb i = s.disk sb i :=
      fun i hi => disk_setBlk_of_ne (w.data_ne_iblock (own.data hr) hi).symm
    have hcur : (s.setBlk (s.blockAt k bn) d).cur sb = s.cur sb := cur_congr rfl hdisk
    refine ⟨⟨t.congr rfl, ?_⟩, l.congr ⟨_, rfl⟩, rfl, rfl, fun _ _ => rfl, ⟨_, rfl⟩, hdisk,
      fun _ _ => by rw [hcur], fun hr' => ?_, fun _ hr' => ?_⟩
    · rw [hcur]
      exact own.write w hr d
    · rw [hcur]
      exact (own.ref_write hr).mpr hr'
    · rw [hcur] at hr'
      exact (own.ref_write hr).mp hr'
  | log h0 =>
    exact ⟨⟨t.congr rfl, own⟩, l.congr ⟨_, rfl⟩, rfl, rfl, fun _ _ => rfl, ⟨_, rfl⟩,
      fun _ _ => rfl, fun _ _ => rfl, fun h => h, fun _ h => h⟩

/-- The other blocks of the contents stay. -/
theorem Grow.blockAt_ne (h : Grow sb k bn s s') (hne : bn' ≠ bn) : s'.blockAt k bn' = s.blockAt k bn' := by
  obtain ⟨σ, b, g⟩ := h.grown w inv l
  by_cases h0 : s'.blockAt k bn' = 0
  · by_contra hc
    have h1 : s.blockAt k bn' ≠ 0 := fun h1 => hc (h0.trans h1.symm)
    exact h1 ((g.frame.blockAt inv.table l g.inv.table g.loaded h1).symm.trans h0)
  · have hr := g.loaded.ref_blockAt g.inv.table h0
    rw [g.frame.inum] at hr
    rcases g.ref.mp hr with hr | ⟨-, hσ, -⟩
    · rw [← hr.2.1, l.cur inv.table]
      rfl
    · rcases g.place with hp | hp
      · exact absurd (Slot.of_inj (hσ.trans hp)) hne
      · exact absurd (hσ.trans hp) (Slot.of_ne_indirect bn')

end

/-- A run of allocations. -/
abbrev Grows (sb : Superblock) (k bn : Nat) : St → St → Prop := Relation.ReflTransGen (Grow sb k bn)

/-- A run of steps. -/
abbrev Edits (sb : Superblock) (k : Nat) : St → St → Prop := Relation.ReflTransGen (Edit sb k)

theorem edits_spec (w : sb.Wf) (inv : Inv sb s) (l : Loaded s k) (h : Edits sb k s s') :
    Inv sb s' ∧ Loaded s' k ∧ Frame sb k s s' := by
  induction h with
  | refl => exact ⟨inv, l, Frame.refl⟩
  | tail _ he ih =>
    obtain ⟨inv', l', f⟩ := ih
    obtain ⟨inv'', l'', f'⟩ := he.spec w inv' l'
    exact ⟨inv'', l'', f.trans f'⟩

theorem Grows.edits (h : Grows sb k bn s s') : Edits sb k s s' :=
  h.lift id fun _ _ => Edit.grow

/-- Blocks are only added to the history of the log. -/
theorem Grows.wrote (w : sb.Wf) (inv : Inv sb s) (l : Loaded s k) (h : Grows sb k bn s s') :
    ∃ new, s'.wrote = new ++ s.wrote := by
  induction h with
  | refl => exact ⟨[], rfl⟩
  | tail hg hlast ih =>
    obtain ⟨inv', l', -⟩ := edits_spec w inv l (Grows.edits hg)
    obtain ⟨σ, b, g⟩ := hlast.grown w inv' l'
    obtain ⟨new, hnew⟩ := ih
    obtain ⟨new', hnew', -⟩ := g.log
    exact ⟨new' ++ new, by rw [hnew', hnew, List.append_assoc]⟩

theorem Grows.blockAt_ne (w : sb.Wf) (inv : Inv sb s) (l : Loaded s k)
    (h : Grows sb k bn s s') (hne : bn' ≠ bn) : s'.blockAt k bn' = s.blockAt k bn' := by
  induction h with
  | refl => rfl
  | tail hg hlast ih =>
    obtain ⟨inv', l', -⟩ := edits_spec w inv l (Grows.edits hg)
    rw [hlast.blockAt_ne w inv' l' hne, ih]

end Steps

/-! ## What the steps log -/

section Weight

variable {sb : Superblock} {s₀ s s' : St} {k m c : Nat}

/-- How many blocks a transaction still logs to have a block `a` and to store to it: none if it has
logged it, and two, the block and its bitmap block, if `a` is zero and a block has to be found. -/
def weight (s₀ s : St) (a : Nat) : Nat :=
  if a = 0 then 2 else if a ∈ loggedSince s₀ s then 0 else 1

theorem weight_le (s₀ s : St) (a : Nat) : weight s₀ s a ≤ 2 := by
  unfold weight
  split
  · exact Nat.le_refl _
  · split <;> omega

theorem weight_zero : weight s₀ s 0 = 2 := if_pos rfl

theorem weight_logged {a : Nat} (h0 : a ≠ 0) (h : a ∈ loggedSince s₀ s) : weight s₀ s a = 0 := by
  rw [weight, if_neg h0, if_pos h]

theorem weight_mono (h : ∀ b ∈ loggedSince s₀ s, b ∈ loggedSince s₀ s') {a a' : Nat}
    (ha : a ≠ 0 → a' = a) : weight s₀ s' a' ≤ weight s₀ s a := by
  by_cases h0 : a = 0
  · rw [h0]
    exact weight_le s₀ s' a'
  · rw [ha h0, weight, weight, if_neg h0, if_neg h0]
    split
    · exact Nat.zero_le _
    · rename_i hno
      rw [if_neg fun hm => hno (h _ hm)]

/-- A block that is there is logged for its weight. -/
theorem Credit.log_weight {a : Nat} (cr : Credit s₀ m (weight s₀ s a + c) s) (h0 : a ≠ 0) :
    Credit s₀ m c (s.log a) := by
  refine cr.logged ?_ (Nat.le_add_left _ _)
  by_cases hm : a ∈ loggedSince s₀ s
  · exact .inl hm
  · rw [weight, if_neg h0, if_neg hm]
    exact .inr (by omega)

theorem Credit.loggedSince_alloc (cr : Credit s₀ m c s) (sb : Superblock) (b : Nat) :
    loggedSince s₀ (s.alloc sb b) = b :: sb.bblock b :: loggedSince s₀ s := by
  refine loggedSince_append ?_
  rw [St.alloc_wrote, cr.wrote]
  rfl

/-- The block number at a place of the contents, by the two levels of the map. -/
theorem blockAt_direct {bn : Nat} (h : bn < NDIRECT) : s.blockAt k bn = (s.itable k).addrs bn := by
  simp [St.blockAt, Dinode.blockAt, Slot.of, h, Dinode.addr]

theorem blockAt_entry {bn : Nat} (h : ¬ bn < NDIRECT) (hj : bn - NDIRECT < NINDIRECT) :
    s.blockAt k bn = if (s.itable k).addrs NDIRECT = 0 then 0
      else Bytes.getU32 (s.blk ((s.itable k).addrs NDIRECT)) (bn - NDIRECT) := by
  simp [St.blockAt, Dinode.blockAt, Slot.of, h, Dinode.addr, Nat.not_le_of_lt hj]

theorem addrs_allocAddr {i b : Nat} : ((s.allocAddr sb k i b).itable k).addrs = update (s.itable k).addrs i b := by
  simp [St.allocAddr, Inode.setAddr]

theorem blockAt_allocEntry {bn b : Nat} (w : sb.Wf) (h : ¬ bn < NDIRECT) (hj : bn - NDIRECT < NINDIRECT)
    (hc : (s.itable k).addrs NDIRECT ≠ 0) (hb : b < sb.size) :
    (s.allocEntry sb ((s.itable k).addrs NDIRECT) (bn - NDIRECT) b).blockAt k bn = b := by
  rw [blockAt_entry h hj, if_neg (by exact hc)]
  simp only [St.allocEntry, St.log_blk, St.setBlk_blk, St.log_itable, St.setBlk_itable, St.alloc_itable]
  rw [update_self, Bytes.getU32_setU32_same _ _ _ (Nat.lt_trans hb w.size_lt)]

/-- A fresh block costs its weight. -/
theorem Grow.credit (w : sb.Wf) (inv : Inv sb s) (l : Loaded s k) {bn : Nat} (h : Grow sb k bn s s')
    (cr : Credit s₀ m (weight s₀ s (s.blockAt k bn) + weight s₀ s ((s.itable k).addrs NDIRECT) + c) s) :
    Credit s₀ m
      (weight s₀ s' (s'.blockAt k bn) + weight s₀ s' ((s'.itable k).addrs NDIRECT) + c) s' := by
  obtain ⟨inv', l', f⟩ := h.spec w inv l
  have hat : s.blockAt k bn ≠ 0 → s'.blockAt k bn = s.blockAt k bn := fun h0 =>
    f.blockAt inv.table l inv'.table l' h0
  cases h with
  | @addr i b hi hbn h0 hb hfree =>
    have hlog : loggedSince s₀ (s.allocAddr sb k i b) = b :: sb.bblock b :: loggedSince s₀ s :=
      cr.loggedSince_alloc sb b
    have hmem : ∀ a ∈ loggedSince s₀ s, a ∈ loggedSince s₀ (s.allocAddr sb k i b) := fun a ha => by
      rw [hlog]
      exact List.mem_cons_of_mem _ (List.mem_cons_of_mem _ ha)
    have hfresh : weight s₀ (s.allocAddr sb k i b) b = 0 :=
      weight_logged (w.data_ne_zero (inv.own.data_of_free hb hfree)) (by rw [hlog]; exact List.mem_cons_self)
    have hpay : ∀ c', Credit s₀ m (c' + 2) s → Credit s₀ m c' (s.allocAddr sb k i b) := fun c' h =>
      (h.alloc sb b).congr rfl rfl
    rcases hbn with hbn | hbn
    · -- a direct block
      obtain ⟨hlt, rfl⟩ := Slot.ofAddr_eq_of hbn
      have hw := weight_mono hmem (a := (s.itable k).addrs NDIRECT) fun _ => rfl
      rw [blockAt_direct hlt, h0, weight_zero] at cr
      rw [blockAt_direct hlt, addrs_allocAddr, update_self, update_of_ne (Nat.ne_of_gt hlt), hfresh]
      exact hpay _ (cr.mono (by omega))
    · -- the indirect block
      obtain rfl := Slot.ofAddr_eq_indirect hi hbn
      have hw := weight_mono hmem hat
      rw [h0, weight_zero] at cr
      rw [addrs_allocAddr, update_self, hfresh]
      exact hpay _ (cr.mono (by omega))
  | @entry j b hc hj hbn h0 hb hfree =>
    obtain ⟨hnot, rfl⟩ := Slot.entry_eq_of hbn
    rw [blockAt_entry hnot hj, h0, ite_self, weight_zero] at cr
    have cr₁ : Credit s₀ m (weight s₀ (s.alloc sb b) ((s.itable k).addrs NDIRECT) + c) (s.alloc sb b) := by
      have hw : weight s₀ (s.alloc sb b) ((s.itable k).addrs NDIRECT) ≤
          weight s₀ s ((s.itable k).addrs NDIRECT) := by
        refine weight_mono (fun a ha => ?_) fun _ => rfl
        rw [cr.loggedSince_alloc]
        exact List.mem_cons_of_mem _ (List.mem_cons_of_mem _ ha)
      exact (cr.mono (by omega)).alloc sb b
    have cr₂ : Credit s₀ m c (s.allocEntry sb ((s.itable k).addrs NDIRECT) (bn - NDIRECT) b) :=
      Credit.log_weight (cr₁.setBlk _ _) hc
    have hlog : loggedSince s₀ (s.allocEntry sb ((s.itable k).addrs NDIRECT) (bn - NDIRECT) b) =
        (s.itable k).addrs NDIRECT :: b :: sb.bblock b :: loggedSince s₀ s := by
      refine loggedSince_append ?_
      show (s.itable k).addrs NDIRECT :: b :: sb.bblock b :: s.wrote = _
      rw [cr.wrote]
      rfl
    have hi : ((s.allocEntry sb ((s.itable k).addrs NDIRECT) (bn - NDIRECT) b).itable k).addrs NDIRECT =
        (s.itable k).addrs NDIRECT := rfl
    rw [blockAt_allocEntry w hnot hj hc hb, hi, weight_logged hc (by rw [hlog]; simp),
      weight_logged (w.data_ne_zero (inv.own.data_of_free hb hfree)) (by rw [hlog]; simp)]
    exact cr₂.mono (by omega)

theorem Grows.credit (w : sb.Wf) (inv : Inv sb s) (l : Loaded s k) {bn : Nat} (h : Grows sb k bn s s')
    (cr : Credit s₀ m (weight s₀ s (s.blockAt k bn) + weight s₀ s ((s.itable k).addrs NDIRECT) + c) s) :
    Credit s₀ m
      (weight s₀ s' (s'.blockAt k bn) + weight s₀ s' ((s'.itable k).addrs NDIRECT) + c) s' := by
  induction h with
  | refl => exact cr
  | tail hg hlast ih =>
    obtain ⟨inv', l', -⟩ := edits_spec w inv l (Grows.edits hg)
    exact hlast.credit w inv' l' ih

end Weight

/-! ## `bmap` -/

section Bmap

variable {sb : Superblock} {E : Panic → Prop} {s₀ s : St} {k m : Nat}

/-- `addrs[i]` of the inode, which may be fresh. -/
theorem bmapAddr_spec {i : Nat} (w : sb.Wf) (inv : Inv sb s) (hheld : HeldOk sb s) (hout : 1 ≤ s.outstanding)
    (cr : (s.itable k).addrs i = 0 → Credit s₀ m 2 s)
    (hE : LOGBLOCKS ≤ s₀.lh.length + m → E .tooBigTransaction) :
    wp E (bmapAddr sb k i) s fun a s' =>
      ((s.itable k).addrs i ≠ 0 ∧ a = (s.itable k).addrs i ∧ s' = s) ∨
      ((s.itable k).addrs i = 0 ∧ ((a = 0 ∧ s' = s ∧ NoFree sb s) ∨
        (a ≠ 0 ∧ a < sb.size ∧ bitAt sb s.blk a = false ∧ s' = s.allocAddr sb k i a))) := by
  refine wp_bind.mpr (wp_getInode.mpr (wp_ite.mpr ⟨fun h0 => ?_, fun h0 => .inl ⟨h0, rfl, rfl⟩⟩))
  refine wp.bind (balloc_spec w inv.own hheld hout (cr h0) hE) ?_
  rintro b s' (⟨rfl, rfl, hno⟩ | ⟨hb0, hb, hfree, rfl⟩)
  · exact .inr ⟨h0, .inl ⟨rfl, rfl, hno⟩⟩
  · rw [if_neg hb0]
    exact .inr ⟨h0, .inr ⟨hb0, hb, hfree, rfl⟩⟩

/-- Entry `j` of an indirect block, which may be fresh. -/
theorem bmapEntry_spec (w : sb.Wf) (inv : Inv sb s) (hheld : s.held = []) (hout : 1 ≤ s.outstanding) {c j : Nat}
    (cr : Bytes.getU32 (s.blk c) j = 0 → Credit s₀ m 2 s)
    (hE : LOGBLOCKS ≤ s₀.lh.length + m → E .tooBigTransaction) (hc : sb.Data c) (hbit : bitAt sb s.blk c = true) :
    wp E (bmapEntry sb c j) s fun a s' =>
      (Bytes.getU32 (s.blk c) j ≠ 0 ∧ a = Bytes.getU32 (s.blk c) j ∧ s' = s) ∨
      (Bytes.getU32 (s.blk c) j = 0 ∧ ((a = 0 ∧ s' = s ∧ NoFree sb s) ∨
        (a ≠ 0 ∧ a < sb.size ∧ bitAt sb s.blk a = false ∧ s' = s.allocEntry sb c j a))) := by
  have hno : c ∉ s.held := by
    rw [hheld]
    exact List.not_mem_nil
  have hheld' : HeldOk sb (s.hold c) := by
    intro c' hm
    rw [St.hold_held, hheld, List.mem_singleton] at hm
    rw [hm]
    exact ⟨hc, hbit⟩
  have own' : Own sb (s.hold c).blk ((s.hold c).cur sb) [] := inv.own
  refine wp_bind.mpr (wp_bread hno (wp_ite.mpr ⟨fun h0 => ?_, fun h0 => ?_⟩))
  · have crh : Credit s₀ m 2 (s.hold c) := (cr h0).congr rfl rfl
    refine wp.bind (balloc_spec w own' hheld' hout crh hE) ?_
    rintro b s' (⟨rfl, rfl, hnone⟩ | ⟨hb0, hb, hfree, rfl⟩)
    · rw [if_pos rfl]
      refine wp_bind.mpr (wp_brelse.mpr ?_)
      rw [St.unhold_hold]
      exact .inr ⟨h0, .inl ⟨rfl, rfl, hnone⟩⟩
    · rw [if_neg hb0]
      have cr₁ := Credit.alloc (c := 0) crh sb b
      refine wp_bind.mpr (wp_setData.mpr (wp_bind.mpr (wp_logWrite (fun h => hE (cr₁.full h)) hout ?_)))
      refine wp_bind.mpr (wp_brelse.mpr (.inr ⟨h0, .inr ⟨hb0, hb, hfree, ?_⟩⟩))
      exact (s.alloc sb b).unhold_log_setBlk_hold _ _
  · refine wp_bind.mpr (wp_brelse.mpr ?_)
    rw [St.unhold_hold]
    exact .inl ⟨h0, rfl, rfl⟩

theorem heldOk_nil (h : s.held = []) : HeldOk sb s := by
  intro c hc
  rw [h] at hc
  cases hc

/-- The second level of `bmap`, in a state where the indirect block is there. -/
theorem bmapEntry_blockAt (bn : Nat) (w : sb.Wf) (inv : Inv sb s) (l : Loaded s k) (hheld : s.held = [])
    (hout : 1 ≤ s.outstanding) (cr : Credit s₀ m (weight s₀ s (s.blockAt k bn)) s)
    (hE : LOGBLOCKS ≤ s₀.lh.length + m → E .tooBigTransaction) (h : ¬ bn < NDIRECT) (hj : bn - NDIRECT < NINDIRECT)
    (hc : (s.itable k).addrs NDIRECT ≠ 0) :
    wp E (bmapEntry sb ((s.itable k).addrs NDIRECT) (bn - NDIRECT)) s fun a s' =>
      a = s'.blockAt k bn ∧ Grows sb k bn s s' ∧ (s.blockAt k bn ≠ 0 → s' = s) ∧ (a = 0 → NoFree sb s') := by
  have hr : Ref s.blk (s.cur sb) (s.itable k).inum .indirect ((s.itable k).addrs NDIRECT) := l.ref inv.table hc
  have hat : s.blockAt k bn = Bytes.getU32 (s.blk ((s.itable k).addrs NDIRECT)) (bn - NDIRECT) := by
    rw [blockAt_entry h hj, if_neg hc]
  rw [hat] at cr ⊢
  refine (bmapEntry_spec w inv hheld hout (fun h0 => cr.mono ?_) hE (inv.own.data hr) (inv.own.bit_of_ref hr)).mono ?_
  · rw [h0, weight_zero]
  rintro a s' (⟨h0, rfl, rfl⟩ | ⟨h0, ⟨rfl, rfl, hno⟩ | ⟨ha, hb, hfree, rfl⟩⟩)
  · exact ⟨hat.symm, .refl, fun _ => rfl, fun h' => absurd h' h0⟩
  · exact ⟨(hat.trans h0).symm, .refl, fun _ => rfl, fun _ => hno⟩
  · refine ⟨?_, .single (.entry hc hj (by rw [Slot.of, if_neg h]) h0 hb hfree), fun h' => absurd h0 h',
      fun h' => absurd h' ha⟩
    exact (blockAt_allocEntry w h hj hc hb).symm

/-- `bmap` returns the block of the contents, or zero when there is none and no block is free. A
block that is there already is returned without a change. -/
theorem bmap_spec {bn : Nat} (w : sb.Wf) (inv : Inv sb s) (l : Loaded s k) (hheld : s.held = [])
    (hout : 1 ≤ s.outstanding)
    (cr : Credit s₀ m (weight s₀ s (s.blockAt k bn) + weight s₀ s ((s.itable k).addrs NDIRECT)) s)
    (hE : LOGBLOCKS ≤ s₀.lh.length + m → E .tooBigTransaction) (hbn : bn < MAXFILE) :
    wp E (bmap sb k bn) s fun a s' =>
      a = s'.blockAt k bn ∧ Grows sb k bn s s' ∧ (s.blockAt k bn ≠ 0 → s' = s) ∧
      (a = 0 → NoFree sb s') := by
  unfold bmap
  refine wp_ite.mpr ⟨fun h => ?_, fun h => wp_ite.mpr ⟨fun hj => ?_, fun hj => ?_⟩⟩
  · have hat := blockAt_direct (s := s) (k := k) h
    rw [hat] at cr ⊢
    refine (bmapAddr_spec w inv (heldOk_nil hheld) hout (fun h0 => cr.mono ?_) hE).mono ?_
    · rw [h0, weight_zero]
      exact Nat.le_add_right _ _
    rintro a s' (⟨h0, rfl, rfl⟩ | ⟨h0, ⟨rfl, rfl, hno⟩ | ⟨ha, hb, hfree, rfl⟩⟩)
    · exact ⟨hat.symm, .refl, fun _ => rfl, fun h' => absurd h' h0⟩
    · exact ⟨(hat.trans h0).symm, .refl, fun _ => rfl, fun _ => hno⟩
    · have hbn : Slot.ofAddr bn = .of bn := by rw [Slot.ofAddr, Slot.of, if_pos h, if_pos h]
      refine ⟨?_, .single (.addr (Nat.le_of_lt h) (.inl hbn) h0 hb hfree), fun h' => absurd h0 h',
        fun h' => absurd h' ha⟩
      rw [blockAt_direct h, addrs_allocAddr, update_self]
  · refine wp.bind (bmapAddr_spec w inv (heldOk_nil hheld) hout (fun h0 => cr.mono ?_) hE) ?_
    · rw [h0, weight_zero]
      exact Nat.le_add_left _ _
    rintro c s₁ (⟨h0, rfl, rfl⟩ | ⟨h0, ⟨rfl, rfl, hno⟩ | ⟨hc, hb, hfree, rfl⟩⟩)
    · rw [if_neg h0]
      exact bmapEntry_blockAt bn w inv l hheld hout (cr.mono (Nat.le_add_right _ _)) hE h hj h0
    · have hat : s₁.blockAt k bn = 0 := by rw [blockAt_entry h hj, if_pos h0]
      exact ⟨hat.symm, .refl, fun _ => rfl, fun _ => hno⟩
    · -- a fresh indirect block
      have hat : s.blockAt k bn = 0 := by rw [blockAt_entry h hj, if_pos h0]
      have hg : Grow sb k bn s (s.allocAddr sb k NDIRECT c) := .addr (Nat.le_refl NDIRECT) (.inr rfl) h0 hb hfree
      obtain ⟨inv₁, l₁, f⟩ := hg.spec w inv l
      have hind : ((s.allocAddr sb k NDIRECT c).itable k).addrs NDIRECT = c := by
        rw [addrs_allocAddr, update_self]
      have hentry := bmapEntry_blockAt bn w inv₁ l₁ (f.held.trans hheld) (f.outstanding ▸ hout)
        ((hg.credit (c := 0) w inv l cr).mono (Nat.le_add_right _ _)) hE h hj (by rw [hind]; exact hc)
      rw [hind] at hentry
      rw [if_neg hc]
      refine hentry.mono ?_
      rintro a s₂ ⟨ha, hg₂, -, hfull⟩
      exact ⟨ha, .head hg hg₂, fun hne => absurd hat hne, hfull⟩
  · unfold MAXFILE at hbn
    omega

/-- A block that is there is found without a transaction. -/
theorem bmap_present (hheld : s.held = []) {bn : Nat} (h0 : s.blockAt k bn ≠ 0) :
    wp E (bmap sb k bn) s fun a s' => a = s.blockAt k bn ∧ s' = s := by
  have addr : ∀ i, (s.itable k).addrs i ≠ 0 →
      wp E (bmapAddr sb k i) s fun a s' => a = (s.itable k).addrs i ∧ s' = s := fun i hi =>
    wp_bind.mpr (wp_getInode.mpr (wp_ite.mpr ⟨fun h => absurd h hi, fun _ => ⟨rfl, rfl⟩⟩))
  unfold bmap
  refine wp_ite.mpr ⟨fun h => ?_, fun h => wp_ite.mpr ⟨fun hj => ?_, fun hj => ?_⟩⟩
  · rw [blockAt_direct h] at h0 ⊢
    exact addr bn h0
  · rw [blockAt_entry h hj] at h0 ⊢
    have hc : (s.itable k).addrs NDIRECT ≠ 0 := fun hc => h0 (if_pos hc)
    rw [if_neg hc] at h0 ⊢
    refine wp.bind (addr NDIRECT hc) ?_
    rintro a s' ⟨rfl, rfl⟩
    rw [if_neg hc]
    refine wp_bind.mpr (wp_bread (by rw [hheld]; exact List.not_mem_nil) ?_)
    rw [if_neg h0]
    refine wp_bind.mpr (wp_brelse.mpr ?_)
    rw [St.unhold_hold]
    exact ⟨rfl, rfl⟩
  · refine absurd ?_ h0
    simp [St.blockAt, Dinode.blockAt, Slot.of, h, Dinode.addr, Nat.le_of_not_lt hj]

end Bmap

/-! ## A small disk -/

/-- A disk of eight blocks: boot block, superblock, one block of inodes, the bitmap and four blocks
of data. -/
def smallSb : Superblock where
  size := 8
  nblocks := 4
  ninodes := 16
  inodestart := 2
  bmapstart := 3

/-- A file of two bytes in block 4, with `n` links. -/
def smallFile (n : Nat) : Dinode where
  type := T_FILE
  nlink := n
  size := 2
  addrs := fun i => if i = 0 then 4 else 0

/-- The blocks of a disk that holds this file as inode 1. -/
def smallBlk (n : Nat) : Nat → Block := fun b =>
  if b = 2 then Dinode.store (fun _ => 0) 1 (smallFile n)
  else if b = 3 then fun i => if i = 0 then 31 else 0
  else fun _ => 0

/-- The inodes of this disk. -/
def smallInodes (n : Nat) : Nat → Dinode := fun i => if i = 1 then smallFile n else {}

theorem smallSb_wf : smallSb.Wf := by
  constructor <;> decide

theorem smallFile_wf {n : Nat} (hn : n < 2 ^ 16) : (smallFile n).Wf := by
  refine ⟨show 2 < 2 ^ 16 by decide, Nat.two_pow_pos 16, Nat.two_pow_pos 16, hn,
    show 2 < U32 by decide, fun i => ?_, fun i hi => ?_⟩
  · show (if i = 0 then 4 else 0) < U32
    split <;> decide
  · have : i ≠ 0 := by omega
    exact if_neg this

theorem smallBlk_load {n i : Nat} (hn : n < 2 ^ 16) (hi : i < 16) :
    Dinode.load (smallBlk n (smallSb.iblock i)) (i % IPB) = smallInodes n i := by
  have hb : smallSb.iblock i = 2 := by
    have : i / IPB = 0 := Nat.div_eq_of_lt hi
    simp [Superblock.iblock, this, smallSb]
  have hm : i % IPB = i := Nat.mod_eq_of_lt hi
  rw [hb, hm, smallBlk, if_pos rfl, smallInodes]
  split
  · rename_i h
    rw [h, Dinode.load_store_same _ _ (smallFile_wf hn)]
  · rename_i h
    rw [Dinode.load_store_ne _ _ h, Dinode.load_zero]

theorem smallFile_addr (n : Nat) (σ : Slot) : (smallFile n).addr (smallBlk n) σ = if σ = .direct 0 then 4 else 0 := by
  cases σ with
  | direct k =>
    by_cases hk : k = 0
    · subst hk
      rfl
    · simp [Dinode.addr, smallFile, hk]
  | indirect => rfl
  | entry j => rfl

theorem smallInodes_ref {n i a : Nat} {σ : Slot} :
    Ref (smallBlk n) (smallInodes n) i σ a ↔ i = 1 ∧ σ = .direct 0 ∧ a = 4 := by
  simp only [Ref, smallInodes]
  by_cases hi : i = 1
  · subst hi
    rw [if_pos rfl, smallFile_addr]
    have ht : (smallFile n).type ≠ 0 := show 2 ≠ 0 by decide
    by_cases hσ : σ = .direct 0
    · rw [if_pos hσ]
      simp only [ht, hσ, ne_eq, not_false_eq_true, true_and]
      constructor
      · rintro ⟨rfl, -⟩
        rfl
      · rintro rfl
        exact ⟨rfl, by decide⟩
    · rw [if_neg hσ]
      simp only [hσ, false_and, and_false, iff_false]
      rintro ⟨-, rfl, h⟩
      exact h rfl
  · simp [hi]

theorem smallInodes_own (n : Nat) : Own smallSb (smallBlk n) (smallInodes n) [] := by
  refine ⟨fun hr => ?_, fun hr hr' => ?_, nofun, nofun, List.nodup_nil, fun b hb => ?_⟩
  · obtain ⟨-, -, rfl⟩ := smallInodes_ref.mp hr
    constructor <;> decide
  · obtain ⟨rfl, rfl, -⟩ := smallInodes_ref.mp hr
    obtain ⟨rfl, rfl, -⟩ := smallInodes_ref.mp hr'
    exact ⟨rfl, rfl⟩
  · have href : (∃ i σ, Ref (smallBlk n) (smallInodes n) i σ b) ↔ b = 4 := by
      simp only [smallInodes_ref]
      constructor
      · rintro ⟨_, _, -, -, h⟩
        exact h
      · rintro rfl
        exact ⟨1, .direct 0, rfl, rfl, rfl⟩
    have hmap : bitAt smallSb (smallBlk n) b = Bytes.bit (fun i => if i = 0 then 31 else 0) b := by
      have hb : b < 8 := hb
      have h1 : smallSb.bblock b = 3 := by
        have : b / BPB = 0 := Nat.div_eq_of_lt (Nat.lt_trans hb (by decide))
        simp [Superblock.bblock, this, smallSb]
      rw [bitAt, h1, Nat.mod_eq_of_lt (Nat.lt_trans hb (by decide))]
      rfl
    rw [href, hmap]
    have hb : b < 8 := hb
    interval_cases b <;> decide

end Xv6.Fs
