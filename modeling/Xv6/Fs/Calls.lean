import Xv6.Fs.Name

/-!
# What system calls do to the name space

Each call is specified by the nodes before and after it: it fails and leaves all nodes as they were,
or it does what its name says (`Links`, `Unlinks`, `Creates`). The pointers `L` to inodes are those
of all processes and open files; `dropRef` is what the end of one more pointer does.
-/

namespace Xv6.Fs

open Seq Seq.M
open Function (update update_eq_self update_idem update_of_ne update_self)

/-! ## Pointers -/

/-- The inodes to which the entries in `L` point. -/
def St.inums (s : St) (L : List Nat) : List Nat := L.map fun k => (s.itable k).inum

/-- A pointer to inode `i` is dropped, the others are to the inodes `I`. -/
def dropRef (I : List Nat) (N : Nat → Option Node) (i : Nat) : Nat → Option Node :=
  if i ∉ I ∧ (N i).any (·.nlink = 0) then update N i none else N

/-- The panics that the calls may run into: the log or the inode table is full, an entry of a
directory names a free inode or, in a damaged tree, the directory itself. -/
structure MayStop (E : Panic → Prop) : Prop where
  tooBig : E .tooBigTransaction
  noInodes : E .igetNoInodes
  noType : E .ilockNoType
  deadlock : E .selfDeadlock

section Pointers

variable {sb : Superblock} {E : Panic → Prop} {s s' : St} {L : List Nat} {k : Nat}

theorem Keeps.inums (h : Keeps L s s') : s'.inums L = s.inums L :=
  List.map_congr_left fun j hj => h.inum j hj

theorem FsOk.mem_inums (h : FsOk sb (k :: L) s) : (s.itable k).inum ∈ s.inums L ↔ k ∈ L := by
  constructor
  · intro hi
    obtain ⟨j, hj, hji⟩ := List.mem_map.mp hi
    have : j = k := h.eq_of_inum (List.mem_cons_of_mem _ hj) List.mem_cons_self hji
    exact this ▸ hj
  · exact fun hk => List.mem_map.mpr ⟨k, hk, rfl⟩

theorem FsOk.lastRef_iff (h : FsOk sb (k :: L) s) : s.LastRef sb L k ↔
    (s.itable k).inum ∉ s.inums L ∧ (s.node sb (s.itable k).inum).any (·.nlink = 0) = true := by
  rw [h.mem_inums, St.LastRef]
  refine and_congr_right fun _ => ?_
  cases hnd : s.node sb (s.itable k).inum with
  | none => simp
  | some nd => simp

/-- A pointer that is dropped. -/
theorem iput_drop (w : sb.Wf) (m : MayStop E) (h : FsOk sb (k :: L) s) (hout : 1 ≤ s.outstanding)
    (hv : (s.itable k).valid = true) :
    wp E (iput sb k) s fun _ s' => FsOk sb L s' ∧ Keeps L s s' ∧ s'.locks = s.locks ∧
      s'.node sb = dropRef (s.inums L) (s.node sb) (s.itable k).inum := by
  refine (iput_ok w h (fun _ => hout) (fun _ => m.tooBig) (fun _ _ => m.deadlock) fun _ => hv).mono ?_
  rintro _ s' ⟨h', hk, hlk, hlast, hquiet⟩
  refine ⟨h', hk, hlk, ?_⟩
  unfold dropRef
  split
  · rename_i hc
    exact hlast (h.lastRef_iff.mpr hc)
  · rename_i hc
    exact (hquiet fun hl => hc (h.lastRef_iff.mp hl)).node

theorem iunlockput_drop (w : sb.Wf) (m : MayStop E) (h : FsOk sb (k :: L) s) (hout : 1 ≤ s.outstanding)
    (hl : s.locks k = true) (hv : (s.itable k).valid = true) :
    wp E (iunlockput sb k) s fun _ s' => FsOk sb L s' ∧ Keeps L s s' ∧
      s'.locks = update s.locks k false ∧
      s'.node sb = dropRef (s.inums L) (s.node sb) (s.itable k).inum := by
  have hno : s.locks k = false → E .iunlock := fun h0 => by
    rw [hl] at h0
    cases h0
  refine wp.bind (iunlock_ok h List.mem_cons_self hno) ?_
  rintro _ s₁ ⟨h₁, q₁, hl₁⟩
  have hout₁ := q₁.out hout
  refine (iput_drop w m h₁ hout₁ (q₁.valid k List.mem_cons_self hv)).mono ?_
  rintro _ s' ⟨h', hk, hl', hnode⟩
  refine ⟨h', q₁.toKeeps.tail.trans hk, hl'.trans hl₁, ?_⟩
  rw [hnode, q₁.toKeeps.tail.inums, q₁.node, q₁.inum k List.mem_cons_self]

theorem dropRef_of_ne {N : Nat → Option Node} {I : List Nat} {i j : Nat} (h : j ≠ i) : dropRef I N i j = N j := by
  unfold dropRef
  split
  · exact update_of_ne h _ _
  · rfl

/-- Nothing is freed if all inodes without links have other pointers. -/
theorem dropRef_of_held {N : Nat → Option Node} {I : List Nat} {i : Nat}
    (h : ∀ nd, N i = some nd → nd.nlink = 0 → i ∈ I) : dropRef I N i = N := by
  refine if_neg ?_
  rintro ⟨hi, h0⟩
  rw [Option.any_eq_true] at h0
  obtain ⟨nd, hnd, h0⟩ := h0
  exact hi (h nd hnd (by simpa using h0))

theorem Held.mem_inums (ho : Held sb L s) {i : Nat} {nd : Node} (hnd : s.node sb i = some nd)
    (h0 : nd.nlink = 0) : i ∈ s.inums L := by
  obtain ⟨j, hj, hji⟩ := ho i nd hnd h0
  exact List.mem_map.mpr ⟨j, hj, hji⟩

/-- Changes that lower no link count to zero. -/
theorem Held.change (ho : Held sb L s) (hk : Keeps L s s')
    (h : ∀ i nd, s'.node sb i = some nd → nd.nlink = 0 → ∃ nd₀, s.node sb i = some nd₀ ∧ nd₀.nlink = 0) :
    Held sb L s' := by
  intro i nd hnd h0
  obtain ⟨nd₀, hnd₀, h0₀⟩ := h i nd hnd h0
  obtain ⟨j, hj, hji⟩ := ho i nd₀ hnd₀ h0₀
  exact ⟨j, hj, (hk.inum j hj).trans hji⟩

theorem Held.congr (ho : Held sb L s) (hk : Keeps L s s') (hn : s'.node sb = s.node sb) : Held sb L s' :=
  ho.change hk fun i nd hnd h0 => ⟨nd, by rw [← hn]; exact hnd, h0⟩

/-- `iupdate` after a store to the link count. -/
theorem setNlink_ok (w : sb.Wf) (m : MayStop E) (h : FsOk sb L s) (hk : k ∈ L) (lo : Loaded s k)
    (hout : 1 ≤ s.outstanding) {nd : Node} (hnd : s.node sb (s.itable k).inum = some nd) {n : Nat}
    (hn : n < 2 ^ 16) : wp E (iupdate sb k) (s.setInode k { s.itable k with nlink := n }) fun _ s' =>
      FsOk sb L s' ∧ Keeps L s s' ∧ Loaded s' k ∧ s'.locks = s.locks ∧
      s'.node sb = update (s.node sb) (s.itable k).inum (some { nd with nlink := n }) := by
  have f := lo.fields h hnd
  have hwf := h.good.inv.table.wf lo.live lo.valid
  refine (iupdate_ok w h hk lo hout m.tooBig hnd hwf.major_lt hwf.minor_lt hn rfl).mono ?_
  rintro _ s' ⟨h', hkeep, lo', hlk, hnode, -⟩
  refine ⟨h', hkeep, lo', hlk, ?_⟩
  rw [hnode, f.major, f.minor]

/-- `ilock` of an inode that the process has locked. -/
theorem ilock_deadlock (hl : s.Live k) (hlk : s.locks k = true) (hE : E .selfDeadlock)
    {Q : Unit → St → Prop} : wp E (ilock sb k) s Q := by
  refine wp_bind.mpr (wp_getInode.mpr (wp_ite.mpr ⟨fun h0 => ?_, fun _ => wp_ite.mpr ⟨fun _ => hE, fun hno => ?_⟩⟩))
  · have := hl.2
    omega
  · exact absurd hlk hno

end Pointers

/-! ## Calls -/

/-- The state between two system calls, with the pointers `L` of all processes and open files. -/
structure SysOk (sb : Superblock) (L : List Nat) (s : St) : Prop where
  ok : FsOk sb L s
  dirs : DirsOk sb (s.node sb)
  live : ∀ k ∈ L, s.node sb (s.itable k).inum ≠ none
  unlocked : ∀ k, s.locks k = false
  root : s.node sb ROOTINO ≠ none

/-- A call is over: `s` is a state inside its transaction. -/
structure Ended (sb : Superblock) (L : List Nat) (s s' : St) : Prop where
  ok : FsOk sb L s'
  inum : ∀ j ∈ L, (s'.itable j).inum = (s.itable j).inum
  valid : ∀ j ∈ L, (s.itable j).valid = true → (s'.itable j).valid = true
  out : s'.outstanding + 1 = s.outstanding
  unlocked : ∀ k, s'.locks k = false

/-- A whole call. -/
structure Called (sb : Superblock) (L : List Nat) (s s' : St) : Prop extends Keeps L s s' where
  ok : FsOk sb L s'
  unlocked : ∀ k, s'.locks k = false

section Calls

variable {sb : Superblock} {E : Panic → Prop} {s s₁ s' : St} {L : List Nat} {k : Nat}

variable {cwd ip i j dp : Nat} {nd dnd : Node} {N : Nat → Option Node}

theorem SysOk.canWalk (o : SysOk sb L s) (m : MayStop E) (hcwd : cwd ∈ L) : CanWalk sb E L s cwd :=
  ⟨o.ok, o.dirs, fun _ => m.noInodes, o.unlocked, o.root, hcwd, o.live cwd hcwd⟩

theorem endOp_ended (h : FsOk sb L s₁) (hk : Keeps L s s₁) (hout : 1 ≤ s.outstanding) (hl : ∀ k, s₁.locks k = false) :
    wp E endOp s₁ fun _ s' => Ended sb L s s' ∧ s'.node sb = s₁.node sb := by
  refine (endOp_spec h.good).mono ?_
  rintro _ s' ⟨l, hout', -⟩
  refine ⟨⟨h.logOnly l, fun j hj => ?_, fun j hj hv => ?_, ?_, fun k => ?_⟩, l.node⟩
  · rw [l.itable]
    exact hk.inum j hj
  · rw [l.itable]
    exact hk.valid j hj hv
  · rw [hout', hk.outstanding]
    omega
  · rw [l.locks]
    exact hl k

theorem Ended.of_keeps {s₀ : St} (e : Ended sb L s s') (hk : Keeps L s₀ s) : Ended sb L s₀ s' :=
  ⟨e.ok, fun j hj => (e.inum j hj).trans (hk.inum j hj), fun j hj hv => e.valid j hj (hk.valid j hj hv),
    e.out.trans hk.outstanding, e.unlocked⟩

theorem SysOk.logOnly (o : SysOk sb L s) (l : LogOnly sb s s₁) : SysOk sb L s₁ := by
  refine ⟨o.ok.logOnly l, ?_, fun k hk => ?_, fun k => ?_, ?_⟩
  · rw [l.node]
    exact o.dirs
  · rw [l.node, l.itable]
    exact o.live k hk
  · rw [l.locks]
    exact o.unlocked k
  · rw [l.node]
    exact o.root

theorem LogOnly.inums (l : LogOnly sb s s₁) (L : List Nat) : s₁.inums L = s.inums L := by
  unfold St.inums
  rw [l.itable]

theorem LogOnly.startOf (l : LogOnly sb s s₁) (cwd : Nat) (path : List UInt8) :
    s₁.startOf cwd path = s.startOf cwd path := by
  unfold St.startOf
  rw [l.itable]

/-- After `begin_op`, it is enough to look at the part inside the transaction. -/
theorem wp_transaction {α : Type} (o : SysOk sb L s) {f : FM α} {R : α → (Nat → Option Node) → Prop}
    (h : ∀ s₁, SysOk sb L s₁ → 1 ≤ s₁.outstanding → LogOnly sb s s₁ →
      wp E f s₁ fun r s' => Ended sb L s₁ s' ∧ R r (s'.node sb)) :
    wp E (beginOp >>= fun _ => f) s fun r s' => Called sb L s s' ∧ R r (s'.node sb) := by
  refine wp.bind (beginOp_spec o.ok.good) ?_
  rintro _ s₁ ⟨l, hout, -⟩
  refine (h s₁ (o.logOnly l) (by omega) l).mono ?_
  rintro r s' ⟨e, hr⟩
  refine ⟨⟨⟨fun j hj => ?_, fun j hj hv => ?_, ?_⟩, e.ok, e.unlocked⟩, hr⟩
  · rw [e.inum j hj, l.itable]
  · exact e.valid j hj (by rw [l.itable]; exact hv)
  · have := e.out
    omega

/-- A kernel on a disk, with a process in its root directory. -/
theorem Image.Ok.sysOk {m : Image} (h : m.Ok) (dirs : DirsOk m.sb (m.st.node m.sb))
    (hroot : m.st.node m.sb ROOTINO ≠ none) : ∃ cwd s, iget ROOTINO m.st = .ok (cwd, s) ∧
      SysOk m.sb [cwd] s ∧ s.node m.sb = m.st.node m.sb ∧ (s.itable cwd).inum = ROOTINO := by
  have hget : wp (fun _ => False) (iget ROOTINO) m.st _ :=
    iget_ok h.fsOk (fun hc => absurd hc (by decide)) ROOTINO
  obtain ⟨cwd, s, hrun, h', q, hnum, hlk⟩ := hget.returns
  rw [← q.node] at dirs hroot
  refine ⟨cwd, s, hrun, ⟨h', dirs, fun k hk => ?_, fun k => ?_, hroot⟩, q.node, hnum⟩
  · rw [List.mem_singleton.mp hk, hnum]
    exact hroot
  · rw [hlk]
    rfl

/-- The small disk, with a process in its root directory. -/
theorem sample_sysOk : ∃ cwd s, iget ROOTINO sample.st = .ok (cwd, s) ∧ SysOk sample.sb [cwd] s ∧
    s.node sample.sb = sample.st.node sample.sb ∧ (s.itable cwd).inum = ROOTINO := by
  refine sample_ok.sysOk sample_dirs ?_
  rw [sample_node]
  exact nofun

theorem SysOk.called (o : SysOk sb L s) : Called sb L s s := ⟨Keeps.refl, o.ok, o.unlocked⟩

/-! ## `sys_link` -/

theorem decLink_incLink {n : Nat} (h : n < 2 ^ 16) : decLink (incLink n) = n := by
  unfold decLink incLink
  omega

/-- Inode `i` has a new link, the name in directory `d`; `I` are the inodes in use. -/
def Links (I : List Nat) (N : Nat → Option Node) (i d : Nat) (name : Nat → UInt8)
    (N' : Nat → Option Node) : Prop :=
  ∃ nd dnd, N i = some nd ∧ N d = some dnd ∧ nd.type ≠ T_DIR ∧ dnd.type = T_DIR ∧
    Slots.lookup (dirSlots dnd.data) (nameKey name) = none ∧
    N' = dropRef I (update
      (update N i (some { nd with nlink := incLink nd.nlink }))
      d (some { dnd with data := addEntry dnd.data name i })) i

theorem linkBad_ok (w : sb.Wf) (m : MayStop E) (h : FsOk sb (ip :: L) s)
    (hl : ∀ k, s.locks k = false) (hout : 1 ≤ s.outstanding)
    (hnd : s.node sb (s.itable ip).inum = some nd) :
    wp E (linkBad sb ip) s fun r s' => r = -1 ∧ Ended sb L s s' ∧
      s'.node sb = dropRef (s.inums L) (update (s.node sb) (s.itable ip).inum
        (some { nd with nlink := decLink nd.nlink })) (s.itable ip).inum := by
  have hmem : ip ∈ ip :: L := List.mem_cons_self
  refine wp.bind (ilock_ok h hmem (lt_ninodes_of_node hnd) (fun _ => m.deadlock) fun _ => m.noType) ?_
  rintro _ s₁ ⟨h₁, q₁, lo₁, hl₁⟩
  have hnum₁ := q₁.inum ip hmem
  have hout₁ := q₁.out hout
  have hnd₁ : s₁.node sb (s₁.itable ip).inum = some nd := by
    rw [q₁.node, hnum₁]
    exact hnd
  have hnl := (lo₁.fields h₁ hnd₁).nlink
  refine wp_bind.mpr (wp_getInode.mpr (wp_bind.mpr (wp_setInode.mpr ?_)))
  refine wp.bind (setNlink_ok w m h₁ hmem lo₁ hout₁ hnd₁ (Nat.mod_lt _ (Nat.two_pow_pos 16))) ?_
  rintro _ s₂ ⟨h₂, k₂, lo₂, hl₂, hn₂⟩
  have hout₂ := k₂.out hout₁
  refine wp.bind (iunlockput_drop w m h₂ hout₂ (by rw [hl₂, hl₁, update_self]) lo₂.valid) ?_
  rintro _ s₃ ⟨h₃, k₃, hl₃, hn₃⟩
  have k₀₂ := q₁.toKeeps.trans k₂
  have hk := k₀₂.tail.trans k₃
  refine wp.bind (endOp_ended h₃ hk hout fun j => ?_) ?_
  · rw [hl₃, hl₂, hl₁, relock (hl ip)]
    exact hl j
  rintro _ s' ⟨e, hn'⟩
  refine wp_pure.mpr ⟨rfl, e, ?_⟩
  rw [hn', hn₃, hn₂, k₀₂.tail.inums, k₂.inum ip hmem, hnum₁, q₁.node, hnl]

/-- Directories are the same for a walk when their contents are. -/
theorem lookupIn_congr {N' : Nat → Option Node} (h : ∀ i nd, N i = some nd → nd.type = T_DIR → N' i = some nd)
    (h' : ∀ i nd, N' i = some nd → nd.type = T_DIR → N i = some nd) :
    lookupIn N' = lookupIn N ∧ isDir N' = isDir N := by
  have key : ∀ i, lookupIn N' i = lookupIn N i ∧ isDir N' i = isDir N i := by
    intro i
    by_cases hd : ∃ nd, N i = some nd ∧ nd.type = T_DIR
    · obtain ⟨nd, hnd, ht⟩ := hd
      have hnd' := h i nd hnd ht
      unfold lookupIn isDir
      rw [hnd, hnd']
      exact ⟨rfl, rfl⟩
    · have hno : ∀ M : Nat → Option Node, (¬ ∃ nd, M i = some nd ∧ nd.type = T_DIR) →
          lookupIn M i = (fun _ => none) ∧ isDir M i = false := by
        intro M hM
        unfold lookupIn isDir
        cases hMi : M i with
        | none => exact ⟨rfl, rfl⟩
        | some nd =>
          have ht : nd.type ≠ T_DIR := fun ht => hM ⟨nd, hMi, ht⟩
          refine ⟨funext fun key => if_neg ht, by simpa using ht⟩
      have hd' : ¬ ∃ nd, N' i = some nd ∧ nd.type = T_DIR := fun ⟨nd, hnd, ht⟩ =>
        hd ⟨nd, h' i nd hnd ht, ht⟩
      rw [(hno N hd).1, (hno N hd).2, (hno N' hd').1, (hno N' hd').2]
      exact ⟨rfl, rfl⟩
  exact ⟨funext fun i => (key i).1, funext fun i => (key i).2⟩

theorem parentOf_congr {N' : Nat → Option Node} (h : lookupIn N' = lookupIn N ∧ isDir N' = isDir N) (i : Nat)
    (cs : List (List UInt8)) : parentOf N' i cs = parentOf N i cs := by
  unfold parentOf walk
  rw [h.1, h.2]

theorem parentOf_isDir {d : Nat} {cs : List (List UInt8)} {c : List UInt8}
    (h : parentOf N i cs = some (d, c)) : ∃ dnd, N d = some dnd ∧ dnd.type = T_DIR := by
  unfold parentOf at h
  obtain ⟨c', -, h⟩ := Option.bind_eq_some_iff.mp h
  obtain ⟨j, -, h⟩ := Option.bind_eq_some_iff.mp h
  split at h
  · rename_i hd
    cases h
    unfold isDir at hd
    rw [Option.any_eq_true] at hd
    obtain ⟨dnd, hdnd, ht⟩ := hd
    exact ⟨dnd, hdnd, by simpa using ht⟩
  · cases h

theorem linkTo_ok (w : sb.Wf) (m : MayStop E) (c : CanWalk sb E (ip :: L) s cwd)
    (hout : 1 ≤ s.outstanding) (hnd : s.node sb (s.itable ip).inum = some nd)
    (hv : (s.itable ip).valid = true) {new : List UInt8} (hz : ∀ b ∈ new, b ≠ 0) (name : Nat → UInt8) :
    wp E (linkTo sb cwd ip new name) s fun r s' => Ended sb L s s' ∧
      ((r = -1 ∧ s'.node sb = dropRef (s.inums L) (update (s.node sb) (s.itable ip).inum
        (some { nd with nlink := decLink nd.nlink })) (s.itable ip).inum) ∨
      (r = 0 ∧ ∃ d dnd name', parentOf (s.node sb) (s.startOf cwd new) (components new) =
          some (d, nameKey name') ∧ s.node sb d = some dnd ∧ dnd.type = T_DIR ∧
        Slots.lookup (dirSlots dnd.data) (nameKey name') = none ∧
        s'.node sb = dropRef (s.inums L) (update (s.node sb) d
          (some { dnd with data := addEntry dnd.data name' (s.itable ip).inum })) (s.itable ip).inum)) := by
  have hmem : ip ∈ ip :: L := List.mem_cons_self
  -- the exit `bad` from a state with the same nodes
  have hbad : ∀ {t : St}, FsOk sb (ip :: L) t → Keeps (ip :: L) s t → t.node sb = s.node sb →
      (∀ k, t.locks k = false) → wp E (linkBad sb ip) t fun r s' => r = -1 ∧ Ended sb L s s' ∧
        s'.node sb = dropRef (s.inums L) (update (s.node sb) (s.itable ip).inum
          (some { nd with nlink := decLink nd.nlink })) (s.itable ip).inum := by
    intro t h hk hn hl
    have hnum := hk.inum ip hmem
    have hout' := hk.out hout
    have hnd' : t.node sb (t.itable ip).inum = some nd := by
      rw [hn, hnum]
      exact hnd
    refine (linkBad_ok w m h hl hout' hnd').mono ?_
    rintro r s' ⟨rfl, e, hn'⟩
    refine ⟨rfl, e.of_keeps hk.tail, ?_⟩
    rw [hn', hk.tail.inums, hn, hnum]
  refine wp.bind (nameiparent_ok w c m.noType hz name) ?_
  rintro ⟨r, name'⟩ s₁ ⟨⟨h₁, q₁, hl₁⟩, hfound⟩
  have hunl : ∀ k, s₁.locks k = false := fun k => by
    rw [hl₁]
    exact c.unlocked k
  cases r with
  | none =>
    exact (hbad h₁ q₁.toKeeps q₁.node hunl).mono fun r s' ⟨hr, e, hn⟩ => ⟨e, .inl ⟨hr, hn⟩⟩
  | some dp =>
    have hmem' : dp ∈ dp :: ip :: L := List.mem_cons_self
    have h₁ : FsOk sb (dp :: ip :: L) s₁ := h₁
    obtain ⟨dnd, hdnd, hdt⟩ := parentOf_isDir hfound.symm
    have hdnd₁ : s₁.node sb (s₁.itable dp).inum = some dnd := by
      rw [q₁.node]
      exact hdnd
    refine wp.bind (ilock_ok h₁ hmem' (lt_ninodes_of_node hdnd₁) (fun _ => m.deadlock) fun _ => m.noType) ?_
    rintro _ s₂ ⟨h₂, q₂, lo₂, hl₂⟩
    have hnum₂ := q₂.inum dp hmem'
    have hdnd₂ : s₂.node sb (s₂.itable dp).inum = some dnd := by
      rw [q₂.node, hnum₂]
      exact hdnd₁
    have k₀₂ := q₁.toKeeps.trans q₂.toKeeps.tail
    have hout₂ := k₀₂.out hout
    have hip₂ : (s₂.itable ip).inum = (s.itable ip).inum := k₀₂.inum ip hmem
    have hn₀₂ : s₂.node sb = s.node sb := q₂.node.trans q₁.node
    refine wp_bind.mpr (wp_getInode.mpr ?_)
    refine wp.bind (dirlink_ok w h₂ hmem' lo₂ hout₂ (fun _ => m.tooBig) (fun _ => m.noInodes) hdnd₂ hdt
      (c.dirs _ dnd hdnd hdt).dvd name' (s₂.itable ip).inum) ?_
    rintro ok s₃ ⟨h₃, k₃, lo₃, hl₃, hres⟩
    have k₀₃ := k₀₂.trans k₃.tail
    have hlock₃ : s₃.locks dp = true := by rw [hl₃, hl₂, update_self]
    have hunlock : update s₃.locks dp false = s₁.locks := by
      rw [hl₃, hl₂, relock (hunl dp)]
    have hfail : s₃.node sb = s₂.node sb → wp E (do iunlockput sb dp; linkBad sb ip) s₃ fun r s' =>
        r = -1 ∧ Ended sb L s s' ∧ s'.node sb = dropRef (s.inums L) (update (s.node sb)
          (s.itable ip).inum (some { nd with nlink := decLink nd.nlink })) (s.itable ip).inum := by
      intro hn₃
      have ho₃ : Held sb (ip :: L) s₃ := c.ok.noOrphan.congr k₀₃ (hn₃.trans hn₀₂)
      refine wp.bind (iunlockput_quiet w h₃ ho₃ hlock₃) ?_
      rintro _ s₄ ⟨h₄, q₄, hl₄⟩
      refine hbad h₄ (k₀₃.trans q₄.toKeeps) (q₄.node.trans (hn₃.trans hn₀₂)) fun k => ?_
      rw [hl₄, hunlock]
      exact hunl k
    rcases hres with ⟨rfl, -, q₃⟩ | ⟨rfl, -, -, hn₃⟩ | ⟨rfl, hnone, hn₃⟩
    · exact (hfail q₃.node).mono fun r s' ⟨hr, e, hn⟩ => ⟨e, .inl ⟨hr, hn⟩⟩
    · exact (hfail hn₃).mono fun r s' ⟨hr, e, hn⟩ => ⟨e, .inl ⟨hr, hn⟩⟩
    · -- the entry is there
      have hd : (s₂.itable dp).inum = (s₁.itable dp).inum := hnum₂
      rw [hn₀₂, hd, hip₂] at hn₃
      have ho₃ : Held sb (ip :: L) s₃ := c.ok.noOrphan.change k₀₃ fun j x hx h0 => by
        rw [hn₃] at hx
        by_cases hj : j = (s₁.itable dp).inum
        · rw [hj, update_self] at hx
          cases hx
          exact ⟨dnd, by rw [hj]; exact hdnd, h0⟩
        · rw [update_of_ne hj] at hx
          exact ⟨x, hx, h0⟩
      refine wp.bind (iunlockput_quiet w h₃ ho₃ hlock₃) ?_
      rintro _ s₄ ⟨h₄, q₄, hl₄⟩
      have k₀₄ := k₀₃.trans q₄.toKeeps
      have hout₄ := k₀₄.out hout
      refine wp.bind (iput_drop w m h₄ hout₄ (k₀₄.valid ip hmem hv)) ?_
      rintro _ s₅ ⟨h₅, k₅, hl₅, hn₅⟩
      refine wp.bind (endOp_ended h₅ (k₀₄.tail.trans k₅) hout fun k => ?_) ?_
      · rw [hl₅, hl₄, hunlock]
        exact hunl k
      rintro _ s' ⟨e, hn'⟩
      refine wp_pure.mpr ⟨e, .inr ⟨rfl, _, dnd, name', hfound.symm, hdnd, hdt, hnone, ?_⟩⟩
      rw [hn', hn₅, k₀₄.tail.inums, k₀₄.inum ip hmem, q₄.node, hn₃]

theorem lookupIn_lt (dirs : DirsOk sb N) {v : Nat} {key : List UInt8}
    (h : lookupIn N i key = some v) : v < sb.ninodes := by
  obtain ⟨nd, hnd, h⟩ := Option.bind_eq_some_iff.mp h
  split at h
  · rename_i ht
    unfold dirMap at h
    rw [Option.map_map] at h
    obtain ⟨r, hr, rfl⟩ := Option.map_eq_some_iff.mp h
    exact (dirs i nd hnd ht).lookup_lt hr
  · cases h

theorem walk_lt (dirs : DirsOk sb N) {cs : List (List UInt8)}
    (hi : i < sb.ninodes) (h : walk N i cs = some j) : j < sb.ninodes := by
  induction cs generalizing i with
  | nil =>
    cases h
    exact hi
  | cons c cs ih =>
    rw [walk_cons] at h
    obtain ⟨v, hv, h⟩ := Option.bind_eq_some_iff.mp h
    exact ih (lookupIn_lt dirs hv) h

theorem SysOk.start_lt (o : SysOk sb L s) (hcwd : cwd ∈ L) (path : List UInt8) : s.startOf cwd path < sb.ninodes := by
  have c : CanWalk sb (fun _ => True) L s cwd := o.canWalk ⟨trivial, trivial, trivial, trivial⟩ hcwd
  obtain ⟨nd, hnd⟩ := Option.ne_none_iff_exists'.mp (c.start path)
  exact lt_ninodes_of_node hnd

/-- The link count of another kind of file is changed. -/
theorem DirsOk.update (dirs : DirsOk sb N)
    (h : nd.type = T_DIR → DirOk sb.ninodes nd.data) : DirsOk sb (update N i (some nd)) := by
  intro j x hx ht
  by_cases hj : j = i
  · rw [hj, update_self] at hx
    cases hx
    exact h ht
  · rw [update_of_ne hj] at hx
    exact dirs j x hx ht

theorem update_ne_none (h : N j ≠ none) : update N i (some nd) j ≠ none := by
  by_cases hj : j = i
  · rw [hj, update_self]
    exact nofun
  · rwa [update_of_ne hj]

theorem sysLink_ok (w : sb.Wf) (m : MayStop E) (o : SysOk sb L s) (hcwd : cwd ∈ L)
    {old new : Option (List UInt8)} (hold : ∀ p, old = some p → ∀ b ∈ p, b ≠ 0)
    (hnew : ∀ p, new = some p → ∀ b ∈ p, b ≠ 0) (name : Nat → UInt8) :
    wp E (sysLink sb cwd old new name) s fun r s' => Called sb L s s' ∧
      ((r = -1 ∧ s'.node sb = s.node sb) ∨
        (r = 0 ∧ ∃ p q i d name', old = some p ∧ new = some q ∧
          walk (s.node sb) (s.startOf cwd p) (components p) = some i ∧
          parentOf (s.node sb) (s.startOf cwd q) (components q) = some (d, nameKey name') ∧
          Links (s.inums L) (s.node sb) i d name' (s'.node sb))) := by
  cases old with
  | none => exact ⟨o.called, .inl ⟨rfl, rfl⟩⟩
  | some p =>
  cases new with
  | none => exact ⟨o.called, .inl ⟨rfl, rfl⟩⟩
  | some q =>
  refine wp_transaction (R := fun r N' => (r = -1 ∧ N' = s.node sb) ∨ (r = 0 ∧ ∃ p' q' i d name',
    some p = some p' ∧ some q = some q' ∧ walk (s.node sb) (s.startOf cwd p') (components p') = some i ∧
    parentOf (s.node sb) (s.startOf cwd q') (components q') = some (d, nameKey name') ∧
    Links (s.inums L) (s.node sb) i d name' N')) o fun s₁ o₁ hout l => ?_
  have hN₁ := l.node
  have hstart := l.startOf cwd
  have hI := l.inums L
  refine wp.bind (namei_ok w (o₁.canWalk m hcwd) m.noType (hold p rfl) name) ?_
  rintro r s₂ ⟨⟨h₂, q₂, hl₂⟩, hfound⟩
  have hunl₂ : ∀ k, s₂.locks k = false := fun k => by
    rw [hl₂]
    exact o₁.unlocked k
  rw [hN₁, hstart] at hfound
  have hN₂ : s₂.node sb = s.node sb := q₂.node.trans hN₁
  cases r with
  | none =>
    refine wp.bind (endOp_ended h₂ q₂.toKeeps hout hunl₂) ?_
    rintro _ s' ⟨e, hn⟩
    exact ⟨e, .inl ⟨rfl, hn.trans hN₂⟩⟩
  | some ip =>
    have hmem : ip ∈ ip :: L := List.mem_cons_self
    have hsub : ∀ j ∈ L, j ∈ ip :: L := fun j hj => List.mem_cons_of_mem _ hj
    have h₂ : FsOk sb (ip :: L) s₂ := h₂
    have hlt : (s₂.itable ip).inum < sb.ninodes := walk_lt o.dirs (o.start_lt hcwd p) hfound.symm
    refine wp.bind (ilock_ok h₂ hmem hlt (fun _ => m.deadlock) fun _ => m.noType) ?_
    rintro _ s₃ ⟨h₃, q₃, lo₃, hl₃⟩
    have k₁₃ := q₂.toKeeps.trans q₃.toKeeps.tail
    have hN₃ : s₃.node sb = s.node sb := q₃.node.trans hN₂
    have hnd := lo₃.node h₃.good.inv.table
    generalize hndv : (Node.mk _ _ _ _ _ : Node) = nd at hnd
    have f := lo₃.fields h₃ hnd
    have ho₃ : Held sb L s₃ := o₁.ok.noOrphan.congr k₁₃ (hN₃.trans hN₁.symm)
    have hlock₃ : s₃.locks ip = true := by rw [hl₃, update_self]
    have hunlock : update s₃.locks ip false = s₂.locks := by rw [hl₃, relock (hunl₂ ip)]
    refine wp_bind.mpr (wp_getInode.mpr ?_)
    rw [f.type]
    refine wp_ite.mpr ⟨fun hdir => ?_, fun hdir => ?_⟩
    · -- no link to a directory
      refine wp.bind (iunlockput_quiet w h₃ ho₃ hlock₃) ?_
      rintro _ s₄ ⟨h₄, q₄, hl₄⟩
      refine wp.bind (endOp_ended h₄ (k₁₃.trans q₄.toKeeps) hout fun k => ?_) ?_
      · rw [hl₄, hunlock]
        exact hunl₂ k
      rintro _ s' ⟨e, hn⟩
      exact ⟨e, .inl ⟨rfl, hn.trans (q₄.node.trans hN₃)⟩⟩
    · have hout₃ := k₁₃.out hout
      refine wp_bind.mpr (wp_setInode.mpr ?_)
      refine wp.bind (setNlink_ok w m h₃ hmem lo₃ hout₃ hnd (Nat.mod_lt _ (Nat.two_pow_pos 16))) ?_
      rintro _ s₄ ⟨h₄, k₄, lo₄, hl₄, hn₄⟩
      have hno : s₄.locks ip = false → E .iunlock := fun h0 => by
        rw [hl₄, hlock₃] at h0
        cases h0
      refine wp.bind (iunlock_ok h₄ hmem hno) ?_
      rintro _ s₅ ⟨h₅, q₅, hl₅⟩
      have k₃₅ := k₄.trans q₅.toKeeps
      have k₁₅ := k₁₃.trans k₃₅.tail
      have hnum₅ : (s₅.itable ip).inum = (s₃.itable ip).inum := k₃₅.inum ip hmem
      -- the nodes with the link count raised
      generalize hi : (s₃.itable ip).inum = i at *
      rw [hN₃] at hn₄ hnd
      have hN₅ : s₅.node sb = update (s.node sb) i (some { nd with nlink := incLink nd.nlink }) := by
        rw [q₅.node, hn₄, f.nlink]
      have hunl₅ : ∀ k, s₅.locks k = false := fun k => by
        rw [hl₅, hl₄, hunlock]
        exact hunl₂ k
      have hcwd₅ : (s₅.itable cwd).inum = (s₁.itable cwd).inum := k₁₅.inum cwd hcwd
      have c₅ : CanWalk sb E (ip :: L) s₅ cwd := by
        refine ⟨h₅, ?_, fun _ => m.noInodes, hunl₅, ?_, hsub cwd hcwd, ?_⟩
        · rw [hN₅]
          exact o.dirs.update fun ht => absurd ht hdir
        · rw [hN₅]
          exact update_ne_none o.root
        · rw [hN₅, hcwd₅, l.itable]
          exact update_ne_none (o.live cwd hcwd)
      have hnd₅ : s₅.node sb (s₅.itable ip).inum = some { nd with nlink := incLink nd.nlink } := by
        rw [hN₅, hnum₅, update_self]
      have hv₅ : (s₅.itable ip).valid = true := q₅.valid ip hmem lo₄.valid
      have hout₅ := k₁₅.out hout
      have hI₅ : s₅.inums L = s.inums L := k₁₅.inums.trans hI
      refine (linkTo_ok w m c₅ hout₅ hnd₅ hv₅ (hnew q rfl) name).mono ?_
      rintro r s' ⟨e, hres⟩
      refine ⟨e.of_keeps k₁₅, ?_⟩
      rw [hI₅, hnum₅, hN₅] at hres
      rcases hres with ⟨rfl, hn⟩ | ⟨rfl, d, dnd, name', hpar, hdnd, hdt, hnone, hn⟩
      · -- the count is back
        refine .inl ⟨rfl, ?_⟩
        have hnl : nd.nlink < 2 ^ 16 := by
          rw [← f.nlink]
          exact (h₃.good.inv.table.wf lo₃.live lo₃.valid).nlink_lt
        have hback : update (update (s.node sb) i
            (some { nd with nlink := incLink nd.nlink })) i
            (some { nd with nlink := decLink (incLink nd.nlink) }) = s.node sb := by
          rw [update_idem, decLink_incLink hnl]
          exact (congrArg _ hnd.symm).trans (update_eq_self _ _)
        rw [hn, hback]
        exact dropRef_of_held fun x hx h0 => o.ok.noOrphan.mem_inums hx h0
      · have hdi : d ≠ i := by
          rintro rfl
          rw [update_self] at hdnd
          cases hdnd
          exact hdir hdt
        rw [update_of_ne hdi] at hdnd
        refine .inr ⟨rfl, p, q, i, d, name', rfl, rfl, ?_, ?_, nd, dnd, hnd, hdnd, hdir, hdt, hnone, hn⟩
        · rw [← hfound]
          exact congrArg some ((q₃.inum ip hmem).symm.trans hi)
        · have hst : s₅.startOf cwd q = s.startOf cwd q := by
            rw [← hstart]
            unfold St.startOf
            rw [hcwd₅]
          rw [← hpar, hst]
          refine (parentOf_congr (lookupIn_congr (fun j x hx ht => ?_) fun j x hx ht => ?_) _ _).symm
          · have hj : j ≠ i := by
              rintro rfl
              rw [hnd] at hx
              cases hx
              exact hdir ht
            rwa [update_of_ne hj]
          · by_cases hj : j = i
            · rw [hj, update_self] at hx
              cases hx
              exact absurd ht hdir
            · rwa [update_of_ne hj] at hx

/-! ## A directory that is locked -/

/-- The call has locked the directory `dp`, and nothing has changed yet. -/
structure AtDir (sb : Superblock) (L : List Nat) (s : St) (dp : Nat) (dnd : Node) : Prop where
  ok : FsOk sb (dp :: L) s
  held : Held sb L s
  dirs : DirsOk sb (s.node sb)
  loaded : Loaded s dp
  locks : s.locks = update (fun _ => false) dp true
  out : 1 ≤ s.outstanding
  node : s.node sb (s.itable dp).inum = some dnd
  dir : dnd.type = T_DIR

theorem AtDir.dvd (a : AtDir sb L s dp dnd) : direntSize ∣ dnd.data.length :=
  (a.dirs _ dnd a.node a.dir).dvd

theorem AtDir.unlock (a : AtDir sb L s dp dnd) : update s.locks dp false = fun _ => false := by
  rw [a.locks, relock rfl]

/-- The end of a call that has changed nothing. -/
theorem AtDir.iunlockput_ok (w : sb.Wf) (a : AtDir sb L s dp dnd) :
    wp E (iunlockput sb dp) s fun _ s' => FsOk sb L s' ∧ Quiet sb L s s' ∧ s'.locks = fun _ => false := by
  have hlk : s.locks dp = true := by rw [a.locks, update_self]
  refine (iunlockput_quiet w a.ok a.held hlk).mono ?_
  rintro _ s' ⟨h', q, hl⟩
  exact ⟨h', q, hl.trans a.unlock⟩

/-- `nameiparent` and `ilock`. -/
theorem lockParent_ok (w : sb.Wf) (m : MayStop E) (o : SysOk sb L s) (hout : 1 ≤ s.outstanding)
    (hcwd : cwd ∈ L) {path : List UInt8} (hz : ∀ b ∈ path, b ≠ 0) (name : Nat → UInt8) :
    wp E (nameiparent sb cwd path name) s fun r s' =>
      (r.1 = none ∧ parentOf (s.node sb) (s.startOf cwd path) (components path) = none ∧
        FsOk sb L s' ∧ Quiet sb L s s' ∧ ∀ k, s'.locks k = false) ∨
      ∃ dp, r.1 = some dp ∧ wp E (ilock sb dp) s' fun _ t => ∃ dnd, AtDir sb L t dp dnd ∧ Quiet sb L s t ∧
        parentOf (s.node sb) (s.startOf cwd path) (components path) =
          some ((t.itable dp).inum, nameKey r.2) := by
  refine (nameiparent_ok w (o.canWalk m hcwd) m.noType hz name).mono ?_
  rintro ⟨r, name'⟩ s' ⟨⟨h', q, hl⟩, hfound⟩
  have hunl : s'.locks = fun _ => false := funext fun k => by
    rw [hl]
    exact o.unlocked k
  cases r with
  | none => exact .inl ⟨rfl, hfound.symm, h', q, congrFun hunl⟩
  | some dp =>
    refine .inr ⟨dp, rfl, ?_⟩
    have h' : FsOk sb (dp :: L) s' := h'
    have hmem : dp ∈ dp :: L := List.mem_cons_self
    obtain ⟨dnd, hdnd, hdt⟩ := parentOf_isDir hfound.symm
    have hdnd' : s'.node sb (s'.itable dp).inum = some dnd := by
      rw [q.node]
      exact hdnd
    refine (ilock_ok h' hmem (lt_ninodes_of_node hdnd') (fun _ => m.deadlock) fun _ => m.noType).mono ?_
    rintro _ t ⟨ht, qt, lo, hlt⟩
    have q' := q.trans qt.tail
    refine ⟨dnd, ⟨ht, o.ok.noOrphan.quiet q', ?_, lo, ?_, ?_, ?_, hdt⟩, q', ?_⟩
    · rw [q'.node]
      exact o.dirs
    · rw [hlt, hunl]
    · rw [q'.outstanding]
      exact hout
    · rw [q'.node, qt.inum dp hmem]
      exact hdnd
    · rw [qt.inum dp hmem]
      exact hfound.symm

/-! ## `sys_unlink` -/

/-- No entry except `.` and `..`. -/
def isEmptyDir (nd : Node) : Bool := ((dirSlots nd.data).drop 2).all Option.isNone

section

variable (h : FsOk sb L s) (lo : Loaded s k) (hnd : s.node sb (s.itable k).inum = some nd)
  (hd : direntSize ∣ nd.data.length)
include h lo hnd hd

theorem isdiremptyFrom_ok (fuel j : Nat)
    (hf : nd.data.length / direntSize < fuel + j) :
    wp E (isdiremptyFrom sb k fuel (j * direntSize)) s fun r s' =>
      s' = s ∧ r = ((dirSlots nd.data).drop j).all Option.isNone := by
  have hsize := (lo.fields h hnd).size
  have hdone : ∀ j, ¬ j < nd.data.length / direntSize →
      true = ((dirSlots nd.data).drop j).all Option.isNone := fun j hj => by
    rw [List.drop_eq_nil_of_le (by simpa using Nat.le_of_not_lt hj)]
    rfl
  induction fuel generalizing j with
  | zero => exact ⟨rfl, hdone j (by omega)⟩
  | succ fuel ih =>
    unfold isdiremptyFrom
    refine wp_bind.mpr (wp_getInode.mpr ?_)
    rw [hsize]
    refine wp_ite.mpr ⟨fun hlt => ?_, fun hge => ⟨rfl, hdone j fun hlt => hge ((lt_size_iff hd).mpr hlt)⟩⟩
    have hj := (lt_size_iff hd).mp hlt
    refine wp.bind (readi_slot h lo hnd hj) ?_
    rintro _ _ ⟨rfl, rfl⟩
    refine wp_ite.mpr ⟨fun hne => absurd rfl hne, fun _ => wp_ite.mpr ⟨fun hused => ?_, fun hfree => ?_⟩⟩
    · refine ⟨rfl, ?_⟩
      rw [drop_dirSlots hj, dirEntry, if_neg hused]
      rfl
    · have hstep : j * direntSize + direntSize = (j + 1) * direntSize := (Nat.succ_mul _ _).symm
      rw [hstep]
      refine (ih (j + 1) (by omega)).mono ?_
      rintro r s' ⟨rfl, rfl⟩
      refine ⟨rfl, ?_⟩
      rw [drop_dirSlots hj, dirEntry, if_pos (by simpa using hfree)]
      rfl

theorem isdirempty_ok : wp E (isdirempty sb k) s fun r s' => s' = s ∧ r = isEmptyDir nd := by
  refine wp_bind.mpr (wp_getInode.mpr ?_)
  refine isdiremptyFrom_ok h lo hnd hd _ 2 ?_
  have := Nat.div_le_self nd.data.length direntSize
  rw [(lo.fields h hnd).size]
  omega

end

/-- The directory `dnd` without the entry in slot `j`, which was for `nd`. -/
def Node.without (dnd : Node) (j : Nat) (nd : Node) : Node :=
  { dnd with
    data := Bytes.splice dnd.data (j * direntSize) (List.replicate direntSize 0)
    nlink := if nd.type = T_DIR then decLink dnd.nlink else dnd.nlink }

/-- The entry for `i` in slot `j` of directory `d` is removed, with its link. -/
def removeLink (I : List Nat) (N : Nat → Option Node) (d j i : Nat) (dnd nd : Node) : Nat → Option Node :=
  dropRef I (update (dropRef (i :: I) (update N d (some (dnd.without j nd))) d) i
    (some { nd with nlink := decLink nd.nlink })) i

theorem unlinkEntry_ok (w : sb.Wf) (m : MayStop E) (h : FsOk sb (ip :: dp :: L) s)
    (hne : ip ≠ dp) (hvi : (s.itable ip).valid = true) (hvd : (s.itable dp).valid = true)
    (hlocks : s.locks = update (update (fun _ => false) dp true) ip true)
    (hout : 1 ≤ s.outstanding) (hnd : s.node sb (s.itable ip).inum = some nd)
    (hdnd : s.node sb (s.itable dp).inum = some dnd) (hj : j < dnd.data.length / direntSize) :
    wp E (unlinkEntry sb dp ip (j * direntSize)) s fun r s' => r = 0 ∧ Ended sb L s s' ∧
      s'.node sb = removeLink (s.inums L) (s.node sb) (s.itable dp).inum j (s.itable ip).inum dnd nd := by
  have hip : ip ∈ ip :: dp :: L := List.mem_cons_self
  have hdp : dp ∈ ip :: dp :: L := List.mem_cons_of_mem _ List.mem_cons_self
  have hsub : ∀ j ∈ L, j ∈ ip :: dp :: L := fun j hj => List.mem_cons_of_mem _ (List.mem_cons_of_mem _ hj)
  have hinum : (s.itable ip).inum ≠ (s.itable dp).inum := fun he => hne (h.eq_of_inum hip hdp he)
  refine wp.bind (clearEntry_ok w h hdp (h.loaded hdp hvd) hout (fun _ => m.tooBig) hdnd hj) ?_
  rintro _ s₁ ⟨h₁, k₁, lo₁, hl₁, hn₁⟩
  have hnd₁ : s₁.node sb (s₁.itable ip).inum = some nd := by
    rw [hn₁, k₁.inum ip hip, update_of_ne hinum]
    exact hnd
  have hout₁ := k₁.out hout
  have fi := (h₁.loaded hip (k₁.valid ip hip hvi)).fields h₁ hnd₁
  refine wp_bind.mpr (wp_getInode.mpr ?_)
  rw [fi.type]
  -- the link of `..` to the directory
  have hcount : wp E (if nd.type = T_DIR then (do
        let d ← getInode dp
        setInode dp d.dropLink
        iupdate sb dp) else pure ()) s₁ fun _ s' => FsOk sb (ip :: dp :: L) s' ∧
      Keeps (ip :: dp :: L) s₁ s' ∧ s'.locks = s₁.locks ∧
      s'.node sb = update (s.node sb) (s.itable dp).inum (some (dnd.without j nd)) := by
    refine wp_ite.mpr ⟨fun hdir => ?_, fun hdir => ?_⟩
    · have hdnd₁ := hn₁
      rw [← k₁.inum dp hdp] at hdnd₁
      have hdnd₁ := (congrFun hdnd₁ (s₁.itable dp).inum).trans (update_self _ _ _)
      have fd := lo₁.fields h₁ hdnd₁
      refine wp_bind.mpr (wp_getInode.mpr (wp_bind.mpr (wp_setInode.mpr ?_)))
      refine (setNlink_ok w m h₁ hdp lo₁ hout₁ hdnd₁ (Nat.mod_lt _ (Nat.two_pow_pos 16))).mono ?_
      rintro _ s' ⟨h', k', -, hl', hn'⟩
      refine ⟨h', k', hl', ?_⟩
      rw [hn', hn₁, k₁.inum dp hdp, update_idem, fd.nlink, Node.without, if_pos hdir]
      rfl
    · refine ⟨h₁, Keeps.refl, rfl, ?_⟩
      rw [hn₁, Node.without, if_neg hdir]
  refine wp.bind hcount ?_
  rintro _ s₂ ⟨h₂, k₂, hl₂, hn₂⟩
  have k₀₂ := k₁.trans k₂
  have hout₂ := k₀₂.out hout
  have hldp : s₂.locks dp = true := by
    rw [hl₂, hl₁, hlocks, update_of_ne hne.symm, update_self]
  have hsub' : ∀ j ∈ ip :: L, j ∈ ip :: dp :: L := fun j hj =>
    (List.mem_cons.mp hj).elim (fun e => e ▸ hip) (hsub j)
  refine wp.bind (iunlockput_drop w m (h₂.perm (List.Perm.swap _ _ _)) hout₂ hldp
    (k₀₂.valid dp hdp hvd)) ?_
  rintro _ s₃ ⟨h₃, k₃, hl₃, hn₃⟩
  have k₀₃ := (k₀₂.mono hsub').trans k₃
  have hmem : ip ∈ ip :: L := List.mem_cons_self
  have hout₃ := k₀₃.out hout
  have hnum₃ := k₀₃.inum ip hmem
  have hI : s₂.inums (ip :: L) = (s.itable ip).inum :: s.inums L := by
    rw [(k₀₂.mono hsub').inums]
    rfl
  rw [hI, k₀₂.inum dp hdp, hn₂] at hn₃
  have hnd₃ : s₃.node sb (s₃.itable ip).inum = some nd := by
    rw [hn₃, hnum₃, dropRef_of_ne hinum, update_of_ne hinum]
    exact hnd
  have lo₃ := h₃.loaded hmem (k₀₃.valid ip hmem hvi)
  have f₃ := lo₃.fields h₃ hnd₃
  refine wp_bind.mpr (wp_getInode.mpr (wp_bind.mpr (wp_setInode.mpr ?_)))
  refine wp.bind (setNlink_ok w m h₃ hmem lo₃ hout₃ hnd₃ (Nat.mod_lt _ (Nat.two_pow_pos 16))) ?_
  rintro _ s₄ ⟨h₄, k₄, lo₄, hl₄, hn₄⟩
  have k₀₄ := k₀₃.trans k₄
  have hout₄ := k₀₄.out hout
  have hlip : s₄.locks ip = true := by
    rw [hl₄, hl₃, update_of_ne hne, hl₂, hl₁, hlocks, update_self]
  refine wp.bind (iunlockput_drop w m h₄ hout₄ hlip lo₄.valid) ?_
  rintro _ s₅ ⟨h₅, k₅, hl₅, hn₅⟩
  refine wp.bind (endOp_ended h₅ (k₀₄.tail.trans k₅) hout fun k => ?_) ?_
  · rw [hl₅, hl₄, hl₃, hl₂, hl₁, hlocks]
    by_cases h1 : k = ip
    · rw [h1, update_self]
    · rw [update_of_ne h1]
      by_cases h2 : k = dp
      · rw [h2, update_self]
      · rw [update_of_ne h2, update_of_ne h1, update_of_ne h2]
  rintro _ s' ⟨e, hn'⟩
  refine ⟨rfl, e, ?_⟩
  rw [hn', hn₅, k₀₄.tail.inums, k₀₄.inum ip hmem, hn₄, hnum₃, hn₃, f₃.nlink]
  rfl

/-- The name `key` is removed from directory `d`. -/
def Unlinks (I : List Nat) (N : Nat → Option Node) (d : Nat) (key : List UInt8) (N' : Nat → Option Node) :
    Prop :=
  ∃ dnd i j nd, N d = some dnd ∧ dnd.type = T_DIR ∧ key ≠ dot ∧ key ≠ dotdot ∧
    Slots.lookup (dirSlots dnd.data) key = some (i, j) ∧ i ≠ d ∧ N i = some nd ∧ 1 ≤ short nd.nlink ∧
    (nd.type = T_DIR → isEmptyDir nd = true) ∧ N' = removeLink I N d j i dnd nd

/-- An entry for a file whose link count is not positive. -/
def BadCount (N : Nat → Option Node) : Prop :=
  ∃ d dnd key i j nd, N d = some dnd ∧ dnd.type = T_DIR ∧ key ≠ dot ∧ key ≠ dotdot ∧
    Slots.lookup (dirSlots dnd.data) key = some (i, j) ∧ N i = some nd ∧ short nd.nlink < 1

theorem unlinkBad_ok (w : sb.Wf) (a : AtDir sb L s dp dnd) :
    wp E (unlinkBad sb dp) s fun r s' => r = -1 ∧ Ended sb L s s' ∧ s'.node sb = s.node sb := by
  refine wp.bind (a.iunlockput_ok w) ?_
  rintro _ s₁ ⟨h₁, q₁, hl₁⟩
  refine wp.bind (endOp_ended h₁ q₁.toKeeps a.out (congrFun hl₁)) ?_
  rintro _ s' ⟨e, hn⟩
  exact ⟨rfl, e, hn.trans q₁.node⟩

theorem unlinkIn_ok (w : sb.Wf) (m : MayStop E) (hE : BadCount (s.node sb) → E .unlinkNlink) (a : AtDir sb L s dp dnd)
    (name : Nat → UInt8) :
    wp E (unlinkIn sb dp name) s fun r s' => Ended sb L s s' ∧ ((r = -1 ∧ s'.node sb = s.node sb) ∨
      (r = 0 ∧ Unlinks (s.inums L) (s.node sb) (s.itable dp).inum (nameKey name) (s'.node sb))) := by
  have hfail : ∀ {t : St}, AtDir sb L t dp dnd → Quiet sb L s t →
      wp E (unlinkBad sb dp) t fun r s' => Ended sb L s s' ∧ ((r = -1 ∧ s'.node sb = s.node sb) ∨
      (r = 0 ∧ Unlinks (s.inums L) (s.node sb) (s.itable dp).inum (nameKey name) (s'.node sb))) := by
    intro t a q
    refine (unlinkBad_ok w a).mono ?_
    rintro r s' ⟨hr, e, hn⟩
    exact ⟨e.of_keeps q.toKeeps, .inl ⟨hr, hn.trans q.node⟩⟩
  have hdot : nameKey (cstr dot) = dot := by decide
  have hdotdot : nameKey (cstr dotdot) = dotdot := by decide
  refine wp_ite.mpr ⟨fun _ => hfail a Quiet.refl, fun hname => ?_⟩
  rw [not_or, namecmp_eq_zero, namecmp_eq_zero, hdot, hdotdot] at hname
  refine wp.bind (dirlookup_ok a.ok a.loaded a.node a.dir a.dvd (fun _ => m.noInodes) name) ?_
  rintro r s₁ (⟨-, rfl, rfl⟩ | ⟨i, j, ip, hlook, rfl, h₁, q₁, hnum, hl₁⟩)
  · exact hfail a Quiet.refl
  have hip : ip ∈ ip :: dp :: L := List.mem_cons_self
  have hdp : dp ∈ ip :: dp :: L := List.mem_cons_of_mem _ List.mem_cons_self
  by_cases hne : ip = dp
  · -- the entry is for the directory itself
    refine wp.bind (R := fun _ _ => False) (ilock_deadlock (h₁.refs.live_iff.mpr hip) ?_ m.deadlock)
      fun _ _ hf => hf.elim
    rw [hl₁, a.locks, hne, update_self]
  have hlt : (s₁.itable ip).inum < sb.ninodes := by
    rw [hnum]
    exact (a.dirs _ dnd a.node a.dir).lookup_lt hlook
  refine wp.bind (ilock_ok h₁ hip hlt (fun _ => m.deadlock) fun _ => m.noType) ?_
  rintro _ s₂ ⟨h₂, q₂, lo₂, hl₂⟩
  have q₀₂ := q₁.trans q₂.tail
  have hnum₂ : (s₂.itable ip).inum = i := (q₂.inum ip hip).trans hnum
  have hdnum₂ : (s₂.itable dp).inum = (s.itable dp).inum := q₀₂.inum dp List.mem_cons_self
  have hnd := lo₂.node h₂.good.inv.table
  generalize hndv : (Node.mk _ _ _ _ _ : Node) = nd at hnd
  have f := lo₂.fields h₂ hnd
  have hnd₀ : s.node sb i = some nd := by
    rw [← q₀₂.node, ← hnum₂]
    exact hnd
  refine wp_bind.mpr (wp_getInode.mpr ?_)
  rw [f.nlink, f.type]
  refine wp_ite.mpr ⟨fun hbad => hE ⟨_, dnd, _, i, j, nd, a.node, a.dir, hname.1, hname.2, hlook, hnd₀, hbad⟩,
    fun hgood => ?_⟩
  have hempty : wp E (if nd.type = T_DIR then isdirempty sb ip else pure true) s₂ fun r s' =>
      s₂ = s' ∧ (r = true ↔ (nd.type = T_DIR → isEmptyDir nd = true)) := by
    refine wp_ite.mpr ⟨fun hdir => ?_, fun hdir => ⟨rfl, by simp [hdir]⟩⟩
    refine (isdirempty_ok h₂ lo₂ hnd (a.dirs i nd hnd₀ hdir).dvd).mono ?_
    rintro r s' ⟨hs, rfl⟩
    exact ⟨hs.symm, by simp [hdir]⟩
  refine wp.bind hempty ?_
  rintro empty _ ⟨rfl, hres⟩
  refine wp_ite.mpr ⟨fun hfull => ?_, fun hno => ?_⟩
  · -- the directory is not empty
    have ho : Held sb (dp :: L) s₂ := (a.held.cons dp).quiet q₀₂
    refine wp.bind (iunlockput_quiet w h₂ ho (by rw [hl₂, update_self])) ?_
    rintro _ s₃ ⟨h₃, q₃, hl₃⟩
    have q₀₃ := q₀₂.trans q₃
    have hmem : dp ∈ dp :: L := List.mem_cons_self
    have hlk₃ : s₃.locks = update (fun _ => false) dp true := by
      rw [hl₃, hl₂, hl₁, a.locks, relock]
      rw [update_of_ne hne]
    refine hfail ⟨h₃, a.held.quiet q₀₃.tail, ?_, h₃.loaded hmem (q₀₃.valid dp hmem a.loaded.valid),
      hlk₃, ?_, ?_, a.dir⟩ q₀₃.tail
    · rw [q₀₃.node]
      exact a.dirs
    · rw [q₀₃.outstanding]
      exact a.out
    · rw [q₀₃.node, q₀₃.inum dp hmem]
      exact a.node
  · have hdp₀ : dp ∈ dp :: L := List.mem_cons_self
    have hlk₂ : s₂.locks = update (update (fun _ => false) dp true) ip true := by
      rw [hl₂, hl₁, a.locks]
    have hout₂ := q₀₂.out a.out
    have hdnd₂ : s₂.node sb (s₂.itable dp).inum = some dnd := by
      rw [q₀₂.node, hdnum₂]
      exact a.node
    have hjlt : 0 + j < dnd.data.length / direntSize := by
      have := (List.getElem?_eq_some_iff.mp (Slots.lookup_mem hlook)).1
      rw [length_dirSlots] at this
      omega
    refine (unlinkEntry_ok w m h₂ hne lo₂.valid (q₀₂.valid dp hdp₀ a.loaded.valid) hlk₂ hout₂ hnd hdnd₂
      hjlt).mono ?_
    rintro r s' ⟨rfl, e, hn⟩
    have hid : i ≠ (s.itable dp).inum := by
      rw [← hnum₂, ← hdnum₂]
      exact fun he => hne (h₂.eq_of_inum hip hdp he)
    rw [q₀₂.toKeeps.tail.inums, q₀₂.node, hdnum₂, hnum₂, Nat.zero_add] at hn
    exact ⟨e.of_keeps q₀₂.toKeeps.tail, .inr ⟨rfl, dnd, i, j, nd, a.node, a.dir, hname.1, hname.2,
      hlook, hid, hnd₀, by omega, hres.mp (by simpa using hno), hn⟩⟩

theorem sysUnlink_ok (w : sb.Wf) (m : MayStop E) (o : SysOk sb L s)
    (hE : BadCount (s.node sb) → E .unlinkNlink) (hcwd : cwd ∈ L) {path : Option (List UInt8)}
    (hpath : ∀ p, path = some p → ∀ b ∈ p, b ≠ 0) (name : Nat → UInt8) :
    wp E (sysUnlink sb cwd path name) s fun r s' => Called sb L s s' ∧
      ((r = -1 ∧ s'.node sb = s.node sb) ∨
        (r = 0 ∧ ∃ p d key, path = some p ∧
          parentOf (s.node sb) (s.startOf cwd p) (components p) = some (d, key) ∧
          Unlinks (s.inums L) (s.node sb) d key (s'.node sb))) := by
  cases path with
  | none => exact ⟨o.called, .inl ⟨rfl, rfl⟩⟩
  | some p =>
  refine wp_transaction (R := fun r N' => (r = -1 ∧ N' = s.node sb) ∨ (r = 0 ∧ ∃ p' d key,
    some p = some p' ∧ parentOf (s.node sb) (s.startOf cwd p') (components p') = some (d, key) ∧
    Unlinks (s.inums L) (s.node sb) d key N')) o fun s₁ o₁ hout l => ?_
  have hN₁ := l.node
  have hstart := l.startOf cwd p
  have hI := l.inums L
  refine wp.bind (lockParent_ok w m o₁ hout hcwd (hpath p rfl) name) ?_
  rintro ⟨r, name'⟩ s₂ (⟨rfl, -, h₂, q₂, hl₂⟩ | ⟨dp, rfl, hlock⟩)
  · refine wp.bind (endOp_ended h₂ q₂.toKeeps hout hl₂) ?_
    rintro _ s' ⟨e, hn⟩
    exact ⟨e, .inl ⟨rfl, hn.trans (q₂.node.trans hN₁)⟩⟩
  · refine wp.bind hlock ?_
    rintro _ s₃ ⟨dnd, a, q, hpar⟩
    have hN₃ : s₃.node sb = s.node sb := q.node.trans hN₁
    refine (unlinkIn_ok w m (by rw [hN₃]; exact hE) a name').mono ?_
    rintro r s' ⟨e, hres⟩
    rw [hN₃, q.toKeeps.inums, hI] at hres
    rw [hN₁, hstart] at hpar
    exact ⟨e.of_keeps q.toKeeps, hres.imp id fun ⟨hr, hu⟩ => ⟨hr, p, _, _, rfl, hpar, hu⟩⟩

end Calls

end Xv6.Fs
