import Xv6.Fs.Calls
import Xv6.Fs.Room

/-!
# `create`, `sys_mkdir`, `sys_mknod`

`create` makes a node and its entry, or it leaves all nodes as they were: whatever it had done, the
exit `fail` takes back (`createFail_ok`). A call that fails has changed no node
(`failed_call_changes_nothing`).
-/

namespace Xv6.Fs

open Seq Seq.M
open Function (update update_comm update_eq_self update_idem update_of_ne update_self)

section Create

variable {sb : Superblock} {E : Panic → Prop} {s s₁ s' : St} {L : List Nat} {k dp ip : Nat} {nd dnd : Node}

theorem dvd_addEntry {data : List UInt8} (hd : direntSize ∣ data.length) (name : Nat → UInt8) (inum : Nat) :
    direntSize ∣ (addEntry data name inum).length := by
  refine dvd_splice hd ?_ (length_dirent _ _)
  have := Slots.free_le (dirSlots data)
  rwa [length_dirSlots] at this

/-- The node that `create` makes, with number `i` in directory `d`. -/
def newNode (type major minor i d : Nat) : Node where
  type := type
  major := major
  minor := minor
  nlink := 1
  data := if type = T_DIR then addEntry (addEntry [] (cstr dot) i) (cstr dotdot) d else []

/-- The directory `dnd` with the name for the new inode `i`. -/
def Node.withNew (dnd : Node) (name : Nat → UInt8) (i type : Nat) : Node :=
  { dnd with
    data := addEntry dnd.data name i
    nlink := if type = T_DIR then incLink dnd.nlink else dnd.nlink }

/-- Directory `d` has the new entry `name` for the new inode `i`; `I` are the inodes in use. -/
def Creates (I : List Nat) (N : Nat → Option Node) (d : Nat) (name : Nat → UInt8)
    (type major minor i : Nat) (N' : Nat → Option Node) : Prop :=
  ∃ dnd, N d = some dnd ∧ dnd.type = T_DIR ∧ Slots.lookup (dirSlots dnd.data) (nameKey name) = none ∧
    1 ≤ i ∧ N i = none ∧ N' = dropRef (i :: I) (update
      (update N i (some (newNode type major minor i d))) d (some (dnd.withNew name i type))) d

/-- The locks on the directory and the new inode. -/
def bothLocked (dp ip : Nat) : Nat → Bool :=
  update (update (fun _ => false) dp true) ip true

/-- Between `ialloc` and the end of `create`: `ip` is the new inode in directory `dp`. -/
structure Making (sb : Superblock) (L : List Nat) (s : St) (dp ip : Nat) : Prop where
  ok : FsOk sb (ip :: dp :: L) s
  out : 1 ≤ s.outstanding
  ne : ip ≠ dp
  loadedNew : Loaded s ip
  loadedDir : Loaded s dp
  locks : s.locks = bothLocked dp ip

theorem Making.mem_ip (_ : Making sb L s dp ip) : ip ∈ ip :: dp :: L := List.mem_cons_self

theorem Making.mem_dp (_ : Making sb L s dp ip) : dp ∈ ip :: dp :: L :=
  List.mem_cons_of_mem _ List.mem_cons_self

theorem Making.inum_ne (k : Making sb L s dp ip) : (s.itable ip).inum ≠ (s.itable dp).inum :=
  fun he => k.ne (k.ok.eq_of_inum k.mem_ip k.mem_dp he)

theorem Making.next (k : Making sb L s dp ip) (h : FsOk sb (ip :: dp :: L) s')
    (hk : Keeps (ip :: dp :: L) s s') (hl : s'.locks = s.locks) : Making sb L s' dp ip :=
  ⟨h, by rw [hk.outstanding]; exact k.out, k.ne, h.loaded k.mem_ip (hk.valid ip k.mem_ip k.loadedNew.valid),
    h.loaded k.mem_dp (hk.valid dp k.mem_dp k.loadedDir.valid), hl.trans k.locks⟩

/-! ## The exit `fail` -/

theorem createFail_ok (w : sb.Wf) (m : MayStop E) (k : Making sb L s dp ip)
    (hnd : s.node sb (s.itable ip).inum = some nd) (hnew : (s.itable ip).inum ∉ s.inums (dp :: L))
    (hheld : ∀ j x, s.node sb j = some x → x.nlink = 0 → j ≠ (s.itable ip).inum → j ∈ s.inums L) :
    wp E (createFail sb dp ip) s fun r s' => r = none ∧ FsOk sb L s' ∧ Keeps L s s' ∧
      s'.locks = (fun _ => false) ∧ s'.node sb = update (s.node sb) (s.itable ip).inum none := by
  have hsub' : ∀ j ∈ L, j ∈ dp :: L := fun j hj => List.mem_cons_of_mem _ hj
  refine wp_bind.mpr (wp_getInode.mpr (wp_bind.mpr (wp_setInode.mpr ?_)))
  refine wp.bind (setNlink_ok w m k.ok k.mem_ip k.loadedNew k.out hnd (Nat.two_pow_pos 16)) ?_
  rintro _ s₁ ⟨h₁, k₁, lo₁, hl₁, hn₁⟩
  have m₁ := k.next h₁ k₁ hl₁
  have hnum₁ := k₁.inum ip k.mem_ip
  have hlk₁ : s₁.locks ip = true := by rw [m₁.locks, bothLocked, update_self]
  refine wp.bind (iunlockput_drop w m h₁ m₁.out hlk₁ lo₁.valid) ?_
  rintro _ s₂ ⟨h₂, k₂, hl₂, hn₂⟩
  have k₀₂ := k₁.tail.trans k₂
  -- the inode is freed
  have hfree : s₂.node sb = update (s.node sb) (s.itable ip).inum none := by
    rw [hn₂, k₁.tail.inums, hnum₁, hn₁]
    refine (if_pos ⟨hnew, ?_⟩).trans (update_idem _ _ _)
    rw [update_self]
    rfl
  have hheld₂ : Held sb L s₂ := by
    intro j x hx h0
    have hj : j ≠ (s.itable ip).inum := by
      rintro rfl
      rw [hfree, update_self] at hx
      cases hx
    rw [hfree, update_of_ne hj] at hx
    obtain ⟨i, hi, hij⟩ := List.mem_map.mp (hheld j x hx h0 hj)
    exact ⟨i, hi, (k₀₂.inum i (hsub' i hi)).trans hij⟩
  have hlk₂ : s₂.locks = update (fun _ => false) dp true := by
    rw [hl₂, m₁.locks, bothLocked, relock]
    exact update_of_ne k.ne _ _
  refine wp.bind (iunlockput_quiet w h₂ hheld₂ (by rw [hlk₂, update_self])) ?_
  rintro _ s₃ ⟨h₃, q₃, hl₃⟩
  refine ⟨rfl, h₃, k₀₂.tail.trans q₃.toKeeps, ?_, q₃.node.trans hfree⟩
  rw [hl₃, hlk₂, relock rfl]

/-! ## The entries of the new inode -/

theorem createDots_ok (w : sb.Wf) (m : MayStop E) (k : Making sb L s dp ip)
    (hnd : s.node sb (s.itable ip).inum = some nd) (hdir : nd.type = T_DIR)
    (hd : direntSize ∣ nd.data.length) :
    wp E (createDots sb dp ip) s fun r s' => Making sb L s' dp ip ∧ Keeps (ip :: dp :: L) s s' ∧
      ∃ data, s'.node sb = update (s.node sb) (s.itable ip).inum (some { nd with data := data }) ∧
        (r = true → data = addEntry (addEntry nd.data (cstr dot) (s.itable ip).inum) (cstr dotdot)
          (s.itable dp).inum) := by
  refine wp_bind.mpr (wp_getInode.mpr ?_)
  refine wp.bind (dirlink_ok w k.ok k.mem_ip k.loadedNew k.out (fun _ => m.tooBig) (fun _ => m.noInodes)
    hnd hdir hd (cstr dot) (s.itable ip).inum) ?_
  rintro ok s₁ ⟨h₁, k₁, lo₁, hl₁, hres⟩
  have m₁ := k.next h₁ k₁ hl₁
  have hsame : s₁.node sb = s.node sb → ∃ data, s₁.node sb = update (s.node sb)
      (s.itable ip).inum (some { nd with data := data }) ∧ (false = true → data =
        addEntry (addEntry nd.data (cstr dot) (s.itable ip).inum) (cstr dotdot) (s.itable dp).inum) := by
    intro hn
    refine ⟨nd.data, ?_, nofun⟩
    rw [hn]
    exact ((congrArg _ hnd.symm).trans (update_eq_self _ _)).symm
  rcases hres with ⟨rfl, -, q₁⟩ | ⟨rfl, -, -, hn₁⟩ | ⟨rfl, -, hn₁⟩
  · exact ⟨m₁, k₁, hsame q₁.node⟩
  · exact ⟨m₁, k₁, hsame hn₁⟩
  · have hnum₁ := k₁.inum ip k.mem_ip
    have hnd₁ := (congrFun hn₁ (s.itable ip).inum).trans (update_self _ _ _)
    rw [← hnum₁] at hnd₁
    refine wp_ite.mpr ⟨fun _ => wp_bind.mpr (wp_getInode.mpr ?_), fun hno => absurd rfl hno⟩
    refine (dirlink_ok w h₁ k.mem_ip lo₁ m₁.out (fun _ => m.tooBig) (fun _ => m.noInodes) hnd₁ hdir
      (dvd_addEntry hd _ _) (cstr dotdot) (s₁.itable dp).inum).mono ?_
    rintro ok s₂ ⟨h₂, k₂, -, hl₂, hres⟩
    refine ⟨m₁.next h₂ k₂ hl₂, k₁.trans k₂, ?_⟩
    rcases hres with ⟨rfl, -, q₂⟩ | ⟨rfl, -, -, hn₂⟩ | ⟨rfl, -, hn₂⟩
    · exact ⟨_, by rw [q₂.node, hn₁], nofun⟩
    · exact ⟨_, by rw [hn₂, hn₁], nofun⟩
    · refine ⟨_, ?_, fun _ => rfl⟩
      rw [hn₂, hn₁, hnum₁, update_idem, k₁.inum dp k.mem_dp]

/-! ## `create` -/

/-- What `create` has done when it has made no inode. -/
def NotMade (sb : Superblock) (L : List Nat) (s s' : St) : Prop :=
  FsOk sb L s' ∧ Keeps L s s' ∧ s'.locks = (fun _ => false) ∧ s'.node sb = s.node sb

/-- The new inode is in the hands of the caller, which has locked it. -/
structure Made (sb : Superblock) (L : List Nat) (s s' : St) (ip : Nat) : Prop extends Keeps L s s' where
  ok : FsOk sb (ip :: L) s'
  loaded : Loaded s' ip
  locks : s'.locks = update (fun _ => false) ip true

/-- `create` fails from a state inside it; `s₀` is the one before it. -/
theorem createFail_notMade (w : sb.Wf) (m : MayStop E) {s₀ : St} (k : Making sb L s dp ip)
    (hk : Keeps (dp :: L) s₀ s) (ho : Held sb L s₀) (hlive : ∀ j ∈ dp :: L, s₀.node sb (s₀.itable j).inum ≠ none)
    (hfree : s₀.node sb (s.itable ip).inum = none)
    (hnode : s.node sb = update (s₀.node sb) (s.itable ip).inum (some nd)) :
    wp E (createFail sb dp ip) s fun r s' => r = none ∧ NotMade sb L s₀ s' := by
  have hnd : s.node sb (s.itable ip).inum = some nd := by rw [hnode, update_self]
  have hnew : (s.itable ip).inum ∉ s.inums (dp :: L) := by
    rw [hk.inums]
    intro hi
    obtain ⟨j, hj, hji⟩ := List.mem_map.mp hi
    exact hlive j hj (by rw [hji]; exact hfree)
  refine (createFail_ok w m k hnd hnew fun j x hx h0 hj => ?_).mono ?_
  · rw [hnode, update_of_ne hj] at hx
    rw [hk.tail.inums]
    exact ho.mem_inums hx h0
  · rintro r s' ⟨rfl, h', k', hl', hn'⟩
    refine ⟨rfl, h', hk.tail.trans k', hl', ?_⟩
    rw [hn', hnode, update_idem, ← hfree, update_eq_self]

theorem createEntry_ok (w : sb.Wf) (m : MayStop E) {s₀ : St} (k : Making sb L s dp ip)
    (hk : Keeps (dp :: L) s₀ s) (a : AtDir sb L s₀ dp dnd)
    (hlive : ∀ j ∈ dp :: L, s₀.node sb (s₀.itable j).inum ≠ none)
    (hfree : s₀.node sb (s.itable ip).inum = none)
    (hnode : s.node sb = update (s₀.node sb) (s.itable ip).inum (some nd)) (name : Nat → UInt8)
    (type : Nat) :
    wp E (createEntry sb dp ip name type) s fun r s' => (r = none ∧ NotMade sb L s₀ s' ∧
        ¬ (Slots.lookup (dirSlots dnd.data) (nameKey name) = none ∧ Fits sb s (s₀.itable dp).inum dnd)) ∨
      (r = some ip ∧ Made sb L s₀ s' ip ∧ (s'.itable ip).inum = (s.itable ip).inum ∧
        Slots.lookup (dirSlots dnd.data) (nameKey name) = none ∧ Fits sb s (s₀.itable dp).inum dnd ∧
        s'.node sb = dropRef ((s.itable ip).inum :: s₀.inums L) (update (s.node sb)
          (s₀.itable dp).inum (some (dnd.withNew name (s.itable ip).inum type))) (s₀.itable dp).inum) := by
  have hsub : ∀ j ∈ dp :: L, j ∈ ip :: dp :: L := fun j hj => List.mem_cons_of_mem _ hj
  have hsub' : ∀ j ∈ L, j ∈ dp :: L := fun j hj => List.mem_cons_of_mem _ hj
  have hdnum : (s.itable dp).inum = (s₀.itable dp).inum := hk.inum dp List.mem_cons_self
  have hdne : (s₀.itable dp).inum ≠ (s.itable ip).inum := by
    rw [← hdnum]
    exact k.inum_ne.symm
  have hdnd : s.node sb (s.itable dp).inum = some dnd := by
    rw [hnode, hdnum, update_of_ne hdne]
    exact a.node
  have hfail : ∀ {t : St}, Making sb L t dp ip → Keeps (ip :: dp :: L) s t → t.node sb = s.node sb →
      wp E (createFail sb dp ip) t fun r s' => r = none ∧ NotMade sb L s₀ s' := by
    intro t kt hkt hn
    have hnum := hkt.inum ip k.mem_ip
    have hfree' : s₀.node sb (t.itable ip).inum = none := by
      rw [hnum]
      exact hfree
    rw [← hnum, ← hn] at hnode
    exact createFail_notMade w m kt (hk.trans hkt.tail) a.held hlive hfree' hnode
  refine wp_bind.mpr (wp_getInode.mpr ?_)
  refine wp.bind ((dirlink_ok w k.ok k.mem_dp k.loadedDir k.out (fun _ => m.tooBig) (fun _ => m.noInodes)
    hdnd a.dir a.dvd name (s.itable ip).inum).and (dirlink_fits w k.ok k.mem_dp k.loadedDir k.out hdnd a.dir
      a.dvd name (s.itable ip).inum)) ?_
  rintro ok s₁ ⟨⟨h₁, k₁, lo₁, hl₁, hres⟩, hfits⟩
  rw [hdnum] at hfits
  have m₁ := k.next h₁ k₁ hl₁
  rcases hres with ⟨rfl, -, q₁⟩ | ⟨rfl, -, -, hn₁⟩ | ⟨rfl, hnone, hn₁⟩
  · exact (hfail m₁ k₁ q₁.node).mono fun r s' h => .inl ⟨h.1, h.2, fun hf => nomatch hfits.mpr hf⟩
  · exact (hfail m₁ k₁ hn₁).mono fun r s' h => .inl ⟨h.1, h.2, fun hf => nomatch hfits.mpr hf⟩
  have hdnum₁ := k₁.inum dp k.mem_dp
  have hcount : wp E (if type = T_DIR then (do
        let d ← getInode dp
        setInode dp d.addLink
        iupdate sb dp) else pure ()) s₁ fun _ s' => Making sb L s' dp ip ∧ Keeps (ip :: dp :: L) s₁ s' ∧
      s'.node sb = update (s.node sb) (s₀.itable dp).inum
        (some (dnd.withNew name (s.itable ip).inum type)) := by
    refine wp_ite.mpr ⟨fun hdir => ?_, fun hdir => ?_⟩
    · have hdnd₁ := (congrFun hn₁ (s.itable dp).inum).trans (update_self _ _ _)
      rw [← hdnum₁] at hdnd₁
      have fd := lo₁.fields h₁ hdnd₁
      refine wp_bind.mpr (wp_getInode.mpr (wp_bind.mpr (wp_setInode.mpr ?_)))
      refine (setNlink_ok w m h₁ k.mem_dp lo₁ m₁.out hdnd₁ (Nat.mod_lt _ (Nat.two_pow_pos 16))).mono ?_
      rintro _ s' ⟨h', k', -, hl', hn'⟩
      refine ⟨m₁.next h' k' hl', k', ?_⟩
      rw [hn', hn₁, hdnum₁, hdnum, update_idem, fd.nlink, Node.withNew, if_pos hdir]
      rfl
    · refine ⟨m₁, Keeps.refl, ?_⟩
      rw [hn₁, hdnum, Node.withNew, if_neg hdir]
  refine wp_ite.mpr ⟨fun _ => wp.bind hcount ?_, fun hno => absurd rfl hno⟩
  rintro _ s₂ ⟨m₂, k₂, hn₂⟩
  have k₀₂ := k₁.trans k₂
  have hlk₂ : s₂.locks dp = true := by
    rw [m₂.locks, bothLocked, update_of_ne k.ne.symm, update_self]
  refine wp.bind (iunlockput_drop w m (m₂.ok.perm (List.Perm.swap _ _ _)) m₂.out hlk₂ m₂.loadedDir.valid) ?_
  rintro _ s' ⟨h', k', hl', hn'⟩
  have hip : ip ∈ ip :: L := List.mem_cons_self
  have hsub'' : ∀ j ∈ ip :: L, j ∈ ip :: dp :: L := fun j hj =>
    (List.mem_cons.mp hj).elim (fun e => e ▸ k.mem_ip) fun hj => hsub j (hsub' j hj)
  have hkeep := (k₀₂.mono hsub'').trans k'
  have hLip : ∀ j ∈ L, j ∈ ip :: L := fun j hj => List.mem_cons_of_mem _ hj
  refine .inr ⟨rfl, ⟨hk.tail.trans (hkeep.mono hLip), h',
    h'.loaded hip (hkeep.valid ip hip k.loadedNew.valid), ?_⟩, hkeep.inum ip hip, hnone, (hfits.mp rfl).2, ?_⟩
  · rw [hl', m₂.locks, bothLocked, update_comm k.ne.symm, relock]
    exact update_of_ne k.ne.symm _ _
  · have hI : s₂.inums (ip :: L) = (s.itable ip).inum :: s₀.inums L := by
      rw [(k₀₂.mono hsub'').inums, ← hk.tail.inums]
      rfl
    rw [hn', hI, k₀₂.inum dp k.mem_dp, hdnum, hn₂]

/-- There is a free inode, and room in directory `d` for an entry with the new name `key`. -/
def CanCreate (sb : Superblock) (s : St) (d : Nat) (key : List UInt8) : Prop :=
  ∃ dnd, s.node sb d = some dnd ∧ dnd.type = T_DIR ∧ Slots.lookup (dirSlots dnd.data) key = none ∧
    (∃ i, 1 ≤ i ∧ i < sb.ninodes ∧ s.node sb i = none) ∧ Fits sb s d dnd

theorem canCreate_of_eq (hcur : s'.cur sb = s.cur sb) (hblk : s'.blk = s.blk) (d : Nat) (key : List UInt8) :
    CanCreate sb s' d key ↔ CanCreate sb s d key := by
  have hn : s'.node sb = s.node sb := by
    funext i
    unfold St.node
    rw [hcur, hblk]
  unfold CanCreate
  simp only [hn, fits_of_eq hcur hblk]

variable {type major minor : Nat}

theorem createIn_ok (w : sb.Wf) (m : MayStop E) (a : AtDir sb L s dp dnd)
    (hlive : ∀ j ∈ dp :: L, s.node sb (s.itable j).inum ≠ none) (name : Nat → UInt8)
    (ht : type ≠ 0) (htlt : type < 2 ^ 16) (hmaj : major < 2 ^ 16) (hmin : minor < 2 ^ 16) :
    wp E (createIn sb dp name type major minor) s fun r s' =>
      (r = none ∧ NotMade sb L s s' ∧
        (type ≠ T_DIR → ¬ CanCreate sb s (s.itable dp).inum (nameKey name))) ∨
      ∃ ip, r = some ip ∧ Made sb L s s' ip ∧ Creates (s.inums L) (s.node sb) (s.itable dp).inum name
        type major minor (s'.itable ip).inum (s'.node sb) ∧
        (type ≠ T_DIR → CanCreate sb s (s.itable dp).inum (nameKey name)) := by
  have hdp : dp ∈ dp :: L := List.mem_cons_self
  refine wp.bind (ialloc_ok w a.ok a.out m.tooBig (fun _ => m.noInodes) ht htlt) ?_
  rintro r s₁ (⟨rfl, rfl, hall⟩ | ⟨ip, i, rfl, hi1, hfree, h₁, k₁, hl₁, hnum₁, hn₁, oi₁⟩)
  · refine wp.bind (a.iunlockput_ok w) ?_
    rintro _ s' ⟨h', q, hl⟩
    refine .inl ⟨rfl, ⟨h', q.toKeeps, hl, q.node⟩, fun _ hc => ?_⟩
    obtain ⟨-, -, -, -, ⟨i, h1, h2, hi⟩, -⟩ := hc
    exact hall i h1 h2 hi
  have hip : ip ∈ ip :: dp :: L := List.mem_cons_self
  have hsub : ∀ j ∈ dp :: L, j ∈ ip :: dp :: L := fun j hj => List.mem_cons_of_mem _ hj
  have hne : ip ≠ dp := by
    rintro rfl
    rw [← hnum₁, k₁.inum ip hdp, a.node] at hfree
    cases hfree
  have hnode₁ : s₁.node sb (s₁.itable ip).inum = some { type := type } := by
    rw [hn₁, hnum₁, update_self]
  refine wp.bind (ilock_ok h₁ hip (lt_ninodes_of_node hnode₁) (fun _ => m.deadlock) fun _ => m.noType) ?_
  rintro _ s₂ ⟨h₂, q₂, lo₂, hl₂⟩
  have k₀₂ := k₁.trans q₂.toKeeps.tail
  have hnum₂ : (s₂.itable ip).inum = i := (q₂.inum ip hip).trans hnum₁
  have hnode₂ : s₂.node sb (s₂.itable ip).inum = some { type := type } := by
    rw [q₂.node, hnum₂, hn₁, update_self]
  have hout₂ := k₀₂.out a.out
  refine wp_bind.mpr (wp_getInode.mpr (wp_bind.mpr (wp_setInode.mpr ?_)))
  refine wp.bind (iupdate_ok w h₂ hip lo₂ hout₂ m.tooBig hnode₂ hmaj hmin (by decide : 1 < 2 ^ 16) rfl) ?_
  rintro _ s₃ ⟨h₃, k₃, lo₃, hl₃, hn₃, oi₃⟩
  have k₀₃ := k₀₂.trans k₃.tail
  have hnum₃ : (s₃.itable ip).inum = i := (k₃.inum ip hip).trans hnum₂
  have hdnum₃ : (s₃.itable dp).inum = (s.itable dp).inum := k₀₃.inum dp hdp
  have hlk₃ : s₃.locks = bothLocked dp ip := by rw [hl₃, hl₂, hl₁, a.locks, bothLocked]
  have mk₃ : Making sb L s₃ dp ip := ⟨h₃, by rw [k₀₃.outstanding]; exact a.out, hne, lo₃,
    h₃.loaded (hsub dp hdp) (k₀₃.valid dp hdp a.loaded.valid), hlk₃⟩
  have hN₃ : s₃.node sb = update (s.node sb) i
      (some { type := type, major := major, minor := minor, nlink := 1 }) := by
    rw [hn₃, q₂.node, hn₁, hnum₂, update_idem]
  have oi₀₃ : OnlyInode sb i s s₃ := by
    rw [hnum₂] at oi₃
    exact (oi₁.trans (q₂.onlyInode i)).trans oi₃
  have hdi : (s.itable dp).inum ≠ i := by
    intro he
    rw [← he, a.node] at hfree
    cases hfree
  have hfits₃ : Fits sb s₃ (s.itable dp).inum dnd ↔ Fits sb s (s.itable dp).inum dnd :=
    Fits.congr a.ok.good.inv.own (node_eq_some.mp a.node).1 oi₀₃ hdi w
  have hcan : CanCreate sb s (s.itable dp).inum (nameKey name) ↔
      Slots.lookup (dirSlots dnd.data) (nameKey name) = none ∧ Fits sb s (s.itable dp).inum dnd := by
    refine ⟨fun ⟨dnd', hd', _, hl, _, hf⟩ => ?_, fun ⟨hl, hf⟩ => ⟨dnd, a.node, a.dir, hl,
      ⟨i, hi1, by rw [← hnum₁]; exact lt_ninodes_of_node hnode₁, hfree⟩, hf⟩⟩
    rw [a.node] at hd'
    cases hd'
    exact ⟨hl, hf⟩
  -- the entries `.` and `..`
  have hdots : wp E (if type = T_DIR then createDots sb dp ip else pure true) s₃ fun r s' =>
      Making sb L s' dp ip ∧ Keeps (ip :: dp :: L) s₃ s' ∧ (type ≠ T_DIR → r = true ∧ s' = s₃) ∧
      ∃ nd, s'.node sb = update (s.node sb) i (some nd) ∧
        (r = true → nd = newNode type major minor i (s.itable dp).inum) := by
    refine wp_ite.mpr ⟨fun hdir => ?_, fun hdir => ⟨mk₃, Keeps.refl, fun _ => ⟨rfl, rfl⟩, _, hN₃,
      fun _ => ?_⟩⟩
    · have hnd₃ : s₃.node sb (s₃.itable ip).inum =
          some { type := type, major := major, minor := minor, nlink := 1 } := by
        rw [hN₃, hnum₃, update_self]
      refine (createDots_ok w m mk₃ hnd₃ hdir (Nat.dvd_zero _)).mono ?_
      rintro r s' ⟨mk', k', data, hn', hdata⟩
      rw [hN₃, hnum₃, update_idem] at hn'
      refine ⟨mk', k', fun hno => absurd hdir hno, _, hn', fun hr => ?_⟩
      rw [hdata hr, hnum₃, hdnum₃, newNode, if_pos hdir]
    · rw [newNode, if_neg hdir]
  refine wp.bind hdots ?_
  rintro ok s₄ ⟨mk₄, k₄, hsame, nd, hN₄, hnd⟩
  have k₀₄ := k₀₃.trans k₄.tail
  have hnum₄ : (s₄.itable ip).inum = i := (k₄.inum ip hip).trans hnum₃
  have hfree₄ : s.node sb (s₄.itable ip).inum = none := by
    rw [hnum₄]
    exact hfree
  rw [← hnum₄] at hN₄
  refine wp_ite.mpr ⟨fun hok => ?_, fun _ => ?_⟩
  · refine (createEntry_ok w m mk₄ k₀₄ a hlive hfree₄ hN₄ name type).mono ?_
    rintro r s' (⟨hr, hno, hnot⟩ | ⟨rfl, made, hnum', hnone, hfits, hn'⟩)
    · refine .inl ⟨hr, hno, fun hdir hc => hnot ?_⟩
      rw [(hsame hdir).2, hfits₃]
      exact hcan.mp hc
    · refine .inr ⟨ip, rfl, made, ⟨dnd, a.node, a.dir, hnone, ?_, ?_, ?_⟩, fun hdir => hcan.mpr ⟨hnone, ?_⟩⟩
      · rw [hnum', hnum₄]
        exact hi1
      · rw [hnum']
        exact hfree₄
      · rw [hn', hnum', hN₄, hnd hok, hnum₄]
      · rw [(hsame hdir).2, hfits₃] at hfits
        exact hfits
  · exact (createFail_notMade w m mk₄ k₀₄ a.held hlive hfree₄ hN₄).mono fun r s' h =>
      .inl ⟨h.1, h.2, fun hdir => absurd (hsame hdir).1 ‹_›⟩

/-- What `create` was asked for is there: the name of a file or device, whose inode is `i`. -/
def Exists (N : Nat → Option Node) (d : Nat) (key : List UInt8) (i : Nat) : Prop :=
  ∃ dnd j nd, N d = some dnd ∧ dnd.type = T_DIR ∧ Slots.lookup (dirSlots dnd.data) key = some (i, j) ∧
    N i = some nd ∧ (nd.type = T_FILE ∨ nd.type = T_DEVICE)

theorem create_ok (w : sb.Wf) (m : MayStop E) (o : SysOk sb L s) (hout : 1 ≤ s.outstanding) {cwd : Nat}
    (hcwd : cwd ∈ L) {path : List UInt8} (hz : ∀ b ∈ path, b ≠ 0) (name : Nat → UInt8) (ht : type ≠ 0)
    (htlt : type < 2 ^ 16) (hmaj : major < 2 ^ 16) (hmin : minor < 2 ^ 16) :
    wp E (create sb cwd path type major minor name) s fun r s' =>
      (r = none ∧ NotMade sb L s s' ∧ (type ≠ T_DIR → ∀ d key,
        parentOf (s.node sb) (s.startOf cwd path) (components path) = some (d, key) →
        ¬ CanCreate sb s d key)) ∨
      ∃ ip d name', r = some ip ∧ Made sb L s s' ip ∧
        parentOf (s.node sb) (s.startOf cwd path) (components path) = some (d, nameKey name') ∧
        ((type = T_FILE ∧ s'.node sb = s.node sb ∧ Exists (s.node sb) d (nameKey name') (s'.itable ip).inum) ∨
          (Creates (s.inums L) (s.node sb) d name' type major minor (s'.itable ip).inum (s'.node sb) ∧
            (type ≠ T_DIR → CanCreate sb s d (nameKey name')))) := by
  refine wp.bind (lockParent_ok w m o hout hcwd hz name) ?_
  rintro ⟨r, name'⟩ s₁ (⟨rfl, hnone, h₁, q₁, hl₁⟩ | ⟨dp, rfl, hlock⟩)
  · refine .inl ⟨rfl, ⟨h₁, q₁.toKeeps, funext hl₁, q₁.node⟩, fun _ d key hp => ?_⟩
    rw [hnone] at hp
    cases hp
  refine wp.bind hlock ?_
  rintro _ s₂ ⟨dnd, a, q, hpar⟩
  have hdp : dp ∈ dp :: L := List.mem_cons_self
  refine wp.bind (dirlookup_ok a.ok a.loaded a.node a.dir a.dvd (fun _ => m.noInodes) name') ?_
  rintro r s₃ (⟨-, rfl, rfl⟩ | ⟨i, j, ip, hlook, rfl, h₃, q₃, hnum, hl₃⟩)
  · -- the name is new
    have hlive : ∀ j ∈ dp :: L, s₃.node sb (s₃.itable j).inum ≠ none := by
      intro j hj
      rcases List.mem_cons.mp hj with rfl | hj
      · rw [a.node]
        exact nofun
      · rw [q.node, q.inum j hj]
        exact o.live j hj
    refine (createIn_ok w m a hlive name' ht htlt hmaj hmin).mono ?_
    simp only [canCreate_of_eq q.calm.cur q.calm.blk]
    rintro r s' (⟨rfl, ⟨h', k', hl', hn'⟩, hnot⟩ | ⟨ip, rfl, made, hc, hcan⟩)
    · refine .inl ⟨rfl, ⟨h', q.toKeeps.trans k', hl', hn'.trans q.node⟩, fun hdir d key hp => ?_⟩
      rw [hpar] at hp
      cases hp
      exact hnot hdir
    · rw [q.toKeeps.inums, q.node] at hc
      exact .inr ⟨ip, _, name', rfl, ⟨q.toKeeps.trans made.toKeeps, made.ok, made.loaded, made.locks⟩,
        hpar, .inr ⟨hc, hcan⟩⟩
  · -- the name is there
    have hmem : ip ∈ ip :: L := List.mem_cons_self
    have q₀₃ := q.trans q₃.tail
    have ho₃ : Held sb (ip :: L) s₃ := (o.ok.noOrphan.quiet q₀₃).cons ip
    have hlk₃ : s₃.locks dp = true := by rw [hl₃, a.locks, update_self]
    refine wp.bind (iunlockput_quiet w (h₃.perm (List.Perm.swap _ _ _)) ho₃ hlk₃) ?_
    rintro _ s₄ ⟨h₄, q₄, hl₄⟩
    have q₀₄ := q₀₃.trans q₄.tail
    have hunl₄ : s₄.locks = fun _ => false := by rw [hl₄, hl₃, a.unlock]
    have hnum₄ : (s₄.itable ip).inum = i := (q₄.inum ip hmem).trans hnum
    have hlt : (s₄.itable ip).inum < sb.ninodes := by
      rw [hnum₄]
      exact (a.dirs _ dnd a.node a.dir).lookup_lt hlook
    refine wp.bind (ilock_ok h₄ hmem hlt (fun _ => m.deadlock) fun _ => m.noType) ?_
    rintro _ s₅ ⟨h₅, q₅, lo₅, hl₅⟩
    have q₀₅ := q₀₄.trans q₅.tail
    have hnum₅ : (s₅.itable ip).inum = i := (q₅.inum ip hmem).trans hnum₄
    have hnd := lo₅.node h₅.good.inv.table
    generalize hndv : (Node.mk _ _ _ _ _ : Node) = nd at hnd
    have f := lo₅.fields h₅ hnd
    have hlk₅ : s₅.locks = update (fun _ => false) ip true := by rw [hl₅, hunl₄]
    refine wp_bind.mpr (wp_getInode.mpr (wp_ite.mpr ⟨fun hfile => ?_, fun _ => ?_⟩))
    · rw [f.type] at hfile
      refine .inr ⟨ip, _, name', rfl, ⟨q₀₅.toKeeps, h₅, lo₅, hlk₅⟩, hpar, .inl ⟨hfile.1, q₀₅.node, ?_⟩⟩
      refine ⟨dnd, j, nd, ?_, a.dir, ?_, ?_, hfile.2⟩
      · rw [← q.node]
        exact a.node
      · rw [hnum₅]
        exact hlook
      · rw [← q₀₅.node]
        exact hnd
    · have ho₅ : Held sb L s₅ := o.ok.noOrphan.quiet q₀₅
      refine wp.bind (iunlockput_quiet w h₅ ho₅ (by rw [hlk₅, update_self])) ?_
      rintro _ s' ⟨h', q', hl'⟩
      have q₀ := q₀₅.trans q'
      refine .inl ⟨rfl, ⟨h', q₀.toKeeps, ?_, q₀.node⟩, fun _ d key hp => ?_⟩
      · rw [hl', hlk₅, relock rfl]
      · rw [hpar] at hp
        cases hp
        rintro ⟨dnd', hd', -, hl, -⟩
        rw [← q.node, a.node] at hd'
        cases hd'
        rw [hlook] at hl
        cases hl

/-! ## `sys_mkdir` and `sys_mknod` -/

/-- The new node is as it was made. -/
theorem Creates.new {I : List Nat} {N N' : Nat → Option Node} {d i : Nat} {name : Nat → UInt8}
    (hc : Creates I N d name type major minor i N') : N' i = some (newNode type major minor i d) := by
  obtain ⟨dnd, hdnd, -, -, -, hfree, rfl⟩ := hc
  have hne : i ≠ d := by
    rintro rfl
    rw [hfree] at hdnd
    cases hdnd
  rw [dropRef_of_ne hne, update_of_ne hne, update_self]

theorem createNode_ok (w : sb.Wf) (m : MayStop E) (o : SysOk sb L s) {cwd : Nat} (hcwd : cwd ∈ L)
    {path : Option (List UInt8)} (hpath : ∀ p, path = some p → ∀ b ∈ p, b ≠ 0) (name : Nat → UInt8) (ht : type ≠ 0)
    (htlt : type < 2 ^ 16) (hfile : type ≠ T_FILE) (hmaj : major < 2 ^ 16) (hmin : minor < 2 ^ 16) :
    wp E (createNode sb cwd path type major minor name) s fun r s' => Called sb L s s' ∧
      ((r = -1 ∧ s'.node sb = s.node sb) ∨
        (r = 0 ∧ ∃ p d name' i, path = some p ∧
          parentOf (s.node sb) (s.startOf cwd p) (components p) = some (d, nameKey name') ∧
          Creates (s.inums L) (s.node sb) d name' type major minor i (s'.node sb))) := by
  refine wp_transaction (R := fun r N' => (r = -1 ∧ N' = s.node sb) ∨ (r = 0 ∧ ∃ p d name' i,
    path = some p ∧ parentOf (s.node sb) (s.startOf cwd p) (components p) = some (d, nameKey name') ∧
    Creates (s.inums L) (s.node sb) d name' type major minor i N')) o fun s₁ o₁ hout l => ?_
  have hN₁ := l.node
  have hI := l.inums L
  cases path with
  | none =>
    refine wp.bind (endOp_ended o₁.ok Keeps.refl hout o₁.unlocked) ?_
    rintro _ s' ⟨e, hn⟩
    exact ⟨e, .inl ⟨rfl, hn.trans hN₁⟩⟩
  | some p =>
  have hstart := l.startOf cwd p
  refine wp.bind (create_ok w m o₁ hout hcwd (hpath p rfl) name ht htlt hmaj hmin) ?_
  rintro r s₂ (⟨rfl, ⟨h₂, k₂, hl₂, hn₂⟩, -⟩ | ⟨ip, d, name', rfl, made, hpar, hres⟩)
  · refine wp.bind (endOp_ended h₂ k₂ hout (congrFun hl₂)) ?_
    rintro _ s' ⟨e, hn⟩
    exact ⟨e, .inl ⟨rfl, hn.trans (hn₂.trans hN₁)⟩⟩
  rcases hres with ⟨hf, -⟩ | ⟨hc, -⟩
  · exact absurd hf hfile
  rw [hI, hN₁] at hc
  rw [hN₁, hstart] at hpar
  have hout₂ := made.out hout
  have hlk₂ : s₂.locks ip = true := by rw [made.locks, update_self]
  refine wp.bind (iunlockput_drop w m made.ok hout₂ hlk₂ made.loaded.valid) ?_
  rintro _ s₃ ⟨h₃, k₃, hl₃, hn₃⟩
  have hsame : s₃.node sb = s₂.node sb := by
    rw [hn₃]
    refine dropRef_of_held fun x hx h0 => ?_
    rw [hc.new] at hx
    cases hx
    cases h0
  refine wp.bind (endOp_ended h₃ (made.toKeeps.trans k₃) hout fun k => ?_) ?_
  · rw [hl₃, made.locks, relock rfl]
  rintro _ s' ⟨e, hn⟩
  refine ⟨e, .inr ⟨rfl, p, d, name', (s₂.itable ip).inum, rfl, hpar, ?_⟩⟩
  rw [hn, hsame]
  exact hc

/-! ## Calls that fail -/

/-- The system calls that change the name space. -/
inductive NameCall where
  | link (old new : Option (List UInt8))
  | unlink (path : Option (List UInt8))
  | mkdir (path : Option (List UInt8))
  | mknod (path : Option (List UInt8)) (major minor : Int)

/-- The arguments that are paths. -/
def NameCall.paths : NameCall → List (Option (List UInt8))
  | link old new => [old, new]
  | unlink path => [path]
  | mkdir path => [path]
  | mknod path _ _ => [path]

/-- The call by a process in the directory `cwd`. -/
def NameCall.run (sb : Superblock) (cwd : Nat) (name : Nat → UInt8) : NameCall → FM Int
  | link old new => sysLink sb cwd old new name
  | unlink path => sysUnlink sb cwd path name
  | mkdir path => sysMkdir sb cwd path name
  | mknod path major minor => sysMknod sb cwd path major minor name

/-- The panics of these calls. -/
def callStops (e : Panic) : Prop :=
  e = .tooBigTransaction ∨ e = .igetNoInodes ∨ e = .ilockNoType ∨ e = .selfDeadlock ∨ e = .unlinkNlink

theorem mayStop_callStops : MayStop callStops :=
  ⟨.inl rfl, .inr (.inl rfl), .inr (.inr (.inl rfl)), .inr (.inr (.inr (.inl rfl)))⟩

theorem toNat_mod_lt (n : Int) : (n % 2 ^ 16).toNat < 2 ^ 16 := by omega

/-- A call returns 0 or -1. When it fails, every inode has the type, link count, size and contents that
it had before, or is free as it was before. -/
theorem failed_call_changes_nothing (w : sb.Wf) (o : SysOk sb L s) {cwd : Nat} (hcwd : cwd ∈ L)
    (c : NameCall) (hz : ∀ p, some p ∈ c.paths → ∀ b ∈ p, b ≠ 0) (name : Nat → UInt8) :
    wp callStops (c.run sb cwd name) s fun r s' => (r = 0 ∨ r = -1) ∧ Called sb L s s' ∧
      (r = -1 → s'.node sb = s.node sb) := by
  have m := mayStop_callStops
  have hdone : ∀ {r : Int} {s' : St} {P : Prop}, Called sb L s s' ∧ ((r = -1 ∧ s'.node sb = s.node sb) ∨
      (r = 0 ∧ P)) → (r = 0 ∨ r = -1) ∧ Called sb L s s' ∧ (r = -1 → s'.node sb = s.node sb) := by
    rintro r s' P ⟨hc, ⟨rfl, hn⟩ | ⟨rfl, -⟩⟩
    · exact ⟨.inr rfl, hc, fun _ => hn⟩
    · exact ⟨.inl rfl, hc, nofun⟩
  cases c with
  | link old new =>
    refine (sysLink_ok w m o hcwd (fun p hp => hz p ?_) (fun p hp => hz p ?_) name).mono fun r s' => hdone
    · exact hp ▸ List.mem_cons_self
    · exact hp ▸ List.mem_cons_of_mem _ List.mem_cons_self
  | unlink path =>
    exact (sysUnlink_ok w m o (fun _ => .inr (.inr (.inr (.inr rfl)))) hcwd
      (fun p hp => hz p (hp ▸ List.mem_cons_self)) name).mono fun r s' => hdone
  | mkdir path =>
    exact (createNode_ok w m o hcwd (fun p hp => hz p (hp ▸ List.mem_cons_self)) name (by decide) (by decide)
      (by decide) (by decide) (by decide)).mono fun r s' => hdone
  | mknod path major minor =>
    exact (createNode_ok w m o hcwd (fun p hp => hz p (hp ▸ List.mem_cons_self)) name (by decide) (by decide)
      (by decide) (toNat_mod_lt major) (toNat_mod_lt minor)).mono fun r s' => hdone

/-- The small disk without a free block. -/
def packed : Image := { sample with sb := { sample.sb with size := 7, nblocks := 3 } }

theorem packed_ok : packed.Ok := by
  refine ⟨⟨by constructor <;> decide, sample_ok.inode_wf, sample_ok.inode_end, fun b x h => ?_, sample_ok.owner,
    sample_ok.owned, sample_ok.noHole⟩, sample_ok.nlink⟩
  by_cases hb : 4 ≤ b ∧ b < 7
  · exact hb
  · rw [show packed.owner b = none from if_neg hb] at h
    cases h

theorem packed_node : packed.st.node packed.sb = sample.st.node sample.sb := by
  funext i
  rw [packed_ok.node, sample_ok.node]
  rfl

/-- `mkdir("x")` takes an inode and finds no block for the entry "."; it gives the inode back. -/
theorem failed_call_changes_nothing_sample : ∃ cwd s s', iget ROOTINO packed.st = .ok (cwd, s) ∧
    ((beginOp >>= fun _ => ialloc packed.sb T_DIR) packed.st).toOption.map (·.1.isSome) = some true ∧
    sysMkdir packed.sb cwd (some [120]) (fun _ => 0) s = .ok (-1, s') ∧
    s'.node packed.sb = s.node packed.sb := by
  obtain ⟨cwd, s, hrun, o, -, -⟩ := packed_ok.sysOk (packed_node ▸ sample_dirs)
    (by rw [packed_node, sample_node]; exact nofun)
  have hres : ((iget ROOTINO >>= fun cwd => sysMkdir packed.sb cwd (some [120]) fun _ => 0)
      packed.st).toOption.map Prod.fst = some (-1) := by decide +kernel
  obtain ⟨⟨r, s'⟩, hm, rfl⟩ := Option.map_eq_some_iff.mp hres
  obtain ⟨cwd', s₁, h₁, h₂⟩ := bind_ok (ok_of_toOption hm)
  rw [hrun] at h₁
  cases h₁
  have hz : ∀ p, some p ∈ (NameCall.mkdir (some [120])).paths → ∀ b ∈ p, b ≠ 0 := by
    intro p hp
    cases List.mem_singleton.mp hp
    exact ne_zero_of_all rfl
  have h := (failed_call_changes_nothing packed_ok.wf o List.mem_cons_self (.mkdir (some [120])) hz
    fun _ => 0).ok h₂
  exact ⟨cwd, s, s', hrun, by decide +kernel, h₂, h.2.2 rfl⟩

end Create

end Xv6.Fs
