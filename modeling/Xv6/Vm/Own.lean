import Xv6.Vm.Code

/-!
# Who owns a page

A ghost map `own` gives each physical page one owner. `MemInv` relates it to the memory: the free
list has the free pages, and each page table `r` in `T` is a tree of three levels whose leaves are
the map `T r` from virtual page numbers to entries (`PtOk`). The pages below `TRAPFRAME` that it maps
are its own (`UserOk`).

The lemmas of this module are the steps that the code takes on the memory: a page leaves or enters
the free list, a table page is linked in, a leaf is set. A table that a step does not name is not
touched by it (`PtOk.congr`, `UserOk.congr`).
-/

namespace Xv6

open Function (update update_of_ne update_self)

/-- The owner of a page. -/
inductive Owner where
  /-- No page that `kalloc` hands out. -/
  | outside
  | free
  /-- The kernel's own pages: its page table, the kernel stacks, the disk's rings. -/
  | kernel
  /-- A page that a function has from `kalloc` in a local variable. -/
  | held
  /-- The root of page table `r`. -/
  | root (r : Nat)
  /-- The table of level 1 at index `i` of the root. -/
  | mid (r i : Nat)
  /-- The table of level 0 at the indices `i` and `j`. -/
  | low (r i j : Nat)
  /-- Mapped by page table `r` at virtual page `v`. -/
  | user (r v : Nat)
  /-- The trapframe of process `p`. -/
  | trapframe (p : Nat)
  | pipe
  deriving DecidableEq

namespace Owner

/-- The page table that an owner belongs to. -/
def table : Owner → Option Nat
  | root r | mid r _ | low r _ _ | user r _ => some r
  | _ => none

/-- A page of a page table. -/
def isNode : Owner → Bool
  | root _ | mid _ _ | low _ _ _ => true
  | _ => false

end Owner

/-- The number of virtual pages below the trapframe. -/
abbrev NUSER : Nat := 2 ^ 26 - 2

/-! ## The pages of one table -/

section

variable {own own' own'' : Nat → Owner} {r : Nat}

/-- Table `r` has the same pages. -/
def SameTable (r : Nat) (own own' : Nat → Owner) : Prop :=
  ∀ q o, o.table = some r → (own' q = o ↔ own q = o)

/-- An update of a page does not matter for an owner that the page neither had nor gets. -/
theorem own_update_iff {q q' : Nat} {o o' : Owner} (hn : o ≠ o') (ho : own q ≠ o') :
    update own q o q' = o' ↔ own q' = o' := by
  by_cases e : q' = q
  · subst e
    rw [update_self]
    exact ⟨fun h => absurd h hn, fun h => absurd h ho⟩
  · rw [update_of_ne e]

/-- A page that is not of table `r` gets an owner that is not of table `r`. -/
theorem sameTable_update {q : Nat} {o : Owner} (h : (own q).table ≠ some r)
    (h' : o.table ≠ some r) : SameTable r own (update own q o) := by
  intro q' o' ho'
  refine own_update_iff ?_ ?_
  · rintro rfl; exact h' ho'
  · intro e; rw [e] at h; exact h ho'

end

section

variable {k : Kmem}

theorem setWord_mem_of_ne {pt i v q : Nat} (h : q ≠ pt) : (k.setWord pt i v).mem q = k.mem q :=
  update_of_ne h _ _

theorem setWord_mem_of_ne_index {pt i i' v : Nat} (h : i' ≠ i) : (k.setWord pt i v).mem pt i' = k.mem pt i' := by
  simp [Kmem.setWord, Kmem.setPage, h]

theorem setWord_mem_self {pt i v : Nat} : (k.setWord pt i v).mem pt i = v := by
  simp [Kmem.setWord, Kmem.setPage]

/-- The virtual page number of three indices. -/
def vpn (i j x : Nat) : Nat := i * 2 ^ 18 + j * 2 ^ 9 + x

theorem vpn_px {va : Nat} (h : va < MAXVA) : vpn (px 2 va) (px 1 va) (px 0 va) = va / PGSIZE :=
  (px_vpn h).symm

theorem vpn_inj {i j x i' j' x' : Nat} (hj : j < 512) (hx : x < 512) (hj' : j' < 512)
    (hx' : x' < 512) (h : vpn i j x = vpn i' j' x') : i = i' ∧ j = j' ∧ x = x' := by
  unfold vpn at h
  omega

end

section

variable [K : Layout]

/-- A page between `PGROUNDUP(end)` and `PHYSTOP`. -/
def IsPage (q : Nat) : Prop := q % PGSIZE = 0 ∧ K.kend ≤ q ∧ q < PHYSTOP

/-- Entry `i` of the table page `q` points to the page of owner `o`, or there is none. -/
def Entry (mem : Nat → Nat → Nat) (own : Nat → Owner) (q i : Nat) (o : Owner) : Prop :=
  (mem q i = 0 ∧ ∀ q', own q' ≠ o) ∨
    ∃ q', own q' = o ∧ IsPage q' ∧ mem q i = mkPte q' 0 ∧ ∀ q'', own q'' = o → q'' = q'

/-- The memory holds page table `r`, with the leaves `L`. -/
structure PtOk (mem : Nat → Nat → Nat) (own : Nat → Owner) (r : Nat) (L : Nat → Nat) : Prop where
  root : ∀ q, own q = .root r ↔ q = r
  mid : ∀ i < 512, Entry mem own r i (.mid r i)
  low : ∀ q i, own q = .mid r i → i < 512 ∧ ∀ j < 512, Entry mem own q j (.low r i j)
  leaf : ∀ q i j, own q = .low r i j → (∃ m, own m = .mid r i) ∧ j < 512 ∧
    ∀ x < 512, mem q x = L (vpn i j x)
  absent : ∀ i < 512, ∀ j < 512, (∀ q, own q ≠ .low r i j) → ∀ x < 512, L (vpn i j x) = 0
  valid : ∀ v, L v = 0 ∨ pteV (L v) = true

/-- The user pages that the leaves `L` map are those of table `r`. -/
structure UserOk (own : Nat → Owner) (r : Nat) (L : Nat → Nat) : Prop where
  user : ∀ v < NUSER, (L v = 0 ∧ ∀ q, own q ≠ .user r v) ∨
    ∃ q perm, own q = .user r v ∧ IsPage q ∧ L v = mkPte q perm ∧ perm < 1024 ∧ perm / 2 % 2 = 1 ∧
      ∀ q', own q' = .user r v → q' = q
  lt : ∀ q v, own q = .user r v → v < NUSER

/-- The owners of the pages agree with the memory (module doc). -/
structure MemInv (k : Kmem) (own : Nat → Owner) (T : Nat → Option (Nat → Nat)) : Prop where
  nodup : k.freelist.Nodup
  free : ∀ q, q ∈ k.freelist ↔ own q = .free
  page : ∀ q, own q ≠ .outside ↔ IsPage q
  table : ∀ r L, T r = some L → PtOk k.mem own r L ∧ UserOk own r L
  dom : ∀ q r, (own q).table = some r → T r ≠ none

/-! ## Tables that a step leaves alone -/

variable {mem mem' : Nat → Nat → Nat} {own own' : Nat → Owner} {r : Nat} {L L' : Nat → Nat}

variable {q i j pt v : Nat}

theorem Entry.congr {o : Owner} (h : Entry mem own q i o)
    (ho : ∀ q', own' q' = o ↔ own q' = o) (hm : mem' q i = mem q i) : Entry mem' own' q i o := by
  rcases h with ⟨h0, hn⟩ | ⟨q', hq, hp, hm', hu⟩
  · exact .inl ⟨hm.trans h0, fun q' => (ho q').not.mpr (hn q')⟩
  · exact .inr ⟨q', (ho q').mpr hq, hp, hm.trans hm', fun q'' h'' => hu q'' ((ho q'').mp h'')⟩

/-- Only the owners of the table pages matter. -/
theorem PtOk.congr (h : PtOk mem own r L)
    (ho : ∀ q o, o.table = some r → o.isNode = true → (own' q = o ↔ own q = o))
    (hm : ∀ q, (own q).table = some r → (own q).isNode = true → mem' q = mem q) :
    PtOk mem' own' r L where
  root q := (ho q _ rfl rfl).trans (h.root q)
  mid i hi := (h.mid i hi).congr (fun q' => ho q' _ rfl rfl) (by
    have hr := (h.root r).mpr rfl
    rw [hm r (by rw [hr]; rfl) (by rw [hr]; rfl)])
  low q i hq := by
    have hq' := (ho q _ rfl rfl).mp hq
    refine ⟨(h.low q i hq').1, fun j hj => ((h.low q i hq').2 j hj).congr (fun q' => ho q' _ rfl rfl) ?_⟩
    rw [hm q (by rw [hq']; rfl) (by rw [hq']; rfl)]
  leaf q i j hq := by
    have hq' := (ho q _ rfl rfl).mp hq
    obtain ⟨⟨m, hmid⟩, hj, hx⟩ := h.leaf q i j hq'
    refine ⟨⟨m, (ho m _ rfl rfl).mpr hmid⟩, hj, fun x hx' => ?_⟩
    rw [hm q (by rw [hq']; rfl) (by rw [hq']; rfl)]
    exact hx x hx'
  absent i hi j hj hn := h.absent i hi j hj fun q => (ho q _ rfl rfl).not.mp (hn q)
  valid := h.valid

theorem UserOk.congr (h : UserOk own r L) (ho : ∀ q v, own' q = .user r v ↔ own q = .user r v) :
    UserOk own' r L where
  user v hv := by
    rcases h.user v hv with ⟨h0, hn⟩ | ⟨q, perm, hq, hp, hl, hlt, hr, hu⟩
    · exact .inl ⟨h0, fun q => (ho q _).not.mpr (hn q)⟩
    · exact .inr ⟨q, perm, (ho q _).mpr hq, hp, hl, hlt, hr,
        fun q' h' => hu q' ((ho q' _).mp h')⟩
  lt q v hq := h.lt q v ((ho q _).mp hq)

/-! ## Pages that belong to no table -/

variable {k n : Kmem} {T : Nat → Option (Nat → Nat)} {q : Nat} {o : Owner}

theorem MemInv.isPage (h : MemInv k own T) (hq : own q ≠ .outside) : IsPage q := (h.page q).mp hq

/-- A page of no table gets another owner of that kind; only its words and the free list change. -/
theorem MemInv.retag (h : MemInv k own T) (hq : (own q).table = none) (hout : own q ≠ .outside)
    (ho : o.table = none) (hout' : o ≠ .outside) (hm : ∀ q', q' ≠ q → n.mem q' = k.mem q')
    (hnd : n.freelist.Nodup) (hfr : ∀ q', q' ∈ n.freelist ↔ update own q o q' = .free) :
    MemInv n (update own q o) T where
  nodup := hnd
  free := hfr
  page q' := by
    rw [← h.page q']
    exact (own_update_iff hout' hout).not
  table r L hr := by
    have hs : SameTable r own (update own q o) :=
      sameTable_update (by rw [hq]; simp) (by rw [ho]; simp)
    obtain ⟨hp, hu⟩ := h.table r L hr
    refine ⟨hp.congr (fun q o ho _ => hs q o ho) fun q' hq' _ => hm q' ?_, hu.congr fun q v => hs q _ rfl⟩
    rintro rfl
    rw [hq] at hq'
    cases hq'
  dom q' r hr := by
    by_cases e : q' = q
    · subst e; rw [update_self, ho] at hr; cases hr
    · rw [update_of_ne e] at hr; exact h.dom q' r hr

/-- The free list when neither the old nor the new owner of a page is `free`. -/
theorem MemInv.free_update (h : MemInv k own T) (hq : own q ≠ .free) (ho : o ≠ .free) (q' : Nat) :
    q' ∈ k.freelist ↔ update own q o q' = .free :=
  (h.free q').trans (own_update_iff ho hq).symm

/-- The free list after a page is put on it. -/
theorem MemInv.free_push (h : MemInv k own T) (q' : Nat) : q' ∈ q :: k.freelist ↔ update own q .free q' = .free := by
  by_cases e : q' = q
  · subst e; simp
  · rw [update_of_ne e, ← h.free q']
    simp [e]

theorem MemInv.nodup_push (h : MemInv k own T) (hq : own q ≠ .free) : (q :: k.freelist).Nodup :=
  List.nodup_cons.mpr ⟨fun hin => hq ((h.free q).mp hin), h.nodup⟩

/-- `kalloc` takes the first free page. -/
theorem MemInv.pop {l : List Nat} (h : MemInv k own T) (hl : k.freelist = q :: l) (hl' : n.freelist = l)
    (hm : ∀ q', q' ≠ q → n.mem q' = k.mem q') : own q = .free ∧ MemInv n (update own q .held) T := by
  have hfree : own q = .free := (h.free q).mp (by rw [hl]; exact List.mem_cons_self)
  have hnd := h.nodup
  rw [hl, List.nodup_cons] at hnd
  refine ⟨hfree, h.retag (by rw [hfree]; rfl) (by rw [hfree]; simp) rfl (by simp) hm
    (hl' ▸ hnd.2) fun q' => ?_⟩
  rw [hl']
  by_cases e : q' = q
  · subst e; simp [hnd.1]
  · rw [update_of_ne e, ← h.free q', hl]
    simp [e]

/-- `kfree` puts a page of no table back. -/
theorem MemInv.push (h : MemInv k own T) (hq : (own q).table = none) (hout : own q ≠ .outside)
    (hfree : own q ≠ .free) (hl : n.freelist = q :: k.freelist)
    (hm : ∀ q', q' ≠ q → n.mem q' = k.mem q') : MemInv n (update own q .free) T := by
  exact h.retag hq hout rfl (by simp) hm (hl ▸ h.nodup_push hfree) (hl ▸ h.free_push)

/-- The words of a page that is no table page may change. -/
theorem MemInv.fill (h : MemInv k own T) (hq : (own q).isNode = false) (w : Nat → Nat) :
    MemInv (k.setPage q w) own T where
  nodup := h.nodup
  free := h.free
  page := h.page
  table r L hr := by
    obtain ⟨hp, hu⟩ := h.table r L hr
    refine ⟨hp.congr (fun _ _ _ _ => Iff.rfl) fun q' _ hn => ?_, hu⟩
    refine update_of_ne ?_ _ _
    rintro rfl
    rw [hq] at hn
    cases hn
  dom := h.dom

/-! ## A page joins a table -/

theorem PtOk.own_root (h : PtOk mem own r L) : own r = .root r := (h.root r).mpr rfl

theorem Entry.unique (h : Entry mem own r i o) {q' : Nat} (hq : own q = o) (hq' : own q' = o) : q = q' := by
  rcases h with ⟨-, hn⟩ | ⟨p, -, -, -, hu⟩
  · exact absurd hq (hn q)
  · rw [hu q hq, hu q' hq']

/-- An empty entry points to no page. -/
theorem Entry.not_own (h : Entry mem own r i o) (h0 : mem r i = 0) (q : Nat) : own q ≠ o := by
  rcases h with ⟨-, hn⟩ | ⟨p, -, -, hm, -⟩
  · exact hn q
  · exact absurd (hm.symm.trans h0) mkPte_ne_zero

theorem PtOk.low_unique (h : PtOk mem own r L) {q' : Nat} (hq : own q = .low r i j)
    (hq' : own q' = .low r i j) : q = q' := by
  obtain ⟨⟨m, hm⟩, hj, -⟩ := h.leaf q i j hq
  exact ((h.low m i hm).2 j hj).unique hq hq'

/-- Entry `i` of page `pt` now points to the new table page `q`. -/
theorem Entry.link (hn : ∀ q', own q' ≠ o) (hp : IsPage q) :
    Entry (k.setWord pt i (mkPte q 0)).mem (update own q o) pt i o := by
  refine .inr ⟨q, update_self .., hp, by simp [Kmem.setWord, Kmem.setPage], ?_⟩
  intro q'' h''
  by_contra e
  rw [update_of_ne e] at h''
  exact hn q'' h''

/-- An empty page becomes the table at index `i` of the root. -/
theorem PtOk.addMid (h : PtOk k.mem own r L) (hi : i < 512) (h0 : k.mem r i = 0)
    (hq : (own q).table = none) (hp : IsPage q) (hz : ∀ x, k.mem q x = 0) :
    PtOk (k.setWord r i (mkPte q 0)).mem (update own q (.mid r i)) r L := by
  have hno := (h.mid i hi).not_own h0
  have hqr : q ≠ r := by rintro rfl; rw [h.own_root] at hq; cases hq
  -- no other owner of the table changes
  have hoth : ∀ q' o', o'.table = some r → o' ≠ .mid r i →
      (update own q (.mid r i) q' = o' ↔ own q' = o') := by
    intro q' o' ht hne
    refine own_update_iff (Ne.symm hne) ?_
    intro e; rw [e, ht] at hq; cases hq
  refine ⟨fun q' => (hoth q' _ rfl (by simp)).trans (h.root q'), ?_, ?_, ?_, ?_, h.valid⟩
  · intro i' hi'
    by_cases e : i' = i
    · subst e; exact Entry.link hno hp
    · exact (h.mid i' hi').congr (fun q' => hoth q' _ rfl (by simp [e])) (setWord_mem_of_ne_index e)
  · intro q' i' hq'
    by_cases e : q' = q
    · subst e
      rw [update_self] at hq'
      obtain rfl : i = i' := by simpa using hq'
      -- the new table has no entries, and the leaves below it were absent
      refine ⟨hi, fun j hj => .inl ⟨by rw [setWord_mem_of_ne hqr]; exact hz j, fun q' e' => ?_⟩⟩
      obtain ⟨⟨m, hm⟩, -⟩ := h.leaf q' i j ((hoth q' _ rfl (by simp)).mp e')
      exact hno m hm
    · rw [update_of_ne e] at hq'
      obtain ⟨hlt, hent⟩ := h.low q' i' hq'
      refine ⟨hlt, fun j hj => (hent j hj).congr (fun q'' => hoth q'' _ rfl (by simp)) ?_⟩
      rw [setWord_mem_of_ne]
      rintro rfl; rw [h.own_root] at hq'; cases hq'
  · intro q' i' j hq'
    rw [hoth q' _ rfl (by simp)] at hq'
    obtain ⟨⟨m, hm⟩, hj, hx⟩ := h.leaf q' i' j hq'
    refine ⟨⟨m, ?_⟩, hj, fun x hx' => ?_⟩
    · rw [hoth m _ rfl]
      · exact hm
      · intro e; rw [← hm] at e; exact hno m e
    · rw [setWord_mem_of_ne, hx x hx']
      rintro rfl; rw [h.own_root] at hq'; cases hq'
  · exact fun i' hi' j hj hn => h.absent i' hi' j hj fun q' => (hoth q' _ rfl (by simp)).not.mp (hn q')

/-- An empty page becomes the table at index `j` of the table `m` of level 1. -/
theorem PtOk.addLow {m : Nat} (h : PtOk k.mem own r L) (hm : own m = .mid r i) (hj : j < 512)
    (h0 : k.mem m j = 0) (hq : (own q).table = none) (hp : IsPage q) (hz : ∀ x, k.mem q x = 0) :
    PtOk (k.setWord m j (mkPte q 0)).mem (update own q (.low r i j)) r L := by
  obtain ⟨hi, hent⟩ := h.low m i hm
  have hno := (hent j hj).not_own h0
  have hqm : q ≠ m := by rintro rfl; rw [hm] at hq; cases hq
  have hoth : ∀ q' o', o'.table = some r → o' ≠ .low r i j →
      (update own q (.low r i j) q' = o' ↔ own q' = o') := by
    intro q' o' ht hne
    refine own_update_iff (Ne.symm hne) ?_
    intro e; rw [e, ht] at hq; cases hq
  refine ⟨fun q' => (hoth q' _ rfl (by simp)).trans (h.root q'), ?_, ?_, ?_, ?_, h.valid⟩
  · intro i' hi'
    refine (h.mid i' hi').congr (fun q' => hoth q' _ rfl (by simp)) ?_
    rw [setWord_mem_of_ne]
    rintro rfl; rw [h.own_root] at hm; cases hm
  · intro q' i' hq'
    rw [hoth q' _ rfl (by simp)] at hq'
    obtain ⟨hlt, hent'⟩ := h.low q' i' hq'
    refine ⟨hlt, fun j' hj' => ?_⟩
    by_cases e : q' = m
    · subst e
      obtain rfl : i = i' := by simpa [hm] using hq'
      by_cases ej : j' = j
      · subst ej; exact Entry.link hno hp
      · exact (hent' j' hj').congr (fun q' => hoth q' _ rfl (by simp [ej])) (setWord_mem_of_ne_index ej)
    · refine (hent' j' hj').congr (fun q'' => hoth q'' _ rfl ?_) (by rw [setWord_mem_of_ne e])
      intro e'
      obtain ⟨rfl, rfl⟩ : i' = i ∧ j' = j := by simpa using e'
      exact e ((h.mid i' hi).unique hq' hm)
  · intro q' i' j' hq'
    by_cases e : q' = q
    · subst e
      rw [update_self] at hq'
      obtain ⟨rfl, rfl⟩ : i = i' ∧ j = j' := by simpa using hq'
      refine ⟨⟨m, (hoth m _ rfl (by simp)).mpr hm⟩, hj, fun x hx => ?_⟩
      rw [setWord_mem_of_ne hqm, hz, h.absent i hi j hj hno x hx]
    · rw [update_of_ne e] at hq'
      obtain ⟨⟨m', hm'⟩, hj', hx⟩ := h.leaf q' i' j' hq'
      refine ⟨⟨m', (hoth m' _ rfl (by simp)).mpr hm'⟩, hj', fun x hx' => ?_⟩
      rw [setWord_mem_of_ne, hx x hx']
      rintro rfl; rw [hm] at hq'; cases hq'
  · intro i' hi' j' hj' hn
    refine h.absent i' hi' j' hj' fun q' e => hn q' ?_
    rw [hoth q' _ rfl]
    · exact e
    · intro e'; rw [e'] at e; exact hno q' e

/-! ## A leaf changes -/

/-- The entry `x` of the leaf table `pt` is set. -/
theorem PtOk.setLeaf {x : Nat} (h : PtOk k.mem own r L) (hpt : own pt = .low r i j) (hx : x < 512)
    (hv : v = 0 ∨ pteV v = true) : PtOk (k.setWord pt x v).mem own r (update L (vpn i j x) v) := by
  obtain ⟨⟨m, hm⟩, hj, hleaf⟩ := h.leaf pt i j hpt
  refine ⟨h.root, ?_, ?_, ?_, ?_, ?_⟩
  · intro i' hi'
    refine (h.mid i' hi').congr (fun _ => Iff.rfl) ?_
    rw [setWord_mem_of_ne]
    rintro rfl; rw [h.own_root] at hpt; cases hpt
  · intro q' i' hq'
    obtain ⟨hlt, hent⟩ := h.low q' i' hq'
    refine ⟨hlt, fun j' hj' => (hent j' hj').congr (fun _ => Iff.rfl) ?_⟩
    rw [setWord_mem_of_ne]
    rintro rfl; rw [hq'] at hpt; cases hpt
  · intro q' i' j' hq'
    obtain ⟨hm', hj', hx'⟩ := h.leaf q' i' j' hq'
    refine ⟨hm', hj', fun y hy => ?_⟩
    by_cases e : q' = pt
    · subst e
      obtain ⟨rfl, rfl⟩ : i = i' ∧ j = j' := by simpa [hpt] using hq'
      by_cases ey : y = x
      · subst ey; rw [setWord_mem_self, update_self]
      · rw [setWord_mem_of_ne_index ey, update_of_ne, hx' y hy]
        exact fun e' => ey (vpn_inj hj hy hj hx e').2.2
    · rw [setWord_mem_of_ne e, hx' y hy, update_of_ne]
      intro e'
      obtain ⟨rfl, rfl, -⟩ := vpn_inj hj' hy hj hx e'
      exact e (h.low_unique hq' hpt)
  · intro i' hi' j' hj' hn y hy
    rw [update_of_ne]
    · exact h.absent i' hi' j' hj' hn y hy
    · intro e'
      obtain ⟨rfl, rfl, -⟩ := vpn_inj hj' hy hj hx e'
      exact hn pt hpt
  · intro w
    by_cases e : w = vpn i j x
    · subst e; rw [update_self]; exact hv
    · rw [update_of_ne e]; exact h.valid w

/-- The entries of the trapframe and the trampoline map no user page. -/
theorem UserOk.high {pte : Nat} (h : UserOk own r L) (hv : NUSER ≤ v) : UserOk own r (update L v pte) := by
  refine ⟨fun w hw => ?_, h.lt⟩
  rw [update_of_ne (by omega)]
  exact h.user w hw

/-- The flags of a mapped page change. -/
theorem UserOk.flags {perm : Nat} (h : UserOk own r L) (hq : own q = .user r v) (hperm : perm < 1024)
    (hr : perm / 2 % 2 = 1) : UserOk own r (update L v (mkPte q perm)) := by
  refine ⟨fun w hw => ?_, h.lt⟩
  by_cases e : w = v
  · subst e
    rcases h.user w hw with ⟨-, hn⟩ | ⟨q', _, hq', hp, -, -, -, hu⟩
    · exact absurd hq (hn q)
    · obtain rfl := hu q hq
      exact .inr ⟨q, perm, hq, hp, update_self .., hperm, hr, hu⟩
  · rw [update_of_ne e]
    exact h.user w hw

/-! ## A page leaves a table

`freewalk` frees a lower table before it clears the entry that points to it, so these lemmas are
about both steps at once: the words of the freed page `q` are anything. -/

/-- An entry whose page is given away. -/
theorem Entry.unlink (h : Entry mem own pt i o) {o' : Owner} (hq : own q = o)
    (ho : o' ≠ o) (h0 : mem' pt i = 0) : Entry mem' (update own q o') pt i o := by
  refine .inl ⟨h0, fun q' e => ?_⟩
  by_cases hne : q' = q
  · subst hne; rw [update_self] at e; exact ho e
  · rw [update_of_ne hne] at e; exact hne (h.unique e hq)

/-- A leaf table with no entries leaves the table. -/
theorem PtOk.dropLow {m : Nat} (h : PtOk mem own r L) (hm : own m = .mid r i) (hq : own q = .low r i j)
    (hL : ∀ x < 512, L (vpn i j x) = 0) (ho : o.table = none) (hoff : ∀ q', q' ≠ q → q' ≠ m → mem' q' = mem q')
    (h0 : mem' m j = 0) (hm' : ∀ x, x ≠ j → mem' m x = mem m x) : PtOk mem' (update own q o) r L := by
  obtain ⟨-, hj, -⟩ := h.leaf q i j hq
  have hi := (h.low m i hm).1
  have hoth : ∀ q' o', o'.table = some r → o' ≠ .low r i j →
      (update own q o q' = o' ↔ own q' = o') := by
    intro q' o' ht hne
    refine own_update_iff ?_ (by rw [hq]; exact Ne.symm hne)
    rintro rfl; rw [ho] at ht; cases ht
  have hmem : ∀ q' o', own q' = o' → o' ≠ .mid r i → o' ≠ .low r i j → mem' q' = mem q' := by
    rintro q' o' rfl h1 h2
    refine hoff q' ?_ ?_ <;> rintro rfl
    · exact h2 hq
    · exact h1 hm
  refine ⟨fun q' => (hoth q' _ rfl (by simp)).trans (h.root q'), ?_, ?_, ?_, ?_, h.valid⟩
  · intro i' hi'
    refine (h.mid i' hi').congr (fun q' => hoth q' _ rfl (by simp)) ?_
    rw [hmem r _ h.own_root (by simp) (by simp)]
  · intro q' i' hq'
    rw [hoth q' _ rfl (by simp)] at hq'
    obtain ⟨hlt, hent⟩ := h.low q' i' hq'
    refine ⟨hlt, fun j' hj' => ?_⟩
    by_cases e : q' = m
    · subst e
      obtain rfl : i = i' := by simpa [hm] using hq'
      by_cases ej : j' = j
      · subst ej; exact (hent j' hj').unlink hq (by rintro rfl; cases ho) h0
      · exact (hent j' hj').congr (fun q'' => hoth q'' _ rfl (by simp [ej])) (hm' j' ej)
    · have hii : i' ≠ i := by rintro rfl; exact e ((h.mid i' hi).unique hq' hm)
      refine (hent j' hj').congr (fun q'' => hoth q'' _ rfl (by simp [hii])) ?_
      rw [hmem q' _ hq' (by simp [hii]) (by simp)]
  · intro q' i' j' hq'
    have hne : q' ≠ q := by
      rintro rfl; rw [update_self] at hq'; subst hq'; cases ho
    rw [update_of_ne hne] at hq'
    obtain ⟨⟨m', hmid⟩, hj', hx⟩ := h.leaf q' i' j' hq'
    refine ⟨⟨m', (hoth m' _ rfl (by simp)).mpr hmid⟩, hj', fun x hx' => ?_⟩
    rw [hoff q' hne (by rintro rfl; rw [hm] at hq'; cases hq'), hx x hx']
  · intro i' hi' j' hj' hn
    by_cases e : Owner.low r i' j' = .low r i j
    · obtain ⟨rfl, rfl⟩ : i' = i ∧ j' = j := by simpa using e
      exact hL
    · exact h.absent i' hi' j' hj' fun q' => (hoth q' _ rfl e).not.mp (hn q')

/-- A table of level 1 with no entries leaves the table. -/
theorem PtOk.dropMid (h : PtOk mem own r L) (hq : own q = .mid r i) (hlow : ∀ j q', own q' ≠ .low r i j)
    (ho : o.table = none) (hoff : ∀ q', q' ≠ q → q' ≠ r → mem' q' = mem q') (h0 : mem' r i = 0)
    (hr' : ∀ x, x ≠ i → mem' r x = mem r x) : PtOk mem' (update own q o) r L := by
  have hi := (h.low q i hq).1
  have hoth : ∀ q' o', o'.table = some r → o' ≠ .mid r i →
      (update own q o q' = o' ↔ own q' = o') := by
    intro q' o' ht hne
    refine own_update_iff ?_ (by rw [hq]; exact Ne.symm hne)
    rintro rfl; rw [ho] at ht; cases ht
  refine ⟨fun q' => (hoth q' _ rfl (by simp)).trans (h.root q'), ?_, ?_, ?_, ?_, h.valid⟩
  · intro i' hi'
    by_cases e : i' = i
    · subst e; exact (h.mid i' hi').unlink hq (by rintro rfl; cases ho) h0
    · exact (h.mid i' hi').congr (fun q' => hoth q' _ rfl (by simp [e])) (hr' i' e)
  · intro q' i' hq'
    have hne : q' ≠ q := by
      rintro rfl; rw [update_self] at hq'; subst hq'; cases ho
    rw [update_of_ne hne] at hq'
    obtain ⟨hlt, hent⟩ := h.low q' i' hq'
    refine ⟨hlt, fun j hj => (hent j hj).congr (fun q'' => hoth q'' _ rfl (by simp)) ?_⟩
    rw [hoff q' hne (by rintro rfl; rw [h.own_root] at hq'; cases hq')]
  · intro q' i' j hq'
    rw [hoth q' _ rfl (by simp)] at hq'
    obtain ⟨⟨m, hm⟩, hj, hx⟩ := h.leaf q' i' j hq'
    have hii : i' ≠ i := by rintro rfl; exact hlow j q' hq'
    refine ⟨⟨m, (hoth m _ rfl (by simp [hii])).mpr hm⟩, hj, fun x hx' => ?_⟩
    rw [hoff q' (by rintro rfl; rw [hq] at hq'; cases hq')
      (by rintro rfl; rw [h.own_root] at hq'; cases hq'), hx x hx']
  · exact fun i' hi' j hj hn => h.absent i' hi' j hj fun q' => (hoth q' _ rfl (by simp)).not.mp (hn q')

/-! ## One table changes -/

/-- A page `q` goes into or out of table `r`, or stays; the other tables are not touched. -/
theorem MemInv.step {U : Nat → Option (Nat → Nat)} (h : MemInv k own T)
    (hq : (own q).table = none ∨ (own q).table = some r) (ho : o.table = none ∨ o.table = some r)
    (hout : own q ≠ .outside) (hout' : o ≠ .outside)
    (hm : ∀ q', q' ≠ q → (own q').table ≠ some r → n.mem q' = k.mem q')
    (hnd : n.freelist.Nodup) (hfr : ∀ q', q' ∈ n.freelist ↔ update own q o q' = .free)
    (hT : ∀ r', r' ≠ r → U r' = T r')
    (ht : ∀ L, U r = some L →
      PtOk n.mem (update own q o) r L ∧ UserOk (update own q o) r L)
    (hd : U r = none → ∀ q', (update own q o q').table ≠ some r) :
    MemInv n (update own q o) U where
  nodup := hnd
  free := hfr
  page q' := by
    rw [← h.page q']
    exact (own_update_iff hout' hout).not
  table r' L hr' := by
    by_cases e : r' = r
    · subst e; exact ht L hr'
    have hne : ∀ {o : Owner}, o.table = none ∨ o.table = some r → o.table ≠ some r' := by
      rintro o (h | h) <;> rw [h] <;> simp [Ne.symm e]
    have hs : SameTable r' own (update own q o) := sameTable_update (hne hq) (hne ho)
    obtain ⟨hp, hu⟩ := h.table r' L (hT r' e ▸ hr')
    refine ⟨hp.congr (fun q o ho _ => hs q o ho) fun q' hq' _ => hm q' ?_ ?_,
      hu.congr fun q v => hs q _ rfl⟩
    · rintro rfl; exact hne hq hq'
    · rw [hq']; simp [e]
  dom q' r' hr' := by
    by_cases e : r' = r
    · subst e; exact fun hn => hd hn q' hr'
    · rw [hT r' e]
      by_cases eq : q' = q
      · subst eq
        rw [update_self] at hr'
        rcases ho with ho | ho <;> rw [ho] at hr'
        · cases hr'
        · exact absurd (Option.some.inj hr').symm e
      · rw [update_of_ne eq] at hr'
        exact h.dom q' r' hr'

end

end Xv6
