import Xv6.Vm.Own

/-!
# One page table

The functions of `vm.c` that walk, set and clear entries work on one page table and on the free list. Their
specs here are about these only: `Local` is the free list and the table `r` with its leaves, whatever else
is in memory. A spec also says what it leaves alone: pages in use that are no table pages of `r` keep their
owners and their words. `MemInv.of_local` carries this over to the memory with all its tables.

`kalloc` fails when it is told to, so a spec also says how many pages it takes: `CanAlloc k n` if the next `n`
calls succeed, `Took k k' n` if `n` pages were taken.
-/

namespace Xv6

open Seq
open Function (update update_idem update_of_ne update_self)

/-- Some free pages became table pages of `r`; the others have the owner they had. -/
def Taken (r : Nat) (own own' : Nat → Owner) : Prop :=
  ∀ q, own' q = own q ∨ own q = .free ∧ (own' q).table = some r ∧ (own' q).isNode = true

/-- Only free pages and pages of table `r` changed hands, among those. -/
def Frame (r : Nat) (own own' : Nat → Owner) : Prop :=
  ∀ q, own' q = own q ∨
    (own q = .free ∨ (own q).table = some r) ∧ (own' q = .free ∨ (own' q).table = some r)

section

variable {r q : Nat} {o : Owner} {own own' own'' : Nat → Owner}

theorem Taken.refl : Taken r own own := fun _ => .inl rfl

theorem Taken.trans (h : Taken r own own') (h' : Taken r own' own'') : Taken r own own'' := by
  intro q
  rcases h' q with e' | ⟨hf, ht⟩
  · rw [e']; exact h q
  · rcases h q with e | ⟨-, h2, -⟩
    · exact .inr ⟨e ▸ hf, ht⟩
    · rw [hf] at h2; cases h2

/-- A page in use keeps its owner. -/
theorem Taken.keep (h : Taken r own own') (hq : own q = o) (ho : o ≠ .free) : own' q = o := by
  rcases h q with e | ⟨hf, -⟩
  · exact e.trans hq
  · exact absurd (hq.symm.trans hf) ho

/-- A page that is no table page had its owner before. -/
theorem Taken.back (h : Taken r own own') (hq : own' q = o) (ho : o.isNode = false) : own q = o := by
  rcases h q with e | ⟨-, -, hn⟩
  · exact e.symm.trans hq
  · rw [hq, ho] at hn; cases hn

theorem Taken.frame (h : Taken r own own') : Frame r own own' := by
  intro q
  rcases h q with e | ⟨hf, ht, -⟩
  · exact .inl e
  · exact .inr ⟨.inl hf, .inr ht⟩

theorem Taken.update (hq : own q = .free) (ho : o.table = some r) (hn : o.isNode = true) :
    Taken r own (update own q o) := by
  intro q'
  by_cases e : q' = q
  · subst e; rw [update_self]; exact .inr ⟨hq, ho, hn⟩
  · exact .inl (update_of_ne e _ _)

theorem Frame.refl : Frame r own own := fun _ => .inl rfl

theorem Frame.trans (h : Frame r own own') (h' : Frame r own' own'') : Frame r own own'' := by
  intro q
  rcases h q with e | ⟨h1, h2⟩
  · rw [← e]; exact h' q
  · rcases h' q with e' | ⟨-, h4⟩
    · rw [e']; exact .inr ⟨h1, h2⟩
    · exact .inr ⟨h1, h4⟩

theorem Frame.update (hq : own q = .free ∨ (own q).table = some r)
    (ho : o = .free ∨ o.table = some r) : Frame r own (update own q o) := by
  intro q'
  by_cases e : q' = q
  · subst e; rw [update_self]; exact .inr ⟨hq, ho⟩
  · exact .inl (update_of_ne e _ _)

/-- A page in use that is not of table `r` keeps its owner. -/
theorem Frame.keep (h : Frame r own own') (hq : own q = o) (ho : o ≠ .free) (ht : o.table ≠ some r) : own' q = o := by
  rcases h q with e | ⟨h1 | h1, -⟩
  · exact e.trans hq
  · exact absurd (hq.symm.trans h1) ho
  · rw [hq] at h1; exact absurd h1 ht

/-- A page that is in use and not of table `r` had its owner before. -/
theorem Frame.back (h : Frame r own own') (hq : own' q = o) (ho : o ≠ .free) (ht : o.table ≠ some r) : own q = o := by
  rcases h q with e | ⟨-, h1 | h1⟩
  · exact e.symm.trans hq
  · exact absurd (hq.symm.trans h1) ho
  · rw [hq] at h1; exact absurd h1 ht

/-- `Frame r`, and the words of pages in use outside of table `r` are as before. -/
structure Within (r : Nat) (k k' : Kmem) (own own' : Nat → Owner) : Prop where
  frame : Frame r own own'
  mem : ∀ q, own q ≠ .free → (own q).table ≠ some r → k'.mem q = k.mem q

theorem Within.refl {k : Kmem} : Within r k k own own := ⟨.refl, fun _ _ _ => rfl⟩

theorem Within.trans {k k' k'' : Kmem} (h : Within r k k' own own') (h' : Within r k' k'' own' own'') :
    Within r k k'' own own'' := by
  refine ⟨h.frame.trans h'.frame, fun q hf ht => ?_⟩
  have e := h.frame.keep rfl hf ht
  exact (h'.mem q (by rwa [e]) (by rwa [e])).trans (h.mem q hf ht)

/-- `mappages` of one page. -/
theorem mappages_one {va pa perm : Nat} (h : va % PGSIZE = 0) :
    mappages r va PGSIZE pa perm = mapPage r va pa perm := by
  unfold mappages
  rw [if_neg (by simp [h]), if_neg (by simp), if_neg (by simp)]
  rfl

end

section

variable [K : Layout] {E : Panic → Prop} {k k' k'' : Kmem} {own own' own'' : Nat → Owner}
variable {T : Nat → Option (Nat → Nat)} {r q : Nat} {o : Owner} {L L' : Nat → Nat}

/-! ## The invariant of one table -/

omit K in
/-- The owner of a table page of `r`. -/
def NodeOf (r : Nat) (o : Owner) : Prop := o.table = some r ∧ o.isNode = true

/-- The free list, and page table `r` with the leaves `L`. -/
structure Local (k : Kmem) (own : Nat → Owner) (r : Nat) (L : Nat → Nat) : Prop where
  nodup : k.freelist.Nodup
  free : ∀ q, q ∈ k.freelist ↔ own q = .free
  page : ∀ q, own q ≠ .outside → IsPage q
  pt : PtOk k.mem own r L

theorem MemInv.toLocal (h : MemInv k own T) (hT : T r = some L) : Local k own r L :=
  ⟨h.nodup, h.free, fun q => (h.page q).mp, (h.table r L hT).1⟩

/-- A change of table `r` that the other tables take no part in. -/
theorem MemInv.of_local (h : MemInv k own T) (hl : Local k' own' r L') (hu : UserOk own' r L')
    (hs : ∀ r', r' ≠ r → SameTable r' own own') (hout : ∀ q, own q ≠ .outside → own' q ≠ .outside)
    (hm : ∀ q r', r' ≠ r → (own q).table = some r' → k'.mem q = k.mem q) :
    MemInv k' own' (update T r (some L')) where
  nodup := hl.nodup
  free := hl.free
  page q := ⟨hl.page q, fun hp => hout q ((h.page q).mpr hp)⟩
  table r' L'' hr' := by
    by_cases e : r' = r
    · subst e
      obtain rfl : L' = L'' := by simpa using hr'
      exact ⟨hl.pt, hu⟩
    · rw [update_of_ne e] at hr'
      obtain ⟨hp, hu'⟩ := h.table r' L'' hr'
      exact ⟨hp.congr (fun q o ho _ => hs r' e q o ho) fun q hq _ => hm q r' e hq,
        hu'.congr fun q v => hs r' e q _ rfl⟩
  dom q r' hr' := by
    by_cases e : r' = r
    · subst e
      simp
    · rw [update_of_ne e]
      have hq := (hs r' e q (own' q) hr').mp rfl
      exact h.dom q r' (by rw [hq]; exact hr')

omit K in
theorem Frame.sameTable {r' : Nat} (hf : Frame r own own') (hne : r' ≠ r) : SameTable r' own own' := by
  intro q o ho
  have hfree : o ≠ .free := by rintro rfl; cases ho
  have ht : o.table ≠ some r := by rw [ho]; simpa using hne
  exact ⟨fun hq => hf.back hq hfree ht, fun hq => hf.keep hq hfree ht⟩

omit K in
theorem Frame.not_outside (hf : Frame r own own') (hq : own q ≠ .outside) : own' q ≠ .outside :=
  fun hq' => hq (hf.back hq' (by simp) (by simp [Owner.table]))

/-- A change of table `r` within its pages. -/
theorem MemInv.of_within (h : MemInv k own T) (hl : Local k' own' r L') (hu : UserOk own' r L')
    (hw : Within r k k' own own') : MemInv k' own' (update T r (some L')) := by
  refine h.of_local hl hu (fun r' e => hw.frame.sameTable e) (fun q => hw.frame.not_outside)
    fun q r' e hq => hw.mem q ?_ ?_
  · intro hfree
    rw [hfree] at hq
    cases hq
  · rw [hq]
    simpa using e

theorem Local.congr (h : Local k own r L) (hfl : k'.freelist = k.freelist)
    (hm : ∀ q, NodeOf r (own q) → k'.mem q = k.mem q) : Local k' own r L :=
  ⟨hfl ▸ h.nodup, hfl ▸ h.free, h.page, h.pt.congr (fun _ _ _ _ => Iff.rfl) fun q h1 h2 => hm q ⟨h1, h2⟩⟩

/-- The words of a page that is no table page of `r` change. -/
theorem Local.fill (h : Local k own r L) (hq : ¬ NodeOf r (own q)) (w : Nat → Nat) : Local (k.setPage q w) own r L :=
  h.congr rfl fun q' hq' => update_of_ne (by rintro rfl; exact hq hq') _ _

/-- A page in use changes hands. -/
theorem Local.retag (h : Local k own r L) (hq : own q ≠ .free) (hn : ¬ NodeOf r (own q)) (hp : IsPage q)
    (ho : o ≠ .free) (hno : ¬ NodeOf r o) : Local k (update own q o) r L where
  nodup := h.nodup
  free q' := (h.free q').trans (own_update_iff ho hq).symm
  page q' hq' := by
    by_cases e : q' = q
    · exact e ▸ hp
    · rw [update_of_ne e] at hq'
      exact h.page q' hq'
  pt := h.pt.congr (fun q' o' h1 h2 => own_update_iff (by rintro rfl; exact hno ⟨h1, h2⟩)
    (by rintro rfl; exact hn ⟨h1, h2⟩)) fun _ _ _ => rfl

/-- The first free page is taken. -/
theorem Local.pop {l : List Nat} (h : Local k own r L) (hl : k.freelist = q :: l) (hl' : k'.freelist = l)
    (hm : ∀ q', q' ≠ q → k'.mem q' = k.mem q') : own q = .free ∧ Local k' (update own q .held) r L := by
  have hfree : own q = .free := (h.free q).mp (by rw [hl]; exact List.mem_cons_self)
  have hnd := h.nodup
  rw [hl, List.nodup_cons] at hnd
  refine ⟨hfree, ⟨hl' ▸ hnd.2, fun q' => ?_, fun q' hq' => ?_, ?_⟩⟩
  · rw [hl']
    by_cases e : q' = q
    · subst e
      simp [hnd.1]
    · rw [update_of_ne e, ← h.free q', hl]
      simp [e]
  · by_cases e : q' = q
    · exact e ▸ h.page q (by rw [hfree]; simp)
    · rw [update_of_ne e] at hq'
      exact h.page q' hq'
  · refine h.pt.congr (fun q' o' h1 h2 => own_update_iff (by rintro rfl; cases h1) ?_) fun q' h1 _ => hm q' ?_
    · rw [hfree]
      rintro rfl
      cases h1
    · rintro rfl
      rw [hfree] at h1
      cases h1

/-- A page in use is put on the free list. -/
theorem Local.push (h : Local k own r L) (hq : own q ≠ .free) (hout : own q ≠ .outside)
    (hn : ¬ NodeOf r (own q)) (hl : k'.freelist = q :: k.freelist)
    (hm : ∀ q', q' ≠ q → k'.mem q' = k.mem q') : Local k' (update own q .free) r L where
  nodup := hl ▸ List.nodup_cons.mpr ⟨fun hin => hq ((h.free q).mp hin), h.nodup⟩
  free q' := by
    rw [hl]
    by_cases e : q' = q
    · subst e
      simp
    · rw [update_of_ne e, ← h.free q']
      simp [e]
  page q' hq' := by
    by_cases e : q' = q
    · exact e ▸ h.page q hout
    · rw [update_of_ne e] at hq'
      exact h.page q' hq'
  pt := h.pt.congr (fun q' o' h1 h2 => own_update_iff (by rintro rfl; cases h1)
    (by rintro rfl; exact hn ⟨h1, h2⟩)) fun q' h1 h2 => hm q' (by rintro rfl; exact hn ⟨h1, h2⟩)

variable {i m pt n va : Nat}

/-- A zeroed page becomes the table at index `i` of the root. -/
theorem Local.linkMid (h : Local k own r L) (hi : i < 512) (h0 : k.mem r i = 0)
    (hq : own q = .held) (hz : ∀ x, k.mem q x = 0) :
    Local (k.setWord r i (mkPte q 0)) (update own q (.mid r i)) r L where
  nodup := h.nodup
  free q' := (h.free q').trans (own_update_iff (by simp) (by rw [hq]; simp)).symm
  page q' hq' := h.page q' fun e => hq' ((own_update_iff (by simp) (by rw [hq]; simp)).mpr e)
  pt := h.pt.addMid hi h0 (by rw [hq]; rfl) (h.page q (by rw [hq]; simp)) hz

/-- A zeroed page becomes the table at index `j` of the table `m`. -/
theorem Local.linkLow {j : Nat} (h : Local k own r L) (hm : own m = .mid r i) (hj : j < 512)
    (h0 : k.mem m j = 0) (hq : own q = .held) (hz : ∀ x, k.mem q x = 0) :
    Local (k.setWord m j (mkPte q 0)) (update own q (.low r i j)) r L where
  nodup := h.nodup
  free q' := (h.free q').trans (own_update_iff (by simp) (by rw [hq]; simp)).symm
  page q' hq' := h.page q' fun e => hq' ((own_update_iff (by simp) (by rw [hq]; simp)).mpr e)
  pt := h.pt.addLow hm hj h0 (by rw [hq]; rfl) (h.page q (by rw [hq]; simp)) hz

/-- A leaf is set. -/
theorem Local.setLeaf {j x v : Nat} (h : Local k own r L) (hpt : own pt = .low r i j) (hx : x < 512)
    (hv : v = 0 ∨ pteV v = true) : Local (k.setWord pt x v) own r (update L (vpn i j x) v) :=
  ⟨h.nodup, h.free, h.page, h.pt.setLeaf hpt hx hv⟩

/-! ## The free list -/

/-- The next `n` calls of `kalloc` succeed. -/
def CanAlloc (k : Kmem) (n : Nat) : Prop := n ≤ k.freelist.length ∧ ∀ i < n, k.fails (k.calls + i) = false

/-- `n` pages were taken from the free list. -/
structure Took (k k' : Kmem) (n : Nat) : Prop where
  fails : k'.fails = k.fails
  calls : k'.calls = k.calls + n
  free : k'.freelist = k.freelist.drop n

omit K in
theorem CanAlloc.zero : CanAlloc k 0 := ⟨Nat.zero_le _, fun _ h => absurd h (Nat.not_lt_zero _)⟩

omit K in
theorem Took.refl : Took k k 0 := ⟨rfl, rfl, rfl⟩

omit K in
theorem Took.trans (h : Took k k' n) (h' : Took k' k'' m) : Took k k'' (n + m) :=
  ⟨h'.fails.trans h.fails, by rw [h'.calls, h.calls, Nat.add_assoc],
    by rw [h'.free, h.free, List.drop_drop]⟩

omit K in
/-- The pages after the first `n`. -/
theorem Took.canAlloc_add (h : Took k k' n) (hn : CanAlloc k n) : CanAlloc k (n + m) ↔ CanAlloc k' m := by
  have hlen : k'.freelist.length = k.freelist.length - n := by rw [h.free, List.length_drop]
  unfold CanAlloc
  rw [hlen, h.fails, h.calls]
  constructor
  · intro ⟨h1, h2⟩
    refine ⟨by omega, fun i hi => ?_⟩
    rw [Nat.add_assoc]
    exact h2 (n + i) (by omega)
  · intro ⟨h1, h2⟩
    refine ⟨by have := hn.1; omega, fun i hi => ?_⟩
    rcases Nat.lt_or_ge i n with hlt | hge
    · exact hn.2 i hlt
    · have := h2 (i - n) (by omega)
      rwa [Nat.add_assoc, Nat.add_sub_cancel' hge] at this

omit K in
theorem CanAlloc.mono (h : CanAlloc k m) (hle : n ≤ m) : CanAlloc k n :=
  ⟨hle.trans h.1, fun i hi => h.2 i (by omega)⟩

omit K in
theorem canAlloc_congr (h1 : k'.freelist = k.freelist) (h2 : k'.fails = k.fails)
    (h3 : k'.calls = k.calls) : CanAlloc k' n ↔ CanAlloc k n := by
  unfold CanAlloc
  rw [h1, h2, h3]

/-- `kalloc` takes the first free page if it can. -/
theorem kalloc_local (h : Local k own r L) : wp E kalloc k fun res k' =>
    (res = none ∧ ¬ CanAlloc k 1 ∧ Local k' own r L ∧ k'.mem = k.mem ∧ k'.freelist = k.freelist) ∨
    ∃ q, res = some q ∧ CanAlloc k 1 ∧ own q = .free ∧ Took k k' 1 ∧
      Local k' (update own q .held) r L ∧ ∀ q', q' ≠ q → k'.mem q' = k.mem q' := by
  unfold wp kalloc
  by_cases hf : k.fails k.calls = true
  · rw [if_pos hf]
    refine .inl ⟨rfl, fun hc => ?_, h.congr rfl fun _ _ => rfl, rfl, rfl⟩
    have := hc.2 0 (by omega)
    rw [Nat.add_zero, hf] at this
    cases this
  · rw [if_neg hf]
    cases hl : k.freelist with
    | nil =>
      refine .inl ⟨rfl, fun hc => ?_, h.congr hl.symm fun _ _ => rfl, rfl, rfl⟩
      have := hc.1
      rw [hl] at this
      cases this
    | cons q l =>
      have hm : ∀ q', q' ≠ q → ({ k with calls := k.calls + 1, freelist := l }.setPage q
          fun _ => 0x0505050505050505).mem q' = k.mem q' := fun q' e => update_of_ne e _ _
      obtain ⟨hfree, h'⟩ := h.pop hl rfl hm
      refine .inr ⟨q, rfl, ⟨by simp [hl], fun i hi => ?_⟩, hfree, ⟨rfl, rfl, by simp [hl, Kmem.setPage]⟩, h', hm⟩
      obtain rfl : i = 0 := by omega
      exact eq_false_of_ne_true hf

/-! ## `walk` -/

theorem pte2pa_of_isPage {perm : Nat} (hq : IsPage q) (hp : perm < 1024) : pte2pa (mkPte q perm) = q := by
  refine pte2pa_mkPte hq.1 ?_ hp
  have := hq.2.2
  simp only [PHYSTOP, KERNBASE, U64] at this ⊢
  omega

/-- How many tables are missing on the way to the leaf of `va`. -/
def missing (k : Kmem) (r va : Nat) : Nat :=
  let pte := k.mem r (px 2 va)
  if pteV pte = false then 2
  else if pteV (k.mem (pte2pa pte) (px 1 va)) = false then 1
  else 0

/-- What an entry that is there points to. -/
theorem Entry.pte {mem : Nat → Nat → Nat} (h : Entry mem own r i o) (hq : own q = o) :
    pteV (mem r i) = true ∧ pte2pa (mem r i) = q := by
  rcases h with ⟨-, hn⟩ | ⟨p, hp, hpg, hm, hu⟩
  · exact absurd hq (hn q)
  · rw [hm, hu q hq]
    exact ⟨pteV_mkPte, pte2pa_of_isPage hpg (by omega)⟩

theorem Entry.eq_zero {mem : Nat → Nat → Nat} (h : Entry mem own r i o) (hn : ∀ q, own q ≠ o) : mem r i = 0 := by
  rcases h with ⟨h0, -⟩ | ⟨p, hp, -⟩
  · exact h0
  · exact absurd hp (hn p)

section

variable {va : Nat}

theorem PtOk.missing_zero (h : PtOk k.mem own r L) (hq : own q = .low r (px 2 va) (px 1 va)) :
    missing k r va = 0 := by
  obtain ⟨⟨m, hm⟩, -⟩ := h.leaf q _ _ hq
  obtain ⟨h1, h2⟩ := (h.mid _ (px_lt 2 va)).pte hm
  obtain ⟨h3, -⟩ := ((h.low m _ hm).2 _ (px_lt 1 va)).pte hq
  simp [missing, h1, h2, h3]

theorem PtOk.missing_one {m : Nat} (h : PtOk k.mem own r L) (hm : own m = .mid r (px 2 va))
    (hn : ∀ q, own q ≠ .low r (px 2 va) (px 1 va)) : missing k r va = 1 := by
  obtain ⟨h1, h2⟩ := (h.mid _ (px_lt 2 va)).pte hm
  have h3 := ((h.low m _ hm).2 _ (px_lt 1 va)).eq_zero hn
  simp [missing, h1, h2, h3, pteV_zero]

theorem PtOk.missing_two (h : PtOk k.mem own r L) (hn : ∀ q, own q ≠ .mid r (px 2 va)) : missing k r va = 2 := by
  have h1 := (h.mid _ (px_lt 2 va)).eq_zero hn
  simp [missing, h1, pteV_zero]

end

/-- One level of `walk`, at the table page `pt` whose entry is that of owner `o`. A missing table is made
when `alloc` is set and a page is free; `hlink` says that a zeroed page may be linked in. -/
theorem walkLevel_local {level : Nat} {alloc : Bool} (h : Local k own r L) (hpt : NodeOf r (own pt))
    (hent : Entry k.mem own pt (px level va) o)
    (hlink : ∀ (k' : Kmem) (own' : Nat → Owner) q, Local k' own' r L → own' pt = own pt →
      k'.mem pt (px level va) = 0 → own' q = .held → (∀ x, k'.mem q x = 0) →
      Local (k'.setWord pt (px level va) (mkPte q 0)) (update own' q o) r L) :
    wp E (walkLevel pt va alloc level) k fun res k' =>
      (∃ q, res = some q ∧ own q = o ∧ k' = k) ∨
      ((∀ q, own q ≠ o) ∧
        ((alloc = false ∧ res = none ∧ k' = k) ∨
        (alloc = true ∧ ¬ CanAlloc k 1 ∧ res = none ∧ Local k' own r L ∧ k'.mem = k.mem ∧
          k'.freelist = k.freelist) ∨
        (alloc = true ∧ CanAlloc k 1 ∧ ∃ q, res = some q ∧ own q = .free ∧ Took k k' 1 ∧
          Local k' (update own q o) r L ∧ ∀ q', q' ≠ q → q' ≠ pt → k'.mem q' = k.mem q'))) := by
  unfold walkLevel load
  rw [wp_bind, wp_gets]
  by_cases hex : ∃ q, own q = o
  · obtain ⟨q, hq⟩ := hex
    obtain ⟨h1, h2⟩ := hent.pte hq
    rw [if_pos h1, h2]
    exact .inl ⟨q, rfl, hq, rfl⟩
  · have hno : ∀ q, own q ≠ o := fun q hq => hex ⟨q, hq⟩
    have h0 := hent.eq_zero hno
    rw [h0, if_neg (by simp [pteV_zero])]
    cases alloc with
    | false => exact .inr ⟨hno, .inl ⟨rfl, rfl, rfl⟩⟩
    | true =>
      rw [if_pos rfl]
      refine (kalloc_local h).bind fun res k₁ hres => ?_
      rcases hres with ⟨rfl, hc, h₁, hm₁, hl₁⟩ | ⟨q, rfl, hc, hq, ht, h₁, hm₁⟩
      · exact .inr ⟨hno, .inr (.inl ⟨rfl, hc, rfl, h₁, hm₁, hl₁⟩)⟩
      · have hne : pt ≠ q := by
          rintro rfl
          rw [hq] at hpt
          cases hpt.1
        have hz := h₁.fill (q := q) (by rw [update_self]; exact fun h => by cases h.1) fun _ => 0
        have h0' : (k₁.setPage q fun _ => 0).mem pt (px level va) = 0 := by
          show update k₁.mem q _ pt _ = 0
          rw [update_of_ne hne, hm₁ pt hne, h0]
        have hl' := hlink _ _ q hz (update_of_ne hne _ _) h0' (update_self ..) fun x => by
          simp [Kmem.setPage]
        rw [update_idem] at hl'
        refine .inr ⟨hno, .inr (.inr ⟨rfl, hc, q, rfl, hq, ⟨ht.fails, ht.calls, ht.free⟩, hl', ?_⟩)⟩
        intro q' hq' hpt'
        rw [setWord_mem_of_ne hpt']
        exact (update_of_ne hq' _ _).trans (hm₁ q' hq')

/-- What a walk to `va` may do: free pages become the tables on the way. -/
structure Tabled (r va : Nat) (k k' : Kmem) (own own' : Nat → Owner) : Prop where
  taken : Taken r own own'
  mem : ∀ q, own q ≠ .free → ¬ NodeOf r (own q) → k'.mem q = k.mem q
  only : ∀ q o, NodeOf r o → o ≠ .mid r (px 2 va) → o ≠ .low r (px 2 va) (px 1 va) → (own' q = o ↔ own q = o)
  free_le : k'.freelist.length ≤ k.freelist.length

omit K in
theorem Tabled.within (h : Tabled r va k k' own own') : Within r k k' own own' :=
  ⟨h.taken.frame, fun q hf ht => h.mem q hf fun hn => ht hn.1⟩

omit K in
theorem Tabled.refl : Tabled r va k k own own :=
  ⟨.refl, fun _ _ _ => rfl, fun _ _ _ _ _ => Iff.rfl, le_rfl⟩

omit K in
theorem Tabled.trans (h : Tabled r va k k' own own') (h' : Tabled r va k' k'' own' own'') :
    Tabled r va k k'' own own'' where
  taken := h.taken.trans h'.taken
  mem q hq hn := by
    have hq' := h.taken.keep rfl hq
    exact (h'.mem q (by rwa [hq']) (by rwa [hq'])).trans (h.mem q hq hn)
  only q o ho h1 h2 := (h'.only q o ho h1 h2).trans (h.only q o ho h1 h2)
  free_le := h'.free_le.trans h.free_le

omit K in
/-- Nothing was taken, and no word changed. -/
theorem Tabled.of_mem (hm : k'.mem = k.mem) (hl : k'.freelist = k.freelist) : Tabled r va k k' own own :=
  ⟨.refl, fun q _ _ => by rw [hm], fun _ _ _ _ _ => Iff.rfl, hl ▸ le_rfl⟩

omit K in
/-- A free page became the table `o`, and the table page `pt` points to it. -/
theorem Tabled.link (hq : own q = .free) (ho : NodeOf r o)
    (hva : o = .mid r (px 2 va) ∨ o = .low r (px 2 va) (px 1 va)) (hpt : NodeOf r (own pt)) (ht : Took k k' n)
    (hm : ∀ q', q' ≠ q → q' ≠ pt → k'.mem q' = k.mem q') : Tabled r va k k' own (update own q o) where
  taken := .update hq ho.1 ho.2
  mem q' hq' hn := hm q' (by rintro rfl; exact hq' hq) (by rintro rfl; exact hn hpt)
  only q' o' ho' h1 h2 := by
    refine own_update_iff ?_ ?_
    · rintro rfl
      exact hva.elim h1 h2
    · rw [hq]
      rintro rfl
      cases ho'.1
  free_le := by
    rw [ht.free, List.length_drop]
    omega

/-- `walk` finds the leaf table of an address; with `alloc` it makes the tables that are missing if there
are free pages for them. -/
theorem walk_local {alloc : Bool} (h : Local k own r L) (hva : va < MAXVA) :
    wp E (walk r va alloc) k fun res k' => ∃ own', Local k' own' r L ∧ Tabled r va k k' own own' ∧
      (alloc = false → k' = k ∧ own' = own) ∧
      ((res = none ∧ (alloc = false → L (va / PGSIZE) = 0) ∧
          (alloc = true → ¬ CanAlloc k (missing k r va))) ∨
        ∃ pt, res = some (pt, px 0 va) ∧ own' pt = .low r (px 2 va) (px 1 va) ∧
          k'.mem pt (px 0 va) = L (va / PGSIZE) ∧
          (alloc = true → CanAlloc k (missing k r va) ∧ Took k k' (missing k r va))) := by
  have hp := h.pt
  have hroot : NodeOf r (own r) := by rw [hp.own_root]; exact ⟨rfl, rfl⟩
  have hleaf : ∀ (k' : Kmem) (own' : Nat → Owner), Local k' own' r L → ∀ pt,
      own' pt = .low r (px 2 va) (px 1 va) → k'.mem pt (px 0 va) = L (va / PGSIZE) := by
    intro k' own' h' pt hpt
    rw [(h'.pt.leaf pt _ _ hpt).2.2 _ (px_lt _ _), vpn_px hva]
  unfold walk
  rw [if_neg (by omega)]
  -- level 2, at the root
  refine (walkLevel_local (o := .mid r (px 2 va)) h hroot (hp.mid _ (px_lt _ _))
    (fun k own q h _ h0 hq hz => h.linkMid (px_lt _ _) h0 hq hz)).bind fun res k₁ h₁ => ?_
  rcases h₁ with ⟨m, rfl, hm, rfl⟩ | ⟨hno, h₁⟩
  · -- level 1, at a table that is there
    refine (walkLevel_local (o := .low r (px 2 va) (px 1 va)) h (by rw [hm]; exact ⟨rfl, rfl⟩)
      ((hp.low m _ hm).2 _ (px_lt _ _))
      (fun k' own' q h' hm' h0 hq hz => h'.linkLow (hm'.trans hm) (px_lt _ _) h0 hq hz)).bind fun res k₂ h₂ => ?_
    rcases h₂ with ⟨pt, rfl, hpt, rfl⟩ | ⟨hno, h₂⟩
    · have hz := hp.missing_zero hpt
      exact ⟨own, h, .refl, fun _ => ⟨rfl, rfl⟩,
        .inr ⟨pt, rfl, hpt, hleaf _ _ h pt hpt, fun _ => by rw [hz]; exact ⟨.zero, .refl⟩⟩⟩
    · have hone := hp.missing_one hm hno
      rcases h₂ with ⟨rfl, rfl, rfl⟩ | ⟨rfl, hc, rfl, h₂, hm₂, hl₂⟩ | ⟨rfl, hc, pt, rfl, hfree, ht, h₂, hm₂⟩
      · refine ⟨own, h, .refl, fun _ => ⟨rfl, rfl⟩, .inl ⟨rfl, fun _ => ?_, by simp⟩⟩
        rw [← vpn_px hva]
        exact hp.absent _ (px_lt _ _) _ (px_lt _ _) hno _ (px_lt _ _)
      · exact ⟨own, h₂, .of_mem hm₂ hl₂, by simp, .inl ⟨rfl, by simp, fun _ => by rwa [hone]⟩⟩
      · refine ⟨_, h₂, .link hfree ⟨rfl, rfl⟩ (.inr rfl) (by rw [hm]; exact ⟨rfl, rfl⟩) ht hm₂, by simp, ?_⟩
        have hpt := update_self pt (Owner.low r (px 2 va) (px 1 va)) own
        exact .inr ⟨pt, rfl, hpt, hleaf _ _ h₂ pt hpt, fun _ => by rw [hone]; exact ⟨hc, ht⟩⟩
  · have htwo := hp.missing_two hno
    have hlow : ∀ q, own q ≠ .low r (px 2 va) (px 1 va) := by
      intro q hq
      obtain ⟨⟨m, hm⟩, -⟩ := hp.leaf q _ _ hq
      exact hno m hm
    rcases h₁ with ⟨rfl, rfl, rfl⟩ | ⟨rfl, hc, rfl, h₁, hm₁, hl₁⟩ | ⟨rfl, hc, m, rfl, hfree, ht, h₁, hm₁⟩
    · refine ⟨own, h, .refl, fun _ => ⟨rfl, rfl⟩, .inl ⟨rfl, fun _ => ?_, by simp⟩⟩
      rw [← vpn_px hva]
      exact hp.absent _ (px_lt _ _) _ (px_lt _ _) hlow _ (px_lt _ _)
    · exact ⟨own, h₁, .of_mem hm₁ hl₁, by simp,
        .inl ⟨rfl, by simp, fun _ hc' => hc (by rw [htwo] at hc'; exact hc'.mono (by omega))⟩⟩
    -- level 1, at the table that was made
    have hm := update_self m (Owner.mid r (px 2 va)) own
    have htab : Tabled r va k k₁ own (update own m (.mid r (px 2 va))) :=
      .link hfree ⟨rfl, rfl⟩ (.inl rfl) hroot ht hm₁
    have hlow₁ : ∀ q, update own m (.mid r (px 2 va)) q ≠ .low r (px 2 va) (px 1 va) := by
      intro q hq
      rw [own_update_iff (by simp) (by rw [hfree]; simp)] at hq
      exact hlow q hq
    refine (walkLevel_local (o := .low r (px 2 va) (px 1 va)) h₁ (by rw [hm]; exact ⟨rfl, rfl⟩)
      ((h₁.pt.low m _ hm).2 _ (px_lt _ _))
      (fun k' own' q h' hm' h0 hq hz => h'.linkLow (hm'.trans hm) (px_lt _ _) h0 hq hz)).bind fun res k₂ h₂ => ?_
    rcases h₂ with ⟨pt, -, hpt, -⟩ | ⟨-, h₂⟩
    · exact absurd hpt (hlow₁ pt)
    rcases h₂ with ⟨hf, -⟩ | ⟨-, hc₂, rfl, h₂, hm₂, hl₂⟩ | ⟨-, hc₂, pt, rfl, hfree₂, ht₂, h₂, hm₂⟩
    · cases hf
    · refine ⟨_, h₂, htab.trans (.of_mem hm₂ hl₂), by simp, .inl ⟨rfl, by simp, fun _ hc' => hc₂ ?_⟩⟩
      rw [htwo] at hc'
      exact (ht.canAlloc_add hc).mp hc'
    · refine ⟨_, h₂, htab.trans (.link hfree₂ ⟨rfl, rfl⟩ (.inr rfl) (by rw [hm]; exact ⟨rfl, rfl⟩) ht₂ hm₂),
        by simp, ?_⟩
      have hpt := update_self pt (Owner.low r (px 2 va) (px 1 va))
        (update own m (.mid r (px 2 va)))
      refine .inr ⟨pt, rfl, hpt, hleaf _ _ h₂ pt hpt, fun _ => ?_⟩
      rw [htwo]
      exact ⟨(ht.canAlloc_add hc).mpr hc₂, ht.trans ht₂⟩

end

end Xv6
