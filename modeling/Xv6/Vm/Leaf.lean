import Xv6.Vm.Local

/-!
# Leaves of one page table

Specs of the functions of `vm.c` that look up, set and clear the leaves of one page table: `walkaddr`,
`ismapped`, `mappages` of a page, `uvmunmap`, `uvmclear`. The leaves are a map from virtual page numbers to
entries, and each function does to the map what its name says.

`uvmunmap` with `do_free` needs that the pages it finds are the table's own (`OwnedAt`); they go back to the
free list (`release`).
-/

namespace Xv6

open Seq
open Function (update update_eq_self_iff update_of_ne update_self)

section

variable [K : Layout] {E : Panic → Prop} {k k' k'' : Kmem} {own own' own'' : Nat → Owner}
variable {r q va : Nat} {L L' : Nat → Nat}

/-! ## Looking up -/

theorem walk_look_local (h : Local k own r L) (hva : va < MAXVA) :
    wp E (walk r va false) k fun res k' => k' = k ∧
      ((res = none ∧ L (va / PGSIZE) = 0) ∨
        ∃ pt, res = some (pt, px 0 va) ∧ own pt = .low r (px 2 va) (px 1 va) ∧
          k.mem pt (px 0 va) = L (va / PGSIZE)) := by
  refine (walk_local h hva).mono fun res k' ⟨own', _, _, hf, hres⟩ => ?_
  obtain ⟨rfl, rfl⟩ := hf rfl
  rcases hres with ⟨rfl, h0, -⟩ | ⟨pt, rfl, hpt, hw, -⟩
  · exact ⟨rfl, .inl ⟨rfl, h0 rfl⟩⟩
  · exact ⟨rfl, .inr ⟨pt, rfl, hpt, hw⟩⟩

/-- `walkaddr` gives the page of a leaf for the user. -/
theorem walkaddr_local (h : Local k own r L) (hva : va < MAXVA) :
    wp E (walkaddr r va) k fun res k' => k' = k ∧
      res = if pteU (L (va / PGSIZE)) then some (pte2pa (L (va / PGSIZE))) else none := by
  unfold walkaddr
  rw [if_neg (by omega)]
  refine (walk_look_local h hva).bind fun res k' ⟨hk, hres⟩ => ?_
  subst hk
  rcases hres with ⟨rfl, h0⟩ | ⟨pt, rfl, hpt, hw⟩
  · rw [h0]
    exact ⟨rfl, rfl⟩
  simp only [load]
  rw [wp_bind, wp_gets, hw]
  rcases h.pt.valid (va / PGSIZE) with h0 | hv
  · rw [h0, if_pos pteV_zero]
    exact ⟨rfl, rfl⟩
  rw [if_neg (by simp [hv])]
  cases hu : pteU (L (va / PGSIZE)) with
  | false => exact ⟨rfl, rfl⟩
  | true => exact ⟨rfl, rfl⟩

omit K in
theorem walkaddr_above (hva : MAXVA ≤ va) : wp E (walkaddr r va) k fun res k' => k' = k ∧ res = none := by
  unfold walkaddr
  rw [if_pos hva]
  exact ⟨rfl, rfl⟩

theorem ismapped_local (h : Local k own r L) (hva : va < MAXVA) :
    wp E (ismapped r va) k fun res k' => k' = k ∧ (res = true ↔ L (va / PGSIZE) ≠ 0) := by
  unfold ismapped
  refine (walk_look_local h hva).bind fun res k' ⟨hk, hres⟩ => ?_
  subst hk
  rcases hres with ⟨rfl, h0⟩ | ⟨pt, rfl, hpt, hw⟩
  · exact ⟨rfl, by simp [h0]⟩
  simp only [load]
  rw [wp_bind, wp_gets, hw]
  refine ⟨rfl, ?_⟩
  rcases h.pt.valid (va / PGSIZE) with h0 | hv
  · simp [h0, pteV_zero]
  · refine ⟨fun _ h0 => ?_, fun _ => hv⟩
    rw [h0] at hv
    cases hv

/-! ## Mapping a page -/

variable {v n : Nat} {doFree : Bool}

omit K in
/-- A word of a table page is set. -/
theorem Tabled.store {pt x : Nat} (h : Tabled r va k k' own own') (hpt : NodeOf r (own' pt)) :
    Tabled r va k (k'.setWord pt x v) own own' where
  taken := h.taken
  mem q hq hn := by
    rw [setWord_mem_of_ne]
    · exact h.mem q hq hn
    · rintro rfl
      rw [h.taken.keep rfl hq] at hpt
      exact hn hpt
  only := h.only
  free_le := h.free_le

/-- `mappages` of one page sets the leaf if there are pages for the tables on the way. -/
theorem mapPage_local {pa perm : Nat} (h : Local k own r L) (hva : va < MAXVA)
    (hE : L (va / PGSIZE) ≠ 0 → E .mappagesRemap) :
    wp E (mapPage r va pa perm) k fun ok k' => ∃ own', Tabled r va k k' own own' ∧
      ((ok = false ∧ ¬ CanAlloc k (missing k r va) ∧ Local k' own' r L) ∨
      (ok = true ∧ L (va / PGSIZE) = 0 ∧ CanAlloc k (missing k r va) ∧ Took k k' (missing k r va) ∧
        Local k' own' r (update L (va / PGSIZE) (mkPte pa perm)))) := by
  unfold mapPage
  refine (walk_local h hva).bind fun res k' ⟨own', h', ht, _, hres⟩ => ?_
  rcases hres with ⟨rfl, -, hc⟩ | ⟨pt, rfl, hpt, hw, hc⟩
  · exact ⟨own', ht, .inl ⟨rfl, hc rfl, h'⟩⟩
  obtain ⟨hc, htook⟩ := hc rfl
  simp only [load]
  rw [wp_bind, wp_gets, hw, wp_ite]
  constructor
  · intro hv
    refine wp_stop.mpr (hE fun h0 => ?_)
    rw [h0] at hv
    cases hv
  · intro hv
    have h0 := (h'.pt.valid (va / PGSIZE)).resolve_right hv
    have hset := h'.setLeaf (x := px 0 va) hpt (px_lt _ _) (.inr (show pteV (mkPte pa perm) = true from pteV_mkPte))
    rw [vpn_px hva] at hset
    exact ⟨own', ht.store (by rw [hpt]; exact ⟨rfl, rfl⟩),
      .inr ⟨rfl, h0, hc, ⟨htook.fails, htook.calls, htook.free⟩, hset⟩⟩

/-! ## `uvmclear` -/

omit K in
theorem pteV_clearU {pte : Nat} (h : pteV pte = true) : pteV (pteClearU pte) = true := by
  simp only [pteV, pteClearU, beq_iff_eq] at h ⊢
  omega

/-- `uvmclear` takes the page away from the user; it panics only if there is none. -/
theorem uvmclear_local (h : Local k own r L) (hva : va < MAXVA)
    (hE : L (va / PGSIZE) = 0 → E .uvmclear) :
    wp E (uvmclear r va) k fun _ k' =>
      Local k' own r (update L (va / PGSIZE) (pteClearU (L (va / PGSIZE)))) ∧
      (∀ q, ¬ NodeOf r (own q) → k'.mem q = k.mem q) ∧ Took k k' 0 := by
  unfold uvmclear
  refine (walk_look_local h hva).bind fun res k' ⟨hk, hres⟩ => ?_
  subst hk
  rcases hres with ⟨rfl, h0⟩ | ⟨pt, rfl, hpt, hw⟩
  · exact wp_stop.mpr (hE h0)
  simp only [load]
  rw [wp_bind, wp_gets, hw]
  have hv : pteClearU (L (va / PGSIZE)) = 0 ∨ pteV (pteClearU (L (va / PGSIZE))) = true := by
    rcases h.pt.valid (va / PGSIZE) with h0 | hv
    · rw [h0]
      exact .inl rfl
    · exact .inr (pteV_clearU hv)
  have hset := h.setLeaf (x := px 0 va) hpt (px_lt _ _) hv
  rw [vpn_px hva] at hset
  refine ⟨hset, fun q hq => setWord_mem_of_ne ?_, ⟨rfl, rfl, rfl⟩⟩
  rintro rfl
  rw [hpt] at hq
  exact hq ⟨rfl, rfl⟩

/-! ## Unmapping pages -/

/-- The page that the leaf of `v` maps is the table's own, or there is none. -/
def OwnedAt (own : Nat → Owner) (r : Nat) (L : Nat → Nat) (v : Nat) : Prop :=
  (L v = 0 ∧ ∀ q, own q ≠ .user r v) ∨
    ∃ q perm, own q = .user r v ∧ L v = mkPte q perm ∧ perm < 1024 ∧ ∀ q', own q' = .user r v → q' = q

theorem UserOk.ownedAt (h : UserOk own r L) (hv : v < NUSER) : OwnedAt own r L v := by
  rcases h.user v hv with h0 | ⟨q, perm, hq, -, hL, hperm, -, hu⟩
  · exact .inl h0
  · exact .inr ⟨q, perm, hq, hL, hperm, hu⟩

omit K in
/-- The owners after the pages of table `r` at the `n` virtual pages from `v` are freed. -/
def release (own : Nat → Owner) (r v n : Nat) : Nat → Owner := fun q =>
  match own q with
  | .user r' w => if r' = r ∧ v ≤ w ∧ w < v + n then .free else .user r' w
  | o => o

omit K in
theorem release_user {w : Nat} (hq : own q = .user r w) (h1 : v ≤ w) (h2 : w < v + n) :
    release own r v n q = .free := by
  simp only [release, hq]
  exact if_pos ⟨trivial, h1, h2⟩

omit K in
theorem release_keep (h : ∀ w, v ≤ w → w < v + n → own q ≠ .user r w) : release own r v n q = own q := by
  unfold release
  split
  · rename_i r' w hq
    rw [if_neg, hq]
    rintro ⟨rfl, h1, h2⟩
    exact h w h1 h2 hq
  · rfl

omit K in
theorem release_zero : release own r v 0 = own :=
  funext fun _ => release_keep fun _ h1 h2 => absurd h2 (by omega)

omit K in
theorem release_cases (own : Nat → Owner) (r v n q : Nat) :
    (release own r v n q = own q ∧ ∀ w, v ≤ w → w < v + n → own q ≠ .user r w) ∨
    (release own r v n q = .free ∧ ∃ w, v ≤ w ∧ w < v + n ∧ own q = .user r w) := by
  by_cases h : ∃ w, v ≤ w ∧ w < v + n ∧ own q = .user r w
  · obtain ⟨w, h1, h2, hq⟩ := h
    exact .inr ⟨release_user hq h1 h2, w, h1, h2, hq⟩
  · have h' : ∀ w, v ≤ w → w < v + n → own q ≠ .user r w := fun w h1 h2 hq => h ⟨w, h1, h2, hq⟩
    exact .inl ⟨release_keep h', h'⟩

omit K in
theorem release_succ : release (release own r v 1) r (v + 1) n = release own r v (n + 1) := by
  funext q
  rcases release_cases own r v 1 q with ⟨h1, hk1⟩ | ⟨h1, w, hw1, hw2, hq⟩
  · rcases release_cases own r v (n + 1) q with ⟨h2, hk2⟩ | ⟨h2, w, hw1, hw2, hq⟩
    · rw [h2, release_keep, h1]
      intro w hw1 hw2
      rw [h1]
      exact hk2 w (by omega) (by omega)
    · have hne : w ≠ v := by
        rintro rfl
        exact hk1 w le_rfl (by omega) hq
      rw [h2, release_user (w := w) (h1.trans hq) (by omega) (by omega)]
  · rw [release_user (n := n + 1) hq hw1 (by omega), release_keep, h1]
    intro w' _ _
    rw [h1]
    simp

omit K in
/-- The page at `v` is released. -/
theorem release_one (hq : own q = .user r v) (hu : ∀ q', own q' = .user r v → q' = q) :
    release own r v 1 = update own q .free := by
  funext q'
  by_cases e : q' = q
  · rw [e, update_self, release_user hq le_rfl (by omega)]
  · rw [update_of_ne e, release_keep]
    intro w h1 h2 hq'
    obtain rfl : w = v := by omega
    exact e (hu q' hq')

omit K in
/-- The leaves `L` with `n` pages from `v` unmapped. -/
def clearRange (L : Nat → Nat) (v n : Nat) : Nat → Nat :=
  fun w => if v ≤ w ∧ w < v + n then 0 else L w

omit K in
theorem clearRange_zero : clearRange L v 0 = L := by
  funext w
  exact if_neg (by omega)

omit K in
theorem clearRange_succ : clearRange (update L v 0) (v + 1) n = clearRange L v (n + 1) := by
  funext w
  unfold clearRange
  by_cases e : w = v
  · subst e; simp
  · rw [update_of_ne e]
    exact if_congr (by omega) rfl rfl

/-- The memory after `kfree` of page `q`. -/
def Kmem.freed (k : Kmem) (q : Nat) : Kmem :=
  { k.setPage q fun _ => 0x0101010101010101 with freelist := q :: k.freelist }

/-- `kfree` of a page does not panic. -/
theorem wp_kfree {Q : Unit → Kmem → Prop} (hq : IsPage q) (h : Q () (k.freed q)) : wp E (kfree q) k Q := by
  obtain ⟨h1, h2, h3⟩ := hq
  unfold kfree
  rw [if_neg (by omega)]
  exact h

/-- What `uvmunmap` leaves alone: the words of the pages that it does not free, and the count of calls. -/
structure Unmapped (r : Nat) (k k' : Kmem) (own own' : Nat → Owner) : Prop where
  mem : ∀ q, own q ≠ .free → ¬ NodeOf r (own q) → own' q = own q → k'.mem q = k.mem q
  fails : k'.fails = k.fails
  calls : k'.calls = k.calls

omit K in
theorem Unmapped.refl : Unmapped r k k own own' := ⟨fun _ _ _ _ => rfl, rfl, rfl⟩

/-- The owners after `uvmunmap`. -/
def unmapOwn (own : Nat → Owner) (r v n : Nat) (doFree : Bool) : Nat → Owner :=
  if doFree then release own r v n else own

theorem unmapPage_local (h : Local k own r L) (hva : va < MAXVA)
    (ho : doFree = true → OwnedAt own r L (va / PGSIZE)) :
    wp E (unmapPage r doFree va) k fun _ k' =>
      Local k' (unmapOwn own r (va / PGSIZE) 1 doFree) r (update L (va / PGSIZE) 0) ∧
      Unmapped r k k' own (unmapOwn own r (va / PGSIZE) 1 doFree) := by
  -- a leaf that is not set: nothing happens
  have hskip : L (va / PGSIZE) = 0 →
      Local k (unmapOwn own r (va / PGSIZE) 1 doFree) r (update L (va / PGSIZE) 0) ∧
        Unmapped r k k own (unmapOwn own r (va / PGSIZE) 1 doFree) := by
    intro h0
    have hown : unmapOwn own r (va / PGSIZE) 1 doFree = own := by
      cases doFree with
      | false => rfl
      | true =>
        rcases ho rfl with ⟨-, hn⟩ | ⟨q, perm, -, hL, -⟩
        · refine funext fun q => release_keep fun w h1 h2 hq => ?_
          obtain rfl : w = va / PGSIZE := by omega
          exact hn q hq
        · exact absurd (hL.symm.trans h0) mkPte_ne_zero
    rw [hown, update_eq_self_iff.mpr h0.symm]
    exact ⟨h, .refl⟩
  unfold unmapPage
  refine (walk_look_local h hva).bind fun res k' ⟨hk, hres⟩ => ?_
  subst hk
  rcases hres with ⟨rfl, h0⟩ | ⟨pt, rfl, hpt, hw⟩
  · exact hskip h0
  simp only [load]
  rw [wp_bind, wp_gets, hw]
  rcases h.pt.valid (va / PGSIZE) with h0 | hv
  · rw [h0, if_pos pteV_zero]
    exact hskip h0
  rw [if_neg (by simp [hv])]
  have hset := h.setLeaf (x := px 0 va) hpt (px_lt _ _) (.inl (rfl : (0 : Nat) = 0))
  rw [vpn_px hva] at hset
  have hmem : ∀ q, ¬ NodeOf r (own q) → q ≠ pt := by
    rintro q hq rfl
    rw [hpt] at hq
    exact hq ⟨rfl, rfl⟩
  cases doFree with
  | false =>
    exact ⟨hset, ⟨fun q _ hn _ => setWord_mem_of_ne (hmem q hn), rfl, rfl⟩⟩
  | true =>
    rcases ho rfl with ⟨h0, -⟩ | ⟨q, perm, hq, hL, hperm, hu⟩
    · rw [h0] at hv
      cases hv
    have hpg := h.page q (by rw [hq]; simp)
    have hnode : ¬ NodeOf r (own q) := by
      rw [hq]
      exact fun hn => by cases hn.2
    have hptq : pt ≠ q := (hmem q hnode).symm
    rw [hL, if_pos rfl, pte2pa_of_isPage hpg hperm, wp_bind]
    refine wp_kfree hpg ?_
    have hown : unmapOwn own r (va / PGSIZE) 1 true = update own q .free := release_one hq hu
    rw [hown]
    -- the page is freed first; as the leaf is then cleared, the order does not matter
    have hfreed : ∀ q', q' ≠ q →
        ((k'.freed q).setWord pt (px 0 va) 0).mem q' = (k'.setWord pt (px 0 va) 0).mem q' := by
      intro q' e
      by_cases e' : q' = pt
      · subst e'
        show update _ _ _ _ = update _ _ _ _
        simp [Kmem.freed, Kmem.setPage, update_of_ne e]
      · rw [setWord_mem_of_ne e', setWord_mem_of_ne e']
        exact update_of_ne e _ _
    refine ⟨hset.push (by rw [hq]; simp) (by rw [hq]; simp) hnode rfl hfreed, ⟨fun q' _ hn hkeep => ?_, rfl, rfl⟩⟩
    have hne : q' ≠ q := by
      rintro rfl
      rw [update_self, hq] at hkeep
      cases hkeep
    rw [hfreed q' hne, setWord_mem_of_ne (hmem q' hn)]

/-- The loop of `uvmunmap`. -/
theorem unmapLoop_local {a : Nat} (h : Local k own r L) (ha : a + n * PGSIZE ≤ MAXVA)
    (ho : doFree = true → ∀ w, a / PGSIZE ≤ w → w < a / PGSIZE + n → OwnedAt own r L w) :
    wp E (unmapLoop r doFree n a) k fun _ k' =>
      Local k' (unmapOwn own r (a / PGSIZE) n doFree) r (clearRange L (a / PGSIZE) n) ∧
      Unmapped r k k' own (unmapOwn own r (a / PGSIZE) n doFree) := by
  induction n generalizing k own L a with
  | zero =>
    have hown : unmapOwn own r (a / PGSIZE) 0 doFree = own := by
      cases doFree with
      | false => rfl
      | true => exact release_zero
    rw [hown, clearRange_zero]
    exact ⟨h, .refl⟩
  | succ n ih =>
    have hpg : 0 < PGSIZE := by decide
    have hva : a < MAXVA := by rw [Nat.succ_mul] at ha; omega
    have hnext : (a + PGSIZE) / PGSIZE = a / PGSIZE + 1 := Nat.add_div_right a hpg
    refine (unmapPage_local h hva fun hd => ho hd _ le_rfl (by omega)).bind fun _ k₁ ⟨h₁, hu₁⟩ => ?_
    refine (ih h₁ (by rw [Nat.succ_mul] at ha; omega) fun hd w hw1 hw2 => ?_).mono fun _ k₂ ⟨h₂, hu₂⟩ => ?_
    · rw [hnext] at hw1 hw2
      have hne : w ≠ a / PGSIZE := by omega
      -- the page at `w` is still there
      have hown : ∀ q, unmapOwn own r (a / PGSIZE) 1 doFree q = .user r w ↔ own q = .user r w := by
        intro q
        rw [hd]
        rcases release_cases own r (a / PGSIZE) 1 q with
          ⟨e, -⟩ | ⟨e, w', hw1', hw2', hq⟩
        · exact e ▸ Iff.rfl
        · obtain rfl : w' = a / PGSIZE := by omega
          show release own r (a / PGSIZE) 1 q = .user r w ↔ _
          rw [e, hq]
          simp [Ne.symm hne]
      rcases ho hd w (by omega) (by omega) with ⟨h0, hn⟩ | ⟨q, perm, hq, hL, hperm, hu⟩
      · exact .inl ⟨by rw [update_of_ne hne, h0], fun q hq => hn q ((hown q).mp hq)⟩
      · exact .inr ⟨q, perm, (hown q).mpr hq, by rw [update_of_ne hne, hL], hperm,
          fun q' hq' => hu q' ((hown q').mp hq')⟩
    · rw [hnext, clearRange_succ] at h₂
      rw [hnext] at hu₂
      have hown : unmapOwn (unmapOwn own r (a / PGSIZE) 1 doFree) r (a / PGSIZE + 1) n doFree =
          unmapOwn own r (a / PGSIZE) (n + 1) doFree := by
        cases doFree with
        | false => rfl
        | true => exact release_succ
      rw [hown] at h₂ hu₂
      refine ⟨h₂, ⟨fun q hf hn hk => ?_, hu₂.fails.trans hu₁.fails, hu₂.calls.trans hu₁.calls⟩⟩
      have hk₁ : unmapOwn own r (a / PGSIZE) 1 doFree q = own q := by
        cases doFree with
        | false => rfl
        | true =>
          rcases release_cases own r (a / PGSIZE) 1 q with
            ⟨e, -⟩ | ⟨-, w, hw1, hw2, hq⟩
          · exact e
          · have : unmapOwn own r (a / PGSIZE) (n + 1) true q = .free := release_user hq hw1 (by omega)
            rw [hk] at this
            exact absurd this hf
      rw [hu₂.mem q (by rwa [hk₁]) (by rwa [hk₁]) (by rw [hk, hk₁]), hu₁.mem q hf hn hk₁]

/-- `uvmunmap` clears the leaves of its range. -/
theorem uvmunmap_local (h : Local k own r L) (hal : va % PGSIZE = 0) (hva : va + n * PGSIZE ≤ MAXVA)
    (ho : doFree = true → ∀ w, va / PGSIZE ≤ w → w < va / PGSIZE + n → OwnedAt own r L w) :
    wp E (uvmunmap r va n doFree) k fun _ k' =>
      Local k' (unmapOwn own r (va / PGSIZE) n doFree) r (clearRange L (va / PGSIZE) n) ∧
      Unmapped r k k' own (unmapOwn own r (va / PGSIZE) n doFree) := by
  unfold uvmunmap
  rw [if_neg (by simp [hal])]
  have e : ((va + n * PGSIZE) % U64 - va + (PGSIZE - 1)) / PGSIZE = n := by
    simp only [PGSIZE, MAXVA, U64] at hva ⊢
    omega
  rw [e]
  exact unmapLoop_local h hva ho

end

end Xv6
