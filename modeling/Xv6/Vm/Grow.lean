import Xv6.Vm.Fresh

/-!
# Growing and shrinking user memory

`uvmdealloc`, `uvmalloc` and `vmfault` on one page table, with what becomes of every page (`Gains`, `Drops`).

`uvmalloc` has no check of its own against `TRAPFRAME`. When it comes that far it either finds no
free page, or maps over the trapframe and panics with "mappages: remap". So a spec of it asks that
the new size fits, that the free pages run out before, or that this panic is allowed.
-/

namespace Xv6

open Seq

/-- The number of pages of a process of size `sz`. -/
def pages (sz : Nat) : Nat := (sz + (PGSIZE - 1)) / PGSIZE

theorem pgRoundUp_eq {sz : Nat} (h : sz + PGSIZE ≤ U64) : pgRoundUp sz = pages sz * PGSIZE := by
  rw [pgRoundUp_of_lt h]
  rfl

theorem pages_le {sz n : Nat} (h : sz ≤ n * PGSIZE) : pages sz ≤ n := by
  simp only [pages, PGSIZE] at h ⊢
  omega

theorem pages_mul (n : Nat) : pages (n * PGSIZE) = n := by
  simp only [pages, PGSIZE]
  omega

theorem pages_mono {sz sz' : Nat} (h : sz ≤ sz') : pages sz ≤ pages sz' :=
  Nat.div_le_div_right (Nat.add_le_add_right h _)

theorem pages_le_nuser {sz : Nat} (h : sz ≤ TRAPFRAME) : pages sz ≤ NUSER := pages_le h

theorem lt_pages {sz v : Nat} (h : v * PGSIZE < sz) : v < pages sz := by
  simp only [pages, PGSIZE] at h ⊢
  omega

theorem trapframe_add_le {sz : Nat} (h : sz ≤ TRAPFRAME) : sz + PGSIZE ≤ U64 :=
  (Nat.add_le_add_right h _).trans (by simp only [TRAPFRAME, TRAMPOLINE, MAXVA, PGSIZE, U64]; omega)

theorem mul_pgsize_div (n : Nat) : n * PGSIZE / PGSIZE = n := Nat.mul_div_cancel n (by decide)

theorem mul_pgsize_mod (n : Nat) : n * PGSIZE % PGSIZE = 0 := by simp

theorem pgRoundDown_div (a : Nat) : pgRoundDown a / PGSIZE = a / PGSIZE := mul_pgsize_div _

theorem px_pgRoundDown (level a : Nat) : px level (pgRoundDown a) = px level a := by
  unfold px
  rw [Nat.pow_add, ← Nat.div_div_eq_div_mul, ← Nat.div_div_eq_div_mul, show 2 ^ 12 = PGSIZE from rfl, pgRoundDown_div]

theorem pgRoundDown_mod (a : Nat) : pgRoundDown a % PGSIZE = 0 := mul_pgsize_mod _

/-- An `int` that is not negative is passed unchanged. -/
theorem intToU64_of_lt {n : Nat} (h : n < 2 ^ 31) : intToU64 n = n := by
  have e : ((n : Int)).bmod (2 ^ 32) = n := Int.bmod_eq_of_le (by omega) (by omega)
  have hu : (n : Int) % (U64 : Nat) = n := Int.emod_eq_of_lt (by omega) (by simp only [U64]; omega)
  unfold intToU64
  rw [e]
  push_cast at hu ⊢
  rw [hu]
  simp

section

variable [K : Layout] {E : Panic → Prop} {k : Kmem} {own : Nat → Owner} {r : Nat} {L : Nat → Nat}

/-! ## `uvmdealloc` -/

theorem uvmdealloc_local {oldsz newsz : Nat} (h : Local k own r L) (hold : oldsz ≤ TRAPFRAME)
    (ho : ∀ v, pages newsz ≤ v → v < pages oldsz → OwnedAt own r L v) :
    wp E (uvmdealloc r oldsz newsz) k fun res k' => res = min oldsz newsz ∧ ∃ own',
      Local k' own' r (clearRange L (pages newsz) (pages oldsz - pages newsz)) ∧
      Drops r (PageRange (pages newsz) (pages oldsz - pages newsz)) k k' own own' L
        (clearRange L (pages newsz) (pages oldsz - pages newsz)) := by
  -- nothing to unmap
  have hnone : pages oldsz - pages newsz = 0 →
      Local k own r (clearRange L (pages newsz) (pages oldsz - pages newsz)) ∧
      Drops r (PageRange (pages newsz) (pages oldsz - pages newsz)) k k own own L
        (clearRange L (pages newsz) (pages oldsz - pages newsz)) := by
    intro e
    rw [e, clearRange_zero]
    exact ⟨h, Drops.refl.congr fun _ => pageRange_zero⟩
  unfold uvmdealloc
  by_cases hge : newsz ≥ oldsz
  · rw [if_pos hge]
    exact ⟨(min_eq_left hge).symm, own, hnone (Nat.sub_eq_zero_of_le (pages_mono hge))⟩
  have hlt : newsz ≤ oldsz := by omega
  have hp := pages_mono hlt
  have hN := pages_le_nuser hold
  rw [if_neg hge, pgRoundUp_eq (trapframe_add_le hold), pgRoundUp_eq (trapframe_add_le (hlt.trans hold))]
  by_cases hpg : pages newsz * PGSIZE < pages oldsz * PGSIZE
  · rw [if_pos hpg, ← Nat.sub_mul, mul_pgsize_div,
      intToU64_of_lt (by simp only [NUSER] at hN; omega)]
    have hmax : pages newsz * PGSIZE + (pages oldsz - pages newsz) * PGSIZE ≤ MAXVA := by
      rw [← Nat.add_mul, Nat.add_sub_cancel' hp]
      simp only [NUSER, PGSIZE, MAXVA] at hN ⊢
      omega
    refine (uvmunmap_local h (mul_pgsize_mod _) hmax ?_).bind fun _ k' ⟨h', hu⟩ => ?_
    · rw [mul_pgsize_div]
      exact fun _ w h1 h2 => ho w h1 (by omega)
    · rw [mul_pgsize_div] at h' hu
      exact ⟨(min_eq_right hlt).symm, _, h', .of_release hu⟩
  · rw [if_neg hpg]
    exact ⟨(min_eq_right hlt).symm, own, hnone (by simp only [PGSIZE] at hpg; omega)⟩

/-! ## `uvmalloc` -/

/-- What `uvmalloc` leaves, `m` pages from `p` being mapped already and `n` more to map. -/
def Alloced (r p m n newsz xperm : Nat) (k : Kmem) (own : Nat → Owner) (L : Nat → Nat) (res : Nat) (k' : Kmem) :
    Prop :=
  ∃ own' L', Local k' own' r L' ∧
    ((res = 0 ∧ Drops r (PageRange p m) k k' own own' L L') ∨
    (res = newsz ∧ p + m + n ≤ NUSER ∧ k'.freelist.length + n ≤ k.freelist.length ∧
      Gains r (PageRange (p + m) n) (fun _ => PTE_R + PTE_U + xperm) (fun _ _ => 0) k k' own own' L L'))

/-- The loop of `uvmalloc` after `m` pages from `p`. It maps `n` more, or gives all of them back. -/
theorem allocLoop_local {p m n newsz xperm : Nat} (h : Local k own r L) (hpm : p + m ≤ NUSER)
    (ho : ∀ v, p ≤ v → v < p + m → OwnedAt own r L v)
    (hz : ∀ v, p + m ≤ v → v < NUSER → L v = 0 ∧ ∀ q, own q ≠ .user r v) (hx : PTE_R + PTE_U + xperm < 1024)
    (hb : p + m + n ≤ NUSER ∨ k.freelist.length ≤ NUSER - (p + m) ∨
      E .mappagesRemap ∧ L NUSER ≠ 0 ∧ ∀ q, own q ≠ .user r NUSER) :
    wp E (allocLoop r (p * PGSIZE) newsz xperm n ((p + m) * PGSIZE)) k (Alloced r p m n newsz xperm k own L) := by
  induction n generalizing k own L m with
  | zero => exact ⟨own, L, h, .inr ⟨rfl, hpm, le_rfl, .none fun _ hv => pageRange_zero.mp hv⟩⟩
  | succ n ih =>
    have hle : (p + m) * PGSIZE ≤ TRAPFRAME := Nat.mul_le_mul_right PGSIZE hpm
    have hmax : (p + m) * PGSIZE < MAXVA := by
      simp only [TRAPFRAME, TRAMPOLINE, MAXVA, PGSIZE] at hle ⊢
      omega
    have hdiv := mul_pgsize_div (p + m)
    -- what both error exits do
    have hundo : ∀ k' own', Local k' own' r L → Drops r NoPage k k' own own' L L →
        wp E (uvmdealloc r ((p + m) * PGSIZE) (p * PGSIZE) >>= fun _ => pure 0) k'
          (Alloced r p m (n + 1) newsz xperm k own L) := by
      intro k' own' h' hd
      refine (uvmdealloc_local h' hle fun v h1 h2 => ?_).bind fun _ k'' ⟨_, own'', h'', hd'⟩ => ?_
      · rw [pages_mul] at h1 h2
        exact (ho v h1 h2).congr rfl fun q => hd.user_iff.trans (and_iff_left id)
      · rw [pages_mul, pages_mul, Nat.add_sub_cancel_left] at h'' hd'
        exact ⟨own'', _, h'', .inl ⟨rfl, hd.trans hd'⟩⟩
    unfold allocLoop
    by_cases hfull : k.freelist.length ≤ NUSER - (p + m) ∧ p + m = NUSER
    · -- the loop has come to the trapframe, and there are no free pages
      refine (kalloc_local h).bind fun res k₁ hres => ?_
      rcases hres with ⟨rfl, -, h₁, hm₁, -⟩ | ⟨_, -, hc, -⟩
      · exact hundo k₁ own h₁ (.of_mem hm₁)
      · have := hc.1
        omega
    -- the page is free, or mapping it panics
    have hv : (L (p + m) = 0 ∨ E .mappagesRemap ∧ L (p + m) ≠ 0) ∧ ∀ q, own q ≠ .user r (p + m) := by
      rcases Nat.lt_or_ge (p + m) NUSER with hlt | hge
      · exact ⟨.inl (hz _ le_rfl hlt).1, (hz _ le_rfl hlt).2⟩
      · have e : p + m = NUSER := by omega
        rcases hb with hb | hb | ⟨hE, hL, hn⟩
        · omega
        · exact absurd ⟨hb, e⟩ hfull
        · rw [e]
          exact ⟨.inr ⟨hE, hL⟩, hn⟩
    refine wp_mapFresh (w := fun _ _ => 0) h hmax (mul_pgsize_mod _) ?_ (by rw [hdiv]; exact hv.2)
      (fun _ _ _ _ => rfl) (fun k' own' h' hd _ => hundo k' own' h' hd) fun k₁ own₁ mem h₁ hg h0 hc ht _ _ => ?_
    · rw [hdiv]
      exact fun hne => (hv.1.resolve_left hne).1
    rw [hdiv] at h₁ hg h0
    have hlt : p + m < NUSER := by
      by_contra hge
      have e : p + m = NUSER := by omega
      rcases hb with hb | hb | ⟨-, hL, -⟩
      · omega
      · exact hfull ⟨hb, e⟩
      · exact hL (e ▸ h0)
    have hlen : k₁.freelist.length + 1 ≤ k.freelist.length := by
      have := hc.1
      rw [ht.free, List.length_drop]
      omega
    have hnext : (p + m) * PGSIZE + PGSIZE = (p + (m + 1)) * PGSIZE := by ring
    rw [hnext]
    refine (ih (m := m + 1) h₁ (by omega) (fun v h1 h2 => ?_) (fun v h1 h2 => ?_) ?_).mono
      fun res k' ⟨own', L', h', hres⟩ => ⟨own', L', h', ?_⟩
    · by_cases e : v = p + m
      · obtain ⟨q, -, hq, hL, hu⟩ := hg.new v e
        exact .inr ⟨q, _, hq, hL, hx, hu⟩
      · exact (ho v h1 (by omega)).congr (hg.same v e) fun q => hg.user_iff e
    · have e : v ≠ p + m := by omega
      obtain ⟨h0', hn⟩ := hz v (by omega) h2
      exact ⟨(hg.same v e).trans h0', fun q hq => hn q ((hg.user_iff e).mp hq)⟩
    · refine hb.imp (fun hb => by omega) fun hb => hb.imp (fun hb => by omega) fun ⟨hE, hL, hn⟩ => ⟨hE, ?_, ?_⟩
      · rwa [hg.same NUSER (by omega)]
      · exact fun q hq => hn q ((hg.user_iff (by omega)).mp hq)
    · refine hres.imp (fun ⟨e, hd⟩ => ⟨e, .after_gain hg ?_ h0 hv.2⟩) 
        fun ⟨e, hle', hlen', hg'⟩ => ⟨e, by omega, by omega, ?_⟩
      · exact hd.congr fun v => pageRange_succ.symm
      · refine (hg.trans hg' ?_).congr (fun v => pageRange_cons) fun _ _ => ⟨rfl, rfl⟩
        rintro v rfl hr
        have := hr.1
        omega

/-- `uvmalloc` grows the process to the new size, or leaves its leaves as they were. -/
theorem uvmalloc_local {oldsz newsz xperm : Nat} (h : Local k own r L) (hold : oldsz ≤ newsz)
    (hold' : oldsz ≤ TRAPFRAME)
    (hz : ∀ v, pages oldsz ≤ v → v < NUSER → L v = 0 ∧ ∀ q, own q ≠ .user r v) (hx : PTE_R + PTE_U + xperm < 1024)
    (hb : newsz ≤ TRAPFRAME ∨ k.freelist.length ≤ NUSER - pages oldsz ∨
      E .mappagesRemap ∧ L NUSER ≠ 0 ∧ ∀ q, own q ≠ .user r NUSER) :
    wp E (uvmalloc r oldsz newsz xperm) k
      (Alloced r (pages oldsz) 0 (pages newsz - pages oldsz) newsz xperm k own L) := by
  unfold uvmalloc
  rw [if_neg (by omega)]
  simp only
  rw [pgRoundUp_eq (trapframe_add_le hold')]
  have hn : (newsz - pages oldsz * PGSIZE + (PGSIZE - 1)) / PGSIZE = pages newsz - pages oldsz := by
    simp only [pages, PGSIZE] at hold ⊢
    omega
  have hmono := pages_mono hold
  rw [hn]
  refine allocLoop_local (p := pages oldsz) (m := 0) h (pages_le_nuser hold')
    (fun v h1 h2 => absurd h2 (by omega)) hz hx ?_
  refine hb.imp (fun hb => ?_) id
  have := pages_le_nuser hb
  omega

/-! ## `vmfault` -/

/-- `vmfault` maps a zeroed page exactly if the address is below the size, not mapped, and there are pages. -/
theorem vmfault_local {sz va : Nat} (h : Local k own r L) (hsz : sz ≤ TRAPFRAME)
    (ho : L (va / PGSIZE) = 0 → ∀ q, own q ≠ .user r (va / PGSIZE)) :
    wp E (vmfault sz r r va) k fun res k' => ∃ own',
      (res = none ∧ Local k' own' r L ∧ Drops r NoPage k k' own own' L L ∧
        ¬ (va < sz ∧ L (va / PGSIZE) = 0 ∧ CanAlloc k (1 + missing k r va))) ∨
      ∃ mem, res = some mem ∧ own' mem = .user r (va / PGSIZE) ∧
        (va < sz ∧ L (va / PGSIZE) = 0 ∧ CanAlloc k (1 + missing k r va)) ∧
        Took k k' (1 + missing k r va) ∧ TablesFor r va own own' ∧
        Local k' own' r (Function.update L (va / PGSIZE) (mkPte mem (PTE_W + PTE_U + PTE_R))) ∧
        Gains r (· = va / PGSIZE) (fun _ => PTE_W + PTE_U + PTE_R) (fun _ _ => 0) k k' own own' L
          (Function.update L (va / PGSIZE) (mkPte mem (PTE_W + PTE_U + PTE_R))) := by
  unfold vmfault
  by_cases hge : va ≥ sz
  · rw [if_pos hge]
    exact ⟨own, .inl ⟨rfl, h, .refl, fun hc => by omega⟩⟩
  have hdiv := pgRoundDown_div va
  have hmiss : missing k r (pgRoundDown va) = missing k r va := by
    unfold missing
    rw [px_pgRoundDown, px_pgRoundDown]
  have hmax : pgRoundDown va < MAXVA := by
    unfold pgRoundDown
    simp only [PGSIZE, TRAPFRAME, TRAMPOLINE, MAXVA] at hsz ⊢
    omega
  rw [if_neg hge]
  simp only
  refine (ismapped_local h hmax).bind fun res k' ⟨hk, hres⟩ => ?_
  subst hk
  rw [hdiv] at hres
  cases res with
  | true => exact ⟨own, .inl ⟨rfl, h, .refl, fun hc => hres.mp rfl hc.2.1⟩⟩
  | false =>
    have h0 : L (va / PGSIZE) = 0 := by
      by_contra hne
      cases hres.mpr hne
    rw [if_neg (by simp)]
    refine wp_mapFresh (w := fun _ _ => 0) h hmax (pgRoundDown_mod va) ?_ (by rw [hdiv]; exact ho h0)
      (fun _ _ _ _ => rfl) (fun k' own' h' hd hc => ?_) fun k₁ own₁ mem h₁ hg _ hc ht htab hmem => ?_
    · rw [hdiv]
      exact fun hne => absurd h0 hne
    · rw [hmiss] at hc
      exact ⟨own', .inl ⟨rfl, h', hd, fun hc' => hc hc'.2.2⟩⟩
    · rw [hdiv] at h₁ hg hmem
      rw [hmiss] at hc ht
      refine ⟨own₁, .inr ⟨mem, rfl, hmem, ⟨by omega, h0, hc⟩, ht, fun q o ho h1 h2 => htab q o ho ?_ ?_, h₁, hg⟩⟩
      · rwa [px_pgRoundDown]
      · rwa [px_pgRoundDown, px_pgRoundDown]

end

end Xv6
