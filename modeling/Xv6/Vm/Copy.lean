import Xv6.Vm.User

/-!
# `uvmclear` and `uvmcopy`

`uvmcopy` fills an empty table with copies of the parent's pages; when it fails, the table is empty again.
-/

namespace Xv6

open Seq

section

variable [K : Layout] {E : Panic → Prop} {k : Kmem} {own : Nat → Owner}
variable {T : Nat → Option (Nat → Nat)} {r q : Nat} {L : Nat → Nat}

/-- A word is written to a page that is no table page. -/
theorem MemInv.setWord (h : MemInv k own T) (hq : (own q).isNode = false) (i v : Nat) :
    MemInv (k.setWord q i v) own T := h.fill hq _

/-- Bytes are written to a page that is no table page. -/
theorem MemInv.setBytes (h : MemInv k own T) (hq : (own q).isNode = false) (off : Nat)
    (bs : List UInt8) : MemInv (k.setBytes q off bs) own T := by
  induction bs generalizing k off with
  | nil => exact h
  | cons b bs ih => exact ih (h.setWord hq _ _) (off + 1)

variable {v c sz : Nat} {Lo Ln : Nat → Nat}

/-! ## `uvmclear` -/

omit K in
theorem pteClearU_mkPte {a perm : Nat} (hp : perm < 1024) :
    ∃ perm', pteClearU (mkPte a perm) = mkPte a perm' ∧ perm' < 1024 ∧ perm' / 2 % 2 = perm / 2 % 2 := by
  refine ⟨perm - perm / 16 % 2 * 16, ?_, by omega, by omega⟩
  unfold pteClearU mkPte
  omega

/-- `uvmclear` of a page that is mapped only changes its flags. -/
theorem uvmclear_spec {va : Nat} (h : MemInv k own T) (hT : T r = some L)
    (hva : va / PGSIZE < NUSER) (hL : L (va / PGSIZE) ≠ 0) :
    wp E (uvmclear r va) k fun _ k' => MemInv k' own (Function.update T r
      (some (Function.update L (va / PGSIZE) (pteClearU (L (va / PGSIZE)))))) ∧
      (∀ q, ¬ NodeOf r (own q) → k'.mem q = k.mem q) ∧ k'.freelist = k.freelist := by
  have hlt : va < MAXVA := by simp only [NUSER, PGSIZE, MAXVA] at hva ⊢; omega
  have hu := (h.table r L hT).2
  refine (uvmclear_local (h.toLocal hT) hlt fun h0 => absurd h0 hL).mono fun _ k' ⟨h', hm, ht⟩ => ?_
  rcases hu.user _ hva with ⟨h0, -⟩ | ⟨q, perm, hq, hpg, hLq, hperm, hr, -⟩
  · exact absurd h0 hL
  obtain ⟨perm', e, hperm', hr'⟩ := pteClearU_mkPte (a := q) hperm
  rw [hLq, e] at h' ⊢
  refine ⟨h.of_within h' (hu.flags hq hperm' (hr'.trans hr)) ⟨.refl, fun q _ hn => hm q fun hn' => hn hn'.1⟩,
    hm, ?_⟩
  rw [ht.free]
  rfl

/-! ## `uvmcopy` -/

/-- What `uvmcopy` leaves, from page `p` on for `n` pages: the child `c` has copies of the pages that the leaves `Lo`
map, or none of its pages. -/
def CopiedPages (c p n : Nat) (Lo : Nat → Nat) (k : Kmem) (own : Nat → Owner) (T : Nat → Option (Nat → Nat))
    (Ln : Nat → Nat) (res : Bool) (k' : Kmem) : Prop :=
  ∃ own' L', MemInv k' own' (Function.update T c (some L')) ∧
    ((res = false ∧ Drops c (PageRange 0 p) k k' own own' Ln L') ∨
    (res = true ∧ Gains c (fun v => PageRange p n v ∧ Lo v ≠ 0) (fun v => pteFlags (Lo v))
      (fun v => k.mem (pte2pa (Lo v))) k k' own own' Ln L'))

/-- The page of a leaf below the trapframe is the table's. -/
theorem UserOk.own_pte2pa (h : UserOk own r L) (hv : v < NUSER) (hL : L v ≠ 0) : own (pte2pa (L v)) = .user r v := by
  rcases h.user v hv with ⟨h0, -⟩ | ⟨q, perm, hq, hp, hLq, hperm, -⟩
  · exact absurd h0 hL
  · rwa [hLq, pte2pa_of_isPage hp hperm]

/-- The flags of a leaf below the trapframe. -/
theorem UserOk.flags_leaf (h : UserOk own r L) (hv : v < NUSER) (hL : L v ≠ 0) :
    pteFlags (L v) < 1024 ∧ pteFlags (L v) / 2 % 2 = 1 ∧ pteV (L v) = true := by
  rcases h.user v hv with ⟨h0, -⟩ | ⟨q, perm, -, -, hLq, hperm, hr, -⟩
  · exact absurd h0 hL
  · rw [hLq, pteFlags_mkPte hperm]
    exact ⟨by omega, by omega, pteV_mkPte⟩

theorem copyLoop_spec {n p : Nat} (h : MemInv k own T) (hT : T r = some Lo)
    (hC : T c = some Ln) (hne : r ≠ c) (hp : p + n ≤ NUSER) (hz : ∀ v < NUSER, p ≤ v → Ln v = 0) :
    wp E (copyLoop r c n (p * PGSIZE)) k (CopiedPages c p n Lo k own T Ln) := by
  induction n generalizing k own T Ln p with
  | zero =>
    exact ⟨own, Ln, by rwa [update_self_table hC], .inr ⟨rfl, .none fun v hv => pageRange_zero.mp hv.1⟩⟩
  | succ n ih =>
    have hlt : p < NUSER := by omega
    have hdiv := mul_pgsize_div p
    have hmax : p * PGSIZE < MAXVA := by simp only [PGSIZE, NUSER, MAXVA] at hlt ⊢; omega
    have hnext : p * PGSIZE + PGSIZE = (p + 1) * PGSIZE := by ring
    have huo := (h.table r Lo hT).2
    have huc := (h.table c Ln hC).2
    have h0 := hz p hlt le_rfl
    have hno := huc.unused hlt h0
    -- a page that the parent does not have
    have hskip : Lo p = 0 → wp E (copyLoop r c n (p * PGSIZE + PGSIZE)) k (CopiedPages c p (n + 1) Lo k own T Ln) := by
      intro hLo
      rw [hnext]
      refine (ih h hT hC (by omega) fun v hv hge => hz v hv (by omega)).mono ?_
      rintro res k' ⟨own', L', h', hres⟩
      refine ⟨own', L', h', hres.imp (And.imp_right fun hd => ?_) (And.imp_right fun hg => ?_)⟩
      · refine Drops.of_unmapped (hd.congr fun v => ?_) h0 hno
        rw [pageRange_succ, Nat.zero_add]
      · refine hg.congr (fun v => ?_) fun _ _ => ⟨rfl, rfl⟩
        rw [pageRange_cons]
        refine ⟨fun hv => ⟨hv.1.resolve_left ?_, hv.2⟩, And.imp_left .inr⟩
        rintro rfl
        exact hv.2 hLo
    -- what both error exits do
    have hundo : ∀ k' own', Local k' own' c Ln → Drops c NoPage k k' own own' Ln Ln →
        wp E (uvmunmap c 0 p true >>= fun _ => pure false) k' (CopiedPages c p (n + 1) Lo k own T Ln) := by
      intro k' own' h' hd
      refine (uvmunmap_local h' rfl ?_ fun _ w _ hw => ?_).bind fun _ k'' hu => ?_
      · rw [Nat.zero_add]
        omega
      · rw [Nat.zero_div, Nat.zero_add] at hw
        exact (huc.ownedAt (by omega)).congr rfl fun q => hd.user_iff.trans (and_iff_left id)
      · rw [Nat.zero_div] at hu
        have hd' := hd.trans (.of_release hu.2)
        exact ⟨_, _, h.drops hC hu.1 hd', .inl ⟨rfl, hd'⟩⟩
    unfold copyLoop
    refine (walk_look_local (h.toLocal hT) hmax).bind ?_
    rintro res k' ⟨rfl, hres⟩
    rw [hdiv] at hres
    rcases hres with ⟨rfl, hLo⟩ | ⟨pt, rfl, hpt, hw⟩
    · exact hskip hLo
    simp only [load]
    rw [wp_bind, wp_gets, hw]
    by_cases hLo : Lo p = 0
    · rw [hLo, if_pos pteV_zero]
      exact hskip hLo
    obtain ⟨hf, hfr, hv⟩ := huo.flags_leaf hlt hLo
    have hpa := huo.own_pte2pa hlt hLo
    rw [if_neg (by simp [hv]), hnext, hdiv]
    have hwords : ∀ q (k₁ : Kmem), own q = .free → (∀ q', q' ≠ q → k₁.mem q' = k'.mem q') →
        k₁.mem (pte2pa (Lo p)) = k'.mem (pte2pa (Lo p)) := by
      intro q k₁ hq hm
      refine hm _ ?_
      rintro rfl
      rw [hq] at hpa
      cases hpa
    refine wp_mapFresh (w := fun k => k.mem (pte2pa (Lo p))) (h.toLocal hC) hmax (mul_pgsize_mod p)
      (by rw [hdiv]; exact fun hn => absurd h0 hn) (by rw [hdiv]; exact hno) hwords
      (fun k₁ own₁ h₁ hd _ => hundo k₁ own₁ h₁ hd) fun k₁ own₁ mem h₁ hg _ _ _ _ _ => ?_
    rw [hdiv] at h₁ hg
    have hm₁ := h.gains hC h₁ hg fun v e => ⟨e ▸ hlt, hf, hfr⟩
    refine (ih hm₁ (by rw [Function.update_of_ne hne, hT]) (Function.update_self ..) (by omega)
      fun v hv hge => ?_).mono ?_
    · rw [Function.update_of_ne (by omega)]
      exact hz v hv (by omega)
    rintro res k'' ⟨own', L', h', hres⟩
    refine ⟨own', L', by rwa [Function.update_idem] at h', ?_⟩
    rcases hres with ⟨e, hd⟩ | ⟨e, hg'⟩
    · refine .inl ⟨e, Drops.after_gain hg (hd.congr fun v => ?_) h0 hno⟩
      rw [pageRange_succ, Nat.zero_add]
    refine .inr ⟨e, ?_⟩
    -- the pages of the parent are as they were
    have hkeep : ∀ v, PageRange (p + 1) n v ∧ Lo v ≠ 0 → k'.mem (pte2pa (Lo v)) = k₁.mem (pte2pa (Lo v)) := by
      rintro v ⟨hv, hL⟩
      have hq := huo.own_pte2pa (v := v) (by have := hv.2; omega) hL
      refine (hg.mem _ (by rw [hq]; simp) ?_).symm
      rw [hq]
      exact not_nodeOf_user
    refine (Gains.trans (hg.congr (fun _ => Iff.rfl) ?_) (hg'.congr (fun _ => Iff.rfl) ?_) ?_).congr (fun v => ?_)
      fun _ _ => ⟨rfl, rfl⟩
    · rintro v rfl
      exact ⟨rfl, rfl⟩
    · exact fun v hv => ⟨rfl, hkeep v hv⟩
    · rintro v rfl ⟨hv, -⟩
      have := hv.1
      omega
    · rw [pageRange_cons]
      constructor
      · rintro ⟨hv, hL⟩
        exact hv.imp id fun hv => ⟨hv, hL⟩
      · rintro (rfl | ⟨hv, hL⟩)
        · exact ⟨.inl rfl, hLo⟩
        · exact ⟨.inr hv, hL⟩

/-- `uvmcopy` to a table with no user pages copies the pages below `sz`, or leaves it without user pages. -/
theorem uvmcopy_pages (h : MemInv k own T) (hT : T r = some Lo)
    (hC : T c = some Ln) (hne : r ≠ c) (hsz : sz ≤ TRAPFRAME) (hz : ∀ v < NUSER, Ln v = 0) :
    wp E (uvmcopy r c sz) k (CopiedPages c 0 (pages sz) Lo k own T Ln) := by
  have := copyLoop_spec (E := E) (p := 0) (n := pages sz) h hT hC hne
    (by simpa using pages_le_nuser hsz) fun v hv _ => hz v hv
  rwa [Nat.zero_mul] at this

/-- The leaves `L'` of a child that a copy has made from the empty leaves `L`: below the trapframe
they are empty from page `n` on. -/
def ChildLeaves (L L' : Nat → Nat) (n : Nat) : Prop :=
  (∀ v, NUSER ≤ v → L' v = L v) ∧ ∀ v < NUSER, n ≤ v → L' v = 0

/-- `uvmcopy` to a table with no user pages: it has those of the parent's size, or none. -/
theorem uvmcopy_spec (h : MemInv k own T) (hT : T r = some Lo)
    (hC : T c = some Ln) (hne : r ≠ c) (hsz : sz ≤ TRAPFRAME) (hz : ∀ v < NUSER, Ln v = 0) :
    wp E (uvmcopy r c sz) k fun res k' =>
      ∃ own' L', Frame c own own' ∧ MemInv k' own' (Function.update T c (some L')) ∧
        ChildLeaves Ln L' (if res then pages sz else 0) := by
  have hN := pages_le_nuser hsz
  refine (uvmcopy_pages h hT hC hne hsz hz).mono fun res k' ⟨own', L', h', hres⟩ => ⟨own', L', ?_, h', ?_⟩
  · rcases hres with ⟨-, hd⟩ | ⟨-, hg⟩
    · exact hd.frame
    · exact hg.frame
  · rcases hres with ⟨rfl, hd⟩ | ⟨rfl, hg⟩
    · have hL : L' = Ln := funext fun v => hd.same v fun hv => pageRange_zero.mp hv
      rw [hL]
      exact ⟨fun _ _ => rfl, fun v hv _ => hz v hv⟩
    · have hL : ∀ v, pages sz ≤ v → L' v = Ln v := by
        intro v hv
        refine hg.same v fun hD => ?_
        have := hD.1.2
        omega
      exact ⟨fun v hv => hL v (by omega), fun v hv hge => (hL v hge).trans (hz v hv)⟩

end

end Xv6
