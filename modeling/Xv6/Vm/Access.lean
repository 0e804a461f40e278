import Xv6.Vm.Bytes
import Xv6.Vm.Rollback

/-!
# `copyin` and `copyout`, exactly

A copy goes through the pages of its range from the first one. `Usable` says which pages it can pass, with those that
`vmfault` maps on the way: whether there are pages for all of them is a count of free pages (`needs`), for the pages
themselves and the tables that are missing. So how far a copy comes depends on the memory before it only, and the
bytes of the pages that it passed are transferred.
-/

namespace Xv6

open Seq

/-! ## How many pages it takes to map some pages -/

/-- The root has no table at index `i`. -/
def noMid (k : Kmem) (r i : Nat) : Bool := !pteV (k.mem r i)

/-- There is no table for the virtual pages from `512 * w` to `512 * w + 511`. -/
def noLow (k : Kmem) (r w : Nat) : Bool :=
  noMid k r (w / 512) || !pteV (k.mem (pte2pa (k.mem r (w / 512))) (w % 512))

/-- The number of free pages that it takes to map the virtual pages `s`. -/
def needs (k : Kmem) (r : Nat) (s : Finset Nat) : Nat :=
  s.card + ((s.image (· / 2 ^ 18)).filter (noMid k r ·)).card + ((s.image (· / 2 ^ 9)).filter (noLow k r ·)).card

/-- Those of the `n` virtual pages from `v` that are not mapped. -/
def unmapped (L : Nat → Nat) (v n : Nat) : Finset Nat := (Finset.Ico v (v + n)).filter (L · = 0)

/-- One element apart, that fails the test afterwards. -/
theorem card_filter_insert (P P' : Nat → Bool) (s : Finset Nat) (x : Nat)
    (h : ∀ y ∈ s, P' y = true ↔ P y = true ∧ y ≠ x) :
    ((insert x s).filter (P ·)).card = (if P x then 1 else 0) + (s.filter (P' ·)).card := by
  have e : s.filter (P' ·) = (s.filter (P ·)).erase x := by
    ext y
    rw [Finset.mem_filter, Finset.mem_erase, Finset.mem_filter]
    refine ⟨fun ⟨hy, hp⟩ => ⟨((h y hy).mp hp).2, hy, ((h y hy).mp hp).1⟩,
      fun ⟨hne, hy, hp⟩ => ⟨hy, (h y hy).mpr ⟨hp, hne⟩⟩⟩
  rw [Finset.filter_insert, e]
  by_cases hx : P x = true
  · have e' : insert x (s.filter (P ·)) = insert x ((s.filter (P ·)).erase x) := by
      ext y
      by_cases hy : y = x
      · simp [hy]
      · simp [hy]
    rw [if_pos hx, if_pos hx, e', Finset.card_insert_of_notMem (Finset.notMem_erase x _), Nat.add_comm]
  · rw [if_neg hx, if_neg hx, Nat.zero_add, Finset.erase_eq_of_notMem]
    exact fun hmem => hx (Finset.mem_filter.mp hmem).2

variable {k : Kmem} {r v : Nat} {s : Finset Nat}

theorem needs_mono {t : Finset Nat} (h : s ⊆ t) : needs k r s ≤ needs k r t := by
  unfold needs
  have h1 := Finset.card_le_card h
  have h2 := Finset.card_le_card (Finset.filter_subset_filter (noMid k r ·)
    (Finset.image_subset_image (f := (· / 2 ^ 18)) h))
  have h3 := Finset.card_le_card (Finset.filter_subset_filter (noLow k r ·)
    (Finset.image_subset_image (f := (· / 2 ^ 9)) h))
  omega

theorem px_page (hv : v < NUSER) : px 2 (v * PGSIZE) = v / 2 ^ 18 ∧ px 1 (v * PGSIZE) = v / 2 ^ 9 % 512 := by
  unfold px
  simp only [PGSIZE, NUSER] at *
  omega

theorem missing_page (hv : v < NUSER) :
    missing k r (v * PGSIZE) = (if noMid k r (v / 2 ^ 18) then 1 else 0) + if noLow k r (v / 2 ^ 9) then 1 else 0 := by
  obtain ⟨h2, h1⟩ := px_page hv
  have e : v / 2 ^ 9 / 512 = v / 2 ^ 18 := by omega
  unfold missing noLow noMid
  rw [h2, h1, e]
  cases hm : pteV (k.mem r (v / 2 ^ 18)) with
  | false => simp only [hm, Bool.not_false, Bool.true_or, if_true]
  | true =>
    cases hl : pteV (k.mem (pte2pa (k.mem r (v / 2 ^ 18))) (v / 2 ^ 9 % 512)) with
    | false => simp only [hm, hl, Bool.not_true, Bool.not_false, Bool.or_true, Bool.true_eq_false, Bool.false_eq_true,
      if_true, if_false]
    | true => simp only [hm, hl, Bool.not_true, Bool.or_false, Bool.true_eq_false, Bool.false_eq_true, if_false]

/-- The first page apart: it takes a page and the tables that are missing for it. -/
theorem needs_insert {k' : Kmem} (hv : v < NUSER) (hs : v ∉ s)
    (hm : ∀ u ∈ s, noMid k' r (u / 2 ^ 18) = true ↔ noMid k r (u / 2 ^ 18) = true ∧ u / 2 ^ 18 ≠ v / 2 ^ 18)
    (hl : ∀ u ∈ s, noLow k' r (u / 2 ^ 9) = true ↔ noLow k r (u / 2 ^ 9) = true ∧ u / 2 ^ 9 ≠ v / 2 ^ 9) :
    needs k r (insert v s) = 1 + missing k r (v * PGSIZE) + needs k' r s := by
  have h1 := card_filter_insert (noMid k r) (noMid k' r) (s.image (· / 2 ^ 18)) (v / 2 ^ 18) (by
    intro y hy
    obtain ⟨u, hu, rfl⟩ := Finset.mem_image.mp hy
    exact hm u hu)
  have h2 := card_filter_insert (noLow k r) (noLow k' r) (s.image (· / 2 ^ 9)) (v / 2 ^ 9) (by
    intro y hy
    obtain ⟨u, hu, rfl⟩ := Finset.mem_image.mp hy
    exact hl u hu)
  unfold needs
  rw [Finset.image_insert, Finset.image_insert, Finset.card_insert_of_notMem hs, h1, h2, missing_page hv]
  omega

theorem needs_singleton {L : Nat → Nat} (hv : v < NUSER) :
    needs k r (insert v (unmapped L (v + 1) 0)) = 1 + missing k r (v * PGSIZE) := by
  have e : unmapped L (v + 1) 0 = ∅ := by simp [unmapped]
  have h : needs k r (insert v ∅) = 1 + missing k r (v * PGSIZE) + needs k r ∅ :=
    needs_insert hv (by simp) (by simp) (by simp)
  rw [e, h]
  simp [needs]

theorem needs_congr {k' : Kmem} (hm : ∀ u ∈ s, noMid k' r (u / 2 ^ 18) = noMid k r (u / 2 ^ 18))
    (hl : ∀ u ∈ s, noLow k' r (u / 2 ^ 9) = noLow k r (u / 2 ^ 9)) : needs k' r s = needs k r s := by
  have h1 : (s.image (· / 2 ^ 18)).filter (noMid k' r ·) = (s.image (· / 2 ^ 18)).filter (noMid k r ·) := by
    refine Finset.filter_congr fun y hy => ?_
    obtain ⟨u, hu, rfl⟩ := Finset.mem_image.mp hy
    rw [hm u hu]
  have h2 : (s.image (· / 2 ^ 9)).filter (noLow k' r ·) = (s.image (· / 2 ^ 9)).filter (noLow k r ·) := by
    refine Finset.filter_congr fun y hy => ?_
    obtain ⟨u, hu, rfl⟩ := Finset.mem_image.mp hy
    rw [hl u hu]
  unfold needs
  rw [h1, h2]

section

variable [K : Layout] {E : Panic → Prop} {k k' : Kmem} {own own' : Nat → Owner}
variable {T : Nat → Option (Nat → Nat)} {r : Nat} {L L' : Nat → Nat}

theorem Local.noMid_iff {i : Nat} (h : Local k own r L) (hi : i < 512) :
    noMid k r i = true ↔ ∀ q, own q ≠ .mid r i := by
  unfold noMid
  constructor
  · intro hv q hq
    rw [((h.pt.mid i hi).pte hq).1] at hv
    cases hv
  · intro hn
    rw [(h.pt.mid i hi).eq_zero hn]
    rfl

theorem Local.noLow_iff {w : Nat} (h : Local k own r L) (hw : w < 512 * 512) :
    noLow k r w = true ↔ ∀ q, own q ≠ .low r (w / 512) (w % 512) := by
  have hi : w / 512 < 512 := by omega
  have hj : w % 512 < 512 := Nat.mod_lt _ (by omega)
  unfold noLow
  by_cases hm : ∀ q, own q ≠ .mid r (w / 512)
  · rw [(h.noMid_iff hi).mpr hm, Bool.true_or]
    refine ⟨fun _ q hq => ?_, fun _ => rfl⟩
    obtain ⟨⟨m, hm'⟩, -⟩ := h.pt.leaf q _ _ hq
    exact hm m hm'
  · obtain ⟨m, hm'⟩ := not_forall_not.mp hm
    obtain ⟨h1, h2⟩ := (h.pt.mid _ hi).pte hm'
    have hent := (h.pt.low m _ hm').2 _ hj
    rw [show noMid k r (w / 512) = false by unfold noMid; rw [h1]; rfl, Bool.false_or, h2]
    constructor
    · intro hv q hq
      rw [(hent.pte hq).1] at hv
      cases hv
    · intro hn
      rw [hent.eq_zero hn]
      rfl

/-- `noMid` and `noLow` look at the table pages only. -/
theorem Local.needs_eq {s : Finset Nat} (h : Local k own r L) (h' : Local k' own' r L')
    (ho : ∀ q o, NodeOf r o → (own' q = o ↔ own q = o)) (hs : ∀ u ∈ s, u < NUSER) : needs k' r s = needs k r s := by
  refine needs_congr (fun u hu => Bool.eq_iff_iff.mpr ?_) fun u hu => Bool.eq_iff_iff.mpr ?_
  · have hi : u / 2 ^ 18 < 512 := by
      have := hs u hu
      simp only [NUSER] at this
      omega
    rw [h'.noMid_iff hi, h.noMid_iff hi]
    exact forall_congr' fun q => not_congr (ho q _ ⟨rfl, rfl⟩)
  · have hw : u / 2 ^ 9 < 512 * 512 := by
      have := hs u hu
      simp only [NUSER] at this
      omega
    rw [h'.noLow_iff hw, h.noLow_iff hw]
    exact forall_congr' fun q => not_congr (ho q _ ⟨rfl, rfl⟩)

variable {v n sz : Nat} {w : Bool}

/-- A page was mapped at `v`, with the tables for it. -/
theorem Local.needs_fault {s : Finset Nat} (h : Local k own r L) (h' : Local k' own' r L')
    (ht : TablesFor r (v * PGSIZE) own own') (hL : L' v ≠ 0) (hv : v < NUSER) (hs : ∀ u ∈ s, u < NUSER) (hn : v ∉ s) :
    needs k r (insert v s) = 1 + missing k r (v * PGSIZE) + needs k' r s := by
  obtain ⟨h2, h1⟩ := px_page hv
  have hdiv : ∀ u : Nat, u / 2 ^ 9 / 512 = u / 2 ^ 18 := fun u => by omega
  -- the tables of `v` are there now
  obtain ⟨pt, hpt⟩ : ∃ q, own' q = .low r (v / 2 ^ 18) (v / 2 ^ 9 % 512) := by
    by_contra hno
    refine hL ?_
    have hz := h'.pt.absent (v / 2 ^ 18) (by simp only [NUSER] at hv; omega) (v / 2 ^ 9 % 512) (Nat.mod_lt _ (by omega))
      (fun q hq => hno ⟨q, hq⟩) (v % 512) (Nat.mod_lt _ (by omega))
    rwa [show vpn (v / 2 ^ 18) (v / 2 ^ 9 % 512) (v % 512) = v by unfold vpn; omega] at hz
  obtain ⟨⟨m, hm⟩, -⟩ := h'.pt.leaf pt _ _ hpt
  unfold TablesFor at ht
  rw [h2, h1] at ht
  refine needs_insert hv hn (fun u hu => ?_) fun u hu => ?_
  · have hi : u / 2 ^ 18 < 512 := by
      have := hs u hu
      simp only [NUSER] at this
      omega
    rw [h'.noMid_iff hi, h.noMid_iff hi]
    by_cases e : u / 2 ^ 18 = v / 2 ^ 18
    · rw [e]
      exact ⟨fun hno => absurd hm (hno m), fun hno => absurd rfl hno.2⟩
    · have hq : ∀ q, own' q = .mid r (u / 2 ^ 18) ↔ own q = .mid r (u / 2 ^ 18) := fun q =>
        ht q _ ⟨rfl, rfl⟩ (by simpa using e) (by simp)
      simp only [ne_eq, hq]
      exact ⟨fun hno => ⟨hno, e⟩, And.left⟩
  · have hw : u / 2 ^ 9 < 512 * 512 := by
      have := hs u hu
      simp only [NUSER] at this
      omega
    rw [h'.noLow_iff hw, h.noLow_iff hw]
    by_cases e : u / 2 ^ 9 = v / 2 ^ 9
    · rw [e, hdiv]
      exact ⟨fun hno => absurd hpt (hno pt), fun hno => absurd rfl hno.2⟩
    · have hq : ∀ q, own' q = .low r (u / 2 ^ 9 / 512) (u / 2 ^ 9 % 512) ↔
          own q = .low r (u / 2 ^ 9 / 512) (u / 2 ^ 9 % 512) := by
        intro q
        refine ht q _ ⟨rfl, rfl⟩ (by simp) fun hc => ?_
        simp only [Owner.low.injEq, true_and] at hc
        omega
      simp only [ne_eq, hq]
      exact ⟨fun hno => ⟨hno, e⟩, And.left⟩

/-! ## How far a copy comes -/

omit K in
/-- A copy can pass the virtual page `v`: it is user-accessible, and writable for a copy to user memory (`w`); or it is
not mapped and starts below the size, so that `vmfault` maps it if there are pages. -/
def Usable (L : Nat → Nat) (sz : Nat) (w : Bool) (v : Nat) : Prop :=
  v < MAXVA / PGSIZE ∧ ((pteU (L v) = true ∧ (w = true → pteW (L v) = true)) ∨ (L v = 0 ∧ v * PGSIZE < sz))

omit K in
/-- A copy can pass the `n` virtual pages from `v`, with free pages for those that are not mapped. -/
def UsableRange (k : Kmem) (r : Nat) (L : Nat → Nat) (sz : Nat) (w : Bool) (v n : Nat) : Prop :=
  (∀ u, PageRange v n u → Usable L sz w u) ∧ CanAlloc k (needs k r (unmapped L v n))

omit K in
/-- A copy over `n` virtual pages from `v` comes to the end of the `j`-th one. -/
def Reached (k : Kmem) (r : Nat) (L : Nat → Nat) (sz : Nat) (w : Bool) (v n j : Nat) : Prop :=
  j ≤ n ∧ UsableRange k r L sz w v j ∧ (j = n ∨ ¬ UsableRange k r L sz w v (j + 1))

omit K in
theorem unmapped_succ :
    unmapped L v (n + 1) = if L v = 0 then insert v (unmapped L (v + 1) n) else unmapped L (v + 1) n := by
  ext u
  by_cases h0 : L v = 0
  · rw [if_pos h0]
    simp only [unmapped, Finset.mem_filter, Finset.mem_Ico, Finset.mem_insert]
    constructor
    · intro ⟨hu, hL⟩
      by_cases e : u = v
      · exact .inl e
      · exact .inr ⟨by omega, hL⟩
    · rintro (rfl | ⟨hu, hL⟩)
      · exact ⟨by omega, h0⟩
      · exact ⟨by omega, hL⟩
  · rw [if_neg h0]
    simp only [unmapped, Finset.mem_filter, Finset.mem_Ico]
    constructor
    · intro ⟨hu, hL⟩
      refine ⟨?_, hL⟩
      have : u ≠ v := by
        rintro rfl
        exact h0 hL
      omega
    · intro ⟨hu, hL⟩
      exact ⟨by omega, hL⟩

omit K in
theorem unmapped_congr (h : ∀ u, PageRange v n u → L' u = L u) : unmapped L' v n = unmapped L v n := by
  refine Finset.filter_congr fun u hu => ?_
  rw [h u (Finset.mem_Ico.mp hu)]

omit K in
theorem UsableRange.zero : UsableRange k r L sz w v 0 := by
  refine ⟨fun u hu => (pageRange_zero.mp hu).elim, ?_⟩
  have e : unmapped L v 0 = ∅ := by simp [unmapped]
  rw [e]
  exact .zero

omit K in
theorem UsableRange.mono {m : Nat} (h : UsableRange k r L sz w v m) (hle : n ≤ m) : UsableRange k r L sz w v n := by
  refine ⟨fun u hu => h.1 u ⟨hu.1, by have := hu.2; omega⟩, h.2.mono (needs_mono ?_)⟩
  exact Finset.filter_subset_filter _ (Finset.Ico_subset_Ico_right (by omega))

omit K in
/-- How far the copy comes is at most where the pages end, and the whole range is usable exactly if it comes there. -/
theorem Reached.eq_iff {j : Nat} (h : Reached k r L sz w v n j) : j = n ↔ UsableRange k r L sz w v n := by
  obtain ⟨hle, hj, hend⟩ := h
  refine ⟨fun e => e ▸ hj, fun hn => ?_⟩
  rcases hend with e | hno
  · exact e
  · by_contra hne
    exact hno (hn.mono (by omega))

omit K in
/-- The copy has passed page `v`: it is mapped, with the tables for it. -/
structure Passed (r v : Nat) (k k' : Kmem) (L L' : Nat → Nat) : Prop where
  same : ∀ u, u ≠ v → L' u = L u
  alloc : ∀ s : Finset Nat, (∀ u ∈ s, u < NUSER) → v ∉ s →
    (CanAlloc k (needs k r (if L v = 0 then insert v s else s)) ↔ CanAlloc k' (needs k' r s))

omit K in
theorem Passed.usableRange_iff (h : Passed r v k k' L L') (hsz : sz ≤ TRAPFRAME) :
    UsableRange k r L sz w v (n + 1) ↔ Usable L sz w v ∧ UsableRange k' r L' sz w (v + 1) n := by
  have hL : ∀ u, PageRange (v + 1) n u → L' u = L u := fun u hu => h.same u (by have := hu.1; omega)
  have hnot : v ∉ unmapped L (v + 1) n := by simp [unmapped]
  -- the pages that are not mapped are below the size
  have hlt : (∀ u, PageRange (v + 1) n u → Usable L sz w u) → ∀ u ∈ unmapped L (v + 1) n, u < NUSER := by
    intro hu u hmem
    obtain ⟨hin, h0⟩ := Finset.mem_filter.mp hmem
    obtain ⟨-, ⟨hU, -⟩ | ⟨-, hlt⟩⟩ := hu u (Finset.mem_Ico.mp hin)
    · rw [h0] at hU
      cases hU
    · simp only [PGSIZE, NUSER, TRAPFRAME, TRAMPOLINE, MAXVA] at hlt hsz ⊢
      omega
  have husable : (∀ u, PageRange (v + 1) n u → Usable L' sz w u) ↔ ∀ u, PageRange (v + 1) n u → Usable L sz w u := by
    refine forall_congr' fun u => imp_congr_right fun hu => ?_
    unfold Usable
    rw [hL u hu]
  unfold UsableRange
  rw [unmapped_succ, unmapped_congr hL, husable]
  constructor
  · intro ⟨hu, hc⟩
    have hu' : ∀ u, PageRange (v + 1) n u → Usable L sz w u := fun u hr => hu u (pageRange_cons.mpr (.inr hr))
    exact ⟨hu v (pageRange_cons.mpr (.inl rfl)), hu', (h.alloc _ (hlt hu') hnot).mp hc⟩
  · intro ⟨hv, hu, hc⟩
    refine ⟨fun u hr => ?_, (h.alloc _ (hlt hu) hnot).mpr hc⟩
    rcases pageRange_cons.mp hr with rfl | hr
    · exact hv
    · exact hu u hr

omit K in
theorem Passed.reached {j : Nat} (h : Passed r v k k' L L') (hsz : sz ≤ TRAPFRAME)
    (hv : Usable L sz w v) (hr : Reached k' r L' sz w (v + 1) n j) : Reached k r L sz w v (n + 1) (j + 1) := by
  obtain ⟨hle, hj, hend⟩ := hr
  refine ⟨by omega, (h.usableRange_iff hsz).mpr ⟨hv, hj⟩, hend.imp (by omega) fun hno hu => ?_⟩
  exact hno ((h.usableRange_iff hsz).mp hu).2

omit K in
theorem Reached.stop (h : ¬ UsableRange k r L sz w v 1) : Reached k r L sz w v (n + 1) 0 :=
  ⟨Nat.zero_le _, .zero, .inr h⟩

/-! ## What a copy leaves -/

omit K in
/-- A copy for table `r` that has passed the pages `D` and may have written to the pages `W`. Those of `D` that were not
mapped have fresh pages. Pages in use keep their owners, and their words but for the pages of `W` and tables of `r`. -/
structure Accessed (r : Nat) (D W : Nat → Prop) (k k' : Kmem) (own own' : Nat → Owner) (L L' : Nat → Nat) : Prop
    extends Maps r (fun v => D v ∧ L v = 0) (fun _ => PTE_W + PTE_U + PTE_R) own own' L L' where
  mem : ∀ q, own q ≠ .free → ¬ NodeOf r (own q) → (∀ v, W v → own q ≠ .user r v) → k'.mem q = k.mem q

section

variable {D D' W W' : Nat → Prop} {k'' : Kmem} {own'' : Nat → Owner} {L'' : Nat → Nat}

omit K in
theorem Accessed.trans (h : Accessed r D W k k' own own' L L') (h' : Accessed r D' W' k' k'' own' own'' L' L'')
    (hd : ∀ v, D v → ¬ D' v) : Accessed r (fun v => D v ∨ D' v) (fun v => W v ∨ W' v) k k'' own own'' L L'' where
  toMaps := by
    refine (h.toMaps.trans h'.toMaps fun v hv hv' => hd v hv.1 hv'.1).congr (fun v => ?_) fun _ _ => rfl
    constructor
    · intro ⟨hv, h0⟩
      refine hv.imp (fun hv => ⟨hv, h0⟩) fun hv => ⟨hv, ?_⟩
      rw [h.same v fun hc => hd v hc.1 hv, h0]
    · rintro (⟨hv, h0⟩ | ⟨hv, h0⟩)
      · exact ⟨.inl hv, h0⟩
      · rw [h.same v fun hc => hd v hc.1 hv] at h0
        exact ⟨.inr hv, h0⟩
  mem q hq hn hW := by
    have e := h.keep q hq
    rw [h'.mem q (by rwa [e]) (by rwa [e]) fun v hv => by rw [e]; exact hW v (.inr hv),
      h.mem q hq hn fun v hv => hW v (.inl hv)]

omit K in
theorem Accessed.congr (h : Accessed r D W k k' own own' L L') (hD : ∀ v, L v = 0 → (D' v ↔ D v))
    (hW : ∀ v, W' v ↔ W v) : Accessed r D' W' k k' own own' L L' where
  toMaps := h.toMaps.congr (fun v => and_congr_left (hD v)) fun _ _ => rfl
  mem q hq hn hm := h.mem q hq hn fun v hv => hm v ((hW v).mpr hv)

omit K in
theorem Drops.accessed (h : Drops r NoPage k k' own own' L L') : Accessed r NoPage NoPage k k' own own' L L' where
  keep q hq := h.keep q hq fun _ hv => hv.elim
  free q hq := (h.free q (.inl hq)).imp id .inl
  new _ hv := hv.1.elim
  same v _ := h.same v id
  mem q hq hn _ := h.mem q hq (fun _ hv => hv.elim) hn

omit K in
/-- The pages were mapped already. -/
theorem Accessed.of_mapped (hD : ∀ v, D v → L v ≠ 0) : Accessed r D NoPage k k own own L L where
  toMaps := .none fun v hv => hD v hv.1 hv.2
  mem _ _ _ _ := rfl

omit K in
theorem Accessed.refl : Accessed r NoPage NoPage k k own own L L := Drops.refl.accessed

omit K in
/-- The page `q` of virtual page `v` is written. -/
theorem Accessed.write {q v : Nat} (h : Accessed r D W k k' own own' L L') (hq : own' q = .user r v)
    (hm : ∀ q', q' ≠ q → k''.mem q' = k'.mem q') :
    Accessed r D (fun u => W u ∨ u = v) k k'' own own' L L' where
  toMaps := h.toMaps
  mem q' hq' hn hW := by
    rw [hm q', h.mem q' hq' hn fun u hu => hW u (.inl hu)]
    rintro rfl
    refine hW v (.inr rfl) ?_
    rw [← h.keep q' hq', hq]

end

/-! ## The page of an address -/

theorem UserOk.unused_any (h : UserOk own r L) (h0 : L v = 0) : ∀ q, own q ≠ .user r v := by
  intro q hq
  exact h.unused (h.lt q v hq) h0 q hq

/-- `userPage` passes the page exactly if it is usable. -/
theorem userPage_exact {va : Nat} (h : MemInv k own T) (hT : T r = some L) (hsz : sz ≤ TRAPFRAME) (htop : TopOk L)
    (hal : va % PGSIZE = 0) :
    wp E (userPage sz r r va) k fun res k' => ∃ own' L', MemInv k' own' (Function.update T r (some L')) ∧
      ((res = none ∧ L' = L ∧ Accessed r NoPage NoPage k k' own own' L L' ∧
          ∀ w, ¬ UsableRange k r L sz w (va / PGSIZE) 1) ∨
        (res = some (pte2pa (L' (va / PGSIZE))) ∧ va / PGSIZE < NUSER ∧ Usable L sz false (va / PGSIZE) ∧
          pteU (L' (va / PGSIZE)) = true ∧
          (pteW (L' (va / PGSIZE)) = true ↔ L (va / PGSIZE) = 0 ∨ pteW (L (va / PGSIZE)) = true) ∧
          Passed r (va / PGSIZE) k k' L L' ∧ Accessed r (· = va / PGSIZE) NoPage k k' own own' L L')) ∧
      ∀ a, a / PGSIZE < NUSER → ubyte k' L' a = ubyte k L a := by
  have hu := (h.table r L hT).2
  have hva : va / PGSIZE * PGSIZE = va := Nat.div_mul_cancel (Nat.dvd_of_mod_eq_zero hal)
  unfold userPage
  by_cases hU : va < MAXVA ∧ pteU (L (va / PGSIZE)) = true
  · -- the page is there
    obtain ⟨hlt, hU⟩ := hU
    have hN : va / PGSIZE < NUSER := by
      by_contra hge
      rw [htop _ (by omega)] at hU
      cases hU
    have hL : L (va / PGSIZE) ≠ 0 := by
      intro h0
      rw [h0] at hU
      cases hU
    refine (walkaddr_local (h.toLocal hT) hlt).bind fun res k' ⟨hk, hres⟩ => ?_
    subst hk
    rw [if_pos hU] at hres
    subst hres
    refine ⟨own, L, by rwa [update_self_table hT], .inr ⟨rfl, hN, ⟨?_, .inl ⟨hU, by simp⟩⟩, hU, by simp [hL], ?_, ?_⟩,
      fun _ _ => rfl⟩
    · simp only [NUSER, PGSIZE, MAXVA] at hN ⊢
      omega
    · exact ⟨fun _ _ => rfl, fun s _ _ => by rw [if_neg hL]⟩
    · exact .of_mapped fun v hv => hv ▸ hL
  -- it has to be mapped
  have hnone : wp E (walkaddr r va) k fun res k' => k' = k ∧ res = none := by
    by_cases hlt : va < MAXVA
    · refine (walkaddr_local (h.toLocal hT) hlt).mono fun res k' ⟨hk, hres⟩ => ⟨hk, ?_⟩
      rwa [if_neg fun hc => hU ⟨hlt, hc⟩] at hres
    · exact walkaddr_above (by omega)
  refine hnone.bind fun res k' ⟨hk, hres⟩ => ?_
  subst hk
  subst hres
  refine (vmfault_local (h.toLocal hT) hsz (hu.unused_any)).mono fun res k₁ ⟨own₁, hres⟩ => ?_
  rcases hres with ⟨rfl, h₁, hd, hno⟩ | ⟨mem, rfl, hmem, ⟨hlt, h0, hc⟩, ht, htab, h₁, hg⟩
  · refine ⟨own₁, L, h.drops hT h₁ hd, .inl ⟨rfl, rfl, hd.accessed, fun w ⟨hw, hc⟩ => ?_⟩, fun a ha => ?_⟩
    · obtain ⟨hmax, ⟨hU', -⟩ | ⟨h0, hlt⟩⟩ := hw _ (pageRange_cons.mpr (.inl rfl))
      · refine hU ⟨?_, hU'⟩
        simp only [PGSIZE, MAXVA] at hmax ⊢
        omega
      · rw [hva] at hlt
        rw [unmapped_succ, if_pos h0, needs_singleton (by
          simp only [PGSIZE, NUSER, TRAPFRAME, TRAMPOLINE, MAXVA] at hlt hsz ⊢
          omega), hva] at hc
        exact hno ⟨hlt, h0, hc⟩
    · refine ubyte_congr rfl fun hL => hd.mem _ ?_ (fun _ hv => hv.elim) ?_
      · rw [hu.own_pte2pa ha hL]
        simp
      · rw [hu.own_pte2pa ha hL]
        exact not_nodeOf_user
  · have hN : va / PGSIZE < NUSER := by
      simp only [PGSIZE, NUSER, TRAPFRAME, TRAMPOLINE, MAXVA] at hlt hsz ⊢
      omega
    have hL' := Function.update_self (va / PGSIZE) (mkPte mem (PTE_W + PTE_U + PTE_R)) L
    refine ⟨own₁, _, h.gains hT h₁ hg fun v hv => ⟨hv ▸ hN, by decide, by decide⟩,
      .inr ⟨?_, hN, ⟨?_, ?_⟩, ?_, ?_, ?_, ?_⟩, ?_⟩
    · rw [hL', pte2pa_of_isPage (h₁.page mem (by rw [hmem]; simp)) (by decide)]
    · simp only [NUSER, PGSIZE, MAXVA] at hN ⊢
      omega
    · exact .inr ⟨h0, by rwa [hva]⟩
    · rw [hL']
      simp only [pteU, mkPte, PTE_W, PTE_U, PTE_R, beq_iff_eq]
      omega
    · rw [hL']
      refine ⟨fun _ => .inl h0, fun _ => ?_⟩
      simp only [pteW, mkPte, PTE_W, PTE_U, PTE_R, beq_iff_eq]
      omega
    · refine ⟨fun u hne => Function.update_of_ne hne _ _, fun s hs hv => ?_⟩
      rw [if_pos h0, (h.toLocal hT).needs_fault h₁ (by rwa [hva]) (by rw [hL']; exact mkPte_ne_zero) hN hs hv, hva]
      exact ht.canAlloc_add hc
    · exact ⟨hg.toMaps.congr (fun v => ⟨And.left, fun e => ⟨e, e ▸ h0⟩⟩) fun _ _ => rfl,
        fun q hq hn _ => hg.mem q hq hn⟩
    · exact fun a ha => hg.ubyte_eq h₁ hu (fun v hv => ⟨hv ▸ h0, by decide⟩) ha

end

end Xv6
