import Xv6.Vm.Access

/-!
# The bytes that `copyout` and `copyin` transfer

The loops of `copyout` and `copyin`, page by page: one page is passed (`userPage_exact`), its part of the range is
copied, and the rest starts on the next page. Both come as far as the pages are usable, whatever the address and the
length; a range that runs past `MAXVA` or wraps around `2 ^ 64` has a page that is not usable on the way there.

`copyin` answers the bytes only when it succeeds; `copyinTo` also answers what has been stored at `dst` when it
fails.
-/

namespace Xv6

open Seq
open Function (update update_idem update_self)

/-! ## Ranges of bytes as ranges of pages -/

/-- The number of pages that a range of `len` bytes from `a` touches. -/
def touched (a len : Nat) : Nat := if len = 0 then 0 else (a % PGSIZE + len - 1) / PGSIZE + 1

/-- The number of bytes of the range on its first `j` pages. -/
def moved (a len j : Nat) : Nat := min len (j * PGSIZE - a % PGSIZE)

/-- The number of bytes of the range on its first page. -/
def chunk (a len : Nat) : Nat := min (PGSIZE - a % PGSIZE) len

section

variable {a len j : Nat}

theorem sub_pgRoundDown : a - pgRoundDown a = a % PGSIZE := by
  unfold pgRoundDown
  simp only [PGSIZE]
  omega

theorem next_page : pgRoundDown a + PGSIZE = (a / PGSIZE + 1) * PGSIZE := by
  unfold pgRoundDown
  ring

theorem touched_step (h : len ≠ 0) : touched a len = touched ((a / PGSIZE + 1) * PGSIZE) (len - chunk a len) + 1 := by
  unfold touched chunk
  rw [if_neg h, mul_pgsize_mod]
  split
  · simp only [PGSIZE] at *
    omega
  · simp only [PGSIZE] at *
    omega

theorem moved_step : moved a len (j + 1) = chunk a len + moved ((a / PGSIZE + 1) * PGSIZE) (len - chunk a len) j := by
  unfold moved chunk
  rw [mul_pgsize_mod]
  have := Nat.mod_lt a (show 0 < PGSIZE by decide)
  simp only [PGSIZE] at *
  omega

theorem moved_all (h : j = touched a len) : moved a len j = len := by
  unfold moved
  subst h
  unfold touched
  split
  · omega
  · simp only [PGSIZE] at *
    omega

theorem chunk_le : a % PGSIZE + chunk a len ≤ PGSIZE := by
  unfold chunk
  have := Nat.mod_lt a (show 0 < PGSIZE by decide)
  omega

theorem chunk_pos (h : len ≠ 0) : 0 < chunk a len := by
  unfold chunk
  have := Nat.mod_lt a (show 0 < PGSIZE by decide)
  omega

/-- The rest of the range starts where its first page ends, or there is none. -/
theorem chunk_next (h : chunk a len < len) : a + chunk a len = (a / PGSIZE + 1) * PGSIZE := by
  unfold chunk at *
  simp only [PGSIZE] at *
  omega

end

/-! ## `copyin` with what it has stored -/

section

variable [K : Layout]

/-- The answer of `copyin`. -/
def copyinResult (x : (Bool × List UInt8) × Kmem) : Option (List UInt8) × Kmem :=
  (if x.1.1 then some x.1.2 else none, x.2)

/-- `copyin` answers the bytes that it stored, if it succeeds. -/
theorem copyin_eq {sz procPt pagetable srcva len : Nat} {k : Kmem} :
    copyin sz procPt pagetable srcva len k = (copyinTo sz procPt pagetable srcva len k).map copyinResult := by
  show M.bind _ _ k = _
  unfold M.bind
  cases copyinTo sz procPt pagetable srcva len k <;> rfl

end

section

variable [K : Layout] {E : Panic → Prop} {k k' : Kmem} {own own' : Nat → Owner}
variable {T : Nat → Option (Nat → Nat)} {r sz : Nat} {L L' : Nat → Nat}

/-- A copy of `len` bytes at `a` has passed `j` pages and may have written to the pages `W`. -/
structure CopyEnd (r sz : Nat) (w : Bool) (a len j : Nat) (W : Nat → Prop) (T : Nat → Option (Nat → Nat))
    (k k' : Kmem) (own own' : Nat → Owner) (L L' : Nat → Nat) : Prop where
  inv : MemInv k' own' (Function.update T r (some L'))
  reached : Reached k r L sz w (a / PGSIZE) (touched a len) j
  accessed : Accessed r (PageRange (a / PGSIZE) j) W k k' own own' L L'

variable {w : Bool} {a len j v b : Nat} {W : Nat → Prop} {f : Nat → UInt8} {src : List UInt8}

/-- No page is passed. -/
theorem CopyEnd.stop (hm : MemInv k' own' (update T r (some L')))
    (ha : Accessed r NoPage NoPage k k' own own' L L') (hr : Reached k r L sz w (a / PGSIZE) (touched a len) 0)
    (hW : ∀ v, W v ↔ NoPage v) : CopyEnd r sz w a len 0 W T k k' own own' L L' :=
  ⟨hm, hr, ha.congr (fun _ _ => pageRange_zero) hW⟩

/-- A page is passed, then those of the rest of the range. -/
theorem CopyEnd.step {W' : Nat → Prop} {k'' : Kmem} {own'' : Nat → Owner} {L'' : Nat → Nat}
    (hsz : sz ≤ TRAPFRAME) (hlen : len ≠ 0) (hv : Usable L sz w (a / PGSIZE)) (hp : Passed r (a / PGSIZE) k k' L L')
    (ha : Accessed r (· = a / PGSIZE) W k k' own own' L L')
    (h : CopyEnd r sz w ((a / PGSIZE + 1) * PGSIZE) (len - chunk a len) j W'
      (update T r (some L')) k' k'' own' own'' L' L'') :
    CopyEnd r sz w a len (j + 1) (fun v => W v ∨ W' v) T k k'' own own'' L L'' := by
  obtain ⟨hm, hr, ha'⟩ := h
  rw [mul_pgsize_div] at hr ha'
  refine ⟨by rwa [update_idem] at hm, ?_, (ha.trans ha' ?_).congr (fun v _ => pageRange_cons) fun _ => Iff.rfl⟩
  · rw [touched_step hlen]
    exact hp.reached hsz hv hr
  · rintro v rfl hr
    have := hr.1
    omega

omit K in
theorem TopOk.passed (h : TopOk L) (hp : Passed r v k k' L L') (hv : v < NUSER) : TopOk L' := by
  intro u hu
  rw [hp.same u (by omega)]
  exact h u hu

/-- The bytes of a page are set; the pages after it are as they were. -/
theorem Passed.setBytes {q off : Nat} {bs : List UInt8} (h : Passed r v k k' L L')
    (hl : Local k' own' r L') (hq : ¬ NodeOf r (own' q)) : Passed r v k (k'.setBytes q off bs) L L' := by
  refine ⟨h.same, fun s hs hv => (h.alloc s hs hv).trans ?_⟩
  rw [hl.needs_eq (hl.setBytes hq) (fun _ _ _ => Iff.rfl) hs]
  have ht : Took k' (k'.setBytes q off bs) 0 := setBytes_took
  exact (canAlloc_congr (by rw [ht.free]; rfl) ht.fails (by rw [ht.calls]; rfl)).symm

/-- The bytes of the list at `a`, in what the process sees: the first `m` of them were stored. -/
def overlay (f : Nat → UInt8) (a m : Nat) (src : List UInt8) (b : Nat) : UInt8 :=
  if a ≤ b ∧ b < a + m then src.getD (b - a) 0 else f b

omit K in
theorem overlay_zero : overlay f a 0 src b = f b :=
  if_neg (by omega)

omit K in
/-- The first part of the list, then the rest. -/
theorem overlay_append {n m : Nat} :
    overlay (overlay f a n (src.take n)) (a + n) m (src.drop n) b = overlay f a (n + m) src b := by
  unfold overlay
  by_cases h1 : a + n ≤ b ∧ b < a + n + m
  · rw [if_pos h1, if_pos (by omega), List.getD_eq_getElem?_getD, List.getD_eq_getElem?_getD, List.getElem?_drop]
    congr 2
    omega
  · rw [if_neg h1]
    by_cases h2 : a ≤ b ∧ b < a + n
    · rw [if_pos h2, if_pos (by omega), List.getD_eq_getElem?_getD, List.getD_eq_getElem?_getD,
        List.getElem?_take_of_lt (by omega)]
    · rw [if_neg h2, if_neg (by omega)]

omit K in
/-- The bytes on the first page, then those of the rest of the range. -/
theorem overlay_chunk {m : Nat} (h : chunk a src.length < src.length ∨ m = 0) :
    overlay (overlay f a (chunk a src.length) (src.take (chunk a src.length))) ((a / PGSIZE + 1) * PGSIZE) m
      (src.drop (chunk a src.length)) b = overlay f a (chunk a src.length + m) src b := by
  rw [← overlay_append]
  rcases h with h | rfl
  · rw [chunk_next h]
  · rw [overlay_zero, overlay_zero]

/-- `copyout` has passed some pages, and stored the bytes that belong there; it has succeeded if these are all. -/
def CopiedOut (r sz a : Nat) (src : List UInt8) (T : Nat → Option (Nat → Nat)) (k : Kmem) (own : Nat → Owner)
    (L : Nat → Nat) (ok : Bool) (k' : Kmem) : Prop :=
  ∃ own' L' j, CopyEnd r sz true a src.length j (PageRange (a / PGSIZE) j) T k k' own own' L L' ∧
    (ok = true ↔ j = touched a src.length) ∧
    ∀ b, b / PGSIZE < NUSER → ubyte k' L' b = overlay (ubyte k L) a (moved a src.length j) src b

theorem CopiedOut.stop {ok : Bool} (hm : MemInv k' own' (update T r (some L')))
    (ha : Accessed r NoPage NoPage k k' own own' L L')
    (hr : Reached k r L sz true (a / PGSIZE) (touched a src.length) 0) (hok : ok = true ↔ 0 = touched a src.length)
    (hb : ∀ b, b / PGSIZE < NUSER → ubyte k' L' b = ubyte k L b) : CopiedOut r sz a src T k own L ok k' := by
  refine ⟨own', L', 0, .stop hm ha hr fun _ => pageRange_zero, hok, fun b hb' => ?_⟩
  rw [hb b hb', show moved a src.length 0 = 0 by unfold moved; omega, overlay_zero]

/-- A first page that cannot be passed. -/
theorem CopiedOut.fail (hs : src.length ≠ 0) (hm : MemInv k' own' (update T r (some L')))
    (ha : Accessed r NoPage NoPage k k' own own' L L') (hno : ¬ UsableRange k r L sz true (a / PGSIZE) 1)
    (hb : ∀ b, b / PGSIZE < NUSER → ubyte k' L' b = ubyte k L b) : CopiedOut r sz a src T k own L false k' := by
  refine .stop hm ha ?_ ?_ hb
  · rw [touched_step hs]
    exact .stop hno
  · rw [touched_step hs]
    simp

/-- `copyout`'s loop stores the bytes of the pages that it passes. -/
theorem copyoutLoop_exact {fuel : Nat} (h : MemInv k own T) (hT : T r = some L)
    (hsz : sz ≤ TRAPFRAME) (htop : TopOk L) (hf : src.length ≤ fuel) :
    wp E (copyoutLoop sz r r fuel a src) k (CopiedOut r sz a src T k own L) := by
  have hself : MemInv k own (update T r (some L)) := by rwa [update_self_table hT]
  induction fuel generalizing k own T L a src with
  | zero =>
    have e : src.length = 0 := by omega
    exact .stop hself .refl (by rw [e]; exact ⟨le_rfl, .zero, .inl rfl⟩) (by rw [e]; simp [touched]) fun _ _ => rfl
  | succ fuel ih =>
    unfold copyoutLoop
    by_cases hs : src.length = 0
    · rw [if_pos hs]
      exact .stop hself .refl (by rw [hs]; exact ⟨le_rfl, .zero, .inl rfl⟩) (by rw [hs]; simp [touched]) fun _ _ => rfl
    rw [if_neg hs]
    simp only
    by_cases hge : pgRoundDown a ≥ MAXVA
    · -- an address that no page table has
      rw [if_pos hge]
      refine .fail hs hself .refl (fun hu => ?_) fun _ _ => rfl
      have hmax := (hu.1 _ (pageRange_cons.mpr (.inl rfl))).1
      unfold pgRoundDown at hge
      simp only [PGSIZE, MAXVA] at hge hmax
      omega
    rw [if_neg hge]
    refine (userPage_exact h hT hsz htop (pgRoundDown_mod a)).bind ?_
    rintro res k₁ ⟨own₁, L₁, h₁, hres, hb₁⟩
    rw [pgRoundDown_div] at hres
    rcases hres with ⟨rfl, rfl, ha, hno⟩ | ⟨rfl, hN, hv, hU, hW, hp, ha⟩
    · exact .fail hs h₁ ha (hno true) hb₁
    have hT₁ : update T r (some L₁) r = some L₁ := update_self ..
    have hu₁ := (h₁.table r L₁ hT₁).2
    have hL₁ : L₁ (a / PGSIZE) ≠ 0 := by
      intro h0
      rw [h0] at hU
      cases hU
    have hq := hu₁.own_pte2pa hN hL₁
    simp only
    refine (walk_look_local (h₁.toLocal hT₁) (by omega)).bind ?_
    rintro res k₂ ⟨rfl, hw⟩
    rw [pgRoundDown_div] at hw
    rcases hw with ⟨rfl, h0⟩ | ⟨pt, rfl, -, hw⟩
    · exact absurd h0 hL₁
    simp only [load]
    rw [wp_bind, wp_gets, hw]
    by_cases hwr : pteW (L₁ (a / PGSIZE)) = false
    · -- a page that the user may not write was mapped before
      rw [if_pos hwr]
      have hro : ¬ (L (a / PGSIZE) = 0 ∨ pteW (L (a / PGSIZE)) = true) := fun hc => by
        rw [hW.mpr hc] at hwr
        cases hwr
      refine .fail hs h₁ (ha.congr (fun v h0 => ⟨fun hv => hv.elim, ?_⟩) fun _ => Iff.rfl) (fun hu => ?_) hb₁
      · rintro rfl
        exact hro (.inl h0)
      · obtain ⟨-, ⟨-, hc⟩ | ⟨h0, -⟩⟩ := hu.1 _ (pageRange_cons.mpr (.inl rfl))
        · exact hro (.inr (hc rfl))
        · exact hro (.inl h0)
    have hv' : Usable L sz true (a / PGSIZE) := by
      refine ⟨hv.1, hv.2.imp (fun hU' => ⟨hU'.1, fun _ => ?_⟩) id⟩
      refine (hW.mp (by simpa using hwr)).resolve_left fun h0 => ?_
      rw [h0] at hU'
      cases hU'.1
    rw [if_neg hwr, wp_bind, wp_modify, sub_pgRoundDown, next_page]
    show wp E (copyoutLoop sz r r fuel _ (src.drop (chunk a src.length)))
      (k₂.setBytes _ _ (src.take (chunk a src.length))) _
    have hlen : (src.drop (chunk a src.length)).length = src.length - chunk a src.length := List.length_drop
    have htake : (src.take (chunk a src.length)).length = chunk a src.length :=
      List.length_take_of_le (by unfold chunk; omega)
    have hnode : ¬ NodeOf r (own₁ (pte2pa (L₁ (a / PGSIZE)))) := by
      rw [hq]
      exact not_nodeOf_user
    have hpos := chunk_pos (a := a) hs
    have h₂ := h₁.setBytes (q := pte2pa (L₁ (a / PGSIZE))) (by rw [hq]; rfl) (a % PGSIZE)
      (src.take (chunk a src.length))
    refine (ih h₂ hT₁ (htop.passed hp hN) (by omega) (by rwa [update_self_table hT₁])).mono ?_
    rintro ok k' ⟨own', L', j, hend, hok, hb'⟩
    refine ⟨own', L', j + 1, ?_, ?_, fun b hb => ?_⟩
    · rw [hlen] at hend
      have hkeep : ∀ q', q' ≠ pte2pa (L₁ (a / PGSIZE)) →
          (k₂.setBytes (pte2pa (L₁ (a / PGSIZE))) (a % PGSIZE) (src.take (chunk a src.length))).mem q' = k₂.mem q' :=
        fun q' e => setBytes_mem_of_ne e
      have ha₂ := ha.write hq hkeep
      have hstep := CopyEnd.step hsz hs hv' (hp.setBytes (h₁.toLocal hT₁) hnode) ha₂ hend
      refine ⟨hstep.inv, hstep.reached, hstep.accessed.congr (fun _ _ => Iff.rfl) fun v => ?_⟩
      rw [mul_pgsize_div, pageRange_cons]
      exact or_congr_left (or_iff_right id).symm
    · rw [hok, hlen, touched_step hs]
      omega
    · -- the bytes on this page, and those of the rest
      have hthis : ∀ b, b / PGSIZE < NUSER →
          ubyte (k₂.setBytes (pte2pa (L₁ (a / PGSIZE))) (a % PGSIZE) (src.take (chunk a src.length))) L₁ b =
            overlay (ubyte k L) a (chunk a src.length) (src.take (chunk a src.length)) b := by
        intro b hb
        rw [ubyte_setBytes hu₁ hN hL₁ (by rw [htake]; exact chunk_le) hb, Nat.div_add_mod' a PGSIZE, htake, hb₁ b hb]
        rfl
      rw [hb' b hb, moved_step, hlen, ← overlay_chunk]
      · unfold overlay
        rw [hthis b hb]
        rfl
      · unfold moved
        omega

/-! ## `copyin` -/

/-- `copyin` has passed some pages and stored the bytes on them; it has succeeded if these are all. -/
def CopiedIn (r sz a len : Nat) (acc : List UInt8) (T : Nat → Option (Nat → Nat)) (k : Kmem) (own : Nat → Owner)
    (L : Nat → Nat) (res : Bool × List UInt8) (k' : Kmem) : Prop :=
  ∃ own' L' j, CopyEnd r sz false a len j NoPage T k k' own own' L L' ∧ (res.1 = true ↔ j = touched a len) ∧
    res.2 = acc ++ ubytes k L a (moved a len j) ∧ ∀ b, b / PGSIZE < NUSER → ubyte k' L' b = ubyte k L b

theorem CopiedIn.stop {acc : List UInt8} {ok : Bool} (hm : MemInv k' own' (update T r (some L')))
    (ha : Accessed r NoPage NoPage k k' own own' L L') (hr : Reached k r L sz false (a / PGSIZE) (touched a len) 0)
    (hok : ok = true ↔ 0 = touched a len) (hb : ∀ b, b / PGSIZE < NUSER → ubyte k' L' b = ubyte k L b) :
    CopiedIn r sz a len acc T k own L (ok, acc) k' := by
  refine ⟨own', L', 0, .stop hm ha hr fun _ => Iff.rfl, hok, ?_, hb⟩
  rw [show moved a len 0 = 0 by unfold moved; omega]
  simp [ubytes]

omit K in
theorem Usable.lt_nuser (h : Usable L sz w v) (hsz : sz ≤ TRAPFRAME) (htop : TopOk L) : v < NUSER := by
  obtain ⟨-, ⟨hU, -⟩ | ⟨-, hlt⟩⟩ := h
  · by_contra hge
    rw [htop v (by omega)] at hU
    cases hU
  · simp only [PGSIZE, NUSER, TRAPFRAME, TRAMPOLINE, MAXVA] at hlt hsz ⊢
    omega

omit K in
/-- The bytes of pages that a copy has passed are below the trapframe. -/
theorem UsableRange.addr_lt {i : Nat} (h : UsableRange k r L sz w (a / PGSIZE) j) (hsz : sz ≤ TRAPFRAME)
    (htop : TopOk L) (hi : i < moved a len j) : (a + i) / PGSIZE < NUSER := by
  refine (h.1 _ ⟨?_, ?_⟩).lt_nuser hsz htop
  · exact Nat.div_le_div_right (by omega)
  · unfold moved at hi
    simp only [PGSIZE] at *
    omega

/-- `copyin`'s loop stores the bytes of the pages that it passes, and changes no user memory. -/
theorem copyinToLoop_exact {fuel : Nat} {acc : List UInt8} (h : MemInv k own T) (hT : T r = some L)
    (hsz : sz ≤ TRAPFRAME) (htop : TopOk L) (hf : len ≤ fuel) :
    wp E (copyinToLoop sz r r fuel a len acc) k (CopiedIn r sz a len acc T k own L) := by
  have hself : MemInv k own (update T r (some L)) := by rwa [update_self_table hT]
  induction fuel generalizing k own T L a len acc with
  | zero =>
    obtain rfl : len = 0 := by omega
    exact .stop hself .refl ⟨le_rfl, .zero, .inl rfl⟩ (by simp [touched]) fun _ _ => rfl
  | succ fuel ih =>
    unfold copyinToLoop
    by_cases hs : len = 0
    · rw [if_pos hs]
      subst hs
      exact .stop hself .refl ⟨le_rfl, .zero, .inl rfl⟩ (by simp [touched]) fun _ _ => rfl
    rw [if_neg hs]
    simp only
    refine (userPage_exact h hT hsz htop (pgRoundDown_mod a)).bind fun res k₁ ⟨own₁, L₁, h₁, hres, hb₁⟩ => ?_
    rw [pgRoundDown_div] at hres
    rcases hres with ⟨rfl, rfl, ha, hno⟩ | ⟨rfl, hN, hv, hU, -, hp, ha⟩
    · refine .stop h₁ ha ?_ ?_ hb₁
      · rw [touched_step hs]
        exact .stop (hno false)
      · rw [touched_step hs]
        simp
    have hT₁ : update T r (some L₁) r = some L₁ := update_self ..
    have hL₁ : L₁ (a / PGSIZE) ≠ 0 := by
      intro h0
      rw [h0] at hU
      cases hU
    have hpos := chunk_pos (a := a) hs
    have hwrap : (a / PGSIZE + 1) * PGSIZE % U64 = (a / PGSIZE + 1) * PGSIZE := by
      refine Nat.mod_eq_of_lt ?_
      simp only [NUSER, PGSIZE, U64] at hN ⊢
      omega
    simp only
    rw [wp_bind, wp_gets, sub_pgRoundDown, next_page, hwrap]
    show wp E (copyinToLoop sz r r fuel _ (len - chunk a len) (acc ++ k₁.bytes _ _ (chunk a len))) k₁ _
    have hbytes : k₁.bytes (pte2pa (L₁ (a / PGSIZE))) (a % PGSIZE) (chunk a len) = ubytes k L a (chunk a len) := by
      rw [bytes_eq_ubytes hL₁ rfl chunk_le]
      refine ubytes_congr fun i hi => hb₁ _ ?_
      have : a % PGSIZE + chunk a len ≤ PGSIZE := chunk_le
      simp only [PGSIZE] at *
      omega
    rw [hbytes]
    refine (ih h₁ hT₁ (htop.passed hp hN) (by omega) (by rwa [update_self_table hT₁])).mono
      fun res k' ⟨own', L', j, hend, hok, hacc, hb'⟩ => ⟨own', L', j + 1, ?_, ?_, ?_, fun b hb => ?_⟩
    · have hstep := CopyEnd.step hsz hs hv hp ha hend
      exact ⟨hstep.inv, hstep.reached, hstep.accessed.congr (fun _ _ => Iff.rfl) fun v => (or_iff_left id).symm⟩
    · rw [hok, touched_step hs]
      omega
    · -- the rest starts where this page ends
      have hrest : ubytes k₁ L₁ ((a / PGSIZE + 1) * PGSIZE) (moved ((a / PGSIZE + 1) * PGSIZE) (len - chunk a len) j) =
          ubytes k L (a + chunk a len) (moved ((a / PGSIZE + 1) * PGSIZE) (len - chunk a len) j) := by
        by_cases hlt : chunk a len < len
        · rw [chunk_next hlt]
          have hu := hend.reached.2.1
          exact ubytes_congr fun i hi => hb₁ _ (hu.addr_lt hsz (htop.passed hp hN) hi)
        · have hz : moved ((a / PGSIZE + 1) * PGSIZE) (len - chunk a len) j = 0 := by
            unfold moved
            omega
          rw [hz]
          rfl
      rw [hacc, hrest, moved_step, ubytes_add, List.append_assoc]
    · rw [hb' b hb, hb₁ b hb]

/-! ## Both copies -/

/-- What a copy for the process of table `r` does to the memory. -/
def Copied (sz r : Nat) (L : Nat → Nat) (own : Nat → Owner) (T : Nat → Option (Nat → Nat))
    (k' : Kmem) : Prop :=
  ∃ own' L', Frame r own own' ∧ MemInv k' own' (Function.update T r (some L')) ∧ Faulted sz L L'

theorem CopyEnd.copied (h : CopyEnd r sz w a len j W T k k' own own' L L') : Copied sz r L own T k' := by
  refine ⟨own', L', h.accessed.frame, h.inv, fun v => ?_⟩
  by_cases hv : PageRange (a / PGSIZE) j v ∧ L v = 0
  · obtain ⟨q, -, -, hL, -⟩ := h.accessed.new v hv
    obtain ⟨-, ⟨hU, -⟩ | ⟨h0, hlt⟩⟩ := h.reached.2.1.1 v hv.1
    · rw [hv.2] at hU
      cases hU
    · exact .inr ⟨h0, hlt, by rw [hL]; exact mkPte_ne_zero⟩
  · exact .inl (h.accessed.same v hv)

/-- `copyout` for the current process. -/
theorem copyout_spec {dstva : Nat} (h : MemInv k own T) (hT : T r = some L) (hsz : sz ≤ TRAPFRAME)
    (htop : TopOk L) : wp E (copyout sz r r dstva src) k fun _ k' => Copied sz r L own T k' :=
  (copyoutLoop_exact h hT hsz htop le_rfl).mono fun _ _ ⟨_, _, _, hend, _⟩ => hend.copied

/-- `copyin` for the current process. -/
theorem copyin_spec {srcva : Nat} (h : MemInv k own T) (hT : T r = some L) (hsz : sz ≤ TRAPFRAME)
    (htop : TopOk L) : wp E (copyin sz r r srcva len) k fun _ k' => Copied sz r L own T k' := by
  have hspec : wp E (copyinToLoop sz r r len srcva len []) k _ := copyinToLoop_exact h hT hsz htop le_rfl
  unfold wp at hspec ⊢
  rw [copyin_eq, copyinTo]
  cases hrun : copyinToLoop sz r r len srcva len [] k with
  | error e =>
    rw [hrun] at hspec
    exact hspec
  | ok x =>
    rw [hrun] at hspec
    obtain ⟨_, _, _, hend, _⟩ := hspec
    exact hend.copied

/-- The pages that a copy to user memory has written are user-accessible and writable. -/
theorem CopyEnd.written {q : Nat} (h : CopyEnd r sz true a len j W T k k' own own' L L')
    (hu : UserOk own r L) (hW : ∀ v, W v → PageRange (a / PGSIZE) j v) (hq : own q ≠ .free) (hne : k'.mem q ≠ k.mem q) :
    NodeOf r (own q) ∨ ∃ v, own q = .user r v ∧ PageRange (a / PGSIZE) j v ∧ pteU (L v) = true ∧ pteW (L v) = true := by
  by_contra hc
  refine hne (h.accessed.mem q hq (fun hn => hc (.inl hn)) fun v hv e => hc (.inr ⟨v, e, hW v hv, ?_⟩))
  obtain ⟨-, ⟨hU, hw⟩ | ⟨h0, -⟩⟩ := h.reached.2.1.1 v (hW v hv)
  · exact ⟨hU, hw rfl⟩
  · exact absurd e (hu.unused_any h0 q)

/-- **`copyout` and `copyin` are safe and exact**, for the table `r` of a process of size `sz` and every address and
length. They return; they succeed exactly if the pages of the range are usable, and come to the page before the first
one that is not (`j` pages). For `copyout`, the first bytes of `src`, those on the `j` pages, are stored and the process
sees no other change; of the pages in use only tables of `r` and user-accessible writable pages of the range change.
For `copyin`, the bytes on the `j` pages are stored at `dst`, and of the pages in use only tables of `r` change. -/
theorem copyout_copyin_exact (h : MemInv k own T) (hT : T r = some L) (hsz : sz ≤ TRAPFRAME) (htop : TopOk L) :
    (∀ dstva src, ∃ ok k' own' L' j, copyout sz r r dstva src k = .ok (ok, k') ∧
      CopyEnd r sz true dstva src.length j (PageRange (dstva / PGSIZE) j) T k k' own own' L L' ∧
      (ok = true ↔ UsableRange k r L sz true (dstva / PGSIZE) (touched dstva src.length)) ∧
      (ok = true → moved dstva src.length j = src.length) ∧
      (∀ b, b < TRAPFRAME → ubyte k' L' b = overlay (ubyte k L) dstva (moved dstva src.length j) src b) ∧
      ∀ q, own q ≠ .free → k'.mem q ≠ k.mem q → NodeOf r (own q) ∨
        ∃ v, own q = .user r v ∧ PageRange (dstva / PGSIZE) j v ∧ pteU (L v) = true ∧ pteW (L v) = true) ∧
    ∀ srcva len, ∃ ok bs k' own' L' j, copyinTo sz r r srcva len k = .ok ((ok, bs), k') ∧
      copyin sz r r srcva len k = .ok (if ok then some bs else none, k') ∧
      CopyEnd r sz false srcva len j NoPage T k k' own own' L L' ∧
      (ok = true ↔ UsableRange k r L sz false (srcva / PGSIZE) (touched srcva len)) ∧
      bs = ubytes k L srcva (moved srcva len j) ∧ (ok = true → moved srcva len j = len) ∧
      (∀ b, b < TRAPFRAME → ubyte k' L' b = ubyte k L b) ∧
      ∀ q, own q ≠ .free → k'.mem q ≠ k.mem q → NodeOf r (own q) := by
  have hlt : ∀ b, b < TRAPFRAME → b / PGSIZE < NUSER := by
    intro b hb
    simp only [PGSIZE, NUSER, TRAPFRAME, TRAMPOLINE, MAXVA] at hb ⊢
    omega
  constructor
  · intro dstva src
    have hspec : wp (fun _ => False) (copyoutLoop sz r r src.length dstva src) k _ :=
      copyoutLoop_exact h hT hsz htop le_rfl
    obtain ⟨ok, k', hrun, own', L', j, hend, hok, hb⟩ := hspec.returns
    refine ⟨ok, k', own', L', j, hrun, hend, hok.trans hend.reached.eq_iff, fun e => moved_all (hok.mp e),
      fun b hb' => hb b (hlt b hb'), fun q hq hne => ?_⟩
    exact hend.written (h.table r L hT).2 (fun _ => id) hq hne
  · intro srcva len
    have hspec : wp (fun _ => False) (copyinToLoop sz r r len srcva len []) k _ :=
      copyinToLoop_exact h hT hsz htop le_rfl
    obtain ⟨⟨ok, bs⟩, k', hrun, own', L', j, hend, hok, hbs, hb⟩ := hspec.returns
    refine ⟨ok, bs, k', own', L', j, hrun, ?_, hend, hok.trans hend.reached.eq_iff, hbs, fun e => moved_all (hok.mp e),
      fun b hb' => hb b (hlt b hb'), fun q hq hne => ?_⟩
    · rw [copyin_eq, show copyinTo sz r r srcva len k = .ok ((ok, bs), k') from hrun]
      rfl
    · by_contra hn
      exact hne (hend.accessed.mem q hq hn fun _ hv => hv.elim)

end

/-- Three bytes are stored across a page boundary of a process with no page yet. -/
theorem copyout_copyin_exact_small : ∃ k' L',
    @copyout smallLayout 5000 (PHYSTOP - 8 * PGSIZE) (PHYSTOP - 8 * PGSIZE) 4094
      [1, 2, 3] smallTables = .ok (true, k') ∧ ubyte k' L' 4094 = 1 ∧ ubyte k' L' 4096 = 3 ∧ ubyte k' L' 4097 = 0 := by
  let _ := smallLayout
  obtain ⟨own, T, h, h8, -⟩ := smallTables_memInv
  obtain ⟨ok, k', own', L', j, hrun, -, -, hall, hb, -⟩ :=
    (copyout_copyin_exact h h8 (show 5000 ≤ TRAPFRAME by decide) fun _ _ => rfl).1 4094 [1, 2, 3]
  have hok : ((copyout 5000 (PHYSTOP - 8 * PGSIZE) (PHYSTOP - 8 * PGSIZE) 4094 [1, 2, 3]
      smallTables).toOption.map Prod.fst) =
      some true := by
    decide +kernel
  rw [hrun] at hok
  cases hok
  have hm := hall rfl
  refine ⟨k', L', hrun, ?_, ?_, ?_⟩
  · rw [hb _ (by decide), hm]
    rfl
  · rw [hb _ (by decide), hm]
    rfl
  · rw [hb _ (by decide), hm]
    rfl

end Xv6
