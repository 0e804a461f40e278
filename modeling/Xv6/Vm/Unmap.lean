import Xv6.Vm.Table

/-!
# Unmapping pages and freeing tables

`uvmunmap` of user pages gives them back; of the trapframe and the trampoline it only clears the
entry. `freewalk` of a table with no leaves gives back its pages, level by level.

Both free a page while an entry still points to it and clear the entry after that, so the invariant
holds again only after the second step.
-/

namespace Xv6

open Seq
open Function (update update_of_ne update_self)

section

variable [K : Layout] {E : Panic → Prop} {k : Kmem} {own : Nat → Owner}
variable {T : Nat → Option (Nat → Nat)} {r q : Nat} {L : Nat → Nat}

/-! ## Unmapping pages -/

variable {v n pt i q : Nat} {child : Nat → KM Unit} {Q : Unit → Kmem → Prop}

/-- The pages of a range below the trapframe are given back. -/
theorem UserOk.released (h : UserOk own r L) : UserOk (release own r v n) r (clearRange L v n) where
  user w hw := by
    by_cases hin : v ≤ w ∧ w < v + n
    · refine .inl ⟨if_pos hin, fun q hq => ?_⟩
      rcases release_cases own r v n q with ⟨e, hk⟩ | ⟨e, -⟩
      · exact hk w hin.1 hin.2 (e.symm.trans hq)
      · rw [e] at hq
        cases hq
    · have hown : ∀ q, release own r v n q = .user r w ↔ own q = .user r w := by
        intro q
        rcases release_cases own r v n q with ⟨e, -⟩ | ⟨e, w', h1, h2, hq⟩
        · rw [e]
        · rw [e, hq]
          constructor
          · intro hf
            cases hf
          · intro hu
            cases hu
            exact absurd ⟨h1, h2⟩ hin
      have hL : clearRange L v n w = L w := if_neg hin
      simpa only [hown, hL, ne_eq] using h.user w hw
  lt q w hq := by
    rcases release_cases own r v n q with ⟨e, -⟩ | ⟨e, -⟩
    · exact h.lt q w (e.symm.trans hq)
    · rw [e] at hq
      cases hq

omit K in
theorem release_frame : Frame r own (release own r v n) := by
  intro q
  rcases release_cases own r v n q with ⟨e, -⟩ | ⟨e, w, -, -, hq⟩
  · exact .inl e
  · exact .inr ⟨.inr (by rw [hq]; rfl), .inl e⟩

/-- `uvmunmap` of pages below the trapframe. -/
theorem uvmunmap_spec {va : Nat} (h : MemInv k own T) (hT : T r = some L) (hva : va % PGSIZE = 0)
    (hn : va / PGSIZE + n ≤ NUSER) :
    wp E (uvmunmap r va n true) k fun _ k' => ∃ own', Within r k k' own own' ∧
      MemInv k' own' (update T r (some (clearRange L (va / PGSIZE) n))) := by
  have hu := (h.table r L hT).2
  have hmax : va + n * PGSIZE ≤ MAXVA := by
    simp only [PGSIZE, NUSER, MAXVA] at hva hn ⊢
    omega
  refine (uvmunmap_local (h.toLocal hT) hva hmax fun _ w _ hw => hu.ownedAt (by omega)).mono
    fun _ k' ⟨h', hk⟩ => ?_
  have hw : Within r k k' own (release own r (va / PGSIZE) n) := by
    refine ⟨release_frame, fun q hf ht => hk.mem q hf (fun hn => ht hn.1) (release_keep fun w _ _ hw => ?_)⟩
    rw [hw] at ht
    exact ht rfl
  exact ⟨_, hw, h.of_within h' hu.released hw⟩

/-- `uvmunmap` of the trapframe or the trampoline. -/
theorem uvmunmap_high {va : Nat} (h : MemInv k own T) (hT : T r = some L) (hva : va % PGSIZE = 0)
    (hge : NUSER ≤ va / PGSIZE) (hlt : va < MAXVA) :
    wp E (uvmunmap r va 1 false) k fun _ k' => Within r k k' own own ∧
      MemInv k' own (update T r (some (update L (va / PGSIZE) 0))) := by
  have hu := (h.table r L hT).2
  have hmax : va + 1 * PGSIZE ≤ MAXVA := by
    simp only [PGSIZE, MAXVA] at hva hlt ⊢
    omega
  have hclear : clearRange L (va / PGSIZE) 1 = update L (va / PGSIZE) 0 := by
    rw [← clearRange_succ, clearRange_zero]
  refine (uvmunmap_local (h.toLocal hT) hva hmax (by simp)).mono fun _ k' ⟨h', hk⟩ => ?_
  rw [hclear] at h'
  have hw : Within r k k' own own := ⟨.refl, fun q hf ht => hk.mem q hf (fun hn => ht hn.1) rfl⟩
  exact ⟨hw, h.of_within h' (hu.high hge) hw⟩

/-! ## `freewalk` -/

omit K in
/-- An empty entry. -/
theorem freeEntries_skip (hm : k.mem pt i = 0) (hc : wp E (freeEntries pt child n (i + 1)) k Q) :
    wp E (freeEntries pt child (n + 1) i) k Q := by
  rw [freeEntries]
  unfold load
  rw [wp_bind, wp_gets, hm]
  exact hc

omit K in
/-- `freewalk`'s loop passes over empty entries. -/
theorem freeEntries_empty (h : ∀ x, i ≤ x → x < i + n → k.mem pt x = 0) (hQ : Q () k) :
    wp E (freeEntries pt child n i) k Q := by
  induction n generalizing i with
  | zero => exact hQ
  | succ n ih =>
    exact freeEntries_skip (h i le_rfl (by omega)) (ih fun x hx hlt => h x (by omega) (by omega))

/-- An entry that points to a lower table: the table is freed and the entry cleared. -/
theorem freeEntries_node (hm : k.mem pt i = mkPte q 0) (hq : IsPage q)
    (hc : wp E (child q) k fun _ k' => wp E (freeEntries pt child n (i + 1)) (k'.setWord pt i 0) Q) :
    wp E (freeEntries pt child (n + 1) i) k Q := by
  unfold freeEntries load
  rw [wp_bind, wp_gets, hm, if_pos (by simp [pteV_mkPte, pteRWX_node]),
    pte2pa_of_isPage hq (by omega)]
  exact wp_bind.mpr hc

/-- `freewalk` of a leaf table with no entries. -/
theorem freewalk_leaf (hq : IsPage q) (h0 : ∀ x < 512, k.mem q x = 0)
    (hQ : Q () (k.freed q)) : wp E (freewalk 1 q) k Q := by
  unfold freewalk
  rw [wp_bind]
  exact freeEntries_empty (fun x _ hx => h0 x (by omega)) (wp_kfree hq hQ)

omit K in
theorem freed_setWord_mem {q' : Nat} (hq : q' ≠ q) (hpt : q' ≠ pt) :
    ((k.freed q).setWord pt i v).mem q' = k.mem q' := by
  rw [setWord_mem_of_ne hpt]
  exact update_of_ne hq _ _

omit K in
theorem freed_setWord_mem_index {x : Nat} (hq : pt ≠ q) (hx : x ≠ i) :
    ((k.freed q).setWord pt i v).mem pt x = k.mem pt x := by
  rw [setWord_mem_of_ne_index hx]
  exact congrFun (update_of_ne hq _ _) x

omit K in
/-- A page of table `r` is freed and its entry in another one cleared. -/
theorem within_unlink (hq : (own q).table = some r) (hpt : (own pt).table = some r) :
    Within r k ((k.freed q).setWord pt i 0) own (update own q .free) := by
  refine ⟨.update (.inr hq) (.inl rfl), fun q' _ ht => freed_setWord_mem ?_ ?_⟩
  · rintro rfl
    exact ht hq
  · rintro rfl
    exact ht hpt

/-- A leaf table with no entries is freed and unlinked. -/
theorem MemInv.freeLow {m j : Nat} (h : MemInv k own T) (hT : T r = some L) (hL : ∀ v, L v = 0)
    (hm : own m = .mid r i) (hq : own q = .low r i j) :
    MemInv ((k.freed q).setWord m j 0) (update own q .free) T := by
  obtain ⟨hp, hu⟩ := h.table r L hT
  have hmq : m ≠ q := by rintro rfl; rw [hm] at hq; cases hq
  refine h.step (r := r) (by rw [hq]; exact .inr rfl) (.inl rfl) (by rw [hq]; simp) (by simp) ?_
    (h.nodup_push (by rw [hq]; simp)) h.free_push (fun _ _ => rfl) ?_ (by simp [hT])
  · intro q' hne ht
    exact freed_setWord_mem hne (by rintro rfl; rw [hm] at ht; exact ht rfl)
  · intro L' hL'
    obtain rfl : L = L' := by simpa [hT] using hL'
    exact ⟨hp.dropLow hm hq (fun _ _ => hL _) rfl (fun q' h1 h2 => freed_setWord_mem h1 h2)
      setWord_mem_self (fun x hx => freed_setWord_mem_index hmq hx),
      hu.congr fun q' v => own_update_iff (by simp) (by rw [hq]; simp)⟩

/-- A table of level 1 with no entries is freed and unlinked. -/
theorem MemInv.freeMid (h : MemInv k own T) (hT : T r = some L) (hq : own q = .mid r i)
    (hlow : ∀ j q', own q' ≠ .low r i j) : MemInv ((k.freed q).setWord r i 0) (update own q .free) T := by
  obtain ⟨hp, hu⟩ := h.table r L hT
  have hrq : r ≠ q := by rintro rfl; rw [hp.own_root] at hq; cases hq
  refine h.step (r := r) (by rw [hq]; exact .inr rfl) (.inl rfl) (by rw [hq]; simp) (by simp) ?_
    (h.nodup_push (by rw [hq]; simp)) h.free_push (fun _ _ => rfl) ?_ (by simp [hT])
  · intro q' hne ht
    exact freed_setWord_mem hne (by rintro rfl; rw [hp.own_root] at ht; exact ht rfl)
  · intro L' hL'
    obtain rfl : L = L' := by simpa [hT] using hL'
    exact ⟨hp.dropMid hq hlow rfl (fun q' h1 h2 => freed_setWord_mem h1 h2)
      setWord_mem_self (fun x hx => freed_setWord_mem_index hrq hx),
      hu.congr fun q' v => own_update_iff (by simp) (by rw [hq]; simp)⟩

/-- The root of a table with no entries is freed; the table is gone. -/
theorem MemInv.freeRoot (h : MemInv k own T) (hT : T r = some L) (hL : ∀ v, L v = 0)
    (hmid : ∀ i q, own q ≠ .mid r i) : MemInv (k.freed r) (update own r .free) (update T r none) := by
  obtain ⟨hp, hu⟩ := h.table r L hT
  have hr := hp.own_root
  refine h.step (r := r) (by rw [hr]; exact .inr rfl) (.inl rfl) (by rw [hr]; simp) (by simp)
    (fun q' e _ => update_of_ne e _ _) (h.nodup_push (by rw [hr]; simp)) h.free_push
    (fun r' e => update_of_ne e _ _) (by simp) ?_
  intro _ q ht
  by_cases e : q = r
  · subst e; rw [update_self] at ht; cases ht
  rw [update_of_ne e] at ht
  cases ho : own q <;> rw [ho] at ht <;> simp only [Owner.table, reduceCtorEq, Option.some.injEq] at ht
  · subst ht; exact e ((hp.root q).mp ho)
  · subst ht; exact hmid _ q ho
  · subst ht
    obtain ⟨⟨m, hm⟩, -⟩ := hp.leaf q _ _ ho
    exact hmid _ m hm
  · subst ht
    rcases hu.user _ (hu.lt q _ ho) with ⟨-, hn⟩ | ⟨_, _, -, -, hl, -⟩
    · exact hn q ho
    · exact mkPte_ne_zero (hl.symm.trans (hL _))

/-- The tables under the table `m` of level 1 are freed. -/
theorem freeEntries_low {m j : Nat} (h : MemInv k own T) (hT : T r = some L)
    (hL : ∀ v, L v = 0) (hm : own m = .mid r i) (hn : j + n = 512)
    (hdone : ∀ j' < j, ∀ q, own q ≠ .low r i j') :
    wp E (freeEntries m (freewalk 1) n j) k fun _ k' => ∃ own', MemInv k' own' T ∧
      (∀ j q, own' q ≠ .low r i j) ∧ Within r k k' own own' ∧
      ∀ q, own' q = own q ∨ (∃ j, own q = .low r i j) ∧ own' q = .free := by
  induction n generalizing k own j with
  | zero =>
    refine ⟨own, h, fun j' q hq => ?_, .refl, fun _ => .inl rfl⟩
    have := ((h.table r L hT).1.leaf q i j' hq).2.1
    exact hdone j' (by omega) q hq
  | succ n ih =>
    obtain ⟨hp, -⟩ := h.table r L hT
    have hdone' : ∀ own' : Nat → Owner, (∀ q, own' q ≠ .low r i j) →
        (∀ j' < j, ∀ q, own' q ≠ .low r i j') → ∀ j' < j + 1, ∀ q, own' q ≠ .low r i j' := by
      intro own' h1 h2 j' hj'
      rcases Nat.lt_succ_iff_lt_or_eq.mp hj' with hlt | rfl
      · exact h2 j' hlt
      · exact h1
    rcases (hp.low m i hm).2 j (by omega) with ⟨h0, hno⟩ | ⟨q, hq, hpg, hw, hun⟩
    · exact freeEntries_skip h0 (ih h hm (by omega) (hdone' own hno hdone))
    · have hleaf : ∀ x < 512, k.mem q x = 0 := fun x hx =>
        ((hp.leaf q i j hq).2.2 x hx).trans (hL _)
      refine freeEntries_node hw hpg (freewalk_leaf hpg hleaf ?_)
      have hmq : m ≠ q := by rintro rfl; rw [hm] at hq; cases hq
      have hback : ∀ q' j', update own q .free q' = .low r i j' →
          q' ≠ q ∧ own q' = .low r i j' := by
        intro q' j' e
        have hne : q' ≠ q := by rintro rfl; rw [update_self] at e; cases e
        rw [update_of_ne hne] at e
        exact ⟨hne, e⟩
      refine (ih (h.freeLow hT hL hm hq) (by rw [update_of_ne hmq, hm]) (by omega)
        (hdone' _ (fun q' e => ?_) fun j' hj' q' e => ?_)).mono fun _ k' ⟨own', h', hno, hw', hfr⟩ => ?_
      · exact (hback q' j e).1 (hun q' (hback q' j e).2)
      · exact hdone j' hj' q' (hback q' j' e).2
      · refine ⟨own', h', hno, .trans (within_unlink (by rw [hq]; rfl) (by rw [hm]; rfl)) hw', fun q' => ?_⟩
        rcases hfr q' with e | ⟨⟨j', e⟩, hf⟩
        · by_cases hne : q' = q
          · subst hne; exact .inr ⟨⟨j, hq⟩, by rw [e, update_self]⟩
          · rw [update_of_ne hne] at e; exact .inl e
        · exact .inr ⟨⟨j', (hback q' j' e).2⟩, hf⟩

/-- The tables under the root are freed. -/
theorem freeEntries_mid (h : MemInv k own T) (hT : T r = some L)
    (hL : ∀ v, L v = 0) (hn : i + n = 512) (hdone : ∀ i' < i, ∀ q, own q ≠ .mid r i') :
    wp E (freeEntries r (freewalk 2) n i) k fun _ k' => ∃ own', MemInv k' own' T ∧
      (∀ i q, own' q ≠ .mid r i) ∧ Within r k k' own own' := by
  induction n generalizing k own i with
  | zero =>
    refine ⟨own, h, fun i' q hq => ?_, .refl⟩
    have := ((h.table r L hT).1.low q i' hq).1
    exact hdone i' (by omega) q hq
  | succ n ih =>
    obtain ⟨hp, -⟩ := h.table r L hT
    have hdone' : ∀ own' : Nat → Owner, (∀ q, own' q ≠ .mid r i) →
        (∀ i' < i, ∀ q, own' q ≠ .mid r i') → ∀ i' < i + 1, ∀ q, own' q ≠ .mid r i' := by
      intro own' h1 h2 i' hi'
      rcases Nat.lt_succ_iff_lt_or_eq.mp hi' with hlt | rfl
      · exact h2 i' hlt
      · exact h1
    rcases hp.mid i (by omega) with ⟨h0, hno⟩ | ⟨q, hq, hpg, hw, hun⟩
    · exact freeEntries_skip h0 (ih h (by omega) (hdone' own hno hdone))
    · refine freeEntries_node hw hpg ?_
      unfold freewalk
      refine (freeEntries_low h hT hL hq rfl (by simp)).bind fun _ k₁ ⟨own₁, h₁, hno₁, hw₁, hfr₁⟩ => ?_
      -- only the leaf tables under `q` are gone
      have hkeep : ∀ q' i', own₁ q' = .mid r i' ↔ own q' = .mid r i' := by
        intro q' i'
        rcases hfr₁ q' with e | ⟨⟨j, e⟩, hf⟩
        · rw [e]
        · rw [e, hf]; simp
      have hq₁ := (hkeep q i).mpr hq
      have hback : ∀ q' i', update own₁ q .free q' = .mid r i' →
          q' ≠ q ∧ own q' = .mid r i' := by
        intro q' i' e
        have hne : q' ≠ q := by rintro rfl; rw [update_self] at e; cases e
        rw [update_of_ne hne] at e
        exact ⟨hne, (hkeep q' i').mp e⟩
      refine wp_kfree hpg ?_
      refine (ih (h₁.freeMid hT hq₁ hno₁) (by omega)
        (hdone' _ (fun q' e => ?_) fun i' hi' q' e => ?_)).mono fun _ k' ⟨own', h', hno', hf'⟩ => ?_
      · exact (hback q' i e).1 (hun q' (hback q' i e).2)
      · exact hdone i' hi' q' (hback q' i' e).2
      · have hr₁ := (h₁.table r L hT).1.own_root
        exact ⟨own', h', hno', (hw₁.trans (within_unlink (by rw [hq₁]; rfl) (by rw [hr₁]; rfl))).trans hf'⟩

/-- `freewalk` of a table with no leaves frees its pages. -/
theorem freewalk_spec (h : MemInv k own T) (hT : T r = some L) (hL : ∀ v, L v = 0) :
    wp E (freewalk 3 r) k fun _ k' => ∃ own', Within r k k' own own' ∧
      MemInv k' own' (update T r none) := by
  unfold freewalk
  refine (freeEntries_mid h hT hL rfl (by simp)).bind fun _ k' ⟨own', h', hno, hf⟩ => ?_
  have hr := (h'.table r L hT).1.own_root
  have hw : Within r k' (k'.freed r) own' (update own' r .free) := by
    refine ⟨.update (.inr (by rw [hr]; rfl)) (.inl rfl), fun q _ ht => update_of_ne ?_ _ _⟩
    rintro rfl
    exact ht (by rw [hr]; rfl)
  exact wp_kfree (h'.isPage (by rw [hr]; simp)) ⟨_, hf.trans hw, h'.freeRoot hT hL hno⟩

end

end Xv6
