import Xv6.Vm.Leaf

/-!
# Taking and giving back user pages

`uvmalloc`, `uvmcopy` and `vmfault` map fresh pages in the same way: a page from `kalloc` is filled and mapped, and
when the tables on the way cannot be made it goes back (`wp_mapFresh`). `Gains` says what such steps do to the
memory as long as they succeed, `Drops` what the error exits leave: the pages go back to the free list, the tables
that were made stay.
-/

namespace Xv6

open Seq
open Function (update update_of_ne update_self)

/-- The virtual pages `D` of table `r` have pages that were free, with the given flags. Pages in use keep their
owners; other pages that were free may be tables of `r`. -/
structure Maps (r : Nat) (D : Nat → Prop) (flags : Nat → Nat) (own own' : Nat → Owner) (L L' : Nat → Nat) : Prop where
  keep : ∀ q, own q ≠ .free → own' q = own q
  free : ∀ q, own q = .free → own' q = .free ∨ NodeOf r (own' q) ∨ ∃ v, D v ∧ own' q = .user r v
  new : ∀ v, D v → ∃ q, own q = .free ∧ own' q = .user r v ∧ L' v = mkPte q (flags v) ∧
    ∀ q', own' q' = .user r v → q' = q
  same : ∀ v, ¬ D v → L' v = L v

/-- The virtual pages `D` of table `r` have fresh pages with the given flags and words. Pages in use keep their
words, but for table pages of `r`. -/
structure Gains (r : Nat) (D : Nat → Prop) (flags : Nat → Nat) (words : Nat → Nat → Nat) (k k' : Kmem)
    (own own' : Nat → Owner) (L L' : Nat → Nat) : Prop extends Maps r D flags own own' L L' where
  mem : ∀ q, own q ≠ .free → ¬ NodeOf r (own q) → k'.mem q = k.mem q
  words : ∀ v q, D v → own' q = .user r v → k'.mem q = words v

/-- The pages of the virtual pages `D` of table `r` are free, or table pages. The other pages in use keep their
owners, and their words but for table pages of `r`. -/
structure Drops (r : Nat) (D : Nat → Prop) (k k' : Kmem) (own own' : Nat → Owner) (L L' : Nat → Nat) : Prop where
  keep : ∀ q, own q ≠ .free → (∀ v, D v → own q ≠ .user r v) → own' q = own q
  mem : ∀ q, own q ≠ .free → (∀ v, D v → own q ≠ .user r v) → ¬ NodeOf r (own q) → k'.mem q = k.mem q
  free : ∀ q, own q = .free ∨ (∃ v, D v ∧ own q = .user r v) → own' q = .free ∨ NodeOf r (own' q)
  cleared : ∀ v, D v → L' v = 0
  same : ∀ v, ¬ D v → L' v = L v

/-- No virtual page. -/
def NoPage (_ : Nat) : Prop := False

/-- The `n` virtual pages from `p`. -/
def PageRange (p n v : Nat) : Prop := p ≤ v ∧ v < p + n

section

variable {r q p n : Nat} {D D' : Nat → Prop} {flags : Nat → Nat} {words : Nat → Nat → Nat}
variable {k k' k'' : Kmem} {own own' own'' : Nat → Owner} {L L' L'' : Nat → Nat}

theorem NodeOf.ne_free {o : Owner} (h : NodeOf r o) : o ≠ .free := by
  rintro rfl
  cases h.1

variable {v : Nat} {flags' : Nat → Nat}

theorem not_nodeOf_user {r' : Nat} : ¬ NodeOf r (.user r' v) := fun h => by cases h.2

theorem not_nodeOf_held : ¬ NodeOf r .held := fun h => by cases h.2

theorem Maps.none (hD : ∀ v, ¬ D v) : Maps r D flags own own L L where
  keep _ _ := rfl
  free _ hq := .inl hq
  new v hv := absurd hv (hD v)
  same _ _ := rfl

section

variable (h : Maps r D flags own own' L L')
include h

/-- The pages of the other virtual pages are the same. -/
theorem Maps.user_iff (hv : ¬ D v) : own' q = .user r v ↔ own q = .user r v := by
  refine ⟨fun e => ?_, fun e => (h.keep q (by rw [e]; simp)).trans e⟩
  by_cases hq : own q = .free
  · rcases h.free q hq with e' | hn | ⟨w, hw, e'⟩
    · rw [e'] at e
      cases e
    · rw [e] at hn
      exact absurd hn not_nodeOf_user
    · rw [e'] at e
      cases e
      exact absurd hw hv
  · rw [← h.keep q hq, e]

/-- What has been taken before is still there. -/
theorem Maps.trans (h' : Maps r D' flags own' own'' L' L'')
    (hd : ∀ v, D v → ¬ D' v) : Maps r (fun v => D v ∨ D' v) flags own own'' L L'' where
  keep q hq := by
    have e := h.keep q hq
    rw [h'.keep q (by rwa [e]), e]
  free q hq := by
    rcases h.free q hq with e | hn | ⟨v, hv, e⟩
    · rcases h'.free q e with e' | hn' | ⟨v, hv, e'⟩
      · exact .inl e'
      · exact .inr (.inl hn')
      · exact .inr (.inr ⟨v, .inr hv, e'⟩)
    · rw [h'.keep q hn.ne_free]
      exact .inr (.inl hn)
    · rw [h'.keep q (by rw [e]; simp)]
      exact .inr (.inr ⟨v, .inl hv, e⟩)
  new v hv := by
    rcases hv with hv | hv
    · obtain ⟨q, hq, hq', hL, hu⟩ := h.new v hv
      have hne : own' q ≠ .free := by rw [hq']; simp
      exact ⟨q, hq, (h'.keep q hne).trans hq', (h'.same v (hd v hv)).trans hL,
        fun q' e => hu q' ((h'.user_iff (hd v hv)).mp e)⟩
    · obtain ⟨q, hq, hq', hL, hu⟩ := h'.new v hv
      refine ⟨q, ?_, hq', hL, hu⟩
      by_contra hf
      exact hf ((h.keep q hf).symm.trans hq)
  same v hv := by
    rw [h'.same v fun hv' => hv (.inr hv'), h.same v fun hv' => hv (.inl hv')]

theorem Maps.congr (hD : ∀ v, D' v ↔ D v)
    (hf : ∀ v, D v → flags' v = flags v) : Maps r D' flags' own own' L L' where
  keep := h.keep
  free q hq := by simpa only [hD] using h.free q hq
  new v hv := by
    have hv' := (hD v).mp hv
    rw [hf v hv']
    exact h.new v hv'
  same v hv := h.same v fun hv' => hv ((hD v).mpr hv')

theorem Maps.frame : Frame r own own' := by
  intro q
  by_cases hq : own q = .free
  · rcases h.free q hq with e | hn | ⟨v, -, e⟩
    · exact .inr ⟨.inl hq, .inl e⟩
    · exact .inr ⟨.inl hq, .inr hn.1⟩
    · exact .inr ⟨.inl hq, .inr (by rw [e]; rfl)⟩
  · exact .inl (h.keep q hq)

end

theorem Gains.within (h : Gains r D flags words k k' own own' L L') : Within r k k' own own' :=
  ⟨h.frame, fun q hf ht => h.mem q hf fun hn => ht hn.1⟩

theorem Gains.none (hD : ∀ v, ¬ D v) : Gains r D flags words k k own own L L where
  toMaps := .none hD
  mem _ _ _ := rfl
  words v _ hv _ := absurd hv (hD v)

theorem Gains.trans (h : Gains r D flags words k k' own own' L L')
    (h' : Gains r D' flags words k' k'' own' own'' L' L'') (hd : ∀ v, D v → ¬ D' v) :
    Gains r (fun v => D v ∨ D' v) flags words k k'' own own'' L L'' where
  toMaps := h.toMaps.trans h'.toMaps hd
  mem q hq hn := by
    have e := h.keep q hq
    rw [h'.mem q (by rwa [e]) (by rwa [e]), h.mem q hq hn]
  words v q hv e := by
    rcases hv with hv | hv
    · have e' := (h'.user_iff (hd v hv)).mp e
      rw [h'.mem q (by rw [e']; simp) (by rw [e']; exact not_nodeOf_user), h.words v q hv e']
    · exact h'.words v q hv e

theorem Gains.congr {words' : Nat → Nat → Nat}
    (h : Gains r D flags words k k' own own' L L') (hD : ∀ v, D' v ↔ D v)
    (hw : ∀ v, D v → flags' v = flags v ∧ words' v = words v) :
    Gains r D' flags' words' k k' own own' L L' where
  toMaps := h.toMaps.congr hD fun v hv => (hw v hv).1
  mem := h.mem
  words v q hv e := by
    have hv' := (hD v).mp hv
    rw [(hw v hv').2, h.words v q hv' e]

/-- Nothing was taken, and no word changed. -/
theorem Drops.of_mem (hm : k'.mem = k.mem) : Drops r NoPage k k' own own L L where
  keep _ _ _ := rfl
  mem _ _ _ _ := by rw [hm]
  free _ hq := hq.elim .inl fun ⟨_, hv, _⟩ => hv.elim
  cleared _ hv := hv.elim
  same _ _ := rfl

theorem Drops.refl : Drops r NoPage k k own own L L := .of_mem rfl

/-- First nothing but table pages was taken. -/
theorem Drops.trans (h : Drops r NoPage k k' own own' L L') (h' : Drops r D k' k'' own' own'' L' L'') :
    Drops r D k k'' own own'' L L'' where
  keep q hq hD := by
    have e := h.keep q hq fun _ hv => hv.elim
    rw [h'.keep q (by rwa [e]) (by rwa [e]), e]
  mem q hq hD hn := by
    have e := h.keep q hq fun _ hv => hv.elim
    rw [h'.mem q (by rwa [e]) (by rwa [e]) (by rwa [e]), h.mem q hq (fun _ hv => hv.elim) hn]
  free q hq := by
    rcases hq with hq | ⟨v, hv, hq⟩
    · rcases h.free q (.inl hq) with e | hn
      · exact h'.free q (.inl e)
      · rw [h'.keep q hn.ne_free fun v _ e => by rw [e] at hn; exact not_nodeOf_user hn]
        exact .inr hn
    · have e := h.keep q (by rw [hq]; simp) fun _ hv => hv.elim
      exact h'.free q (.inr ⟨v, hv, e.trans hq⟩)
  cleared := h'.cleared
  same v hv := (h'.same v hv).trans (h.same v id)

/-- The page that was taken for `v` is given back too. -/
theorem Drops.after_gain (h : Gains r (· = v) flags words k k' own own' L L')
    (h' : Drops r (fun w => D w ∨ w = v) k' k'' own' own'' L' L'') (h0 : L v = 0)
    (hv : ∀ q, own q ≠ .user r v) : Drops r D k k'' own own'' L L'' where
  keep q hq hD := by
    have e := h.keep q hq
    rw [h'.keep q (by rwa [e]), e]
    rintro w (hw | rfl)
    · rw [e]
      exact hD w hw
    · rw [e]
      exact hv q
  mem q hq hD hn := by
    have e := h.keep q hq
    rw [h'.mem q (by rwa [e]) ?_ (by rwa [e]), h.mem q hq hn]
    rintro w (hw | rfl)
    · rw [e]
      exact hD w hw
    · rw [e]
      exact hv q
  free q hq := by
    rcases hq with hq | ⟨w, hw, hq⟩
    · rcases h.free q hq with e | hn | ⟨w, rfl, e⟩
      · exact h'.free q (.inl e)
      · rw [h'.keep q hn.ne_free fun v _ e => by rw [e] at hn; exact not_nodeOf_user hn]
        exact .inr hn
      · exact h'.free q (.inr ⟨w, .inr rfl, e⟩)
    · have e := h.keep q (by rw [hq]; simp)
      exact h'.free q (.inr ⟨w, .inl hw, e.trans hq⟩)
  cleared w hw := h'.cleared w (.inl hw)
  same w hw := by
    by_cases e : w = v
    · subst e
      rw [h'.cleared w (.inr rfl), h0]
    · rw [h'.same w fun hw' => hw'.elim hw e, h.same w e]

/-- A page that is not mapped need not be given back. -/
theorem Drops.of_unmapped (h : Drops r (fun w => D w ∨ w = v) k k' own own' L L') (h0 : L v = 0)
    (hv : ∀ q, own q ≠ .user r v) : Drops r D k k' own own' L L' where
  keep q hq hD := h.keep q hq fun w hw => hw.elim (hD w) fun e => e ▸ hv q
  mem q hq hD hn := h.mem q hq (fun w hw => hw.elim (hD w) fun e => e ▸ hv q) hn
  free q hq := h.free q (hq.imp id fun ⟨w, hw, e⟩ => ⟨w, .inl hw, e⟩)
  cleared w hw := h.cleared w (.inl hw)
  same w hw := by
    by_cases e : w = v
    · subst e
      rw [h.cleared w (.inr rfl), h0]
    · exact h.same w fun hw' => hw'.elim hw e

section

variable (h : Drops r D k k' own own' L L')
include h

theorem Drops.congr (hD : ∀ v, D' v ↔ D v) : Drops r D' k k' own own' L L' := by
  obtain rfl : D' = D := funext fun v => propext (hD v)
  exact h

theorem Drops.frame : Frame r own own' := by
  intro q
  by_cases hq : own q = .free ∨ ∃ v, D v ∧ own q = .user r v
  · refine .inr ⟨hq.imp id fun ⟨v, _, e⟩ => by rw [e]; rfl, (h.free q hq).imp id And.left⟩
  · exact .inl (h.keep q (fun e => hq (.inl e)) fun v hv e => hq (.inr ⟨v, hv, e⟩))

theorem Drops.within : Within r k k' own own' :=
  ⟨h.frame, fun q hf ht => h.mem q hf (fun v _ e => ht (by rw [e]; rfl)) fun hn => ht hn.1⟩

theorem Drops.user_iff : own' q = .user r v ↔ own q = .user r v ∧ ¬ D v := by
  constructor
  · intro e
    by_cases hq : own q = .free ∨ ∃ v, D v ∧ own q = .user r v
    · rcases h.free q hq with e' | hn
      · rw [e'] at e
        cases e
      · rw [e] at hn
        exact absurd hn not_nodeOf_user
    · rw [h.keep q (fun e => hq (.inl e)) fun v hv e => hq (.inr ⟨v, hv, e⟩)] at e
      exact ⟨e, fun hv => hq (.inr ⟨v, hv, e⟩)⟩
  · intro ⟨e, hv⟩
    rw [h.keep q (by rw [e]; simp), e]
    intro w hw e'
    rw [e] at e'
    cases e'
    exact hv hw

end

theorem pageRange_zero : PageRange p 0 v ↔ NoPage v :=
  ⟨fun h => absurd h.2 (by have := h.1; omega), fun h => h.elim⟩

theorem pageRange_succ : PageRange p (n + 1) v ↔ PageRange p n v ∨ v = p + n := by
  unfold PageRange
  omega

/-- The first page apart. -/
theorem pageRange_cons : PageRange p (n + 1) v ↔ v = p ∨ PageRange (p + 1) n v := by
  unfold PageRange
  omega

/-- `uvmunmap` gives back the pages of its range. -/
theorem Drops.of_release (hu : Unmapped r k k' own (release own r p n)) :
    Drops r (PageRange p n) k k' own (release own r p n) L (clearRange L p n) where
  keep q _ hD := release_keep fun w h1 h2 => hD w ⟨h1, h2⟩
  mem q hq hD hn := hu.mem q hq hn (release_keep fun w h1 h2 => hD w ⟨h1, h2⟩)
  free q hq := by
    rcases hq with hq | ⟨v, hv, hq⟩
    · exact .inl ((release_keep fun w _ _ => by rw [hq]; simp).trans hq)
    · exact .inl (release_user hq hv.1 hv.2)
  cleared v hv := if_pos hv
  same v hv := if_neg hv

end

section

variable [K : Layout] {E : Panic → Prop} {k k' : Kmem} {own own' : Nat → Owner}
variable {T : Nat → Option (Nat → Nat)} {r q va : Nat} {L L' : Nat → Nat}
variable {D : Nat → Prop} {flags : Nat → Nat} {words : Nat → Nat → Nat}

/-! ## The memory with all its tables -/

omit K in
theorem OwnedAt.congr {v : Nat} (h : OwnedAt own r L v) (hL : L' v = L v)
    (ho : ∀ q, own' q = .user r v ↔ own q = .user r v) : OwnedAt own' r L' v := by
  simpa only [OwnedAt, hL, ho, ne_eq] using h

theorem UserOk.maps (h : UserOk own r L) (hg : Maps r D flags own own' L L') (hl : Local k' own' r L')
    (hD : ∀ v, D v → v < NUSER ∧ flags v < 1024 ∧ flags v / 2 % 2 = 1) : UserOk own' r L' := by
  refine ⟨fun v hv => ?_, fun q v hq => ?_⟩
  · by_cases hDv : D v
    · obtain ⟨-, hf, hr⟩ := hD v hDv
      obtain ⟨q, -, hq, hL, hu⟩ := hg.new v hDv
      exact .inr ⟨q, _, hq, hl.page q (by rw [hq]; simp), hL, hf, hr, hu⟩
    · simpa only [hg.same v hDv, hg.user_iff hDv, ne_eq] using h.user v hv
  · by_cases hDv : D v
    · exact (hD v hDv).1
    · exact h.lt q v ((hg.user_iff hDv).mp hq)

theorem UserOk.drops (h : UserOk own r L) (hg : Drops r D k k' own own' L L') : UserOk own' r L' := by
  refine ⟨fun v hv => ?_, fun q v hq => h.lt q v (hg.user_iff.mp hq).1⟩
  by_cases hDv : D v
  · exact .inl ⟨hg.cleared v hDv, fun q e => (hg.user_iff.mp e).2 hDv⟩
  · have ho : ∀ q, own' q = .user r v ↔ own q = .user r v := fun q => hg.user_iff.trans (and_iff_left hDv)
    simpa only [hg.same v hDv, ho, ne_eq] using h.user v hv

theorem MemInv.gains (h : MemInv k own T) (hT : T r = some L) (hl : Local k' own' r L')
    (hg : Gains r D flags words k k' own own' L L')
    (hD : ∀ v, D v → v < NUSER ∧ flags v < 1024 ∧ flags v / 2 % 2 = 1) : MemInv k' own' (update T r (some L')) :=
  h.of_within hl ((h.table r L hT).2.maps hg.toMaps hl hD) hg.within

theorem MemInv.drops (h : MemInv k own T) (hT : T r = some L) (hl : Local k' own' r L')
    (hg : Drops r D k k' own own' L L') : MemInv k' own' (update T r (some L')) :=
  h.of_within hl ((h.table r L hT).2.drops hg) hg.within

/-! ## Mapping a fresh page -/

/-- The tables that are missing on the way to an address depend on the table pages only. -/
theorem Local.missing_eq (h : Local k own r L) (h' : Local k' own' r L')
    (ho : ∀ q o, NodeOf r o → (own' q = o ↔ own q = o)) : missing k' r va = missing k r va := by
  have hm : ∀ q, own' q = .mid r (px 2 va) ↔ own q = .mid r (px 2 va) := fun q => ho q _ ⟨rfl, rfl⟩
  have hl : ∀ q, own' q = .low r (px 2 va) (px 1 va) ↔ own q = .low r (px 2 va) (px 1 va) := fun q => ho q _ ⟨rfl, rfl⟩
  by_cases hex : ∃ m, own m = .mid r (px 2 va)
  · obtain ⟨m, hq⟩ := hex
    by_cases hex' : ∃ p, own p = .low r (px 2 va) (px 1 va)
    · obtain ⟨p, hp⟩ := hex'
      rw [h.pt.missing_zero hp, h'.pt.missing_zero ((hl p).mpr hp)]
    · have hno : ∀ p, own p ≠ .low r (px 2 va) (px 1 va) := fun p hp => hex' ⟨p, hp⟩
      rw [h.pt.missing_one hq hno, h'.pt.missing_one ((hm m).mpr hq) fun p hp => hno p ((hl p).mp hp)]
  · have hno : ∀ m, own m ≠ .mid r (px 2 va) := fun m hq => hex ⟨m, hq⟩
    rw [h.pt.missing_two hno, h'.pt.missing_two fun m hq => hno m ((hm m).mp hq)]

omit K in
/-- Only the tables on the way to `va` were made. -/
def TablesFor (r va : Nat) (own own' : Nat → Owner) : Prop :=
  ∀ q o, NodeOf r o → o ≠ .mid r (px 2 va) → o ≠ .low r (px 2 va) (px 1 va) → (own' q = o ↔ own q = o)

/-- A page from `kalloc` is filled and mapped at `va`. When there is none, or no page for a table on the way, all
that was taken is free again but for tables, and `A` follows. -/
theorem wp_mapFresh {α : Type} {A : KM α} {B : Nat → KM α} {w : Kmem → Nat → Nat} {ws : Nat → Nat} {perm : Nat}
    {Q : α → Kmem → Prop} (h : Local k own r L) (hva : va < MAXVA) (hal : va % PGSIZE = 0)
    (hE : L (va / PGSIZE) ≠ 0 → E .mappagesRemap) (hown : ∀ q, own q ≠ .user r (va / PGSIZE))
    (hw : ∀ q k₁, own q = .free → (∀ q', q' ≠ q → k₁.mem q' = k.mem q') → w k₁ = ws)
    (hfail : ∀ k' own', Local k' own' r L → Drops r NoPage k k' own own' L L → ¬ CanAlloc k (1 + missing k r va) →
      wp E A k' Q)
    (hok : ∀ k' own' mem, Local k' own' r (update L (va / PGSIZE) (mkPte mem perm)) →
      Gains r (· = va / PGSIZE) (fun _ => perm) (fun _ => ws) k k' own own' L
        (update L (va / PGSIZE) (mkPte mem perm)) →
      L (va / PGSIZE) = 0 → CanAlloc k (1 + missing k r va) → Took k k' (1 + missing k r va) →
      TablesFor r va own own' → own' mem = .user r (va / PGSIZE) → wp E (B mem) k' Q) :
    wp E (kalloc >>= fun res => match res with
      | none => A
      | some mem => M.modify (fun k => k.setPage mem (w k)) >>= fun _ =>
        mappages r va PGSIZE mem perm >>= fun ok => if ok then B mem else kfree mem >>= fun _ => A) k Q := by
  refine (kalloc_local h).bind fun res k₁ hres => ?_
  rcases hres with ⟨rfl, hc, h₁, hm₁, -⟩ | ⟨mem, rfl, hc, hmem, ht₁, h₁, hm₁⟩
  · exact hfail k₁ own h₁ (.of_mem hm₁) fun hc' => hc (hc'.mono (by omega))
  have hheld : update own mem .held mem = .held := update_self ..
  have hother : ∀ q, own q ≠ .free → q ≠ mem := by
    rintro q hq rfl
    exact hq hmem
  have h₂ := h₁.fill (q := mem) (by rw [hheld]; exact not_nodeOf_held) (w k₁)
  have hmiss : missing (k₁.setPage mem (w k₁)) r va = missing k r va :=
    h.missing_eq h₂ fun q o ho => own_update_iff (by rintro rfl; exact not_nodeOf_held ho)
      (by rw [hmem]; rintro rfl; exact ho.ne_free rfl)
  have ht₂ : Took k (k₁.setPage mem (w k₁)) 1 := ⟨ht₁.fails, ht₁.calls, ht₁.free⟩
  have hm₂ : ∀ q, q ≠ mem → (k₁.setPage mem (w k₁)).mem q = k.mem q := fun q e =>
    (update_of_ne e _ _).trans (hm₁ q e)
  simp only
  rw [wp_bind, wp_modify, mappages_one hal]
  refine (mapPage_local h₂ hva hE).bind fun ok k₃ ⟨own₃, ht, hres⟩ => ?_
  have hmem₃ : own₃ mem = .held := ht.taken.keep hheld (by simp)
  have hkeep₃ : ∀ q, own q ≠ .free → own₃ q = own q := by
    intro q hq
    refine ht.taken.keep ?_ hq
    exact update_of_ne (hother q hq) _ _
  have hmem : ∀ q, own q ≠ .free → ¬ NodeOf r (own q) → k₃.mem q = k.mem q := by
    intro q hq hn
    have e : update own mem .held q = own q := update_of_ne (hother q hq) _ _
    rw [ht.mem q (by rwa [e]) (by rwa [e]), hm₂ q (hother q hq)]
  have hfree₃ : ∀ q, q ≠ mem → own q = .free → own₃ q = .free ∨ NodeOf r (own₃ q) := by
    intro q e hq
    rcases ht.taken q with e' | ⟨-, h1, h2⟩
    · rw [e', update_of_ne e]
      exact .inl hq
    · exact .inr ⟨h1, h2⟩
  rcases hres with ⟨rfl, hc₃, h₃⟩ | ⟨rfl, h0, hc₃, ht₃, h₃⟩
  · -- the page goes back
    have hpg := h₃.page mem (by rw [hmem₃]; simp)
    rw [if_neg (by simp), wp_bind]
    refine wp_kfree hpg (hfail _ (update own₃ mem .free) ?_ ⟨?_, ?_, ?_, fun _ hv => hv.elim, fun _ _ => rfl⟩ ?_)
    · exact h₃.push (by rw [hmem₃]; simp) (by rw [hmem₃]; simp) (by rw [hmem₃]; exact not_nodeOf_held) rfl
        fun q' e => update_of_ne e _ _
    · intro q hq _
      rw [update_of_ne (hother q hq), hkeep₃ q hq]
    · intro q hq _ hn
      exact (update_of_ne (hother q hq) _ _).trans (hmem q hq hn)
    · rintro q (hq | ⟨v, hv, -⟩)
      · by_cases e : q = mem
        · subst e
          exact .inl (update_self ..)
        · rw [update_of_ne e]
          exact hfree₃ q e hq
      · exact hv.elim
    · rw [ht₂.canAlloc_add hc, ← hmiss]
      exact hc₃
  · -- the page is the table's
    have hpg := h₃.page mem (by rw [hmem₃]; simp)
    have h₄ := h₃.retag (o := .user r (va / PGSIZE)) (by rw [hmem₃]; simp) (by rw [hmem₃]; exact not_nodeOf_held) hpg
      (by simp) not_nodeOf_user
    have hself : update own₃ mem (.user r (va / PGSIZE)) mem = .user r (va / PGSIZE) :=
      update_self ..
    rw [if_pos rfl]
    have hu : ∀ q', update own₃ mem (.user r (va / PGSIZE)) q' = .user r (va / PGSIZE) → q' = mem := by
      intro q' e
      by_contra hne
      rw [update_of_ne hne] at e
      have e' := ht.taken.back e rfl
      rw [update_of_ne hne] at e'
      exact hown q' e'
    refine hok k₃ _ mem h₄ ⟨⟨?_, ?_, ?_, fun v hv => update_of_ne hv _ _⟩, hmem, ?_⟩ h0 ?_ ?_ ?_ hself
    · intro q hq
      rw [update_of_ne (hother q hq), hkeep₃ q hq]
    · intro q hq
      by_cases e : q = mem
      · subst e
        exact .inr (.inr ⟨_, rfl, hself⟩)
      · rw [update_of_ne e]
        exact (hfree₃ q e hq).imp id .inl
    · rintro v rfl
      exact ⟨mem, ‹own mem = .free›, hself, update_self .., hu⟩
    · rintro v q rfl e
      rw [hu q e, ht.mem mem (by rw [hheld]; simp) (by rw [hheld]; exact not_nodeOf_held), ← hw mem k₁ ‹_› hm₁]
      exact update_self ..
    · rw [ht₂.canAlloc_add hc, ← hmiss]
      exact hc₃
    · rw [← hmiss]
      exact ht₂.trans ht₃
    · intro q o ho h1 h2
      rw [own_update_iff (by rintro rfl; exact not_nodeOf_user ho)
        (by rw [hmem₃]; rintro rfl; exact not_nodeOf_held ho),
        ht.only q o ho h1 h2, own_update_iff (by rintro rfl; exact not_nodeOf_held ho)
          (by rw [‹own mem = .free›]; rintro rfl; exact ho.ne_free rfl)]

end

end Xv6
