import Xv6.Vm.Leaf

/-!
# What the page-table code does to the owners

One spec for each function of `kalloc.c` and of the page-table part of `vm.c`, from a state with
`MemInv`. A spec says which pages changed hands: `Taken` when free pages became pages of a table,
`Frame r` when only free pages and pages of table `r` did.

None of these functions panics on a table that the invariant describes, except that mapping a page
that is already mapped is "mappages: remap".
-/

namespace Xv6

open Seq
open Function (update update_eq_self_iff update_idem update_of_ne update_self)

section

variable [K : Layout] {E : Panic → Prop} {k : Kmem} {own : Nat → Owner}
variable {T : Nat → Option (Nat → Nat)} {r q : Nat} {L : Nat → Nat}

/-! ## `kalloc` and `kfree` -/

theorem MemInv.of_eq {k' : Kmem} (h : MemInv k own T) (hm : k'.mem = k.mem)
    (hl : k'.freelist = k.freelist) : MemInv k' own T :=
  ⟨hl ▸ h.nodup, hl ▸ h.free, h.page, hm ▸ h.table, h.dom⟩

theorem kalloc_spec (h : MemInv k own T) : wp E kalloc k fun res k' =>
    (res = none ∧ MemInv k' own T ∧ k'.freelist = k.freelist ∧ k'.mem = k.mem) ∨
    ∃ q, res = some q ∧ own q = .free ∧ MemInv k' (update own q .held) T ∧
      k'.freelist.length + 1 = k.freelist.length ∧ ∀ q', q' ≠ q → k'.mem q' = k.mem q' := by
  unfold wp kalloc
  by_cases hf : k.fails k.calls = true
  · rw [if_pos hf]
    exact .inl ⟨rfl, h.of_eq rfl rfl, rfl, rfl⟩
  · rw [if_neg hf]
    rcases hl : k.freelist with _ | ⟨q, l⟩
    · exact .inl ⟨rfl, h.of_eq rfl hl.symm, rfl, rfl⟩
    · obtain ⟨hfree, h'⟩ := h.pop (n := { k with calls := k.calls + 1, freelist := l }.setPage q
        fun _ => 0x0505050505050505) hl rfl fun q' e => update_of_ne e _ _
      exact .inr ⟨q, rfl, hfree, h', by simp [Kmem.setPage], fun q' e => update_of_ne e _ _⟩

theorem kfree_spec (h : MemInv k own T) (hq : (own q).table = none) (hout : own q ≠ .outside)
    (hf : own q ≠ .free) : wp E (kfree q) k fun _ k' => MemInv k' (update own q .free) T :=
  wp_kfree (h.isPage hout) (h.push hq hout hf rfl fun _ e => update_of_ne e _ _)

/-! ## `walk` -/

/-- A walk of table `r` keeps the pages of all tables. -/
theorem MemInv.of_tabled {k' : Kmem} {own' : Nat → Owner} {L' : Nat → Nat} {va : Nat} (h : MemInv k own T)
    (hl : Local k' own' r L') (hu : UserOk own r L') (ht : Tabled r va k k' own own') :
    MemInv k' own' (update T r (some L')) := by
  refine h.of_within hl (hu.congr fun q v => ?_) ht.within
  exact ⟨fun hq => ht.taken.back hq rfl, fun hq => ht.taken.keep hq (by simp)⟩

/-! ## Mapping a page -/

/-- The trapframe or the trampoline is mapped: no page changes hands but for new table pages. -/
theorem mapPage_high {va pa perm : Nat} (h : MemInv k own T) (hT : T r = some L)
    (hva : NUSER ≤ va / PGSIZE) (hlt : va < MAXVA) (h0 : L (va / PGSIZE) = 0) :
    wp E (mapPage r va pa perm) k fun ok k' => ∃ own', Within r k k' own own' ∧
      k'.freelist.length ≤ k.freelist.length ∧
      ((ok = false ∧ MemInv k' own' T) ∨ (ok = true ∧
        MemInv k' own' (update T r (some (update L (va / PGSIZE) (mkPte pa perm)))))) := by
  have hu := (h.table r L hT).2
  refine (mapPage_local (h.toLocal hT) hlt fun hn => absurd h0 hn).mono
    fun ok k' ⟨own', ht, hres⟩ => ⟨own', ht.within, ht.free_le, ?_⟩
  rcases hres with ⟨rfl, -, h'⟩ | ⟨rfl, -, -, -, h'⟩
  · have hm := h.of_tabled h' hu ht
    rw [update_eq_self_iff.mpr hT.symm] at hm
    exact .inl ⟨rfl, hm⟩
  · exact .inr ⟨rfl, h.of_tabled h' (hu.high hva) ht⟩

/-! ## A new table -/

theorem MemInv.table_none (h : MemInv k own T) (hr : own r ≠ .root r) : T r = none := by
  cases hT : T r with
  | none => rfl
  | some L => exact absurd (h.table r L hT).1.own_root hr

theorem ptOk_empty {mem : Nat → Nat → Nat} (hno : ∀ q, (own q).table = some r → q = r)
    (hr : own r = .root r) (hz : ∀ x, mem r x = 0) : PtOk mem own r fun _ => 0 := by
  have hne : ∀ q o, o.table = some r → o ≠ .root r → own q ≠ o := by
    rintro q o ht hn rfl
    rw [hno q ht] at hn
    exact hn hr
  refine ⟨fun q => ⟨fun e => hno q (by rw [e]; rfl), fun e => e ▸ hr⟩, ?_, ?_, ?_, ?_, ?_⟩
  · exact fun i _ => .inl ⟨hz i, fun q => hne q _ rfl (by simp)⟩
  · exact fun q i e => absurd e (hne q _ rfl (by simp))
  · exact fun q i j e => absurd e (hne q _ rfl (by simp))
  · exact fun _ _ _ _ _ _ _ => rfl
  · exact fun _ => .inl rfl

theorem uvmcreate_spec (h : MemInv k own T) : wp E uvmcreate k fun res k' =>
    (res = none ∧ MemInv k' own T ∧ k'.mem = k.mem) ∨
    ∃ r, res = some r ∧ own r = .free ∧ T r = none ∧ k'.freelist.length ≤ k.freelist.length ∧
      Within r k k' own (update own r (.root r)) ∧
      MemInv k' (update own r (.root r)) (update T r (some fun _ => 0)) := by
  unfold uvmcreate
  refine (kalloc_spec h).bind fun res k' hres => ?_
  rcases hres with ⟨rfl, h', -, hm⟩ | ⟨r, rfl, hr, h', hl, hm⟩
  · exact .inl ⟨rfl, h', hm⟩
  have hT : T r = none := h.table_none (by rw [hr]; simp)
  refine .inr ⟨r, rfl, hr, hT, ?_, ⟨.update (.inl hr) (.inr rfl), fun q hf _ => ?_⟩, ?_⟩
  · show k'.freelist.length ≤ _
    omega
  · have hne : q ≠ r := by rintro rfl; exact hf hr
    exact (update_of_ne hne _ _).trans (hm q hne)
  have hz := h'.fill (q := r) (by rw [update_self]; rfl) fun _ => 0
  -- no page was of table `r`
  have hno : ∀ q, (own q).table ≠ some r := fun q e => h.dom q r e hT
  have hown : ∀ q, (update own r (.root r) q).table = some r → q = r := by
    intro q hq
    by_contra e
    rw [update_of_ne e] at hq
    exact hno q hq
  have := hz.step (q := r) (r := r) (o := .root r) (n := k'.setPage r fun _ => 0)
    (U := update T r (some fun _ => 0)) (by rw [update_self]; exact .inl rfl)
    (.inr rfl) (by simp) (by simp) (fun _ _ _ => rfl) hz.nodup
    (hz.free_update (by simp) (by simp)) (fun r' e => update_of_ne e _ _) ?_ (by simp)
  · rwa [update_idem] at this
  · intro L hL
    obtain rfl : (fun _ => 0) = L := by simpa using hL
    rw [update_idem]
    refine ⟨ptOk_empty hown (update_self ..) fun x => by simp [Kmem.setPage], ?_, ?_⟩
    · refine fun v _ => .inl ⟨rfl, fun q e => ?_⟩
      have hq := hown q (by rw [e]; rfl)
      subst hq
      rw [update_self] at e
      cases e
    · intro q v e
      have hq := hown q (by rw [e]; rfl)
      subst hq
      rw [update_self] at e
      cases e

end

end Xv6
