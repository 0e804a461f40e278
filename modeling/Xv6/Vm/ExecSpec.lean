import Xv6.Vm.Copy
import Xv6.Vm.Proc

/-!
# Page tables of processes

The page table of a process has the trapframe and the trampoline at the top and user pages only
below its size (`LeavesOk`). `proc_pagetable` makes such a table, `proc_freepagetable` frees it.
-/

namespace Xv6

open Seq
open Function (update update_eq_self_iff update_idem update_of_ne update_self)

section

variable [K : Layout] {E : Panic → Prop} {k : Kmem} {own own' : Nat → Owner}
variable {T : Nat → Option (Nat → Nat)} {r q tf sz : Nat} {L : Nat → Nat}

/-- The leaves of the table of a process with the trapframe `tf` and the size `sz`. -/
structure LeavesOk (L : Nat → Nat) (tf sz : Nat) : Prop where
  trapframe : L NUSER = mkPte tf (PTE_R + PTE_W)
  trampoline : L (NUSER + 1) = mkPte K.trampoline (PTE_R + PTE_X)
  above : ∀ v, NUSER + 2 ≤ v → L v = 0
  empty : ∀ v < NUSER, pages sz ≤ v → L v = 0

omit K in
theorem pteU_mkPte {pa perm : Nat} : pteU (mkPte pa perm) = (perm / 16 % 2 == 1) := by
  unfold pteU mkPte
  congr 1
  omega

theorem LeavesOk.topOk (h : LeavesOk L tf sz) : TopOk L := by
  intro v hv
  rcases Nat.lt_or_ge v (NUSER + 2) with hlt | hge
  · rcases Nat.lt_or_ge v (NUSER + 1) with hlt' | hge'
    · rw [show v = NUSER by omega, h.trapframe, pteU_mkPte]; rfl
    · rw [show v = NUSER + 1 by omega, h.trampoline, pteU_mkPte]; rfl
  · rw [h.above v hge]; rfl

theorem LeavesOk.top_ne (h : LeavesOk L tf sz) : L NUSER ≠ 0 := h.trapframe ▸ mkPte_ne_zero

/-- Leaves that differ only below the trapframe. -/
theorem LeavesOk.congr {L' : Nat → Nat} {sz' : Nat} (h : LeavesOk L tf sz)
    (htop : ∀ v, NUSER ≤ v → L' v = L v) (hz : ∀ v < NUSER, pages sz' ≤ v → L' v = 0) :
    LeavesOk L' tf sz' where
  trapframe := (htop _ le_rfl).trans h.trapframe
  trampoline := (htop _ (by omega)).trans h.trampoline
  above v hv := (htop v (by omega)).trans (h.above v hv)
  empty := hz

/-- A page fault below the size. -/
theorem LeavesOk.faulted {L' : Nat → Nat} (h : LeavesOk L tf sz) (hsz : sz ≤ TRAPFRAME)
    (hf : Faulted sz L L') : LeavesOk L' tf sz :=
  h.congr (fun _ hv => hf.above ((pages_le_nuser hsz).trans hv))
    fun v hv hge => (hf.above hge).trans (h.empty v hv hge)

/-- Pages are mapped up to a new size. -/
theorem Gains.leavesOk {L' flags : Nat → Nat} {words : Nat → Nat → Nat} {k' : Kmem} {sz' : Nat}
    (h : Gains r (PageRange (pages sz) (pages sz' - pages sz)) flags words k k' own own' L L')
    (hL : LeavesOk L tf sz) (hle : sz ≤ sz') (hsz : sz' ≤ TRAPFRAME) : LeavesOk L' tf sz' := by
  have hp := pages_mono hle
  have hN := pages_le_nuser hsz
  have hsame : ∀ v, pages sz' ≤ v → L' v = L v := by
    intro v hv
    refine h.same v fun hr => ?_
    have := hr.1
    have := hr.2
    omega
  refine hL.congr (fun v hv => hsame v (by omega)) fun v hv hge => ?_
  rw [hsame v hge]
  exact hL.empty v hv (by omega)

/-! ## `proc_pagetable` and `proc_freepagetable` -/

/-- The leaves of a table with no user pages. -/
def topLeaves (tf : Nat) : Nat → Nat :=
  Function.update (Function.update (fun _ => 0) (NUSER + 1) (mkPte K.trampoline (PTE_R + PTE_X)))
    NUSER (mkPte tf (PTE_R + PTE_W))

theorem topLeaves_ok : LeavesOk (topLeaves tf) tf 0 where
  trapframe := update_self ..
  trampoline := by
    rw [topLeaves, update_of_ne (by omega), update_self]
  above v hv := by
    rw [topLeaves, update_of_ne (by omega), update_of_ne (by omega)]
  empty v hv _ := by
    rw [topLeaves, update_of_ne (by omega), update_of_ne (by omega)]

omit K in
/-- A table came and went: the pages are as they were. -/
theorem Frame.eq_of_none (h : Frame r own own') (hn : ∀ q, (own q).table ≠ some r)
    (hn' : ∀ q, (own' q).table ≠ some r) : own' = own := by
  funext q
  rcases h q with e | ⟨h1 | h1, h2 | h2⟩
  · exact e
  · rw [h1, h2]
  · exact absurd h2 (hn' q)
  · exact absurd h1 (hn q)
  · exact absurd h1 (hn q)

theorem MemInv.no_table (h : MemInv k own T) (hT : T r = none) (q : Nat) : (own q).table ≠ some r :=
  fun e => h.dom q r e hT

/-- A table came and went: the memory is as it was. -/
theorem MemInv.came_and_went {k' : Kmem} (h : MemInv k own T) (hT : T r = none) (hw : Within r k k' own own')
    (h' : MemInv k' own' (update T r none)) : MemInv k' own T ∧ ∀ q, own q ≠ .free → k'.mem q = k.mem q := by
  rw [update_eq_self_iff.mpr hT.symm] at h'
  have e := hw.frame.eq_of_none (h.no_table hT) (h'.no_table hT)
  rw [e] at h'
  exact ⟨h', fun q hq => hw.mem q hq (h.no_table hT q)⟩

/-- `uvmfree` of a new table that has no leaves gives back all that was taken for it. -/
theorem uvmfree_new {own₀ : Nat → Owner} {T₀ : Nat → Option (Nat → Nat)} {k₀ : Kmem}
    (h₀ : MemInv k₀ own₀ T₀) (hT₀ : T₀ r = none) (hw : Within r k₀ k own₀ own)
    (h : MemInv k own (update T₀ r (some L))) (hL : ∀ v, L v = 0) :
    wp E (uvmfree r 0 >>= fun _ => (pure none : KM (Option Nat))) k fun res k' =>
      res = none ∧ MemInv k' own₀ T₀ ∧ ∀ q, own₀ q ≠ .free → k'.mem q = k₀.mem q := by
  refine (uvmfree_spec h (update_self ..) (Nat.zero_le _) fun v _ => hL v).bind
    fun _ k' ⟨own', hw', h'⟩ => ⟨rfl, ?_⟩
  rw [update_idem] at h'
  exact h₀.came_and_went hT₀ (hw.trans hw') h'

theorem procPagetable_spec (h : MemInv k own T) :
    wp E (procPagetable tf) k fun res k' =>
      (res = none ∧ MemInv k' own T ∧ ∀ q, own q ≠ .free → k'.mem q = k.mem q) ∨
      ∃ r own', res = some r ∧ own r = .free ∧ T r = none ∧ Within r k k' own own' ∧
        MemInv k' own' (update T r (some (topLeaves tf))) ∧
        k'.freelist.length ≤ k.freelist.length := by
  unfold procPagetable
  refine (uvmcreate_spec h).bind fun res k₁ hres => ?_
  rcases hres with ⟨rfl, h₁, hm⟩ | ⟨r, rfl, hr, hT, hl₁, hw₁, h₁⟩
  · exact .inl ⟨rfl, h₁, fun q _ => congrFun hm q⟩
  simp only
  rw [mappages_one (by decide), wp_bind]
  refine (mapPage_high h₁ (update_self ..) (by decide) (by decide) rfl).mono
    fun ok k₂ ⟨own₂, hw₂, hl₂, h₂⟩ => ?_
  rw [update_idem] at h₂
  have hw₂ := hw₁.trans hw₂
  rcases h₂ with ⟨rfl, h₂⟩ | ⟨rfl, h₂⟩
  · rw [if_neg (by simp)]
    exact (uvmfree_new h hT hw₂ h₂ fun _ => rfl).mono fun _ _ ⟨e, h'⟩ => .inl ⟨e, h'⟩
  rw [if_pos rfl, mappages_one (by decide), wp_bind]
  refine (mapPage_high h₂ (update_self ..) (by decide) (by decide)
    (update_of_ne (by decide) _ _)).mono fun ok k₃ ⟨own₃, hw₃, hl₃, h₃⟩ => ?_
  rw [update_idem] at h₃
  have hw₃ := hw₂.trans hw₃
  rcases h₃ with ⟨rfl, h₃⟩ | ⟨rfl, h₃⟩
  · rw [if_neg (by simp)]
    refine (uvmunmap_high h₃ (update_self ..) (by decide) (by decide) (by decide)).bind
      fun _ k₄ ⟨hw₄, h₄⟩ => ?_
    rw [update_idem, update_idem] at h₄
    refine (uvmfree_new h hT (hw₃.trans hw₄) h₄ fun v => ?_).mono fun _ _ ⟨e, h'⟩ => .inl ⟨e, h'⟩
    by_cases e : v = TRAMPOLINE / PGSIZE
    · subst e; exact update_self ..
    · exact update_of_ne e _ _
  · rw [if_pos rfl]
    exact .inr ⟨r, own₃, rfl, hr, hT, hw₃, h₃, by omega⟩

theorem procFreepagetable_spec (h : MemInv k own T) (hT : T r = some L) (hL : LeavesOk L tf sz)
    (hsz : sz ≤ TRAPFRAME) :
    wp E (procFreepagetable r sz) k fun _ k' => ∃ own', Within r k k' own own' ∧
      MemInv k' own' (update T r none) := by
  unfold procFreepagetable
  refine (uvmunmap_high h hT (by decide) (by decide) (by decide)).bind fun _ k₁ ⟨hw₁, h₁⟩ => ?_
  refine (uvmunmap_high h₁ (update_self ..) (by decide) (by decide) (by decide)).bind
    fun _ k₂ ⟨hw₂, h₂⟩ => ?_
  rw [update_idem] at h₂
  refine (uvmfree_spec h₂ (update_self ..) hsz fun v hv => ?_).mono
    fun _ k' ⟨own', hw, h'⟩ => ⟨own', (hw₁.trans hw₂).trans hw, by rwa [update_idem] at h'⟩
  by_cases e : v = TRAPFRAME / PGSIZE
  · subst e; exact update_self ..
  rw [update_of_ne e]
  by_cases e' : v = TRAMPOLINE / PGSIZE
  · subst e'; exact update_self ..
  rw [update_of_ne e']
  rcases Nat.lt_or_ge v NUSER with hlt | hge
  · exact hL.empty v hlt hv
  · refine hL.above v ?_
    simp only [TRAPFRAME, TRAMPOLINE, MAXVA, PGSIZE, NUSER] at *
    omega

end

end Xv6
