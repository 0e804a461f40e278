import Xv6.Vm.Grow
import Xv6.Vm.Unmap

/-!
# The memory of a process

Specs of the functions of `vm.c` that change a process's memory, for sizes up to `TRAPFRAME`, in the memory with
all its tables. They say what the leaves of the table are afterwards; that the pages follow is `MemInv`.
-/

namespace Xv6

open Function (update update_eq_self_iff update_idem update_of_ne update_self)

open Seq

section

variable [K : Layout] {E : Panic → Prop} {k : Kmem} {own : Nat → Owner}
variable {T : Nat → Option (Nat → Nat)} {r q : Nat} {L : Nat → Nat}

/-! ## `uvmdealloc` and `uvmfree` -/

omit K in
theorem update_self_table (hT : T r = some L) : update T r (some L) = T :=
  update_eq_self_iff.mpr hT.symm

/-- A virtual page that is not mapped has no page. -/
theorem UserOk.unused {v : Nat} (h : UserOk own r L) (hv : v < NUSER) (h0 : L v = 0) : ∀ q, own q ≠ .user r v := by
  rcases h.user v hv with ⟨-, hn⟩ | ⟨q, perm, -, -, hL, -⟩
  · exact hn
  · exact absurd (hL.symm.trans h0) mkPte_ne_zero

theorem uvmdealloc_spec {oldsz newsz : Nat} (h : MemInv k own T) (hT : T r = some L)
    (hold : oldsz ≤ TRAPFRAME) :
    wp E (uvmdealloc r oldsz newsz) k fun res k' => res = min oldsz newsz ∧ ∃ own', Within r k k' own own' ∧
      MemInv k' own' (update T r
        (some (clearRange L (pages newsz) (pages oldsz - pages newsz)))) := by
  have hN := pages_le_nuser hold
  refine (uvmdealloc_local (h.toLocal hT) hold fun v _ hv => (h.table r L hT).2.ownedAt (by omega)).mono
    fun res k' ⟨hres, own', h', hd⟩ => ⟨hres, own', hd.within, h.drops hT h' hd⟩

/-- `uvmfree` of a table with no leaves above the size. -/
theorem uvmfree_spec {sz : Nat} (h : MemInv k own T) (hT : T r = some L) (hsz : sz ≤ TRAPFRAME)
    (hL : ∀ v, pages sz ≤ v → L v = 0) :
    wp E (uvmfree r sz) k fun _ k' => ∃ own', Within r k k' own own' ∧
      MemInv k' own' (update T r none) := by
  unfold uvmfree
  by_cases h0 : sz > 0
  · rw [if_pos h0, pgRoundUp_eq (trapframe_add_le hsz), mul_pgsize_div]
    refine (uvmunmap_spec h hT rfl (by simpa using pages_le_nuser hsz)).bind
      fun _ k' ⟨own', hf, h'⟩ => ?_
    refine (freewalk_spec h' (update_self ..) fun v => ?_).mono
      fun _ k'' ⟨own'', hf', h''⟩ => ⟨own'', hf.trans hf', by rwa [update_idem] at h''⟩
    unfold clearRange
    split
    · rfl
    · exact hL v (by rw [Nat.zero_div] at *; omega)
  · obtain rfl : sz = 0 := by omega
    rw [if_neg h0]
    exact freewalk_spec h hT fun v => hL v (Nat.zero_le v)

/-! ## `uvmalloc` -/

/-- `uvmalloc` grows the process to the new size, or leaves its leaves as they were. -/
theorem uvmalloc_spec {oldsz newsz xperm : Nat} (h : MemInv k own T) (hT : T r = some L)
    (hold : oldsz ≤ TRAPFRAME) (hz : ∀ v < NUSER, pages oldsz ≤ v → L v = 0) (htop : L NUSER ≠ 0)
    (hx : PTE_R + PTE_U + xperm < 1024) (hxr : (PTE_R + PTE_U + xperm) / 2 % 2 = 1)
    (hb : newsz ≤ TRAPFRAME ∨ k.freelist.length ≤ NUSER - pages oldsz ∨ E .mappagesRemap) :
    wp E (uvmalloc r oldsz newsz xperm) k fun res k' => ∃ own', Within r k k' own own' ∧
      ((res = 0 ∧ MemInv k' own' T) ∨
      ∃ L', res = max oldsz newsz ∧ res ≤ TRAPFRAME ∧ MemInv k' own' (update T r (some L')) ∧
        k'.freelist.length + (pages res - pages oldsz) ≤ k.freelist.length ∧
        Gains r (PageRange (pages oldsz) (pages res - pages oldsz)) (fun _ => PTE_R + PTE_U + xperm) (fun _ _ => 0)
          k k' own own' L L') := by
  by_cases hlt : newsz < oldsz
  · unfold uvmalloc
    rw [if_pos hlt]
    refine ⟨own, .refl, .inr ⟨L, (max_eq_left hlt.le).symm, hold, ?_, ?_, ?_⟩⟩
    · rwa [update_self_table hT]
    · rw [Nat.sub_self]; exact le_rfl
    · rw [Nat.sub_self]; exact .none fun _ hv => pageRange_zero.mp hv
  have hge : oldsz ≤ newsz := by omega
  have hu := (h.table r L hT).2
  refine (uvmalloc_local (h.toLocal hT) hge hold (fun v hv hN => ⟨hz v hN hv, hu.unused hN (hz v hN hv)⟩) hx ?_).mono
    fun res k' ⟨own', L', h', hres⟩ => ?_
  · exact hb.imp_right fun hb => hb.imp_right fun hE => ⟨hE, htop, fun q hq => absurd (hu.lt q _ hq) (by omega)⟩
  rcases hres with ⟨rfl, hd⟩ | ⟨rfl, hle, hlen, hg⟩
  · refine ⟨own', hd.within, .inl ⟨rfl, ?_⟩⟩
    have hm := h.drops hT h' hd
    rwa [show L' = L from funext fun v => hd.same v fun hv => pageRange_zero.mp hv, update_self_table hT] at hm
  · have hmono := pages_mono hge
    refine ⟨own', hg.within, .inr ⟨L', (max_eq_right hge).symm, ?_, ?_, hlen, hg⟩⟩
    · have : pages res ≤ NUSER := by omega
      simp only [pages, PGSIZE, NUSER, TRAPFRAME, TRAMPOLINE, MAXVA] at this ⊢
      omega
    · refine h.gains hT h' hg fun v hv => ⟨?_, hx, hxr⟩
      have := hv.2
      omega

/-! ## Looking up and faulting in a page -/

/-- The leaves of the trapframe and the trampoline are not for the user. -/
def TopOk (L : Nat → Nat) : Prop := ∀ v, NUSER ≤ v → pteU (L v) = false

/-- Some pages below the size were mapped; the other leaves are as before. -/
def Faulted (sz : Nat) (L L' : Nat → Nat) : Prop :=
  ∀ v, L' v = L v ∨ L v = 0 ∧ v * PGSIZE < sz ∧ L' v ≠ 0

omit K in
/-- One page is faulted in. -/
theorem Faulted.one {sz va pa perm : Nat} (h0 : L (va / PGSIZE) = 0) (hlt : va < sz) :
    Faulted sz L (update L (va / PGSIZE) (mkPte pa perm)) := by
  intro v
  by_cases e : v = va / PGSIZE
  · subst e
    rw [update_self]
    exact .inr ⟨h0, (Nat.div_mul_le_self va PGSIZE).trans_lt hlt, mkPte_ne_zero⟩
  · exact .inl (update_of_ne e _ _)

omit K in
/-- A leaf that is not below the size is not changed. -/
theorem Faulted.above {sz v : Nat} {L' : Nat → Nat} (h : Faulted sz L L') (hv : pages sz ≤ v) :
    L' v = L v := (h v).resolve_right fun h' => by have := lt_pages h'.2.1; omega

/-- `vmfault` of a process maps a new page, or changes nothing but table pages. -/
theorem vmfault_spec {sz va : Nat} (h : MemInv k own T) (hT : T r = some L) (hsz : sz ≤ TRAPFRAME) :
    wp E (vmfault sz r r va) k fun res k' => ∃ own', Within r k k' own own' ∧
      ((res = none ∧ MemInv k' own' T) ∨
      ∃ mem, res = some mem ∧ own' mem = .user r (va / PGSIZE) ∧ L (va / PGSIZE) = 0 ∧ va < sz ∧
        MemInv k' own' (update T r
          (some (update L (va / PGSIZE) (mkPte mem (PTE_W + PTE_U + PTE_R)))))) := by
  have hu := (h.table r L hT).2
  by_cases hlt : va / PGSIZE < NUSER
  · refine (vmfault_local (h.toLocal hT) hsz (hu.unused hlt)).mono fun res k' ⟨own', hres⟩ => ?_
    rcases hres with ⟨rfl, h', hd, -⟩ | ⟨mem, rfl, hmem, ⟨hva, h0, -⟩, -, -, h', hg⟩
    · refine ⟨own', hd.within, .inl ⟨rfl, ?_⟩⟩
      have hm := h.drops hT h' hd
      rwa [update_self_table hT] at hm
    · refine ⟨own', hg.within, .inr ⟨mem, rfl, hmem, h0, hva, h.gains hT h' hg fun v hv => ⟨hv ▸ hlt, ?_, ?_⟩⟩⟩
      · decide
      · decide
  · -- an address above the size
    unfold vmfault
    rw [if_pos (by simp only [PGSIZE, NUSER, TRAPFRAME, TRAMPOLINE, MAXVA] at hsz hlt ⊢; omega)]
    exact ⟨own, .refl, .inl ⟨rfl, h⟩⟩

end

end Xv6
