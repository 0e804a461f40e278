import Xv6.Vm.Run

/-!
# How `malloc` gets memory

`malloc` and `morecore` of `user/umalloc.c` where the free list has no block that is large enough: the size that goes
into the new header, and the call of `sbrk`, whose parameter is an `int`, down to `growproc`. The size of a block and
the memory that the kernel gives agree exactly if the size is an `int` (`malloc_covered_iff`).
-/

namespace Xv6.Umalloc

open Seq

section

variable [Layout] {p : Nat}

/-- `sizeof(Header)`. -/
def HDR : Nat := 16

/-- `nunits` of `malloc`. -/
def nunits (nbytes : Nat) : Nat := (nbytes + HDR - 1) / HDR + 1

/-- The units that `morecore` asks for. -/
def moreUnits (nu : Nat) : Nat := if nu < 4096 then 4096 else nu

/-- `sbrk`; the argument becomes an `int`. -/
def sbrk (p n : Nat) : PM (Option Nat) := sysSbrk p (BitVec.ofNat 32 n).toInt SBRK_EAGER

/-- `morecore` up to `hp->s.size = nu`: the address of the header and the size in it, or `none` for the return of 0. -/
def morecore (p nu : Nat) : PM (Option (Nat × Nat)) := do
  match ← sbrk p (moreUnits nu * HDR) with
  | none => pure none
  | some hp => pure (some (hp, moreUnits nu))

/-- `malloc` where it calls `morecore`; with `none` it returns 0. -/
def mallocMore (p nbytes : Nat) : PM (Option (Nat × Nat)) := morecore p (nunits nbytes)

/-- The break `sz` has become `sz'`: by at least the size in the new header, or not at all. -/
def Covered (sz : Nat) : Option (Nat × Nat) → Nat → Prop
  | none, sz' => sz' = sz
  | some (_, size), sz' => sz + size * HDR ≤ sz'

/-! ## Enough memory -/

/-- `uvmalloc` answers the new size, or 0. -/
theorem uvmalloc_answers {pagetable oldsz newsz xperm : Nat} {k : Kmem} (h : oldsz ≤ newsz) :
    wp (fun _ => True) (uvmalloc pagetable oldsz newsz xperm) k fun r _ => r = newsz ∨ r = 0 := by
  have hloop : ∀ n a k, wp (fun _ => True) (allocLoop pagetable (pgRoundUp oldsz) newsz xperm n a) k
      fun r _ => r = newsz ∨ r = 0 := by
    intro n
    induction n with
    | zero =>
      intro a k
      exact .inl rfl
    | succ n ih =>
      intro a k
      unfold allocLoop
      apply (wp_true kalloc k).bind
      intro mem k _
      cases mem with
      | none => exact (wp_true _ k).bind fun _ _ _ => .inr rfl
      | some mem =>
        apply (wp_true _ k).bind
        intro _ k _
        apply (wp_true _ k).bind
        intro ok k _
        rw [wp_ite]
        refine ⟨fun _ => ih _ k, fun _ => ?_⟩
        exact (wp_true _ k).bind fun _ k _ => (wp_true _ k).bind fun _ _ _ => .inr rfl
  unfold uvmalloc
  rw [if_neg (by omega)]
  exact hloop _ _ k

/-- `sbrk` of a positive `int` brings the break up by it, or leaves it. -/
theorem sysSbrk_grows {s : Vm} {n : Int} (hn : 0 < n) (hlt : (s.proc p).sz + n < U64) :
    wp (fun _ => True) (sysSbrk p n SBRK_EAGER) s fun r s' =>
      ((s'.proc p).sz : Int) = if r = none then ((s.proc p).sz : Int) else (s.proc p).sz + n := by
  have hadd : (addInt (s.proc p).sz n : Int) = (s.proc p).sz + n := by
    rw [addInt_of_lt (by omega) hlt]
    omega
  unfold sysSbrk growproc getProc setProc
  rw [wp_bind, wp_gets, if_pos (.inl rfl), wp_bind, wp_bind, wp_gets, if_pos hn, wp_bind, wp_onMem]
  refine (uvmalloc_answers (by omega)).mono fun r k hr => ?_
  rw [wp_ite]
  constructor
  · intro _
    simp only [wp_pure, Bool.false_eq_true, if_false, if_true]
  · intro h0
    simp only [wp_bind, wp_modify, wp_pure, if_true, reduceCtorEq, if_false, Vm.setProc_self]
    rw [hr.resolve_right h0, hadd]

theorem mallocMore_covered {nbytes : Nat} (hn : moreUnits (nunits nbytes) * HDR < 2 ^ 31) {s : Vm}
    (hs : (s.proc p).sz ≤ TRAPFRAME) :
    wp (fun _ => True) (mallocMore p nbytes) s fun r s' => Covered (s.proc p).sz r (s'.proc p).sz := by
  have hint : (BitVec.ofNat 32 (moreUnits (nunits nbytes) * HDR)).toInt = (moreUnits (nunits nbytes) * HDR : Nat) := by
    rw [BitVec.toInt_ofNat', Int.bmod_def]
    omega
  have hpos : 0 < moreUnits (nunits nbytes) * HDR := by
    unfold moreUnits HDR
    split <;> omega
  unfold mallocMore morecore sbrk
  rw [hint]
  refine (sysSbrk_grows (by omega) ?_).bind fun r s' hr => ?_
  · simp only [TRAPFRAME, TRAMPOLINE, MAXVA, PGSIZE, U64] at hs ⊢
    omega
  · cases r with
    | none => exact Int.ofNat.inj hr
    | some hp =>
      show _ ≤ _
      rw [if_neg (by simp)] at hr
      omega

/-! ## Too little -/

/-- With the break at 8, `sbrk` of 16 stays in the page, and a shrink by 16 or more wraps around and is none. -/
theorem sysSbrk_eight {s : Vm} (hs : (s.proc p).sz = 8) {n : Int} (hn : n = 16 ∨ n = 0 ∨ (n ≤ -16 ∧ -2 ^ 31 ≤ n)) :
    wp (fun _ => False) (sysSbrk p n SBRK_EAGER) s fun r s' => r = some 8 ∧ (s'.proc p).sz ≤ 24 := by
  unfold sysSbrk growproc getProc setProc
  rw [wp_bind, wp_gets, if_pos (.inl rfl), wp_bind, wp_bind, wp_gets, hs]
  rcases hn with rfl | rfl | ⟨hle, hge⟩
  · -- no page is needed
    have hend : addInt 8 16 = 24 := by decide
    have hpage : uvmalloc (s.proc p).pagetable 8 24 PTE_W = pure 24 := rfl
    rw [if_pos (by decide), hend, hpage, wp_bind, wp_onMem, wp_pure, if_neg (by decide)]
    simp [wp_bind, wp_modify, wp_pure]
  · rw [if_neg (by decide), if_neg (by decide)]
    exact ⟨rfl, by rw [hs]; decide⟩
  · have hend : 8 ≤ addInt 8 n := by
      unfold addInt U64
      omega
    have hnone : uvmdealloc (s.proc p).pagetable 8 (addInt 8 n) = pure 8 := if_pos hend
    rw [if_neg (by omega), if_pos (by omega), hnone, wp_bind, wp_onMem, wp_pure]
    simp [wp_bind, wp_modify, wp_pure]

theorem not_covered {nbytes : Nat} (h : nbytes < 2 ^ 32) (hn : 2 ^ 31 ≤ moreUnits (nunits nbytes) * HDR) {s : Vm}
    (hs : (s.proc p).sz = 8) : ∃ hp s', mallocMore p nbytes s = .ok (some (hp, moreUnits (nunits nbytes)), s') ∧
      (s'.proc p).sz < (s.proc p).sz + moreUnits (nunits nbytes) * HDR := by
  have hmax : moreUnits (nunits nbytes) * HDR ≤ 2 ^ 32 + 16 := by
    unfold moreUnits nunits HDR
    split <;> omega
  have hmod : moreUnits (nunits nbytes) * HDR % 16 = 0 := Nat.mul_mod_left _ _
  generalize hm : moreUnits (nunits nbytes) * HDR = m at hn hmax hmod
  have hint : (BitVec.ofNat 32 m).toInt = 16 ∨ (BitVec.ofNat 32 m).toInt = 0 ∨
      ((BitVec.ofNat 32 m).toInt ≤ -16 ∧ -2 ^ 31 ≤ (BitVec.ofNat 32 m).toInt) := by
    rw [BitVec.toInt_ofNat', Int.bmod_def]
    omega
  have hcall : wp (fun _ => False) (mallocMore p nbytes) s fun r s' =>
      r = some (8, moreUnits (nunits nbytes)) ∧ (s'.proc p).sz ≤ 24 := by
    unfold mallocMore morecore sbrk
    rw [hm]
    refine (sysSbrk_eight hs hint).bind fun r s' hr => ?_
    rw [hr.1]
    exact ⟨rfl, hr.2⟩
  obtain ⟨r, s', hrun, rfl, hsz⟩ := hcall.returns
  exact ⟨8, s', hrun, by omega⟩

/-- The machine after `userinit` and `sbrklazy(8)` by process `p`. -/
def eightSt (p : Nat) : Vm := (lazyRun 0).setProc p fun pr => { pr with sz := pr.sz + 8 }

omit [Layout] in
theorem eightSt_sz (p : Nat) : ((eightSt p).proc p).sz = 8 := by
  have h0 := lazyRun_sz_le 0 p
  rw [eightSt, Vm.setProc_self]
  show ((lazyRun 0).proc p).sz + 8 = 8
  omega

/-- `malloc` gets from `sbrk` at least the memory that it writes into the header, or returns 0 with the break where it
was, whatever the break and the memory are, if and only if the size is less than `2^31`. -/
theorem malloc_covered_iff {nbytes : Nat} (h : nbytes < 2 ^ 32) :
    (∀ s : Vm, (s.proc p).sz ≤ TRAPFRAME →
      wp (fun _ => True) (mallocMore p nbytes) s fun r s' => Covered (s.proc p).sz r (s'.proc p).sz) ↔
    moreUnits (nunits nbytes) * HDR < 2 ^ 31 := by
  constructor
  · intro hall
    by_contra hbig
    have hs := eightSt_sz p
    obtain ⟨hp, s', hrun, hlt⟩ := not_covered h (by omega) hs
    have hcov : ((eightSt p).proc p).sz + moreUnits (nunits nbytes) * HDR ≤ (s'.proc p).sz :=
      (hall (eightSt p) (by rw [hs]; decide)).ok hrun
    omega
  · intro hn s hs
    exact mallocMore_covered hn hs

end

theorem malloc_covered_iff_thousand : 1000 < 2 ^ 32 ∧
    wp (fun _ => True) (@mallocMore smallLayout 0 1000) (lazyRun 0) fun r s' =>
      Covered ((lazyRun 0).proc 0).sz r (s'.proc 0).sz := by
  have hlt : 1000 < 2 ^ 32 := by norm_num
  have hsize : moreUnits (nunits 1000) * HDR < 2 ^ 31 := by norm_num [moreUnits, nunits, HDR]
  have hsz : ((lazyRun 0).proc 0).sz ≤ TRAPFRAME := lazyRun_szOk (by omega) 0
  refine ⟨hlt, ?_⟩
  -- the machine stays unevaluated
  generalize lazyRun 0 = s at hsz ⊢
  exact (@malloc_covered_iff smallLayout 0 1000 hlt).mpr hsize s hsz

/-- `malloc(0xFFFFFFFF)` by the first process, once its break is at 8: `sbrk` gives 16 bytes for a block of
`2^32 + 16`. -/
theorem malloc_overpromises : @VmReach smallLayout (fun _ => False) (fun _ _ _ => True) (eightSt 0) ∧
    ((@mallocMore smallLayout 0 0xFFFFFFFF (eightSt 0)).toOption.map fun x => (x.1, (x.2.proc 0).sz)) =
      some (some (8, 2 ^ 28 + 1), 8 + 16) := by
  let _ := smallLayout
  have hreach : VmReach (fun _ => False) (fun _ _ _ => True) (lazyRun 0) := lazyRun_reach (by omega) fun _ _ => trivial
  obtain ⟨hst, hsz⟩ := lazyRun_proc (n := 0) (by omega)
  have hrun := run_lazy (s := lazyRun 0) (p := 0) (b := 8) (n := 8) rfl (by rw [hsz]; decide)
  exact ⟨hreach.step hst trivial hrun, by decide +kernel⟩

end Xv6.Umalloc
