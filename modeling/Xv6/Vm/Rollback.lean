import Xv6.Vm.Copy
import Xv6.Vm.PageMap

/-!
# `uvmalloc` and `uvmcopy` undo themselves

When `kalloc` fails in the middle of `uvmalloc` or `uvmcopy`, for a data page or for a table, the mappings are those
from before the call and every data page is free again; the tables that were made on the way stay in the page table.
When nothing fails, the new pages are fresh and hold what they should.
-/

namespace Xv6

open Function (update update_of_ne update_self)

open Seq

section

variable [K : Layout] {k k' : Kmem} {own own' : Nat → Owner} {T : Nat → Option (Nat → Nat)} {r : Nat} {L L' : Nat → Nat}

omit K in
/-- A call has failed: the leaves are those from before, each page has the owner it had but for free pages that are
now tables of `r`, and the words of the pages in use are the same, apart from the tables of `r`. -/
structure Undone (r : Nat) (k k' : Kmem) (own own' : Nat → Owner) (L L' : Nat → Nat) : Prop where
  leaves : L' = L
  owners : Taken r own own'
  words : ∀ q, own q ≠ .free → ¬ NodeOf r (own q) → k'.mem q = k.mem q

omit K in
theorem Drops.undone {D : Nat → Prop} (h : Drops r D k k' own own' L L') (hD : ∀ v, ¬ D v) :
    Undone r k k' own own' L L' where
  leaves := funext fun v => h.same v (hD v)
  owners q := by
    by_cases hq : own q = .free
    · rcases h.free q (.inl hq) with e | hn
      · exact .inl (e.trans hq.symm)
      · exact .inr ⟨hq, hn⟩
    · exact .inl (h.keep q hq fun v hv => absurd hv (hD v))
  words q hq hn := h.mem q hq (fun v hv => absurd hv (hD v)) hn

/-- The pages of different virtual pages are different. -/
theorem Gains.injOn {D : Nat → Prop} {flags : Nat → Nat} {words : Nat → Nat → Nat}
    (h : Gains r D flags words k k' own own' L L') (hl : Local k' own' r L') (hf : ∀ v, D v → flags v < 1024) :
    Set.InjOn (fun v => pte2pa (L' v)) {v | D v} := by
  have hown : ∀ v, D v → own' (pte2pa (L' v)) = .user r v := by
    intro v hv
    obtain ⟨q, -, hq, hL, -⟩ := h.new v hv
    rwa [hL, pte2pa_of_isPage (hl.page q (by rw [hq]; simp)) (hf v hv)]
  intro v hv w hw e
  have ev := hown v hv
  have ew := hown w hw
  rw [show pte2pa (L' v) = pte2pa (L' w) from e, ew] at ev
  cases ev
  rfl

omit K in
/-- The pages of `[PGROUNDUP(oldsz), newsz)`. -/
theorem pageRange_grow {oldsz newsz v : Nat} (hle : oldsz ≤ newsz) (hsz : oldsz ≤ TRAPFRAME) :
    (pgRoundUp oldsz ≤ v * PGSIZE ∧ v * PGSIZE < newsz) ↔
      PageRange (pages oldsz + 0) (pages newsz - pages oldsz) v := by
  rw [pgRoundUp_eq (trapframe_add_le hsz)]
  have := pages_mono hle
  unfold PageRange
  simp only [pages, PGSIZE] at this ⊢
  omega

omit K in
theorem pageRange_below {sz v : Nat} : v * PGSIZE < sz ↔ PageRange 0 (pages sz) v := by
  unfold PageRange
  simp only [pages, PGSIZE]
  omega

/-- **`uvmalloc` and `uvmcopy` do all or nothing**, wherever `kalloc` fails (`k.fails`).

`uvmalloc` of a table with no mapping in `[PGROUNDUP(oldsz), TRAPFRAME)` returns 0 and has undone itself, or it has
mapped exactly the pages of `[PGROUNDUP(oldsz), newsz)`, with fresh zeroed pages. `uvmcopy` to a table with no user
mapping returns -1 and has undone itself, or the new table has exactly the mapped pages of the old one below `sz`, with
the same flags and equal contents, on distinct fresh pages. -/
theorem uvmalloc_uvmcopy_all_or_nothing (h : MemInv k own T) :
    (∀ r L oldsz newsz xperm, T r = some L → oldsz < newsz → newsz ≤ TRAPFRAME → xperm ≤ 12 ∧ xperm % 4 = 0 →
      (∀ v, pgRoundUp oldsz ≤ v * PGSIZE → v * PGSIZE < TRAPFRAME → L v = 0) →
      ∃ res k' own' L', uvmalloc r oldsz newsz xperm k = .ok (res, k') ∧
        MemInv k' own' (update T r (some L')) ∧
        ((res = 0 ∧ Undone r k k' own own' L L') ∨
        (res = newsz ∧ Gains r (fun v => pgRoundUp oldsz ≤ v * PGSIZE ∧ v * PGSIZE < newsz)
          (fun _ => PTE_R + PTE_U + xperm) (fun _ _ => 0) k k' own own' L L'))) ∧
    ∀ old new Lo Ln sz, T old = some Lo → T new = some Ln → old ≠ new → sz ≤ TRAPFRAME →
      (∀ v, v * PGSIZE < TRAPFRAME → Ln v = 0) →
      ∃ ok k' own' L', uvmcopy old new sz k = .ok (ok, k') ∧ MemInv k' own' (update T new (some L')) ∧
        ((ok = false ∧ Undone new k k' own own' Ln L') ∨
        (ok = true ∧ Gains new (fun v => v * PGSIZE < sz ∧ Lo v ≠ 0) (fun v => pteFlags (Lo v))
            (fun v => k.mem (pte2pa (Lo v))) k k' own own' Ln L' ∧
          (∀ v, v * PGSIZE < sz → Lo v ≠ 0 → pteFlags (L' v) = pteFlags (Lo v)) ∧
          Set.InjOn (fun v => pte2pa (L' v)) {v | v * PGSIZE < sz ∧ Lo v ≠ 0})) := by
  have hbelow : ∀ v, v < NUSER → v * PGSIZE < TRAPFRAME := fun v hv => Nat.mul_lt_mul_of_pos_right hv (by decide)
  constructor
  · intro r L oldsz newsz xperm hT hlt hnew ⟨hx1, hx2⟩ hz
    have hold : oldsz ≤ TRAPFRAME := by omega
    have hu := (h.table r L hT).2
    rw [pgRoundUp_eq (trapframe_add_le hold)] at hz
    have hz' : ∀ v, pages oldsz ≤ v → v < NUSER → L v = 0 := fun v hv hN =>
      hz v (Nat.mul_le_mul_right _ hv) (hbelow v hN)
    have hspec : wp (fun _ => False) (uvmalloc r oldsz newsz xperm) k _ := uvmalloc_local (h.toLocal hT) hlt.le hold
      (fun v hv hN => ⟨hz' v hv hN, hu.unused hN (hz' v hv hN)⟩) (by simp only [PTE_R, PTE_U]; omega) (.inl hnew)
    obtain ⟨res, k', hrun, own', L', h', hres⟩ := hspec.returns
    refine ⟨res, k', own', L', hrun, ?_⟩
    rcases hres with ⟨rfl, hd⟩ | ⟨rfl, -, -, hg⟩
    · exact ⟨h.drops hT h' hd, .inl ⟨rfl, hd.undone fun v hv => pageRange_zero.mp hv⟩⟩
    · have hg' := hg.congr (fun v => pageRange_grow hlt.le hold) fun _ _ => ⟨rfl, rfl⟩
      refine ⟨h.gains hT h' hg' fun v hv => ⟨?_, ?_, ?_⟩, .inr ⟨rfl, hg'⟩⟩
      · have := hv.2
        simp only [PGSIZE, NUSER, TRAPFRAME, TRAMPOLINE, MAXVA] at this hnew ⊢
        omega
      · simp only [PTE_R, PTE_U]
        omega
      · simp only [PTE_R, PTE_U]
        omega
  · intro old new Lo Ln sz hO hN hne hsz hz
    have hu := (h.table old Lo hO).2
    obtain ⟨ok, k', hrun, own', L', h', hres⟩ := (uvmcopy_pages (E := fun _ => False) h hO hN hne hsz
      fun v hv => hz v (hbelow v hv)).returns
    refine ⟨ok, k', own', L', hrun, h', ?_⟩
    rcases hres with ⟨rfl, hd⟩ | ⟨rfl, hg⟩
    · exact .inl ⟨rfl, hd.undone fun v hv => pageRange_zero.mp hv⟩
    have hg' := hg.congr (fun v => and_congr_left' pageRange_below) fun _ _ => ⟨rfl, rfl⟩
    have hlt : ∀ v, v * PGSIZE < sz → v < NUSER := by
      intro v hv
      simp only [PGSIZE, NUSER, TRAPFRAME, TRAMPOLINE, MAXVA] at hv hsz ⊢
      omega
    refine .inr ⟨rfl, hg', fun v hv hL => ?_, hg'.injOn (h'.toLocal (update_self ..)) fun v hv =>
      (hu.flags_leaf (hlt v hv.1) hv.2).1⟩
    obtain ⟨q, -, -, hL', -⟩ := hg'.new v ⟨hv, hL⟩
    obtain ⟨hf, -, hpv⟩ := hu.flags_leaf (hlt v hv) hL
    rw [hL', pteFlags_mkPte hf]
    -- the flags have the bit `V`
    simp only [pteV, beq_iff_eq, pteFlags] at hpv ⊢
    omega

end

section

variable [K : Layout] {k : Kmem}

instance (q : Nat) : Decidable (IsPage q) := inferInstanceAs (Decidable (_ ∧ _ ∧ _))

/-- A memory with free pages and no tables; the other pages are the kernel's. -/
theorem FreeOk.memInv (h : FreeOk k) : MemInv k
    (fun q => if q ∈ k.freelist then .free else if IsPage q then .kernel else .outside) fun _ => none where
  nodup := h.1
  free q := by
    by_cases hq : q ∈ k.freelist
    · simp [hq]
    · by_cases hp : IsPage q <;> simp [hq, hp]
  page q := by
    by_cases hq : q ∈ k.freelist
    · simp [hq, h.2 q hq]
    · by_cases hp : IsPage q <;> simp [hq, hp]
  table _ _ hT := by cases hT
  dom q r hq := by
    by_cases hin : q ∈ k.freelist
    · simp [hin, Owner.table] at hq
    · by_cases hp : IsPage q <;> simp [hin, hp, Owner.table] at hq

end

/-- The memory after a second `uvmcreate`. -/
def smallTables : Kmem := { smallTable with
  mem := update (update smallTable.mem (PHYSTOP - 7 * PGSIZE) fun _ => 0x0505050505050505)
    (PHYSTOP - 7 * PGSIZE) fun _ => 0
  freelist := smallTable.freelist.tail
  calls := 2 }

theorem smallTables_memInv : ∃ own T, @MemInv smallLayout smallTables own T ∧
    T (PHYSTOP - 8 * PGSIZE) = some (fun _ => 0) ∧ T (PHYSTOP - 7 * PGSIZE) = some fun _ => 0 := by
  let _ := smallLayout
  have hrun : uvmcreate smallKmem = .ok (some (PHYSTOP - 8 * PGSIZE), smallTable) := rfl
  have hrun' : uvmcreate smallTable = .ok (some (PHYSTOP - 7 * PGSIZE), smallTables) := rfl
  rcases (uvmcreate_spec (E := fun _ => True) smallKmem_freeOk.memInv).ok hrun with ⟨h, -⟩ | ⟨r, e, -, -, -, -, h⟩
  · cases h
  cases e
  rcases (uvmcreate_spec (E := fun _ => True) h).ok hrun' with ⟨h, -⟩ | ⟨r, e, -, -, -, -, h⟩
  · cases h
  cases e
  exact ⟨_, _, h, by rw [update_of_ne (by decide), update_self], update_self ..⟩

theorem smallTables_runs : ∃ k₁ k₂, @uvmalloc smallLayout (PHYSTOP - 8 * PGSIZE) 0 1 PTE_W smallTables = .ok (1, k₁) ∧
    @uvmcopy smallLayout (PHYSTOP - 8 * PGSIZE) (PHYSTOP - 7 * PGSIZE) 1 k₁ = .ok (true, k₂) := by
  let _ := smallLayout
  have hrun : ((uvmalloc (PHYSTOP - 8 * PGSIZE) 0 1 PTE_W >>= fun n =>
      uvmcopy (PHYSTOP - 8 * PGSIZE) (PHYSTOP - 7 * PGSIZE) 1 >>=
        fun b => pure (n, b)) smallTables).toOption.map Prod.fst =
      some (1, true) := by
    decide +kernel
  obtain ⟨⟨res, k₂⟩, hrun, rfl⟩ := Option.map_eq_some_iff.mp hrun
  obtain ⟨n, k₁, h₁, h⟩ := bind_ok (ok_of_toOption hrun)
  obtain ⟨b, k₂', h₂, h⟩ := bind_ok h
  cases h
  exact ⟨k₁, k₂, h₁, h₂⟩

/-- A page is mapped in the first of two tables, and copied to the second; that takes all pages of the machine. -/
theorem uvmalloc_uvmcopy_all_or_nothing_small : ∃ (k₁ k₂ : Kmem) (own₁ own₂ : Nat → Owner) (Lo L' : Nat → Nat),
    @uvmalloc smallLayout (PHYSTOP - 8 * PGSIZE) 0 1 PTE_W smallTables = .ok (1, k₁) ∧
    @uvmcopy smallLayout (PHYSTOP - 8 * PGSIZE) (PHYSTOP - 7 * PGSIZE) 1 k₁ = .ok (true, k₂) ∧
    Gains (PHYSTOP - 7 * PGSIZE) (fun v => v * PGSIZE < 1 ∧ Lo v ≠ 0) (fun v => pteFlags (Lo v))
      (fun v => k₁.mem (pte2pa (Lo v))) k₁ k₂ own₁ own₂ (fun _ => 0) L' := by
  let _ := smallLayout
  obtain ⟨own, T, h, h8, h7⟩ := smallTables_memInv
  obtain ⟨k₁, k₂, hrun, hrun'⟩ := smallTables_runs
  obtain ⟨_, _, own₁, L₁, e, h₁, -⟩ := (uvmalloc_uvmcopy_all_or_nothing h).1 _ _ 0 1 PTE_W h8 (by decide) (by decide)
    (by decide) fun _ _ _ => rfl
  cases hrun.symm.trans e
  obtain ⟨_, _, own₂, L₂, e, -, hres⟩ := (uvmalloc_uvmcopy_all_or_nothing h₁).2 (PHYSTOP - 8 * PGSIZE)
    (PHYSTOP - 7 * PGSIZE) L₁ (fun _ => 0) 1 (update_self ..)
    (by rw [update_of_ne (by decide), h7]) (by decide) (by decide) fun _ _ => rfl
  cases hrun'.symm.trans e
  rcases hres with ⟨hf, -⟩ | ⟨-, hg, -⟩
  · cases hf
  · exact ⟨k₁, k₂, own₁, own₂, L₁, L₂, hrun, hrun', hg⟩

end Xv6
