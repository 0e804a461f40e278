import Xv6.Vm.ExecSpec
import Xv6.Vm.Transfer

/-!
# The program that `kexec` loads

`kexec` fills a new table `r`, first with the segments of the file. It maps every page below `sz`, so each page of
the size is one page less on the free list (`Loading`). There are `NPAGES` pages in all, far fewer than fit below
`TRAPFRAME`: `uvmalloc` runs out of pages before it can come to the trapframe.

What a process will see is the image of the file: zeros, over which the segments of the program headers are stored
one after the other (`loadImage`). The offset of a segment passes through a `uint`; `loadImage` takes the function
that the offset goes through as a parameter.
-/

namespace Xv6

open Seq

/-- The number of physical pages. -/
abbrev NPAGES : Nat := 32768

/-! ## The image of a file -/

/-- The program header at offset `off` of the file. -/
def phdr (ip : List UInt8) (off : Nat) : List UInt8 := (ip.drop off).take 56

/-- The program header is of a segment that is loaded. -/
def IsLoad (ph : List UInt8) : Prop := field ph 0 4 = ELF_PROG_LOAD

instance (ph : List UInt8) : Decidable (IsLoad ph) := inferInstanceAs (Decidable (_ = _))

/-- Memory `f` after the segments of `n` program headers from offset `off` are stored; the bytes of a segment with
the file offset `x` are those from `g x` on. -/
def loadImage (g : Nat → Nat) (ip : List UInt8) : Nat → Nat → (Nat → UInt8) → Nat → UInt8
  | 0, _, f => f
  | n + 1, off, f =>
    let ph := phdr ip off
    loadImage g ip n (off + 56)
      (if IsLoad ph then overlay f (field ph 16 8) (field ph 32 8) (ip.drop (g (field ph 8 8))) else f)

/-- The program headers, and the segments that they describe, lie inside the file. -/
structure InFile (g : Nat → Nat) (ip : List UInt8) (n off : Nat) : Prop where
  header : ∀ i < n, off + 56 * i + 56 ≤ ip.length
  segment : ∀ i < n, IsLoad (phdr ip (off + 56 * i)) → ∀ j < field (phdr ip (off + 56 * i)) 32 8,
    g (field (phdr ip (off + 56 * i)) 8 8) + j < ip.length

section

variable {g g' : Nat → Nat} {ip : List UInt8} {n off : Nat} {f f' : Nat → UInt8} {a : Nat}

/-- Only the bytes that are stored count. -/
theorem overlay_take {m b : Nat} {src : List UInt8} : overlay f a m (src.take m) b = overlay f a m src b := by
  have h : overlay (overlay f a m (src.take m)) (a + m) 0 (src.drop m) b = overlay f a (m + 0) src b := overlay_append
  rwa [overlay_zero] at h

theorem overlay_congr {m b : Nat} {src : List UInt8} (h : f b = f' b) : overlay f a m src b = overlay f' a m src b := by
  unfold overlay
  rw [h]

/-- A byte of the image depends on that byte of the memory. -/
theorem loadImage_congr (h : f a = f' a) : loadImage g ip n off f a = loadImage g ip n off f' a := by
  induction n generalizing off f f' with
  | zero => exact h
  | succ n ih =>
    refine ih ?_
    by_cases hl : IsLoad (phdr ip off)
    · rw [if_pos hl, if_pos hl]
      exact overlay_congr h
    · rwa [if_neg hl, if_neg hl]

theorem InFile.zero : InFile g ip 0 off :=
  ⟨fun _ hi => absurd hi (Nat.not_lt_zero _), fun _ hi => absurd hi (Nat.not_lt_zero _)⟩

/-- The first header, and the others. -/
theorem InFile.cons (h0 : off + 56 ≤ ip.length)
    (hs : IsLoad (phdr ip off) → ∀ j < field (phdr ip off) 32 8, g (field (phdr ip off) 8 8) + j < ip.length)
    (h : InFile g ip n (off + 56)) : InFile g ip (n + 1) off := by
  have hshift : ∀ i, off + 56 * (i + 1) = off + 56 + 56 * i := fun i => by ring
  refine ⟨fun i hi => ?_, fun i hi => ?_⟩
  · cases i with
    | zero => exact h0
    | succ i =>
      rw [hshift]
      exact h.header i (by omega)
  · cases i with
    | zero => exact hs
    | succ i =>
      rw [hshift]
      exact h.segment i (by omega)

/-- A read that gets all bytes is a read inside the file. -/
theorem readFile_full {m : Nat} (hm : 0 < m)
    (h : (readFile ip off m).length = m) : off + m ≤ ip.length ∧ readFile ip off m = (ip.drop off).take m := by
  unfold readFile at h ⊢
  split at h
  · rw [List.length_nil] at h
    omega
  · rename_i hc
    rw [List.length_take, List.length_drop] at h
    exact ⟨by omega, if_neg hc⟩

theorem field_lt (bs : List UInt8) (off n : Nat) : field bs off n < 256 ^ n := by
  have hle : ∀ l : List UInt8, l.foldr (fun b x => b.toNat + 256 * x) 0 < 256 ^ l.length := by
    intro l
    induction l with
    | nil => simp
    | cons b l ih =>
      have := b.toNat_lt
      rw [List.foldr_cons, List.length_cons, pow_succ]
      omega
  exact (hle _).trans_le (Nat.pow_le_pow_right (by omega) (List.length_take_le ..))

end

section

variable [K : Layout] {E : Panic → Prop} {k k₀ k' : Kmem} {own own₀ own' : Nat → Owner}
variable {T : Nat → Option (Nat → Nat)} {r q tf sz : Nat} {L L' : Nat → Nat}

/-! ## The new table -/

/-- The new table `r` with the leaves `L`; outside of it the memory is as it was in `k₀`. -/
structure Filling (k₀ : Kmem) (own₀ : Nat → Owner) (T : Nat → Option (Nat → Nat)) (r tf sz : Nat) (k : Kmem)
    (own : Nat → Owner) (L : Nat → Nat) : Prop where
  within : Within r k₀ k own₀ own
  inv : MemInv k own (Function.update T r (some L))
  leaves : LeavesOk L tf sz
  le : sz ≤ TRAPFRAME

/-- The table that `kexec` leaves, filled or not. -/
def Image (k₀ : Kmem) (own₀ : Nat → Owner) (T : Nat → Option (Nat → Nat)) (r tf sz : Nat) (k : Kmem) : Prop :=
  ∃ own L, Filling k₀ own₀ T r tf sz k own L

/-- All pages of the size are mapped for the user. -/
def AllMapped (L : Nat → Nat) (sz : Nat) : Prop := ∀ v < pages sz, pteU (L v) = true

/-- The new table while `kexec` loads the program (module doc). -/
structure Loading (k₀ : Kmem) (own₀ : Nat → Owner) (T : Nat → Option (Nat → Nat)) (r tf sz : Nat) (k : Kmem)
    (own : Nat → Owner) (L : Nat → Nat) : Prop extends Filling k₀ own₀ T r tf sz k own L where
  mapped : AllMapped L sz
  room : k.freelist.length + pages sz ≤ NPAGES

theorem Filling.image (h : Filling k₀ own₀ T r tf sz k own L) : Image k₀ own₀ T r tf sz k := ⟨own, L, h⟩

theorem Filling.userOk (h : Filling k₀ own₀ T r tf sz k own L) : UserOk own r L :=
  (h.inv.table r L (Function.update_self ..)).2

theorem Filling.toLocal (h : Filling k₀ own₀ T r tf sz k own L) : Local k own r L :=
  h.inv.toLocal (Function.update_self ..)

variable {off fsz n : Nat} {ip : List UInt8}

/-- Bytes of a page of the table are set. -/
theorem Filling.setBytes {v : Nat} {bs : List UInt8} (h : Filling k₀ own₀ T r tf sz k own L)
    (hq : own q = .user r v) : Filling k₀ own₀ T r tf sz (k.setBytes q off bs) own L := by
  refine ⟨h.within.trans ⟨.refl, fun q' _ ht => setBytes_mem_of_ne ?_⟩, h.inv.setBytes (by rw [hq]; rfl) off bs,
    h.leaves, h.le⟩
  rintro rfl
  exact ht (by rw [hq]; rfl)

omit K in
theorem flags2perm_ok (flags : Nat) : flags2perm flags ≤ 12 ∧ flags2perm flags % 4 = 0 := by
  unfold flags2perm
  split <;> split <;> decide

omit K in
/-- The flags of a page from `uvmalloc`. -/
theorem uperm_ok {xperm : Nat} (h : xperm ≤ 12 ∧ xperm % 4 = 0) :
    PTE_R + PTE_U + xperm < 1024 ∧ (PTE_R + PTE_U + xperm) / 2 % 2 = 1 ∧
      (PTE_R + PTE_U + xperm) / 16 % 2 = 1 := by
  simp only [PTE_R, PTE_U]
  omega

/-- What `uvmalloc` maps in the new table. -/
abbrev Grown (r sz sz' xperm : Nat) (k k' : Kmem) (own own' : Nat → Owner) (L L' : Nat → Nat) : Prop :=
  Gains r (PageRange (pages sz) (pages sz' - pages sz)) (fun _ => PTE_R + PTE_U + xperm) (fun _ _ => 0)
    k k' own own' L L'

/-- There are no more than `NPAGES` free pages. -/
theorem MemInv.freelist_length (h : MemInv k own T) : k.freelist.length ≤ NPAGES := by
  have hpage : ∀ q ∈ k.freelist, IsPage q := fun q hq =>
    h.isPage (by rw [(h.free q).mp hq]; simp)
  have hrange : ∀ q ∈ k.freelist, (q - KERNBASE) / PGSIZE ∈ Finset.range NPAGES := by
    intro q hq
    obtain ⟨-, h2, h3⟩ := hpage q hq
    have := K.kend_ge
    simp only [Finset.mem_range, PHYSTOP, KERNBASE, PGSIZE, NPAGES] at *
    omega
  have hinj : ∀ q ∈ k.freelist, ∀ q' ∈ k.freelist,
      (q - KERNBASE) / PGSIZE = (q' - KERNBASE) / PGSIZE → q = q' := by
    intro q hq q' hq' e
    obtain ⟨h1, h2, -⟩ := hpage q hq
    obtain ⟨h1', h2', -⟩ := hpage q' hq'
    have := K.kend_ge
    simp only [KERNBASE, PGSIZE] at *
    omega
  have hcard := Finset.card_le_card_of_injOn (s := k.freelist.toFinset) (t := Finset.range NPAGES)
    (fun q => (q - KERNBASE) / PGSIZE) (fun q hq => hrange q (List.mem_toFinset.mp hq))
    fun q hq q' hq' e => hinj q (List.mem_toFinset.mp hq) q' (List.mem_toFinset.mp hq') e
  rwa [List.toFinset_card_of_nodup h.nodup, Finset.card_range] at hcard

/-- `uvmalloc` in the new table cannot come to the trapframe. It does not change the bytes that are seen. -/
theorem uvmalloc_loading {xperm newsz : Nat} (hx : xperm ≤ 12 ∧ xperm % 4 = 0)
    (h : Loading k₀ own₀ T r tf sz k own L) :
    wp E (uvmalloc r sz newsz xperm) k fun res k' =>
      (res = 0 ∧ Image k₀ own₀ T r tf sz k') ∨
      (res = max sz newsz ∧ ∃ own' L', Loading k₀ own₀ T r tf res k' own' L' ∧
        Grown r sz res xperm k k' own own' L L' ∧ ∀ a, a / PGSIZE < NUSER → ubyte k' L' a = ubyte k L a) := by
  obtain ⟨h1, h2, h3⟩ := uperm_ok hx
  have hroom := h.room
  refine (uvmalloc_spec h.inv (Function.update_self ..) h.le h.leaves.empty h.leaves.top_ne h1 h2
    (.inr (.inl ?_))).mono fun res k' ⟨own', hw, hres⟩ => ?_
  · simp only [NPAGES, NUSER] at hroom ⊢
    omega
  rcases hres with ⟨rfl, h'⟩ | ⟨L', e, hle, h', hlen, hg⟩
  · exact .inl ⟨rfl, own', L, h.within.trans hw, h', h.leaves, h.le⟩
  rw [Function.update_idem] at h'
  have hge : sz ≤ res := e ▸ le_max_left ..
  have hp := pages_mono hge
  refine .inr ⟨e, own', L', ⟨⟨h.within.trans hw, h', hg.leavesOk h.leaves hge hle, hle⟩, fun v hv => ?_, by omega⟩,
    hg, fun a ha => hg.ubyte_eq (h'.toLocal (Function.update_self ..)) h.userOk (fun v hv => ⟨?_, h1⟩) ha⟩
  · rcases Nat.lt_or_ge v (pages sz) with hlt | hge'
    · rw [hg.same v fun hr => absurd hr.1 (by omega)]
      exact h.mapped v hlt
    · obtain ⟨q, -, -, hL, -⟩ := hg.new v ⟨hge', by omega⟩
      rw [hL, pteU_mkPte, h3]
      rfl
  · have hN := pages_le_nuser hle
    have := hv.1
    have := hv.2
    exact h.leaves.empty v (by omega) hv.1

/-! ## Loading a segment -/

omit K in
/-- The bytes of turn `t` of `loadseg`'s loop: a page, or what is left in the last turn. -/
theorem turn_size {t m : Nat} (ht : (t + (n + 1)) * PGSIZE < fsz + PGSIZE) (hm : m = min (fsz - t * PGSIZE) PGSIZE) :
    0 < m ∧ (n = 0 → min fsz ((t + (n + 1)) * PGSIZE) = t * PGSIZE + m) ∧
      (n ≠ 0 → m = PGSIZE ∧ min fsz ((t + (n + 1)) * PGSIZE) - t * PGSIZE =
        m + (min fsz ((t + (n + 1)) * PGSIZE) - (t + 1) * PGSIZE)) := by
  simp only [PGSIZE] at *
  omega

/-- `loadseg`'s loop, `n` turns from turn `t`. If it gets through, the bytes are inside the file and are stored. -/
theorem loadLoop_spec {va offset t : Nat} (h : Loading k₀ own₀ T r tf sz k own L)
    (hpg : va % PGSIZE = 0) (hva : va + fsz ≤ sz) (ht : (t + n) * PGSIZE < fsz + PGSIZE) :
    wp E (loadLoop r va ip offset fsz n (t * PGSIZE)) k fun ok k' => Loading k₀ own₀ T r tf sz k' own L ∧
      (ok = true → ip.length < 2 ^ 32 → (n ≠ 0 → offset + t * PGSIZE < 2 ^ 32) →
        (n ≠ 0 → offset + min fsz ((t + n) * PGSIZE) ≤ ip.length) ∧
        ∀ a, a / PGSIZE < NUSER → ubyte k' L a = overlay (ubyte k L) (va + t * PGSIZE)
          (min fsz ((t + n) * PGSIZE) - t * PGSIZE) (ip.drop (offset + t * PGSIZE)) a) := by
  induction n generalizing k t with
  | zero =>
    refine ⟨h, fun _ _ _ => ⟨fun hn => absurd rfl hn, fun a _ => ?_⟩⟩
    rw [show min fsz ((t + 0) * PGSIZE) - t * PGSIZE = 0 by rw [Nat.add_zero]; omega, overlay_zero]
  | succ n ih =>
    have hsz := h.le
    have hlt : va + t * PGSIZE < sz := by
      simp only [PGSIZE] at ht ⊢
      omega
    have hmod : (va + t * PGSIZE) % U64 = va + t * PGSIZE :=
      Nat.mod_eq_of_lt (by have := trapframe_add_le hsz; omega)
    have hv : (va + t * PGSIZE) / PGSIZE < pages sz := by
      simp only [pages, PGSIZE] at hlt ⊢
      omega
    have hN : (va + t * PGSIZE) / PGSIZE < NUSER := hv.trans_le (pages_le_nuser hsz)
    have hU := h.mapped _ hv
    have hne : L ((va + t * PGSIZE) / PGSIZE) ≠ 0 := by
      intro h0
      rw [h0] at hU
      cases hU
    have hq := h.userOk.own_pte2pa hN hne
    unfold loadLoop
    rw [hmod]
    refine (walkaddr_local h.toLocal (by simp only [TRAPFRAME, TRAMPOLINE, MAXVA, PGSIZE] at *; omega)).bind ?_
    rintro res k' ⟨rfl, hres⟩
    rw [hU, if_pos rfl] at hres
    subst hres
    simp only
    rw [wp_bind, wp_modify]
    generalize hm : (if fsz - t * PGSIZE < PGSIZE then fsz - t * PGSIZE else PGSIZE) = m
    have hmin : m = min (fsz - t * PGSIZE) PGSIZE := by
      rw [← hm]
      split <;> omega
    generalize hbs : readFile ip ((offset + t * PGSIZE) % 2 ^ 32) m = bs
    have h' : Loading k₀ own₀ T r tf sz (k'.setBytes (pte2pa (L ((va + t * PGSIZE) / PGSIZE))) 0 bs) own L := by
      refine ⟨h.toFilling.setBytes hq, h.mapped, ?_⟩
      rw [setBytes_took.free]
      exact h.room
    rw [wp_ite]
    refine ⟨fun _ => ⟨h', fun hc => by cases hc⟩, fun hlen => ?_⟩
    rw [show t * PGSIZE + PGSIZE = (t + 1) * PGSIZE by ring]
    have hlen : bs.length = m := by simpa using hlen
    refine (ih h' (by rw [show t + 1 + n = t + (n + 1) by omega]; exact ht)).mono ?_
    rintro ok k'' ⟨h'', hok⟩
    refine ⟨h'', fun htrue hip hoff => ?_⟩
    have hoff := hoff (by omega)
    obtain ⟨hpos, hlast, hfull⟩ := turn_size ht hmin
    rw [Nat.mod_eq_of_lt hoff] at hbs
    obtain ⟨hin, hread⟩ := readFile_full hpos (by rw [hbs, hlen])
    rw [hbs] at hread
    have hnext : n ≠ 0 → offset + (t + 1) * PGSIZE < 2 ^ 32 := by
      intro hn
      rw [(hfull hn).1] at hin
      rw [Nat.succ_mul, ← Nat.add_assoc]
      exact hin.trans_lt hip
    obtain ⟨hin', hb⟩ := hok htrue hip hnext
    rw [show t + 1 + n = t + (n + 1) by omega] at hin' hb
    refine ⟨fun _ => ?_, fun a ha => ?_⟩
    · by_cases hn : n = 0
      · have := hlast hn
        omega
      · exact hin' hn
    · have hpage : (va + t * PGSIZE) / PGSIZE * PGSIZE + 0 = va + t * PGSIZE := by
        simp only [PGSIZE] at hpg ⊢
        omega
      have hthis : ubyte (k'.setBytes (pte2pa (L ((va + t * PGSIZE) / PGSIZE))) 0 bs) L a =
          overlay (ubyte k' L) (va + t * PGSIZE) m ((ip.drop (offset + t * PGSIZE)).take m) a := by
        rw [ubyte_setBytes h.userOk hN hne (by rw [hlen, hmin]; omega) ha, hpage, hlen, hread]
        rfl
      rw [hb a ha, overlay_congr hthis]
      by_cases hn : n = 0
      · -- there is no next turn
        have e := hlast hn
        rw [show min fsz ((t + (n + 1)) * PGSIZE) - (t + 1) * PGSIZE = 0 by rw [hn, Nat.zero_add]; omega,
          overlay_zero, show min fsz ((t + (n + 1)) * PGSIZE) - t * PGSIZE = m by omega, overlay_take]
      · obtain ⟨e1, e2⟩ := hfull hn
        rw [e2, ← overlay_append, List.drop_drop, e1,
          show va + (t + 1) * PGSIZE = va + t * PGSIZE + PGSIZE by ring,
          show offset + (t + 1) * PGSIZE = offset + t * PGSIZE + PGSIZE by ring]

/-- `loadseg` into pages that are mapped. -/
theorem loadseg_spec {va offset : Nat} (h : Loading k₀ own₀ T r tf sz k own L)
    (hpg : va % PGSIZE = 0) (hva : va + fsz ≤ sz) :
    wp E (loadseg r va ip offset fsz) k fun ok k' => Loading k₀ own₀ T r tf sz k' own L ∧
      (ok = true → ip.length < 2 ^ 32 → offset < 2 ^ 32 → (∀ j < fsz, offset + j < ip.length) ∧
        ∀ a, a / PGSIZE < NUSER → ubyte k' L a = overlay (ubyte k L) va fsz (ip.drop offset) a) := by
  unfold loadseg
  have hn : (0 + (fsz + (PGSIZE - 1)) / PGSIZE) * PGSIZE < fsz + PGSIZE := by
    simp only [PGSIZE]
    omega
  have hall : min fsz ((0 + (fsz + (PGSIZE - 1)) / PGSIZE) * PGSIZE) = fsz := by
    simp only [PGSIZE]
    omega
  have hloop : wp E (loadLoop r va ip offset fsz ((fsz + (PGSIZE - 1)) / PGSIZE) (0 * PGSIZE)) k _ :=
    loadLoop_spec h hpg hva hn
  rw [hall, Nat.zero_mul, Nat.add_zero, Nat.add_zero, Nat.sub_zero] at hloop
  refine hloop.mono fun ok k' ⟨h', hok⟩ => ⟨h', fun htrue hip hoff => ?_⟩
  obtain ⟨hin, hb⟩ := hok htrue hip fun _ => hoff
  refine ⟨fun j hj => ?_, hb⟩
  have hturns : (fsz + (PGSIZE - 1)) / PGSIZE ≠ 0 := by
    simp only [PGSIZE]
    omega
  have := hin hturns
  omega

/-! ## The program headers -/

/-- A size that the pages of memory suffice for. -/
theorem Loading.size_lt (h : Loading k₀ own₀ T r tf sz k own L) : sz < 2 ^ 32 := by
  have := h.room
  simp only [pages, PGSIZE, NPAGES] at this
  omega

/-- What `kexec` has loaded once it got through the program headers. -/
def Loaded (k₀ : Kmem) (own₀ : Nat → Owner) (T : Nat → Option (Nat → Nat)) (r tf : Nat) (ip : List UInt8) (n off : Nat)
    (f : Nat → UInt8) (sz : Nat) (k : Kmem) : Prop :=
  ∃ own L, Loading k₀ own₀ T r tf sz k own L ∧ (ip.length < 2 ^ 32 → off < 2 ^ 32 →
    InFile (· % 2 ^ 32) ip n off ∧
      ∀ a, a / PGSIZE < NUSER → ubyte k L a = loadImage (· % 2 ^ 32) ip n off f a)

/-- A header is read, its segment is stored over `f`, and then those of the other headers. -/
theorem Loaded.cons {f f' : Nat → UInt8} (hlen : (readFile ip off 56).length = 56)
    (hf : ip.length < 2 ^ 32 → readFile ip off 56 = phdr ip off →
      (IsLoad (phdr ip off) → ∀ j < field (phdr ip off) 32 8, field (phdr ip off) 8 8 % 2 ^ 32 + j < ip.length) ∧
      ∀ a, a / PGSIZE < NUSER → f' a = if IsLoad (phdr ip off) then overlay f (field (phdr ip off) 16 8)
        (field (phdr ip off) 32 8) (ip.drop (field (phdr ip off) 8 8 % 2 ^ 32)) a else f a)
    (h : Loaded k₀ own₀ T r tf ip n ((off + 56) % 2 ^ 32) f' sz k) : Loaded k₀ own₀ T r tf ip (n + 1) off f sz k := by
  obtain ⟨own, L, h, himg⟩ := h
  refine ⟨own, L, h, fun hip hoff => ?_⟩
  obtain ⟨hin, hread⟩ := readFile_full (by decide) hlen
  have hnext : (off + 56) % 2 ^ 32 = off + 56 := Nat.mod_eq_of_lt (hin.trans_lt hip)
  rw [hnext] at himg
  obtain ⟨hin', hb⟩ := himg hip (hin.trans_lt hip)
  obtain ⟨hseg, hf⟩ := hf hip hread
  refine ⟨hin'.cons hin hseg, fun a ha => ?_⟩
  rw [hb a ha]
  refine loadImage_congr ?_
  rw [hf a ha]
  split <;> rfl

theorem loadSegs_spec (h : Loading k₀ own₀ T r tf sz k own L) :
    wp E (loadSegs r ip n off sz) k fun res k' => Image k₀ own₀ T r tf res.2 k' ∧
      (res.1 = true → Loaded k₀ own₀ T r tf ip n off (ubyte k L) res.2 k') := by
  induction n generalizing k own L sz off with
  | zero => exact ⟨h.image, fun _ => ⟨own, L, h, fun _ _ => ⟨.zero, fun _ _ => rfl⟩⟩⟩
  | succ n ih =>
    have hstop : ∀ {Q : Prop}, Image k₀ own₀ T r tf sz k ∧ (false = true → Q) := ⟨h.image, by simp⟩
    unfold loadSegs
    simp only
    rw [wp_ite]
    refine ⟨fun _ => hstop, fun hlen => ?_⟩
    have hlen : (readFile ip off 56).length = 56 := by simpa using hlen
    rw [wp_ite]
    refine ⟨fun htype => ?_, fun htype => ?_⟩
    · -- not a segment to load
      refine (ih h).mono fun res k' ⟨himg, hok⟩ => ⟨himg, fun htrue => (hok htrue).cons hlen fun _ hph => ?_⟩
      rw [hph] at htype
      exact ⟨fun hl => absurd hl htype, fun a _ => (if_neg htype).symm⟩
    have htype : IsLoad (readFile ip off 56) := by simpa [IsLoad] using htype
    rw [wp_ite]
    refine ⟨fun _ => hstop, fun hmem => ?_⟩
    rw [wp_ite]
    refine ⟨fun _ => hstop, fun hwrap => ?_⟩
    rw [wp_ite]
    refine ⟨fun _ => hstop, fun hpg => ?_⟩
    refine (uvmalloc_loading (flags2perm_ok _) h).bind fun sz1 k₁ hres => ?_
    rcases hres with ⟨rfl, h₁⟩ | ⟨hsz1, own₁, L₁, h₁, -, hb₁⟩
    · rw [if_pos rfl]
      exact ⟨h₁, by simp⟩
    rw [wp_ite]
    refine ⟨fun _ => ?_, fun hne => ?_⟩
    · have : sz ≤ sz1 := hsz1 ▸ le_max_left ..
      obtain rfl : sz = sz1 := by omega
      exact ⟨h₁.image, by simp⟩
    have hend : field (readFile ip off 56) 16 8 + field (readFile ip off 56) 32 8 ≤ sz1 := by
      have hvaddr := field_lt (readFile ip off 56) 16 8
      have hmemsz := field_lt (readFile ip off 56) 40 8
      have h1 : (field (readFile ip off 56) 16 8 + field (readFile ip off 56) 40 8) % U64 ≤ sz1 :=
        hsz1 ▸ le_max_right ..
      simp only [U64] at h1 hwrap
      omega
    have hfsz : field (readFile ip off 56) 32 8 % 2 ^ 32 = field (readFile ip off 56) 32 8 := by
      refine Nat.mod_eq_of_lt ?_
      have := h₁.size_lt
      omega
    rw [hfsz, wp_bind]
    refine (loadseg_spec h₁ (by simpa using hpg) hend).mono fun ok k₂ ⟨h₂, hok₂⟩ => ?_
    cases ok with
    | false => exact ⟨h₂.image, by simp⟩
    | true =>
      refine (ih h₂).mono fun res k' ⟨himg, hok⟩ => ⟨himg, fun htrue => (hok htrue).cons hlen fun hip hph => ?_⟩
      rw [hph] at htype hok₂
      obtain ⟨hin, hb₂⟩ := hok₂ rfl hip (Nat.mod_lt _ (by decide))
      refine ⟨fun _ => hin, fun a ha => ?_⟩
      rw [hb₂ a ha, if_pos htype]
      exact overlay_congr (hb₁ a ha)

end

end Xv6
