import Xv6.Vm.Copy

/-!
# The bytes of user memory

A page is 512 words in the model, and the copies of `vm.c` move bytes. `Kmem.byte` of a page in which bytes were set
is the byte that was set last. `ubyte` is the byte that a process sees at an address.
-/

namespace Xv6

open Seq

/-! ## Bytes of a word and of a page -/

/-- Byte `i` of the word `w` replaced by `b`. -/
def wordSet (w i b : Nat) : Nat := w / (256 ^ i * 256) * (256 ^ i * 256) + b * 256 ^ i + w % 256 ^ i

theorem wordSet_self {w i b : Nat} (hb : b < 256) : wordSet w i b / 256 ^ i % 256 = b := by
  have hp : 0 < 256 ^ i := Nat.pow_pos (by omega)
  have e : wordSet w i b = w % 256 ^ i + 256 ^ i * (w / (256 ^ i * 256) * 256 + b) := by
    unfold wordSet
    ring
  rw [e, Nat.add_mul_div_left _ _ hp, Nat.div_eq_of_lt (Nat.mod_lt _ hp), Nat.zero_add]
  omega

theorem wordSet_below {w i j b : Nat} (hj : j < i) : wordSet w i b / 256 ^ j % 256 = w / 256 ^ j % 256 := by
  -- byte `j` is read off the remainder by `256 ^ (j + 1)`, which divides what is added
  obtain ⟨t, rfl⟩ : ∃ t, i = j + 1 + t := ⟨i - (j + 1), by omega⟩
  have hp : 256 ^ (j + 1 + t) = 256 ^ j * 256 * 256 ^ t := by ring
  have e : wordSet w (j + 1 + t) b = w % (256 ^ j * 256 * 256 ^ t) + 256 ^ j * 256 *
      ((w / (256 ^ (j + 1 + t) * 256) * (256 ^ t * 256)) + b * 256 ^ t) := by
    unfold wordSet
    rw [hp]
    ring
  rw [← Nat.mod_mul_right_div_self, ← Nat.mod_mul_right_div_self, e, Nat.add_mul_mod_self_left,
    Nat.mod_mul_right_mod]

theorem wordSet_above {w i j b : Nat} (hj : i < j) (hb : b < 256) : wordSet w i b / 256 ^ j = w / 256 ^ j := by
  obtain ⟨t, rfl⟩ : ∃ t, j = i + 1 + t := ⟨j - (i + 1), by omega⟩
  have hp : 0 < 256 ^ i := Nat.pow_pos (by omega)
  have hlt : b * 256 ^ i + w % 256 ^ i < 256 ^ i * 256 := by
    have h1 : w % 256 ^ i < 256 ^ i := Nat.mod_lt _ hp
    have h2 : b * 256 ^ i ≤ 255 * 256 ^ i := Nat.mul_le_mul_right _ (by omega)
    omega
  have e : wordSet w i b / (256 ^ i * 256) = w / (256 ^ i * 256) := by
    unfold wordSet
    rw [Nat.add_assoc, Nat.mul_comm, Nat.mul_add_div (by omega), Nat.div_eq_of_lt hlt, Nat.add_zero]
  have hsplit : ∀ x, x / 256 ^ (i + 1 + t) = x / (256 ^ i * 256) / 256 ^ t := by
    intro x
    rw [Nat.div_div_eq_div_mul, ← Nat.pow_succ, ← Nat.pow_add]
  rw [hsplit, hsplit, e]

section

variable {k : Kmem} {pa off q : Nat} {b : UInt8} {bs : List UInt8}

theorem byte_of_mod {m n : Nat} (h : m % 256 = n % 256) : UInt8.ofNat m = UInt8.ofNat n :=
  UInt8.toNat_inj.mp (by simpa [UInt8.toNat_ofNat'] using h)

theorem byte_setByte_self : (k.setByte pa off b).byte pa off = b := by
  have hb : b.toNat < 256 := b.toNat_lt
  have e := wordSet_self (w := k.mem pa (off / 8)) (i := off % 8) hb
  unfold Kmem.byte Kmem.setByte
  simp only [setWord_mem_self]
  refine (byte_of_mod (n := b.toNat) ?_).trans (by simp)
  rw [Nat.mod_eq_of_lt hb]
  exact e

theorem byte_setByte_ne {q o : Nat} (h : q ≠ pa ∨ o ≠ off) : (k.setByte pa off b).byte q o = k.byte q o := by
  have hb : b.toNat < 256 := b.toNat_lt
  unfold Kmem.byte Kmem.setByte
  simp only
  by_cases hq : q = pa
  · subst hq
    by_cases hw : o / 8 = off / 8
    · -- another byte of the same word
      rw [hw, setWord_mem_self]
      have hne : o % 8 ≠ off % 8 := by omega
      refine byte_of_mod ?_
      rcases Nat.lt_or_gt_of_ne hne with hlt | hgt
      · exact wordSet_below hlt
      · exact congrArg (· % 256) (wordSet_above hgt hb)
    · rw [setWord_mem_of_ne_index hw]
  · rw [setWord_mem_of_ne hq]

theorem setBytes_mem_of_ne (h : q ≠ pa) : (k.setBytes pa off bs).mem q = k.mem q := by
  induction bs generalizing k off with
  | nil => rfl
  | cons b bs ih => exact ih.trans (setWord_mem_of_ne h)

theorem setBytes_took : Took k (k.setBytes pa off bs) 0 := by
  induction bs generalizing k off with
  | nil => exact .refl
  | cons b bs ih => exact ⟨ih.fails, ih.calls, ih.free⟩

/-- Setting bytes sets these bytes and no other. -/
theorem byte_setBytes {o : Nat} : (k.setBytes pa off bs).byte q o =
    if q = pa ∧ off ≤ o ∧ o < off + bs.length then bs.getD (o - off) 0 else k.byte q o := by
  induction bs generalizing k off with
  | nil =>
    rw [if_neg]
    · rfl
    · rintro ⟨-, h1, h2⟩
      rw [List.length_nil] at h2
      omega
  | cons b bs ih =>
    rw [Kmem.setBytes, ih]
    by_cases hq : q = pa
    · by_cases ho : o = off
      · subst hq ho
        rw [if_neg (by omega), if_pos ⟨rfl, le_rfl, by simp⟩, byte_setByte_self]
        simp
      · rw [byte_setByte_ne (.inr ho)]
        by_cases hin : off + 1 ≤ o ∧ o < off + 1 + bs.length
        · rw [if_pos ⟨hq, hin⟩, if_pos ⟨hq, by omega, by rw [List.length_cons]; omega⟩]
          obtain ⟨i, rfl⟩ : ∃ i, o = off + 1 + i := ⟨o - (off + 1), by omega⟩
          rw [show off + 1 + i - (off + 1) = i by omega, show off + 1 + i - off = i + 1 by omega, List.getD_cons_succ]
        · rw [if_neg fun h => hin h.2, if_neg]
          rintro ⟨-, h1, h2⟩
          rw [List.length_cons] at h2
          omega
    · rw [if_neg fun h => hq h.1, if_neg fun h => hq h.1, byte_setByte_ne (.inl hq)]

end

/-! ## The bytes that a process sees -/

/-- The byte at a user address. A page that is not mapped reads as zeros, as it does once `vmfault` has mapped it. -/
def ubyte (k : Kmem) (L : Nat → Nat) (a : Nat) : UInt8 :=
  if L (a / PGSIZE) = 0 then 0 else k.byte (pte2pa (L (a / PGSIZE))) (a % PGSIZE)

/-- `n` bytes from a user address. -/
def ubytes (k : Kmem) (L : Nat → Nat) (a n : Nat) : List UInt8 := (List.range n).map fun i => ubyte k L (a + i)

section

variable {k k' : Kmem} {L L' : Nat → Nat} {a n m : Nat}

@[simp] theorem ubytes_length : (ubytes k L a n).length = n := by simp [ubytes]

theorem ubytes_add : ubytes k L a (n + m) = ubytes k L a n ++ ubytes k L (a + n) m := by
  unfold ubytes
  rw [List.range_add, List.map_append, List.map_map]
  refine congrArg _ (List.map_congr_left fun i _ => ?_)
  simp only [Function.comp_apply]
  rw [Nat.add_assoc]

theorem ubytes_congr (h : ∀ i < n, ubyte k' L' (a + i) = ubyte k L (a + i)) : ubytes k' L' a n = ubytes k L a n :=
  List.map_congr_left fun i hi => h i (List.mem_range.mp hi)

theorem ubytes_get {i : Nat} (hi : i < n) : (ubytes k L a n).getD i 0 = ubyte k L (a + i) := by
  simp [ubytes, hi]

/-- The bytes of a part of a page, read through its leaf. -/
theorem bytes_eq_ubytes {off : Nat} (hL : L (a / PGSIZE) ≠ 0) (ho : a % PGSIZE = off) (hn : off + n ≤ PGSIZE) :
    k.bytes (pte2pa (L (a / PGSIZE))) off n = ubytes k L a n := by
  refine List.map_congr_left fun i hi => ?_
  have hi' := List.mem_range.mp hi
  have h1 : (a + i) / PGSIZE = a / PGSIZE := by
    simp only [PGSIZE] at *
    omega
  have h2 : (a + i) % PGSIZE = off + i := by
    simp only [PGSIZE] at *
    omega
  unfold ubyte
  rw [h1, if_neg hL, h2]

end

section

variable [K : Layout] {k k' : Kmem} {own own' : Nat → Owner} {r : Nat} {L L' : Nat → Nat}

theorem Local.setBytes {q off : Nat} {bs : List UInt8} (h : Local k own r L) (hq : ¬ NodeOf r (own q)) :
    Local (k.setBytes q off bs) own r L := by
  refine h.congr (by rw [setBytes_took.free]; rfl) fun q' hq' => setBytes_mem_of_ne ?_
  rintro rfl
  exact hq hq'

/-- Bytes are written to a part of the page of virtual page `v`. -/
theorem ubyte_setBytes {v off a : Nat} {bs : List UInt8} (h : UserOk own r L) (hv : v < NUSER) (hL : L v ≠ 0)
    (hoff : off + bs.length ≤ PGSIZE) (ha : a / PGSIZE < NUSER) :
    ubyte (k.setBytes (pte2pa (L v)) off bs) L a =
      if v * PGSIZE + off ≤ a ∧ a < v * PGSIZE + off + bs.length then bs.getD (a - (v * PGSIZE + off)) 0
      else ubyte k L a := by
  have hdm := Nat.div_add_mod a PGSIZE
  unfold ubyte
  by_cases h0 : L (a / PGSIZE) = 0
  · rw [if_pos h0, if_pos h0, if_neg]
    rintro ⟨h1, h2⟩
    have : a / PGSIZE = v := by
      simp only [PGSIZE] at *
      omega
    exact hL (this ▸ h0)
  rw [if_neg h0, if_neg h0, byte_setBytes]
  by_cases e : a / PGSIZE = v
  · rw [e] at hdm ⊢
    have hmod : a % PGSIZE = a - v * PGSIZE := by
      rw [← hdm, Nat.mul_comm]
      simp
    have hge : v * PGSIZE ≤ a := by
      rw [← hdm, Nat.mul_comm]
      omega
    refine if_congr ?_ ?_ rfl
    · rw [hmod]
      simp only [true_and]
      omega
    · rw [hmod, Nat.sub_sub]
  · -- the pages of different virtual pages are different
    have hne : pte2pa (L (a / PGSIZE)) ≠ pte2pa (L v) := by
      intro he
      have h1 := h.own_pte2pa ha h0
      rw [he, h.own_pte2pa hv hL] at h1
      cases h1
      exact e rfl
    rw [if_neg fun hc => hne hc.1, if_neg]
    rintro ⟨h1, h2⟩
    refine e ?_
    simp only [PGSIZE] at *
    omega

omit K in
/-- A page that is not a table page and keeps its words keeps its bytes. -/
theorem ubyte_congr {a : Nat} (hL : L' (a / PGSIZE) = L (a / PGSIZE))
    (hm : L (a / PGSIZE) ≠ 0 → k'.mem (pte2pa (L (a / PGSIZE))) = k.mem (pte2pa (L (a / PGSIZE)))) :
    ubyte k' L' a = ubyte k L a := by
  unfold ubyte
  rw [hL]
  by_cases h0 : L (a / PGSIZE) = 0
  · rw [if_pos h0, if_pos h0]
  · rw [if_neg h0, if_neg h0]
    unfold Kmem.byte
    rw [hm h0]

/-- Zeroed pages that are mapped where there were none do not change what the process sees. -/
theorem Gains.ubyte_eq {D : Nat → Prop} {flags : Nat → Nat} {a : Nat}
    (h : Gains r D flags (fun _ _ => 0) k k' own own' L L') (hl : Local k' own' r L') (hu : UserOk own r L)
    (hD : ∀ v, D v → L v = 0 ∧ flags v < 1024) (ha : a / PGSIZE < NUSER) : ubyte k' L' a = ubyte k L a := by
  by_cases hDv : D (a / PGSIZE)
  · obtain ⟨q, -, hq, hL, -⟩ := h.new _ hDv
    obtain ⟨h0, hf⟩ := hD _ hDv
    unfold ubyte
    rw [if_pos h0, hL, if_neg mkPte_ne_zero, pte2pa_of_isPage (hl.page q (by rw [hq]; simp)) hf]
    unfold Kmem.byte
    rw [h.words _ q hDv hq]
    simp
  · refine ubyte_congr (h.same _ hDv) fun h0 => h.mem _ ?_ ?_
    · rw [hu.own_pte2pa ha h0]
      simp
    · rw [hu.own_pte2pa ha h0]
      exact not_nodeOf_user

end

end Xv6
