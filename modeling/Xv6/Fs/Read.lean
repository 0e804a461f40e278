import Xv6.Fs.Edit

/-!
# Reading a file

`readi` of an inode without holes finds every block that it needs: it returns the bytes of the file
and leaves the state as it was, inside a transaction or not. `dirlookup` reads the directory through
it, and its only change is the reference that `iget` takes.
-/

namespace Xv6.Fs

open Seq Seq.M

/-! ## Copies to the process -/

/-- The byte at address `a` can be written. -/
def Dst.Writable (dst : Dst) (a : Nat) : Prop :=
  match dst with
  | .kernel => True
  | .user page => page (a / PGSIZE) = true

theorem copyout_spec (page : Nat → Bool) (fuel va : Nat) (l : List UInt8) (hf : l.length ≤ fuel) :
    (copyout page fuel va l).1 <+: l ∧ ((copyout page fuel va l).2 = true → (copyout page fuel va l).1 = l) ∧
    ((copyout page fuel va l).2 = false → ∃ j < l.length, ¬ (Dst.user page).Writable (va + j)) := by
  induction fuel generalizing va l with
  | zero =>
    have : l = [] := List.eq_nil_of_length_eq_zero (Nat.le_zero.mp hf)
    subst this
    exact ⟨List.prefix_rfl, fun _ => rfl, nofun⟩
  | succ fuel ih =>
    unfold copyout
    split
    · rename_i h
      subst h
      exact ⟨List.prefix_rfl, fun _ => rfl, nofun⟩
    · rename_i h
      have hpos : 0 < l.length := List.length_pos_iff.mpr h
      split
      · -- a page at a time, at least one byte
        have hmod : va % PGSIZE < PGSIZE := Nat.mod_lt _ (by decide)
        obtain ⟨hp, hok, hno⟩ := ih (pgRoundDown va + PGSIZE)
          (l.drop (min (PGSIZE - va % PGSIZE) l.length)) (by rw [List.length_drop]; omega)
        refine ⟨?_, fun h2 => ?_, fun h2 => ?_⟩
        · obtain ⟨t, ht⟩ := hp
          refine ⟨t, ?_⟩
          rw [List.append_assoc, ht, List.take_append_drop]
        · exact (congrArg (l.take _ ++ ·) (hok h2)).trans (List.take_append_drop _ _)
        · obtain ⟨j, hj, hw⟩ := hno h2
          rw [List.length_drop] at hj
          have hva : pgRoundDown va + PGSIZE = va + min (PGSIZE - va % PGSIZE) l.length := by
            simp only [pgRoundDown, PGSIZE] at *
            omega
          rw [hva, Nat.add_assoc] at hw
          exact ⟨_, by omega, hw⟩
      · rename_i hpage
        exact ⟨List.nil_prefix, nofun, fun _ => ⟨0, hpos, hpage⟩⟩

theorem eitherCopyout_spec (dst : Dst) (va : Nat) (l : List UInt8) : (eitherCopyout dst va l).1 <+: l ∧
    ((eitherCopyout dst va l).2 = true → (eitherCopyout dst va l).1 = l) ∧
    ((eitherCopyout dst va l).2 = false → ∃ j < l.length, ¬ dst.Writable (va + j)) := by
  cases dst with
  | kernel => exact ⟨List.prefix_rfl, fun _ => rfl, nofun⟩
  | user page => exact copyout_spec page _ va l (Nat.le_refl _)

/-! ## `readi` -/

section Read

variable {sb : Superblock} {E : Panic → Prop} {s : St} {k : Nat}

/-- Byte `x` of the contents of the inode in table entry `k`. -/
def St.byteAt (s : St) (k x : Nat) : UInt8 := (s.itable k).toDinode.byteAt s.blk x

/-- The bytes of one block's share are bytes of the file. -/
theorem slice_block (s : St) (k off : Nat) {m : Nat} (hm : m ≤ BSIZE - off % BSIZE) :
    Bytes.slice (s.blk (s.blockAt k (off / BSIZE))) (off % BSIZE) m = Bytes.slice (s.byteAt k) off m := by
  refine Bytes.slice_congr fun j hj => ?_
  have hmod : off % BSIZE < BSIZE := Nat.mod_lt _ (by decide)
  have hd := Nat.div_add_mod off BSIZE
  have h1 : (off + j) / BSIZE = off / BSIZE := by
    rw [← hd, Nat.add_assoc, Nat.mul_add_div (by decide), Nat.mul_add_div (by decide),
      Nat.div_eq_of_lt (show off % BSIZE + j < BSIZE by omega), Nat.mod_div_self]
  have h2 : (off + j) % BSIZE = off % BSIZE + j := by
    rw [← hd, Nat.add_assoc, Nat.mul_add_mod, Nat.mul_add_mod, Nat.mod_mod,
      Nat.mod_eq_of_lt (by omega)]
  show _ = s.blk (s.blockAt k ((off + j) / BSIZE)) ((off + j) % BSIZE)
  rw [h1, h2]

/-- What a read of `n` bytes to address `va` answers: all of them, or `-1` after some when the copy
fails. -/
def ReadsTo (s : St) (k : Nat) (dst : Dst) (va n off : Nat) (r : Option Nat × List UInt8) (res : Nat) :
    Prop :=
  (r.1 = some res ∧ r.2 = Bytes.slice (s.byteAt k) off n) ∨
  ((∃ j < n, ¬ dst.Writable (va + j)) ∧ r.1 = none ∧ r.2 <+: Bytes.slice (s.byteAt k) off n)

theorem readLoop_spec (hheld : s.held = []) (dst : Dst) (n fuel tot off va : Nat) (htot : tot ≤ n)
    (hf : n - tot ≤ fuel)
    (hblk : ∀ x, off ≤ x → x < off + (n - tot) → s.blockAt k (x / BSIZE) ≠ 0) :
    wp E (readLoop sb k dst n fuel tot off va) s fun r s' =>
      s' = s ∧ ReadsTo s k dst va (n - tot) off r n := by
  induction fuel generalizing tot off va with
  | zero =>
    have h : n - tot = 0 := Nat.le_zero.mp hf
    refine ⟨rfl, .inl ⟨?_, ?_⟩⟩
    · show some tot = some n
      congr 1
      omega
    · rw [h]
      rfl
  | succ fuel ih =>
    unfold readLoop
    refine wp_ite.mpr ⟨fun hlt => ?_, fun hge => ?_⟩
    · have h0 := hblk off (Nat.le_refl _) (by omega)
      refine wp.bind (bmap_present hheld h0) ?_
      rintro a s' ⟨rfl, rfl⟩
      rw [if_neg h0]
      refine wp_bind.mpr (wp_bread (by rw [hheld]; exact List.not_mem_nil) ?_)
      refine wp_bind.mpr (wp_brelse.mpr ?_)
      rw [St.unhold_hold]
      have hmod : off % BSIZE < BSIZE := Nat.mod_lt _ (by decide)
      rw [slice_block s' k off (Nat.min_le_right _ _)]
      generalize hm : min (n - tot) (BSIZE - off % BSIZE) = m
      have hm1 : 0 < m := by omega
      have hm2 : m ≤ n - tot := by omega
      have hsplit : n - tot = m + (n - (tot + m)) := by omega
      obtain ⟨hpre, hok, hfail⟩ := eitherCopyout_spec dst va (Bytes.slice (s'.byteAt k) off m)
      refine wp_ite.mpr ⟨fun hc => ?_, fun hc => ?_⟩
      · refine wp.bind (ih (tot + m) (off + m) (va + m) (by omega) (by omega) fun x h1 h2 =>
          hblk x (by omega) (by omega)) ?_
        rintro r s₁ ⟨rfl, hr⟩
        refine ⟨rfl, ?_⟩
        rw [hsplit, hok hc]
        unfold ReadsTo
        rw [Bytes.slice_add]
        rcases hr with ⟨h1, h2⟩ | ⟨⟨j, hj, hd⟩, h1, h2⟩
        · exact .inl ⟨h1, by rw [h2]⟩
        · refine .inr ⟨⟨m + j, by omega, ?_⟩, h1, (List.prefix_append_right_inj _).mpr h2⟩
          rwa [← Nat.add_assoc]
      · refine ⟨rfl, .inr ⟨?_, rfl, ?_⟩⟩
        · obtain ⟨j, hj, hd⟩ := hfail (by simpa using hc)
          rw [Bytes.length_slice] at hj
          exact ⟨j, by omega, hd⟩
        · rw [hsplit, Bytes.slice_add]
          exact hpre.trans (List.prefix_append _ _)
    · have h : n - tot = 0 := by omega
      refine ⟨rfl, .inl ⟨?_, ?_⟩⟩
      · show some tot = some n
        congr 1
        omega
      · rw [h]
        rfl

/-- The inode in table entry `k` has no hole. -/
def St.NoHole (s : St) (k : Nat) : Prop := (s.itable k).toDinode.NoHole s.blk

/-- How many bytes `readi` reads. -/
def readLen (size off n : Nat) : Nat :=
  if size < off ∨ (off + n) % U32 < off then 0 else min n (size - off)

theorem lt_readLen {size off n j : Nat} :
    j < readLen size off n ↔ off ≤ (off + n) % U32 ∧ j < n ∧ off + j < size := by
  unfold readLen
  split <;> omega

/-- `readi` returns bytes of the file and changes nothing, with or without a transaction. -/
theorem readi_spec (hheld : s.held = []) (hno : s.NoHole k) (dst : Dst) (va off n : Nat) :
    wp E (readi sb k dst va off n) s fun r s' =>
      s' = s ∧ ReadsTo s k dst va (readLen (s.itable k).size off n) off r
        (readLen (s.itable k).size off n) := by
  refine wp_bind.mpr (wp_getInode.mpr (wp_ite.mpr ⟨fun h => ?_, fun h => ?_⟩))
  · rw [readLen, if_pos h]
    exact ⟨rfl, .inl ⟨rfl, rfl⟩⟩
  · rw [readLen, if_neg h]
    obtain ⟨h1, -⟩ := not_or.mp h
    have hn : (if (s.itable k).size < off + n then (s.itable k).size - off else n) =
        min n ((s.itable k).size - off) := by
      split <;> omega
    rw [hn]
    refine (readLoop_spec hheld dst _ _ 0 off va (Nat.zero_le _) (Nat.sub_le _ _) ?_)
    intro x hx1 hx2
    refine hno (x / BSIZE) ?_
    have := Nat.div_mul_le_self x BSIZE
    omega

/-- A read into memory that can be written. -/
theorem readi_writable (hheld : s.held = []) (hno : s.NoHole k) (dst : Dst) (va off n : Nat)
    (hw : ∀ j < n, dst.Writable (va + j)) :
    wp E (readi sb k dst va off n) s fun r s' =>
      s' = s ∧ r.1 = some (readLen (s.itable k).size off n) ∧
      r.2 = Bytes.slice (s.byteAt k) off (readLen (s.itable k).size off n) := by
  refine (readi_spec hheld hno dst va off n).mono ?_
  rintro r s' ⟨hs, h | ⟨⟨j, hj, hd⟩, -⟩⟩
  · exact ⟨hs, h⟩
  · exact absurd (hw j (lt_readLen.mp hj).2.1) hd

/-- A read into kernel memory. -/
theorem readi_kernel (hheld : s.held = []) (hno : s.NoHole k) (va off n : Nat) :
    wp E (readi sb k .kernel va off n) s fun r s' =>
      s' = s ∧ r.1 = some (readLen (s.itable k).size off n) ∧
      r.2 = Bytes.slice (s.byteAt k) off (readLen (s.itable k).size off n) :=
  readi_writable hheld hno .kernel va off n fun _ _ => trivial

end Read

end Xv6.Fs
