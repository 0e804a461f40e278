import Xv6.Fs.Read

/-!
# Writing a file

`writei` copies its source block by block. `Puts` is what its loop has done after some whole chunks,
`Last` how it ends: all is written, no block is free, or a copy fails. A copy that fails part of the
way has stored the bytes in front of the first page that it cannot read, and these are not logged.

`writei_spec` says that a call that is not refused is such a run, followed by the new size and the
inode's way to the disk. `Written` is what follows from it for the file system's invariants.
-/

namespace Xv6.Fs

open Seq Seq.M

/-! ## Copies from the process -/

namespace Src

/-- The byte at address `a` can be read. -/
def Readable (src : Src) (a : Nat) : Prop :=
  match src with
  | .kernel _ => True
  | .user page => (page (a / PGSIZE)).isSome = true

/-- The byte at address `a`. -/
def byte (src : Src) (a : Nat) : UInt8 :=
  match src with
  | .kernel mem => mem a
  | .user page => ((page (a / PGSIZE)).getD fun _ => 0) (a % PGSIZE)

end Src

theorem copyin_spec (page : Nat → Option (Nat → UInt8)) (fuel va len : Nat) (hf : len ≤ fuel) :
    ((∀ j < len, (Src.user page).Readable (va + j)) →
      copyin page fuel va len = (Bytes.slice (Src.user page).byte va len, true)) ∧
    (∀ t < len, (∀ j < t, (Src.user page).Readable (va + j)) → ¬ (Src.user page).Readable (va + t) →
      copyin page fuel va len = (Bytes.slice (Src.user page).byte va t, false)) := by
  induction fuel generalizing va len with
  | zero =>
    have : len = 0 := Nat.le_zero.mp hf
    subst this
    exact ⟨fun _ => rfl, fun t ht => absurd ht (Nat.not_lt_zero t)⟩
  | succ fuel ih =>
    rcases Nat.eq_zero_or_pos len with rfl | hpos
    · exact ⟨fun _ => by simp [copyin, Bytes.slice], fun t ht => absurd ht (Nat.not_lt_zero t)⟩
    · unfold copyin
      rw [if_neg (Nat.ne_of_gt hpos)]
      cases hp : page (va / PGSIZE) with
      | none =>
        have hno : ¬ (Src.user page).Readable (va + 0) := by simp [Src.Readable, hp]
        refine ⟨fun h => absurd (h 0 hpos) hno, fun t _ ht _ => ?_⟩
        have : t = 0 := by
          by_contra h0
          exact hno (ht 0 (Nat.pos_of_ne_zero h0))
        subst this
        rfl
      | some p =>
        -- the bytes up to the end of the page, or of the range
        have hmod : va % PGSIZE < PGSIZE := Nat.mod_lt _ (by decide)
        have hdm := Nat.div_add_mod va PGSIZE
        simp only
        generalize hn : min (PGSIZE - va % PGSIZE) len = n
        have hin : ∀ j < n, (va + j) / PGSIZE = va / PGSIZE ∧ (va + j) % PGSIZE = va % PGSIZE + j := by
          intro j hj
          have : va % PGSIZE + j < PGSIZE := by omega
          simp only [PGSIZE] at *
          omega
        have hread : ∀ j < n, (Src.user page).Readable (va + j) := fun j hj => by
          simp [Src.Readable, (hin j hj).1, hp]
        have hslice : Bytes.slice p (va % PGSIZE) n = Bytes.slice (Src.user page).byte va n :=
          Bytes.slice_congr fun j hj => by simp [Src.byte, (hin j hj).1, (hin j hj).2, hp]
        rw [hslice]
        rcases Nat.lt_or_ge n len with hlt | hge
        · -- the rest starts with the next page
          have hva : pgRoundDown va + PGSIZE = va + n := by
            simp only [pgRoundDown, PGSIZE] at *
            omega
          rw [hva]
          obtain ⟨ih1, ih2⟩ := ih (va + n) (len - n) (by omega)
          refine ⟨fun h => ?_, fun t ht h1 h2 => ?_⟩
          · rw [ih1 fun j hj => by rw [Nat.add_assoc]; exact h _ (by omega)]
            show (_, true) = _
            rw [← Bytes.slice_add, Nat.add_sub_cancel' (Nat.le_of_lt hlt)]
          · have hnt : n ≤ t := by
              by_contra hlt'
              exact h2 (hread t (by omega))
            rw [ih2 (t - n) (by omega) (fun j hj => by rw [Nat.add_assoc]; exact h1 _ (by omega))
              (by rwa [Nat.add_assoc, Nat.add_sub_cancel' hnt])]
            show (_, false) = _
            rw [← Bytes.slice_add, Nat.add_sub_cancel' hnt]
        · have hne : n = len := by omega
          subst hne
          have hz : copyin page fuel (pgRoundDown va + PGSIZE) (n - n) = ([], true) := by
            rw [Nat.sub_self]
            cases fuel <;> simp [copyin]
          rw [hz]
          refine ⟨fun _ => by simp, fun t ht _ h2 => absurd (hread t ht) h2⟩

/-- A copy takes all bytes, or those in front of the first that cannot be read. -/
theorem eitherCopyin_spec (src : Src) (va len : Nat) :
    ((∀ j < len, src.Readable (va + j)) → eitherCopyin src va len = (Bytes.slice src.byte va len, true)) ∧
    (∀ t < len, (∀ j < t, src.Readable (va + j)) → ¬ src.Readable (va + t) →
      eitherCopyin src va len = (Bytes.slice src.byte va t, false)) := by
  cases src with
  | kernel mem => exact ⟨fun _ => rfl, fun t _ _ h => absurd trivial h⟩
  | user page => exact copyin_spec page len va len (Nat.le_refl _)

/-- Either all of a range can be read, or there is a first byte that cannot. -/
theorem readable_or_first (src : Src) (va len : Nat) : (∀ j < len, src.Readable (va + j)) ∨
    ∃ t < len, (∀ j < t, src.Readable (va + j)) ∧ ¬ src.Readable (va + t) := by
  induction len with
  | zero => exact .inl fun j hj => absurd hj (Nat.not_lt_zero j)
  | succ len ih =>
    rcases ih with h | ⟨t, ht, h⟩
    · by_cases hr : src.Readable (va + len)
      · refine .inl fun j hj => ?_
        rcases Nat.lt_succ_iff_lt_or_eq.mp hj with hj | rfl
        · exact h j hj
        · exact hr
      · exact .inr ⟨len, Nat.lt_succ_self _, h, hr⟩
    · exact .inr ⟨t, Nat.lt_succ_of_lt ht, h⟩

/-! ## The loop -/

/-- The bytes `l` are stored at byte `off` of the file, in one block. -/
def St.store (s : St) (k off : Nat) (l : List UInt8) : St :=
  s.setBlk (s.blockAt k (off / BSIZE)) (Bytes.put (s.blk (s.blockAt k (off / BSIZE))) (off % BSIZE) l)

/-- The bytes `l` are stored at byte `off` of the file and the block is logged. -/
def St.storeLog (s : St) (k off : Nat) (l : List UInt8) : St :=
  (s.store k off l).log (s.blockAt k (off / BSIZE))

/-- Whole chunks of a write at byte `off`: the bytes `l` are in the file. -/
inductive Puts (sb : Superblock) (k : Nat) : Nat → List UInt8 → St → St → Prop
  | nil {off : Nat} {s : St} : Puts sb k off [] s s
  | cons {off : Nat} {l l' : List UInt8} {s s₁ s' : St} (hg : Grows sb k (off / BSIZE) s s₁)
      (hsame : s.blockAt k (off / BSIZE) ≠ 0 → s₁ = s) (h0 : s₁.blockAt k (off / BSIZE) ≠ 0)
      (hpos : 0 < l.length) (hl : l.length ≤ BSIZE - off % BSIZE)
      (hrest : Puts sb k (off + l.length) l' (s₁.storeLog k off l) s') :
      Puts sb k off (l ++ l') s s'

/-- How a write that is at byte `off`, with `n` bytes from address `va` to go, ends. -/
inductive Last (sb : Superblock) (k : Nat) (src : Src) (off va n : Nat) : St → St → Prop
  /-- Nothing is left. -/
  | done {s : St} (h : n = 0) : Last sb k src off va n s s
  /-- There is no block for the next chunk. -/
  | full {s s' : St} (h : 0 < n) (hg : Grows sb k (off / BSIZE) s s')
      (hsame : s.blockAt k (off / BSIZE) ≠ 0 → s' = s) (h0 : s'.blockAt k (off / BSIZE) = 0)
      (hfree : NoFree sb s') : Last sb k src off va n s s'
  /-- The copy of the next chunk stops at its byte `t`. -/
  | fault {s s₁ : St} {t : Nat} (hg : Grows sb k (off / BSIZE) s s₁)
      (hsame : s.blockAt k (off / BSIZE) ≠ 0 → s₁ = s) (h0 : s₁.blockAt k (off / BSIZE) ≠ 0)
      (ht : t < min n (BSIZE - off % BSIZE)) (hr : ∀ j < t, src.Readable (va + j))
      (hn : ¬ src.Readable (va + t)) :
      Last sb k src off va n s (s₁.store k off (Bytes.slice src.byte va t))

section Loop

variable {sb : Superblock} {E : Panic → Prop} {s s' : St} {k : Nat}

theorem store_blk_self (s : St) (k off : Nat) (d : List UInt8) :
    (s.store k off d).blk (s.blockAt k (off / BSIZE)) =
      Bytes.put (s.blk (s.blockAt k (off / BSIZE))) (off % BSIZE) d :=
  Function.update_self _ _ _

variable {off c : Nat} {l : List UInt8}

theorem store_blk_of_ne {d : List UInt8} (h : c ≠ s.blockAt k (off / BSIZE)) : (s.store k off d).blk c = s.blk c :=
  Function.update_of_ne h _ _

/-- A store to a block of the contents leaves the block map. -/
theorem blockAt_store (inv : Inv sb s) (l : Loaded s k) (h0 : s.blockAt k (off / BSIZE) ≠ 0)
    (d : List UInt8) (bn : Nat) : (s.store k off d).blockAt k bn = s.blockAt k bn := by
  refine Dinode.addr_update ?_ _
  have ht : (s.cur sb (s.itable k).inum).type ≠ 0 := by
    rw [l.cur inv.table]
    exact l.type
  have := inv.own.ne_indirect (l.ref_blockAt inv.table h0) ht (.inr (Slot.of_ne_indirect _))
  rwa [l.cur inv.table] at this

/-- Storing a chunk and logging it are two steps. -/
theorem edits_storeLog (h0 : s.blockAt k (off / BSIZE) ≠ 0)
    (inv : Inv sb s) (lo : Loaded s k) (l : List UInt8) : Edits sb k s (s.storeLog k off l) := by
  have e1 : Edit sb k s (s.store k off l) := .data _ h0
  have hb := blockAt_store inv lo h0 l (off / BSIZE)
  refine .tail (.single e1) ?_
  have e2 : Edit sb k (s.store k off l) ((s.store k off l).log ((s.store k off l).blockAt k (off / BSIZE))) :=
    .log (by rw [hb]; exact h0)
  rwa [hb] at e2

theorem Puts.edits (h : Puts sb k off l s s') (w : sb.Wf) (inv : Inv sb s) (lo : Loaded s k) : Edits sb k s s' := by
  induction h with
  | nil => exact .refl
  | @cons _ l _ _ _ _ hg _ h0 _ _ _ ih =>
    obtain ⟨inv₁, l₁, -⟩ := edits_spec w inv lo hg.edits
    have e := edits_storeLog h0 inv₁ l₁ l
    obtain ⟨inv₂, l₂, -⟩ := edits_spec w inv₁ l₁ e
    exact hg.edits.trans (e.trans (ih inv₂ l₂))

theorem Last.edits {src : Src} {va n : Nat} (h : Last sb k src off va n s s') : Edits sb k s s' := by
  cases h with
  | done => exact .refl
  | full _ hg => exact hg.edits
  | fault hg _ h0 => exact hg.edits.tail (.data _ h0)

/-- The blocks of the bytes that are written are there. -/
theorem Puts.present (h : Puts sb k off l s s') (w : sb.Wf) (inv : Inv sb s) (lo : Loaded s k) {x : Nat}
    (h1 : off ≤ x) (h2 : x < off + l.length) : s'.blockAt k (x / BSIZE) ≠ 0 := by
  induction h with
  | nil => exact absurd h2 (by simp; omega)
  | @cons off l l' s s₁ s' hg _ h0 _ hl hrest ih =>
    obtain ⟨inv₁, l₁, -⟩ := edits_spec w inv lo hg.edits
    have e := edits_storeLog h0 inv₁ l₁ l
    obtain ⟨inv₂, l₂, f₂⟩ := edits_spec w inv₁ l₁ e
    rcases Nat.lt_or_ge x (off + l.length) with hlt | hge
    · -- the block of this chunk stays
      obtain ⟨inv', l', f'⟩ := edits_spec w inv₂ l₂ (hrest.edits w inv₂ l₂)
      have hmod : off % BSIZE < BSIZE := Nat.mod_lt _ (by decide)
      have hx : x / BSIZE = off / BSIZE := by
        simp only [BSIZE] at *
        omega
      have hb := (f₂.trans f').blockAt inv₁.table l₁ inv'.table l' h0
      rw [hx, hb]
      exact h0
    · exact ih inv₂ l₂ hge (by rw [List.length_append] at h2; omega)

/-! ## The order of the blocks -/

/-- The blocks of the contents were given in order. -/
def St.Ordered (s : St) (k : Nat) : Prop :=
  ∀ bn bn', bn ≤ bn' → s.blockAt k bn' ≠ 0 → s.blockAt k bn ≠ 0

/-! ## What the loop logs -/

section Cost

variable {s₀ : St} {m c : Nat}

/-- One past the last block of the contents that a write of `n` bytes at byte `off` touches. -/
def endBlock (off n : Nat) : Nat := (off + n + BSIZE - 1) / BSIZE

/-- How many blocks are still logged to store to the blocks `[lo, hi)` of the contents, and to the
indirect block. -/
def writeCost (s₀ s : St) (k lo hi : Nat) : Nat :=
  ∑ bn ∈ Finset.Ico lo hi, weight s₀ s (s.blockAt k bn) + weight s₀ s ((s.itable k).addrs NDIRECT)

theorem le_endBlock (off n : Nat) : off + n ≤ endBlock off n * BSIZE := by
  simp only [endBlock, BSIZE]
  omega

/-- Allocation for the first block of a range. -/
theorem Grows.cost (w : sb.Wf) (inv : Inv sb s) (lo : Loaded s k) {bn hi : Nat} (hlt : bn < hi)
    (h : Grows sb k bn s s') (cr : Credit s₀ m (writeCost s₀ s k bn hi + c) s) :
    Credit s₀ m (writeCost s₀ s' k bn hi + c) s' := by
  have hsplit : ∀ t : St, writeCost s₀ t k bn hi = weight s₀ t (t.blockAt k bn) +
      ∑ b ∈ Finset.Ico (bn + 1) hi, weight s₀ t (t.blockAt k b) +
      weight s₀ t ((t.itable k).addrs NDIRECT) := fun t => by
    rw [writeCost, Finset.sum_eq_sum_Ico_succ_bot hlt]
  rw [hsplit] at cr
  have cr' := h.credit w inv lo (c := ∑ b ∈ Finset.Ico (bn + 1) hi, weight s₀ s (s.blockAt k b) + c)
    (cr.mono (by omega))
  have hsum : ∑ b ∈ Finset.Ico (bn + 1) hi, weight s₀ s' (s'.blockAt k b) ≤
      ∑ b ∈ Finset.Ico (bn + 1) hi, weight s₀ s (s.blockAt k b) := by
    refine Finset.sum_le_sum fun b hb => ?_
    obtain ⟨hb, -⟩ := Finset.mem_Ico.mp hb
    rw [h.blockAt_ne w inv lo (by omega)]
    refine weight_mono (fun a ha => ?_) fun _ => rfl
    obtain ⟨new, hnew⟩ := Grows.wrote w inv lo h
    have : loggedSince s₀ s' = new ++ loggedSince s₀ s := by
      refine loggedSince_append ?_
      rw [hnew, cr.wrote, List.append_assoc, ← cr.wrote]
    rw [this]
    exact List.mem_append_right _ ha
  rw [hsplit]
  exact cr'.mono (by omega)

/-- A chunk that is stored and logged. -/
theorem storeLog_cost (inv : Inv sb s) (lo : Loaded s k) {off hi : Nat}
    (hlt : off / BSIZE < hi) (h0 : s.blockAt k (off / BSIZE) ≠ 0) (d : List UInt8)
    (hd : d.length ≤ BSIZE - off % BSIZE) (cr : Credit s₀ m (writeCost s₀ s k (off / BSIZE) hi + c) s) :
    Credit s₀ m (writeCost s₀ (s.storeLog k off d) k ((off + d.length) / BSIZE) hi + c)
      (s.storeLog k off d) := by
  have hat : ∀ bn, (s.storeLog k off d).blockAt k bn = s.blockAt k bn := blockAt_store inv lo h0 d
  have hlog : loggedSince s₀ (s.storeLog k off d) = s.blockAt k (off / BSIZE) :: loggedSince s₀ s :=
    (cr.setBlk _ _).loggedSince_log _
  have hmono : ∀ a, weight s₀ (s.storeLog k off d) a ≤ weight s₀ s a := fun a =>
    weight_mono (fun b hb => by rw [hlog]; exact List.mem_cons_of_mem _ hb) fun _ => rfl
  have hz : weight s₀ (s.storeLog k off d) ((s.storeLog k off d).blockAt k (off / BSIZE)) = 0 := by
    rw [hat]
    exact weight_logged h0 (by rw [hlog]; exact List.mem_cons_self)
  have hsum : ∑ b ∈ Finset.Ico (off / BSIZE + 1) hi,
        weight s₀ (s.storeLog k off d) ((s.storeLog k off d).blockAt k b) ≤
      ∑ b ∈ Finset.Ico (off / BSIZE + 1) hi, weight s₀ s (s.blockAt k b) :=
    Finset.sum_le_sum fun b _ => by
      rw [hat]
      exact hmono _
  -- the rest starts with this block or with the next one
  have hrest : ∑ b ∈ Finset.Ico ((off + d.length) / BSIZE) hi,
        weight s₀ (s.storeLog k off d) ((s.storeLog k off d).blockAt k b) ≤
      ∑ b ∈ Finset.Ico (off / BSIZE + 1) hi, weight s₀ s (s.blockAt k b) := by
    have hcase : (off + d.length) / BSIZE = off / BSIZE ∨ (off + d.length) / BSIZE = off / BSIZE + 1 := by
      have hmod : off % BSIZE < BSIZE := Nat.mod_lt _ (by decide)
      simp only [BSIZE] at *
      omega
    rcases hcase with he | he
    · rw [he, Finset.sum_eq_sum_Ico_succ_bot hlt, hz, Nat.zero_add]
      exact hsum
    · rw [he]
      exact hsum
  have hind := hmono ((s.itable k).addrs NDIRECT)
  rw [writeCost, Finset.sum_eq_sum_Ico_succ_bot hlt] at cr
  have cr' : Credit s₀ m (∑ b ∈ Finset.Ico (off / BSIZE + 1) hi, weight s₀ s (s.blockAt k b) +
      weight s₀ s ((s.itable k).addrs NDIRECT) + c) (s.storeLog k off d) := by
    refine Credit.log_weight (Credit.mono (cr.setBlk _ _) ?_) h0
    have : weight s₀ (s.store k off d) (s.blockAt k (off / BSIZE)) =
        weight s₀ s (s.blockAt k (off / BSIZE)) := rfl
    rw [this]
    omega
  refine cr'.mono ?_
  rw [writeCost]
  have hit : ((s.storeLog k off d).itable k).addrs NDIRECT = (s.itable k).addrs NDIRECT := rfl
  rw [hit]
  omega

/-- Whole chunks cost the weights of their blocks. -/
theorem Puts.cost {off hi : Nat} {l : List UInt8} (h : Puts sb k off l s s') (w : sb.Wf) (inv : Inv sb s)
    (lo : Loaded s k) (hhi : off + l.length ≤ hi * BSIZE)
    (cr : Credit s₀ m (writeCost s₀ s k (off / BSIZE) hi + c) s) :
    Credit s₀ m (writeCost s₀ s' k ((off + l.length) / BSIZE) hi + c) s' := by
  induction h with
  | nil => exact cr
  | @cons off l l' s s₁ s' hg _ h0 hpos hl hrest ih =>
    obtain ⟨inv₁, l₁, -⟩ := edits_spec w inv lo hg.edits
    obtain ⟨inv₂, l₂, -⟩ := edits_spec w inv₁ l₁ (edits_storeLog h0 inv₁ l₁ l)
    rw [List.length_append] at hhi
    have hlt : off / BSIZE < hi := (Nat.div_lt_iff_lt_mul (by decide)).mpr (by omega)
    have cr₁ := hg.cost w inv lo hlt cr
    have cr₂ := storeLog_cost inv₁ l₁ hlt h0 l hl cr₁
    have := ih inv₂ l₂ (by omega) cr₂
    rwa [List.length_append, ← Nat.add_assoc]

theorem Last.cost {src : Src} {off va n hi : Nat} (h : Last sb k src off va n s s') (w : sb.Wf)
    (inv : Inv sb s) (lo : Loaded s k) (hhi : off + n ≤ hi * BSIZE)
    (cr : Credit s₀ m (writeCost s₀ s k (off / BSIZE) hi + c) s) : Credit s₀ m c s' := by
  have hlt : 0 < n → off / BSIZE < hi := fun hn =>
    (Nat.div_lt_iff_lt_mul (by decide)).mpr (by omega)
  cases h with
  | done => exact cr.mono (Nat.le_add_left _ _)
  | full hn hg => exact (hg.cost w inv lo (hlt hn) cr).mono (Nat.le_add_left _ _)
  | fault hg _ _ ht =>
    exact ((hg.cost w inv lo (hlt (by omega)) cr).setBlk _ _).mono (Nat.le_add_left _ _)

end Cost

/-! ## The loop's specification -/

/-- The loop of `writei` writes whole chunks and ends. -/
theorem writeLoop_spec {s₀ : St} (w : sb.Wf) (inv : Inv sb s) (lo : Loaded s k)
    (hheld : s.held = []) (hout : 1 ≤ s.outstanding) (src : Src) (n fuel tot off va hi : Nat)
    (cr : Credit s₀ c (writeCost s₀ s k (off / BSIZE) hi) s)
    (hE : LOGBLOCKS ≤ s₀.lh.length + c → E .tooBigTransaction) (hhi : off + (n - tot) ≤ hi * BSIZE)
    (htot : tot ≤ n) (hf : n - tot ≤ fuel) (hmax : off + (n - tot) ≤ MAXFILE * BSIZE) :
    wp E (writeLoop sb k src n fuel tot off va) s fun r s' => ∃ m s₁,
      r = (tot + m, off + m) ∧ tot + m ≤ n ∧ (m = 0 ∨ (off + m) % BSIZE = 0 ∨ tot + m = n) ∧
      (∀ j < m, src.Readable (va + j)) ∧
      Puts sb k off (Bytes.slice src.byte va m) s s₁ ∧
      Last sb k src (off + m) (va + m) (n - (tot + m)) s₁ s' := by
  induction fuel generalizing s tot off va with
  | zero =>
    exact ⟨0, s, rfl, htot, .inl rfl, nofun, .nil, .done (by omega)⟩
  | succ fuel ih =>
    unfold writeLoop
    refine wp_ite.mpr ⟨fun hlt => ?_, fun hge =>
      ⟨0, s, rfl, htot, .inl rfl, nofun, .nil, .done (by omega)⟩⟩
    have hbn : off / BSIZE < MAXFILE := Nat.div_lt_of_lt_mul (by rw [Nat.mul_comm]; omega)
    have hmod : off % BSIZE < BSIZE := Nat.mod_lt _ (by decide)
    have hlt' : off / BSIZE < hi := (Nat.div_lt_iff_lt_mul (by decide)).mpr (by omega)
    refine wp.bind (bmap_spec w inv lo hheld hout (cr.mono ?_) hE hbn) ?_
    · rw [writeCost, Finset.sum_eq_sum_Ico_succ_bot hlt']
      omega
    rintro a s₁ ⟨rfl, hg, hsame, hfree⟩
    obtain ⟨inv₁, l₁, f₁⟩ := edits_spec w inv lo hg.edits
    have cr₁ := hg.cost (c := 0) w inv lo hlt' cr
    refine wp_ite.mpr ⟨fun h0 => ?_, fun h0 => ?_⟩
    · exact ⟨0, s, rfl, htot, .inl rfl, nofun, .nil, .full (by omega) hg hsame h0 (hfree h0)⟩
    · refine wp_bind.mpr (wp_bread (by rw [f₁.held, hheld]; exact List.not_mem_nil) ?_)
      generalize hm : min (n - tot) (BSIZE - off % BSIZE) = m
      obtain ⟨hall, hpart⟩ := eitherCopyin_spec src va m
      refine wp_bind.mpr (wp_setData.mpr ?_)
      rcases readable_or_first src va m with hr | ⟨t, ht, hr, hno⟩
      · -- the chunk is copied
        rw [hall hr]
        refine wp_ite.mpr ⟨fun _ => ?_, fun h => absurd rfl h⟩
        refine wp_bind.mpr (wp_logWrite (fun h => hE (cr₁.full h))
          (by simpa [f₁.outstanding] using hout) ?_)
        refine wp_bind.mpr (wp_brelse.mpr ?_)
        rw [St.unhold_log_setBlk_hold]
        have e := edits_storeLog h0 inv₁ l₁ (Bytes.slice src.byte va m)
        obtain ⟨inv₂, l₂, f₂⟩ := edits_spec w inv₁ l₁ e
        have cr₂ := storeLog_cost (c := 0) inv₁ l₁ hlt' h0 (Bytes.slice src.byte va m)
          (by rw [Bytes.length_slice]; omega) cr₁
        rw [Bytes.length_slice] at cr₂
        refine (ih inv₂ l₂ (f₂.held.trans (f₁.held.trans hheld))
          (by rw [f₂.outstanding, f₁.outstanding]; exact hout) (tot + m) (off + m) (va + m) cr₂
          (by omega) (by omega) (by omega) (by omega)).mono ?_
        rintro r s' ⟨m', s₂, hr', hle, halign, hread, hput, hlast⟩
        refine ⟨m + m', s₂, ?_, by omega, ?_, fun j hj => ?_, ?_, ?_⟩
        · rw [hr', Nat.add_assoc, Nat.add_assoc]
        · rw [← Nat.add_assoc, ← Nat.add_assoc]
          rcases halign with rfl | h | h
          · -- one chunk: it ends with the block or with the range
            rw [Nat.add_zero, Nat.add_zero]
            rcases Nat.lt_or_ge (n - tot) (BSIZE - off % BSIZE) with hlt' | hge'
            · exact .inr (.inr (by omega))
            · refine .inr (.inl ?_)
              simp only [BSIZE] at *
              omega
          · exact .inr (.inl h)
          · exact .inr (.inr h)
        · rcases Nat.lt_or_ge j m with hjm | hjm
          · exact hr j hjm
          · have := hread (j - m) (by omega)
            rwa [Nat.add_assoc, Nat.add_sub_cancel' hjm] at this
        · rw [Bytes.slice_add]
          refine .cons hg hsame h0 (by rw [Bytes.length_slice]; omega)
            (by rw [Bytes.length_slice]; omega) ?_
          rw [Bytes.length_slice]
          exact hput
        · rw [← Nat.add_assoc, ← Nat.add_assoc, ← Nat.add_assoc]
          exact hlast
      · -- the copy fails at byte `t` of the chunk
        rw [hpart t ht hr hno]
        refine wp_ite.mpr ⟨fun h => (Bool.false_ne_true h).elim, fun _ => ?_⟩
        refine wp_bind.mpr (wp_brelse.mpr ?_)
        rw [St.unhold_setBlk_hold]
        exact ⟨0, s, rfl, htot, .inl rfl, nofun, .nil,
          .fault hg hsame h0 (by rw [Nat.add_zero, Nat.add_zero]; omega) hr hno⟩

end Loop

/-! ## `writei` -/

/-- The file in table entry `k` reaches to byte `off` at least. -/
def St.setSize (s : St) (k off : Nat) : St :=
  s.setInode k { s.itable k with size := max (s.itable k).size off }

/-- The call is not refused. -/
def Accepts (size off n : Nat) : Prop := off ≤ size ∧ off + n ≤ MAXFILE * BSIZE

/-- A call of `writei` that is not refused, from `s` to `s'`: it writes `m` bytes, ends, and stores
the inode. -/
structure Wrote (sb : Superblock) (k : Nat) (src : Src) (off va n m : Nat) (s s₁ s₂ s' : St) : Prop where
  le : m ≤ n
  aligned : m = 0 ∨ (off + m) % BSIZE = 0 ∨ m = n
  readable : ∀ j < m, src.Readable (va + j)
  puts : Puts sb k off (Bytes.slice src.byte va m) s s₁
  last : Last sb k src (off + m) (va + m) (n - m) s₁ s₂
  eq : s' = (s₂.setSize k (off + m)).iupdate sb k

section Writei

variable {sb : Superblock} {E : Panic → Prop} {s s₁ s₂ s' : St} {k : Nat}

variable {src : Src} {off va n m : Nat} {x : List Nat}

theorem Wrote.edits (h : Wrote sb k src off va n m s s₁ s₂ s')
    (w : sb.Wf) (inv : Inv sb s) (lo : Loaded s k) : Edits sb k s s₂ :=
  (h.puts.edits w inv lo).trans h.last.edits

theorem writei_spec {s₀ : St} {c : Nat} (w : sb.Wf) (inv : Inv sb s) (lo : Loaded s k)
    (hheld : s.held = []) (hout : 1 ≤ s.outstanding) (src : Src) (va off n : Nat)
    (cr : Credit s₀ c (writeCost s₀ s k (off / BSIZE) (endBlock off n)) s)
    (hE : LOGBLOCKS ≤ s₀.lh.length + c → E .tooBigTransaction) (hn : n < U32) :
    wp E (writei sb k src va off n) s fun r s' =>
      (¬ Accepts (s.itable k).size off n ∧ r = none ∧ s' = s) ∨
      (Accepts (s.itable k).size off n ∧
        ∃ m s₁ s₂, r = some m ∧ Wrote sb k src off va n m s s₁ s₂ s') := by
  have hsize := (inv.table.wf lo.live lo.valid).size_lt
  have hmaxfile : MAXFILE * BSIZE < U32 := by decide
  refine wp_bind.mpr (wp_getInode.mpr (wp_ite.mpr ⟨fun h => ?_, fun h => ?_⟩))
  · refine .inl ⟨fun hacc => ?_, rfl, rfl⟩
    obtain ⟨h1, h2⟩ := hacc
    rw [Nat.mod_eq_of_lt (by omega)] at h
    omega
  · obtain ⟨h1, h2⟩ := not_or.mp h
    have hlt : off + n < U32 := by
      simp only [U32] at *
      omega
    rw [Nat.mod_eq_of_lt hlt]
    refine wp_ite.mpr ⟨fun h3 => .inl ⟨fun hacc => ?_, rfl, rfl⟩, fun h3 => ?_⟩
    · obtain ⟨-, h4⟩ := hacc
      omega
    · refine wp.bind (writeLoop_spec w inv lo hheld hout src n n 0 off va _ cr hE
        (le_endBlock off n) (Nat.zero_le _) (Nat.sub_le _ _) (by omega)) ?_
      rintro r s₂ ⟨m, s₁, rfl, hle, halign, hread, hput, hlast⟩
      rw [Nat.zero_add] at hle halign hlast
      have hed : Edits sb k s s₂ := (hput.edits w inv lo).trans hlast.edits
      obtain ⟨inv₂, l₂, f⟩ := edits_spec w inv lo hed
      obtain ⟨inv₁, l₁, -⟩ := edits_spec w inv lo (hput.edits w inv lo)
      have hend := le_endBlock off n
      have cr₁ := hput.cost (c := 0) w inv lo (by rw [Bytes.length_slice]; omega) cr
      rw [Bytes.length_slice] at cr₁
      have cr₂ := hlast.cost w inv₁ l₁ (by omega) cr₁
      refine wp_bind.mpr (wp_getInode.mpr (wp_bind.mpr ?_))
      have hset : wp E (if (s₂.itable k).size < off + m
          then setInode k { s₂.itable k with size := off + m } else pure ()) s₂
          fun _ s₃ => s₃ = s₂.setSize k (off + m) := by
        refine wp_ite.mpr ⟨fun hlt' => ?_, fun hge => ?_⟩
        · show s₂.setInode k _ = _
          rw [St.setSize, Nat.max_eq_right (Nat.le_of_lt hlt')]
        · show s₂ = s₂.setSize k (off + m)
          rw [St.setSize, Nat.max_eq_left (Nat.le_of_not_lt hge)]
          simp [St.setInode]
      refine hset.mono ?_
      rintro _ s₃ rfl
      refine wp.bind (iupdate_spec ?_ ?_ fun h => hE (cr₂.full h)) ?_
      · have : (s₂.setSize k (off + m)).held = [] := f.held.trans hheld
        rw [this]
        exact List.not_mem_nil
      · have : (s₂.setSize k (off + m)).outstanding = s.outstanding := f.outstanding
        rw [this]
        exact hout
      · rintro _ s' rfl
        exact .inr ⟨⟨Nat.le_of_not_lt h1, Nat.le_of_not_lt h3⟩, m, s₁, s₂, by rw [Nat.zero_add],
          hle, halign, hread, hput, hlast, rfl⟩

theorem Wrote.cost {s₀ : St} {c c' : Nat} (h : Wrote sb k src off va n m s s₁ s₂ s') (w : sb.Wf) (inv : Inv sb s)
    (lo : Loaded s k) (cr : Credit s₀ c (writeCost s₀ s k (off / BSIZE) (endBlock off n) + (c' + 1)) s) :
    Credit s₀ c c' s' := by
  have hle := h.le
  have hend : off + n ≤ endBlock off n * BSIZE := le_endBlock off n
  obtain ⟨inv₁, l₁, -⟩ := edits_spec w inv lo (h.puts.edits w inv lo)
  have cr₁ := h.puts.cost w inv lo (by rw [Bytes.length_slice]; omega) cr
  rw [Bytes.length_slice] at cr₁
  have cr₂ := h.last.cost w inv₁ l₁ (by omega) cr₁
  rw [h.eq]
  exact ((cr₂.congr rfl rfl : Credit s₀ c (c' + 1) (s₂.setSize k (off + m))).setBlk _ _).log _

/-- The file's new size, in the table and on disk. -/
theorem setSize_iupdate (w : sb.Wf) (inv : Inv sb s) (lo : Loaded s k)
    (hoff : off ≤ MAXFILE * BSIZE) (hs : Synced sb s (k :: x)) :
    Inv sb ((s.setSize k off).iupdate sb k) ∧ Synced sb ((s.setSize k off).iupdate sb k) x ∧
    ((s.setSize k off).iupdate sb k).cur sb = Function.update (s.cur sb) (s.itable k).inum
      { s.cur sb (s.itable k).inum with size := max (s.itable k).size off } ∧
    (∀ i σ a, Ref ((s.setSize k off).iupdate sb k).blk (((s.setSize k off).iupdate sb k).cur sb) i σ a ↔
      Ref s.blk (s.cur sb) i σ a) := by
  have hwf := inv.table.wf lo.live lo.valid
  have hmaxfile : MAXFILE * BSIZE < U32 := by decide
  rw [lo.cur inv.table]
  exact setInode_iupdate w inv lo { s.itable k with size := max (s.itable k).size off } rfl lo.live.2
    lo.valid { hwf with size_lt := Nat.max_lt.mpr ⟨hwf.size_lt, by omega⟩ } Iff.rfl rfl hs

section

variable (h : Wrote sb k src off va n m s s₁ s₂ s') (w : sb.Wf) (inv : Inv sb s) (lo : Loaded s k)
  (hacc : Accepts (s.itable k).size off n)
include h w inv lo hacc

/-- The state that a call of `writei` leaves: the inodes and the references are those after the loop,
but for the new size. -/
theorem Wrote.keeps (hs : Synced sb s (k :: x)) :
    Inv sb s' ∧ Synced sb s' x ∧
    s'.cur sb = Function.update (s₂.cur sb) (s.itable k).inum
      { s₂.cur sb (s.itable k).inum with size := max (s.itable k).size (off + m) } ∧
    ∀ i σ a, Ref s'.blk (s'.cur sb) i σ a ↔ Ref s₂.blk (s₂.cur sb) i σ a := by
  obtain ⟨inv₂, l₂, f₂⟩ := edits_spec w inv lo (h.edits w inv lo)
  have hle : off + m ≤ MAXFILE * BSIZE := Nat.le_trans (Nat.add_le_add_left h.le _) hacc.2
  have hs₂ : Synced sb s₂ (k :: x) := by
    intro j hj hv hx
    have hjk : j ≠ k := fun he => hx (he ▸ List.mem_cons_self)
    have he := f₂.other j hjk
    have hj' : s.Live j := ⟨hj.1, by rw [← he]; exact hj.2⟩
    rw [he] at hv ⊢
    rw [f₂.disk _ (inv.table.inum_lt hj' hv)]
    exact hs j hj' hv hx
  have hsize : (s₂.itable k).size = (s.itable k).size := by
    obtain ⟨a, ha⟩ := f₂.entry
    rw [ha]
  have hset := setSize_iupdate w inv₂ l₂ hle hs₂
  rw [← h.eq, f₂.inum, hsize] at hset
  exact hset

/-- A block below the new size is there when the size is set. -/
theorem Wrote.filled {bn : Nat} (hold : bn * BSIZE < (s.itable k).size → s.blockAt k bn ≠ 0)
    (hbn : bn * BSIZE < max (s.itable k).size (off + m)) : s₂.blockAt k bn ≠ 0 := by
  obtain ⟨inv₁, l₁, f₁⟩ := edits_spec w inv lo (h.puts.edits w inv lo)
  obtain ⟨inv₂, l₂, f⟩ := edits_spec w inv₁ l₁ h.last.edits
  have h₁ : s₁.blockAt k bn ≠ 0 := by
    rcases Nat.lt_or_ge (bn * BSIZE) (s.itable k).size with hb | hb
    · rw [f₁.blockAt inv.table lo inv₁.table l₁ (hold hb)]
      exact hold hb
    · -- past the old end: one of the chunks written
      have hoff := hacc.1
      have hpre : s₁.blockAt k (bn * BSIZE / BSIZE) ≠ 0 :=
        h.puts.present w inv lo (by omega) (by rw [Bytes.length_slice]; omega)
      rwa [Nat.mul_div_cancel _ (by decide : 0 < BSIZE)] at hpre
  rwa [f.blockAt inv₁.table l₁ inv₂.table l₂ h₁]

/-- Every block below the new size is there. -/
theorem Wrote.noHoles (hs : Synced sb s (k :: x)) (hno : NoHoles sb s) : NoHoles sb s' := by
  obtain ⟨-, -, hcur, href⟩ := h.keeps w inv lo hacc hs
  obtain ⟨inv₂, l₂, f₂⟩ := edits_spec w inv lo (h.edits w inv lo)
  refine noHoles_iff_ref.mpr fun i bn ht hlt => ?_
  by_cases hi : i = (s.itable k).inum
  · subst hi
    rw [hcur, Function.update_self] at hlt
    have hr := l₂.ref_blockAt inv₂.table (h.filled w inv lo hacc (hno.loaded inv.table lo bn) hlt)
    rw [f₂.inum] at hr
    exact ⟨_, (href _ _ _).mpr hr⟩
  · have hc : s'.cur sb i = s.cur sb i := by
      rw [hcur, Function.update_of_ne hi]
      exact f₂.cur_other i hi
    rw [hc] at ht hlt
    obtain ⟨a, hr⟩ := noHoles_iff_ref.mp hno i bn ht hlt
    exact ⟨a, (href _ _ _).mpr (f₂.keep hr)⟩

end

end Writei

end Xv6.Fs
