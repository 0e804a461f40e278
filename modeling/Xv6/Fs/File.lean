import Xv6.Fs.Fault

/-!
# Files as byte arrays

`Stored sb k off l s s'`: the bytes `l` are written at byte `off` of the file in table entry `k`, the
file is as long as it was or as they make it, and no other byte of a file has changed.
`writei_stores` is the byte-array specification of `writei`, and of `readi` after it.
-/

namespace Xv6.Fs

open Seq Seq.M

/-- The bytes `l` are written at byte `off` of the file in table entry `k`. -/
structure Stored (sb : Superblock) (k off : Nat) (l : List UInt8) (s s' : St) : Prop where
  size : (s'.itable k).size = max (s.itable k).size (off + l.length)
  new : ∀ j (h : j < l.length), s'.byteAt k (off + j) = l[j]
  old : ∀ x < (s.itable k).size, x < off ∨ off + l.length ≤ x → s'.byteAt k x = s.byteAt k x
  inode : ∀ i, i ≠ (s.itable k).inum → s'.cur sb i = s.cur sb i
  other : ∀ i x, i ≠ (s.itable k).inum → (s.cur sb i).type ≠ 0 →
    (s.cur sb i).blockAt s.blk (x / BSIZE) ≠ 0 →
    (s'.cur sb i).byteAt s'.blk x = (s.cur sb i).byteAt s.blk x

section File

variable {sb : Superblock} {E : Panic → Prop} {s s₁ s₂ s' : St} {k : Nat} {src : Src} {off va n m : Nat}

/-- A write of a source that can be read ends with all of it, or with a full disk. -/
theorem Last.ends (h : Last sb k src off va n s s') (w : sb.Wf) (inv : Inv sb s) (lo : Loaded s k)
    (hread : ∀ j < n, src.Readable (va + j)) : Change sb k off 0 s s' ∧ (0 < n → NoFree sb s') := by
  cases h with
  | done h0 => exact ⟨Change.refl inv lo, fun h => absurd h0 (Nat.ne_of_gt h)⟩
  | full _ hg _ _ hfree => exact ⟨hg.change w inv lo, fun _ => hfree⟩
  | @fault _ t _ _ _ ht _ hno => exact absurd (hread t (by omega)) hno

section

variable (h : Wrote sb k src off va n m s s₁ s₂ s') (w : sb.Wf)
include h w

/-- The whole call, up to the inode's way to the disk. -/
theorem Wrote.change (inv : Inv sb s) (lo : Loaded s k) (hread : ∀ j < n, src.Readable (va + j)) :
    Change sb k off m s s₂ ∧ (∀ j < m, s₂.byteAt k (off + j) = src.byte (va + j)) ∧ (m < n → NoFree sb s₂) := by
  have hle := h.le
  have c₁ := h.puts.change w inv lo
  rw [Bytes.length_slice] at c₁
  obtain ⟨c₂, hfree⟩ := h.last.ends w c₁.inv c₁.loaded fun j hj => by
    rw [Nat.add_assoc]
    exact hread _ (by omega)
  refine ⟨Change.trans inv lo c₁ c₂, fun j hj => ?_, fun hlt => hfree (by omega)⟩
  have hb := h.puts.bytes w inv lo (j := j) (by rw [Bytes.length_slice]; exact hj)
  rw [Bytes.getElem_slice] at hb
  rw [← hb]
  refine c₂.effect.outside (.inl (by omega)) ?_
  exact h.puts.present w inv lo (Nat.le_add_right _ _) (by rw [Bytes.length_slice]; omega)

/-- The inode's entry after the call. -/
theorem Wrote.itable (inv : Inv sb s)
    (lo : Loaded s k) :
    (∃ a, s'.itable k = { s.itable k with addrs := a, size := max (s.itable k).size (off + m) }) ∧
    ∀ j, j ≠ k → s'.itable j = s.itable j := by
  obtain ⟨-, -, f₂⟩ := edits_spec w inv lo (h.edits w inv lo)
  obtain ⟨a, ha⟩ := f₂.entry
  refine ⟨⟨a, ?_⟩, fun j hj => ?_⟩
  · rw [h.eq]
    simp [St.setSize, ha]
  · rw [h.eq]
    simp [St.setSize, hj, f₂.other j hj]

/-- The state after the call is one between two operations. -/
theorem Wrote.good (g : Good sb s)
    (lo : Loaded s k) (hacc : Accepts (s.itable k).size off n) : Good sb s' ∧ Loaded s' k := by
  have hs : Synced sb s [k] := fun j hj hv _ => g.synced j hj hv List.not_mem_nil
  obtain ⟨inv', hs', -⟩ := h.keeps w g.inv lo hacc hs
  obtain ⟨-, -, f₂⟩ := edits_spec w g.inv lo (h.edits w g.inv lo)
  obtain ⟨⟨a, ha⟩, hj⟩ := h.itable w g.inv lo
  have lo' : Loaded s' k := by
    refine ⟨⟨lo.live.1, ?_⟩, ?_, ?_⟩
    · rw [ha]
      exact lo.live.2
    · rw [ha]
      exact lo.valid
    · rw [ha]
      exact lo.type
  refine ⟨⟨inv', hs', fun {j} hl hv => ?_, ?_⟩, lo'⟩
  · by_cases hjk : j = k
    · rw [hjk]
      exact lo'.type
    · have hl' : s.Live j := ⟨hl.1, by rw [← hj j hjk]; exact hl.2⟩
      rw [hj j hjk] at hv ⊢
      exact g.typed hl' hv
  · rw [h.eq]
    exact f₂.held.trans g.held

/-- Every block below the file's new size is there. -/
theorem Wrote.noHole (inv : Inv sb s)
    (lo : Loaded s k) (hacc : Accepts (s.itable k).size off n) (hno : s.NoHole k) : s'.NoHole k := by
  obtain ⟨inv₂, l₂, -⟩ := edits_spec w inv lo (h.edits w inv lo)
  obtain ⟨⟨a, ha⟩, -⟩ := h.itable w inv lo
  intro bn hbn
  show s'.blockAt k bn ≠ 0
  rw [ha] at hbn
  rw [h.eq, finish_blockAt w inv₂ l₂]
  exact h.filled w inv lo hacc (hno bn) hbn

/-- A write of bytes that the file has already needs no block. -/
theorem Wrote.inside (inv : Inv sb s) (lo : Loaded s k) (hno : s.NoHole k)
    (hread : ∀ j < n, src.Readable (va + j)) (hlt : m < n) : (s.itable k).size < off + n := by
  by_contra hsize
  have h0 : s.blockAt k ((off + m) / BSIZE) ≠ 0 :=
    hno _ (Nat.lt_of_le_of_lt (Nat.div_mul_le_self (off + m) BSIZE) (by omega))
  obtain ⟨inv₂, l₂, f₂⟩ := edits_spec w inv lo (h.edits w inv lo)
  have h₂ := f₂.blockAt inv.table lo inv₂.table l₂ h0
  cases h.last with
  | done hz => omega
  | full _ _ _ hz => exact h0 (h₂.symm.trans hz)
  | @fault _ t _ _ _ ht _ hbad =>
    refine hbad ?_
    rw [Nat.add_assoc]
    exact hread _ (by omega)

/-- What a call with a source that can be read has stored. -/
theorem Wrote.stored (g : Good sb s) (lo : Loaded s k) (hacc : Accepts (s.itable k).size off n)
    (hno : s.NoHole k) (hread : ∀ j < n, src.Readable (va + j)) :
    Stored sb k off (Bytes.slice src.byte va m) s s' ∧ (m < n → NoFree sb s') := by
  have inv := g.inv
  have hs : Synced sb s [k] := fun j hj hv _ => g.synced j hj hv List.not_mem_nil
  obtain ⟨c, hnew, hfree⟩ := h.change w inv lo hread
  obtain ⟨-, -, hcur, href⟩ := h.keeps w inv lo hacc hs
  obtain ⟨⟨a, ha⟩, -⟩ := h.itable w inv lo
  have hnum := lo.inum_lt inv.table
  have hinum : (s₂.itable k).inum = (s.itable k).inum := c.frame.inum
  have hblk : ∀ b, b ≠ sb.iblock (s.itable k).inum → s'.blk b = s₂.blk b := fun b hb => by
    rw [h.eq]
    exact finish_blk_of_ne (by rw [hinum]; exact hb) _
  have hbyte : ∀ x, s₂.blockAt k (x / BSIZE) ≠ 0 → s'.byteAt k x = s₂.byteAt k x := fun x hx => by
    rw [h.eq]
    exact finish_byteAt w c.inv c.loaded hx _
  have hother : ∀ i, i ≠ (s.itable k).inum → s'.cur sb i = s.cur sb i := fun i hi => by
    rw [hcur, Function.update_of_ne hi]
    exact c.frame.cur_other i hi
  refine ⟨⟨?_, fun j hj => ?_, fun x hx hout => ?_, hother, fun i x hi ht h0 => ?_⟩, fun hlt b hb => ?_⟩
  · rw [ha, Bytes.length_slice]
  · rw [Bytes.length_slice] at hj
    rw [Bytes.getElem_slice, ← hnew j hj]
    obtain ⟨inv₁, l₁, -⟩ := edits_spec w inv lo (h.puts.edits w inv lo)
    have hpre : s₁.blockAt k ((off + j) / BSIZE) ≠ 0 :=
      h.puts.present w inv lo (Nat.le_add_right _ _) (by rw [Bytes.length_slice]; omega)
    obtain ⟨-, -, f⟩ := edits_spec w inv₁ l₁ h.last.edits
    refine hbyte _ ?_
    rwa [f.blockAt inv₁.table l₁ c.inv.table c.loaded hpre]
  · rw [Bytes.length_slice] at hout
    have hx0 : s.blockAt k (x / BSIZE) ≠ 0 :=
      hno _ (Nat.lt_of_le_of_lt (Nat.div_mul_le_self x BSIZE) hx)
    rw [hbyte x, c.effect.outside hout hx0]
    rwa [c.frame.blockAt inv.table lo c.inv.table c.loaded hx0]
  · -- a block of another file is not touched
    have hr : Ref s.blk (s.cur sb) i (.of (x / BSIZE)) ((s.cur sb i).blockAt s.blk (x / BSIZE)) :=
      ⟨ht, rfl, h0⟩
    have hr' := (href _ _ _).mpr (c.frame.keep hr)
    have hat : (s'.cur sb i).blockAt s'.blk (x / BSIZE) = (s.cur sb i).blockAt s.blk (x / BSIZE) := hr'.2.1
    show s'.blk ((s'.cur sb i).blockAt s'.blk (x / BSIZE)) _ = _
    rw [hat, hblk _ (w.data_ne_iblock (inv.own.data hr) hnum), c.effect.other hi hr]
    rfl
  · have hne : sb.bblock b ≠ sb.iblock (s.itable k).inum := (w.iblock_ne_bblock hnum).symm
    rw [bitAt, hblk _ hne]
    exact hfree hlt b hb

end

/-- `writei` and `readi` on a file without holes, with a source that can be read. The only stop is
that of `log_write`, when the log has no room for the blocks that have to be logged. -/
theorem writei_stores (w : sb.Wf) (g : Good sb s) (lo : Loaded s k) (hout : 1 ≤ s.outstanding)
    (hno : s.NoHole k) (hoff : off ≤ (s.itable k).size) (hn : n < U32)
    (hread : ∀ j < n, src.Readable (va + j)) :
    wp (fun e => e = .tooBigTransaction ∧
        LOGBLOCKS ≤ s.lh.length + writeCost s s k (off / BSIZE) (endBlock off n))
      (writei sb k src va off n) s fun r s' =>
      (r = none ↔ U32 ≤ off + n ∨ MAXFILE * BSIZE < off + n) ∧ (r = none → s' = s) ∧
      (∀ tot, r = some tot → tot ≤ n ∧ (tot < n → NoFree sb s') ∧
        Stored sb k off (Bytes.slice src.byte va tot) s s') ∧
      ∀ dst a o c, o ≤ (s'.itable k).size → o + c < U32 → (∀ j < c, dst.Writable (a + j)) →
        readi sb k dst a o c s' = .ok ((some (min (o + c) (s'.itable k).size - o),
          Bytes.slice (s'.byteAt k) o (min (o + c) (s'.itable k).size - o)), s') := by
  have hmaxfile : MAXFILE * BSIZE < U32 := by decide
  have hreads : ∀ t : St, t.held = [] → t.NoHole k → ∀ dst a o c, o ≤ (t.itable k).size →
      o + c < U32 → (∀ j < c, dst.Writable (a + j)) →
      readi sb k dst a o c t = .ok ((some (min (o + c) (t.itable k).size - o),
        Bytes.slice (t.byteAt k) o (min (o + c) (t.itable k).size - o)), t) := by
    intro t hheld hnot dst a o c ho hoc hw
    have hlen : readLen (t.itable k).size o c = min (o + c) (t.itable k).size - o := by
      rw [readLen, if_neg (by rw [Nat.mod_eq_of_lt hoc]; omega)]
      omega
    have hr : wp (fun _ => False) (readi sb k dst a o c) t _ := readi_writable hheld hnot dst a o c hw
    obtain ⟨r, t', hrun, rfl, h1, h2⟩ := hr.returns
    rw [hrun, ← hlen, ← h1, ← h2]
  refine (writei_spec w g.inv lo g.held hout src va off n (Credit.start s _)
    (fun h => ⟨rfl, h⟩) hn).mono ?_
  rintro r s' (⟨hacc, rfl, rfl⟩ | ⟨hacc, m, s₁, s₂, rfl, h⟩)
  · refine ⟨⟨fun _ => ?_, fun _ => rfl⟩, fun _ => rfl, by simp, hreads _ g.held hno⟩
    by_contra hnot
    exact hacc ⟨hoff, by omega⟩
  · obtain ⟨g', lo'⟩ := h.good w g lo hacc
    obtain ⟨hst, hfree⟩ := h.stored w g lo hacc hno hread
    refine ⟨⟨by simp, fun hbad => ?_⟩, by simp, fun tot htot => ?_,
      hreads _ g'.held (h.noHole w g.inv lo hacc hno)⟩
    · have := hacc.2
      omega
    · cases htot
      exact ⟨h.le, hfree, hst⟩

/-- The two bytes of the file of a small disk are replaced. -/
theorem writei_stores_onePage :
    ∃ s', writei smallSb 0 onePage 0 0 2 small = .ok (some 2, s') ∧
      Stored smallSb 0 0 (Bytes.slice onePage.byte 0 2) small s' := by
  have hok : ((writei smallSb 0 onePage 0 0 2 small).toOption.map Prod.fst) = some (some 2) := by
    decide +kernel
  have hread : ∀ j < 2, onePage.Readable (0 + j) := by
    intro j hj
    interval_cases j <;> rfl
  have hspec : wp _ (writei smallSb 0 onePage 0 0 2) small _ := writei_stores smallSb_wf
    small_whole.toGood small_loaded (by decide) (small_whole.noHole.loaded small_whole.inv.table small_loaded)
      (Nat.zero_le _) (by decide)
    hread
  cases hrun : writei smallSb 0 onePage 0 0 2 small with
  | error e =>
    rw [hrun] at hok
    cases hok
  | ok r =>
    rw [hrun] at hok
    have hr : r.1 = some 2 := by simpa [Except.toOption] using hok
    obtain ⟨r, s'⟩ := r
    cases hr
    exact ⟨s', rfl, ((hspec.ok hrun).2.2.1 2 rfl).2.2⟩

end File

end Xv6.Fs
