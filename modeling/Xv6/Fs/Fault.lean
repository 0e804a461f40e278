import Xv6.Fs.Content

/-!
# A copy that fails

`copyin` stores in the cached block the bytes in front of the first page that it cannot read, and
`writei` then neither counts nor logs them. So a failed copy is invisible exactly when those bytes
are what the file has there already, or when the file has no block there yet: a fresh block is
logged and lies past the end of the file (`writei_unharmed_iff`).
-/

namespace Xv6.Fs

open Seq Seq.M

/-- A write of `tot` bytes at byte `off` has changed nothing else: `readi` returns the same bytes
outside of `[off, off + tot)`, and each buffer that differs was passed to `log_write`. -/
structure Unharmed (sb : Superblock) (k off tot : Nat) (s s' : St) : Prop where
  file : ∀ o c, ∃ l l', readi sb k .kernel 0 o c s = .ok ((some l.length, l), s) ∧
    readi sb k .kernel 0 o c s' = .ok ((some l'.length, l'), s') ∧
    ∀ j, o + j < off ∨ off + tot ≤ o + j → l'[j]? = l[j]?
  cache : ∀ b, s'.blk b ≠ s.blk b → b ∈ loggedSince s s'

/-- If `t` is the first byte of the source that cannot be read, the bytes in front of it for the same
block are those of the file, or the file has no such block. -/
def Harmless (s : St) (k : Nat) (src : Src) (off va n : Nat) : Prop :=
  ∀ t < n, (∀ j < t, src.Readable (va + j)) → ¬ src.Readable (va + t) →
    s.blockAt k ((off + t) / BSIZE) = 0 ∨
    ∀ j < t, (off + j) / BSIZE = (off + t) / BSIZE → src.byte (va + j) = s.byteAt k (off + j)

section Fault

variable {sb : Superblock} {s s₁ s₂ s₃ s' : St} {k : Nat} {src : Src} {off va n m : Nat}

/-- A call of `writei` up to the copy that fails, if one does. -/
theorem Wrote.clean (h : Wrote sb k src off va n m s s₁ s₂ s') (w : sb.Wf) (inv : Inv sb s)
    (lo : Loaded s k) : ∃ s₃, Change sb k off m s s₃ ∧
      ((s₂ = s₃ ∧ ∀ t < n, (∀ j < t, src.Readable (va + j)) → ¬ src.Readable (va + t) →
        s.blockAt k ((off + m) / BSIZE) = 0) ∨
      ∃ t, t < min (n - m) (BSIZE - (off + m) % BSIZE) ∧ (∀ j < m + t, src.Readable (va + j)) ∧
        ¬ src.Readable (va + (m + t)) ∧ s₃.blockAt k ((off + m) / BSIZE) ≠ 0 ∧
        s₂ = s₃.store k (off + m) (Bytes.slice src.byte (va + m) t)) := by
  have c₁ := h.puts.change w inv lo
  rw [Bytes.length_slice] at c₁
  have kept : ∀ {bn}, s.blockAt k bn ≠ 0 → s₁.blockAt k bn ≠ 0 := fun h0 => by
    rwa [c₁.frame.blockAt inv.table lo c₁.inv.table c₁.loaded h0]
  have hread := h.readable
  cases h.last with
  | done h0 =>
    refine ⟨s₁, c₁, .inl ⟨rfl, fun t ht _ hno => absurd (hread t ?_) hno⟩⟩
    have := h.le
    omega
  | full hpos hg hsame h0 =>
    refine ⟨s₂, ?_, .inl ⟨rfl, fun t _ _ _ => ?_⟩⟩
    · have c₂ : Change sb k (off + m) 0 s₁ s₂ := hg.change w c₁.inv c₁.loaded
      exact Change.trans inv lo c₁ c₂
    · by_contra hne
      have hs := hsame (kept hne)
      subst hs
      exact kept hne h0
  | @fault s₃ t hg _ h0 ht hr hno =>
    have c₂ : Change sb k (off + m) 0 s₁ s₃ := hg.change w c₁.inv c₁.loaded
    refine ⟨s₃, Change.trans inv lo c₁ c₂, .inr ⟨t, ht, fun j hj => ?_, ?_, h0, rfl⟩⟩
    · rcases Nat.lt_or_ge j m with hjm | hjm
      · exact hread j hjm
      · have := hr (j - m) (by omega)
        rwa [Nat.add_assoc, Nat.add_sub_cancel' hjm] at this
    · rwa [← Nat.add_assoc]

/-! ## Reading the file again -/

/-- The bytes that `readi` returns in two states, where the files agree outside of a range. -/
theorem reads_agree (g : s.held = []) (hno : s.NoHole k) (g' : s'.held = []) (hno' : s'.NoHole k)
    (hoff : off ≤ (s.itable k).size) (hsize : (s'.itable k).size = max (s.itable k).size (off + m))
    (hb : ∀ x < (s.itable k).size, x < off ∨ off + m ≤ x → s'.byteAt k x = s.byteAt k x) (o c : Nat) :
    ∃ l l', readi sb k .kernel 0 o c s = .ok ((some l.length, l), s) ∧
      readi sb k .kernel 0 o c s' = .ok ((some l'.length, l'), s') ∧
      ∀ j, o + j < off ∨ off + m ≤ o + j → l'[j]? = l[j]? := by
  have hw : wp (fun _ => False) (readi sb k .kernel 0 o c) s _ := readi_kernel g hno 0 o c
  have hw' : wp (fun _ => False) (readi sb k .kernel 0 o c) s' _ := readi_kernel g' hno' 0 o c
  obtain ⟨r, t, hr, rfl, h1, h2⟩ := hw.returns
  obtain ⟨r', t', hr', rfl, h1', h2'⟩ := hw'.returns
  refine ⟨r.2, r'.2, ?_, ?_, fun j hj => ?_⟩
  · rw [hr, h2, Bytes.length_slice, ← h1, ← h2]
  · rw [hr', h2', Bytes.length_slice, ← h1', ← h2']
  · have hlt : j < readLen (max (t.itable k).size (off + m)) o c ↔ j < readLen (t.itable k).size o c := by
      rw [lt_readLen, lt_readLen]
      omega
    rw [h2, h2', hsize, Bytes.getElem?_slice, Bytes.getElem?_slice]
    by_cases hjl : j < readLen (t.itable k).size o c
    · rw [if_pos hjl, if_pos (hlt.mpr hjl), hb (o + j) (lt_readLen.mp hjl).2.2 hj]
    · rw [if_neg hjl, if_neg fun h => hjl (hlt.mp h)]

/-! ## The bytes of the copy that fails -/

/-- In the other blocks of the contents nothing is stored. -/
theorem store_byteAt_of_ne (inv : Inv sb s) (lo : Loaded s k) (h0 : s.blockAt k (off / BSIZE) ≠ 0)
    (d : List UInt8) {x : Nat} (hx : x / BSIZE ≠ off / BSIZE) (hx0 : s.blockAt k (x / BSIZE) ≠ 0) :
    (s.store k off d).byteAt k x = s.byteAt k x := by
  show (s.store k off d).blk ((s.store k off d).blockAt k (x / BSIZE)) _ = s.blk (s.blockAt k (x / BSIZE)) _
  rw [blockAt_store inv lo h0, store_blk_of_ne]
  intro he
  exact hx (Slot.of_inj (inv.own.inj (lo.ref_blockAt inv.table hx0)
    (he ▸ lo.ref_blockAt inv.table h0)).2)

/-- Bytes that the file has already change nothing. -/
theorem store_same {d : List UInt8} (hd : off % BSIZE + d.length ≤ BSIZE)
    (hsame : ∀ j (h : j < d.length), d[j] = s.byteAt k (off + j)) : s.store k off d = s := by
  have hput : Bytes.put (s.blk (s.blockAt k (off / BSIZE))) (off % BSIZE) d =
      s.blk (s.blockAt k (off / BSIZE)) := by
    funext i
    by_cases hi : off % BSIZE ≤ i ∧ i < off % BSIZE + d.length
    · obtain ⟨j, rfl⟩ := Nat.exists_eq_add_of_le hi.1
      have hj : j < d.length := by omega
      rw [Bytes.put_inside hj, hsame j hj]
      have h1 : (off + j) / BSIZE = off / BSIZE := by
        simp only [BSIZE] at *
        omega
      have h2 : (off + j) % BSIZE = off % BSIZE + j := by
        simp only [BSIZE] at *
        omega
      show s.blk (s.blockAt k ((off + j) / BSIZE)) ((off + j) % BSIZE) = _
      rw [h1, h2]
    · exact Bytes.put_outside (by omega)
  unfold St.store St.setBlk
  rw [hput, Function.update_eq_self]

/-- When the condition holds, the loop of `writei` changes what it counts and logs what it changes. -/
theorem Wrote.effect_of_harmless (h : Wrote sb k src off va n m s s₁ s₂ s') (w : sb.Wf)
    (inv : Inv sb s) (lo : Loaded s k) (hh : Harmless s k src off va n) :
    (∀ x, x < off ∨ off + m ≤ x → s.blockAt k (x / BSIZE) ≠ 0 → s₂.byteAt k x = s.byteAt k x) ∧
    ∃ new, s₂.wrote = new ++ s.wrote ∧ ∀ b, s₂.blk b ≠ s.blk b → b ∈ new := by
  obtain ⟨s₃, c, ⟨rfl, -⟩ | ⟨t, ht, hr, hno, h0, rfl⟩⟩ := h.clean w inv lo
  · obtain ⟨new, hw, hch, -, -⟩ := c.effect.log
    exact ⟨fun x => c.effect.outside, new, hw, hch⟩
  · obtain ⟨new, hw, hch, hadd, -⟩ := c.effect.log
    have hmod : (off + m) % BSIZE < BSIZE := Nat.mod_lt _ (by decide)
    have hbn : (off + (m + t)) / BSIZE = (off + m) / BSIZE := by
      simp only [BSIZE] at *
      omega
    by_cases hz : s.blockAt k ((off + m) / BSIZE) = 0
    · -- a fresh block: logged, and past the end of the file
      refine ⟨fun x hx hx0 => ?_, new, hw, fun b hb => ?_⟩
      · have hne : x / BSIZE ≠ (off + m) / BSIZE := fun he => hx0 (he ▸ hz)
        have hk := c.frame.blockAt inv.table lo c.inv.table c.loaded hx0
        rw [store_byteAt_of_ne c.inv c.loaded h0 _ hne (by rw [hk]; exact hx0)]
        exact c.effect.outside hx hx0
      · by_cases hba : b = s₃.blockAt k ((off + m) / BSIZE)
        · rw [hba]
          exact hadd _ hz h0
        · rw [store_blk_of_ne hba] at hb
          exact hch b hb
    · -- the same bytes: nothing is changed
      have hsame := (hh (m + t) (by omega) hr hno).resolve_left (by rw [hbn]; exact hz)
      rw [store_same]
      · exact ⟨fun x => c.effect.outside, new, hw, hch⟩
      · rw [Bytes.length_slice]
        omega
      · intro j hj
        rw [Bytes.length_slice] at hj
        have hx : (off + m + j) / BSIZE = (off + m) / BSIZE := by
          simp only [BSIZE] at *
          omega
        rw [Bytes.getElem_slice, c.effect.outside (.inr (by omega)) (by rw [hx]; exact hz)]
        have := hsame (m + j) (by omega) (by rw [hbn, ← Nat.add_assoc]; exact hx)
        rwa [← Nat.add_assoc, ← Nat.add_assoc] at this

/-- A byte that the copy stores over another one is in a block that is not logged. -/
theorem Wrote.harmless_of_cache (h : Wrote sb k src off va n m s s₁ s₂ s') (w : sb.Wf)
    (inv : Inv sb s) (lo : Loaded s k) (ho : s.Ordered k)
    (hcache : ∀ b, s'.blk b ≠ s.blk b → b ∈ loggedSince s s') : Harmless s k src off va n := by
  intro t ht hr hno
  have hmt : m ≤ t := by
    by_contra hlt
    exact hno (h.readable t (by omega))
  by_cases hz : s.blockAt k ((off + t) / BSIZE) = 0
  · exact .inl hz
  -- the blocks in front are there too, so that the loop reaches byte `t`
  have hzm : s.blockAt k ((off + m) / BSIZE) ≠ 0 :=
    ho _ _ (Nat.div_le_div_right (by omega)) hz
  obtain ⟨s₃, c, ⟨-, hfull⟩ | ⟨t', ht', hr', hno', h0, hs₂⟩⟩ := h.clean w inv lo
  · exact absurd (hfull t ht hr hno) hzm
  have htt : t = m + t' := by
    rcases Nat.lt_trichotomy t (m + t') with hlt | rfl | hgt
    · exact absurd (hr' t hlt) hno
    · rfl
    · exact absurd (hr (m + t') hgt) hno'
  subst htt
  right
  intro j hj hbj
  have hmod : (off + m) % BSIZE < BSIZE := Nat.mod_lt _ (by decide)
  have hal := h.aligned
  have hmj : m ≤ j := by
    simp only [BSIZE] at *
    omega
  have hbm : (off + j) / BSIZE = (off + m) / BSIZE := by
    simp only [BSIZE] at *
    omega
  by_contra hne
  have ha := c.frame.blockAt inv.table lo c.inv.table c.loaded hzm
  have hra := lo.ref_blockAt inv.table hzm
  have hai : s.blockAt k ((off + m) / BSIZE) ≠ sb.iblock (s.itable k).inum :=
    w.data_ne_iblock (inv.own.data hra) (lo.inum_lt inv.table)
  have hinum : (s₂.itable k).inum = (s.itable k).inum := by
    rw [hs₂]
    exact c.frame.inum
  obtain ⟨new, hw, -, -, honly⟩ := c.effect.log
  have hlog : loggedSince s s' = sb.iblock (s.itable k).inum :: new := by
    refine loggedSince_append ?_
    rw [h.eq, finish_wrote, hinum, hs₂]
    show _ :: s₃.wrote = _
    rw [hw]
    rfl
  have hmem : s.blockAt k ((off + m) / BSIZE) ∈ loggedSince s s' := by
    refine hcache _ fun he => hne ?_
    have hblk : s'.blk (s.blockAt k ((off + m) / BSIZE)) =
        Bytes.put (s₃.blk (s.blockAt k ((off + m) / BSIZE))) ((off + m) % BSIZE)
          (Bytes.slice src.byte (va + m) t') := by
      rw [h.eq, finish_blk_of_ne (by rw [hinum]; exact hai), hs₂, ← ha, store_blk_self]
    have hbyte := congrFun (he.symm.trans hblk) ((off + m) % BSIZE + (j - m))
    rw [Bytes.put_inside (by rw [Bytes.length_slice]; omega), Bytes.getElem_slice] at hbyte
    have hj1 : (off + j) % BSIZE = (off + m) % BSIZE + (j - m) := by
      simp only [BSIZE] at *
      omega
    show _ = s.blk (s.blockAt k ((off + j) / BSIZE)) ((off + j) % BSIZE)
    rw [hbm, hj1, hbyte]
    congr 1
    omega
  rw [hlog] at hmem
  rcases List.mem_cons.mp hmem with he | hm
  · exact hai he
  · obtain ⟨-, x, h1, h2, h3⟩ := honly _ hm _ _ hra
    simp only [BSIZE] at *
    omega

/-- A failed copy is invisible exactly when the bytes that it has stored are there already or go to a
fresh block. -/
theorem writei_unharmed_iff (w : sb.Wf) (g : Whole True sb s) (lo : Loaded s k) (hout : 1 ≤ s.outstanding)
    (hn : n < U32) {r : Option Nat} (hrun : writei sb k src va off n s = .ok (r, s')) :
    Unharmed sb k off (r.getD 0) s s' ↔
      (Accepts (s.itable k).size off n → Harmless s k src off va n) := by
  have hno : s.NoHole k := g.noHole.loaded g.inv.table lo
  have hspec : wp (fun _ => True) (writei sb k src va off n) s _ :=
    writei_spec w g.inv lo g.held hout src va off n (Credit.start s _) (fun _ => trivial) hn
  rcases hspec.ok hrun with ⟨hacc, rfl, rfl⟩ | ⟨hacc, m, s₁, s₂, rfl, h⟩
  · -- refused: nothing happens
    refine ⟨fun _ h => absurd h hacc, fun _ => ⟨fun o c => ?_, fun b hb => absurd rfl hb⟩⟩
    have hw : wp (fun _ => False) (readi sb k .kernel 0 o c) s' _ := readi_kernel g.held hno 0 o c
    obtain ⟨r, t, hr, rfl, h1, h2⟩ := hw.returns
    have hr' : readi sb k .kernel 0 o c t = .ok ((some r.2.length, r.2), t) := by
      rw [hr, h2, Bytes.length_slice, ← h1, ← h2]
    exact ⟨r.2, r.2, hr', hr', fun _ _ => rfl⟩
  · refine ⟨fun hu _ => h.harmless_of_cache w g.inv lo (fun _ _ => (g.inOrder trivial).loaded g.inv.table lo)
      hu.cache, fun hh => ?_⟩
    obtain ⟨inv₂, l₂, f₂⟩ := edits_spec w g.inv lo (h.edits w g.inv lo)
    obtain ⟨hbytes, new, hw, hch⟩ := h.effect_of_harmless w g.inv lo (hh hacc)
    have hs : Synced sb s [k] := fun j hj hv _ => g.synced j hj hv List.not_mem_nil
    obtain ⟨inv', -⟩ := h.keeps w g.inv lo hacc hs
    have hno' := h.noHoles w g.inv lo hacc hs g.noHole
    have hsize : (s₂.itable k).size = (s.itable k).size := by
      obtain ⟨a, ha⟩ := f₂.entry
      rw [ha]
    have hit : s'.itable k = { s₂.itable k with size := max (s.itable k).size (off + m) } := by
      rw [h.eq, ← hsize]
      simp [St.setSize]
    have lo' : Loaded s' k := by
      refine ⟨⟨l₂.live.1, ?_⟩, ?_, ?_⟩
      · rw [hit]
        exact l₂.live.2
      · rw [hit]
        exact l₂.valid
      · rw [hit]
        exact l₂.type
    have hheld : s'.held = [] := by
      rw [h.eq]
      exact f₂.held.trans g.held
    refine ⟨reads_agree g.held hno hheld (hno'.loaded inv'.table lo') hacc.1 (by rw [hit]; rfl) ?_,
      fun b hb => ?_⟩
    · intro x hx hout'
      have hx0 : s.blockAt k (x / BSIZE) ≠ 0 :=
        hno _ (Nat.lt_of_le_of_lt (Nat.div_mul_le_self x BSIZE) hx)
      have hx2 : s₂.blockAt k (x / BSIZE) ≠ 0 := by
        rwa [f₂.blockAt g.inv.table lo inv₂.table l₂ hx0]
      rw [h.eq, finish_byteAt w inv₂ l₂ hx2, hbytes x hout' hx0]
    · have hlog : loggedSince s s' = sb.iblock (s₂.itable k).inum :: new := by
        refine loggedSince_append ?_
        rw [h.eq, finish_wrote, hw]
        rfl
      rw [hlog]
      by_cases hbi : b = sb.iblock (s₂.itable k).inum
      · rw [hbi]
        exact List.mem_cons_self
      · rw [h.eq, finish_blk_of_ne hbi] at hb
        exact List.mem_cons_of_mem _ (hch b hb)

end Fault

/-! ## A copy over a page boundary -/

/-- The file of a small disk is open, in a transaction. -/
def small : St where
  blk := smallBlk 1
  outstanding := 1
  itable := fun k =>
    if k = 0 then { smallFile 1 with inum := 1, ref := 1, valid := true, locked := true } else {}

theorem small_live {k : Nat} : small.Live k ↔ k = 0 := by
  by_cases h : k = 0
  · subst h
    simp [St.Live, small, NINODE]
  · simp [St.Live, small, h]

theorem small_table : TableOk smallSb small := by
  refine ⟨fun hk hk' _ => ?_, fun hk _ => ?_, fun hk _ => ?_⟩
  · rw [small_live.mp hk, small_live.mp hk']
  · rw [small_live.mp hk]
    decide
  · rw [small_live.mp hk]
    exact smallFile_wf (by decide)

theorem small_cur : small.cur smallSb = smallInodes 1 := by
  refine cur_unique small_table (fun i hi => ?_) (fun k hk _ => ?_) fun i hi _ => ?_
  · have : i ≠ 1 := by
      rintro rfl
      exact absurd hi (by decide)
    exact if_neg this
  · rw [small_live.mp hk]
    rfl
  · exact (smallBlk_load (by decide) hi).symm

theorem small_whole : Whole True smallSb small where
  inv := ⟨small_table, by rw [small_cur]; exact smallInodes_own 1⟩
  synced k hk _ _ := by
    rw [small_live.mp hk]
    exact (smallBlk_load (n := 1) (i := 1) (by decide) (by decide)).symm
  typed hk _ := by
    rw [small_live.mp hk]
    decide
  held := rfl
  noHole := by
    refine noHoles_iff_ref.mpr fun i bn ht hlt => ?_
    rw [small_cur] at ht hlt ⊢
    by_cases hi : i = 1
    · subst hi
      have hlt : bn * BSIZE < 2 := hlt
      have hbn : bn = 0 := by
        simp only [BSIZE] at hlt
        omega
      exact ⟨4, smallInodes_ref.mpr ⟨rfl, by rw [hbn]; rfl, rfl⟩⟩
    · simp only [smallInodes, if_neg hi] at ht
      exact absurd rfl ht
  inOrder := fun _ => by
    refine inOrder_iff_ref.mpr fun i bn bn' a hle hr => ?_
    rw [small_cur] at hr ⊢
    obtain ⟨rfl, hσ, rfl⟩ := smallInodes_ref.mp hr
    have hbn' : bn' = 0 := Slot.of_inj hσ
    have hbn : bn = 0 := by omega
    exact ⟨4, smallInodes_ref.mpr ⟨rfl, by rw [hbn]; rfl, rfl⟩⟩

theorem small_loaded : Loaded small 0 := ⟨small_live.mpr rfl, rfl, by decide⟩

/-- A process with one page of memory. -/
def onePage : Src := .user fun p => if p = 0 then some fun _ => 7 else none

/-- All of a buffer in that page is written. -/
theorem writei_unharmed_onePage : ∃ s', writei smallSb 0 onePage 0 0 2 small = .ok (some 2, s') ∧
    (Unharmed smallSb 0 0 2 small s' ↔ (Accepts 2 0 2 → Harmless small 0 onePage 0 0 2)) := by
  have hok : ((writei smallSb 0 onePage 0 0 2 small).toOption.map Prod.fst) = some (some 2) := by
    decide +kernel
  cases hrun : writei smallSb 0 onePage 0 0 2 small with
  | error e =>
    rw [hrun] at hok
    cases hok
  | ok r =>
    rw [hrun] at hok
    have hr : r.1 = some 2 := by simpa [Except.toOption] using hok
    obtain ⟨r, s'⟩ := r
    cases hr
    exact ⟨s', rfl, writei_unharmed_iff smallSb_wf small_whole small_loaded (by decide) (by decide) hrun⟩

/-- A buffer whose second byte is past the page: `writei` returns 0, and byte 0 of the file has
changed. -/
theorem writei_harms : smallSb.Wf ∧ Whole True smallSb small ∧ Loaded small 0 ∧
    ∃ s', writei smallSb 0 onePage (PGSIZE - 1) 0 2 small = .ok (some 0, s') ∧
      ¬ Unharmed smallSb 0 0 0 small s' := by
  refine ⟨smallSb_wf, small_whole, small_loaded, ?_⟩
  have hok : ((writei smallSb 0 onePage (PGSIZE - 1) 0 2 small).toOption.map Prod.fst) =
      some (some 0) := by
    decide +kernel
  have hread : ((readi smallSb 0 .kernel 0 0 2 small).toOption.map fun r => r.1.2) = some [0, 0] := by
    decide +kernel
  have hread' : (((writei smallSb 0 onePage (PGSIZE - 1) 0 2 >>= fun _ =>
      readi smallSb 0 .kernel 0 0 2) small).toOption.map fun r => r.1.2) = some [7, 0] := by
    decide +kernel
  cases hrun : writei smallSb 0 onePage (PGSIZE - 1) 0 2 small with
  | error e =>
    rw [hrun] at hok
    cases hok
  | ok r =>
    rw [hrun] at hok
    have hr : r.1 = some 0 := by simpa [Except.toOption] using hok
    obtain ⟨r, s'⟩ := r
    cases hr
    refine ⟨s', rfl, fun hu => ?_⟩
    obtain ⟨l, l', h1, h2, h3⟩ := hu.file 0 2
    rw [h1] at hread
    have hb : (writei smallSb 0 onePage (PGSIZE - 1) 0 2 >>= fun _ =>
        readi smallSb 0 .kernel 0 0 2) small = .ok ((some l'.length, l'), s') := by
      show M.bind _ _ _ = _
      rw [M.bind, hrun]
      exact h2
    rw [hb] at hread'
    have hl : l = [0, 0] := by simpa [Except.toOption] using hread
    have hl' : l' = [7, 0] := by simpa [Except.toOption] using hread'
    have := h3 0 (.inr (Nat.le_refl _))
    rw [hl, hl'] at this
    simp at this

end Xv6.Fs
