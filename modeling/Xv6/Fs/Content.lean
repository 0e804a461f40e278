import Xv6.Fs.Write

/-!
# What a write leaves in the cache

`Effect sb k off n s s'`: from `s` to `s'` the bytes `[off, off + n)` of the file in table entry `k`
may have changed and nothing else of any file, and each block that has changed was logged. Whole
chunks have this effect (`Puts.effect`), and effects on adjacent ranges compose (`Change.trans`).
-/

namespace Xv6.Fs

open Seq Seq.M

/-- Only the bytes `[off, off + n)` of the file in table entry `k` have changed, through the log. -/
structure Effect (sb : Superblock) (k off n : Nat) (s s' : St) : Prop where
  other : ∀ {i bn a}, i ≠ (s.itable k).inum → Ref s.blk (s.cur sb) i (.of bn) a → s'.blk a = s.blk a
  outside : ∀ {x}, x < off ∨ off + n ≤ x → s.blockAt k (x / BSIZE) ≠ 0 → s'.byteAt k x = s.byteAt k x
  log : ∃ new, s'.wrote = new ++ s.wrote ∧ (∀ b, s'.blk b ≠ s.blk b → b ∈ new) ∧
    (∀ bn, s.blockAt k bn = 0 → s'.blockAt k bn ≠ 0 → s'.blockAt k bn ∈ new) ∧
    (∀ b ∈ new, ∀ i bn, Ref s.blk (s.cur sb) i (.of bn) b →
      i = (s.itable k).inum ∧ ∃ x, off ≤ x ∧ x < off + n ∧ x / BSIZE = bn)

/-- A change to the contents of the inode in table entry `k` that has such an effect. -/
structure Change (sb : Superblock) (k off n : Nat) (s s' : St) : Prop where
  inv : Inv sb s'
  loaded : Loaded s' k
  frame : Frame sb k s s'
  effect : Effect sb k off n s s'

section Change

variable {sb : Superblock} {s s' s'' : St} {k off m n : Nat}

theorem Change.refl (inv : Inv sb s) (l : Loaded s k) : Change sb k off 0 s s := by
  refine ⟨inv, l, Frame.refl, fun _ _ => rfl, fun _ _ => rfl, [], rfl, ?_, ?_, ?_⟩
  · exact fun b h => absurd rfl h
  · exact fun bn h h' => absurd h h'
  · exact nofun

/-- Changes of two adjacent ranges. -/
theorem Change.trans (inv : Inv sb s) (l : Loaded s k) (h : Change sb k off m s s')
    (h' : Change sb k (off + m) n s' s'') : Change sb k off (m + n) s s'' := by
  have kept : ∀ {bn}, s.blockAt k bn ≠ 0 → s'.blockAt k bn = s.blockAt k bn := fun h0 =>
    h.frame.blockAt inv.table l h.inv.table h.loaded h0
  have kept' : ∀ {bn}, s'.blockAt k bn ≠ 0 → s''.blockAt k bn = s'.blockAt k bn := fun h0 =>
    h'.frame.blockAt h.inv.table h.loaded h'.inv.table h'.loaded h0
  refine ⟨h'.inv, h'.loaded, h.frame.trans h'.frame, fun hi hr => ?_, fun hx h0 => ?_, ?_⟩
  · rw [h'.effect.other (by rwa [h.frame.inum]) (h.frame.keep hr), h.effect.other hi hr]
  · rw [h'.effect.outside (by omega) (by rw [kept h0]; exact h0), h.effect.outside (by omega) h0]
  · obtain ⟨new, hw, hch, hadd, hno⟩ := h.effect.log
    obtain ⟨new', hw', hch', hadd', hno'⟩ := h'.effect.log
    refine ⟨new' ++ new, by rw [hw', hw, List.append_assoc], fun b hb => ?_, fun bn h0 h1 => ?_,
      fun b hb i bn hr => ?_⟩
    · by_cases he : s'.blk b = s.blk b
      · exact List.mem_append_left _ (hch' b (by rwa [he]))
      · exact List.mem_append_right _ (hch b he)
    · by_cases he : s'.blockAt k bn = 0
      · exact List.mem_append_left _ (hadd' bn he h1)
      · rw [kept' he]
        exact List.mem_append_right _ (hadd bn h0 he)
    · rcases List.mem_append.mp hb with hb | hb
      · obtain ⟨hi, x, h1, h2, h3⟩ := hno' b hb i bn (h.frame.keep hr)
        rw [h.frame.inum] at hi
        exact ⟨hi, x, by omega, by omega, h3⟩
      · obtain ⟨hi, x, h1, h2, h3⟩ := hno b hb i bn hr
        exact ⟨hi, x, h1, by omega, h3⟩

section

variable (w : sb.Wf) (inv : Inv sb s) (l : Loaded s k)
include w inv l

/-- A fresh block changes no contents. -/
theorem Grow.change {bn : Nat} (h : Grow sb k bn s s') : Change sb k off 0 s s' := by
  obtain ⟨σ, b, g⟩ := h.grown w inv l
  obtain ⟨new, hw, hb, hch, hno⟩ := g.log
  have hdata : ∀ {i bn a}, Ref s.blk (s.cur sb) i (.of bn) a → s'.blk a = s.blk a := fun hr =>
    hch _ fun hm => hno _ hm _ _ hr
  refine ⟨g.inv, g.loaded, g.frame, fun _ hr => hdata hr, fun {x} _ h0 => ?_, new, hw, fun c hc => ?_,
    fun bn hz hne => ?_, fun c hc i bn hr => absurd hr (hno c hc i bn)⟩
  · show s'.blk (s'.blockAt k (x / BSIZE)) _ = s.blk (s.blockAt k (x / BSIZE)) _
    rw [g.frame.blockAt inv.table l g.inv.table g.loaded h0, hdata (l.ref_blockAt inv.table h0)]
  · by_contra hno'
    exact hc (hch c hno')
  · -- a new block of the contents is the fresh one
    have hr := g.loaded.ref_blockAt g.inv.table hne
    rw [g.frame.inum] at hr
    rcases g.ref.mp hr with hr | ⟨-, -, he⟩
    · have : s.blockAt k bn = s'.blockAt k bn := by
        rw [← hr.2.1, l.cur inv.table]
        rfl
      exact absurd (this.symm.trans hz) hne
    · rw [he]
      exact hb

theorem Grows.change {bn : Nat} (h : Grows sb k bn s s') : Change sb k off 0 s s' := by
  induction h with
  | refl => exact Change.refl inv l
  | tail _ hg ih => exact Change.trans inv l ih (hg.change w ih.inv ih.loaded)

/-- A chunk that is stored and logged. -/
theorem storeLog_change (h0 : s.blockAt k (off / BSIZE) ≠ 0) {d : List UInt8} (hpos : 0 < d.length) :
    Change sb k off d.length s (s.storeLog k off d) := by
  obtain ⟨inv', l', f⟩ := edits_spec w inv l (edits_storeLog h0 inv l d)
  have hra := l.ref_blockAt inv.table h0
  have hmod : off % BSIZE < BSIZE := Nat.mod_lt _ (by decide)
  have hblk : ∀ c, c ≠ s.blockAt k (off / BSIZE) → (s.storeLog k off d).blk c = s.blk c := fun c hc =>
    store_blk_of_ne hc
  have hat : ∀ bn, (s.storeLog k off d).blockAt k bn = s.blockAt k bn := blockAt_store inv l h0 d
  refine ⟨inv', l', f, fun {i bn a} hi hr => hblk a ?_, fun {x} hx hx0 => ?_,
    [s.blockAt k (off / BSIZE)], rfl, fun c hc => ?_, fun bn hz hne => ?_, fun c hc i bn hr => ?_⟩
  · rintro rfl
    exact hi (inv.own.inj hr hra).1
  · show (s.storeLog k off d).blk ((s.storeLog k off d).blockAt k (x / BSIZE)) _ =
      s.blk (s.blockAt k (x / BSIZE)) _
    rw [hat]
    by_cases hb : x / BSIZE = off / BSIZE
    · -- the same block, outside of the bytes stored
      rw [hb]
      refine (congrFun (store_blk_self s k off d) _).trans (Bytes.put_outside ?_)
      simp only [BSIZE] at *
      omega
    · rw [hblk _ fun he => hb (Slot.of_inj (inv.own.inj (l.ref_blockAt inv.table hx0) (he ▸ hra)).2)]
  · by_contra hno
    exact hc (hblk c (by simpa using hno))
  · exact absurd ((hat bn).trans hz) hne
  · rw [List.mem_singleton.mp hc] at hr
    obtain ⟨hi, hσ⟩ := inv.own.inj hr hra
    exact ⟨hi, off, Nat.le_refl _, by omega, (Slot.of_inj hσ).symm⟩

/-- Whole chunks change the bytes that they hold. -/
theorem Puts.change {d : List UInt8} (h : Puts sb k off d s s') : Change sb k off d.length s s' := by
  induction h with
  | nil => exact Change.refl inv l
  | @cons off _ _ s s₁ _ hg _ h0 hpos _ _ ih =>
    have c₁ : Change sb k off 0 s s₁ := hg.change w inv l
    have c₂ := storeLog_change w c₁.inv c₁.loaded h0 hpos
    have c₃ := ih c₂.inv c₂.loaded
    have c₁₂ := Change.trans inv l c₁ c₂
    rw [Nat.zero_add] at c₁₂
    rw [List.length_append]
    exact Change.trans inv l c₁₂ c₃

/-- The bytes of whole chunks are in the file. -/
theorem Puts.bytes {d : List UInt8}
    (h : Puts sb k off d s s') {j : Nat} (hj : j < d.length) : s'.byteAt k (off + j) = d[j] := by
  induction h generalizing j with
  | nil => exact absurd hj (Nat.not_lt_zero j)
  | @cons off d d' s s₁ s' hg _ h0 hpos hl hrest ih =>
    have c₁ : Change sb k off 0 s s₁ := hg.change w inv l
    have c₂ := storeLog_change w c₁.inv c₁.loaded h0 hpos
    rcases Nat.lt_or_ge j d.length with hlt | hge
    · -- stored by this chunk, and the others leave it
      have hmod : off % BSIZE < BSIZE := Nat.mod_lt _ (by decide)
      have h1 : (off + j) / BSIZE = off / BSIZE := by
        simp only [BSIZE] at *
        omega
      have h2 : (off + j) % BSIZE = off % BSIZE + j := by
        simp only [BSIZE] at *
        omega
      have hat : (s₁.storeLog k off d).blockAt k (off / BSIZE) = s₁.blockAt k (off / BSIZE) :=
        blockAt_store c₁.inv c₁.loaded h0 d _
      have c₃ := hrest.change w c₂.inv c₂.loaded
      rw [c₃.effect.outside (.inl (by omega)) (by rw [h1, hat]; exact h0), List.getElem_append_left hlt]
      show (s₁.storeLog k off d).blk ((s₁.storeLog k off d).blockAt k ((off + j) / BSIZE)) _ = _
      rw [h1, h2, hat]
      exact (congrFun (store_blk_self s₁ k off d) _).trans (Bytes.put_inside hlt)
    · rw [List.getElem_append_right hge]
      have := ih c₂.inv c₂.loaded (j := j - d.length) (by rw [List.length_append] at hj; omega)
      rwa [Nat.add_assoc, Nat.add_sub_cancel' hge] at this

end

/-! ## After the loop -/

theorem finish_blk_of_ne {c : Nat} (h : c ≠ sb.iblock (s.itable k).inum) (off : Nat) :
    ((s.setSize k off).iupdate sb k).blk c = s.blk c := by
  have hi : ((s.setSize k off).itable k).inum = (s.itable k).inum := by simp [St.setSize]
  show Function.update _ _ _ _ = _
  rw [hi, Function.update_of_ne h]
  rfl

theorem finish_wrote (s : St) (k off : Nat) :
    ((s.setSize k off).iupdate sb k).wrote = sb.iblock (s.itable k).inum :: s.wrote := by
  have hi : ((s.setSize k off).itable k).inum = (s.itable k).inum := by simp [St.setSize]
  show sb.iblock ((s.setSize k off).itable k).inum :: _ = _
  rw [hi]
  rfl

theorem finish_blockAt (w : sb.Wf) (inv : Inv sb s) (lo : Loaded s k) (off bn : Nat) :
    ((s.setSize k off).iupdate sb k).blockAt k bn = s.blockAt k bn := by
  have hit : (((s.setSize k off).iupdate sb k).itable k).addrs = (s.itable k).addrs := by
    simp [St.setSize]
  have haddr : ∀ σ, (((s.setSize k off).iupdate sb k).itable k).toDinode.addr s.blk σ =
      (s.itable k).toDinode.addr s.blk σ := by
    intro σ
    cases σ <;> simp only [Dinode.addr, hit]
  refine Eq.trans (Dinode.addr_congr (fun h0 => ?_) _) (haddr _)
  rw [hit] at h0 ⊢
  refine finish_blk_of_ne ?_ off
  have hr : Ref s.blk (s.cur sb) (s.itable k).inum .indirect ((s.itable k).addrs NDIRECT) :=
    lo.ref inv.table h0
  exact w.data_ne_iblock (inv.own.data hr) (lo.inum_lt inv.table)

theorem finish_byteAt (w : sb.Wf) (inv : Inv sb s) (lo : Loaded s k) {x : Nat} (h0 : s.blockAt k (x / BSIZE) ≠ 0)
    (off : Nat) : ((s.setSize k off).iupdate sb k).byteAt k x = s.byteAt k x := by
  show ((s.setSize k off).iupdate sb k).blk (((s.setSize k off).iupdate sb k).blockAt k (x / BSIZE)) _ =
    s.blk (s.blockAt k (x / BSIZE)) _
  rw [finish_blockAt w inv lo, finish_blk_of_ne (w.data_ne_iblock
    (inv.own.data (lo.ref_blockAt inv.table h0)) (lo.inum_lt inv.table))]

end Change

end Xv6.Fs
