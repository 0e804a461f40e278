import Xv6.Conc.Play
import Xv6.Conc.Runs
import Xv6.Log.Run

/-!
# The buffers that a commit needs

A commit reads log blocks and home blocks through the buffer cache. The home blocks are pinned; for the
log blocks and the header it needs one buffer that is not. `Pinned` says which buffers are in use while
one thread runs alone: those of the blocks that the log has pinned and those that the thread holds. With
fewer pinned blocks than buffers each `bread` of a commit finds one (`bread_runs`), and `end_op` returns;
with `NBUF` pinned blocks, as many as a full log has, `write_log` stops at its first block
(`endOp_returns_iff`).
-/

namespace Xv6

open Conc Prog

/-- The buffers in use while thread `t` runs alone: those of the blocks in `P` are pinned, and the thread
holds those in `H`. -/
structure Pinned (dev : Nat) (P : List Nat) (t : Tid) (H : List Nat) (c : Bcache) : Prop where
  lru : c.lru.Perm (List.range NBUF)
  key : ∀ i ∈ c.lru, ∀ j ∈ c.lru, (c.buf i).dev = dev → (c.buf j).dev = dev →
    (c.buf i).blockno = (c.buf j).blockno → i = j
  cached : ∀ b ∈ P, ∃ i ∈ c.lru, (c.buf i).dev = dev ∧ (c.buf i).blockno = b
  refcnt : ∀ i ∈ c.lru, (c.buf i).refcnt =
    (if (c.buf i).dev = dev ∧ (c.buf i).blockno ∈ P then 1 else 0) + if i ∈ H then 1 else 0
  owner : ∀ i ∈ c.lru, (c.buf i).owner = if i ∈ H then some t else none
  held : ∀ i ∈ H, i ∈ c.lru

section Pinned

variable {dev b i : Nat} {P H : List Nat} {t : Tid} {c c' : Bcache}

/-- Every buffer keeps its block. -/
theorem Pinned.keep {P' H' : List Nat} (h : Pinned dev P t H c) (hP : P' ⊆ P) (hH : H' ⊆ H)
    (hlru : c'.lru.Perm c.lru)
    (hbuf : ∀ j, (c'.buf j).dev = (c.buf j).dev ∧ (c'.buf j).blockno = (c.buf j).blockno)
    (hr : ∀ j ∈ c.lru, (c'.buf j).refcnt =
      (if (c.buf j).dev = dev ∧ (c.buf j).blockno ∈ P' then 1 else 0) + if j ∈ H' then 1 else 0)
    (ho : ∀ j ∈ c.lru, (c'.buf j).owner = if j ∈ H' then some t else none) : Pinned dev P' t H' c' := by
  have hm : ∀ j, j ∈ c'.lru ↔ j ∈ c.lru := fun j => hlru.mem_iff
  refine ⟨hlru.trans h.lru, ?_, ?_, ?_, ?_, fun j hj => (hm j).mpr (h.held j (hH hj))⟩
  · intro j hj k hk
    rw [hm] at hj hk
    rw [(hbuf j).1, (hbuf k).1, (hbuf j).2, (hbuf k).2]
    exact h.key j hj k hk
  · intro x hx
    obtain ⟨j, hj, hd, hb⟩ := h.cached x (hP hx)
    exact ⟨j, (hm j).mpr hj, (hbuf j).1.trans hd, (hbuf j).2.trans hb⟩
  · intro j hj
    rw [(hbuf j).1, (hbuf j).2]
    exact hr j ((hm j).mp hj)
  · intro j hj
    exact ho j ((hm j).mp hj)

/-- The order in which the thread got its buffers does not matter. -/
theorem Pinned.swap {j : Nat} (h : Pinned dev P t (j :: i :: H) c) : Pinned dev P t (i :: j :: H) c := by
  have hm : ∀ x, x ∈ i :: j :: H ↔ x ∈ j :: i :: H := fun x => (List.Perm.swap j i H).mem_iff
  refine h.keep (fun _ => id) (fun x hx => (hm x).mp hx) (.refl _) (fun _ => ⟨rfl, rfl⟩) ?_ ?_
  · simpa only [hm] using h.refcnt
  · simpa only [hm] using h.owner

/-- A change to the data of a buffer. -/
theorem Pinned.upd (h : Pinned dev P t H c) (i : Nat) {f : Buf → Buf} (hd : (f (c.buf i)).dev = (c.buf i).dev)
    (hb : (f (c.buf i)).blockno = (c.buf i).blockno) (hr : (f (c.buf i)).refcnt = (c.buf i).refcnt)
    (ho : (f (c.buf i)).owner = (c.buf i).owner) : Pinned dev P t H (c.upd i f) := by
  have hbuf : ∀ j, ((c.upd i f).buf j).dev = (c.buf j).dev ∧ ((c.upd i f).buf j).blockno = (c.buf j).blockno ∧
      ((c.upd i f).buf j).refcnt = (c.buf j).refcnt ∧ ((c.upd i f).buf j).owner = (c.buf j).owner := by
    intro j
    rw [Bcache.upd_buf]
    split
    · rename_i hj
      rw [hj]
      exact ⟨hd, hb, hr, ho⟩
    · exact ⟨rfl, rfl, rfl, rfl⟩
  exact h.keep (fun _ => id) (fun _ => id) (.refl _) (fun j => ⟨(hbuf j).1, (hbuf j).2.1⟩)
    (fun j hj => (hbuf j).2.2.1.trans (h.refcnt j hj)) fun j hj => (hbuf j).2.2.2.trans (h.owner j hj)

/-- A buffer that is not in use. -/
theorem Pinned.exists_free (h : Pinned dev P t H c) (hlen : P.length + H.length < NBUF) :
    ∃ i ∈ c.lru, (c.buf i).refcnt = 0 := by
  by_contra hno
  -- otherwise each buffer is held or is that of a pinned block
  have hused : ∀ i ∈ Finset.range NBUF, i ∉ H.toFinset → (c.buf i).dev = dev ∧ (c.buf i).blockno ∈ P := by
    intro i hi hH
    have hm : i ∈ c.lru := h.lru.mem_iff.mpr (List.mem_range.mpr (Finset.mem_range.mp hi))
    have hr := h.refcnt i hm
    rw [if_neg fun hh => hH (List.mem_toFinset.mpr hh)] at hr
    by_contra hn
    rw [if_neg hn] at hr
    exact hno ⟨i, hm, hr⟩
  have hinj : Set.InjOn (fun i => (c.buf i).blockno) ((Finset.range NBUF \ H.toFinset : Finset Nat) : Set Nat) := by
    intro i hi j hj hij
    rw [Finset.mem_coe, Finset.mem_sdiff] at hi hj
    have hmi : i ∈ c.lru := h.lru.mem_iff.mpr (List.mem_range.mpr (Finset.mem_range.mp hi.1))
    have hmj : j ∈ c.lru := h.lru.mem_iff.mpr (List.mem_range.mpr (Finset.mem_range.mp hj.1))
    exact h.key i hmi j hmj (hused i hi.1 hi.2).1 (hused j hj.1 hj.2).1 hij
  have hle : (Finset.range NBUF \ H.toFinset).card ≤ P.toFinset.card := by
    apply Finset.card_le_card_of_injOn _ _ hinj
    intro i hi
    rw [Finset.mem_coe, Finset.mem_sdiff] at hi
    exact List.mem_toFinset.mpr (hused i hi.1 hi.2).2
  have h1 := Finset.le_card_sdiff H.toFinset (Finset.range NBUF)
  have h2 := List.toFinset_card_le P
  have h3 := List.toFinset_card_le H
  rw [Finset.card_range] at h1
  omega

/-- The thread has got buffer `i`, which has been given to block `b` or cached it before, and locks it. -/
theorem Pinned.take (h : Pinned dev P t H c) (hi : i ∈ c.lru) (hH : i ∉ H) {f : Buf → Buf}
    (hd : (f (c.buf i)).dev = dev) (hb : (f (c.buf i)).blockno = b)
    (hr : (f (c.buf i)).refcnt = (if b ∈ P then 1 else 0) + 1) (ho : (f (c.buf i)).owner = some t)
    (hother : ∀ j ∈ c.lru, j ≠ i → (c.buf j).dev = dev → (c.buf j).blockno ≠ b)
    (hold : (c.buf i).dev = dev → (c.buf i).blockno ∈ P → (c.buf i).blockno = b) :
    Pinned dev P t (i :: H) (c.upd i f) := by
  have hne : ∀ {j}, j ≠ i → (c.upd i f).buf j = c.buf j := fun hj => Bcache.upd_ne c f hj
  have hi' : (c.upd i f).buf i = f (c.buf i) := Bcache.upd_same c i f
  refine ⟨h.lru, ?_, ?_, ?_, ?_, ?_⟩
  · intro j hj k hk hdj hdk hjk
    by_cases hji : j = i
    · by_cases hki : k = i
      · rw [hji, hki]
      · rw [hji, hi', hne hki, hb] at hjk
        rw [hne hki] at hdk
        exact absurd hjk.symm (hother k hk hki hdk)
    · by_cases hki : k = i
      · rw [hki, hi', hne hji, hb] at hjk
        rw [hne hji] at hdj
        exact absurd hjk (hother j hj hji hdj)
      · rw [hne hji] at hdj hjk
        rw [hne hki] at hdk hjk
        exact h.key j hj k hk hdj hdk hjk
  · intro x hx
    obtain ⟨j, hj, hdj, hbj⟩ := h.cached x hx
    by_cases hji : j = i
    · subst hji
      refine ⟨j, hj, ?_, ?_⟩
      · rw [hi']
        exact hd
      · rw [hi', hb, ← hold hdj (by rw [hbj]; exact hx), hbj]
    · exact ⟨j, hj, by rw [hne hji]; exact hdj, by rw [hne hji]; exact hbj⟩
  · intro j hj
    by_cases hji : j = i
    · rw [hji, hi', hr, hd, hb, if_pos List.mem_cons_self]
      simp
    · rw [hne hji, h.refcnt j hj]
      simp [hji]
  · intro j hj
    by_cases hji : j = i
    · rw [hji, hi', ho, if_pos List.mem_cons_self]
    · rw [hne hji, h.owner j hj]
      simp [hji]
  · intro j hj
    rcases List.mem_cons.mp hj with rfl | hj
    · exact hi
    · exact h.held j hj

/-- The section of `bget` finds the block's buffer or one that is not in use. -/
theorem Pinned.bget (h : Pinned dev P t H c) (hnot : ∀ i ∈ H, (c.buf i).blockno ≠ b)
    (hroom : b ∈ P ∨ P.length + H.length < NBUF) :
    ∃ i c', c.bget t dev b = .ok (i, c') ∧ i ∉ H ∧ (c'.buf i).owner = none ∧ (c'.buf i).dev = dev ∧
      (c'.buf i).blockno = b ∧
      (∀ j, j ≠ i → c'.buf j = c.buf j) ∧
      Pinned dev P t (i :: H) (c'.upd i fun x => { x with owner := some t }) := by
  have hcomp : ∀ (i : Nat) (f : Buf → Buf), (c.upd i f).upd i (fun x => { x with owner := some t }) =
      c.upd i fun x => { f x with owner := some t } := by
    intro i f
    simp [Bcache.upd]
  unfold Bcache.bget
  cases hf : c.lru.find? (c.caches dev b) with
  | some i =>
    have hi := List.mem_of_find?_eq_some hf
    have hkey := List.find?_some hf
    simp only [Bcache.caches, Bool.and_eq_true, beq_iff_eq] at hkey
    have hH : i ∉ H := fun hh => hnot i hh hkey.2
    have howner := h.owner i hi
    rw [if_neg hH] at howner
    refine ⟨i, _, rfl, hH, ?_, ?_, ?_, ?_, ?_⟩
    · rw [Bcache.upd_same]
      exact howner
    · rw [Bcache.upd_same]
      exact hkey.1
    · rw [Bcache.upd_same]
      exact hkey.2
    · intro j hji
      exact Bcache.upd_ne c _ hji
    · rw [hcomp]
      apply h.take hi hH hkey.1 hkey.2 _ rfl
      · intro j hj hji hdj hbj
        exact hji (h.key j hj i hi hdj hkey.1 (hbj.trans hkey.2.symm))
      · intro _ _
        exact hkey.2
      · have hr := h.refcnt i hi
        rw [hkey.1, hkey.2, if_neg hH] at hr
        simpa using hr
  | none =>
    have hcache : ∀ j ∈ c.lru, (c.buf j).dev = dev → (c.buf j).blockno ≠ b := by
      intro j hj hd hb
      have := List.find?_eq_none.mp hf j hj
      simp [Bcache.caches, hd, hb] at this
    have hbP : b ∉ P := by
      intro hb
      obtain ⟨j, hj, hd, hbj⟩ := h.cached b hb
      exact hcache j hj hd hbj
    obtain ⟨j, hj, hj0⟩ := h.exists_free (hroom.resolve_left hbP)
    cases hr : c.lru.reverse.find? (fun i => (c.buf i).refcnt == 0) with
    | none =>
      have := List.find?_eq_none.mp hr j (List.mem_reverse.mpr hj)
      simp [hj0] at this
    | some i =>
      have hi := List.mem_reverse.mp (List.mem_of_find?_eq_some hr)
      have h0 : (c.buf i).refcnt = 0 := by
        have := List.find?_some hr
        simpa using this
      have hrc := h.refcnt i hi
      rw [h0] at hrc
      have hH : i ∉ H := by
        intro hh
        rw [if_pos hh] at hrc
        omega
      have howner := h.owner i hi
      rw [if_neg hH] at howner
      refine ⟨i, _, rfl, hH, ?_, ?_, ?_, ?_, ?_⟩
      · rw [Bcache.upd_same]
        exact howner
      · rw [Bcache.upd_same]
      · rw [Bcache.upd_same]
      · intro k hki
        exact Bcache.upd_ne c _ hki
      · rw [hcomp]
        apply h.take hi hH rfl rfl _ rfl
        · intro k hk _ hd
          exact hcache k hk hd
        · intro hd hb
          rw [if_pos ⟨hd, hb⟩] at hrc
          omega
        · rw [if_neg hbP]

/-- The thread releases buffer `i`. -/
theorem Pinned.brelse (h : Pinned dev P t (i :: H) c) (hH : i ∉ H) :
    Pinned dev P t H ((c.upd i fun b => { b with owner := none, wrote := false }).brelse t i) := by
  have hi := h.held i List.mem_cons_self
  generalize hc' : (c.upd i fun b => { b with owner := none, wrote := false }).brelse t i = c'
  have hlru : c'.lru.Perm c.lru := by
    rw [← hc']
    exact Bcache.brelse_lru_perm hi
  have hsame : c'.buf i = { c.buf i with
      owner := none, wrote := false, refcnt := (c.buf i).refcnt - 1, users := (c.buf i).users.erase t } := by
    rw [← hc', Bcache.brelse_buf, Bcache.upd_same, Bcache.upd_same]
  have hne : ∀ {j}, j ≠ i → c'.buf j = c.buf j := by
    intro j hj
    rw [← hc', Bcache.brelse_buf, Bcache.upd_ne _ _ hj, Bcache.upd_ne _ _ hj]
  refine h.keep (fun _ => id) (List.subset_cons_self i H) hlru ?_ ?_ ?_
  · intro j
    by_cases hj : j = i
    · rw [hj, hsame]
      exact ⟨rfl, rfl⟩
    · rw [hne hj]
      exact ⟨rfl, rfl⟩
  · intro j hj
    have hr := h.refcnt j hj
    by_cases hji : j = i
    · rw [hji] at hr ⊢
      rw [if_pos List.mem_cons_self] at hr
      rw [hsame, if_neg hH]
      show (c.buf i).refcnt - 1 = _
      omega
    · rw [hne hji, hr]
      simp [hji]
  · intro j hj
    by_cases hji : j = i
    · rw [hji, hsame, if_neg hH]
    · rw [hne hji, h.owner j hj]
      simp [hji]

/-- `bunpin` of a buffer. -/
theorem Pinned.bunpin (h : Pinned dev (b :: P) t H c) (hbP : b ∉ P) (hi : i ∈ c.lru)
    (hd : (c.buf i).dev = dev) (hb : (c.buf i).blockno = b) : Pinned dev P t H (c.bunpin i) := by
  have hbuf : ∀ j, (c.bunpin i).buf j =
      if j = i then { c.buf i with refcnt := (c.buf i).refcnt - 1, pins := (c.buf i).pins - 1 }
      else c.buf j := fun j => Bcache.upd_buf c i j _
  refine h.keep (List.subset_cons_self b P) (fun _ => id) (.refl _) ?_ ?_ ?_
  · intro j
    rw [hbuf]
    split
    · rename_i hj
      rw [hj]
      exact ⟨rfl, rfl⟩
    · exact ⟨rfl, rfl⟩
  · intro j hj
    have hr := h.refcnt j hj
    rw [hbuf]
    by_cases hji : j = i
    · rw [if_pos hji]
      rw [hji] at hr ⊢
      rw [hb, if_pos ⟨hd, List.mem_cons_self⟩] at hr
      rw [hb, if_neg fun hx => hbP hx.2]
      show (c.buf i).refcnt - 1 = _
      omega
    · rw [if_neg hji, hr]
      have hne : (c.buf j).dev = dev → (c.buf j).blockno ≠ b := fun hdj hbj =>
        hji (h.key j hj i hi hdj hd (hbj.trans hb.symm))
      by_cases hdj : (c.buf j).dev = dev
      · simp [hdj, hne hdj]
      · simp [hdj]
  · intro j hj
    rw [hbuf, ← h.owner j hj]
    split
    · rename_i hj
      rw [hj]
    · rfl

end Pinned

/-! ## The code of a commit -/

section Commit

variable {D : LogDev} {P H L : List Nat} {t : Tid} {s s' : LogSt} {b i j k : Nat}

/-- What `bread` gives the thread: buffer `i` for block `b`, beside those in `H`. -/
structure Got (D : LogDev) (P : List Nat) (t : Tid) (H : List Nat) (s : LogSt) (b i : Nat) (s' : LogSt) :
    Prop where
  pinned : Pinned D.dev P t (i :: H) s'.cache
  notMem : i ∉ H
  dev : (s'.cache.buf i).dev = D.dev
  blockno : (s'.cache.buf i).blockno = b
  others : ∀ j ∈ H, s'.cache.buf j = s.cache.buf j
  log : s'.log = s.log

theorem Got.diskRead (h : Got D P t H s b i s') : Got D P t H s b i
    (s'.updBuf i fun b => { b with data := s'.disk b.blockno, valid := true }) := by
  have hp : Pinned D.dev P t (i :: H) (s'.cache.upd i fun b => { b with data := s'.disk b.blockno, valid := true }) :=
    h.pinned.upd i rfl rfl rfl rfl
  refine ⟨hp, h.notMem, ?_, ?_, fun j hj => ?_, h.log⟩
  · rw [LogSt.updBuf, Bcache.upd_same]
    exact h.dev
  · rw [LogSt.updBuf, Bcache.upd_same]
    exact h.blockno
  · have hji : j ≠ i := by
      rintro rfl
      exact h.notMem hj
    rw [LogSt.updBuf, Bcache.upd_ne _ _ hji]
    exact h.others j hj

/-- `bread` of a pinned block, or with a buffer that is not in use. -/
theorem bread_runs (h : Pinned D.dev P t H s.cache) (hnot : ∀ i ∈ H, (s.cache.buf i).blockno ≠ b)
    (hroom : b ∈ P ∨ P.length + H.length < NBUF) : Runs logExec t (Code.bread D.dev b) s (Got D P t H s b) := by
  obtain ⟨i, c, hget, hH, howner, hdev, hblock, hothers, hpin⟩ := h.bget hnot hroom
  have hgot : Got D P t H s b i
      (({ s with cache := c } : LogSt).updBuf i fun x => { x with owner := some t }) := by
    refine ⟨hpin, hH, ?_, ?_, fun j hj => ?_, rfl⟩
    · rw [LogSt.updBuf, Bcache.upd_same]
      exact hdev
    · rw [LogSt.updBuf, Bcache.upd_same]
      exact hblock
    · have hji : j ≠ i := by
        rintro rfl
        exact hH hj
      rw [LogSt.updBuf, Bcache.upd_ne _ _ hji]
      exact hothers j hji
  have hbget : logExec t (.bget D.dev b) s = some (.ok (i, { s with cache := c })) := by
    simp only [logExec, hget]
  have hacquire : logExec t (.acquiresleep i) { s with cache := c } =
      some (.ok ((), ({ s with cache := c } : LogSt).updBuf i fun x => { x with owner := some t })) := by
    simp only [logExec, LogSt.buf, howner]
  apply Runs.bind
  apply Runs.step hbget
  apply Runs.step hacquire
  apply Runs.pure
  apply Runs.step rfl
  split
  · exact Runs.pure hgot
  · apply Runs.step rfl
    exact Runs.pure hgot.diskRead

/-- The thread holds buffer `i`. -/
theorem Pinned.holding (h : Pinned D.dev P t H s.cache) (hi : i ∈ H) :
    logExec t (.holdingsleep i) s = some (.ok (true, s)) := by
  have howner := h.owner i (h.held i hi)
  rw [if_pos hi] at howner
  simp [logExec, LogSt.buf, howner]

theorem bwrite_runs (h : Pinned D.dev P t H s.cache) (hi : i ∈ H) :
    Runs logExec t (Code.bwrite i) s fun _ s' => s'.cache = s.cache ∧ s'.log = s.log := by
  apply Runs.step (h.holding hi)
  apply Runs.call rfl
  exact ⟨rfl, rfl⟩

theorem brelse_runs (h : Pinned D.dev P t (i :: H) s.cache) (hi : i ∉ H) :
    Runs logExec t (Code.brelse i) s fun _ s' => Pinned D.dev P t H s'.cache ∧ s'.log = s.log ∧
      ∀ j, (s'.cache.buf j).dev = (s.cache.buf j).dev ∧ (s'.cache.buf j).blockno = (s.cache.buf j).blockno := by
  have hrel := h.brelse hi
  have hkeep : ∀ j, (((s.cache.upd i fun b => { b with owner := none, wrote := false }).brelse t i).buf j).dev =
      (s.cache.buf j).dev ∧
      (((s.cache.upd i fun b => { b with owner := none, wrote := false }).brelse t i).buf j).blockno =
        (s.cache.buf j).blockno := by
    intro j
    rw [Bcache.brelse_buf]
    by_cases hj : j = i
    · rw [hj, Bcache.upd_same, Bcache.upd_same]
      exact ⟨rfl, rfl⟩
    · rw [Bcache.upd_ne _ _ hj, Bcache.upd_ne _ _ hj]
      exact ⟨rfl, rfl⟩
  apply Runs.step (h.holding List.mem_cons_self)
  cases hw : (s.buf i).wrote with
  | true =>
    have he : logExec t (.releasesleep i) s =
        some (.ok ((), { s.updBuf i fun b => { b with owner := none, wrote := false } with
          hist := .released t (s.buf i).blockno (s.buf i).data :: s.hist })) := by
      simp [logExec, hw]
    apply Runs.step he
    apply Runs.call rfl
    exact ⟨hrel, rfl, hkeep⟩
  | false =>
    have he : logExec t (.releasesleep i) s =
        some (.ok ((), s.updBuf i fun b => { b with owner := none, wrote := false })) := by
      simp [logExec, hw]
    apply Runs.step he
    apply Runs.call rfl
    exact ⟨hrel, rfl, hkeep⟩

theorem setData_pinned (h : Pinned D.dev P t H s.cache) (i : Nat) (d : Block) :
    Pinned D.dev P t H (s.updBuf i fun b => { b with data := d }).cache := by
  have hp : Pinned D.dev P t H (s.cache.upd i fun b => { b with data := d }) := h.upd i rfl rfl rfl rfl
  exact hp

/-- `write_head`. -/
theorem writeHead_runs (hlen : P.length < NBUF) (h : Pinned D.dev P t [] s.cache) :
    Runs logExec t (Code.writeHead D) s fun _ s' => Pinned D.dev P t [] s'.cache ∧ s'.log = s.log := by
  apply Runs.bind
  apply (bread_runs h (by simp) (.inr (by simpa using hlen))).mono
  intro i s₁ g₁
  apply Runs.step rfl
  apply Runs.step rfl
  apply Runs.step rfl
  have hset := setData_pinned g₁.pinned i (Hdr.write (s₁.buf i).data s₁.log.lh)
  apply Runs.bind
  apply (bwrite_runs hset List.mem_cons_self).mono
  intro _ s₂ h₂
  rw [← h₂.1] at hset
  apply (brelse_runs hset g₁.notMem).mono
  intro _ s₃ h₃
  exact ⟨h₃.1, (h₃.2.1.trans h₂.2).trans g₁.log⟩

/-- A log block and the buffer of a pinned block, both in the thread's hands. -/
structure Pair (D : LogDev) (P : List Nat) (t : Tid) (s : LogSt) (b i j : Nat) (s' : LogSt) : Prop where
  pinned : Pinned D.dev P t [j, i] s'.cache
  ne : j ≠ i
  dev : (s'.cache.buf j).dev = D.dev
  blockno : (s'.cache.buf j).blockno = b
  log : s'.log = s.log

/-- The two `bread`s of a turn. -/
theorem pair_runs {f : Nat → Nat → Prog LogAct Unit} {Q : Unit → LogSt → Prop} (hL : LhOk D s.log.lh)
    (hlen : P.length < NBUF) (h : Pinned D.dev P t [] s.cache) (hk : k < s.log.lh.length)
    (hmem : s.log.lh.getD k 0 ∈ P)
    (hf : ∀ i j s', Pair D P t s (s.log.lh.getD k 0) i j s' → Runs logExec t (f i j) s' Q) :
    Runs logExec t (do
      let i ← Code.bread D.dev (D.start + k + 1)
      let lh ← Prog.call .getLh
      let j ← Code.bread D.dev (lh.getD k 0)
      f i j) s Q := by
  have hin : s.log.lh.getD k 0 ∈ s.log.lh := by
    rw [List.getD_eq_getElem?_getD, List.getElem?_eq_getElem hk]
    exact List.getElem_mem hk
  have hslot : D.start + k + 1 ≠ s.log.lh.getD k 0 :=
    (LogDev.home_ne_slot (hL.home _ hin) (Nat.lt_of_lt_of_le hk hL.le)).symm
  apply Runs.bind
  apply (bread_runs h (by simp) (.inr (by simpa using hlen))).mono
  intro i s₁ g₁
  apply Runs.step rfl
  rw [g₁.log]
  apply Runs.bind
  have hnot : ∀ x ∈ [i], (s₁.cache.buf x).blockno ≠ s.log.lh.getD k 0 := by
    intro x hx
    rw [List.mem_singleton.mp hx, g₁.blockno]
    exact hslot
  apply (bread_runs g₁.pinned hnot (.inl hmem)).mono
  intro j s₂ g₂
  apply hf i j s₂
  exact ⟨g₂.pinned, fun hji => g₂.notMem (by simp [hji]), g₂.dev, g₂.blockno, g₂.log.trans g₁.log⟩

section

variable (hL : LhOk D s.log.lh) (hlen : s.log.lh.length < NBUF)
include hL hlen

/-- One turn of `write_log`. -/
theorem writeLogBlock_runs (h : Pinned D.dev s.log.lh t [] s.cache) (hk : k < s.log.lh.length) :
    Runs logExec t (Code.writeLogBlock D k) s fun _ s' => Pinned D.dev s.log.lh t [] s'.cache ∧
      s'.log.lh = s.log.lh := by
  have hmem : s.log.lh.getD k 0 ∈ s.log.lh := by
    rw [List.getD_eq_getElem?_getD, List.getElem?_eq_getElem hk]
    exact List.getElem_mem hk
  apply pair_runs hL hlen h hk hmem
  intro i j s₁ p
  apply Runs.step rfl
  apply Runs.step rfl
  have hset := setData_pinned p.pinned i (s₁.buf j).data
  apply Runs.bind
  apply (bwrite_runs hset (by simp)).mono
  intro _ s₂ h₂
  rw [← h₂.1] at hset
  apply Runs.bind
  apply (brelse_runs hset (by simpa using p.ne)).mono
  intro _ s₃ h₃
  apply (brelse_runs h₃.1 (by simp)).mono
  intro _ s₄ h₄
  refine ⟨h₄.1, ?_⟩
  rw [h₄.2.1, h₃.2.1, h₂.2]
  show s₁.log.lh = s.log.lh
  rw [p.log]

/-- One turn of `install_trans`, after which the block is not pinned any more. -/
theorem installBlock_runs (hk : k < s.log.lh.length)
    (h : Pinned D.dev (s.log.lh.drop k) t [] s.cache) :
    Runs logExec t (Code.installBlock D false k) s fun _ s' =>
      Pinned D.dev (s.log.lh.drop (k + 1)) t [] s'.cache ∧ s'.log.lh = s.log.lh := by
  have hdrop : s.log.lh.drop k = s.log.lh.getD k 0 :: s.log.lh.drop (k + 1) := by
    rw [List.getD_eq_getElem?_getD, List.getElem?_eq_getElem hk]
    exact List.drop_eq_getElem_cons hk
  have hnew : s.log.lh.getD k 0 ∉ s.log.lh.drop (k + 1) := by
    have hnd := hL.nodup.sublist (List.drop_sublist k s.log.lh)
    rw [hdrop] at hnd
    exact (List.nodup_cons.mp hnd).1
  have hlen' : (s.log.lh.drop k).length < NBUF := by
    rw [List.length_drop]
    omega
  apply pair_runs hL hlen' h hk (by rw [hdrop]; exact List.mem_cons_self)
  intro i j s₁ p
  apply Runs.step rfl
  apply Runs.step rfl
  have hset := setData_pinned p.pinned j (s₁.buf i).data
  have hd : ((s₁.updBuf j fun b => { b with data := (s₁.buf i).data }).cache.buf j).dev = D.dev := by
    rw [LogSt.updBuf, Bcache.upd_same]
    exact p.dev
  have hb : ((s₁.updBuf j fun b => { b with data := (s₁.buf i).data }).cache.buf j).blockno =
      s.log.lh.getD k 0 := by
    rw [LogSt.updBuf, Bcache.upd_same]
    exact p.blockno
  apply Runs.bind
  apply (bwrite_runs hset List.mem_cons_self).mono
  intro _ s₂ h₂
  rw [← h₂.1] at hset hd hb
  rw [hdrop] at hset
  have hun := hset.bunpin hnew (hset.held j List.mem_cons_self) hd hb
  apply Runs.step rfl
  apply Runs.bind
  apply (brelse_runs (hun.swap) (by simpa using p.ne.symm)).mono
  intro _ s₃ h₃
  apply (brelse_runs h₃.1 (by simp)).mono
  intro _ s₄ h₄
  refine ⟨h₄.1, ?_⟩
  rw [h₄.2.1, h₃.2.1]
  show s₂.log.lh = s.log.lh
  rw [h₂.2]
  show s₁.log.lh = s.log.lh
  rw [p.log]

/-- `write_log`. -/
theorem writeLog_runs (h : Pinned D.dev s.log.lh t [] s.cache) :
    Runs logExec t (Code.writeLog D) s fun _ s' => Pinned D.dev s.log.lh t [] s'.cache ∧
      s'.log.lh = s.log.lh := by
  apply Runs.step rfl
  refine Runs.each (J := fun _ (s' : LogSt) => Pinned D.dev s.log.lh t [] s'.cache ∧ s'.log.lh = s.log.lh) ?_
    ⟨h, rfl⟩
  rintro k hk s₁ ⟨hp, hlh⟩
  rw [List.length_range] at hk
  rw [List.getElem_range]
  rw [← hlh] at hL hlen hk hp ⊢
  exact writeLogBlock_runs hL hlen hp hk

/-- `install_trans`. -/
theorem installTrans_runs (h : Pinned D.dev s.log.lh t [] s.cache) :
    Runs logExec t (Code.installTrans D false) s fun _ s' => Pinned D.dev [] t [] s'.cache := by
  apply Runs.step rfl
  have hturns : Runs logExec t (Prog.each (List.range s.log.lh.length) (Code.installBlock D false)) s
      fun _ s' => Pinned D.dev (s.log.lh.drop (List.range s.log.lh.length).length) t [] s'.cache ∧
        s'.log.lh = s.log.lh := by
    refine Runs.each
      (J := fun k (s' : LogSt) => Pinned D.dev (s.log.lh.drop k) t [] s'.cache ∧ s'.log.lh = s.log.lh) ?_
      ⟨h, rfl⟩
    rintro k hk s₁ ⟨hp, hlh⟩
    rw [List.length_range] at hk
    rw [List.getElem_range]
    rw [← hlh] at hL hlen hk hp ⊢
    exact installBlock_runs hL hlen hk hp
  apply hturns.mono
  intro _ s' h'
  have hp := h'.1
  rw [List.length_range, List.drop_length] at hp
  exact hp

/-- A commit of fewer blocks than there are buffers. -/
theorem commit_runs (h : Pinned D.dev s.log.lh t [] s.cache) : Runs logExec t (Code.commit D) s fun _ _ => True := by
  apply Runs.step rfl
  split
  · apply Runs.bind
    apply (writeLog_runs hL hlen h).mono
    intro _ s₁ h₁
    rw [← h₁.2] at hL hlen h₁
    apply Runs.bind
    apply (writeHead_runs hlen h₁.1).mono
    intro _ s₂ h₂
    rw [← h₂.2] at hL hlen h₂
    apply Runs.bind
    apply (installTrans_runs hL hlen h₂.1).mono
    intro _ s₃ h₃
    apply Runs.step rfl
    have hhead : Runs logExec t (Code.writeHead D) { s₃ with log := { s₃.log with lh := [] } } _ :=
      writeHead_runs (by decide) h₃
    exact hhead.mono fun _ _ _ => trivial
  · exact Runs.pure trivial

end

/-- A commit with every buffer pinned stops at the first log block. -/
theorem commit_stops (hL : LhOk D s.log.lh) (hlen : NBUF ≤ s.log.lh.length)
    (h : Pinned D.dev s.log.lh t [] s.cache) : Stops logExec t (Code.commit D) s .bgetNoBuffers := by
  have hpos : 0 < s.log.lh.length := Nat.lt_of_lt_of_le (by decide) hlen
  -- each buffer is that of a logged block
  have hall : ∀ i ∈ s.cache.lru, (s.cache.buf i).dev = D.dev ∧ (s.cache.buf i).blockno ∈ s.log.lh := by
    by_contra hno
    push Not at hno
    obtain ⟨i, hi, hne⟩ := hno
    let used := (Finset.range NBUF).filter fun j => (s.cache.buf j).dev = D.dev ∧ (s.cache.buf j).blockno ∈ s.log.lh
    have hsurj : Set.SurjOn (fun j => (s.cache.buf j).blockno) (used : Set Nat) (s.log.lh.toFinset : Set Nat) := by
      intro b hb
      have hb := List.mem_toFinset.mp hb
      obtain ⟨j, hj, hd, hbj⟩ := h.cached b hb
      have hlt : j < NBUF := List.mem_range.mp (h.lru.mem_iff.mp hj)
      refine ⟨j, ?_, hbj⟩
      rw [Finset.mem_coe, Finset.mem_filter, Finset.mem_range]
      exact ⟨hlt, hd, hbj ▸ hb⟩
    have hcard := Finset.card_le_card_of_surjOn _ hsurj
    rw [List.toFinset_card_of_nodup hL.nodup] at hcard
    have hlt : used.card < (Finset.range NBUF).card := by
      refine Finset.card_lt_card ⟨Finset.filter_subset _ _, fun hsub => ?_⟩
      have hi' := hsub (Finset.mem_range.mpr (List.mem_range.mp (h.lru.mem_iff.mp hi)))
      exact hne (Finset.mem_filter.mp hi').2.1 (Finset.mem_filter.mp hi').2.2
    rw [Finset.card_range] at hlt
    omega
  have hget : logExec t (.bget D.dev (D.start + 0 + 1)) s = some (.error .bgetNoBuffers) := by
    have hmiss : s.cache.lru.find? (s.cache.caches D.dev (D.start + 0 + 1)) = none := by
      rw [List.find?_eq_none]
      intro i hi hc
      simp only [Bcache.caches, Bool.and_eq_true, beq_iff_eq] at hc
      have hmem := (hall i hi).2
      exact LogDev.home_ne_slot (j := 0) (hL.home _ hmem) (by decide) hc.2
    have hused : s.cache.lru.reverse.find? (fun i => (s.cache.buf i).refcnt == 0) = none := by
      rw [List.find?_eq_none]
      intro i hi h0
      have hi := List.mem_reverse.mp hi
      have hr := h.refcnt i hi
      rw [if_pos (hall i hi)] at hr
      simp only [beq_iff_eq] at h0
      omega
    simp only [logExec, Bcache.bget, hmiss, hused]
  obtain ⟨n, hn⟩ : ∃ n, s.log.lh.length = n + 1 := ⟨s.log.lh.length - 1, by omega⟩
  apply Stops.step rfl
  rw [if_pos hpos]
  apply Stops.bind
  apply Stops.step rfl
  rw [hn, List.range_succ_eq_map]
  apply Stops.bind
  apply Stops.bind
  apply Stops.bind
  exact Stops.bind (Stops.call hget)

end Commit

/-- The cache where no thread holds a buffer and no commit runs. -/
theorem CacheInv.pinned {dev : Nat} {cur : Nat → Block} {P : List Nat} {c : Bcache} {η : Tid → Hold}
    (h : CacheInv dev cur P c η) (hno : ∀ i < NBUF, (c.buf i).users = []) (t : Tid) : Pinned dev P t [] c := by
  have hlt : ∀ i ∈ c.lru, i < NBUF := fun i hi => List.mem_range.mp (h.lru.mem_iff.mp hi)
  refine ⟨h.lru, fun i _ j _ => h.key i j, fun b hb => ?_, fun i hi => ?_, fun i hi => ?_, by simp⟩
  · obtain ⟨i, hd, hb, -⟩ := h.cached b hb
    exact ⟨i, h.mem_lru hd, hd, hb⟩
  · rw [(h.buf i).refcnt, (h.buf i).pins, hno i (hlt i hi)]
    simp
  · simp only [List.not_mem_nil, if_false]
    apply Option.eq_none_iff_forall_not_mem.mpr
    intro u hu
    obtain ⟨l, hl⟩ := ((h.buf i).thr u).owner.mp hu
    have hcount := ((h.buf i).thr u).users
    rw [hno i (hlt i hi), At.count, hl] at hcount
    simp at hcount

/-- **A commit finds its buffers** exactly if fewer blocks are logged than there are buffers: the thread
of the last operation calls `end_op`, and no thread holds a buffer. -/
theorem endOp_returns_iff {D : LogDev} {s₀ : LogSt} {c : Conf LogAct LogSt LogClient} {t : Tid} {cl : LogClient}
    (h₀ : Booted D s₀) (hc : (LogSys D).Reach s₀.idle c) (ht : c.thr t = .idle cl) (hop : cl.inOp = true)
    (hlast : c.st.log.outstanding = 1) (hno : ∀ i < NBUF, (c.st.buf i).users = []) :
    (∃ s', (Code.endOp D).run logExec t c.st = some (.ok ((), s'))) ↔ c.st.log.lh.length < NBUF := by
  obtain ⟨γ, ⟨ph, hL, hcache⟩, hθ⟩ := reach_ok h₀.all hc
  have hγ : γ t = cl.ghost := by
    have h := hθ t
    rw [ht] at h
    exact h
  have hph : ph = .idle := hL.idle_of_inOp (t := t) (by rw [hγ]; exact hop)
  subst hph
  have hcm : c.st.log.committing = false := by
    rw [Bool.eq_false_iff]
    intro h
    exact (hL.committing.mp h).2 rfl
  have hpin : Pinned D.dev c.st.log.lh t [] c.st.cache := hcache.pinned hno t
  obtain ⟨s₁, hend, hlh, hcc⟩ : ∃ s₁, logExec t .endOp c.st = some (.ok (true, s₁)) ∧
      s₁.log.lh = c.st.log.lh ∧ s₁.cache = c.st.cache :=
    ⟨{ c.st with log := { c.st.log with outstanding := 0, committing := true }, hist := .ended t true :: c.st.hist },
      by simp [logExec, Log.endOp, hcm, hlast], rfl, rfl⟩
  have hlhok := hL.lh
  rw [← hlh, ← hcc] at hpin
  rw [← hlh] at hlhok ⊢
  constructor
  · rintro ⟨s', hrun⟩
    by_contra hge
    have hstop : Stops logExec t (Code.endOp D) c.st .bgetNoBuffers := by
      apply Stops.step hend
      exact Stops.bind (commit_stops hlhok (Nat.le_of_not_lt hge) hpin)
    exact hstop.not_runs (Q := fun _ _ => True) ⟨(), s', hrun, trivial⟩
  · intro hlt
    have hrun : Runs logExec t (Code.endOp D) c.st fun _ _ => True := by
      apply Runs.step hend
      apply Runs.bind
      apply (commit_runs hlhok hlt hpin).mono
      intro _ s₂ _
      exact Runs.call rfl trivial
    obtain ⟨_, s', hr, -⟩ := hrun
    exact ⟨s', hr⟩

/-! ## A full log -/

/-- The calls of a client, by name; a buffer is named by its index. -/
inductive LogKey where
  | beginOp
  | bread (b : Nat)
  | logWrite (i : Nat)
  | brelse (i : Nat)
  | endOp

def logMenu (D : LogDev) : Menu LogAct LogSt LogClient LogKey := fun _ _ c k =>
  match k with
  | .beginOp => if c.inOp then none else some c.beginOp
  | .bread b => if b < 2 ^ 32 then some (c.bread D b) else none
  | .logWrite i =>
    match c.locks i with
    | some l => if c.inOp && !D.isLog l.b then some (c.logWrite i l) else none
    | none => none
  | .brelse i =>
    match c.locks i with
    | some l => if l.dirty.isNone then some (c.brelse i) else none
    | none => none
  | .endOp => if c.inOp then some (c.endOp D) else none

/-- Thread `t` logs block `b`, for which it gets buffer `i`. -/
def logOne (t b i : Nat) : List (Move LogKey) :=
  [.call t (.bread b), .go t 10, .call t (.logWrite i), .go t 10, .call t (.brelse i), .go t 10]

/-- Three operations log ten blocks each, and two of them end. -/
def fullLog : List (Move LogKey) :=
  [.call 0 .beginOp, .go 0 10, .call 1 .beginOp, .go 1 10, .call 2 .beginOp, .go 2 10] ++
  (List.range LOGBLOCKS).flatMap (fun k => logOne (k / MAXOPBLOCKS) (40 + k) ((k + 1) % NBUF)) ++
  [.call 0 .endOp, .go 0 10, .call 1 .endOp, .go 1 10]

/-- Thread `t` is in the only operation, and no thread holds a buffer. -/
def lastOp (t : Tid) (c : Conf LogAct LogSt LogClient) : Bool :=
  (match c.thr t with
    | .idle cl => cl.inOp
    | .busy _ => false) &&
  (c.st.log.outstanding == 1) && (List.range NBUF).all fun i => (c.st.buf i).users.isEmpty

theorem lastOp_elim {t : Tid} {c : Conf LogAct LogSt LogClient} (h : lastOp t c = true) :
    ∃ cl, c.thr t = .idle cl ∧ cl.inOp = true ∧ c.st.log.outstanding = 1 ∧
      ∀ i < NBUF, (c.st.buf i).users = [] := by
  simp only [lastOp, Bool.and_eq_true, beq_iff_eq, List.all_eq_true, List.mem_range, List.isEmpty_iff] at h
  obtain ⟨⟨hthr, hout⟩, husers⟩ := h
  split at hthr
  · rename_i cl hcl
    exact ⟨cl, hcl, hthr, hout, husers⟩
  · cases hthr

theorem logMenu_call (D : LogDev) (t : Tid) (s : LogSt) (c : LogClient) (k : LogKey)
    (p : Prog LogAct LogClient) (h : logMenu D t s c k = some p) : (LogSys D).call t s c p := by
  cases k with
  | beginOp =>
    simp only [logMenu] at h
    split at h
    · cases h
    · rename_i ho
      cases h
      exact .beginOp (by simpa using ho)
  | bread b =>
    simp only [logMenu] at h
    split at h
    · rename_i hb
      cases h
      exact .bread b hb
    · cases h
  | logWrite i =>
    simp only [logMenu] at h
    split at h
    · rename_i l hl
      split at h
      · rename_i hc
        simp only [Bool.and_eq_true, Bool.not_eq_true'] at hc
        cases h
        exact .logWrite i l hl hc.1 hc.2
      · cases h
    · cases h
  | brelse i =>
    simp only [logMenu] at h
    split at h
    · rename_i l hl
      split at h
      · rename_i hd
        cases h
        exact .brelse i l hl (by simpa using hd)
      · cases h
    · cases h
  | endOp =>
    simp only [logMenu] at h
    split at h
    · rename_i ho
      cases h
      exact .endOp ho
    · cases h

/-- One logged block. -/
theorem endOp_returns_iff_oneBlock : ∃ c s', (LogSys rootDev).Reach zeroBoot.idle c ∧ c.st.log.lh = [40] ∧
    (Code.endOp rootDev).run logExec 0 c.st = some (.ok ((), s')) := by
  have hplay : (play (LogSys rootDev).exec (logMenu rootDev) zeroBoot.idle
      ([.call 0 .beginOp, .go 0 10] ++ logOne 0 40 1)).any
      (fun c => lastOp 0 c && (c.st.log.lh == [40])) = true := by decide +kernel
  obtain ⟨c, hc, hlast⟩ := Sys.exists_of_play (logMenu_call rootDev) hplay
  simp only [Bool.and_eq_true, beq_iff_eq] at hlast
  obtain ⟨cl, ht, hop, hout, hno⟩ := lastOp_elim hlast.1
  have hlt : c.st.log.lh.length < NBUF := by
    rw [hlast.2]
    decide
  obtain ⟨s', hrun⟩ := (endOp_returns_iff zeroBoot_booted hc ht hop hout hno).mpr hlt
  exact ⟨c, s', hc, hlast.2, hrun⟩

/-- If a run stops because there is no buffer. -/
def noBuffers {α : Type} : Option (Except Panic α) → Bool
  | some (.error .bgetNoBuffers) => true
  | _ => false

theorem noBuffers_elim {α : Type} {r : Option (Except Panic α)} (h : noBuffers r = true) :
    r = some (.error .bgetNoBuffers) := by
  unfold noBuffers at h
  split at h
  · rfl
  · cases h

/-- With `LOGBLOCKS` logged blocks, ten by each of three operations, the commit finds no buffer for the
first log block. -/
theorem fullLog_no_buffers : ∃ c cl, Booted rootDev zeroBoot ∧ (LogSys rootDev).Reach zeroBoot.idle c ∧
    c.thr 2 = .idle cl ∧ cl.inOp = true ∧ c.st.log.outstanding = 1 ∧ (∀ i < NBUF, (c.st.buf i).users = []) ∧
    c.st.log.lh.length = LOGBLOCKS ∧
    (Code.endOp rootDev).run logExec 2 c.st = some (.error .bgetNoBuffers) := by
  have hplay : (play (LogSys rootDev).exec (logMenu rootDev) zeroBoot.idle fullLog).any (fun c =>
      lastOp 2 c && (c.st.log.lh.length == LOGBLOCKS) &&
      noBuffers ((Code.endOp rootDev).run logExec 2 c.st)) = true := by decide +kernel
  obtain ⟨c, hc, h⟩ := Sys.exists_of_play (logMenu_call rootDev) hplay
  simp only [Bool.and_eq_true, beq_iff_eq] at h
  obtain ⟨⟨hlast, hlen⟩, hstop⟩ := h
  obtain ⟨cl, ht, hop, hout, hno⟩ := lastOp_elim hlast
  exact ⟨c, cl, zeroBoot_booted, hc, ht, hop, hout, hno, hlen, noBuffers_elim hstop⟩

end Xv6
