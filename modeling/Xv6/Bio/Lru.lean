import Mathlib.Algebra.Group.Nat.Defs
import Mathlib.Data.List.Range
import Xv6.Bio.Cache
import Xv6.Lib.Links

/-!
# The links of the buffer cache

`bcache` of `kernel/bio.c` with the pointers `prev` and `next` and with `refcnt` as a `uint`: the sections of `bget`,
`brelse`, `bpin` and `bunpin` under `bcache.lock`, and `binit`. The histories `users` and `pins` of a buffer are those
of `Xv6.Bio.Cache`.

In every run the pointers make one ring with all the buffers, a block is in one buffer, and `bget` recycles the last
buffer in the ring without references. `refcnt` is the number of references exactly as long as it is a `uint`
(`bcache_right_iff`).
-/

namespace Xv6.Lru

open Function (update update_apply update_of_ne update_self)

open Conc Dll

/-- The node of `bcache.head`. -/
abbrev HEAD : Nat := NBUF

/-- `bcache`. -/
structure Cache where
  buf : Nat → Buf
  links : Links Nat

variable {c c' : Cache} {t : Tid} {l : List Nat} {dev blockno i j : Nat}

namespace Cache

/-- Buffer `i` changed by `f`. -/
def upd (c : Cache) (i : Nat) (f : Buf → Buf) : Cache := { c with buf := update c.buf i (f (c.buf i)) }

/-- `binit`. -/
def binit : Cache where
  buf := fun _ => {}
  links := (List.range NBUF).foldl (fun k b => k.push HEAD b)
    { next := update (fun _ => 0) HEAD HEAD, prev := update (fun _ => 0) HEAD HEAD }

/-- `b->dev == dev && b->blockno == blockno`. -/
def caches (c : Cache) (dev blockno i : Nat) : Bool := (c.buf i).dev == dev && (c.buf i).blockno == blockno

/-- `b->refcnt == 0`. -/
def unused (c : Cache) (i : Nat) : Bool := (c.buf i).refcnt == 0

/-- `b->refcnt++`. -/
def incr (refcnt : Nat) : Nat := (refcnt + 1) % 2 ^ 32

/-- `b->refcnt--`. -/
def decr (refcnt : Nat) : Nat := (refcnt + (2 ^ 32 - 1)) % 2 ^ 32

/-- The section of `bget`, for thread `t`. -/
def bget (c : Cache) (t : Tid) (dev blockno : Nat) : Except Panic (Nat × Cache) :=
  match seek c.links.next HEAD (c.caches dev blockno) (NBUF + 1) (c.links.next HEAD) with
  | some i => .ok (i, c.upd i fun b => { b with refcnt := incr b.refcnt, users := t :: b.users })
  | none =>
    match seek c.links.prev HEAD c.unused (NBUF + 1) (c.links.prev HEAD) with
    | some i => .ok (i, c.upd i fun b => { b with dev, blockno, valid := false, refcnt := 1, users := t :: b.users })
    | none => .error .bgetNoBuffers

/-- The section of `brelse`, for thread `t`. -/
def brelse (c : Cache) (t : Tid) (i : Nat) : Cache :=
  let c := c.upd i fun b => { b with refcnt := decr b.refcnt, users := b.users.erase t }
  if c.unused i then { c with links := (c.links.unlink i).push HEAD i } else c

/-- `bpin`. -/
def bpin (c : Cache) (i : Nat) : Cache := c.upd i fun b => { b with refcnt := incr b.refcnt, pins := b.pins + 1 }

/-- `bunpin`. -/
def bunpin (c : Cache) (i : Nat) : Cache := c.upd i fun b => { b with refcnt := decr b.refcnt, pins := b.pins - 1 }

end Cache

/-- A call; each `brelse` is of a buffer that the thread has, and each `bunpin` of a buffer that is pinned. -/
inductive Step : Cache → Cache → Prop where
  | bget {c c' : Cache} {t : Tid} {dev blockno i : Nat} (h : c.bget t dev blockno = .ok (i, c')) : Step c c'
  | brelse {c : Cache} {t : Tid} {i : Nat} (hi : i < NBUF) (h : t ∈ (c.buf i).users) : Step c (c.brelse t i)
  | bpin {c : Cache} {i : Nat} (hi : i < NBUF) : Step c (c.bpin i)
  | bunpin {c : Cache} {i : Nat} (hi : i < NBUF) (h : 0 < (c.buf i).pins) : Step c (c.bunpin i)

/-- The references to a buffer. -/
def refs (b : Buf) : Nat := b.users.length + b.pins

/-- A block is in one buffer. -/
def Unique (c : Cache) : Prop := ∀ i < NBUF, ∀ j < NBUF, (c.buf i).dev ≠ 0 → (c.buf j).dev = (c.buf i).dev →
  (c.buf j).blockno = (c.buf i).blockno → j = i

/-- The invariant; `l` is the ring. -/
structure Ok (c : Cache) (l : List Nat) : Prop where
  ring : c.links.IsRing HEAD l
  perm : l.Perm (List.range NBUF)
  unique : Unique c
  refs : ∀ i < NBUF, (c.buf i).refcnt = refs (c.buf i) % 2 ^ 32

namespace Ok

theorem mem (h : Ok c l) : i ∈ l ↔ i < NBUF := h.perm.mem_iff.trans List.mem_range

theorem length (h : Ok c l) : l.length < NBUF + 1 := by
  rw [h.perm.length_eq, List.length_range]
  exact Nat.lt_succ_self _

/-- A change of the references to one buffer. -/
theorem upd {f : Buf → Buf} (h : Ok c l) (hd : (f (c.buf i)).dev = (c.buf i).dev)
    (hb : (f (c.buf i)).blockno = (c.buf i).blockno)
    (hr : i < NBUF → (f (c.buf i)).refcnt = Lru.refs (f (c.buf i)) % 2 ^ 32) : Ok (c.upd i f) l := by
  have hdev : ∀ j, ((c.upd i f).buf j).dev = (c.buf j).dev ∧ ((c.upd i f).buf j).blockno = (c.buf j).blockno := by
    intro j
    by_cases hj : j = i
    · subst hj
      simp only [Cache.upd, update_self]
      exact ⟨hd, hb⟩
    · simp only [Cache.upd, update_of_ne hj, and_self]
  refine ⟨h.ring, h.perm, ?_, ?_⟩
  · intro j hj k hk
    rw [(hdev j).1, (hdev j).2, (hdev k).1, (hdev k).2]
    exact h.unique j hj k hk
  · intro j hj
    by_cases he : j = i
    · subst he
      simpa only [Cache.upd, update_self] using hr hj
    · simpa only [Cache.upd, update_of_ne he] using h.refs j hj

/-- The search for the block goes through the ring. -/
theorem seek_block (h : Ok c l) :
    seek c.links.next HEAD (c.caches dev blockno) (NBUF + 1) (c.links.next HEAD) = l.find? (c.caches dev blockno) :=
  h.ring.seek_next h.length

/-- The search for a buffer to recycle goes through it from the end. -/
theorem seek_unused (h : Ok c l) :
    seek c.links.prev HEAD c.unused (NBUF + 1) (c.links.prev HEAD) = l.reverse.find? c.unused :=
  h.ring.seek_prev h.length

/-- A buffer without references takes a block that is in no buffer. -/
theorem recycle (h : Ok c l) (hi : i < NBUF) (h0 : (c.buf i).refcnt = 0)
    (hno : ∀ j < NBUF, c.caches dev blockno j = false) : Ok (c.upd i fun b =>
      { b with dev, blockno, valid := false, refcnt := 1, users := t :: b.users }) l := by
  have hother : ∀ j < NBUF, (c.buf j).dev = dev → (c.buf j).blockno ≠ blockno := by
    intro j hj hd hb
    have := hno j hj
    simp [Cache.caches, hd, hb] at this
  refine ⟨h.ring, h.perm, ?_, ?_⟩
  · intro j hj k hk
    simp only [Cache.upd, update_apply]
    split
    · split
      · intros
        simp_all
      · intro _ hd hb
        exact absurd hb (hother k hk hd)
    · split
      · intro _ hd hb
        exact absurd hb.symm (hother j hj hd.symm)
      · exact h.unique j hj k hk
  · intro j hj
    by_cases he : j = i
    · subst he
      have hr := h.refs j hj
      simp only [Cache.upd, update_self, Lru.refs, List.length_cons] at hr ⊢
      omega
    · simpa only [Cache.upd, update_of_ne he] using h.refs j hj

theorem bget (h : Ok c l) (hr : c.bget t dev blockno = .ok (i, c')) : Ok c' l := by
  unfold Cache.bget at hr
  rw [h.seek_block, h.seek_unused] at hr
  cases hf : l.find? (c.caches dev blockno) with
  | some k =>
    rw [hf] at hr
    cases hr
    refine h.upd rfl rfl fun hi => ?_
    have := h.refs i hi
    simp only [Cache.incr, Lru.refs, List.length_cons] at this ⊢
    omega
  | none =>
    rw [hf] at hr
    cases hu : l.reverse.find? c.unused with
    | none =>
      rw [hu] at hr
      cases hr
    | some k =>
      rw [hu] at hr
      cases hr
      have hk := h.mem.mp (List.mem_reverse.mp (List.mem_of_find?_eq_some hu))
      have h0 : c.unused i = true := List.find?_some hu
      refine h.recycle hk (beq_iff_eq.mp h0) fun j hj => ?_
      simpa using List.find?_eq_none.mp hf j (h.mem.mpr hj)

theorem brelse (h : Ok c l) (hi : i < NBUF) (ht : t ∈ (c.buf i).users) : ∃ l', Ok (c.brelse t i) l' := by
  have h' : Ok (c.upd i fun b => { b with refcnt := Cache.decr b.refcnt, users := b.users.erase t }) l := by
    refine h.upd rfl rfl fun _ => ?_
    have hr := h.refs i hi
    have hlen := List.length_erase_of_mem ht
    have hpos := List.length_pos_of_mem ht
    simp only [Cache.decr, Lru.refs] at hr ⊢
    omega
  unfold Cache.brelse
  simp only
  split
  · refine ⟨i :: l.erase i, ?_, ?_, h'.unique, h'.refs⟩
    · refine (h'.ring.unlink (h'.mem.mpr hi)).push ?_
      have hn := List.nodup_cons.mp h.ring.nodup
      rw [List.mem_cons, not_or]
      exact ⟨Nat.ne_of_lt hi, fun hm => (hn.2.mem_erase_iff.mp hm).1 rfl⟩
    · exact (List.perm_cons_erase (h.mem.mpr hi)).symm.trans h.perm
  · exact ⟨l, h'⟩

/-- A call keeps the invariant. -/
theorem step (h : Ok c l) (hs : Step c c') : ∃ l', Ok c' l' := by
  cases hs with
  | bget hr => exact ⟨l, h.bget hr⟩
  | brelse hi ht => exact h.brelse hi ht
  | bpin hi =>
    refine ⟨l, h.upd rfl rfl fun _ => ?_⟩
    have := h.refs _ hi
    simp only [Cache.incr, Lru.refs] at this ⊢
    omega
  | bunpin hi hp =>
    refine ⟨l, h.upd rfl rfl fun _ => ?_⟩
    have := h.refs _ hi
    simp only [Cache.decr, Lru.refs] at this ⊢
    omega

end Ok

/-- The loop of `binit`, over the first buffers. -/
theorem isRing_binit {k : Links Nat} (hk : k.IsRing HEAD []) {n : Nat} (hn : n ≤ NBUF) :
    ((List.range n).foldl (fun k b => k.push HEAD b) k).IsRing HEAD (List.range n).reverse := by
  induction n with
  | zero => exact hk
  | succ n ih =>
    rw [List.range_succ, List.foldl_append, List.reverse_append]
    refine (ih (by omega)).push ?_
    have hne : n ≠ HEAD := Nat.ne_of_lt hn
    simp [hne]

theorem ok_binit : Ok Cache.binit (List.range NBUF).reverse where
  ring := isRing_binit (Links.isRing_nil rfl rfl) le_rfl
  perm := List.reverse_perm _
  unique _ _ _ _ hd := absurd rfl hd
  refs _ _ := rfl

theorem ok_of_run (h : Relation.ReflTransGen Step Cache.binit c) : ∃ l, Ok c l := by
  induction h with
  | refl => exact ⟨_, ok_binit⟩
  | tail _ hs ih =>
    obtain ⟨l, hl⟩ := ih
    exact hl.step hs

/-- What `bget` of a block that is in no buffer does: it takes the last buffer of the ring without references. -/
def Recycles (c : Cache) (l : List Nat) : Prop := ∀ t dev blockno, (∀ j < NBUF, c.caches dev blockno j = false) →
  match c.bget t dev blockno with
  | .ok (i, _) => l.reverse.find? c.unused = some i
  | .error _ => ∀ j < NBUF, (c.buf j).refcnt ≠ 0

theorem Ok.recycles (h : Ok c l) : Recycles c l := by
  intro t dev blockno hno
  have hf : l.find? (c.caches dev blockno) = none :=
    List.find?_eq_none.mpr fun j hj => by simp [hno j (h.mem.mp hj)]
  unfold Cache.bget
  rw [h.seek_block, h.seek_unused, hf]
  cases hu : l.reverse.find? c.unused with
  | some i => rfl
  | none =>
    intro j hj h0
    have := List.find?_eq_none.mp hu j (List.mem_reverse.mpr (h.mem.mpr hj))
    simp [Cache.unused, h0] at this

/-- The buffer cache is as it should be, with the ring `l`. -/
structure Right (c : Cache) (l : List Nat) : Prop where
  ring : c.links.IsRing HEAD l
  once : l.Perm (List.range NBUF)
  unique : Unique c
  refcnt : ∀ i < NBUF, (c.buf i).refcnt = (c.buf i).users.length + (c.buf i).pins
  recycles : Recycles c l

/-- After any calls, the cache is as it should be if and only if no buffer has `2^32` references or more. -/
theorem bcache_right_iff (h : Relation.ReflTransGen Step Cache.binit c) :
    (∃ l, Right c l) ↔ ∀ i < NBUF, (c.buf i).users.length + (c.buf i).pins < 2 ^ 32 := by
  obtain ⟨l, hl⟩ := ok_of_run h
  constructor
  · rintro ⟨l', hr⟩ i hi
    have hrefs := hl.refs i hi
    rw [hr.refcnt i hi] at hrefs
    rw [hrefs]
    exact Nat.mod_lt _ (by decide)
  · intro hb
    exact ⟨l, hl.ring, hl.perm, hl.unique, fun i hi => (hl.refs i hi).trans (Nat.mod_eq_of_lt (hb i hi)), hl.recycles⟩

theorem bcache_right_iff_pinned : Relation.ReflTransGen Step Cache.binit (Cache.binit.bpin 3) ∧
    ∃ l, Right (Cache.binit.bpin 3) l := by
  have hrun : Relation.ReflTransGen Step Cache.binit (Cache.binit.bpin 3) := .single (.bpin (by decide))
  refine ⟨hrun, (bcache_right_iff hrun).mpr fun i _ => ?_⟩
  have hle : (Cache.binit.bpin 3).buf i = {} ∨ (Cache.binit.bpin 3).buf i = { refcnt := 1, pins := 1 } := by
    by_cases hi : i = 3
    · exact .inr (by rw [hi]; rfl)
    · exact .inl (update_of_ne hi _ _)
  rcases hle with e | e <;> rw [e] <;> decide

/-- Buffer 0 after `n` calls of `bpin`. -/
theorem pinned_run (n : Nat) : ∃ c, Relation.ReflTransGen Step Cache.binit c ∧
    c.buf 0 = { refcnt := n % 2 ^ 32, pins := n } := by
  induction n with
  | zero => exact ⟨_, .refl, rfl⟩
  | succ n ih =>
    obtain ⟨c, hc, hb⟩ := ih
    refine ⟨c.bpin 0, hc.tail (.bpin (by decide)), ?_⟩
    simp only [Cache.bpin, Cache.upd, update_self, hb, Cache.incr]
    rw [Nat.mod_add_mod]

/-- After `2^32` calls of `bpin`, `refcnt` is 0. -/
theorem bcache_refcnt_wraps : ∃ c, Relation.ReflTransGen Step Cache.binit c ∧ (c.buf 0).refcnt = 0 ∧
    (c.buf 0).users.length + (c.buf 0).pins = 2 ^ 32 := by
  obtain ⟨c, hc, hb⟩ := pinned_run (2 ^ 32)
  refine ⟨c, hc, ?_⟩
  rw [hb]
  exact ⟨Nat.mod_self _, Nat.zero_add _⟩

end Xv6.Lru
