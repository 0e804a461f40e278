import Mathlib.Algebra.Group.Nat.Defs
import Mathlib.Data.List.Range
import Xv6.Bio.Cache

/-!
# The invariant of the buffer cache

`CacheInv` relates the cache to what the threads hold (`Hold`), to the contents `cur b` that block
`b` has for a reader, and to the blocks that the log has pinned.

* A thread holds at most one reference without the lock, in the middle of `bget` or `brelse`, and
  any number of locked buffers.
* `BufOk` is the part about one buffer. It reads what the threads hold of this buffer only
  (`Hold.on`), so a step that touches buffer `i` leaves it alone for the others
  (`CacheInv.upd`), and what is left to prove of a step is one lemma about `BufOk`.
-/

namespace Xv6

open Conc
open Function (update update_comm update_eq_self update_idem update_of_ne)

/-- A buffer that a thread has locked: the block, `b->valid`, the contents that the thread stored
and did not pass to `log_write` or `bwrite` yet, and if the thread passed it to `log_write`. -/
structure Lk where
  b : Nat
  valid : Bool := true
  dirty : Option Block := none
  wrote : Bool := false

/-- What a thread holds of the buffer cache. -/
structure Hold where
  /-- A buffer that the thread refers to and has not locked, with its block. -/
  ref : Option (Nat × Nat) := none
  /-- The buffers that the thread has locked. -/
  locks : Nat → Option Lk := fun _ => none

/-- What a thread holds of one buffer. -/
structure At where
  ref : Option Nat := none
  lock : Option Lk := none

/-- How many references of the thread are in the buffer's `refcnt`. -/
def At.count (a : At) : Nat := a.ref.toList.length + a.lock.toList.length

namespace Hold

/-- What the thread holds of buffer `i`. -/
def on (h : Hold) (i : Nat) : At where
  ref := match h.ref with
    | some (j, b) => if j = i then some b else none
    | none => none
  lock := h.locks i

/-- The thread holds `l` of buffer `i`. -/
def setLock (h : Hold) (i : Nat) (l : Option Lk) : Hold :=
  { h with locks := Function.update h.locks i l }

/-- The thread has the reference `r`. -/
def setRef (h : Hold) (r : Option (Nat × Nat)) : Hold := { h with ref := r }

@[simp] theorem setLock_same (h : Hold) (i : Nat) (l : Option Lk) : (h.setLock i l).locks i = l := by
  simp [setLock]

variable {i j : Nat} {h : Hold}

theorem setLock_ne (h : Hold) (l : Option Lk) (hj : j ≠ i) : (h.setLock i l).locks j = h.locks j := by
  simp [setLock, update_of_ne hj]

@[simp] theorem setLock_idem (h : Hold) (i : Nat) (l l' : Option Lk) :
    (h.setLock i l).setLock i l' = h.setLock i l' := by
  simp [setLock]

theorem setLock_swap (h : Hold) (l l' k : Option Lk) (hj : j ≠ i) :
    ((h.setLock i l).setLock j l').setLock i k = (h.setLock i k).setLock j l' := by
  simp only [setLock]
  rw [update_comm hj, update_idem]

theorem setLock_none (hi : h.locks i = none) : h.setLock i none = h := by
  rw [setLock, ← hi, update_eq_self]

theorem setRef_none (hr : h.ref = none) (x : Option (Nat × Nat)) : (h.setRef x).setRef none = h := by
  cases h with
  | mk ref locks =>
    simp only at hr
    subst hr
    rfl

@[simp] theorem setLock_on_same (h : Hold) (i : Nat) (l : Option Lk) :
    (h.setLock i l).on i = { h.on i with lock := l } := by
  simp [setLock, on]

theorem setLock_on_ne (h : Hold) (l : Option Lk) (hj : j ≠ i) : (h.setLock i l).on j = h.on j := by
  simp [setLock, on, update_of_ne hj]

@[simp] theorem setRef_some_on_same (h : Hold) (i b : Nat) :
    (h.setRef (some (i, b))).on i = { h.on i with ref := some b } := by
  simp [setRef, on]

@[simp] theorem setRef_none_on (h : Hold) (i : Nat) : (h.setRef none).on i = { h.on i with ref := none } := by
  simp [setRef, on]

theorem setRef_some_on_ne (h : Hold) {b : Nat} (hj : j ≠ i) :
    (h.setRef (some (i, b))).on j = { h.on j with ref := none } := by
  simp [setRef, on, Ne.symm hj]

theorem on_ref_none (hr : h.ref = none) (i : Nat) : (h.on i).ref = none := by
  simp [on, hr]

theorem on_ref_some {b : Nat} (hr : h.ref = some (i, b)) : (h.on i).ref = some b := by
  simp [on, hr]

end Hold

/-! ## One buffer -/

/-- What a lock says of its buffer: a clean buffer with data has the block's contents. -/
structure LkOk (dev : Nat) (cur : Nat → Block) (b : Buf) (l : Lk) : Prop where
  dev : b.dev = dev
  blockno : b.blockno = l.b
  lt : l.b < 2 ^ 32
  valid : b.valid = l.valid
  wrote : b.wrote = l.wrote
  dirty : ∀ d, l.dirty = some d → b.data = d
  clean : l.dirty = none → l.valid = true → b.data = cur l.b

theorem LkOk.congr {dev : Nat} {cur cur' : Nat → Block} {b : Buf} {l : Lk} (h : LkOk dev cur b l)
    (hc : cur' l.b = cur l.b) : LkOk dev cur' b l :=
  ⟨h.dev, h.blockno, h.lt, h.valid, h.wrote, h.dirty, fun hd hv => by rw [h.clean hd hv, hc]⟩

/-- The references, the pins and the owner do not matter to a lock. -/
theorem LkOk.refs {dev : Nat} {cur : Nat → Block} {b : Buf} {l : Lk} (h : LkOk dev cur b l) (n p : Nat)
    (us : List Tid) (o : Option Tid) : LkOk dev cur { b with refcnt := n, pins := p, users := us, owner := o } l :=
  ⟨h.dev, h.blockno, h.lt, h.valid, h.wrote, h.dirty, h.clean⟩

/-- What a thread's hold `a` of the buffer says. -/
structure HoldOk (dev : Nat) (cur : Nat → Block) (b : Buf) (t : Tid) (a : At) : Prop where
  users : b.users.count t = a.count
  owner : b.owner = some t ↔ ∃ l, a.lock = some l
  ref : ∀ x, a.ref = some x → b.dev = dev ∧ b.blockno = x ∧ x < 2 ^ 32
  lock : ∀ l, a.lock = some l → LkOk dev cur b l

/-- The invariant of one buffer; `v` is what each thread holds of it. -/
structure BufOk (dev : Nat) (cur : Nat → Block) (pinned : List Nat) (b : Buf) (v : Tid → At) :
    Prop where
  refcnt : b.refcnt = b.users.length + b.pins
  pins : b.pins = if b.dev = dev ∧ b.blockno ∈ pinned then 1 else 0
  free : b.owner = none → b.wrote = false
  clean : b.dev = dev → b.valid = true → b.owner = none → b.data = cur b.blockno
  thr : ∀ t, HoldOk dev cur b t (v t)

namespace BufOk

variable {dev : Nat} {cur cur' : Nat → Block} {pinned pinned' : List Nat} {b b' : Buf}
  {v : Tid → At} {t : Tid}

/-- A buffer without references: no thread holds anything of it, and it is not pinned. -/
theorem unused (h : BufOk dev cur pinned b v) (h0 : b.refcnt = 0) :
    b.users = [] ∧ b.pins = 0 ∧ ∀ u, (v u).ref = none ∧ (v u).lock = none := by
  have hr := h.refcnt
  have hu : b.users = [] := List.length_eq_zero_iff.mp (by omega)
  refine ⟨hu, by omega, fun u => ?_⟩
  have hc := (h.thr u).users
  rw [hu] at hc
  cases ha : (v u).ref <;> cases hl : (v u).lock <;> simp [At.count, ha, hl] at hc
  exact ⟨rfl, rfl⟩

/-- Only one thread has the lock. -/
theorem lock_unique (h : BufOk dev cur pinned b v) {u : Tid} {l l' : Lk}
    (ht : (v t).lock = some l) (hu : (v u).lock = some l') : u = t := by
  have h1 := (h.thr t).owner.mpr ⟨l, ht⟩
  have h2 := (h.thr u).owner.mpr ⟨l', hu⟩
  rw [h1] at h2
  exact (Option.some.inj h2).symm

/-- Other contents of other blocks, and other pins of other blocks. -/
theorem congr (h : BufOk dev cur pinned b v) (hc : b.dev = dev → cur' b.blockno = cur b.blockno)
    (hp : b.dev = dev → (b.blockno ∈ pinned' ↔ b.blockno ∈ pinned)) :
    BufOk dev cur' pinned' b v where
  refcnt := h.refcnt
  pins := by
    rw [h.pins]
    exact if_congr (and_congr_right fun hd => (hp hd).symm) rfl rfl
  free := h.free
  clean hd hv ho := by rw [h.clean hd hv ho, hc hd]
  thr u := by
    refine ⟨(h.thr u).users, (h.thr u).owner, (h.thr u).ref, fun l hl => ?_⟩
    have hk := (h.thr u).lock l hl
    refine hk.congr ?_
    rw [← hk.blockno, hc hk.dev]

/-- What the threads hold after an update of thread `t`'s hold. -/
theorem thr_update {a : At} (ht : HoldOk dev cur b' t a) (h : ∀ u, u ≠ t → HoldOk dev cur b' u (v u))
    (u : Tid) : HoldOk dev cur b' u (update v t a u) := by
  by_cases hu : u = t
  · subst hu; simpa using ht
  · rw [update_of_ne hu]; exact h u hu

section

variable (h : BufOk dev cur pinned b v)
include h

/-- Nobody else has the lock of a buffer that thread `t` has locked. -/
theorem others_unlocked {l : Lk} (hl : (v t).lock = some l) {u : Tid} (hu : u ≠ t) : (v u).lock = none := by
  cases h' : (v u).lock with
  | none => rfl
  | some l' => exact absurd (h.lock_unique hl h') hu

/-- The step of the thread that has the lock: the other threads' holds have no lock, and the
references stay. -/
theorem locked_step {l l' : Lk} (hl : (v t).lock = some l)
    (hus : b'.users = b.users) (ho : b'.owner = b.owner) (hd : b'.dev = b.dev)
    (hb : b'.blockno = b.blockno) (hr : b'.refcnt = b'.users.length + b'.pins)
    (hp : b'.pins = if b'.dev = dev ∧ b'.blockno ∈ pinned' then 1 else 0)
    (hk : LkOk dev cur' b' l') :
    BufOk dev cur' pinned' b' (update v t { v t with lock := some l' }) where
  refcnt := hr
  pins := hp
  free hn := by
    rw [ho, (h.thr t).owner.mpr ⟨l, hl⟩] at hn; cases hn
  clean _ _ hn := by
    rw [ho, (h.thr t).owner.mpr ⟨l, hl⟩] at hn; cases hn
  thr := by
    refine thr_update ?_ fun u hu => ?_
    · have ht := h.thr t
      refine ⟨?_, ?_, fun x hx => ?_, fun k hk' => ?_⟩
      · rw [hus, ht.users]; simp [At.count, hl]
      · rw [ho]; exact ⟨fun _ => ⟨l', rfl⟩, fun _ => ht.owner.mpr ⟨l, hl⟩⟩
      · rw [hd, hb]; exact ht.ref x hx
      · injection hk' with hk'; rw [← hk']; exact hk
    · have h' := h.thr u
      have hn := h.others_unlocked hl hu
      refine ⟨by rw [hus]; exact h'.users, by rw [ho]; exact h'.owner,
        fun x hx => by rw [hd, hb]; exact h'.ref x hx, fun k hk' => ?_⟩
      rw [hn] at hk'; cases hk'

/-- `bget` finds the buffer. -/
theorem addRef (hd : b.dev = dev) (hb : b.blockno < 2 ^ 32)
    (hr : (v t).ref = none) :
    BufOk dev cur pinned { b with refcnt := b.refcnt + 1, users := t :: b.users }
      (update v t { v t with ref := some b.blockno }) where
  refcnt := by have := h.refcnt; simp only [List.length_cons]; omega
  pins := h.pins
  free := h.free
  clean := h.clean
  thr := by
    refine thr_update ?_ fun u hu => ?_
    · have ht := h.thr t
      refine ⟨?_, ht.owner, fun x hx => ?_, fun l hl => (ht.lock l hl).refs ..⟩
      · rw [List.count_cons_self, ht.users]
        simp [At.count, hr]; omega
      · injection hx with hx
        exact ⟨hd, hx, hx ▸ hb⟩
    · have h' := h.thr u
      refine ⟨?_, h'.owner, h'.ref, fun l hl => (h'.lock l hl).refs ..⟩
      rw [List.count_cons_of_ne (Ne.symm hu)]; exact h'.users

/-- `bget` recycles the buffer for block `x`. -/
theorem recycle (h0 : b.refcnt = 0) {x : Nat} (hx : x < 2 ^ 32)
    (hp : x ∉ pinned) :
    BufOk dev cur pinned
      { b with dev, blockno := x, valid := false, refcnt := 1, users := t :: b.users }
      (update v t { v t with ref := some x }) := by
  obtain ⟨hus, hpn, hn⟩ := h.unused h0
  refine ⟨by simp [hus, hpn], by simp [hpn, hp], h.free, fun _ hv => (by cases hv), ?_⟩
  refine thr_update ?_ fun u hu => ?_
  · refine ⟨by simp [hus, At.count, (hn t).2], (h.thr t).owner, fun y hy => ?_, fun l hl => ?_⟩
    · injection hy with hy
      exact ⟨rfl, hy, hy ▸ hx⟩
    · simp only [(hn t).2] at hl; cases hl
  · refine ⟨?_, (h.thr u).owner, fun y hy => ?_, fun l hl => ?_⟩
    · rw [List.count_cons_of_ne (Ne.symm hu)]; exact (h.thr u).users
    · rw [(hn u).1] at hy; cases hy
    · rw [(hn u).2] at hl; cases hl

/-- `acquiresleep`: the reference becomes a lock. -/
theorem acquire (ho : b.owner = none) {x : Nat}
    (hr : (v t).ref = some x) :
    BufOk dev cur pinned { b with owner := some t }
      (update v t { ref := none, lock := some { b := x, valid := b.valid } }) := by
  have hnl : ∀ u, (v u).lock = none := fun u => by
    cases hl : (v u).lock with
    | none => rfl
    | some l => have := (h.thr u).owner.mpr ⟨l, hl⟩; rw [ho] at this; cases this
  obtain ⟨hd, hb, hx⟩ := (h.thr t).ref x hr
  refine ⟨h.refcnt, h.pins, fun hn => (by cases hn), fun _ _ hn => (by cases hn), ?_⟩
  refine thr_update ?_ fun u hu => ?_
  · refine ⟨?_, by simp, fun y hy => (by cases hy), fun l hl => ?_⟩
    · have := (h.thr t).users
      simpa [At.count, hr, hnl t] using this
    · injection hl with hl
      subst hl
      exact ⟨hd, hb, hx, rfl, h.free ho, fun d hd' => (by cases hd'),
        fun _ hv => by rw [← hb]; exact h.clean hd hv ho⟩
  · refine ⟨(h.thr u).users, ?_, (h.thr u).ref, fun l hl => ?_⟩
    · simp [hnl u, Ne.symm hu]
    · rw [hnl u] at hl; cases hl

/-- `releasesleep` of a clean buffer: the lock becomes a reference. -/
theorem release {l : Lk} (hl : (v t).lock = some l)
    (hd : l.dirty = none) (hr : (v t).ref = none) :
    BufOk dev cur pinned { b with owner := none, wrote := false }
      (update v t { ref := some l.b, lock := none }) := by
  have hk := (h.thr t).lock l hl
  refine ⟨h.refcnt, h.pins, fun _ => rfl, fun _ hv _ => ?_, ?_⟩
  · rw [hk.blockno]; exact hk.clean hd (by rw [← hk.valid]; exact hv)
  refine thr_update ?_ fun u hu => ?_
  · refine ⟨?_, by simp, fun y hy => ?_, fun l hl => by cases hl⟩
    · have := (h.thr t).users
      simpa [At.count, hr, hl] using this
    · injection hy with hy
      exact ⟨hk.dev, hk.blockno.trans hy, hy ▸ hk.lt⟩
  · have hn := h.others_unlocked hl hu
    refine ⟨(h.thr u).users, by simp [hn], (h.thr u).ref, fun l hl => ?_⟩
    rw [hn] at hl; cases hl

/-- The section of `brelse`. -/
theorem dropRef {x : Nat} (hr : (v t).ref = some x) :
    BufOk dev cur pinned { b with refcnt := b.refcnt - 1, users := b.users.erase t }
      (update v t { v t with ref := none }) := by
  have ht := h.thr t
  have hc : b.users.count t = (v t).lock.toList.length + 1 := by
    rw [ht.users]; simp [At.count, hr]; omega
  have hm : t ∈ b.users := List.count_pos_iff.mp (by omega)
  have hlen := List.length_erase_of_mem hm
  have hpos := List.length_pos_of_mem hm
  refine ⟨?_, h.pins, h.free, h.clean, ?_⟩
  · have := h.refcnt; simp only; omega
  refine thr_update ?_ fun u hu => ?_
  · refine ⟨?_, ht.owner, fun y hy => (by cases hy), fun l hl => (ht.lock l hl).refs ..⟩
    rw [List.count_erase_self, hc]; simp [At.count]
  · refine ⟨?_, (h.thr u).owner, (h.thr u).ref, fun l hl => ((h.thr u).lock l hl).refs ..⟩
    rw [List.count_erase_of_ne hu]; exact (h.thr u).users

end

end BufOk

/-! ## The cache -/

/-- The invariant of the cache (module doc). -/
structure CacheInv (dev : Nat) (cur : Nat → Block) (pinned : List Nat) (c : Bcache)
    (η : Tid → Hold) : Prop where
  lru : c.lru.Perm (List.range NBUF)
  mem : ∀ i, (c.buf i).dev = dev → i < NBUF
  /-- A block is cached once. -/
  key : ∀ i j, (c.buf i).dev = dev → (c.buf j).dev = dev →
    (c.buf i).blockno = (c.buf j).blockno → i = j
  buf : ∀ i, BufOk dev cur pinned (c.buf i) fun t => (η t).on i
  cached : ∀ x ∈ pinned, ∃ i, (c.buf i).dev = dev ∧ (c.buf i).blockno = x ∧
    (c.buf i).valid = true

namespace CacheInv

variable {dev : Nat} {cur cur' : Nat → Block} {pinned pinned' : List Nat} {c : Bcache}
  {η : Tid → Hold} {t : Tid} {i : Nat} {f : Buf → Buf} {h' : Hold}

theorem mem_lru (h : CacheInv dev cur pinned c η) (hd : (c.buf i).dev = dev) : i ∈ c.lru :=
  h.lru.mem_iff.mpr (List.mem_range.mpr (h.mem i hd))

/-- What the threads hold of buffer `i` after an update of thread `t`'s hold. -/
theorem on_update (η : Tid → Hold) (t : Tid) (h' : Hold) (i : Nat) :
    (fun u => (update η t h' u).on i) =
      update (fun u => (η u).on i) t (h'.on i) := by
  funext u
  by_cases hu : u = t
  · subst hu; simp
  · simp [update_of_ne hu]

/-- A thread's update that leaves its hold of buffer `i` alone. -/
theorem on_update_same (η : Tid → Hold) (t : Tid) {h' : Hold} {i : Nat}
    (h : h'.on i = (η t).on i) : (fun u => (update η t h' u).on i) = fun u => (η u).on i := by
  rw [on_update, h]
  exact update_eq_self t fun u => (η u).on i

section

variable (h : CacheInv dev cur pinned c η) (hd : (c.buf i).dev = dev) (hd' : (f (c.buf i)).dev = dev)
  (hb' : (f (c.buf i)).blockno = (c.buf i).blockno)
include h hd hd' hb'

/-- **A step on one buffer** that caches a block and goes on to cache it. The contents and the pins
of the other blocks stay, and so does what the thread holds of the other buffers. -/
theorem upd (hcur : ∀ x, x ≠ (c.buf i).blockno → cur' x = cur x)
    (hpin : ∀ x, x ≠ (c.buf i).blockno → (x ∈ pinned' ↔ x ∈ pinned))
    (hv : (c.buf i).blockno ∈ pinned' → (c.buf i).blockno ∉ pinned ∨ (c.buf i).valid = true →
      (f (c.buf i)).valid = true)
    (hon : ∀ j, j ≠ i → h'.on j = (η t).on j)
    (hi : BufOk dev cur' pinned' (f (c.buf i))
      (update (fun u => (η u).on i) t (h'.on i))) :
    CacheInv dev cur' pinned' (c.upd i f) (update η t h') where
  lru := h.lru
  mem j hj := by
    by_cases e : j = i
    · subst e; exact h.mem j hd
    · rw [Bcache.upd_ne _ _ e] at hj; exact h.mem j hj
  key j k hj hk hjk := by
    -- the step keeps every buffer's key
    have hkey : ∀ j, ((c.upd i f).buf j).blockno = (c.buf j).blockno ∧
        (((c.upd i f).buf j).dev = dev → (c.buf j).dev = dev) := by
      intro j
      by_cases e : j = i
      · subst e; rw [Bcache.upd_same]; exact ⟨hb', fun _ => hd⟩
      · rw [Bcache.upd_ne _ _ e]; exact ⟨rfl, id⟩
    rw [(hkey j).1, (hkey k).1] at hjk
    exact h.key j k ((hkey j).2 hj) ((hkey k).2 hk) hjk
  buf j := by
    by_cases e : j = i
    · subst e; rw [Bcache.upd_same, on_update]; exact hi
    · rw [Bcache.upd_ne _ _ e, on_update_same η t (hon j e)]
      have hne : (c.buf j).dev = dev → (c.buf j).blockno ≠ (c.buf i).blockno := fun hj hb =>
        e (h.key j i hj hd hb)
      exact (h.buf j).congr (fun hj => hcur _ (hne hj)) fun hj => hpin _ (hne hj)
  cached x hx := by
    by_cases e : x = (c.buf i).blockno
    · refine ⟨i, by simpa using hd', by simpa [e] using hb', ?_⟩
      subst e
      rw [Bcache.upd_same]
      refine hv hx ?_
      by_cases hp : (c.buf i).blockno ∈ pinned
      · obtain ⟨j, hj, hbj, hvj⟩ := h.cached _ hp
        rw [h.key j i hj hd hbj] at hvj
        exact .inr hvj
      · exact .inl hp
    · obtain ⟨j, hj, hbj, hvj⟩ := h.cached x ((hpin x e).mp hx)
      have hji : j ≠ i := fun hji => e (by rw [← hbj, hji])
      exact ⟨j, by rwa [Bcache.upd_ne _ _ hji], by rwa [Bcache.upd_ne _ _ hji],
        by rwa [Bcache.upd_ne _ _ hji]⟩

/-- A step on one buffer that changes neither the contents nor the pins of any block. -/
theorem upd_same_cur (hv : (c.buf i).valid = true → (f (c.buf i)).valid = true)
    (hon : ∀ j, j ≠ i → h'.on j = (η t).on j)
    (hi : BufOk dev cur pinned (f (c.buf i))
      (update (fun u => (η u).on i) t (h'.on i))) :
    CacheInv dev cur pinned (c.upd i f) (update η t h') :=
  h.upd hd hd' hb' (fun _ _ => rfl) (fun _ _ => Iff.rfl)
    (fun hp hpv => hpv.elim (fun hn => absurd hp hn) hv) hon hi

end

variable {l : Lk} {x : Nat}

section

variable (h : CacheInv dev cur pinned c η)
include h

/-- A thread that has the lock of a buffer knows the buffer. -/
theorem lkOk (hl : (η t).locks i = some l) :
    LkOk dev cur (c.buf i) l := ((h.buf i).thr t).lock l hl

theorem owner (hl : (η t).locks i = some l) :
    (c.buf i).owner = some t := ((h.buf i).thr t).owner.mpr ⟨l, hl⟩

/-- Two locks of one block are one lock. -/
theorem lock_eq {u : Tid} {j : Nat} {k : Lk} (hl : (η t).locks i = some l) (hk : (η u).locks j = some k)
    (hb : l.b = k.b) : j = i ∧ u = t := by
  have h1 := h.lkOk hl
  have h2 := h.lkOk hk
  have hij : j = i := h.key j i h2.dev h1.dev (by rw [h1.blockno, h2.blockno, hb])
  subst hij
  exact ⟨rfl, (h.buf j).lock_unique (t := t) (u := u) hl hk⟩

/-- A buffer without data does not hold a pinned block. -/
theorem not_pinned (hd : (c.buf i).dev = dev) (hv : (c.buf i).valid = false) : (c.buf i).blockno ∉ pinned := by
  intro hp
  obtain ⟨j, hj, hbj, hvj⟩ := h.cached _ hp
  rw [h.key j i hj hd hbj, hv] at hvj
  cases hvj

end

/-! ### The steps -/

section

variable (h : CacheInv dev cur pinned c η)
include h

/-- The section of `bget`. -/
theorem bget (hx : x < 2 ^ 32) (hr : (η t).ref = none) {c' : Bcache} (hg : c.bget t dev x = .ok (i, c')) :
    CacheInv dev cur pinned c' (update η t ((η t).setRef (some (i, x)))) := by
  have hon : ∀ j, j ≠ i → ((η t).setRef (some (i, x))).on j = (η t).on j := by
    intro j hj
    rw [Hold.setRef_some_on_ne _ hj]
    simp [Hold.on, hr]
  rcases Bcache.bget_ok hg with ⟨-, hd, hb, rfl⟩ | ⟨him, h0, hno, rfl⟩
  · refine h.upd_same_cur (f := fun b => { b with refcnt := b.refcnt + 1, users := t :: b.users })
      hd hd rfl id hon ?_
    subst hb
    have := (h.buf i).addRef (t := t) hd hx (Hold.on_ref_none hr i)
    simpa using this
  · -- no buffer caches the block, so it is not pinned, and the recycled buffer's key is new
    have hi : i < NBUF := List.mem_range.mp (h.lru.mem_iff.mp him)
    have hnew : ∀ j, (c.buf j).dev = dev → (c.buf j).blockno ≠ x := fun j hj hb =>
      hno j (h.mem_lru hj) ⟨hj, hb⟩
    have hpx : x ∉ pinned := fun hp => by
      obtain ⟨j, hj, hb, -⟩ := h.cached x hp
      exact hnew j hj hb
    refine ⟨h.lru, fun j hj => ?_, fun j k hj hk hjk => ?_, fun j => ?_, fun y hy => ?_⟩
    · by_cases e : j = i
      · exact e ▸ hi
      · rw [Bcache.upd_ne _ _ e] at hj; exact h.mem j hj
    · by_cases ej : j = i <;> by_cases ek : k = i
      · rw [ej, ek]
      · rw [ej, Bcache.upd_same, Bcache.upd_ne _ _ ek] at hjk
        rw [Bcache.upd_ne _ _ ek] at hk
        exact absurd hjk.symm (hnew k hk)
      · rw [ek, Bcache.upd_same, Bcache.upd_ne _ _ ej] at hjk
        rw [Bcache.upd_ne _ _ ej] at hj
        exact absurd hjk (hnew j hj)
      · rw [Bcache.upd_ne _ _ ej, Bcache.upd_ne _ _ ek] at hjk
        rw [Bcache.upd_ne _ _ ej] at hj
        rw [Bcache.upd_ne _ _ ek] at hk
        exact h.key j k hj hk hjk
    · by_cases e : j = i
      · subst e
        rw [Bcache.upd_same, on_update, Hold.setRef_some_on_same]
        exact (h.buf j).recycle (t := t) h0 hx hpx
      · rw [Bcache.upd_ne _ _ e, on_update_same η t (hon j e)]
        exact h.buf j
    · obtain ⟨j, hj, hb, hv⟩ := h.cached y hy
      have hpins := (h.buf j).pins
      rw [if_pos ⟨hj, hb ▸ hy⟩] at hpins
      have e : j ≠ i := fun e => by
        have := ((h.buf i).unused h0).2.1
        rw [e] at hpins; omega
      exact ⟨j, by rwa [Bcache.upd_ne _ _ e], by rwa [Bcache.upd_ne _ _ e],
        by rwa [Bcache.upd_ne _ _ e]⟩

/-- `acquiresleep` of a buffer that nobody has locked. -/
theorem acquiresleep (hr : (η t).ref = some (i, x))
    (ho : (c.buf i).owner = none) :
    CacheInv dev cur pinned (c.upd i fun b => { b with owner := some t })
      (update η t
        (((η t).setRef none).setLock i (some { b := x, valid := (c.buf i).valid }))) := by
  have hd := (((h.buf i).thr t).ref x (Hold.on_ref_some hr)).1
  refine h.upd_same_cur hd hd rfl id (fun j hj => ?_) ?_
  · rw [Hold.setLock_on_ne _ _ hj, Hold.setRef_none_on]
    simp [Hold.on, hr, Ne.symm hj]
  · have := (h.buf i).acquire (t := t) ho (Hold.on_ref_some hr)
    simpa using this

/-- `releasesleep` of a clean buffer. -/
theorem releasesleep (hl : (η t).locks i = some l)
    (hd : l.dirty = none) (hr : (η t).ref = none) :
    CacheInv dev cur pinned (c.upd i fun b => { b with owner := none, wrote := false })
      (update η t (((η t).setLock i none).setRef (some (i, l.b)))) := by
  have hk := h.lkOk hl
  refine h.upd_same_cur hk.dev hk.dev rfl id (fun j hj => ?_) ?_
  · rw [Hold.setRef_some_on_ne _ hj, Hold.setLock_on_ne _ _ hj]
    simp [Hold.on, hr]
  · have := (h.buf i).release (t := t) (l := l) hl hd (Hold.on_ref_none hr i)
    simpa using this

/-- The section of `brelse`. -/
theorem brelse (hr : (η t).ref = some (i, x)) :
    CacheInv dev cur pinned (c.brelse t i) (update η t ((η t).setRef none)) := by
  have hd := (((h.buf i).thr t).ref x (Hold.on_ref_some hr)).1
  have hu : CacheInv dev cur pinned
      (c.upd i fun b => { b with refcnt := b.refcnt - 1, users := b.users.erase t })
      (update η t ((η t).setRef none)) := by
    refine h.upd_same_cur hd hd rfl id (fun j hj => ?_) ?_
    · rw [Hold.setRef_none_on]
      simp [Hold.on, hr, Ne.symm hj]
    · have := (h.buf i).dropRef (t := t) (Hold.on_ref_some hr)
      simpa using this
  refine ⟨(Bcache.brelse_lru_perm (h.mem_lru hd)).trans h.lru, ?_, ?_, ?_, ?_⟩ <;>
    rw [Bcache.brelse_buf]
  · exact hu.mem
  · exact hu.key
  · exact hu.buf
  · exact hu.cached

/-- A step of the thread that has the lock of buffer `i`, on the data of the buffer or on its
pin. -/
theorem locked {l' : Lk} (hl : (η t).locks i = some l) (hk : LkOk dev cur' (f (c.buf i)) l')
    (hus : (f (c.buf i)).users = (c.buf i).users) (ho : (f (c.buf i)).owner = (c.buf i).owner)
    (hd : (f (c.buf i)).dev = (c.buf i).dev) (hb : (f (c.buf i)).blockno = (c.buf i).blockno)
    (hr : (f (c.buf i)).refcnt = (f (c.buf i)).users.length + (f (c.buf i)).pins)
    (hp : (f (c.buf i)).pins = if l.b ∈ pinned' then 1 else 0) (hcur : ∀ x, x ≠ l.b → cur' x = cur x)
    (hpin : ∀ x, x ≠ l.b → (x ∈ pinned' ↔ x ∈ pinned)) (hv : l.valid = true → l'.valid = true)
    (hv' : l.b ∈ pinned' → l.b ∉ pinned → l.valid = true) :
    CacheInv dev cur' pinned' (c.upd i f) (update η t ((η t).setLock i (some l'))) := by
  have hlk := h.lkOk hl
  have hd' : (f (c.buf i)).dev = dev := hd.trans hlk.dev
  have hb' : (f (c.buf i)).blockno = l.b := hb.trans hlk.blockno
  refine h.upd hlk.dev hd' hb (by rwa [hlk.blockno]) (by rwa [hlk.blockno]) ?_
    (fun j hj => Hold.setLock_on_ne _ _ hj) ?_
  · rw [hlk.blockno, hlk.valid, hk.valid]
    exact fun hm hpv => hv (hpv.elim (hv' hm) id)
  · rw [Hold.setLock_on_same]
    refine (h.buf i).locked_step (t := t) (l := l) hl hus ho hd hb hr ?_ hk
    rw [hp, hd', hb']
    simp

section

variable (hl : (η t).locks i = some l)
include hl

/-- The pins of a locked buffer. -/
theorem locked_pins : (c.buf i).pins = if l.b ∈ pinned then 1 else 0 := by
  have hk := h.lkOk hl
  rw [(h.buf i).pins, hk.dev, hk.blockno]
  simp

/-- `virtio_disk_rw(b, 0); b->valid = 1`, if the disk has the block's contents. -/
theorem diskRead (hd : l.dirty = none) {disk : Nat → Block} (hdisk : disk l.b = cur l.b) :
    CacheInv dev cur pinned (c.upd i fun b => { b with data := disk b.blockno, valid := true })
      (update η t ((η t).setLock i (some { l with valid := true }))) := by
  have hk := h.lkOk hl
  refine h.locked (f := fun b => { b with data := disk b.blockno, valid := true })
    hl ?_ rfl rfl rfl rfl (h.buf i).refcnt (h.locked_pins hl) (fun _ _ => rfl) (fun _ _ => Iff.rfl)
    (fun _ => rfl) (fun hp hn => absurd hp hn)
  refine ⟨hk.dev, hk.blockno, hk.lt, rfl, hk.wrote, fun d hd' => ?_, fun _ _ => ?_⟩
  · rw [hd] at hd'; cases hd'
  · simp only [hk.blockno, hdisk]

/-- A store to `b->data`. -/
theorem setData (d : Block) :
    CacheInv dev cur pinned (c.upd i fun b => { b with data := d })
      (update η t ((η t).setLock i (some { l with dirty := some d }))) := by
  have hk := h.lkOk hl
  have hk' : LkOk dev cur { c.buf i with data := d } { l with dirty := some d } :=
    ⟨hk.dev, hk.blockno, hk.lt, hk.valid, hk.wrote, fun d' hd' => Option.some.inj hd',
      fun hn => by cases hn⟩
  exact h.locked (f := fun b => { b with data := d }) hl hk' rfl rfl rfl rfl (h.buf i).refcnt
    (h.locked_pins hl) (fun _ _ => rfl) (fun _ _ => Iff.rfl) id (fun hp hn => absurd hp hn)

/-- The buffer's contents become the block's contents, and the buffer is clean. -/
theorem clean (hcur : ∀ x, x ≠ l.b → cur' x = cur x) (hb : l.valid = true → cur' l.b = (c.buf i).data) :
    CacheInv dev cur' pinned c (update η t ((η t).setLock i (some { l with dirty := none }))) := by
  have hk := h.lkOk hl
  have hk' : LkOk dev cur' (id (c.buf i)) { l with dirty := none } :=
    ⟨hk.dev, hk.blockno, hk.lt, hk.valid, hk.wrote, fun d hd => (by cases hd),
      fun _ hv => (hb hv).symm⟩
  have := h.locked (f := id) hl hk' rfl rfl rfl rfl (h.buf i).refcnt (h.locked_pins hl) hcur
    (fun _ _ => Iff.rfl) id (fun hp hn => absurd hp hn)
  simpa [Bcache.upd] using this

/-- `log_write` of a block that the log has, or its `bpin`. -/
theorem logWrite (hv : l.valid = true) {new : Bool} (hnew : new = true ↔ l.b ∉ pinned)
    (hcur : ∀ x, x ≠ l.b → cur' x = cur x) (hb : cur' l.b = (c.buf i).data)
    (hpin : ∀ x, x ∈ pinned' ↔ x = l.b ∨ x ∈ pinned) :
    CacheInv dev cur' pinned'
      (if new then (c.upd i fun b => { b with wrote := true }).bpin i
        else c.upd i fun b => { b with wrote := true })
      (update η t ((η t).setLock i (some { l with dirty := none, wrote := true }))) := by
  have hk := h.lkOk hl
  have hr := (h.buf i).refcnt
  have hp := h.locked_pins hl
  have hmem : ∀ x, x ≠ l.b → (x ∈ pinned' ↔ x ∈ pinned) := fun x hx => by
    rw [hpin]; exact or_iff_right hx
  have hin : l.b ∈ pinned' := (hpin _).mpr (.inl rfl)
  cases new with
  | true =>
    have hnot : l.b ∉ pinned := hnew.mp rfl
    rw [if_neg hnot] at hp
    have hk' : LkOk dev cur'
        { c.buf i with wrote := true, refcnt := (c.buf i).refcnt + 1, pins := (c.buf i).pins + 1 }
        { l with dirty := none, wrote := true } :=
      ⟨hk.dev, hk.blockno, hk.lt, hk.valid, rfl, fun d hd => (by cases hd), fun _ _ => hb.symm⟩
    have := h.locked (f := fun b =>
        { b with wrote := true, refcnt := b.refcnt + 1, pins := b.pins + 1 })
      hl hk' rfl rfl rfl rfl (by simp only; omega) (by rw [if_pos hin]; simp only; omega) hcur hmem
      id (fun _ _ => hv)
    simpa [Bcache.bpin, Bcache.upd] using this
  | false =>
    have hold : l.b ∈ pinned := by
      by_contra hn
      exact absurd (hnew.mpr hn) (by simp)
    rw [if_pos hold] at hp
    have hk' : LkOk dev cur' { c.buf i with wrote := true } { l with dirty := none, wrote := true } :=
      ⟨hk.dev, hk.blockno, hk.lt, hk.valid, rfl, fun d hd => (by cases hd), fun _ _ => hb.symm⟩
    exact h.locked (f := fun b => { b with wrote := true }) hl hk' rfl rfl rfl rfl hr
      (by rw [if_pos hin]; exact hp) hcur hmem id (fun _ hn => absurd hold hn)

/-- `bunpin`. -/
theorem bunpin (hold : l.b ∈ pinned) (hpin : ∀ x, x ∈ pinned' ↔ x ≠ l.b ∧ x ∈ pinned) :
    CacheInv dev cur pinned' (c.bunpin i) η := by
  have hk := h.lkOk hl
  have hr := (h.buf i).refcnt
  have hp := h.locked_pins hl
  rw [if_pos hold] at hp
  have hnot : l.b ∉ pinned' := fun hm => ((hpin _).mp hm).1 rfl
  have hmem : ∀ x, x ≠ l.b → (x ∈ pinned' ↔ x ∈ pinned) := fun x hx => by
    rw [hpin]; exact and_iff_right hx
  have hk' : LkOk dev cur
      { c.buf i with refcnt := (c.buf i).refcnt - 1, pins := (c.buf i).pins - 1 } l :=
    hk.refs ..
  have := h.locked (f := fun b => { b with refcnt := b.refcnt - 1, pins := b.pins - 1 })
    hl hk' rfl rfl rfl rfl (by simp only; omega) (by rw [if_neg hnot]; simp only; omega)
    (fun _ _ => rfl) hmem id (fun hm => absurd hm hnot)
  have he : (η t).setLock i (some l) = η t := by
    rw [Hold.setLock, ← hl, update_eq_self]
  rw [he, update_eq_self] at this
  exact this

end

end

/-- The cache that `binit` makes. -/
theorem binit (hd : dev ≠ 0) : CacheInv dev cur [] Bcache.binit fun _ => {} where
  lru := List.reverse_perm _
  mem i hi := absurd hi (Ne.symm hd)
  key i j hi := absurd hi (Ne.symm hd)
  buf i := by
    refine ⟨rfl, by simp [Bcache.binit], fun _ => rfl, fun h => absurd h (Ne.symm hd), fun t => ?_⟩
    exact ⟨rfl, by simp [Bcache.binit, Hold.on], fun x hx => (by cases hx),
      fun l hl => by cases hl⟩
  cached x hx := by cases hx

end CacheInv
end Xv6
