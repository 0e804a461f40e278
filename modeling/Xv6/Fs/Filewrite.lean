import Xv6.Fs.Image

/-!
# Writing in transactions

`filewrite` of `kernel/file.c` for a file with an inode: chunks of at most `maxWrite` bytes, each one in a transaction
of its own, at the file's offset.

* A chunk logs at most `MAXOPBLOCKS` blocks (`writeLocked_spec`): three blocks can be new, since a chunk that begins
  inside a block finds that block, and with them three blocks of the bitmap, the indirect block and its bitmap block,
  the block where the chunk begins, and the inode.
* The calls for one `struct file` take turns under the inode's lock (`Step`). Their chunks tile the file from the
  offset on.
-/

namespace Xv6.Fs

open Function (update update_self)

open Seq Seq.M

/-- `max` of `filewrite`. -/
def maxWrite : Nat := (MAXOPBLOCKS - 1 - 1 - 2) / 2 * BSIZE

section Code

variable (sb : Superblock)

/-- What `filewrite` does for a chunk under the inode's lock. -/
def writeLocked (k : Nat) (page : Nat → Option (Nat → UInt8)) (va off n : Nat) : FM (Option Nat) := do
  ilock sb k
  let r ← writei sb k (.user page) va off n
  iunlock k
  pure r

/-- The transaction for one chunk: what `writei` returns, and the blocks that were logged. -/
def writeChunk (k : Nat) (page : Nat → Option (Nat → UInt8)) (va off n : Nat) :
    FM (Option Nat × List Nat) := do
  beginOp
  let s₀ ← gets id
  let r ← writeLocked sb k page va off n
  let l ← gets (loggedSince s₀)
  endOp
  pure (r, l)

/-- The loop of `filewrite`: its result, `f->off`, and what each transaction has logged. Each turn writes a byte at
least, so `n` turns are enough. -/
def filewriteFrom (k : Nat) (page : Nat → Option (Nat → UInt8)) (addr : Nat) (n : Int) :
    Nat → Nat → Nat → FM (Int × Nat × List (List Nat))
  | 0, i, off => pure (if i = n then n else -1, off, [])
  | fuel + 1, i, off =>
    if i < n then do
      let n1 := min (n.toNat - i) maxWrite
      let c ← writeChunk sb k page ((addr + i) % U64) off n1
      let off := off + c.1.getD 0
      if c.1 = some n1 then do
        let r ← filewriteFrom k page addr n fuel (i + n1) off
        pure (r.1, r.2.1, c.2 :: r.2.2)
      else pure (if i = n then n else -1, off, [c.2])
    else pure (if i = n then n else -1, off, [])

/-- `filewrite`. -/
def filewrite (k : Nat) (page : Nat → Option (Nat → UInt8)) (addr : Nat) (n : Int) (off : Nat) :
    FM (Int × Nat × List (List Nat)) :=
  filewriteFrom sb k page addr n n.toNat 0 off

end Code

/-! ## A chunk -/

/-- Entry `k` is that of an open file without holes. -/
structure Opened (sb : Superblock) (L : List Nat) (k : Nat) (s : St) : Prop where
  good : Good sb s
  refs : Refs s L
  mem : k ∈ L
  loaded : Loaded s k
  unlocked : (s.itable k).locked = false
  noHole : s.NoHole k

/-- The same entry while a call holds its lock. -/
structure Inside (sb : Superblock) (L : List Nat) (k : Nat) (s : St) : Prop where
  good : Good sb s
  refs : Refs s L
  loaded : Loaded s k
  locked : (s.itable k).locked = true
  noHole : s.NoHole k

/-- The chunk is in the file, and nothing else has changed there. -/
structure Holds (k : Nat) (src : Src) (va off n : Nat) (s s' : St) : Prop where
  start : off ≤ (s.itable k).size
  size : (s'.itable k).size = max (s.itable k).size (off + n)
  new : ∀ j < n, s'.byteAt k (off + j) = src.byte (va + j)
  old : ∀ x < (s.itable k).size, x < off ∨ off + n ≤ x → s'.byteAt k x = s.byteAt k x

section Chunk

variable {sb : Superblock} {L : List Nat} {s s₀ s' t t' : St} {k : Nat} {src : Src}
  {page : Nat → Option (Nat → UInt8)} {va off n : Nat} {E : Panic → Prop}

theorem Opened.logOnly (o : Opened sb L k s) (l : LogOnly sb s s') : Opened sb L k s' := by
  have hk : s'.itable k = s.itable k := congrFun l.itable k
  refine ⟨l.good, l.refs o.refs, o.mem, o.loaded.congr ⟨_, hk⟩, by rw [hk, o.unlocked], ?_⟩
  rw [St.NoHole, hk, l.blk]
  exact o.noHole

theorem Holds.congr (h : Holds k src va off n s s') (hd : (s.itable k).toDinode = (t.itable k).toDinode)
    (hb : s.blk = t.blk) (hd' : (t'.itable k).toDinode = (s'.itable k).toDinode) (hb' : t'.blk = s'.blk) :
    Holds k src va off n t t' := by
  obtain ⟨h1, h2, h3, h4⟩ := h
  simp only [St.byteAt, hd, hb, ← hd', ← hb'] at h1 h2 h3 h4
  exact ⟨h1, h2, h3, h4⟩

theorem sum_weight_le (s₀ s : St) (k a b : Nat) :
    ∑ bn ∈ Finset.Ico a b, weight s₀ s (s.blockAt k bn) ≤ (b - a) * 2 := by
  have h := Finset.sum_le_card_nsmul (Finset.Ico a b) _ 2 fun bn _ => weight_le s₀ s (s.blockAt k bn)
  rwa [Nat.card_Ico] at h

/-- A chunk logs its blocks and the indirect block, with their bitmap blocks if they are new. -/
theorem writeCost_le (hno : s.NoHole k) (hoff : off ≤ (s.itable k).size) (hn : n ≤ maxWrite) :
    writeCost s₀ s k (off / BSIZE) (endBlock off n) + 1 ≤ MAXOPBLOCKS := by
  have hind := weight_le s₀ s ((s.itable k).addrs NDIRECT)
  unfold writeCost
  by_cases hal : off % BSIZE = 0
  · have hsum := sum_weight_le s₀ s k (off / BSIZE) (endBlock off n)
    simp only [endBlock, maxWrite, MAXOPBLOCKS, BSIZE] at *
    omega
  · -- the block where the chunk begins is there
    have hlt : off / BSIZE * BSIZE < (s.itable k).size := by
      have := Nat.div_add_mod' off BSIZE
      omega
    have hfirst : weight s₀ s (s.blockAt k (off / BSIZE)) ≤ 1 := by
      have h0 : s.blockAt k (off / BSIZE) ≠ 0 := hno _ hlt
      rw [weight, if_neg h0]
      split <;> omega
    have hsum := sum_weight_le s₀ s k (off / BSIZE + 1) (endBlock off n)
    have hend : off / BSIZE < endBlock off n := by
      simp only [endBlock, BSIZE] at *
      omega
    rw [Finset.sum_eq_sum_Ico_succ_bot hend]
    simp only [endBlock, maxWrite, MAXOPBLOCKS, BSIZE] at *
    omega

theorem writeCost_le_max (hn : n ≤ maxWrite) : writeCost s₀ s k (off / BSIZE) (endBlock off n) ≤ MAXOPBLOCKS := by
  have hind := weight_le s₀ s ((s.itable k).addrs NDIRECT)
  have hsum := sum_weight_le s₀ s k (off / BSIZE) (endBlock off n)
  simp only [writeCost, endBlock, maxWrite, MAXOPBLOCKS, BSIZE] at *
  omega

theorem Opened.ilock (o : Opened sb L k s) : wp E (ilock sb k) s fun _ s' =>
    Inside sb L k s' ∧ Calm sb s s' ∧ (s'.itable k).toDinode = (s.itable k).toDinode := by
  refine (ilock_spec o.good o.refs o.mem (o.loaded.inum_lt o.good.inv.table) ?_ ?_).mono ?_
  · rw [o.unlocked]
    exact fun h => absurd h Bool.false_ne_true
  · rw [o.loaded.cur o.good.inv.table]
    exact fun h => absurd h o.loaded.type
  rintro _ s' ⟨g, c, r, lo, hlk, -, -, hd, -⟩
  have hdin := hd o.loaded.valid
  refine ⟨⟨g, r, lo, hlk, ?_⟩, c, hdin⟩
  rw [St.NoHole, hdin, c.blk]
  exact o.noHole

theorem Inside.iunlock (i : Inside sb L k s) (hk : k ∈ L) : wp E (iunlock k) s fun _ s' =>
    Opened sb L k s' ∧ Calm sb s s' ∧ (s'.itable k).toDinode = (s.itable k).toDinode := by
  refine (iunlock_spec i.good i.refs hk ?_).mono ?_
  · rw [i.locked]
    exact fun h => absurd h.symm Bool.false_ne_true
  rintro _ s' ⟨g, c, r, hsame, hlk, -, -⟩
  have hd := (hsame k).dinode
  refine ⟨⟨g, r, hk, ⟨r.live_iff.mpr hk, (hsame k).valid.trans i.loaded.valid, ?_⟩, hlk, ?_⟩, c, hd⟩
  · rw [hd]
    exact i.loaded.type
  · rw [St.NoHole, hd, c.blk]
    exact i.noHole

/-- A chunk logs at most `MAXOPBLOCKS` blocks. -/
theorem writeLocked_spec (w : sb.Wf) (o : Opened sb L k s) (hn : n ≤ maxWrite) (hout : 1 ≤ s.outstanding)
    (hE : LOGBLOCKS ≤ s.lh.length + MAXOPBLOCKS → E .tooBigTransaction) :
    wp E (writeLocked sb k page va off n) s fun r s' => Opened sb L k s' ∧ s'.outstanding = s.outstanding ∧
      (loggedSince s s').toFinset.card ≤ MAXOPBLOCKS ∧ (r = some n → Holds k (.user page) va off n s s') := by
  have hmax : maxWrite < U32 := by decide
  refine wp.bind o.ilock ?_
  rintro _ s₁ ⟨i₁, c₁, hdin⟩
  have ⟨g₁, r₁, lo₁, hlk₁, hno₁⟩ := i₁
  have cr : Credit s MAXOPBLOCKS MAXOPBLOCKS s₁ := (Credit.start s _).congr c₁.wrote c₁.lh
  refine wp.bind (writei_spec w g₁.inv lo₁ g₁.held (by rw [c₁.outstanding]; exact hout) _ va off n
    (cr.mono (writeCost_le_max hn)) hE (by omega)) ?_
  rintro r s₂ hr
  -- what `writei` leaves, if it is refused and if it is not
  have key : Inside sb L k s₂ ∧ s₂.outstanding = s₁.outstanding ∧ Credit s MAXOPBLOCKS 0 s₂ ∧
      (r = some n → Holds k (.user page) va off n s₁ s₂) := by
    rcases hr with ⟨-, rfl, rfl⟩ | ⟨hacc, m, t₁, t₂, rfl, hw⟩
    · exact ⟨i₁, rfl, cr.mono (Nat.zero_le _), by simp⟩
    obtain ⟨g₂, lo₂⟩ := hw.good w g₁ lo₁ hacc
    obtain ⟨⟨a, ha⟩, hj⟩ := hw.itable w g₁.inv lo₁
    obtain ⟨-, -, f⟩ := edits_spec w g₁.inv lo₁ (hw.edits w g₁.inv lo₁)
    refine ⟨⟨g₂, r₁.congr fun j _ => ?_, lo₂, by rw [ha]; exact hlk₁, hw.noHole w g₁.inv lo₁ hacc hno₁⟩, ?_,
      hw.cost w g₁.inv lo₁ (cr.mono (writeCost_le hno₁ hacc.1 hn)), fun he => ?_⟩
    · by_cases h : j = k
      · rw [h, ha]
      · rw [hj j h]
    · rw [hw.eq]
      exact f.outstanding
    · obtain rfl := Option.some.inj he
      obtain ⟨st, -⟩ := hw.stored w g₁ lo₁ hacc hno₁ hw.readable
      obtain ⟨hsize, hnew, hold, -⟩ := st
      simp only [Bytes.length_slice, Bytes.getElem_slice] at hsize hnew hold
      exact ⟨hacc.1, hsize, hnew, hold⟩
  obtain ⟨i₂, hout₂, hcr, hst⟩ := key
  refine wp.bind (i₂.iunlock o.mem) ?_
  rintro _ s₃ ⟨o₃, c₃, hd₃⟩
  exact wp_pure.mpr ⟨o₃, c₃.outstanding.trans (hout₂.trans c₁.outstanding), (hcr.congr c₃.wrote c₃.lh).left,
    fun he => (hst he).congr hdin c₁.blk hd₃ c₃.blk⟩

/-! ## The log reservation -/

/-- The file is open, and no transaction is in progress. -/
structure Between (sb : Superblock) (L : List Nat) (k : Nat) (s : St) : Prop extends Opened sb L k s where
  lh : s.lh = []
  out : s.outstanding = 0

theorem writeChunk_spec (w : sb.Wf) (o : Between sb L k s) (hn : n ≤ maxWrite) :
    wp (fun _ => False) (writeChunk sb k page va off n) s fun c s' => Between sb L k s' ∧
      c.2.toFinset.card ≤ MAXOPBLOCKS := by
  refine wp.bind (beginOp_spec o.good) ?_
  rintro _ s₁ ⟨l₁, hout₁, hlh₁⟩
  rw [o.out] at hout₁
  refine wp_bind.mpr (wp_gets.mpr (wp.bind (writeLocked_spec w (o.logOnly l₁) hn (by omega) ?_) ?_))
  · rw [hlh₁, o.lh]
    exact fun h => absurd h (by decide)
  rintro r s₂ ⟨o₂, hout₂, hcard, -⟩
  refine wp_bind.mpr (wp_gets.mpr (wp.bind (endOp_spec o₂.good) ?_))
  rintro _ s₃ ⟨l₃, hout₃, hlh₃⟩
  rw [hout₂, hout₁] at hout₃ hlh₃
  exact wp_pure.mpr ⟨⟨o₂.logOnly l₃, hlh₃ rfl, hout₃⟩, hcard⟩

theorem filewriteFrom_spec (w : sb.Wf) (o : Between sb L k s) (addr : Nat) (n : Int) (fuel i off : Nat) :
    wp (fun _ => False) (filewriteFrom sb k page addr n fuel i off) s fun r s' => Between sb L k s' ∧
      ∀ l ∈ r.2.2, l.toFinset.card ≤ MAXOPBLOCKS := by
  induction fuel generalizing s i off with
  | zero => exact ⟨o, by simp⟩
  | succ fuel ih =>
    refine wp_ite.mpr ⟨fun _ => ?_, fun _ => ⟨o, by simp⟩⟩
    refine wp.bind (writeChunk_spec w o (Nat.min_le_right _ _)) ?_
    rintro c s₁ ⟨o₁, hc⟩
    refine wp_ite.mpr ⟨fun _ => ?_, fun _ => ⟨o₁, by simpa using hc⟩⟩
    refine wp.bind (ih o₁ _ _) ?_
    rintro r s' ⟨o', hr⟩
    exact ⟨o', List.forall_mem_cons.mpr ⟨hc, hr⟩⟩

/-- **`filewrite` stays within its log reservation**: between two transactions it returns, and each transaction of it
has logged at most `MAXOPBLOCKS` different blocks, for every disk, every file without holes, every user memory (with
pages that cannot be read), every offset and every `n`. -/
theorem filewrite_reserved (w : sb.Wf) (o : Between sb L k s) (page : Nat → Option (Nat → UInt8)) (addr : Nat)
    (n : Int) (off : Nat) : ∃ r s', filewrite sb k page addr n off s = .ok (r, s') ∧ Between sb L k s' ∧
      ∀ l ∈ r.2.2, l.toFinset.card ≤ MAXOPBLOCKS :=
  (filewriteFrom_spec w o addr n _ 0 off).returns

end Chunk

/-- The file `f` of the small disk is open. -/
def sampleSt : St :=
  sample.st.setInode 0 { inum := 2, ref := 1, valid := true, toDinode := .one T_FILE 1 5 5 }

theorem sampleSt_between : Between sample.sb [0] 0 sampleSt := by
  have hnum : 2 < sample.sb.ninodes := by decide
  have hno : ∀ j, ¬ sample.st.Live j := fun j hj => Nat.lt_irrefl 0 hj.2
  refine ⟨⟨(sample_ok.fsOk.good.setInode _ (fun _ j _ hj => absurd hj (hno j)) fun _ _ => ?_).1,
    ⟨by decide, fun j _ => ?_⟩, List.mem_singleton.mpr rfl, ⟨⟨by decide, by decide⟩, rfl, by decide⟩, rfl, ?_⟩,
    rfl, rfl⟩
  · exact ⟨hnum, (sample_ok.load_blk hnum).symm, by decide⟩
  · by_cases h : j = 0
    · subst h
      rfl
    · simp [sampleSt, h, Image.st, Ne.symm h]
  · exact Dinode.one_noHole _ (by decide) (by decide)

/-- 5000 bytes, in two transactions: all of it, from a process with all of its pages. -/
theorem filewrite_reserved_sample : ∃ r s', filewrite sample.sb 0 (fun _ => some fun _ => 65) 4096 5000 5 sampleSt =
    .ok (r, s') ∧ Between sample.sb [0] 0 s' ∧ ∀ l ∈ r.2.2, l.toFinset.card ≤ MAXOPBLOCKS :=
  filewrite_reserved sample_ok.wf sampleSt_between _ _ _ _

/-! ## Calls that share a file -/

/-- The intervals `(o, n)` of a list follow each other from `a` to `b`. -/
def Tiles : Nat → List (Nat × Nat) → Nat → Prop
  | a, [], b => a = b
  | a, (o, n) :: l, b => o = a ∧ Tiles (a + n) l b

theorem Tiles.snoc {a b : Nat} {l : List (Nat × Nat)} (h : Tiles a l b) (n : Nat) :
    Tiles a (l ++ [(b, n)]) (b + n) := by
  induction l generalizing a with
  | nil => exact ⟨h.symm, by rw [h]; rfl⟩
  | cons e l ih => exact ⟨h.1, ih h.2⟩

/-- Each interval ends before the next ones begin, and at `b` at the latest. -/
theorem Tiles.pairwise {a b : Nat} {l : List (Nat × Nat)} (h : Tiles a l b) :
    (∀ e ∈ l, a ≤ e.1 ∧ e.1 + e.2 ≤ b) ∧ a ≤ b ∧ l.Pairwise fun e e' => e.1 + e.2 ≤ e'.1 := by
  induction l generalizing a with
  | nil => exact ⟨by simp, Nat.le_of_eq h, .nil⟩
  | cons e l ih =>
    obtain ⟨he, h⟩ := h
    obtain ⟨h1, h2, h3⟩ := ih h
    refine ⟨List.forall_mem_cons.mpr ⟨by omega, fun e' he' => ?_⟩, by omega, .cons (fun e' he' => ?_) h3⟩
    · have := h1 e' he'
      omega
    · rw [he]
      exact (h1 e' he').1

/-- The arguments of a call of `filewrite`. -/
structure Call where
  page : Nat → Option (Nat → UInt8)
  addr : Nat
  n : Nat

/-- Where a call is: at the head of the loop, before `ilock`, or after `iunlock`. -/
inductive Pc
  | head
  | begun
  | wrote
  deriving DecidableEq

/-- A chunk: the call, and the place in its buffer and in the file. -/
structure Chunk (ι : Type) where
  call : ι
  i : Nat
  off : Nat
  len : Nat

/-- Some calls with one `struct file`, and the chunks written so far. -/
structure Shared (ι : Type) where
  fs : St
  off : Nat
  pc : ι → Pc := fun _ => .head
  i : ι → Nat := fun _ => 0
  chunks : List (Chunk ι) := []

section Calls

variable {ι : Type} [DecidableEq ι] (sb : Superblock) (k : Nat) (calls : ι → Call)

/-- One section of a call's turn. A call waits in `begin_op` and `ilock` as long as it likes; each chunk is written in
full. -/
inductive Step : Shared ι → Shared ι → Prop
  | start {x : Shared ι} {s : St} (c : ι) : x.pc c = .head → x.i c < (calls c).n → beginOp x.fs = .ok ((), s) →
      Step x { x with fs := s, pc := update x.pc c .begun }
  | write {x : Shared ι} {s : St} {n1 : Nat} (c : ι) : x.pc c = .begun →
      n1 = min ((calls c).n - x.i c) maxWrite →
      writeLocked sb k (calls c).page (((calls c).addr + x.i c) % U64) x.off n1 x.fs = .ok (some n1, s) →
      Step x { fs := s, off := x.off + n1, pc := update x.pc c .wrote,
               i := update x.i c (x.i c + n1), chunks := x.chunks ++ [⟨c, x.i c, x.off, n1⟩] }
  | finish {x : Shared ι} {s : St} (c : ι) : x.pc c = .wrote → endOp x.fs = .ok ((), s) →
      Step x { x with fs := s, pc := update x.pc c .head }

/-- What a call returns, once its loop has ended. -/
def Shared.ret (x : Shared ι) (c : ι) : Option Int :=
  if x.pc c = .head ∧ ¬ x.i c < (calls c).n then some (if x.i c = (calls c).n then (calls c).n else -1) else none

/-- A call's transaction is in progress. -/
def Pc.open : Pc → Nat
  | .head => 0
  | _ => 1

/-- What holds between the sections. -/
structure SharedOk [Fintype ι] (L : List Nat) (off₀ : Nat) (x : Shared ι) : Prop where
  opened : Opened sb L k x.fs
  out : x.fs.outstanding = ∑ c, (x.pc c).open
  off : x.off = off₀ + ∑ c, x.i c
  tiles : Tiles off₀ (x.chunks.map fun e => (e.off, e.len)) x.off
  order : ∀ c, Tiles 0 ((x.chunks.filter (·.call = c)).map fun e => (e.i, e.len)) (x.i c)
  le : ∀ c, x.i c ≤ (calls c).n
  bytes : ∀ e ∈ x.chunks, e.off + e.len ≤ (x.fs.itable k).size ∧
    ∀ j < e.len, x.fs.byteAt k (e.off + j) = (Src.user (calls e.call).page).byte (((calls e.call).addr + e.i) % U64 + j)

end Calls

section Run

variable {ι : Type} [DecidableEq ι] [Fintype ι] {sb : Superblock} {k : Nat} {calls : ι → Call} {L : List Nat}
  {off₀ : Nat} {x x' : Shared ι}

theorem sum_update (f : ι → Nat) (c : ι) (v : Nat) : ∑ j, update f c v j + f c = ∑ j, f j + v := by
  rw [Finset.sum_update_of_mem (Finset.mem_univ c), Finset.sum_eq_add_sum_sdiff_singleton_of_mem (Finset.mem_univ c) f]
  omega

theorem sum_open (f : ι → Pc) (c : ι) (v : Pc) :
    ∑ j, (update f c v j).open + (f c).open = ∑ j, (f j).open + v.open := by
  have h := sum_update (fun j => (f j).open) c v.open
  simp only [← Function.apply_update (fun _ => Pc.open)] at h
  exact h

theorem SharedOk.logOnly (h : SharedOk sb k calls L off₀ x) {s : St} (l : LogOnly sb x.fs s) {pc : ι → Pc}
    (hout : s.outstanding = ∑ c, (pc c).open) : SharedOk sb k calls L off₀ { x with fs := s, pc := pc } := by
  have hk : s.itable k = x.fs.itable k := congrFun l.itable k
  refine ⟨h.opened.logOnly l, hout, h.off, h.tiles, h.order, h.le, ?_⟩
  simp only [St.byteAt, hk, l.blk]
  exact h.bytes

theorem SharedOk.step (w : sb.Wf) (h : SharedOk sb k calls L off₀ x) (st : Step sb k calls x x') :
    SharedOk sb k calls L off₀ x' := by
  cases st with
  | start c hpc _ hrun =>
    obtain ⟨l, hout, -⟩ := (beginOp_spec h.opened.good : wp (fun _ => True) _ _ _).ok hrun
    have hsum := sum_open x.pc c .begun
    rw [hpc, ← h.out] at hsum
    exact h.logOnly l (hout.trans hsum.symm)
  | finish c hpc hrun =>
    obtain ⟨l, hout, -⟩ := (endOp_spec h.opened.good : wp (fun _ => True) _ _ _).ok hrun
    have hsum := sum_open x.pc c .head
    rw [hpc, ← h.out] at hsum
    change _ + 1 = _ + 0 at hsum
    exact h.logOnly l (by omega)
  | @write s n1 c hpc hn hrun =>
    have hpos : (x.pc c).open ≤ x.fs.outstanding := by
      rw [h.out]
      exact Finset.single_le_sum (f := fun j => (x.pc j).open) (fun _ _ => Nat.zero_le _) (Finset.mem_univ c)
    have hsum := sum_open x.pc c .wrote
    rw [hpc] at hpos hsum
    obtain ⟨o, hout, -, hst⟩ := (writeLocked_spec w h.opened (by omega) hpos fun _ => trivial :
      wp (fun _ => True) _ _ _).ok hrun
    obtain ⟨hstart, hsize, hnew, hold⟩ := hst rfl
    have hle := h.le c
    refine ⟨o, ?_, ?_, ?_, fun d => ?_, fun d => ?_, fun e he => ?_⟩
    · rw [hout, h.out]
      exact (Nat.add_right_cancel hsum).symm
    · show x.off + n1 = off₀ + ∑ d, update x.i c (x.i c + n1) d
      have := sum_update x.i c (x.i c + n1)
      have := h.off
      omega
    · rw [List.map_append]
      exact h.tiles.snoc n1
    · by_cases hd : d = c
      · subst hd
        simpa using (h.order d).snoc n1
      · simpa [hd, Ne.symm hd] using h.order d
    · by_cases hd : d = c
      · subst hd
        simp only [update_self]
        omega
      · simpa [hd] using h.le d
    · show e.off + e.len ≤ (s.itable k).size ∧ _
      rcases List.mem_append.mp he with he | he
      · obtain ⟨hlen, hb⟩ := h.bytes e he
        have hend := (h.tiles.pairwise.1 _ (List.mem_map_of_mem he)).2
        refine ⟨by omega, fun j hj => ?_⟩
        rw [hold _ (by omega) (.inl (by omega))]
        exact hb j hj
      · rw [List.mem_singleton.mp he]
        exact ⟨hsize ▸ Nat.le_max_right _ _, hnew⟩

/-- **Calls that share a file do not overwrite each other**: after any interleaving of the sections of any number of
calls whose chunks are all written in full, the chunks tile the file from the first offset to the offset now, each one
has its bytes, those of each call tile its buffer in order, a call that has returned has returned `n`, and the offset
has grown by the number of bytes. -/
theorem shared_writes_tile (w : sb.Wf) {s : St} (o : Opened sb L k s) (hout : s.outstanding = 0)
    (run : Relation.ReflTransGen (Step sb k calls) { fs := s, off := off₀ } x) :
    Tiles off₀ (x.chunks.map fun e => (e.off, e.len)) x.off ∧
      (x.chunks.map fun e => (e.off, e.len)).Pairwise (fun e e' => e.1 + e.2 ≤ e'.1) ∧
      (∀ e ∈ x.chunks, ∀ j < e.len,
        x.fs.byteAt k (e.off + j) = (Src.user (calls e.call).page).byte (((calls e.call).addr + e.i) % U64 + j)) ∧
      (∀ c, Tiles 0 ((x.chunks.filter (·.call = c)).map fun e => (e.i, e.len)) (x.i c)) ∧
      (∀ c r, x.ret calls c = some r → r = (calls c).n) ∧ x.off = off₀ + ∑ c, x.i c ∧
      ((∀ c, (x.ret calls c).isSome) → x.off = off₀ + ∑ c, (calls c).n) := by
  have h : SharedOk sb k calls L off₀ x := by
    induction run with
    | refl => exact ⟨o, by simp [hout, Pc.open], by simp, rfl, fun _ => rfl, fun _ => Nat.zero_le _, by simp⟩
    | tail _ st ih => exact ih.step w st
  have hret : ∀ c r, x.ret calls c = some r → r = (calls c).n ∧ x.i c = (calls c).n := fun c r hr => by
    have hle := h.le c
    unfold Shared.ret at hr
    split at hr
    · rename_i hend
      have heq : x.i c = (calls c).n := by omega
      rw [if_pos heq] at hr
      exact ⟨(Option.some.inj hr).symm, heq⟩
    · cases hr
  refine ⟨h.tiles, h.tiles.pairwise.2.2, fun e he => (h.bytes e he).2, h.order, fun c r hr => (hret c r hr).1, h.off,
    fun hall => ?_⟩
  rw [h.off]
  refine congrArg (off₀ + ·) (Finset.sum_congr rfl fun c _ => ?_)
  obtain ⟨r, hr⟩ := Option.isSome_iff_exists.mp (hall c)
  exact (hret c r hr).2

/-- Two calls for two bytes each. -/
def sampleCalls (c : Bool) : Call := { page := fun _ => some fun _ => if c then 65 else 66, addr := 4096, n := 2 }

/-- The two calls have written one chunk each, the second call first. -/
theorem shared_writes_tile_two : ∃ x : Shared Bool,
    Relation.ReflTransGen (Step sample.sb 0 sampleCalls) { fs := sampleSt, off := 1 } x ∧ x.chunks.length = 2 ∧
      x.off = 1 + ∑ c, x.i c := by
  have hres : ((do beginOp; beginOp; let a ← writeLocked sample.sb 0 (sampleCalls true).page 4096 1 2
                   let b ← writeLocked sample.sb 0 (sampleCalls false).page 4096 3 2
                   pure (a, b) : FM _) sampleSt).toOption.map Prod.fst = some (some 2, some 2) := by decide +kernel
  obtain ⟨⟨r, s⟩, hrun, hr⟩ := Option.map_eq_some_iff.mp hres
  obtain ⟨_, s₁, h₁, hrun⟩ := bind_ok (ok_of_toOption hrun)
  obtain ⟨_, s₂, h₂, hrun⟩ := bind_ok hrun
  obtain ⟨a, s₃, h₃, hrun⟩ := bind_ok hrun
  obtain ⟨b, s₄, h₄, hrun⟩ := bind_ok hrun
  cases hrun
  cases hr
  have first : Step sample.sb 0 sampleCalls { fs := sampleSt, off := 1 } _ := .start true rfl Nat.zero_lt_two h₁
  have run := (((Relation.ReflTransGen.single first).tail (.start false rfl Nat.zero_lt_two h₂)).tail
    (.write true rfl rfl h₃)).tail (.write false rfl rfl h₄)
  exact ⟨_, run, rfl, (shared_writes_tile sample_ok.wf sampleSt_between.toOpened rfl run).2.2.2.2.2.1⟩

end Run

end Xv6.Fs
