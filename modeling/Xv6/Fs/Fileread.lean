import Xv6.Fs.Filewrite

/-!
# Files as byte arrays

`fileread` of `kernel/file.c` for a file with an inode, and the files that are open on one inode: an array of bytes, and
an offset for each file. Each section under the inode's lock takes effect on them at once.
-/

namespace Xv6.Fs

open Seq Seq.M
open Function (update)

/-- `fileread`: its result, the bytes stored from `addr` on, and `f->off`. -/
def fileread (sb : Superblock) (k : Nat) (page : Nat → Bool) (addr off n : Nat) :
    FM (Option Nat × List UInt8 × Nat) := do
  ilock sb k
  let r ← readi sb k (.user page) addr off n
  iunlock k
  pure (r.1, r.2, off + r.1.getD 0)

/-- The contents of the inode in table entry `k`. -/
def St.contents (s : St) (k : Nat) : List UInt8 := Bytes.slice (s.byteAt k) 0 (s.itable k).size

/-! ## The array -/

/-- A section of a call for file `f`, with what the call has read or written. -/
inductive Ev (ι : Type)
  | read (f : ι) (n : Nat) (res : Option Nat) (l : List UInt8)
  | write (f : ι) (l : List UInt8)

/-- The contents, and the offset of each file. -/
structure Arr (ι : Type) where
  data : List UInt8
  off : ι → Nat

/-- The array after a section; `none` if an array does not read so. -/
def Arr.step {ι : Type} [DecidableEq ι] (a : Arr ι) : Ev ι → Option (Arr ι)
  | .read f n (some m) l =>
    if l = (a.data.drop (a.off f)).take n ∧ m = l.length then some { a with off := update a.off f (a.off f + m) }
    else none
  | .read f n none l => if l <+: (a.data.drop (a.off f)).take n then some a else none
  | .write f l =>
    if a.off f ≤ a.data.length then
      some { data := Bytes.splice a.data (a.off f) l, off := update a.off f (a.off f + l.length) }
    else none

/-! ## The sections -/

/-- The files on one inode, and the sections so far. -/
structure Files (ι : Type) where
  fs : St
  off : ι → Nat
  hist : List (Ev ι) := []

section Sections

variable {ι : Type} [DecidableEq ι] {sb : Superblock} {L : List Nat} {s s' : St} {k : Nat} {x x' : Files ι}

/-- One section: the inode's lock is held, or `begin_op` or `end_op` runs. Chunks are written in full. -/
inductive Files.Step (sb : Superblock) (k : Nat) : Files ι → Files ι → Prop
  | log {x : Files ι} {s : St} : beginOp x.fs = .ok ((), s) ∨ endOp x.fs = .ok ((), s) → Step sb k x { x with fs := s }
  | read {x : Files ι} {s : St} (f : ι) {page : Nat → Bool} {addr n o : Nat} {res : Option Nat} {l : List UInt8} :
      x.off f + n < U32 → fileread sb k page addr (x.off f) n x.fs = .ok ((res, l, o), s) →
      Step sb k x { fs := s, off := update x.off f o, hist := x.hist ++ [.read f n res l] }
  | write {x : Files ι} {s : St} (f : ι) {page : Nat → Option (Nat → UInt8)} {va n : Nat} :
      n ≤ maxWrite → 1 ≤ x.fs.outstanding →
      writeLocked sb k page va (x.off f) n x.fs = .ok (some n, s) →
      Step sb k x { fs := s, off := update x.off f (x.off f + n),
                    hist := x.hist ++ [.write f (Bytes.slice (Src.user page).byte va n)] }

theorem St.contents_congr (hd : (s'.itable k).toDinode = (s.itable k).toDinode) (hb : s'.blk = s.blk) :
    s'.contents k = s.contents k := by
  have hbyte : s'.byteAt k = s.byteAt k := by
    funext x
    simp only [St.byteAt, hd, hb]
  simp only [St.contents, hbyte, hd]

theorem fileread_spec {E : Panic → Prop} (o : Opened sb L k s) (page : Nat → Bool) (addr : Nat) {off n : Nat}
    (hn : off + n < U32) : wp E (fileread sb k page addr off n) s fun r s' => Opened sb L k s' ∧
      s'.contents k = s.contents k ∧ r.2.2 = off + r.1.getD 0 ∧ r.2.1 <+: ((s.contents k).drop off).take n ∧
      ∀ m, r.1 = some m → r.2.1 = ((s.contents k).drop off).take n ∧ m = r.2.1.length := by
  refine wp.bind o.ilock ?_
  rintro _ s₁ ⟨i₁, c₁, hd₁⟩
  have hlen : readLen (s₁.itable k).size off n = min n ((s₁.itable k).size - off) := by
    rw [readLen, Nat.mod_eq_of_lt hn]
    split <;> omega
  refine wp.bind (readi_spec i₁.good.held i₁.noHole (.user page) addr off n) ?_
  rintro r s₂ ⟨rfl, hr⟩
  rw [ReadsTo, hlen, ← Bytes.take_drop_slice, ← St.contents] at hr
  refine wp.bind (i₁.iunlock o.mem) ?_
  rintro _ s₃ ⟨o₃, c₃, hd₃⟩
  refine wp_pure.mpr ⟨o₃, St.contents_congr (hd₃.trans hd₁) (c₃.blk.trans c₁.blk), rfl, ?_⟩
  rw [← St.contents_congr hd₁ c₁.blk]
  rcases hr with ⟨h1, h2⟩ | ⟨-, h1, h2⟩
  · refine ⟨h2 ▸ List.prefix_rfl, fun m hm => ⟨h2, ?_⟩⟩
    cases h1.symm.trans hm
    rw [h2]
    simp [St.contents]
  · exact ⟨h2, fun m hm => by cases h1.symm.trans hm⟩

/-- What holds between the sections. -/
structure Files.Ok (sb : Superblock) (L : List Nat) (k : Nat) (a : Arr ι) (x : Files ι) : Prop where
  opened : Opened sb L k x.fs
  /-- The sections so far lead the array `a` to the array now. -/
  arr : x.hist.foldlM Arr.step a = some ⟨x.fs.contents k, x.off⟩

theorem Files.Ok.step {a : Arr ι} (w : sb.Wf) (h : x.Ok sb L k a) (st : Step sb k x x') : x'.Ok sb L k a := by
  cases st with
  | @log s hrun =>
    have l : LogOnly sb x.fs s := by
      rcases hrun with hrun | hrun
      · exact ((beginOp_spec h.opened.good : wp (fun _ => True) _ _ _).ok hrun).1
      · exact ((endOp_spec h.opened.good : wp (fun _ => True) _ _ _).ok hrun).1
    exact ⟨h.opened.logOnly l, h.arr.trans (by rw [St.contents_congr (by rw [l.itable]) l.blk])⟩
  | @read s f page addr n o res b hn hrun =>
    obtain ⟨o', hc, ho, hpre, hall⟩ := (fileread_spec h.opened page addr hn : wp (fun _ => True) _ _ _).ok hrun
    refine ⟨o', ?_⟩
    rw [List.foldlM_append, h.arr]
    cases res with
    | none => simp_all [Arr.step]
    | some m => simp_all [Arr.step]
  | @write s f page va n hn hout hrun =>
    obtain ⟨o', -, -, hst⟩ := (writeLocked_spec w h.opened hn hout fun _ => trivial : wp (fun _ => True) _ _ _).ok hrun
    obtain ⟨hstart, hsize, hnew, hold⟩ := hst rfl
    refine ⟨o', ?_⟩
    have hc : s.contents k = Bytes.splice (x.fs.contents k) (x.off f) (Bytes.slice (Src.user page).byte va n) := by
      have := Bytes.slice_eq_splice (m := Bytes.slice (Src.user page).byte va n) (e := s.byteAt k) hstart
        (by simpa using hnew) (by simpa using hold)
      rwa [Bytes.length_slice, ← hsize] at this
    have hle : x.off f ≤ (x.fs.contents k).length := by simpa [St.contents] using hstart
    rw [List.foldlM_append, h.arr]
    simp [Arr.step, hc, hle]

/-- **Files are byte arrays.** After any interleaving of the sections of any number of calls of `fileread` and
`filewrite`, for any number of files that are open on one inode, an array of bytes with an offset for each file goes
through the same sections with the same results: each call has read what the array had at that time, the contents
of the inode are the array, and the offsets are those of the files. -/
theorem files_linear (w : sb.Wf) (o : Opened sb L k s) (off : ι → Nat)
    (run : Relation.ReflTransGen (Files.Step sb k) { fs := s, off := off } x) :
    x.hist.foldlM Arr.step ⟨s.contents k, off⟩ = some ⟨x.fs.contents k, x.off⟩ := by
  have h : x.Ok sb L k ⟨s.contents k, off⟩ := by
    induction run with
    | refl => exact ⟨o, rfl⟩
    | tail _ st ih => exact ih.step w st
  exact h.arr

/-- One file writes two bytes, and another one reads them. -/
theorem files_linear_two : ∃ x : Files Bool,
    Relation.ReflTransGen (Files.Step sample.sb 0) { fs := sampleSt, off := fun _ => 1 } x ∧
      x.hist = [.write true [65, 65], .read false 2 (some 2) [65, 65]] ∧
      x.hist.foldlM Arr.step ⟨sampleSt.contents 0, fun _ => 1⟩ = some ⟨x.fs.contents 0, x.off⟩ := by
  have hres : ((do beginOp; let a ← writeLocked sample.sb 0 (fun _ => some fun _ => 65) 0 1 2
                   let b ← fileread sample.sb 0 (fun _ => true) 0 1 2
                   pure (a, b) : FM _) sampleSt).toOption.map Prod.fst = some (some 2, some 2, [65, 65], 3) := by
    decide +kernel
  obtain ⟨⟨r, s⟩, hrun, hr⟩ := Option.map_eq_some_iff.mp hres
  obtain ⟨_, s₁, h₁, hrun⟩ := bind_ok (ok_of_toOption hrun)
  obtain ⟨a, s₂, h₂, hrun⟩ := bind_ok hrun
  obtain ⟨b, s₃, h₃, hrun⟩ := bind_ok hrun
  cases hrun
  cases hr
  have hout : 1 ≤ s₁.outstanding := by
    cases h₁
    decide
  have first : Files.Step sample.sb 0 { fs := sampleSt, off := fun _ : Bool => 1 } _ := .log (.inl h₁)
  have run := ((Relation.ReflTransGen.single first).tail (.write true (by decide) hout h₂)).tail
    (.read false (show 1 + 2 < U32 by decide) h₃)
  exact ⟨_, run, rfl, files_linear sample_ok.wf sampleSt_between.toOpened _ run⟩

end Sections

end Xv6.Fs
