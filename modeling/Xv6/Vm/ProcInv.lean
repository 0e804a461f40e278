import Xv6.Vm.ExecSpec

/-!
# The invariant of the process table, the pipes and the memory

* `ProcsOk`: an unused process has no pages; any other has its own trapframe page and its own page
  table, with user pages only below its size. There are no other page tables and trapframes.
* `PipesOk`: a page of a pipe is the pipe of an open file; each end that is open is one file's.
* `VmInv`: the owners agree with the memory (`MemInv`), the kernel's pages are its own, the pages
  that a system call holds in local variables are the list `hs`, and the two above.
-/

namespace Xv6

open Seq

section

variable [K : Layout]

/-- The processes and their page tables (module doc). -/
structure ProcsOk (proc : Nat → Proc) (own : Nat → Owner) (T : Nat → Option (Nat → Nat)) : Prop where
  unused : ∀ p, (proc p).state = .unused →
    (proc p).pagetable = 0 ∧ (proc p).trapframe = 0 ∧ (proc p).sz = 0
  live : ∀ p, (proc p).state ≠ .unused → own (proc p).trapframe = .trapframe p ∧
    ∃ L, T (proc p).pagetable = some L ∧ LeavesOk L (proc p).trapframe (proc p).sz
  root : ∀ r, T r ≠ none → ∃ p, (proc p).state ≠ .unused ∧ (proc p).pagetable = r
  inj : ∀ p p', (proc p).state ≠ .unused → (proc p').state ≠ .unused →
    (proc p).pagetable = (proc p').pagetable → p = p'
  trapframe : ∀ q p, own q = .trapframe p → (proc p).state ≠ .unused ∧ (proc p).trapframe = q

/-- File `f` is an open end of the pipe in page `q`. -/
def IsEnd (file : Nat → File) (f q : Nat) (w : Bool) : Prop :=
  0 < (file f).ref ∧ (file f).type = .pipe ∧ (file f).pipe = q ∧ (file f).writable = w

/-- Whether the end of a pipe is open. -/
def Pipe.isOpen (pi : Pipe) (w : Bool) : Bool := if w then pi.writeopen else pi.readopen

/-- The files and their pipes (module doc). -/
structure PipesOk (file : Nat → File) (pipe : Nat → Pipe) (own : Nat → Owner) : Prop where
  idle : ∀ f, (file f).ref = 0 → (file f).type = .none
  ofEnd : ∀ f q w, IsEnd file f q w → own q = .pipe ∧ (pipe q).isOpen w = true
  one : ∀ f f' q w, IsEnd file f q w → IsEnd file f' q w → f = f'
  ofOpen : ∀ q w, own q = .pipe → (pipe q).isOpen w = true → ∃ f, IsEnd file f q w
  some : ∀ q, own q = .pipe → ∃ w, (pipe q).isOpen w = true

/-- The whole invariant (module doc); `kp` are the kernel's pages. -/
structure VmInv (kp : Nat → Prop) (hs : List Nat) (s : Vm) (own : Nat → Owner)
    (T : Nat → Option (Nat → Nat)) : Prop where
  mem : MemInv s.kmem own T
  kernel : ∀ q, own q = .kernel ↔ kp q
  held : ∀ q, own q = .held ↔ q ∈ hs
  nodup : hs.Nodup
  procs : ProcsOk s.proc own T
  pipes : PipesOk s.file s.pipe own

/-- All sizes are at most `TRAPFRAME`. -/
def SzOk (s : Vm) : Prop := ∀ p, (s.proc p).sz ≤ TRAPFRAME

variable {proc proc' : Nat → Proc} {file : Nat → File} {pipe : Nat → Pipe}
variable {own own' : Nat → Owner} {T U : Nat → Option (Nat → Nat)}
variable {p r tf : Nat} {L : Nat → Nat}

/-! ## Changes that do not matter -/

/-- The fields of a process that the invariant reads are the same. -/
def SameVm (pr pr' : Proc) : Prop :=
  (pr'.state = .unused ↔ pr.state = .unused) ∧ pr'.pagetable = pr.pagetable ∧
    pr'.trapframe = pr.trapframe ∧ pr'.sz = pr.sz

omit K in
theorem SameVm.refl {pr : Proc} : SameVm pr pr := ⟨Iff.rfl, rfl, rfl, rfl⟩

theorem ProcsOk.congr (h : ProcsOk proc own T) (hp : ∀ p, SameVm (proc p) (proc' p))
    (ho : ∀ q p, own' q = .trapframe p ↔ own q = .trapframe p) : ProcsOk proc' own' T := by
  simp only [SameVm] at hp
  cases h
  constructor <;> grind

omit K in
theorem PipesOk.congr (h : PipesOk file pipe own) (ho : ∀ q, own' q = .pipe ↔ own q = .pipe) :
    PipesOk file pipe own' where
  idle := h.idle
  ofEnd f q w he := by rw [ho]; exact h.ofEnd f q w he
  one := h.one
  ofOpen q w hq := h.ofOpen q w ((ho q).mp hq)
  some q hq := h.some q ((ho q).mp hq)

omit K in
/-- Owners that a change of the tables leaves alone. -/
theorem Frame.iff (h : Frame r own own') {q : Nat} {o : Owner} (ht : o.table = none)
    (hf : o ≠ .free) : own' q = o ↔ own q = o :=
  ⟨fun e => h.back e hf (by rw [ht]; simp), fun e => h.keep e hf (by rw [ht]; simp)⟩

/-! ## One process changes -/

/-- The leaves of a process's table change. -/
theorem ProcsOk.setTable (h : ProcsOk proc own T) (hl : (proc p).state ≠ .unused)
    (hf : Frame (proc p).pagetable own own') (hne : ∀ p', p' ≠ p → proc' p' = proc p')
    (hl' : (proc' p).state ≠ .unused) (hpt : (proc' p).pagetable = (proc p).pagetable)
    (htf : (proc' p).trapframe = (proc p).trapframe) (hL : LeavesOk L (proc p).trapframe (proc' p).sz) :
    ProcsOk proc' own' (Function.update T (proc p).pagetable (some L)) := by
  have ho : ∀ q p', own' q = .trapframe p' ↔ own q = .trapframe p' := fun q p' =>
    hf.iff rfl (by simp)
  have hT := Function.update_apply T (proc p).pagetable (some L)
  cases h
  constructor <;> grind

end

end Xv6
