import Xv6.Vm.FileSpec
import Xv6.Vm.Strings

/-!
# Processes keep the invariant

One spec for each function on the process table. All sizes are at most `TRAPFRAME` (`SzOk`) where a
function touches memory. The only function that can make a size larger is `sys_sbrk` with
`SBRK_LAZY`; all the others keep `SzOk`.
-/

namespace Xv6

open Seq
open Function (update update_apply update_eq_self_iff update_idem update_of_ne update_self)

section

variable [K : Layout] {E : Panic → Prop} {kp : Nat → Prop} {hs : List Nat} {s s' : Vm}
variable {own own' : Nat → Owner} {T : Nat → Option (Nat → Nat)} {p : Nat} {L : Nat → Nat}

/-- Process `p` is in use. -/
def Vm.live (s : Vm) (p : Nat) : Prop := (s.proc p).state ≠ .unused

/-- The leaves of a process's table change. -/
theorem VmInv.setTable (h : VmInv kp hs s own T) (hl : s.live p)
    (hf : Frame (s.proc p).pagetable own own')
    (hm : MemInv s'.kmem own' (update T (s.proc p).pagetable (some L)))
    (hL : LeavesOk L (s.proc p).trapframe (s'.proc p).sz)
    (hne : ∀ p', p' ≠ p → s'.proc p' = s.proc p') (hl' : s'.live p)
    (hpt : (s'.proc p).pagetable = (s.proc p).pagetable)
    (htf : (s'.proc p).trapframe = (s.proc p).trapframe)
    (hfile : s'.file = s.file) (hpipe : s'.pipe = s.pipe) :
    VmInv kp hs s' own' (update T (s.proc p).pagetable (some L)) where
  mem := hm
  kernel q := by rw [hf.iff rfl (by simp)]; exact h.kernel q
  held q := by rw [hf.iff rfl (by simp)]; exact h.held q
  nodup := h.nodup
  procs := h.procs.setTable hl hf hne hl' hpt htf hL
  pipes := by
    rw [hfile, hpipe]
    exact h.pipes.congr fun q => hf.iff rfl (by simp)

/-- Fields that the invariant does not read change. -/
theorem VmInv.setProcs (h : VmInv kp hs s own T) (hp : ∀ p, SameVm (s.proc p) (s'.proc p)) (hk : s'.kmem = s.kmem)
    (hfile : s'.file = s.file) (hpipe : s'.pipe = s.pipe) : VmInv kp hs s' own T :=
  ⟨hk ▸ h.mem, h.kernel, h.held, h.nodup, h.procs.congr hp fun _ _ => Iff.rfl, hfile ▸ hpipe ▸ h.pipes⟩

variable {f : Proc → Proc} {addr q r tf : Nat} {proc proc' : Nat → Proc} {own₁ : Nat → Owner} {n : Int}
  {k : Kmem}

omit K in
/-- One process changes in fields that the invariant does not read. -/
theorem sameVm_setProc (hf : SameVm (s.proc p) (f (s.proc p))) (p' : Nat) :
    SameVm (s.proc p') ((s.setProc p f).proc p') := by
  by_cases e : p' = p
  · subst e; rw [Vm.setProc_self]; exact hf
  · rw [Vm.setProc_ne _ _ e]; exact .refl

/-- The processes are the same but for fields that the invariant does not read. -/
def SameProcs (s s' : Vm) : Prop := ∀ p, SameVm (s.proc p) (s'.proc p)

omit K in
theorem SameProcs.refl : SameProcs s s := fun _ => .refl

omit K in
theorem SameProcs.of_eq (h : s'.proc = s.proc) : SameProcs s s' := fun p => by rw [h]; exact .refl

omit K in
theorem SameProcs.trans {s'' : Vm} (h : SameProcs s s') (h' : SameProcs s' s'') : SameProcs s s'' :=
  fun p => ⟨(h' p).1.trans (h p).1, (h' p).2.1.trans (h p).2.1, (h' p).2.2.1.trans (h p).2.2.1,
    (h' p).2.2.2.trans (h p).2.2.2⟩

omit K in
theorem SameProcs.szOk (h : SameProcs s s') (hs : SzOk s) : SzOk s' := fun p => by
  rw [(h p).2.2.2]; exact hs p

omit K in
theorem SameProcs.live (h : SameProcs s s') (hl : s.live p) : s'.live p := (h p).1.not.mpr hl

theorem Inv.setProc (h : Inv kp hs s) (hf : SameVm (s.proc p) (f (s.proc p))) : Inv kp hs (s.setProc p f) := by
  obtain ⟨own, T, h⟩ := h
  exact ⟨own, T, h.setProcs (sameVm_setProc hf) rfl rfl rfl⟩

/-! ## Copies for the current process -/

/-- A program on the memory that copies for process `p`. -/
theorem copied_spec {α : Type} {m : Proc → KM α} (h : Inv kp hs s) (hl : s.live p)
    (hsz : (s.proc p).sz ≤ TRAPFRAME)
    (hm : ∀ own T L, MemInv s.kmem own T → T (s.proc p).pagetable = some L → TopOk L →
      wp E (m (s.proc p)) s.kmem fun _ k' =>
        Copied (s.proc p).sz (s.proc p).pagetable L own T k') :
    wp E (getProc p >>= fun pr => onMem (m pr)) s fun _ s' => Inv kp hs s' ∧ s'.proc = s.proc ∧
      s'.file = s.file ∧ s'.pipe = s.pipe := by
  obtain ⟨own, T, h⟩ := h
  obtain ⟨-, L, hT, hL⟩ := h.procs.live p hl
  unfold getProc
  rw [wp_bind, wp_gets, wp_onMem]
  refine (hm own T L h.mem hT hL.topOk).mono fun _ k' ⟨own', L', hf, h', hflt⟩ => ?_
  exact ⟨⟨own', _, h.setTable hl hf h' (hL.faulted hsz hflt) (fun _ _ => rfl) hl rfl rfl rfl rfl⟩,
    rfl, rfl, rfl⟩

theorem copyoutProc_spec {dstva : Nat} {src : List UInt8} (h : Inv kp hs s) (hl : s.live p)
    (hsz : (s.proc p).sz ≤ TRAPFRAME) :
    wp E (copyoutProc p dstva src) s fun _ s' => Inv kp hs s' ∧ s'.proc = s.proc ∧
      s'.file = s.file ∧ s'.pipe = s.pipe :=
  copied_spec h hl hsz fun _ _ _ hm hT htop => copyout_spec hm hT hsz htop

theorem copyinProc_spec {srcva len : Nat} (h : Inv kp hs s) (hl : s.live p)
    (hsz : (s.proc p).sz ≤ TRAPFRAME) :
    wp E (copyinProc p srcva len) s fun _ s' => Inv kp hs s' ∧ s'.proc = s.proc ∧
      s'.file = s.file ∧ s'.pipe = s.pipe :=
  copied_spec h hl hsz fun _ _ _ hm hT htop => copyin_spec hm hT hsz htop

theorem fetchstr_spec {max : Nat} (h : Inv kp hs s) (hl : s.live p) :
    wp E (fetchstr p addr max) s fun res s' => s' = s ∧ ∀ bs, res = some bs → bs.length < max := by
  obtain ⟨own, T, h⟩ := h
  obtain ⟨-, L, hT, hL⟩ := h.procs.live p hl
  unfold fetchstr getProc
  rw [wp_bind, wp_gets, wp_onMem]
  refine (copyinstr_spec h.mem hT hL.topOk).mono fun res k' ⟨hk, hres⟩ => ⟨?_, hres⟩
  subst hk
  rfl

theorem fetchaddr_spec (h : Inv kp hs s) (hl : s.live p)
    (hsz : (s.proc p).sz ≤ TRAPFRAME) :
    wp E (fetchaddr p addr) s fun _ s' => Inv kp hs s' ∧ s'.proc = s.proc ∧
      s'.file = s.file ∧ s'.pipe = s.pipe := by
  unfold fetchaddr getProc
  rw [wp_bind, wp_gets, wp_ite]
  refine ⟨fun _ => ⟨h, rfl, rfl, rfl⟩, fun _ => ?_⟩
  exact (copyinProc_spec h hl hsz).bind fun _ s' h' => h'

/-! ## `freeproc` and `allocproc` -/

theorem ne_zero_of_isPage (h : IsPage q) : q ≠ 0 := by
  have := h.2.1
  have := K.kend_ge
  simp only [KERNBASE] at this
  omega

/-- Process `p` is gone, with its page table and its trapframe. -/
theorem ProcsOk.free (h : ProcsOk proc own T) (hl : (proc p).state ≠ .unused)
    (hf : Frame (proc p).pagetable (update own (proc p).trapframe .free) own₁)
    (hne : ∀ p', p' ≠ p → proc' p' = proc p') (hst : (proc' p).state = .unused)
    (hu : (proc' p).pagetable = 0 ∧ (proc' p).trapframe = 0 ∧ (proc' p).sz = 0) :
    ProcsOk proc' own₁ (update T (proc p).pagetable none) := by
  have hown : ∀ q p', own₁ q = .trapframe p' ↔ update own (proc p).trapframe .free q = .trapframe p' :=
    fun q p' => hf.iff rfl (by simp)
  simp only [update_apply] at hown
  have hT := update_apply T (proc p).pagetable none
  cases h
  constructor <;> grind

/-- `freeproc` of a process that has its trapframe and its page table. -/
theorem freeproc_spec (h : Inv kp hs s) (hl : s.live p) (hsz : (s.proc p).sz ≤ TRAPFRAME) :
    wp E (freeproc p) s fun _ s' => Inv kp hs s' ∧ (s'.proc p).state = .unused ∧ (s'.proc p).sz = 0 ∧
      (∀ p', p' ≠ p → s'.proc p' = s.proc p') ∧ s'.file = s.file ∧ s'.pipe = s.pipe := by
  obtain ⟨own, T, h⟩ := h
  obtain ⟨htf, L, hT, hL⟩ := h.procs.live p hl
  have htf0 : (s.proc p).trapframe ≠ 0 := ne_zero_of_isPage (h.mem.isPage (by rw [htf]; simp))
  have hpt0 : (s.proc p).pagetable ≠ 0 := by
    have hr := (h.mem.table _ L hT).1.own_root
    exact ne_zero_of_isPage (h.mem.isPage (by rw [hr]; simp))
  unfold freeproc getProc setProc
  rw [wp_bind, wp_gets]
  simp only
  rw [if_pos htf0, wp_bind, wp_onMem]
  refine (kfree_spec h.mem (by rw [htf]; rfl) (by rw [htf]; simp) (by rw [htf]; simp)).mono
    fun _ k₁ h₁ => ?_
  rw [wp_bind, wp_modify, if_pos hpt0, wp_bind, wp_onMem]
  refine (procFreepagetable_spec h₁ hT hL hsz).mono fun _ k₂ ⟨own₂, hw, h₂⟩ => ?_
  have hf := hw.frame
  rw [wp_modify]
  refine ⟨⟨own₂, _, h₂, fun q => ?_, fun q => ?_, h.nodup, ?_, ?_⟩, ?_, ?_, ?_, rfl, rfl⟩
  · rw [hf.iff rfl (by simp), own_update_iff (by simp) (by rw [htf]; simp)]; exact h.kernel q
  · rw [hf.iff rfl (by simp), own_update_iff (by simp) (by rw [htf]; simp)]; exact h.held q
  · refine h.procs.free hl hf (fun p' e => ?_) ?_ ?_
    · simp [Vm.setProc, e]
    · simp
    · simp [Vm.setProc]
  · refine h.pipes.congr fun q => ?_
    rw [hf.iff rfl (by simp), own_update_iff (by simp) (by rw [htf]; simp)]
  · simp
  · simp
  · intro p' e; simp [Vm.setProc, e]

/-- A process that was not in use gets a trapframe and a page table. -/
theorem ProcsOk.alloc (h : ProcsOk proc own T) (hp : (proc p).state = .unused) (hT : T r = none)
    (hfree : own tf = .free) (hf : Frame r (update own tf (.trapframe p)) own₁)
    (hne : ∀ p', p' ≠ p → proc' p' = proc p') (hst : (proc' p).state ≠ .unused)
    (hpt : (proc' p).pagetable = r) (htf : (proc' p).trapframe = tf) (hL : LeavesOk L tf (proc' p).sz) :
    ProcsOk proc' own₁ (update T r (some L)) := by
  have hown : ∀ q p', own₁ q = .trapframe p' ↔ update own tf (.trapframe p) q = .trapframe p' :=
    fun q p' => hf.iff rfl (by simp)
  simp only [update_apply] at hown
  have hT' := update_apply T r (some L)
  cases h
  constructor <;> grind

/-- A process that is not in use stays so. -/
theorem VmInv.stayUnused (h : VmInv kp hs s own T) (hp : (s.proc p).state = .unused) (hm : MemInv s'.kmem own T)
    (hne : ∀ p', p' ≠ p → s'.proc p' = s.proc p') (hst : (s'.proc p).state = .unused)
    (hu : (s'.proc p).pagetable = 0 ∧ (s'.proc p).trapframe = 0 ∧ (s'.proc p).sz = 0) (hfile : s'.file = s.file)
    (hpipe : s'.pipe = s.pipe) : Inv kp hs s' ∧ SameProcs s s' := by
  obtain ⟨h1, h2, h3⟩ := h.procs.unused p hp
  have hsame : SameProcs s s' := by
    intro p'
    by_cases e : p' = p
    · subst e
      exact ⟨by simp [hp, hst], hu.1.trans h1.symm, hu.2.1.trans h2.symm, hu.2.2.trans h3.symm⟩
    · rw [hne p' e]; exact .refl
  exact ⟨⟨own, T, hm, h.kernel, h.held, h.nodup, h.procs.congr hsame fun _ _ => Iff.rfl,
    hfile ▸ hpipe ▸ h.pipes⟩, hsame⟩

omit K in
theorem Frame.set {o u : Owner} (h : Frame r (Function.update own q o) own') :
    Frame r (Function.update own q u) (Function.update own' q u) := by
  intro q'
  by_cases e : q' = q
  · subst e; rw [update_self, update_self]; exact .inl rfl
  · have := h q'
    rwa [update_of_ne e, update_of_ne e] at *

/-- A new process, as `allocproc` returns it. -/
def NewProc (kp : Nat → Prop) (hs : List Nat) (s s' : Vm) (np : Nat) : Prop :=
  (s.proc np).state = .unused ∧ (s'.proc np).state = .used ∧ (s'.proc np).sz = 0 ∧
    (∀ p', p' ≠ np → s'.proc p' = s.proc p') ∧
    ∃ own T, VmInv kp hs s' own T ∧
      T (s'.proc np).pagetable = some (topLeaves (s'.proc np).trapframe)

theorem allocproc_spec (h : Inv kp hs s) :
    wp E allocproc s fun res s' => (res = none ∧ Inv kp hs s' ∧ SameProcs s s') ∨
      ∃ np, res = some np ∧ NewProc kp hs s s' np := by
  obtain ⟨own, T, h⟩ := h
  unfold allocproc
  rw [wp_bind, wp_gets]
  rcases hf : (List.range NPROC).find? (fun p => decide ((s.proc p).state = .unused)) with _ | p
  · exact .inl ⟨rfl, ⟨own, T, h⟩, .refl⟩
  have hp : (s.proc p).state = .unused := by simpa using List.find?_some hf
  obtain ⟨hpt, htf, hsz⟩ := h.procs.unused p hp
  simp only [allocpid, setProc]
  rw [wp_bind, wp_bind, wp_gets, wp_bind, wp_modify, wp_pure, wp_bind, wp_modify, wp_bind, wp_onMem]
  refine (kalloc_spec h.mem).mono fun res k₁ hres => ?_
  rcases hres with ⟨rfl, h₁, -⟩ | ⟨tf, rfl, hfree, h₁, -⟩
  · -- no page for the trapframe
    simp only [freeproc, getProc, setProc]
    rw [wp_bind, wp_modify, wp_bind, wp_bind, wp_gets]
    simp only [Vm.setProc_self, hpt, ne_eq, not_true_eq_false, if_false]
    refine .inl ⟨rfl, h.stayUnused hp h₁ (fun p' e => ?_) ?_ ?_ rfl rfl⟩
    · simp [Vm.setProc, e]
    · simp [Vm.setProc]
    · simp [Vm.setProc]
  simp only
  rw [wp_bind, wp_modify, wp_bind, wp_onMem]
  refine (procPagetable_spec h₁).mono fun res k₂ hres => ?_
  have htf0 : tf ≠ 0 := ne_zero_of_isPage (h.mem.isPage (by rw [hfree]; simp))
  rcases hres with ⟨rfl, h₂, -⟩ | ⟨r, own₂, rfl, hr, hT, hw, h₂, -⟩
  · -- no page table: the trapframe is given back
    simp only [freeproc, getProc, setProc]
    rw [wp_bind, wp_modify, wp_bind, wp_bind, wp_gets]
    simp only [Vm.setProc_self]
    rw [if_pos htf0, wp_bind, wp_onMem]
    refine (kfree_spec h₂ (by rw [update_self]; rfl) (by simp) (by simp)).mono fun _ k₃ h₃ => ?_
    rw [update_idem, update_eq_self_iff.mpr hfree.symm] at h₃
    refine .inl ⟨rfl, h.stayUnused hp h₃ (fun p' e => ?_) ?_ ?_ rfl rfl⟩
    · simp [Vm.setProc, e]
    · simp [Vm.setProc]
    · simp [Vm.setProc]
  · have hf := hw.frame
    have hheld : own₂ tf = .held := hf.keep (update_self ..) (by simp) (by simp [Owner.table])
    have h₃ := h₂.retag (q := tf) (o := .trapframe p) (n := k₂) (by rw [hheld]; rfl) (by rw [hheld]; simp)
      rfl (by simp) (fun _ _ => rfl) h₂.nodup (h₂.free_update (by rw [hheld]; simp) (by simp))
    have hf' := hf.set (u := .trapframe p)
    have hkeep : ∀ q o, o.table = none → o ≠ .free → o ≠ .trapframe p →
        (update own₂ tf (.trapframe p) q = o ↔ own q = o) := by
      intro q o ht ho hn
      rw [hf'.iff ht ho, own_update_iff (Ne.symm hn) (by rw [hfree]; exact Ne.symm ho)]
    refine .inr ⟨p, rfl, hp, ?_, ?_, fun p' e => ?_, _, _, ⟨h₃, fun q => ?_, fun q => ?_, h.nodup, ?_, ?_⟩, ?_⟩
    · simp [Vm.setProc]
    · simp [Vm.setProc, hsz]
    · simp [Vm.setProc, e]
    · rw [hkeep q _ rfl (by simp) (by simp)]; exact h.kernel q
    · rw [hkeep q _ rfl (by simp) (by simp)]; exact h.held q
    · have hT' : T r = none := hT
      refine h.procs.alloc hp hT' hfree hf' (fun p' e => ?_) ?_ ?_ ?_ ?_
      · simp [Vm.setProc, e]
      · simp [Vm.setProc]
      · simp [Vm.setProc]
      · simp [Vm.setProc]
      · simpa [Vm.setProc, hsz] using topLeaves_ok
    · exact h.pipes.congr fun q => hkeep q _ rfl (by simp) (by simp)
    · simp [Vm.setProc]

/-! ## `sbrk` -/

omit K in
theorem addInt_of_lt {a : Nat} (h0 : 0 ≤ a + n) (hlt : a + n < (U64 : Nat)) : addInt a n = (a + n).toNat := by
  unfold addInt
  rw [Int.emod_eq_of_lt h0 hlt]

/-- A larger size. -/
theorem LeavesOk.mono {sz sz' : Nat} (h : LeavesOk L tf sz) (hle : sz ≤ sz') : LeavesOk L tf sz' :=
  h.congr (fun _ _ => rfl) fun v hv hge => h.empty v hv ((pages_mono hle).trans hge)

/-- The leaves after `uvmdealloc`. -/
theorem LeavesOk.dealloc {oldsz newsz : Nat} (h : LeavesOk L tf oldsz) (hold : oldsz ≤ TRAPFRAME) :
    LeavesOk (clearRange L (pages newsz) (pages oldsz - pages newsz)) tf (min oldsz newsz) := by
  have hN := pages_le_nuser hold
  refine h.congr (fun v hv => if_neg (by omega)) fun v hv hge => ?_
  unfold clearRange
  split
  · rfl
  · rcases Nat.le_total oldsz newsz with hle | hle
    · rw [min_eq_left hle] at hge
      exact h.empty v hv hge
    · rw [min_eq_right hle] at hge
      exact h.empty v hv (by omega)

omit K in
theorem szOk_setProc (h : SzOk s) (hf : (f (s.proc p)).sz ≤ TRAPFRAME) :
    SzOk (({ s with kmem := k } : Vm).setProc p f) := by
  intro p'
  by_cases e : p' = p
  · subst e; rw [Vm.setProc_self]; exact hf
  · rw [Vm.setProc_ne _ _ e]; exact h p'

/-- The process's size and leaves change together. -/
theorem VmInv.setSz {n : Nat} (h : VmInv kp hs s own T) (hl : s.live p) (hf : Frame (s.proc p).pagetable own own')
    (hm : MemInv k own' (update T (s.proc p).pagetable (some L))) (hL : LeavesOk L (s.proc p).trapframe n) :
    Inv kp hs (({ s with kmem := k } : Vm).setProc p fun pr => { pr with sz := n }) := by
  refine ⟨own', _, h.setTable (p := p) hl hf hm ?_ (fun p' e => Vm.setProc_ne _ _ e) ?_ ?_ ?_ rfl rfl⟩
  · rw [Vm.setProc_self]; exact hL
  · unfold Vm.live; rw [Vm.setProc_self]; exact hl
  · rw [Vm.setProc_self]
  · rw [Vm.setProc_self]

theorem growproc_spec (h : Inv kp hs s) (hl : s.live p) (hsz : SzOk s) (hn : n < 2 ^ 31)
    (hb : 0 < n → (s.proc p).sz + n ≤ (TRAPFRAME : Nat) ∨
      s.kmem.freelist.length ≤ NUSER - pages (s.proc p).sz ∨ E .mappagesRemap) :
    wp E (growproc p n) s fun _ s' => Inv kp hs s' ∧ SzOk s' := by
  obtain ⟨own, T, h⟩ := h
  obtain ⟨-, L, hT, hL⟩ := h.procs.live p hl
  have hold := hsz p
  unfold growproc getProc setProc
  rw [wp_bind, wp_gets, wp_ite]
  refine ⟨fun hpos => ?_, fun hpos => ?_⟩
  · rw [wp_bind, wp_onMem]
    have hadd : (addInt (s.proc p).sz n : Int) = (s.proc p).sz + n := by
      rw [addInt_of_lt (by omega) (by
        simp only [TRAPFRAME, TRAMPOLINE, MAXVA, PGSIZE, U64] at *; omega)]
      omega
    refine (uvmalloc_spec h.mem hT hold hL.empty hL.top_ne (by decide) (by decide) ?_).mono
      fun sz k' ⟨own', hf, hres⟩ => ?_
    · exact (hb hpos).imp (fun hb => by omega) id
    rcases hres with ⟨rfl, h'⟩ | ⟨L', e, hle, h', -, hg⟩
    · rw [if_pos rfl]
      rw [← update_self_table hT] at h'
      exact ⟨⟨own', _, h.setTable hl hf.frame h' hL (fun _ _ => rfl) hl rfl rfl rfl rfl⟩, hsz⟩
    · rw [wp_ite]
      refine ⟨fun h0 => ?_, fun _ => ⟨?_, szOk_setProc hsz hle⟩⟩
      · -- the size was 0 and stays 0
        have hge : (s.proc p).sz ≤ sz := e ▸ le_max_left ..
        have : addInt (s.proc p).sz n ≤ sz := e ▸ le_max_right ..
        omega
      · exact h.setSz hl hf.frame h' (hg.leavesOk hL (e ▸ le_max_left ..) hle)
  · rw [wp_ite]
    refine ⟨fun hneg => ?_, fun _ => ⟨⟨own, T, h⟩, hsz⟩⟩
    rw [wp_bind, wp_onMem]
    refine (uvmdealloc_spec h.mem hT hold).mono fun sz k' ⟨e, own', hf, h'⟩ => ?_
    subst e
    exact ⟨h.setSz hl hf.frame h' (hL.dealloc hold), szOk_setProc hsz ((min_le_left ..).trans hold)⟩

/-- When `sys_sbrk` cannot bring the size above `TRAPFRAME`: the new size fits, or it is allocated
now and the free pages run out before. -/
def GrowOk (s : Vm) (p : Nat) (n t : Int) : Prop :=
  0 < n → (s.proc p).sz + n ≤ (TRAPFRAME : Nat) ∨
    (t = SBRK_EAGER ∧ s.kmem.freelist.length ≤ (TRAPFRAME - pgRoundUp (s.proc p).sz) / PGSIZE)

/-- `sys_sbrk` keeps the invariant; it keeps the bound on the sizes when `GrowOk` holds. -/
theorem sysSbrk_spec {t : Int} (h : Inv kp hs s) (hl : s.live p) (hsz : SzOk s) (hn : n < 2 ^ 31)
    (hb : GrowOk s p n t ∨ E .mappagesRemap) :
    wp E (sysSbrk p n t) s fun _ s' => Inv kp hs s' ∧ (GrowOk s p n t → SzOk s') := by
  have hold := hsz p
  unfold sysSbrk
  simp only [getProc]
  rw [wp_bind, wp_gets, wp_ite]
  refine ⟨fun hnow => ?_, fun hlazy => ?_⟩
  · refine (growproc_spec h hl hsz hn fun hpos => ?_).bind fun ok s' ⟨h', hsz'⟩ => ?_
    · rcases hb with hb | hE
      · refine (hb hpos).imp id fun ⟨_, hfree⟩ => .inl ?_
        rw [pgRoundUp_eq (trapframe_add_le hold)] at hfree
        simp only [TRAPFRAME, TRAMPOLINE, MAXVA, PGSIZE, NUSER] at hfree ⊢
        omega
      · exact .inr (.inr hE)
    · cases ok <;> exact ⟨h', fun _ => hsz'⟩
  · rw [wp_ite]
    refine ⟨fun _ => ⟨h, fun _ => hsz⟩, fun hge => ?_⟩
    simp only [setProc]
    rw [wp_bind, wp_modify]
    obtain ⟨own, T, h⟩ := h
    obtain ⟨-, L, hT, hL⟩ := h.procs.live p hl
    have hm := h.mem
    rw [← update_self_table hT] at hm
    refine ⟨h.setSz hl .refl hm (hL.mono (by omega)), fun hgrow => szOk_setProc hsz ?_⟩
    push Not at hlazy
    have hadd : (addInt (s.proc p).sz n : Int) = (s.proc p).sz + n := by
      rw [addInt_of_lt (by omega) (by
        simp only [TRAPFRAME, TRAMPOLINE, MAXVA, PGSIZE, U64] at *; omega)]
      omega
    show addInt (s.proc p).sz n ≤ TRAPFRAME
    rcases Int.lt_or_le 0 n with hpos | hnp
    · rcases hgrow hpos with hle | ⟨ht, -⟩
      · omega
      · exact absurd ht hlazy.1
    · omega

end

end Xv6
