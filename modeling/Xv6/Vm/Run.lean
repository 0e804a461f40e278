import Xv6.Vm.CallSpec

/-!
# Runs of the kernel's memory

A run starts when `userinit` has made the first process, and goes on with system calls and page
faults of any processes that can run (`VmReach`). `kalloc` may fail at any call.

* `page_ownership`: while all sizes are at most `TRAPFRAME`, each page is on the free list once or has
  one owner, read off the memory and the tables (`Owns`).
* `sizes_bounded`: the sizes stay at most `TRAPFRAME` when `sbrk` is only asked for sizes that fit
  (`VmCall.growOk`). Without this, lazy `sbrk` goes beyond (`lazyRun_exceeds`).
-/

namespace Xv6

open Seq

/-- What a process can ask of the memory code. -/
inductive VmCall where
  | sbrk (n : BitVec 32) (t : Int)
  | fork
  | exit (status : Int)
  | wait (addr : Nat)
  | exec (path uargv : Nat) (files : List UInt8 → Option (List UInt8))
  /-- `kexec("/init", ...)` in `forkret`. -/
  | first (ip : Option (List UInt8))
  /-- A page fault. -/
  | fault (va : Nat)
  | pipe (fdarray : Nat)
  | close (fd : Int)
  | dup (fd : Int)
  | kill (pid : Nat)
  /-- The `copyout` of any other system call. -/
  | copyout (dstva : Nat) (src : List UInt8)
  /-- The `copyin` of any other system call. -/
  | copyin (srcva len : Nat)

section

variable [K : Layout]

/-- `kexec` in `forkret`. -/
def firstExec (p : Nat) (ip : Option (List UInt8)) : PM Unit := do
  match ← kexec p ip [[47, 105, 110, 105, 116]] with  -- "/init"
  | none => M.stop .exec
  | some _ => pure ()

/-- What the call does. -/
def VmCall.run (p : Nat) : VmCall → PM Unit
  | sbrk n t => do let _ ← sysSbrk p n.toInt t
  | fork => do let _ ← kfork p
  | exit status => kexit p status
  | wait addr => do let _ ← kwait p addr
  | exec path uargv files => do let _ ← sysExec p path uargv files
  | first ip => firstExec p ip
  | fault va => usertrapFault p va
  | pipe fdarray => do let _ ← sysPipe p fdarray
  | close fd => do let _ ← sysClose p fd
  | dup fd => do let _ ← sysDup p fd
  | kill pid => do let _ ← kkill pid
  | copyout dstva src => do let _ ← copyoutProc p dstva src
  | copyin srcva len => do let _ ← copyinProc p srcva len

/-- The state in which `main` calls `userinit`: `kp` are the pages that the kernel has allocated for
itself, the others are free. -/
structure VmBoot (kp : Nat → Prop) (s : Vm) : Prop where
  nodup : s.kmem.freelist.Nodup
  free : ∀ q, q ∈ s.kmem.freelist ↔ IsPage q ∧ ¬ kp q
  kernel : ∀ q, kp q → IsPage q
  proc : ∀ p, (s.proc p).state = .unused ∧ (s.proc p).pagetable = 0 ∧ (s.proc p).trapframe = 0 ∧
    (s.proc p).sz = 0
  file : ∀ f, (s.file f).ref = 0 ∧ (s.file f).type = .none

/-- The states of the runs in which each call meets `C`. -/
inductive VmReach (kp : Nat → Prop) (C : Vm → Nat → VmCall → Prop) : Vm → Prop where
  | boot {s s' : Vm} : VmBoot kp s → userinit s = .ok ((), s') → VmReach kp C s'
  | step {s s' : Vm} {p : Nat} {c : VmCall} : VmReach kp C s → (s.proc p).state = .runnable →
      C s p c → c.run p s = .ok ((), s') → VmReach kp C s'

/-! ## The owner of a page, read off the state -/

/-- Some process has the page table `r`. -/
def Vm.hasTable (s : Vm) (r : Nat) : Prop := ∃ p, s.live p ∧ (s.proc p).pagetable = r

/-- Entry `i` of page `pt` points to page `q`. -/
def Kmem.points (k : Kmem) (pt i q : Nat) : Prop :=
  i < 512 ∧ pteV (k.mem pt i) = true ∧ pte2pa (k.mem pt i) = q

/-- Page `q` has the owner `o`. -/
def Owns (kp : Nat → Prop) (s : Vm) (q : Nat) : Owner → Prop
  | .kernel => kp q
  | .trapframe p => s.live p ∧ (s.proc p).trapframe = q
  | .pipe => ∃ f w, IsEnd s.file f q w
  | .root r => q = r ∧ s.hasTable r
  | .mid r i => s.hasTable r ∧ s.kmem.points r i q
  | .low r i j => s.hasTable r ∧ ∃ m, s.kmem.points r i m ∧ s.kmem.points m j q
  | .user r v => s.hasTable r ∧ v < NUSER ∧ ∃ m pt, s.kmem.points r (px 2 (v * PGSIZE)) m ∧
      s.kmem.points m (px 1 (v * PGSIZE)) pt ∧ s.kmem.points pt (px 0 (v * PGSIZE)) q
  | .outside | .free | .held => False

variable {kp : Nat → Prop} {s s' : Vm} {own : Nat → Owner} {T : Nat → Option (Nat → Nat)} {L : Nat → Nat}
  {q r i p : Nat} {hs : List Nat} {E : Panic → Prop}

/-- An entry of a table page points to the page of its owner. -/
theorem Entry.points_iff {pt : Nat} {o : Owner} (h : Entry s.kmem.mem own pt i o) (hi : i < 512) :
    s.kmem.points pt i q ↔ own q = o := by
  rcases h with ⟨h0, hn⟩ | ⟨q', hq', hp, hm, hu⟩
  · refine ⟨fun ⟨_, hv, _⟩ => ?_, fun e => absurd e (hn q)⟩
    rw [h0] at hv
    cases hv
  · have hpa : pte2pa (s.kmem.mem pt i) = q' := by rw [hm]; exact pte2pa_of_isPage hp (by omega)
    refine ⟨fun ⟨_, _, e⟩ => ?_, fun e => ⟨hi, ?_, ?_⟩⟩
    · rw [← e, hpa]; exact hq'
    · rw [hm]; exact pteV_mkPte
    · rw [hpa]; exact (hu q e).symm

theorem VmInv.hasTable_iff (h : VmInv kp hs s own T) : s.hasTable r ↔ T r ≠ none := by
  constructor
  · rintro ⟨p, hl, rfl⟩
    obtain ⟨-, L, hT, -⟩ := h.procs.live p hl
    rw [hT]
    simp
  · exact h.procs.root r

theorem VmInv.points_mid (h : VmInv kp hs s own T) (hT : T r = some L) : s.kmem.points r i q ↔ own q = .mid r i := by
  have hp := (h.mem.table r L hT).1
  constructor
  · intro he
    exact ((hp.mid i he.1).points_iff he.1).mp he
  · intro e
    have hi := (hp.low q i e).1
    exact ((hp.mid i hi).points_iff hi).mpr e

theorem VmInv.points_low {m j : Nat} (h : VmInv kp hs s own T) (hT : T r = some L)
    (hm : own m = .mid r i) : s.kmem.points m j q ↔ own q = .low r i j := by
  have hp := (h.mem.table r L hT).1
  obtain ⟨-, hent⟩ := hp.low m i hm
  constructor
  · intro he
    exact ((hent j he.1).points_iff he.1).mp he
  · intro e
    have hj := (hp.leaf q i j e).2.1
    exact ((hent j hj).points_iff hj).mpr e

/-- The leaf of virtual page `v` points to the page that the table maps there. -/
theorem VmInv.points_user {v : Nat} (h : VmInv kp hs s own T) (hT : T r = some L)
    (hv : v < NUSER) : (∃ m pt, s.kmem.points r (px 2 (v * PGSIZE)) m ∧
      s.kmem.points m (px 1 (v * PGSIZE)) pt ∧ s.kmem.points pt (px 0 (v * PGSIZE)) q) ↔
      own q = .user r v := by
  obtain ⟨hp, hu⟩ := h.mem.table r L hT
  have hvpn : vpn (px 2 (v * PGSIZE)) (px 1 (v * PGSIZE)) (px 0 (v * PGSIZE)) = v := by
    rw [vpn_px, mul_pgsize_div]
    simp only [PGSIZE, NUSER, MAXVA] at hv ⊢
    omega
  -- the leaf is that of `L`
  have hleaf : ∀ pt, own pt = .low r (px 2 (v * PGSIZE)) (px 1 (v * PGSIZE)) →
      s.kmem.mem pt (px 0 (v * PGSIZE)) = L v := fun pt hpt => by
    rw [(hp.leaf pt _ _ hpt).2.2 _ (px_lt _ _), hvpn]
  constructor
  · rintro ⟨m, pt, hm, hpt, -, hval, hpa⟩
    have hpt' := (h.points_low hT ((h.points_mid hT).mp hm)).mp hpt
    rw [hleaf pt hpt'] at hval hpa
    rcases hu.user v hv with ⟨h0, -⟩ | ⟨q', perm, hq', hpg, hL, hperm, -⟩
    · rw [h0] at hval; cases hval
    · rw [hL, pte2pa_of_isPage hpg hperm] at hpa
      rwa [← hpa]
  · intro e
    rcases hu.user v hv with ⟨-, hn⟩ | ⟨q', perm, hq', hpg, hL, hperm, -, hun⟩
    · exact absurd e (hn q)
    obtain rfl := hun q e
    -- a leaf that is set is in a table
    have hex : ∃ pt, own pt = .low r (px 2 (v * PGSIZE)) (px 1 (v * PGSIZE)) := by
      by_contra hno
      push Not at hno
      have h0 := hp.absent _ (px_lt _ _) _ (px_lt _ _) hno _ (px_lt 0 (v * PGSIZE))
      rw [hvpn, hL] at h0
      exact mkPte_ne_zero h0
    obtain ⟨pt, hpt⟩ := hex
    obtain ⟨⟨m, hm⟩, -⟩ := hp.leaf pt _ _ hpt
    refine ⟨m, pt, (h.points_mid hT).mpr hm, (h.points_low hT hm).mpr hpt, px_lt _ _, ?_, ?_⟩
    · rw [hleaf pt hpt, hL]; exact pteV_mkPte
    · rw [hleaf pt hpt, hL, pte2pa_of_isPage hpg hperm]

/-- The ghost owners are the owners that the state shows. -/
theorem VmInv.owns_iff (h : VmInv kp [] s own T) {o : Owner} :
    Owns kp s q o ↔ own q = o ∧ o ≠ .free ∧ o ≠ .outside := by
  -- a table of which a page is known
  have htable : ∀ {q r}, (own q).table = some r → ∃ L, T r = some L := fun e =>
    Option.ne_none_iff_exists'.mp (h.mem.dom _ _ e)
  have hsome : ∀ {r}, s.hasTable r → ∃ L, T r = some L := fun ht =>
    Option.ne_none_iff_exists'.mp (h.hasTable_iff.mp ht)
  have hhas : ∀ {r L}, T r = some L → s.hasTable r := fun hT => h.hasTable_iff.mpr (by rw [hT]; simp)
  cases o with
  | outside => simp [Owns]
  | free => simp [Owns]
  | held => simp [Owns, h.held]
  | kernel => simp [Owns, h.kernel]
  | trapframe p =>
    simp only [Owns, ne_eq, reduceCtorEq, not_false_eq_true, and_true]
    exact ⟨fun ⟨hl, e⟩ => e ▸ (h.procs.live p hl).1, fun e => h.procs.trapframe q p e⟩
  | pipe =>
    simp only [Owns, ne_eq, reduceCtorEq, not_false_eq_true, and_true]
    constructor
    · rintro ⟨f, w, he⟩
      exact (h.pipes.ofEnd f q w he).1
    · intro e
      obtain ⟨w, ho⟩ := h.pipes.some q e
      obtain ⟨f, he⟩ := h.pipes.ofOpen q w e ho
      exact ⟨f, w, he⟩
  | root r =>
    simp only [Owns, ne_eq, reduceCtorEq, not_false_eq_true, and_true]
    constructor
    · rintro ⟨rfl, ht⟩
      obtain ⟨L, hT⟩ := hsome ht
      exact (h.mem.table q L hT).1.own_root
    · intro e
      obtain ⟨L, hT⟩ := htable (q := q) (r := r) (by rw [e]; rfl)
      exact ⟨((h.mem.table r L hT).1.root q).mp e, hhas hT⟩
  | mid r i =>
    simp only [Owns, ne_eq, reduceCtorEq, not_false_eq_true, and_true]
    constructor
    · rintro ⟨ht, hq⟩
      obtain ⟨L, hT⟩ := hsome ht
      exact (h.points_mid hT).mp hq
    · intro e
      obtain ⟨L, hT⟩ := htable (q := q) (r := r) (by rw [e]; rfl)
      exact ⟨hhas hT, (h.points_mid hT).mpr e⟩
  | low r i j =>
    simp only [Owns, ne_eq, reduceCtorEq, not_false_eq_true, and_true]
    constructor
    · rintro ⟨ht, m, hm, hq⟩
      obtain ⟨L, hT⟩ := hsome ht
      exact (h.points_low hT ((h.points_mid hT).mp hm)).mp hq
    · intro e
      obtain ⟨L, hT⟩ := htable (q := q) (r := r) (by rw [e]; rfl)
      obtain ⟨⟨m, hm⟩, -⟩ := (h.mem.table r L hT).1.leaf q i j e
      exact ⟨hhas hT, m, (h.points_mid hT).mpr hm,
        (h.points_low hT hm).mpr e⟩
  | user r v =>
    simp only [Owns, ne_eq, reduceCtorEq, not_false_eq_true, and_true]
    constructor
    · rintro ⟨ht, hv, hq⟩
      obtain ⟨L, hT⟩ := hsome ht
      exact (h.points_user hT hv).mp hq
    · intro e
      obtain ⟨L, hT⟩ := htable (q := q) (r := r) (by rw [e]; rfl)
      have hv := (h.mem.table r L hT).2.lt q v e
      exact ⟨hhas hT, hv, (h.points_user hT hv).mpr e⟩

/-! ## The invariant holds in every run -/

open Classical in
/-- The machine that `main` has set up satisfies the invariant. -/
theorem VmBoot.inv (h : VmBoot kp s) : Inv kp [] s ∧ SzOk s := by
  let own : Nat → Owner := fun q => if IsPage q then if kp q then .kernel else .free else .outside
  have htable : ∀ q, (own q).table = none := by
    intro q
    simp only [own]
    split_ifs <;> rfl
  have hne : ∀ q o, o = .held ∨ o = .pipe ∨ (∃ p, o = .trapframe p) → own q ≠ o := by
    intro q o ho
    simp only [own]
    split_ifs <;> rcases ho with rfl | rfl | ⟨p, rfl⟩ <;> simp
  refine ⟨⟨own, fun _ => none, ⟨h.nodup, fun q => ?_, fun q => ?_, by simp, fun q r e => ?_⟩,
    fun q => ?_, fun q => ?_, List.nodup_nil, ⟨?_, ?_, by simp, ?_, ?_⟩, ⟨?_, ?_, ?_, ?_, ?_⟩⟩, fun p => ?_⟩
  · rw [h.free q]
    by_cases h1 : IsPage q <;> by_cases h2 : kp q <;> simp [own, h1, h2]
  · by_cases h1 : IsPage q <;> by_cases h2 : kp q <;> simp [own, h1, h2]
  · rw [htable q] at e; cases e
  · by_cases h2 : kp q
    · simp [own, h.kernel q h2, h2]
    · by_cases h1 : IsPage q <;> simp [own, h1, h2]
  · simp [hne q .held (.inl rfl)]
  · exact fun p _ => (h.proc p).2
  · exact fun p hl => absurd (h.proc p).1 hl
  · exact fun p _ hl => absurd (h.proc p).1 hl
  · exact fun q p e => absurd e (hne q _ (.inr (.inr ⟨p, rfl⟩)))
  · exact fun f _ => (h.file f).2
  · exact fun f q w he => absurd (h.file f).1 (by have := he.1; omega)
  · exact fun f _ q w he => absurd (h.file f).1 (by have := he.1; omega)
  · exact fun q w e => absurd e (hne q _ (.inr (.inl rfl)))
  · exact fun q e => absurd e (hne q _ (.inr (.inl rfl)))
  · rw [(h.proc p).2.2.2]; exact Nat.zero_le _

theorem userinit_spec (h : Inv kp [] s) (hsz : SzOk s) (hE : E .nullPointer) :
    wp E userinit s fun _ s' => Inv kp [] s' ∧ SzOk s' := by
  unfold userinit
  refine (allocproc_spec h).bind fun res s₁ hres => ?_
  rcases hres with ⟨rfl, -⟩ | ⟨np, rfl, -, hst, hnsz, hne, own, T, h₁, -⟩
  · exact hE
  have hf : SameVm (s₁.proc np) { s₁.proc np with state := .runnable } :=
    ⟨⟨fun e => (by cases e), fun e => by rw [hst] at e; cases e⟩, rfl, rfl, rfl⟩
  refine ⟨Inv.setProc ⟨own, T, h₁⟩ hf, SameProcs.szOk (sameVm_setProc hf) fun p => ?_⟩
  by_cases e : p = np
  · rw [e, hnsz]; exact Nat.zero_le _
  · rw [hne p e]; exact hsz p

/-- When the call cannot bring the size above `TRAPFRAME` (`GrowOk`). -/
def VmCall.growOk (s : Vm) (p : Nat) : VmCall → Prop
  | sbrk n t => GrowOk s p n.toInt t
  | _ => True

/-- The panics that are not about memory. -/
def Panic.other (e : Panic) : Prop :=
  e = .fileclose ∨ e = .filedup ∨ e = .initExiting ∨ e = .exec

theorem keeps_spec {α : Type} {m : PM α} {c : VmCall} (hk : Keeps E kp [] p m) (h : Inv kp [] s) (hl : s.live p)
    (hsz : SzOk s) : wp E (m >>= fun _ => pure ()) s fun _ s' => Inv kp [] s' ∧ (c.growOk s p → SzOk s') :=
  (hk s h hl hsz).bind fun _ _ ⟨h', hs'⟩ => ⟨h', fun _ => hs'.szOk hsz⟩

theorem keeps_kkill {pid : Nat} : Keeps E kp [] p (kkill pid) := by
  refine .bind .gets fun res => ?_
  split
  · exact .pure
  · exact .bind (.setProc fun _ => ⟨Iff.rfl, rfl, rfl, rfl⟩) fun _ => .pure

/-- Every call keeps the invariant, and the bound on the sizes when it meets `growOk`. -/
theorem VmCall.run_spec (c : VmCall) (h : Inv kp [] s) (hl : s.live p)
    (hsz : SzOk s) (hE : ∀ e : Panic, e.other → E e) (hb : c.growOk s p ∨ E .mappagesRemap) :
    wp E (c.run p) s fun _ s' => Inv kp [] s' ∧ (c.growOk s p → SzOk s') := by
  have hfc : E .fileclose := hE _ (by simp [Panic.other])
  have hfd : E .filedup := hE _ (by simp [Panic.other])
  have hie : E .initExiting := hE _ (by simp [Panic.other])
  cases c with
  | sbrk n t =>
    have hn : n.toInt < 2 ^ 31 := BitVec.toInt_lt
    exact (sysSbrk_spec h hl hsz hn hb).bind fun _ _ h' => h'
  | fork => exact (kfork_spec h hl hsz hfd).bind fun _ _ ⟨h', hs'⟩ => ⟨h', fun _ => hs'⟩
  | exit status =>
    exact (Keeps.kexit hfc hie s h hl hsz).mono fun _ _ ⟨h', hs'⟩ => ⟨h', fun _ => hs'.szOk hsz⟩
  | wait addr => exact (kwait_spec h hl hsz).bind fun _ _ ⟨h', hs'⟩ => ⟨h', fun _ => hs'⟩
  | exec path uargv files => exact (sysExec_spec h hl hsz).bind fun _ _ ⟨h', hs'⟩ => ⟨h', fun _ => hs'⟩
  | first ip =>
    refine (kexec_spec h hl hsz (by decide)).bind fun res s' ⟨h', hs', _⟩ => ?_
    cases res with
    | none => exact hE _ (by simp [Panic.other])
    | some _ => exact ⟨h', fun _ => hs'⟩
  | fault va =>
    exact (Keeps.usertrapFault hfc hie s h hl hsz).mono fun _ _ ⟨h', hs'⟩ => ⟨h', fun _ => hs'.szOk hsz⟩
  | pipe fdarray => exact keeps_spec (.sysPipe hfc) h hl hsz
  | close fd => exact keeps_spec (.sysClose hfc) h hl hsz
  | dup fd => exact keeps_spec (.sysDup hfd) h hl hsz
  | kill pid => exact keeps_spec keeps_kkill h hl hsz
  | copyout dstva src => exact keeps_spec .copyoutProc h hl hsz
  | copyin srcva len => exact keeps_spec .copyinProc h hl hsz

omit K in
theorem live_of_runnable (h : (s.proc p).state = .runnable) : s.live p := by
  unfold Vm.live
  rw [h]
  simp

/-- The invariant holds in every run in which the sizes stay at most `TRAPFRAME`. -/
theorem VmReach.inv (h : VmReach kp (fun s _ _ => SzOk s) s) : Inv kp [] s := by
  induction h with
  | boot hb hu =>
    obtain ⟨h, hsz⟩ := hb.inv
    exact (userinit_spec (E := fun _ => True) h hsz trivial).ok hu |>.1
  | step _ hp hsz hr ih =>
    exact (VmCall.run_spec (E := fun _ => True) _ ih (live_of_runnable hp) hsz (by simp) (.inr trivial)).ok hr
      |>.1

/-- When each `sbrk` meets `growOk`, the invariant holds and the sizes are at most `TRAPFRAME`. -/
theorem VmReach.inv_szOk (h : VmReach kp (fun s p c => c.growOk s p) s) : Inv kp [] s ∧ SzOk s := by
  induction h with
  | boot hb hu =>
    obtain ⟨h, hsz⟩ := hb.inv
    exact (userinit_spec (E := fun _ => True) h hsz trivial).ok hu
  | step _ hp hg hr ih =>
    obtain ⟨h', hsz'⟩ := (VmCall.run_spec (E := fun _ => True) _ ih.1 (live_of_runnable hp) ih.2
      (by simp) (.inl hg)).ok hr
    exact ⟨h', hsz' hg⟩

end

/-! ## Lazy growth -/

/-- A lazy `sbrk` only checks that the sum does not overflow. -/
theorem sysSbrk_lazy [Layout] {s : Vm} {p n : Nat} (hlt : (s.proc p).sz + n < U64) :
    sysSbrk p n SBRK_LAZY s =
      .ok (some (s.proc p).sz, s.setProc p fun pr => { pr with sz := pr.sz + n }) := by
  have hadd : addInt (s.proc p).sz n = (s.proc p).sz + n := by
    rw [addInt_of_lt (by omega) (by omega)]
    omega
  have hnow : ¬ (SBRK_LAZY = SBRK_EAGER ∨ (n : Int) < 0) := by
    rintro (h | h)
    · cases h
    · omega
  have hover : ¬ addInt (s.proc p).sz n < (s.proc p).sz := by omega
  have hset : (s.setProc p fun pr => { pr with sz := pr.sz + n }) =
      s.setProc p fun pr => { pr with sz := addInt pr.sz n } := by
    simp only [Vm.setProc]
    rw [hadd]
  show (if SBRK_LAZY = SBRK_EAGER ∨ (n : Int) < 0 then do
      if ← growproc p n then pure (some (s.proc p).sz) else pure none
    else if addInt (s.proc p).sz n < (s.proc p).sz then pure none
    else do
      Xv6.setProc p fun pr => { pr with sz := addInt pr.sz n }
      pure (some (s.proc p).sz) : PM (Option Nat)) s = _
  rw [if_neg hnow, if_neg hover, hset]
  rfl

theorem run_lazy [Layout] {s : Vm} {p n : Nat} {b : BitVec 32} (hb : b.toInt = n)
    (hlt : (s.proc p).sz + n < U64) : VmCall.run p (.sbrk b SBRK_LAZY) s =
      .ok ((), s.setProc p fun pr => { pr with sz := pr.sz + n }) := by
  show (M.bind (sysSbrk p b.toInt SBRK_LAZY) fun _ => M.pure ()) s = _
  unfold M.bind
  rw [hb, sysSbrk_lazy hlt]
  rfl

/-- The machine before `userinit`; all pages are free. -/
def smallVm : Vm where
  kmem := {
    mem := fun _ _ => 0
    freelist := (List.range 8).map fun i => PHYSTOP - 8 * PGSIZE + i * PGSIZE
    fails := fun _ => false
    calls := 0 }
  proc := fun _ => {
    state := .unused, killed := false, xstate := 0, pid := 0, parent := none, sz := 0, pagetable := 0
    trapframe := 0, ofile := fun _ => none }
  nextpid := 1
  file := fun _ => .unused
  pipe := fun _ => { readopen := false, writeopen := false }

/-- The last `n` pages of the memory are all pages, where the kernel ends below them. -/
theorem mem_pages [Layout] {n q : Nat} (hend : Layout.kend = PHYSTOP - n * PGSIZE) (hn : n ≤ PHYSTOP / PGSIZE) :
    q ∈ (List.range n).map (fun i => PHYSTOP - n * PGSIZE + i * PGSIZE) ↔ IsPage q ∧ ¬ False := by
  simp only [IsPage, hend, PHYSTOP, KERNBASE, PGSIZE, List.mem_map, List.mem_range, not_false_eq_true,
    and_true] at hn ⊢
  constructor
  · rintro ⟨i, hi, rfl⟩
    omega
  · rintro ⟨h1, h2, h3⟩
    exact ⟨(q - (0x88000000 - n * 4096)) / 4096, by omega, by omega⟩

theorem smallVm_boot : @VmBoot smallLayout (fun _ => False) smallVm :=
  let _ := smallLayout
  ⟨by decide, fun _ => mem_pages rfl (by decide), fun _ h => h.elim, fun _ => ⟨rfl, rfl, rfl, rfl⟩, fun _ => ⟨rfl, rfl⟩⟩

/-- The state after `n` lazy calls of `sbrk(0x7fffffff)` by the first process. -/
def lazyRun : Nat → Vm
  | 0 => match @userinit smallLayout smallVm with
    | .ok (_, s) => s
    | .error _ => smallVm
  | n + 1 => (lazyRun n).setProc 0 fun pr => { pr with sz := pr.sz + 0x7fffffff }

theorem lazyRun_zero : @userinit smallLayout smallVm = .ok ((), lazyRun 0) := rfl

theorem lazyRun_proc {n : Nat} (hn : n ≤ 128) :
    ((lazyRun n).proc 0).state = .runnable ∧ ((lazyRun n).proc 0).sz = n * 0x7fffffff := by
  induction n with
  | zero => exact ⟨rfl, rfl⟩
  | succ n ih =>
    obtain ⟨hst, hsz⟩ := ih (by omega)
    rw [lazyRun, Vm.setProc_self]
    exact ⟨hst, by simp only [hsz]; ring⟩

theorem lazyRun_sz_le (n p : Nat) : ((lazyRun n).proc p).sz ≤ n * 0x7fffffff := by
  induction n with
  | zero => cases p <;> exact le_rfl
  | succ n ih =>
    by_cases hp : p = 0
    · subst hp
      rw [lazyRun, Vm.setProc_self]
      show ((lazyRun n).proc 0).sz + 0x7fffffff ≤ _
      omega
    · rw [lazyRun, Vm.setProc_ne _ _ hp]
      exact ih.trans (Nat.mul_le_mul_right _ (Nat.le_succ n))

theorem lazyRun_szOk {n : Nat} (hn : n ≤ 127) : SzOk (lazyRun n) := by
  intro p
  have := lazyRun_sz_le n p
  simp only [TRAPFRAME, TRAMPOLINE, MAXVA, PGSIZE]
  omega

/-- The calls of this run are lazy ones of process 0. -/
theorem lazyRun_reach {C : Vm → Nat → VmCall → Prop} {n : Nat} (hn : n ≤ 128)
    (hC : ∀ i < n, C (lazyRun i) 0 (.sbrk 0x7fffffff SBRK_LAZY)) :
    @VmReach smallLayout (fun _ => False) C (lazyRun n) := by
  let _ := smallLayout
  induction n with
  | zero => exact .boot smallVm_boot lazyRun_zero
  | succ n ih =>
    obtain ⟨hst, hsz⟩ := lazyRun_proc (n := n) (by omega)
    have hrun := run_lazy (s := lazyRun n) (p := 0) (b := 0x7fffffff) (n := 0x7fffffff) rfl
      (by rw [hsz]; simp only [U64]; omega)
    exact .step (ih (by omega) fun i hi => hC i (by omega)) hst (hC n (by omega)) hrun

/-- After 128 lazy calls the first process is larger than `TRAPFRAME`. -/
theorem lazyRun_exceeds : @VmReach smallLayout (fun _ => False)
    (fun _ _ c => c = .sbrk 0x7fffffff SBRK_LAZY) (lazyRun 128) ∧ ¬ ((lazyRun 128).proc 0).sz ≤ TRAPFRAME := by
  refine ⟨lazyRun_reach le_rfl fun _ _ => rfl, ?_⟩
  rw [(lazyRun_proc le_rfl).2]
  decide

section

variable [K : Layout] {kp : Nat → Prop} {s : Vm}

/-- In every run in which the sizes stay at most `TRAPFRAME`, each page is on the free list once and
has no owner, or it is not on the list and has one owner; no two processes have one page table; and
no call ends in the panic of `kfree` or `freewalk`. -/
theorem page_ownership (h : VmReach kp (fun s _ _ => SzOk s) s) (hsz : SzOk s) :
    (∀ q, IsPage q → (s.kmem.freelist.count q = 1 ∧ ∀ o, ¬ Owns kp s q o) ∨
      (q ∉ s.kmem.freelist ∧ ∃! o, Owns kp s q o)) ∧
    (∀ q, q ∈ s.kmem.freelist ∨ (∃ o, Owns kp s q o) → IsPage q) ∧
    (∀ p p', s.live p → s.live p' → (s.proc p).pagetable = (s.proc p').pagetable → p = p') ∧
    ∀ p c e, (s.proc p).state = .runnable → VmCall.run p c s = .error e →
      e ≠ .kfree ∧ e ≠ .freewalkLeaf := by
  obtain ⟨own, T, hi⟩ := h.inv
  refine ⟨fun q hq => ?_, fun q hq => ?_, hi.procs.inj, fun p c e hp hr => ?_⟩
  · have hout := (hi.mem.page q).mpr hq
    by_cases hf : own q = .free
    · refine .inl ⟨List.count_eq_one_of_mem hi.mem.nodup ((hi.mem.free q).mpr hf), fun o ho => ?_⟩
      obtain ⟨e, hne, -⟩ := hi.owns_iff.mp ho
      exact hne (e.symm.trans hf)
    · refine .inr ⟨fun hin => hf ((hi.mem.free q).mp hin), own q, hi.owns_iff.mpr ⟨rfl, hf, hout⟩, ?_⟩
      exact fun o ho => (hi.owns_iff.mp ho).1.symm
  · rcases hq with hin | ⟨o, ho⟩
    · exact hi.mem.isPage (by rw [(hi.mem.free q).mp hin]; simp)
    · obtain ⟨e, -, hout⟩ := hi.owns_iff.mp ho
      exact hi.mem.isPage (e ▸ hout)
  · have hspec := VmCall.run_spec (E := fun e => e.other ∨ e = .mappagesRemap) c ⟨own, T, hi⟩
      (live_of_runnable hp) hsz (fun _ he => .inl he) (.inr (.inr rfl))
    rcases hspec.error hr with (rfl | rfl | rfl | rfl) | rfl <;> decide

omit K in
theorem page_ownership_lazyRun : SzOk (lazyRun 127) ∧
    ∀ p c e, ((lazyRun 127).proc p).state = .runnable →
      @VmCall.run smallLayout p c (lazyRun 127) = .error e → e ≠ .kfree ∧ e ≠ .freewalkLeaf :=
  ⟨lazyRun_szOk le_rfl, (@page_ownership smallLayout (fun _ => False) (lazyRun 127)
    (lazyRun_reach (by omega) fun _ hi => lazyRun_szOk (by omega)) (lazyRun_szOk le_rfl)).2.2.2⟩

/-- In every run in which each `sbrk` is asked for a size that fits, or allocates it while too few
pages are free to come that far, the sizes stay at most `TRAPFRAME`, no such call panics in `walk`
or `mappages`, and the trapframes and the trampoline are not freed. -/
theorem sizes_bounded (h : VmReach kp (fun s p c => c.growOk s p) s) :
    (∀ p, (s.proc p).sz ≤ TRAPFRAME) ∧
    (∀ p c e, (s.proc p).state = .runnable → c.growOk s p → VmCall.run p c s = .error e →
      e ≠ .walk ∧ e ≠ .mappagesRemap) ∧
    (∀ p, s.live p → (s.proc p).trapframe ∉ s.kmem.freelist) ∧ K.trampoline ∉ s.kmem.freelist := by
  obtain ⟨⟨own, T, hi⟩, hsz⟩ := h.inv_szOk
  refine ⟨hsz, fun p c e hp hg hr => ?_, fun p hl hin => ?_, fun hin => ?_⟩
  · have hspec := VmCall.run_spec (E := Panic.other) c ⟨own, T, hi⟩ (live_of_runnable hp) hsz
      (fun _ he => he) (.inl hg)
    rcases hspec.error hr with rfl | rfl | rfl | rfl <;> decide
  · have := (hi.mem.free _).mp hin
    rw [(hi.procs.live p hl).1] at this
    cases this
  · have hpage : IsPage K.trampoline := hi.mem.isPage (by rw [(hi.mem.free _).mp hin]; simp)
    have := K.trampoline_lt
    have := hpage.2.1
    omega

omit K in
theorem sizes_bounded_lazyRun : @VmReach smallLayout (fun _ => False) (fun s p c => c.growOk s p)
    (lazyRun 127) ∧ ∀ p, ((lazyRun 127).proc p).sz ≤ TRAPFRAME := by
  have h : @VmReach smallLayout (fun _ => False) (fun s p c => c.growOk s p) (lazyRun 127) := by
    refine lazyRun_reach (by omega) fun i hi _ => .inl ?_
    rw [(lazyRun_proc (by omega)).2, show (0x7fffffff : BitVec 32).toInt = 0x7fffffff from rfl]
    simp only [TRAPFRAME, TRAMPOLINE, MAXVA, PGSIZE]
    omega
  exact ⟨h, (@sizes_bounded smallLayout (fun _ => False) (lazyRun 127) h).1⟩

end

end Xv6
