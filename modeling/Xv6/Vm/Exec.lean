import Xv6.Vm.Stack
import Xv6.Vm.ProcSpec

/-!
# What `kexec` leaves behind

`kexec` fills a new table and either puts it in the place of the process's table or frees it again.

* When it fails, the process is as it was, the pages that were free are free, and the others have their words
  (`Untouched`).
* When it succeeds, the process has the image of the file below the guard page and its arguments on the stack
  (`Executed`).
* Whether it succeeds depends on the arguments only in that they have to fit on the stack: what comes before
  (`Prepares`) does not read them.
-/

namespace Xv6

open Seq
open Function (update update_apply update_idem update_of_ne update_self)

section

variable [K : Layout]

/-! ## The leaves of a table in memory -/

omit K in
/-- The leaf of virtual page `v` in the table at `r`, 0 if it has none. -/
def uleaf (k : Kmem) (r v : Nat) : Nat :=
  let pte := k.mem r (px 2 (v * PGSIZE))
  if pteV pte then
    let pte := k.mem (pte2pa pte) (px 1 (v * PGSIZE))
    if pteV pte then k.mem (pte2pa pte) (px 0 (v * PGSIZE)) else 0
  else 0

variable {E : Panic → Prop} {k k₀ k' : Kmem} {own own₀ own' : Nat → Owner}
variable {T : Nat → Option (Nat → Nat)} {r tf sz : Nat} {L L' : Nat → Nat}

theorem Local.uleaf_eq {v : Nat} (h : Local k own r L) (hv : v < NUSER) : uleaf k r v = L v := by
  have hmax : v * PGSIZE < MAXVA := by
    simp only [NUSER, PGSIZE, MAXVA] at hv ⊢
    omega
  have hvpn := vpn_px hmax
  rw [mul_pgsize_div] at hvpn
  unfold uleaf
  by_cases hex : ∃ q, own q = .low r (px 2 (v * PGSIZE)) (px 1 (v * PGSIZE))
  · obtain ⟨q, hq⟩ := hex
    obtain ⟨⟨m, hm⟩, -, hleaf⟩ := h.pt.leaf q _ _ hq
    obtain ⟨h1, h2⟩ := (h.pt.mid _ (px_lt 2 _)).pte hm
    obtain ⟨h3, h4⟩ := ((h.pt.low m _ hm).2 _ (px_lt 1 _)).pte hq
    simp only [h1, h2, h3, h4, if_true]
    rw [hleaf _ (px_lt 0 _), hvpn]
  · have hno : ∀ q, own q ≠ .low r (px 2 (v * PGSIZE)) (px 1 (v * PGSIZE)) := fun q hq => hex ⟨q, hq⟩
    have h0 := h.pt.absent _ (px_lt 2 _) _ (px_lt 1 _) hno _ (px_lt 0 (v * PGSIZE))
    rw [hvpn] at h0
    rw [h0]
    by_cases hex' : ∃ m, own m = .mid r (px 2 (v * PGSIZE))
    · obtain ⟨m, hm⟩ := hex'
      obtain ⟨h1, h2⟩ := (h.pt.mid _ (px_lt 2 _)).pte hm
      have h3 := ((h.pt.low m _ hm).2 _ (px_lt 1 _)).eq_zero hno
      simp [h1, h2, h3, pteV_zero]
    · have h1 := (h.pt.mid _ (px_lt 2 _)).eq_zero fun m hm => hex' ⟨m, hm⟩
      simp [h1, pteV_zero]

/-! ## `kexec` up to the arguments -/

/-- `kexec` in the new table up to the arguments: whether it got so far, and `sz`. -/
def execImage (pagetable : Nat) (ip elf : List UInt8) : KM (Bool × Nat) := do
  let (ok, sz) ← loadSegs pagetable ip (field elf 56 2) (field elf 32 8 % 2 ^ 32) 0
  if ok then do
    let sz := pgRoundUp sz
    let sz1 ← uvmalloc pagetable sz ((sz + (USERSTACK + 1) * PGSIZE) % U64) PTE_W
    if sz1 = 0 then pure (false, sz)
    else do
      uvmclear pagetable (sz1 - (USERSTACK + 1) * PGSIZE)
      pure (true, sz1)
  else pure (false, sz)

variable {ip : List UInt8} {argv : List (List UInt8)}

theorem execLoad_eq {psz ppt : Nat} {elf : List UInt8} :
    execLoad psz ppt r ip elf argv = execImage r ip elf >>= fun x =>
      if x.1 then pushArgs psz ppt r (x.2 - USERSTACK * PGSIZE) argv x.2 [] >>= fun sp => pure (sp, x.2)
      else pure (none, x.2) := by
  unfold execLoad execImage
  rw [bind_bind]
  refine congrArg (bind _) (funext fun ⟨ok, sz⟩ => ?_)
  cases ok with
  | false => rfl
  | true =>
    simp only [if_true]
    unfold execStack
    rw [bind_bind]
    refine congrArg (bind _) (funext fun sz1 => ?_)
    by_cases h0 : sz1 = 0
    · rw [if_pos h0, if_pos h0]
      rfl
    · rw [if_neg h0, if_neg h0, bind_bind]
      rfl

/-- The new table with the program and an empty stack: `b` is the guard page. -/
structure Prepared (k₀ : Kmem) (own₀ : Nat → Owner) (T : Nat → Option (Nat → Nat)) (r tf : Nat) (ip elf : List UInt8)
    (b : Nat) (k : Kmem) (own : Nat → Owner) (L : Nat → Nat) : Prop
    extends Filling k₀ own₀ T r tf ((b + 3) * PGSIZE) k own L where
  guard : pteU (L b) = false
  stack : Writable L ((b + 1) * PGSIZE) ((b + 3) * PGSIZE)
  image : ip.length < 2 ^ 32 → InFile (· % 2 ^ 32) ip (field elf 56 2) (field elf 32 8 % 2 ^ 32) ∧
    ∀ a < b * PGSIZE, ubyte k L a =
      loadImage (· % 2 ^ 32) ip (field elf 56 2) (field elf 32 8 % 2 ^ 32) (fun _ => 0) a

omit K in
theorem pteU_pteClearU {pte : Nat} : pteU (pteClearU pte) = false := by
  unfold pteU pteClearU
  simp
  omega

omit K in
theorem pteW_mkPte {pa perm : Nat} : pteW (mkPte pa perm) = (perm / 4 % 2 == 1) := by
  unfold pteW mkPte
  congr 1
  omega

theorem execImage_spec {elf : List UInt8} (h : Loading k₀ own₀ T r tf 0 k own L)
    (hz : ∀ a, a / PGSIZE < NUSER → ubyte k L a = 0) :
    wp E (execImage r ip elf) k fun res k' => Image k₀ own₀ T r tf res.2 k' ∧ (res.1 = true →
      ∃ b own' L', res.2 = (b + 3) * PGSIZE ∧ Prepared k₀ own₀ T r tf ip elf b k' own' L') := by
  unfold execImage
  refine (loadSegs_spec h).bind fun res k₁ ⟨himg, hok⟩ => ?_
  obtain ⟨ok, sz⟩ := res
  cases ok with
  | false => exact ⟨himg, by simp⟩
  | true =>
  obtain ⟨own₁, L₁, h₁, hb₁⟩ := hok rfl
  simp only at h₁
  have hN := pages_le_nuser h₁.le
  have hpg : pages (pages sz * PGSIZE) = pages sz := pages_mul _
  simp only [if_true]
  rw [pgRoundUp_eq (trapframe_add_le h₁.le)]
  -- the size is rounded up
  have h₁' : Loading k₀ own₀ T r tf (pages sz * PGSIZE) k₁ own₁ L₁ :=
    ⟨⟨h₁.within, h₁.inv, h₁.leaves.congr (fun _ _ => rfl) (by rw [hpg]; exact h₁.leaves.empty),
      Nat.mul_le_mul_right PGSIZE hN⟩, by unfold AllMapped; rw [hpg]; exact h₁.mapped, by rw [hpg]; exact h₁.room⟩
  have hnew : (pages sz * PGSIZE + (USERSTACK + 1) * PGSIZE) % U64 = (pages sz + 3) * PGSIZE := by
    simp only [USERSTACK, PGSIZE, NUSER, U64] at hN ⊢
    omega
  rw [hnew]
  refine (uvmalloc_loading (by decide) h₁').bind fun sz1 k₂ hres => ?_
  rcases hres with ⟨rfl, h₂⟩ | ⟨hsz1, own₂, L₂, h₂, hg, hb₂⟩
  · rw [if_pos rfl]
    exact ⟨h₂, by simp⟩
  obtain rfl : sz1 = (pages sz + 3) * PGSIZE := by
    rw [hsz1]
    exact max_eq_right (Nat.mul_le_mul_right PGSIZE (show pages sz ≤ pages sz + 3 by omega))
  have hpg₂ : pages ((pages sz + 3) * PGSIZE) = pages sz + 3 := pages_mul _
  have hN₂ := pages_le_nuser h₂.le
  rw [hpg₂] at hN₂
  have e1 : (pages sz + 3) * PGSIZE - (USERSTACK + 1) * PGSIZE = pages sz * PGSIZE := by
    rw [← Nat.sub_mul]
    rfl
  rw [if_neg (by simp), e1]
  have hnz : ∀ v < pages sz + 3, L₂ v ≠ 0 := by
    intro v hv h0
    have := h₂.mapped v (by rwa [hpg₂])
    rw [h0] at this
    cases this
  refine (uvmclear_spec h₂.inv (update_self ..) (by rw [mul_pgsize_div]; omega)
    (by rw [mul_pgsize_div]; exact hnz _ (by omega))).bind fun _ k₃ ⟨h₃, hm₃, hfl⟩ => ?_
  rw [mul_pgsize_div, update_idem] at h₃
  -- only the leaf of the guard page has changed
  have hL : LeavesOk (update L₂ (pages sz) (pteClearU (L₂ (pages sz)))) tf ((pages sz + 3) * PGSIZE) := by
    refine h₂.leaves.congr (fun v hv => update_of_ne (by omega) _ _) fun v hv hge => ?_
    rw [hpg₂] at hge
    rw [update_of_ne (by omega)]
    exact h₂.leaves.empty v hv (by rwa [hpg₂])
  have hfill : Filling k₀ own₀ T r tf ((pages sz + 3) * PGSIZE) k₃ own₂ _ :=
    ⟨h₂.within.trans ⟨.refl, fun q _ ht => hm₃ q fun hn => ht hn.1⟩, h₃, hL, h₂.le⟩
  refine ⟨hfill.image, fun _ => ⟨pages sz, own₂, _, rfl, hfill, ?_, fun v h1 h2 => ?_, fun hip => ?_⟩⟩
  · rw [update_self]
    exact pteU_pteClearU
  · rw [mul_pgsize_div] at h1
    have hlt : v < pages sz + 3 := Nat.lt_of_mul_lt_mul_right h2
    rw [update_of_ne (by omega)]
    refine ⟨h₂.mapped v (by rwa [hpg₂]), ?_⟩
    obtain ⟨q, -, -, hq, -⟩ := hg.new v ⟨by rw [hpg]; omega, by rw [hpg, hpg₂]; omega⟩
    rw [hq, pteW_mkPte]
    rfl
  · obtain ⟨hin, hb⟩ := hb₁ hip (Nat.mod_lt _ (by decide))
    refine ⟨hin, fun a ha => ?_⟩
    have hva : a / PGSIZE < pages sz := Nat.div_lt_of_lt_mul (by rwa [Nat.mul_comm])
    have haN : a / PGSIZE < NUSER := by omega
    rw [ubyte_congr (update_of_ne (by omega) _ _) fun h0 => hm₃ _ ?_, hb₂ a haN, hb a haN]
    · exact loadImage_congr (hz a haN)
    · rw [h₂.userOk.own_pte2pa haN h0]
      exact not_nodeOf_user

/-! ## `kexec` -/

variable {kp : Nat → Prop} {hs : List Nat} {s s' : Vm} {p : Nat}

/-- Process `p` has the new table `r` in place of its old one. -/
theorem ProcsOk.swap {proc proc' : Nat → Proc} {own₁ own₂ : Nat → Owner} {r : Nat}
    (h : ProcsOk proc own T) (hl : (proc p).state ≠ .unused) (hT : T r = none) (hf₁ : Frame r own own₁)
    (hf₂ : Frame (proc p).pagetable own₁ own₂) (hne : ∀ p', p' ≠ p → proc' p' = proc p')
    (hst : (proc' p).state ≠ .unused) (hpt : (proc' p).pagetable = r)
    (htf : (proc' p).trapframe = (proc p).trapframe) (hL : LeavesOk L (proc p).trapframe (proc' p).sz) :
    ProcsOk proc' own₂ (update (update T r (some L)) (proc p).pagetable none) := by
  have ho : ∀ q p', own₂ q = .trapframe p' ↔ own q = .trapframe p' := fun q p' =>
    (hf₂.iff rfl (by simp)).trans (hf₁.iff rfl (by simp))
  have hT₂ := update_apply (update T r (some L)) (proc p).pagetable none
  have hT₁ := update_apply T r (some L)
  cases h
  constructor <;> grind

omit K in
/-- What `kexec` leaves alone when it fails: all but the order of the free list and the words of free pages. -/
structure Untouched (s s' : Vm) : Prop where
  rest : s' = { s with kmem := s'.kmem }
  free : s'.kmem.freelist.Perm s.kmem.freelist
  mem : ∀ q, q ∉ s.kmem.freelist → s'.kmem.mem q = s.kmem.mem q

theorem VmInv.untouched (h : VmInv kp hs s own T) (h' : MemInv k' own T)
    (hm : ∀ q, own q ≠ .free → k'.mem q = s.kmem.mem q) : Untouched s { s with kmem := k' } := by
  refine ⟨rfl, (List.perm_ext_iff_of_nodup h'.nodup h.mem.nodup).mpr fun q => ?_, fun q hq => hm q ?_⟩
  · rw [h'.free, h.mem.free]
  · rwa [ne_eq, ← h.mem.free]

/-- Process `p` after `kexec` of the file `ip` with the arguments `argv`. -/
structure Executed (p : Nat) (ip : List UInt8) (argv : List (List UInt8)) (s' : Vm) : Prop where
  size : ∃ b, (s'.proc p).sz = (b + 3) * PGSIZE
  le : (s'.proc p).sz ≤ TRAPFRAME
  fits : stackSpace argv ≤ USERSTACK * PGSIZE
  a1 : s'.kmem.mem (s'.proc p).trapframe 15 = (s'.proc p).sz - stackSpace argv
  sp : s'.kmem.mem (s'.proc p).trapframe 6 = (s'.proc p).sz - stackSpace argv
  epc : s'.kmem.mem (s'.proc p).trapframe 3 = field (readFile ip 0 64) 24 8
  stack : StackAt s'.kmem (uleaf s'.kmem (s'.proc p).pagetable) (s'.proc p).sz argv
  image : ip.length < 2 ^ 32 →
    InFile (· % 2 ^ 32) ip (field (readFile ip 0 64) 56 2) (field (readFile ip 0 64) 32 8 % 2 ^ 32) ∧
    ∀ a < (s'.proc p).sz - (USERSTACK + 1) * PGSIZE, ubyte s'.kmem (uleaf s'.kmem (s'.proc p).pagetable) a =
      loadImage (· % 2 ^ 32) ip (field (readFile ip 0 64) 56 2) (field (readFile ip 0 64) 32 8 % 2 ^ 32) (fun _ => 0) a

/-- `kexec` of the file `ip` comes to the arguments, in the new table `r` of the size `sz`. -/
def Prepares (tf : Nat) (ip : List UInt8) (k : Kmem) (r sz : Nat) (k' : Kmem) : Prop :=
  (readFile ip 0 64).length = 64 ∧ field (readFile ip 0 64) 0 4 = ELF_MAGIC ∧
    ∃ k₁, procPagetable tf k = .ok (some r, k₁) ∧ execImage r ip (readFile ip 0 64) k₁ = .ok ((true, sz), k')

/-- A table without user memory, to load a program into. -/
theorem Loading.start (hw : Within r k₀ k own₀ own) (h : MemInv k own (update T r (some (topLeaves tf)))) :
    Loading k₀ own₀ T r tf 0 k own (topLeaves tf) :=
  ⟨⟨hw, h, topLeaves_ok, Nat.zero_le _⟩, fun v hv => absurd hv (Nat.not_lt_zero v), h.freelist_length⟩

theorem ubyte_topLeaves {a : Nat} (ha : a / PGSIZE < NUSER) : ubyte k (topLeaves tf) a = 0 :=
  if_pos (topLeaves_ok.empty _ ha (Nat.zero_le _))

/-- The size up to the arguments: the program, the guard page and the stack. -/
theorem Prepares.size (hp : Prepares tf ip k r sz k') (h : MemInv k own T) :
    ∃ b, sz = (b + 3) * PGSIZE ∧ sz ≤ TRAPFRAME := by
  obtain ⟨-, -, k₁, hrun₁, hrun₂⟩ := hp
  rcases (procPagetable_spec (E := fun _ => True) h).ok hrun₁ with ⟨e, -⟩ | ⟨r', own₁, e, -, -, hw₁, h₁, -⟩
  · cases e
  obtain rfl := Option.some.inj e
  have hspec : wp (fun _ => True) (execImage r ip (readFile ip 0 64)) k₁ _ :=
    execImage_spec (Loading.start hw₁ h₁) fun _ => ubyte_topLeaves
  obtain ⟨b, own₂, L, hsz, hprep⟩ := (hspec.ok hrun₂).2 rfl
  exact ⟨b, hsz, by rw [show sz = (b + 3) * PGSIZE from hsz]; exact hprep.le⟩

/-- What `kexec` does (module doc). -/
structure ExecSpec (kp : Nat → Prop) (hs : List Nat) (p : Nat) (ip : Option (List UInt8)) (argv : List (List UInt8))
    (s : Vm) (res : Option Nat) (s' : Vm) : Prop where
  inv : Inv kp hs s'
  live : s'.live p
  size : (s'.proc p).sz ≤ TRAPFRAME
  others : ∀ p', p' ≠ p → s'.proc p' = s.proc p'
  failed : res = none → Untouched s s'
  done : ∀ n, res = some n → n = argv.length ∧ ∃ f, ip = some f ∧ Executed p f argv s'
  fits : argv.length < MAXARG → (res ≠ none ↔
    (∃ f r sz k', ip = some f ∧ Prepares (s.proc p).trapframe f s.kmem r sz k') ∧ stackSpace argv ≤ USERSTACK * PGSIZE)

/-- `kexec` fails and leaves the memory in `k'`. -/
theorem ExecSpec.fail {ip : Option (List UInt8)} (h : VmInv kp hs s own T) (hl : s.live p)
    (hsz : (s.proc p).sz ≤ TRAPFRAME) (h' : MemInv k' own T) (hm : ∀ q, own q ≠ .free → k'.mem q = s.kmem.mem q)
    (hno : argv.length < MAXARG → ¬ ((∃ f r sz k', ip = some f ∧ Prepares (s.proc p).trapframe f s.kmem r sz k') ∧
      stackSpace argv ≤ USERSTACK * PGSIZE)) : ExecSpec kp hs p ip argv s none { s with kmem := k' } where
  inv := ⟨own, T, h', h.kernel, h.held, h.nodup, h.procs, h.pipes⟩
  live := hl
  size := hsz
  others _ _ := rfl
  failed _ := h.untouched h' hm
  done _ e := by cases e
  fits hlt := by simpa using hno hlt

/-- The bytes of the pages of the new table, in another memory that has the same words there. -/
theorem Filling.ubyte_kept {a : Nat} {own' : Nat → Owner} (h : Filling k₀ own₀ T r tf sz k own L)
    (hk : ∀ q v, own q = .user r v → k'.mem q = k.mem q) (hl : Local k' own' r L) (ha : a / PGSIZE < NUSER) :
    ubyte k' (uleaf k' r) a = ubyte k L a :=
  ubyte_congr (hl.uleaf_eq ha) fun h0 => hk _ _ (h.userOk.own_pte2pa ha h0)

/-- The new table is filled; it takes the place of the old one, which is freed. -/
theorem ExecSpec.commit {f : List UInt8} {b : Nat} {k₁ : Kmem} {own₁ : Nat → Owner}
    {r : Nat} {L : Nat → Nat} (h : VmInv kp hs s own T) (hl : s.live p) (hsz : (s.proc p).sz ≤ TRAPFRAME)
    (hT : T r = none) (hfill : Filling s.kmem own T r (s.proc p).trapframe ((b + 3) * PGSIZE) k₁ own₁ L)
    (hfits : stackSpace argv ≤ USERSTACK * PGSIZE) (hstack : StackAt k₁ L ((b + 3) * PGSIZE) argv)
    (himage : f.length < 2 ^ 32 →
      InFile (· % 2 ^ 32) f (field (readFile f 0 64) 56 2) (field (readFile f 0 64) 32 8 % 2 ^ 32) ∧
      ∀ a < b * PGSIZE, ubyte k₁ L a =
        loadImage (· % 2 ^ 32) f (field (readFile f 0 64) 56 2) (field (readFile f 0 64) 32 8 % 2 ^ 32) (fun _ => 0) a)
    (hprep : ∃ r sz k', Prepares (s.proc p).trapframe f s.kmem r sz k') :
    wp E (do
      onMem (store (s.proc p).trapframe 15 ((b + 3) * PGSIZE - stackSpace argv))
      setProc p fun pr => { pr with pagetable := r, sz := (b + 3) * PGSIZE }
      onMem (store (s.proc p).trapframe 3 (field (readFile f 0 64) 24 8))
      onMem (store (s.proc p).trapframe 6 ((b + 3) * PGSIZE - stackSpace argv))
      onMem (procFreepagetable (s.proc p).pagetable (s.proc p).sz)
      pure (some argv.length)) { s with kmem := k₁ } (ExecSpec kp hs p (some f) argv s) := by
  obtain ⟨htf, L₀, hT₀, hL₀⟩ := h.procs.live p hl
  have htf₁ : own₁ (s.proc p).trapframe = .trapframe p := hfill.within.frame.keep htf (by simp) (by simp [Owner.table])
  have hnode : (own₁ (s.proc p).trapframe).isNode = false := by rw [htf₁]; rfl
  have hr0 : (s.proc p).pagetable ≠ r := by rintro e; rw [e, hT] at hT₀; cases hT₀
  simp only [store]
  rw [wp_bind, wp_onMem, wp_modify, wp_bind, wp_setProc, wp_bind, wp_onMem, wp_modify, wp_bind, wp_onMem,
    wp_modify, wp_bind, wp_onMem]
  have h₂ := ((hfill.inv.setWord hnode 15 ((b + 3) * PGSIZE - stackSpace argv)).setWord hnode 3
    (field (readFile f 0 64) 24 8)).setWord hnode 6 ((b + 3) * PGSIZE - stackSpace argv)
  refine (procFreepagetable_spec h₂ (by rw [update_of_ne hr0]; exact hT₀) hL₀ hsz).mono ?_
  rintro _ k₃ ⟨own₃, hw₃, h₃⟩
  have hkeep : ∀ q o, o.table = none → o ≠ .free → (own₃ q = o ↔ own q = o) := fun q o ht ho =>
    (hw₃.frame.iff ht ho).trans (hfill.within.frame.iff ht ho)
  -- the words of the trapframe and of the pages of the new table
  have hframe : k₃.mem (s.proc p).trapframe = _ := hw₃.mem _ (by rw [htf₁]; simp) (by rw [htf₁]; simp [Owner.table])
  have huser : ∀ q v, own₁ q = .user r v → k₃.mem q = k₁.mem q := by
    intro q v hq
    have hne : q ≠ (s.proc p).trapframe := by rintro rfl; rw [htf₁] at hq; cases hq
    rw [hw₃.mem q (by rw [hq]; simp) (by rw [hq]; simpa [Owner.table] using Ne.symm hr0)]
    rw [setWord_mem_of_ne hne, setWord_mem_of_ne hne, setWord_mem_of_ne hne]
  have hT₃ : (update (update T r (some L)) (s.proc p).pagetable none) r = some L := by
    rw [update_of_ne (Ne.symm hr0), update_self]
  have hbyte : ∀ a, a < (b + 3) * PGSIZE → ubyte k₃ (uleaf k₃ r) a = ubyte k₁ L a := by
    intro a ha
    refine hfill.ubyte_kept huser (h₃.toLocal hT₃) ?_
    have := hfill.le
    simp only [TRAPFRAME, TRAMPOLINE, MAXVA, PGSIZE, NUSER] at this ha ⊢
    omega
  have hpr : (update s.proc p { s.proc p with pagetable := r, sz := (b + 3) * PGSIZE }) p =
      { s.proc p with pagetable := r, sz := (b + 3) * PGSIZE } := update_self ..
  have hprocs : ProcsOk (update s.proc p { s.proc p with pagetable := r, sz := (b + 3) * PGSIZE }) own₃ _ :=
    h.procs.swap (L := L) hl hT hfill.within.frame hw₃.frame (fun p' e => update_of_ne e _ _)
      (by rw [hpr]; exact hl) (by rw [hpr]) (by rw [hpr]) (by rw [hpr]; exact hfill.leaves)
  rw [wp_pure]
  refine ⟨⟨own₃, _, h₃, fun q => ?_, fun q => ?_, h.nodup, hprocs, ?_⟩, ?_, ?_, fun p' e => update_of_ne e _ _,
    (by simp), fun n e => ⟨(Option.some.inj e).symm, f, rfl, ?_⟩, fun _ => ?_⟩
  · rw [hkeep q _ rfl (by simp)]; exact h.kernel q
  · rw [hkeep q _ rfl (by simp)]; exact h.held q
  · exact h.pipes.congr fun q => hkeep q _ rfl (by simp)
  · simp only [Vm.live, Vm.setProc_self]
    exact hl
  · simp only [Vm.setProc_self]
    exact hfill.le
  · have hb3 : (b + 3) * PGSIZE - (USERSTACK + 1) * PGSIZE = b * PGSIZE := by
      rw [← Nat.sub_mul]
      rfl
    refine ⟨?_, ?_, hfits, ?_, ?_, ?_, ?_, ?_⟩ <;> simp only [Vm.setProc_self]
    · exact ⟨b, rfl⟩
    · exact hfill.le
    · rw [hframe, setWord_mem_of_ne_index (by decide), setWord_mem_of_ne_index (by decide), setWord_mem_self]
    · rw [hframe, setWord_mem_self]
    · rw [hframe, setWord_mem_of_ne_index (by decide), setWord_mem_self]
    · exact hstack.congr (hfits.trans (Nat.mul_le_mul_right _ (by simp only [USERSTACK]; omega))) hbyte
    · intro hlen
      obtain ⟨hin, himg⟩ := himage hlen
      refine ⟨hin, fun a ha => ?_⟩
      rw [hb3] at ha
      rw [hbyte a (ha.trans_le (Nat.mul_le_mul_right _ (by omega))), himg a ha]
  · obtain ⟨r', sz', k', hp⟩ := hprep
    exact iff_of_true (by simp) ⟨⟨f, r', sz', k', rfl, hp⟩, hfits⟩

omit K in
theorem mul_pgsize_mod16 {n : Nat} : n * PGSIZE % 16 = 0 := by
  simp only [PGSIZE]
  omega

omit K in
theorem stack_room {b : Nat} : (b + 1) * PGSIZE + argSpace [] ≤ (b + 3) * PGSIZE := by
  have e : argSpace [] = 0 := rfl
  rw [e, Nat.add_zero]
  exact Nat.mul_le_mul_right PGSIZE (show b + 1 ≤ b + 3 by omega)

theorem kexec_exact {ip : Option (List UInt8)} (h : Inv kp hs s) (hl : s.live p) (hsz : (s.proc p).sz ≤ TRAPFRAME)
    (hargs : ∀ arg ∈ argv, arg.length < PGSIZE) : wp E (kexec p ip argv) s (ExecSpec kp hs p ip argv s) := by
  obtain ⟨own, T, h⟩ := h
  unfold kexec
  cases ip with
  | none => exact .fail h hl hsz h.mem (fun _ _ => rfl) fun _ ⟨⟨_, _, _, _, e, _⟩, _⟩ => by cases e
  | some f =>
    simp only
    -- a stop before the new table
    have hstop : ∀ k', MemInv k' own T → (∀ q, own q ≠ .free → k'.mem q = s.kmem.mem q) →
        (∀ r sz k₁, ¬ Prepares (s.proc p).trapframe f s.kmem r sz k₁) →
        ExecSpec kp hs p (some f) argv s none { s with kmem := k' } := by
      intro k' h' hm hno
      refine .fail h hl hsz h' hm fun _ ⟨⟨f', r, sz, k₁, e, hp⟩, _⟩ => ?_
      obtain rfl := Option.some.inj e
      exact hno r sz k₁ hp
    rw [wp_bind, wp_getProc, wp_ite]
    refine ⟨fun hlen => hstop _ h.mem (fun _ _ => rfl) fun _ _ _ hp => hlen hp.1, fun hlen => ?_⟩
    rw [wp_ite]
    refine ⟨fun hmagic => hstop _ h.mem (fun _ _ => rfl) fun _ _ _ hp => hmagic hp.2.1, fun hmagic => ?_⟩
    rw [wp_bind, wp_onMem]
    refine (procPagetable_spec h.mem).run.mono fun res k₁ ⟨hres, hrun₁⟩ => ?_
    rcases hres with ⟨rfl, h₁, hm₁⟩ | ⟨r, own₁, rfl, hr, hT, hw₁, h₁, -⟩
    · refine hstop _ h₁ hm₁ fun _ _ _ hp => ?_
      obtain ⟨-, -, _, hrun, -⟩ := hp
      rw [hrun₁] at hrun
      cases hrun
    simp only
    rw [execLoad_eq, wp_bind, wp_onMem, wp_bind]
    refine (execImage_spec (Loading.start hw₁ h₁) fun _ => ubyte_topLeaves).run.mono
      fun res k₂ ⟨⟨himg, hok⟩, hrun₂⟩ => ?_
    obtain ⟨ok, sz⟩ := res
    -- the new table is freed
    have hbad : ∀ k₃ sz, Image s.kmem own T r (s.proc p).trapframe sz k₃ →
        (argv.length < MAXARG → ¬ ((∃ f' r sz k', some f = some f' ∧ Prepares (s.proc p).trapframe f' s.kmem r sz k') ∧
          stackSpace argv ≤ USERSTACK * PGSIZE)) →
        wp E (onMem (procFreepagetable r sz) >>= fun _ => pure none) { s with kmem := k₃ }
          (ExecSpec kp hs p (some f) argv s) := by
      intro k₃ sz ⟨own₃, L, hfill⟩ hno
      rw [wp_bind, wp_onMem]
      refine (procFreepagetable_spec hfill.inv (update_self ..) hfill.leaves hfill.le).mono
        fun _ k₄ ⟨own₄, hw₄, h₄⟩ => ?_
      rw [update_idem] at h₄
      obtain ⟨h', hm⟩ := h.mem.came_and_went hT (hfill.within.trans hw₄) h₄
      exact .fail h hl hsz h' hm hno
    cases ok with
    | false =>
      refine hbad k₂ sz himg fun _ ⟨⟨f', r', sz', k', e, _, _, _, hp, hx⟩, _⟩ => ?_
      obtain rfl := Option.some.inj e
      rw [hrun₁] at hp
      cases hp
      rw [hrun₂] at hx
      cases hx
    | true =>
      obtain ⟨b, own₂, L, rfl, hprep⟩ := hok rfl
      have hready : Prepares (s.proc p).trapframe f s.kmem r ((b + 3) * PGSIZE) k₂ :=
        ⟨by simpa using hlen, by simpa using hmagic, k₁, hrun₁, hrun₂⟩
      have hbase : (b + 3) * PGSIZE - USERSTACK * PGSIZE = (b + 1) * PGSIZE := by
        rw [← Nat.sub_mul]
        rfl
      have htop : (b + 3) * PGSIZE = (b + 1) * PGSIZE + USERSTACK * PGSIZE := by
        rw [← Nat.add_mul]
        rfl
      have hspec : wp E (pushArgs (s.proc p).sz (s.proc p).pagetable r ((b + 1) * PGSIZE) argv
          ((b + 3) * PGSIZE - argSpace []) (argAddrs ((b + 3) * PGSIZE) [])) k₂ _ :=
        pushArgs_spec hprep.toFilling hprep.stack (Nat.le_mul_of_pos_left _ (Nat.succ_pos b)) mul_pgsize_mod16
          mul_pgsize_mod16 hprep.le stack_room hargs (Nat.zero_le _) fun i arg hi => by cases hi
      simp only [if_true]
      rw [hbase, wp_bind]
      refine hspec.mono fun sp k₃ ⟨hfill, hpush⟩ => ?_
      rw [List.nil_append] at hpush
      cases sp with
      | none =>
        refine hbad k₃ _ hfill.image fun hlt ⟨_, hfit⟩ => (hpush.fits hlt).mpr ?_ rfl
        omega
      | some sp =>
        obtain ⟨rfl, hfit, hstack⟩ := hpush.done sp rfl
        refine ExecSpec.commit h hl hsz hT hfill (by omega) hstack (fun hflen => ?_) ⟨_, _, _, hready⟩
        obtain ⟨hin, hb⟩ := hprep.image hflen
        refine ⟨hin, fun a ha => ?_⟩
        rw [hpush.below a (ha.trans_le (Nat.mul_le_mul_right _ (by omega))), hb a ha]

end

end Xv6
