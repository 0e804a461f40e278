import Xv6.Vm.ExecCode
import Xv6.Vm.Run

/-!
# `kexec` fails cleanly, and what it loads when it succeeds

Every state of a run has the invariant `Inv`. From such a state:

* `kexec` returns, whatever the file and the page allocator do, and a failure changes nothing but the free pages
  (`kexec_fails_cleanly`).
* The image below the guard page is what the ELF file says when the offsets of its header are below `2 ^ 32`, which
  `kexec` takes them for (`kexec_loads_elf_iff`).
* The arguments are on the stack, and the checks of the stack stop `kexec` exactly when they do not fit
  (`kexec_stack_exact`).
-/

namespace Xv6

open Seq

section

variable [K : Layout] {E : Panic → Prop} {kp : Nat → Prop} {hs : List Nat} {s s' : ExecSt} {p : Nat}
variable (files : List UInt8 → Option (List UInt8)) (path : List UInt8) {argv : List (List UInt8)} (ustack : Nat → Nat)

/-- The argument strings that `sys_exec` can pass. -/
structure ArgvOk (argv : List (List UInt8)) : Prop where
  count : argv.length < MAXARG
  size : ∀ arg ∈ argv, arg.length < PGSIZE

theorem kexecFull_spec (h : Inv kp hs s.vm) (hl : s.vm.live p) (hsz : (s.vm.proc p).sz ≤ TRAPFRAME)
    (hargv : ArgvOk argv) :
    wp E (kexecFull p files path argv ustack) s fun res s' =>
      s' = s.after p files path res s'.vm ∧ ExecSpec kp hs p (files path) argv s.vm res s'.vm :=
  kexecFull_of_kexec hargv.count ((kexec_exact h hl hsz hargv.size).mono fun _ _ hx => ⟨rfl, hx⟩)

end

/-! ## A machine to run `kexec` on -/

/-- A machine with sixteen pages. -/
@[reducible] def execLayout : Layout where
  kend := PHYSTOP - 16 * PGSIZE
  trampoline := KERNBASE
  kend_ge := by decide
  trampoline_lt := by decide
  trampoline_aligned := kernbase_aligned

/-- The machine before `userinit`. -/
def execVm : Vm :=
  { smallVm with
    kmem := { smallVm.kmem with freelist := (List.range 16).map fun i => PHYSTOP - 16 * PGSIZE + i * PGSIZE } }

theorem execVm_boot : @VmBoot execLayout (fun _ => False) execVm :=
  let _ := execLayout
  ⟨by decide, fun _ => mem_pages rfl (by decide), fun _ h => h.elim, fun _ => ⟨rfl, rfl, rfl, rfl⟩, fun _ => ⟨rfl, rfl⟩⟩

/-- The machine with its first process. -/
def firstVm : Vm :=
  match @userinit execLayout execVm with
  | .ok (_, s) => s
  | .error _ => execVm

def firstSt : ExecSt where
  vm := firstVm
  name _ := []
  calls := []

theorem firstVm_eq : @userinit execLayout execVm = .ok ((), firstVm) := rfl

theorem firstVm_inv : @Inv execLayout (fun _ => False) [] firstVm := by
  let _ := execLayout
  obtain ⟨h, hsz⟩ := execVm_boot.inv
  exact ((userinit_spec (E := fun _ => True) h hsz trivial).ok firstVm_eq).1

theorem firstVm_live : firstVm.live 0 := live_of_runnable rfl

theorem firstVm_sz : (firstVm.proc 0).sz ≤ TRAPFRAME := Nat.zero_le _

/-- An ELF file of 124 bytes: the header says that the program header is at `phoff`, and that one that its four bytes
are at `off`; they are at 64 and 120. -/
def elfFile (phoff off : Nat) : List UInt8 :=
  leBytes 4 ELF_MAGIC ++ List.replicate 28 0 ++ leBytes 8 phoff ++ List.replicate 16 0 ++ leBytes 2 1 ++
    List.replicate 6 0 ++ leBytes 4 ELF_PROG_LOAD ++ leBytes 4 5 ++ leBytes 8 off ++ List.replicate 16 0 ++
    leBytes 8 4 ++ leBytes 8 4 ++ List.replicate 8 0 ++ [1, 2, 3, 4]

/-- `kexec` of the first process up to the arguments. -/
def prepare (ip : List UInt8) : KM (Bool × Nat) := do
  match ← @procPagetable execLayout (firstVm.proc 0).trapframe with
  | none => pure (false, 0)
  | some r => @execImage execLayout r ip (readFile ip 0 64)

theorem prepare_eq {ip : List UInt8} {k k₁ : Kmem} {r : Nat}
    (h : @procPagetable execLayout (firstVm.proc 0).trapframe k = .ok (some r, k₁)) :
    prepare ip k = @execImage execLayout r ip (readFile ip 0 64) k₁ := by
  show M.bind _ _ k = _
  unfold M.bind
  rw [h]

theorem prepares_of_prepare {ip : List UInt8} {sz : Nat} (hlen : (readFile ip 0 64).length = 64)
    (hmagic : field (readFile ip 0 64) 0 4 = ELF_MAGIC)
    (h : (prepare ip firstVm.kmem).toOption.map Prod.fst = some (true, sz)) :
    ∃ r k', @Prepares execLayout (firstVm.proc 0).trapframe ip firstVm.kmem r sz k' := by
  obtain ⟨⟨_, k'⟩, hrun, rfl⟩ := Option.map_eq_some_iff.mp h
  obtain ⟨res, k₁, h₁, h₂⟩ := bind_ok (ok_of_toOption hrun)
  cases res with
  | none => cases h₂
  | some r => exact ⟨r, k', hlen, hmagic, k₁, h₁, h₂⟩

theorem elfFile_prepares : ∃ r k', @Prepares execLayout (firstVm.proc 0).trapframe (elfFile 64 120) firstVm.kmem r
    (4 * PGSIZE) k' :=
  prepares_of_prepare (by decide +kernel) (by decide +kernel) (by decide +kernel)

section

variable [K : Layout] {E : Panic → Prop} {kp : Nat → Prop} {hs : List Nat} {s s' : ExecSt} {p : Nat}
variable (files : List UInt8 → Option (List UInt8)) (path : List UInt8) {argv : List (List UInt8)} (ustack : Nat → Nat)

/-! ## Failure -/

/-- From every state of a run: `kexec` returns for every file and every sequence of failures of `kalloc`, so it comes
to no `panic` and stores to `ustack` within its bound. When it fails, the processes, the names and the trapframe are as
they were, the free pages are free again, and the inode and the transaction that it opened are closed once. -/
theorem kexec_fails_cleanly (h : Inv kp hs s.vm) (hl : s.vm.live p) (hsz : (s.vm.proc p).sz ≤ TRAPFRAME)
    (hargv : ArgvOk argv) : ∃ res s', kexecFull p files path argv ustack s = .ok (res, s') ∧
      (res = none → s'.vm.proc = s.vm.proc ∧ s'.name = s.name ∧
        s'.vm.kmem.mem (s.vm.proc p).trapframe = s.vm.kmem.mem (s.vm.proc p).trapframe ∧
        s'.vm.kmem.freelist.Perm s.vm.kmem.freelist ∧
        s'.calls = s.calls ++ if (files path).isSome then [.beginOp, .namei path, .ilock, .iunlockput, .endOp]
          else [.beginOp, .namei path, .endOp]) := by
  obtain ⟨res, s', hrun, hs', hx⟩ := (kexecFull_spec (E := fun _ => False) files path ustack h hl hsz hargv).returns
  refine ⟨res, s', hrun, fun hres => ?_⟩
  have hun := hx.failed hres
  obtain ⟨own, T, hv⟩ := h
  have htf : (s.vm.proc p).trapframe ∉ s.vm.kmem.freelist := by
    rw [hv.mem.free, (hv.procs.live p hl).1]
    simp
  subst hres
  refine ⟨by rw [hun.rest], by rw [hs']; rfl, hun.mem _ htf, hun.free, ?_⟩
  rw [hs']
  show s.calls ++ kexecCalls files path = _
  cases hf : files path with
  | none => rw [kexecCalls_none hf]; rfl
  | some ip => rw [kexecCalls_some hf]; rfl

omit K in
/-- `kexec` of the first process fails with a file that does not get it as far as the arguments. -/
theorem kexec_first_fails {ip : List UInt8} {n : Nat} {res : Option Nat} (hargv : ArgvOk argv)
    (hprep : ((prepare ip firstVm.kmem).toOption.map fun x => (x.1.1, x.2.freelist.length)) = some (false, n))
    (hrun : @kexecFull execLayout 0 (fun _ => some ip) [47, 97] argv (fun _ => 0) firstSt = .ok (res, s')) :
    res = none := by
  let _ := execLayout
  obtain ⟨-, hx⟩ := (kexecFull_spec (s := firstSt) (E := fun _ => True) (fun _ => some ip) [47, 97] (fun _ => 0)
    firstVm_inv firstVm_live firstVm_sz hargv).ok hrun
  by_contra hne
  obtain ⟨⟨f, r, sz, k', hf, -, -, k₁, h₁, h₂⟩, -⟩ := (hx.fits hargv.count).mp hne
  obtain rfl := Option.some.inj hf
  have hok := (prepare_eq h₁).trans h₂
  rw [show firstSt.vm.kmem = firstVm.kmem from rfl] at hok
  rw [hok] at hprep
  cases hprep

omit K in
/-- The program is not in the file: `loadseg` fails when `kexec` has taken six of the twelve free pages. -/
theorem kexec_fails_cleanly_first :
    ((prepare (elfFile 64 200) firstVm.kmem).toOption.map fun x => (x.1.1, x.2.freelist.length)) = some (false, 6) ∧
    firstVm.kmem.freelist.length = 12 ∧
    ∃ s', @kexecFull execLayout 0 (fun _ => some (elfFile 64 200)) [47, 97] [[97]] (fun _ => 0) firstSt =
      .ok (none, s') ∧ s'.vm.proc = firstVm.proc ∧ s'.vm.kmem.freelist.Perm firstVm.kmem.freelist ∧
      s'.calls = [.beginOp, .namei [47, 97], .ilock, .iunlockput, .endOp] := by
  let _ := execLayout
  have hprep : ((prepare (elfFile 64 200) firstVm.kmem).toOption.map fun x => (x.1.1, x.2.freelist.length)) =
      some (false, 6) := by
    decide +kernel
  have hargv : ArgvOk [[97]] := ⟨by decide, by decide⟩
  refine ⟨hprep, by decide +kernel, ?_⟩
  generalize elfFile 64 200 = ip at hprep ⊢
  obtain ⟨res, s', hrun, hfail⟩ := kexec_fails_cleanly (s := firstSt) (fun _ => some ip) [47, 97] (fun _ => 0)
    firstVm_inv firstVm_live firstVm_sz hargv
  obtain rfl := kexec_first_fails hargv hprep hrun
  obtain ⟨hproc, -, -, hfree, hcalls⟩ := hfail rfl
  exact ⟨s', hrun, hproc, hfree, hcalls⟩

/-! ## The program -/

omit K

/-- `elf.phnum` of the file. -/
def phnum (ip : List UInt8) : Nat := field (ip.take 64) 56 2

/-- `elf.phoff` of the file. -/
def phoff (ip : List UInt8) : Nat := field (ip.take 64) 32 8

theorem readFile_elf (ip : List UInt8) : readFile ip 0 64 = ip.take 64 := by
  unfold readFile
  rw [if_neg (by omega), List.drop_zero]

/-- What process `p` sees below the guard page is what the ELF file says, and that is inside the file. -/
def LoadsElf (p : Nat) (ip : List UInt8) (vm : Vm) : Prop :=
  InFile id ip (phnum ip) (phoff ip) ∧
    ∀ a < (vm.proc p).sz - (USERSTACK + 1) * PGSIZE,
      ubyte vm.kmem (uleaf vm.kmem (vm.proc p).pagetable) a = loadImage id ip (phnum ip) (phoff ip) (fun _ => 0) a

/-- The file offsets that `kexec` uses fit in 32 bits. -/
def OffsetsOk (ip : List UInt8) : Prop :=
  phnum ip = 0 ∨ (phoff ip < 2 ^ 32 ∧ ∀ i < phnum ip, IsLoad (phdr ip (phoff ip + 56 * i)) →
    field (phdr ip (phoff ip + 56 * i)) 32 8 ≠ 0 → field (phdr ip (phoff ip + 56 * i)) 8 8 < 2 ^ 32)

variable {ip : List UInt8} {n : Nat}

/-- Offsets that are the same wherever there are bytes to take. -/
theorem loadImage_offsets {g g' : Nat → Nat} {off : Nat} {f : Nat → UInt8}
    (h : ∀ i < n, IsLoad (phdr ip (off + 56 * i)) → field (phdr ip (off + 56 * i)) 32 8 ≠ 0 →
      g (field (phdr ip (off + 56 * i)) 8 8) = g' (field (phdr ip (off + 56 * i)) 8 8)) :
    loadImage g ip n off f = loadImage g' ip n off f := by
  induction n generalizing off f with
  | zero => rfl
  | succ n ih =>
    have hfirst : (if IsLoad (phdr ip off) then overlay f (field (phdr ip off) 16 8) (field (phdr ip off) 32 8)
          (ip.drop (g (field (phdr ip off) 8 8))) else f) =
        if IsLoad (phdr ip off) then overlay f (field (phdr ip off) 16 8) (field (phdr ip off) 32 8)
          (ip.drop (g' (field (phdr ip off) 8 8))) else f := by
      by_cases hl : IsLoad (phdr ip off)
      · rw [if_pos hl, if_pos hl]
        by_cases h0 : field (phdr ip off) 32 8 = 0
        · rw [h0]
          funext a
          rw [overlay_zero, overlay_zero]
        · have := h 0 (by omega) hl h0
          rw [Nat.mul_zero, Nat.add_zero] at this
          rw [this]
      · rw [if_neg hl, if_neg hl]
    show loadImage g ip n (off + 56) _ = loadImage g' ip n (off + 56) _
    rw [hfirst]
    refine ih fun i hi => ?_
    have := h (i + 1) (by omega)
    rwa [show off + 56 * (i + 1) = off + 56 + 56 * i by ring] at this

theorem InFile.offsets {g g' : Nat → Nat} {off : Nat} (hin : InFile g ip n off)
    (h : ∀ i < n, IsLoad (phdr ip (off + 56 * i)) → field (phdr ip (off + 56 * i)) 32 8 ≠ 0 →
      g (field (phdr ip (off + 56 * i)) 8 8) = g' (field (phdr ip (off + 56 * i)) 8 8)) : InFile g' ip n off := by
  refine ⟨hin.header, fun i hi hl j hj => ?_⟩
  rw [← h i hi hl (by omega)]
  exact hin.segment i hi hl j hj

/-- A file whose program lies inside it. -/
theorem InFile.offsetsOk (hlen : ip.length < 2 ^ 32) (h : InFile id ip (phnum ip) (phoff ip)) : OffsetsOk ip := by
  by_cases hn : phnum ip = 0
  · exact .inl hn
  · refine .inr ⟨?_, fun i hi hl hne => ?_⟩
    · have := h.header 0 (by omega)
      omega
    · have := h.segment i hi hl 0 (by omega)
      simp only [id_eq] at this
      omega

include K

/-- When `kexec` succeeds, it has loaded what the ELF file says if and only if the file offsets of the program headers
and of the segments fit in the 32 bits that they pass through. -/
theorem kexec_loads_elf_iff {n : Nat} {ip : List UInt8} (h : Inv kp hs s.vm) (hl : s.vm.live p)
    (hsz : (s.vm.proc p).sz ≤ TRAPFRAME) (hargv : ArgvOk argv) (hip : files path = some ip)
    (hlen : ip.length < 2 ^ 32) (hrun : kexecFull p files path argv ustack s = .ok (some n, s')) :
    LoadsElf p ip s'.vm ↔ OffsetsOk ip := by
  obtain ⟨-, hx⟩ := (kexecFull_spec (E := fun _ => True) files path ustack h hl hsz hargv).ok hrun
  obtain ⟨-, f, hf, hdone⟩ := hx.done n rfl
  rw [hip] at hf
  obtain rfl := Option.some.inj hf
  obtain ⟨hin, himg⟩ := hdone.image hlen
  rw [readFile_elf] at hin himg
  change InFile _ ip (phnum ip) (phoff ip % 2 ^ 32) at hin
  refine ⟨fun hx => hx.1.offsetsOk hlen, fun hok => ?_⟩
  rcases hok with h0 | ⟨hoff, hseg⟩
  · refine ⟨by rw [h0]; exact .zero, fun a ha => ?_⟩
    rw [himg a ha]
    show loadImage _ ip (phnum ip) _ _ a = _
    rw [h0]
    rfl
  · rw [Nat.mod_eq_of_lt hoff] at hin
    have hsame : ∀ i < phnum ip, IsLoad (phdr ip (phoff ip + 56 * i)) → field (phdr ip (phoff ip + 56 * i)) 32 8 ≠ 0 →
        field (phdr ip (phoff ip + 56 * i)) 8 8 % 2 ^ 32 = id (field (phdr ip (phoff ip + 56 * i)) 8 8) :=
      fun i hi hl hne => Nat.mod_eq_of_lt (hseg i hi hl hne)
    refine ⟨hin.offsets hsame, fun a ha => ?_⟩
    rw [himg a ha]
    show loadImage _ ip (phnum ip) (phoff ip % 2 ^ 32) _ a = _
    rw [Nat.mod_eq_of_lt hoff]
    exact congrFun (loadImage_offsets hsame) a

omit K

/-- `kexec` of the first process succeeds with a file that gets it as far as the arguments. -/
theorem kexec_first_succeeds {sz : Nat} {argv : List (List UInt8)}
    (hprep : ∃ r k', @Prepares execLayout (firstVm.proc 0).trapframe ip firstVm.kmem r sz k')
    (hargv : ArgvOk argv) (hfits : stackSpace argv ≤ USERSTACK * PGSIZE) :
    ∃ n s', @kexecFull execLayout 0 (fun _ => some ip) [47, 97] argv (fun _ => 0) firstSt = .ok (some n, s') := by
  let _ := execLayout
  obtain ⟨r, k', hprep⟩ := hprep
  have hspec := kexecFull_spec (s := firstSt) (E := fun _ => False) (fun _ => some ip) [47, 97] (fun _ => 0)
    firstVm_inv firstVm_live firstVm_sz hargv
  obtain ⟨res, s', hrun, -, hx⟩ := hspec.returns
  obtain ⟨n, rfl⟩ := Option.ne_none_iff_exists'.mp ((hx.fits hargv.count).mpr ⟨⟨ip, r, sz, k', rfl, hprep⟩, hfits⟩)
  exact ⟨n, s', hrun⟩

theorem kexec_loads_elf_iff_first : ∃ n s', @kexecFull execLayout 0 (fun _ => some (elfFile 64 120)) [47, 97] [[97]]
    (fun _ => 0) firstSt = .ok (some n, s') ∧ LoadsElf 0 (elfFile 64 120) s'.vm := by
  let _ := execLayout
  have hargv : ArgvOk [[97]] := ⟨by decide, by decide⟩
  obtain ⟨n, s', hrun⟩ := kexec_first_succeeds elfFile_prepares hargv (by decide)
  have hlen : (elfFile 64 120).length < 2 ^ 32 := by
    rw [show (elfFile 64 120).length = 124 by decide +kernel]
    decide
  have hiff := kexec_loads_elf_iff (s := firstSt) (fun _ => some (elfFile 64 120)) [47, 97] (fun _ => 0)
    firstVm_inv firstVm_live firstVm_sz hargv rfl hlen hrun
  refine ⟨n, s', hrun, hiff.mpr (.inr ⟨by decide +kernel, fun i hi _ _ => ?_⟩)⟩
  have hnum : phnum (elfFile 64 120) = 1 := by decide +kernel
  obtain rfl : i = 0 := by omega
  decide +kernel

/-- The header of this file says that the program header is 4 GiB further than it is; `kexec` loads the program. -/
theorem kexec_loads_elf_truncated : ∃ n s', @kexecFull execLayout 0 (fun _ => some (elfFile (2 ^ 32 + 64) 120)) [47, 97]
    [[97]] (fun _ => 0) firstSt = .ok (some n, s') ∧ ¬ LoadsElf 0 (elfFile (2 ^ 32 + 64) 120) s'.vm := by
  have hargv : ArgvOk [[97]] := ⟨by decide, by decide⟩
  have hprep : ∃ r k', @Prepares execLayout (firstVm.proc 0).trapframe (elfFile (2 ^ 32 + 64) 120) firstVm.kmem r
      (4 * PGSIZE) k' :=
    prepares_of_prepare (by decide +kernel) (by decide +kernel) (by decide +kernel)
  obtain ⟨n, s', hrun⟩ := kexec_first_succeeds hprep hargv (by decide)
  refine ⟨n, s', hrun, fun ⟨hin, _⟩ => ?_⟩
  have hout : ¬ phoff (elfFile (2 ^ 32 + 64) 120) + 56 * 0 + 56 ≤ (elfFile (2 ^ 32 + 64) 120).length := by
    decide +kernel
  exact hout (hin.header 0 (by decide +kernel))

/-! ## The arguments -/

/-- The stack pointer after an item of `n` bytes, which is rounded down to 16 bytes. -/
def pushItem (sp : Int) (n : Nat) : Int := (sp - n) / 16 * 16

/-- The end of the layout of the strings and the array, on a stack that starts at `top`. -/
def layoutEnd (top : Int) (argv : List (List UInt8)) : Int :=
  pushItem (argv.foldl (fun sp arg => pushItem sp (arg.length + 1)) top) ((argv.length + 1) * 8)

/-- The layout fits in the `USERSTACK` pages below `top`. -/
def StackFits (top : Nat) (argv : List (List UInt8)) : Prop := (top : Int) - USERSTACK * PGSIZE ≤ layoutEnd top argv

theorem pushItem_eq {sp : Int} (h : sp % 16 = 0) : pushItem sp n = sp - round16 n := by
  unfold pushItem round16
  omega

theorem round16_mod : round16 n % 16 = 0 := Nat.mul_mod_left _ _

theorem foldl_pushItem {sp : Int} (h : sp % 16 = 0) :
    argv.foldl (fun sp arg => pushItem sp (arg.length + 1)) sp = sp - argSpace argv := by
  induction argv generalizing sp with
  | nil => simp [argSpace]
  | cons arg argv ih =>
    have hr := round16_mod (n := arg.length + 1)
    rw [List.foldl_cons, pushItem_eq h, ih (by omega), ← List.singleton_append, argSpace_append, argSpace_singleton]
    push_cast
    ring

theorem stackFits_iff {top : Nat} (h : top % 16 = 0) : StackFits top argv ↔ stackSpace argv ≤ USERSTACK * PGSIZE := by
  have hm : argSpace argv % 16 = 0 := argSpace_mod
  unfold StackFits layoutEnd stackSpace
  rw [foldl_pushItem (by omega), pushItem_eq (by omega)]
  constructor
  · intro h
    omega
  · intro h
    omega

/-- The subtractions from `sp`, with what is subtracted, up to the check that fails. -/
def subtractions (stackbase : Nat) : List (List UInt8) → Nat → Nat → List (Nat × Nat)
  | [], sp, argc => [(sp, (argc + 1) * 8)]
  | arg :: argv, sp, argc =>
    let sp' := subU64 sp (arg.length + 1)
    let sp' := sp' - sp' % 16
    (sp, arg.length + 1) :: if sp' < stackbase then [] else subtractions stackbase argv sp' (argc + 1)

include K in
/-- When `pushArgs` gets through, it has made all the subtractions, and `sp` is what the last one leaves. -/
theorem pushArgs_subtractions {psz ppt r base sp sp' : Nat} {ustack : List Nat} {k k' : Kmem}
    (h : pushArgs psz ppt r base argv sp ustack k = .ok (some sp', k')) :
    (subtractions base argv sp ustack.length).length = argv.length + 1 ∧
      ∃ x ∈ (subtractions base argv sp ustack.length).getLast?, sp' = subU64 x.1 x.2 - subU64 x.1 x.2 % 16 := by
  induction argv generalizing sp ustack k with
  | nil =>
    simp only [pushArgs] at h
    split_ifs at h
    · cases h
    · obtain ⟨ok, k₁, -, h⟩ := bind_ok h
      cases ok with
      | false => cases h
      | true =>
        cases h
        exact ⟨rfl, _, rfl, rfl⟩
  | cons arg argv ih =>
    simp only [pushArgs] at h
    split_ifs at h with hmax hlt
    · cases h
    · cases h
    · obtain ⟨ok, k₁, -, h⟩ := bind_ok h
      cases ok with
      | false => cases h
      | true =>
        obtain ⟨hlen, x, hx, e⟩ := ih h
        rw [List.length_append, List.length_singleton] at hlen hx
        simp only [subtractions, if_neg hlt, List.length_cons]
        refine ⟨congrArg (· + 1) hlen, x, ?_, e⟩
        rw [List.getLast?_cons, Option.mem_def.mp hx]
        rfl

/-- The stack begins above a page, and no item is larger than a page. -/
theorem subtractions_le {base sp argc : Nat} (hb : PGSIZE ≤ base) (hsp : base ≤ sp) (hU : sp < U64)
    (hargs : ∀ arg ∈ argv, arg.length < PGSIZE) (hlt : argc + argv.length < MAXARG) :
    ∀ x ∈ subtractions base argv sp argc, x.2 ≤ x.1 := by
  induction argv generalizing sp argc with
  | nil =>
    intro x hx
    obtain rfl := List.mem_singleton.mp hx
    simp only [MAXARG, PGSIZE, List.length_nil] at hlt hb ⊢
    omega
  | cons arg argv ih =>
    intro x hx
    have ha := hargs arg List.mem_cons_self
    rw [List.length_cons] at hlt
    simp only [subtractions] at hx
    rcases List.mem_cons.mp hx with rfl | hx
    · show arg.length + 1 ≤ sp
      omega
    · split_ifs at hx with hge
      · cases hx
      · refine ih (Nat.le_of_not_lt hge) ?_ (fun a h => hargs a (List.mem_cons_of_mem _ h)) (by omega) x hx
        rw [subU64_of_le (by omega) hU]
        omega

/-- The arguments of `main` are on the stack of process `p`, with `a1 = sp` at the array. -/
structure ArgsOnStack (p : Nat) (argv : List (List UInt8)) (vm : Vm) (a1 : Nat) (addr : Nat → Nat) : Prop where
  sp : vm.kmem.mem (vm.proc p).trapframe 6 = a1
  aligned : a1 % 16 = 0
  /-- The pointers, and a 0 after them. -/
  pointer : ∀ i < argv.length, ubytes vm.kmem (uleaf vm.kmem (vm.proc p).pagetable) (a1 + 8 * i) 8 = leBytes 8 (addr i)
  null : ubytes vm.kmem (uleaf vm.kmem (vm.proc p).pagetable) (a1 + 8 * argv.length) 8 = leBytes 8 0
  string : ∀ i arg, argv[i]? = some arg →
    ubytes vm.kmem (uleaf vm.kmem (vm.proc p).pagetable) (addr i) (arg.length + 1) = arg ++ [0]
  /-- The array and the strings are in the pages of the stack. -/
  base : (vm.proc p).sz ≤ a1 + USERSTACK * PGSIZE
  above : ∀ i arg, argv[i]? = some arg →
    a1 + 8 * (argv.length + 1) ≤ addr i ∧ addr i + (arg.length + 1) ≤ (vm.proc p).sz
  disjoint : ∀ i j arg arg', i < j → argv[i]? = some arg → argv[j]? = some arg' →
    addr j + (arg'.length + 1) ≤ addr i

theorem argSpace_take_mono {i j : Nat} (h : i ≤ j) : argSpace (argv.take i) ≤ argSpace (argv.take j) := by
  have : argSpace ((argv.take j).take i) ≤ argSpace (argv.take j) := argSpace_take_le
  rwa [List.take_take, min_eq_left h] at this

theorem Executed.argsOnStack {vm : Vm} (h : Executed p ip argv vm) :
    ArgsOnStack p argv vm (vm.kmem.mem (vm.proc p).trapframe 15) (argAddr (vm.proc p).sz argv) := by
  obtain ⟨b, hsz⟩ := h.size
  have hfits := h.fits
  have hroom : USERSTACK * PGSIZE ≤ (vm.proc p).sz := by
    rw [hsz]
    exact Nat.mul_le_mul_right _ (by simp only [USERSTACK]; omega)
  have hs16 : (vm.proc p).sz % 16 = 0 := by rw [hsz]; exact mul_pgsize_mod16
  have hm : argSpace argv % 16 = 0 := argSpace_mod
  have hr := round16_le (n := (argv.length + 1) * 8)
  have hr16 := round16_mod (n := (argv.length + 1) * 8)
  have harr : ∀ i (a : Nat), (argAddrs (vm.proc p).sz argv ++ [0])[i]? = some a → _ := h.stack.array
  rw [h.a1]
  unfold stackSpace at hfits
  refine ⟨h.sp, by unfold stackSpace; omega, fun i hi => harr i _ ?_, harr _ _ ?_, h.stack.strings, by
    unfold stackSpace; omega, fun i arg hi => ?_, fun i j arg arg' hij hi hj => ?_⟩
  · rw [List.getElem?_append_left (by rwa [argAddrs_length])]
    simp [argAddrs, hi]
  · rw [List.getElem?_append_right (by rw [argAddrs_length]), argAddrs_length, Nat.sub_self]
    rfl
  · obtain ⟨h1, h2⟩ := argAddr_range hi (by omega : argSpace argv ≤ (vm.proc p).sz)
    unfold stackSpace
    omega
  · obtain ⟨-, h2⟩ := argAddr_range hj (by omega : argSpace argv ≤ (vm.proc p).sz)
    have h3 : argSpace (argv.take (i + 1)) ≤ argSpace (argv.take j) := argSpace_take_mono (by omega)
    show _ ≤ (vm.proc p).sz - argSpace (argv.take (i + 1))
    omega

include K

/-- The arguments that `sys_exec` passes are on the stack when `kexec` succeeds. Once the program is loaded, it fails if
and only if their layout does not fit in the pages of the stack, and no subtraction from `sp` goes below 0. -/
theorem kexec_stack_exact (h : Inv kp hs s.vm) (hl : s.vm.live p) (hsz : (s.vm.proc p).sz ≤ TRAPFRAME)
    (hargv : ArgvOk argv) : ∃ res s', kexecFull p files path argv ustack s = .ok (res, s') ∧
      (∀ n, res = some n → n = argv.length ∧
        ∃ addr, ArgsOnStack p argv s'.vm (s'.vm.kmem.mem (s'.vm.proc p).trapframe 15) addr) ∧
      ∀ ip r sz k', files path = some ip → Prepares (s.vm.proc p).trapframe ip s.vm.kmem r sz k' →
        (res = none ↔ ¬ StackFits sz argv) ∧
          ∀ x ∈ subtractions (sz - USERSTACK * PGSIZE) argv sz 0, x.2 ≤ x.1 := by
  obtain ⟨res, s', hrun, -, hx⟩ := (kexecFull_spec (E := fun _ => False) files path ustack h hl hsz hargv).returns
  refine ⟨res, s', hrun, fun n hres => ?_, fun ip r sz k' hip hp => ?_⟩
  · obtain ⟨hn, f, -, hdone⟩ := hx.done n hres
    exact ⟨hn, _, hdone.argsOnStack⟩
  · obtain ⟨own, T, hv⟩ := h
    obtain ⟨b, rfl, hle⟩ := hp.size hv.mem
    have hbase : (b + 3) * PGSIZE - USERSTACK * PGSIZE = (b + 1) * PGSIZE := by
      rw [← Nat.sub_mul]
      rfl
    have hU : (b + 3) * PGSIZE < U64 := hle.trans_lt (by decide)
    refine ⟨?_, ?_⟩
    · rw [stackFits_iff mul_pgsize_mod16, ← not_iff_not, not_not]
      refine (hx.fits hargv.count).trans (and_iff_right ⟨ip, r, _, k', hip, hp⟩)
    · rw [hbase]
      refine subtractions_le (Nat.le_mul_of_pos_left _ (Nat.succ_pos b)) (Nat.mul_le_mul_right _ (by omega)) hU
        hargv.size ?_
      rw [Nat.zero_add]
      exact hargv.count

omit K in
theorem kexec_stack_exact_first : ∃ s', @kexecFull execLayout 0 (fun _ => some (elfFile 64 120)) [47, 97] [[97, 98], []]
    (fun _ => 0) firstSt = .ok (some 2, s') ∧
      ∃ addr, ArgsOnStack 0 [[97, 98], []] s'.vm (s'.vm.kmem.mem (s'.vm.proc 0).trapframe 15) addr := by
  let _ := execLayout
  have hargv : ArgvOk [[97, 98], []] := ⟨by decide, by decide⟩
  obtain ⟨r, k', hprep⟩ := elfFile_prepares
  obtain ⟨res, s', hrun, hdone, hfits⟩ := kexec_stack_exact (s := firstSt) (fun _ => some (elfFile 64 120))
    [47, 97] (fun _ => 0) firstVm_inv firstVm_live firstVm_sz hargv
  have hfit : StackFits (4 * PGSIZE) [[97, 98], []] := (stackFits_iff (by decide)).mpr (by decide)
  have hne : res ≠ none := fun e => ((hfits _ r _ k' rfl hprep).1.mp e) hfit
  obtain ⟨n, rfl⟩ := Option.ne_none_iff_exists'.mp hne
  obtain ⟨rfl, hargs⟩ := hdone n rfl
  exact ⟨s', hrun, hargs⟩

end

end Xv6
