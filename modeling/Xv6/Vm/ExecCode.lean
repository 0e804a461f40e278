import Xv6.Vm.Exec

/-!
# The whole of `kexec`

`Xv6.kexec` is what `kexec` does to the memory and the process. Here it is with the rest: the calls into the file
system in their order, `p->name`, the array `ustack` with its bound, and the one clean-up under the label `bad`, which
goes by `pagetable` and `ip`. The reads of the locked inode change nothing and are no calls of the list.

`kexecFull_of_kexec` carries a spec of the one over to the other.
-/

namespace Xv6

open Function (update update_of_ne update_self)

open Seq

/-- A call of `kexec` into the file system. -/
inductive FsCall where
  | beginOp
  | namei (path : List UInt8)
  | ilock
  | iunlockput
  | endOp
  deriving DecidableEq, Repr

/-- The processes and the memory, `p->name` of each process, and the calls so far. -/
structure ExecSt where
  vm : Vm
  name : Nat → List UInt8
  calls : List FsCall

/-- A program with such a state. -/
abbrev EM := M ExecSt Panic

/-- A program on the processes and the memory. -/
def onVm {α : Type} (m : PM α) : EM α := M.zoom ExecSt.vm (fun vm s => { s with vm := vm }) m

def fsCall (c : FsCall) : EM Unit := M.modify fun s => { s with calls := s.calls ++ [c] }

def setName (p : Nat) (name : List UInt8) : EM Unit :=
  M.modify fun s => { s with name := update s.name p name }

/-- `ustack[i] = v`. -/
def setUstack (ustack : Nat → Nat) (i v : Nat) : KM (Nat → Nat) :=
  if i < MAXARG then pure (update ustack i v) else M.stop .ustackBounds

/-- The loop that looks for the last component of the path. -/
def lastLoop : List UInt8 → List UInt8 → List UInt8
  | [], last => last
  | c :: s, last => lastLoop s (if c = 47 then s else last)

/-- `safestrcpy(p->name, last, sizeof(p->name))`: the string that it leaves. -/
def safestrcpyName (t : List UInt8) : List UInt8 := t.take 15

section

variable [K : Layout]

/-- The loop over the argument strings, and the copy of `ustack`: `sp` and `argc`, or `none` for `bad`. -/
def kexecArgs (psz ppt pagetable stackbase : Nat) :
    List (List UInt8) → Nat → Nat → (Nat → Nat) → KM (Option (Nat × Nat))
  | [], sp, argc, ustack => do
    let ustack ← setUstack ustack argc 0
    let sp := subU64 sp ((argc + 1) * 8)
    let sp := sp - sp % 16
    if sp < stackbase then pure none
    else if ← copyout psz ppt pagetable sp ((List.range (argc + 1)).flatMap fun i => leBytes 8 (ustack i)) then
      pure (some (sp, argc))
    else pure none
  | arg :: argv, sp, argc, ustack => do
    if argc ≥ MAXARG then pure none
    else do
      let sp := subU64 sp (arg.length + 1)
      let sp := sp - sp % 16  -- riscv sp must be 16-byte aligned
      if sp < stackbase then pure none
      else if ← copyout psz ppt pagetable sp (arg ++ [0]) then do
        let ustack ← setUstack ustack argc sp
        kexecArgs psz ppt pagetable stackbase argv sp (argc + 1) ustack
      else pure none

/-- The label `bad`. -/
def kexecBad (pagetable : Option Nat) (sz : Nat) (ip : Bool) : EM (Option Nat) := do
  match pagetable with
  | some pagetable => onVm (onMem (procFreepagetable pagetable sz))
  | none => pure ()
  if ip then do
    fsCall .iunlockput
    fsCall .endOp
  else pure ()
  pure none

/-- `kexec` once the new table is filled: the name, and the change of tables; `pr` is the process as it was. -/
def kexecCommit (p : Nat) (pr : Proc) (path elf : List UInt8) (pagetable sz sp argc : Nat) : EM (Option Nat) := do
  onVm (onMem (store pr.trapframe 15 sp))
  -- Save program name for debugging.
  setName p (safestrcpyName (lastLoop path path))
  -- Commit to the user image.
  onVm (setProc p fun pr => { pr with pagetable := pagetable, sz := sz })
  onVm (onMem (store pr.trapframe 3 (field elf 24 8)))
  onVm (onMem (store pr.trapframe 6 sp))
  onVm (onMem (procFreepagetable pr.pagetable pr.sz))
  pure (some argc)

/-- `kexec` from the stack on, once the inode is released. -/
def kexecStack (p : Nat) (pr : Proc) (path elf : List UInt8) (argv : List (List UInt8)) (ustack : Nat → Nat)
    (pagetable sz : Nat) : EM (Option Nat) := do
  let sz := pgRoundUp sz
  let sz1 ← onVm (onMem (uvmalloc pagetable sz ((sz + (USERSTACK + 1) * PGSIZE) % U64) PTE_W))
  if sz1 = 0 then kexecBad (some pagetable) sz false
  else do
    onVm (onMem (uvmclear pagetable (sz1 - (USERSTACK + 1) * PGSIZE)))
    match ← onVm (onMem (kexecArgs pr.sz pr.pagetable pagetable (sz1 - USERSTACK * PGSIZE) argv sz1 0 ustack)) with
    | none => kexecBad (some pagetable) sz1 false
    | some (sp, argc) => kexecCommit p pr path elf pagetable sz1 sp argc

/-- `kexec` of process `p`, with the files that the paths name; `ustack` is what the array holds at first. -/
def kexecFull (p : Nat) (files : List UInt8 → Option (List UInt8)) (path : List UInt8) (argv : List (List UInt8))
    (ustack : Nat → Nat) : EM (Option Nat) := do
  fsCall .beginOp
  fsCall (.namei path)
  match files path with
  | none => do
    fsCall .endOp
    pure none
  | some ip => do
    fsCall .ilock
    -- Read the ELF header.
    let elf := readFile ip 0 64
    let pr ← onVm (getProc p)
    if elf.length ≠ 64 then kexecBad none 0 true
    else if field elf 0 4 ≠ ELF_MAGIC then kexecBad none 0 true
    else do
      match ← onVm (onMem (procPagetable pr.trapframe)) with
      | none => kexecBad none 0 true
      | some pagetable => do
        -- Load program into memory.
        let (ok, sz) ← onVm (onMem (loadSegs pagetable ip (field elf 56 2) (field elf 32 8 % 2 ^ 32) 0))
        if ok then do
          fsCall .iunlockput
          fsCall .endOp
          kexecStack p pr path elf argv ustack pagetable sz
        else kexecBad (some pagetable) sz true

/-! ## The memory and the process -/

variable {E : Panic → Prop} {p : Nat} {files : List UInt8 → Option (List UInt8)} {path : List UInt8}
variable {argv : List (List UInt8)}

variable {ustack : Nat → Nat} {s : ExecSt} {pagetable sz : Nat} {Q : Option Nat → ExecSt → Prop}

omit K in
theorem setUstack_of_lt {i v : Nat} (h : i < MAXARG) :
    setUstack ustack i v = pure (update ustack i v) := if_pos h

omit K in
theorem wp_onVm {α : Type} {m : PM α} {Q : α → ExecSt → Prop} :
    wp E (onVm m) s Q ↔ wp E m s.vm fun a vm => Q a { s with vm := vm } := wp_zoom

omit K in
/-- The entries of `ustack` that are set, with one more. -/
theorem map_update_range {n v : Nat} :
    (List.range (n + 1)).map (update ustack n v) = (List.range n).map ustack ++ [v] := by
  rw [List.range_succ, List.map_append, List.map_singleton, update_self]
  congr 1
  refine List.map_congr_left fun i hi => update_of_ne ?_ _ _
  have := List.mem_range.mp hi
  omega

/-- With fewer than `MAXARG` strings `ustack` is large enough, and is the list of `pushArgs`. -/
theorem kexecArgs_of_pushArgs {psz ppt stackbase sp argc : Nat} {k : Kmem}
    {Q : Option (Nat × Nat) → Kmem → Prop} (hlt : argc + argv.length < MAXARG)
    (h : wp E (pushArgs psz ppt pagetable stackbase argv sp ((List.range argc).map ustack)) k fun res k' =>
      Q (res.map fun sp => (sp, argc + argv.length)) k') :
    wp E (kexecArgs psz ppt pagetable stackbase argv sp argc ustack) k Q := by
  induction argv generalizing k sp argc ustack with
  | nil =>
    unfold kexecArgs
    unfold pushArgs at h
    rw [List.length_nil, Nat.add_zero] at hlt
    have hbytes : ((List.range (argc + 1)).flatMap fun i => leBytes 8 (update ustack argc 0 i)) =
        ((List.range argc).map ustack ++ [0]).flatMap fun a : Nat => leBytes 8 a := by
      rw [← map_update_range, List.flatMap_map]
    rw [setUstack_of_lt hlt, wp_bind, wp_pure, hbytes]
    simp only [List.length_map, List.length_range] at h
    simp only
    rw [wp_ite] at h ⊢
    refine ⟨h.1, fun hge => ?_⟩
    refine wp_bind.mpr ((wp_bind.mp (h.2 hge)).mono fun ok k' hk => ?_)
    cases ok with
    | false => exact hk
    | true => exact hk
  | cons arg argv ih =>
    unfold kexecArgs
    unfold pushArgs at h
    simp only [List.length_map, List.length_range] at h
    simp only
    rw [List.length_cons] at hlt
    rw [wp_ite] at h ⊢
    refine ⟨h.1, fun hmax => ?_⟩
    have h := h.2 hmax
    rw [wp_ite] at h ⊢
    refine ⟨h.1, fun hge => ?_⟩
    refine wp_bind.mpr ((wp_bind.mp (h.2 hge)).mono fun ok k' hk => ?_)
    cases ok with
    | false => exact hk
    | true =>
      simp only [if_true] at hk ⊢
      rw [setUstack_of_lt (by omega), wp_bind, wp_pure]
      rw [← map_update_range] at hk
      refine ih (by omega) (hk.mono fun res k'' hq => ?_)
      rwa [show argc + 1 + argv.length = argc + (argv.length + 1) by omega]

/-- The calls of `kexec`, whether it succeeds or not. -/
def kexecCalls (files : List UInt8 → Option (List UInt8)) (path : List UInt8) : List FsCall :=
  match files path with
  | none => [.beginOp, .namei path, .endOp]
  | some _ => [.beginOp, .namei path, .ilock, .iunlockput, .endOp]

/-- The state of `kexec` at its end. -/
def ExecSt.after (s : ExecSt) (p : Nat) (files : List UInt8 → Option (List UInt8)) (path : List UInt8)
    (res : Option Nat) (vm : Vm) : ExecSt where
  vm := vm
  name := if res.isSome then update s.name p (safestrcpyName (lastLoop path path)) else s.name
  calls := s.calls ++ kexecCalls files path

omit K in
theorem kexecCalls_none (h : files path = none) : kexecCalls files path = [.beginOp, .namei path, .endOp] := by
  unfold kexecCalls
  rw [h]

omit K in
theorem kexecCalls_some {ip : List UInt8} (h : files path = some ip) :
    kexecCalls files path = [.beginOp, .namei path, .ilock, .iunlockput, .endOp] := by
  unfold kexecCalls
  rw [h]

/-- `bad` with a page table. -/
theorem wp_kexecBad {ip : Bool} :
    wp E (kexecBad (some pagetable) sz ip) s Q ↔ wp E (procFreepagetable pagetable sz) s.vm.kmem fun _ k =>
      Q none { s with
        vm := { s.vm with kmem := k }, calls := s.calls ++ if ip then [.iunlockput, .endOp] else [] } := by
  unfold kexecBad fsCall
  simp only
  rw [wp_bind, wp_onVm, wp_onMem]
  cases ip with
  | false =>
    simp only [Bool.false_eq_true, if_false, List.append_nil]
    exact Iff.rfl
  | true =>
    simp only [if_true]
    refine iff_of_eq (congrArg _ (funext fun _ => funext fun k => ?_))
    rw [wp_bind, wp_modify, wp_bind, wp_modify, wp_pure, List.append_assoc]
    rfl

/-- The process with the new table, and its name. -/
theorem kexecCommit_of_kexec {pr : Proc} {elf : List UInt8} {sp argc : Nat} (h : wp E (do
      onMem (store pr.trapframe 15 sp)
      setProc p fun pr => { pr with pagetable := pagetable, sz := sz }
      onMem (store pr.trapframe 3 (field elf 24 8))
      onMem (store pr.trapframe 6 sp)
      onMem (procFreepagetable pr.pagetable pr.sz)
      pure (some argc)) s.vm fun res vm =>
        Q res { s with
          vm := vm
          name := if res.isSome then update s.name p (safestrcpyName (lastLoop path path)) else s.name }) :
    wp E (kexecCommit p pr path elf pagetable sz sp argc) s Q := by
  unfold kexecCommit setName
  rw [wp_bind, wp_onMem] at h
  rw [wp_bind, wp_onVm, wp_onMem]
  refine h.mono fun _ k₁ h => ?_
  rw [wp_bind, wp_setProc, wp_bind, wp_onMem] at h
  rw [wp_bind, wp_modify, wp_bind, wp_onVm, wp_setProc, wp_bind, wp_onVm, wp_onMem]
  refine h.mono fun _ k₂ h => ?_
  rw [wp_bind, wp_onMem] at h
  rw [wp_bind, wp_onVm, wp_onMem]
  refine h.mono fun _ k₃ h => ?_
  rw [wp_bind, wp_onMem] at h
  rw [wp_bind, wp_onVm, wp_onMem]
  exact h.mono fun _ k₄ h => h

/-- The stack, and the rest. -/
theorem kexecStack_of_execStack {pr : Proc} {elf : List UInt8} (hlt : argv.length < MAXARG)
    (h : wp E (execStack pr.sz pr.pagetable pagetable sz argv) s.vm.kmem fun x k =>
      wp E (match x with
        | (none, sz) => do
          onMem (procFreepagetable pagetable sz)
          pure none
        | (some sp, sz) => do
          onMem (store pr.trapframe 15 sp)
          setProc p fun pr => { pr with pagetable := pagetable, sz := sz }
          onMem (store pr.trapframe 3 (field elf 24 8))
          onMem (store pr.trapframe 6 sp)
          onMem (procFreepagetable pr.pagetable pr.sz)
          pure (some argv.length)) { s.vm with kmem := k } fun res vm =>
        Q res { s with
          vm := vm
          name := if res.isSome then update s.name p (safestrcpyName (lastLoop path path)) else s.name }) :
    wp E (kexecStack p pr path elf argv ustack pagetable sz) s Q := by
  unfold kexecStack
  unfold execStack at h
  rw [wp_bind] at h
  rw [wp_bind, wp_onVm, wp_onMem]
  refine h.mono fun sz1 k₁ h => ?_
  rw [wp_ite] at h ⊢
  refine ⟨fun h0 => ?_, fun h0 => ?_⟩
  · replace h := h.1 h0
    rw [wp_pure, wp_bind, wp_onMem] at h
    rw [wp_kexecBad]
    simpa [wp_pure] using h
  replace h := h.2 h0
  rw [wp_bind] at h
  rw [wp_bind, wp_onVm, wp_onMem]
  refine h.mono fun _ k₂ h => ?_
  rw [wp_bind] at h
  rw [wp_bind, wp_onVm, wp_onMem]
  refine kexecArgs_of_pushArgs (by rwa [Nat.zero_add]) (h.mono fun res k₃ h => ?_)
  rw [wp_pure] at h
  cases res with
  | none =>
    simp only [Option.map_none] at h ⊢
    rw [wp_bind, wp_onMem] at h
    rw [wp_kexecBad]
    simpa [wp_pure] using h
  | some sp =>
    simp only [Option.map_some, Nat.zero_add] at h ⊢
    exact kexecCommit_of_kexec h

/-- `kexec` does to the memory and the process what `Xv6.kexec` does. -/
theorem kexecFull_of_kexec (hlt : argv.length < MAXARG)
    (h : wp E (kexec p (files path) argv) s.vm fun res vm => Q res (s.after p files path res vm)) :
    wp E (kexecFull p files path argv ustack) s Q := by
  unfold kexecFull fsCall
  rw [wp_bind, wp_modify, wp_bind, wp_modify]
  unfold ExecSt.after at h
  unfold kexec at h
  cases hf : files path with
  | none =>
    rw [hf, kexecCalls_none hf] at h
    simpa [wp_bind, wp_modify, wp_pure] using h
  | some ip =>
    rw [hf, kexecCalls_some hf] at h
    simp only at h ⊢
    rw [wp_bind, wp_modify, wp_bind, wp_onVm, wp_getProc, wp_ite]
    rw [wp_bind, wp_getProc, wp_ite] at h
    refine ⟨fun hlen => ?_, fun hlen => ?_⟩
    · simpa [kexecBad, fsCall, wp_bind, wp_modify, wp_pure] using h.1 hlen
    replace h := h.2 hlen
    rw [wp_ite] at h ⊢
    refine ⟨fun hmagic => ?_, fun hmagic => ?_⟩
    · simpa [kexecBad, fsCall, wp_bind, wp_modify, wp_pure] using h.1 hmagic
    replace h := h.2 hmagic
    rw [wp_bind, wp_onMem] at h
    rw [wp_bind, wp_onVm, wp_onMem]
    refine h.mono fun res k₁ h => ?_
    cases res with
    | none => simpa [kexecBad, fsCall, wp_bind, wp_modify, wp_pure] using h
    | some pagetable =>
    simp only at h ⊢
    unfold execLoad at h
    rw [wp_bind, wp_onMem, wp_bind] at h
    rw [wp_bind, wp_onVm, wp_onMem]
    refine h.mono fun x k₂ h => ?_
    obtain ⟨ok, sz⟩ := x
    cases ok with
    | false =>
      simp only [Bool.false_eq_true, if_false] at h ⊢
      rw [wp_pure, wp_bind, wp_onMem] at h
      rw [wp_kexecBad]
      simpa [wp_pure] using h
    | true =>
      simp only [if_true] at h ⊢
      rw [wp_bind, wp_modify, wp_bind, wp_modify]
      refine kexecStack_of_execStack hlt (h.mono fun x k₃ h => ?_)
      obtain ⟨sp, sz⟩ := x
      cases sp with
      | none => simpa using h
      | some sp => simpa using h

end

end Xv6
