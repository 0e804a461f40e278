import Xv6.Fs.Create
import Xv6.Vm.Proc

/-!
# `sys_open`

The file table, the descriptors of a process and `sys_open`, over the file system. `sys_open` finds or
makes the inode first and takes a `struct file` and a descriptor after that. A call that fails leaves
all nodes as they were, except that a file which it has made stays when the tables are full
(`sysOpen_ok`).
-/

namespace Xv6.Fs

open Function (update update_self)

open Seq Seq.M

/-- `O_RDONLY` and so on. -/
def O_RDONLY : Nat := 0x000
def O_WRONLY : Nat := 0x001
def O_RDWR : Nat := 0x002
def O_CREATE : Nat := 0x200
def O_TRUNC : Nat := 0x400

/-- The file system, the file table and the descriptors of the process that runs. -/
structure Sys where
  fs : St
  file : Nat → File
  ofile : Nat → Option Nat

/-- A program on the file system and the tables. -/
abbrev SM := M Sys Panic

/-- A program on the file system. -/
def onFs {α : Type} (m : FM α) : SM α := zoom Sys.fs (fun s S => { S with fs := s }) m

/-- `ftable.file[i]` is changed. -/
def setFile (i : Nat) (f : File → File) : SM Unit :=
  modify fun S => { S with file := update S.file i (f (S.file i)) }

/-- `filealloc`. -/
def filealloc : SM (Option Nat) := fileallocOf Sys.file setFile

/-- `fdalloc`. -/
def fdalloc : Nat → SM (Option Nat) :=
  fdallocOf Sys.ofile fun fd f => modify fun S => { S with ofile := update S.ofile fd f }

variable (sb : Superblock)

/-- `fileclose`. What `pipeclose` does is not in this state. -/
def fileclose : Nat → SM Unit :=
  filecloseOf Sys.file setFile fun ff =>
    if ff.type = .inode ∨ ff.type = .device then do
      onFs beginOp
      onFs (iput sb ff.ip)
      onFs endOp
    else pure ()

/-- The inode that `sys_open` is asked for, locked. -/
def openInode (cwd : Nat) (path : List UInt8) (omode : Nat) (name : Nat → UInt8) : FM (Option Nat) :=
  if omode &&& O_CREATE ≠ 0 then create sb cwd path T_FILE 0 0 name
  else do
    let r ← namei sb cwd path name
    match r with
    | none => pure none
    | some ip => do
      ilock sb ip
      let i ← getInode ip
      if i.type = T_DIR ∧ omode ≠ O_RDONLY then do
        iunlockput sb ip
        pure none
      else pure (some ip)

/-- The exits of `sys_open` with the inode locked. -/
def openFail (ip : Nat) : FM Int := do
  iunlockput sb ip
  endOp
  pure (-1)

/-- The fields of the new `struct file`. -/
def openedFile (fl : File) (ip : Nat) (i : Inode) (omode : Nat) : File :=
  let fl := if i.type = T_DEVICE then { fl with type := .device, major := i.major }
    else { fl with type := .inode, off := 0 }
  { fl with
    ip := ip
    readable := decide (omode &&& O_WRONLY = 0)
    writable := decide (omode &&& O_WRONLY ≠ 0) || decide (omode &&& O_RDWR ≠ 0) }

/-- The rest of `sys_open`, once it has a `struct file` and a descriptor. -/
def openDone (ip f fd omode : Nat) : SM Int := do
  let i ← onFs (getInode ip)
  setFile f fun fl => openedFile fl ip i omode
  onFs (if omode &&& O_TRUNC ≠ 0 ∧ i.type = T_FILE then itrunc sb ip else pure ())
  onFs (iunlock ip)
  onFs endOp
  pure fd

/-- The part of `sys_open` with the inode locked. -/
def openFile (ip omode : Nat) : SM Int := do
  let i ← onFs (getInode ip)
  if i.type = T_DEVICE ∧ (short i.major < 0 ∨ (NDEV : Int) ≤ short i.major) then onFs (openFail sb ip)
  else do
    let r ← filealloc
    match r with
    | none => onFs (openFail sb ip)
    | some f => do
      let r ← fdalloc f
      match r with
      | none => do
        fileclose sb f
        onFs (openFail sb ip)
      | some fd => openDone sb ip f fd omode

/-- `sys_open`, with the bits of `omode`. -/
def sysOpen (cwd : Nat) (path : Option (List UInt8)) (omode : Nat) (name : Nat → UInt8) : SM Int :=
  match path with
  | none => pure (-1)
  | some path => do
    onFs beginOp
    let r ← onFs (openInode sb cwd path omode name)
    match r with
    | none => do
      onFs endOp
      pure (-1)
    | some ip => openFile sb ip omode

/-! ## What it does to the nodes -/

/-- A `struct file` that is not used has no type. -/
def FilesOk (S : Sys) : Prop := ∀ f, (S.file f).ref = 0 → (S.file f).type = .none

/-- `sys_open` is to make a file, and can. -/
def MakesFile (s : St) (cwd : Nat) (path : List UInt8) (omode : Nat) : Prop :=
  omode &&& O_CREATE ≠ 0 ∧ ∃ d key,
    parentOf (s.node sb) (s.startOf cwd path) (components path) = some (d, key) ∧ CanCreate sb s d key

/-- The condition under which `sys_open` makes a file and fails: one of the tables is full. -/
def LeavesFile (S : Sys) (cwd : Nat) (path : Option (List UInt8)) (omode : Nat) : Prop :=
  (freeFile S.file = none ∨ freeFd S.ofile = none) ∧ ∃ p, path = some p ∧ MakesFile sb S.fs cwd p omode

section Open

variable {sb} {E : Panic → Prop} {s s₁ s' : St} {L : List Nat} {S : Sys} {cwd ip omode : Nat}

theorem wp_onFs {α : Type} {m : FM α} {Q : α → Sys → Prop} :
    wp E (onFs m) S Q ↔ wp E m S.fs fun a s' => Q a { S with fs := s' } := wp_zoom

/-- A new inode `i`, or none. -/
def SameOrNew (made : Prop) (N N' : Nat → Option Node) : Prop :=
  (¬ made ∧ N' = N) ∨ (made ∧ ∃ i, N i = none ∧ N' i ≠ none)

theorem openInode_ok (w : sb.Wf) (m : MayStop E) (o : SysOk sb L s) (hout : 1 ≤ s.outstanding)
    (hcwd : cwd ∈ L) {path : List UInt8} (hz : ∀ b ∈ path, b ≠ 0) (omode : Nat) (name : Nat → UInt8) :
    wp E (openInode sb cwd path omode name) s fun r s' =>
      (r = none ∧ NotMade sb L s s' ∧ ¬ MakesFile sb s cwd path omode) ∨
      ∃ ip nd, r = some ip ∧ Made sb L s s' ip ∧ s'.node sb (s'.itable ip).inum = some nd ∧
        (nd.nlink = 0 → (s'.itable ip).inum ∈ s'.inums L) ∧
        (MakesFile sb s cwd path omode → nd.type = T_FILE) ∧
        SameOrNew (MakesFile sb s cwd path omode) (s.node sb) (s'.node sb) := by
  refine wp_ite.mpr ⟨fun hcreate => ?_, fun hcreate => ?_⟩
  · refine (create_ok w m o hout hcwd hz name (by decide) (by decide) (by decide) (by decide)).mono ?_
    rintro r s' (⟨rfl, hno, hnot⟩ | ⟨ip, d, name', rfl, made, hpar, ⟨-, hn, hex⟩ | ⟨hc, hcan⟩⟩)
    · exact .inl ⟨rfl, hno, fun ⟨_, d, key, hp, hc⟩ => hnot (by decide) d key hp hc⟩
    · -- the file is there
      obtain ⟨dnd, j, nd, hdnd, -, hlook, hnd, -⟩ := hex
      have hnot : ¬ MakesFile sb s cwd path omode := by
        rintro ⟨-, d', key, hp, dnd', hd', -, hl, -⟩
        rw [hpar] at hp
        cases hp
        rw [hdnd] at hd'
        cases hd'
        rw [hlook] at hl
        cases hl
      rw [← hn] at hnd
      refine .inr ⟨ip, nd, rfl, made, hnd, fun h0 => ?_, fun hm => absurd hm hnot, .inl ⟨hnot, hn⟩⟩
      rw [made.toKeeps.inums]
      rw [hn] at hnd
      exact o.ok.noOrphan.mem_inums hnd h0
    · have hm : MakesFile sb s cwd path omode := ⟨hcreate, d, _, hpar, hcan (by decide)⟩
      refine .inr ⟨ip, _, rfl, made, hc.new, nofun, fun _ => rfl, .inr ⟨hm, (s'.itable ip).inum, ?_, ?_⟩⟩
      · obtain ⟨_, _, _, _, _, hfree, _⟩ := hc
        exact hfree
      · rw [hc.new]
        exact nofun
  · have hnot : ¬ MakesFile sb s cwd path omode := fun h => hcreate h.1
    refine wp.bind (namei_ok w (o.canWalk m hcwd) m.noType hz name) ?_
    rintro r s₁ ⟨⟨h₁, q₁, hl₁⟩, hfound⟩
    have hunl : s₁.locks = fun _ => false := funext fun k => by
      rw [hl₁]
      exact o.unlocked k
    cases r with
    | none => exact .inl ⟨rfl, ⟨h₁, q₁.toKeeps, hunl, q₁.node⟩, hnot⟩
    | some ip =>
      have hmem : ip ∈ ip :: L := List.mem_cons_self
      have h₁ : FsOk sb (ip :: L) s₁ := h₁
      have hlt : (s₁.itable ip).inum < sb.ninodes := walk_lt o.dirs (o.start_lt hcwd path) hfound.symm
      refine wp.bind (ilock_ok h₁ hmem hlt (fun _ => m.deadlock) fun _ => m.noType) ?_
      rintro _ s₂ ⟨h₂, q₂, lo₂, hl₂⟩
      have q := q₁.trans q₂.tail
      have ho : Held sb L s₂ := o.ok.noOrphan.quiet q
      have hlk : s₂.locks = update (fun _ => false) ip true := by rw [hl₂, hunl]
      refine wp_bind.mpr (wp_getInode.mpr (wp_ite.mpr ⟨fun _ => ?_, fun _ => ?_⟩))
      · refine wp.bind (iunlockput_quiet w h₂ ho (by rw [hlk, update_self])) ?_
        rintro _ s' ⟨h', q', hl'⟩
        have q₀ := q.trans q'
        refine .inl ⟨rfl, ⟨h', q₀.toKeeps, ?_, q₀.node⟩, hnot⟩
        rw [hl', hlk, relock rfl]
      · exact .inr ⟨ip, _, rfl, ⟨q.toKeeps, h₂, lo₂, hlk⟩, lo₂.node h₂.good.inv.table,
          fun h0 => ho.mem_inums (lo₂.node h₂.good.inv.table) h0, fun hm => absurd hm hnot,
          .inl ⟨hnot, q.node⟩⟩

theorem openFail_ok (w : sb.Wf) (m : MayStop E) (made : Made sb L s₁ s ip) (hout : 1 ≤ s₁.outstanding) {nd : Node}
    (hnd : s.node sb (s.itable ip).inum = some nd) (hheld : nd.nlink = 0 → (s.itable ip).inum ∈ s.inums L) :
    wp E (openFail sb ip) s fun r s' => r = -1 ∧ Ended sb L s₁ s' ∧ s'.node sb = s.node sb := by
  have hout' := made.out hout
  have hlk : s.locks ip = true := by rw [made.locks, update_self]
  refine wp.bind (iunlockput_drop w m made.ok hout' hlk made.loaded.valid) ?_
  rintro _ s₂ ⟨h₂, k₂, hl₂, hn₂⟩
  refine wp.bind (endOp_ended h₂ (made.toKeeps.trans k₂) hout fun k => ?_) ?_
  · rw [hl₂, made.locks, relock rfl]
  rintro _ s' ⟨e, hn⟩
  refine ⟨rfl, e, ?_⟩
  rw [hn, hn₂]
  refine dropRef_of_held fun x hx h0 => hheld ?_
  rw [hnd] at hx
  cases hx
  exact h0

/-- `fileclose` of a `struct file` that has just been taken. -/
theorem fileclose_new {f : Nat} (href : (S.file f).ref = 1) (htype : (S.file f).type = .none) :
    wp E (fileclose sb f) S fun _ S' => S'.fs = S.fs := by
  refine wp_bind.mpr (wp_gets.mpr ?_)
  simp only
  rw [href, htype]
  exact rfl

/-- The call succeeds: the new `struct file` has the pointer to the inode. -/
theorem openDone_ok (w : sb.Wf) (m : MayStop E) (made : Made sb L s₁ S.fs ip) (hout : 1 ≤ s₁.outstanding)
    {nd : Node} (hnd : S.fs.node sb (S.fs.itable ip).inum = some nd) (f fd omode : Nat) :
    wp E (openDone sb ip f fd omode) S fun r S' => r = fd ∧ Ended sb (ip :: L) S.fs S'.fs ∧
      S'.fs.node sb = if omode &&& O_TRUNC ≠ 0 ∧ nd.type = T_FILE then
        update (S.fs.node sb) (S.fs.itable ip).inum (some { nd with data := [] })
      else S.fs.node sb := by
  have hmem : ip ∈ ip :: L := List.mem_cons_self
  have hout' := made.out hout
  have fl := made.loaded.fields made.ok hnd
  refine wp_bind.mpr (wp_onFs.mpr (wp_getInode.mpr (wp_bind.mpr (wp_modify.mpr (wp_bind.mpr ?_)))))
  refine wp_onFs.mpr ?_
  rw [fl.type]
  have htrunc : wp E (if omode &&& O_TRUNC ≠ 0 ∧ nd.type = T_FILE then itrunc sb ip else pure ()) S.fs
      fun _ s' => FsOk sb (ip :: L) s' ∧ Keeps (ip :: L) S.fs s' ∧ s'.locks = S.fs.locks ∧
        s'.node sb = if omode &&& O_TRUNC ≠ 0 ∧ nd.type = T_FILE then
          update (S.fs.node sb) (S.fs.itable ip).inum (some { nd with data := [] })
        else S.fs.node sb := by
    refine wp_ite.mpr ⟨fun hc => ?_, fun hc => ⟨made.ok, Keeps.refl, rfl, (if_neg hc).symm⟩⟩
    refine (itrunc_ok w made.ok hmem made.loaded hout' m.tooBig hnd).mono ?_
    rintro _ s' ⟨h', k', -, hl', hn'⟩
    exact ⟨h', k', hl', hn'.trans (if_pos hc).symm⟩
  refine htrunc.mono ?_
  rintro _ s₂ ⟨h₂, k₂, hl₂, hn₂⟩
  have hno : s₂.locks ip = false → E .iunlock := fun h0 => by
    rw [hl₂, made.locks, update_self] at h0
    cases h0
  refine wp_bind.mpr (wp_onFs.mpr ((iunlock_ok h₂ hmem hno).mono ?_))
  rintro _ s₃ ⟨h₃, q₃, hl₃⟩
  refine wp_bind.mpr (wp_onFs.mpr ((endOp_ended h₃ (k₂.trans q₃.toKeeps) hout' fun k => ?_).mono ?_))
  · rw [hl₃, hl₂, made.locks, relock rfl]
  rintro _ s' ⟨e, hn⟩
  exact ⟨rfl, e, hn.trans (q₃.node.trans hn₂)⟩

/-- The part with the inode locked: `-1` when a table is full or the device is not valid. -/
theorem openFile_ok (w : sb.Wf) (m : MayStop E) (hf : FilesOk S) (made : Made sb L s₁ S.fs ip)
    (hout : 1 ≤ s₁.outstanding) {nd : Node} (hnd : S.fs.node sb (S.fs.itable ip).inum = some nd)
    (hheld : nd.nlink = 0 → (S.fs.itable ip).inum ∈ S.fs.inums L) (omode : Nat) :
    wp E (openFile sb ip omode) S fun r S' =>
      (r = -1 ∧ Ended sb L s₁ S'.fs ∧ S'.fs.node sb = S.fs.node sb ∧
        (nd.type = T_FILE → freeFile S.file = none ∨ freeFd S.ofile = none)) ∨
      (0 ≤ r ∧ ¬ (freeFile S.file = none ∨ freeFd S.ofile = none)) := by
  have hfail : ∀ {S' : Sys}, S'.fs = S.fs → wp E (onFs (openFail sb ip)) S' fun r S' =>
      r = -1 ∧ Ended sb L s₁ S'.fs ∧ S'.fs.node sb = S.fs.node sb := by
    intro S' hS
    refine wp_onFs.mpr ?_
    rw [hS]
    exact openFail_ok w m made hout hnd hheld
  have hdone : ∀ {S' : Sys}, S'.fs = S.fs → ∀ f fd : Nat, wp E (openDone sb ip f fd omode) S' fun r _ =>
      r = fd := by
    intro S' hS f fd
    rw [← hS] at made hnd
    exact (openDone_ok w m made hout hnd f fd omode).mono fun r _ h => h.1
  have f := made.loaded.fields made.ok hnd
  refine wp_bind.mpr (wp_onFs.mpr (wp_getInode.mpr (wp_ite.mpr ⟨fun hdev => ?_, fun _ => ?_⟩)))
  · refine (hfail rfl).mono fun r S' ⟨hr, e, hn⟩ => .inl ⟨hr, e, hn, fun ht => ?_⟩
    rw [f.type, ht] at hdev
    exact absurd hdev.1 (by decide)
  · refine wp_bind.mpr (wp_bind.mpr (wp_gets.mpr ?_))
    cases hff : freeFile S.file with
    | none => exact (hfail rfl).mono fun r S' ⟨hr, e, hn⟩ => .inl ⟨hr, e, hn, fun _ => .inl rfl⟩
    | some fi =>
      have hfree : (S.file fi).ref = 0 := by simpa using List.find?_some hff
      refine wp_bind.mpr (wp_modify.mpr (wp_pure.mpr (wp_bind.mpr (wp_bind.mpr (wp_gets.mpr ?_)))))
      show wp E (match freeFd S.ofile with | none => _ | some fd => _) _ _
      cases hfd : freeFd S.ofile with
      | none =>
        refine wp_pure.mpr (wp.bind (fileclose_new ?_ ?_) ?_)
        · simp
        · simp [hf fi hfree]
        · intro _ S' hS
          exact (hfail hS).mono fun r S' ⟨hr, e, hn⟩ => .inl ⟨hr, e, hn, fun _ => .inr rfl⟩
      | some fd =>
        refine wp_bind.mpr (wp_modify.mpr (wp_pure.mpr ?_))
        refine wp.mono (hdone ?_ fi fd) fun r S' hr => .inr ⟨?_, by simp⟩
        · rfl
        · rw [hr]
          exact Int.natCast_nonneg fd

/-- `sys_open` fails and changes no node, or fails and leaves the file that it has made, or succeeds. -/
theorem sysOpen_ok (w : sb.Wf) (m : MayStop E) (o : SysOk sb L S.fs) (hf : FilesOk S) (hcwd : cwd ∈ L)
    {path : Option (List UInt8)} (hpath : ∀ p, path = some p → ∀ b ∈ p, b ≠ 0) (omode : Nat)
    (name : Nat → UInt8) :
    wp E (sysOpen sb cwd path omode name) S fun r S' =>
      (r = -1 ∧ Called sb L S.fs S'.fs ∧
        SameOrNew (LeavesFile sb S cwd path omode) (S.fs.node sb) (S'.fs.node sb)) ∨
      (0 ≤ r ∧ ¬ LeavesFile sb S cwd path omode) := by
  cases path with
  | none => exact .inl ⟨rfl, o.called, .inl ⟨fun ⟨_, _, hp, _⟩ => (nomatch hp), rfl⟩⟩
  | some p =>
  have hleaves : LeavesFile sb S cwd (some p) omode ↔
      (freeFile S.file = none ∨ freeFd S.ofile = none) ∧ MakesFile sb S.fs cwd p omode := by
    refine and_congr_right fun _ => ⟨fun ⟨p', hp, hm⟩ => ?_, fun hm => ⟨p, rfl, hm⟩⟩
    cases hp
    exact hm
  rw [hleaves]
  refine wp.bind (R := fun _ S₁ => S₁.file = S.file ∧ S₁.ofile = S.ofile ∧ LogOnly sb S.fs S₁.fs ∧
    S₁.fs.outstanding = S.fs.outstanding + 1) (wp_onFs.mpr ((beginOp_spec o.ok.good).mono ?_)) ?_
  · rintro _ s₁ ⟨l, hout, -⟩
    exact ⟨rfl, rfl, l, hout⟩
  rintro _ S₁ ⟨hfile, hofile, l, hout⟩
  have hout₁ : 1 ≤ S₁.fs.outstanding := by omega
  have hmakes : MakesFile sb S₁.fs cwd p omode ↔ MakesFile sb S.fs cwd p omode := by
    unfold MakesFile
    rw [l.node, l.startOf]
    simp only [canCreate_of_eq l.cur l.blk]
  have hcalled : ∀ {t : St}, Ended sb L S₁.fs t → Called sb L S.fs t := by
    intro t e
    refine ⟨⟨fun j hj => ?_, fun j hj hv => ?_, ?_⟩, e.ok, e.unlocked⟩
    · rw [e.inum j hj, l.itable]
    · exact e.valid j hj (by rw [l.itable]; exact hv)
    · have := e.out
      omega
  refine wp_bind.mpr (wp_onFs.mpr ((openInode_ok w m (o.logOnly l) hout₁ hcwd (hpath p rfl) omode name).mono ?_))
  rw [hmakes, l.node]
  rintro r s₂ (⟨rfl, ⟨h₂, k₂, hl₂, hn₂⟩, hnot⟩ | ⟨ip, nd, rfl, made, hnd, hheld, htype, hres⟩)
  · refine wp_bind.mpr (wp_onFs.mpr ((endOp_ended h₂ k₂ hout₁ (congrFun hl₂)).mono ?_))
    rintro _ s' ⟨e, hn⟩
    exact .inl ⟨rfl, hcalled e, .inl ⟨fun h => hnot h.2, hn.trans (hn₂.trans l.node)⟩⟩
  · have hf₂ : FilesOk { S₁ with fs := s₂ } := by
      intro f
      show (S₁.file f).ref = 0 → (S₁.file f).type = .none
      rw [hfile]
      exact hf f
    refine (openFile_ok w m hf₂ made hout₁ hnd hheld omode).mono ?_
    simp only [hfile, hofile]
    rintro r S' (⟨rfl, e, hn, hfull⟩ | ⟨hr, hnot⟩)
    · refine .inl ⟨rfl, hcalled e, ?_⟩
      rw [hn]
      rcases hres with ⟨hno, hsame⟩ | ⟨hm, i, hi, hi'⟩
      · exact .inl ⟨fun h => hno h.2, hsame⟩
      · exact .inr ⟨⟨hfull (htype hm), hm⟩, i, hi, hi'⟩
    · exact .inr ⟨hr, fun h => hnot h.1⟩

/-- The names: the directories with their entries. -/
def entries (nd : Option Node) : Option (Slots (List UInt8) Nat) :=
  nd.bind fun nd => if nd.type = T_DIR then some (dirSlots nd.data) else none

/-- The same inodes are allocated, and the directories have the same entries. -/
def SameNames (N N' : Nat → Option Node) : Prop :=
  (∀ i, N' i = none ↔ N i = none) ∧ ∀ i, entries (N' i) = entries (N i)

/-- A call that fails has created nothing, exactly if it was not to make a file, or could not, or both
tables have a free place. -/
theorem failed_open_creates_nothing_iff (w : sb.Wf) (o : SysOk sb L S.fs) (hf : FilesOk S) (hcwd : cwd ∈ L)
    {path : Option (List UInt8)} (hpath : ∀ p, path = some p → ∀ b ∈ p, b ≠ 0) (omode : Nat)
    (name : Nat → UInt8) {r : Int} {S' : Sys} (hrun : sysOpen sb cwd path omode name S = .ok (r, S')) :
    (r = -1 → SameNames (S.fs.node sb) (S'.fs.node sb)) ↔ ¬ LeavesFile sb S cwd path omode := by
  have h := (sysOpen_ok (E := fun _ => True) w ⟨trivial, trivial, trivial, trivial⟩ o hf hcwd hpath omode
    name).ok hrun
  rcases h with ⟨rfl, -, ⟨hno, hn⟩ | ⟨hyes, i, hi, hi'⟩⟩ | ⟨hr, hno⟩
  · refine ⟨fun _ => hno, fun _ _ => ?_⟩
    rw [hn]
    exact ⟨fun _ => Iff.rfl, fun _ => rfl⟩
  · exact ⟨fun h => absurd (((h rfl).1 i).mpr hi) hi', fun h => absurd hyes h⟩
  · exact ⟨fun _ => hno, fun _ h => by omega⟩

/-- The small disk and a process that has no open file, or has the writing end of a pipe open under all
its descriptors. -/
def sampleSys (full : Bool) (s : St) : Sys where
  fs := s
  file f := if full ∧ f = 0 then { File.unused with type := .pipe, ref := NOFILE, writable := true } else .unused
  ofile _ := if full then some 0 else none

theorem sampleSys_filesOk (full : Bool) (s : St) : FilesOk (sampleSys full s) := by
  intro f h
  simp only [sampleSys] at h ⊢
  split
  · rename_i hc
    rw [if_pos hc] at h
    cases h
  · rfl

/-- `open("x", O_RDONLY)` fails on the small disk, and nothing is there afterwards. -/
theorem failed_open_creates_nothing_iff_sample : ∃ cwd s S', iget ROOTINO sample.st = .ok (cwd, s) ∧
    sysOpen sample.sb cwd (some [120]) O_RDONLY (fun _ => 0) (sampleSys false s) = .ok (-1, S') ∧
    SameNames (s.node sample.sb) (S'.fs.node sample.sb) := by
  obtain ⟨cwd, s, hget, o, -, -⟩ := sample_sysOk
  have hres : ((iget ROOTINO sample.st).toOption.bind fun r =>
      (sysOpen sample.sb r.1 (some [120]) O_RDONLY (fun _ => 0) (sampleSys false r.2)).toOption.map Prod.fst) =
        some (-1) := by decide +kernel
  obtain ⟨a, hget', hres⟩ := Option.bind_eq_some_iff.mp hres
  obtain ⟨⟨r, S'⟩, hopen, hr⟩ := Option.map_eq_some_iff.mp hres
  have ha := ok_of_toOption hget'
  rw [hget] at ha
  cases ha
  cases hr
  have hopen := ok_of_toOption hopen
  have hpath : ∀ p, some [120] = some p → ∀ b ∈ p, b ≠ (0 : UInt8) := by
    intro p hp
    cases hp
    exact ne_zero_of_all rfl
  have hnot : ¬ LeavesFile sample.sb (sampleSys false s) cwd (some [120]) O_RDONLY := fun h =>
    h.2.elim fun _ h => h.2.1 (by decide)
  exact ⟨cwd, s, S', hget, hopen, (failed_open_creates_nothing_iff sample_ok.wf o (sampleSys_filesOk false s)
    List.mem_cons_self hpath O_RDONLY (fun _ => 0) hopen).mpr hnot rfl⟩

/-- `open("x", O_CREATE | O_RDWR)` without a free descriptor fails, and inode 4 is allocated. -/
theorem failed_open_creates_file : ∃ cwd s S', iget ROOTINO sample.st = .ok (cwd, s) ∧
    sysOpen sample.sb cwd (some [120]) (O_CREATE ||| O_RDWR) (fun _ => 0) (sampleSys true s) = .ok (-1, S') ∧
    s.node sample.sb 4 = none ∧ S'.fs.node sample.sb 4 = some { type := T_FILE, nlink := 1 } := by
  have hres : ((iget ROOTINO sample.st).toOption.bind fun r =>
      (sysOpen sample.sb r.1 (some [120]) (O_CREATE ||| O_RDWR) (fun _ => 0) (sampleSys true r.2)).toOption.map
        fun x => (x.1, r.2.node sample.sb 4, x.2.fs.node sample.sb 4)) =
        some (-1, none, some { type := T_FILE, nlink := 1 }) := by decide +kernel
  obtain ⟨⟨cwd, s⟩, hget, hres⟩ := Option.bind_eq_some_iff.mp hres
  obtain ⟨⟨r, S'⟩, hopen, hres⟩ := Option.map_eq_some_iff.mp hres
  simp only [Prod.mk.injEq] at hres
  obtain ⟨rfl, h4, h4'⟩ := hres
  exact ⟨cwd, s, S', ok_of_toOption hget, ok_of_toOption hopen, h4, h4'⟩

end Open

end Xv6.Fs
