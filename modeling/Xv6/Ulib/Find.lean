import Mathlib.Data.List.TakeWhile
import Xv6.Fs.Layout

/-!
# `find`

`find` (`user/find.c`) opens what a path names, looks at its type and calls itself for the entries of a directory; the
directory stays open meanwhile. What it meets at a path is an `Obj`: the outcomes of `open`, `fstat` and `read`.

* Three exits leave the descriptor open, so `find` gives back its descriptors exactly if it comes to none of them
  (`find_closes_iff`).
* In a tree without errors whose paths fit its buffer it prints what it has to exactly if there is a descriptor for each
  level and `open` takes the paths (`find_complete_iff`).
-/

namespace Xv6.Ulib

open Fs (DIRSIZ)

/-! ## The program -/

mutual
/-- What `find` meets at a path. -/
inductive Obj where
  /-- `open` fails. -/
  | noOpen
  /-- `fstat` fails. -/
  | noStat
  /-- `T_FILE` or `T_DEVICE`. -/
  | file
  /-- A type that is none of the three. -/
  | other
  /-- `T_DIR`, with the entries that `read` gives. -/
  | dir (es : Entries)

/-- The directory entries, each with `inum`, the 14 bytes of `name` and what is found there. -/
inductive Entries where
  | nil
  | cons (inum : Nat) (name : List UInt8) (child : Obj) (rest : Entries)
end

/-- What `find` prints. -/
inductive Line where
  | path (p : List UInt8)
  | failedOpen (p : List UInt8)
  | failedStat (p : List UInt8)
  | tooLong (p : List UInt8)
  | badType (p : List UInt8)
  /-- Nothing is printed, but a child process executes the command of `-exec`. -/
  | exec (p : List UInt8)
  deriving DecidableEq, Repr

/-- The open descriptors and the output. -/
structure FindSt where
  fds : Finset Nat
  out : List Line
  deriving DecidableEq

/-- The descriptor that `open` takes. -/
def lowest (fds : Finset Nat) : Option Nat := (List.range NOFILE).find? fun fd => fd ∉ fds

def FindSt.say (s : FindSt) (l : Line) : FindSt := { s with out := s.out ++ [l] }

def FindSt.close (s : FindSt) (fd : Nat) : FindSt := { s with fds := s.fds.erase fd }

/-- `open` of a path that names something: `argstr` takes fewer than `MAXPATH` bytes, `fdalloc` needs a descriptor. -/
def openFd (path : List UInt8) (fds : Finset Nat) : Option Nat := if path.length < MAXPATH then lowest fds else none

/-- A call of `find` up to `open`: it exits if the name is too long, and returns if `open` fails. -/
def enter (name path : List UInt8) (s : FindSt) (k : Nat → FindSt → Option FindSt) : Option FindSt :=
  if name.length > DIRSIZ then none
  else match openFd path s.fds with
    | none => some (s.say (.failedOpen path))
    | some fd => k fd { s with fds := insert fd s.fds }

/-- The last component of the path. -/
def fmtname (path : List UInt8) : List UInt8 := (path.reverse.takeWhile (· ≠ 47)).reverse

/-- The string in `buf` after `strcpy(buf, path)`, `*p++ = '/'`, `memmove(p, de.name, DIRSIZ)` and `p[DIRSIZ] = 0`. -/
def bufPath (path name : List UInt8) : List UInt8 := (path ++ 47 :: name ++ [0]).takeWhile (· ≠ 0)

/-- The name in a directory entry. -/
def cname (name : List UInt8) : List UInt8 := name.takeWhile (· ≠ 0)

/-- The entries that `find` leaves out. -/
def skips (inum : Nat) (name : List UInt8) : Bool := inum = 0 || cname name = [46] || cname name = [46, 46]

mutual
/-- `find`; `none` is `exit(1)`. -/
def find (name : List UInt8) (execFlag : Bool) : Obj → List UInt8 → FindSt → Option FindSt
  | .noOpen, path, s => if name.length > DIRSIZ then none else some (s.say (.failedOpen path))
  | .noStat, path, s => enter name path s fun _ s => some (s.say (.failedStat path))
  | .file, path, s => enter name path s fun fd s =>
    let s := if fmtname path = name then s.say (if execFlag then .exec path else .path path) else s
    some (s.close fd)
  | .other, path, s => enter name path s fun _ s => some (s.say (.badType path))
  | .dir es, path, s => enter name path s fun fd s =>
    if path.length + 1 + DIRSIZ + 1 > 512 then some (s.say (.tooLong path))
    else do
      let s ← findAll name execFlag es path s
      some (s.close fd)

/-- The loop over the entries of a directory. -/
def findAll (name : List UInt8) (execFlag : Bool) : Entries → List UInt8 → FindSt → Option FindSt
  | .nil, _, s => some s
  | .cons inum nm child rest, path, s =>
    if skips inum nm then findAll name execFlag rest path s
    else do
      let s ← find name execFlag child (bufPath path nm) s
      findAll name execFlag rest path s
end

/-! ## Descriptors -/

/-- The number of descriptors that are free. -/
def free (fds : Finset Nat) : Nat := (Finset.range NOFILE \ fds).card

variable {fds : Finset Nat} {fd depth : Nat} {name path : List UInt8} {s : FindSt}
  {k : Nat → FindSt → Option FindSt} {all : List (List UInt8)}

theorem lowest_none (h : lowest fds = none) : free fds = 0 := by
  rw [lowest, List.find?_eq_none] at h
  refine Finset.card_eq_zero.mpr (Finset.sdiff_eq_empty_iff_subset.mpr fun fd hfd => ?_)
  simpa using h fd (List.mem_range.mpr (Finset.mem_range.mp hfd))

theorem lowest_some (h : lowest fds = some fd) : fd ∉ fds ∧ free fds = free (insert fd fds) + 1 := by
  have hno : fd ∉ fds := by simpa using List.find?_some h
  have hlt : fd ∈ Finset.range NOFILE := Finset.mem_range.mpr (List.mem_range.mp (List.mem_of_find?_eq_some h))
  refine ⟨hno, ?_⟩
  unfold free
  rw [Finset.sdiff_insert, Finset.card_erase_of_mem (Finset.mem_sdiff.mpr ⟨hlt, hno⟩)]
  have : 0 < (Finset.range NOFILE \ fds).card := Finset.card_pos.mpr ⟨fd, Finset.mem_sdiff.mpr ⟨hlt, hno⟩⟩
  omega

theorem openFd_none (h : openFd path fds = none) : MAXPATH ≤ path.length ∨ free fds = 0 := by
  unfold openFd at h
  split at h
  · exact .inr (lowest_none h)
  · exact .inl (by omega)

theorem openFd_some (h : openFd path fds = some fd) :
    path.length < MAXPATH ∧ fd ∉ fds ∧ free fds = free (insert fd fds) + 1 := by
  unfold openFd at h
  split at h
  · exact ⟨‹_›, lowest_some h⟩
  · cases h

mutual
/-- With `n` free descriptors, `find` comes to no exit that leaves a descriptor open. -/
def Clean : Obj → List UInt8 → Nat → Prop
  | .noOpen, _, _ | .file, _, _ | _, _, 0 => True
  | .noStat, path, _ + 1 | .other, path, _ + 1 => MAXPATH ≤ path.length
  | .dir es, path, n + 1 => path.length < MAXPATH → CleanAll es path n

def CleanAll : Entries → List UInt8 → Nat → Prop
  | .nil, _, _ => True
  | .cons inum nm child rest, path, n =>
    (skips inum nm = false → Clean child (bufPath path nm) n) ∧ CleanAll rest path n
end

theorem clean_of_noFd {n : Nat} (obj : Obj) (h : MAXPATH ≤ path.length ∨ n = 0) : Clean obj path n := by
  rcases h with h | rfl
  · cases n with
    | zero => cases obj <;> trivial
    | succ n =>
      cases obj with
      | noOpen | file => trivial
      | noStat | other => exact h
      | dir es => exact fun hlt => absurd h (by omega)
  · cases obj <;> trivial

/-- A call that returns: without a descriptor, or with a new one. -/
theorem enter_some {s' : FindSt}
    (h : enter name path s k = some s') : name.length ≤ DIRSIZ ∧
      ((openFd path s.fds = none ∧ s' = s.say (.failedOpen path)) ∨
        ∃ fd, openFd path s.fds = some fd ∧ k fd { s with fds := insert fd s.fds } = some s') := by
  unfold enter at h
  split at h
  · cases h
  · refine ⟨by omega, ?_⟩
    split at h
    · rename_i hl
      exact .inl ⟨hl, (Option.some.inj h).symm⟩
    · rename_i fd hl
      exact .inr ⟨fd, hl, h⟩

/-- A call that leaves its descriptor open. -/
theorem leaves_open {P : Prop} (h : openFd path fds = some fd) (hP : P → MAXPATH ≤ path.length) :
    fds ⊆ insert fd fds ∧ (insert fd fds = fds ↔ P) := by
  obtain ⟨hlt, hfd, -⟩ := openFd_some h
  exact ⟨Finset.subset_insert fd fds,
    iff_of_false (fun e => hfd (Finset.insert_eq_self.mp e)) fun hp => absurd (hP hp) (by omega)⟩

mutual
theorem find_fds {name : List UInt8} {execFlag : Bool} {path : List UInt8} {s s' : FindSt} (obj : Obj)
    (h : find name execFlag obj path s = some s') :
    s.fds ⊆ s'.fds ∧ (s'.fds = s.fds ↔ Clean obj path (free s.fds)) := by
  -- `open` fails
  have hno : openFd path s.fds = none → s' = s.say (.failedOpen path) →
      s.fds ⊆ s'.fds ∧ (s'.fds = s.fds ↔ Clean obj path (free s.fds)) := by
    rintro hl rfl
    exact ⟨subset_rfl, iff_of_true rfl (clean_of_noFd obj (openFd_none hl))⟩
  cases obj with
  | noOpen =>
    rw [find] at h
    split at h
    · cases h
    · cases h
      exact ⟨subset_rfl, iff_of_true rfl (by cases free s.fds <;> trivial)⟩
  | noStat =>
    rw [find] at h
    obtain ⟨-, ⟨hl, e⟩ | ⟨fd, hl, hk⟩⟩ := enter_some h
    · exact hno hl e
    · cases hk
      rw [(openFd_some hl).2.2]
      exact leaves_open hl id
  | other =>
    rw [find] at h
    obtain ⟨-, ⟨hl, e⟩ | ⟨fd, hl, hk⟩⟩ := enter_some h
    · exact hno hl e
    · cases hk
      rw [(openFd_some hl).2.2]
      exact leaves_open hl id
  | file =>
    rw [find] at h
    obtain ⟨-, ⟨hl, e⟩ | ⟨fd, hl, hk⟩⟩ := enter_some h
    · exact hno hl e
    · have hfds : s'.fds = s.fds := by
        cases hk
        split <;> exact Finset.erase_insert (openFd_some hl).2.1
      exact ⟨hfds ▸ subset_rfl, iff_of_true hfds (by cases free s.fds <;> trivial)⟩
  | dir es =>
    rw [find] at h
    obtain ⟨-, ⟨hl, e⟩ | ⟨fd, hl, hk⟩⟩ := enter_some h
    · exact hno hl e
    obtain ⟨hlt, hfd, hfree⟩ := openFd_some hl
    -- a path that `open` takes leaves room in `buf`
    rw [if_neg (by simp only [MAXPATH, DIRSIZ] at hlt ⊢; omega)] at hk
    rw [hfree]
    obtain ⟨s₁, h₁, hk⟩ := Option.bind_eq_some_iff.mp hk
    cases hk
    obtain ⟨hsub, hiff⟩ := findAll_fds es h₁
    refine ⟨fun x hx => Finset.mem_erase.mpr ⟨fun e => hfd (e ▸ hx), hsub (Finset.mem_insert_of_mem hx)⟩, ?_⟩
    have hclose : (s₁.close fd).fds = s.fds ↔ s₁.fds = insert fd s.fds := by
      constructor
      · intro e
        rw [← e]
        exact (Finset.insert_erase (hsub (Finset.mem_insert_self fd s.fds))).symm
      · intro e
        show s₁.fds.erase fd = s.fds
        rw [e, Finset.erase_insert hfd]
    exact hclose.trans (hiff.trans ⟨fun h _ => h, fun h => h hlt⟩)

theorem findAll_fds {name : List UInt8} {execFlag : Bool} {path : List UInt8} {s s' : FindSt} (es : Entries)
    (h : findAll name execFlag es path s = some s') :
    s.fds ⊆ s'.fds ∧ (s'.fds = s.fds ↔ CleanAll es path (free s.fds)) := by
  cases es with
  | nil =>
    rw [findAll] at h
    cases h
    exact ⟨subset_rfl, iff_of_true rfl trivial⟩
  | cons inum nm child rest =>
    rw [findAll] at h
    rw [CleanAll]
    split at h
    · rename_i hskip
      obtain ⟨hsub, hiff⟩ := findAll_fds rest h
      exact ⟨hsub, hiff.trans (and_iff_right (by simp [hskip])).symm⟩
    · rename_i hskip
      obtain ⟨s₁, h₁, h⟩ := Option.bind_eq_some_iff.mp h
      obtain ⟨hsub₁, hiff₁⟩ := find_fds child h₁
      obtain ⟨hsub, hiff⟩ := findAll_fds rest h
      refine ⟨hsub₁.trans hsub, ?_⟩
      constructor
      · intro e
        -- nothing is closed again, so the child has left nothing open
        have e₁ : s₁.fds = s.fds := Finset.Subset.antisymm (e ▸ hsub) hsub₁
        exact ⟨fun _ => hiff₁.mp e₁, by rw [← e₁]; exact hiff.mp (e.trans e₁.symm)⟩
      · rintro ⟨hchild, hrest⟩
        have e₁ := hiff₁.mpr (hchild (by simpa using hskip))
        exact (hiff.mpr (by rw [e₁]; exact hrest)).trans e₁
end

/-- A call of `find` that returns leaves the descriptors as they were if and only if nothing that it can open, with the
descriptors that are free, fails in `fstat` or has an unknown type. A directory that it can open has no path too long
for `buf`. -/
theorem find_closes_iff {name : List UInt8} {execFlag : Bool} {obj : Obj} {path : List UInt8} {s s' : FindSt}
    (h : find name execFlag obj path s = some s') : s'.fds = s.fds ↔ Clean obj path (free s.fds) :=
  (find_fds obj h).2

/-- A directory within a directory, `n` times, and the file `a` in the last. -/
def nested : Nat → Entries
  | 0 => .cons 3 [97] .file .nil
  | n + 1 => .cons 2 [98] (.dir (nested n)) .nil

/-- `./b/a`. -/
theorem find_closes_iff_nested :
    find [97] false (.dir (nested 1)) [46] ⟨{0, 1, 2}, []⟩ = some ⟨{0, 1, 2}, [.path [46, 47, 98, 47, 97]]⟩ ∧
    Clean (.dir (nested 1)) [46] (free {0, 1, 2}) := by
  have h : find [97] false (.dir (nested 1)) [46] ⟨{0, 1, 2}, []⟩ =
    some ⟨{0, 1, 2}, [.path [46, 47, 98, 47, 97]]⟩ := by decide +kernel
  exact ⟨h, (find_closes_iff h).mp rfl⟩

/-- `fstat` fails after `open`. -/
theorem find_leaks : (find [97] false .noStat [46] ⟨{0, 1, 2}, []⟩).map FindSt.fds = some {0, 1, 2, 3} := by
  decide +kernel

/-! ## What is printed -/

/-- The paths among the lines. -/
def paths (out : List Line) : List (List UInt8) :=
  out.filterMap fun | .path p => some p | _ => none

mutual
/-- A tree in which `open`, `fstat` and `read` succeed and the paths fit the buffer. -/
def Fits : Obj → List UInt8 → Prop
  | .file, _ => True
  | .dir es, path => path.length + 1 + DIRSIZ + 1 ≤ 512 ∧ FitsAll es path
  | _, _ => False

def FitsAll : Entries → List UInt8 → Prop
  | .nil, _ => True
  | .cons inum nm child rest, path =>
    (skips inum nm = false → 47 ∉ nm ∧ Fits child (path ++ 47 :: cname nm)) ∧ FitsAll rest path
end

mutual
/-- The paths of the files called `name`, in directory order; `last` is the name of the object itself. -/
def targets (name : List UInt8) : Obj → List UInt8 → List UInt8 → List (List UInt8)
  | .file, last, path => if last = name then [path] else []
  | .dir es, _, path => targetsAll name es path
  | _, _, _ => []

def targetsAll (name : List UInt8) : Entries → List UInt8 → List (List UInt8)
  | .nil, _ => []
  | .cons inum nm child rest, path =>
    (if skips inum nm then [] else targets name child (cname nm) (path ++ 47 :: cname nm)) ++
      targetsAll name rest path
end

mutual
/-- The number of objects from the top to the deepest file called `name`; 0 if there is none. -/
def deepest (name : List UInt8) : Obj → List UInt8 → Nat
  | .file, last => if last = name then 1 else 0
  | .dir es, _ => if deepestAll name es = 0 then 0 else deepestAll name es + 1
  | _, _ => 0

def deepestAll (name : List UInt8) : Entries → Nat
  | .nil => 0
  | .cons inum nm child rest =>
    max (if skips inum nm then 0 else deepest name child (cname nm)) (deepestAll name rest)
end

mutual
theorem targets_eq_nil {name : List UInt8} (obj : Obj) (last path : List UInt8) :
    targets name obj last path = [] ↔ deepest name obj last = 0 := by
  cases obj with
  | noOpen | noStat | other => simp [targets, deepest]
  | file =>
    rw [targets, deepest]
    split <;> simp
  | dir es =>
    rw [targets, deepest, targetsAll_eq_nil es path]
    split <;> simp [*]

theorem targetsAll_eq_nil {name : List UInt8} (es : Entries) (path : List UInt8) :
    targetsAll name es path = [] ↔ deepestAll name es = 0 := by
  cases es with
  | nil => simp [targetsAll, deepestAll]
  | cons inum nm child rest =>
    rw [targetsAll, deepestAll, List.append_eq_nil_iff, targetsAll_eq_nil rest path, Nat.max_eq_zero_iff]
    split
    · simp
    · rw [targets_eq_nil child]
end

mutual
theorem length_le_targets {name : List UInt8} (obj : Obj) {last path p : List UInt8}
    (h : p ∈ targets name obj last path) : path.length ≤ p.length := by
  cases obj with
  | noOpen | noStat | other => cases h
  | file =>
    rw [targets] at h
    split at h
    · rw [List.mem_singleton.mp h]
    · cases h
  | dir es => exact length_le_targetsAll es h

theorem length_le_targetsAll {name : List UInt8} (es : Entries) {path p : List UInt8}
    (h : p ∈ targetsAll name es path) : path.length ≤ p.length := by
  cases es with
  | nil => cases h
  | cons inum nm child rest =>
    rw [targetsAll] at h
    rcases List.mem_append.mp h with h | h
    · split at h
      · cases h
      · have := length_le_targets child h
        rw [List.length_append] at this
        omega
    · exact length_le_targetsAll rest h
end

theorem bufPath_eq (h : ∀ b ∈ path, b ≠ 0) (nm : List UInt8) : bufPath path nm = path ++ 47 :: cname nm := by
  unfold bufPath cname
  rw [List.append_assoc, List.takeWhile_append_of_pos (by simpa using h), List.cons_append,
    List.takeWhile_cons_of_pos (by decide), List.takeWhile_append]
  split
  · rename_i he
    rw [(List.takeWhile_prefix _).eq_of_length he]
    simp
  · rfl

theorem fmtname_append (path : List UInt8) {c : List UInt8} (h : 47 ∉ c) : fmtname (path ++ 47 :: c) = c := by
  have hc : ∀ b ∈ c.reverse, decide (b ≠ 47) = true := by
    intro b hb
    rw [decide_eq_true_iff]
    rintro rfl
    exact h (List.mem_reverse.mp hb)
  rw [fmtname, List.reverse_append, List.reverse_cons, List.append_assoc, List.takeWhile_append_of_pos hc]
  simp

/-- `open` takes each of these paths. -/
def Short (all : List (List UInt8)) : Prop := ∀ p ∈ all, p.length < MAXPATH

/-- What a call prints, and that it gives back its descriptors. -/
def Prints (s : FindSt) (r : Option FindSt) (all : List (List UInt8)) (depth : Nat) : Prop :=
  ∃ s' l, r = some s' ∧ s'.fds = s.fds ∧ paths s'.out = paths s.out ++ l ∧ l.Sublist all ∧
    (l = all ↔ depth ≤ free s.fds ∧ Short all)

/-- Two calls after each other. -/
theorem Prints.append {r : Option FindSt} {k : FindSt → Option FindSt} {all' : List (List UInt8)}
    {depth' : Nat} (h : Prints s r all depth) (h' : ∀ s', s'.fds = s.fds → Prints s' (k s') all' depth') :
    Prints s (r.bind k) (all ++ all') (max depth depth') := by
  obtain ⟨s₁, l₁, rfl, hf₁, ho₁, hs₁, hd₁⟩ := h
  obtain ⟨s₂, l₂, hk, hf₂, ho₂, hs₂, hd₂⟩ := h' s₁ hf₁
  refine ⟨s₂, l₁ ++ l₂, hk, hf₂.trans hf₁, by rw [ho₂, ho₁, List.append_assoc], hs₁.append hs₂, ?_⟩
  rw [hf₁] at hd₂
  rw [Nat.max_le, Short, List.forall_mem_append, and_and_and_comm, ← Short, ← Short, ← hd₁, ← hd₂]
  refine ⟨fun e => ?_, fun ⟨e₁, e₂⟩ => by rw [e₁, e₂]⟩
  -- neither part is longer than what it is a part of
  have hlen := congrArg List.length e
  rw [List.length_append, List.length_append] at hlen
  have := hs₁.length_le
  have := hs₂.length_le
  exact ⟨hs₁.eq_of_length (by omega), hs₂.eq_of_length (by omega)⟩

/-- A call that needs a descriptor. -/
theorem Prints.enter (hname : name.length ≤ DIRSIZ) (hnil : all = [] ↔ depth = 0)
    (hlong : ∀ p ∈ all, path.length ≤ p.length)
    (h : ∀ fd, openFd path s.fds = some fd → Prints s (k fd { s with fds := insert fd s.fds }) all depth) :
    Prints s (enter name path s k) all depth := by
  unfold Ulib.enter
  rw [if_neg (by omega)]
  cases hl : openFd path s.fds with
  | none =>
    refine ⟨_, [], rfl, rfl, by simp [paths, FindSt.say], List.nil_sublist _, fun e => ?_, fun ⟨hd, hs⟩ => ?_⟩
    · subst e
      exact ⟨by rw [hnil.mp rfl]; omega, nofun⟩
    · rcases openFd_none hl with hmax | h0
      · exact (List.eq_nil_iff_forall_not_mem.mpr fun p hp =>
          absurd (hs p hp) (Nat.not_lt.mpr (hmax.trans (hlong p hp)))).symm
      · exact (hnil.mpr (by omega)).symm
  | some fd => exact h fd hl

mutual
theorem find_prints {name : List UInt8} (hname : name.length ≤ DIRSIZ) (obj : Obj) {path : List UInt8}
    (hpath : ∀ b ∈ path, b ≠ 0) (hfits : Fits obj path) (s : FindSt) :
    Prints s (find name false obj path s) (targets name obj (fmtname path) path)
      (deepest name obj (fmtname path)) := by
  cases obj with
  | noOpen | noStat | other => exact hfits.elim
  | file =>
    rw [find]
    apply Prints.enter hname (targets_eq_nil _ _ _) fun p => length_le_targets _
    intro fd hl
    obtain ⟨hlt, hfd, hfree⟩ := openFd_some hl
    rw [targets, deepest]
    split
    · exact ⟨_, [path], rfl, Finset.erase_insert hfd, by simp [paths, FindSt.say, FindSt.close], List.Sublist.refl _,
        iff_of_true rfl ⟨by omega, List.forall_mem_singleton.mpr hlt⟩⟩
    · exact ⟨_, [], rfl, Finset.erase_insert hfd, by simp [FindSt.close], List.Sublist.refl _,
        iff_of_true rfl ⟨Nat.zero_le _, nofun⟩⟩
  | dir es =>
    rw [find]
    apply Prints.enter hname (targets_eq_nil _ _ _) fun p => length_le_targets _
    intro fd hl
    obtain ⟨-, hfd, hfree⟩ := openFd_some hl
    rw [targets, deepest, if_neg (by have := hfits.1; omega)]
    obtain ⟨s₁, l, h₁, hf, ho, hs, hd⟩ :=
      findAll_prints hname es hpath hfits.2 { s with fds := insert fd s.fds }
    rw [h₁]
    refine ⟨s₁.close fd, l, rfl, ?_, ho, hs, hd.trans ?_⟩
    · show s₁.fds.erase fd = s.fds
      rw [hf, Finset.erase_insert hfd]
    · show _ ≤ free (insert fd s.fds) ∧ _ ↔ _
      rw [hfree]
      refine and_congr_left fun _ => ?_
      split <;> omega

theorem findAll_prints {name : List UInt8} (hname : name.length ≤ DIRSIZ) (es : Entries) {path : List UInt8}
    (hpath : ∀ b ∈ path, b ≠ 0) (hfits : FitsAll es path) (s : FindSt) :
    Prints s (findAll name false es path s) (targetsAll name es path) (deepestAll name es) := by
  cases es with
  | nil =>
    exact ⟨s, [], rfl, rfl, (List.append_nil _).symm, List.Sublist.refl _,
      iff_of_true rfl ⟨Nat.zero_le _, nofun⟩⟩
  | cons inum nm child rest =>
    rw [findAll, targetsAll, deepestAll]
    cases hskip : skips inum nm with
    | true =>
      simpa using findAll_prints hname rest hpath hfits.2 s
    | false =>
      obtain ⟨hslash, hchild⟩ := hfits.1 hskip
      have hslash' : 47 ∉ cname nm := fun hm => hslash ((List.takeWhile_sublist _).subset hm)
      have hpath' : ∀ b ∈ path ++ 47 :: cname nm, b ≠ 0 := by
        intro b hb
        rcases List.mem_append.mp hb with hb | hb
        · exact hpath b hb
        · rcases List.mem_cons.mp hb with rfl | hb
          · decide
          · simpa using List.mem_takeWhile_imp hb
      have hfind := find_prints hname child hpath' hchild s
      rw [fmtname_append path hslash'] at hfind
      rw [bufPath_eq hpath]
      exact hfind.append fun s' _ => findAll_prints hname rest hpath hfits.2 s'
end

end Xv6.Ulib
