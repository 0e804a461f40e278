import Xv6.Param
import Xv6.Sh.Accept

/-!
# Running a command

`runcmd` of `user/sh.c`, with the descriptors of each process. `runcmd` does not return: the process becomes
a program, or exits after it has made children (`Proc`). The calls `open`, `pipe` and `fork` can fail;
`ok n` tells if call number `n` succeeds.

The descriptors are changed with `close`, `dup`, `pipe` and `open`, which take the lowest free number.
`meaning` is the purpose: a pipe joins the output of the left command to the input of the right one, a
redirection replaces one of them. `runcmd_wires`: every program gets its three files and no other
descriptor, and a shell that waits has those of its own command and no end of the pipe that it made, so
that the reader of a pipe sees the end of it when its writers are done.
-/

namespace Xv6.Sh

/-- What a descriptor stands for. -/
inductive File where
  /-- A file that the shell was started with. -/
  | shell (n : Nat)
  | named (file : Word) (mode : Nat)
  /-- An end of the pipe that call number `n` made. -/
  | pipe (n : Nat) (writable : Bool)
  deriving DecidableEq

/-- The open files of a process. -/
abbrev Fds := List (Option File)

/-- What a process becomes. A program, and a shell while it waits, has the descriptors `D`. -/
inductive Proc (D : Type) where
  | exec (argv : List Word) (fds : D)
  | exit (status : Nat)
  /-- It waits for the first child, and goes on as the second part says. -/
  | list (fds : D) (left right : Proc D)
  /-- It waits for two children and exits. -/
  | pipe (fds : D) (left right : Proc D)
  /-- It exits and does not wait for its child. -/
  | back (child : Proc D) (status : Nat)
  deriving DecidableEq

/-- A call that can fail: with its number to what follows, or to what a failure leads to. -/
def attempt {α : Type} (ok : Nat → Bool) (done : Nat → StateM Nat α) (fail : α) : StateM Nat α := fun n =>
  if ok n then done n (n + 1) else (fail, n + 1)

def close (fds : Fds) (fd : Nat) : Fds := fds.set fd none

/-- `fdalloc`. -/
def fdalloc (fds : Fds) (f : File) : Option (Nat × Fds) :=
  (fds.findIdx? Option.isNone).map fun fd => (fd, fds.set fd (some f))

/-- `dup`; nobody looks at its result. -/
def dup (fds : Fds) (fd : Nat) : Fds :=
  match fds[fd]? with
  | some (some f) => ((fdalloc fds f).map Prod.snd).getD fds
  | _ => fds

/-- `p[0]` and `p[1]` of `pipe(p)`. -/
def pipe (fds : Fds) (n : Nat) : Option (Nat × Nat × Fds) := do
  let (p₀, fds) ← fdalloc fds (.pipe n false)
  let (p₁, fds) ← fdalloc fds (.pipe n true)
  pure (p₀, p₁, fds)

/-- `runcmd`. Where `fork1` or `pipe` fails it panics, which is `exit(1)`. -/
def runcmd (ok : Nat → Bool) : Cmd → Fds → StateM Nat (Proc Fds)
  | .exec [], _ => pure (.exit 1)
  | .exec argv, fds => pure (.exec argv fds)
  | .redir cmd file mode fd, fds =>
    attempt ok (fun _ => match fdalloc (close fds fd) (.named file mode) with
      | none => pure (.exit 1)
      | some (_, fds) => runcmd ok cmd fds) (.exit 1)
  | .list left right, fds =>
    attempt ok (fun _ => do pure (.list fds (← runcmd ok left fds) (← runcmd ok right fds))) (.exit 1)
  | .pipe left right, fds =>
    attempt ok (fun n => match pipe fds n with
      | none => pure (.exit 1)
      | some (p₀, p₁, fds) => attempt ok (fun _ => do
          let l ← runcmd ok left (close (close (dup (close fds 1) p₁) p₀) p₁)
          attempt ok (fun _ => do
            let r ← runcmd ok right (close (close (dup (close fds 0) p₀) p₀) p₁)
            pure (.pipe (close (close fds p₀) p₁) l r)) (.back l 1)) (.exit 1)) (.exit 1)
  | .back cmd, fds => attempt ok (fun _ => do pure (.back (← runcmd ok cmd fds) 0)) (.exit 1)

/-! ## The purpose -/

/-- Standard input, output and errors. -/
structure Std where
  inp : File
  out : File
  err : File
  deriving DecidableEq

/-- The descriptors 0 to 2, and no other. -/
def Std.fds (σ : Std) : Fds := some σ.inp :: some σ.out :: some σ.err :: List.replicate (NOFILE - 3) none

/-- What a command is for: the files of each process. -/
def meaning (ok : Nat → Bool) : Cmd → Std → StateM Nat (Proc Std)
  | .exec [], _ => pure (.exit 1)
  | .exec argv, σ => pure (.exec argv σ)
  | .redir cmd file mode fd, σ =>
    let σ' := if fd = 0 then { σ with inp := .named file mode } else { σ with out := .named file mode }
    attempt ok (fun _ => meaning ok cmd σ') (.exit 1)
  | .list left right, σ =>
    attempt ok (fun _ => do pure (.list σ (← meaning ok left σ) (← meaning ok right σ))) (.exit 1)
  | .pipe left right, σ =>
    attempt ok (fun n => attempt ok (fun _ => do
      let l ← meaning ok left { σ with out := .pipe n true }
      attempt ok (fun _ => do
        let r ← meaning ok right { σ with inp := .pipe n false }
        pure (.pipe σ l r)) (.back l 1)) (.exit 1)) (.exit 1)
  | .back cmd, σ => attempt ok (fun _ => do pure (.back (← meaning ok cmd σ) 0)) (.exit 1)

/-- The process with other descriptors. -/
def Proc.map {D E : Type} (f : D → E) : Proc D → Proc E
  | exec argv fds => exec argv (f fds)
  | exit status => exit status
  | list fds left right => list (f fds) (left.map f) (right.map f)
  | pipe fds left right => pipe (f fds) (left.map f) (right.map f)
  | back child status => back (child.map f) status

/-- Redirections are for standard input and output only. -/
def Cmd.Std : Cmd → Prop
  | .exec _ => True
  | .redir cmd _ _ fd => fd ≤ 1 ∧ cmd.Std
  | .pipe left right | .list left right => left.Std ∧ right.Std
  | .back cmd => cmd.Std

theorem map_attempt {α β : Type} (f : α → β) (ok : Nat → Bool) (done : Nat → StateM Nat α) (fail : α) :
    f <$> attempt ok done fail = attempt ok (fun n => f <$> done n) (f fail) := by
  funext n
  show (f (attempt ok done fail n).1, (attempt ok done fail n).2) = _
  unfold attempt
  split <;> rfl

variable {ok : Nat → Bool} {σ : Std} {c : Cmd}

theorem runcmd_eq (h : c.Std) : runcmd ok c σ.fds = Proc.map Std.fds <$> meaning ok c σ := by
  induction c generalizing σ with
  | exec argv => cases argv <;> rfl
  | redir cmd file mode fd ih =>
    rw [meaning, map_attempt, ← ih h.2]
    obtain rfl | rfl : fd = 0 ∨ fd = 1 := by have := h.1; omega
    · rfl
    · rfl
  | pipe left right ihl ihr =>
    -- `p[0]` is 3 and `p[1]` is 4; after its calls each of the three has three descriptors again
    show attempt ok (fun n => attempt ok (fun _ => do
      let l ← runcmd ok left { σ with out := .pipe n true }.fds
      attempt ok (fun _ => do
        let r ← runcmd ok right { σ with inp := .pipe n false }.fds
        pure (Proc.pipe σ.fds l r)) (Proc.back l 1)) (Proc.exit 1)) (Proc.exit 1) = _
    simp only [meaning, map_attempt, map_bind, map_pure, Proc.map, ihl h.1, ihr h.2, bind_map_left]
  | list left right ihl ihr =>
    simp only [runcmd, meaning, map_attempt, map_bind, map_pure, Proc.map, ihl h.1, ihr h.2, bind_map_left]
  | back cmd ih =>
    simp only [runcmd, meaning, map_attempt, map_bind, map_pure, Proc.map, ih h, bind_map_left]

theorem std_redirs {rs : List Redir} (hc : c.Std) (hr : ∀ r ∈ rs, r.fd ≤ 1) : (c.redirs rs).Std := by
  induction rs generalizing c with
  | nil => exact hc
  | cons r rs ih =>
    rw [List.forall_mem_cons] at hr
    exact ih (c := .redir c r.file r.mode r.fd) ⟨hr.1, hc⟩ hr.2

theorem std_backs (hc : c.Std) (k : Nat) : (c.backs k).Std := by
  induction k generalizing c with
  | zero => exact hc
  | succ k ih => exact ih (c := .back c) hc

theorem Redirs.fd_le {l : List Tok} {rs : List Redir} (h : Redirs l rs) : ∀ r ∈ rs, r.fd ≤ 1 := by
  induction h with
  | nil => simp
  | cons ht _ ih => exact List.forall_mem_cons.mpr ⟨by cases ht <;> simp, ih⟩

theorem Args.fd_le {l : List Tok} {ws : List Word} {rs : List Redir} (h : Args l ws rs) : ∀ r ∈ rs, r.fd ≤ 1 := by
  induction h with
  | nil => simp
  | cons hr _ ih => exact List.forall_mem_append.mpr ⟨hr.fd_le, ih⟩

theorem Derives.std {nt : Nt} {l : List Tok} (h : Derives nt l c) : c.Std := by
  induction h with
  | line k _ ih => exact std_backs ih k
  | list k _ _ ih ih' => exact ⟨std_backs ih k, ih'⟩
  | one _ ih => exact ih
  | pipe _ _ ih ih' => exact ⟨ih, ih'⟩
  | block _ hr ih => exact std_redirs ih hr.fd_le
  | simple hr h _ => exact std_redirs trivial (List.forall_mem_append.mpr ⟨hr.fd_le, h.fd_le⟩)

/-- **The shell connects the programs of a command as the command says**, for every command that the parser
accepts and whatever calls fail: each program gets its input, its output and the errors as descriptors 0 to 2,
and no other descriptor; each shell that waits has those of its command only. -/
theorem runcmd_wires {n : Nat} {s b : List Char} (h : parsecmd n s = .ok (c, b)) (ok : Nat → Bool) (σ : Std) :
    runcmd ok c σ.fds = Proc.map Std.fds <$> meaning ok c σ :=
  runcmd_eq (parsecmd_sound h).1.std

/-- `a|b>f`. -/
theorem runcmd_wires_pipe : ∃ c b, parsecmd 40 "a|b>f".toList = .ok (c, b) ∧
    (runcmd (fun _ => true) c (Std.fds ⟨.shell 0, .shell 1, .shell 2⟩) 0).1 = .pipe
      (Std.fds ⟨.shell 0, .shell 1, .shell 2⟩)
      (.exec [⟨0, 1⟩] (Std.fds ⟨.shell 0, .pipe 0 true, .shell 2⟩))
      (.exec [⟨2, 3⟩] (Std.fds ⟨.pipe 0 false, .named ⟨4, 5⟩ 0x601, .shell 2⟩)) := by
  have h : parsecmd 40 "a|b>f".toList = .ok (.pipe (.exec [⟨0, 1⟩]) (.redir (.exec [⟨2, 3⟩]) ⟨4, 5⟩ 0x601 1),
    "a\x00b\x00f\x00".toList) := by decide +kernel
  refine ⟨_, _, h, ?_⟩
  rw [runcmd_wires h]
  rfl

end Xv6.Sh
