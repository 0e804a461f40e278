import Xv6.Sh.Accept

/-!
# The shell's parser in memory

`parsecmd` as `user/sh.c` has it: the nodes of the tree are allocated with `malloc` and point to each other,
an `EXEC` node has the arrays `argv` and `eargv` of `MAXARGS` pointers, which `parseexec` fills in while
redirections are put around the node, and `nulterminate` walks over the nodes. A pointer to a node is its
place among the allocated nodes; an access outside of an array or of the line is `Crash.bounds`.

The nodes of a tree are allocated one after the other, the root last (`layout`), so the parser in memory
returns the layout of the tree that the parser of `Xv6.Sh.Parse` returns (`parse_eq`).
-/

namespace Xv6.Sh

namespace Mem

/-- `struct execcmd`, `redircmd`, `pipecmd`, `listcmd` and `backcmd`. -/
inductive Node where
  | exec (argv eargv : List (Option Nat))
  | redir (cmd file efile mode fd : Nat)
  | pipe (left right : Nat)
  | list (left right : Nat)
  | back (cmd : Nat)
  deriving DecidableEq, Repr

/-- The nodes, in the order of their allocation. -/
abbrev Heap := List Node

inductive Crash where
  | err (e : Err)
  /-- An access out of bounds, or through a null pointer. -/
  | bounds
  deriving DecidableEq, Repr

/-! ## The code -/

/-- `malloc`, and the node stored there. -/
def malloc (h : Heap) (x : Node) : Nat × Heap := (h.length, h ++ [x])

/-- `execcmd`: both arrays are zero. -/
def execcmd (h : Heap) : Nat × Heap :=
  malloc h (.exec (List.replicate MAXARGS none) (List.replicate MAXARGS none))

/-- `cmd->argv[argc] = q; cmd->eargv[argc] = eq`. -/
def setArg (h : Heap) (cmd argc : Nat) (q eq : Option Nat) : Except Crash Heap :=
  match h[cmd]? with
  | some (.exec argv eargv) =>
    if argc < MAXARGS then .ok (h.set cmd (.exec (argv.set argc q) (eargv.set argc eq))) else .error .bounds
  | _ => .error .bounds

/-- `parseredirs`. -/
def parseredirs : Nat → Nat → Heap → Cur → Except Crash (Nat × Heap × Cur)
  | 0, _, _, _ => .error (.err .fuel)
  | n + 1, cmd, h, s =>
    if peek s ['<', '>'] then
      let tok := gettoken s.skip
      let f := gettoken tok.s
      if f.ret ≠ 'a' then .error (.err (.panic "missing file for redirection"))
      else if tok.ret = '<' then
        let (cmd, h) := malloc h (.redir cmd f.q f.eq O_RDONLY 0)
        parseredirs n cmd h f.s
      else if tok.ret = '>' then
        let (cmd, h) := malloc h (.redir cmd f.q f.eq (O_WRONLY ||| O_CREATE ||| O_TRUNC) 1)
        parseredirs n cmd h f.s
      else if tok.ret = '+' then
        let (cmd, h) := malloc h (.redir cmd f.q f.eq (O_WRONLY ||| O_CREATE) 1)
        parseredirs n cmd h f.s
      else parseredirs n cmd h f.s
    else .ok (cmd, h, s.skip)

/-- The loop of `parseexec`, and the null pointers behind the arguments. -/
def parseargs : Nat → Nat → Nat → Nat → Heap → Cur → Except Crash (Nat × Heap × Cur)
  | 0, _, _, _, _, _ => .error (.err .fuel)
  | n + 1, cmd, argc, ret, h, s =>
    if peek s ['|', ')', '&', ';'] then do
      let h ← setArg h cmd argc none none
      .ok (ret, h, s.skip)
    else
      let tok := gettoken s.skip
      if tok.ret = '\x00' then do
        let h ← setArg h cmd argc none none
        .ok (ret, h, tok.s)
      else if tok.ret ≠ 'a' then .error (.err (.panic "syntax"))
      else do
        let h ← setArg h cmd argc (some tok.q) (some tok.eq)
        if argc + 1 ≥ MAXARGS then .error (.err (.panic "too many args"))
        else
          let (ret, h, s) ← parseredirs n ret h tok.s
          parseargs n cmd (argc + 1) ret h s

/-- The loop of `parseline`. -/
def parseamps : Nat → Nat → Heap → Cur → Except Crash (Nat × Heap × Cur)
  | 0, _, _, _ => .error (.err .fuel)
  | n + 1, cmd, h, s =>
    if peek s ['&'] then
      let (cmd, h) := malloc h (.back cmd)
      parseamps n cmd h (gettoken s.skip).s
    else .ok (cmd, h, s.skip)

mutual

/-- `parseline`. -/
def parseline : Nat → Heap → Cur → Except Crash (Nat × Heap × Cur)
  | 0, _, _ => .error (.err .fuel)
  | n + 1, h, s => do
    let (cmd, h, s) ← parsepipe n h s
    let (cmd, h, s) ← parseamps n cmd h s
    if peek s [';'] then
      let (right, h, s) ← parseline n h (gettoken s.skip).s
      let (cmd, h) := malloc h (.list cmd right)
      .ok (cmd, h, s)
    else .ok (cmd, h, s.skip)

/-- `parsepipe`. -/
def parsepipe : Nat → Heap → Cur → Except Crash (Nat × Heap × Cur)
  | 0, _, _ => .error (.err .fuel)
  | n + 1, h, s => do
    let (cmd, h, s) ← parseexec n h s
    if peek s ['|'] then
      let (right, h, s) ← parsepipe n h (gettoken s.skip).s
      let (cmd, h) := malloc h (.pipe cmd right)
      .ok (cmd, h, s)
    else .ok (cmd, h, s.skip)

/-- `parseexec`. -/
def parseexec : Nat → Heap → Cur → Except Crash (Nat × Heap × Cur)
  | 0, _, _ => .error (.err .fuel)
  | n + 1, h, s =>
    if peek s ['('] then parseblock n h s.skip
    else do
      let (cmd, h) := execcmd h
      let (ret, h, s) ← parseredirs n cmd h s.skip
      parseargs n cmd 0 ret h s

/-- `parseblock`. -/
def parseblock : Nat → Heap → Cur → Except Crash (Nat × Heap × Cur)
  | 0, _, _ => .error (.err .fuel)
  | n + 1, h, s =>
    if peek s ['('] then do
      let (cmd, h, s) ← parseline n h (gettoken s.skip).s
      if peek s [')'] then parseredirs n cmd h (gettoken s.skip).s
      else .error (.err (.panic "syntax - missing )"))
    else .error (.err (.panic "parseblock"))

end

/-- `*p = 0`. -/
def putNul (b : List Char) (p : Nat) : Except Crash (List Char) :=
  if p < b.length then .ok (b.set p '\x00') else .error .bounds

/-- `for(i = 0; ecmd->argv[i]; i++) *ecmd->eargv[i] = 0`. -/
def nulargs (argv eargv : List (Option Nat)) : Nat → Nat → List Char → Except Crash (List Char)
  | 0, _, _ => .error (.err .fuel)
  | k + 1, i, b =>
    match argv[i]?, eargv[i]? with
    | some none, _ => .ok b
    | some (some _), some (some e) => do
      let b ← putNul b e
      nulargs argv eargv k (i + 1) b
    | _, _ => .error .bounds

/-- `nulterminate`. -/
def nulterminate (h : Heap) : Nat → Nat → List Char → Except Crash (List Char)
  | 0, _, _ => .error (.err .fuel)
  | n + 1, cmd, b =>
    match h[cmd]? with
    | some (.exec argv eargv) => nulargs argv eargv (MAXARGS + 1) 0 b
    | some (.redir cmd _ efile _ _) => do
      let b ← nulterminate h n cmd b
      putNul b efile
    | some (.pipe left right) => do
      let b ← nulterminate h n left b
      nulterminate h n right b
    | some (.list left right) => do
      let b ← nulterminate h n left b
      nulterminate h n right b
    | some (.back cmd) => nulterminate h n cmd b
    | none => .error .bounds

/-- `parsecmd`: the root, the nodes and the line after it. -/
def parsecmd (n : Nat) (s : List Char) : Except Crash (Nat × Heap × List Char) := do
  let (cmd, h, cur) ← parseline n [] ⟨0, s⟩
  if cur.skip.rest ≠ [] then .error (.err (.panic "syntax"))
  else
    let b ← nulterminate h h.length cmd (s ++ ['\x00'])
    .ok (cmd, h, b)

/-! ## The layout of a tree -/

/-- An array of `MAXARGS` pointers that begins with those of `l`. -/
def ptrs (l : List Nat) : List (Option Nat) := l.map some ++ List.replicate (MAXARGS - l.length) none

/-- How many nodes of a tree are allocated before its root. -/
def below : Cmd → Nat
  | .exec _ => 0
  | .redir c _ _ _ => below c + 1
  | .pipe l r => below l + 1 + (below r + 1)
  | .list l r => below l + 1 + (below r + 1)
  | .back c => below c + 1

/-- The nodes of a tree that is allocated from place `b` on; the root is at `b + below c`. -/
def layout (b : Nat) : Cmd → Heap
  | .exec ws => [.exec (ptrs (ws.map Word.q)) (ptrs (ws.map Word.eq))]
  | .redir c w mode fd => layout b c ++ [.redir (b + below c) w.q w.eq mode fd]
  | .pipe l r =>
    layout b l ++ (layout (b + below l + 1) r ++ [.pipe (b + below l) (b + below l + 1 + below r)])
  | .list l r =>
    layout b l ++ (layout (b + below l + 1) r ++ [.list (b + below l) (b + below l + 1 + below r)])
  | .back c => layout b c ++ [.back (b + below c)]

@[simp] theorem length_layout (b : Nat) (c : Cmd) : (layout b c).length = below c + 1 := by
  induction c generalizing b with
  | exec ws => rfl
  | redir c w mode fd ih => simp [layout, below, ih]
  | pipe l r ihl ihr => simp [layout, below, ihl, ihr]; omega
  | list l r ihl ihr => simp [layout, below, ihl, ihr]; omega
  | back c ih => simp [layout, below, ih]

/-- The nodes of redirections around the node at `p`. -/
def chain (p : Nat) : List Redir → Heap
  | [] => []
  | r :: rs => .redir p r.file.q r.file.eq r.mode r.fd :: chain (p + 1) rs

theorem layout_redirs (b : Nat) (c : Cmd) (rs : List Redir) :
    layout b (c.redirs rs) = layout b c ++ chain (b + below c) rs := by
  induction rs generalizing c with
  | nil => simp [Cmd.redirs, chain]
  | cons r rs ih =>
    have h : c.redirs (r :: rs) = (Cmd.redir c r.file r.mode r.fd).redirs rs := rfl
    rw [h, ih, chain]
    simp [layout, below, Nat.add_assoc]

theorem redirs_snoc (c : Cmd) (rs : List Redir) (r : Redir) :
    c.redirs (rs ++ [r]) = .redir (c.redirs rs) r.file r.mode r.fd := by
  simp [Cmd.redirs]

variable {l : List Nat} {ws : List Word} {c : Cmd} {i : Nat} {b s : List Char}

theorem ptrs_set (hl : l.length < MAXARGS) (x : Nat) : (ptrs l).set l.length (some x) = ptrs (l ++ [x]) := by
  obtain ⟨k, hk⟩ : ∃ k, MAXARGS - l.length = k + 1 := ⟨MAXARGS - l.length - 1, by omega⟩
  have hk' : MAXARGS - (l.length + 1) = k := by omega
  simp [ptrs, List.set_append_right, hk, hk', List.replicate_succ]

theorem ptrs_set_none (hl : l.length < MAXARGS) : (ptrs l).set l.length none = ptrs l := by
  obtain ⟨k, hk⟩ : ∃ k, MAXARGS - l.length = k + 1 := ⟨MAXARGS - l.length - 1, by omega⟩
  simp [ptrs, List.set_append_right, hk, List.replicate_succ]

/-! ## The parser in memory returns the layout -/

/-- What the parser in memory returns where the parser of trees returns `r`. -/
def placed (h : Heap) : Except Err (Cmd × Cur) → Except Crash (Nat × Heap × Cur)
  | .ok (c, s) => .ok (h.length + below c, h ++ layout h.length c, s)
  | .error e => .error (.err e)

theorem parseredirs_eq (n : Nat) (h : Heap) (c : Cmd) (rs : List Redir) (s : Cur) :
    parseredirs n (h.length + below (c.redirs rs)) (h ++ layout h.length (c.redirs rs)) s =
      placed h ((Sh.parseredirs n rs s).map fun x => (c.redirs x.1, x.2)) := by
  induction n generalizing rs s with
  | zero => rfl
  | succ n ih =>
    -- one more redirection is one more node
    have hnew : ∀ (f : Got) (mode fd : Nat),
        parseredirs n (malloc (h ++ layout h.length (c.redirs rs))
            (.redir (h.length + below (c.redirs rs)) f.q f.eq mode fd)).1
          (malloc (h ++ layout h.length (c.redirs rs))
            (.redir (h.length + below (c.redirs rs)) f.q f.eq mode fd)).2 f.s =
        placed h ((Sh.parseredirs n (rs ++ [⟨f.word, mode, fd⟩]) f.s).map fun x => (c.redirs x.1, x.2)) := by
      intro f mode fd
      rw [← ih, redirs_snoc]
      simp [malloc, layout, below, Got.word]
    rw [parseredirs, Sh.parseredirs]
    by_cases hp : peek s ['<', '>'] = true
    · simp only [hp, if_true]
      split
      · rfl
      · split
        · exact hnew _ _ _
        · split
          · exact hnew _ _ _
          · split
            · exact hnew _ _ _
            · exact ih rs _
    · simp only [hp]
      rfl

/-- The store of an argument into the node with `ws`, around which are the redirections `rs`. -/
theorem setArg_eq (hws : ws.length < MAXARGS) (h : Heap) (rs : List Redir) (w : Word) :
    setArg (h ++ layout h.length ((Cmd.exec ws).redirs rs)) h.length ws.length (some w.q) (some w.eq) =
      .ok (h ++ layout h.length ((Cmd.exec (ws ++ [w])).redirs rs)) := by
  have hq := ptrs_set (l := ws.map Word.q) (by simpa using hws) w.q
  have heq := ptrs_set (l := ws.map Word.eq) (by simpa using hws) w.eq
  rw [List.length_map] at hq heq
  simp [setArg, layout_redirs, layout, below, hws, hq, heq]

theorem setArg_none (hws : ws.length < MAXARGS) (h : Heap) (rs : List Redir) :
    setArg (h ++ layout h.length ((Cmd.exec ws).redirs rs)) h.length ws.length none none =
      .ok (h ++ layout h.length ((Cmd.exec ws).redirs rs)) := by
  have hq := ptrs_set_none (l := ws.map Word.q) (by simpa using hws)
  have heq := ptrs_set_none (l := ws.map Word.eq) (by simpa using hws)
  rw [List.length_map] at hq heq
  simp [setArg, layout_redirs, layout, below, hws, hq, heq]

theorem parseargs_eq (n : Nat) (h : Heap) (hws : ws.length < MAXARGS) (rs : List Redir) (s : Cur) :
    parseargs n h.length ws.length (h.length + below ((Cmd.exec ws).redirs rs))
        (h ++ layout h.length ((Cmd.exec ws).redirs rs)) s =
      placed h (Sh.parseargs n ws rs s) := by
  induction n generalizing ws rs s with
  | zero => rfl
  | succ n ih =>
    rw [parseargs, Sh.parseargs]
    by_cases hp : peek s ['|', ')', '&', ';'] = true
    · simp only [hp, if_true, setArg_none hws]
      rfl
    · simp only [hp, Bool.false_eq_true, if_false]
      split
      · rw [setArg_none hws]
        rfl
      · split
        · rfl
        · have hset := setArg_eq hws h rs (gettoken s.skip).word
          simp only [Got.word] at hset
          rw [hset]
          by_cases hmax : ws.length + 1 ≥ MAXARGS
          · rw [if_pos hmax]
            show (if ws.length + 1 ≥ MAXARGS then _ else _) = _
            rw [if_pos hmax]
            rfl
          · rw [if_neg hmax]
            show (if ws.length + 1 ≥ MAXARGS then _ else _) = _
            rw [if_neg hmax]
            -- the node has moved on by one argument, the pointer to it has not changed
            have hbelow : below ((Cmd.exec ws).redirs rs) =
                below ((Cmd.exec (ws ++ [(gettoken s.skip).word])).redirs rs) := by
              have h1 := length_layout 0 ((Cmd.exec ws).redirs rs)
              have h2 := length_layout 0 ((Cmd.exec (ws ++ [(gettoken s.skip).word])).redirs rs)
              rw [layout_redirs] at h1 h2
              simp [layout, below] at h1 h2
              omega
            have hr := parseredirs_eq n h (.exec (ws ++ [(gettoken s.skip).word])) rs (gettoken s.skip).s
            simp only [Got.word] at hbelow hr
            rw [hbelow, hr]
            cases Sh.parseredirs n rs (gettoken s.skip).s with
            | error e => rfl
            | ok x =>
              have hargs : (ws ++ [(gettoken s.skip).word]).length < MAXARGS := by
                simp
                omega
              have := ih hargs x.1 x.2
              rw [List.length_append] at this
              exact this

theorem parseamps_eq (n : Nat) (h : Heap) (c : Cmd) (s : Cur) :
    parseamps n (h.length + below c) (h ++ layout h.length c) s = placed h (Sh.parseamps n c s) := by
  induction n generalizing c s with
  | zero => rfl
  | succ n ih =>
    rw [parseamps, Sh.parseamps]
    by_cases hp : peek s ['&'] = true
    · simp only [hp, if_true]
      rw [← ih]
      simp [malloc, layout, below]
    · simp only [hp]
      rfl

theorem parse_eq (n : Nat) : (∀ h s, parseline n h s = placed h (Sh.parseline n s)) ∧
    (∀ h s, parsepipe n h s = placed h (Sh.parsepipe n s)) ∧ (∀ h s, parseexec n h s = placed h (Sh.parseexec n s)) ∧
    (∀ h s, parseblock n h s = placed h (Sh.parseblock n s)) := by
  induction n with
  | zero => exact ⟨fun _ _ => rfl, fun _ _ => rfl, fun _ _ => rfl, fun _ _ => rfl⟩
  | succ n ih =>
    obtain ⟨ihl, ihp, ihe, ihb⟩ := ih
    refine ⟨fun h s => ?_, fun h s => ?_, fun h s => ?_, fun h s => ?_⟩
    · rw [parseline, Sh.parseline, ihp]
      cases Sh.parsepipe n s with
      | error e => rfl
      | ok x =>
        show (parseamps n (h.length + below x.1) (h ++ layout h.length x.1) x.2 >>= _) = _
        rw [parseamps_eq]
        show _ = placed h (Sh.parseamps n x.1 x.2 >>= _)
        cases Sh.parseamps n x.1 x.2 with
        | error e => rfl
        | ok y =>
          show (if peek y.2 [';'] = true then _ else _) = placed h (if peek y.2 [';'] = true then _ else _)
          by_cases hp : peek y.2 [';'] = true
          · rw [if_pos hp, if_pos hp, ihl]
            cases Sh.parseline n (gettoken y.2.skip).s with
            | error e => rfl
            | ok z => simp [placed, malloc, layout, below, bind, Except.bind, Nat.add_assoc]
          · rw [if_neg hp, if_neg hp]
            rfl
    · rw [parsepipe, Sh.parsepipe, ihe]
      cases Sh.parseexec n s with
      | error e => rfl
      | ok y =>
        show (if peek y.2 ['|'] = true then _ else _) = placed h (if peek y.2 ['|'] = true then _ else _)
        by_cases hp : peek y.2 ['|'] = true
        · rw [if_pos hp, if_pos hp, ihp]
          cases Sh.parsepipe n (gettoken y.2.skip).s with
          | error e => rfl
          | ok z => simp [placed, malloc, layout, below, bind, Except.bind, Nat.add_assoc]
        · rw [if_neg hp, if_neg hp]
          rfl
    · rw [parseexec, Sh.parseexec]
      by_cases hp : peek s ['('] = true
      · rw [if_pos hp, if_pos hp, ihb]
      · rw [if_neg hp, if_neg hp]
        have hr : parseredirs n h.length (h ++ layout h.length (.exec [])) s.skip = _ :=
          parseredirs_eq n h (.exec []) [] s.skip
        show (parseredirs n h.length (h ++ layout h.length (.exec [])) s.skip >>= _) = _
        rw [hr]
        cases Sh.parseredirs n [] s.skip with
        | error e => rfl
        | ok x => exact parseargs_eq n h (show ([] : List Word).length < MAXARGS by decide) x.1 x.2
    · rw [parseblock, Sh.parseblock]
      by_cases hp : peek s ['('] = true
      · rw [if_pos hp, if_pos hp, ihl]
        cases Sh.parseline n (gettoken s.skip).s with
        | error e => rfl
        | ok y =>
          show (if peek y.2 [')'] = true then _ else _) = placed h (if peek y.2 [')'] = true then _ else _)
          by_cases hp : peek y.2 [')'] = true
          · rw [if_pos hp, if_pos hp]
            have hr := parseredirs_eq n h y.1 [] (gettoken y.2.skip).s
            show parseredirs n (h.length + below (y.1.redirs [])) (h ++ layout h.length (y.1.redirs [])) _ = _
            rw [hr]
            cases Sh.parseredirs n [] (gettoken y.2.skip).s <;> rfl
          · rw [if_neg hp, if_neg hp]
            rfl
      · rw [if_neg hp, if_neg hp]
        rfl

/-! ## `nulterminate` in memory -/

/-- Every array of the tree has room for the null pointer. -/
def Fits : Cmd → Prop
  | .exec ws => ws.length < MAXARGS
  | .redir c _ _ _ => Fits c
  | .pipe l r => Fits l ∧ Fits r
  | .list l r => Fits l ∧ Fits r
  | .back c => Fits c

theorem fits_redirs (c : Cmd) (rs : List Redir) : Fits (c.redirs rs) ↔ Fits c := by
  induction rs generalizing c with
  | nil => rfl
  | cons r rs ih => exact ih (.redir c r.file r.mode r.fd)

theorem fits_backs (c : Cmd) (k : Nat) : Fits (c.backs k) ↔ Fits c := by
  induction k generalizing c with
  | zero => rfl
  | succ k ih => exact ih (.back c)

theorem fits_of_derives {nt : Nt} {l : List Tok} (h : Derives nt l c) : Fits c := by
  induction h with
  | line k h ih => exact (fits_backs _ k).mpr ih
  | list k h h' ih ih' => exact ⟨(fits_backs _ k).mpr ih, ih'⟩
  | one h ih => exact ih
  | pipe h h' ih ih' => exact ⟨ih, ih'⟩
  | block h hr ih => exact (fits_redirs _ _).mpr ih
  | simple hr h hn => exact (fits_redirs _ _).mpr (Nat.lt_of_le_of_lt hn (by decide))

theorem ptrs_lt (h : i < l.length) : (ptrs l)[i]? = some (some l[i]) := by
  rw [ptrs, List.getElem?_append_left (by simpa using h)]
  simp [h]

theorem ptrs_length (h : l.length < MAXARGS) : (ptrs l)[l.length]? = some none := by
  rw [ptrs, List.getElem?_append_right (by simp)]
  simp [Nat.sub_pos_of_lt h]

theorem putNul_eq {p : Nat} (h : p < b.length) : putNul b p = .ok (b.set p '\x00') := if_pos h

theorem nulargs_eq (hws : ws.length < MAXARGS) {k : Nat} (hi : i ≤ ws.length)
    (hk : ws.length < i + k) (hb : ∀ w ∈ ws, w.eq < b.length) :
    nulargs (ptrs (ws.map Word.q)) (ptrs (ws.map Word.eq)) k i b =
      .ok ((ws.drop i).foldl (fun b w => b.set w.eq '\x00') b) := by
  induction k generalizing i b with
  | zero => omega
  | succ k ih =>
    rw [nulargs]
    rcases Nat.lt_or_ge i ws.length with hlt | hge
    · have hq := ptrs_lt (l := ws.map Word.q) (i := i) (by simpa using hlt)
      have heq := ptrs_lt (l := ws.map Word.eq) (i := i) (by simpa using hlt)
      rw [List.getElem_map] at hq heq
      simp only [hq, heq, putNul_eq (hb _ (List.getElem_mem hlt))]
      show nulargs _ _ k (i + 1) _ = _
      rw [ih hlt (by omega) (by simpa using hb), List.drop_eq_getElem_cons hlt, List.foldl_cons]
    · obtain rfl : i = ws.length := by omega
      have hq := ptrs_length (l := ws.map Word.q) (by simpa using hws)
      rw [List.length_map] at hq
      simp [hq]

theorem length_nulterminate (c : Cmd) (b : List Char) : (Sh.nulterminate c b).length = b.length := by
  rw [nulterminate_eq]
  induction c.words generalizing b with
  | nil => rfl
  | cons w ws ih => rw [List.foldl_cons, ih, List.length_set]

/-- `nulterminate` makes the strings of `c`, wherever its nodes are in the heap. -/
def NulOk (c : Cmd) : Prop :=
  ∀ (h₁ h₂ : Heap) (n : Nat) (b : List Char), below c < n → (∀ w ∈ c.words, w.eq < b.length) →
    nulterminate (h₁ ++ (layout h₁.length c ++ h₂)) n (h₁.length + below c) b = .ok (Sh.nulterminate c b)

/-- Two trees, one after the other. -/
theorem NulOk.both {l r : Cmd} (hl : NulOk l) (hr : NulOk r) (h₁ h₂ : Heap) {n : Nat}
    (hnl : below l < n) (hnr : below r < n) (hb : ∀ w ∈ l.words ++ r.words, w.eq < b.length) :
    (nulterminate (h₁ ++ (layout h₁.length l ++ (layout (h₁.length + below l + 1) r ++ h₂))) n
        (h₁.length + below l) b >>=
      nulterminate (h₁ ++ (layout h₁.length l ++ (layout (h₁.length + below l + 1) r ++ h₂))) n
        (h₁.length + below l + 1 + below r)) = .ok (Sh.nulterminate r (Sh.nulterminate l b)) := by
  have hlen : (h₁ ++ layout h₁.length l).length = h₁.length + below l + 1 := by
    simp [Nat.add_assoc]
  have h2 := hr (h₁ ++ layout h₁.length l) h₂ n (Sh.nulterminate l b) hnr fun w hw => by
    rw [length_nulterminate]
    exact hb w (List.mem_append_right _ hw)
  rw [hl h₁ _ n b hnl fun w hw => hb w (List.mem_append_left _ hw)]
  rw [hlen, List.append_assoc] at h2
  exact h2

theorem nulterminate_layout (hf : Fits c) : NulOk c := by
  induction c with
  | exec ws =>
    intro h₁ h₂ n b hn hb
    obtain ⟨n, rfl⟩ : ∃ m, n = m + 1 := ⟨n - 1, by omega⟩
    have hget : (h₁ ++ (layout h₁.length (.exec ws) ++ h₂))[h₁.length + below (.exec ws)]? =
        some (.exec (ptrs (ws.map Word.q)) (ptrs (ws.map Word.eq))) := by
      simp [layout, below]
    have hf : ws.length < MAXARGS := hf
    simp only [nulterminate, hget]
    rw [nulargs_eq hf (Nat.zero_le _) (by omega) hb, List.drop_zero, Sh.nulterminate]
  | redir c w mode fd ih =>
    intro h₁ h₂ n b hn hb
    obtain ⟨n, rfl⟩ : ∃ m, n = m + 1 := ⟨n - 1, by omega⟩
    have hget : (h₁ ++ (layout h₁.length (.redir c w mode fd) ++ h₂))[h₁.length + below (.redir c w mode fd)]? =
        some (.redir (h₁.length + below c) w.q w.eq mode fd) := by
      simp [layout, below]
    have hbc : ∀ v ∈ c.words, v.eq < b.length := fun v hv => hb v (List.mem_append_left _ hv)
    have hbw : w.eq < (Sh.nulterminate c b).length := by
      rw [length_nulterminate]
      exact hb w (List.mem_append_right _ (List.mem_singleton_self w))
    rw [below] at hn
    have hc := ih hf h₁ (.redir (h₁.length + below c) w.q w.eq mode fd :: h₂) n b (by omega) hbc
    simp only [nulterminate, hget]
    rw [layout, List.append_assoc, List.singleton_append, hc]
    exact putNul_eq hbw
  | pipe l r ihl ihr =>
    intro h₁ h₂ n b hn hb
    obtain ⟨n, rfl⟩ : ∃ m, n = m + 1 := ⟨n - 1, by omega⟩
    have hget : (h₁ ++ (layout h₁.length (.pipe l r) ++ h₂))[h₁.length + below (.pipe l r)]? =
        some (.pipe (h₁.length + below l) (h₁.length + below l + 1 + below r)) := by
      simp [layout, below]
    rw [below] at hn
    simp only [nulterminate, hget]
    rw [layout, List.append_assoc, List.append_assoc]
    exact (ihl hf.1).both (ihr hf.2) h₁ _ (by omega) (by omega) hb
  | list l r ihl ihr =>
    intro h₁ h₂ n b hn hb
    obtain ⟨n, rfl⟩ : ∃ m, n = m + 1 := ⟨n - 1, by omega⟩
    have hget : (h₁ ++ (layout h₁.length (.list l r) ++ h₂))[h₁.length + below (.list l r)]? =
        some (.list (h₁.length + below l) (h₁.length + below l + 1 + below r)) := by
      simp [layout, below]
    rw [below] at hn
    simp only [nulterminate, hget]
    rw [layout, List.append_assoc, List.append_assoc]
    exact (ihl hf.1).both (ihr hf.2) h₁ _ (by omega) (by omega) hb
  | back c ih =>
    intro h₁ h₂ n b hn hb
    obtain ⟨n, rfl⟩ : ∃ m, n = m + 1 := ⟨n - 1, by omega⟩
    have hget : (h₁ ++ (layout h₁.length (.back c) ++ h₂))[h₁.length + below (.back c)]? =
        some (.back (h₁.length + below c)) := by
      simp [layout, below]
    rw [below] at hn
    have hc := ih hf h₁ (.back (h₁.length + below c) :: h₂) n b (by omega) hb
    simp only [nulterminate, hget]
    rw [layout, List.append_assoc, List.singleton_append, hc, Sh.nulterminate]

/-! ## Every command -/

/-- The end of a word token is a byte of the line or the NUL behind it. -/
theorem eq_lt_of_word {w : Word} (h : .word w ∈ tokens 0 s) : w.eq < (s ++ ['\x00']).length := by
  obtain ⟨-, -, h3⟩ := word_bounds h
  rw [Nat.zero_add] at h3
  rw [List.length_append, List.length_singleton]
  omega

/-- The parser in memory is the parser of trees: it accepts the same commands with the same errors, returns
the layout of the tree and leaves the same line. -/
theorem parsecmd_eq (n : Nat) (s : List Char) :
    parsecmd n s =
      match Sh.parsecmd n s with
      | .ok (c, b) => .ok (below c, layout 0 c, b)
      | .error e => .error (.err e) := by
  have hline := (parse_eq n).1 [] ⟨0, s⟩
  rw [parsecmd, hline]
  cases hp : Sh.parseline n ⟨0, s⟩ with
  | error e => simp [Sh.parsecmd, hp, placed, bind, Except.bind]
  | ok x =>
    obtain ⟨c, cur⟩ := x
    by_cases hr : cur.skip.rest = []
    · have hcmd : Sh.parsecmd n s = .ok (c, Sh.nulterminate c (s ++ ['\x00'])) := by
        simp [Sh.parsecmd, hp, hr, bind, Except.bind]
      obtain ⟨hd, -⟩ := parsecmd_sound hcmd
      have hnul := nulterminate_layout (fits_of_derives hd) [] [] (below c + 1) (s ++ ['\x00']) (by omega)
        fun w hw => eq_lt_of_word (hd.mem w hw)
      simp only [List.nil_append, List.append_nil, List.length_nil, Nat.zero_add] at hnul
      simp [hcmd, placed, hr, bind, Except.bind, hnul]
    · simp [Sh.parsecmd, hp, placed, hr, bind, Except.bind]

/-- The strings of the arguments and of the file of a node: the arguments are followed by a null pointer, and
the C string at each of the pointers is the text of a word token. -/
def Node.Strings (s b : List Char) : Node → Prop
  | .exec argv eargv =>
    argv.length = MAXARGS ∧ eargv.length = MAXARGS ∧
      ∃ argc < MAXARGS, argv[argc]? = some none ∧
        ∀ i < argc, ∃ w, argv[i]? = some (some w.q) ∧ eargv[i]? = some (some w.eq) ∧
          .word w ∈ tokens 0 s ∧ cstring b w.q = w.text s
  | .redir _ file efile _ _ => ∃ w : Word, file = w.q ∧ efile = w.eq ∧ .word w ∈ tokens 0 s ∧ cstring b w.q = w.text s
  | _ => True

theorem strings_layout (hf : Fits c) (hw : ∀ w ∈ c.words, .word w ∈ tokens 0 s ∧ cstring b w.q = w.text s) (i : Nat) :
    ∀ x ∈ layout i c, x.Strings s b := by
  induction c generalizing i with
  | exec ws =>
    intro x hx
    obtain rfl := List.mem_singleton.mp hx
    have hf : ws.length < MAXARGS := hf
    have hq := ptrs_length (l := ws.map Word.q) (by simpa using hf)
    rw [List.length_map] at hq
    refine ⟨?_, ?_, ws.length, hf, hq, ?_⟩
    · simp [ptrs]; omega
    · simp [ptrs]; omega
    · intro i hi
      refine ⟨ws[i], ?_, ?_, hw _ (List.getElem_mem hi)⟩
      · rw [ptrs_lt (by simpa using hi), List.getElem_map]
      · rw [ptrs_lt (by simpa using hi), List.getElem_map]
  | redir c w mode fd ih =>
    intro x hx
    rcases List.mem_append.mp hx with hx | hx
    · exact ih hf (fun v hv => hw v (List.mem_append_left _ hv)) i x hx
    · obtain rfl := List.mem_singleton.mp hx
      exact ⟨w, rfl, rfl, hw w (List.mem_append_right _ (List.mem_singleton_self w))⟩
  | pipe l r ihl ihr =>
    intro x hx
    rcases List.mem_append.mp hx with hx | hx
    · exact ihl hf.1 (fun v hv => hw v (List.mem_append_left _ hv)) i x hx
    · rcases List.mem_append.mp hx with hx | hx
      · exact ihr hf.2 (fun v hv => hw v (List.mem_append_right _ hv)) _ x hx
      · obtain rfl := List.mem_singleton.mp hx
        trivial
  | list l r ihl ihr =>
    intro x hx
    rcases List.mem_append.mp hx with hx | hx
    · exact ihl hf.1 (fun v hv => hw v (List.mem_append_left _ hv)) i x hx
    · rcases List.mem_append.mp hx with hx | hx
      · exact ihr hf.2 (fun v hv => hw v (List.mem_append_right _ hv)) _ x hx
      · obtain rfl := List.mem_singleton.mp hx
        trivial
  | back c ih =>
    intro x hx
    rcases List.mem_append.mp hx with hx | hx
    · exact ih hf hw i x hx
    · obtain rfl := List.mem_singleton.mp hx
      trivial

/-- A byte that `nulterminate` changes is behind a word, and in no word. -/
theorem nulterminate_outside (hw : ∀ w ∈ c.words, .word w ∈ tokens 0 s)
    (h : (Sh.nulterminate c (s ++ ['\x00']))[i]? ≠ (s ++ ['\x00'])[i]?) :
    ∀ w, .word w ∈ tokens 0 s → ¬ (w.q ≤ i ∧ i < w.eq) := by
  rw [nulterminate_eq, getElem?_nuls] at h
  obtain ⟨-, v, hv, rfl⟩ := Classical.byContradiction fun hn => h (if_neg hn)
  intro w hmem
  obtain ⟨-, h2, -⟩ := word_bounds (hw v hv)
  rcases word_apart (hw v hv) hmem with rfl | h | h
  · omega
  · omega
  · omega

/-- **`nulterminate` yields exactly the tokens.** If `parsecmd` accepts the line `s`, then in every node that
it has allocated each argument and each file is, as a C string in the line that `nulterminate` leaves, the
word token it was parsed from, with a null pointer behind the arguments; and no byte of a word is changed. -/
theorem nulterminate_tokens (s : List Char) (h0 : '\x00' ∉ s) (n : Nat) (p : Nat) (h : Heap) (b : List Char)
    (hp : parsecmd n s = .ok (p, h, b)) :
    (∀ x ∈ h, x.Strings s b) ∧ b.length = s.length + 1 ∧
      ∀ i, b[i]? ≠ (s ++ ['\x00'])[i]? → ∀ w, .word w ∈ tokens 0 s → ¬ (w.q ≤ i ∧ i < w.eq) := by
  rw [parsecmd_eq] at hp
  cases hc : Sh.parsecmd n s with
  | error e => simp [hc] at hp
  | ok x =>
    obtain ⟨c, b'⟩ := x
    simp only [hc, Except.ok.injEq, Prod.mk.injEq] at hp
    obtain ⟨-, rfl, rfl⟩ := hp
    obtain ⟨hd, rfl⟩ := parsecmd_sound hc
    have hstr := cstring_nulterminate h0 hd.mem
    refine ⟨strings_layout (fits_of_derives hd) (fun w hw => ⟨hd.mem w hw, hstr w hw⟩) 0, ?_, ?_⟩
    · rw [length_nulterminate, List.length_append, List.length_singleton]
    · intro i hi
      exact nulterminate_outside hd.mem hi

/-- `a>f;b` after `nulterminate`. -/
theorem nulterminate_tokens_redir :
    parsecmd 30 "a>f;b".toList = .ok (3, layout 0 (.list (.redir (.exec [⟨0, 1⟩]) ⟨2, 3⟩ 0x601 1) (.exec [⟨4, 5⟩])),
      "a\x00f\x00b\x00".toList) ∧
    (Node.redir 0 2 3 0x601 1).Strings "a>f;b".toList "a\x00f\x00b\x00".toList := by
  have h : parsecmd 30 "a>f;b".toList = .ok (3, layout 0 (.list (.redir (.exec [⟨0, 1⟩]) ⟨2, 3⟩ 0x601 1)
      (.exec [⟨4, 5⟩])), "a\x00f\x00b\x00".toList) := by
    decide +kernel
  exact ⟨h, (nulterminate_tokens _ (by decide) 30 _ _ _ h).1 _ (by decide)⟩

end Mem

end Xv6.Sh
