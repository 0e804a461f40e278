import Xv6.Sh.Parse

/-!
# The grammar of the shell

The tokens of a command (`tokens`), and the grammar over them (`Derives`), with the tree of each
derivation:

    line  := pipe '&'* [';' line]
    pipe  := exec ['|' pipe]
    exec  := '(' line ')' redir* | redir* (word redir*)*
    redir := ('<' | '>' | '>>') word

A word token is the place of the word in the command. The rest of the module says what `gettoken` and
`peek` are in terms of the tokens from the cursor on.
-/

namespace Xv6.Sh

/-! ## Tokens -/

inductive Tok where
  | sym (c : Char)
  /-- `>>` -/
  | app
  | word (w : Word)
  deriving DecidableEq, Repr

/-- A character of a word. -/
def inWord (c : Char) : Bool := !whitespace c && !symbols c

/-- The tokens of the bytes `s`, which stand at offset `i`: a word is a maximal run of bytes that are
neither white space nor symbols. -/
def tokens (i : Nat) : List Char → List Tok
  | [] => []
  | c :: s =>
    if whitespace c then tokens (i + 1) s
    else if c = '>' ∧ s.head? = some '>' then .app :: tokens (i + 2) s.tail
    else if symbols c then .sym c :: tokens (i + 1) s
    else
      let n := (s.takeWhile inWord).length
      .word ⟨i, i + 1 + n⟩ :: tokens (i + 1 + n) (s.drop n)
termination_by s => s.length
decreasing_by all_goals (simp only [List.length_cons, List.length_tail, List.length_drop]; omega)

/-- The text of a word. -/
def Word.text (s : List Char) (w : Word) : List Char := (s.drop w.q).take (w.eq - w.q)

/-! ## The grammar -/

/-- `redir`: the token in front of the file. -/
inductive IsRedir : Tok → Nat → Nat → Prop
  | lt : IsRedir (.sym '<') O_RDONLY 0
  | gt : IsRedir (.sym '>') (O_WRONLY ||| O_CREATE ||| O_TRUNC) 1
  | app : IsRedir .app (O_WRONLY ||| O_CREATE) 1

/-- `redir*`. -/
inductive Redirs : List Tok → List Redir → Prop
  | nil : Redirs [] []
  | cons {t : Tok} {mode fd : Nat} {w : Word} {l : List Tok} {rs : List Redir} (ht : IsRedir t mode fd)
      (h : Redirs l rs) : Redirs (t :: .word w :: l) (⟨w, mode, fd⟩ :: rs)

/-- `(word redir*)*`. -/
inductive Args : List Tok → List Word → List Redir → Prop
  | nil : Args [] [] []
  | cons {w : Word} {r l : List Tok} {rs rs' : List Redir} {ws : List Word} (hr : Redirs r rs)
      (h : Args l ws rs') : Args (.word w :: (r ++ l)) (w :: ws) (rs ++ rs')

/-- The symbols of the grammar. -/
inductive Nt where
  | line
  | pipe
  | exec

/-- `'&'*`: one `BACK` for each. -/
def Cmd.backs (c : Cmd) : Nat → Cmd
  | 0 => c
  | k + 1 => (Cmd.back c).backs k

/-- The derivations, with their trees. -/
inductive Derives : Nt → List Tok → Cmd → Prop
  | line {l : List Tok} {c : Cmd} (k : Nat) (h : Derives .pipe l c) :
      Derives .line (l ++ List.replicate k (.sym '&')) (c.backs k)
  | list {l l' : List Tok} {c c' : Cmd} (k : Nat) (h : Derives .pipe l c) (h' : Derives .line l' c') :
      Derives .line (l ++ (List.replicate k (.sym '&') ++ .sym ';' :: l')) (.list (c.backs k) c')
  | one {l : List Tok} {c : Cmd} (h : Derives .exec l c) : Derives .pipe l c
  | pipe {l l' : List Tok} {c c' : Cmd} (h : Derives .exec l c) (h' : Derives .pipe l' c') :
      Derives .pipe (l ++ .sym '|' :: l') (.pipe c c')
  | block {l r : List Tok} {c : Cmd} {rs : List Redir} (h : Derives .line l c) (hr : Redirs r rs) :
      Derives .exec (.sym '(' :: (l ++ .sym ')' :: r)) (c.redirs rs)
  | simple {r l : List Tok} {rs rs' : List Redir} {ws : List Word} (hr : Redirs r rs) (h : Args l ws rs')
      (hn : ws.length ≤ MAXARGS - 1) : Derives .exec (r ++ l) ((Cmd.exec ws).redirs (rs ++ rs'))

/-! ## `gettoken` and `peek` -/

/-- The tokens from the cursor on. -/
def Cur.toks (s : Cur) : List Tok := tokens s.pos s.rest

variable {i : Nat} {c : Char} {s : Cur} {w : Word}

theorem tokens_white {s : List Char} (h : whitespace c = true) : tokens i (c :: s) = tokens (i + 1) s := by
  rw [tokens, if_pos h]

@[simp] theorem toks_skip (s : Cur) : s.skip.toks = s.toks := by
  obtain ⟨i, r⟩ := s
  induction r generalizing i with
  | nil => rfl
  | cons c r ih =>
    by_cases hc : whitespace c = true
    · have : Cur.skip ⟨i, c :: r⟩ = Cur.skip ⟨i + 1, r⟩ := by simp [Cur.skip, skipWhile, hc]
      rw [this, ih]
      exact (tokens_white hc).symm
    · simp [Cur.skip, skipWhile, hc]

/-- What is at the cursor behind white space. -/
theorem skip_head {r : List Char} (h : s.skip.rest = c :: r) : whitespace c = false := by
  obtain ⟨i, l⟩ := s
  induction l generalizing i with
  | nil => simp [Cur.skip, skipWhile] at h
  | cons d l ih =>
    by_cases hd : whitespace d = true
    · have : Cur.skip ⟨i, d :: l⟩ = Cur.skip ⟨i + 1, l⟩ := by simp [Cur.skip, skipWhile, hd]
      exact ih (i + 1) (this ▸ h)
    · simp only [Cur.skip, skipWhile, hd, Bool.false_eq_true, if_false, List.cons.injEq] at h
      rw [← h.1]
      exact eq_false_of_ne_true hd

theorem skipWhile_eq (p : Char → Bool) (i : Nat) (s : List Char) :
    skipWhile p i s = ⟨i + (s.takeWhile p).length, s.drop (s.takeWhile p).length⟩ := by
  induction s generalizing i with
  | nil => rfl
  | cons c s ih =>
    by_cases hc : p c = true
    · simp only [skipWhile, hc, if_true, ih, List.takeWhile_cons, List.length_cons, List.drop_succ_cons, Cur.mk.injEq,
        and_true]
      omega
    · simp [skipWhile, hc]

/-- What `gettoken` returns for a token. -/
def Tok.ret : Tok → Char
  | .sym c => c
  | .app => '+'
  | .word _ => 'a'

/-- The first character of the token is one of `cs`, which are symbols. -/
def Tok.starts (cs : List Char) : Tok → Bool
  | .sym c => c ∈ cs
  | .app => '>' ∈ cs
  | .word _ => false

/-- The symbols come back as they are. -/
theorem symbols_cases (h : symbols c = true) : c ∈ ['|', '(', ')', ';', '&', '<'] ∨ c = '>' := by
  simp only [symbols, List.mem_cons, List.not_mem_nil, or_false, decide_eq_true_eq] at h ⊢
  tauto

theorem not_symbols (h : symbols c = false) : c ∉ ['|', '(', ')', ';', '&', '<'] ∧ c ≠ '>' := by
  simp only [symbols, List.mem_cons, List.not_mem_nil, or_false, decide_eq_false_iff_not, not_or] at h ⊢
  tauto

/-- `tokens` at a character that is not white space, and `scan` there. -/
theorem scan_spec {r : List Char} (hc : whitespace c = false) :
    ∃ t, tokens i (c :: r) = t :: (scan ⟨i, c :: r⟩).2.toks ∧ (scan ⟨i, c :: r⟩).1 = t.ret ∧
      (∀ w, t = .word w → w = ⟨i, (scan ⟨i, c :: r⟩).2.pos⟩) ∧ (∀ d, t = .sym d → symbols d = true ∧ d = c) ∧
      (t = .app → c = '>') ∧ ((∃ w, t = .word w) → symbols c = false) := by
  cases hs : symbols c with
  | false =>
    obtain ⟨h1, h2⟩ := not_symbols hs
    have hin : inWord c = true := by simp [inWord, hc, hs]
    have hscan : scan ⟨i, c :: r⟩ = ('a', skipWhile inWord i (c :: r)) := by
      simp only [scan, if_neg h1, if_neg h2]
      rfl
    have hskip : skipWhile inWord i (c :: r) =
        ⟨i + 1 + (r.takeWhile inWord).length, r.drop (r.takeWhile inWord).length⟩ := by
      rw [show skipWhile inWord i (c :: r) = skipWhile inWord (i + 1) r by simp [skipWhile, hin], skipWhile_eq]
    refine ⟨.word ⟨i, i + 1 + (r.takeWhile inWord).length⟩, ?_, ?_, ?_, ?_, ?_, ?_⟩
    · rw [hscan, hskip, tokens, if_neg (by simp [hc]), if_neg fun h => h2 h.1, if_neg (by simp [hs])]
      rfl
    · rw [hscan]
      rfl
    · rintro w ⟨⟩
      rw [hscan, hskip]
    · rintro d ⟨⟩
    · rintro ⟨⟩
    · exact fun _ => rfl
  | true =>
    rcases symbols_cases hs with hm | rfl
    · have hne : c ≠ '>' := by
        rintro rfl
        revert hm
        decide
      refine ⟨.sym c, ?_, ?_, by simp, ?_, by simp, by simp⟩
      · rw [tokens, if_neg (by simp [hc]), if_neg fun h => hne h.1, if_pos hs]
        simp only [scan, if_pos hm]
        rfl
      · simp only [scan, if_pos hm]
        rfl
      · rintro d ⟨⟩
        exact ⟨hs, rfl⟩
    · have hm : '>' ∉ ['|', '(', ')', ';', '&', '<'] := by decide
      cases r with
      | nil =>
        refine ⟨.sym '>', ?_, ?_, by simp, ?_, by simp, by simp⟩
        · rw [tokens, if_neg (by simp [hc]), if_neg (by simp), if_pos hs]
          simp only [scan, if_neg hm, if_true]
          rfl
        · simp only [scan, if_neg hm, if_true]
          rfl
        · rintro d ⟨⟩
          exact ⟨hs, rfl⟩
      | cons d r =>
        by_cases hd : d = '>'
        · subst hd
          refine ⟨.app, ?_, ?_, by simp, by simp, by simp, by simp⟩
          · rw [tokens, if_neg (by simp [hc]), if_pos ⟨rfl, rfl⟩]
            simp only [scan, if_neg hm, if_true]
            rfl
          · simp only [scan, if_neg hm, if_true]
            rfl
        · have hscan : scan ⟨i, '>' :: d :: r⟩ = ('>', ⟨i + 1, d :: r⟩) := by
            simp only [scan, if_neg hm, if_true]
            split
            · rename_i h
              simp only [List.cons.injEq] at h
              exact (hd h.1).elim
            · rfl
          refine ⟨.sym '>', ?_, ?_, by simp, ?_, by simp, by simp⟩
          · rw [tokens, if_neg (by simp [hc]), if_neg (by simp [hd]), if_pos hs, hscan]
            rfl
          · rw [hscan]
            rfl
          · rintro e ⟨⟩
            exact ⟨hs, rfl⟩

/-- A cursor with no token left. -/
theorem toks_eq_nil : s.toks = [] ↔ s.skip.rest = [] := by
  rw [← toks_skip]
  cases h : s.skip.rest with
  | nil => simp [Cur.toks, h, tokens]
  | cons c r =>
    obtain ⟨t, ht, -⟩ := scan_spec (i := s.skip.pos) (r := r) (skip_head h)
    simp [Cur.toks, h, ht]

/-- `gettoken` at the end. -/
theorem gettoken_nil (h : s.toks = []) : (gettoken s).ret = '\x00' ∧ (gettoken s).s.toks = [] := by
  have hr := toks_eq_nil.mp h
  simp only [gettoken, scan, hr, toks_skip, h, and_self]

/-- `gettoken` returns the next token. -/
theorem gettoken_cons {t : Tok} {l : List Tok} (h : s.toks = t :: l) :
    (gettoken s).ret = t.ret ∧ (∀ w, t = .word w → w = (gettoken s).word) ∧ (gettoken s).s.toks = l := by
  cases hr : s.skip.rest with
  | nil =>
    rw [toks_eq_nil.mpr hr] at h
    cases h
  | cons c r =>
    obtain ⟨t', h1, h2, h3, -⟩ := scan_spec (i := s.skip.pos) (r := r) (skip_head hr)
    have he : s.skip = ⟨s.skip.pos, c :: r⟩ := by rw [← hr]
    rw [← toks_skip, Cur.toks, hr, h1] at h
    injection h with h4 h5
    subst h4
    refine ⟨?_, ?_, ?_⟩
    · rw [← h2, ← he]
      rfl
    · intro w hw
      rw [h3 w hw, ← he]
      rfl
    · rw [← h5, ← he]
      exact toks_skip _

/-- A token that is no word does not look like one, and no token looks like the end. -/
theorem ret_of_toks {t : Tok} {l : List Tok} (h : s.toks = t :: l) :
    (t.ret = 'a' → ∃ w, t = .word w) ∧ t.ret ≠ '\x00' := by
  cases hr : s.skip.rest with
  | nil =>
    rw [toks_eq_nil.mpr hr] at h
    cases h
  | cons c r =>
    obtain ⟨t', h1, -, -, h4, -⟩ := scan_spec (i := s.skip.pos) (r := r) (skip_head hr)
    rw [← toks_skip, Cur.toks, hr, h1] at h
    injection h with h
    subst h
    cases t' with
    | sym d =>
      have hd := (h4 d rfl).1
      refine ⟨?_, ?_⟩
      · rintro rfl
        cases hd
      · rintro rfl
        cases hd
    | app => exact ⟨nofun, nofun⟩
    | word w => exact ⟨fun _ => ⟨w, rfl⟩, nofun⟩

/-- `peek` looks at the next token. -/
theorem peek_eq {cs : List Char} (hcs : cs.all symbols = true) :
    peek s cs = match s.toks with
      | [] => false
      | t :: _ => t.starts cs := by
  unfold peek
  cases hr : s.skip.rest with
  | nil => rw [toks_eq_nil.mpr hr]
  | cons c r =>
    obtain ⟨t, h1, -, h3, h4, h5, h6⟩ := scan_spec (i := s.skip.pos) (r := r) (skip_head hr)
    rw [← toks_skip, Cur.toks, hr, h1]
    cases t with
    | sym d =>
      obtain ⟨-, rfl⟩ := h4 d rfl
      rfl
    | app =>
      rw [h5 rfl]
      rfl
    | word w =>
      have hc := h6 ⟨w, rfl⟩
      have : c ∉ cs := fun hm => by
        rw [List.all_eq_true.mp hcs c hm] at hc
        cases hc
      simp [this, Tok.starts]

/-! ## Where the words are -/

/-- A word is inside the bytes. -/
theorem word_bounds {s : List Char} (h : .word w ∈ tokens i s) : i ≤ w.q ∧ w.q < w.eq ∧ w.eq ≤ i + s.length := by
  induction i, s using tokens.induct with
  | case1 i => simp [tokens] at h
  | case2 i c s hc ih =>
    rw [tokens, if_pos hc] at h
    have := ih h
    simp only [List.length_cons]
    omega
  | case3 i c s hc hgt ih =>
    rw [tokens, if_neg hc, if_pos hgt] at h
    have := ih (by simpa using h)
    simp only [List.length_cons, List.length_tail] at this ⊢
    omega
  | case4 i c s hc hgt hsym ih =>
    rw [tokens, if_neg hc, if_neg hgt, if_pos hsym] at h
    have := ih (by simpa using h)
    simp only [List.length_cons]
    omega
  | case5 i c s hc hgt hsym n ih =>
    rw [tokens, if_neg hc, if_neg hgt, if_neg hsym] at h
    have hn : (s.takeWhile inWord).length ≤ s.length := (List.takeWhile_sublist _).length_le
    simp only [List.length_cons]
    rcases List.mem_cons.mp h with h | h
    · injection h with h
      subst h
      simp only
      omega
    · have ih := ih h
      have hn' : n = (s.takeWhile inWord).length := rfl
      rw [List.length_drop] at ih
      omega

/-- A word is not at once behind a word. -/
theorem word_after {s : List Char} (hs : ∀ c ∈ s.head?, inWord c = false) (h : .word w ∈ tokens i s) : i < w.q := by
  cases s with
  | nil => simp [tokens] at h
  | cons c s =>
    have hc := hs c rfl
    rw [tokens] at h
    split_ifs at h with h1 h2 h3
    · have := (word_bounds h).1
      omega
    · have := (word_bounds (by simpa using h : Tok.word w ∈ tokens (i + 2) s.tail)).1
      omega
    · have := (word_bounds (by simpa using h : Tok.word w ∈ tokens (i + 1) s)).1
      omega
    · simp [inWord, h1, h3] at hc

/-- Two words do not touch. -/
theorem word_apart {s : List Char} {w' : Word} (h : .word w ∈ tokens i s) (h' : .word w' ∈ tokens i s) :
    w = w' ∨ w.eq < w'.q ∨ w'.eq < w.q := by
  induction i, s using tokens.induct with
  | case1 i => simp [tokens] at h
  | case2 i c s hc ih =>
    rw [tokens, if_pos hc] at h h'
    exact ih h h'
  | case3 i c s hc hgt ih =>
    rw [tokens, if_neg hc, if_pos hgt] at h h'
    exact ih (by simpa using h) (by simpa using h')
  | case4 i c s hc hgt hsym ih =>
    rw [tokens, if_neg hc, if_neg hgt, if_pos hsym] at h h'
    exact ih (by simpa using h) (by simpa using h')
  | case5 i c s hc hgt hsym n ih =>
    rw [tokens, if_neg hc, if_neg hgt, if_neg hsym] at h h'
    -- the word at `i` ends where the bytes of a word end
    have hafter : ∀ v, .word v ∈ tokens (i + 1 + n) (s.drop n) → i + 1 + n < v.q := by
      intro v hv
      refine word_after (fun d hd => ?_) hv
      have hdrop : s.drop n = s.dropWhile inWord := by
        nth_rewrite 1 [← List.takeWhile_append_dropWhile (p := inWord) (l := s)]
        exact List.drop_left
      rw [hdrop] at hd
      have := List.head?_dropWhile_not inWord s
      rw [hd] at this
      simpa using this
    rcases List.mem_cons.mp h with h | h <;> rcases List.mem_cons.mp h' with h' | h'
    · injection h with h
      injection h' with h'
      exact .inl (h.trans h'.symm)
    · injection h with h
      rw [h]
      exact .inr (.inl (hafter w' h'))
    · injection h' with h'
      rw [h']
      exact .inr (.inr (hafter w h))
    · exact ih h h'

/-- No more tokens than bytes. -/
theorem length_tokens (i : Nat) (s : List Char) : (tokens i s).length ≤ s.length := by
  induction i, s using tokens.induct with
  | case1 i => simp [tokens]
  | case2 i c s hc ih =>
    rw [tokens, if_pos hc, List.length_cons]
    omega
  | case3 i c s hc hgt ih =>
    rw [tokens, if_neg hc, if_pos hgt, List.length_cons, List.length_cons]
    rw [List.length_tail] at ih
    have : s ≠ [] := by
      rintro rfl
      simp at hgt
    have := List.length_pos_iff.mpr this
    omega
  | case4 i c s hc hgt hsym ih =>
    rw [tokens, if_neg hc, if_neg hgt, if_pos hsym, List.length_cons, List.length_cons]
    omega
  | case5 i c s hc hgt hsym n ih =>
    rw [tokens, if_neg hc, if_neg hgt, if_neg hsym, List.length_cons, List.length_cons]
    have ih : (tokens (i + 1 + (s.takeWhile inWord).length) (s.drop (s.takeWhile inWord).length)).length ≤
      (s.drop (s.takeWhile inWord).length).length := ih
    rw [List.length_drop] at ih
    omega

end Xv6.Sh
