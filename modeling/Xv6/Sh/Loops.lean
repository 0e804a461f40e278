import Xv6.Sh.Grammar

/-!
# The loops of the shell's parser

`parseredirs`, the loop of `parseexec` over the words and the loop of `parseline` over `&`. For each: what
it has read when it returns derives from its part of the grammar (`sound`); it returns what a derivation
has that is followed by a token where it stops (`complete`); and it does not run out of fuel (`fuel`).
-/

namespace Xv6.Sh

variable {α β : Type}

variable {x : Except Err α} {f : α → Except Err β} {cs cs' : List Char} {l rest : List Tok} {t : Tok}
  {s s' : Cur} {n : Nat} {rs : List Redir} {argv : List Word} {c : Cmd}

theorem ok_of_bind {b : β} (h : x >>= f = .ok b) : ∃ a, x = .ok a ∧ f a = .ok b := by
  cases x with
  | error e => cases h
  | ok a => exact ⟨a, rfl, h⟩

/-- A first part that returns and does not run out of fuel, and then the second one. -/
theorem bind_ne_fuel (hx : x ≠ .error .fuel) (hf : ∀ a, x = .ok a → f a ≠ .error .fuel) : x >>= f ≠ .error .fuel := by
  cases x with
  | error e =>
    intro h
    exact hx (congrArg _ (by injection h))
  | ok a => exact hf a rfl

theorem left_ne_fuel (h : x >>= f ≠ .error .fuel) : x ≠ .error .fuel := by
  rintro rfl
  exact h rfl

/-! ## Where the functions stop -/

/-- The next token, if there is one, starts with one of `cs`. -/
def Stops (cs : List Char) (l : List Tok) : Prop := ∀ t ∈ l.head?, t.starts cs = true

theorem Stops.mono (h : Stops cs l) (hs : cs ⊆ cs') : Stops cs' l := by
  intro t ht
  have := h t ht
  cases t with
  | sym c => exact decide_eq_true (hs (of_decide_eq_true this))
  | app => exact decide_eq_true (hs (of_decide_eq_true this))
  | word w => cases this

/-- A token starts with one character. -/
theorem Tok.starts_disjoint (h : t.starts cs = true) (hd : cs.all (fun c => c ∉ cs') = true) :
    t.starts cs' = false := by
  cases t with
  | sym c => exact decide_eq_false (of_decide_eq_true (List.all_eq_true.mp hd c (of_decide_eq_true h)))
  | app => exact decide_eq_false (of_decide_eq_true (List.all_eq_true.mp hd '>' (of_decide_eq_true h)))
  | word w => rfl

theorem peek_nil (hcs : cs.all symbols = true) (h : s.toks = []) : peek s cs = false := by
  rw [peek_eq hcs, h]

theorem peek_cons (hcs : cs.all symbols = true) (h : s.toks = t :: l) : peek s cs = t.starts cs := by
  rw [peek_eq hcs, h]

/-- `peek` does not find what the next token cannot start with. -/
theorem peek_stops (hcs : cs'.all symbols = true) (h : Stops cs s.toks)
    (hd : cs.all (fun c => c ∉ cs') = true) : peek s cs' = false := by
  cases hl : s.toks with
  | nil => exact peek_nil hcs hl
  | cons t l =>
    rw [peek_cons hcs hl]
    exact Tok.starts_disjoint (h t (by rw [hl]; rfl)) hd

/-- `peek` has found a token. -/
theorem peek_true (hcs : cs.all symbols = true) (h : peek s cs = true) :
    ∃ t l, s.toks = t :: l ∧ t.starts cs = true := by
  cases hl : s.toks with
  | nil =>
    rw [peek_nil hcs hl] at h
    cases h
  | cons t l => exact ⟨t, l, rfl, by rw [← peek_cons hcs hl]; exact h⟩

/-- `peek` for one symbol. -/
theorem peek_sym {c : Char} (hc : symbols c = true) (hgt : c ≠ '>') (h : peek s [c] = true) :
    ∃ l, s.toks = .sym c :: l := by
  obtain ⟨t, l, hl, ht⟩ := peek_true (by simpa using hc) h
  cases t with
  | sym d =>
    have : d = c := by simpa [Tok.starts] using ht
    exact ⟨l, by rw [hl, this]⟩
  | app =>
    simp only [Tok.starts, List.mem_singleton, decide_eq_true_eq] at ht
    exact (hgt ht.symm).elim
  | word w => cases ht

/-- The token that `gettoken` has moved over. -/
theorem next_toks (h : s.toks = t :: l) : (gettoken s.skip).s.toks = l :=
  (gettoken_cons (by rw [toks_skip]; exact h)).2.2

/-! ## `parseredirs` -/

/-- The redirection that a token starts. -/
theorem starts_redir (h : t.starts ['<', '>'] = true) : ∃ mode fd, IsRedir t mode fd := by
  cases t with
  | sym c =>
    simp only [Tok.starts, List.mem_cons, List.not_mem_nil, or_false, decide_eq_true_eq] at h
    rcases h with rfl | rfl
    · exact ⟨_, _, .lt⟩
    · exact ⟨_, _, .gt⟩
  | app => exact ⟨_, _, .app⟩
  | word w => cases h

theorem IsRedir.starts {mode fd : Nat} (h : IsRedir t mode fd) : t.starts ['<', '>'] = true := by
  cases h <;> decide

/-- One turn of `parseredirs` in front of a redirection with its file. -/
theorem parseredirs_turn (n : Nat) (rs : List Redir) {mode fd : Nat} {w : Word}
    (ht : IsRedir t mode fd) (hs : s.toks = t :: .word w :: l) :
    ∃ s', s'.toks = l ∧ parseredirs (n + 1) rs s = parseredirs n (rs ++ [⟨w, mode, fd⟩]) s' := by
  have hp : peek s ['<', '>'] = true := by rw [peek_cons (by decide) hs, ht.starts]
  obtain ⟨h1, -, h2⟩ := gettoken_cons (s := s.skip) (by rw [toks_skip]; exact hs)
  obtain ⟨h3, h4, h5⟩ := gettoken_cons h2
  have h4 := h4 w rfl
  refine ⟨_, h5, ?_⟩
  have h3 : ¬ (gettoken (gettoken s.skip).s).ret ≠ 'a' := by simp [h3, Tok.ret]
  rw [parseredirs, if_pos hp]
  simp only [if_neg h3, ← h4, h1]
  cases ht <;> rfl

theorem parseredirs_sound {rs' : List Redir} (h : parseredirs n rs s = .ok (rs', s')) :
    ∃ l new, s.toks = l ++ s'.toks ∧ Redirs l new ∧ rs' = rs ++ new := by
  induction n generalizing rs s with
  | zero => cases h
  | succ n ih =>
    by_cases hp : peek s ['<', '>'] = true
    · obtain ⟨t, l, hl, ht⟩ := peek_true (by decide) hp
      obtain ⟨mode, fd, ht⟩ := starts_redir ht
      have hg := next_toks hl
      -- the token behind it is a word, or the shell panics
      have hret : (gettoken (gettoken s.skip).s).ret = 'a' := by
        by_contra hne
        rw [parseredirs, if_pos hp] at h
        simp [hne] at h
      cases l with
      | nil =>
        rw [(gettoken_nil hg).1] at hret
        simp at hret
      | cons u l =>
        rw [(gettoken_cons hg).1] at hret
        obtain ⟨w, rfl⟩ := (ret_of_toks hg).1 hret
        obtain ⟨s₁, hs₁, he⟩ := parseredirs_turn n rs ht hl
        rw [he] at h
        obtain ⟨l', new, h1, h2, h3⟩ := ih h
        refine ⟨t :: .word w :: l', ⟨w, mode, fd⟩ :: new, ?_, .cons ht h2, by simp [h3]⟩
        rw [hl, ← hs₁, h1]
        rfl
    · rw [parseredirs, if_neg hp] at h
      cases h
      exact ⟨[], [], by simp, .nil, by simp⟩

theorem parseredirs_complete {new : List Redir} {r : List Tok} (hr : Redirs r new)
    (hs : s.toks = r ++ rest) (hrest : ∀ t ∈ rest.head?, t.starts ['<', '>'] = false)
    (hn : parseredirs n rs s ≠ .error .fuel) : ∃ s', parseredirs n rs s = .ok (rs ++ new, s') ∧ s'.toks = rest := by
  induction hr generalizing n rs s with
  | nil =>
    cases n with
    | zero => exact (hn rfl).elim
    | succ n =>
      have hp : ¬ peek s ['<', '>'] = true := by
        intro hp
        obtain ⟨t, l, hl, ht⟩ := peek_true (by decide) hp
        rw [hrest t (by rw [← List.nil_append rest, ← hs, hl]; rfl)] at ht
        cases ht
      refine ⟨s.skip, ?_, by rw [toks_skip, hs]; rfl⟩
      rw [parseredirs, if_neg hp, List.append_nil]
  | @cons t mode fd w l new ht h ih =>
    cases n with
    | zero => exact (hn rfl).elim
    | succ n =>
      obtain ⟨s₁, hs₁, he⟩ := parseredirs_turn n rs ht hs
      rw [he] at hn ⊢
      obtain ⟨s', h1, h2⟩ := ih hs₁ hn
      exact ⟨s', by rw [h1]; simp, h2⟩

theorem parseredirs_fuel (hn : s.toks.length < n) : parseredirs n rs s ≠ .error .fuel := by
  induction n generalizing rs s with
  | zero => omega
  | succ n ih =>
    by_cases hp : peek s ['<', '>'] = true
    · obtain ⟨t, l, hl, ht⟩ := peek_true (by decide) hp
      obtain ⟨mode, fd, ht⟩ := starts_redir ht
      have hg := next_toks hl
      by_cases hret : (gettoken (gettoken s.skip).s).ret = 'a'
      · cases l with
        | nil =>
          rw [(gettoken_nil hg).1] at hret
          simp at hret
        | cons u l =>
          rw [(gettoken_cons hg).1] at hret
          obtain ⟨w, rfl⟩ := (ret_of_toks hg).1 hret
          obtain ⟨s₁, hs₁, he⟩ := parseredirs_turn n rs ht hl
          rw [he]
          refine ih ?_
          rw [hs₁]
          rw [hl] at hn
          simp only [List.length_cons] at hn
          omega
      · rw [parseredirs, if_pos hp]
        simp [hret]
    · rw [parseredirs, if_neg hp]
      simp

/-! ## The words of a simple command -/

/-- One turn of the loop of `parseexec` in front of a word. -/
theorem parseargs_turn (n : Nat) (rs : List Redir) {w : Word}
    (hs : s.toks = .word w :: l) (ha : argv.length + 1 < MAXARGS) :
    ∃ s', s'.toks = l ∧ parseargs (n + 1) argv rs s =
      (parseredirs n rs s' >>= fun x => parseargs n (argv ++ [w]) x.1 x.2) := by
  have hp : ¬ peek s ['|', ')', '&', ';'] = true := by
    rw [peek_cons (by decide) hs]
    exact Bool.false_ne_true
  obtain ⟨h1, h2, h3⟩ := gettoken_cons (s := s.skip) (by rw [toks_skip]; exact hs)
  have h2 := h2 w rfl
  refine ⟨_, h3, ?_⟩
  rw [parseargs, if_neg hp]
  simp only [h1, Tok.ret, ← h2]
  rw [if_neg (by decide), if_neg (by decide), if_neg (by omega)]

/-- The loop ends in front of a token where a command ends. -/
theorem parseargs_stops (n : Nat) (argv : List Word) (rs : List Redir)
    (hs : Stops ['|', ')', '&', ';'] s.toks) :
    ∃ s', s'.toks = s.toks ∧ parseargs (n + 1) argv rs s = .ok ((Cmd.exec argv).redirs rs, s') := by
  cases hl : s.toks with
  | nil =>
    have hp : ¬ peek s ['|', ')', '&', ';'] = true := by
      rw [peek_nil (by decide) hl]
      exact Bool.false_ne_true
    obtain ⟨h1, h2⟩ := gettoken_nil (s := s.skip) (by rw [toks_skip]; exact hl)
    refine ⟨_, h2, ?_⟩
    rw [parseargs, if_neg hp]
    simp only [h1, if_true]
  | cons t l =>
    have hp : peek s ['|', ')', '&', ';'] = true := by
      rw [peek_cons (by decide) hl]
      exact hs t (by rw [hl]; rfl)
    refine ⟨s.skip, by rw [toks_skip, hl], ?_⟩
    rw [parseargs, if_pos hp]

/-- What the loop does at any token: it stops, panics, or takes a word. -/
theorem parseargs_cases (n : Nat) (argv : List Word) (rs : List Redir) (s : Cur) :
    Stops ['|', ')', '&', ';'] s.toks ∨ (∃ m, parseargs (n + 1) argv rs s = .error (.panic m)) ∨
      ∃ w l, s.toks = .word w :: l ∧ argv.length + 1 < MAXARGS := by
  cases hl : s.toks with
  | nil => exact .inl fun t ht => by cases ht
  | cons t l =>
    by_cases ht : t.starts ['|', ')', '&', ';'] = true
    · refine .inl fun u hu => ?_
      injection hu with hu
      rw [← hu]
      exact ht
    · have hp : ¬ peek s ['|', ')', '&', ';'] = true := by
        rw [peek_cons (by decide) hl]
        exact ht
      have h1 := (gettoken_cons (s := s.skip) (by rw [toks_skip]; exact hl)).1
      obtain ⟨h2, h3⟩ := ret_of_toks hl
      by_cases hw : t.ret = 'a'
      · obtain ⟨w, rfl⟩ := h2 hw
        by_cases ha : argv.length + 1 < MAXARGS
        · exact .inr (.inr ⟨w, l, rfl, ha⟩)
        · refine .inr (.inl ⟨"too many args", ?_⟩)
          rw [parseargs, if_neg hp]
          simp only [h1, if_neg h3]
          rw [if_neg (by simp [hw]), if_pos (by omega)]
      · refine .inr (.inl ⟨"syntax", ?_⟩)
        rw [parseargs, if_neg hp]
        simp only [h1, if_neg h3]
        rw [if_pos hw]

theorem parseargs_sound (h : parseargs n argv rs s = .ok (c, s')) (ha : argv.length < MAXARGS) :
    ∃ l ws rs', s.toks = l ++ s'.toks ∧ Args l ws rs' ∧ (argv ++ ws).length < MAXARGS ∧
      c = (Cmd.exec (argv ++ ws)).redirs (rs ++ rs') := by
  induction n generalizing argv rs s with
  | zero => cases h
  | succ n ih =>
    rcases parseargs_cases n argv rs s with hs | ⟨m, hm⟩ | ⟨w, l, hl, hlen⟩
    · obtain ⟨s₁, h1, h2⟩ := parseargs_stops n argv rs hs
      rw [h2] at h
      cases h
      exact ⟨[], [], [], by simp [h1], .nil, by simpa using ha, by simp⟩
    · rw [hm] at h
      cases h
    · obtain ⟨s₁, h1, h2⟩ := parseargs_turn n rs hl hlen
      rw [h2] at h
      obtain ⟨⟨rs₁, s₂⟩, h3, h4⟩ := ok_of_bind h
      obtain ⟨r, new, h5, h6, rfl⟩ := parseredirs_sound h3
      obtain ⟨l', ws, rs', h7, h8, h9, h10⟩ := ih h4 (by simpa using hlen)
      refine ⟨.word w :: (r ++ l'), w :: ws, new ++ rs', ?_, .cons h6 h8, by simpa using h9, by simp [h10]⟩
      rw [hl, ← h1, h5, h7]
      simp

theorem parseargs_complete (argv : List Word) {ws : List Word} {rs' : List Redir}
    (h : Args l ws rs') (hs : s.toks = l ++ rest) (hrest : Stops ['|', ')', '&', ';'] rest)
    (ha : (argv ++ ws).length < MAXARGS) (hn : parseargs n argv rs s ≠ .error .fuel) :
    ∃ s', parseargs n argv rs s = .ok ((Cmd.exec (argv ++ ws)).redirs (rs ++ rs'), s') ∧ s'.toks = rest := by
  induction h generalizing n argv rs s with
  | nil =>
    cases n with
    | zero => exact (hn rfl).elim
    | succ n =>
      have hs : s.toks = rest := hs
      obtain ⟨s', h1, h2⟩ := parseargs_stops n argv rs (hs ▸ hrest)
      exact ⟨s', by rw [h2]; simp, h1.trans hs⟩
  | @cons w r l new rs' ws hr h ih =>
    cases n with
    | zero => exact (hn rfl).elim
    | succ n =>
      have hlen : argv.length + 1 < MAXARGS := by
        simp only [List.length_append, List.length_cons] at ha
        omega
      obtain ⟨s₁, h1, h2⟩ := parseargs_turn n rs hs hlen
      rw [h2] at hn ⊢
      -- behind the redirections there is a word, or the command ends
      have hnext : ∀ t ∈ (l ++ rest).head?, t.starts ['<', '>'] = false := by
        intro t ht
        cases h with
        | nil => exact Tok.starts_disjoint (hrest t ht) (by decide)
        | cons hr h =>
          injection ht with ht
          rw [← ht]
          rfl
      obtain ⟨s₂, h3, h4⟩ := parseredirs_complete hr (h1.trans (List.append_assoc r l rest)) hnext
        (left_ne_fuel hn)
      rw [h3] at hn ⊢
      obtain ⟨s', h5, h6⟩ := ih (argv ++ [w]) h4 (by simpa using ha) hn
      refine ⟨s', ?_, h6⟩
      show parseargs n (argv ++ [w]) (rs ++ new) s₂ = _
      rw [h5]
      simp

theorem parseargs_fuel (hn : s.toks.length < n) : parseargs n argv rs s ≠ .error .fuel := by
  induction n generalizing argv rs s with
  | zero => omega
  | succ n ih =>
    rcases parseargs_cases n argv rs s with hs | ⟨m, hm⟩ | ⟨w, l, hl, hlen⟩
    · obtain ⟨s₁, -, h2⟩ := parseargs_stops n argv rs hs
      rw [h2]
      simp
    · rw [hm]
      simp
    · obtain ⟨s₁, h1, h2⟩ := parseargs_turn n rs hl hlen
      have hlt : s₁.toks.length < n := by
        rw [hl, List.length_cons] at hn
        rw [h1]
        omega
      rw [h2]
      refine bind_ne_fuel (parseredirs_fuel hlt) fun x hx => ih ?_
      obtain ⟨r, new, h5, -⟩ := parseredirs_sound hx
      rw [h5, List.length_append] at hlt
      omega

/-! ## The loop of `parseline` -/

theorem parseamps_sound {c' : Cmd} (h : parseamps n c s = .ok (c', s')) :
    ∃ k, s.toks = List.replicate k (.sym '&') ++ s'.toks ∧ c' = c.backs k := by
  induction n generalizing c s with
  | zero => cases h
  | succ n ih =>
    by_cases hp : peek s ['&'] = true
    · obtain ⟨l, hl⟩ := peek_sym (by decide) (by decide) hp
      rw [parseamps, if_pos hp] at h
      obtain ⟨k, h1, h2⟩ := ih h
      rw [next_toks hl] at h1
      exact ⟨k + 1, by rw [hl, h1]; rfl, h2⟩
    · rw [parseamps, if_neg hp] at h
      cases h
      exact ⟨0, by simp, rfl⟩

theorem parseamps_complete {k : Nat}
    (hs : s.toks = List.replicate k (.sym '&') ++ rest) (hrest : Stops [')', ';'] rest)
    (hn : parseamps n c s ≠ .error .fuel) : ∃ s', parseamps n c s = .ok (c.backs k, s') ∧ s'.toks = rest := by
  induction k generalizing n c s with
  | zero =>
    cases n with
    | zero => exact (hn rfl).elim
    | succ n =>
      have hs : s.toks = rest := hs
      have hp : ¬ peek s ['&'] = true := by
        rw [peek_stops (by decide) (hs ▸ hrest) (by decide)]
        exact Bool.false_ne_true
      exact ⟨s.skip, by rw [parseamps, if_neg hp]; rfl, by rw [toks_skip, hs]⟩
  | succ k ih =>
    cases n with
    | zero => exact (hn rfl).elim
    | succ n =>
      have hs : s.toks = .sym '&' :: (List.replicate k (.sym '&') ++ rest) := hs
      have hp : peek s ['&'] = true := by
        rw [peek_cons (by decide) hs]
        rfl
      rw [parseamps, if_pos hp] at hn ⊢
      exact ih (next_toks hs) hn

theorem parseamps_fuel (hn : s.toks.length < n) : parseamps n c s ≠ .error .fuel := by
  induction n generalizing c s with
  | zero => omega
  | succ n ih =>
    by_cases hp : peek s ['&'] = true
    · obtain ⟨l, hl⟩ := peek_sym (by decide) (by decide) hp
      rw [parseamps, if_pos hp]
      refine ih ?_
      rw [next_toks hl]
      rw [hl, List.length_cons] at hn
      omega
    · rw [parseamps, if_neg hp]
      simp

end Xv6.Sh
