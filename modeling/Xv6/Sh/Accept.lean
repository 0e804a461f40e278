import Mathlib.Data.Set.Subsingleton
import Xv6.Sh.Loops

/-!
# The parser accepts the grammar

The functions that call each other, in the way of the loops: what each has read derives from its symbol, it
returns the tree of a derivation, and it does not run out of fuel. Then the strings that `nulterminate`
leaves, and `parsecmd` as a whole.
-/

namespace Xv6.Sh

/-! ## The functions that call each other -/

/-- What was read between two places of the cursor derives from the symbol. -/
def Reads (nt : Nt) (s : Cur) (c : Cmd) (s' : Cur) : Prop := ∃ l, s.toks = l ++ s'.toks ∧ Derives nt l c

theorem parse_sound (n : Nat) : (∀ s c s', parseline n s = .ok (c, s') → Reads .line s c s') ∧
    (∀ s c s', parsepipe n s = .ok (c, s') → Reads .pipe s c s') ∧
    (∀ s c s', parseexec n s = .ok (c, s') → Reads .exec s c s') ∧
    (∀ s c s', parseblock n s = .ok (c, s') → Reads .exec s c s') := by
  induction n with
  | zero => refine ⟨?_, ?_, ?_, ?_⟩ <;> (intro s c s' h; cases h)
  | succ n ih =>
    obtain ⟨hline, hpipe, hexec, hblock⟩ := ih
    refine ⟨?_, ?_, ?_, ?_⟩
    · intro s c s' h
      rw [parseline] at h
      obtain ⟨⟨c₁, s₁⟩, h1, h⟩ := ok_of_bind h
      obtain ⟨⟨c₂, s₂⟩, h2, h⟩ := ok_of_bind h
      obtain ⟨l, hl, hd⟩ := hpipe _ _ _ h1
      obtain ⟨k, hk, rfl⟩ := parseamps_sound h2
      by_cases hp : peek s₂ [';'] = true
      · simp only [if_pos hp] at h
        obtain ⟨⟨c₃, s₃⟩, h3, h⟩ := ok_of_bind h
        cases h
        obtain ⟨r, hr⟩ := peek_sym (by decide) (by decide) hp
        obtain ⟨l', hl', hd'⟩ := hline _ _ _ h3
        rw [next_toks hr] at hl'
        exact ⟨_, by rw [hl, hk, hr, hl']; simp, .list k hd hd'⟩
      · simp only [if_neg hp] at h
        cases h
        exact ⟨_, by rw [hl, hk, toks_skip]; simp, .line k hd⟩
    · intro s c s' h
      rw [parsepipe] at h
      obtain ⟨⟨c₁, s₁⟩, h1, h⟩ := ok_of_bind h
      obtain ⟨l, hl, hd⟩ := hexec _ _ _ h1
      by_cases hp : peek s₁ ['|'] = true
      · simp only [if_pos hp] at h
        obtain ⟨⟨c₃, s₃⟩, h3, h⟩ := ok_of_bind h
        cases h
        obtain ⟨r, hr⟩ := peek_sym (by decide) (by decide) hp
        obtain ⟨l', hl', hd'⟩ := hpipe _ _ _ h3
        rw [next_toks hr] at hl'
        exact ⟨_, by rw [hl, hr, hl']; simp, .pipe hd hd'⟩
      · simp only [if_neg hp] at h
        cases h
        exact ⟨l, by rw [hl, toks_skip], .one hd⟩
    · intro s c s' h
      rw [parseexec] at h
      by_cases hp : peek s ['('] = true
      · rw [if_pos hp] at h
        obtain ⟨l, hl, hd⟩ := hblock _ _ _ h
        exact ⟨l, by rw [← hl, toks_skip], hd⟩
      · rw [if_neg hp] at h
        obtain ⟨⟨rs, s₁⟩, h1, h⟩ := ok_of_bind h
        obtain ⟨r, new, hr, hd, rfl⟩ := parseredirs_sound h1
        obtain ⟨l, ws, rs', hl, hargs, hlen, rfl⟩ := parseargs_sound h (by decide)
        rw [toks_skip] at hr
        refine ⟨r ++ l, by rw [hr, hl, List.append_assoc], .simple hd hargs ?_⟩
        exact Nat.le_sub_one_of_lt hlen
    · intro s c s' h
      rw [parseblock] at h
      by_cases hp : peek s ['('] = true
      · rw [if_pos hp] at h
        obtain ⟨⟨c₁, s₁⟩, h1, h⟩ := ok_of_bind h
        obtain ⟨r, hr⟩ := peek_sym (by decide) (by decide) hp
        obtain ⟨l, hl, hd⟩ := hline _ _ _ h1
        rw [next_toks hr] at hl
        by_cases hp' : peek s₁ [')'] = true
        · simp only [if_pos hp'] at h
          obtain ⟨⟨rs, s₂⟩, h2, h⟩ := ok_of_bind h
          cases h
          obtain ⟨r', hr'⟩ := peek_sym (by decide) (by decide) hp'
          obtain ⟨l', new, hl', hd', rfl⟩ := parseredirs_sound h2
          rw [next_toks hr'] at hl'
          exact ⟨_, by rw [hr, hl, hr', hl']; simp, .block hd hd'⟩
        · simp only [if_neg hp'] at h
          cases h
      · rw [if_neg hp] at h
        cases h

/-- The function for a symbol. -/
def parse : Nt → Nat → Cur → Except Err (Cmd × Cur)
  | .line => parseline
  | .pipe => parsepipe
  | .exec => parseexec

/-- Where the function for a symbol stops. -/
def follow : Nt → List Char
  | .line => [')']
  | .pipe => [')', '&', ';']
  | .exec => [')', '&', ';', '|']

variable {cs : List Char} {l : List Tok} {n : Nat} {s s₁ : Cur} {c₁ c : Cmd}

theorem Stops.sym {c : Char} (h : c ∈ cs) : Stops cs (.sym c :: l) := by
  intro t ht
  injection ht with ht
  rw [← ht]
  exact decide_eq_true h

theorem Stops.amps {k : Nat} (hc : '&' ∈ cs) (h : Stops cs l) : Stops cs (List.replicate k (.sym '&') ++ l) := by
  cases k with
  | zero => exact h
  | succ k => exact Stops.sym hc

theorem parseline_then {s₂ : Cur} {c₂ : Cmd} (h1 : parsepipe n s = .ok (c₁, s₁))
    (h2 : parseamps n c₁ s₁ = .ok (c₂, s₂)) : parseline (n + 1) s =
      if peek s₂ [';'] then parseline n (gettoken s₂.skip).s >>= fun x => .ok (.list c₂ x.1, x.2)
      else .ok (c₂, s₂.skip) := by
  rw [parseline, h1]
  show (parseamps n c₁ s₁ >>= _) = _
  rw [h2]
  rfl

theorem parsepipe_then (h1 : parseexec n s = .ok (c₁, s₁)) : parsepipe (n + 1) s =
      if peek s₁ ['|'] then parsepipe n (gettoken s₁.skip).s >>= fun x => .ok (.pipe c₁ x.1, x.2)
      else .ok (c₁, s₁.skip) := by
  rw [parsepipe, h1]
  rfl

theorem parseblock_then (hp : peek s ['('] = true)
    (h1 : parseline n (gettoken s.skip).s = .ok (c₁, s₁)) (hp' : peek s₁ [')'] = true) : parseblock (n + 1) s =
      (parseredirs n [] (gettoken s₁.skip).s >>= fun x => .ok (c₁.redirs x.1, x.2)) := by
  rw [parseblock, if_pos hp, h1]
  show (if peek s₁ [')'] = true then _ else _) = _
  rw [if_pos hp']

/-- The parts of a `parseline` that has fuel have fuel. -/
theorem parseline_parts (hn : parseline (n + 1) s ≠ .error .fuel) :
    parsepipe n s ≠ .error .fuel ∧ ∀ c₁ s₁, parsepipe n s = .ok (c₁, s₁) → parseamps n c₁ s₁ ≠ .error .fuel := by
  rw [parseline] at hn
  refine ⟨left_ne_fuel hn, fun c₁ s₁ h1 => ?_⟩
  rw [h1] at hn
  exact left_ne_fuel hn

/-- No symbol of `cs` is next. -/
theorem not_peek {cs' : List Char} (hcs : cs'.all symbols = true) (h : Stops cs s.toks)
    (hd : cs.all (fun c => c ∉ cs') = true) : ¬ peek s cs' = true := by
  rw [peek_stops hcs h hd]
  exact Bool.false_ne_true

theorem peek_of_sym {c : Char} (hc : symbols c = true) (h : s.toks = .sym c :: l) : peek s [c] = true := by
  rw [peek_cons (by simpa using hc) h]
  simp [Tok.starts]

/-- The redirections of a block end where the command ends. -/
theorem Stops.not_redir (h : Stops cs l) (hd : cs.all (fun c => c ∉ ['<', '>']) = true) :
    ∀ t ∈ l.head?, t.starts ['<', '>'] = false := fun t ht => Tok.starts_disjoint (h t ht) hd

theorem parse_complete {nt : Nt} (h : Derives nt l c) :
    ∀ n s rest, s.toks = l ++ rest → Stops (follow nt) rest → parse nt n s ≠ .error .fuel →
      ∃ s', parse nt n s = .ok (c, s') ∧ s'.toks = rest := by
  induction h with
  | @line l c k h ih =>
    intro n s rest hs hrest hn
    cases n with
    | zero => exact (hn rfl).elim
    | succ n =>
      obtain ⟨hn1, hn2⟩ := parseline_parts hn
      rw [List.append_assoc] at hs
      obtain ⟨s₁, h1, h2⟩ := ih n s _ hs (Stops.amps (by decide) (hrest.mono (by decide))) hn1
      obtain ⟨s₂, h3, h4⟩ := parseamps_complete h2 (hrest.mono (by decide)) (hn2 _ _ h1)
      refine ⟨s₂.skip, ?_, by rw [toks_skip, h4]⟩
      exact (parseline_then h1 h3).trans (if_neg (not_peek (by decide) (h4 ▸ hrest) (by decide)))
  | @list l l' c c' k h h' ih ih' =>
    intro n s rest hs hrest hn
    cases n with
    | zero => exact (hn rfl).elim
    | succ n =>
      obtain ⟨hn1, hn2⟩ := parseline_parts hn
      rw [List.append_assoc, List.append_assoc] at hs
      obtain ⟨s₁, h1, h2⟩ := ih n s _ hs (Stops.amps (by decide) (Stops.sym (by decide))) hn1
      obtain ⟨s₂, h3, h4⟩ := parseamps_complete h2 (Stops.sym (by decide)) (hn2 _ _ h1)
      have hrun := (parseline_then h1 h3).trans (if_pos (peek_of_sym (by decide) h4))
      have hn : parseline (n + 1) s ≠ .error .fuel := hn
      rw [hrun] at hn
      obtain ⟨s₃, h5, h6⟩ := ih' n _ rest (next_toks h4) hrest (left_ne_fuel hn)
      have h5 : parseline n (gettoken s₂.skip).s = .ok (c', s₃) := h5
      refine ⟨s₃, ?_, h6⟩
      show parseline (n + 1) s = _
      rw [hrun, h5]
      rfl
  | @one l c h ih =>
    intro n s rest hs hrest hn
    cases n with
    | zero => exact (hn rfl).elim
    | succ n =>
      have hn : parsepipe (n + 1) s ≠ .error .fuel := hn
      rw [parsepipe] at hn
      obtain ⟨s₁, h1, h2⟩ := ih n s rest hs (hrest.mono (by decide)) (left_ne_fuel hn)
      refine ⟨s₁.skip, ?_, by rw [toks_skip, h2]⟩
      exact (parsepipe_then h1).trans (if_neg (not_peek (by decide) (h2 ▸ hrest) (by decide)))
  | @pipe l l' c c' h h' ih ih' =>
    intro n s rest hs hrest hn
    cases n with
    | zero => exact (hn rfl).elim
    | succ n =>
      have hn : parsepipe (n + 1) s ≠ .error .fuel := hn
      have hn' := hn
      rw [parsepipe] at hn'
      rw [List.append_assoc] at hs
      obtain ⟨s₁, h1, h2⟩ := ih n s _ hs (Stops.sym (by decide)) (left_ne_fuel hn')
      have hrun := (parsepipe_then h1).trans (if_pos (peek_of_sym (by decide) h2))
      rw [hrun] at hn
      obtain ⟨s₂, h3, h4⟩ := ih' n _ rest (next_toks h2) hrest (left_ne_fuel hn)
      have h3 : parsepipe n (gettoken s₁.skip).s = .ok (c', s₂) := h3
      refine ⟨s₂, ?_, h4⟩
      show parsepipe (n + 1) s = _
      rw [hrun, h3]
      rfl
  | @block l r c rs h hr ih =>
    intro n s rest hs hrest hn
    cases n with
    | zero => exact (hn rfl).elim
    | succ n =>
      have hs : s.toks = .sym '(' :: ((l ++ .sym ')' :: r) ++ rest) := hs
      have hp := peek_of_sym (by decide) hs
      have hexec : parseexec (n + 1) s = parseblock n s.skip := by rw [parseexec, if_pos hp]
      have hn : parseexec (n + 1) s ≠ .error .fuel := hn
      rw [hexec] at hn
      cases n with
      | zero => exact (hn rfl).elim
      | succ n =>
        have hs' : s.skip.toks = _ := (toks_skip s).trans hs
        have hp' := peek_of_sym (by decide) hs'
        have hn' := hn
        rw [parseblock, if_pos hp'] at hn'
        have hin : (gettoken s.skip.skip).s.toks = l ++ (.sym ')' :: (r ++ rest)) := by
          rw [next_toks hs', List.append_assoc]
          rfl
        obtain ⟨s₁, h1, h2⟩ := ih n _ _ hin (Stops.sym (by decide)) (left_ne_fuel hn')
        have hrun := parseblock_then hp' h1 (peek_of_sym (by decide) h2)
        rw [hrun] at hn
        obtain ⟨s₂, h3, h4⟩ := parseredirs_complete hr (next_toks h2) (hrest.not_redir (by decide)) (left_ne_fuel hn)
        refine ⟨s₂, ?_, h4⟩
        show parseexec (n + 1 + 1) s = _
        rw [hexec, hrun, h3]
        rfl
  | @simple r l rs rs' ws hr h hlen =>
    intro n s rest hs hrest hn
    cases n with
    | zero => exact (hn rfl).elim
    | succ n =>
      rw [List.append_assoc] at hs
      have hp : ¬ peek s ['('] = true := by
        intro hp
        obtain ⟨m, hm⟩ := peek_sym (by decide) (by decide) hp
        rw [hs] at hm
        cases hr with
        | cons ht _ => cases ht <;> cases hm
        | nil =>
          cases h with
          | cons _ _ => cases hm
          | nil =>
            have := hrest (.sym '(') (by rw [show rest = _ from hm]; rfl)
            cases this
      have hexec : parseexec (n + 1) s = (parseredirs n [] s.skip >>= fun x => parseargs n [] x.1 x.2) := by
        rw [parseexec, if_neg hp]
      have hn : parseexec (n + 1) s ≠ .error .fuel := hn
      rw [hexec] at hn
      have hnext : ∀ t ∈ (l ++ rest).head?, t.starts ['<', '>'] = false := by
        intro t ht
        cases h with
        | nil => exact Tok.starts_disjoint (hrest t ht) (by decide)
        | cons _ _ =>
          injection ht with ht
          rw [← ht]
          rfl
      obtain ⟨s₁, h1, h2⟩ := parseredirs_complete hr ((toks_skip s).trans hs) hnext (left_ne_fuel hn)
      rw [h1] at hn
      obtain ⟨s₂, h3, h4⟩ := parseargs_complete [] h h2 (hrest.mono (by decide))
        (Nat.lt_of_le_of_lt hlen (by decide)) hn
      refine ⟨s₂, ?_, h4⟩
      show parseexec (n + 1) s = _
      rw [hexec, h1]
      exact h3

/-- Fuel for each function: four calls deep for each token. -/
theorem parse_fuel (n : Nat) : (∀ s, 4 * s.toks.length + 4 ≤ n → parseline n s ≠ .error .fuel) ∧
    (∀ s, 4 * s.toks.length + 3 ≤ n → parsepipe n s ≠ .error .fuel) ∧
    (∀ s, 4 * s.toks.length + 2 ≤ n → parseexec n s ≠ .error .fuel) ∧
    (∀ s, 4 * s.toks.length + 1 ≤ n → parseblock n s ≠ .error .fuel) := by
  induction n with
  | zero => refine ⟨?_, ?_, ?_, ?_⟩ <;> (intro s h; omega)
  | succ n ih =>
    obtain ⟨hline, hpipe, hexec, hblock⟩ := ih
    obtain ⟨sline, spipe, sexec, -⟩ := parse_sound n
    refine ⟨?_, ?_, ?_, ?_⟩
    · intro s hn
      rw [parseline]
      refine bind_ne_fuel (hpipe s (by omega)) fun x h1 => ?_
      obtain ⟨l, hl, -⟩ := spipe _ _ _ h1
      rw [hl, List.length_append] at hn
      refine bind_ne_fuel (parseamps_fuel (by omega)) fun y h2 => ?_
      obtain ⟨k, hk, -⟩ := parseamps_sound h2
      rw [hk, List.length_append] at hn
      by_cases hp : peek y.2 [';'] = true
      · obtain ⟨r, hr⟩ := peek_sym (by decide) (by decide) hp
        rw [hr, List.length_cons] at hn
        simp only [if_pos hp]
        refine bind_ne_fuel (hline _ ?_) fun z _ => by simp
        rw [next_toks hr]
        omega
      · simp [if_neg hp]
    · intro s hn
      rw [parsepipe]
      refine bind_ne_fuel (hexec s (by omega)) fun x h1 => ?_
      obtain ⟨l, hl, -⟩ := sexec _ _ _ h1
      rw [hl, List.length_append] at hn
      by_cases hp : peek x.2 ['|'] = true
      · obtain ⟨r, hr⟩ := peek_sym (by decide) (by decide) hp
        rw [hr, List.length_cons] at hn
        simp only [if_pos hp]
        refine bind_ne_fuel (hpipe _ ?_) fun z _ => by simp
        rw [next_toks hr]
        omega
      · simp [if_neg hp]
    · intro s hn
      rw [parseexec]
      by_cases hp : peek s ['('] = true
      · rw [if_pos hp]
        exact hblock _ (by rw [toks_skip]; omega)
      · rw [if_neg hp]
        refine bind_ne_fuel (parseredirs_fuel (by rw [toks_skip]; omega)) fun x h1 => ?_
        obtain ⟨l, new, hl, -⟩ := parseredirs_sound h1
        rw [toks_skip] at hl
        rw [hl, List.length_append] at hn
        exact parseargs_fuel (by omega)
    · intro s hn
      rw [parseblock]
      by_cases hp : peek s ['('] = true
      · obtain ⟨r, hr⟩ := peek_sym (by decide) (by decide) hp
        rw [hr, List.length_cons] at hn
        rw [if_pos hp]
        refine bind_ne_fuel (hline _ (by rw [next_toks hr]; omega)) fun x h1 => ?_
        obtain ⟨l, hl, -⟩ := sline _ _ _ h1
        rw [next_toks hr] at hl
        rw [hl, List.length_append] at hn
        by_cases hp' : peek x.2 [')'] = true
        · obtain ⟨r', hr'⟩ := peek_sym (by decide) (by decide) hp'
          rw [hr', List.length_cons] at hn
          simp only [if_pos hp']
          refine bind_ne_fuel (parseredirs_fuel ?_) fun y _ => by simp
          rw [next_toks hr']
          omega
        · simp [if_neg hp']
      · simp [if_neg hp]

/-! ## The strings of the words -/

/-- The words of a command. -/
def Cmd.words : Cmd → List Word
  | .exec argv => argv
  | .redir cmd file _ _ => cmd.words ++ [file]
  | .pipe left right => left.words ++ right.words
  | .list left right => left.words ++ right.words
  | .back cmd => cmd.words

theorem nulterminate_eq (c : Cmd) (b : List Char) :
    nulterminate c b = c.words.foldl (fun b w => b.set w.eq '\x00') b := by
  induction c generalizing b with
  | exec argv => rfl
  | redir cmd file mode fd ih => simp [nulterminate, Cmd.words, ih]
  | pipe left right ih ih' => simp [nulterminate, Cmd.words, ih, ih']
  | list left right ih ih' => simp [nulterminate, Cmd.words, ih, ih']
  | back cmd ih => exact ih b

theorem getElem?_nuls (ws : List Word) (b : List Char) (i : Nat) :
    (ws.foldl (fun b w => b.set w.eq '\x00') b)[i]? =
      if i < b.length ∧ ∃ w ∈ ws, w.eq = i then some '\x00' else b[i]? := by
  induction ws generalizing b with
  | nil => simp
  | cons w ws ih =>
    rw [List.foldl_cons, ih, List.length_set, List.getElem?_set]
    by_cases hi : i < b.length
    · by_cases hw : w.eq = i
      · simp [hi, hw]
      · simp [hi, hw]
    · simp only [hi, false_and, if_false]
      split
      · rename_i hw
        rw [hw, if_neg hi, List.getElem?_eq_none (by omega)]
      · rfl

theorem words_redirs (c : Cmd) (rs : List Redir) : (c.redirs rs).words = c.words ++ rs.map Redir.file := by
  induction rs generalizing c with
  | nil => simp [Cmd.redirs]
  | cons r rs ih =>
    have := ih (.redir c r.file r.mode r.fd)
    simp only [Cmd.redirs, List.foldl_cons] at this ⊢
    rw [this]
    simp [Cmd.words]

theorem words_backs (c : Cmd) (k : Nat) : (c.backs k).words = c.words := by
  induction k generalizing c with
  | zero => rfl
  | succ k ih => exact ih (.back c)

theorem Redirs.mem {rs : List Redir} (h : Redirs l rs) : ∀ r ∈ rs, .word r.file ∈ l := by
  induction h with
  | nil => simp
  | cons ht h ih =>
    intro r hr
    rcases List.mem_cons.mp hr with rfl | hr
    · simp
    · exact List.mem_cons_of_mem _ (List.mem_cons_of_mem _ (ih r hr))

theorem Args.mem {ws : List Word} {rs : List Redir} (h : Args l ws rs) :
    (∀ w ∈ ws, .word w ∈ l) ∧ ∀ r ∈ rs, .word r.file ∈ l := by
  induction h with
  | nil => simp
  | @cons w r l new rs' ws hr h ih =>
    refine ⟨fun v hv => ?_, fun v hv => ?_⟩
    · rcases List.mem_cons.mp hv with rfl | hv
      · simp
      · exact List.mem_cons_of_mem _ (List.mem_append_right _ (ih.1 v hv))
    · rcases List.mem_append.mp hv with hv | hv
      · exact List.mem_cons_of_mem _ (List.mem_append_left _ (hr.mem v hv))
      · exact List.mem_cons_of_mem _ (List.mem_append_right _ (ih.2 v hv))

/-- The words of a tree are words of the command. -/
theorem Derives.mem {nt : Nt} (h : Derives nt l c) : ∀ w ∈ c.words, .word w ∈ l := by
  induction h with
  | line k h ih =>
    intro w hw
    rw [words_backs] at hw
    exact List.mem_append_left _ (ih w hw)
  | list k h h' ih ih' =>
    intro w hw
    rw [Cmd.words, words_backs] at hw
    rcases List.mem_append.mp hw with hw | hw
    · exact List.mem_append_left _ (ih w hw)
    · exact List.mem_append_right _ (List.mem_append_right _ (List.mem_cons_of_mem _ (ih' w hw)))
  | one h ih => exact ih
  | pipe h h' ih ih' =>
    intro w hw
    rcases List.mem_append.mp hw with hw | hw
    · exact List.mem_append_left _ (ih w hw)
    · exact List.mem_append_right _ (List.mem_cons_of_mem _ (ih' w hw))
  | block h hr ih =>
    intro w hw
    rw [words_redirs] at hw
    rcases List.mem_append.mp hw with hw | hw
    · exact List.mem_cons_of_mem _ (List.mem_append_left _ (ih w hw))
    · obtain ⟨r, hr', rfl⟩ := List.mem_map.mp hw
      exact List.mem_cons_of_mem _ (List.mem_append_right _ (List.mem_cons_of_mem _ (hr.mem r hr')))
  | simple hr h hn =>
    intro w hw
    rw [words_redirs, List.map_append] at hw
    rcases List.mem_append.mp hw with hw | hw
    · exact List.mem_append_right _ (h.mem.1 w hw)
    · rcases List.mem_append.mp hw with hw | hw
      · obtain ⟨r, hr', rfl⟩ := List.mem_map.mp hw
        exact List.mem_append_left _ (hr.mem r hr')
      · obtain ⟨r, hr', rfl⟩ := List.mem_map.mp hw
        exact List.mem_append_right _ (h.mem.2 r hr')

/-- The string at a pointer ends at the first NUL. -/
theorem takeWhile_of_nul {l : List Char} (h : ∀ j < n, ∀ c, l[j]? = some c → c ≠ '\x00')
    (hn : l[n]? = some '\x00') : l.takeWhile (· ≠ '\x00') = l.take n := by
  induction n generalizing l with
  | zero =>
    cases l with
    | nil => rfl
    | cons c l =>
      have : c = '\x00' := by simpa using hn
      simp [this]
  | succ n ih =>
    cases l with
    | nil => rfl
    | cons c l =>
      have hc : c ≠ '\x00' := h 0 (by omega) c rfl
      rw [List.takeWhile_cons, if_pos (by simpa using hc), List.take_succ_cons,
        ih (fun j hj d hd => h (j + 1) (by omega) d hd) hn]

/-- `nulterminate` makes the strings of words that do not touch each other. -/
theorem cstring_nulterminate {s : List Char} (h0 : '\x00' ∉ s) (hw : ∀ w ∈ c.words, .word w ∈ tokens 0 s) :
    ∀ w ∈ c.words, cstring (nulterminate c (s ++ ['\x00'])) w.q = w.text s := by
  intro w hmem
  obtain ⟨-, h2, h3⟩ := word_bounds (hw w hmem)
  rw [Nat.zero_add] at h3
  have hlen : (s ++ ['\x00']).length = s.length + 1 := by simp
  rw [cstring, Word.text, nulterminate_eq]
  generalize hb : c.words.foldl (fun b w => b.set w.eq '\x00') (s ++ ['\x00']) = b
  have hget : ∀ i, b[i]? = if i < s.length + 1 ∧ ∃ w ∈ c.words, w.eq = i then some '\x00' else (s ++ ['\x00'])[i]? := by
    intro i
    rw [← hb, getElem?_nuls, hlen]
  -- no NUL is written into the word
  have hin : ∀ i, w.q ≤ i → i < w.eq → b[i]? = s[i]? := by
    intro i hi1 hi2
    rw [hget, if_neg, List.getElem?_append_left (by omega)]
    rintro ⟨-, v, hv, rfl⟩
    obtain ⟨-, h4, -⟩ := word_bounds (hw v hv)
    rcases word_apart (hw v hv) (hw w hmem) with rfl | h | h
    · omega
    · omega
    · omega
  have hend : (b.drop w.q)[w.eq - w.q]? = some '\x00' := by
    rw [List.getElem?_drop, hget, if_pos]
    exact ⟨by omega, w, hmem, by omega⟩
  rw [takeWhile_of_nul ?_ hend]
  · refine List.ext_getElem? fun j => ?_
    by_cases hj : j < w.eq - w.q
    · rw [List.getElem?_take_of_lt hj, List.getElem?_take_of_lt hj, List.getElem?_drop, List.getElem?_drop,
        hin _ (by omega) (by omega)]
    · rw [List.getElem?_take_eq_none (by omega), List.getElem?_take_eq_none (by omega)]
  · intro j hj d hd
    rw [List.getElem?_drop, hin _ (by omega) (by omega)] at hd
    rintro rfl
    exact h0 (List.mem_of_getElem? hd)

/-! ## Every command -/

/-- What the parser returns is the tree of a derivation, with the strings made in the line. -/
theorem parsecmd_sound {s b : List Char} (h : parsecmd n s = .ok (c, b)) :
    Derives .line (tokens 0 s) c ∧ b = nulterminate c (s ++ ['\x00']) := by
  obtain ⟨⟨c₁, s₁⟩, h1, h⟩ := ok_of_bind h
  by_cases hr : s₁.skip.rest = []
  · simp only [hr, ne_eq, not_true_eq_false, if_false] at h
    cases h
    obtain ⟨l, hl, hd⟩ := (parse_sound n).1 _ _ _ h1
    rw [toks_eq_nil.mpr hr, List.append_nil] at hl
    have hl : tokens 0 s = l := hl
    exact ⟨hl ▸ hd, rfl⟩
  · simp only [ne_eq, hr, not_false_eq_true, if_true] at h
    cases h

/-- **The shell's parser accepts exactly its grammar**, for every command `s` and enough fuel: it does not
run on; it returns a tree exactly if the tree is that of a derivation of the tokens; and after
`nulterminate` the string at each word of the tree is the text of the word. -/
theorem parsecmd_accepts (s : List Char) (h0 : '\x00' ∉ s) (n : Nat) (hn : 4 * s.length + 4 ≤ n) :
    parsecmd n s ≠ .error .fuel ∧
    (∀ c, Derives .line (tokens 0 s) c ↔ ∃ b, parsecmd n s = .ok (c, b)) ∧
    ∀ c b, parsecmd n s = .ok (c, b) → ∀ w ∈ c.words, cstring b w.q = w.text s := by
  have hlen := length_tokens 0 s
  have hfuel : parseline n ⟨0, s⟩ ≠ .error .fuel := (parse_fuel n).1 ⟨0, s⟩ (by simp only [Cur.toks]; omega)
  refine ⟨?_, fun c => ⟨fun h => ?_, fun h => h.elim fun b hb => (parsecmd_sound hb).1⟩, fun c b h => ?_⟩
  · refine bind_ne_fuel hfuel fun x _ => ?_
    by_cases hr : x.2.skip.rest = [] <;> simp [hr]
  · obtain ⟨s', h1, h2⟩ := parse_complete h n ⟨0, s⟩ [] (by simp [Cur.toks]) (fun t ht => by cases ht) hfuel
    have h1 : parseline n ⟨0, s⟩ = .ok (c, s') := h1
    refine ⟨nulterminate c (s ++ ['\x00']), ?_⟩
    rw [parsecmd, h1]
    show (if s'.skip.rest ≠ [] then _ else _) = _
    rw [if_neg (by simpa using toks_eq_nil.mp h2)]
  · obtain ⟨hd, rfl⟩ := parsecmd_sound h
    exact cstring_nulterminate h0 hd.mem

/-- `(a;b)>f&` has a tree, and `a|)` has none. -/
theorem parsecmd_accepts_block :
    (Derives .line (tokens 0 "(a;b)>f&".toList)
      (.back (.redir (.list (.exec [⟨1, 2⟩]) (.exec [⟨3, 4⟩])) ⟨6, 7⟩ (O_WRONLY ||| O_CREATE ||| O_TRUNC) 1))) ∧
    ∀ c, ¬ Derives .line (tokens 0 "a|)".toList) c := by
  refine ⟨?_, fun c h => ?_⟩
  · exact ((parsecmd_accepts "(a;b)>f&".toList (by decide) 40 (by decide)).2.1 _).mpr
      ⟨"(a\x00b\x00>f\x00\x00".toList, by decide +kernel⟩
  · obtain ⟨b, hb⟩ := ((parsecmd_accepts "a|)".toList (by decide) 20 (by decide)).2.1 c).mp h
    have : parsecmd 20 "a|)".toList = .error (.panic "syntax") := by decide +kernel
    rw [this] at hb
    cases hb

/-- **The grammar is unambiguous**: a command has one tree at most. The parser finds the tree of each derivation, and
it has one result. -/
theorem derives_subsingleton (s : List Char) : {c | Derives .line (tokens 0 s) c}.Subsingleton := by
  have hlen := length_tokens 0 s
  have hfuel : parse .line (4 * s.length + 4) ⟨0, s⟩ ≠ .error .fuel :=
    (parse_fuel _).1 ⟨0, s⟩ (by simp only [Cur.toks]; omega)
  have hparse : ∀ {c}, Derives .line (tokens 0 s) c → ∃ s', parse .line (4 * s.length + 4) ⟨0, s⟩ = .ok (c, s') := by
    intro c h
    obtain ⟨s', h', -⟩ := parse_complete h _ ⟨0, s⟩ [] (by simp [Cur.toks]) (fun t ht => by cases ht) hfuel
    exact ⟨s', h'⟩
  intro c h c' h'
  obtain ⟨s₁, h₁⟩ := hparse h
  obtain ⟨s₂, h₂⟩ := hparse h'
  cases h₁.symm.trans h₂
  rfl

end Xv6.Sh
